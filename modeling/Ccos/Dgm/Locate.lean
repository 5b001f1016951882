import Ccos.Dgm.Archive
import Ccos.Lib.CharBoundary
import Ccos.Lib.Splits

/-!
# The place of a patch

Where a pattern stands in a file, in bytes: the only exact match, or the only run of whole lines that equals the
pattern's lines but for blanks. The exact pass counts matches that do not overlap, so a pattern that overlaps itself
can count once and stand in two places.
-/

open Occurrences

namespace Ccos.ByteSpans

/-! ## The search -/

/-- The loop of `line_spans`: a line from `start` goes on at `i`. -/
def lineSpansFrom (start i : Nat) : Str → List (Nat × Nat)
  | [] => if start < i then [(start, i)] else []
  | c :: rest =>
    if c = '\n' then (start, i) :: lineSpansFrom (i + 1) (i + 1) rest else lineSpansFrom start (i + c.utf8Size) rest

def lineSpans (s : Str) : List (Nat × Nat) :=
  let spans := lineSpansFrom 0 0 s
  if spans = [] then [(0, byteLen s)] else spans

/-- Whether the lines of the needle stand at the front of the spans. `none` is a panic. -/
def runMatches (content : Str) : List (Nat × Nat) → List Str → Option Bool
  | _, [] => some true
  | [], _ :: _ => none
  | (s, e) :: spans, line :: needle =>
    (slice content s e).bind fun text => if trim text = line then runMatches content spans needle else some false

def fuzzyHits (content : Str) (spans : List (Nat × Nat)) (needle : List Str) : Option (List Nat) :=
  (List.range (spans.length - needle.length + 1)).foldlM (fun hits start =>
    (runMatches content (spans.drop start) needle).map fun found => if found then hits ++ [start] else hits) []

/-- The pass that compares trimmed lines. -/
def locateLines (content find : Str) : Option (Except Str (Nat × Nat)) :=
  let spans := lineSpans content
  let needle := needleLines find
  if needle = [] ∨ spans.length < needle.length then some (.error "pattern not found".toList)
  else
    (fuzzyHits content spans needle).bind fun
      | [start] =>
        (spans[start]?).bind fun first => (spans[start + needle.length - 1]?).map fun last => .ok (first.1, last.2)
      | [] => some (.error "pattern not found".toList)
      | many => some (.error ("pattern is not unique (".toList ++ natStr many.length ++ " fuzzy occurrences)".toList))

/-- The bytes that the pattern stands for. `none` is a panic. -/
def locateMatch (content find : Str) : Option (Except Str (Nat × Nat)) :=
  match countMatches find content with
  | 1 => (splitOnce find content).map fun (before, _) => .ok (byteLen before, byteLen before + byteLen find)
  | 0 => locateLines content find
  | n => some (.error ("pattern is not unique (".toList ++ natStr n ++ " occurrences)".toList))

/-! ## Exact matches -/

theorem not_at_of_splitOnce {p s : Str} (h : splitOnce p s = none) (n : Nat) : ¬ At p s n := by
  induction s generalizing n with
  | nil =>
    rintro ⟨a, b, hs, -⟩
    have hp : p = [] := by
      have := congrArg List.length hs
      rw [List.length_append, List.length_append, List.length_nil] at this
      exact List.eq_nil_of_length_eq_zero (by omega)
    rw [splitOnce, if_pos hp] at h
    cases h
  | cons c s ih =>
    rw [splitOnce] at h
    split at h
    · cases h
    · rename_i hstrip
      rw [Option.map_eq_none_iff] at h
      intro hn
      cases n with
      | zero =>
        obtain ⟨x, y, hxy, hlen⟩ := hn
        rw [List.eq_nil_of_length_eq_zero hlen, List.nil_append] at hxy
        have hsome : stripPrefix p (c :: s) = some y := List.isPrefixOf?_eq_some_iff_append_eq.mpr hxy.symm
        rw [hsome] at hstrip
        cases hstrip
      | succ n =>
        have hshift : At p ([c] ++ s) ([c].length + n) := by rwa [List.length_singleton, Nat.add_comm]
        exact ih h n (at_append_iff.mp hshift)

theorem splitGo_drop {p : Str} (piece s : Str) {skip : Nat} (h : skip ≤ s.length) :
    splitGo p skip piece s = splitGo p 0 piece (s.drop skip) := by
  induction skip generalizing s with
  | zero => rw [List.drop_zero]
  | succ skip ih =>
    cases s with
    | nil => simp at h
    | cons c s =>
      rw [splitGo, List.drop_succ_cons]
      exact ih s (by simpa using h)

/-- A split cuts at the first match and goes on behind it. -/
theorem splitGo_eq {p : Str} (hp : p ≠ []) (piece s : Str) : splitGo p 0 piece s =
    match splitOnce p s with
    | none => [piece ++ s]
    | some (a, b) => (piece ++ a) :: splitGo p 0 [] b := by
  induction s generalizing piece with
  | nil =>
    rw [splitOnce, if_neg hp, splitGo, List.append_nil]
  | cons c s ih =>
    rw [splitGo, splitOnce]
    cases hstrip : stripPrefix p (c :: s) with
    | some rest =>
      have happend : c :: s = p ++ rest := (List.isPrefixOf?_eq_some_iff_append_eq.mp hstrip).symm
      have hstarts : startsWith p (c :: s) = true := by
        rw [startsWith, List.isPrefixOf_iff_prefix]
        exact ⟨rest, happend.symm⟩
      obtain ⟨d, q, rfl⟩ := List.exists_cons_of_ne_nil hp
      obtain ⟨rfl, rfl⟩ := List.cons.inj happend
      rw [if_pos hstarts, splitGo_drop _ _ (by simp)]
      simp
    | none =>
      have hstarts : startsWith p (c :: s) = false := by
        rw [startsWith, ← Bool.not_eq_true, List.isPrefixOf_iff_prefix]
        rintro ⟨rest, hrest⟩
        have hsome : stripPrefix p (c :: s) = some rest := List.isPrefixOf?_eq_some_iff_append_eq.mpr hrest
        rw [hsome] at hstrip
        cases hstrip
      rw [if_neg (by rw [hstarts]; decide), ih]
      cases splitOnce p s with
      | none => simp
      | some cut => simp

theorem countMatches_eq {p : Str} (hp : p ≠ []) (s : Str) : countMatches p s =
    match splitOnce p s with
    | none => 0
    | some (_, b) => countMatches p b + 1 := by
  have hpos : ∀ piece t, 0 < (splitGo p 0 piece t).length := by
    intro piece t
    rw [splitGo_eq hp]
    split <;> simp
  unfold countMatches split
  rw [if_neg hp, splitGo_eq hp]
  split
  · rfl
  · rename_i a b _
    rw [if_neg hp, List.length_cons, Nat.add_sub_cancel]
    exact (Nat.sub_add_cancel (hpos [] b)).symm

/-! ## Lines -/

/-- The bytes of some lines, with a line feed behind each of them. -/
def offset (lines : List Str) : Nat := byteLen (lines.flatMap (· ++ ['\n']))

theorem offset_cons (line : Str) (rest : List Str) : offset (line :: rest) = byteLen line + 1 + offset rest := by
  rw [offset, List.flatMap_cons, byteLen_append, byteLen_append]
  rfl

theorem offset_append (a b : List Str) : offset (a ++ b) = offset a + offset b := by
  rw [offset, List.flatMap_append, byteLen_append]
  rfl

theorem length_le_offset (lines : List Str) : lines.length ≤ offset lines := by
  induction lines with
  | nil => exact Nat.zero_le _
  | cons line rest ih =>
    rw [offset_cons, List.length_cons]
    omega

def spansWith (start : Nat) : List Str → List (Nat × Nat)
  | [] => []
  | line :: rest => (start, start + byteLen line) :: spansWith (start + byteLen line + 1) rest

theorem length_spansWith (start : Nat) (lines : List Str) : (spansWith start lines).length = lines.length := by
  induction lines generalizing start with
  | nil => rfl
  | cons line rest ih => rw [spansWith, List.length_cons, List.length_cons, ih]

theorem drop_spansWith (start k : Nat) (lines : List Str) :
    (spansWith start lines).drop k = spansWith (start + offset (lines.take k)) (lines.drop k) := by
  induction k generalizing start lines with
  | zero => rfl
  | succ k ih =>
    cases lines with
    | nil => rfl
    | cons line rest =>
      rw [spansWith, List.drop_succ_cons, List.drop_succ_cons, List.take_succ_cons, offset_cons, ih]
      congr 1
      omega

/-- The loop yields the lines, but for an empty one at the end. -/
theorem lineSpansFrom_eq (start : Nat) {piece : Str} (hpiece : '\n' ∉ piece) (rest : Str) :
    ∃ kept, ((piece ++ rest).splitOn '\n' = kept ∨ (piece ++ rest).splitOn '\n' = kept ++ [[]]) ∧
      lineSpansFrom start (start + byteLen piece) rest = spansWith start kept := by
  induction rest generalizing start piece with
  | nil =>
    rw [List.append_nil, List.splitOn_eq_singleton hpiece, lineSpansFrom]
    split
    · exact ⟨[piece], .inl rfl, rfl⟩
    · have hempty : piece = [] := byteLen_eq_zero (by omega)
      exact ⟨[], .inr (by rw [hempty]; rfl), rfl⟩
  | cons c rest ih =>
    rw [lineSpansFrom]
    split
    · rename_i hc
      subst hc
      obtain ⟨kept, hkept, hspans⟩ := ih (start + byteLen piece + 1) (List.not_mem_nil : '\n' ∉ ([] : Str))
      rw [List.nil_append] at hkept
      rw [byteLen_nil, Nat.add_zero] at hspans
      rw [List.splitOn_append_cons_self_of_not_mem hpiece]
      refine ⟨piece :: kept, ?_, by rw [hspans]; rfl⟩
      rcases hkept with hkept | hkept
      · exact .inl (by rw [hkept])
      · exact .inr (by rw [hkept]; rfl)
    · rename_i hc
      have hnext : '\n' ∉ piece ++ [c] := by
        rw [List.mem_append, List.mem_singleton, not_or]
        exact ⟨hpiece, fun h => hc h.symm⟩
      have hrest := ih start hnext
      rwa [byteLen_append, byteLen_cons, byteLen_nil, Nat.add_zero, ← Nat.add_assoc, List.append_assoc,
        List.singleton_append] at hrest

/-- The lines of a text that have spans. -/
structure LinesOf (content : Str) (kept : List Str) : Prop where
  lines : content.splitOn '\n' = kept ∨ content.splitOn '\n' = kept ++ [[]]
  spans : lineSpans content = spansWith 0 kept

theorem exists_linesOf (content : Str) : ∃ kept, LinesOf content kept := by
  obtain ⟨kept, hkept, hspans⟩ := lineSpansFrom_eq 0 (List.not_mem_nil : '\n' ∉ ([] : Str)) content
  rw [List.nil_append] at hkept
  rw [byteLen_nil, Nat.add_zero] at hspans
  by_cases hempty : lineSpansFrom 0 0 content = []
  · -- Without any span the text is empty, and a line of its own.
    have hnone : kept = [] := by
      rw [hspans] at hempty
      exact List.eq_nil_of_length_eq_zero (by rw [← length_spansWith 0 kept, hempty]; rfl)
    subst hnone
    have hlines : content.splitOn '\n' = [[]] := by
      rcases hkept with h | h
      · exact absurd h (List.splitOn_ne_nil _ _)
      · exact h
    have hcontent : content = [] := by
      have hjoined : ['\n'].intercalate (content.splitOn '\n') = content := List.intercalate_splitOn _
      rw [← hjoined, hlines]
      rfl
    exact ⟨[[]], .inl hlines, by rw [hcontent]; rfl⟩
  · exact ⟨kept, hkept, by rw [← hspans]; exact if_neg hempty⟩

theorem joinWith_append (before : List Str) {after : List Str} (h : after ≠ []) :
    joinWith ['\n'] (before ++ after) = before.flatMap (· ++ ['\n']) ++ joinWith ['\n'] after := by
  induction before with
  | nil => rfl
  | cons line rest ih =>
    have hcons : joinWith ['\n'] (line :: (rest ++ after)) = line ++ ['\n'] ++ joinWith ['\n'] (rest ++ after) :=
      List.intercalate_cons_of_ne_nil (List.append_ne_nil_of_right_ne_nil rest h)
    refine hcons.trans ?_
    rw [List.flatMap_cons, List.append_assoc (line ++ ['\n']), ← ih]

theorem exists_joinWith_append {lines : List Str} (hne : lines ≠ []) (after : List Str) :
    ∃ rest, joinWith ['\n'] (lines ++ after) = joinWith ['\n'] lines ++ rest := by
  rcases List.eq_nil_or_concat lines with rfl | ⟨init, last, rfl⟩
  · exact absurd rfl hne
  · by_cases hafter : after = []
    · exact ⟨[], by rw [hafter, List.append_nil, List.append_nil]⟩
    · refine ⟨'\n' :: joinWith ['\n'] after, ?_⟩
      rw [joinWith_append _ hafter, List.concat_eq_append, joinWith_append init (List.cons_ne_nil last []),
        List.flatMap_append]
      simp [joinWith]

theorem slice_line {content : Str} {before after : List Str} {line : Str}
    (h : content.splitOn '\n' = before ++ line :: after) :
    slice content (offset before) (offset before + byteLen line) = some line := by
  have hjoin : content = before.flatMap (· ++ ['\n']) ++ joinWith ['\n'] (line :: after) := by
    rw [← joinWith_append before (List.cons_ne_nil line after), ← h]
    exact (List.intercalate_splitOn '\n').symm
  obtain ⟨rest, hrest⟩ := exists_joinWith_append (List.cons_ne_nil line []) after
  have hline : joinWith ['\n'] (line :: after) = line ++ rest := by
    rwa [joinWith, joinWith, List.intercalate_singleton] at hrest
  rw [hjoin, hline, ← List.append_assoc]
  exact slice_append _ _ _

/-! ## Runs of lines -/

/-- Some consecutive lines that equal the needle but for blanks, without the last line feed. -/
def IsRun (content : Str) (needle : List Str) (s e : Nat) : Prop :=
  ∃ before lines after, content.splitOn '\n' = before ++ lines ++ after ∧ lines.map trim = needle ∧
    s = offset before ∧ e = s + byteLen (joinWith ['\n'] lines)

def OnlyRun (content : Str) (needle : List Str) (s e : Nat) : Prop :=
  IsRun content needle s e ∧ ∀ s' e', IsRun content needle s' e' → s' = s ∧ e' = e

theorem runMatches_eq {content : Str} {before lines : List Str} (after : List Str)
    (h : content.splitOn '\n' = before ++ lines ++ after) {needle : List Str} (hlen : needle.length ≤ lines.length) :
    runMatches content (spansWith (offset before) lines) needle =
      some (decide ((lines.take needle.length).map trim = needle)) := by
  induction needle generalizing before lines with
  | nil => simp [runMatches]
  | cons first needle ih =>
    cases lines with
    | nil => simp at hlen
    | cons line lines =>
      have hnext : content.splitOn '\n' = before ++ [line] ++ lines ++ after := by simpa using h
      have hoffset : offset before + byteLen line + 1 = offset (before ++ [line]) := by
        rw [offset_append, offset_cons]
        rfl
      rw [List.append_assoc, List.cons_append] at h
      rw [spansWith, runMatches, slice_line h, Option.bind_some, hoffset, ih hnext (by simpa using hlen),
        List.length_cons, List.take_succ_cons, List.map_cons]
      by_cases htrim : trim line = first
      · simp [htrim]
      · simp [htrim]

theorem foldlM_hits {f : Nat → Option Bool} {p : Nat → Bool} {l : List Nat} (h : ∀ k ∈ l, f k = some (p k))
    (hits : List Nat) :
    l.foldlM (fun hits k => (f k).map fun found => if found then hits ++ [k] else hits) hits =
      some (hits ++ l.filter p) := by
  induction l generalizing hits with
  | nil => rw [List.foldlM_nil, List.filter_nil, List.append_nil]; rfl
  | cons k l ih =>
    rw [List.foldlM_cons, h k List.mem_cons_self, Option.map_some, Option.bind_eq_bind, Option.bind_some,
      ih fun k hk => h k (List.mem_cons_of_mem _ hk), List.filter_cons]
    cases p k <;> simp

def hitsIn (kept needle : List Str) : List Nat :=
  (List.range (kept.length - needle.length + 1)).filter fun k =>
    decide (((kept.drop k).take needle.length).map trim = needle)

theorem fuzzyHits_eq {content : Str} {kept needle : List Str} (h : LinesOf content kept)
    (hlen : needle.length ≤ kept.length) :
    fuzzyHits content (lineSpans content) needle = some (hitsIn kept needle) := by
  unfold fuzzyHits hitsIn
  rw [h.spans, length_spansWith]
  refine (foldlM_hits (fun k hk => ?_) []).trans (by rw [List.nil_append])
  have hk : k + needle.length ≤ kept.length := by
    have := List.mem_range.mp hk
    omega
  rw [drop_spansWith, Nat.zero_add]
  rcases h.lines with hlines | hlines
  · refine runMatches_eq [] ?_ (by rw [List.length_drop]; omega)
    rw [List.append_nil, List.take_append_drop, hlines]
  · refine runMatches_eq [[]] ?_ (by rw [List.length_drop]; omega)
    rw [List.take_append_drop, hlines]

theorem getLast_needleLines {find : Str} (h : needleLines find ≠ []) : (needleLines find).getLast h ≠ [] := by
  unfold needleLines at h ⊢
  rw [List.getLast_reverse]
  have hnot := List.head_dropWhile_not (fun line : Str => decide (line = []))
    (l := (((lines find).map trim).dropWhile (· = [])).reverse) (fun hnil => h (by rw [hnil]; rfl))
  simpa using hnot

theorem mem_hitsIn {kept needle : List Str} (hne : needle ≠ []) {k : Nat} :
    k ∈ hitsIn kept needle ↔ ((kept.drop k).take needle.length).map trim = needle := by
  unfold hitsIn
  rw [List.mem_filter, List.mem_range, decide_eq_true_eq, and_iff_right_of_imp]
  intro h
  have hlen := congrArg List.length h
  have hpos := List.length_pos_of_ne_nil hne
  rw [List.length_map, List.length_take, List.length_drop] at hlen
  omega

theorem le_of_mem_hitsIn {kept needle : List Str} (hne : needle ≠ []) {k : Nat} (h : k ∈ hitsIn kept needle) :
    k + needle.length ≤ kept.length := by
  have hlen := congrArg List.length ((mem_hitsIn hne).mp h)
  have hpos := List.length_pos_of_ne_nil hne
  rw [List.length_map, List.length_take, List.length_drop] at hlen
  omega

def spanOf (kept : List Str) (width k : Nat) : Nat × Nat :=
  (offset (kept.take k), offset (kept.take k) + byteLen (joinWith ['\n'] ((kept.drop k).take width)))

/-- The runs of a needle that ends in no blank line are its hits. -/
theorem isRun_iff {content : Str} {kept needle : List Str} (h : LinesOf content kept) (hne : needle ≠ [])
    (hlast : needle.getLast hne ≠ []) {s e : Nat} :
    IsRun content needle s e ↔ ∃ k ∈ hitsIn kept needle, (s, e) = spanOf kept needle.length k := by
  have hhit : ∀ before lines after, kept = before ++ lines ++ after → lines.map trim = needle →
      before.length ∈ hitsIn kept needle ∧
        spanOf kept needle.length before.length = (offset before, offset before + byteLen (joinWith ['\n'] lines)) := by
    intro before lines after hkept hlines
    have hwidth : needle.length = lines.length := by rw [← hlines, List.length_map]
    have htake : kept.take before.length = before := by rw [hkept, List.append_assoc, List.take_left]
    have hdrop : (kept.drop before.length).take needle.length = lines := by
      rw [hkept, List.append_assoc, List.drop_left, hwidth, List.take_left]
    rw [mem_hitsIn hne, spanOf, htake, hdrop]
    exact ⟨hlines, rfl⟩
  constructor
  · rintro ⟨before, lines, after, hsplit, hlines, rfl, rfl⟩
    have hkept : ∃ rest, kept = before ++ lines ++ rest := by
      rcases h.lines with hall | hall
      · exact ⟨after, hall.symm.trans hsplit⟩
      · rw [hall] at hsplit
        rcases List.eq_nil_or_concat after with rfl | ⟨rest, line, rfl⟩
        · -- The run would end in the empty line behind the last line feed.
          rw [List.append_nil] at hsplit
          have hblank : lines.getLast? = some [] := by
            have hend := congrArg List.getLast? hsplit
            have hlinesNe : lines ≠ [] := by rintro rfl; exact hne hlines.symm
            rw [List.getLast?_append, List.getLast?_append_of_ne_nil _ hlinesNe] at hend
            simpa using hend.symm
          have hlastBlank := congrArg List.getLast? hlines
          rw [List.getLast?_map, hblank, List.getLast?_eq_some_getLast hne] at hlastBlank
          exact absurd (Option.some.inj hlastBlank).symm hlast
        · rw [List.concat_eq_append, ← List.append_assoc] at hsplit
          exact ⟨rest, (List.append_inj' hsplit rfl).1⟩
    obtain ⟨rest, hkept⟩ := hkept
    obtain ⟨hmem, hspan⟩ := hhit before lines rest hkept hlines
    exact ⟨before.length, hmem, hspan.symm⟩
  · rintro ⟨k, hk, hspan⟩
    obtain ⟨rfl, rfl⟩ := Prod.mk.inj hspan
    have hsplit : kept = kept.take k ++ (kept.drop k).take needle.length ++ (kept.drop k).drop needle.length := by
      rw [List.append_assoc, List.take_append_drop, List.take_append_drop]
    refine ⟨kept.take k, (kept.drop k).take needle.length, ?_⟩
    rcases h.lines with hall | hall
    · exact ⟨_, hall.trans hsplit, (mem_hitsIn hne).mp hk, rfl, rfl⟩
    · refine ⟨(kept.drop k).drop needle.length ++ [[]], ?_, (mem_hitsIn hne).mp hk, rfl, rfl⟩
      rw [hall, ← List.append_assoc, ← hsplit]

theorem offset_take_lt {lines : List Str} {j k : Nat} (hlt : j < k) (hk : k ≤ lines.length) :
    offset (lines.take j) < offset (lines.take k) := by
  have hsplit := List.take_append_drop j (lines.take k)
  rw [List.take_take, Nat.min_eq_left (Nat.le_of_lt hlt)] at hsplit
  have hrest := length_le_offset ((lines.take k).drop j)
  rw [List.length_drop, List.length_take] at hrest
  rw [← hsplit, offset_append]
  omega

theorem hit_unique {kept needle : List Str} (hne : needle ≠ []) {j k : Nat} (hj : j ∈ hitsIn kept needle)
    (hk : k ∈ hitsIn kept needle) (h : spanOf kept needle.length j = spanOf kept needle.length k) : j = k := by
  have hlej := le_of_mem_hitsIn hne hj
  have hlek := le_of_mem_hitsIn hne hk
  have hoffset := congrArg Prod.fst h
  rcases Nat.lt_trichotomy j k with hlt | heq | hgt
  · exact absurd hoffset (Nat.ne_of_lt (offset_take_lt hlt (by omega)))
  · exact heq
  · exact absurd hoffset.symm (Nat.ne_of_lt (offset_take_lt hgt (by omega)))

theorem getElem?_spansWith (start : Nat) (lines : List Str) (k : Nat) : (spansWith start lines)[k]? =
    (lines[k]?).map fun line => (start + offset (lines.take k), start + offset (lines.take k) + byteLen line) := by
  have hdrop := drop_spansWith start k lines
  rw [← List.head?_drop, hdrop, ← List.head?_drop]
  cases lines.drop k <;> rfl

/-- The first and the last span of a hit are the ends of its run. -/
theorem spanOf_eq {kept needle : List Str} (hne : needle ≠ []) {k : Nat} (hk : k ∈ hitsIn kept needle) :
    ((spansWith 0 kept)[k]?).bind (fun first =>
      ((spansWith 0 kept)[k + needle.length - 1]?).map fun last => (first.1, last.2)) =
        some (spanOf kept needle.length k) := by
  have hle := le_of_mem_hitsIn hne hk
  obtain ⟨w, hw⟩ := Nat.exists_eq_add_of_lt (List.length_pos_of_ne_nil hne)
  rw [Nat.zero_add] at hw
  have hlast : k + w < kept.length := by omega
  have hlines : (kept.drop k).take (w + 1) = (kept.drop k).take w ++ [kept[k + w]] := by
    rw [List.take_add_one, List.getElem?_drop, List.getElem?_eq_getElem hlast]
    rfl
  have hend : offset (kept.take (k + w)) + byteLen kept[k + w] =
      offset (kept.take k) + byteLen (joinWith ['\n'] ((kept.drop k).take (w + 1))) := by
    have hjoin : byteLen (joinWith ['\n'] ((kept.drop k).take (w + 1))) =
        offset ((kept.drop k).take w) + byteLen kept[k + w] := by
      rw [hlines, joinWith_append _ (List.cons_ne_nil _ _), byteLen_append, joinWith, List.intercalate_singleton]
      rfl
    rw [hjoin, List.take_add, offset_append, Nat.add_assoc]
  rw [spanOf, hw, ← Nat.add_assoc, Nat.add_sub_cancel, getElem?_spansWith, getElem?_spansWith,
    List.getElem?_eq_getElem (by omega : k < kept.length), List.getElem?_eq_getElem hlast]
  simp only [Option.map_some, Option.bind_some, Nat.zero_add, hend]

/-! ## One place -/

theorem not_onlyRun_nil (content : Str) (s e : Nat) : ¬ OnlyRun content [] s e := by
  rintro ⟨-, honly⟩
  have hfirst := honly 0 0 ⟨[], [], content.splitOn '\n', rfl, rfl, rfl, rfl⟩
  have hlast := honly (offset (content.splitOn '\n')) (offset (content.splitOn '\n'))
    ⟨content.splitOn '\n', [], [], by simp, rfl, rfl, rfl⟩
  have hpos := length_le_offset (content.splitOn '\n')
  have hne := List.length_pos_of_ne_nil (List.splitOn_ne_nil '\n' content)
  omega

/-- A run is the only one exactly when the needle has one hit. -/
theorem onlyRun_iff {content : Str} {kept needle : List Str} (h : LinesOf content kept) (hne : needle ≠ [])
    (hlast : needle.getLast hne ≠ []) {s e : Nat} :
    OnlyRun content needle s e ↔ ∃ k, hitsIn kept needle = [k] ∧ (s, e) = spanOf kept needle.length k := by
  have hrun := fun s e => isRun_iff (s := s) (e := e) h hne hlast
  unfold OnlyRun
  constructor
  · rintro ⟨hthis, honly⟩
    obtain ⟨k, hk, hspan⟩ := (hrun s e).mp hthis
    refine ⟨k, ?_, hspan⟩
    have hone : ∀ i ∈ hitsIn kept needle, i = k := by
      intro i hi
      obtain ⟨hs, he⟩ := honly _ _ ((hrun _ _).mpr ⟨i, hi, rfl⟩)
      exact hit_unique hne hi hk ((Prod.ext hs he).trans hspan)
    have hnodup : (hitsIn kept needle).Nodup := List.nodup_range.filter _
    have hlength : (hitsIn kept needle).length ≤ 1 := by
      rw [List.eq_replicate_of_mem hone] at hnodup
      exact List.nodup_replicate.mp hnodup
    obtain ⟨i, hi⟩ := List.length_eq_one_iff.mp (Nat.le_antisymm hlength (List.length_pos_of_mem hk))
    rw [hi] at hk ⊢
    rw [List.mem_singleton.mp hk]
  · rintro ⟨k, hhits, hspan⟩
    rw [hrun, hhits]
    refine ⟨⟨k, List.mem_singleton_self k, hspan⟩, fun s' e' hrun' => ?_⟩
    obtain ⟨i, hi, hspan'⟩ := (hrun s' e').mp hrun'
    rw [hhits] at hi
    rw [List.mem_singleton.mp hi] at hspan'
    exact Prod.mk.inj (hspan'.trans hspan.symm)

theorem locateLines_ok_iff (content find : Str) : ∃ result, locateLines content find = some result ∧
    ∀ s e, result = .ok (s, e) ↔ OnlyRun content (needleLines find) s e := by
  obtain ⟨kept, hkept⟩ := exists_linesOf content
  unfold locateLines
  dsimp only
  rw [hkept.spans, length_spansWith]
  split
  · rename_i hshort
    refine ⟨_, rfl, fun s e => iff_of_false nofun fun honly => ?_⟩
    by_cases hne : needleLines find = []
    · rw [hne] at honly
      exact not_onlyRun_nil content s e honly
    · obtain ⟨k, hk, -⟩ := (isRun_iff hkept hne (getLast_needleLines hne)).mp honly.1
      exact absurd (hshort.resolve_left hne) (by have := le_of_mem_hitsIn hne hk; omega)
  · rename_i hlong
    rw [not_or, Nat.not_lt] at hlong
    obtain ⟨hne, hlen⟩ := hlong
    have honly := fun s e => onlyRun_iff (s := s) (e := e) hkept hne (getLast_needleLines hne)
    rw [← hkept.spans, fuzzyHits_eq hkept hlen, hkept.spans, Option.bind_some]
    cases hhits : hitsIn kept (needleLines find) with
    | nil =>
      refine ⟨_, rfl, fun s e => iff_of_false nofun fun hthis => ?_⟩
      obtain ⟨k, hk, -⟩ := (honly s e).mp hthis
      rw [hhits] at hk
      cases hk
    | cons j rest =>
      cases rest with
      | nil =>
        have hj : j ∈ hitsIn kept (needleLines find) := by rw [hhits]; exact List.mem_cons_self
        have hspan := spanOf_eq hne hj
        refine ⟨.ok (spanOf kept (needleLines find).length j), ?_, fun s e => ?_⟩
        · have hok := congrArg (Option.map (Except.ok (ε := Str))) hspan
          rw [Option.map_bind] at hok
          simpa [Function.comp_def] using hok
        · rw [honly, hhits, Except.ok.injEq]
          simp [eq_comm]
      | cons k rest =>
        refine ⟨_, rfl, fun s e => iff_of_false nofun fun hthis => ?_⟩
        obtain ⟨i, hi, -⟩ := (honly s e).mp hthis
        rw [hhits] at hi
        cases hi

/-! ## Occurrences -/

/-- The bytes of the pattern stand behind the first `n` bytes. -/
def OccursAt (content find : Str) (n : Nat) : Prop := At (utf8 find) (utf8 content) n

theorem exists_occursAt_iff {content find : Str} (hfind : find ≠ []) :
    (∃ n, OccursAt content find n) ↔ ∃ n, At find content n := by
  simp only [OccursAt, at_utf8_iff hfind]
  constructor
  · rintro ⟨-, a, b, h, -⟩
    exact ⟨a.length, a, b, h, rfl⟩
  · rintro ⟨-, a, b, h, -⟩
    exact ⟨byteLen a, a, b, h, rfl⟩

theorem first_utf8 {content find a b : Str} (hfind : find ≠ []) (h : First find content a b) :
    First (utf8 find) (utf8 content) (utf8 a) (utf8 b) where
  eq := by rw [h.eq, utf8_append, utf8_append]
  least n hn := by
    obtain ⟨a', b', hsplit, rfl⟩ := (at_utf8_iff hfind).mp hn
    have hle := h.least a'.length ⟨a', b', hsplit, rfl⟩
    have hprefix : a <+: a' := by
      refine @List.prefix_of_prefix_length_le _ _ _ content ⟨find ++ b, ?_⟩ ⟨find ++ b', ?_⟩ hle
      · rw [h.eq, List.append_assoc]
      · rw [hsplit, List.append_assoc]
    obtain ⟨rest, rfl⟩ := hprefix
    rw [length_utf8, byteLen_append]
    omega

/-- Where a pattern stands twice, it also stands in two places that do not overlap. -/
def ApartWhenTwice (content find : Str) : Prop :=
  (∃ m n, OccursAt content find m ∧ OccursAt content find n ∧ m ≠ n) →
    ∃ m n, OccursAt content find m ∧ OccursAt content find n ∧ m + byteLen find ≤ n

/-- A place is the only occurrence, or without one the only run of lines; it lies between characters. -/
structure LocatesOnly (content find : Str) : Prop where
  returns : (locateMatch content find).isSome = true
  place : ∀ s e, locateMatch content find = some (.ok (s, e)) ↔
    (∀ n, OccursAt content find n ↔ n = s) ∧ e = s + byteLen find ∨
      (∀ n, ¬ OccursAt content find n) ∧ OnlyRun content (needleLines find) s e
  boundary : ∀ s e, locateMatch content find = some (.ok (s, e)) → IsCharBoundary content s ∧ IsCharBoundary content e

theorem boundary_of_isRun {content : Str} {needle : List Str} {s e : Nat} (hne : needle ≠ [])
    (h : IsRun content needle s e) : IsCharBoundary content s ∧ IsCharBoundary content e := by
  obtain ⟨before, lines, after, hsplit, hlines, rfl, rfl⟩ := h
  have hcontent : content = joinWith ['\n'] (before ++ (lines ++ after)) := by
    rw [← List.append_assoc, ← hsplit]
    exact (List.intercalate_splitOn '\n').symm
  have hlinesNe : lines ≠ [] := by
    rintro rfl
    exact hne hlines.symm
  obtain ⟨rest, hrest⟩ := exists_joinWith_append hlinesNe after
  rw [hcontent, joinWith_append before (List.append_ne_nil_of_left_ne_nil hlinesNe after), hrest]
  refine ⟨⟨_, _, rfl, rfl⟩, before.flatMap (· ++ ['\n']) ++ joinWith ['\n'] lines, rest, ?_, ?_⟩
  · rw [List.append_assoc]
  · rw [byteLen_append]
    rfl

/-! ## The three counts -/

theorem locatesOnly_of_nowhere {content find : Str} (hcount : countMatches find content = 0)
    (hnone : ∀ n, ¬ OccursAt content find n) : LocatesOnly content find := by
  obtain ⟨result, hresult, hok⟩ := locateLines_ok_iff content find
  have hlocate : locateMatch content find = some result := by
    unfold locateMatch
    rw [hcount]
    exact hresult
  have hplace : ∀ s e, locateMatch content find = some (.ok (s, e)) ↔ OnlyRun content (needleLines find) s e := by
    intro s e
    rw [hlocate, Option.some.injEq]
    exact hok s e
  refine ⟨by rw [hlocate]; rfl, fun s e => (hplace s e).trans ?_, fun s e hse => ?_⟩
  · constructor
    · exact fun honly => .inr ⟨hnone, honly⟩
    · rintro (⟨hall, -⟩ | ⟨-, honly⟩)
      · exact absurd ((hall s).mpr rfl) (hnone s)
      · exact honly
  · have honly := (hplace s e).mp hse
    have hne : needleLines find ≠ [] := by
      intro hnil
      rw [hnil] at honly
      exact not_onlyRun_nil content s e honly
    exact boundary_of_isRun hne honly.1

theorem locatesOnly_iff_of_once {content find before after : Str} (hcount : countMatches find content = 1)
    (hsplit : splitOnce find content = some (before, after)) (hat : OccursAt content find (byteLen before)) :
    LocatesOnly content find ↔ ¬ ∃ m n, OccursAt content find m ∧ OccursAt content find n ∧ m ≠ n := by
  have hlocate : locateMatch content find = some (.ok (byteLen before, byteLen before + byteLen find)) := by
    unfold locateMatch
    rw [hcount, hsplit]
    rfl
  have hcontent := (first_splitOnce hsplit).eq
  constructor
  · rintro h ⟨m, n, hm, hn, hne⟩
    rcases (h.place _ _).mp hlocate with ⟨hall, -⟩ | ⟨hnone, -⟩
    · exact hne (((hall m).mp hm).trans ((hall n).mp hn).symm)
    · exact hnone m hm
  · intro honly
    have hall : ∀ n, OccursAt content find n ↔ n = byteLen before := by
      intro n
      constructor
      · intro hn
        by_contra hne
        exact honly ⟨n, byteLen before, hn, hat, hne⟩
      · rintro rfl
        exact hat
    refine ⟨by rw [hlocate]; rfl, fun s e => ?_, fun s e hse => ?_⟩
    · rw [hlocate, Option.some.injEq, Except.ok.injEq, Prod.mk.injEq]
      constructor
      · rintro ⟨rfl, rfl⟩
        exact .inl ⟨hall, rfl⟩
      · rintro (⟨hone, rfl⟩ | ⟨hnone, -⟩)
        · have hs := (hone _).mp hat
          exact ⟨hs, by rw [hs]⟩
        · exact absurd hat (hnone _)
    · rw [hlocate, Option.some.injEq, Except.ok.injEq, Prod.mk.injEq] at hse
      obtain ⟨rfl, rfl⟩ := hse
      refine ⟨⟨before, find ++ after, ?_, rfl⟩, before ++ find, after, hcontent, byteLen_append _ _⟩
      rw [hcontent, List.append_assoc]

theorem locatesOnly_of_twice {content find : Str} {k : Nat} (hcount : countMatches find content = k + 2) {m n : Nat}
    (hm : OccursAt content find m) (hn : OccursAt content find n) (hne : m ≠ n) : LocatesOnly content find := by
  have hlocate : ∃ message, locateMatch content find = some (.error message) := by
    unfold locateMatch
    rw [hcount]
    exact ⟨_, rfl⟩
  obtain ⟨message, hlocate⟩ := hlocate
  refine ⟨by rw [hlocate]; rfl, fun s e => ?_, fun s e hse => ?_⟩
  · rw [hlocate]
    refine iff_of_false nofun ?_
    rintro (⟨hall, -⟩ | ⟨hnone, -⟩)
    · exact hne (((hall m).mp hm).trans ((hall n).mp hn).symm)
    · exact hnone m hm
  · rw [hlocate] at hse
    cases hse

theorem apartWhenTwice_nil (content : Str) : ApartWhenTwice content [] := by
  rintro ⟨m, n, hm, -, -⟩
  exact ⟨m, m, hm, hm, Nat.le_refl m⟩

/-- The empty pattern stands everywhere: only the empty text has one place for it. -/
theorem locatesOnly_nil (content : Str) : LocatesOnly content [] := by
  have hempty : ∀ n ≤ byteLen content, OccursAt content [] n := by
    intro n hn
    refine ⟨(utf8 content).take n, (utf8 content).drop n, by simp, ?_⟩
    rw [List.length_take, length_utf8, Nat.min_eq_left hn]
  have hcount : countMatches [] content = content.length + 1 := if_pos rfl
  cases content with
  | nil =>
    refine (locatesOnly_iff_of_once hcount rfl (hempty 0 (Nat.le_refl _))).mpr ?_
    rintro ⟨m, n, ⟨a, b, ha, rfl⟩, ⟨c, d, hc, rfl⟩, hne⟩
    simp [utf8] at ha hc
    exact hne (by rw [ha.1, hc.1])
  | cons c s =>
    have := c.utf8Size_pos
    refine locatesOnly_of_twice hcount (hempty 0 (Nat.zero_le _)) (hempty 1 ?_) (by decide)
    rw [byteLen_cons]
    omega

/-- Two occurrences lie apart exactly when the pattern stands behind its first match again. -/
theorem apart_iff_of_split {content find before after : Str} (hfind : find ≠ [])
    (hsplit : splitOnce find content = some (before, after)) :
    (∃ m n, OccursAt content find m ∧ OccursAt content find n ∧ m + byteLen find ≤ n) ↔ ∃ n, At find after n := by
  rw [← exists_occursAt_iff hfind, ← length_utf8 find]
  exact (first_utf8 hfind (first_splitOnce hsplit)).apart_iff

/-- The place is right unless every two occurrences of the pattern overlap. -/
theorem locatesOnly_iff (content find : Str) : LocatesOnly content find ↔ ApartWhenTwice content find := by
  by_cases hfind : find = []
  · subst hfind
    exact iff_of_true (locatesOnly_nil content) (apartWhenTwice_nil content)
  have hcount := countMatches_eq hfind content
  cases hsplit : splitOnce find content with
  | none =>
    rw [hsplit] at hcount
    have hnone : ∀ n, ¬ OccursAt content find n := by
      intro n hn
      obtain ⟨m, hm⟩ := (exists_occursAt_iff hfind).mp ⟨n, hn⟩
      exact not_at_of_splitOnce hsplit m hm
    refine iff_of_true (locatesOnly_of_nowhere hcount hnone) ?_
    rintro ⟨m, -, hm, -⟩
    exact absurd hm (hnone m)
  | some cut =>
    obtain ⟨before, after⟩ := cut
    rw [hsplit] at hcount
    dsimp only at hcount
    have hat : OccursAt content find (byteLen before) :=
      length_utf8 before ▸ (first_utf8 hfind (first_splitOnce hsplit)).at
    have hapart := apart_iff_of_split hfind hsplit
    rw [countMatches_eq hfind after] at hcount
    -- The pattern is not empty, so a match behind the first one is another place.
    cases hrest : splitOnce find after with
    | none =>
      rw [hrest] at hcount
      rw [locatesOnly_iff_of_once hcount hsplit hat, ApartWhenTwice, hapart]
      constructor
      · intro hone htwo
        exact absurd htwo hone
      · intro h htwo
        obtain ⟨n, hn⟩ := h htwo
        exact not_at_of_splitOnce hrest n hn
    | some cut =>
      rw [hrest] at hcount
      have hlen : 0 < byteLen find := Nat.pos_of_ne_zero fun hzero => hfind (byteLen_eq_zero hzero)
      obtain ⟨m, n, hm, hn, hle⟩ := hapart.mpr ⟨_, (first_splitOnce hrest).at⟩
      exact iff_of_true (locatesOnly_of_twice hcount hm hn (by omega)) fun _ => ⟨m, n, hm, hn, hle⟩

/-- In `aaa` the pattern `aa` counts once and stands in two places. -/
theorem locateMatch_takes_first_overlap : ¬ LocatesOnly "aaa".toList "aa".toList := by
  intro h
  have hlocate : locateMatch "aaa".toList "aa".toList = some (.ok (0, 2)) := by decide
  have hsecond : OccursAt "aaa".toList "aa".toList 1 := ⟨utf8 ['a'], [], by decide, by decide⟩
  rcases (h.place 0 2).mp hlocate with ⟨hall, -⟩ | ⟨hnone, -⟩
  · exact absurd ((hall 1).mp hsecond) (by decide)
  · exact hnone 1 hsecond

/-! ## In characters -/

/-- A span in characters, in bytes. -/
def inBytes (content : Str) (place : Nat × Nat) : Nat × Nat :=
  (byteLen (content.take place.1), byteLen (content.take place.2))

theorem byteLen_take_lt {s : Str} {j k : Nat} (hlt : j < k) (hk : k ≤ s.length) :
    byteLen (s.take j) < byteLen (s.take k) := by
  have hsplit := List.take_append_drop j (s.take k)
  rw [List.take_take, Nat.min_eq_left (Nat.le_of_lt hlt)] at hsplit
  have hpos : 0 < byteLen ((s.take k).drop j) := by
    refine Nat.pos_of_ne_zero fun hzero => ?_
    have hlen := congrArg List.length (byteLen_eq_zero hzero)
    rw [List.length_drop, List.length_take, List.length_nil] at hlen
    omega
  rw [← hsplit, byteLen_append]
  omega

theorem slice_inBytes {s : Str} {j k : Nat} (hle : j ≤ k) :
    slice s (inBytes s (j, k)).1 (inBytes s (j, k)).2 = some (span s j k) := by
  have hsplit : s.take j ++ span s j k = s.take k := by
    have htake := List.take_append_drop j (s.take k)
    rwa [List.take_take, Nat.min_eq_left hle] at htake
  have hbytes : byteLen (s.take k) = byteLen (s.take j) + byteLen (span s j k) := by rw [← hsplit, byteLen_append]
  have hslice := slice_append (s.take j) (span s j k) (s.drop k)
  rw [hsplit, List.take_append_drop] at hslice
  rwa [inBytes, hbytes]

/-- Both loops find the same lines, which lie in the text. -/
theorem lineSpansFrom_inBytes {content rest : Str} (done : Str) (hcontent : content = done ++ rest) (start : Nat)
    (hstart : start ≤ done.length) :
    lineSpansFrom (byteLen (content.take start)) (byteLen done) rest =
      (Ccos.lineSpansFrom start done.length rest).map (inBytes content) ∧
    ∀ place ∈ Ccos.lineSpansFrom start done.length rest, place.1 ≤ place.2 ∧ place.2 ≤ content.length := by
  -- `done` is what both loops have passed, and the line they are in began at `start`.
  induction rest generalizing done start with
  | nil =>
    rw [List.append_nil] at hcontent
    subst hcontent
    rw [lineSpansFrom, Ccos.lineSpansFrom]
    by_cases hlt : start < content.length
    · have hbytes := byteLen_take_lt hlt (Nat.le_refl _)
      rw [List.take_length] at hbytes
      rw [if_pos hlt, if_pos hbytes]
      refine ⟨by simp [inBytes], fun place hplace => ?_⟩
      rw [List.mem_singleton.mp hplace]
      exact ⟨hstart, Nat.le_refl _⟩
    · have hend : content.take start = content := List.take_of_length_le (Nat.le_of_not_lt hlt)
      rw [if_neg hlt, hend, if_neg (Nat.lt_irrefl _)]
      exact ⟨rfl, nofun⟩
  | cons c rest ih =>
    have hnext : content = (done ++ [c]) ++ rest := by rw [hcontent, List.append_assoc]; rfl
    have hdone : content.take done.length = done := by rw [hcontent, List.take_left]
    have htake : content.take (done.length + 1) = done ++ [c] := by
      rw [hnext, ← List.length_singleton (a := c), ← List.length_append, List.take_left]
    have hbytes : byteLen (done ++ [c]) = byteLen done + c.utf8Size := by
      rw [byteLen_append, byteLen_cons, byteLen_nil, Nat.add_zero]
    rw [lineSpansFrom, Ccos.lineSpansFrom]
    split
    · rename_i hc
      subst hc
      obtain ⟨hspans, hin⟩ := ih (done ++ ['\n']) hnext (done.length + 1) (by simp)
      rw [htake, hbytes, List.length_append, List.length_singleton] at hspans
      rw [List.length_append, List.length_singleton] at hin
      refine ⟨?_, fun place hplace => ?_⟩
      · rw [List.map_cons, ← hspans, inBytes, hdone]
        rfl
      · rcases List.mem_cons.mp hplace with rfl | hplace
        · exact ⟨hstart, by rw [hcontent, List.length_append]; omega⟩
        · exact hin place hplace
    · obtain ⟨hspans, hin⟩ := ih (done ++ [c]) hnext start
        (by rw [List.length_append]; exact Nat.le_add_right_of_le hstart)
      rw [hbytes, List.length_append, List.length_singleton] at hspans
      rw [List.length_append, List.length_singleton] at hin
      exact ⟨hspans, hin⟩

theorem lineSpans_inBytes (content : Str) : lineSpans content = (Ccos.lineSpans content).map (inBytes content) ∧
    ∀ place ∈ Ccos.lineSpans content, place.1 ≤ place.2 ∧ place.2 ≤ content.length := by
  obtain ⟨hspans, hin⟩ := lineSpansFrom_inBytes [] (rfl : content = [] ++ content) 0 (Nat.le_refl _)
  rw [List.take_zero, byteLen_nil, List.length_nil] at hspans
  rw [List.length_nil] at hin
  unfold lineSpans Ccos.lineSpans
  dsimp only
  rw [hspans]
  by_cases hempty : Ccos.lineSpansFrom 0 0 content = []
  · rw [hempty, if_pos rfl, if_pos List.map_nil]
    refine ⟨by simp [inBytes], fun place hplace => ?_⟩
    rw [List.mem_singleton.mp hplace]
    exact ⟨Nat.zero_le _, Nat.le_refl _⟩
  · rw [if_neg hempty, if_neg (fun h => hempty (List.map_eq_nil_iff.mp h))]
    exact ⟨rfl, hin⟩

theorem runMatches_inBytes {content : Str} {spans : List (Nat × Nat)}
    (hin : ∀ place ∈ spans, place.1 ≤ place.2 ∧ place.2 ≤ content.length) {needle : List Str}
    (hlen : needle.length ≤ spans.length) : runMatches content (spans.map (inBytes content)) needle =
      some (decide ((spans.take needle.length).map (fun s => trim (span content s.1 s.2)) = needle)) := by
  induction needle generalizing spans with
  | nil => simp [runMatches]
  | cons line needle ih =>
    cases spans with
    | nil => simp at hlen
    | cons place spans =>
      have hle := (hin place List.mem_cons_self).1
      have hrest := ih (fun p hp => hin p (List.mem_cons_of_mem _ hp)) (by simpa using hlen)
      rw [List.map_cons, runMatches, slice_inBytes hle, Option.bind_some, hrest, List.length_cons,
        List.take_succ_cons, List.map_cons]
      by_cases htrim : trim (span content place.1 place.2) = line
      · simp [htrim]
      · simp [htrim]

theorem fuzzyHits_inBytes (content : Str) {needle : List Str} (hlen : needle.length ≤ (Ccos.lineSpans content).length) :
    fuzzyHits content (lineSpans content) needle = some (Ccos.fuzzyHits content (Ccos.lineSpans content) needle) := by
  obtain ⟨hspans, hin⟩ := lineSpans_inBytes content
  unfold fuzzyHits Ccos.fuzzyHits
  rw [hspans, List.length_map]
  refine (foldlM_hits (fun k hk => ?_) []).trans (by rw [List.nil_append])
  have hk := List.mem_range.mp hk
  rw [← List.map_drop]
  refine runMatches_inBytes (fun place hplace => hin place (List.mem_of_mem_drop hplace)) ?_
  rw [List.length_drop]
  omega

theorem exists_splitOnce_of_count {content find : Str} (h : countMatches find content = 1) :
    ∃ cut, splitOnce find content = some cut := by
  by_cases hfind : find = []
  · subst hfind
    cases content <;> exact ⟨_, rfl⟩
  · rw [countMatches_eq hfind] at h
    cases hsplit : splitOnce find content with
    | none =>
      rw [hsplit] at h
      cases h
    | some cut => exact ⟨cut, rfl⟩

/-- The pass in characters when there is no exact match. -/
theorem locateLines_inBytes {content find : Str} (hcount : countMatches find content = 0) :
    locateLines content find = some ((Ccos.locateMatch content find).map (inBytes content)) := by
  have hspans := (lineSpans_inBytes content).1
  have hlen : (lineSpans content).length = (Ccos.lineSpans content).length := by rw [hspans, List.length_map]
  unfold locateLines Ccos.locateMatch
  rw [hcount]
  dsimp only
  rw [hlen]
  by_cases hshort : needleLines find = [] ∨ (Ccos.lineSpans content).length < (needleLines find).length
  · simp only [if_pos hshort]
    rfl
  · simp only [if_neg hshort]
    rw [not_or, Nat.not_lt] at hshort
    have hpos := List.length_pos_of_ne_nil hshort.1
    rw [fuzzyHits_inBytes content hshort.2, Option.bind_some]
    cases hhits : Ccos.fuzzyHits content (Ccos.lineSpans content) (needleLines find) with
    | nil => rfl
    | cons k rest =>
      cases rest with
      | cons j rest => rfl
      | nil =>
        have hmem : k ∈ Ccos.fuzzyHits content (Ccos.lineSpans content) (needleLines find) := by
          rw [hhits]
          exact List.mem_cons_self
        have hk := List.mem_range.mp (List.mem_filter.mp hmem).1
        have hfirst : k < (Ccos.lineSpans content).length := by omega
        have hlast : k + (needleLines find).length - 1 < (Ccos.lineSpans content).length := by omega
        dsimp only
        rw [hspans, List.getElem?_map, List.getElem?_map, List.getD_eq_getElem?_getD, List.getD_eq_getElem?_getD,
          List.getElem?_eq_getElem hfirst, List.getElem?_eq_getElem hlast]
        rfl

theorem locateMatch_inBytes (content find : Str) :
    locateMatch content find = some ((Ccos.locateMatch content find).map (inBytes content)) := by
  unfold locateMatch
  split
  · rename_i hcount
    obtain ⟨⟨before, after⟩, hsplit⟩ := exists_splitOnce_of_count hcount
    have hcontent := (first_splitOnce hsplit).eq
    have hchars : Ccos.locateMatch content find = .ok (before.length, before.length + find.length) := by
      unfold Ccos.locateMatch
      rw [hcount, hsplit]
      rfl
    have hend : content.take (before.length + find.length) = before ++ find := by
      rw [hcontent, ← List.length_append, List.take_left]
    rw [hsplit, hchars, Option.map_some, Except.map, inBytes, hend, byteLen_append, hcontent, List.append_assoc,
      List.take_left]
  · rename_i hcount
    exact locateLines_inBytes hcount
  · rename_i hone hzero
    unfold Ccos.locateMatch
    split
    · rename_i h
      exact absurd h hone
    · rename_i h
      exact absurd h hzero
    · rfl

end Ccos.ByteSpans
