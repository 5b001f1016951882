import Ccos.Sanitize.Scan
import Ccos.Lib.CharBoundary

/-!
# Text without hidden characters

Every finding is replaced in place. What it is replaced with is cut off from the tokens around it by brackets,
so a surfaced text scans clean. A stripped text joins what the removed characters kept apart.
-/

open Stretches

namespace Ccos.Sanitizer

variable {isAlphanumeric : Char → Bool}

/-! ## Where the marks are -/

theorem exists_split_marksFrom (cfg : SanitizerConfig) (p pre : Str) (c : Char) (post : Str) :
    ∃ before after, marksFrom isAlphanumeric cfg p (pre ++ c :: post) =
      before ++ (c, mark isAlphanumeric cfg (pre.reverse ++ p) c post) :: after ∧
      before.map Prod.fst = pre ∧ after.map Prod.fst = post := by
  induction pre generalizing p with
  | nil => exact ⟨[], _, rfl, rfl, map_fst_marksFrom cfg _ _⟩
  | cons d pre ih =>
    obtain ⟨before, after, hsplit, hbefore, hafter⟩ := ih (d :: p)
    refine ⟨(d, mark isAlphanumeric cfg p d (pre ++ c :: post)) :: before, after, ?_, ?_, hafter⟩
    · rw [List.cons_append, marksFrom, hsplit, List.cons_append, List.reverse_cons, List.append_assoc]
      rfl
    · rw [List.map_cons, hbefore]

theorem exists_split_marks (cfg : SanitizerConfig) (pre : Str) (c : Char) (post : Str) :
    ∃ before after, marks isAlphanumeric cfg (pre ++ c :: post) =
      before ++ (c, mark isAlphanumeric cfg pre.reverse c post) :: after ∧
      before.map Prod.fst = pre ∧ after.map Prod.fst = post := by
  have h := @exists_split_marksFrom isAlphanumeric cfg [] pre c post
  rwa [List.append_nil] at h

theorem split_of_marks {cfg : SanitizerConfig} {s : Str} {before after : List (Char × Mark)} {c : Char} {m : Mark}
    (h : marks isAlphanumeric cfg s = before ++ (c, m) :: after) :
    s = before.map Prod.fst ++ c :: after.map Prod.fst ∧
      m = mark isAlphanumeric cfg (before.map Prod.fst).reverse c (after.map Prod.fst) := by
  have hm := mark_of_split h
  rw [List.append_nil] at hm
  refine ⟨?_, hm⟩
  rw [← @map_fst_marksFrom isAlphanumeric cfg [] s]
  rw [marks] at h
  rw [h, List.map_append, List.map_cons]

theorem classify_of_mark {cfg : SanitizerConfig} {pre : Str} {c : Char} {post : Str}
    (h : mark isAlphanumeric cfg pre c post = none) : classify cfg c = none := by
  rw [mark] at h
  cases hc : classify cfg c with
  | none => rfl
  | some m => rw [hc] at h; cases h

theorem around_of_mark {cfg : SanitizerConfig} {pre : Str} {c skel : Char} {post : Str}
    (hskel : confusableSkeleton c = some skel) (h : mark isAlphanumeric cfg pre c post = none) :
    around (isTokenChar isAlphanumeric) Char.isAlpha pre c post = false := by
  have hshown := classify_of_mark h
  rw [mark, hshown] at h
  dsimp only at h
  split at h
  · rw [hskel] at h
    cases h
  · rename_i hnot
    rwa [Bool.not_eq_true] at hnot

/-- A marked character is hidden, or a look-alike inside a token. -/
theorem mark_cases {cfg : SanitizerConfig} {pre : Str} {c : Char} {post : Str} {m : AnomalyKind × Str}
    (h : mark isAlphanumeric cfg pre c post = some m) :
    classify cfg c = some m ∨
      ∃ skel, confusableSkeleton c = some skel ∧ m = (.confusable, ['→', skel]) ∧ isTokenChar isAlphanumeric c = true := by
  rw [mark] at h
  cases hc : classify cfg c with
  | some m' =>
    rw [hc] at h
    exact .inl h
  | none =>
    rw [hc] at h
    dsimp only at h
    split at h
    · rename_i haround
      obtain ⟨skel, hskel, rfl⟩ := Option.map_eq_some_iff.mp h
      rw [around, Bool.and_eq_true] at haround
      exact .inr ⟨skel, hskel, rfl, haround.1⟩
    · cases h

/-- A text scans clean when nothing in it is hidden and no token mixes a look-alike with a Latin letter. -/
theorem clean_iff (cfg : SanitizerConfig) (s : Str) : (scanWith isAlphanumeric cfg s).findings = [] ↔
    (∀ c ∈ s, classify cfg c = none) ∧ ∀ pre c post, s = pre ++ c :: post → (confusableSkeleton c).isSome = true →
      around (isTokenChar isAlphanumeric) Char.isAlpha pre.reverse c post = false := by
  rw [findings_scanWith, findingsOf_eq_nil_iff]
  constructor
  · intro h
    have hmark : ∀ pre c post, s = pre ++ c :: post → mark isAlphanumeric cfg pre.reverse c post = none := by
      rintro pre c post rfl
      obtain ⟨before, after, hsplit, -, -⟩ := @exists_split_marks isAlphanumeric cfg pre c post
      exact h (c, _) (by rw [hsplit]; exact List.mem_append_right _ List.mem_cons_self)
    refine ⟨fun c hc => ?_, fun pre c post hs hlook => ?_⟩
    · obtain ⟨pre, post, hs⟩ := List.append_of_mem hc
      exact classify_of_mark (hmark pre c post hs)
    · obtain ⟨skel, hskel⟩ := Option.isSome_iff_exists.mp hlook
      exact around_of_mark hskel (hmark pre c post hs)
  · rintro ⟨hshown, hpure⟩ ⟨c, m⟩ he
    obtain ⟨before, after, hsplit⟩ := List.append_of_mem he
    obtain ⟨hs, rfl⟩ := split_of_marks hsplit
    have hc := hshown c (by rw [hs]; simp)
    cases hskel : confusableSkeleton c with
    | none =>
      rw [mark, hc]
      dsimp only
      rw [hskel, Option.map_none, ite_self]
    | some skel =>
      have haround := hpure _ c _ hs (by rw [hskel]; rfl)
      rw [mark, hc]
      dsimp only
      rw [haround]
      rfl

/-! ## The output -/

def render (action : Action) : Char × Mark → Str
  | (c, none) => [c]
  | (c, some m) => replacement { byteOffset := 0, charIndex := 0, codepoint := c.toNat, kind := m.1, label := m.2 } c action

theorem rebuild_findingsOf (action : Action) (byteOffset charIndex : Nat) (l : List (Char × Mark)) :
    rebuild action byteOffset (findingsOf byteOffset charIndex l) (l.map Prod.fst) = l.flatMap (render action) := by
  induction l generalizing byteOffset charIndex with
  | nil => rfl
  | cons e l ih =>
    obtain ⟨c, m⟩ := e
    have ih := ih (byteOffset + c.utf8Size) (charIndex + 1)
    rw [List.map_cons, List.flatMap_cons]
    cases m with
    | some m =>
      rw [findingsOf, rebuild, if_pos rfl, ih]
      cases action <;> rfl
    | none =>
      rw [findingsOf, render]
      cases hlater : findingsOf (byteOffset + c.utf8Size) (charIndex + 1) l with
      | nil =>
        rw [hlater] at ih
        rw [rebuild, ih, List.singleton_append]
      | cons f fs =>
        rw [hlater] at ih
        have hle : byteOffset + c.utf8Size ≤ f.byteOffset :=
          le_of_mem_findingsOf (hlater ▸ List.mem_cons_self)
        have := c.utf8Size_pos
        rw [rebuild, if_neg (by omega), ih, List.singleton_append]

theorem flatMap_render_of_clean (action : Action) {l : List (Char × Mark)} (h : ∀ e ∈ l, e.2 = none) :
    l.flatMap (render action) = l.map Prod.fst := by
  induction l with
  | nil => rfl
  | cons e l ih =>
    obtain ⟨c, m⟩ := e
    obtain rfl : m = none := h (c, m) List.mem_cons_self
    rw [List.flatMap_cons, List.map_cons, ih fun e he => h e (List.mem_cons_of_mem _ he)]
    rfl

theorem defangWith_eq {cfg : SanitizerConfig} (h : cfg.action ≠ .keep) (s : Str) :
    (defangWith isAlphanumeric cfg s).1 = (marks isAlphanumeric cfg s).flatMap (render cfg.action) := by
  rw [defangWith, findings_scanWith]
  have hmap := @map_fst_marksFrom isAlphanumeric cfg [] s
  split
  · rename_i hdone
    have hclean : ∀ e ∈ marks isAlphanumeric cfg s, e.2 = none :=
      (findingsOf_eq_nil_iff _ _ _).mp (List.isEmpty_iff.mp (hdone.resolve_right h))
    rw [flatMap_render_of_clean _ hclean]
    exact hmap.symm
  · rw [← rebuild_findingsOf cfg.action 0 0, marks, hmap]

/-! ## Surfacing -/

/-- `scan`: with the default configuration. -/
def scan (isAlphanumeric : Char → Bool) (input : Str) : ScanReport := scanWith isAlphanumeric .default input

def defang (isAlphanumeric : Char → Bool) (input : Str) : Str × ScanReport := defangWith isAlphanumeric .default input

theorem literal_eq (f : Finding) : f.literal = '[' :: ("U+".toList ++ hexOf f.codepoint ++ ' ' :: f.label) ++ [']'] := rfl

theorem isPlain_literal {f : Finding} (h : ∀ d ∈ f.label, IsPlain d) : ∀ d ∈ f.literal, IsPlain d := by
  have hsigns : ∀ d ∈ "[ ]".toList, IsPlain d := isPlain_of_all (by decide)
  have hprefix : ∀ d ∈ "U+".toList, IsPlain d := isPlain_of_all (by decide)
  intro d hd
  simp only [literal_eq, List.cons_append, List.append_assoc, List.mem_cons, List.mem_append, List.not_mem_nil,
    or_false] at hd
  rcases hd with rfl | hd | hd | rfl | hd | rfl
  · exact hsigns '[' (by decide)
  · exact hprefix d hd
  · exact isPlain_hexOf _ d hd
  · exact hsigns ' ' (by decide)
  · exact h d hd
  · exact hsigns ']' (by decide)

theorem isPlain_of_mark {cfg : SanitizerConfig} {pre : Str} {c : Char} {post : Str} {m : AnomalyKind × Str}
    (h : mark isAlphanumeric cfg pre c post = some m) : ∀ d ∈ m.2, IsPlain d := by
  rcases mark_cases h with hhidden | ⟨skel, hskel, rfl, -⟩
  · exact (wellNamed_classify hhidden).2.1
  · intro d hd
    rcases List.mem_cons.mp hd with rfl | hd
    · exact .inr rfl
    · rw [List.mem_singleton.mp hd]
      exact (confusableSkeleton_eq hskel).2.2

theorem reverse_literal (f : Finding) : ∃ rest, f.literal.reverse = ']' :: rest :=
  ⟨_, by rw [literal_eq, List.reverse_append]; rfl⟩

/-- Surfacing only cuts tokens. -/
theorem around_of_surface (hopen : isTokenChar isAlphanumeric '[' = false) (hclose : isTokenChar isAlphanumeric ']' = false)
    {before after : List (Char × Mark)} {c : Char}
    (h : around (isTokenChar isAlphanumeric) Char.isAlpha (before.flatMap (render .surface)).reverse c
      (after.flatMap (render .surface)) = true) :
    around (isTokenChar isAlphanumeric) Char.isAlpha (before.map Prod.fst).reverse c (after.map Prod.fst) = true := by
  rw [around, Bool.and_eq_true, Bool.or_eq_true] at h ⊢
  refine ⟨h.1, h.2.imp ?_ ?_⟩
  · intro hbefore
    rw [List.reverse_flatMap] at hbefore
    rw [← List.map_reverse]
    refine ahead_flatMap_of_cut (fun e _ => ?_) hbefore
    obtain ⟨d, m⟩ := e
    cases m with
    | none => exact .inl rfl
    | some m =>
      obtain ⟨rest, hrest⟩ := reverse_literal
        { byteOffset := 0, charIndex := 0, codepoint := d.toNat, kind := m.1, label := m.2 }
      exact .inr ⟨']', rest, hrest, hclose⟩
  · intro hafter
    have hwhole : ahead (isTokenChar isAlphanumeric) Char.isAlpha (((c, none) :: after).flatMap (render .surface)) = true :=
      hafter
    change ahead _ _ (((c, (none : Mark)) :: after).map Prod.fst) = true
    refine ahead_flatMap_of_cut (fun e _ => ?_) hwhole
    obtain ⟨d, m⟩ := e
    cases m with
    | none => exact .inl rfl
    | some m => exact .inr ⟨'[', _, rfl, hopen⟩

theorem isTokenChar_of_ascii (hascii : ∀ c : Char, c.toNat < 128 → isAlphanumeric c = c.isAlphanum) {c : Char}
    (h : c.toNat < 128) : isTokenChar isAlphanumeric c = isTokenChar Char.isAlphanum c := by
  rw [isTokenChar, isTokenChar, hascii c h]

theorem of_render_shown {action : Action} {c d : Char} {p q : Str} (h : render action (d, none) = p ++ c :: q) :
    p = [] ∧ c = d ∧ q = [] := by
  cases p with
  | nil =>
    obtain ⟨rfl, rfl⟩ := List.cons.inj h
    exact ⟨rfl, rfl, rfl⟩
  | cons a p =>
    have hlen := congrArg List.length h
    simp [render] at hlen

theorem clean_surface (hopen : isTokenChar isAlphanumeric '[' = false) (hclose : isTokenChar isAlphanumeric ']' = false)
    (cfg : SanitizerConfig) (s : Str) :
    (scanWith isAlphanumeric cfg ((marks isAlphanumeric cfg s).flatMap (render .surface))).findings = [] := by
  rw [clean_iff]
  constructor
  · intro c hc
    obtain ⟨⟨d, m⟩, he, hc⟩ := List.mem_flatMap.mp hc
    obtain ⟨before, after, hsplit⟩ := List.append_of_mem he
    obtain ⟨-, hm⟩ := split_of_marks hsplit
    cases m with
    | none =>
      obtain rfl := List.mem_singleton.mp hc
      exact classify_of_mark hm.symm
    | some m => exact classify_of_isPlain cfg (isPlain_literal (isPlain_of_mark hm.symm) c hc)
  · intro pre c post hout hlook
    obtain ⟨skel, hskel⟩ := Option.isSome_iff_exists.mp hlook
    obtain ⟨before, ⟨d, m⟩, after, p, q, hsplit, hpiece, rfl, rfl⟩ := split_of_flatMap hout
    obtain ⟨-, hm⟩ := split_of_marks hsplit
    cases m with
    | none =>
      obtain ⟨rfl, rfl, rfl⟩ := of_render_shown hpiece
      have haround := around_of_mark hskel hm.symm
      rw [List.append_nil, List.nil_append, ← Bool.not_eq_true]
      intro hmixed
      rw [around_of_surface hopen hclose hmixed] at haround
      cases haround
    | some m =>
      have hplain := isPlain_literal (isPlain_of_mark hm.symm) c
        (show c ∈ render .surface (d, some m) by rw [hpiece]; exact List.mem_append_right _ List.mem_cons_self)
      exact absurd hplain (not_isPlain_of_confusable hskel)

/-! ## Undoing -/

/-- Puts a finding's character back at its recorded place. -/
def putBack (t : Str) (f : Finding) : Option Str :=
  (cutAt f.byteOffset t).bind fun (before, rest) =>
    if before.length = f.charIndex then
      (stripPrefix f.literal rest).map fun rest => before ++ Char.ofNat f.codepoint :: rest
    else none

/-- Undoing the findings in order brings the text back, behind what is restored already. -/
theorem foldlM_putBack (done : Str) (l : List (Char × Mark)) :
    (findingsOf (byteLen done) done.length l).foldlM putBack (done ++ l.flatMap (render .surface)) =
      some (done ++ l.map Prod.fst) := by
  induction l generalizing done with
  | nil => rfl
  | cons e l ih =>
    obtain ⟨c, m⟩ := e
    have ih := ih (done ++ [c])
    rw [byteLen_append, byteLen_cons, byteLen_nil, Nat.add_zero, List.length_append, List.length_singleton] at ih
    rw [List.map_cons, List.flatMap_cons, List.append_cons done]
    cases m with
    | none => rw [findingsOf, render, ← List.append_assoc, ih]
    | some m =>
      have hput : putBack (done ++ (render .surface (c, some m) ++ l.flatMap (render .surface)))
          { byteOffset := byteLen done, charIndex := done.length, codepoint := c.toNat, kind := m.1, label := m.2 } =
          some (done ++ [c] ++ l.flatMap (render .surface)) := by
        have hstrip : ∀ rest, stripPrefix (render .surface (c, some m)) (render .surface (c, some m) ++ rest) = some rest :=
          fun rest => List.isPrefixOf?_eq_some_iff_append_eq.mpr rfl
        rw [putBack, cutAt_append, Option.bind_some]
        dsimp only
        rw [if_pos rfl, Char.ofNat_toNat, List.append_assoc, List.singleton_append]
        exact congrArg (Option.map _) (hstrip _)
      rw [findingsOf, List.foldlM_cons, hput, Option.bind_eq_bind, Option.bind_some, ih]

/-- The output scans clean, nothing changes when there is nothing to surface, and the findings undo the rest. -/
theorem defang_surfaces (hascii : ∀ c : Char, c.toNat < 128 → isAlphanumeric c = c.isAlphanum) (s : Str) :
    (scan isAlphanumeric (defang isAlphanumeric s).1).findings = [] ∧
      (defang isAlphanumeric (defang isAlphanumeric s).1).1 = (defang isAlphanumeric s).1 ∧
      ((scan isAlphanumeric s).findings = [] → (defang isAlphanumeric s).1 = s) ∧
      (defang isAlphanumeric s).2.findings.foldlM putBack (defang isAlphanumeric s).1 = some s := by
  have hopen : isTokenChar isAlphanumeric '[' = false := (isTokenChar_of_ascii hascii (by decide)).trans (by decide)
  have hclose : isTokenChar isAlphanumeric ']' = false := (isTokenChar_of_ascii hascii (by decide)).trans (by decide)
  have hsame : ∀ t, (scan isAlphanumeric t).findings = [] → (defang isAlphanumeric t).1 = t := by
    intro t ht
    rw [scan] at ht
    rw [defang, defangWith, if_pos (.inl (by rw [ht]; rfl))]
  have hout : (defang isAlphanumeric s).1 = (marks isAlphanumeric .default s).flatMap (render .surface) :=
    defangWith_eq (show SanitizerConfig.default.action ≠ .keep from nofun) s
  have hclean : (scan isAlphanumeric (defang isAlphanumeric s).1).findings = [] := by
    rw [hout]
    exact clean_surface hopen hclose .default s
  have hreport : (defang isAlphanumeric s).2.findings = findingsOf 0 0 (marks isAlphanumeric .default s) := by
    rw [← findings_scanWith, defang, defangWith]
    split
    · rfl
    · rfl
  refine ⟨hclean, hsame _ hclean, hsame s, ?_⟩
  have hundo := foldlM_putBack [] (marks isAlphanumeric .default s)
  rw [marks, map_fst_marksFrom] at hundo
  rw [hout, hreport]
  exact hundo

/-- `char::is_alphanumeric` on ASCII and on the look-alikes. -/
def asciiOrConfusable (c : Char) : Bool := c.isAlphanum || (confusableSkeleton c).isSome

theorem asciiOrConfusable_of_ascii (c : Char) (h : c.toNat < 128) : asciiOrConfusable c = c.isAlphanum := by
  rw [asciiOrConfusable]
  cases hskel : confusableSkeleton c with
  | none => rw [Option.isSome_none, Bool.or_false]
  | some skel =>
    obtain ⟨hlow, -⟩ := confusableSkeleton_eq hskel
    omega

theorem defang_surfaces_spoof :
    (scan asciiOrConfusable (defang asciiOrConfusable "\u0440ay\u200bpal".toList).1).findings = [] ∧
      (defang asciiOrConfusable "\u0440ay\u200bpal".toList).2.findings.foldlM putBack
        (defang asciiOrConfusable "\u0440ay\u200bpal".toList).1 = some "\u0440ay\u200bpal".toList := by
  have h := defang_surfaces asciiOrConfusable_of_ascii "\u0440ay\u200bpal".toList
  exact ⟨h.1, h.2.2.2⟩

/-! ## Stripping -/

/-- A token character, or one that is removed wherever it stands. -/
def isTokenOrHidden (isAlphanumeric : Char → Bool) (cfg : SanitizerConfig) (c : Char) : Bool :=
  isTokenChar isAlphanumeric c || (classify cfg c).isSome

/-- Stripping joins the tokens around what it removes. -/
theorem ahead_of_strip {cfg : SanitizerConfig} {l : List (Char × Mark)}
    (h : ∀ e ∈ l, ∃ pre post, e.2 = mark isAlphanumeric cfg pre e.1 post) (f : Char × Mark → Str)
    (hf : ∀ e, f e = render .strip e) :
    ahead (isTokenChar isAlphanumeric) Char.isAlpha (l.flatMap f) =
      ahead (isTokenOrHidden isAlphanumeric cfg) Char.isAlpha (l.map Prod.fst) := by
  refine ahead_flatMap_of_drop fun e he => ?_
  obtain ⟨c, m⟩ := e
  obtain ⟨pre, post, hm⟩ := h _ he
  dsimp only at hm
  rw [hf]
  cases m with
  | none =>
    refine .inl ⟨rfl, ?_⟩
    rw [isTokenOrHidden, classify_of_mark hm.symm]
    simp
  | some m =>
    refine .inr ⟨rfl, ?_, ?_⟩
    · rcases mark_cases hm.symm with hhidden | ⟨skel, -, -, hin⟩
      · simp [isTokenOrHidden, hhidden]
      · simp [isTokenOrHidden, hin]
    · rcases mark_cases hm.symm with hhidden | ⟨skel, hskel, -, -⟩
      · exact isAlpha_of_classify hhidden
      · exact isAlpha_of_confusable hskel

theorem around_of_strip {cfg : SanitizerConfig} {s : Str} {before after : List (Char × Mark)} {c : Char}
    (h : marks isAlphanumeric cfg s = before ++ (c, none) :: after) :
    around (isTokenChar isAlphanumeric) Char.isAlpha (before.flatMap (render .strip)).reverse c
        (after.flatMap (render .strip)) =
      around (isTokenOrHidden isAlphanumeric cfg) Char.isAlpha (before.map Prod.fst).reverse c (after.map Prod.fst) := by
  have hmarks : ∀ e ∈ before ++ (c, none) :: after, ∃ pre post, e.2 = mark isAlphanumeric cfg pre e.1 post := by
    rintro ⟨d, m⟩ he
    obtain ⟨before', after', hsplit⟩ := List.append_of_mem he
    exact ⟨_, _, (split_of_marks (h.trans hsplit)).2⟩
  have hshown : classify cfg c = none := by
    obtain ⟨pre, post, hm⟩ := hmarks (c, none) (List.mem_append_right _ List.mem_cons_self)
    exact classify_of_mark hm.symm
  have hsame : isTokenOrHidden isAlphanumeric cfg c = isTokenChar isAlphanumeric c := by
    simp [isTokenOrHidden, hshown]
  have hbefore : ahead (isTokenChar isAlphanumeric) Char.isAlpha (before.flatMap (render .strip)).reverse =
      ahead (isTokenOrHidden isAlphanumeric cfg) Char.isAlpha (before.map Prod.fst).reverse := by
    rw [List.reverse_flatMap, ← List.map_reverse]
    refine ahead_of_strip (fun e he => hmarks e (List.mem_append_left _ (List.mem_reverse.mp he))) _ ?_
    rintro ⟨d, m⟩
    cases m with
    | none => rfl
    | some m => rfl
  have hafter := ahead_of_strip (fun e he => hmarks e (List.mem_append_right _ he)) (render .strip) fun _ => rfl
  rw [around, around, hbefore, hsame]
  exact congrArg (fun b => _ && (_ || b)) hafter

theorem stripped_of_mark {cfg : SanitizerConfig} {s : Str} {before after : List (Char × Mark)} {c : Char}
    (h : marks isAlphanumeric cfg s = before ++ (c, none) :: after) :
    (marks isAlphanumeric cfg s).flatMap (render .strip) =
      before.flatMap (render .strip) ++ c :: after.flatMap (render .strip) := by
  rw [h, List.flatMap_append, List.flatMap_cons]
  rfl

/-- Stripping leaves a finding exactly when what it removes joins a look-alike to a Latin letter. -/
theorem strip_clean_iff (isAlphanumeric : Char → Bool) (cfg : SanitizerConfig) (haction : cfg.action = .strip) (s : Str) :
    (scanWith isAlphanumeric cfg (defangWith isAlphanumeric cfg s).1).findings = [] ↔
      ∀ pre c post, s = pre ++ c :: post → (confusableSkeleton c).isSome = true →
        around (isTokenOrHidden isAlphanumeric cfg) Char.isAlpha pre.reverse c post = true →
          around (isTokenChar isAlphanumeric) Char.isAlpha pre.reverse c post = true := by
  rw [defangWith_eq (by rw [haction]; nofun), haction, clean_iff]
  constructor
  · rintro ⟨-, hpure⟩ pre c post rfl hlook hwide
    obtain ⟨skel, hskel⟩ := Option.isSome_iff_exists.mp hlook
    obtain ⟨before, after, hsplit, hbefore, hafter⟩ :=
      @exists_split_marks isAlphanumeric cfg pre c post
    by_contra hnarrow
    have hkept : mark isAlphanumeric cfg pre.reverse c post = none := by
      rw [mark, classify_of_confusable cfg hskel]
      exact if_neg hnarrow
    rw [hkept] at hsplit
    have hclean := hpure _ c _ (stripped_of_mark hsplit) hlook
    rw [around_of_strip hsplit, hbefore, hafter, hwide] at hclean
    cases hclean
  · intro hjoined
    constructor
    · -- What stays was shown; what was marked leaves nothing.
      intro c hc
      obtain ⟨⟨d, m⟩, he, hc⟩ := List.mem_flatMap.mp hc
      obtain ⟨before, after, hsplit⟩ := List.append_of_mem he
      obtain ⟨-, hm⟩ := split_of_marks hsplit
      cases m with
      | none =>
        obtain rfl := List.mem_singleton.mp hc
        exact classify_of_mark hm.symm
      | some m => cases hc
    · intro pre c post hout hlook
      obtain ⟨skel, hskel⟩ := Option.isSome_iff_exists.mp hlook
      obtain ⟨before, ⟨d, m⟩, after, p, q, hsplit, hpiece, rfl, rfl⟩ := split_of_flatMap hout
      cases m with
      | some m => cases p <;> cases hpiece
      | none =>
        obtain ⟨rfl, rfl, rfl⟩ := of_render_shown hpiece
        obtain ⟨hs, hm⟩ := split_of_marks hsplit
        have hnarrow := around_of_mark hskel hm.symm
        rw [List.append_nil, List.nil_append, around_of_strip hsplit, ← Bool.not_eq_true]
        intro hwide
        rw [hjoined _ c _ hs hlook hwide] at hnarrow
        cases hnarrow

def stripping : SanitizerConfig where
  action := .strip
  allowTab := true
  allowNewline := true

theorem strip_clean_spoof :
    (scanWith asciiOrConfusable stripping
      (defangWith asciiOrConfusable stripping "\u0440ay\u200bpal".toList).1).findings = [] ∧
    ∀ pre c post, "\u0440ay\u200bpal".toList = pre ++ c :: post → (confusableSkeleton c).isSome = true →
      around (isTokenOrHidden asciiOrConfusable stripping) Char.isAlpha pre.reverse c post = true →
        around (isTokenChar asciiOrConfusable) Char.isAlpha pre.reverse c post = true :=
  ⟨by decide, (strip_clean_iff asciiOrConfusable stripping rfl "\u0440ay\u200bpal".toList).mp (by decide)⟩

/-- A zero-width space between a Cyrillic letter and a Latin one. -/
theorem strip_joins_tokens :
    (scanWith asciiOrConfusable stripping "\u0430\u200bb".toList).findings.map (·.kind) = [.zeroWidth] ∧
      (defangWith asciiOrConfusable stripping "\u0430\u200bb".toList).1 = "\u0430b".toList ∧
      (scanWith asciiOrConfusable stripping
        (defangWith asciiOrConfusable stripping "\u0430\u200bb".toList).1).findings.map (·.kind) = [.confusable] := by
  decide

end Ccos.Sanitizer
