import Mathlib.Data.List.Sort
import Mathlib.Data.Finset.Card
import Mathlib.Tactic.Linarith

/-! # Text and ordered keys

Strings are lists of characters. Rust compares `str` byte by byte, which on UTF-8 is the order of
the code points, so the list order is the source's order.
-/

open Std

namespace Ccos

abbrev Str := List Char

instance strLawfulBEq : LawfulBEq Str := inferInstance

/-- Pairs compare like Rust tuples: the first component decides, then the second. -/
instance pairOrd {α β : Type} [Ord α] [Ord β] : Ord (α × β) := lexOrd

instance strPairTransOrd : TransOrd (Str × Str) := inferInstance

instance strTripleTransOrd : TransOrd (Str × Str × Str) := inferInstance

abbrev BTreeMap (α β : Type) [Ord α] := ExtTreeMap α β

section Entries

variable {α β : Type} [Ord α] [TransOrd α]

/-- `m.entry(k).or_default().push(v)`. -/
def pushAt (m : BTreeMap α (List β)) (k : α) (v : β) : BTreeMap α (List β) :=
  m.insert k ((m[k]?).getD [] ++ [v])

/-- `*m.entry(k).or_default() += 1`. -/
def countAt (m : BTreeMap α Nat) (k : α) : BTreeMap α Nat := m.insert k ((m[k]?).getD 0 + 1)

/-- `m.entry(k).or_insert(v)`. -/
def insertFirst (m : BTreeMap α β) (k : α) (v : β) : BTreeMap α β :=
  if k ∈ m then m else m.insert k v

end Entries

/-- `str::len`: the bytes of the UTF-8 form. -/
def byteLen (s : Str) : Nat := (s.map Char.utf8Size).sum

/-- The UTF-8 form of a text. -/
def utf8 (s : Str) : List UInt8 := s.flatMap String.utf8EncodeChar

/-- `String::from_utf8`; `none` when the bytes are not UTF-8. -/
def decodeUtf8 (bytes : List UInt8) : Option Str := bytes.toByteArray.utf8Decode?.map Array.toList

theorem decodeUtf8_utf8 (s : Str) : decodeUtf8 (utf8 s) = some s := by
  have henc : (utf8 s).toByteArray = s.utf8Encode := rfl
  rw [decodeUtf8, henc, List.utf8Decode?_utf8Encode]
  rfl

theorem utf8_injective : Function.Injective utf8 := by
  intro a b h
  have hdecoded := congrArg decodeUtf8 h
  rw [decodeUtf8_utf8, decodeUtf8_utf8] at hdecoded
  exact Option.some.inj hdecoded

@[simp] theorem utf8_append (a b : Str) : utf8 (a ++ b) = utf8 a ++ utf8 b := List.flatMap_append

theorem length_utf8 (s : Str) : (utf8 s).length = byteLen s := by
  rw [utf8, List.length_flatMap, byteLen]
  congr 1
  exact List.map_congr_left fun c _ => String.length_utf8EncodeChar c

/-! ## Searching -/

def startsWith (p s : Str) : Bool := p.isPrefixOf s

def stripPrefix (p s : Str) : Option Str := p.isPrefixOf? s

def stripSuffix (p s : Str) : Option Str := p.isSuffixOf? s

/-- `str::split_once`: the text around the first match. -/
def splitOnce (pat : Str) : Str → Option (Str × Str)
  | [] => if pat = [] then some ([], []) else none
  | c :: cs =>
    match stripPrefix pat (c :: cs) with
    | some rest => some ([], rest)
    | none => (splitOnce pat cs).map fun (a, b) => (c :: a, b)

/-- `str::rsplit_once`: the text around the last match. -/
def rsplitOnce (pat : Str) : Str → Option (Str × Str)
  | [] => if pat = [] then some ([], []) else none
  | c :: cs =>
    match rsplitOnce pat cs with
    | some (a, b) => some (c :: a, b)
    | none => (stripPrefix pat (c :: cs)).map fun rest => ([], rest)

/-- `str::split` by a non-empty pattern. `skip` counts the characters of a match still to drop. -/
def splitGo (pat : Str) : Nat → Str → Str → List Str
  | _, piece, [] => [piece]
  | 0, piece, c :: cs =>
    if startsWith pat (c :: cs) then piece :: splitGo pat (pat.length - 1) [] cs
    else splitGo pat 0 (piece ++ [c]) cs
  | skip + 1, piece, _ :: cs => splitGo pat skip piece cs

def split (pat s : Str) : List Str := splitGo pat 0 [] s

/-- `s.split(pat).next().unwrap_or(s)`. -/
def firstPiece (pat s : Str) : Str := ((splitOnce pat s).map (·.1)).getD s

/-- `s.rsplit(pat).next()`. -/
def lastPiece (pat s : Str) : Str := ((rsplitOnce pat s).map (·.2)).getD s

def containsStr (pat s : Str) : Bool := (splitOnce pat s).isSome

/-- A text is in every text that ends with it. -/
theorem containsStr_append (p a : Str) : containsStr p (a ++ p) = true := by
  unfold containsStr
  induction a with
  | nil =>
    cases p with
    | nil => rfl
    | cons c cs =>
      have hprefix : stripPrefix (c :: cs) (c :: cs) = some [] := by simp [stripPrefix]
      rw [List.nil_append, splitOnce, hprefix]
      rfl
  | cons c a ih =>
    rw [List.cons_append, splitOnce]
    split
    · rfl
    · rwa [Option.isSome_map]

def joinWith (sep : Str) (pieces : List Str) : Str := List.intercalate sep pieces

def colon : Str := ":".toList
def colons : Str := "::".toList

/-- `format!("{n}")` for an integer. -/
def natStr (n : Nat) : Str := (Nat.repr n).toList

/-- `format!("{kind}{a}:{b}")`, the shape of a node id that names something inside a file. -/
def scopedId (kind a b : Str) : Str := kind ++ a ++ ':' :: b

/-- A text up to its first separator is determined. -/
theorem append_sep_inj {sep : Char} {a b x y : Str} (ha : sep ∉ a) (hb : sep ∉ b)
    (h : a ++ sep :: x = b ++ sep :: y) : a = b ∧ x = y := by
  induction a generalizing b with
  | nil =>
    cases b with
    | nil => exact ⟨rfl, (List.cons.inj h).2⟩
    | cons c b =>
      have hc : sep = c := (List.cons.inj h).1
      subst hc
      exact absurd List.mem_cons_self hb
  | cons d a ih =>
    cases b with
    | nil =>
      have hd : d = sep := (List.cons.inj h).1
      subst hd
      exact absurd List.mem_cons_self ha
    | cons c b =>
      simp only [List.cons_append, List.cons.injEq] at h
      obtain ⟨rfl, h⟩ := h
      obtain ⟨rfl, rfl⟩ := ih (fun hmem => ha (List.mem_cons_of_mem _ hmem))
        (fun hmem => hb (List.mem_cons_of_mem _ hmem)) h
      exact ⟨rfl, rfl⟩

/-! ## Lines and blanks -/

def stripCr (line : Str) : Str := (stripSuffix ['\r'] line).getD line

def linesFrom (piece : Str) : Str → List Str
  | [] => if piece = [] then [] else [piece]
  | c :: cs => if c = '\n' then stripCr piece :: linesFrom [] cs else linesFrom (piece ++ [c]) cs

/-- `str::lines`: a line ends at a line feed, with an optional carriage return before it. -/
def lines (s : Str) : List Str := linesFrom [] s

/-- `char::is_whitespace`. -/
def isWhitespace (c : Char) : Bool :=
  let n := c.toNat
  (9 ≤ n && n ≤ 13) || (0x2000 ≤ n && n ≤ 0x200a)
    || n ∈ [0x20, 0x85, 0xa0, 0x1680, 0x2028, 0x2029, 0x202f, 0x205f, 0x3000]

def trimEnd (s : Str) : Str := (s.reverse.dropWhile isWhitespace).reverse

def trimStart (s : Str) : Str := s.dropWhile isWhitespace

def trim (s : Str) : Str := trimEnd (s.dropWhile isWhitespace)

/-! ## Sorting -/

/-- `slice::sort_by`: a stable sort by a comparison. -/
def sortBy {α : Type} (cmp : α → α → Ordering) (l : List α) : List α :=
  l.insertionSort fun a b => (cmp a b).isLE

/-- Drops the elements that equal the last one kept. -/
def dedupFrom {α : Type} (same : α → α → Bool) : α → List α → List α
  | _, [] => []
  | kept, a :: rest => if same kept a then dedupFrom same kept rest else a :: dedupFrom same a rest

/-- `Vec::dedup_by`. -/
def dedupBy {α : Type} (same : α → α → Bool) : List α → List α
  | [] => []
  | a :: rest => a :: dedupFrom same a rest

def sortDedup {α : Type} [Ord α] [DecidableEq α] (l : List α) : List α :=
  dedupBy (fun a b => decide (a = b)) (sortBy compare l)

/-- `Iterator::max_by`: the last of the greatest. -/
def maxBy {α : Type} (cmp : α → α → Ordering) : List α → Option α
  | [] => none
  | a :: rest => some (rest.foldl (fun best x => if cmp best x = .gt then best else x) a)

theorem perm_sortBy {α : Type} (cmp : α → α → Ordering) (l : List α) : (sortBy cmp l).Perm l :=
  List.perm_insertionSort _ l

@[simp] theorem mem_sortBy {α : Type} (cmp : α → α → Ordering) (l : List α) (a : α) :
    a ∈ sortBy cmp l ↔ a ∈ l := (perm_sortBy cmp l).mem_iff

@[simp] theorem length_sortBy {α : Type} (cmp : α → α → Ordering) (l : List α) :
    (sortBy cmp l).length = l.length := (perm_sortBy cmp l).length_eq

theorem sublist_dedupFrom {α : Type} (same : α → α → Bool) (kept : α) (l : List α) :
    (dedupFrom same kept l).Sublist l := by
  induction l generalizing kept with
  | nil => exact List.Sublist.refl _
  | cons a l ih =>
    unfold dedupFrom
    split
    · exact (ih kept).cons a
    · exact (ih a).cons_cons a

theorem sublist_dedupBy {α : Type} (same : α → α → Bool) (l : List α) : (dedupBy same l).Sublist l := by
  cases l with
  | nil => exact List.Sublist.refl _
  | cons a l => exact (sublist_dedupFrom same a l).cons_cons a

theorem length_sortDedup_le {α : Type} [Ord α] [DecidableEq α] (l : List α) : (sortDedup l).length ≤ l.length := by
  have hle := (sublist_dedupBy (fun a b => decide (a = b)) (sortBy compare l)).length_le
  rwa [length_sortBy] at hle

theorem mem_dedupFrom {α : Type} [DecidableEq α] {a kept : α} {l : List α} :
    a ∈ kept :: dedupFrom (fun a b => decide (a = b)) kept l ↔ a ∈ kept :: l := by
  induction l generalizing kept with
  | nil => rfl
  | cons b l ih =>
    unfold dedupFrom
    by_cases hb : kept = b
    · rw [if_pos (by simpa using hb), ih, hb]
      simp
    · rw [if_neg (by simpa using hb), List.mem_cons, ih, List.mem_cons, List.mem_cons, List.mem_cons]

theorem mem_sortDedup {α : Type} [Ord α] [DecidableEq α] {a : α} {l : List α} : a ∈ sortDedup l ↔ a ∈ l := by
  rw [← mem_sortBy compare l a, sortDedup]
  cases sortBy compare l with
  | nil => rfl
  | cons b rest => exact mem_dedupFrom

theorem ascending_dedupFrom {α : Type} [Ord α] [TransOrd α] [LawfulEqOrd α] [DecidableEq α] {kept : α}
    {l : List α} (h : (kept :: l).Pairwise fun a b => (compare a b).isLE) :
    (kept :: dedupFrom (fun a b => decide (a = b)) kept l).Pairwise fun a b => compare a b = .lt := by
  induction l generalizing kept with
  | nil => exact List.pairwise_singleton _ _
  | cons b l ih =>
    obtain ⟨hkept, hrest⟩ := List.pairwise_cons.mp h
    unfold dedupFrom
    by_cases hb : kept = b
    · rw [if_pos (by simpa using hb), hb]
      exact ih hrest
    · rw [if_neg (by simpa using hb)]
      refine List.pairwise_cons.mpr ⟨fun c hc => ?_, ih hrest⟩
      have hlt : compare kept b = .lt := by
        have hle := hkept b List.mem_cons_self
        have hne : compare kept b ≠ .eq := fun heq => hb (LawfulEqOrd.compare_eq_iff_eq.mp heq)
        cases hc : compare kept b <;> simp_all
      rcases List.mem_cons.mp (mem_dedupFrom.mp hc) with rfl | hc
      · exact hlt
      · exact TransCmp.lt_of_lt_of_isLE hlt ((List.pairwise_cons.mp hrest).1 c hc)

/-- A sort by a key leaves the keys in order. -/
theorem pairwise_sortBy {α β : Type} [Ord β] [TransOrd β] (key : α → β) (l : List α) :
    (sortBy (fun a b => compare (key a) (key b)) l).Pairwise fun a b => (compare (key a) (key b)).isLE := by
  have htotal : Std.Total fun a b : α => (compare (key a) (key b)).isLE = true := ⟨fun a b => by
    have hswap : compare (key b) (key a) = (compare (key a) (key b)).swap := OrientedOrd.eq_swap
    rw [hswap]
    cases compare (key a) (key b) <;> simp⟩
  have htrans : IsTrans α fun a b => (compare (key a) (key b)).isLE = true := ⟨fun _ _ _ => TransCmp.isLE_trans⟩
  exact List.pairwise_insertionSort _ l

/-- A sort by a key that tells the elements apart forgets their order. -/
theorem sortBy_eq_of_perm {α β : Type} [Ord β] [TransOrd β] [LawfulEqOrd β] (key : α → β) {l l' : List α}
    (hkey : ∀ a ∈ l, ∀ b ∈ l, key a = key b → a = b) (h : l.Perm l') :
    sortBy (fun a b => compare (key a) (key b)) l = sortBy (fun a b => compare (key a) (key b)) l' := by
  refine List.Perm.eq_of_pairwise (fun a b ha hb hab hba => ?_) (pairwise_sortBy key l) (pairwise_sortBy key l')
    ((perm_sortBy _ l).trans (h.trans (perm_sortBy _ l').symm))
  refine hkey a ((mem_sortBy _ l a).mp ha) b (h.mem_iff.mpr ((mem_sortBy _ l' b).mp hb)) ?_
  exact LawfulEqOrd.compare_eq_iff_eq.mp (OrientedCmp.isLE_antisymm hab hba)

theorem ascending_sortDedup {α : Type} [Ord α] [TransOrd α] [LawfulEqOrd α] [DecidableEq α] (l : List α) :
    (sortDedup l).Pairwise fun a b => compare a b = .lt := by
  have hsorted : (sortBy compare l).Pairwise fun a b => (compare a b).isLE := pairwise_sortBy id l
  unfold sortDedup
  generalize sortBy compare l = sorted at hsorted
  cases sorted with
  | nil => exact List.Pairwise.nil
  | cons b rest => exact ascending_dedupFrom hsorted

/-! ## Results -/

theorem bind_eq_ok {E A B : Type} {x : Except E A} {f : A → Except E B} {r : B} :
    (x >>= f) = .ok r ↔ ∃ a, x = .ok a ∧ f a = .ok r := by
  cases x with
  | error err => exact ⟨nofun, fun ⟨_, h, _⟩ => nomatch h⟩
  | ok a => exact ⟨fun h => ⟨a, rfl, h⟩, fun ⟨_, ha, h⟩ => Except.ok.inj ha ▸ h⟩

/-- `check?; rest` -/
theorem check_eq_ok {E B : Type} {x : Except E Unit} {f : Unit → Except E B} {r : B} :
    (x >>= f) = .ok r ↔ x = .ok () ∧ f () = .ok r := by
  rw [bind_eq_ok]
  exact ⟨fun ⟨_, h⟩ => h, fun h => ⟨(), h⟩⟩

end Ccos
