import Ccos.Lib.Ascii
import Ccos.Lib.StableSort
import Ccos.Lib.Stretches

/-!
# Hidden and look-alike characters

A scan reports the characters that a reader cannot see, and the Cyrillic and Greek letters that stand in one
token with a Latin letter. Which characters are letters or digits is a table of the standard library, so the
scan is over any `isAlphanumeric`.
-/

open Std Stretches

namespace Ccos.Sanitizer

inductive AnomalyKind where
  | bidiControl | tagChar | zeroWidth | control | otherFormat | confusable
  deriving DecidableEq

def AnomalyKind.asStr : AnomalyKind → Str
  | .bidiControl => "bidi-control".toList
  | .tagChar => "tag-char".toList
  | .zeroWidth => "zero-width".toList
  | .control => "control".toList
  | .otherFormat => "other-format".toList
  | .confusable => "confusable".toList

structure Finding where
  byteOffset : Nat
  charIndex : Nat
  codepoint : Nat
  kind : AnomalyKind
  label : Str
  deriving DecidableEq

structure ScanReport where
  findings : List Finding
  counts : BTreeMap Str Nat

inductive Action where
  | surface | strip | keep
  deriving DecidableEq

structure SanitizerConfig where
  action : Action
  allowTab : Bool
  allowNewline : Bool

def SanitizerConfig.default : SanitizerConfig where
  action := .surface
  allowTab := true
  allowNewline := true

/-! ## Single characters -/

def controlNames : List String :=
  ["NUL", "SOH", "STX", "ETX", "EOT", "ENQ", "ACK", "BEL", "BS", "HT", "LF",
    "VT", "FF", "CR", "SO", "SI", "DLE", "DC1", "DC2", "DC3", "DC4", "NAK",
    "SYN", "ETB", "CAN", "EM", "SUB", "ESC", "FS", "GS", "RS", "US"]

def controlName (cp : Nat) : String := if cp = 0x7F then "DEL" else (controlNames[cp]?).getD "C1"

def bidiNames : List (Nat × String) :=
  [(0x202A, "LRE"), (0x202B, "RLE"), (0x202C, "PDF"), (0x202D, "LRO"), (0x202E, "RLO"), (0x2066, "LRI"),
    (0x2067, "RLI"), (0x2068, "FSI"), (0x2069, "PDI"), (0x200E, "LRM"), (0x200F, "RLM"), (0x061C, "ALM")]

def zeroWidthNames : List (Nat × String) :=
  [(0x200B, "ZWSP"), (0x200C, "ZWNJ"), (0x200D, "ZWJ"), (0x2060, "WJ"), (0xFEFF, "BOM"), (0x00AD, "SHY"),
    (0x180E, "MVS")]

/-- The names of other format characters, by ranges of code points. -/
def formatRanges : List ((Nat × Nat) × String) :=
  [((0x2061, 0x2064), "INVIS-MATH"), ((0xFFF9, 0xFFFB), "ANNOT"), ((0x115F, 0x1160), "HANGUL-FILLER"),
    ((0x3164, 0x3164), "HANGUL-FILLER"), ((0xFFA0, 0xFFA0), "HANGUL-FILLER"), ((0xFE00, 0xFE0F), "VS"),
    ((0xE0100, 0xE01EF), "VS-SUPP"), ((0x2028, 0x2029), "LINE-SEP")]

def tagLabel (cp : Nat) : Option Str :=
  if cp = 0xE0001 then some "TAG:LANG".toList
  else if cp = 0xE007F then some "TAG:END".toList
  else if 0xE0020 ≤ cp ∧ cp ≤ 0xE007E then some ("TAG:".toList ++ [Char.ofNat (cp - 0xE0000)])
  else if cp = 0xE0000 ∨ 0xE0080 ≤ cp ∧ cp ≤ 0xE00FF then some "TAG".toList
  else none

def classify (cfg : SanitizerConfig) (c : Char) : Option (AnomalyKind × Str) :=
  let cp := c.toNat
  if cp = 0x09 ∧ cfg.allowTab then none
  else if (cp = 0x0A ∨ cp = 0x0D) ∧ cfg.allowNewline then none
  else if cp ≤ 0x1F ∨ 0x7F ≤ cp ∧ cp ≤ 0x9F then some (.control, (controlName cp).toList)
  else
    match bidiNames.lookup cp with
    | some name => some (.bidiControl, name.toList)
    | none =>
      match zeroWidthNames.lookup cp with
      | some name => some (.zeroWidth, name.toList)
      | none =>
        match tagLabel cp with
        | some label => some (.tagChar, label)
        | none => (formatRanges.find? fun r => r.1.1 ≤ cp ∧ cp ≤ r.1.2).map fun r => (.otherFormat, r.2.toList)

/-- The look-alikes, each with its Latin letter. -/
def confusables : List (Char × Char) :=
  [('\u0430', 'a'), ('\u0435', 'e'), ('\u043e', 'o'), ('\u0440', 'p'), ('\u0441', 'c'), ('\u0443', 'y'),
    ('\u0445', 'x'), ('\u0456', 'i'), ('\u0455', 's'), ('\u0458', 'j'), ('\u04bb', 'h'), ('\u0410', 'A'),
    ('\u0412', 'B'), ('\u0415', 'E'), ('\u041a', 'K'), ('\u041c', 'M'), ('\u041d', 'H'), ('\u041e', 'O'),
    ('\u0420', 'P'), ('\u0421', 'C'), ('\u0422', 'T'), ('\u0423', 'Y'), ('\u0425', 'X'), ('\u03bf', 'o'),
    ('\u03b1', 'a'), ('\u03c1', 'p'), ('\u03bd', 'v'), ('\u0391', 'A'), ('\u039f', 'O'), ('\u03a1', 'P'),
    ('\u0392', 'B'), ('\u0397', 'H'), ('\u039a', 'K'), ('\u03a4', 'T'), ('\u03a7', 'X')]

def confusableSkeleton (c : Char) : Option Char := confusables.lookup c

/-- `{:04X}` of a code point. -/
def hexOf (n : Nat) : Str :=
  let width := if n < 0x10000 then 4 else if n < 0x100000 then 5 else 6
  (List.range width).reverse.map fun i => (Nat.digitChar (n / 16 ^ i % 16)).toUpper

def Finding.literal (f : Finding) : Str := '[' :: ("U+".toList ++ hexOf f.codepoint ++ ' ' :: f.label) ++ [']']

/-! ## The scan -/

section Scan

variable (isAlphanumeric : Char → Bool)

def isTokenChar (c : Char) : Bool := isAlphanumeric c || c == '.' || c == '-' || c == '_'

/-- The look-alikes of a token that has a Latin letter. -/
def flush (hasAsciiLatin : Bool) (pending : List (Nat × Nat × Char × Char)) : List Finding :=
  if hasAsciiLatin then
    pending.map fun (byteOffset, charIndex, c, skel) =>
      { byteOffset, charIndex, codepoint := c.toNat, kind := .confusable, label := ['→', skel] }
  else []

/-- The rest of a text, behind what the current token has shown so far. -/
def confusablesFrom : Nat → Nat → Bool → List (Nat × Nat × Char × Char) → Str → List Finding
  | _, _, hasAsciiLatin, pending, [] => flush hasAsciiLatin pending
  | byteOffset, charIndex, hasAsciiLatin, pending, c :: cs =>
    if isTokenChar isAlphanumeric c then
      let pending := match confusableSkeleton c with
        | some skel => pending ++ [(byteOffset, charIndex, c, skel)]
        | none => pending
      confusablesFrom (byteOffset + c.utf8Size) (charIndex + 1) (hasAsciiLatin || c.isAlpha) pending cs
    else flush hasAsciiLatin pending ++ confusablesFrom (byteOffset + c.utf8Size) (charIndex + 1) false [] cs

def scanConfusables (input : Str) : List Finding := confusablesFrom isAlphanumeric 0 0 false [] input

def hiddenFrom (cfg : SanitizerConfig) : Nat → Nat → Str → List Finding
  | _, _, [] => []
  | byteOffset, charIndex, c :: cs =>
    let later := hiddenFrom cfg (byteOffset + c.utf8Size) (charIndex + 1) cs
    match classify cfg c with
    | some (kind, label) => { byteOffset, charIndex, codepoint := c.toNat, kind, label } :: later
    | none => later

def scanWith (cfg : SanitizerConfig) (input : Str) : ScanReport :=
  let found := hiddenFrom cfg 0 0 input ++ scanConfusables isAlphanumeric input
  { findings := sortBy (fun a b => compare a.byteOffset b.byteOffset) found
    counts := found.foldl (fun counts f => countAt counts f.kind.asStr) ∅ }

def replacement (f : Finding) (c : Char) : Action → Str
  | .surface => f.literal
  | .strip => []
  | .keep => [c]

/-- The findings are taken as their offsets come up. -/
def rebuild (action : Action) : Nat → List Finding → Str → Str
  | _, _, [] => []
  | byteOffset, [], c :: cs => c :: rebuild action (byteOffset + c.utf8Size) [] cs
  | byteOffset, f :: fs, c :: cs =>
    if f.byteOffset = byteOffset then
      replacement f c action ++ rebuild action (byteOffset + c.utf8Size) fs cs
    else c :: rebuild action (byteOffset + c.utf8Size) (f :: fs) cs

def defangWith (cfg : SanitizerConfig) (input : Str) : Str × ScanReport :=
  let report := scanWith isAlphanumeric cfg input
  if report.findings.isEmpty ∨ cfg.action = .keep then (input, report)
  else (rebuild cfg.action 0 report.findings input, report)

end Scan

/-! ## What the tables hold -/

/-- The characters that a literal is written with. -/
def IsPlain (c : Char) : Prop := (0x20 ≤ c.toNat ∧ c.toNat ≤ 0x7E) ∨ c = '→'

instance decidableIsPlain (c : Char) : Decidable (IsPlain c) := inferInstanceAs (Decidable (_ ∨ _))

theorem mem_of_lookup {α β : Type} [BEq α] [LawfulBEq α] {l : List (α × β)} {a : α} {b : β} (h : l.lookup a = some b) :
    (a, b) ∈ l := by
  induction l with
  | nil => cases h
  | cons e l ih =>
    rw [List.lookup_cons] at h
    split at h
    · rename_i heq
      rw [eq_of_beq heq, ← Option.some.inj h]
      exact List.mem_cons_self
    · exact List.mem_cons_of_mem _ (ih h)

theorem isPlain_of_isAlpha {c : Char} (h : c.isAlpha = true) : IsPlain c := by
  rw [isAlpha_iff] at h
  left
  rcases h with ⟨hlow, hhigh⟩ | ⟨hlow, hhigh⟩
  · exact ⟨Nat.le_trans (by decide) hlow, Nat.le_trans hhigh (by decide)⟩
  · exact ⟨Nat.le_trans (by decide) hlow, Nat.le_trans hhigh (by decide)⟩

theorem confusableSkeleton_eq {c skel : Char} (h : confusableSkeleton c = some skel) :
    0x391 ≤ c.toNat ∧ c.toNat ≤ 0x4BB ∧ IsPlain skel := by
  have htable : ∀ e ∈ confusables, 0x391 ≤ e.1.toNat ∧ e.1.toNat ≤ 0x4BB ∧ IsPlain e.2 := by decide
  exact htable _ (mem_of_lookup h)

theorem not_isPlain_of_confusable {c skel : Char} (h : confusableSkeleton c = some skel) : ¬ IsPlain c := by
  obtain ⟨hlow, hhigh, -⟩ := confusableSkeleton_eq h
  rintro (hplain | rfl)
  · omega
  · revert hhigh
    decide

theorem isPlain_of_all {s : Str} (h : (s.all fun d => decide (IsPlain d)) = true) : ∀ d ∈ s, IsPlain d :=
  fun d hd => of_decide_eq_true (List.all_eq_true.mp h d hd)

/-- A code point that is hidden is far from what is plain and what looks alike. -/
def Covert (cp : Nat) : Prop := (cp < 0x20 ∨ 0x7E < cp) ∧ cp ≠ 0x2192 ∧ (cp < 0x391 ∨ 0x4BB < cp)

instance decidableCovert (cp : Nat) : Decidable (Covert cp) := inferInstanceAs (Decidable (_ ∧ _))

/-- What the tables of names promise. -/
def WellNamed (m : AnomalyKind × Str) (cp : Nat) : Prop := m.1 ≠ .confusable ∧ (∀ d ∈ m.2, IsPlain d) ∧ Covert cp

theorem isPlain_controlName (cp : Nat) : ∀ d ∈ (controlName cp).toList, IsPlain d := by
  have htable : ∀ name ∈ controlNames, (name.toList.all fun d => decide (IsPlain d)) = true := by decide
  unfold controlName
  split
  · exact isPlain_of_all (by decide)
  · cases hname : controlNames[cp]? with
    | none => exact isPlain_of_all (by decide)
    | some name => exact isPlain_of_all (htable name (List.mem_of_getElem? hname))

theorem wellNamed_tagLabel {cp : Nat} {label : Str} (h : tagLabel cp = some label) :
    WellNamed (.tagChar, label) cp := by
  have hcovert : 0xE0000 ≤ cp → Covert cp := fun h => ⟨by omega, by omega, by omega⟩
  unfold tagLabel at h
  split at h
  · obtain rfl := Option.some.inj h
    exact ⟨nofun, isPlain_of_all (by decide), hcovert (by omega)⟩
  · split at h
    · obtain rfl := Option.some.inj h
      exact ⟨nofun, isPlain_of_all (by decide), hcovert (by omega)⟩
    · split at h
      · obtain rfl := Option.some.inj h
        have hname : ∀ d ∈ "TAG:".toList, IsPlain d := isPlain_of_all (by decide)
        refine ⟨nofun, fun d hd => ?_, hcovert (by omega)⟩
        rcases List.mem_append.mp hd with hd | hd
        · exact hname d hd
        · rw [List.mem_singleton.mp hd]
          left
          rw [toNat_ofNat (by omega)]
          omega
      · split at h
        · obtain rfl := Option.some.inj h
          exact ⟨nofun, isPlain_of_all (by decide), hcovert (by omega)⟩
        · cases h

theorem wellNamed_classify {cfg : SanitizerConfig} {c : Char} {m : AnomalyKind × Str} (h : classify cfg c = some m) :
    WellNamed m c.toNat := by
  have hbidi : ∀ e ∈ bidiNames, Covert e.1 ∧ (e.2.toList.all fun d => decide (IsPlain d)) = true := by decide
  have hzero : ∀ e ∈ zeroWidthNames, Covert e.1 ∧ (e.2.toList.all fun d => decide (IsPlain d)) = true := by decide
  have hformat : ∀ r ∈ formatRanges, (0x4BB < r.1.1 ∧ (r.1.2 < 0x2192 ∨ 0x2192 < r.1.1)) ∧
      (r.2.toList.all fun d => decide (IsPlain d)) = true := by decide
  unfold classify at h
  dsimp only at h
  split at h
  · cases h
  · split at h
    · cases h
    · split at h
      · obtain rfl := Option.some.inj h
        exact ⟨nofun, isPlain_controlName _, by omega, by omega, by omega⟩
      · split at h
        · rename_i hname
          obtain rfl := Option.some.inj h
          have hentry := hbidi _ (mem_of_lookup hname)
          exact ⟨nofun, isPlain_of_all hentry.2, hentry.1⟩
        · split at h
          · rename_i hname
            obtain rfl := Option.some.inj h
            have hentry := hzero _ (mem_of_lookup hname)
            exact ⟨nofun, isPlain_of_all hentry.2, hentry.1⟩
          · split at h
            · rename_i hname
              obtain rfl := Option.some.inj h
              exact wellNamed_tagLabel hname
            · obtain ⟨r, hfind, rfl⟩ := Option.map_eq_some_iff.mp h
              have hrange := List.find?_some hfind
              rw [decide_eq_true_eq] at hrange
              have hentry := hformat r (List.mem_of_find?_eq_some hfind)
              exact ⟨nofun, isPlain_of_all hentry.2, by omega, by omega, by omega⟩

theorem classify_of_isPlain (cfg : SanitizerConfig) {c : Char} (h : IsPlain c) : classify cfg c = none := by
  cases hfound : classify cfg c with
  | none => rfl
  | some m =>
    obtain ⟨-, -, hrange, harrow, -⟩ := wellNamed_classify hfound
    rcases h with hplain | rfl
    · omega
    · exact absurd rfl harrow

theorem confusableSkeleton_of_classify {cfg : SanitizerConfig} {c : Char} {m : AnomalyKind × Str}
    (h : classify cfg c = some m) : confusableSkeleton c = none := by
  obtain ⟨-, -, -, -, hrange⟩ := wellNamed_classify h
  cases hskel : confusableSkeleton c with
  | none => rfl
  | some skel =>
    obtain ⟨hlow, hhigh, -⟩ := confusableSkeleton_eq hskel
    omega

theorem classify_of_confusable (cfg : SanitizerConfig) {c skel : Char} (h : confusableSkeleton c = some skel) :
    classify cfg c = none := by
  cases hfound : classify cfg c with
  | none => rfl
  | some m =>
    rw [confusableSkeleton_of_classify hfound] at h
    cases h

theorem isAlpha_of_classify {cfg : SanitizerConfig} {c : Char} {m : AnomalyKind × Str} (h : classify cfg c = some m) :
    c.isAlpha = false := by
  rw [← Bool.not_eq_true]
  intro halpha
  rw [classify_of_isPlain cfg (isPlain_of_isAlpha halpha)] at h
  cases h

theorem isAlpha_of_confusable {c skel : Char} (h : confusableSkeleton c = some skel) : c.isAlpha = false := by
  rw [← Bool.not_eq_true]
  exact fun halpha => not_isPlain_of_confusable h (isPlain_of_isAlpha halpha)

theorem isPlain_hexOf (n : Nat) : ∀ d ∈ hexOf n, IsPlain d := by
  have hdigit : ∀ k < 16, IsPlain (Nat.digitChar k).toUpper := by decide
  intro d hd
  unfold hexOf at hd
  obtain ⟨i, -, rfl⟩ := List.mem_map.mp hd
  exact hdigit _ (Nat.mod_lt _ (by decide))

/-! ## Position by position -/

section Marks

variable (isAlphanumeric : Char → Bool)

abbrev Mark := Option (AnomalyKind × Str)

/-- What a scan says of a character. The text before it is given backwards. -/
def mark (cfg : SanitizerConfig) (pre : Str) (c : Char) (post : Str) : Mark :=
  match classify cfg c with
  | some m => some m
  | none =>
    if around (isTokenChar isAlphanumeric) Char.isAlpha pre c post then
      (confusableSkeleton c).map fun skel => (.confusable, ['→', skel])
    else none

def marksFrom (cfg : SanitizerConfig) : Str → Str → List (Char × Mark)
  | _, [] => []
  | pre, c :: cs => (c, mark isAlphanumeric cfg pre c cs) :: marksFrom cfg (c :: pre) cs

def marks (cfg : SanitizerConfig) (s : Str) : List (Char × Mark) := marksFrom isAlphanumeric cfg [] s

def findingsOf : Nat → Nat → List (Char × Mark) → List Finding
  | _, _, [] => []
  | byteOffset, charIndex, (c, some m) :: rest =>
    { byteOffset, charIndex, codepoint := c.toNat, kind := m.1, label := m.2 } ::
      findingsOf (byteOffset + c.utf8Size) (charIndex + 1) rest
  | byteOffset, charIndex, (c, none) :: rest => findingsOf (byteOffset + c.utf8Size) (charIndex + 1) rest

variable {isAlphanumeric}

theorem map_fst_marksFrom (cfg : SanitizerConfig) (pre s : Str) :
    (marksFrom isAlphanumeric cfg pre s).map Prod.fst = s := by
  induction s generalizing pre with
  | nil => rfl
  | cons c cs ih => rw [marksFrom, List.map_cons, ih]

theorem mark_of_split {cfg : SanitizerConfig} {pre s : Str} {before after : List (Char × Mark)} {c : Char} {m : Mark}
    (h : marksFrom isAlphanumeric cfg pre s = before ++ (c, m) :: after) :
    m = mark isAlphanumeric cfg ((before.map Prod.fst).reverse ++ pre) c (after.map Prod.fst) := by
  induction before generalizing pre s with
  | nil =>
    cases s with
    | nil => cases h
    | cons d cs =>
      obtain ⟨hhead, htail⟩ := List.cons.inj h
      obtain ⟨rfl, rfl⟩ := Prod.mk.inj hhead
      rw [← htail, map_fst_marksFrom]
      rfl
  | cons e before ih =>
    cases s with
    | nil => cases h
    | cons d cs =>
      obtain ⟨hhead, htail⟩ := List.cons.inj h
      rw [ih htail, ← hhead, List.map_cons, List.reverse_cons, List.append_assoc]
      rfl

/-- The findings of a text without marks are none, and the other way round. -/
theorem findingsOf_eq_nil_iff (byteOffset charIndex : Nat) (l : List (Char × Mark)) :
    findingsOf byteOffset charIndex l = [] ↔ ∀ e ∈ l, e.2 = none := by
  induction l generalizing byteOffset charIndex with
  | nil => simp [findingsOf]
  | cons e l ih =>
    obtain ⟨c, m⟩ := e
    cases m with
    | none => simp [findingsOf, ih]
    | some m => simp [findingsOf]

theorem le_of_mem_findingsOf {byteOffset charIndex : Nat} {l : List (Char × Mark)} {f : Finding}
    (h : f ∈ findingsOf byteOffset charIndex l) : byteOffset ≤ f.byteOffset := by
  induction l generalizing byteOffset charIndex with
  | nil => cases h
  | cons e l ih =>
    obtain ⟨c, m⟩ := e
    cases m with
    | none => exact Nat.le_trans (Nat.le_add_right _ _) (ih h)
    | some m =>
      rcases List.mem_cons.mp h with rfl | h
      · exact Nat.le_refl _
      · exact Nat.le_trans (Nat.le_add_right _ _) (ih h)

theorem ascending_findingsOf (byteOffset charIndex : Nat) (l : List (Char × Mark)) :
    (findingsOf byteOffset charIndex l).Pairwise fun a b => a.byteOffset < b.byteOffset := by
  induction l generalizing byteOffset charIndex with
  | nil => exact List.Pairwise.nil
  | cons e l ih =>
    obtain ⟨c, m⟩ := e
    cases m with
    | none => exact ih _ _
    | some m =>
      refine List.pairwise_cons.mpr ⟨fun f hf => ?_, ih _ _⟩
      have := le_of_mem_findingsOf hf
      have := c.utf8Size_pos
      dsimp only
      omega

theorem hiddenFrom_eq (cfg : SanitizerConfig) (pre s : Str) (byteOffset charIndex : Nat) :
    hiddenFrom cfg byteOffset charIndex s =
      (findingsOf byteOffset charIndex (marksFrom isAlphanumeric cfg pre s)).filter (·.kind ≠ .confusable) := by
  induction s generalizing pre byteOffset charIndex with
  | nil => rfl
  | cons c cs ih =>
    have ih := ih (c :: pre) (byteOffset + c.utf8Size) (charIndex + 1)
    rw [hiddenFrom, marksFrom, mark]
    cases hc : classify cfg c with
    | some m =>
      dsimp only
      rw [findingsOf, List.filter_cons_of_pos (by simpa using (wellNamed_classify hc).1), ih]
    | none =>
      dsimp only
      split
      · cases confusableSkeleton c with
        | none => rw [Option.map_none, findingsOf, ih]
        | some skel => rw [Option.map_some, findingsOf, List.filter_cons_of_neg (by simp), ih]
      · rw [findingsOf, ih]

theorem flush_append (hasAsciiLatin : Bool) (a b : List (Nat × Nat × Char × Char)) :
    flush hasAsciiLatin (a ++ b) = flush hasAsciiLatin a ++ flush hasAsciiLatin b := by
  cases hasAsciiLatin with
  | false => rfl
  | true => exact List.map_append

@[simp] theorem flush_nil (hasAsciiLatin : Bool) : flush hasAsciiLatin [] = [] := by cases hasAsciiLatin <;> rfl

theorem filter_confusable_of_none {cfg : SanitizerConfig} {c : Char} (hskel : confusableSkeleton c = none) (pre post : Str)
    (byteOffset charIndex : Nat) (l : List (Char × Mark)) :
    (findingsOf byteOffset charIndex ((c, mark isAlphanumeric cfg pre c post) :: l)).filter (·.kind = .confusable) =
      (findingsOf (byteOffset + c.utf8Size) (charIndex + 1) l).filter (·.kind = .confusable) := by
  rw [mark]
  cases hc : classify cfg c with
  | some m => rw [findingsOf, List.filter_cons_of_neg (by simpa using (wellNamed_classify hc).1)]
  | none =>
    dsimp only
    rw [hskel, Option.map_none, ite_self, findingsOf]

/-- The Latin letters seen so far are those behind the scan, and a later one flags the same characters. -/
theorem confusablesFrom_eq (cfg : SanitizerConfig) (pre s : Str) (byteOffset charIndex : Nat)
    (pending : List (Nat × Nat × Char × Char)) :
    confusablesFrom isAlphanumeric byteOffset charIndex (ahead (isTokenChar isAlphanumeric) Char.isAlpha pre) pending s =
      flush (ahead (isTokenChar isAlphanumeric) Char.isAlpha pre || ahead (isTokenChar isAlphanumeric) Char.isAlpha s)
          pending ++
        (findingsOf byteOffset charIndex (marksFrom isAlphanumeric cfg pre s)).filter (·.kind = .confusable) := by
  induction s generalizing pre byteOffset charIndex pending with
  | nil => rw [confusablesFrom, ahead_nil, Bool.or_false, marksFrom, findingsOf, List.filter_nil, List.append_nil]
  | cons c cs ih =>
    have ih := ih (c :: pre) (byteOffset + c.utf8Size) (charIndex + 1)
    rw [confusablesFrom, marksFrom]
    split
    · -- Inside a token the look-alikes wait until it is known whether a Latin letter comes.
      rename_i hin
      have hseen : (ahead (isTokenChar isAlphanumeric) Char.isAlpha pre || c.isAlpha) =
          ahead (isTokenChar isAlphanumeric) Char.isAlpha (c :: pre) := by
        rw [ahead_cons, hin, Bool.true_and, Bool.or_comm]
      have hlatin : (ahead (isTokenChar isAlphanumeric) Char.isAlpha (c :: pre) ||
            ahead (isTokenChar isAlphanumeric) Char.isAlpha cs) =
          (ahead (isTokenChar isAlphanumeric) Char.isAlpha pre ||
            ahead (isTokenChar isAlphanumeric) Char.isAlpha (c :: cs)) := by
        rw [← hseen, ahead_cons _ _ c cs, hin, Bool.true_and, Bool.or_assoc]
      dsimp only
      rw [hseen, ih, hlatin]
      cases hskel : confusableSkeleton c with
      | none => rw [filter_confusable_of_none hskel]
      | some skel =>
        rw [flush_append, List.append_assoc, mark, classify_of_confusable cfg hskel]
        dsimp only
        rw [around, hin, Bool.true_and, hskel, Option.map_some]
        cases ahead (isTokenChar isAlphanumeric) Char.isAlpha pre ||
            ahead (isTokenChar isAlphanumeric) Char.isAlpha (c :: cs) with
        | true => rfl
        | false => rfl
    · -- Outside, the token before is over, and so is its list.
      rename_i hout
      rw [Bool.not_eq_true] at hout
      have hnone : mark isAlphanumeric cfg pre c cs = classify cfg c := by
        rw [mark]
        cases classify cfg c with
        | some m => rfl
        | none => simp [around, hout]
      have hcut := ih []
      rw [ahead_of_outside hout, flush_nil, List.nil_append] at hcut
      rw [ahead_of_outside hout, Bool.or_false, hcut, hnone]
      cases hc : classify cfg c with
      | some m => rw [findingsOf, List.filter_cons_of_neg (by simpa using (wellNamed_classify hc).1)]
      | none => rw [findingsOf]

theorem findings_scanWith (cfg : SanitizerConfig) (s : Str) :
    (scanWith isAlphanumeric cfg s).findings = findingsOf 0 0 (marks isAlphanumeric cfg s) := by
  have hasc := ascending_findingsOf 0 0 (marks isAlphanumeric cfg s)
  have hconf := @confusablesFrom_eq isAlphanumeric cfg [] s 0 0 []
  rw [ahead_nil, flush_nil, List.nil_append] at hconf
  have hfound : hiddenFrom cfg 0 0 s ++ scanConfusables isAlphanumeric s =
      (findingsOf 0 0 (marks isAlphanumeric cfg s)).filter (fun f => decide (f.kind ≠ .confusable)) ++
        (findingsOf 0 0 (marks isAlphanumeric cfg s)).filter (fun f => !decide (f.kind ≠ .confusable)) := by
    rw [@hiddenFrom_eq isAlphanumeric cfg [] s, scanConfusables, hconf]
    simp [marks]
  have hperm := List.filter_append_perm (fun f : Finding => decide (f.kind ≠ .confusable))
    (findingsOf 0 0 (marks isAlphanumeric cfg s))
  rw [scanWith]
  dsimp only
  rw [hfound, sortBy_eq_of_perm Finding.byteOffset ?_ hperm]
  · refine List.Pairwise.insertionSort_eq (hasc.imp fun h => ?_)
    dsimp only
    rw [Nat.compare_eq_lt.mpr h]
    rfl
  · have hnodup : ((findingsOf 0 0 (marks isAlphanumeric cfg s)).map Finding.byteOffset).Nodup :=
      List.pairwise_map.mpr (hasc.imp Nat.ne_of_lt)
    intro a ha b hb hab
    exact List.inj_on_of_nodup_map hnodup (hperm.mem_iff.mp ha) (hperm.mem_iff.mp hb) hab

end Marks

end Ccos.Sanitizer
