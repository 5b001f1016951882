import Ccos.Compress.Window
import Ccos.Lib.Ascii
import Ccos.Log.EventLog
import Mathlib.Data.List.TakeWhile

/-!
# The skeleton of a code span

Line by line: comments and blank runs go, blanks are collapsed, and what looks like a temporary is renamed.
The renaming works on bytes, and turns each byte it keeps into a character.
-/

namespace Ccos.CausalAst

/-! ## Temporaries -/

/-- `b as char`. -/
def charOf (b : UInt8) : Char := Char.ofNat b.toNat

def isIdent (c : Char) : Bool := c.isAlphanum || c == '_'

/-- An underscore before a lowercase letter, and not behind an identifier character. -/
def startsTemporary (prev : Option Char) (c : Char) (next : Option Char) : Bool :=
  c == '_' && next.any Char.isLower && !prev.any isIdent

/-- The bytes from one on, behind `prev`. `skip` counts the bytes of an identifier still to drop. -/
def renameFrom : Nat → Option Char → Nat → List UInt8 → Str × Nat
  | _, _, counter, [] => ([], counter)
  | skip + 1, _, counter, b :: bytes => renameFrom skip (some (charOf b)) counter bytes
  | 0, prev, counter, b :: bytes =>
    if startsTemporary prev (charOf b) (bytes.head?.map charOf) then
      let (out, counter') := renameFrom (bytes.takeWhile fun b => isIdent (charOf b)).length (some (charOf b))
        ((counter + 1) % 2 ^ 32) bytes
      ('$' :: natStr counter ++ out, counter')
    else
      let (out, counter') := renameFrom 0 (some (charOf b)) counter bytes
      (charOf b :: out, counter')

def renameTemporaries (line : Str) (counter : Nat) : Str × Nat := renameFrom 0 none counter (utf8 line)

/-! ## Lines -/

def isUseLine (line : Str) : Bool :=
  startsWith "use ".toList line && (trimEnd line).getLast? == some ';' && !containsStr " pub ".toList line

def isSignatureLine (line : Str) : Bool :=
  let t := trim line
  (startsWith "fn ".toList t || startsWith "pub fn ".toList t || startsWith "async fn ".toList t)
    && !(t.contains '\x7b' || containsStr "=>".toList t)
    && (t.getLast? == some ')' || t.getLast? == some ';')

/-- Drops a line comment, unless something that is no blank stands before it. -/
def stripComment (rawLine : Str) : Str :=
  let line := trimEnd rawLine
  match splitOnce "//".toList line with
  | some (before, _) => if before = [] ∨ before.getLast?.any isWhitespace then trimEnd before else line
  | none => line

structure Collapse where
  collapsed : Str
  inStr : Bool
  esc : Bool
  run : Nat

def collapseStep (s : Collapse) (c : Char) : Collapse :=
  if s.inStr then
    let s := { s with collapsed := s.collapsed ++ [c] }
    if s.esc then { s with esc := false }
    else if c = '\\' then { s with esc := true }
    else if c = '"' then { s with inStr := false }
    else s
  else if c = '"' then { s with inStr := true, collapsed := s.collapsed ++ [c], run := 0 }
  else if c = ' ' ∨ c = '\t' then
    if s.collapsed = [] ∧ s.run = 0 then { s with collapsed := [' '], run := s.run + 1 }
    else { s with run := s.run + 1 }
  else { s with collapsed := s.collapsed ++ (if 0 < s.run then [' ', c] else [c]), run := 0 }

def collapseBlanks (line : Str) : Str :=
  (line.foldl collapseStep { collapsed := [], inStr := false, esc := false, run := 0 }).collapsed

/-- A line before its temporaries are renamed, or after. -/
inductive Line where
  | blank
  /-- A `use` line that is dropped. -/
  | dropped
  | code (text : Str)

def prepare (dropUses : Bool) (rawLine : Str) : Line :=
  let line := trimStart (stripComment rawLine)
  if line = [] then .blank
  else if dropUses && isUseLine line then .dropped
  else
    let line := ((stripPrefix "pub ".toList line).or (stripPrefix "pub(crate) ".toList line)).getD line
    .code (collapseBlanks line)

/-! ## The skeleton -/

structure Skeleton where
  out : Str
  prevBlank : Bool
  sigRun : List Str

def flushSigRun (collapseAfter : Nat) (s : Skeleton) : Str :=
  let n := s.sigRun.length
  if 0 < collapseAfter ∧ collapseAfter < n then
    s.out ++ (s.sigRun.take collapseAfter).flatMap (· ++ ['\n'])
      ++ ("// (+".toList ++ natStr (n - collapseAfter) ++ " more signatures)\n".toList)
  else s.out ++ s.sigRun.flatMap (· ++ ['\n'])

/-- Lays out a line whose temporaries are renamed. -/
def place (collapseAfter : Nat) (s : Skeleton) : Line → Skeleton
  | .blank =>
    let out := flushSigRun collapseAfter s
    { out := if s.prevBlank then out else out ++ ['\n'], prevBlank := true, sigRun := [] }
  | .dropped => { s with prevBlank := false }
  | .code line =>
    if 0 < collapseAfter ∧ isSignatureLine line then { s with prevBlank := false, sigRun := s.sigRun ++ [line] }
    else { out := flushSigRun collapseAfter s ++ line ++ ['\n'], prevBlank := false, sigRun := [] }

/-- One line of the span. The counter of temporaries runs on. -/
def skeletonStep (collapseAfter : Nat) (dropUses : Bool) (s : Skeleton × Nat) (rawLine : Str) : Skeleton × Nat :=
  match prepare dropUses rawLine with
  | .code line =>
    let (line, dollar) := renameTemporaries line s.2
    (place collapseAfter s.1 (.code line), dollar)
  | line => (place collapseAfter s.1 line, s.2)

/-- Drops line feeds from the end while there are two. -/
def popBlanks : Str → Str
  | '\n' :: '\n' :: rest => popBlanks ('\n' :: rest)
  | s => s

def finish (collapseAfter : Nat) (s : Skeleton) : Str := (popBlanks (flushSigRun collapseAfter s).reverse).reverse

variable {F : Type}

def collapseAfter (config : CompressorConfig F) : Nat :=
  if config.enableAstV2 then config.astSignatureCollapseAfter else 0

def skeletonizeWith (input : Str) (config : CompressorConfig F) : Str :=
  let start : Skeleton × Nat := ({ out := [], prevBlank := false, sigRun := [] }, 0)
  finish (collapseAfter config)
    ((lines input).foldl (skeletonStep (collapseAfter config) config.enableAstV2) start).1

end Ccos.CausalAst

/-!
## Renaming temporaries consistently

A line is cut into kept characters and temporaries. A consistent renaming replaces each temporary by the number
of its name. The code gives every occurrence the next number, and keeps bytes rather than characters.
-/

namespace Ccos.CausalAst

/-! ## Pieces of a line -/

inductive Piece where
  | kept (c : Char)
  | temporary (name : Str)

def Piece.text : Piece → Str
  | .kept c => [c]
  | .temporary name => name

/-- `skip` counts the characters of a name still to drop. -/
def piecesFrom : Nat → Option Char → Str → List Piece
  | _, _, [] => []
  | skip + 1, _, c :: cs => piecesFrom skip (some c) cs
  | 0, prev, c :: cs =>
    if startsTemporary prev c cs.head? then
      .temporary (c :: cs.takeWhile isIdent) :: piecesFrom (cs.takeWhile isIdent).length (some c) cs
    else .kept c :: piecesFrom 0 (some c) cs

def pieces (line : Str) : List Piece := piecesFrom 0 none line

def names (ps : List Piece) : List Str :=
  ps.filterMap fun
    | .kept _ => none
    | .temporary name => some name

/-- The temporaries of a line, one for each occurrence. -/
def temporaries (line : Str) : List Str := names (pieces line)

def render (number : Str → Nat) : Piece → Str
  | .kept c => [c]
  | .temporary name => '$' :: natStr (number name)

/-- The line with each temporary replaced by the number of its name. -/
def renameWith (number : Str → Nat) (line : Str) : Str := (pieces line).flatMap (render number)

/-- The lines of one call, renamed one after another. -/
def renameAll : Nat → List Str → List Str
  | _, [] => []
  | counter, line :: lines => (renameTemporaries line counter).1 :: renameAll (renameTemporaries line counter).2 lines

/-- The results are the lines under one renaming that tells names apart. -/
def Consistent (lines results : List Str) : Prop :=
  ∃ number : Str → Nat,
    (∀ a ∈ lines.flatMap temporaries, ∀ b ∈ lines.flatMap temporaries, number a = number b → a = b) ∧
      results = lines.map (renameWith number)

theorem flatMap_text_piecesFrom (skip : Nat) (prev : Option Char) (s : Str) :
    (piecesFrom skip prev s).flatMap Piece.text = s.drop skip := by
  induction s generalizing skip prev with
  | nil => cases skip <;> rfl
  | cons c cs ih =>
    cases skip with
    | succ skip => exact ih skip (some c)
    | zero =>
      rw [piecesFrom]
      split
      · rw [List.flatMap_cons, ih, Piece.text, List.cons_append, List.drop_zero]
        exact congrArg (c :: ·) (List.prefix_iff_eq_append.mp (List.takeWhile_prefix isIdent))
      · rw [List.flatMap_cons, ih]
        rfl

theorem flatMap_text_pieces (line : Str) : (pieces line).flatMap Piece.text = line := flatMap_text_piecesFrom 0 none line

theorem startsTemporary_eq {prev : Option Char} {c : Char} {next : Option Char}
    (h : startsTemporary prev c next = true) : c = '_' := by
  simp only [startsTemporary, Bool.and_eq_true, beq_iff_eq] at h
  exact h.1.1

theorem isIdent_of_temporary {skip : Nat} {prev : Option Char} {s name : Str}
    (h : .temporary name ∈ piecesFrom skip prev s) : ∀ c ∈ name, isIdent c = true := by
  induction s generalizing skip prev with
  | nil => cases skip <;> cases h
  | cons c cs ih =>
    cases skip with
    | succ skip => exact ih h
    | zero =>
      rw [piecesFrom] at h
      split at h
      · rename_i hstart
        rcases List.mem_cons.mp h with hname | h
        · obtain rfl := Piece.temporary.inj hname
          intro d hd
          rcases List.mem_cons.mp hd with rfl | hd
          · rw [startsTemporary_eq hstart]
            decide
          · exact List.mem_takeWhile_imp hd
        · exact ih h
      · rcases List.mem_cons.mp h with hname | h
        · cases hname
        · exact ih h

/-! ## The code as a numbering of pieces -/

/-- Each temporary gets the next number. -/
def number : Nat → List Piece → Str × Nat
  | counter, [] => ([], counter)
  | counter, .kept c :: ps => (c :: (number counter ps).1, (number counter ps).2)
  | counter, .temporary _ :: ps =>
    ('$' :: natStr counter ++ (number ((counter + 1) % 2 ^ 32) ps).1, (number ((counter + 1) % 2 ^ 32) ps).2)

theorem renameFrom_eq (skip : Nat) (prev : Option Char) (counter : Nat) (bytes : List UInt8) :
    renameFrom skip prev counter bytes = number counter (piecesFrom skip prev (bytes.map charOf)) := by
  induction bytes generalizing skip prev counter with
  | nil => cases skip <;> rfl
  | cons b bytes ih =>
    cases skip with
    | succ skip => exact ih skip (some (charOf b)) counter
    | zero =>
      have hlen : ((bytes.map charOf).takeWhile isIdent).length =
          (bytes.takeWhile fun b => isIdent (charOf b)).length := by
        rw [List.takeWhile_map, List.length_map]
        rfl
      rw [renameFrom, List.map_cons, piecesFrom, List.head?_map]
      split
      · rw [ih, number, hlen]
      · rw [ih, number]

theorem renameTemporaries_eq (line : Str) (counter : Nat) :
    renameTemporaries line counter = number counter (pieces ((utf8 line).map charOf)) :=
  renameFrom_eq 0 none counter (utf8 line)

theorem toNat_charOf (b : UInt8) : (charOf b).toNat = b.toNat :=
  toNat_ofNat (Nat.lt_trans b.toNat_lt (by decide))

theorem map_charOf_of_ascii {s : Str} (h : IsAscii s) : (utf8 s).map charOf = s := by
  rw [utf8_of_ascii h, List.map_map]
  refine (List.map_congr_left fun c hc => ?_).trans (List.map_id s)
  apply Char.toNat_inj.mp
  rw [Function.comp_apply, toNat_charOf, UInt8.toNat_ofNat', Nat.mod_eq_of_lt (Nat.lt_trans (h c hc) (by decide))]
  rfl

/-! ## Characters that are kept -/

def nonAscii (s : Str) : Nat := s.countP fun c => 128 ≤ c.toNat

@[simp] theorem nonAscii_append (a b : Str) : nonAscii (a ++ b) = nonAscii a + nonAscii b := List.countP_append

theorem nonAscii_eq_zero_iff (s : Str) : nonAscii s = 0 ↔ IsAscii s := by
  rw [nonAscii, List.countP_eq_zero]
  simp only [decide_eq_true_eq, Nat.not_le]
  rfl

theorem isAscii_of_isIdent {s : Str} (h : ∀ c ∈ s, isIdent c = true) : IsAscii s := by
  have hascii : ∀ c : Char, c.isAlphanum = true → c.toNat < 128 := by
    intro c hc
    have hval : c.val.toNat = c.toNat := rfl
    rw [Char.isAlphanum, Bool.or_eq_true, isAlpha_iff] at hc
    simp only [Char.isDigit, Bool.and_eq_true, decide_eq_true_eq, ge_iff_le, UInt32.le_iff_toNat_le, hval] at hc
    rcases hc with (⟨-, hhigh⟩ | ⟨-, hhigh⟩) | ⟨-, hhigh⟩
    · exact Nat.lt_of_le_of_lt hhigh (by decide)
    · exact Nat.lt_of_le_of_lt hhigh (by decide)
    · exact Nat.lt_of_le_of_lt hhigh (by decide)
  intro c hc
  rcases Bool.or_eq_true_iff.mp (h c hc) with halnum | hunder
  · exact hascii c halnum
  · rw [beq_iff_eq.mp hunder]
    decide

theorem isDigit_of_mem_natStr {n : Nat} {c : Char} (h : c ∈ natStr n) : c.isDigit = true := by
  rw [natStr, Nat.toList_repr] at h
  exact Nat.isDigit_of_mem_toDigits (by decide) (by decide) h

theorem isAscii_number (n : Nat) : IsAscii ('$' :: natStr n) := by
  rw [isAscii_cons]
  refine ⟨by decide, isAscii_of_isIdent fun c hc => ?_⟩
  simp [isIdent, Char.isAlphanum, isDigit_of_mem_natStr hc]

/-- However the temporaries are written, what is not ASCII is what was kept. -/
theorem nonAscii_number (counter : Nat) {ps : List Piece} (h : ∀ name, .temporary name ∈ ps → IsAscii name) :
    nonAscii (number counter ps).1 = nonAscii (ps.flatMap Piece.text) := by
  induction ps generalizing counter with
  | nil => rfl
  | cons p ps ih =>
    have ih := fun counter => ih counter fun name hname => h name (List.mem_cons_of_mem _ hname)
    cases p with
    | kept c =>
      rw [number, List.flatMap_cons, nonAscii_append, ← ih counter]
      exact nonAscii_append [c] _
    | temporary name =>
      have hname := (nonAscii_eq_zero_iff name).mpr (h name List.mem_cons_self)
      have hnumber := (nonAscii_eq_zero_iff _).mpr (isAscii_number counter)
      rw [number, List.flatMap_cons, nonAscii_append, nonAscii_append, Piece.text, ih, hname, hnumber]

theorem nonAscii_render (f : Str → Nat) {ps : List Piece} (h : ∀ name, .temporary name ∈ ps → IsAscii name) :
    nonAscii (ps.flatMap (render f)) = nonAscii (ps.flatMap Piece.text) := by
  induction ps with
  | nil => rfl
  | cons p ps ih =>
    have ih := ih fun name hname => h name (List.mem_cons_of_mem _ hname)
    rw [List.flatMap_cons, List.flatMap_cons, nonAscii_append, nonAscii_append, ih]
    cases p with
    | kept c => rfl
    | temporary name =>
      have hname := (nonAscii_eq_zero_iff name).mpr (h name List.mem_cons_self)
      have hnumber := (nonAscii_eq_zero_iff _).mpr (isAscii_number (f name))
      rw [render, Piece.text, hname, hnumber]

theorem isAscii_of_temporary {line name : Str} (h : .temporary name ∈ pieces line) : IsAscii name :=
  isAscii_of_isIdent (isIdent_of_temporary h)

/-- Each character that is not ASCII is several bytes, none of them ASCII. -/
theorem two_mul_nonAscii_le (s : Str) : 2 * nonAscii s ≤ nonAscii ((utf8 s).map charOf) := by
  induction s with
  | nil => exact Nat.le_refl _
  | cons c s ih =>
    rw [utf8_cons, List.map_append, nonAscii_append]
    have hcons : nonAscii (c :: s) = nonAscii [c] + nonAscii s := nonAscii_append [c] s
    by_cases hc : c.toNat < 128
    · have hzero : nonAscii [c] = 0 := by simp [nonAscii, hc]
      omega
    · have hone : nonAscii [c] = 1 := by simp [nonAscii, Nat.le_of_not_lt hc]
      have hall : nonAscii ((String.utf8EncodeChar c).map charOf) = c.utf8Size := by
        rw [nonAscii, List.countP_eq_length.mpr, List.length_map, String.length_utf8EncodeChar]
        intro d hd
        obtain ⟨b, hb, rfl⟩ := List.mem_map.mp hd
        rw [decide_eq_true_eq, toNat_charOf]
        exact UInt8.le_iff_toNat_le.mp (le_of_mem_utf8EncodeChar (Nat.le_of_not_lt hc) hb)
      have hsize : c.utf8Size ≠ 1 := fun h => hc ((utf8Size_eq_one_iff c).mp h)
      have := c.utf8Size_pos
      omega

/-- A line that is kept as it is outside its temporaries is ASCII. -/
theorem isAscii_of_renamed {line : Str} {counter : Nat} {f : Str → Nat}
    (h : (renameTemporaries line counter).1 = renameWith f line) : IsAscii line := by
  have hcount := congrArg nonAscii h
  rw [renameTemporaries_eq, nonAscii_number counter fun _ => isAscii_of_temporary, flatMap_text_pieces, renameWith,
    nonAscii_render f fun _ => isAscii_of_temporary, flatMap_text_pieces] at hcount
  have hle := two_mul_nonAscii_le line
  rw [← nonAscii_eq_zero_iff]
  omega

/-! ## Numbers in order -/

/-- A renaming numbers the occurrences from `counter` on, in 32 bits. -/
def Counts (f : Str → Nat) (counter : Nat) (occurrences : List Str) : Prop :=
  ∀ (k : Nat) (name : Str), occurrences[k]? = some name → f name = (counter + k) % 2 ^ 32

theorem counts_nil (f : Str → Nat) (counter : Nat) : Counts f counter [] := by
  intro k name h
  cases h

theorem counts_cons {f : Str → Nat} {counter : Nat} {name : Str} {rest : List Str} :
    Counts f counter (name :: rest) ↔ f name = counter % 2 ^ 32 ∧ Counts f (counter + 1) rest := by
  constructor
  · intro h
    refine ⟨h 0 name rfl, fun k a ha => ?_⟩
    rw [h (k + 1) a ha, Nat.add_assoc, Nat.add_comm 1 k]
  · rintro ⟨hfirst, hrest⟩ k a ha
    cases k with
    | zero =>
      obtain rfl := Option.some.inj ha
      exact hfirst
    | succ k => rw [hrest k a ha, Nat.add_assoc, Nat.add_comm 1 k]

theorem counts_append {f : Str → Nat} {counter : Nat} {a b : List Str} :
    Counts f counter (a ++ b) ↔ Counts f counter a ∧ Counts f (counter + a.length) b := by
  induction a generalizing counter with
  | nil => simp [counts_nil]
  | cons name a ih =>
    rw [List.cons_append, counts_cons, counts_cons, ih, and_assoc, List.length_cons, Nat.add_assoc, Nat.add_comm 1]

theorem counts_mod {f : Str → Nat} {counter : Nat} {l : List Str} :
    Counts f (counter % 2 ^ 32) l ↔ Counts f counter l := by
  unfold Counts
  simp only [Nat.mod_add_mod]

/-- A name is followed by a character that cannot belong to it. -/
def Separated : List Piece → Prop
  | [] => True
  | .kept _ :: ps => Separated ps
  | .temporary _ :: ps => (∀ p ∈ ps.head?, ∃ c, p = .kept c ∧ isIdent c = false) ∧ Separated ps

theorem head_piecesFrom_takeWhile (prev : Option Char) (s : Str) :
    ∀ p ∈ (piecesFrom (s.takeWhile isIdent).length prev s).head?, ∃ c, p = .kept c ∧ isIdent c = false := by
  induction s generalizing prev with
  | nil =>
    intro p hp
    cases hp
  | cons c cs ih =>
    intro p hp
    rw [List.takeWhile_cons] at hp
    cases hc : isIdent c with
    | true =>
      rw [hc] at hp
      exact ih (some c) p hp
    | false =>
      rw [hc] at hp
      have hstart : ¬ startsTemporary prev c cs.head? = true := by
        intro h
        rw [startsTemporary_eq h] at hc
        revert hc
        decide
      change p ∈ (piecesFrom 0 prev (c :: cs)).head? at hp
      rw [piecesFrom, if_neg hstart] at hp
      exact ⟨c, (Option.some.inj hp).symm, hc⟩

theorem separated_piecesFrom (skip : Nat) (prev : Option Char) (s : Str) : Separated (piecesFrom skip prev s) := by
  induction s generalizing skip prev with
  | nil => cases skip <;> trivial
  | cons c cs ih =>
    cases skip with
    | succ skip => exact ih skip (some c)
    | zero =>
      rw [piecesFrom]
      split
      · exact ⟨head_piecesFrom_takeWhile (some c) cs, ih _ _⟩
      · exact ih 0 (some c)

/-- A decimal before something that is no digit can be read off. -/
theorem natStr_append_inj {m n : Nat} {a b : Str} (ha : ∀ c ∈ a.head?, c.isDigit = false)
    (hb : ∀ c ∈ b.head?, c.isDigit = false) (h : natStr m ++ a = natStr n ++ b) : m = n ∧ a = b := by
  have hread : ∀ (k : Nat) (r : Str), (∀ c ∈ r.head?, c.isDigit = false) →
      (natStr k ++ r).takeWhile Char.isDigit = natStr k := by
    intro k r hr
    rw [List.takeWhile_append_of_pos fun c hc => isDigit_of_mem_natStr hc]
    cases r with
    | nil => exact List.append_nil _
    | cons c r => rw [List.takeWhile_cons, hr c rfl, if_neg Bool.false_ne_true, List.append_nil]
  have hsame : natStr m = natStr n := by rw [← hread m a ha, h, hread n b hb]
  refine ⟨natStr_injective hsame, ?_⟩
  rw [hsame] at h
  exact List.append_cancel_left h

theorem isDigit_of_not_isIdent {c : Char} (h : isIdent c = false) : c.isDigit = false := by
  simp only [isIdent, Char.isAlphanum, Bool.or_eq_false_iff] at h
  exact h.1.2

/-- What is printed behind a temporary name starts with no digit, whatever the later names become. -/
theorem isDigit_of_head (text : List Piece → Str) (hnil : text [] = [])
    (hkept : ∀ c ps, (text (.kept c :: ps)).head? = some c) {ps : List Piece}
    (hhead : ∀ p ∈ ps.head?, ∃ c, p = .kept c ∧ isIdent c = false) :
    ∀ c ∈ (text ps).head?, c.isDigit = false := by
  intro c hc
  cases ps with
  | nil =>
    rw [hnil] at hc
    cases hc
  | cons p ps =>
    obtain ⟨d, rfl, hd⟩ := hhead p rfl
    rw [hkept] at hc
    obtain rfl := Option.some.inj hc
    exact isDigit_of_not_isIdent hd

/-- Pieces numbered in order are the pieces under a renaming that numbers them so. -/
theorem number_eq_iff {f : Str → Nat} {counter : Nat} (hcounter : counter < 2 ^ 32) {ps : List Piece}
    (h : Separated ps) : (number counter ps).1 = ps.flatMap (render f) ↔ Counts f counter (names ps) := by
  induction ps generalizing counter with
  | nil => exact iff_of_true rfl (counts_nil f counter)
  | cons p ps ih =>
    cases p with
    | kept c =>
      rw [number, List.flatMap_cons, render, List.singleton_append, List.cons.injEq, ih hcounter h]
      exact and_iff_right rfl
    | temporary name =>
      obtain ⟨hhead, h⟩ := h
      have hnext : (counter + 1) % 2 ^ 32 < 2 ^ 32 := Nat.mod_lt _ (by decide)
      have ih := ih hnext h
      have hnames : names (.temporary name :: ps) = name :: names ps := rfl
      -- No digit stands behind the name, so that its number can be told from what follows.
      have hleft : ∀ c ∈ (number ((counter + 1) % 2 ^ 32) ps).1.head?, c.isDigit = false :=
        isDigit_of_head (fun ps => (number ((counter + 1) % 2 ^ 32) ps).1) rfl (fun _ _ => rfl) hhead
      have hright : ∀ c ∈ (ps.flatMap (render f)).head?, c.isDigit = false :=
        isDigit_of_head (List.flatMap (render f)) rfl (fun _ _ => rfl) hhead
      rw [number, List.flatMap_cons, render, hnames, counts_cons, Nat.mod_eq_of_lt hcounter, ← counts_mod, ← ih]
      constructor
      · intro heq
        obtain ⟨hnum, hrest⟩ := natStr_append_inj hleft hright (List.cons.inj heq).2
        exact ⟨hnum.symm, hrest⟩
      · rintro ⟨hnum, hrest⟩
        rw [hnum, hrest]

theorem number_counter {counter : Nat} (hcounter : counter < 2 ^ 32) (ps : List Piece) :
    (number counter ps).2 = (counter + (names ps).length) % 2 ^ 32 := by
  induction ps generalizing counter with
  | nil => exact (Nat.mod_eq_of_lt hcounter).symm
  | cons p ps ih =>
    cases p with
    | kept c => exact ih hcounter
    | temporary name =>
      have hnames : names (.temporary name :: ps) = name :: names ps := rfl
      rw [number, ih (Nat.mod_lt _ (by decide)), hnames, List.length_cons, Nat.mod_add_mod, Nat.add_assoc, Nat.add_comm 1]

/-! ## One call -/

theorem renameTemporaries_of_ascii {line : Str} (h : IsAscii line) (counter : Nat) :
    renameTemporaries line counter = number counter (pieces line) := by
  rw [renameTemporaries_eq, map_charOf_of_ascii h]

theorem renameAll_eq_iff {f : Str → Nat} {counter : Nat} (hcounter : counter < 2 ^ 32) {lines : List Str}
    (h : ∀ line ∈ lines, IsAscii line) :
    renameAll counter lines = lines.map (renameWith f) ↔ Counts f counter (lines.flatMap temporaries) := by
  induction lines generalizing counter with
  | nil => exact iff_of_true rfl (counts_nil f counter)
  | cons line lines ih =>
    have hnext : (counter + (temporaries line).length) % 2 ^ 32 < 2 ^ 32 := Nat.mod_lt _ (by decide)
    rw [renameAll, renameTemporaries_of_ascii (h line List.mem_cons_self), number_counter hcounter, List.map_cons,
      List.cons.injEq, List.flatMap_cons, counts_append]
    refine and_congr (number_eq_iff hcounter (separated_piecesFrom 0 none line)) ?_
    exact (ih hnext fun l hl => h l (List.mem_cons_of_mem _ hl)).trans counts_mod

theorem isAscii_of_renameAll {f : Str → Nat} {counter : Nat} {lines : List Str}
    (h : renameAll counter lines = lines.map (renameWith f)) : ∀ line ∈ lines, IsAscii line := by
  induction lines generalizing counter with
  | nil =>
    intro line hline
    cases hline
  | cons first lines ih =>
    obtain ⟨hfirst, hrest⟩ := List.cons.inj h
    intro line hline
    rcases List.mem_cons.mp hline with rfl | hline
    · exact isAscii_of_renamed hfirst
    · exact ih hrest line hline

/-- Two occurrences have the same name only when a 32-bit count of them comes out the same. -/
def NamesOnce (occurrences : List Str) : Prop :=
  ∀ (i j : Nat) (a b : Str), occurrences[i]? = some a → occurrences[j]? = some b →
    (a = b ↔ i % 2 ^ 32 = j % 2 ^ 32)

theorem conditions_of_consistent {lines : List Str} (h : Consistent lines (renameAll 0 lines)) :
    (∀ line ∈ lines, IsAscii line) ∧ NamesOnce (lines.flatMap temporaries) := by
  obtain ⟨f, hinj, hf⟩ := h
  have hascii := isAscii_of_renameAll hf
  have hcounts := (renameAll_eq_iff (by decide) hascii).mp hf
  refine ⟨hascii, fun i j a b ha hb => ?_⟩
  have hfa := hcounts i a ha
  have hfb := hcounts j b hb
  rw [Nat.zero_add] at hfa hfb
  rw [← hfa, ← hfb]
  exact ⟨fun h => h ▸ rfl, hinj a (List.mem_of_getElem? ha) b (List.mem_of_getElem? hb)⟩

theorem consistent_of_conditions {lines : List Str} (hascii : ∀ line ∈ lines, IsAscii line)
    (honce : NamesOnce (lines.flatMap temporaries)) : Consistent lines (renameAll 0 lines) := by
  let f : Str → Nat := fun name => (lines.flatMap temporaries).idxOf name % 2 ^ 32
  have hfirst : ∀ a ∈ lines.flatMap temporaries,
      (lines.flatMap temporaries)[(lines.flatMap temporaries).idxOf a]? = some a := fun a ha =>
    List.getElem?_idxOf ha
  refine ⟨f, fun a ha b hb hab => (honce _ _ a b (hfirst a ha) (hfirst b hb)).mpr hab, ?_⟩
  refine (renameAll_eq_iff (by decide) hascii).mpr fun k a ha => ?_
  rw [Nat.zero_add]
  exact (honce _ k a a (hfirst a (List.mem_of_getElem? ha)) ha).mp rfl

/-! ## The lines of a span -/

variable {F : Type}

def preparedLines (input : Str) (config : CompressorConfig F) : List Line :=
  (lines input).map (prepare config.enableAstV2)

def codeLines (ls : List Line) : List Str :=
  ls.filterMap fun
    | .code text => some text
    | _ => none

def fill : List Line → List Str → List Line
  | .code _ :: ls, r :: rs => .code r :: fill ls rs
  | .blank :: ls, rs => .blank :: fill ls rs
  | .dropped :: ls, rs => .dropped :: fill ls rs
  | _, _ => []

def layOut (config : CompressorConfig F) (ls : List Line) : Str :=
  finish (collapseAfter config) (ls.foldl (place (collapseAfter config)) { out := [], prevBlank := false, sigRun := [] })

theorem foldl_skeletonStep (collapseAfter : Nat) (dropUses : Bool) (rawLines : List Str) (s : Skeleton) (dollar : Nat) :
    (rawLines.foldl (skeletonStep collapseAfter dropUses) (s, dollar)).1 =
      (fill (rawLines.map (prepare dropUses))
        (renameAll dollar (codeLines (rawLines.map (prepare dropUses))))).foldl (place collapseAfter) s := by
  induction rawLines generalizing s dollar with
  | nil => rfl
  | cons rawLine rawLines ih =>
    rw [List.foldl_cons, List.map_cons, skeletonStep]
    cases prepare dropUses rawLine with
    | blank => exact ih _ _
    | dropped => exact ih _ _
    | code text => exact ih _ _

theorem skeletonizeWith_eq (input : Str) (config : CompressorConfig F) :
    skeletonizeWith input config = layOut config
      (fill (preparedLines input config) (renameAll 0 (codeLines (preparedLines input config)))) := by
  rw [skeletonizeWith, foldl_skeletonStep]
  rfl

/-- The lines of a call are renamed consistently exactly when they are ASCII and no temporary occurs twice, and a
skeleton is laid out from its lines so renamed. -/
theorem renames_consistently_iff (lines : List Str) :
    (Consistent lines (renameAll 0 lines) ↔
      (∀ line ∈ lines, IsAscii line) ∧ NamesOnce (lines.flatMap temporaries)) ∧
    ∀ (F : Type) (input : Str) (config : CompressorConfig F), skeletonizeWith input config = layOut config
      (fill (preparedLines input config) (renameAll 0 (codeLines (preparedLines input config)))) :=
  ⟨⟨conditions_of_consistent, fun h => consistent_of_conditions h.1 h.2⟩, fun _ => skeletonizeWith_eq⟩

/-- The second use of a name gets a number of its own, and a letter with an accent comes out as two characters. -/
theorem renames_twice_and_splits_letters :
    renameAll 0 ["let _foo = 1; let _bar = _foo + 1;".toList] = ["let $0 = 1; let $1 = $2 + 1;".toList] ∧
      ¬ Consistent ["let _foo = 1; let _bar = _foo + 1;".toList]
        (renameAll 0 ["let _foo = 1; let _bar = _foo + 1;".toList]) ∧
      renameAll 0 ["let caf\u00e9 = 1;".toList] = ["let caf\u00c3\u00a9 = 1;".toList] ∧
      ¬ Consistent ["let caf\u00e9 = 1;".toList] (renameAll 0 ["let caf\u00e9 = 1;".toList]) := by
  refine ⟨by decide, fun h => ?_, by decide, fun h => ?_⟩
  · have honce := (conditions_of_consistent h).2
    have hsame := (honce 0 2 "_foo".toList "_foo".toList (by decide) (by decide)).mp rfl
    revert hsame
    decide
  · have hascii := (conditions_of_consistent h).1
    revert hascii
    decide

end Ccos.CausalAst
