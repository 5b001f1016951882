import Mathlib.Data.Rat.Defs
import Mathlib.Algebra.Order.Field.Rat
import Mathlib.Tactic.NormNum
import Mathlib.Tactic.Ring

/-!
# JSON texts

The grammar of RFC 8259, rule by rule, and what each text stands for. A number stands for an exact decimal, and an
object for its members as they come, repeated keys included.
-/

namespace JsonText

abbrev Text := List Char

/-! ## Blanks -/

def isBlank (c : Char) : Bool := c == ' ' || c == '\t' || c == '\n' || c == '\r'

def Blank (ws : Text) : Prop := ∀ c ∈ ws, isBlank c = true

instance (ws : Text) : Decidable (Blank ws) := List.decidableBAll (fun c : Char => isBlank c = true) ws

theorem blank_nil : Blank [] := List.forall_mem_nil _

/-! ## Numbers -/

def Digits (l : Text) : Prop := ∀ c ∈ l, c.isDigit = true

instance (l : Text) : Decidable (Digits l) := List.decidableBAll (fun c : Char => c.isDigit = true) l

structure Exponent where
  mark : Char
  sign : Text
  digits : Text
  mark_eq : mark = 'e' ∨ mark = 'E'
  sign_eq : sign = [] ∨ sign = ['+'] ∨ sign = ['-']
  digits_ne : digits ≠ []
  digits_digits : Digits digits

def Exponent.text (e : Exponent) : Text := e.mark :: (e.sign ++ e.digits)

def Exponent.value (e : Exponent) : Int :=
  if e.sign = ['-'] then -(Nat.ofDigitChars 10 e.digits 0 : Int) else Nat.ofDigitChars 10 e.digits 0

/-- No fraction is an empty one. -/
structure Number where
  negative : Bool
  int : Text
  frac : Text
  exponent : Option Exponent
  int_ne : int ≠ []
  int_digits : Digits int
  leading_zero : ∀ rest, int = '0' :: rest → rest = []
  frac_digits : Digits frac

namespace Number

def sign (n : Number) : Text := if n.negative then ['-'] else []

def fracText (n : Number) : Text := if n.frac = [] then [] else '.' :: n.frac

def exponentText (n : Number) : Text := n.exponent.elim [] Exponent.text

def text (n : Number) : Text := n.sign ++ (n.int ++ (n.fracText ++ n.exponentText))

/-- The value without its sign. -/
def magnitude (n : Number) : ℚ :=
  (Nat.ofDigitChars 10 (n.int ++ n.frac) 0 : ℚ) / 10 ^ n.frac.length * 10 ^ n.exponent.elim 0 Exponent.value

end Number

/-! ## Strings -/

inductive HexDigit : Char → Nat → Prop
  | digit {c : Char} (h : '0' ≤ c ∧ c ≤ '9') : HexDigit c (c.toNat - 48)
  | lower {c : Char} (h : 'a' ≤ c ∧ c ≤ 'f') : HexDigit c (c.toNat - 87)
  | upper {c : Char} (h : 'A' ≤ c ∧ c ≤ 'F') : HexDigit c (c.toNat - 55)

inductive Hex4 : Text → Nat → Prop
  | mk {a b c d : Char} {w x y z : Nat} (ha : HexDigit a w) (hb : HexDigit b x) (hc : HexDigit c y)
      (hd : HexDigit d z) : Hex4 [a, b, c, d] (((w * 16 + x) * 16 + y) * 16 + z)

def shortEscapes : List (Char × Char) :=
  [('\x22', '\x22'), ('\\', '\\'), ('/', '/'), ('b', Char.ofNat 8), ('f', Char.ofNat 12), ('n', '\n'), ('r', '\r'),
    ('t', '\t')]

/-- One character of a string. An escape of UTF-16 is a character of the basic plane or a pair of surrogates. -/
inductive CharText : Text → Char → Prop
  | plain {c : Char} (hcontrol : 0x20 ≤ c.toNat) (hquote : c ≠ '\x22') (hescape : c ≠ '\\') : CharText [c] c
  | short {e c : Char} (h : (e, c) ∈ shortEscapes) : CharText ['\\', e] c
  | unicode {t : Text} {n : Nat} (h : Hex4 t n) (hn : ¬ (0xd800 ≤ n ∧ n ≤ 0xdfff)) :
      CharText ('\\' :: 'u' :: t) (Char.ofNat n)
  | pair {t t' : Text} {high low : Nat} (h : Hex4 t high) (h' : Hex4 t' low)
      (hhigh : 0xd800 ≤ high ∧ high ≤ 0xdbff) (hlow : 0xdc00 ≤ low ∧ low ≤ 0xdfff) :
      CharText ('\\' :: 'u' :: (t ++ '\\' :: 'u' :: t'))
        (Char.ofNat (0x10000 + (high - 0xd800) * 1024 + (low - 0xdc00)))

inductive Chars : Text → List Char → Prop
  | nil : Chars [] []
  | cons {t ts : Text} {c : Char} {s : List Char} (h : CharText t c) (hs : Chars ts s) : Chars (t ++ ts) (c :: s)

def StringText (t : Text) (s : List Char) : Prop := ∃ body, Chars body s ∧ t = '\x22' :: (body ++ ['\x22'])

/-! ## Values -/

inductive Value
  | null
  | bool (b : Bool)
  | num (n : Number)
  | str (s : List Char)
  | arr (items : List Value)
  | obj (members : List (List Char × Value))

/-- A value with the blanks around it. -/
structure Item where
  before : Text
  text : Text
  after : Text
  value : Value
  blank_before : Blank before
  blank_after : Blank after

def Item.full (i : Item) : Text := i.before ++ (i.text ++ i.after)

structure Member where
  before : Text
  keyText : Text
  after : Text
  key : List Char
  item : Item
  blank_before : Blank before
  blank_after : Blank after
  key_text : StringText keyText key

def Member.full (m : Member) : Text := m.before ++ (m.keyText ++ (m.after ++ ':' :: m.item.full))

def commas : List Text → Text
  | [] => []
  | [t] => t
  | t :: u :: rest => t ++ ',' :: commas (u :: rest)

/-- A text stands for a value in which arrays and objects nest at most `levels` deep. -/
inductive Denotes : Nat → Text → Value → Prop
  | null {levels : Nat} : Denotes levels "null".toList .null
  | bool {levels : Nat} (b : Bool) : Denotes levels (if b then "true".toList else "false".toList) (.bool b)
  | num {levels : Nat} (n : Number) : Denotes levels n.text (.num n)
  | str {levels : Nat} {t : Text} {s : List Char} (h : StringText t s) : Denotes levels t (.str s)
  | emptyArr {levels : Nat} {ws : Text} (h : Blank ws) : Denotes (levels + 1) ('[' :: (ws ++ [']'])) (.arr [])
  | arr {levels : Nat} {item : Item} {items : List Item} (h : ∀ i ∈ item :: items, Denotes levels i.text i.value) :
      Denotes (levels + 1) ('[' :: (commas ((item :: items).map Item.full) ++ [']']))
        (.arr ((item :: items).map Item.value))
  | emptyObj {levels : Nat} {ws : Text} (h : Blank ws) : Denotes (levels + 1) ('\x7b' :: (ws ++ ['\x7d'])) (.obj [])
  | obj {levels : Nat} {member : Member} {members : List Member}
      (h : ∀ m ∈ member :: members, Denotes levels m.item.text m.item.value) :
      Denotes (levels + 1) ('\x7b' :: (commas ((member :: members).map Member.full) ++ ['\x7d']))
        (.obj ((member :: members).map fun m => (m.key, m.item.value)))

/-- A whole text: a value between blanks. -/
def Document (levels : Nat) (t : Text) (v : Value) : Prop :=
  ∃ i : Item, Denotes levels i.text i.value ∧ i.full = t ∧ i.value = v

/-! ## Heads -/

theorem Number.text_head (n : Number) : ∃ c rest, n.text = c :: rest ∧ (c = '-' ∨ c.isDigit = true) := by
  obtain ⟨c, rest, hint⟩ := List.exists_cons_of_ne_nil n.int_ne
  cases hneg : n.negative with
  | true => exact ⟨'-', _, by rw [text, sign, if_pos hneg]; rfl, .inl rfl⟩
  | false =>
    refine ⟨c, rest ++ (n.fracText ++ n.exponentText), ?_, .inr (n.int_digits c (hint ▸ List.mem_cons_self))⟩
    rw [text, sign, if_neg (by rw [hneg]; exact Bool.false_ne_true), List.nil_append, hint, List.cons_append]

/-- What a number is written with. -/
theorem Number.mem_text {n : Number} {c : Char} (h : c ∈ n.text) :
    c.isDigit = true ∨ c = '.' ∨ c = 'e' ∨ c = 'E' ∨ c = '+' ∨ c = '-' := by
  rw [text, List.mem_append, List.mem_append, List.mem_append] at h
  rcases h with h | h | h | h
  · rw [sign] at h
    split at h
    · simp [List.mem_singleton.mp h]
    · exact absurd h List.not_mem_nil
  · exact .inl (n.int_digits c h)
  · rw [fracText] at h
    split at h
    · exact absurd h List.not_mem_nil
    · rcases List.mem_cons.mp h with rfl | h
      · simp
      · exact .inl (n.frac_digits c h)
  · rw [exponentText] at h
    cases he : n.exponent with
    | none =>
      rw [he] at h
      exact absurd h List.not_mem_nil
    | some e =>
      rw [he, Option.elim_some, Exponent.text, List.mem_cons, List.mem_append] at h
      rcases h with rfl | h | h
      · rcases e.mark_eq with hmark | hmark <;> simp [hmark]
      · rcases e.sign_eq with hsign | hsign | hsign <;> simp_all
      · exact .inl (e.digits_digits c h)

/-! ## Lists of texts -/

/-- The item without the blanks before it. -/
def Item.strip (i : Item) : Item := { i with before := [], blank_before := nofun }

def Member.strip (m : Member) : Member := { m with before := [], blank_before := nofun }

theorem commas_append (t u : Text) (ts : List Text) : commas ((t ++ u) :: ts) = t ++ commas (u :: ts) := by
  cases ts with
  | nil => rfl
  | cons v ts => rw [commas, commas, List.append_assoc]

theorem length_commas (t : Text) (ts : List Text) : ts.length ≤ (commas (t :: ts)).length := by
  induction ts generalizing t with
  | nil => exact Nat.zero_le _
  | cons u ts ih =>
    have := ih u
    rw [commas, List.length_append, List.length_cons, List.length_cons]
    omega

/-! ## Integers -/

theorem toDigits_leading_zero {n : Nat} {rest : Text} (h : Nat.toDigits 10 n = '0' :: rest) : rest = [] := by
  induction n using Nat.strong_induction_on generalizing rest with
  | _ n ih =>
    by_cases hn : n < 10
    · rw [Nat.toDigits_of_lt_base hn] at h
      exact (List.cons.inj h).2.symm
    · -- The digits of `n / 10` come first, and these do not start with a zero: it is no zero itself.
      have hle : 10 ≤ n := by omega
      rw [Nat.toDigits_of_base_le (by decide) hle] at h
      obtain ⟨c, front, hfront⟩ := List.exists_cons_of_ne_nil (Nat.toDigits_ne_nil (n := n / 10) (b := 10))
      rw [hfront, List.cons_append] at h
      obtain ⟨rfl, -⟩ := List.cons.inj h
      have hnil := ih (n / 10) (by omega) hfront
      have hzero : Nat.ofDigitChars 10 (Nat.toDigits 10 (n / 10)) 0 = 0 := by rw [hfront, hnil]; rfl
      rw [Nat.ofDigitChars_ten_toDigits] at hzero
      omega

namespace Number

def ofInt (i : Int) : Number where
  negative := decide (i < 0)
  int := Nat.toDigits 10 i.natAbs
  frac := []
  exponent := none
  int_ne := Nat.toDigits_ne_nil
  int_digits _ h := Nat.isDigit_of_mem_toDigits (by decide) (by decide) h
  leading_zero _ h := toDigits_leading_zero h
  frac_digits _ h := absurd h List.not_mem_nil

theorem ofInt_text (i : Int) : (ofInt i).text = (toString i).toList := by
  have hdigits : (ofInt i).text = (ofInt i).sign ++ Nat.toDigits 10 i.natAbs := by
    simp [text, fracText, exponentText, ofInt]
  rw [hdigits, Int.toString_eq_repr, Int.repr_eq_if, sign]
  split
  · next hneg =>
    have hneg : i < 0 := by simpa [ofInt] using hneg
    rw [if_neg (Int.not_le.mpr hneg), String.toList_append, Nat.toList_repr, show i.natAbs = (-i).toNat by omega]
    rfl
  · next hneg =>
    have hneg : ¬ i < 0 := by simpa [ofInt] using hneg
    rw [if_pos (Int.not_lt.mp hneg), Nat.toList_repr, show i.natAbs = i.toNat by omega, List.nil_append]

theorem ofInt_magnitude (i : Int) : (ofInt i).magnitude = i.natAbs := by
  simp [magnitude, ofInt, Nat.ofDigitChars_ten_toDigits]

end Number

end JsonText
