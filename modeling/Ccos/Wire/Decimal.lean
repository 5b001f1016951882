import Mathlib.Data.List.TakeWhile
import Ccos.Lib.JsonText
import Ccos.Wire.Json

/-!
# Decimals

What is documented of `f64` and its texts, and exact decimals, for concrete runs.
-/

open JsonText

namespace Ccos

/-- The whole numbers below `1e15` are exact, and a decimal is read as the number that the same literal of the source
is. -/
class DecimalFloat64 (F : Type) [WireFloat64 F] : Prop where
  fract_whole : ∀ i : Int, i.natAbs < 10 ^ 15 →
    Scalar.eq (WireFloat64.fract (Scalar.lit i : F)) (Scalar.lit 0) = true
  abs_whole : ∀ i : Int, i.natAbs < 10 ^ 15 →
    Scalar.lt (Scalar.abs (Scalar.lit i : F)) (Scalar.lit 1000000000000000) = true
  toI64_whole : ∀ i : Int, i.natAbs < 10 ^ 15 → WireFloat64.toI64 (Scalar.lit i : F) = i
  neg_whole : ∀ n : Nat, 0 < n → n < 10 ^ 15 → -(Scalar.lit n : F) = Scalar.lit (-n)
  parse_number : ∀ n : Number, WireFloat64.parse n.text =
    some (if n.negative then -(Scalar.lit n.magnitude : F) else Scalar.lit n.magnitude)

/-! ## Exact decimals -/

def digitsValue (ds : Str) : Option Int :=
  if ds ≠ [] ∧ ds.all Char.isDigit = true then some (Nat.ofDigitChars 10 ds 0) else none

def parseSigned : Str → Option Int
  | '+' :: ds => digitsValue ds
  | '-' :: ds => (digitsValue ds).map Neg.neg
  | ds => digitsValue ds

def parseExponent : Str → Option Int
  | [] => some 0
  | c :: rest => if c = 'e' ∨ c = 'E' then parseSigned rest else none

def parseUnsigned (s : Str) : Option ℚ :=
  let int := s.takeWhile Char.isDigit
  let rest := s.dropWhile Char.isDigit
  let dotted := rest.head? = some '.'
  let frac := if dotted then rest.tail.takeWhile Char.isDigit else []
  let rest := if dotted then rest.tail.dropWhile Char.isDigit else rest
  if int = [] ∧ frac = [] then none
  else (parseExponent rest).map fun e => (Nat.ofDigitChars 10 (int ++ frac) 0 : ℚ) / 10 ^ frac.length * 10 ^ e

def parseDecimal (s : Str) : Option ℚ :=
  if s.head? = some '-' then (parseUnsigned s.tail).map Neg.neg else parseUnsigned s

instance : WireFloat64 ℚ where
  fromBits b := b.toNat
  fract x := x - x.num.tdiv x.den
  toI64 x := x.num.tdiv x.den
  toU16 x := UInt16.ofNat (x.num.tdiv x.den).toNat
  display x := (toString x).toList
  parse := parseDecimal

/-! ## They read the numbers of the grammar -/

/-- No digit comes first. -/
def Undigited (l : Str) : Prop := ∀ c ∈ l.head?, c.isDigit = false

theorem takeWhile_digits {ds rest : Str} (h : Digits ds) (hrest : Undigited rest) :
    (ds ++ rest).takeWhile Char.isDigit = ds ∧ (ds ++ rest).dropWhile Char.isDigit = rest := by
  rw [List.takeWhile_append_of_pos h, List.dropWhile_append_of_pos h]
  cases rest with
  | nil => exact ⟨List.append_nil _, rfl⟩
  | cons c rest =>
    have hc : c.isDigit = false := hrest c rfl
    rw [List.takeWhile_cons_of_neg (by rw [hc]; decide), List.dropWhile_cons_of_neg (by rw [hc]; decide)]
    exact ⟨List.append_nil _, rfl⟩

theorem digitsValue_digits {ds : Str} (hne : ds ≠ []) (h : Digits ds) :
    digitsValue ds = some (Nat.ofDigitChars 10 ds 0 : Int) :=
  if_pos ⟨hne, List.all_eq_true.mpr h⟩

theorem parseExponent_text (e : Exponent) : parseExponent e.text = some e.value := by
  have hdigits := digitsValue_digits e.digits_ne e.digits_digits
  obtain ⟨c, ds, hds⟩ := List.exists_cons_of_ne_nil e.digits_ne
  have hc : c.isDigit = true := e.digits_digits c (hds ▸ List.mem_cons_self)
  have hplus : c ≠ '+' := by rintro rfl; exact absurd hc (by decide)
  have hminus : c ≠ '-' := by rintro rfl; exact absurd hc (by decide)
  rw [Exponent.text, Exponent.value, parseExponent, if_pos e.mark_eq]
  rcases e.sign_eq with hsign | hsign | hsign
  · rw [hsign, List.nil_append, if_neg (by decide), ← hdigits, hds]
    unfold parseSigned
    split
    · next heq => exact absurd (List.cons.inj heq).1 hplus
    · next heq => exact absurd (List.cons.inj heq).1 hminus
    · rfl
  · rw [hsign, if_neg (by decide), ← hdigits]
    rfl
  · rw [hsign, if_pos rfl]
    show (digitsValue e.digits).map Neg.neg = _
    rw [hdigits]
    rfl

theorem parseExponent_exponentText (n : Number) :
    parseExponent n.exponentText = some (n.exponent.elim 0 Exponent.value) := by
  rw [Number.exponentText]
  cases n.exponent with
  | none => rfl
  | some e => exact parseExponent_text e

theorem exponentText_head {n : Number} {c : Char} (h : c ∈ n.exponentText.head?) : c = 'e' ∨ c = 'E' := by
  rw [Number.exponentText] at h
  cases he : n.exponent with
  | none =>
    rw [he] at h
    cases h
  | some e =>
    rw [he] at h
    cases h
    exact e.mark_eq

theorem undigited_exponentText (n : Number) : Undigited n.exponentText := by
  intro c hc
  rcases exponentText_head hc with rfl | rfl <;> decide

theorem parseUnsigned_text (n : Number) :
    parseUnsigned (n.int ++ (n.fracText ++ n.exponentText)) = some n.magnitude := by
  have hfrac : Undigited (n.fracText ++ n.exponentText) := by
    rw [Number.fracText]
    split
    · exact undigited_exponentText n
    · rintro c ⟨⟩
      decide
  obtain ⟨hint, hrest⟩ := takeWhile_digits n.int_digits hfrac
  have hne : ¬ (n.int = [] ∧ (if (n.fracText ++ n.exponentText).head? = some '.' then
      (n.fracText ++ n.exponentText).tail.takeWhile Char.isDigit else []) = []) := fun h => n.int_ne h.1
  rw [parseUnsigned, hint, hrest]
  rw [if_neg hne, Number.magnitude]
  by_cases hnil : n.frac = []
  · -- Without a fraction the exponent follows at once.
    have hdot : ¬ n.exponentText.head? = some '.' := by
      intro h
      rcases exponentText_head h with h | h <;> exact absurd h (by decide)
    rw [Number.fracText, if_pos hnil, List.nil_append, if_neg hdot, if_neg hdot, parseExponent_exponentText, hnil]
    rfl
  · obtain ⟨htake, hdrop⟩ := takeWhile_digits n.frac_digits (undigited_exponentText n)
    rw [Number.fracText, if_neg hnil, List.cons_append, List.head?_cons, if_pos rfl, if_pos rfl, List.tail_cons, htake,
      hdrop, parseExponent_exponentText]
    rfl

theorem parseDecimal_text (n : Number) :
    parseDecimal n.text = some (if n.negative then -n.magnitude else n.magnitude) := by
  obtain ⟨c, ds, hds⟩ := List.exists_cons_of_ne_nil n.int_ne
  have hc : c.isDigit = true := n.int_digits c (hds ▸ List.mem_cons_self)
  have hminus : c ≠ '-' := by rintro rfl; exact absurd hc (by decide)
  have hunsigned := parseUnsigned_text n
  rw [parseDecimal, Number.text, Number.sign]
  cases n.negative with
  | true =>
    rw [if_pos rfl, if_pos rfl, List.singleton_append, List.head?_cons, if_pos rfl, List.tail_cons, hunsigned]
    rfl
  | false =>
    have hhead : ¬ (n.int ++ (n.fracText ++ n.exponentText)).head? = some '-' := by
      rw [hds, List.cons_append, List.head?_cons]
      exact fun h => hminus (Option.some.inj h)
    rw [if_neg Bool.false_ne_true, if_neg Bool.false_ne_true, List.nil_append, if_neg hhead, hunsigned]

instance : DecimalFloat64 ℚ where
  fract_whole i _ := by
    have h : WireFloat64.fract (Scalar.lit i : ℚ) = 0 := by
      show (i : ℚ) - ((i : ℚ).num.tdiv (i : ℚ).den : Int) = 0
      simp
    rw [h]
    rfl
  abs_whole i h := by
    rw [lt_rat, decide_eq_true_eq]
    show |(i : ℚ)| < 1000000000000000
    have hlt : |i| < 1000000000000000 := by
      rw [Int.abs_eq_natAbs]
      omega
    exact_mod_cast hlt
  toI64_whole i _ := by
    show (i : ℚ).num.tdiv (i : ℚ).den = i
    simp
  neg_whole _ _ _ := rfl
  parse_number := parseDecimal_text

end Ccos
