import Ccos.Scalar
import Mathlib.Algebra.Order.Field.Basic
import Mathlib.Tactic.Linarith

/-!
# Rounded arithmetic on the unit interval

What the results on pressures ask of `f64`: finite numbers compare like the values they stand for, and a rounded
operation stays on the side of its exact result. An unrounded number is its own value.
-/

namespace Ccos

open Float64

class RoundedArithmetic (F : Type) [Float64 F] where
  value : F → ℚ
  cmp_value : ∀ a b : F, isFinite a = true → isFinite b = true →
    Scalar.partialCmp a b = some (compare (value a) (value b))
  finite_lit : ∀ q : ℚ, -1 ≤ q → q ≤ 1 → isFinite (Scalar.lit q : F) = true
  finite_ofNat : ∀ n : Nat, isFinite (Scalar.ofNat n : F) = true
  lit_mono : ∀ p q : ℚ, -1 ≤ p → p ≤ q → q ≤ 1 → value (Scalar.lit p : F) ≤ value (Scalar.lit q : F)
  lit_zero : value (Scalar.lit 0 : F) = 0
  lit_one : value (Scalar.lit 1 : F) = 1
  lit_neg_one : value (Scalar.lit (-1) : F) = -1
  mul_comm : ∀ a b : F, a * b = b * a
  mul_unit : ∀ a b : F, isFinite a = true → 0 ≤ value a → value a ≤ 1 → isFinite b = true →
    isFinite (a * b) = true ∧ (0 ≤ value b → 0 ≤ value (a * b)) ∧ (value b ≤ 0 → value (a * b) ≤ 0)
  powi_unit : ∀ (a : F) (n : Nat), isFinite a = true → 0 ≤ value a → value a ≤ 1 →
    isFinite (Scalar.powi a n) = true ∧ 0 ≤ value (Scalar.powi a n) ∧ value (Scalar.powi a n) ≤ 1
  div_unit : ∀ a b : F, isFinite a = true → isFinite b = true → 1 ≤ value a → value a ≤ value b →
    isFinite (a / b) = true ∧ 0 ≤ value (a / b) ∧ value (a / b) ≤ 1
  add_unit : ∀ a b : F, isFinite a = true → 0 ≤ value a → value a ≤ 1 → isFinite b = true →
    isFinite (a + b) = true ∧ (0 ≤ value b → value a ≤ value (a + b)) ∧ (value b ≤ 0 → value (a + b) ≤ value a)

instance : RoundedArithmetic ℚ where
  value := id
  cmp_value _ _ _ _ := rfl
  finite_lit _ _ _ := rfl
  finite_ofNat _ := rfl
  lit_mono _ _ _ h _ := h
  lit_zero := rfl
  lit_one := rfl
  lit_neg_one := rfl
  mul_comm a b := Rat.mul_comm a b
  mul_unit _ _ _ ha _ _ :=
    ⟨rfl, fun hb => Rat.mul_nonneg ha hb, fun hb => mul_nonpos_of_nonneg_of_nonpos ha hb⟩
  powi_unit _ n _ ha ha' := ⟨rfl, pow_nonneg ha n, pow_le_one₀ ha ha'⟩
  div_unit _ _ _ _ ha hab :=
    ⟨rfl, div_nonneg (zero_le_one.trans ha) (zero_le_one.trans (ha.trans hab)),
      div_le_one_of_le₀ hab (zero_le_one.trans (ha.trans hab))⟩
  add_unit _ _ _ _ _ _ := ⟨rfl, fun hb => le_add_of_nonneg_right hb, fun hb => add_le_of_nonpos_right hb⟩

namespace RoundedArithmetic

variable {F : Type} [Float64 F] [RoundedArithmetic F]

/-- A number between zero and one. -/
structure InUnit (x : F) : Prop where
  finite : isFinite x = true
  nonneg : 0 ≤ value x
  le_one : value x ≤ 1

theorem InUnit.mul {a b : F} (ha : InUnit a) (hb : isFinite b = true) : isFinite (a * b) = true :=
  (mul_unit a b ha.finite ha.nonneg ha.le_one hb).1

theorem InUnit.mul_nonneg {a b : F} (ha : InUnit a) (hb : isFinite b = true) (h : 0 ≤ value b) : 0 ≤ value (a * b) :=
  (mul_unit a b ha.finite ha.nonneg ha.le_one hb).2.1 h

theorem InUnit.mul_nonpos {a b : F} (ha : InUnit a) (hb : isFinite b = true) (h : value b ≤ 0) : value (a * b) ≤ 0 :=
  (mul_unit a b ha.finite ha.nonneg ha.le_one hb).2.2 h

theorem InUnit.powi {a : F} (ha : InUnit a) (n : Nat) : InUnit (Scalar.powi a n) := by
  obtain ⟨hfinite, hnonneg, hle⟩ := powi_unit a n ha.finite ha.nonneg ha.le_one
  exact ⟨hfinite, hnonneg, hle⟩

theorem unit_lit {q : ℚ} (h0 : 0 ≤ q) (h1 : q ≤ 1) : InUnit (Scalar.lit q : F) where
  finite := finite_lit q (by linarith) h1
  nonneg := by
    have h := lit_mono (F := F) 0 q (by norm_num) h0 h1
    rwa [lit_zero] at h
  le_one := by
    have h := lit_mono (F := F) q 1 (by linarith) h1 (le_refl 1)
    rwa [lit_one] at h

section Order

variable {a b : F} (ha : isFinite a = true) (hb : isFinite b = true)

include ha hb

theorem lt_eq : Scalar.lt a b = decide (value a < value b) := by
  unfold Scalar.lt
  rw [cmp_value a b ha hb]
  by_cases h : value a < value b
  · rw [compare_lt_iff_lt.mpr h, decide_eq_true h]
    rfl
  · have hne : compare (value a) (value b) ≠ .lt := fun hlt => h (compare_lt_iff_lt.mp hlt)
    rw [decide_eq_false h]
    simpa using hne

theorem gt_eq : Scalar.gt a b = decide (value b < value a) := by
  unfold Scalar.gt
  rw [cmp_value a b ha hb]
  by_cases h : value b < value a
  · rw [compare_gt_iff_gt.mpr h, decide_eq_true h]
    rfl
  · have hne : compare (value a) (value b) ≠ .gt := fun hgt => h (compare_gt_iff_gt.mp hgt)
    rw [decide_eq_false h]
    simpa using hne

end Order

theorem isNan_eq_false {a : F} (ha : isFinite a = true) : Scalar.isNan a = false := by
  unfold Scalar.isNan
  rw [cmp_value a a ha ha]
  rfl

theorem finite_max {a b : F} (ha : isFinite a = true) (hb : isFinite b = true) :
    isFinite (Scalar.max a b) = true ∧ value a ≤ value (Scalar.max a b) ∧ value b ≤ value (Scalar.max a b) := by
  unfold Scalar.max
  rw [isNan_eq_false ha, if_neg Bool.false_ne_true, lt_eq ha hb]
  by_cases h : value a < value b
  · rw [decide_eq_true h, if_pos rfl]
    exact ⟨hb, h.le, le_refl _⟩
  · rw [decide_eq_false h, if_neg Bool.false_ne_true]
    exact ⟨ha, le_refl _, not_lt.mp h⟩

theorem unit_min_one {a : F} (ha : InUnit a) : InUnit (Scalar.min a (Scalar.lit 1)) := by
  have hone : InUnit (Scalar.lit 1 : F) := unit_lit zero_le_one (le_refl 1)
  unfold Scalar.min
  rw [isNan_eq_false ha.finite, if_neg Bool.false_ne_true]
  split
  · exact hone
  · exact ha

theorem unit_clamp01 {a : F} (ha : isFinite a = true) : InUnit (Scalar.clamp01 a) ∧
    (∀ q, q ≤ 1 → q ≤ value a → q ≤ value (Scalar.clamp01 a)) ∧
    ∀ q, 0 ≤ q → value a ≤ q → value (Scalar.clamp01 a) ≤ q := by
  have hzero : InUnit (Scalar.lit 0 : F) := unit_lit (le_refl 0) zero_le_one
  have hone : InUnit (Scalar.lit 1 : F) := unit_lit zero_le_one (le_refl 1)
  unfold Scalar.clamp01
  rw [lt_eq ha hzero.finite, gt_eq ha hone.finite, lit_zero, lit_one]
  by_cases hneg : value a < 0
  · rw [decide_eq_true hneg, if_pos rfl, lit_zero]
    exact ⟨hzero, fun q _ hq => by linarith, fun q hq _ => hq⟩
  · rw [decide_eq_false hneg, if_neg Bool.false_ne_true]
    by_cases hbig : 1 < value a
    · rw [decide_eq_true hbig, if_pos rfl, lit_one]
      exact ⟨hone, fun q hq _ => hq, fun q _ hq => by linarith⟩
    · rw [decide_eq_false hbig, if_neg Bool.false_ne_true]
      exact ⟨⟨ha, not_lt.mp hneg, not_lt.mp hbig⟩, fun q _ hq => hq, fun q _ hq => hq⟩

end RoundedArithmetic

end Ccos
