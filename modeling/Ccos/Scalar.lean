import Mathlib.Data.Rat.Defs
import Mathlib.Algebra.Order.Field.Rat
import Ccos.Text

/-! # The numbers of the scores

The source computes scores, weights and trust in `f64`. The model is generic in the number type: it
fixes which operations run in which order and leaves their values open, so a result holds for the
rounded arithmetic of the machine too.
-/

namespace Ccos

instance threeNeZero : NeZero 3 := ⟨Nat.succ_ne_zero 2⟩

class Scalar (F : Type) extends Add F, Sub F, Mul F, Div F where
  /-- A literal of the source. -/
  lit : ℚ → F
  ofNat : Nat → F
  ln : F → F
  sqrt : F → F
  abs : F → F
  powi : F → Nat → F
  /-- `f64::partial_cmp`: `none` when one side is not a number. -/
  partialCmp : F → F → Option Ordering
  /-- The value that JSON gives back: a number that is not finite prints as `null` and does not
  read back. -/
  reparse : F → Option F

namespace Scalar

variable {F : Type} [Scalar F]

def lt (a b : F) : Bool := partialCmp a b == some .lt
def gt (a b : F) : Bool := partialCmp a b == some .gt
def ge (a b : F) : Bool := gt a b || partialCmp a b == some .eq
def eq (a b : F) : Bool := partialCmp a b == some .eq

def isNan (a : F) : Bool := (partialCmp a a).isNone

/-- `f64::max`: a number wins over what is not one. -/
def max (a b : F) : F := if isNan a then b else if lt a b then b else a

def min (a b : F) : F := if isNan a then b else if gt a b then b else a

/-- `x.clamp(0.0, 1.0)`. -/
def clamp01 (x : F) : F :=
  if lt x (lit 0) then lit 0 else if gt x (lit 1) then lit 1 else x

end Scalar

/-- Exact arithmetic, for concrete runs. `ln` is right at 1 and `sqrt` at 0 and 1, which is all
those runs ask for. -/
instance : Scalar ℚ where
  lit := id
  ofNat n := n
  ln x := x - 1
  sqrt x := x
  abs x := |x|
  powi x n := x ^ n
  partialCmp a b := some (compare a b)
  reparse := some

/-! ## Exact comparisons -/

theorem lt_rat (a b : ℚ) : Scalar.lt a b = decide (a < b) := by
  have h : (compare a b = .lt) ↔ a < b := compare_lt_iff_lt
  by_cases hab : a < b
  · have hlt : compare a b = .lt := h.mpr hab
    simp [Scalar.lt, Scalar.partialCmp, hlt, hab]
  · have hne : compare a b ≠ .lt := fun hlt => hab (h.mp hlt)
    simp [Scalar.lt, Scalar.partialCmp, hab, hne]

theorem gt_rat (a b : ℚ) : Scalar.gt a b = decide (b < a) := by
  have h : (compare a b = .gt) ↔ b < a := compare_gt_iff_gt
  by_cases hab : b < a
  · have hgt : compare a b = .gt := h.mpr hab
    simp [Scalar.gt, Scalar.partialCmp, hgt, hab]
  · have hne : compare a b ≠ .gt := fun hgt => hab (h.mp hgt)
    simp [Scalar.gt, Scalar.partialCmp, hab, hne]

theorem ge_rat (a b : ℚ) : Scalar.ge a b = decide (b ≤ a) := by
  rcases lt_trichotomy a b with hlt | heq | hgt
  · have hcmp : compare a b = .lt := compare_lt_iff_lt.mpr hlt
    simp [Scalar.ge, Scalar.gt, Scalar.partialCmp, hcmp, hlt]
  · have hcmp : compare a b = .eq := compare_eq_iff_eq.mpr heq
    simpa [Scalar.ge, Scalar.gt, Scalar.partialCmp, hcmp] using heq.ge
  · have hcmp : compare a b = .gt := compare_gt_iff_gt.mpr hgt
    simp [Scalar.ge, Scalar.gt, Scalar.partialCmp, hcmp, hgt.le]

theorem compare_neg_rat (a b : ℚ) : compare (-a) (-b) = compare b a := by
  rcases lt_trichotomy a b with hlt | rfl | hgt
  · rw [compare_gt_iff_gt.mpr hlt, compare_gt_iff_gt.mpr (neg_lt_neg hlt)]
  · rw [compare_eq_iff_eq.mpr rfl, compare_eq_iff_eq.mpr rfl]
  · rw [compare_lt_iff_lt.mpr hgt, compare_lt_iff_lt.mpr (neg_lt_neg hgt)]

theorem max_rat (a b : ℚ) : Scalar.max a b = max a b := by
  have hnan : Scalar.isNan a = false := rfl
  rw [Scalar.max, if_neg (by rw [hnan]; exact Bool.false_ne_true), lt_rat]
  by_cases hab : a < b
  · rw [decide_eq_true hab, if_pos rfl, max_eq_right hab.le]
  · rw [decide_eq_false hab, if_neg Bool.false_ne_true, max_eq_left (not_lt.mp hab)]

/-- What the receipts ask of `f64` besides arithmetic. -/
class Float64 (F : Type) extends Scalar F, Neg F where
  toBits : F → UInt64
  isFinite : F → Bool
  totalCmp : F → F → Ordering

/-- A rational has no bit pattern: concrete runs only need some value for it. -/
instance : Float64 ℚ where
  toBits q := UInt64.ofNat (q.num.natAbs + q.den)
  isFinite _ := true
  totalCmp := compare

/-! ## Places -/

/-- Numbers compare by their places on a line, and what is not a number has none. -/
class PlacedFloat64 (F : Type) [Float64 F] where
  place : F → Option ℚ
  partialCmp_eq : ∀ a b : F, Scalar.partialCmp a b = (place a).bind fun x => (place b).map (compare x)

instance : PlacedFloat64 ℚ where
  place := some
  partialCmp_eq _ _ := rfl

/-- What is finite is a number. -/
class FinitePlacedFloat64 (F : Type) [Float64 F] extends PlacedFloat64 F where
  exists_place : ∀ a : F, Float64.isFinite a = true → ∃ x, place a = some x

instance : FinitePlacedFloat64 ℚ where
  exists_place a _ := ⟨a, rfl⟩

section

variable {F : Type} [Float64 F] [PlacedFloat64 F]

open PlacedFloat64

theorem gt_iff_place (a b : F) : Scalar.gt a b = true ↔ ∃ x y, place a = some x ∧ place b = some y ∧ y < x := by
  unfold Scalar.gt
  rw [partialCmp_eq]
  cases place a with
  | none => simp
  | some x =>
    cases place b with
    | none => simp
    | some y => simp [compare_gt_iff_gt]

theorem lt_iff_place (a b : F) : Scalar.lt a b = true ↔ ∃ x y, place a = some x ∧ place b = some y ∧ x < y := by
  unfold Scalar.lt
  rw [partialCmp_eq]
  cases place a with
  | none => simp
  | some x =>
    cases place b with
    | none => simp
    | some y => simp [compare_lt_iff_lt]

theorem gt_self (a : F) : Scalar.gt a a = false := by
  by_contra h
  obtain ⟨x, y, hx, hy, hlt⟩ := (gt_iff_place a a).mp (by simpa using h)
  rw [hx] at hy
  cases hy
  exact lt_irrefl _ hlt

theorem lt_eq_gt (a b : F) : Scalar.lt a b = Scalar.gt b a := by
  rw [Bool.eq_iff_iff, lt_iff_place, gt_iff_place]
  exact ⟨fun ⟨x, y, hx, hy, hlt⟩ => ⟨y, x, hy, hx, hlt⟩, fun ⟨x, y, hx, hy, hlt⟩ => ⟨y, x, hy, hx, hlt⟩⟩

theorem gt_eq_false_of_gt {a b : F} (h : Scalar.gt a b = true) : Scalar.gt b a = false := by
  obtain ⟨x, y, hx, hy, hlt⟩ := (gt_iff_place a b).mp h
  by_contra hgt
  obtain ⟨y', x', hy', hx', hlt'⟩ := (gt_iff_place b a).mp (by simpa using hgt)
  rw [hx] at hx'
  rw [hy] at hy'
  cases hx'
  cases hy'
  exact lt_asymm hlt hlt'

/-- Not to be above passes on through a number. -/
theorem gt_eq_false_trans {a b c : F} {y : ℚ} (hb : place b = some y) (hab : Scalar.gt a b = false)
    (hbc : Scalar.gt b c = false) : Scalar.gt a c = false := by
  by_contra h
  obtain ⟨x, z, hx, hz, hlt⟩ := (gt_iff_place a c).mp (by simpa using h)
  have hxy : ¬ y < x := fun hyx => by
    rw [(gt_iff_place a b).mpr ⟨x, y, hx, hb, hyx⟩] at hab
    cases hab
  have hyz : ¬ z < y := fun hzy => by
    rw [(gt_iff_place b c).mpr ⟨y, z, hb, hz, hzy⟩] at hbc
    cases hbc
  linarith

theorem isNan_iff_place (a : F) : Scalar.isNan a = true ↔ place a = none := by
  unfold Scalar.isNan
  rw [partialCmp_eq]
  cases place a <;> simp

end

end Ccos
