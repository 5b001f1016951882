import Mathlib.Data.Nat.Init
import Mathlib.Data.Nat.Bitwise
import Mathlib.Tactic.Ring

/-!
# Bit fields of a sequence of bytes

Bit `i` of a sequence is bit `i % 8` of byte `i / 8`. A field is the number that some bits in a row stand for, the low
bit first. A write replaces one field and keeps every other bit.
-/

namespace BitFields

variable {s s' s'' : Nat → UInt8}

def bit (s : Nat → UInt8) (i : Nat) : Bool := (s (i / 8)).toNat.testBit (i % 8)

def field (s : Nat → UInt8) (start width : Nat) : Nat := Nat.ofBits fun j : Fin width => bit s (start + j)

theorem testBit_field (s : Nat → UInt8) (start width j : Nat) :
    (field s start width).testBit j = (decide (j < width) && bit s (start + j)) := by
  unfold field
  by_cases hj : j < width
  · rw [Nat.testBit_ofBits_lt _ _ hj]
    simp [hj]
  · rw [Nat.testBit_ofBits_ge _ _ (Nat.le_of_not_lt hj)]
    simp [hj]

theorem field_lt (s : Nat → UInt8) (start width : Nat) : field s start width < 2 ^ width := Nat.ofBits_lt_two_pow _

theorem testBit_high {n width j : Nat} (hn : n < 2 ^ width) (hj : width ≤ j) : n.testBit j = false :=
  Nat.testBit_lt_two_pow (lt_of_lt_of_le hn (Nat.pow_le_pow_right (by decide) hj))

theorem field_of_clear (h : ∀ i, s i = 0) (start width : Nat) : field s start width = 0 := by
  apply Nat.eq_of_testBit_eq
  intro j
  simp [testBit_field, bit, h]

/-! ## Reading -/

/-- The number of some bytes in a row, the low byte first. -/
def window (s : Nat → UInt8) (k : Nat) : Nat → Nat
  | 0 => 0
  | n + 1 => (s k).toNat + 2 ^ 8 * window s (k + 1) n

theorem testBit_window (s : Nat → UInt8) (k n j : Nat) :
    (window s k n).testBit j = (decide (j < 8 * n) && bit s (8 * k + j)) := by
  induction n generalizing k j with
  | zero => simp [window]
  | succ n ih =>
    rw [window, Nat.add_comm, Nat.testBit_two_pow_mul_add _ (s k).toNat_lt]
    by_cases hj : j < 8
    · rw [if_pos hj, bit, show (8 * k + j) / 8 = k by omega, show (8 * k + j) % 8 = j by omega]
      simp [show j < 8 * (n + 1) by omega]
    · rw [if_neg hj, ih, show 8 * (k + 1) + (j - 8) = 8 * k + j by omega]
      congr 1
      simp only [decide_eq_decide]
      omega

theorem or_window (s : Nat → UInt8) (k n : Nat) :
    (s k).toNat ||| window s (k + 1) n <<< 8 = window s k (n + 1) := by
  rw [Nat.or_comm, ← Nat.shiftLeft_add_eq_or_of_lt (s k).toNat_lt, Nat.shiftLeft_eq, window]
  ring

/-- A field that lies in a window is read off it. -/
theorem window_field {k n shift width : Nat} (h : shift + width ≤ 8 * n) :
    (window s k n >>> shift) % 2 ^ width = field s (8 * k + shift) width := by
  apply Nat.eq_of_testBit_eq
  intro j
  rw [Nat.testBit_mod_two_pow, Nat.testBit_shiftRight, testBit_window, testBit_field, Nat.add_assoc]
  by_cases hj : j < width
  · simp [hj, show shift + j < 8 * n by omega]
  · simp [hj]

theorem byte_field {k shift width : Nat} (h : shift + width ≤ 8) :
    ((s k).toNat >>> shift) % 2 ^ width = field s (8 * k + shift) width := by
  have hwindow := @window_field s k 1 shift width h
  simpa [window] using hwindow

/-! ## Writing -/

/-- The field holds the value, and every other bit is as it was. -/
def Writes (s : Nat → UInt8) (start width value : Nat) (s' : Nat → UInt8) : Prop :=
  ∀ i, bit s' i = if start ≤ i ∧ i < start + width then value.testBit (i - start) else bit s i

theorem Writes.field_self {start width value : Nat} (h : Writes s start width value s') (hvalue : value < 2 ^ width) :
    field s' start width = value := by
  apply Nat.eq_of_testBit_eq
  intro j
  rw [testBit_field, h]
  by_cases hj : j < width
  · simp [hj, show start + j - start = j by omega]
  · simp [hj, testBit_high hvalue (Nat.le_of_not_lt hj)]

theorem Writes.field_other {start width value : Nat} (h : Writes s start width value s') {start' width' : Nat}
    (hapart : start' + width' ≤ start ∨ start + width ≤ start') : field s' start' width' = field s start' width' := by
  apply Nat.eq_of_testBit_eq
  intro j
  rw [testBit_field, testBit_field, h]
  by_cases hj : j < width'
  · rw [if_neg (by omega)]
  · simp [hj]

/-- Or-ing a value into bits that are all clear writes it. -/
theorem writes_of_or {start width value : Nat} (hclear : field s start width = 0) (hvalue : value < 2 ^ width)
    (h : ∀ i, bit s' i = (bit s i || (decide (start ≤ i) && value.testBit (i - start)))) :
    Writes s start width value s' := by
  intro i
  rw [h]
  by_cases hi : start ≤ i ∧ i < start + width
  · have hbit : bit s i = false := by
      have hfield := testBit_field s start width (i - start)
      rw [hclear, show start + (i - start) = i by omega] at hfield
      simpa [show i - start < width by omega] using hfield.symm
    simp [hi, hbit]
  · rw [if_neg hi]
    by_cases hlow : start ≤ i
    · simp [testBit_high hvalue (show width ≤ i - start by omega)]
    · simp [hlow]

/-- The two bytes differ in the field only. -/
theorem writes_of_byte {k shift width value : Nat} (hin : shift + width ≤ 8) (hother : ∀ i, i ≠ k → s' i = s i)
    (hbyte : ∀ j < 8, (s' k).toNat.testBit j =
      if shift ≤ j ∧ j < shift + width then value.testBit (j - shift) else (s k).toNat.testBit j) :
    Writes s (8 * k + shift) width value s' := by
  intro i
  unfold bit
  by_cases hk : i / 8 = k
  · rw [hk, hbyte (i % 8) (Nat.mod_lt _ (by decide))]
    by_cases hj : shift ≤ i % 8 ∧ i % 8 < shift + width
    · rw [if_pos hj, if_pos (by omega), show i - (8 * k + shift) = i % 8 - shift by omega]
    · rw [if_neg hj, if_neg (by omega)]
  · rw [hother _ hk, if_neg (by omega)]

/-! ## Fields side by side -/

/-- After a run of writes every field holds its value, and what is outside of them is as it was. -/
theorem run_fields {start width n : Nat} {value : Nat → Nat} {run : Nat → Nat → UInt8}
    (hvalue : ∀ k < n, value k < 2 ^ width)
    (hstep : ∀ k < n, Writes (run k) (start + width * k) width (value k) (run (k + 1))) :
    (∀ i < n, field (run n) (start + width * i) width = value i) ∧
      ∀ first size, first + size ≤ start ∨ start + width * n ≤ first →
        field (run n) first size = field (run 0) first size := by
  induction n with
  | zero => simp
  | succ n ih =>
    obtain ⟨hfields, hframe⟩ := ih (fun k hk => hvalue k (by omega)) fun k hk => hstep k (by omega)
    have hwrite := hstep n (Nat.lt_succ_self n)
    constructor
    · intro i hi
      rcases Nat.lt_succ_iff_lt_or_eq.mp hi with hlt | rfl
      · have hend : width * i + width ≤ width * n := by
          rw [← Nat.mul_succ]
          exact Nat.mul_le_mul_left width hlt
        rw [hwrite.field_other (by omega), hfields i hlt]
      · exact hwrite.field_self (hvalue _ hi)
    · intro first size hapart
      rw [Nat.mul_succ] at hapart
      rw [hwrite.field_other (by omega), hframe first size (by omega)]

end BitFields
