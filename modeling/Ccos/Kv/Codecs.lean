import Ccos.Kv.Latent
import Mathlib.Tactic.IntervalCases
import Mathlib.Tactic.Linarith
import Mathlib.Tactic.FieldSimp

/-!
# The codecs of a latent

The codes lie side by side in the planes of a latent and are read back as they were packed.
A value comes back within one step when its code reaches far enough. A scale byte that is rounded down takes some of
that reach away.
-/

namespace Ccos.Kv

open BitFields

/-! ## Bytes -/

namespace Latent

variable {out : Latent}

theorem byte_put (out : Latent) (i j : Nat) (b : UInt8) :
    (out.put i b).byte j = if i = j ∧ i < latentBytes then b else out.byte j := by
  unfold put byte
  rw [Vector.getElem?_setIfInBounds]
  by_cases hij : i = j
  · subst hij
    by_cases hi : i < latentBytes <;> simp [hi]
  · simp [hij]

theorem byte_put_self {i : Nat} (b : UInt8) (hi : i < latentBytes) : (out.put i b).byte i = b := by simp [byte_put, hi]

theorem byte_put_other {i j : Nat} (b : UInt8) (hij : j ≠ i) : (out.put i b).byte j = out.byte j := by
  simp [byte_put, hij.symm]

theorem byte_zero (i : Nat) : zero.byte i = 0 := by
  unfold zero byte
  by_cases hi : i < latentBytes <;> simp [hi]

theorem field_zero (start width : Nat) : field zero.byte start width = 0 := field_of_clear byte_zero start width

/-! ## Writing -/

theorem writes_put {k : Nat} (b : UInt8) (hk : k < latentBytes) :
    Writes out.byte (8 * k) 8 b.toNat (out.put k b).byte := by
  apply @writes_of_byte _ _ k 0 8 _ (by decide)
  · intro i hi
    exact byte_put_other b hi
  · intro j hj
    simp [byte_put_self b hk, hj]

theorem writes_putNibble {base i : Nat} {nib : UInt8} (hroom : base + i / 2 < latentBytes) (hnib : nib.toNat < 2 ^ 4) :
    Writes out.byte (8 * base + 4 * i) 4 nib.toNat (out.putNibble base i nib).byte := by
  unfold putNibble
  simp only [half_eq, and_one_eq]
  by_cases hi : i % 2 = 0
  · rw [if_pos hi, show 8 * base + 4 * i = 8 * (base + i / 2) + 0 by omega]
    apply writes_of_byte (by decide) fun k hk => byte_put_other _ hk
    intro j hj
    rw [byte_put_self _ hroom, UInt8.toNat_or, UInt8.toNat_and, Nat.testBit_or, Nat.testBit_and]
    simp only [UInt8.reduceToNat]
    by_cases hlow : j < 4
    · have hmask : Nat.testBit 240 j = false := by interval_cases j <;> rfl
      simp [hmask, hlow]
    · have hmask : Nat.testBit 240 j = true := by interval_cases j <;> rfl
      simp [hmask, hlow, testBit_high hnib (Nat.le_of_not_lt hlow)]
  · rw [if_neg hi, show 8 * base + 4 * i = 8 * (base + i / 2) + 4 by omega]
    apply writes_of_byte (by decide) fun k hk => byte_put_other _ hk
    intro j hj
    rw [byte_put_self _ hroom, UInt8.toNat_or, UInt8.toNat_and, UInt8.toNat_shiftLeft, Nat.testBit_or, Nat.testBit_and,
      Nat.testBit_mod_two_pow]
    simp only [UInt8.reduceToNat, Nat.reduceMod, Nat.testBit_shiftLeft]
    by_cases hlow : j < 4
    · have hmask : (15 : Nat).testBit j = true := by interval_cases j <;> rfl
      simp [hmask, show ¬ 4 ≤ j by omega]
    · have hmask : (15 : Nat).testBit j = false := by interval_cases j <;> rfl
      simp [hmask, hj, Nat.le_of_not_lt hlow]

theorem bit_put_or {k : Nat} (hk : k < latentBytes) (b : UInt8) (p : Nat) :
    bit (out.put k (out.byte k ||| b)).byte p =
      (bit out.byte p || (decide (p / 8 = k) && b.toNat.testBit (p % 8))) := by
  unfold bit
  by_cases hp : p / 8 = k
  · rw [hp, byte_put_self _ hk, UInt8.toNat_or, Nat.testBit_or]
    simp
  · rw [byte_put_other _ hp]
    simp [hp]

theorem testBit_shiftLeft {n j : Nat} (b : UInt8) (hn : n < 8) (hj : j < 8) :
    (b <<< UInt8.ofNat n).toNat.testBit j = (decide (n ≤ j) && b.toNat.testBit (j - n)) := by
  have hshift : (UInt8.ofNat n).toNat % 8 = n := by
    rw [UInt8.toNat_ofNat']
    omega
  rw [UInt8.toNat_shiftLeft, hshift, Nat.testBit_mod_two_pow, Nat.testBit_shiftLeft]
  simp [hj]

theorem testBit_shiftRight {n : Nat} (b : UInt8) (hn : n < 8) (j : Nat) :
    (b >>> UInt8.ofNat n).toNat.testBit j = b.toNat.testBit (n + j) := by
  have hshift : (UInt8.ofNat n).toNat % 8 = n := by
    rw [UInt8.toNat_ofNat']
    omega
  rw [UInt8.toNat_shiftRight, hshift, Nat.testBit_shiftRight]

theorem writes_putCode {off i : Nat} {code : UInt8} (hroom : 8 * off + 3 * i + 3 ≤ 8 * latentBytes)
    (hclear : field out.byte (8 * off + 3 * i) 3 = 0) (hcode : code.toNat < 2 ^ 3) :
    Writes out.byte (8 * off + 3 * i) 3 code.toNat (out.putCode off i code).byte := by
  apply writes_of_or hclear hcode
  intro p
  unfold putCode
  simp only [eighth_eq, and_seven_eq]
  have hshift : 3 * i % 8 < 8 := Nat.mod_lt _ (by decide)
  have hhere : off + 3 * i / 8 < latentBytes := by omega
  have hpos : p % 8 < 8 := Nat.mod_lt _ (by decide)
  have hstart : 8 * off + 3 * i = 8 * (off + 3 * i / 8) + 3 * i % 8 := by omega
  rw [hstart]
  generalize off + 3 * i / 8 = k at *
  generalize 3 * i % 8 = shift at *
  -- A code that starts in the last two bits of a byte goes on in the next one.
  by_cases hcross : 5 < shift
  · have hnext : k + 1 < latentBytes := by omega
    rw [if_pos hcross, bit_put_or hnext, bit_put_or hhere, testBit_shiftLeft _ hshift hpos,
      testBit_shiftRight _ (by omega), Bool.or_assoc]
    congr 1
    by_cases hk : p / 8 = k
    · rw [show p - (8 * k + shift) = p % 8 - shift by omega]
      simp [hk, show 8 * k + shift ≤ p ↔ shift ≤ p % 8 by omega]
    · by_cases hk' : p / 8 = k + 1
      · rw [show p - (8 * k + shift) = 8 - shift + p % 8 by omega]
        simp [hk', show 8 * k + shift ≤ p by omega]
      · by_cases hlow : 8 * k + shift ≤ p
        · simp [hk, hk', testBit_high hcode (show 3 ≤ p - (8 * k + shift) by omega)]
        · simp [hk, hk', hlow]
  · rw [if_neg hcross, bit_put_or hhere, testBit_shiftLeft _ hshift hpos]
    congr 1
    by_cases hk : p / 8 = k
    · rw [show p - (8 * k + shift) = p % 8 - shift by omega]
      simp [hk, show 8 * k + shift ≤ p ↔ shift ≤ p % 8 by omega]
    · by_cases hlow : 8 * k + shift ≤ p
      · simp [hk, testBit_high hcode (show 3 ≤ p - (8 * k + shift) by omega)]
      · simp [hk, hlow]

theorem writes_putCorr {off i : Nat} (hroom : 8 * off + i < 8 * latentBytes)
    (hclear : field out.byte (8 * off + i) 1 = 0) : Writes out.byte (8 * off + i) 1 1 (out.putCorr off i).byte := by
  apply writes_of_or hclear (by decide)
  intro p
  unfold putCorr
  simp only [eighth_eq, and_seven_eq]
  have hone : (UInt8.toNat 1) < 2 ^ 1 := by decide
  rw [bit_put_or (by omega), testBit_shiftLeft _ (Nat.mod_lt _ (by decide)) (Nat.mod_lt _ (by decide))]
  congr 1
  by_cases hk : p / 8 = off + i / 8
  · rw [show p - (8 * off + i) = p % 8 - i % 8 by omega]
    simp [hk, show 8 * off + i ≤ p ↔ i % 8 ≤ p % 8 by omega]
  · by_cases hlow : 8 * off + i ≤ p
    · have hhigh := testBit_high hone (show 1 ≤ p - (8 * off + i) by omega)
      rw [UInt8.toNat_one] at hhigh
      simp [hk, hhigh]
    · simp [hk, hlow]

/-! ## The packing loops -/

theorem packNibbles_fields {base n : Nat} {nib : Nat → UInt8} (hroom : 2 * base + n ≤ 2 * latentBytes)
    (hnib : ∀ i < n, (nib i).toNat < 2 ^ 4) :
    (∀ i < n, field (out.packNibbles base n nib).byte (8 * base + 4 * i) 4 = (nib i).toNat) ∧
      ∀ first size, first + size ≤ 8 * base ∨ 8 * base + 4 * n ≤ first →
        field (out.packNibbles base n nib).byte first size = field out.byte first size := by
  apply @run_fields (8 * base) 4 n (fun i => (nib i).toNat) (fun k => (out.packNibbles base k nib).byte) hnib
  intro k hk
  have hstep : out.packNibbles base (k + 1) nib = (out.packNibbles base k nib).putNibble base k (nib k) := by
    simp [packNibbles, List.range_succ]
  simp only [hstep]
  exact writes_putNibble (by omega) (hnib k hk)

theorem packHead_fields {code : Nat → UInt8} :
    (∀ d < mixedHiDims, field (out.packHead code).byte (8 * d) 8 = (code d).toNat) ∧
      ∀ first size, 8 * mixedHiDims ≤ first →
        field (out.packHead code).byte first size = field out.byte first size := by
  have hrun := @run_fields 0 8 mixedHiDims (fun d => (code d).toNat)
    (fun k => ((List.range k).foldl (fun out d => out.put d (code d)) out).byte) (fun d _ => (code d).toNat_lt) (by
      intro k hk
      simp only [List.range_succ, List.foldl_append, List.foldl_cons, List.foldl_nil, Nat.zero_add]
      exact writes_put _ (lt_trans hk (by decide)))
  simp only [Nat.zero_add] at hrun
  exact ⟨hrun.1, fun first size hfirst => hrun.2 first size (.inr hfirst)⟩

/-- The two planes grow side by side. -/
theorem packCodes_fields {codesOff corrOff n : Nat} {code : Nat → UInt8} {above : Nat → Bool}
    (hplanes : 8 * codesOff + 3 * n ≤ 8 * corrOff) (hroom : 8 * corrOff + n ≤ 8 * latentBytes)
    (hcode : ∀ i < n, (code i).toNat < 2 ^ 3)
    (hclear : ∀ first size, 8 * codesOff ≤ first → field out.byte first size = 0) :
    (∀ i < n, field (out.packCodes codesOff corrOff n code above).byte (8 * codesOff + 3 * i) 3 = (code i).toNat) ∧
      (∀ i < n, field (out.packCodes codesOff corrOff n code above).byte (8 * corrOff + i) 1 =
        if above i then 1 else 0) ∧
      ∀ first size, first + size ≤ 8 * codesOff ∨ (8 * codesOff + 3 * n ≤ first ∧ first + size ≤ 8 * corrOff) ∨
          8 * corrOff + n ≤ first →
        field (out.packCodes codesOff corrOff n code above).byte first size = field out.byte first size := by
  induction n with
  | zero => simp [packCodes]
  | succ n ih =>
    obtain ⟨hcodes, hcorrs, hframe⟩ := ih (by omega) (by omega) fun i hi => hcode i (by omega)
    have hstep : out.packCodes codesOff corrOff (n + 1) code above =
        if above n then ((out.packCodes codesOff corrOff n code above).putCode codesOff n (code n)).putCorr corrOff n
        else (out.packCodes codesOff corrOff n code above).putCode codesOff n (code n) := by
      simp [packCodes, List.range_succ]
    generalize out.packCodes codesOff corrOff n code above = done at *
    have hcodeWrite : Writes done.byte (8 * codesOff + 3 * n) 3 (code n).toNat
        (done.putCode codesOff n (code n)).byte := by
      apply writes_putCode (by omega) _ (hcode n (Nat.lt_succ_self n))
      rw [hframe _ _ (by omega)]
      exact hclear _ _ (by omega)
    -- The correction is or-ed in, so its bit must still be clear: no code reaches that plane.
    have hcorrClear : field (done.putCode codesOff n (code n)).byte (8 * corrOff + n) 1 = 0 := by
      rw [hcodeWrite.field_other (by omega), hframe _ _ (by omega)]
      exact hclear _ _ (by omega)
    have hcorrWrite : Writes (done.putCode codesOff n (code n)).byte (8 * corrOff + n) 1 (if above n then 1 else 0)
        (out.packCodes codesOff corrOff (n + 1) code above).byte := by
      rw [hstep]
      by_cases habove : above n
      · simp only [habove, if_true]
        exact writes_putCorr (by omega) hcorrClear
      · simp only [habove, Bool.false_eq_true, if_false]
        exact writes_of_or hcorrClear (by decide) (by simp)
    refine ⟨?_, ?_, ?_⟩
    · intro i hi
      rw [hcorrWrite.field_other (by omega)]
      rcases Nat.lt_succ_iff_lt_or_eq.mp hi with hlt | rfl
      · rw [hcodeWrite.field_other (by omega), hcodes i hlt]
      · exact hcodeWrite.field_self (hcode i hi)
    · intro i hi
      rcases Nat.lt_succ_iff_lt_or_eq.mp hi with hlt | rfl
      · rw [hcorrWrite.field_other (by omega), hcodeWrite.field_other (by omega), hcorrs i hlt]
      · exact hcorrWrite.field_self (by split <;> decide)
    · intro first size hapart
      rw [hcorrWrite.field_other (by omega), hcodeWrite.field_other (by omega), hframe first size (by omega)]

end Latent

/-! ## Rounding -/

theorem abs_roundAway_sub (q : ℚ) : |(roundAway q : ℚ) - q| ≤ 1 / 2 := by
  unfold roundAway
  rw [abs_le]
  split
  · have hle := Int.floor_le (q + 1 / 2)
    have hlt := Int.lt_floor_add_one (q + 1 / 2)
    constructor <;> linarith
  · have hle := Int.le_ceil (q - 1 / 2)
    have hlt := Int.ceil_lt_add_one (q - 1 / 2)
    constructor <;> linarith

/-- A positive number is the rounding of what lies less than a half above it, or it is above the rounding. -/
theorem roundAway_le_iff {q : ℚ} {n : ℤ} (hn : 0 < n) : roundAway q ≤ n ↔ q < n + 1 / 2 := by
  unfold roundAway
  split
  · rw [← Int.lt_add_one_iff, Int.floor_lt]
    push_cast
    constructor <;> intro h <;> linarith
  · rename_i hq
    rw [not_le] at hq
    have hpos : (1 : ℚ) ≤ n := by exact_mod_cast hn
    have hceil : ⌈q - 1 / 2⌉ ≤ 0 := Int.ceil_le.mpr (by push_cast; linarith)
    constructor
    · intro _
      linarith
    · intro _
      omega

/-- A clamped code is off by at most one exactly when the value is at most one beyond the ends. -/
theorem clamp_roundAway_iff {lo hi : ℤ} (hlohi : lo ≤ hi) (t : ℚ) :
    |(clamp lo hi (roundAway t) : ℚ) - t| ≤ 1 ↔ lo - 1 ≤ t ∧ t ≤ hi + 1 := by
  obtain ⟨hbelow, habove⟩ := abs_le.mp (abs_roundAway_sub t)
  have hends : (lo : ℚ) ≤ hi := by exact_mod_cast hlohi
  unfold clamp
  rw [abs_le]
  rcases lt_or_ge (roundAway t) lo with hlow | hlow
  · have hcast : (roundAway t : ℚ) + 1 ≤ lo := by exact_mod_cast hlow
    rw [min_eq_right (by omega), max_eq_left (by omega)]
    constructor <;> rintro ⟨hl, hr⟩ <;> constructor <;> linarith
  · rcases lt_or_ge hi (roundAway t) with hhigh | hhigh
    · have hcast : (hi : ℚ) + 1 ≤ roundAway t := by exact_mod_cast hhigh
      rw [min_eq_left (by omega), max_eq_right hlohi]
      constructor <;> rintro ⟨hl, hr⟩ <;> constructor <;> linarith
    · have hcastLow : (lo : ℚ) ≤ roundAway t := by exact_mod_cast hlow
      have hcastHigh : (roundAway t : ℚ) ≤ hi := by exact_mod_cast hhigh
      rw [min_eq_right hhigh, max_eq_right hlow]
      constructor <;> rintro ⟨hl, hr⟩ <;> constructor <;> linarith

/-! ## Codes -/

theorem clamp_mem {lo hi : ℤ} (hlohi : lo ≤ hi) (q : ℤ) : lo ≤ clamp lo hi q ∧ clamp lo hi q ≤ hi := by
  unfold clamp
  omega

theorem nibbleOf_toNat (x eff : ℚ) : ((nibbleOf x eff).toNat : ℤ) = clamp (-8) 7 (roundAway (x / eff)) + 8 := by
  obtain ⟨hlow, hhigh⟩ := @clamp_mem (-8) 7 (by decide) (roundAway (x / eff))
  have hmask : ((0x0F : UInt8).toNat) = 2 ^ 4 - 1 := rfl
  simp only [nibbleOf]
  rw [UInt8.toNat_and, UInt8.toNat_ofNat', hmask, Nat.and_two_pow_sub_one_eq_mod]
  omega

theorem nibbleOf_lt (x eff : ℚ) : (nibbleOf x eff).toNat < 2 ^ 4 := by
  obtain ⟨hlow, hhigh⟩ := @clamp_mem (-8) 7 (by decide) (roundAway (x / eff))
  have hcode := nibbleOf_toNat x eff
  omega

theorem headOf_toNat (x eff : ℚ) : ((headOf x eff).toNat : ℤ) = clamp (-128) 127 (roundAway (x / eff)) + 128 := by
  obtain ⟨hlow, hhigh⟩ := @clamp_mem (-128) 127 (by decide) (roundAway (x / eff))
  simp only [headOf]
  rw [UInt8.toNat_ofNat']
  omega

theorem codeOf_toNat (x eff : ℚ) : ((codeOf x eff).toNat : ℤ) = clamp 0 7 (roundAway (x / eff + tq3HalfRange)) := by
  obtain ⟨hlow, hhigh⟩ := @clamp_mem 0 7 (by decide) (roundAway (x / eff + tq3HalfRange))
  unfold codeOf
  rw [UInt8.toNat_ofNat']
  omega

theorem codeOf_lt (x eff : ℚ) : (codeOf x eff).toNat < 2 ^ 3 := by
  obtain ⟨hlow, hhigh⟩ := @clamp_mem 0 7 (by decide) (roundAway (x / eff + tq3HalfRange))
  have hcode := codeOf_toNat x eff
  omega

/-- How a dimension is coded, and where. -/
inductive Coding where
  | head (d : Nat)
  | nibble (base i : Nat)
  | grid (codesOff limit corrOff i : Nat)

namespace Coding

/-- What is packed for a value: the code, and that the value is above the level of the code. -/
def code : Coding → ℚ → ℚ → Nat × Bool
  | head _, x, eff => ((headOf x eff).toNat, false)
  | nibble _ _, x, eff => ((nibbleOf x eff).toNat, false)
  | grid _ _ _ _, x, eff => ((codeOf x eff).toNat, isAbove x eff)

/-- What is read of it. -/
def read (lk : Latent) : Coding → Nat × Bool
  | head d => ((lk.byte d).toNat, false)
  | nibble base i => (lk.nibbleAt base i, false)
  | grid codesOff limit corrOff i => (lk.codeAt codesOff limit i, lk.corrAt corrOff i == 1)

/-- The level that is decoded, in steps. -/
def level : Coding → Nat × Bool → ℚ
  | head _, c => c.1 - 128
  | nibble _ _, c => c.1 - 8
  | grid _ _ _ _, c => c.1 - tq3HalfRange + (if c.2 then 1 else -1) * tq3Correction

/-- The values, in steps, that are within one step of a level. -/
def reach : Coding → ℚ × ℚ
  | head _ => (-129, 128)
  | nibble _ _ => (-9, 8)
  | grid _ _ _ _ => (-(tq3HalfRange + tq3Correction + 1), tq3HalfRange + tq3Correction + 1)

theorem reach_fst_nonpos (k : Coding) : k.reach.1 ≤ 0 := by cases k <;> norm_num [reach, tq3HalfRange, tq3Correction]

theorem reach_snd_nonneg (k : Coding) : 0 ≤ k.reach.2 := by cases k <;> norm_num [reach, tq3HalfRange, tq3Correction]

/-- The correction moves the level towards the value, by a quarter of a step. -/
theorem grid_within_iff (t : ℚ) {c : ℤ} (hc : c = clamp 0 7 (roundAway (t + 7 / 2))) :
    |(c - 7 / 2 + (if 0 < t - ((c : ℚ) - 7 / 2) then 1 else -1) * (1 / 4)) - t| ≤ 1 ↔ -(19 / 4) ≤ t ∧ t ≤ 19 / 4 := by
  obtain ⟨hbelow, habove⟩ := abs_le.mp (abs_roundAway_sub (t + 7 / 2))
  rw [abs_le]
  unfold clamp at hc
  rcases lt_or_ge (roundAway (t + 7 / 2)) 0 with hlow | hlow
  · have hcast : (roundAway (t + 7 / 2) : ℚ) + 1 ≤ 0 := by exact_mod_cast hlow
    rw [min_eq_right (by omega), max_eq_left (by omega)] at hc
    subst hc
    rw [if_neg (by push_cast; linarith)]
    push_cast
    constructor <;> rintro ⟨hl, hr⟩ <;> constructor <;> linarith
  · rcases lt_or_ge 7 (roundAway (t + 7 / 2)) with hhigh | hhigh
    · have hcast : (7 : ℚ) + 1 ≤ roundAway (t + 7 / 2) := by exact_mod_cast hhigh
      rw [min_eq_left (by omega), max_eq_right (by omega)] at hc
      subst hc
      rw [if_pos (by push_cast; linarith)]
      push_cast
      constructor <;> rintro ⟨hl, hr⟩ <;> constructor <;> linarith
    · have hcastLow : (0 : ℚ) ≤ roundAway (t + 7 / 2) := by exact_mod_cast hlow
      have hcastHigh : (roundAway (t + 7 / 2) : ℚ) ≤ 7 := by exact_mod_cast hhigh
      rw [min_eq_right hhigh, max_eq_right hlow] at hc
      subst hc
      split <;> constructor <;> rintro ⟨hl, hr⟩ <;> constructor <;> linarith

theorem level_code_within_iff (k : Coding) (x eff : ℚ) :
    |k.level (k.code x eff) - x / eff| ≤ 1 ↔ k.reach.1 ≤ x / eff ∧ x / eff ≤ k.reach.2 := by
  cases k with
  | head d =>
    have hcode : (((headOf x eff).toNat : ℤ) : ℚ) = clamp (-128) 127 (roundAway (x / eff)) + 128 := by
      rw [headOf_toNat]
      push_cast
      rfl
    have hclamp := @clamp_roundAway_iff (-128) 127 (by decide) (x / eff)
    norm_num at hcode hclamp
    simp only [level, code, reach, hcode, add_sub_cancel_right]
    exact hclamp
  | nibble base i =>
    have hcode : (((nibbleOf x eff).toNat : ℤ) : ℚ) = clamp (-8) 7 (roundAway (x / eff)) + 8 := by
      rw [nibbleOf_toNat]
      push_cast
      rfl
    have hclamp := @clamp_roundAway_iff (-8) 7 (by decide) (x / eff)
    norm_num at hcode hclamp
    simp only [level, code, reach, hcode, add_sub_cancel_right]
    exact hclamp
  | grid codesOff limit corrOff i =>
    have hgrid := grid_within_iff (x / eff) (codeOf_toNat x eff)
    simp only [level, code, reach, isAbove, tq3HalfRange, tq3Correction]
    norm_num at hgrid ⊢
    exact hgrid

end Coding

/-! ## Scales -/

theorem le_foldl_max (l : List ℚ) (m : ℚ) : m ≤ l.foldl max m ∧ ∀ u ∈ l, u ≤ l.foldl max m := by
  induction l generalizing m with
  | nil => simp
  | cons u l ih =>
    obtain ⟨hstart, hmem⟩ := ih (max m u)
    simp only [List.foldl_cons, List.mem_cons, forall_eq_or_imp]
    exact ⟨(le_max_left m u).trans hstart, (le_max_right m u).trans hstart, hmem⟩

theorem globalScale_pos (steps : List ℚ) : 0 < globalScale steps := by
  simp only [globalScale]
  split
  · assumption
  · exact one_pos

theorem step_le_globalScale (steps : List ℚ) (g : Nat) : steps[g]?.getD 0 ≤ globalScale steps := by
  cases hstep : steps[g]? with
  | none => exact (globalScale_pos steps).le
  | some u =>
    have hle := (le_foldl_max steps 0).2 u (List.mem_of_getElem? hstep)
    simp only [globalScale, Option.getD_some]
    split
    · exact hle
    · linarith

theorem stepByte_toNat {step largest : ℚ} (hlargest : 0 < largest) (hstep : step ≤ largest) :
    ((stepByte step largest).toNat : ℤ) = max 1 (roundAway (step / largest * 255)) := by
  have hratio : step / largest ≤ 1 := (div_le_one hlargest).mpr hstep
  have hround : roundAway (step / largest * 255) ≤ 255 := by
    rw [roundAway_le_iff (by decide)]
    push_cast
    linarith
  unfold stepByte clamp
  rw [UInt8.toNat_ofNat', min_eq_right hround]
  omega

/-- The scale byte is the smallest positive number that is more than the step less a half. -/
theorem stepByte_le_iff {step largest : ℚ} (hlargest : 0 < largest) (hstep : step ≤ largest) {n : Nat} (hn : 0 < n) :
    (stepByte step largest).toNat ≤ n ↔ step < largest * ((n + 1 / 2) / 255) := by
  have hbyte := stepByte_toNat hlargest hstep
  have hround := @roundAway_le_iff (step / largest * 255) n (by omega)
  have hscale : step / largest * 255 < (n : ℤ) + 1 / 2 ↔ step < largest * ((n + 1 / 2) / 255) := by
    rw [div_mul_eq_mul_div, div_lt_iff₀ hlargest]
    push_cast
    constructor <;> intro h <;> linarith
  rw [← hscale, ← hround]
  omega

theorem stepByte_pos {step largest : ℚ} (hlargest : 0 < largest) (hstep : step ≤ largest) :
    0 < (stepByte step largest).toNat := by
  have hbyte := stepByte_toNat hlargest hstep
  omega

/-- The value is in reach of every step that the section's scale byte may stand for. -/
def RoomFor (reach : ℚ × ℚ) (step largest x : ℚ) : Prop :=
  ∀ n : Nat, 0 < n → step < largest * ((n + 1 / 2) / 255) →
    reach.1 * (largest * (n / 255)) ≤ x ∧ x ≤ reach.2 * (largest * (n / 255))

theorem roomFor_iff {reach : ℚ × ℚ} (hlow : reach.1 ≤ 0) (hhigh : 0 ≤ reach.2) {step largest : ℚ}
    (hlargest : 0 < largest) (hstep : step ≤ largest) (x : ℚ) :
    RoomFor reach step largest x ↔ reach.1 * (largest * ((stepByte step largest).toNat / 255)) ≤ x ∧
      x ≤ reach.2 * (largest * ((stepByte step largest).toNat / 255)) := by
  constructor
  · intro hroom
    have hpos := stepByte_pos hlargest hstep
    exact hroom _ hpos ((stepByte_le_iff hlargest hstep hpos).mp le_rfl)
  · rintro ⟨hl, hr⟩ n hn hlt
    have hbyte : ((stepByte step largest).toNat : ℚ) ≤ n := by
      exact_mod_cast (stepByte_le_iff hlargest hstep hn).mpr hlt
    have hmono : largest * ((stepByte step largest).toNat / 255) ≤ largest * ((n : ℚ) / 255) := by gcongr
    exact ⟨(mul_le_mul_of_nonpos_left hmono hlow).trans hl, hr.trans (mul_le_mul_of_nonneg_left hmono hhigh)⟩

/-! ## The four codecs -/

inductive Codec where
  | grouped
  | tq3
  | mixed
  | mix3
deriving DecidableEq

namespace Codec

def flag : Codec → UInt16
  | grouped => 0
  | tq3 => flagTq3
  | mixed => flagMixed
  | mix3 => flagMix3

def quantize : Codec → Values → Quantized
  | grouped => quantizeLatentGrouped
  | tq3 => quantizeLatentTq3
  | mixed => quantizeLatentMixed
  | mix3 => quantizeLatentMix3

/-- How many dimensions are kept. -/
def kept : Codec → Nat
  | grouped => dC
  | tq3 => dC
  | mixed => mixedDims
  | mix3 => mixedDims

/-- The section of a kept dimension. -/
def sectionOf (c : Codec) (d : Nat) : Nat :=
  match c with
  | grouped => d / groupDim
  | tq3 => d / groupDim
  | mixed => if d < mixedHiDims then 0 else 1 + (d - mixedHiDims) / groupDim
  | mix3 => if d < mixedHiDims then 0 else 1 + (d - mixedHiDims) / groupDim

/-- The step of each section: its largest value over the range of its codes. -/
def steps : Codec → Values → List ℚ
  | grouped => groupSteps 7
  | tq3 => groupSteps tq3HalfRange
  | mixed => headedSteps 7
  | mix3 => headedSteps tq3HalfRange

def codingOf (c : Codec) (d : Nat) : Coding :=
  match c with
  | grouped => .nibble 0 d
  | tq3 => .grid 0 tq3CodeBytes tq3CodeBytes d
  | mixed => if d < mixedHiDims then .head d else .nibble mixedHiDims (d - mixedHiDims)
  | mix3 => if d < mixedHiDims then .head d else .grid mix3CodesOff mix3CorrOff mix3CorrOff (d - mixedHiDims)

/-- The tile of a quantized vector, with the flag of its codec. -/
def tile (c : Codec) (v : Values) (residual : Vector UInt64 residualWords) (lambda : ℚ) : ExactTile where
  latentKv := (c.quantize v).1
  residualBitmap := residual
  scale := (c.quantize v).2.1
  dynamicLambda := lambda
  flags := c.flag
  groupScales := (c.quantize v).2.2

/-- One effective step of a dimension. -/
def stepAt (c : Codec) (v : Values) (d : Nat) : ℚ :=
  effective (c.quantize v).2.1 (c.quantize v).2.2 (c.sectionOf d)

/-- The tile decodes to the vector within a step, from the codes that were packed. -/
structure Reconstructs (c : Codec) (v : Values) (residual : Vector UInt64 residualWords) (lambda : ℚ) : Prop where
  within : ∀ d < c.kept, |(c.tile v residual lambda).dequantAt d - v.at d| ≤ c.stepAt v d
  codes : ∀ d < c.kept, (c.codingOf d).read (c.quantize v).1 = (c.codingOf d).code (v.at d) (c.stepAt v d)
  tail : ∀ d, c.kept ≤ d → d < dC → (c.tile v residual lambda).dequantAt d = 0

end Codec

namespace Codec

variable {c : Codec} {d : Nat}

theorem quantize_scale (c : Codec) (v : Values) : (c.quantize v).2.1 = globalScale (c.steps v) := by cases c <;> rfl

theorem quantize_scaleBytes (c : Codec) (v : Values) :
    (c.quantize v).2.2 = scaleBytes (c.steps v) (globalScale (c.steps v)) := by cases c <;> rfl

theorem sectionOf_lt (hd : d < c.kept) : c.sectionOf d < nGroups := by
  have hgroup : d < dC → d / groupDim < nGroups := by
    intro h
    simp only [dC, groupDim, nGroups] at h ⊢
    omega
  have hheaded : d < mixedDims → (if d < mixedHiDims then 0 else 1 + (d - mixedHiDims) / groupDim) < nGroups := by
    intro h
    by_cases hhead : d < mixedHiDims
    · rw [if_pos hhead]
      decide
    · rw [if_neg hhead]
      simp only [mixedDims, mixedLoDims, latentBytes, mixedHiDims, groupDim, dC, nGroups] at h ⊢
      omega
  cases c with
  | grouped => exact hgroup hd
  | tq3 => exact hgroup hd
  | mixed => exact hheaded hd
  | mix3 => exact hheaded hd

theorem stepAt_eq (v : Values) (hd : d < c.kept) :
    c.stepAt v d = globalScale (c.steps v) *
      ((stepByte ((c.steps v)[c.sectionOf d]?.getD 0) (globalScale (c.steps v))).toNat / 255) := by
  unfold stepAt effective
  rw [quantize_scale, quantize_scaleBytes]
  simp [scaleBytes, sectionOf_lt hd]

theorem stepAt_pos (v : Values) (hd : d < c.kept) : 0 < c.stepAt v d := by
  have hlargest := globalScale_pos (c.steps v)
  have hbyte := stepByte_pos hlargest (step_le_globalScale (c.steps v) (c.sectionOf d))
  rw [stepAt_eq v hd]
  positivity

/-! ### The codes come back -/

theorem corrAt_beq {lk : Latent} {off i : Nat} {above : Bool}
    (h : field lk.byte (8 * off + i) 1 = if above then 1 else 0) : (lk.corrAt off i == 1) = above := by
  rw [Latent.corrAt_eq, h]
  cases above <;> rfl

/-- A kept dimension is in the head or in the body. -/
theorem head_or_body (hd : d < mixedDims) : d < mixedHiDims ∨ ∃ ld < mixedLoDims, d = mixedHiDims + ld := by
  by_cases hhead : d < mixedHiDims
  · exact .inl hhead
  · unfold mixedDims at hd
    exact .inr ⟨d - mixedHiDims, by omega, by omega⟩

theorem head_clear (code : Nat → UInt8) (first size : Nat) (hfirst : 8 * mixedHiDims ≤ first) :
    field (Latent.zero.packHead code).byte first size = 0 := by
  rw [Latent.packHead_fields.2 first size hfirst, Latent.field_zero]

theorem quantize_grouped (v : Values) : (quantize grouped v).1 =
    Latent.zero.packNibbles 0 dC fun d => nibbleOf (v.at d) (stepAt grouped v d) := by
  simp only [quantize, quantizeLatentGrouped, stepAt, sectionOf]

theorem quantize_tq3 (v : Values) : (quantize tq3 v).1 =
    Latent.zero.packCodes 0 tq3CodeBytes dC (fun d => codeOf (v.at d) (stepAt tq3 v d))
      fun d => isAbove (v.at d) (stepAt tq3 v d) := by
  simp only [quantize, quantizeLatentTq3, stepAt, sectionOf]

/-- The step of the body at an offset. -/
def bodyStep (c : Codec) (v : Values) (ld : Nat) : ℚ :=
  effective (c.quantize v).2.1 (c.quantize v).2.2 (1 + ld / groupDim)

theorem quantize_mixed (v : Values) : (quantize mixed v).1 =
    (Latent.zero.packHead fun d => headOf (v.at d) (stepAt mixed v 0)).packNibbles mixedHiDims mixedLoDims
      fun ld => nibbleOf (v.at (mixedHiDims + ld)) (bodyStep mixed v ld) := by
  simp [quantize, quantizeLatentMixed, stepAt, sectionOf, bodyStep, mixedHiDims]

theorem quantize_mix3 (v : Values) : (quantize mix3 v).1 =
    (Latent.zero.packHead fun d => headOf (v.at d) (stepAt mix3 v 0)).packCodes mix3CodesOff mix3CorrOff mixedLoDims
      (fun ld => codeOf (v.at (mixedHiDims + ld)) (bodyStep mix3 v ld))
      fun ld => isAbove (v.at (mixedHiDims + ld)) (bodyStep mix3 v ld) := by
  simp [quantize, quantizeLatentMix3, stepAt, sectionOf, bodyStep, mixedHiDims]

theorem reads_back_grouped (v : Values) (hd : d < dC) :
    (codingOf grouped d).read (quantize grouped v).1 = (codingOf grouped d).code (v.at d) (stepAt grouped v d) := by
  have hnibble := (@Latent.packNibbles_fields Latent.zero 0 dC
    (fun d => nibbleOf (v.at d) (stepAt grouped v d)) (by decide) fun _ _ => nibbleOf_lt _ _).1 d hd
  simp only [codingOf, Coding.read, Coding.code, quantize_grouped, Latent.nibbleAt_eq, hnibble]

theorem reads_back_tq3 (v : Values) (hd : d < dC) :
    (codingOf tq3 d).read (quantize tq3 v).1 = (codingOf tq3 d).code (v.at d) (stepAt tq3 v d) := by
  obtain ⟨hcodes, hcorrs, -⟩ := @Latent.packCodes_fields Latent.zero 0 tq3CodeBytes dC
    (fun d => codeOf (v.at d) (stepAt tq3 v d)) (fun d => isAbove (v.at d) (stepAt tq3 v d)) (by decide) (by decide)
    (fun _ _ => codeOf_lt _ _) fun _ _ _ => Latent.field_zero _ _
  simp only [codingOf, Coding.read, Coding.code, quantize_tq3, Latent.codeAt_eq (Latent.tq3_span hd), hcodes d hd,
    corrAt_beq (hcorrs d hd)]

theorem reads_back_mixed (v : Values) (hd : d < mixedDims) :
    (codingOf mixed d).read (quantize mixed v).1 = (codingOf mixed d).code (v.at d) (stepAt mixed v d) := by
  obtain ⟨hnibbles, hframe⟩ := @Latent.packNibbles_fields
    (Latent.zero.packHead fun d => headOf (v.at d) (stepAt mixed v 0)) mixedHiDims mixedLoDims
    (fun ld => nibbleOf (v.at (mixedHiDims + ld)) (bodyStep mixed v ld)) (by decide) fun _ _ => nibbleOf_lt _ _
  rw [← quantize_mixed] at hnibbles hframe
  rcases head_or_body hd with hhead | ⟨ld, hld, rfl⟩
  · have hbyte := hframe (8 * d) 8 (.inl (by omega))
    rw [Latent.packHead_fields.1 d hhead, ← Latent.toNat_byte_eq] at hbyte
    simp only [codingOf, if_pos hhead, Coding.read, Coding.code, hbyte, stepAt, sectionOf,
      if_pos (show 0 < mixedHiDims by decide)]
  · have hnibble := hnibbles ld hld
    rw [← Latent.nibbleAt_eq] at hnibble
    simp only [codingOf, if_neg (ExactTile.not_head_of_body ld), Nat.add_sub_cancel_left, Coding.read, Coding.code,
      hnibble, stepAt, sectionOf, bodyStep]

theorem reads_back_mix3 (v : Values) (hd : d < mixedDims) :
    (codingOf mix3 d).read (quantize mix3 v).1 = (codingOf mix3 d).code (v.at d) (stepAt mix3 v d) := by
  obtain ⟨hcodes, hcorrs, hframe⟩ := @Latent.packCodes_fields
    (Latent.zero.packHead fun d => headOf (v.at d) (stepAt mix3 v 0)) mix3CodesOff mix3CorrOff mixedLoDims
    (fun ld => codeOf (v.at (mixedHiDims + ld)) (bodyStep mix3 v ld))
    (fun ld => isAbove (v.at (mixedHiDims + ld)) (bodyStep mix3 v ld))
    (by decide) (by decide) (fun _ _ => codeOf_lt _ _) (head_clear _)
  rw [← quantize_mix3] at hcodes hcorrs hframe
  rcases head_or_body hd with hhead | ⟨ld, hld, rfl⟩
  · have hbyte := hframe (8 * d) 8 (.inl (by simp only [mix3CodesOff]; omega))
    rw [Latent.packHead_fields.1 d hhead, ← Latent.toNat_byte_eq] at hbyte
    simp only [codingOf, if_pos hhead, Coding.read, Coding.code, hbyte, stepAt, sectionOf,
      if_pos (show 0 < mixedHiDims by decide)]
  · have hcode := hcodes ld hld
    rw [← Latent.codeAt_eq (Latent.mix3_span hld)] at hcode
    simp only [codingOf, if_neg (ExactTile.not_head_of_body ld), Nat.add_sub_cancel_left, Coding.read, Coding.code,
      hcode, corrAt_beq (hcorrs ld hld), stepAt, sectionOf, bodyStep]

theorem reads_back (c : Codec) (v : Values) (hd : d < c.kept) :
    (c.codingOf d).read (c.quantize v).1 = (c.codingOf d).code (v.at d) (c.stepAt v d) := by
  cases c with
  | grouped => exact reads_back_grouped v hd
  | tq3 => exact reads_back_tq3 v hd
  | mixed => exact reads_back_mixed v hd
  | mix3 => exact reads_back_mix3 v hd

/-! ### Decoding -/

variable (v : Values) (residual : Vector UInt64 residualWords) (lambda : ℚ)

theorem isMixed_tile (c : Codec) : (c.tile v residual lambda).isMixed = decide (c = mixed) := by
  have hflag : (c.flag &&& flagMixed != 0) = decide (c = mixed) := by cases c <;> decide
  exact hflag

theorem isTq3_tile (c : Codec) : (c.tile v residual lambda).isTq3 = decide (c = tq3) := by
  have hflag : (c.flag &&& flagTq3 != 0) = decide (c = tq3) := by cases c <;> decide
  exact hflag

theorem isMix3_tile (c : Codec) : (c.tile v residual lambda).isMix3 = decide (c = mix3) := by
  have hflag : (c.flag &&& flagMix3 != 0) = decide (c = mix3) := by cases c <;> decide
  exact hflag

theorem isNf4_tile (c : Codec) : (c.tile v residual lambda).isNf4 = false := by
  have hflag : (c.flag &&& flagNf4 != 0) = false := by cases c <;> decide
  exact hflag

theorem isTq3Nocorr_tile (c : Codec) : (c.tile v residual lambda).isTq3Nocorr = false := by
  have hflag : (c.flag &&& flagTq3Nocorr != 0) = false := by cases c <;> decide
  exact hflag

theorem gridLevel_eq (c : Codec) (codesOff limit corrOff i : Nat) :
    (c.tile v residual lambda).gridLevel codesOff limit corrOff i =
      (Coding.grid codesOff limit corrOff i).level ((Coding.grid codesOff limit corrOff i).read (c.quantize v).1) := by
  rw [ExactTile.gridLevel, isTq3Nocorr_tile]
  simp only [Coding.level, Coding.read, beq_iff_eq, Bool.false_eq_true, if_false]
  rfl

theorem dequantAt_tq3 (d : Nat) :
    (tile tq3 v residual lambda).dequantAt d = (tile tq3 v residual lambda).dequantAtTq3 d := by
  simp [ExactTile.dequantAt, isMixed_tile, isTq3_tile]

theorem dequantAt_mixed (d : Nat) :
    (tile mixed v residual lambda).dequantAt d = (tile mixed v residual lambda).dequantAtMixed d := by
  simp [ExactTile.dequantAt, isMixed_tile]

theorem dequantAt_mix3 (d : Nat) :
    (tile mix3 v residual lambda).dequantAt d = (tile mix3 v residual lambda).dequantAtMix3 d := by
  simp [ExactTile.dequantAt, isMixed_tile, isTq3_tile, isMix3_tile]

theorem dequantAt_eq (c : Codec) (hd : d < c.kept) :
    (c.tile v residual lambda).dequantAt d =
      (c.codingOf d).level ((c.codingOf d).read (c.quantize v).1) * c.stepAt v d := by
  cases c with
  | grouped =>
    unfold ExactTile.dequantAt
    rw [isMixed_tile, isTq3_tile, isMix3_tile, isNf4_tile]
    rfl
  | tq3 =>
    rw [dequantAt_tq3, ExactTile.dequantAtTq3, gridLevel_eq]
    rfl
  | mixed =>
    rw [dequantAt_mixed]
    rcases head_or_body hd with hhead | ⟨ld, hld, rfl⟩
    · rw [ExactTile.dequantAtMixed_head hhead]
      simp only [codingOf, stepAt, sectionOf, if_pos hhead]
      rfl
    · rw [ExactTile.dequantAtMixed_body hld]
      simp only [codingOf, stepAt, sectionOf, if_neg (ExactTile.not_head_of_body ld), Nat.add_sub_cancel_left]
      rfl
  | mix3 =>
    rw [dequantAt_mix3]
    rcases head_or_body hd with hhead | ⟨ld, hld, rfl⟩
    · rw [ExactTile.dequantAtMix3_head hhead]
      simp only [codingOf, stepAt, sectionOf, if_pos hhead]
      rfl
    · rw [ExactTile.dequantAtMix3_body hld, gridLevel_eq]
      simp only [codingOf, stepAt, sectionOf, if_neg (ExactTile.not_head_of_body ld), Nat.add_sub_cancel_left]
      rfl

theorem tail_eq_zero (c : Codec) (hlow : c.kept ≤ d) (hhigh : d < dC) :
    (c.tile v residual lambda).dequantAt d = 0 := by
  cases c with
  | grouped => exact absurd hhigh (Nat.not_lt.mpr hlow)
  | tq3 => exact absurd hhigh (Nat.not_lt.mpr hlow)
  | mixed => rw [dequantAt_mixed, ExactTile.dequantAtMixed_tail hlow]
  | mix3 => rw [dequantAt_mix3, ExactTile.dequantAtMix3_tail hlow]

theorem within_iff (c : Codec) (hd : d < c.kept) :
    |(c.tile v residual lambda).dequantAt d - v.at d| ≤ c.stepAt v d ↔
      RoomFor (c.codingOf d).reach ((c.steps v)[c.sectionOf d]?.getD 0) (globalScale (c.steps v)) (v.at d) := by
  have hstep := stepAt_pos v hd
  have hsplit : (c.tile v residual lambda).dequantAt d - v.at d =
      ((c.codingOf d).level ((c.codingOf d).code (v.at d) (c.stepAt v d)) - v.at d / c.stepAt v d) * c.stepAt v d := by
    rw [dequantAt_eq v residual lambda c hd, reads_back c v hd, sub_mul, div_mul_cancel₀ _ hstep.ne']
  rw [hsplit, abs_mul, abs_of_pos hstep, mul_le_iff_le_one_left hstep, Coding.level_code_within_iff,
    le_div_iff₀ hstep, div_le_iff₀ hstep, stepAt_eq v hd,
    roomFor_iff (Coding.reach_fst_nonpos _) (Coding.reach_snd_nonneg _) (globalScale_pos _) (step_le_globalScale _ _)]

theorem reconstructs_iff (c : Codec) (v : Values) (residual : Vector UInt64 residualWords) (lambda : ℚ) :
    c.Reconstructs v residual lambda ↔ ∀ d < c.kept,
      RoomFor (c.codingOf d).reach ((c.steps v)[c.sectionOf d]?.getD 0) (globalScale (c.steps v)) (v.at d) := by
  constructor
  · intro h d hd
    exact (within_iff v residual lambda c hd).mp (h.within d hd)
  · intro h
    exact ⟨fun d hd => (within_iff v residual lambda c hd).mpr (h d hd), fun d hd => reads_back c v hd,
      fun d => tail_eq_zero v residual lambda c⟩

/-- A section of tens next to one of thousands: its scale byte is rounded down to one, and ten steps are clamped to
seven. -/
def Sample.uneven : Values := Vector.ofFn fun d => if d.val = 0 then 1785 else if d.val = 16 then 10 else 0

theorem Sample.small_section_clamps :
    ¬ ∀ (c : Codec) (v : Values) (residual : Vector UInt64 residualWords) (lambda : ℚ),
      c.Reconstructs v residual lambda := by
  intro h
  have hwithin := (h grouped Sample.uneven (Vector.replicate residualWords 0) 0).within 16 (by decide)
  revert hwithin
  decide +kernel

end Codec

end Ccos.Kv
