import Ccos.Lib.BitFields
import Mathlib.Algebra.BigOperators.Fin
import Mathlib.Algebra.BigOperators.Intervals
import Mathlib.Algebra.BigOperators.Ring.Finset
import Mathlib.Algebra.Ring.Pi
import Mathlib.Data.Nat.Cast.Basic
import Mathlib.Data.Int.Cast.Basic

/-!
# Lanes of vector registers

A register is a function of its lanes, and memory one of its addresses. An instruction has its name, without the
underscores, and does to each lane what its manual says. Floats are exact.
-/

namespace Lanes

open BitFields

/-! ## Bytes -/

/-- Sixteen bytes. -/
abbrev M128i := Fin 16 → UInt8

/-- The byte at a position, zero from the end on. -/
def M128i.byte (a : M128i) (i : Nat) : UInt8 := if h : i < 16 then a ⟨i, h⟩ else 0

def mmLoadlEpi64 (mem : Nat → UInt8) (p : Nat) : M128i := fun i => if i.val < 8 then mem (p + i) else 0

def mmSet1Epi8 (b : UInt8) : M128i := fun _ => b

def mmAndSi128 (a b : M128i) : M128i := fun i => a i &&& b i

/-- Two bytes make up a lane. -/
def mmSrliEpi16 (a : M128i) (n : Nat) : M128i := fun i =>
  let lane := window a.byte (2 * (i.val / 2)) 2 >>> n
  UInt8.ofNat (if i.val % 2 = 0 then lane else lane >>> 8)

def mmSrliSi128 (a : M128i) (n : Nat) : M128i := fun i => a.byte (i + n)

def mmUnpackloEpi8 (a b : M128i) : M128i := fun i => if i.val % 2 = 0 then a.byte (i / 2) else b.byte (i / 2)

/-! ## Words -/

/-- Eight words of 32 bits. -/
abbrev M256i := Fin 8 → UInt32

def mm256Cvtepu8Epi32 (a : M128i) : M256i := fun l => (a.byte l).toUInt32

def mm256Set1Epi32 (x : UInt32) : M256i := fun _ => x

def mm256SetrEpi32 (x : Vector UInt32 8) : M256i := fun l => x.get l

def mm256AndSi256 (a b : M256i) : M256i := fun l => a l &&& b l

def mm256SrlvEpi32 (a count : M256i) : M256i := fun l => if count l < 32 then a l >>> count l else 0

/-- The words are signed here. -/
def mm256CmpgtEpi32 (a b : M256i) : M256i := fun l =>
  if (b l).toBitVec.toInt < (a l).toBitVec.toInt then 0xFFFFFFFF else 0

/-! ## Floats -/

/-- Eight floats. Sums, differences and products of them go lane by lane. -/
abbrev M256 (R : Type) := Fin 8 → R

section

variable {R : Type}

/-- The words are signed here too. -/
def mm256Cvtepi32Ps [IntCast R] (a : M256i) : M256 R := fun l => ((a l).toBitVec.toInt : R)

def mm256Set1Ps (x : R) : M256 R := fun _ => x

def mm256LoaduPs (mem : Nat → R) (p : Nat) : M256 R := fun l => mem (p + l)

def mm256Permutevar8x32Ps (a : M256 R) (index : M256i) : M256 R := fun l =>
  a ⟨(index l).toNat % 8, Nat.mod_lt _ (by decide)⟩

/-- The sign bit of the mask picks. -/
def mm256BlendvPs (a b : M256 R) (mask : M256i) : M256 R := fun l => if 2 ^ 31 ≤ (mask l).toNat then b l else a l

/-- The lanes are stored and summed up. -/
def sumPs [Zero R] [Add R] (a : M256 R) : R := (List.ofFn a).sum

end

/-! ## Fields in lanes -/

theorem byte_eq {a : M128i} {i : Nat} (hi : i < 16) : a.byte i = a ⟨i, hi⟩ := by
  unfold M128i.byte
  rw [dif_pos hi]

theorem byte_load {mem : Nat → UInt8} {p i : Nat} (hi : i < 8) : (mmLoadlEpi64 mem p).byte i = mem (p + i) := by
  rw [byte_eq (by omega)]
  simp [mmLoadlEpi64, hi]

/-- The high nibble of a byte, by a shift of the lane that holds it. -/
theorem high_nibble (a : M128i) {k : Nat} (hk : k < 16) :
    (mmAndSi128 (mmSrliEpi16 a 4) (mmSet1Epi8 0x0F)).byte k = UInt8.ofNat (field a.byte (8 * k + 4) 4) := by
  have hmask : (UInt8.toNat 0x0F) = 2 ^ 4 - 1 := rfl
  have hfield := field_lt a.byte (8 * k + 4) 4
  rw [byte_eq hk]
  apply UInt8.toNat_inj.mp
  simp only [mmAndSi128, mmSet1Epi8, mmSrliEpi16]
  rw [UInt8.toNat_and, UInt8.toNat_ofNat', UInt8.toNat_ofNat', hmask, Nat.and_two_pow_sub_one_eq_mod]
  by_cases hparity : k % 2 = 0
  · have hwindow := @window_field a.byte (2 * (k / 2)) 2 4 4 (by decide)
    rw [show 8 * (2 * (k / 2)) + 4 = 8 * k + 4 by omega] at hwindow
    rw [if_pos hparity, ← hwindow]
    omega
  · have hwindow := @window_field a.byte (2 * (k / 2)) 2 12 4 (by decide)
    rw [show 8 * (2 * (k / 2)) + 12 = 8 * k + 4 by omega] at hwindow
    rw [if_neg hparity, ← Nat.shiftRight_add, ← hwindow]
    omega

/-- The nibbles of eight bytes, interleaved in order. -/
def denibble (packed : M128i) : M128i :=
  mmUnpackloEpi8 (mmAndSi128 packed (mmSet1Epi8 0x0F)) (mmAndSi128 (mmSrliEpi16 packed 4) (mmSet1Epi8 0x0F))

theorem byte_denibble {mem : Nat → UInt8} {p i : Nat} (hi : i < 16) :
    ((denibble (mmLoadlEpi64 mem p)).byte i).toNat = field mem (8 * p + 4 * i) 4 := by
  have hmask : (UInt8.toNat 0x0F) = 2 ^ 4 - 1 := rfl
  have hbyte := @byte_load mem p (i / 2) (by omega)
  rw [byte_eq hi]
  simp only [denibble, mmUnpackloEpi8]
  by_cases hparity : i % 2 = 0
  · have hlow := @byte_field mem (p + i / 2) 0 4 (by decide)
    rw [show 8 * (p + i / 2) + 0 = 8 * p + 4 * i by omega, Nat.shiftRight_zero] at hlow
    rw [if_pos hparity, ← hlow, ← hbyte, byte_eq (by omega), byte_eq (by omega)]
    simp only [mmAndSi128, mmSet1Epi8]
    rw [UInt8.toNat_and, hmask, Nat.and_two_pow_sub_one_eq_mod]
  · have hhigh := @byte_field mem (p + i / 2) 4 4 (by decide)
    have hhigh' := @byte_field (mmLoadlEpi64 mem p).byte (i / 2) 4 4 (by decide)
    rw [hbyte, hhigh, show 8 * (p + i / 2) + 4 = 8 * p + 4 * i by omega] at hhigh'
    have hlt := field_lt mem (8 * p + 4 * i) 4
    rw [if_neg hparity, high_nibble _ (by omega), ← hhigh', UInt8.toNat_ofNat']
    omega

theorem byte_srli {a : M128i} {n l : Nat} (hl : l < 16) : (mmSrliSi128 a n).byte l = a.byte (l + n) := byte_eq hl

/-- A field of a broadcast window, by a shift of its own for each lane. -/
theorem srlv_and_field {mem : Nat → UInt8} {x : UInt32} {counts : M256i} {p n width : Nat} {mask : UInt32} {l : Fin 8}
    (hx : x.toNat = window mem p n) (hmask : mask.toNat = 2 ^ width - 1) (hcount : (counts l).toNat + width ≤ 8 * n)
    (hn : n ≤ 4) (hwidth : 0 < width) :
    (mm256AndSi256 (mm256SrlvEpi32 (mm256Set1Epi32 x) counts) (mm256Set1Epi32 mask) l).toNat =
      field mem (8 * p + (counts l).toNat) width := by
  have hlt : (counts l).toNat < 32 := by omega
  have hlt' : counts l < 32 := UInt32.lt_iff_toNat_lt.mpr hlt
  simp only [mm256AndSi256, mm256SrlvEpi32, mm256Set1Epi32, if_pos hlt']
  rw [UInt32.toNat_and, UInt32.toNat_shiftRight, Nat.mod_eq_of_lt hlt, hmask, Nat.and_two_pow_sub_one_eq_mod, hx,
    window_field hcount]

/-- A small word is not negative. -/
theorem cvtepi32_of_lt {R : Type} [Ring R] {a : M256i} {l : Fin 8} (h : (a l).toNat < 2 ^ 31) :
    (mm256Cvtepi32Ps a l : R) = ((a l).toNat : R) := by
  unfold mm256Cvtepi32Ps
  rw [BitVec.toInt_eq_toNat_of_lt (by rw [UInt32.toNat_toBitVec]; omega), UInt32.toNat_toBitVec, Int.cast_natCast]

theorem cvtepi32_cvtepu8 {R : Type} [Ring R] (a : M128i) (l : Fin 8) :
    (mm256Cvtepi32Ps (mm256Cvtepu8Epi32 a) l : R) = ((a.byte l).toNat : R) := by
  have hbyte := (a.byte l).toNat_lt
  rw [cvtepi32_of_lt]
  · simp [mm256Cvtepu8Epi32]
  · simp only [mm256Cvtepu8Epi32, UInt8.toNat_toUInt32]
    omega

/-- A table of sixteen entries, in two registers of eight. -/
theorem blend_halves {R : Type} {table : Nat → R} {index : M256i} {l : Fin 8} (h : (index l).toNat < 16) :
    mm256BlendvPs (mm256Permutevar8x32Ps (mm256LoaduPs table 0) index)
      (mm256Permutevar8x32Ps (mm256LoaduPs table 8) index) (mm256CmpgtEpi32 index (mm256Set1Epi32 7)) l =
      table (index l).toNat := by
  have hsigned : (index l).toBitVec.toInt = ((index l).toNat : Int) := by
    rw [BitVec.toInt_eq_toNat_of_lt (by rw [UInt32.toNat_toBitVec]; omega), UInt32.toNat_toBitVec]
  have hseven : (7 : UInt32).toBitVec.toInt = 7 := rfl
  simp only [mm256BlendvPs, mm256Permutevar8x32Ps, mm256LoaduPs, mm256CmpgtEpi32, mm256Set1Epi32, hsigned, hseven]
  by_cases hhigh : 7 < (index l).toNat
  · rw [if_pos (show (7 : Int) < (index l).toNat by omega), if_pos (by decide),
      show 8 + (index l).toNat % 8 = (index l).toNat by omega]
  · rw [if_neg (show ¬ (7 : Int) < (index l).toNat by omega), if_neg (by decide), Nat.zero_add,
      Nat.mod_eq_of_lt (by omega)]

/-! ## Accumulating blocks -/

section

variable {R : Type} [CommRing R] {f : Nat → R} {acc : M256 R} {k : Nat}

/-- The lanes sum up to the first `k` terms. -/
def Gathered (f : Nat → R) (k : Nat) (acc : M256 R) : Prop := ∑ l, acc l = ∑ d ∈ Finset.range k, f d

theorem gathered_zero (f : Nat → R) : Gathered f 0 (mm256Set1Ps 0) := by simp [Gathered, mm256Set1Ps]

theorem Gathered.add_block {block : M256 R} (h : Gathered f k acc) (hblock : ∀ l, block l = f (k + l)) :
    Gathered f (k + 8) (acc + block) := by
  unfold Gathered at h ⊢
  rw [Finset.sum_range_add, ← h, Finset.sum_range fun l => f (k + l), ← Finset.sum_add_distrib]
  apply Finset.sum_congr rfl
  intro l _
  rw [Pi.add_apply, hblock]

theorem gathered_block {block : M256 R} (hblock : ∀ l : Fin 8, block l = f l) : Gathered f 8 block := by
  unfold Gathered
  rw [Finset.sum_range]
  exact Finset.sum_congr rfl fun l _ => hblock l

theorem Gathered.foldl {step : M256 R → Nat → M256 R} {off : Nat → Nat} {n : Nat} (h : Gathered f (off 0) acc)
    (hstep : ∀ b < n, ∀ acc, Gathered f (off b) acc → Gathered f (off (b + 1)) (step acc b)) :
    Gathered f (off n) ((List.range n).foldl step acc) := by
  induction n with
  | zero => simpa using h
  | succ n ih =>
    rw [List.range_succ, List.foldl_append]
    exact hstep n (Nat.lt_succ_self n) _ (ih fun b hb => hstep b (by omega))

theorem Gathered.sumPs (h : Gathered f k acc) : sumPs acc = ∑ d ∈ Finset.range k, f d := by
  rw [Lanes.sumPs, List.sum_ofFn]
  exact h

end

end Lanes
