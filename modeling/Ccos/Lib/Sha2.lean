import Mathlib.Analysis.SpecialFunctions.Pow.Real
import Mathlib.Data.Nat.Nth
import Ccos.Lib.ByteCodec

/-!
# The standard hash function

SHA-256 on byte strings, as FIPS 180-4 has it. The constants are the first fraction bits of roots of primes.
-/

namespace Sha2

open ByteCodec

abbrev Word := BitVec 32

/-! ## Functions on words -/

def rotr (n : Nat) (x : Word) : Word := x >>> n ||| x <<< (32 - n)

def ch (x y z : Word) : Word := (x &&& y) ^^^ (~~~x &&& z)
def maj (x y z : Word) : Word := (x &&& y) ^^^ (x &&& z) ^^^ (y &&& z)
def bigSigma0 (x : Word) : Word := rotr 2 x ^^^ rotr 13 x ^^^ rotr 22 x
def bigSigma1 (x : Word) : Word := rotr 6 x ^^^ rotr 11 x ^^^ rotr 25 x
def sigma0 (x : Word) : Word := rotr 7 x ^^^ rotr 18 x ^^^ x >>> 3
def sigma1 (x : Word) : Word := rotr 17 x ^^^ rotr 19 x ^^^ x >>> 10

/-! ## Constants -/

/-- The first 32 bits of the fraction of the `k`-th root. -/
noncomputable def rootBits (k p : Nat) : Word :=
  BitVec.ofNat 32 ⌊((2 ^ 32 : Nat) : ℝ) * Int.fract ((p : ℝ) ^ (k : ℝ)⁻¹)⌋₊

noncomputable def initialWord (j : Nat) : Word := rootBits 2 (Nat.nth Nat.Prime j)
noncomputable def roundConstant (t : Nat) : Word := rootBits 3 (Nat.nth Nat.Prime t)

/-! ## Padding and parsing -/

/-- Big-endian. -/
def beOf (width n : Nat) : Bytes := (leOf width n).reverse

def beTo (b : Bytes) : Nat := leTo b.reverse

/-- The least number of zero bytes that leaves room for the length only. -/
noncomputable def zeroBytes (l : Nat) : Nat := sInf {z | (l + 1 + z) % 64 = 56}

noncomputable def padded (m : Bytes) : Bytes :=
  m ++ [0x80] ++ List.replicate (zeroBytes m.length) 0 ++ beOf 8 (8 * m.length)

/-- Consecutive pieces of length `n`, without what is left at the end. -/
def chunksExact {α : Type} (n : Nat) (l : List α) : List (List α) :=
  (List.range (l.length / n)).map fun i => (l.drop (n * i)).take n

def wordAt (block : Bytes) (t : Nat) : Word := BitVec.ofNat 32 (beTo ((block.drop (4 * t)).take 4))

/-! ## Computation -/

def schedule (m : Nat → Word) (t : Nat) : Word :=
  if t < 16 then m t
  else sigma1 (schedule m (t - 2)) + schedule m (t - 7) + sigma0 (schedule m (t - 15)) + schedule m (t - 16)
termination_by t

structure Working where
  a : Word
  b : Word
  c : Word
  d : Word
  e : Word
  f : Word
  g : Word
  h : Word

def Working.next (k w : Word) (v : Working) : Working :=
  let t1 := v.h + bigSigma1 v.e + ch v.e v.f v.g + k + w
  let t2 := bigSigma0 v.a + maj v.a v.b v.c
  ⟨t1 + t2, v.a, v.b, v.c, v.d + t1, v.e, v.f, v.g⟩

def rounds (k w : Nat → Word) (v : Working) : Nat → Working
  | 0 => v
  | t + 1 => (rounds k w v t).next (k t) (w t)

def Working.add (v w : Working) : Working :=
  ⟨v.a + w.a, v.b + w.b, v.c + w.c, v.d + w.d, v.e + w.e, v.f + w.f, v.g + w.g, v.h + w.h⟩

noncomputable def compress (v : Working) (block : Bytes) : Working :=
  (rounds roundConstant (schedule (wordAt block)) v 64).add v

noncomputable def initialValue : Working :=
  ⟨initialWord 0, initialWord 1, initialWord 2, initialWord 3, initialWord 4, initialWord 5, initialWord 6,
    initialWord 7⟩

def Working.words (v : Working) : List Word := [v.a, v.b, v.c, v.d, v.e, v.f, v.g, v.h]

noncomputable def sha256 (m : Bytes) : Bytes :=
  ((chunksExact 64 (padded m)).foldl compress initialValue).words.flatMap fun w => beOf 4 w.toNat

/-! ## The constants in figures -/

/-- The root in units of `2⁻³²` is enclosed by integers. -/
theorem rootBits_eq {k p n : Nat} (hk : k ≠ 0) (hlo : n ^ k ≤ p * (2 ^ 32) ^ k)
    (hhi : p * (2 ^ 32) ^ k < (n + 1) ^ k) : rootBits k p = BitVec.ofNat 32 n := by
  have hx0 : (0 : ℝ) ≤ (p : ℝ) ^ (k : ℝ)⁻¹ := Real.rpow_nonneg (Nat.cast_nonneg p) _
  have hpow : ((p : ℝ) ^ (k : ℝ)⁻¹) ^ k = p := Real.rpow_inv_natCast_pow (Nat.cast_nonneg p) hk
  generalize hx : (p : ℝ) ^ (k : ℝ)⁻¹ = x at hx0 hpow
  have hscaled : (2 ^ 32 * x) ^ k = ((p * (2 ^ 32) ^ k : Nat) : ℝ) := by
    rw [mul_pow, hpow]
    push_cast
    ring
  have hy0 : 0 ≤ 2 ^ 32 * x := by positivity
  have hle : (n : ℝ) ≤ 2 ^ 32 * x := by
    apply (pow_le_pow_iff_left₀ (Nat.cast_nonneg n) hy0 hk).mp
    rw [hscaled]
    exact_mod_cast hlo
  have hlt : 2 ^ 32 * x < n + 1 := by
    apply (pow_lt_pow_iff_left₀ hy0 (by positivity) hk).mp
    rw [hscaled]
    exact_mod_cast hhi
  -- The integral part is a multiple of 2 ^ 32 here, and is dropped.
  have hwhole : (⌊x⌋₊ : ℝ) + Int.fract x = x := by
    rw [natCast_floor_eq_intCast_floor hx0]
    exact Int.floor_add_fract x
  have hsplit : 2 ^ 32 * x = 2 ^ 32 * Int.fract x + ((2 ^ 32 * ⌊x⌋₊ : Nat) : ℝ) := by
    push_cast
    linarith only [hwhole]
  have hfract : 0 ≤ 2 ^ 32 * Int.fract x := mul_nonneg (by positivity) (Int.fract_nonneg x)
  have hfloor : ⌊2 ^ 32 * x⌋₊ = n := (Nat.floor_eq_iff hy0).mpr ⟨hle, hlt⟩
  rw [hsplit, Nat.floor_add_natCast hfract] at hfloor
  rw [rootBits, hx, Nat.cast_pow, Nat.cast_ofNat, ← hfloor]
  apply BitVec.eq_of_toNat_eq
  simp

/-- `w` follows the point in the `k`-th root of `p`. -/
def Follows (k p : Nat) (w : Word) : Prop :=
  ∃ i < 8, (i * 2 ^ 32 + w.toNat) ^ k ≤ p * (2 ^ 32) ^ k ∧ p * (2 ^ 32) ^ k < (i * 2 ^ 32 + w.toNat + 1) ^ k

instance (k p : Nat) (w : Word) : Decidable (Follows k p w) :=
  inferInstanceAs (Decidable (∃ i < 8, _ ∧ _))

theorem Follows.rootBits {k p : Nat} {w : Word} (hk : k ≠ 0) (h : Follows k p w) : rootBits k p = w := by
  obtain ⟨i, -, hlo, hhi⟩ := h
  rw [rootBits_eq hk hlo hhi]
  apply BitVec.eq_of_toNat_eq
  have hw := w.isLt
  rw [BitVec.toNat_ofNat]
  omega

section

variable {p : Nat → Prop} [DecidablePred p]

theorem length_filter_range (n : Nat) : ((List.range n).filter fun i => decide (p i)).length = Nat.count p n := by
  induction n with
  | zero => rfl
  | succ n ih =>
    rw [List.range_succ, List.filter_append, List.length_append, ih, Nat.count_succ]
    by_cases hp : p n
    · simp [hp]
    · simp [hp]

/-- A bounded search finds the first numbers with a property. -/
theorem getElem?_filter_range {n t x : Nat} (h : ((List.range n).filter fun i => decide (p i))[t]? = some x) :
    Nat.nth p t = x := by
  induction n with
  | zero => simp at h
  | succ n ih =>
    rw [List.range_succ, List.filter_append] at h
    rcases Nat.lt_or_ge t ((List.range n).filter fun i => decide (p i)).length with hlt | hge
    · rw [List.getElem?_append_left hlt] at h
      exact ih h
    · rw [List.getElem?_append_right hge, length_filter_range] at h
      by_cases hp : p n
      · rw [List.filter_cons_of_pos (by simpa using hp), List.filter_nil, List.getElem?_singleton] at h
        rw [length_filter_range] at hge
        have ht : t = Nat.count p n := by
          split at h
          · omega
          · cases h
        have hx : n = x := by simpa [ht] using h
        rw [ht, Nat.nth_count hp, hx]
      · rw [List.filter_cons_of_neg (by simpa using hp), List.filter_nil] at h
        cases h

end

def primes : List Nat := (List.range 312).filter fun n => decide n.Prime

theorem primes_eq : primes =
    [2, 3, 5, 7, 11, 13, 17, 19, 23, 29, 31, 37, 41, 43, 47, 53, 59, 61, 67, 71, 73, 79, 83, 89, 97, 101, 103, 107,
      109, 113, 127, 131, 137, 139, 149, 151, 157, 163, 167, 173, 179, 181, 191, 193, 197, 199, 211, 223, 227, 229,
      233, 239, 241, 251, 257, 263, 269, 271, 277, 281, 283, 293, 307, 311] := by
  have hprime : ∀ n ∈ List.range 312,
      decide n.Prime = decide (2 ≤ n ∧ ∀ m ∈ List.range 18, 2 ≤ m → m * m ≤ n → ¬ m ∣ n) := by
    intro n hn
    have hlt : n < 312 := List.mem_range.mp hn
    rw [decide_eq_decide, Nat.prime_def_le_sqrt]
    refine and_congr_right fun _ => ⟨fun h m _ htwo hsq => h m htwo (Nat.le_sqrt.mpr hsq), fun h m htwo hm => ?_⟩
    have hsq := Nat.le_sqrt.mp hm
    exact h m (List.mem_range.mpr (by nlinarith)) htwo hsq
  rw [primes, List.filter_congr hprime]
  decide

theorem rootBits_nth {k t : Nat} {w : Word} (hk : k ≠ 0) (h : ∃ p, primes[t]? = some p ∧ Follows k p w) :
    rootBits k (Nat.nth Nat.Prime t) = w := by
  obtain ⟨p, hp, hw⟩ := h
  rw [getElem?_filter_range hp]
  exact hw.rootBits hk

/-! ## Padding -/

theorem zeroBytes_eq (l : Nat) : zeroBytes l = (119 - l % 64) % 64 := by
  have hmem : (119 - l % 64) % 64 ∈ {z | (l + 1 + z) % 64 = 56} := by
    show (l + 1 + (119 - l % 64) % 64) % 64 = 56
    omega
  apply le_antisymm
  · exact Nat.sInf_le hmem
  · have hleast : (l + 1 + zeroBytes l) % 64 = 56 := Nat.sInf_mem ⟨_, hmem⟩
    omega

@[simp] theorem length_beOf (width n : Nat) : (beOf width n).length = width := by
  rw [beOf, List.length_reverse, length_leOf]

end Sha2
