import Ccos.Kv.EventLog
import Ccos.Lib.BitFields
import Mathlib.Algebra.Order.Round
import Mathlib.Data.Rat.Floor

/-!
# Latents

The codecs of the 64 latent bytes of a tile. Four of them are quantized and read back here, with rationals for floats.
The dimensions of a latent fall into sections that share a scale byte.
-/

namespace Ccos.Kv

def dC : Nat := 128
def dS : Nat := 256
def groupDim : Nat := dC / nGroups
def mixedHiDims : Nat := 8
def mixedLoDims : Nat := 2 * (latentBytes - mixedHiDims)
def mixedDims : Nat := mixedHiDims + mixedLoDims
def mixedLoGroups : Nat := nGroups - 1
def tq3CodeBytes : Nat := dC * 3 / 8
def tq3HalfRange : ℚ := 7 / 2
def tq3Correction : ℚ := 1 / 4
def mix3CodesOff : Nat := mixedHiDims
def mix3CodeBytes : Nat := mixedLoDims * 3 / 8
def mix3CorrOff : Nat := mix3CodesOff + mix3CodeBytes

def flagNf4 : UInt16 := 2
def flagMixed : UInt16 := 4

def nf4Codebook : Vector ℚ 16 :=
  #v[-1, -7075 / 10000, -5421 / 10000, -4165 / 10000, -3108 / 10000, -2158 / 10000, -1272 / 10000, -421 / 10000,
    421 / 10000, 1272 / 10000, 2158 / 10000, 3108 / 10000, 4165 / 10000, 5421 / 10000, 7075 / 10000, 1]

abbrev Latent := Vector UInt8 latentBytes

abbrev Scales := Vector UInt8 nGroups

/-! ## Reading codes -/

namespace Latent

/-- The byte at an index. -/
def byte (lk : Latent) (i : Nat) : UInt8 := lk[i]?.getD 0

/-- The nibble of dimension `i` in the plane from byte `base` on. -/
def nibbleAt (lk : Latent) (base i : Nat) : Nat :=
  let byte := lk.byte (base + (i >>> 1))
  (if i &&& 1 = 0 then byte &&& 0x0F else byte >>> 4).toNat

/-- The three bits of dimension `i` in the plane from byte `off` up to byte `limit`. -/
def codeAt (lk : Latent) (off limit i : Nat) : Nat :=
  let bit := 3 * i
  let byte := off + (bit >>> 3)
  let shift := bit &&& 7
  let lo := (lk.byte byte).toNat
  let hi := if byte + 1 < limit then (lk.byte (byte + 1)).toNat <<< 8 else 0
  ((lo ||| hi) >>> shift) &&& 0x7

/-- The correction bit of dimension `i` in the plane from byte `off` on. -/
def corrAt (lk : Latent) (off i : Nat) : Nat := ((lk.byte (off + (i >>> 3))).toNat >>> (i &&& 7)) &&& 1

end Latent

/-! ## Tiles with exact floats -/

/-- What the score reads of a tile. -/
structure ExactTile where
  latentKv : Latent
  residualBitmap : Vector UInt64 residualWords
  scale : ℚ
  dynamicLambda : ℚ
  flags : UInt16
  groupScales : Scales

namespace ExactTile

variable (t : ExactTile)

def isWarm : Bool := t.flags &&& flagWarm != 0
def isNf4 : Bool := t.flags &&& flagNf4 != 0
def isMixed : Bool := t.flags &&& flagMixed != 0
def isTq3 : Bool := t.flags &&& flagTq3 != 0
def isTq3Nocorr : Bool := t.flags &&& flagTq3Nocorr != 0
def isMix3 : Bool := t.flags &&& flagMix3 != 0

/-- The scale byte of a section. -/
def scaleByte (g : Nat) : UInt8 := t.groupScales[g]?.getD 0

def groupScale (d : Nat) : ℚ := t.scale * ((t.scaleByte (d / groupDim)).toNat / 255)

/-- The level of the three-bit grid, with its correction unless it was paged out. -/
def gridLevel (codesOff limit corrOff i : Nat) : ℚ :=
  let level : ℚ := t.latentKv.codeAt codesOff limit i - tq3HalfRange
  if t.isTq3Nocorr then level
  else level + (if t.latentKv.corrAt corrOff i = 1 then 1 else -1) * tq3Correction

def dequantAtMixed (d : Nat) : ℚ :=
  if d < mixedHiDims then ((t.latentKv.byte d).toNat - 128) * (t.scale * (t.scaleByte 0).toNat / 255)
  else if d < mixedDims then
    let ld := d - mixedHiDims
    let g := 1 + ld / groupDim
    (t.latentKv.nibbleAt mixedHiDims ld - 8) * (t.scale * (t.scaleByte g).toNat / 255)
  else 0

def dequantAtTq3 (d : Nat) : ℚ := t.gridLevel 0 tq3CodeBytes tq3CodeBytes d * t.groupScale d

def dequantAtMix3 (d : Nat) : ℚ :=
  if d < mixedHiDims then ((t.latentKv.byte d).toNat - 128) * (t.scale * (t.scaleByte 0).toNat / 255)
  else if mixedDims ≤ d then 0
  else
    let ld := d - mixedHiDims
    let g := 1 + ld / groupDim
    t.gridLevel mix3CodesOff mix3CorrOff mix3CorrOff ld * (t.scale * (t.scaleByte g).toNat / 255)

def dequantAt (d : Nat) : ℚ :=
  if t.isMixed then t.dequantAtMixed d
  else if t.isTq3 then t.dequantAtTq3 d
  else if t.isMix3 then t.dequantAtMix3 d
  else
    let nib := t.latentKv.nibbleAt 0 d
    (if t.isNf4 then nf4Codebook[nib]?.getD 0 else nib - 8) * t.groupScale d

end ExactTile

/-! ### The sections of a headed layout -/

namespace ExactTile

variable {t : ExactTile} {d ld : Nat}

theorem not_head_of_body (ld : Nat) : ¬ mixedHiDims + ld < mixedHiDims := by omega

theorem body_lt (hld : ld < mixedLoDims) : mixedHiDims + ld < mixedDims := by
  unfold mixedDims
  omega

theorem not_head_of_tail (hd : mixedDims ≤ d) : ¬ d < mixedHiDims := by
  unfold mixedDims at hd
  omega

theorem dequantAtMixed_head (hd : d < mixedHiDims) :
    t.dequantAtMixed d = ((t.latentKv.byte d).toNat - 128) * (t.scale * ((t.scaleByte 0).toNat / 255)) := by
  rw [dequantAtMixed, if_pos hd, mul_div_assoc]

theorem dequantAtMixed_body (hld : ld < mixedLoDims) : t.dequantAtMixed (mixedHiDims + ld) =
    (t.latentKv.nibbleAt mixedHiDims ld - 8) * (t.scale * ((t.scaleByte (1 + ld / groupDim)).toNat / 255)) := by
  rw [dequantAtMixed, if_neg (not_head_of_body ld), if_pos (body_lt hld)]
  simp only [Nat.add_sub_cancel_left, mul_div_assoc]

theorem dequantAtMixed_tail (hd : mixedDims ≤ d) : t.dequantAtMixed d = 0 := by
  rw [dequantAtMixed, if_neg (not_head_of_tail hd), if_neg (Nat.not_lt.mpr hd)]

theorem dequantAtMix3_head (hd : d < mixedHiDims) :
    t.dequantAtMix3 d = ((t.latentKv.byte d).toNat - 128) * (t.scale * ((t.scaleByte 0).toNat / 255)) := by
  rw [dequantAtMix3, if_pos hd, mul_div_assoc]

theorem dequantAtMix3_body (hld : ld < mixedLoDims) : t.dequantAtMix3 (mixedHiDims + ld) =
    t.gridLevel mix3CodesOff mix3CorrOff mix3CorrOff ld *
      (t.scale * ((t.scaleByte (1 + ld / groupDim)).toNat / 255)) := by
  rw [dequantAtMix3, if_neg (not_head_of_body ld), if_neg (Nat.not_le.mpr (body_lt hld))]
  simp only [Nat.add_sub_cancel_left, mul_div_assoc]

theorem dequantAtMix3_tail (hd : mixedDims ≤ d) : t.dequantAtMix3 d = 0 := by
  rw [dequantAtMix3, if_neg (not_head_of_tail hd), if_pos hd]

end ExactTile

/-! ## Scales -/

/-- Ties go away from zero. -/
def roundAway (q : ℚ) : ℤ := if 0 ≤ q then ⌊q + 1 / 2⌋ else ⌈q - 1 / 2⌉

def clamp (lo hi q : ℤ) : ℤ := max lo (min hi q)

/-- A vector of floats to quantize. -/
abbrev Values := Vector ℚ dC

def Values.at (v : Values) (d : Nat) : ℚ := v[d]?.getD 0

def absMax (v : Values) (base len : Nat) : ℚ := (List.range len).foldl (fun m i => max m |v.at (base + i)|) 0

/-- The steps of sections of sixteen dimensions. -/
def groupSteps (halfRange : ℚ) (v : Values) : List ℚ :=
  (List.range nGroups).map fun g => absMax v (g * groupDim) groupDim / halfRange

/-- The steps of the head and of the sections after it. -/
def headedSteps (halfRange : ℚ) (v : Values) : List ℚ :=
  absMax v 0 mixedHiDims / 127 ::
    (List.range mixedLoGroups).map fun g => absMax v (mixedHiDims + g * groupDim) groupDim / halfRange

/-- The largest step, and one when there is none. -/
def globalScale (steps : List ℚ) : ℚ :=
  let largest := steps.foldl max 0
  if 0 < largest then largest else 1

def stepByte (step largest : ℚ) : UInt8 := UInt8.ofNat (clamp 1 255 (roundAway (step / largest * 255))).toNat

def scaleBytes (steps : List ℚ) (largest : ℚ) : Scales :=
  Vector.ofFn fun g => stepByte (steps[g.val]?.getD 0) largest

/-- The step that a scale byte stands for. -/
def effective (largest : ℚ) (gs : Scales) (g : Nat) : ℚ := largest * ((gs[g]?.getD 0).toNat / 255)

/-! ## Codes -/

def nibbleOf (x eff : ℚ) : UInt8 :=
  let q := clamp (-8) 7 (roundAway (x / eff))
  UInt8.ofNat (q + 8).toNat &&& (0x0F : UInt8)

def headOf (x eff : ℚ) : UInt8 :=
  let q := clamp (-128) 127 (roundAway (x / eff))
  UInt8.ofNat (q + 128).toNat

def codeOf (x eff : ℚ) : UInt8 := UInt8.ofNat (clamp 0 7 (roundAway (x / eff + tq3HalfRange))).toNat

/-- The value is above the level of its code. -/
def isAbove (x eff : ℚ) : Bool := 0 < x / eff - ((codeOf x eff).toNat - tq3HalfRange)

/-! ## Writing codes -/

namespace Latent

def zero : Latent := Vector.replicate latentBytes 0

def put (out : Latent) (i : Nat) (b : UInt8) : Latent := out.setIfInBounds i b

def putNibble (out : Latent) (base i : Nat) (nib : UInt8) : Latent :=
  let byte := base + (i >>> 1)
  if i &&& 1 = 0 then out.put byte ((out.byte byte &&& (0xF0 : UInt8)) ||| nib)
  else out.put byte ((out.byte byte &&& (0x0F : UInt8)) ||| (nib <<< 4))

/-- A code that does not fit into its byte goes on in the next. -/
def putCode (out : Latent) (off i : Nat) (code : UInt8) : Latent :=
  let bit := 3 * i
  let byte := off + (bit >>> 3)
  let shift := bit &&& 7
  let out := out.put byte (out.byte byte ||| (code <<< UInt8.ofNat shift))
  if 5 < shift then out.put (byte + 1) (out.byte (byte + 1) ||| (code >>> UInt8.ofNat (8 - shift))) else out

def putCorr (out : Latent) (off i : Nat) : Latent :=
  let byte := off + (i >>> 3)
  out.put byte (out.byte byte ||| (1 <<< UInt8.ofNat (i &&& 7)))

/-- The loop of the nibble codecs, over `n` dimensions. -/
def packNibbles (out : Latent) (base n : Nat) (nib : Nat → UInt8) : Latent :=
  (List.range n).foldl (fun out i => out.putNibble base i (nib i)) out

/-- The loop over the head. -/
def packHead (out : Latent) (code : Nat → UInt8) : Latent :=
  (List.range mixedHiDims).foldl (fun out d => out.put d (code d)) out

/-- The loop of the grid codecs, over `n` dimensions. -/
def packCodes (out : Latent) (codesOff corrOff n : Nat) (code : Nat → UInt8) (above : Nat → Bool) : Latent :=
  (List.range n).foldl (fun out i =>
    let out := out.putCode codesOff i (code i)
    if above i then out.putCorr corrOff i else out) out

end Latent

/-! ## The codecs -/

/-- The bytes, the scale, and the scale bytes. -/
abbrev Quantized := Latent × ℚ × Scales

def quantizeLatentGrouped (v : Values) : Quantized :=
  let steps := groupSteps 7 v
  let largest := globalScale steps
  let gs := scaleBytes steps largest
  (Latent.zero.packNibbles 0 dC fun d => nibbleOf (v.at d) (effective largest gs (d / groupDim)), largest, gs)

def quantizeLatentTq3 (v : Values) : Quantized :=
  let steps := groupSteps tq3HalfRange v
  let largest := globalScale steps
  let gs := scaleBytes steps largest
  let eff := fun d => effective largest gs (d / groupDim)
  (Latent.zero.packCodes 0 tq3CodeBytes dC (fun d => codeOf (v.at d) (eff d)) fun d => isAbove (v.at d) (eff d),
    largest, gs)

def quantizeLatentMixed (v : Values) : Quantized :=
  let steps := headedSteps 7 v
  let largest := globalScale steps
  let gs := scaleBytes steps largest
  let head := Latent.zero.packHead fun d => headOf (v.at d) (effective largest gs 0)
  (head.packNibbles mixedHiDims mixedLoDims fun ld =>
    nibbleOf (v.at (mixedHiDims + ld)) (effective largest gs (1 + ld / groupDim)), largest, gs)

def quantizeLatentMix3 (v : Values) : Quantized :=
  let steps := headedSteps tq3HalfRange v
  let largest := globalScale steps
  let gs := scaleBytes steps largest
  let head := Latent.zero.packHead fun d => headOf (v.at d) (effective largest gs 0)
  let eff := fun ld => effective largest gs (1 + ld / groupDim)
  (head.packCodes mix3CodesOff mix3CorrOff mixedLoDims (fun ld => codeOf (v.at (mixedHiDims + ld)) (eff ld))
    fun ld => isAbove (v.at (mixedHiDims + ld)) (eff ld), largest, gs)

/-! ## Codes as fields -/

namespace Latent

open BitFields

theorem and_one_eq (n : Nat) : n &&& 1 = n % 2 := Nat.and_one_is_mod n

theorem and_seven_eq (n : Nat) : n &&& 7 = n % 8 := Nat.and_two_pow_sub_one_eq_mod n 3

theorem half_eq (n : Nat) : n >>> 1 = n / 2 := Nat.shiftRight_eq_div_pow n 1

theorem eighth_eq (n : Nat) : n >>> 3 = n / 8 := Nat.shiftRight_eq_div_pow n 3

theorem toNat_byte_eq (lk : Latent) (k : Nat) : (lk.byte k).toNat = field lk.byte (8 * k) 8 := by
  have hfield := @byte_field lk.byte k 0 8 (by decide)
  rw [Nat.add_zero] at hfield
  rw [← hfield, Nat.shiftRight_zero, Nat.mod_eq_of_lt (lk.byte k).toNat_lt]

theorem nibbleAt_eq (lk : Latent) (base i : Nat) : lk.nibbleAt base i = field lk.byte (8 * base + 4 * i) 4 := by
  unfold nibbleAt
  simp only [half_eq, and_one_eq]
  by_cases hi : i % 2 = 0
  · have hfield := @byte_field lk.byte (base + i / 2) 0 4 (by decide)
    rw [if_pos hi, show 8 * base + 4 * i = 8 * (base + i / 2) + 0 by omega, ← hfield, UInt8.toNat_and]
    exact Nat.and_two_pow_sub_one_eq_mod _ 4
  · have hfield := @byte_field lk.byte (base + i / 2) 4 4 (by decide)
    have hbyte := (lk.byte (base + i / 2)).toNat_lt
    rw [if_neg hi, show 8 * base + 4 * i = 8 * (base + i / 2) + 4 by omega, ← hfield, UInt8.toNat_shiftRight]
    simp only [UInt8.reduceToNat, Nat.reduceMod, Nat.shiftRight_eq_div_pow]
    omega

/-- The second byte is read when the code goes on in it. -/
theorem codeAt_eq {lk : Latent} {off limit i : Nat} (h : off + 3 * i / 8 + 1 < limit ∨ 3 * i % 8 ≤ 5) :
    lk.codeAt off limit i = field lk.byte (8 * off + 3 * i) 3 := by
  unfold codeAt
  simp only [eighth_eq, and_seven_eq]
  rw [show 8 * off + 3 * i = 8 * (off + 3 * i / 8) + 3 * i % 8 by omega]
  by_cases hnext : off + 3 * i / 8 + 1 < limit
  · have hwindow := or_window lk.byte (off + 3 * i / 8) 1
    simp only [window, Nat.mul_zero, Nat.add_zero] at hwindow
    rw [if_pos hnext, ← window_field (show 3 * i % 8 + 3 ≤ 8 * 2 by omega), hwindow]
    rfl
  · have hbyte := @byte_field lk.byte (off + 3 * i / 8) (3 * i % 8) 3 (by omega)
    rw [if_neg hnext, Nat.or_zero]
    exact hbyte

/-- The last code ends on the boundary of its plane, so no code needs the byte after it. -/
theorem tq3_span {d : Nat} (hd : d < dC) : 0 + 3 * d / 8 + 1 < tq3CodeBytes ∨ 3 * d % 8 ≤ 5 := by
  simp only [dC, tq3CodeBytes] at hd ⊢
  omega

theorem mix3_span {ld : Nat} (hld : ld < mixedLoDims) :
    mix3CodesOff + 3 * ld / 8 + 1 < mix3CorrOff ∨ 3 * ld % 8 ≤ 5 := by
  simp only [mix3CodesOff, mix3CorrOff, mix3CodeBytes, mixedLoDims, latentBytes, mixedHiDims] at hld ⊢
  omega

theorem corrAt_eq (lk : Latent) (off i : Nat) : lk.corrAt off i = field lk.byte (8 * off + i) 1 := by
  unfold corrAt
  simp only [eighth_eq, and_seven_eq, and_one_eq]
  rw [show 8 * off + i = 8 * (off + i / 8) + i % 8 by omega, ← byte_field (by omega)]
  rfl

end Latent

end Ccos.Kv
