import Ccos.Kv.Latent
import Ccos.Lib.ByteCodec
import Ccos.Lib.Lanes
import Mathlib.Algebra.Order.Ring.Rat
import Mathlib.Tactic.FieldSimp
import Mathlib.Tactic.Ring

/-!
# The score of a tile

The latent is decoded and multiplied by the query, and the residual corrects the sum by its signs. The scalar path goes
dimension by dimension. Each kernel takes eight at a time, and computes the same.
-/

namespace Ccos.Kv

open BitFields Lanes

/-! ## The scalar path -/

def countOnes (x : UInt64) : Nat := (List.range 64).countP fun i => x.toBitVec.getLsbD i

def hammingDistance (a b : Vector UInt64 residualWords) : Nat := ((a.zipWith (· ^^^ ·) b).toList.map countOnes).sum

namespace ExactTile

variable (t : ExactTile) (qCoarse : Values) (qSign : Vector UInt64 residualWords)

def dequantLatent : Values := Vector.ofFn fun d => t.dequantAt d

def residualTerm : ℚ := t.dynamicLambda * (dS - 2 * hammingDistance qSign t.residualBitmap)

/-- How every path ends. -/
def addResidual (coarse : ℚ) : ℚ := if t.isWarm then coarse else coarse + t.residualTerm qSign

def computeScoreScalar : ℚ :=
  let k := t.dequantLatent
  t.addResidual qSign ((List.range dC).foldl (fun coarse d => coarse + qCoarse.at d * k.at d) 0)

/-! ## The kernels -/

def inv255 : ℚ := 1 / 255

def scaleLanes (g : Nat) : M256 ℚ := mm256Set1Ps (t.scale * ((t.scaleByte g).toNat * inv255))

/-- Eight dimensions of a nibble codec, from `off` on. -/
def groupHalf (acc : M256 ℚ) (bytes : M128i) (off : Nat) (gsV : M256 ℚ) : M256 ℚ :=
  let n : M256 ℚ := mm256Cvtepi32Ps (mm256Cvtepu8Epi32 bytes)
  let v := gsV * (n - mm256Set1Ps 8)
  let qv := mm256LoaduPs qCoarse.at off
  acc + v * qv

def computeScoreAvx2 : ℚ :=
  let acc := (List.range nGroups).foldl (fun acc g =>
    let base := g * groupDim
    let gsV := t.scaleLanes g
    let packed := mmLoadlEpi64 t.latentKv.byte (g * 8)
    let d16 := denibble packed
    let acc := groupHalf qCoarse acc d16 base gsV
    groupHalf qCoarse acc (mmSrliSi128 d16 8) (base + 8) gsV) (mm256Set1Ps 0)
  t.addResidual qSign (sumPs acc)

def codeShifts : M256i := mm256SetrEpi32 #v[0, 3, 6, 9, 12, 15, 18, 21]
def corrShifts : M256i := mm256SetrEpi32 #v[0, 1, 2, 3, 4, 5, 6, 7]

/-- The correction is folded into the offset of the grid. -/
def bias : M256 ℚ := mm256Set1Ps (if t.isTq3Nocorr then tq3HalfRange else tq3HalfRange + tq3Correction)

def fromLeBytes (a b c d : UInt8) : UInt32 := UInt32.ofNat (ByteCodec.leTo [a, b, c, d])

/-- Eight dimensions of a grid codec: the codes from byte `o` on, their corrections in byte `corrByte`, scaled by
section `g` and multiplied by the query from `off` on. -/
def gridBlock (o corrByte g off : Nat) (acc : M256 ℚ) : M256 ℚ :=
  let lk := t.latentKv
  let gsV := t.scaleLanes g
  let window := fromLeBytes (lk.byte o) (lk.byte (o + 1)) (lk.byte (o + 2)) (lk.byte (o + 3))
  let codes := mm256AndSi256 (mm256SrlvEpi32 (mm256Set1Epi32 window) codeShifts) (mm256Set1Epi32 7)
  let level : M256 ℚ := mm256Cvtepi32Ps codes - t.bias
  let level := if t.isTq3Nocorr then level else
    let cbyte := (lk.byte corrByte).toUInt32
    let corr := mm256AndSi256 (mm256SrlvEpi32 (mm256Set1Epi32 cbyte) corrShifts) (mm256Set1Epi32 1)
    level + mm256Cvtepi32Ps corr * mm256Set1Ps (2 * tq3Correction)
  let v := level * gsV
  let qv := mm256LoaduPs qCoarse.at off
  acc + v * qv

def computeScoreAvx2Tq3 : ℚ :=
  let acc := (List.range (dC / 8)).foldl (fun acc b =>
    t.gridBlock qCoarse (3 * b) (tq3CodeBytes + b) (b / 2) (8 * b) acc) (mm256Set1Ps 0)
  t.addResidual qSign (sumPs acc)

def groupHalfNf4 (acc : M256 ℚ) (bytes : M128i) (off : Nat) (gsV : M256 ℚ) : M256 ℚ :=
  let codebook := fun i => nf4Codebook[i]?.getD 0
  let cbLo := mm256LoaduPs codebook 0
  let cbHi := mm256LoaduPs codebook 8
  let nib := mm256Cvtepu8Epi32 bytes
  let loV := mm256Permutevar8x32Ps cbLo nib
  let hiV := mm256Permutevar8x32Ps cbHi nib
  let pickHi := mm256CmpgtEpi32 nib (mm256Set1Epi32 7)
  let level := mm256BlendvPs loV hiV pickHi
  let v := gsV * level
  let qv := mm256LoaduPs qCoarse.at off
  acc + v * qv

def computeScoreAvx2Nf4 : ℚ :=
  let acc := (List.range nGroups).foldl (fun acc g =>
    let base := g * groupDim
    let gsV := t.scaleLanes g
    let packed := mmLoadlEpi64 t.latentKv.byte (g * 8)
    let d16 := denibble packed
    let acc := groupHalfNf4 qCoarse acc d16 base gsV
    groupHalfNf4 qCoarse acc (mmSrliSi128 d16 8) (base + 8) gsV) (mm256Set1Ps 0)
  t.addResidual qSign (sumPs acc)

/-- The head is one block of signed bytes. -/
def headBlock : M256 ℚ :=
  let hsV := t.scaleLanes 0
  let head : M256 ℚ := mm256Cvtepi32Ps (mm256Cvtepu8Epi32 (mmLoadlEpi64 t.latentKv.byte 0))
  let hv := hsV * (head - mm256Set1Ps 128)
  hv * mm256LoaduPs qCoarse.at 0

def computeScoreAvx2Mixed : ℚ :=
  let acc := (List.range mixedLoGroups).foldl (fun acc g =>
    let base := mixedHiDims + g * groupDim
    let gsV := t.scaleLanes (1 + g)
    let packed := mmLoadlEpi64 t.latentKv.byte (mixedHiDims + g * 8)
    let d16 := denibble packed
    let acc := groupHalf qCoarse acc d16 base gsV
    groupHalf qCoarse acc (mmSrliSi128 d16 8) (base + 8) gsV) (t.headBlock qCoarse)
  t.addResidual qSign (sumPs acc)

def computeScoreAvx2Mix3 : ℚ :=
  let acc := (List.range (mixedLoDims / 8)).foldl (fun acc b =>
    t.gridBlock qCoarse (mix3CodesOff + 3 * b) (mix3CorrOff + b) (1 + b / 2) (mixedHiDims + 8 * b) acc)
    (t.headBlock qCoarse)
  t.addResidual qSign (sumPs acc)

/-! ## Blocks of a latent -/

/-- What a dimension adds to the score. -/
def term (d : Nat) : ℚ := qCoarse.at d * t.dequantAt d

variable {t qCoarse} {acc : M256 ℚ}

theorem scaleLanes_apply (g : Nat) (l : Fin 8) : t.scaleLanes g l = t.scale * ((t.scaleByte g).toNat / 255) := by
  unfold scaleLanes inv255 mm256Set1Ps
  ring

theorem groupHalf_gathered {bytes : M128i} {off g : Nat} (h : Gathered (t.term qCoarse) off acc)
    (hdecode : ∀ l < 8, t.dequantAt (off + l) =
      ((bytes.byte l).toNat - 8) * (t.scale * ((t.scaleByte g).toNat / 255))) :
    Gathered (t.term qCoarse) (off + 8) (groupHalf qCoarse acc bytes off (t.scaleLanes g)) := by
  unfold groupHalf
  apply h.add_block
  intro l
  simp only [Pi.mul_apply, Pi.sub_apply, cvtepi32_cvtepu8, scaleLanes_apply, mm256Set1Ps, mm256LoaduPs, term,
    hdecode l l.isLt]
  ring

theorem groupHalfNf4_gathered {bytes : M128i} {off g : Nat} (h : Gathered (t.term qCoarse) off acc)
    (hnibble : ∀ l < 8, (bytes.byte l).toNat < 16)
    (hdecode : ∀ l < 8, t.dequantAt (off + l) =
      nf4Codebook[(bytes.byte l).toNat]?.getD 0 * (t.scale * ((t.scaleByte g).toNat / 255))) :
    Gathered (t.term qCoarse) (off + 8) (groupHalfNf4 qCoarse acc bytes off (t.scaleLanes g)) := by
  unfold groupHalfNf4
  apply h.add_block
  intro l
  have hindex : (mm256Cvtepu8Epi32 bytes l).toNat = (bytes.byte l).toNat := by simp [mm256Cvtepu8Epi32]
  have hlookup := @blend_halves ℚ (fun i => nf4Codebook[i]?.getD 0) (mm256Cvtepu8Epi32 bytes) l
    (by rw [hindex]; exact hnibble l l.isLt)
  simp only [Pi.mul_apply, hlookup, hindex, scaleLanes_apply, mm256LoaduPs, term, hdecode l l.isLt]
  ring

/-- The level that a code and its correction bit stand for. -/
def levelOf (t : ExactTile) (code corr : Nat) : ℚ :=
  if t.isTq3Nocorr then code - tq3HalfRange
  else code - tq3HalfRange + (if corr = 1 then 1 else -1) * tq3Correction

theorem gridLevel_eq_levelOf {off limit corrOff i : Nat} (h : off + 3 * i / 8 + 1 < limit ∨ 3 * i % 8 ≤ 5) :
    t.gridLevel off limit corrOff i =
      t.levelOf (field t.latentKv.byte (8 * off + 3 * i) 3) (field t.latentKv.byte (8 * corrOff + i) 1) := by
  unfold gridLevel levelOf
  rw [Latent.codeAt_eq h, Latent.corrAt_eq]

theorem toNat_fromLeBytes (s : Nat → UInt8) (o : Nat) :
    (fromLeBytes (s o) (s (o + 1)) (s (o + 2)) (s (o + 3))).toNat = window s o 4 := by
  have h0 := (s o).toNat_lt
  have h1 := (s (o + 1)).toNat_lt
  have h2 := (s (o + 2)).toNat_lt
  have h3 := (s (o + 3)).toNat_lt
  unfold fromLeBytes
  rw [UInt32.toNat_ofNat']
  simp only [ByteCodec.leTo, window, Nat.add_assoc, Nat.reduceAdd]
  omega

theorem codeShifts_toNat (l : Fin 8) : (codeShifts l).toNat = 3 * l := by revert l; decide

theorem corrShifts_toNat (l : Fin 8) : (corrShifts l).toNat = l := by revert l; decide

/-- The bytes of a window may reach into the next plane, but no code of the block does. -/
theorem gridBlock_gathered {o corrByte g off : Nat} (h : Gathered (t.term qCoarse) off acc)
    (hdecode : ∀ l < 8, t.dequantAt (off + l) =
      t.levelOf (field t.latentKv.byte (8 * o + 3 * l) 3) (field t.latentKv.byte (8 * corrByte + l) 1) *
        (t.scale * ((t.scaleByte g).toNat / 255))) :
    Gathered (t.term qCoarse) (off + 8) (t.gridBlock qCoarse o corrByte g off acc) := by
  unfold gridBlock
  apply h.add_block
  intro l
  have hcode := @srlv_and_field t.latentKv.byte _ codeShifts o 4 3 7 l (toNat_fromLeBytes t.latentKv.byte o) rfl
    (by rw [codeShifts_toNat]; omega) le_rfl (by decide)
  have hcorr := @srlv_and_field t.latentKv.byte (t.latentKv.byte corrByte).toUInt32 corrShifts corrByte 1 1 1 l
    (by simp [window]) rfl (by rw [corrShifts_toNat]; omega) (by decide) (by decide)
  rw [codeShifts_toNat] at hcode
  rw [corrShifts_toNat] at hcorr
  have hcodeLt := field_lt t.latentKv.byte (8 * o + 3 * l) 3
  have hcorrLt := field_lt t.latentKv.byte (8 * corrByte + l) 1
  have hcodePs := @cvtepi32_of_lt ℚ _ _ l (by rw [hcode]; omega)
  have hcorrPs := @cvtepi32_of_lt ℚ _ _ l (by rw [hcorr]; omega)
  rw [hcode] at hcodePs
  rw [hcorr] at hcorrPs
  simp only [Pi.mul_apply, scaleLanes_apply, mm256LoaduPs, term, hdecode l l.isLt]
  unfold bias levelOf
  by_cases hnocorr : t.isTq3Nocorr
  · simp only [hnocorr, if_true, Pi.sub_apply, hcodePs, mm256Set1Ps]
    ring
  · simp only [hnocorr, Bool.false_eq_true, if_false, Pi.add_apply, Pi.mul_apply, Pi.sub_apply, hcodePs, hcorrPs,
      mm256Set1Ps]
    rcases Nat.lt_succ_iff_lt_or_eq.mp hcorrLt with hzero | hone
    · rw [Nat.lt_one_iff.mp hzero]
      norm_num
      ring
    · rw [hone]
      norm_num
      ring

theorem headBlock_gathered (hdecode : ∀ d < mixedHiDims,
    t.dequantAt d = ((t.latentKv.byte d).toNat - 128) * (t.scale * ((t.scaleByte 0).toNat / 255))) :
    Gathered (t.term qCoarse) mixedHiDims (t.headBlock qCoarse) := by
  unfold headBlock
  apply gathered_block
  intro l
  simp only [Pi.mul_apply, Pi.sub_apply, cvtepi32_cvtepu8, byte_load l.isLt, scaleLanes_apply, mm256Set1Ps,
    mm256LoaduPs, Nat.zero_add, term, hdecode l l.isLt]
  ring

/-- Both halves of a group, from the eight bytes at `p`. -/
theorem group_gathered {p off g : Nat} (h : Gathered (t.term qCoarse) off acc)
    (hdecode : ∀ l < 16, t.dequantAt (off + l) =
      (field t.latentKv.byte (8 * p + 4 * l) 4 - 8) * (t.scale * ((t.scaleByte g).toNat / 255))) :
    Gathered (t.term qCoarse) (off + 16)
      (groupHalf qCoarse (groupHalf qCoarse acc (denibble (mmLoadlEpi64 t.latentKv.byte p)) off (t.scaleLanes g))
        (mmSrliSi128 (denibble (mmLoadlEpi64 t.latentKv.byte p)) 8) (off + 8) (t.scaleLanes g)) := by
  apply groupHalf_gathered (groupHalf_gathered h _)
  · intro l hl
    rw [byte_srli (by omega), byte_denibble (by omega), Nat.add_assoc, Nat.add_comm 8 l]
    exact hdecode (l + 8) (by omega)
  · intro l hl
    rw [byte_denibble (by omega)]
    exact hdecode l (by omega)

theorem groupNf4_gathered {p off g : Nat} (h : Gathered (t.term qCoarse) off acc)
    (hdecode : ∀ l < 16, t.dequantAt (off + l) =
      nf4Codebook[field t.latentKv.byte (8 * p + 4 * l) 4]?.getD 0 * (t.scale * ((t.scaleByte g).toNat / 255))) :
    Gathered (t.term qCoarse) (off + 16)
      (groupHalfNf4 qCoarse (groupHalfNf4 qCoarse acc (denibble (mmLoadlEpi64 t.latentKv.byte p)) off (t.scaleLanes g))
        (mmSrliSi128 (denibble (mmLoadlEpi64 t.latentKv.byte p)) 8) (off + 8) (t.scaleLanes g)) := by
  apply groupHalfNf4_gathered (groupHalfNf4_gathered h _ _)
  · intro l hl
    rw [byte_srli (by omega), byte_denibble (by omega)]
    exact field_lt _ _ _
  · intro l hl
    rw [byte_srli (by omega), byte_denibble (by omega), Nat.add_assoc, Nat.add_comm 8 l]
    exact hdecode (l + 8) (by omega)
  · intro l hl
    rw [byte_denibble (by omega)]
    exact field_lt _ _ _
  · intro l hl
    rw [byte_denibble (by omega)]
    exact hdecode l (by omega)

/-! ## The paths agree -/

theorem foldl_add_eq_sum (f : Nat → ℚ) (n : Nat) :
    (List.range n).foldl (fun coarse d => coarse + f d) 0 = ∑ d ∈ Finset.range n, f d := by
  induction n with
  | zero => rfl
  | succ n ih =>
    rw [List.range_succ, List.foldl_append, ih, Finset.sum_range_succ]
    rfl

theorem computeScoreScalar_eq (t : ExactTile) (qCoarse : Values) (qSign : Vector UInt64 residualWords) :
    t.computeScoreScalar qCoarse qSign = t.addResidual qSign (∑ d ∈ Finset.range dC, t.term qCoarse d) := by
  have hdecoded : ∀ d ∈ Finset.range dC, qCoarse.at d * t.dequantLatent.at d = t.term qCoarse d := by
    intro d hd
    simp [dequantLatent, Values.at, term, Finset.mem_range.mp hd]
  simp only [computeScoreScalar]
  rw [foldl_add_eq_sum fun d => qCoarse.at d * t.dequantLatent.at d, Finset.sum_congr rfl hdecoded]

/-- A sum over the kept dimensions is the score, when the others decode to zero. -/
theorem score_of_gathered {k : Nat} (h : Gathered (t.term qCoarse) k acc) (hk : k ≤ dC)
    (htail : ∀ d, k ≤ d → d < dC → t.dequantAt d = 0) (qSign : Vector UInt64 residualWords) :
    t.addResidual qSign (sumPs acc) = t.computeScoreScalar qCoarse qSign := by
  rw [computeScoreScalar_eq, h.sumPs]
  congr 1
  apply Finset.sum_subset (Finset.range_mono hk)
  intro d hd hout
  rw [Finset.mem_range] at hd hout
  rw [term, htail d (by omega) hd, mul_zero]

variable (t qCoarse) (qSign : Vector UInt64 residualWords)

theorem avx2_eq_scalar (hmixed : t.isMixed = false) (htq3 : t.isTq3 = false) (hmix3 : t.isMix3 = false)
    (hnf4 : t.isNf4 = false) : t.computeScoreAvx2 qCoarse qSign = t.computeScoreScalar qCoarse qSign := by
  have hdecode : ∀ d, t.dequantAt d =
      (t.latentKv.nibbleAt 0 d - 8) * (t.scale * ((t.scaleByte (d / 16)).toNat / 255)) := by
    intro d
    simp only [dequantAt, hmixed, htq3, hmix3, hnf4, Bool.false_eq_true, if_false]
    rfl
  apply score_of_gathered _ le_rfl fun d hlow hhigh => absurd hhigh (Nat.not_lt.mpr hlow)
  apply @Gathered.foldl _ _ _ _ _ (fun g => g * 16) nGroups (gathered_zero _)
  intro g _ acc h
  rw [Nat.succ_mul]
  apply group_gathered h
  intro l hl
  rw [hdecode, Latent.nibbleAt_eq, show (g * 16 + l) / 16 = g by omega,
    show 8 * 0 + 4 * (g * 16 + l) = 8 * (g * 8) + 4 * l by omega]

theorem avx2_nf4_eq_scalar (hmixed : t.isMixed = false) (htq3 : t.isTq3 = false) (hmix3 : t.isMix3 = false)
    (hnf4 : t.isNf4 = true) : t.computeScoreAvx2Nf4 qCoarse qSign = t.computeScoreScalar qCoarse qSign := by
  have hdecode : ∀ d, t.dequantAt d =
      nf4Codebook[t.latentKv.nibbleAt 0 d]?.getD 0 * (t.scale * ((t.scaleByte (d / 16)).toNat / 255)) := by
    intro d
    simp only [dequantAt, hmixed, htq3, hmix3, hnf4, Bool.false_eq_true, if_false, if_true]
    rfl
  apply score_of_gathered _ le_rfl fun d hlow hhigh => absurd hhigh (Nat.not_lt.mpr hlow)
  apply @Gathered.foldl _ _ _ _ _ (fun g => g * 16) nGroups (gathered_zero _)
  intro g _ acc h
  rw [Nat.succ_mul]
  apply groupNf4_gathered h
  intro l hl
  rw [hdecode, Latent.nibbleAt_eq, show (g * 16 + l) / 16 = g by omega,
    show 8 * 0 + 4 * (g * 16 + l) = 8 * (g * 8) + 4 * l by omega]

theorem avx2_tq3_eq_scalar (hmixed : t.isMixed = false) (htq3 : t.isTq3 = true) :
    t.computeScoreAvx2Tq3 qCoarse qSign = t.computeScoreScalar qCoarse qSign := by
  have hdecode : ∀ d, t.dequantAt d =
      t.gridLevel 0 tq3CodeBytes tq3CodeBytes d * (t.scale * ((t.scaleByte (d / 16)).toNat / 255)) := by
    intro d
    simp only [dequantAt, hmixed, htq3, Bool.false_eq_true, if_false, if_true]
    rfl
  apply score_of_gathered _ le_rfl fun d hlow hhigh => absurd hhigh (Nat.not_lt.mpr hlow)
  apply @Gathered.foldl _ _ _ _ _ (fun b => 8 * b) (dC / 8) (gathered_zero _)
  intro b hb acc h
  apply gridBlock_gathered h
  intro l hl
  have hd : 8 * b + l < dC := by
    unfold dC at hb ⊢
    omega
  rw [hdecode, gridLevel_eq_levelOf (Latent.tq3_span hd), show (8 * b + l) / 16 = b / 2 by omega,
    show 8 * 0 + 3 * (8 * b + l) = 8 * (3 * b) + 3 * l by omega,
    show 8 * tq3CodeBytes + (8 * b + l) = 8 * (tq3CodeBytes + b) + l by omega]

/-- The head and the tail of the two layouts that keep 120 dimensions. -/
theorem headed_eq_scalar {step : M256 ℚ → Nat → M256 ℚ} {off : Nat → Nat} {n : Nat} (hstart : off 0 = mixedHiDims)
    (hend : off n = mixedDims)
    (hhead : ∀ d < mixedHiDims,
      t.dequantAt d = ((t.latentKv.byte d).toNat - 128) * (t.scale * ((t.scaleByte 0).toNat / 255)))
    (htail : ∀ d, mixedDims ≤ d → d < dC → t.dequantAt d = 0)
    (hstep : ∀ b < n, ∀ acc, Gathered (t.term qCoarse) (off b) acc →
      Gathered (t.term qCoarse) (off (b + 1)) (step acc b)) :
    t.addResidual qSign (sumPs ((List.range n).foldl step (t.headBlock qCoarse))) =
      t.computeScoreScalar qCoarse qSign := by
  have hgathered : Gathered (t.term qCoarse) (off 0) (t.headBlock qCoarse) := by
    rw [hstart]
    exact headBlock_gathered hhead
  have hrun := hgathered.foldl hstep
  rw [hend] at hrun
  exact score_of_gathered hrun (by decide) htail qSign

theorem avx2_mixed_eq_scalar (hmixed : t.isMixed = true) :
    t.computeScoreAvx2Mixed qCoarse qSign = t.computeScoreScalar qCoarse qSign := by
  have hdecode : ∀ d, t.dequantAt d = t.dequantAtMixed d := by
    intro d
    simp only [dequantAt, hmixed, if_true]
  apply @headed_eq_scalar t qCoarse qSign _ (fun g => mixedHiDims + g * 16) mixedLoGroups rfl rfl
  · intro d hd
    rw [hdecode, dequantAtMixed_head hd]
  · intro d hlow _
    rw [hdecode, dequantAtMixed_tail hlow]
  · intro g hg acc h
    rw [Nat.succ_mul, ← Nat.add_assoc]
    apply group_gathered h
    intro l hl
    have hbody : g * 16 + l < mixedLoDims := by
      simp only [mixedLoGroups, nGroups, mixedLoDims, latentBytes, mixedHiDims] at hg ⊢
      omega
    have hgroup : (g * 16 + l) / groupDim = g := by
      simp only [groupDim, dC, nGroups]
      omega
    rw [hdecode, Nat.add_assoc, dequantAtMixed_body hbody, hgroup, Latent.nibbleAt_eq,
      show 8 * mixedHiDims + 4 * (g * 16 + l) = 8 * (mixedHiDims + g * 8) + 4 * l by omega]

theorem avx2_mix3_eq_scalar (hmixed : t.isMixed = false) (htq3 : t.isTq3 = false) (hmix3 : t.isMix3 = true) :
    t.computeScoreAvx2Mix3 qCoarse qSign = t.computeScoreScalar qCoarse qSign := by
  have hdecode : ∀ d, t.dequantAt d = t.dequantAtMix3 d := by
    intro d
    simp only [dequantAt, hmixed, htq3, hmix3, Bool.false_eq_true, if_false, if_true]
  apply @headed_eq_scalar t qCoarse qSign _ (fun b => mixedHiDims + 8 * b) (mixedLoDims / 8) rfl rfl
  · intro d hd
    rw [hdecode, dequantAtMix3_head hd]
  · intro d hlow _
    rw [hdecode, dequantAtMix3_tail hlow]
  · intro b hb acc h
    rw [Nat.mul_succ, ← Nat.add_assoc]
    apply gridBlock_gathered h
    intro l hl
    have hbody : 8 * b + l < mixedLoDims := by
      simp only [mixedLoDims, latentBytes, mixedHiDims] at hb ⊢
      omega
    have hgroup : (8 * b + l) / groupDim = b / 2 := by
      simp only [groupDim, dC, nGroups]
      omega
    rw [hdecode, Nat.add_assoc, dequantAtMix3_body hbody, hgroup, gridLevel_eq_levelOf (Latent.mix3_span hbody),
      show 8 * mix3CodesOff + 3 * (8 * b + l) = 8 * (mix3CodesOff + 3 * b) + 3 * l by omega,
      show 8 * mix3CorrOff + (8 * b + l) = 8 * (mix3CorrOff + b) + l by omega]

/-- The flags of a tile call for one kernel, and it computes the scalar score of the tile. -/
theorem kernels_eq_scalar (t : ExactTile) (qCoarse : Values) (qSign : Vector UInt64 residualWords) :
    (t.isMixed = true → t.computeScoreAvx2Mixed qCoarse qSign = t.computeScoreScalar qCoarse qSign) ∧
    (t.isMixed = false → t.isTq3 = true →
      t.computeScoreAvx2Tq3 qCoarse qSign = t.computeScoreScalar qCoarse qSign) ∧
    (t.isMixed = false → t.isTq3 = false → t.isMix3 = true →
      t.computeScoreAvx2Mix3 qCoarse qSign = t.computeScoreScalar qCoarse qSign) ∧
    (t.isMixed = false → t.isTq3 = false → t.isMix3 = false → t.isNf4 = true →
      t.computeScoreAvx2Nf4 qCoarse qSign = t.computeScoreScalar qCoarse qSign) ∧
    (t.isMixed = false → t.isTq3 = false → t.isMix3 = false → t.isNf4 = false →
      t.computeScoreAvx2 qCoarse qSign = t.computeScoreScalar qCoarse qSign) :=
  ⟨avx2_mixed_eq_scalar t qCoarse qSign, avx2_tq3_eq_scalar t qCoarse qSign, avx2_mix3_eq_scalar t qCoarse qSign,
    avx2_nf4_eq_scalar t qCoarse qSign, avx2_eq_scalar t qCoarse qSign⟩

/-- Every byte of the latent and every scale byte is different. -/
def Sample.tileWith (flags : UInt16) : ExactTile where
  latentKv := Vector.ofFn fun i => UInt8.ofNat (37 * i + 11)
  residualBitmap := Vector.replicate residualWords 0xF0F0
  scale := 3 / 7
  dynamicLambda := 1 / 5
  flags := flags
  groupScales := Vector.ofFn fun g => UInt8.ofNat (31 * g + 5)

def Sample.query : Values := Vector.ofFn fun d => (d.val : ℚ) - 60

theorem Sample.five_kernels_agree :
    (Sample.tileWith flagMixed).computeScoreAvx2Mixed Sample.query (Vector.replicate residualWords 0) =
      (Sample.tileWith flagMixed).computeScoreScalar Sample.query (Vector.replicate residualWords 0) ∧
    (Sample.tileWith (flagTq3 ||| flagTq3Nocorr)).computeScoreAvx2Tq3 Sample.query (Vector.replicate residualWords 0) =
      (Sample.tileWith (flagTq3 ||| flagTq3Nocorr)).computeScoreScalar Sample.query
        (Vector.replicate residualWords 0) ∧
    (Sample.tileWith (flagMix3 ||| flagWarm)).computeScoreAvx2Mix3 Sample.query (Vector.replicate residualWords 0) =
      (Sample.tileWith (flagMix3 ||| flagWarm)).computeScoreScalar Sample.query (Vector.replicate residualWords 0) ∧
    (Sample.tileWith flagNf4).computeScoreAvx2Nf4 Sample.query (Vector.replicate residualWords 0) =
      (Sample.tileWith flagNf4).computeScoreScalar Sample.query (Vector.replicate residualWords 0) ∧
    (Sample.tileWith 0).computeScoreAvx2 Sample.query (Vector.replicate residualWords 0) =
      (Sample.tileWith 0).computeScoreScalar Sample.query (Vector.replicate residualWords 0) :=
  ⟨(kernels_eq_scalar _ _ _).1 (by decide), (kernels_eq_scalar _ _ _).2.1 (by decide) (by decide),
    (kernels_eq_scalar _ _ _).2.2.1 (by decide) (by decide) (by decide),
    (kernels_eq_scalar _ _ _).2.2.2.1 (by decide) (by decide) (by decide) (by decide),
    (kernels_eq_scalar _ _ _).2.2.2.2 (by decide) (by decide) (by decide) (by decide)⟩

end ExactTile

end Ccos.Kv
