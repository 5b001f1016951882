import Ccos.Lib.Sha2
import Mathlib.Tactic.IntervalCases
import Mathlib.Tactic.Ring

/-!
# Two hash functions

The crate hashes with `sha256`, eight rounds to an iteration, and the execution attestation with a function of its own,
one round to an iteration. Padding, message schedule and constants are written out twice, and alike.
-/

open ByteCodec Sha2

namespace Ccos.Rsi

/-! ## Words -/

def rotateRight (x : UInt32) (n : Nat) : UInt32 := ⟨x.toBitVec.rotateRight n⟩

/-- `u32::from_be_bytes`. -/
def fromBeBytes (b : Bytes) : UInt32 := UInt32.ofNat (beTo b)

def k : Vector UInt32 64 :=
  #v[0x428a2f98, 0x71374491, 0xb5c0fbcf, 0xe9b5dba5, 0x3956c25b, 0x59f111f1, 0x923f82a4, 0xab1c5ed5,
    0xd807aa98, 0x12835b01, 0x243185be, 0x550c7dc3, 0x72be5d74, 0x80deb1fe, 0x9bdc06a7, 0xc19bf174,
    0xe49b69c1, 0xefbe4786, 0x0fc19dc6, 0x240ca1cc, 0x2de92c6f, 0x4a7484aa, 0x5cb0a9dc, 0x76f988da,
    0x983e5152, 0xa831c66d, 0xb00327c8, 0xbf597fc7, 0xc6e00bf3, 0xd5a79147, 0x06ca6351, 0x14292967,
    0x27b70a85, 0x2e1b2138, 0x4d2c6dfc, 0x53380d13, 0x650a7354, 0x766a0abb, 0x81c2c92e, 0x92722c85,
    0xa2bfe8a1, 0xa81a664b, 0xc24b8b70, 0xc76c51a3, 0xd192e819, 0xd6990624, 0xf40e3585, 0x106aa070,
    0x19a4c116, 0x1e376c08, 0x2748774c, 0x34b0bcb5, 0x391c0cb3, 0x4ed8aa4a, 0x5b9cca4f, 0x682e6ff3,
    0x748f82ee, 0x78a5636f, 0x84c87814, 0x8cc70208, 0x90befffa, 0xa4506ceb, 0xbef9a3f7, 0xc67178f2]

def h0 : Vector UInt32 8 :=
  #v[0x6a09e667, 0xbb67ae85, 0x3c6ef372, 0xa54ff53a, 0x510e527f, 0x9b05688c, 0x1f83d9ab, 0x5be0cd19]

/-! ## Padding and schedule -/

/-- `while msg.len() % 64 != 56`. -/
def pushZeros (msg : Bytes) : Bytes :=
  if msg.length % 64 ≠ 56 then pushZeros (msg ++ [0]) else msg
termination_by (120 - msg.length % 64) % 64
decreasing_by simp; omega

def preprocess (data : Bytes) : Bytes :=
  let bitLen : UInt64 := UInt64.ofNat data.length * 8
  pushZeros (data ++ [0x80]) ++ beOf 8 bitLen.toNat

def scheduleWord (w : Vector UInt32 64) (i : Nat) (_ : i < 64) : UInt32 :=
  let s0 := rotateRight w[i - 15] 7 ^^^ rotateRight w[i - 15] 18 ^^^ (w[i - 15] >>> 3)
  let s1 := rotateRight w[i - 2] 17 ^^^ rotateRight w[i - 2] 19 ^^^ (w[i - 2] >>> 10)
  w[i - 16] + s0 + w[i - 7] + s1

/-- The loop over `16..64`. -/
def extend (w : Vector UInt32 64) : Vector UInt32 64 :=
  Fin.foldl 48 (fun w i => w.set (16 + i.val) (scheduleWord w (16 + i.val) (by omega))) w

/-! ## Rounds -/

/-- The working variables. -/
structure Locals where
  a : UInt32
  b : UInt32
  c : UInt32
  d : UInt32
  e : UInt32
  f : UInt32
  g : UInt32
  hh : UInt32

def Locals.start (h : Vector UInt32 8) : Locals := ⟨h[0], h[1], h[2], h[3], h[4], h[5], h[6], h[7]⟩

def Locals.round (v : Locals) (k w : UInt32) : Locals :=
  let s1 := rotateRight v.e 6 ^^^ rotateRight v.e 11 ^^^ rotateRight v.e 25
  let ch := (v.e &&& v.f) ^^^ (~~~v.e &&& v.g)
  let t1 := v.hh + s1 + ch + k + w
  let s0 := rotateRight v.a 2 ^^^ rotateRight v.a 13 ^^^ rotateRight v.a 22
  let maj := (v.a &&& v.b) ^^^ (v.a &&& v.c) ^^^ (v.b &&& v.c)
  let t2 := s0 + maj
  { hh := v.g, g := v.f, f := v.e, e := v.d + t1, d := v.c, c := v.b, b := v.a, a := t1 + t2 }

def addLocals (h : Vector UInt32 8) (v : Locals) : Vector UInt32 8 :=
  #v[h[0] + v.a, h[1] + v.b, h[2] + v.c, h[3] + v.d, h[4] + v.e, h[5] + v.f, h[6] + v.g, h[7] + v.hh]

/-- The blocks in order. The array `w` is not cleared between them. -/
def hashBlocks (load : Bytes → Vector UInt32 64 → Vector UInt32 64) (allRounds : Vector UInt32 64 → Locals → Locals)
    (blocks : List Bytes) : Vector UInt32 8 :=
  (blocks.foldl (fun s block =>
    let w := extend (load block s.2)
    (addLocals s.1 (allRounds w (Locals.start s.1)), w)) (h0, Vector.replicate 64 0)).1

def digest (h : Vector UInt32 8) : Bytes := h.toList.flatMap fun word => beOf 4 word.toNat

/-! ## The function of the crate -/

namespace Sha256

def loadWords (block : Bytes) (w : Vector UInt32 64) : Vector UInt32 64 :=
  Fin.foldl 16 (fun w i =>
    let j := i.val * 4
    w.set i.val (fromBeBytes [block[j]!, block[j + 1]!, block[j + 2]!, block[j + 3]!])) w

def unrolledRounds (w : Vector UInt32 64) (v : Locals) : Locals :=
  Fin.foldl 8 (fun v n =>
    let i := 8 * n.val
    v.round k[i] w[i]
      |>.round k[i + 1] w[i + 1]
      |>.round k[i + 2] w[i + 2]
      |>.round k[i + 3] w[i + 3]
      |>.round k[i + 4] w[i + 4]
      |>.round k[i + 5] w[i + 5]
      |>.round k[i + 6] w[i + 6]
      |>.round k[i + 7] w[i + 7]) v

def sha256 (data : Bytes) : Bytes :=
  digest (hashBlocks loadWords unrolledRounds (chunksExact 64 (preprocess data)))

end Sha256

/-! ## The function of the attestation -/

namespace ExecutionAttestation

def loadChunks (block : Bytes) (w : Vector UInt32 64) : Vector UInt32 64 :=
  ((chunksExact 4 block).take 16).zipIdx.foldl (fun w (chunk, i) =>
    w.set! i (fromBeBytes [chunk[0]!, chunk[1]!, chunk[2]!, chunk[3]!])) w

def singleRounds (w : Vector UInt32 64) (v : Locals) : Locals :=
  Fin.foldl 64 (fun v i => v.round k[i] w[i]) v

def sha256 (data : Bytes) : Bytes :=
  digest (hashBlocks loadChunks singleRounds (chunksExact 64 (preprocess data)))

end ExecutionAttestation

/-! ## The constants -/

theorem follows_k : ∀ t : Fin 64, ∃ p, primes[t.val]? = some p ∧ Follows 3 p k[t].toBitVec := by
  rw [primes_eq]
  decide

theorem follows_h0 : ∀ j : Fin 8, ∃ p, primes[j.val]? = some p ∧ Follows 2 p h0[j].toBitVec := by
  rw [primes_eq]
  decide

theorem k_eq (t : Nat) (h : t < 64) : roundConstant t = k[t].toBitVec := rootBits_nth (by decide) (follows_k ⟨t, h⟩)

theorem h0_eq (j : Nat) (h : j < 8) : initialWord j = h0[j].toBitVec := rootBits_nth (by decide) (follows_h0 ⟨j, h⟩)

/-! ## Counted loops -/

/-- The invariant of a loop over `0..n`. -/
theorem foldl_invariant {α : Type} {n : Nat} {f : α → Fin n → α} (P : Nat → α → Prop) {a : α} (h0 : P 0 a)
    (hstep : ∀ (i : Fin n) (a : α), P i.val a → P (i.val + 1) (f a i)) : P n (Fin.foldl n f a) := by
  induction n with
  | zero => exact h0
  | succ n ih =>
    rw [Fin.foldl_succ_last]
    exact hstep (Fin.last n) _ (ih fun i a ha => hstep i.castSucc a ha)

/-- The invariant of a loop over `enumerate()`. -/
theorem foldl_zipIdx_invariant {α β : Type} {l : List α} {f : β → α × Nat → β} (P : Nat → β → Prop) {b : β} (h0 : P 0 b)
    (hstep : ∀ (i : Nat) (a : α) (b : β), l[i]? = some a → P i b → P (i + 1) (f b (a, i))) :
    P l.length (l.zipIdx.foldl f b) := by
  induction l using List.reverseRecOn with
  | nil => exact h0
  | append_singleton l a ih =>
    rw [List.zipIdx_append, List.foldl_append, List.length_append]
    have hfront := ih fun i a' b ha hb => hstep i a' b (by
      rw [List.getElem?_append_left (List.getElem?_eq_some_iff.mp ha).1, ha]) hb
    have hlast := hstep l.length a _ (by simp) hfront
    simpa using hlast

/-! ## Padding -/

theorem pushZeros_eq (msg : Bytes) :
    pushZeros msg = msg ++ List.replicate ((120 - msg.length % 64) % 64) 0 := by
  induction msg using pushZeros.induct with
  | case1 msg hshort ih =>
    have hcount : (120 - msg.length % 64) % 64 = (120 - (msg.length + 1) % 64) % 64 + 1 := by omega
    rw [pushZeros, if_pos hshort, ih, List.length_append, List.length_singleton, hcount, List.replicate_succ,
      List.append_assoc]
    rfl
  | case2 msg hfull =>
    have hcount : (120 - msg.length % 64) % 64 = 0 := by omega
    rw [pushZeros, if_neg hfull, hcount, List.replicate_zero, List.append_nil]

/-- The length is exact as long as its bits fit. -/
theorem preprocess_eq {data : Bytes} (h : data.length < 2 ^ 61) : preprocess data = padded data := by
  have hbits : (UInt64.ofNat data.length * 8).toNat = 8 * data.length := by
    have height : (8 : UInt64).toNat = 8 := rfl
    rw [UInt64.toNat_mul, UInt64.toNat_ofNat', height]
    omega
  have hzeros : (120 - (data ++ [0x80]).length % 64) % 64 = zeroBytes data.length := by
    rw [zeroBytes_eq, List.length_append, List.length_singleton]
    omega
  rw [preprocess, hbits, pushZeros_eq, hzeros, padded]

theorem length_of_mem_chunksExact {α : Type} {n : Nat} {l chunk : List α} (h : chunk ∈ chunksExact n l) :
    chunk.length = n := by
  obtain ⟨i, hi, rfl⟩ := List.mem_map.mp h
  have hle : (i + 1) * n ≤ l.length := by
    calc (i + 1) * n ≤ l.length / n * n := Nat.mul_le_mul_right n (List.mem_range.mp hi)
      _ ≤ l.length := Nat.div_mul_le_self _ _
  rw [List.length_take, List.length_drop]
  have hsplit : (i + 1) * n = n * i + n := by ring
  omega

/-! ## The message schedule -/

theorem toBitVec_fromBeBytes (b : Bytes) : (fromBeBytes b).toBitVec = BitVec.ofNat 32 (beTo b) := rfl

theorem take_four {block : Bytes} {j : Nat} (hj : j + 3 < block.length) :
    (block.drop j).take 4 = [block[j]!, block[j + 1]!, block[j + 2]!, block[j + 3]!] := by
  rw [List.drop_eq_getElem_cons (show j < block.length by omega),
    List.drop_eq_getElem_cons (show j + 1 < block.length by omega),
    List.drop_eq_getElem_cons (show j + 2 < block.length by omega), List.drop_eq_getElem_cons hj,
    getElem!_pos block j, getElem!_pos block (j + 1), getElem!_pos block (j + 2), getElem!_pos block (j + 3)]
  rfl

/-- What the first loop of a block leaves in front: the words of the block. -/
def Loads (load : Bytes → Vector UInt32 64 → Vector UInt32 64) : Prop :=
  ∀ block w, block.length = 64 → ∀ (t : Nat) (h : t < 64), t < 16 → (load block w)[t].toBitVec = wordAt block t

theorem loads_loadWords : Loads Sha256.loadWords := by
  intro block w hlen
  apply foldl_invariant fun n (w : Vector UInt32 64) =>
    ∀ (t : Nat) (h : t < 64), t < n → w[t].toBitVec = wordAt block t
  · exact fun t _ ht => absurd ht (Nat.not_lt_zero t)
  · intro i w hw t h ht
    rw [Vector.getElem_set]
    split
    · rename_i heq
      subst heq
      rw [toBitVec_fromBeBytes, wordAt, Nat.mul_comm, take_four (by omega)]
    · exact hw t h (by omega)

theorem loads_loadChunks : Loads ExecutionAttestation.loadChunks := by
  intro block w hlen
  have hchunks : (chunksExact 4 block).take 16 = (List.range 16).map fun i => (block.drop (4 * i)).take 4 := by
    rw [chunksExact, hlen]
    rfl
  have hload : ∀ (t : Nat) (h : t < 64), t < ((chunksExact 4 block).take 16).length →
      (ExecutionAttestation.loadChunks block w)[t].toBitVec = wordAt block t := by
    apply foldl_zipIdx_invariant fun n (w : Vector UInt32 64) =>
      ∀ (t : Nat) (h : t < 64), t < n → w[t].toBitVec = wordAt block t
    · exact fun t _ ht => absurd ht (Nat.not_lt_zero t)
    · intro i chunk w hchunk hw t h ht
      rw [hchunks, List.getElem?_map, Option.map_eq_some_iff] at hchunk
      obtain ⟨j, hj, rfl⟩ := hchunk
      obtain ⟨hi, rfl⟩ := List.getElem?_eq_some_iff.mp hj
      rw [List.length_range] at hi
      dsimp only
      rw [Vector.set!_eq_setIfInBounds, Vector.getElem_setIfInBounds]
      split
      · rename_i heq
        subst heq
        rw [List.getElem_range, toBitVec_fromBeBytes, wordAt, take_four (by omega)]
        rfl
      · exact hw t h (by omega)
  rw [hchunks] at hload
  exact hload

theorem toBitVec_rotateRight {n : Nat} (hn : n < 32) (x : UInt32) : (rotateRight x n).toBitVec = rotr n x.toBitVec := by
  rw [rotateRight, BitVec.rotateRight_def, Nat.mod_eq_of_lt hn, rotr]

theorem toBitVec_scheduleWord (w : Vector UInt32 64) (i : Nat) (h : i < 64) :
    (scheduleWord w i h).toBitVec =
      sigma1 w[i - 2].toBitVec + w[i - 7].toBitVec + sigma0 w[i - 15].toBitVec + w[i - 16].toBitVec := by
  unfold scheduleWord sigma0 sigma1
  simp only [UInt32.toBitVec_add, UInt32.toBitVec_xor, UInt32.toBitVec_shiftRight,
    toBitVec_rotateRight (show 7 < 32 by decide), toBitVec_rotateRight (show 18 < 32 by decide),
    toBitVec_rotateRight (show 17 < 32 by decide), toBitVec_rotateRight (show 19 < 32 by decide)]
  have hthree : w[i - 15].toBitVec >>> ((3 : UInt32).toBitVec % 32) = w[i - 15].toBitVec >>> 3 := rfl
  have hten : w[i - 2].toBitVec >>> ((10 : UInt32).toBitVec % 32) = w[i - 2].toBitVec >>> 10 := rfl
  rw [hthree, hten]
  ac_rfl

theorem extend_eq {block : Bytes} {w : Vector UInt32 64}
    (hw : ∀ (t : Nat) (h : t < 64), t < 16 → w[t].toBitVec = wordAt block t) (t : Nat) (h : t < 64) :
    (extend w)[t].toBitVec = schedule (wordAt block) t := by
  have hall : ∀ (t : Nat) (h : t < 64), t < 16 + 48 → (extend w)[t].toBitVec = schedule (wordAt block) t := by
    apply foldl_invariant fun n (w : Vector UInt32 64) =>
      ∀ (t : Nat) (h : t < 64), t < 16 + n → w[t].toBitVec = schedule (wordAt block) t
    · intro t h ht
      rw [schedule, if_pos ht, hw t h ht]
    · intro i w hw t h ht
      rw [Vector.getElem_set]
      split
      · rename_i heq
        subst heq
        rw [schedule, if_neg (by omega), toBitVec_scheduleWord, hw _ (by omega) (by omega), hw _ (by omega) (by omega),
          hw _ (by omega) (by omega), hw _ (by omega) (by omega)]
      · exact hw t h (by omega)
  exact hall t h h

/-! ## Rounds -/

/-- The working variables of the standard. -/
def Locals.working (v : Locals) : Working :=
  ⟨v.a.toBitVec, v.b.toBitVec, v.c.toBitVec, v.d.toBitVec, v.e.toBitVec, v.f.toBitVec, v.g.toBitVec, v.hh.toBitVec⟩

theorem working_round (v : Locals) (k w : UInt32) : (v.round k w).working = v.working.next k.toBitVec w.toBitVec := by
  unfold Locals.round Locals.working Working.next bigSigma0 bigSigma1 ch maj
  simp only [UInt32.toBitVec_add, UInt32.toBitVec_xor, UInt32.toBitVec_and, UInt32.toBitVec_not,
    toBitVec_rotateRight (show 2 < 32 by decide), toBitVec_rotateRight (show 13 < 32 by decide),
    toBitVec_rotateRight (show 22 < 32 by decide), toBitVec_rotateRight (show 6 < 32 by decide),
    toBitVec_rotateRight (show 11 < 32 by decide), toBitVec_rotateRight (show 25 < 32 by decide)]

/-- All 64 rounds of a block, in order. -/
def Rounds (allRounds : Vector UInt32 64 → Locals → Locals) : Prop :=
  ∀ (w : Vector UInt32 64) (v : Locals) (m : Nat → Word), (∀ (t : Nat) (h : t < 64), w[t].toBitVec = m t) →
    (allRounds w v).working = rounds roundConstant m v.working 64

theorem rounds_singleRounds : Rounds ExecutionAttestation.singleRounds := by
  intro w v m hw
  apply foldl_invariant fun n (v' : Locals) => v'.working = rounds roundConstant m v.working n
  · rfl
  · intro i v' hv
    rw [working_round, hv, rounds, k_eq i.val i.isLt, ← hw i.val i.isLt]
    rfl

/-- Eight rounds of an iteration are eight rounds of the standard. -/
theorem rounds_unrolledRounds : Rounds Sha256.unrolledRounds := by
  intro w v m hw
  have hround : ∀ (t : Nat) (h : t < 64) (v' : Locals), v'.working = rounds roundConstant m v.working t →
      (v'.round k[t] w[t]).working = rounds roundConstant m v.working (t + 1) := by
    intro t h v' hv
    rw [working_round, hv, rounds, k_eq t h, ← hw t h]
  apply foldl_invariant fun n (v' : Locals) => v'.working = rounds roundConstant m v.working (8 * n)
  · rfl
  · intro i v' hv
    have h1 := hround (8 * i.val) (by omega) v' hv
    have h2 := hround (8 * i.val + 1) (by omega) _ h1
    have h3 := hround (8 * i.val + 2) (by omega) _ h2
    have h4 := hround (8 * i.val + 3) (by omega) _ h3
    have h5 := hround (8 * i.val + 4) (by omega) _ h4
    have h6 := hround (8 * i.val + 5) (by omega) _ h5
    have h7 := hround (8 * i.val + 6) (by omega) _ h6
    exact hround (8 * i.val + 7) (by omega) _ h7

/-! ## Blocks -/

theorem working_addLocals (h : Vector UInt32 8) (v : Locals) :
    (Locals.start (addLocals h v)).working = v.working.add (Locals.start h).working := by
  have hcomm : ∀ x y : UInt32, (x + y).toBitVec = y.toBitVec + x.toBitVec := fun x y => by
    rw [UInt32.toBitVec_add, BitVec.add_comm]
  unfold addLocals Locals.start Locals.working Working.add
  simp [hcomm]

theorem working_h0 : (Locals.start h0).working = initialValue := by
  unfold Locals.start Locals.working initialValue
  rw [h0_eq 0 (by decide), h0_eq 1 (by decide), h0_eq 2 (by decide), h0_eq 3 (by decide), h0_eq 4 (by decide),
    h0_eq 5 (by decide), h0_eq 6 (by decide), h0_eq 7 (by decide)]

theorem hashBlocks_eq {load : Bytes → Vector UInt32 64 → Vector UInt32 64}
    {allRounds : Vector UInt32 64 → Locals → Locals} (hload : Loads load) (hrounds : Rounds allRounds)
    {blocks : List Bytes} (hlen : ∀ block ∈ blocks, block.length = 64) :
    (Locals.start (hashBlocks load allRounds blocks)).working = blocks.foldl compress initialValue := by
  unfold hashBlocks
  rw [← working_h0]
  generalize h0 = h, Vector.replicate 64 (0 : UInt32) = w
  induction blocks generalizing h w with
  | nil => rfl
  | cons block blocks ih =>
    obtain ⟨hblock, hblocks⟩ := List.forall_mem_cons.mp hlen
    rw [List.foldl_cons, List.foldl_cons, ih hblocks, working_addLocals]
    congr 1
    rw [compress, hrounds _ _ _ (extend_eq (hload block w hblock))]

theorem toList_eight (h : Vector UInt32 8) : h.toList = [h[0], h[1], h[2], h[3], h[4], h[5], h[6], h[7]] := by
  have height : h = #v[h[0], h[1], h[2], h[3], h[4], h[5], h[6], h[7]] := by
    apply Vector.ext
    intro i hi
    interval_cases i <;> rfl
  rw [height]
  rfl

theorem digest_eq (h : Vector UInt32 8) :
    digest h = (Locals.start h).working.words.flatMap fun w => beOf 4 w.toNat := by
  rw [digest, toList_eight]
  rfl

theorem length_digest (h : Vector UInt32 8) : (digest h).length = 32 := by
  simp [digest, toList_eight]

/-! ## Agreement -/

/-- Both give the same 32 bytes, and those of the standard as long as the bits of the input can be counted. -/
theorem sha256_agree (data : Bytes) :
    (Sha256.sha256 data).length = 32 ∧ ExecutionAttestation.sha256 data = Sha256.sha256 data ∧
      (data.length < 2 ^ 61 → Sha256.sha256 data = Sha2.sha256 data) := by
  have hlen : ∀ block ∈ chunksExact 64 (preprocess data), block.length = 64 := fun block hblock =>
    length_of_mem_chunksExact hblock
  have hcrate := hashBlocks_eq loads_loadWords rounds_unrolledRounds hlen
  have hattestation := hashBlocks_eq loads_loadChunks rounds_singleRounds hlen
  refine ⟨length_digest _, ?_, fun hshort => ?_⟩
  · rw [ExecutionAttestation.sha256, Sha256.sha256, digest_eq, digest_eq, hcrate, hattestation]
  · rw [Sha256.sha256, digest_eq, hcrate, preprocess_eq hshort, Sha2.sha256]

example : Sha256.sha256 [97, 98, 99] =
    [0xba, 0x78, 0x16, 0xbf, 0x8f, 0x01, 0xcf, 0xea, 0x41, 0x41, 0x40, 0xde, 0x5d, 0xae, 0x22, 0x23,
      0xb0, 0x03, 0x61, 0xa3, 0x96, 0x17, 0x7a, 0x9c, 0xb4, 0x10, 0xff, 0x61, 0xf2, 0x00, 0x15, 0xad] := by
  decide +kernel

end Ccos.Rsi
