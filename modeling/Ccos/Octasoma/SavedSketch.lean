import Ccos.Octasoma.Saved
import Ccos.Octasoma.Sketch

/-!
# Saved sketch indexes

An index is saved without its hyperplanes, which its seed gives again. The version of the file follows the precision of
the embeddings and how the sketches were computed, so that older builds still read what they can.
-/

namespace Ccos.Octasoma

open ByteCodec FileFormat FileGuard

/-- `as i8` saturates. -/
class SavedQuantized (F : Type) extends Quantized F, Stored F where
  toInt_range : ∀ x : F, -128 ≤ Quantized.toInt x ∧ Quantized.toInt x ≤ 127

/-- What is outside of the index: the first numbers that a seed draws, and the dot product of the vector unit. -/
structure SketchHost (F : Type) where
  draw : UInt64 → Nat → List F
  sdot : List F → List F → F

/-- An index with the seed of its hyperplanes and the path its sketches were computed with. -/
structure SketchStore (F : Type) where
  index : SketchIndex F
  seed : UInt64
  simdSketches : Bool

inductive Precision
  | f32 | int8 | nf4
  deriving DecidableEq

namespace EmbeddingStore

variable {F : Type}

def empty : Precision → EmbeddingStore F
  | .f32 => .f32 []
  | .int8 => .int8 [] []
  | .nf4 => .nf4 [] []

def precisionCode : EmbeddingStore F → Nat
  | .f32 _ => 0
  | .int8 _ _ => 1
  | .nf4 _ _ => 2

end EmbeddingStore

namespace SketchStore

variable {F : Type}

/-- `SimHasher::new`, which rounds the bits up to whole words. -/
def newHasher (host : SketchHost F) (dim bits : Nat) (seed : UInt64) : SimHasher F :=
  let bits := (bits + 63) / 64 * 64
  { planes := host.draw seed (bits * dim), dim, bits }

def newWithPrecision (host : SketchHost F) (dim bits : Nat) (seed : UInt64) (precision : Precision) (simd : Bool) :
    Except Stop (SketchStore F) :=
  if dim = 0 ∨ bits = 0 then .error .panic
  else .ok { index := ⟨newHasher host dim bits seed, dim, .empty precision, [], [], []⟩, seed, simdSketches := simd }

/-! ## Inserting -/

section

variable [Quantized F] (host : SketchHost F)

/-- The sketch of an embedding whose dot products the vector unit computes. -/
def sketchSimd (h : SimHasher F) (embedding : List F) : List UInt64 :=
  if embedding.length ≠ h.dim then []
  else (List.range h.bits).foldl (fun out b =>
    if Scalar.ge (host.sdot (row h.planes h.dim b) embedding) (Scalar.lit 0) then
      out.modify (b / 64) fun word => word ||| (1 : UInt64) <<< (b % 64).toUInt64
    else out) (List.replicate h.words 0)

def sketchWithPath (s : SketchStore F) (v : List F) : List UInt64 :=
  if s.simdSketches then sketchSimd host s.index.hasher v else s.index.hasher.sketch v

def insert (s : SketchStore F) (embedding : List F) (payload : List UInt8) : SketchStore F × Bool :=
  if embedding.length ≠ s.index.dim then (s, false)
  else
    let sk := s.sketchWithPath host embedding
    ({ s with index := { (s.index.insert embedding payload).1 with sketches := s.index.sketches ++ sk } }, true)

end

/-! ## The file -/

def fileMagic : Bytes := [83, 75, 67, 72]

/-- The oldest version that can say what the store is. -/
def fileVersion (precisionCode : Nat) (simd : Bool) : Nat :=
  if simd ∨ precisionCode = 2 then 4 else if precisionCode = 1 then 3 else 2

/-- Bit 0 tells the path of the sketches, the two bits above it the precision. -/
def putFlags (precisionCode : Nat) (simd : Bool) : Bytes :=
  if fileVersion precisionCode simd = 4 then putU32 ((if simd then 1 else 0) + 2 * precisionCode) else []

def putI8 (c : Int) : UInt8 := UInt8.ofNat (c % 256).toNat

def readI8 (b : UInt8) : Int := if b.toNat < 128 then b.toNat else b.toNat - 256

section

variable [Stored F]

def putStore : EmbeddingStore F → Bytes
  | .f32 rows => rows.flatMap putF32
  | .int8 codes scales => scales.flatMap putF32 ++ codes.map putI8
  | .nf4 codes scales => scales.flatMap putF32 ++ codes

def putOffset (record : Nat × Nat) : Bytes := putU64 record.1 ++ putU64 record.2

def putHeader (s : SketchStore F) : Bytes :=
  fileMagic ++ (putU32 (fileVersion s.index.store.precisionCode s.simdSketches) ++ (putU32 s.index.dim ++
    (putU32 s.index.hasher.bits ++ (putU64 s.seed.toNat ++ putFlags s.index.store.precisionCode s.simdSketches))))

def saveToDisk (z : Lz4) (s : SketchStore F) : Bytes :=
  putHeader s ++ (putU64 s.index.len ++ (putStore s.index.store ++
    (s.index.sketches.flatMap (fun word => putU64 word.toNat) ++ (s.index.offsets.flatMap putOffset ++
      putArena z s.index.payloads))))

/-- What the header of a file says. -/
structure Header where
  version : Nat
  bits : Nat
  seed : UInt64
  simdSketches : Bool
  precisionCode : Nat

def checkMagic (magic : Bytes) : Except FileError Unit :=
  if magic ≠ fileMagic then .error (.invalidData "not a SketchIndex file (bad magic)".toList) else .ok ()

def checkVersion (version : Nat) : Except FileError Unit :=
  if version = 0 ∨ 4 < version then
    .error (.invalidData ("unsupported SketchIndex version ".toList ++ natStr version))
  else .ok ()

def checkDim (expectedDim dim : Nat) : Except FileError Unit :=
  if dim ≠ expectedDim then
    .error (.invalidData ("dim mismatch: file has ".toList ++ natStr dim ++ ", caller expected ".toList ++
      natStr expectedDim))
  else .ok ()

/-- A build without the vector path refuses what was sketched with it. -/
def checkPath (simdBuild simd : Bool) : Except FileError Unit :=
  if simd ∧ ¬ simdBuild then
    .error (.invalidData (
      "this store's sketches were computed with the SIMD path — build                  with the `simd` ".toList ++
      "feature to load it (mixing compute paths would                  silently degrade Hamming fidelity)".toList))
  else .ok ()

def readFlags (version : Nat) : Reader FileError (Bool × Nat) :=
  if version = 4 then (fun flags => (flags % 2 == 1, flags / 2 % 4)) <$> readU32
  else pure (false, if version = 3 then 1 else 0)

def readHeader (simdBuild : Bool) (expectedDim : Nat) : Reader FileError Header := do
  let magic ← takeBytes .unexpectedEof 4
  settle (checkMagic magic)
  let version ← readU32
  settle (checkVersion version)
  let dim ← readU32
  let bits ← readU32
  let seed ← readU64
  settle (checkDim expectedDim dim)
  let flags ← readFlags version
  settle (checkPath simdBuild flags.1)
  pure { version, bits, seed := UInt64.ofNat seed, simdSketches := flags.1, precisionCode := flags.2 }

/-- The bytes of one embedding. -/
def embedBytes (precisionCode dim : Nat) : Nat :=
  match precisionCode with
  | 1 => 4 + dim
  | 2 => 4 + (dim + 1) / 2
  | _ => dim * 4

end

section

variable [SavedQuantized F]

/-- Version 1 stored raw embeddings, which the load normalizes row by row. -/
def migrated (version count dim : Nat) (rows : List F) : List F :=
  if version = 1 then (List.range count).flatMap fun i => l2Normalize (row rows dim i) else rows

def readStore (version precisionCode count dim : Nat) : Reader FileError (EmbeddingStore F) :=
  if precisionCode = 2 then do
    let scales ← times readF32 count
    let codes ← takeBytes .unexpectedEof (count * ((dim + 1) / 2))
    pure (.nf4 codes scales)
  else if precisionCode = 1 then do
    let scales ← times readF32 count
    let codes ← takeBytes .unexpectedEof (count * dim)
    pure (.int8 (codes.map readI8) scales)
  else do
    let rows ← times readF32 (count * dim)
    pure (.f32 (migrated version count dim rows))

def readOffset : Reader FileError (Nat × Nat) := do
  let off ← readU64
  let len ← readU64
  pure (off, len)

def checkOffsets (offsets : List (Nat × Nat)) (arenaLen : Nat) : Except FileError Unit :=
  offsets.forM fun record => guardPayloadBounds "SKCH item".toList record.1 record.2 arenaLen

def checkHasher (dim bits : Nat) : Except FileError Unit := if dim = 0 ∨ bits = 0 then .error .panic else .ok ()

def readSketchStore (z : Lz4) (host : SketchHost F) (simdBuild : Bool) (dim : Nat) :
    Reader FileError (SketchStore F) := do
  let header ← readHeader simdBuild dim
  let count ← readU64
  let words := header.bits / 64
  checkLeft (guardCount "SKCH items".toList count (embedBytes header.precisionCode dim + words * 8 + 16))
  let store ← readStore header.version header.precisionCode count dim
  let sketches ← times (UInt64.ofNat <$> readU64) (count * words)
  let offsets ← times readOffset count
  let payloads ← readArena z "SKCH payload arena".toList
  settle (checkOffsets offsets payloads.length)
  settle (checkHasher dim header.bits)
  pure { index := { hasher := newHasher host dim header.bits header.seed, dim, store, sketches, payloads, offsets }
         seed := header.seed
         simdSketches := header.simdSketches }

def loadFromDisk (z : Lz4) (host : SketchHost F) (simdBuild : Bool) (expectedDim : Nat) (bytes : Bytes) :
    Except FileError (SketchStore F) :=
  (readSketchStore z host simdBuild expectedDim bytes).map (·.1)

/-! ## What a file can hold -/

omit [SavedQuantized F] in
def Fits (count dim : Nat) : EmbeddingStore F → Prop
  | .f32 rows => rows.length = count * dim
  | .int8 codes scales => scales.length = count ∧ codes.length = count * dim ∧ ∀ c ∈ codes, -128 ≤ c ∧ c ≤ 127
  | .nf4 codes scales => scales.length = count ∧ codes.length = count * ((dim + 1) / 2)

/-- Every number fits its field, every table has its size, and the hyperplanes are those of the seed. -/
structure Storable (host : SketchHost F) (s : SketchStore F) : Prop where
  dim : 0 < s.index.dim ∧ s.index.dim < 2 ^ 32
  bits : 0 < s.index.hasher.bits ∧ s.index.hasher.bits < 2 ^ 32
  hasher : s.index.hasher = newHasher host s.index.dim s.index.hasher.bits s.seed
  count : s.index.len < 2 ^ 64
  store : Fits s.index.len s.index.dim s.index.store
  sketches : s.index.sketches.length = s.index.len * (s.index.hasher.bits / 64)
  offsets : ∀ record ∈ s.index.offsets, record.1 + record.2 ≤ s.index.payloads.length
  arena : s.index.payloads.length < 2 ^ 63

theorem readI8_putI8 {c : Int} (h : -128 ≤ c ∧ c ≤ 127) : readI8 (putI8 c) = c := by
  have hnat : (putI8 c).toNat = (c % 256).toNat := by
    rw [putI8, UInt8.toNat_ofNat']
    omega
  rw [readI8, hnat]
  split <;> omega

theorem fileVersion_cases (precisionCode : Nat) (simd : Bool) : fileVersion precisionCode simd = 4 ∨
    fileVersion precisionCode simd = 3 ∨ fileVersion precisionCode simd = 2 := by
  unfold fileVersion
  split
  · exact .inl rfl
  · split
    · exact .inr (.inl rfl)
    · exact .inr (.inr rfl)

theorem fileVersion_lt (precisionCode : Nat) (simd : Bool) : fileVersion precisionCode simd < 2 ^ 32 := by
  rcases fileVersion_cases precisionCode simd with h | h | h <;> rw [h] <;> norm_num

theorem checkVersion_ok (precisionCode : Nat) (simd : Bool) :
    checkVersion (fileVersion precisionCode simd) = .ok () := by
  rcases fileVersion_cases precisionCode simd with h | h | h <;> rw [h] <;> rfl

theorem readFlags_encodes {precisionCode : Nat} (hcode : precisionCode ≤ 2) (simd : Bool) :
    Encodes (readFlags (fileVersion precisionCode simd)) (putFlags precisionCode simd) (simd, precisionCode) := by
  have hflags : ∀ precisionCode ≤ 2, ∀ simd : Bool,
      (if simd then 1 else 0) + 2 * precisionCode < 2 ^ 32 ∧
      (((if simd then 1 else 0) + 2 * precisionCode) % 2 == 1, ((if simd then 1 else 0) + 2 * precisionCode) / 2 % 4) =
        (simd, precisionCode) ∧
      (fileVersion precisionCode simd ≠ 4 →
        (false, if fileVersion precisionCode simd = 3 then 1 else 0) = (simd, precisionCode)) := by decide
  obtain ⟨hlt, hflags, hplain⟩ := hflags precisionCode hcode simd
  unfold readFlags putFlags
  split
  · have h := (readU32_encodes hlt).map fun flags => (flags % 2 == 1, flags / 2 % 4)
    rwa [hflags] at h
  · rename_i hversion
    rw [hplain hversion]
    exact Encodes.pure _

omit [SavedQuantized F] in
theorem precisionCode_le (store : EmbeddingStore F) : store.precisionCode ≤ 2 := by
  cases store <;> simp [EmbeddingStore.precisionCode]

omit [SavedQuantized F] in
theorem readHeader_encodes {host : SketchHost F} {s : SketchStore F} (h : s.Storable host) {simdBuild : Bool}
    (hsimd : s.simdSketches = true → simdBuild = true) :
    Encodes (readHeader simdBuild s.index.dim) (putHeader s)
      ⟨fileVersion s.index.store.precisionCode s.simdSketches, s.index.hasher.bits, s.seed, s.simdSketches,
        s.index.store.precisionCode⟩ := by
  have hpath : checkPath simdBuild s.simdSketches = .ok () := if_neg fun hboth => hboth.2 (hsimd hboth.1)
  refine (Encodes.takeBytes FileError.unexpectedEof fileMagic).bind (Encodes.settled rfl ?_)
  refine (readU32_encodes (fileVersion_lt _ _)).bind (Encodes.settled (checkVersion_ok _ _) ?_)
  refine (readU32_encodes h.dim.2).bind ((readU32_encodes h.bits.2).bind ((readU64_encodes s.seed.toNat_lt).bind ?_))
  refine Encodes.settled (if_neg (not_not.mpr rfl)) ?_
  rw [UInt64.ofNat_toNat]
  exact (readFlags_encodes (precisionCode_le s.index.store) s.simdSketches).bind_nil
    (Encodes.settled hpath (Encodes.pure _))

theorem readStore_encodes {version count dim : Nat} (hversion : version ≠ 1) {store : EmbeddingStore F}
    (h : Fits count dim store) : Encodes (readStore version store.precisionCode count dim) (putStore store) store := by
  have hfloats : ∀ l : List F, Encodes (times readF32 l.length) (l.flatMap putF32) l :=
    fun l => Encodes.times fun x _ => readF32_encodes x
  cases store with
  | f32 rows =>
    have hrows : rows.length = count * dim := h
    show Encodes (readStore version 0 count dim) _ _
    rw [readStore, if_neg (by decide), if_neg (by decide), ← hrows]
    have hread := (hfloats rows).bind_pure fun rows => EmbeddingStore.f32 (migrated version count dim rows)
    rwa [show migrated version count dim rows = rows from if_neg hversion] at hread
  | int8 codes scales =>
    obtain ⟨rfl, hcodes, hrange⟩ := h
    have hlength : (codes.map putI8).length = scales.length * dim := by rw [List.length_map, hcodes]
    have hback : (codes.map putI8).map readI8 = codes := by
      rw [List.map_map]
      exact (List.map_congr_left fun c hc => readI8_putI8 (hrange c hc)).trans (List.map_id codes)
    show Encodes (readStore version 1 scales.length dim) _ _
    rw [readStore, if_neg (by decide), if_pos rfl, ← hlength]
    refine (hfloats scales).bind ?_
    have hread := (Encodes.takeBytes FileError.unexpectedEof (codes.map putI8)).bind_pure fun codes =>
      EmbeddingStore.int8 (codes.map readI8) scales
    rwa [hback] at hread
  | nf4 codes scales =>
    obtain ⟨rfl, hcodes⟩ := h
    show Encodes (readStore version 2 scales.length dim) _ _
    rw [readStore, if_pos rfl, ← hcodes]
    exact (hfloats scales).bind ((Encodes.takeBytes FileError.unexpectedEof codes).bind_pure fun codes =>
      EmbeddingStore.nf4 codes scales)

theorem length_flatMap_putF32 (l : List F) : (l.flatMap putF32).length = 4 * l.length :=
  length_flatMap_of_width length_putF32 l

theorem length_putStore {count dim : Nat} {store : EmbeddingStore F} (h : Fits count dim store) :
    (putStore store).length = count * embedBytes store.precisionCode dim := by
  cases store with
  | f32 rows =>
    have hrows : rows.length = count * dim := h
    show (rows.flatMap putF32).length = count * (dim * 4)
    rw [length_flatMap_putF32, hrows]
    ring
  | int8 codes scales =>
    obtain ⟨rfl, hcodes, -⟩ := h
    show (scales.flatMap putF32 ++ codes.map putI8).length = scales.length * (4 + dim)
    rw [List.length_append, length_flatMap_putF32, List.length_map, hcodes]
    ring
  | nf4 codes scales =>
    obtain ⟨rfl, hcodes⟩ := h
    show (scales.flatMap putF32 ++ codes).length = scales.length * (4 + (dim + 1) / 2)
    rw [List.length_append, length_flatMap_putF32, hcodes]
    ring

theorem checkOffsets_ok {offsets : List (Nat × Nat)} {arenaLen : Nat} (harena : arenaLen < 2 ^ 64)
    (h : ∀ record ∈ offsets, record.1 + record.2 ≤ arenaLen) : checkOffsets offsets arenaLen = .ok () := by
  unfold checkOffsets
  induction offsets with
  | nil => rfl
  | cons record offsets ih =>
    obtain ⟨hrecord, hoffsets⟩ := List.forall_mem_cons.mp h
    show (guardPayloadBounds _ record.1 record.2 arenaLen >>= fun _ => offsets.forM _) = _
    rw [guardPayloadBounds_ok hrecord harena]
    exact ih hoffsets

theorem readOffset_encodes {record : Nat × Nat} (h : record.1 + record.2 < 2 ^ 64) :
    Encodes readOffset (putOffset record) record :=
  (readU64_encodes (by omega)).bind ((readU64_encodes (by omega)).bind_pure fun len => (record.1, len))

theorem readSketchStore_encodes {z : Lz4} (hz : z.Lawful) {host : SketchHost F} {s : SketchStore F}
    (h : s.Storable host) {simdBuild : Bool} (hsimd : s.simdSketches = true → simdBuild = true) :
    Encodes (readSketchStore z host simdBuild s.index.dim) (saveToDisk z s) s := by
  have harena : s.index.payloads.length < 2 ^ 64 := h.arena.trans (by norm_num)
  have hversion : fileVersion s.index.store.precisionCode s.simdSketches ≠ 1 := by
    rcases fileVersion_cases s.index.store.precisionCode s.simdSketches with h | h | h <;> rw [h] <;> decide
  have hwords : Encodes (times (UInt64.ofNat <$> readU64) (s.index.len * (s.index.hasher.bits / 64)))
      (s.index.sketches.flatMap fun word => putU64 word.toNat) s.index.sketches := by
    rw [← h.sketches]
    refine Encodes.times fun word _ => ?_
    have hread := (readU64_encodes word.toNat_lt).map UInt64.ofNat
    rwa [UInt64.ofNat_toNat] at hread
  have hoffsets : Encodes (times readOffset s.index.len) (s.index.offsets.flatMap putOffset) s.index.offsets :=
    Encodes.times fun record hrecord => readOffset_encodes ((h.offsets record hrecord).trans_lt harena)
  refine (readHeader_encodes h hsimd).bind ((readU64_encodes h.count).bind ?_)
  refine Encodes.checkLeft (fun n hn => guardCount_ok (le_trans ?_ hn)) ?_
  · have hsketches := length_flatMap_of_width (f := fun word : UInt64 => putU64 word.toNat) (fun _ => length_putU64 _)
      s.index.sketches
    have hrecord : ∀ record, (putOffset record).length = 16 := fun _ => by
      rw [putOffset, List.length_append, length_putU64, length_putU64]
    rw [List.length_append, List.length_append, List.length_append, length_putStore h.store, hsketches, h.sketches,
      length_flatMap_of_width hrecord]
    show s.index.len * (embedBytes s.index.store.precisionCode s.index.dim + s.index.hasher.bits / 64 * 8 + 16) ≤
      s.index.len * _ + (_ + (16 * s.index.len + _))
    rw [Nat.mul_add, Nat.mul_add, Nat.mul_comm s.index.len 16]
    have hassoc : s.index.len * (s.index.hasher.bits / 64 * 8) = 8 * (s.index.len * (s.index.hasher.bits / 64)) := by
      ring
    omega
  · refine (readStore_encodes hversion h.store).bind (hwords.bind (hoffsets.bind ?_))
    refine (readArena_encodes hz _ h.arena).bind_nil (Encodes.settled (checkOffsets_ok harena h.offsets) ?_)
    refine Encodes.settled (if_neg (not_or.mpr ⟨h.dim.1.ne', h.bits.1.ne'⟩)) ?_
    rw [← h.hasher]
    exact Encodes.pure s

omit [SavedQuantized F] in
/-- A build without the vector path stops at the header of a store that was sketched with it. -/
theorem readHeader_refuses [Stored F] {host : SketchHost F} {s : SketchStore F} (h : s.Storable host)
    (hsimd : s.simdSketches = true) (rest : Bytes) :
    ∃ e, readHeader false s.index.dim (putHeader s ++ rest) = .error e := by
  unfold putHeader readHeader
  simp only [List.append_assoc]
  refine (Encodes.takeBytes FileError.unexpectedEof fileMagic).bind_error (Encodes.settled_error rfl ?_)
  refine (readU32_encodes (fileVersion_lt _ _)).bind_error (Encodes.settled_error (checkVersion_ok _ _) ?_)
  refine (readU32_encodes h.dim.2).bind_error ((readU32_encodes h.bits.2).bind_error ?_)
  refine (readU64_encodes s.seed.toNat_lt).bind_error (Encodes.settled_error (if_neg (not_not.mpr rfl)) ?_)
  refine (readFlags_encodes (precisionCode_le s.index.store) s.simdSketches).bind_error ?_
  rw [hsimd]
  exact ⟨_, rfl⟩

end

/-! ## Every insert -/

section

variable [SavedQuantized F] (host : SketchHost F)

theorem length_l2Normalize (v : List F) : (l2Normalize v).length = v.length := by
  unfold l2Normalize
  dsimp only
  split
  · exact List.length_map ..
  · rfl

theorem quantizeI8_fits (v : List F) :
    (quantizeI8 v).1.length = v.length ∧ ∀ c ∈ (quantizeI8 v).1, -128 ≤ c ∧ c ≤ 127 := by
  unfold quantizeI8
  dsimp only
  split
  · refine ⟨List.length_map .., fun c hc => ?_⟩
    obtain ⟨_, -, rfl⟩ := List.mem_map.mp hc
    omega
  · refine ⟨List.length_map .., fun c hc => ?_⟩
    obtain ⟨x, -, rfl⟩ := List.mem_map.mp hc
    exact SavedQuantized.toInt_range _

theorem length_foldl_modify {A B : Type} (index : B → Nat) (change : B → A → A) (l : List B) (out : List A) :
    (l.foldl (fun out b => out.modify (index b) (change b)) out).length = out.length := by
  induction l generalizing out with
  | nil => rfl
  | cons b l ih => rw [List.foldl_cons, ih, List.length_modify]

theorem length_quantizeNf4 (v : List F) : (quantizeNf4 v).1.length = (v.length + 1) / 2 := by
  unfold quantizeNf4
  dsimp only
  rw [length_foldl_modify, List.length_replicate]

theorem length_setBits {p : Nat → Prop} [DecidablePred p] (change : Nat → UInt64 → UInt64) (l : List Nat)
    (out : List UInt64) :
    (l.foldl (fun out b => if p b then out.modify (b / 64) (change b) else out) out).length = out.length := by
  induction l generalizing out with
  | nil => rfl
  | cons b l ih =>
    rw [List.foldl_cons, ih]
    split
    · rw [List.length_modify]
    · rfl

theorem length_sketchWithPath {s : SketchStore F} {v : List F} (hv : v.length = s.index.hasher.dim) :
    (s.sketchWithPath host v).length = s.index.hasher.words := by
  unfold sketchWithPath
  split
  · unfold sketchSimd
    rw [if_neg (not_not.mpr hv), length_setBits, List.length_replicate]
  · unfold SimHasher.sketch
    rw [if_neg (not_not.mpr hv), length_setBits, List.length_replicate]

/-- What a store keeps through its inserts. -/
structure Grown (dim bits : Nat) (seed : UInt64) (simd : Bool) (s : SketchStore F) : Prop where
  hasher : s.index.hasher = newHasher host dim bits seed
  dim : s.index.dim = dim
  seed : s.seed = seed
  simd : s.simdSketches = simd
  store : Fits s.index.len s.index.dim s.index.store
  sketches : s.index.sketches.length = s.index.len * s.index.hasher.words
  offsets : ∀ record ∈ s.index.offsets, record.1 + record.2 ≤ s.index.payloads.length

variable {host} {dim bits : Nat} {seed : UInt64} {simd : Bool} {s : SketchStore F}

omit [SavedQuantized F] in
theorem newWithPrecision_grown {precision : Precision}
    (h : newWithPrecision host dim bits seed precision simd = .ok s) : s.Grown host dim bits seed simd := by
  unfold newWithPrecision at h
  split at h
  · cases h
  · obtain rfl := Except.ok.inj h
    refine ⟨rfl, rfl, rfl, rfl, ?_, (Nat.zero_mul _).symm, fun record hrecord => absurd hrecord List.not_mem_nil⟩
    cases precision with
    | f32 => exact (Nat.zero_mul dim).symm
    | int8 => exact ⟨rfl, (Nat.zero_mul dim).symm, fun c hc => absurd hc List.not_mem_nil⟩
    | nf4 => exact ⟨rfl, (Nat.zero_mul _).symm⟩

theorem fits_stored {count : Nat} {v : List F} {store : EmbeddingStore F} (h : Fits count v.length store) :
    Fits (count + 1) v.length (SketchIndex.stored v store) := by
  cases store with
  | f32 rows =>
    have hrows : rows.length = count * v.length := h
    show (rows ++ v).length = (count + 1) * v.length
    rw [List.length_append, hrows, Nat.succ_mul]
  | int8 codes scales =>
    obtain ⟨rfl, hcodes, hrange⟩ := h
    obtain ⟨hlength, hnew⟩ := quantizeI8_fits v
    refine ⟨List.length_append, ?_, fun c hc => ?_⟩
    · rw [List.length_append, hcodes, hlength, Nat.succ_mul]
    · rcases List.mem_append.mp hc with hc | hc
      · exact hrange c hc
      · exact hnew c hc
  | nf4 codes scales =>
    obtain ⟨rfl, hcodes⟩ := h
    refine ⟨List.length_append, ?_⟩
    rw [List.length_append, hcodes, length_quantizeNf4, Nat.succ_mul]

theorem Grown.insert (h : s.Grown host dim bits seed simd) (embedding : List F) (payload : List UInt8) :
    (s.insert host embedding payload).1.Grown host dim bits seed simd := by
  unfold SketchStore.insert
  split
  · exact h
  · rename_i hlength
    have hdim : embedding.length = s.index.dim := not_not.mp hlength
    have hhasher : embedding.length = s.index.hasher.dim := by
      rw [hdim, h.dim, h.hasher]
      rfl
    have hinsert : s.index.insert embedding payload = ({ s.index with
        store := SketchIndex.stored (l2Normalize embedding) s.index.store
        sketches := s.index.sketches ++ s.index.hasher.sketch embedding
        payloads := s.index.payloads ++ payload
        offsets := s.index.offsets ++ [(s.index.payloads.length, payload.length)] }, true) := if_neg hlength
    rw [hinsert]
    have hlen : (s.index.offsets ++ [(s.index.payloads.length, payload.length)]).length = s.index.len + 1 :=
      List.length_append
    refine ⟨h.hasher, h.dim, h.seed, h.simd, ?_, ?_, fun record hrecord => ?_⟩
    · show Fits (s.index.offsets ++ [_]).length s.index.dim _
      have hnorm : (l2Normalize embedding).length = s.index.dim := (length_l2Normalize embedding).trans hdim
      have hstore := h.store
      rw [← hnorm] at hstore
      rw [hlen, ← hnorm]
      exact fits_stored hstore
    · show (s.index.sketches ++ s.sketchWithPath host embedding).length = (s.index.offsets ++ [_]).length * _
      rw [hlen, List.length_append, length_sketchWithPath host hhasher, h.sketches, Nat.succ_mul]
    · show record.1 + record.2 ≤ (s.index.payloads ++ payload).length
      rw [List.length_append]
      rcases List.mem_append.mp hrecord with hold | hnew
      · exact (h.offsets record hold).trans (Nat.le_add_right _ _)
      · obtain rfl := List.mem_singleton.mp hnew
        exact le_rfl

def insertAll (host : SketchHost F) (s : SketchStore F) (inserts : List (List F × List UInt8)) : SketchStore F :=
  inserts.foldl (fun s insert => (s.insert host insert.1 insert.2).1) s

theorem Grown.insertAll (h : s.Grown host dim bits seed simd) (inserts : List (List F × List UInt8)) :
    (s.insertAll host inserts).Grown host dim bits seed simd := by
  induction inserts generalizing s with
  | nil => exact h
  | cons insert inserts ih => exact ih (h.insert insert.1 insert.2)

end

instance : SavedQuantized Word where
  round a := a
  toInt _ := 0
  toInt_range _ := by decide +kernel

/-- Every number drawn is one. -/
def onesHost : SketchHost Word := ⟨fun _ n => List.replicate n .one, fun a _ => a.headD .one⟩

/-- One embedding in packed codes. -/
def oneSketch : SketchStore Word :=
  let index : SketchIndex Word := ⟨newHasher onesHost 1 1 7, 1, .empty .nf4, [], [], []⟩
  insertAll onesHost ⟨index, 7, false⟩ [([.one], [5])]

end SketchStore

end Ccos.Octasoma
