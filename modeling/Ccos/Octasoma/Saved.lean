import Ccos.Octasoma.Memory
import Ccos.Lib.FileFormat
import Ccos.Lib.Outcome

/-!
# Saved memories

A memory is saved to one little-endian file, with its payloads compressed. The loader checks every count that the file
declares against the bytes that are left, before it makes room for the records.
-/

namespace Ccos.Octasoma

open ByteCodec FileFormat

/-- The bits of an `f32`. -/
class Stored (F : Type) where
  toBits : F → UInt32
  fromBits : UInt32 → F
  fromBits_toBits : ∀ x, fromBits (toBits x) = x

/-- The block compression of the payloads. -/
structure Lz4 where
  compress : Bytes → Bytes
  decompress : Bytes → Nat → Except Str Bytes

/-- What the loaders rely on: a block decompresses to what it was made of, and expands by a bounded factor. -/
structure Lz4.Lawful (z : Lz4) : Prop where
  decompress_compress : ∀ b, z.decompress (z.compress b) b.length = .ok b
  length_le : ∀ b, b.length ≤ 256 * (z.compress b).length
  compress_lt : ∀ b, b.length < 2 ^ 63 → (z.compress b).length < 2 ^ 64

/-- How a load stops: with an `io::Error`, or at an assertion. -/
inductive FileError
  | unexpectedEof
  | invalidData (message : Str)
  | panic
  deriving DecidableEq

/-! ## Guards -/

namespace FileGuard

def maxLz4Ratio : Nat := 256

/-- A file-declared count of records cannot need more bytes than remain. -/
def guardCount (what : Str) (count minRecordBytes remaining : Nat) : Except FileError Unit :=
  let need := count * minRecordBytes
  if remaining < need then
    .error (.invalidData (what ++ ": ".toList ++ natStr count ++ " declared records need at least ".toList ++
      natStr need ++ " bytes, but only ".toList ++ natStr remaining ++ " remain in the file".toList))
  else .ok ()

/-- The product saturates at `u64::MAX`. -/
def guardDecompressed (what : Str) (decompLen compLen : Nat) : Except FileError Unit :=
  if min (compLen * maxLz4Ratio) (2 ^ 64 - 1) < decompLen then
    .error (.invalidData (what ++ ": declared decompressed length ".toList ++ natStr decompLen ++ " exceeds ".toList ++
      natStr maxLz4Ratio ++ "x the ".toList ++ natStr compLen ++ " compressed bytes — corrupt or hostile".toList))
  else .ok ()

/-- A payload record lies in the arena; a sum beyond `usize` does not. -/
def guardPayloadBounds (what : Str) (offset len arenaLen : Nat) : Except FileError Unit :=
  if 2 ^ 64 ≤ offset + len ∨ arenaLen < offset + len then
    .error (.invalidData (what ++ ": payload record [".toList ++ natStr offset ++ ", ".toList ++ natStr offset ++
      "+".toList ++ natStr len ++ ") exceeds the ".toList ++ natStr arenaLen ++ "-byte payload arena".toList))
  else .ok ()

theorem guardCount_ok {what : Str} {count minRecordBytes remaining : Nat} (h : count * minRecordBytes ≤ remaining) :
    guardCount what count minRecordBytes remaining = .ok () := if_neg (Nat.not_lt.mpr h)

theorem guardPayloadBounds_ok {what : Str} {offset len arenaLen : Nat} (h : offset + len ≤ arenaLen)
    (harena : arenaLen < 2 ^ 64) : guardPayloadBounds what offset len arenaLen = .ok () :=
  if_neg (not_or.mpr ⟨Nat.not_le.mpr (h.trans_lt harena), Nat.not_lt.mpr h⟩)

end FileGuard

open FileGuard

/-! ## Fields -/

def readU32 : Reader FileError Nat := natLe .unexpectedEof 4
def readU64 : Reader FileError Nat := natLe .unexpectedEof 8

def putU32 (n : Nat) : Bytes := leOf 4 n
def putU64 (n : Nat) : Bytes := leOf 8 n

section

variable {F : Type} [Stored F]

def readF32 : Reader FileError F := (fun n => Stored.fromBits (UInt32.ofNat n)) <$> readU32

def putF32 (x : F) : Bytes := putU32 (Stored.toBits x).toNat

def readPoint : Reader FileError (Point F) := do
  let x ← readF32
  let y ← readF32
  let z ← readF32
  pure ![x, y, z]

def putPoint (p : Point F) : Bytes := putF32 (p 0) ++ (putF32 (p 1) ++ putF32 (p 2))

end

/-- A count, and as many records. -/
def readRecords {A : Type} (what : Str) (minRecordBytes : Nat) (r : Reader FileError A) :
    Reader FileError (List A) := do
  let count ← readU64
  checkLeft (guardCount what count minRecordBytes)
  times r count

def putRecords {A : Type} (put : A → Bytes) (l : List A) : Bytes := putU64 l.length ++ l.flatMap put

def readArena (z : Lz4) (what : Str) : Reader FileError Bytes := do
  let decompLen ← readU64
  let compLen ← readU64
  checkLeft (guardCount what compLen 1)
  checkLeft fun _ => guardDecompressed what decompLen compLen
  let compressed ← takeBytes .unexpectedEof compLen
  settle ((z.decompress compressed decompLen).mapError fun e =>
    .invalidData ("lz4 decompression failed: ".toList ++ e))

def putArena (z : Lz4) (arena : Bytes) : Bytes :=
  putU64 arena.length ++ (putU64 (z.compress arena).length ++ z.compress arena)

theorem readU32_encodes {n : Nat} (h : n < 2 ^ 32) : Encodes readU32 (putU32 n) n := Encodes.natLe _ h

theorem readU64_encodes {n : Nat} (h : n < 2 ^ 64) : Encodes readU64 (putU64 n) n := Encodes.natLe _ h

@[simp] theorem length_putU32 (n : Nat) : (putU32 n).length = 4 := length_leOf 4 n
@[simp] theorem length_putU64 (n : Nat) : (putU64 n).length = 8 := length_leOf 8 n

section

variable {F : Type} [Stored F]

@[simp] theorem length_putF32 (x : F) : (putF32 x).length = 4 := length_putU32 _

@[simp] theorem length_putPoint (p : Point F) : (putPoint p).length = 12 := by simp [putPoint]

theorem readF32_encodes (x : F) : Encodes readF32 (putF32 x) x := by
  have h := (readU32_encodes (Stored.toBits x).toNat_lt).map fun n => (Stored.fromBits (UInt32.ofNat n) : F)
  rwa [UInt32.ofNat_toNat, Stored.fromBits_toBits] at h

theorem readPoint_encodes (p : Point F) : Encodes readPoint (putPoint p) p := by
  have hp : ![p 0, p 1, p 2] = p := by
    funext a
    fin_cases a <;> rfl
  refine (readF32_encodes _).bind ((readF32_encodes _).bind ?_)
  have h := (readF32_encodes (p 2)).bind_pure fun z => ![p 0, p 1, z]
  rwa [hp] at h

end

theorem readRecords_encodes {A : Type} {what : Str} {minRecordBytes : Nat} {r : Reader FileError A} {put : A → Bytes}
    {l : List A} (hlength : l.length < 2 ^ 64) (h : ∀ a ∈ l, Encodes r (put a) a)
    (hmin : ∀ a ∈ l, minRecordBytes ≤ (put a).length) :
    Encodes (readRecords what minRecordBytes r) (putRecords put l) l := by
  refine (readU64_encodes hlength).bind (Encodes.checkLeft (fun n hn => guardCount_ok ?_) (Encodes.times h))
  refine le_trans ?_ hn
  clear hlength h hn
  induction l with
  | nil => simp
  | cons a l ih =>
    obtain ⟨ha, hl⟩ := List.forall_mem_cons.mp hmin
    rw [List.length_cons, List.flatMap_cons, List.length_append, Nat.succ_mul]
    exact (Nat.add_le_add (ih hl) ha).trans_eq (Nat.add_comm _ _)

theorem readArena_encodes {z : Lz4} (hz : z.Lawful) (what : Str) {arena : Bytes} (h : arena.length < 2 ^ 63) :
    Encodes (readArena z what) (putArena z arena) arena := by
  have hcomp := hz.compress_lt arena h
  refine (readU64_encodes (h.trans (by norm_num))).bind ((readU64_encodes hcomp).bind ?_)
  refine Encodes.checkLeft (fun n hn => guardCount_ok (by rwa [Nat.mul_one])) ?_
  refine Encodes.checkLeft (fun n hn => if_neg ?_) ?_
  · have hle := hz.length_le arena
    rw [Nat.not_lt, maxLz4Ratio, le_min_iff, Nat.mul_comm]
    exact ⟨hle, by omega⟩
  · refine (Encodes.takeBytes FileError.unexpectedEof (z.compress arena)).bind_nil (Encodes.settle ?_)
    rw [hz.decompress_compress]
    rfl

/-! ## The octree memory -/

namespace FractalMemory3D

def fileMagic : Bytes := [70, 82, 65, 67]
def fileVersion : Nat := 3

/-- `{:?}` of an array of bytes. -/
def debugBytes (b : Bytes) : Str := '[' :: joinWith ", ".toList (b.map fun byte => natStr byte.toNat) ++ [']']

section

variable {F : Type} [Stored F]

def putNode (node : OctreeNode F) : Bytes :=
  putPoint node.center ++ (putF32 node.halfSize ++ ((List.ofFn node.children).flatMap putU32 ++ putU32 node.bucketId))

def putItem (item : Item F) : Bytes := putPoint item.point ++ (putU64 item.payloadOffset ++ putU64 item.payloadLen)

/-- `FileHeader::write_to`: a dimension beyond `u32` loses its high bits. -/
def putHeader (m : FractalMemory3D F) : Bytes := fileMagic ++ (putU32 fileVersion ++ putU32 m.highDim)

def saveToDisk (z : Lz4) (m : FractalMemory3D F) : Bytes :=
  putHeader m ++ (putF32 m.worldHalfSize ++ (putU64 m.bucketCapacity ++ (putF32 m.minHalfSize ++
    (putRecords putNode m.nodes ++ (putRecords (putRecords putU32) m.leafBuckets ++ (putRecords putItem m.items ++
      (putRecords putF32 m.projectionMatrix ++ putArena z m.payloadArena)))))))

def readNode : Reader FileError (OctreeNode F) := do
  let center ← readPoint
  let halfSize ← readF32
  let children ← times readU32 8
  let bucketId ← readU32
  pure ⟨center, halfSize, fun o => children.getD o 0, bucketId⟩

def readItem : Reader FileError (Item F) := do
  let point ← readPoint
  let payloadOffset ← readU64
  let payloadLen ← readU64
  pure ⟨point, payloadOffset, payloadLen⟩

/-- The header, checked. -/
def checkHeader (expectedHighDim : Nat) (magic : Bytes) (version highDim : Nat) : Except FileError Unit :=
  if magic ≠ fileMagic then
    .error (.invalidData ("invalid magic: expected ".toList ++ debugBytes fileMagic ++ ", got ".toList ++
      debugBytes magic))
  else if version ≠ fileVersion then
    .error (.invalidData ("unsupported file version ".toList ++ natStr version ++
      " (this build writes/reads v".toList ++
      natStr fileVersion ++ ")".toList))
  else if highDim ≠ expectedHighDim then
    .error (.invalidData ("high_dim mismatch: file has ".toList ++ natStr highDim ++ ", caller expected ".toList ++
      natStr expectedHighDim))
  else .ok ()

def readHeader (expectedHighDim : Nat) : Reader FileError Unit := do
  let magic ← takeBytes .unexpectedEof 4
  let version ← readU32
  let highDim ← readU32
  settle (checkHeader expectedHighDim magic version highDim)

def checkItems (items : List (Item F)) (arenaLen : Nat) : Except FileError Unit :=
  items.forM fun it => guardPayloadBounds "FRAC item".toList it.payloadOffset it.payloadLen arenaLen

def readMemory (z : Lz4) (expectedHighDim : Nat) : Reader FileError (FractalMemory3D F) := do
  readHeader expectedHighDim
  let worldHalfSize ← readF32
  let bucketCapacity ← readU64
  let minHalfSize ← readF32
  let nodes ← readRecords "FRAC nodes".toList 52 readNode
  let leafBuckets ← readRecords "FRAC buckets".toList 8 (readRecords "FRAC bucket entries".toList 4 readU32)
  let items ← readRecords "FRAC items".toList 28 readItem
  let projectionMatrix ← readRecords "FRAC projection".toList 4 readF32
  let payloadArena ← readArena z "FRAC payload arena".toList
  settle (checkItems items payloadArena.length)
  pure { nodes, leafBuckets, items, projectionMatrix, highDim := expectedHighDim, payloadArena, worldHalfSize,
         bucketCapacity, minHalfSize }

/-- What follows the arena is not read. -/
def loadFromDisk (z : Lz4) (expectedHighDim : Nat) (bytes : Bytes) : Except FileError (FractalMemory3D F) :=
  (readMemory z expectedHighDim bytes).map (·.1)

/-! ### What a file can hold -/

/-- Every number fits its field, and the payloads lie in the arena. -/
structure Storable (m : FractalMemory3D F) : Prop where
  nodes : m.nodes.length < 2 ^ 64
  node : ∀ node ∈ m.nodes, node.bucketId < 2 ^ 32 ∧ ∀ o, node.children o < 2 ^ 32
  buckets : m.leafBuckets.length < 2 ^ 64
  bucket : ∀ b ∈ m.leafBuckets, b.length < 2 ^ 64 ∧ ∀ id ∈ b, id < 2 ^ 32
  items : m.items.length < 2 ^ 64
  item : ∀ item ∈ m.items, item.payloadOffset + item.payloadLen ≤ m.payloadArena.length
  matrix : m.projectionMatrix.length < 2 ^ 64
  capacity : m.bucketCapacity < 2 ^ 64
  arena : m.payloadArena.length < 2 ^ 63

theorem readNode_encodes {node : OctreeNode F} (hbucket : node.bucketId < 2 ^ 32)
    (hchildren : ∀ o, node.children o < 2 ^ 32) : Encodes readNode (putNode node) node := by
  have htimes : Encodes (times readU32 (List.ofFn node.children).length) ((List.ofFn node.children).flatMap putU32)
      (List.ofFn node.children) := Encodes.times fun n hn => by
    obtain ⟨o, rfl⟩ := List.mem_ofFn.mp hn
    exact readU32_encodes (hchildren o)
  rw [List.length_ofFn] at htimes
  have hget : (fun o : Fin 8 => (List.ofFn node.children).getD o 0) = node.children := by
    funext o
    rw [List.getD_eq_getElem?_getD, List.getElem?_ofFn]
    simp
  refine (readPoint_encodes _).bind ((readF32_encodes _).bind (htimes.bind ?_))
  rw [hget]
  exact (readU32_encodes hbucket).bind_pure fun bucketId =>
    (⟨node.center, node.halfSize, node.children, bucketId⟩ : OctreeNode F)

theorem readItem_encodes {item : Item F} (hoffset : item.payloadOffset < 2 ^ 64) (hlen : item.payloadLen < 2 ^ 64) :
    Encodes readItem (putItem item) item := by
  refine (readPoint_encodes _).bind ((readU64_encodes hoffset).bind ?_)
  exact (readU64_encodes hlen).bind_pure fun payloadLen => (⟨item.point, item.payloadOffset, payloadLen⟩ : Item F)

omit [Stored F] in
theorem readHeader_encodes {m : FractalMemory3D F} (hdim : m.highDim < 2 ^ 32) :
    Encodes (readHeader m.highDim) (putHeader m) () := by
  have hversion : fileVersion < 2 ^ 32 := by decide
  refine (Encodes.takeBytes FileError.unexpectedEof fileMagic).bind ((readU32_encodes hversion).bind ?_)
  refine (readU32_encodes hdim).bind_nil (Encodes.settle ?_)
  rw [checkHeader, if_neg (not_not.mpr rfl), if_neg (not_not.mpr rfl), if_neg (not_not.mpr rfl)]

omit [Stored F] in
theorem checkItems_ok {items : List (Item F)} {arenaLen : Nat} (harena : arenaLen < 2 ^ 64)
    (h : ∀ item ∈ items, item.payloadOffset + item.payloadLen ≤ arenaLen) : checkItems items arenaLen = .ok () := by
  unfold checkItems
  induction items with
  | nil => rfl
  | cons item items ih =>
    obtain ⟨hitem, hitems⟩ := List.forall_mem_cons.mp h
    show (guardPayloadBounds _ item.payloadOffset item.payloadLen arenaLen >>= fun _ => items.forM _) = _
    rw [guardPayloadBounds_ok hitem harena]
    exact ih hitems

theorem readMemory_encodes {z : Lz4} (hz : z.Lawful) {m : FractalMemory3D F} (hdim : m.highDim < 2 ^ 32)
    (h : m.Storable) : Encodes (readMemory z m.highDim) (saveToDisk z m) m := by
  have harena : m.payloadArena.length < 2 ^ 64 := h.arena.trans (by norm_num)
  refine (readHeader_encodes hdim).bind ((readF32_encodes _).bind ((readU64_encodes h.capacity).bind
    ((readF32_encodes _).bind ?_)))
  refine (readRecords_encodes h.nodes (fun node hnode => ?_) (fun node _ => ?_)).bind
    ((readRecords_encodes h.buckets (fun b hb => ?_) (fun b _ => ?_)).bind
      ((readRecords_encodes h.items (fun item hitem => ?_) (fun item _ => ?_)).bind
        ((readRecords_encodes h.matrix (fun x _ => readF32_encodes x) (fun x _ => ?_)).bind ?_)))
  · exact readNode_encodes (h.node node hnode).1 (h.node node hnode).2
  · simp [putNode]
  · exact readRecords_encodes (h.bucket b hb).1 (fun id hid => readU32_encodes ((h.bucket b hb).2 id hid))
      fun id _ => (length_putU32 id).ge
  · simp [putRecords]
  · have hle := h.item item hitem
    exact readItem_encodes (by omega) (by omega)
  · simp [putItem]
  · exact (length_putF32 x).ge
  · exact (readArena_encodes hz _ h.arena).bind_nil (Encodes.settled (checkItems_ok harena h.item) (Encodes.pure m))

end

end FractalMemory3D

/-! ## Without arithmetic -/

/-- The bits of an `f32`, for runs that do not calculate. -/
structure Word where
  bits : UInt32
  deriving DecidableEq

namespace Word

def one : Word := ⟨0x3f800000⟩

instance : Single Word where
  add a _ := a
  sub a _ := a
  mul a _ := a
  div a _ := a
  neg a := ⟨a.bits ^^^ 0x80000000⟩
  lit q := if q = 1 then one else ⟨0⟩
  ofNat n := if n = 1 then one else ⟨0⟩
  ln a := a
  sqrt a := a
  abs a := ⟨a.bits &&& 0x7fffffff⟩
  powi a _ := a
  partialCmp a b := some (compare a.bits b.bits)
  reparse := some
  isFinite a := a.bits.toNat / 2 ^ 23 % 2 ^ 8 ≠ 255
  totalCmp a b := compare a.bits b.bits

instance : Stored Word := ⟨Word.bits, Word.mk, fun _ => rfl⟩

end Word

/-- A token and the literals behind it, as a block without literals is written. -/
def literals : Lz4 where
  compress b := 0 :: b
  decompress block n := if block.length = n + 1 then .ok block.tail else .error "wrong length".toList

theorem literals_lawful : literals.Lawful where
  decompress_compress b := if_pos (List.length_cons ..)
  length_le b := by
    show b.length ≤ 256 * (0 :: b).length
    rw [List.length_cons]
    omega
  compress_lt b hb := by
    show (0 :: b).length < 2 ^ 64
    rw [List.length_cons]
    omega

end Ccos.Octasoma
