import Mathlib.Order.Basic
import Ccos.Lib.ByteCodec
import Mathlib.Data.List.Flatten

/-!
# Tiles

One cached key of the attention layer: 128 bytes, of which the flags say how much was paged out.
An `f32` is modelled by its bits, since tiles are only copied, compared and written out.
-/

namespace Ccos.Kv

open ByteCodec

/-! ## Single precision by its bits -/

structure F32 where
  bits : UInt32
deriving DecidableEq

namespace F32

def zero : F32 := ⟨0⟩

def magnitude (x : F32) : Nat := x.bits.toNat % 2 ^ 31

/-- All ones in the exponent, and a mantissa. -/
def isNaN (x : F32) : Bool := 0x7F800000 < x.magnitude

/-- The order of the floats that are not NaN. Both zeros come out equal. -/
def key (x : F32) : Int := if 2 ^ 31 ≤ x.bits.toNat then -(x.magnitude : Int) else x.magnitude

def partialCmp (a b : F32) : Option Ordering :=
  if a.isNaN || b.isNaN then none else some (compare a.key b.key)

end F32

/-! ## The tile -/

def latentBytes : Nat := 64
def residualWords : Nat := 4
def nGroups : Nat := 8

def flagWarm : UInt16 := 1
def flagTq3 : UInt16 := 8
def flagTq3Nocorr : UInt16 := 16
def flagMix3 : UInt16 := 32

def tq3CorrBytes : Nat := 16
def mix3CorrBytes : Nat := 14

structure SciRustSlhaTile where
  latentKv : Vector UInt8 latentBytes
  residualBitmap : Vector UInt64 residualWords
  scale : F32
  dynamicLambda : F32
  residualSigma : F32
  tokenId : UInt32
  position : UInt32
  headId : UInt16
  flags : UInt16
  groupScales : Vector UInt8 nGroups
deriving DecidableEq

namespace SciRustSlhaTile

def isTq3 (t : SciRustSlhaTile) : Bool := t.flags &&& flagTq3 != 0
def isTq3Nocorr (t : SciRustSlhaTile) : Bool := t.flags &&& flagTq3Nocorr != 0
def isMix3 (t : SciRustSlhaTile) : Bool := t.flags &&& flagMix3 != 0

/-- The bytes that dropping the correction plane gives back. -/
def separableCorrBytes (t : SciRustSlhaTile) : Nat :=
  if t.isTq3 then tq3CorrBytes else if t.isMix3 then mix3CorrBytes else 0

/-- Nothing of a correction plane is left. -/
def Stripped (t : SciRustSlhaTile) : Prop := t.separableCorrBytes = 0 ∨ t.isTq3Nocorr

instance : DecidablePred Stripped := fun t =>
  inferInstanceAs (Decidable (t.separableCorrBytes = 0 ∨ t.isTq3Nocorr = true))

theorem separableCorrBytes_le (t : SciRustSlhaTile) : t.separableCorrBytes ≤ 16 := by
  unfold separableCorrBytes tq3CorrBytes mix3CorrBytes
  split
  · omega
  · split <;> omega

/-- What paging out leaves of a tile. -/
def warmed (t : SciRustSlhaTile) : SciRustSlhaTile :=
  { t with
    residualBitmap := Vector.replicate residualWords 0
    dynamicLambda := F32.zero
    flags := t.flags ||| flagWarm }

/-- What dropping the correction plane leaves of a tile. -/
def withoutCorrection (t : SciRustSlhaTile) : SciRustSlhaTile :=
  { t with
    latentKv := Vector.ofFn fun i =>
      if latentBytes - t.separableCorrBytes ≤ i.val then 0 else t.latentKv[i]
    flags := t.flags ||| flagTq3Nocorr }

/-! ## Flags -/

theorem or_and_eq (f m n : UInt16) : (f ||| m) &&& n = f &&& n ||| m &&& n := by
  apply UInt16.toBitVec_inj.mp
  ext i
  simp [Bool.and_or_distrib_right]

theorem or_and_of_disjoint {f m n : UInt16} (h : m &&& n = 0) : (f ||| m) &&& n = f &&& n := by
  rw [or_and_eq, h, UInt16.or_zero]

theorem or_and_ne_zero {f m : UInt16} (h : m ≠ 0) : (f ||| m) &&& m ≠ 0 := by
  intro h0
  rw [or_and_eq, UInt16.and_self, UInt16.or_eq_zero_iff] at h0
  exact h h0.2

theorem separableCorrBytes_eq {s t : SciRustSlhaTile} (htq3 : s.flags &&& flagTq3 = t.flags &&& flagTq3)
    (hmix3 : s.flags &&& flagMix3 = t.flags &&& flagMix3) :
    s.separableCorrBytes = t.separableCorrBytes := by
  have h1 : s.isTq3 = t.isTq3 := by unfold isTq3; rw [htq3]
  have h2 : s.isMix3 = t.isMix3 := by unfold isMix3; rw [hmix3]
  unfold separableCorrBytes
  rw [h1, h2]

@[simp] theorem separableCorrBytes_warmed (t : SciRustSlhaTile) :
    t.warmed.separableCorrBytes = t.separableCorrBytes := by
  apply separableCorrBytes_eq <;> unfold warmed <;> rw [or_and_of_disjoint (by decide)]

@[simp] theorem isTq3Nocorr_warmed (t : SciRustSlhaTile) : t.warmed.isTq3Nocorr = t.isTq3Nocorr := by
  simp only [isTq3Nocorr, warmed]
  rw [or_and_of_disjoint (by decide)]

@[simp] theorem isTq3Nocorr_withoutCorrection (t : SciRustSlhaTile) :
    t.withoutCorrection.isTq3Nocorr = true := by
  simp only [isTq3Nocorr, withoutCorrection, bne_iff_ne]
  exact or_and_ne_zero (by decide)

@[simp] theorem position_withoutCorrection (t : SciRustSlhaTile) :
    t.withoutCorrection.position = t.position := by
  simp only [withoutCorrection]

@[simp] theorem residualSigma_withoutCorrection (t : SciRustSlhaTile) :
    t.withoutCorrection.residualSigma = t.residualSigma := by
  simp only [withoutCorrection]

theorem Stripped.warmed {t : SciRustSlhaTile} (h : t.Stripped) : t.warmed.Stripped := by
  unfold Stripped at h ⊢
  simpa using h

theorem stripped_withoutCorrection (t : SciRustSlhaTile) : t.withoutCorrection.Stripped :=
  .inr (isTq3Nocorr_withoutCorrection t)

end SciRustSlhaTile

end Ccos.Kv

/-!
## The tile log

A header and records of one width, appended at the end of the file. A write may fail after part of
its record has reached the disk.
-/

namespace Ccos.Kv

open ByteCodec

/-! ## One tile in 128 bytes -/

def tileBytes : Nat := 128
def headerBytes : Nat := 16
def recordBytes : Nat := 8 + 4 + 4 + tileBytes

def byteVector (n : Nat) (b : Bytes) : Vector UInt8 n := Vector.ofFn fun i => b.getD i 0

def wordBytes (w : UInt64) : Bytes := leOf 8 w.toNat

def wordVector (n : Nat) (b : Bytes) : Vector UInt64 n :=
  Vector.ofFn fun i => UInt64.ofNat (leTo ((b.drop (8 * i)).take 8))

def tileToBytes (t : SciRustSlhaTile) : Bytes :=
  t.latentKv.toList ++ t.residualBitmap.toList.flatMap wordBytes ++ leOf 4 t.scale.bits.toNat ++
    leOf 4 t.dynamicLambda.bits.toNat ++ leOf 4 t.residualSigma.bits.toNat ++ leOf 4 t.tokenId.toNat ++
    leOf 4 t.position.toNat ++ leOf 2 t.headId.toNat ++ leOf 2 t.flags.toNat ++ t.groupScales.toList

/-- The fields in the order of `tileToBytes`; `rest` is what the cursor has not passed. -/
def tileFromBytes (b : Bytes) : SciRustSlhaTile :=
  let latentKv := byteVector latentBytes (b.take 64)
  let rest := b.drop 64
  let residualBitmap := wordVector residualWords (rest.take 32)
  let rest := rest.drop 32
  let scale := ⟨UInt32.ofNat (leTo (rest.take 4))⟩
  let rest := rest.drop 4
  let dynamicLambda := ⟨UInt32.ofNat (leTo (rest.take 4))⟩
  let rest := rest.drop 4
  let residualSigma := ⟨UInt32.ofNat (leTo (rest.take 4))⟩
  let rest := rest.drop 4
  let tokenId := UInt32.ofNat (leTo (rest.take 4))
  let rest := rest.drop 4
  let position := UInt32.ofNat (leTo (rest.take 4))
  let rest := rest.drop 4
  let headId := UInt16.ofNat (leTo (rest.take 2))
  let rest := rest.drop 2
  let flags := UInt16.ofNat (leTo (rest.take 2))
  let rest := rest.drop 2
  ⟨latentKv, residualBitmap, scale, dynamicLambda, residualSigma, tokenId, position, headId, flags,
    byteVector nGroups (rest.take 8)⟩

theorem byteVector_toList {n : Nat} (v : Vector UInt8 n) : byteVector n v.toList = v := by
  ext i hi
  simp [byteVector]

theorem ofNat_leTo_leOf_32 (x : UInt32) : UInt32.ofNat (leTo (leOf 4 x.toNat)) = x := by
  rw [leTo_leOf_of_lt x.toNat_lt, UInt32.ofNat_toNat]

theorem ofNat_leTo_leOf_16 (x : UInt16) : UInt16.ofNat (leTo (leOf 2 x.toNat)) = x := by
  rw [leTo_leOf_of_lt x.toNat_lt, UInt16.ofNat_toNat]

theorem ofNat_leTo_leOf_64 (x : UInt64) : UInt64.ofNat (leTo (leOf 8 x.toNat)) = x := by
  rw [leTo_leOf_of_lt x.toNat_lt, UInt64.ofNat_toNat]

@[simp] theorem length_wordBytes (w : UInt64) : (wordBytes w).length = 8 := length_leOf 8 _

theorem wordVector_flatMap {n : Nat} (v : Vector UInt64 n) :
    wordVector n (v.toList.flatMap wordBytes) = v := by
  ext i hi
  have hread := take_drop_flatMap_of_width length_wordBytes (l := v.toList) (n := i) (by simpa using hi)
  simp only [wordVector, Vector.getElem_ofFn]
  rw [hread, wordBytes, ofNat_leTo_leOf_64, Vector.getElem_toList]

theorem length_words (v : Vector UInt64 residualWords) : (v.toList.flatMap wordBytes).length = 32 := by
  rw [length_flatMap_of_width length_wordBytes, Vector.length_toList]
  rfl

theorem length_tileToBytes (t : SciRustSlhaTile) : (tileToBytes t).length = tileBytes := by
  have hlatent : t.latentKv.toList.length = 64 := Vector.length_toList
  have hscales : t.groupScales.toList.length = 8 := Vector.length_toList
  simp only [tileToBytes, List.length_append, length_words, length_leOf, hlatent, hscales, tileBytes]

theorem tileFromBytes_tileToBytes (t : SciRustSlhaTile) : tileFromBytes (tileToBytes t) = t := by
  have hlatent : t.latentKv.toList.length = 64 := Vector.length_toList
  have hscales : t.groupScales.toList.length = 8 := Vector.length_toList
  simp only [tileToBytes, tileFromBytes, List.append_assoc, List.take_left' hlatent,
    List.drop_left' hlatent, List.take_left' (length_words _), List.drop_left' (length_words _),
    List.take_left' (length_leOf 4 _), List.drop_left' (length_leOf 4 _),
    List.take_left' (length_leOf 2 _), List.drop_left' (length_leOf 2 _),
    List.take_of_length_le (Nat.le_of_eq hscales), byteVector_toList, wordVector_flatMap,
    ofNat_leTo_leOf_32, ofNat_leTo_leOf_16]

/-! ## Records -/

structure LogRecord where
  seq : UInt64
  slot : UInt32
  tile : SciRustSlhaTile
deriving DecidableEq

namespace LogRecord

def toBytes (r : LogRecord) : Bytes :=
  leOf 8 r.seq.toNat ++ leOf 4 r.slot.toNat ++ leOf 4 0 ++ tileToBytes r.tile

def fromBytes (b : Bytes) : LogRecord :=
  ⟨UInt64.ofNat (leTo (b.take 8)), UInt32.ofNat (leTo ((b.drop 8).take 4)),
    tileFromBytes ((b.drop 16).take tileBytes)⟩

theorem length_toBytes (r : LogRecord) : r.toBytes.length = recordBytes := by
  simp only [toBytes, List.length_append, length_leOf, length_tileToBytes, recordBytes]

theorem fromBytes_toBytes (r : LogRecord) : fromBytes r.toBytes = r := by
  have hskip : r.toBytes.drop 16 = tileToBytes r.tile := by
    unfold toBytes
    exact List.drop_left' (by simp)
  have hslot : (r.toBytes.drop 8).take 4 = leOf 4 r.slot.toNat := by
    simp only [toBytes, List.append_assoc]
    rw [List.drop_left' (length_leOf 8 _), List.take_left' (length_leOf 4 _)]
  have hseq : r.toBytes.take 8 = leOf 8 r.seq.toNat := by
    simp only [toBytes, List.append_assoc]
    exact List.take_left' (length_leOf 8 _)
  have htile : (tileToBytes r.tile).take tileBytes = tileToBytes r.tile :=
    List.take_of_length_le (Nat.le_of_eq (length_tileToBytes _))
  unfold fromBytes
  rw [hskip, hslot, hseq, htile, ofNat_leTo_leOf_64, ofNat_leTo_leOf_32, tileFromBytes_tileToBytes]

end LogRecord

/-! ## The disk -/

/-- How the `write_all` of a record ends: done, or failed with some bytes still to write. -/
abbrev Outcome := Option (Fin recordBytes)

structure Attempt where
  record : LogRecord
  outcome : Outcome
deriving DecidableEq

def Attempt.written (a : Attempt) : Bytes :=
  match a.outcome with
  | none => a.record.toBytes
  | some k => a.record.toBytes.take k

/-- `plan n` is how the `n`-th write ends. `history` is kept for the statements alone, oldest first. -/
structure Disk where
  plan : Nat → Outcome
  history : List Attempt

def Disk.next (d : Disk) : Outcome := d.plan d.history.length

def Disk.write (d : Disk) (r : LogRecord) : Disk := { d with history := d.history ++ [⟨r, d.next⟩] }

/-! ## The log -/

structure EventLog where
  file : Bytes
  records : Nat
  disk : Disk

namespace EventLog

def magic : Nat := 0x534C4C47
def version : Nat := 1

def header : Bytes := leOf 4 magic ++ leOf 4 version ++ leOf 4 tileBytes ++ leOf 4 0

def create (plan : Nat → Outcome) : EventLog := ⟨header, 0, ⟨plan, []⟩⟩

/-- `EventLog::open`: the header's magic, version and tile size, and whole records after it. -/
def openFile (disk : Disk) (file : Bytes) : Except String EventLog :=
  if file.length < headerBytes then
    .error "EventLog: file shorter than header"
  else if leTo (file.take 4) ≠ magic then
    .error "EventLog: bad magic"
  else if leTo ((file.drop 4).take 4) ≠ version then
    .error "EventLog: unsupported version"
  else if leTo ((file.drop 8).take 4) ≠ tileBytes then
    .error "EventLog: tile-size mismatch"
  else if (file.length - headerBytes) % recordBytes ≠ 0 then
    .error "EventLog: truncated record"
  else
    .ok ⟨file, (file.length - headerBytes) / recordBytes, disk⟩

/-- Whether the append succeeded, and the log after it. -/
def append (log : EventLog) (seq : UInt64) (slot : UInt32) (tile : SciRustSlhaTile) : Bool × EventLog :=
  let record := ⟨seq, slot, tile⟩
  let file := log.file ++ Attempt.written ⟨record, log.disk.next⟩
  match log.disk.next with
  | none => (true, ⟨file, log.records + 1, log.disk.write record⟩)
  | some _ => (false, ⟨file, log.records, log.disk.write record⟩)

def readRecords : Nat → Bytes → Except String (List LogRecord)
  | 0, _ => .ok []
  | n + 1, bytes =>
    match takeExact recordBytes bytes with
    | none => .error "failed to fill whole buffer"
    | some (rec, rest) => (readRecords n rest).map (LogRecord.fromBytes rec :: ·)

def readAll (log : EventLog) : Except String (List LogRecord) :=
  readRecords log.records (log.file.drop headerBytes)

/-- The latest record of `seq`. -/
def fetchBySeq (log : EventLog) (seq : UInt64) : Except String (Option LogRecord) :=
  log.readAll.map fun all => all.reverse.find? fun r => r.seq == seq

end EventLog

end Ccos.Kv
