import Ccos.ColdIndex.SegmentFile

/-!
# The key store on its directory

The directory holds the segment files by number. File operations succeed; reading a corrupt file is an
error, which is `none`.
-/

open Std ByteCodec

namespace Ccos

open SegmentFile (Handle openFile writeSegment fileOf handleOf Fits)

/-- A value is tagged, so that a deletion can shadow an older value. -/
def encodeValue : Option Bytes → Bytes
  | some bytes => 1 :: bytes
  | none => [0]

def decodeValue : Bytes → Option (Option Bytes)
  | [] => none
  | tag :: rest => if tag = 1 then some (some rest) else if tag = 0 then some none else none

structure DiskStore where
  dir : BTreeMap Nat Bytes
  buffer : BTreeMap Str (Option Bytes)
  bufferLimit : Nat
  /-- Oldest first. -/
  segments : List Handle
  nextSeq : Nat
  cache : Lru Bytes

namespace DiskStore

/-- `HuskStore::open`: the segments that a previous run left, by number. -/
def openDir (dir : BTreeMap Nat Bytes) (bufferLimit cacheCap : Nat) : Option DiskStore :=
  (dir.toList.mapM fun (seq, file) => openFile seq file).map fun segments =>
    { dir, buffer := ∅, bufferLimit := max bufferLimit 1, segments,
      nextSeq := (dir.toList.getLast?.map fun (e : Nat × Bytes) => e.1 + 1).getD 0, cache := Lru.new cacheCap }

/-! ## Writes -/

/-- Writes records to the next segment file. -/
def writeNext (d : DiskStore) (records : List (Str × Bytes)) : Option (DiskStore × Handle) :=
  (writeSegment records).bind fun file =>
    (openFile d.nextSeq file).map fun handle =>
      ({ d with dir := d.dir.insert d.nextSeq file, nextSeq := d.nextSeq + 1 }, handle)

def flush (d : DiskStore) : Option DiskStore :=
  if d.buffer.isEmpty then some d
  else
    (d.writeNext (d.buffer.toList.map fun r => (r.1, encodeValue r.2))).map fun (d, handle) =>
      { d with segments := d.segments ++ [handle], buffer := ∅ }

def maybeFlush (d : DiskStore) : Option DiskStore :=
  if d.buffer.size ≥ d.bufferLimit then d.flush else some d

def put (d : DiskStore) (key : Str) (value : Bytes) : Option DiskStore :=
  maybeFlush { d with buffer := d.buffer.insert key (some value), cache := d.cache.remove key }

def delete (d : DiskStore) (key : Str) : Option DiskStore :=
  maybeFlush { d with buffer := d.buffer.insert key none, cache := d.cache.remove key }

/-! ## Reads -/

/-- The first of the segments that has the key decides. -/
def readSegments (d : DiskStore) (key : Str) : List Handle → Option (Option Bytes)
  | [] => some none
  | handle :: older =>
    (d.dir[handle.seq]?).bind fun file =>
      (SegmentFile.get file handle key).bind fun
        | some raw => some (some raw)
        | none => readSegments d key older

/-- A read, and the store with the cache it leaves behind. -/
def get (d : DiskStore) (key : Str) : Option (Option Bytes × DiskStore) :=
  match d.buffer[key]? with
  | some slot => some (slot, d)
  | none =>
    match d.cache.get key with
    | (some v, cache) => some (some v, { d with cache })
    | (none, cache) =>
      (d.readSegments key d.segments.reverse).map fun raw =>
        match (raw.bind decodeValue).join with
        | some v => (some v, { d with cache := cache.insert key v })
        | none => (none, { d with cache })

/-- Adds records to a map, a later one over an earlier one. A corrupt record is skipped. -/
def addRecords (m : BTreeMap Str (Option Bytes)) (records : List (Str × Bytes)) : BTreeMap Str (Option Bytes) :=
  records.foldl (fun m r =>
    match decodeValue r.2 with
    | some slot => m.insert r.1 slot
    | none => m) m

/-- Adds what a read finds in each segment. -/
def addSegments (d : DiskStore) (read : Bytes → Handle → Option (List (Str × Bytes))) :
    List Handle → BTreeMap Str (Option Bytes) → Option (BTreeMap Str (Option Bytes))
  | [], m => some m
  | handle :: newer, m =>
    (d.dir[handle.seq]?).bind fun file =>
      (read file handle).bind fun records => addSegments d read newer (addRecords m records)

def live (m : BTreeMap Str (Option Bytes)) : List (Str × Bytes) :=
  m.toList.filterMap fun r => r.2.map fun v => (r.1, v)

def liveEntries (d : DiskStore) : Option (List (Str × Bytes)) :=
  (d.addSegments SegmentFile.records d.segments ∅).map fun m =>
    live (d.buffer.toList.foldl (fun m (r : Str × Option Bytes) => m.insert r.1 r.2) m)

/-- The buffered records from the prefix on, up to the first that does not have it. -/
def bufferRange (d : DiskStore) (pre : Str) : List (Str × Option Bytes) :=
  (d.buffer.toList.dropWhile fun r => compare r.1 pre == .lt).takeWhile (startsWith pre ·.1)

def scanPrefix (d : DiskStore) (pre : Str) : Option (List (Str × Bytes)) :=
  (d.addSegments (fun file handle => SegmentFile.scanPrefix file handle pre) d.segments ∅).map fun m =>
    live ((d.bufferRange pre).foldl (fun m (r : Str × Option Bytes) => m.insert r.1 r.2) m)

/-! ## Compaction -/

/-- Replays the segments: a value replaces an older one, and a tombstone removes it. -/
def replaySegments (d : DiskStore) : List Handle → BTreeMap Str Bytes → Option (BTreeMap Str Bytes)
  | [], m => some m
  | handle :: newer, m =>
    (d.dir[handle.seq]?).bind fun file =>
      (SegmentFile.records file handle).bind fun records =>
        replaySegments d newer <| records.foldl (fun m r =>
          match decodeValue r.2 with
          | some (some v) => m.insert r.1 v
          | some none => m.erase r.1
          | none => m) m

def removeFiles (dir : BTreeMap Nat Bytes) (handles : List Handle) : BTreeMap Nat Bytes :=
  handles.foldl (fun dir handle => dir.erase handle.seq) dir

/-- A compaction up to the removal of `removed` old files, the oldest first. -/
def compactUpTo (d : DiskStore) (removed : Nat) : Option DiskStore :=
  d.flush.bind fun d =>
    if d.segments.length < 2 then some d
    else
      (d.replaySegments d.segments ∅).bind fun live =>
        let old := d.segments
        if live.isEmpty then some { d with segments := [], dir := removeFiles d.dir (old.take removed) }
        else
          (d.writeNext (live.toList.map fun r => (r.1, encodeValue (some r.2)))).map fun (d, handle) =>
            { d with segments := [handle], dir := removeFiles d.dir (old.take removed) }

/-- All old files are removed in the end: there are those there were, and the one of the flush. -/
def compact (d : DiskStore) : Option DiskStore := d.compactUpTo (d.segments.length + 1)

/-! ## The store and its records -/

/-- The records of a segment as they are written. -/
def encodeSegment (segment : Segment Bytes) : List (Str × Bytes) :=
  segment.map fun r => (r.1, encodeValue r.2)

@[simp] theorem decodeValue_encodeValue (slot : Option Bytes) : decodeValue (encodeValue slot) = some slot := by
  cases slot <;> rfl

theorem ascending_encodeSegment {segment : Segment Bytes} (h : HuskStore.Ascending segment) :
    SegmentFile.Ascending (encodeSegment segment) := by
  rw [SegmentFile.Ascending, encodeSegment, List.pairwise_map]
  exact h

theorem lookup_encodeSegment (segment : Segment Bytes) (key : Str) :
    (encodeSegment segment).lookup key = (segment.get key).map encodeValue := by
  unfold encodeSegment Segment.get
  induction segment with
  | nil => rfl
  | cons r segment ih =>
    obtain ⟨k, slot⟩ := r
    simp only [List.map_cons, List.lookup_cons, ih]
    split <;> rfl

/-- A file of the directory, open, with the records it holds. -/
structure OnDisk (dir : BTreeMap Nat Bytes) (handle : Handle) (segment : Segment Bytes) : Prop where
  file : dir[handle.seq]? = some (fileOf (encodeSegment segment))
  handle_eq : handle = handleOf handle.seq (encodeSegment segment)
  fits : Fits (encodeSegment segment)
  ascending : HuskStore.Ascending segment

/-- The directory holds these segments, oldest first, and nothing else. -/
structure Files (dir : BTreeMap Nat Bytes) (handles : List Handle) (segments : List (Segment Bytes)) : Prop where
  onDisk : List.Forall₂ (OnDisk dir) handles segments
  numbers : ∀ seq : Nat, seq ∈ dir ↔ seq ∈ handles.map (·.seq)
  ordered : (handles.map (·.seq)).Pairwise (· < ·)

/-- The store on disk has the records of the other store. -/
structure Represents (d : DiskStore) (s : HuskStore Bytes) : Prop where
  buffer : d.buffer = s.buffer
  bufferLimit : d.bufferLimit = s.bufferLimit
  cache : d.cache = s.cache
  files : Files d.dir d.segments s.segments
  next : ∀ seq : Nat, seq ∈ d.dir → seq < d.nextSeq

/-! ## The directory -/

theorem OnDisk.mono {dir dir' : BTreeMap Nat Bytes} {handle : Handle} {segment : Segment Bytes}
    (h : OnDisk dir handle segment) (hsame : dir'[handle.seq]? = dir[handle.seq]?) : OnDisk dir' handle segment :=
  ⟨hsame.trans h.file, h.handle_eq, h.fits, h.ascending⟩

/-- A new file gets the largest number. -/
theorem Files.insert {dir : BTreeMap Nat Bytes} {handles : List Handle} {segments : List (Segment Bytes)}
    (h : Files dir handles segments) {seq : Nat} (hnext : ∀ n : Nat, n ∈ dir → n < seq) {segment : Segment Bytes}
    (hfits : Fits (encodeSegment segment)) (hasc : HuskStore.Ascending segment) :
    Files (dir.insert seq (fileOf (encodeSegment segment))) (handles ++ [handleOf seq (encodeSegment segment)])
      (segments ++ [segment]) where
  onDisk := by
    refine List.rel_append ?_ (List.Forall₂.cons ⟨?_, rfl, hfits, hasc⟩ List.Forall₂.nil)
    · refine (List.forall₂_iff_get.mpr ?_)
      obtain ⟨hlen, hall⟩ := List.forall₂_iff_get.mp h.onDisk
      refine ⟨hlen, fun i h₁ h₂ => (hall i h₁ h₂).mono ?_⟩
      rw [ExtTreeMap.getElem?_insert, if_neg]
      intro heq
      have hmem := (h.numbers _).mpr (List.mem_map_of_mem (List.get_mem handles ⟨i, h₁⟩))
      have := hnext _ hmem
      have := Nat.compare_eq_eq.mp heq
      omega
    · exact ExtTreeMap.getElem?_insert_self
  numbers n := by
    rw [ExtTreeMap.mem_insert, Nat.compare_eq_eq, h.numbers, List.map_append, List.mem_append]
    simp [handleOf, or_comm, eq_comm]
  ordered := by
    rw [List.map_append, List.pairwise_append]
    refine ⟨h.ordered, List.pairwise_singleton _ _, fun a ha b hb => ?_⟩
    obtain rfl := List.mem_singleton.mp hb
    exact hnext a ((h.numbers a).mpr ha)

theorem getElem?_removeFiles (dir : BTreeMap Nat Bytes) (handles : List Handle) (seq : Nat) :
    (removeFiles dir handles)[seq]? = if seq ∈ handles.map (·.seq) then none else dir[seq]? := by
  induction handles generalizing dir with
  | nil => rfl
  | cons handle handles ih =>
    rw [removeFiles, List.foldl_cons]
    refine (ih _).trans ?_
    simp only [ExtTreeMap.getElem?_erase, Nat.compare_eq_eq, List.map_cons, List.mem_cons]
    by_cases hin : seq ∈ handles.map (·.seq)
    · rw [if_pos hin, if_pos (Or.inr hin)]
    · by_cases heq : handle.seq = seq
      · rw [if_neg hin, if_pos heq, if_pos (Or.inl heq.symm)]
      · rw [if_neg hin, if_neg heq, if_neg (by tauto)]

theorem Files.remove {dir : BTreeMap Nat Bytes} {handles : List Handle} {segments : List (Segment Bytes)}
    (h : Files dir handles segments) (n : Nat) :
    Files (removeFiles dir (handles.take n)) (handles.drop n) (segments.drop n) := by
  have hsplit : (handles.take n).map (·.seq) ++ (handles.drop n).map (·.seq) = handles.map (·.seq) := by
    rw [← List.map_append, List.take_append_drop]
  have hordered := h.ordered
  rw [← hsplit, List.pairwise_append] at hordered
  have hkept : ∀ seq ∈ (handles.drop n).map (·.seq), seq ∉ (handles.take n).map (·.seq) :=
    fun seq hseq hold => Nat.lt_irrefl seq (hordered.2.2 seq hold seq hseq)
  refine ⟨?_, fun seq => ?_, hordered.2.1⟩
  · have hdrop := List.forall₂_drop n h.onDisk
    obtain ⟨hlen, hall⟩ := List.forall₂_iff_get.mp hdrop
    refine List.forall₂_iff_get.mpr ⟨hlen, fun i h₁ h₂ => (hall i h₁ h₂).mono ?_⟩
    rw [getElem?_removeFiles, if_neg (hkept _ (List.mem_map_of_mem (List.get_mem _ ⟨i, h₁⟩)))]
  · rw [ExtTreeMap.mem_iff_isSome_getElem?, getElem?_removeFiles]
    have hnumbers := h.numbers seq
    rw [ExtTreeMap.mem_iff_isSome_getElem?, ← hsplit, List.mem_append] at hnumbers
    split
    · rename_i hold
      simp only [Option.isSome_none, Bool.false_eq_true, false_iff]
      exact fun hseq => hkept seq hseq hold
    · rename_i hnew
      rw [hnumbers]
      exact or_iff_right hnew

end DiskStore

end Ccos
