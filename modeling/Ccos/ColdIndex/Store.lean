import Ccos.ColdIndex.DiskStore
import Ccos.Lib.Runs

/-!
# The key store is a map

On disk or not, the store is one map, as long as what it writes fits the segment files.
-/

open Std ByteCodec

namespace Ccos

open SegmentFile (Handle openFile writeSegment fileOf handleOf Fits)

namespace DiskStore

/-! ## Writing a segment -/

theorem writeNext_eq (d : DiskStore) {segment : Segment Bytes} (hfits : Fits (encodeSegment segment))
    (hasc : HuskStore.Ascending segment) :
    d.writeNext (encodeSegment segment) =
      some ({ d with
        dir := d.dir.insert d.nextSeq (fileOf (encodeSegment segment))
        nextSeq := d.nextSeq + 1 }, handleOf d.nextSeq (encodeSegment segment)) := by
  rw [writeNext, SegmentFile.writeSegment_of_ascending (ascending_encodeSegment hasc), Option.bind_some,
    SegmentFile.openFile_fileOf _ hfits.toFitsIndex]
  rfl

/-- What a flush writes. -/
def flushed (buffer : BTreeMap Str (Option Bytes)) : List (Segment Bytes) :=
  if buffer.isEmpty then [] else [buffer.toList]

theorem Represents.flush {d : DiskStore} {s : HuskStore Bytes} (h : Represents d s)
    (hfits : ∀ segment ∈ flushed s.buffer, Fits (encodeSegment segment)) :
    ∃ d', d.flush = some d' ∧ Represents d' s.flush := by
  unfold DiskStore.flush HuskStore.flush
  rw [h.buffer]
  unfold flushed at hfits
  split
  · exact ⟨d, rfl, h⟩
  · rename_i hempty
    rw [if_neg hempty] at hfits
    have hfits := hfits _ List.mem_cons_self
    have hasc := HuskStore.ascending_toList s.buffer
    have hwrite := writeNext_eq d hfits hasc
    rw [encodeSegment] at hwrite
    rw [hwrite]
    refine ⟨_, rfl, rfl, h.bufferLimit, h.cache, h.files.insert h.next hfits hasc, ?_⟩
    intro seq hseq
    dsimp only at hseq ⊢
    rw [ExtTreeMap.mem_insert, Nat.compare_eq_eq] at hseq
    rcases hseq with rfl | hold
    · exact Nat.lt_succ_self _
    · exact Nat.lt_succ_of_lt (h.next seq hold)

theorem Represents.maybeFlush {d : DiskStore} {s : HuskStore Bytes} (h : Represents d s)
    (hfits : s.buffer.size ≥ s.bufferLimit → ∀ segment ∈ flushed s.buffer, Fits (encodeSegment segment)) :
    ∃ d', d.maybeFlush = some d' ∧ Represents d' s.maybeFlush := by
  unfold DiskStore.maybeFlush HuskStore.maybeFlush
  rw [h.buffer, h.bufferLimit]
  split
  · rename_i hfull
    exact h.flush (hfits hfull)
  · exact ⟨d, rfl, h⟩

theorem Represents.write {d : DiskStore} {s : HuskStore Bytes} (h : Represents d s) (key : Str)
    (slot : Option Bytes) :
    Represents { d with buffer := d.buffer.insert key slot, cache := d.cache.remove key } (s.write key slot) where
  buffer := by rw [h.buffer, HuskStore.write]
  bufferLimit := h.bufferLimit
  cache := by rw [h.cache, HuskStore.write]
  files := h.files
  next := h.next

/-! ## Reading the segments -/

theorem OnDisk.get {dir : BTreeMap Nat Bytes} {handle : Handle} {segment : Segment Bytes}
    (h : OnDisk dir handle segment) (key : Str) :
    SegmentFile.get (fileOf (encodeSegment segment)) handle key = some ((segment.get key).map encodeValue) := by
  rw [h.handle_eq, SegmentFile.get_fileOf h.fits (ascending_encodeSegment h.ascending), lookup_encodeSegment]

theorem readSegments_eq {d : DiskStore} {handles : List Handle} {segments : List (Segment Bytes)}
    (h : List.Forall₂ (OnDisk d.dir) handles segments) (key : Str) :
    d.readSegments key handles = some ((segments.findSome? (·.get key)).map encodeValue) := by
  induction h with
  | nil => rfl
  | cons hhead _ ih =>
    rw [readSegments, hhead.file, Option.bind_some, hhead.get, Option.bind_some, List.findSome?_cons]
    split
    · rename_i raw hraw
      obtain ⟨slot, hslot, rfl⟩ := Option.map_eq_some_iff.mp hraw
      rw [hslot]
      rfl
    · rename_i hraw
      rw [Option.map_eq_none_iff.mp hraw]
      exact ih

theorem Represents.get {d : DiskStore} {s : HuskStore Bytes} (h : Represents d s) (key : Str) :
    ∃ d', d.get key = some ((s.get key).1, d') ∧ Represents d' (s.get key).2 := by
  have hcached : ∀ cache, Represents { d with buffer := s.buffer, cache } { s with cache } :=
    fun cache => ⟨rfl, h.bufferLimit, rfl, h.files, h.next⟩
  unfold DiskStore.get HuskStore.get
  rw [h.buffer, h.cache]
  cases s.buffer[key]? with
  | some slot => exact ⟨d, rfl, h⟩
  | none =>
    dsimp only
    cases hget : s.cache.get key with
    | mk found cache =>
      cases found with
      | some v => exact ⟨_, rfl, hcached cache⟩
      | none =>
        dsimp only
        rw [readSegments_eq (List.forall₂_reverse_iff.mpr h.files.onDisk), Option.map_some,
          ← HuskStore.segmentGet]
        cases HuskStore.segmentGet s.segments key with
        | none => exact ⟨_, rfl, hcached cache⟩
        | some slot =>
          simp only [Option.map_some, Option.bind_some, decodeValue_encodeValue, Option.join_some]
          cases slot with
          | none => exact ⟨_, rfl, hcached cache⟩
          | some v => exact ⟨_, rfl, hcached _⟩

theorem addRecords_encodeSegment (m : BTreeMap Str (Option Bytes)) (segment : Segment Bytes) :
    addRecords m (encodeSegment segment) = segment.foldl (fun m kv => m.insert kv.1 kv.2) m := by
  simp only [addRecords, encodeSegment, List.foldl_map, decodeValue_encodeValue]

theorem addSegments_eq {d : DiskStore} {read : Bytes → Handle → Option (List (Str × Bytes))}
    (keep : Segment Bytes → Segment Bytes) {handles : List Handle} {segments : List (Segment Bytes)}
    (h : List.Forall₂ (OnDisk d.dir) handles segments)
    (hread : ∀ handle segment, OnDisk d.dir handle segment →
      read (fileOf (encodeSegment segment)) handle = some (encodeSegment (keep segment)))
    (m : BTreeMap Str (Option Bytes)) :
    d.addSegments read handles m = some (LayeredMap.mergeInto m (segments.map keep)) := by
  induction h generalizing m with
  | nil => rfl
  | cons hhead _ ih =>
    rw [addSegments, hhead.file, Option.bind_some, hread _ _ hhead, Option.bind_some, ih, addRecords_encodeSegment,
      LayeredMap.mergeInto, LayeredMap.mergeInto, List.map_cons, List.flatten_cons, List.foldl_append]

theorem Represents.liveEntries {d : DiskStore} {s : HuskStore Bytes} (h : Represents d s) :
    d.liveEntries = some s.liveEntries := by
  have hread : ∀ handle segment, OnDisk d.dir handle segment →
      SegmentFile.records (fileOf (encodeSegment segment)) handle = some (encodeSegment segment) := by
    intro handle segment hdisk
    rw [hdisk.handle_eq]
    exact SegmentFile.records_fileOf hdisk.fits
  rw [DiskStore.liveEntries, addSegments_eq id h.files.onDisk hread, Option.map_some, List.map_id, h.buffer]
  unfold HuskStore.liveEntries HuskStore.merged LayeredMap.mergeInto live
  rw [List.foldl_append]

/-! ## Prefix scans -/

theorem takeWhile_prefix {l : List (Str × Option Bytes)} {pre : Str} (hasc : HuskStore.Ascending l)
    (hge : ∀ r ∈ l, compare r.1 pre ≠ .lt) :
    l.takeWhile (startsWith pre ·.1) = l.filter (startsWith pre ·.1) := by
  induction l with
  | nil => rfl
  | cons r l ih =>
    rw [List.takeWhile_cons, List.filter_cons]
    split
    · rw [ih hasc.of_cons fun r' hr' => hge r' (List.mem_cons_of_mem _ hr')]
    · rename_i hno
      symm
      rw [List.filter_eq_nil_iff]
      intro r' hr' hyes
      exact hno (SegmentFile.startsWith_of_between (hge r List.mem_cons_self) (List.rel_of_pairwise_cons hasc hr') hyes)

theorem range_prefix {l : List (Str × Option Bytes)} (hasc : HuskStore.Ascending l) (pre : Str) :
    (l.dropWhile fun r => compare r.1 pre == .lt).takeWhile (startsWith pre ·.1) =
      l.filter (startsWith pre ·.1) := by
  induction l with
  | nil => rfl
  | cons r l ih =>
    rw [List.dropWhile_cons]
    split
    · rename_i hlt
      have hno : startsWith pre r.1 = false := by
        rw [← Bool.not_eq_true]
        exact fun hyes => SegmentFile.not_lt_of_startsWith hyes (beq_iff_eq.mp hlt)
      rw [ih hasc.of_cons, List.filter_cons, hno]
      rfl
    · rename_i hge
      have hge : compare r.1 pre ≠ .lt := fun hlt => hge (beq_iff_eq.mpr hlt)
      refine takeWhile_prefix hasc fun r' hr' hlt => ?_
      rcases List.mem_cons.mp hr' with rfl | hr'
      · exact hge hlt
      · exact hge (TransCmp.lt_trans (List.rel_of_pairwise_cons hasc hr') hlt)

theorem flatten_map_filter {α : Type} (p : α → Bool) (layers : List (List α)) :
    (layers.map (·.filter p)).flatten = layers.flatten.filter p := by
  rw [List.filter_flatten]

theorem Represents.scanPrefix {d : DiskStore} {s : HuskStore Bytes} (h : Represents d s) (pre : Str) :
    d.scanPrefix pre = some (s.scanPrefix pre) := by
  have hread : ∀ handle segment, OnDisk d.dir handle segment →
      SegmentFile.scanPrefix (fileOf (encodeSegment segment)) handle pre =
        some (encodeSegment (segment.filter (startsWith pre ·.1))) := by
    intro handle segment hdisk
    rw [hdisk.handle_eq, SegmentFile.scanPrefix_fileOf hdisk.fits (ascending_encodeSegment hdisk.ascending),
      encodeSegment, encodeSegment, List.filter_map]
    rfl
  have hrange : d.bufferRange pre = s.buffer.toList.filter (startsWith pre ·.1) := by
    rw [bufferRange, h.buffer, range_prefix (HuskStore.ascending_toList s.buffer)]
  have hempty : (∅ : BTreeMap Str (Option Bytes)).filter (fun k _ => startsWith pre k) = ∅ := by
    apply ExtTreeMap.ext_getElem?
    intro k
    rw [ExtTreeMap.getElem?_filter', ExtTreeMap.getElem?_empty]
    rfl
  have hmerged := LayeredMap.filter_foldl_insert (startsWith pre) (s.segments.flatten ++ s.buffer.toList)
    (∅ : BTreeMap Str (Option Bytes))
  rw [hempty] at hmerged
  rw [DiskStore.scanPrefix, addSegments_eq (·.filter (startsWith pre ·.1)) h.files.onDisk hread, Option.map_some,
    hrange, LayeredMap.mergeInto, flatten_map_filter, ← List.foldl_append, ← List.filter_append, hmerged, live,
    ExtTreeMap.toList_filter, HuskStore.scanPrefix, HuskStore.liveEntries, HuskStore.merged, List.filterMap_filter,
    List.filter_filterMap]
  congr 1
  refine List.filterMap_congr fun r _ => ?_
  obtain ⟨k, slot⟩ := r
  cases slot with
  | none => simp
  | some v => simp [Option.filter]

/-! ## Compaction -/

theorem replaySegments_eq {d : DiskStore} {handles : List Handle} {segments : List (Segment Bytes)}
    (h : List.Forall₂ (OnDisk d.dir) handles segments) (m : BTreeMap Str Bytes) :
    d.replaySegments handles m = some (segments.flatten.foldl LayeredMap.applyRecord m) := by
  induction h generalizing m with
  | nil => rfl
  | @cons handle segment handles segments hhead htail ih =>
    have hrecords : SegmentFile.records (fileOf (encodeSegment segment)) handle = some (encodeSegment segment) := by
      rw [hhead.handle_eq]
      exact SegmentFile.records_fileOf hhead.fits
    rw [replaySegments, hhead.file, Option.bind_some, hrecords, Option.bind_some, ih, List.flatten_cons,
      List.foldl_append]
    congr 2
    rw [encodeSegment, List.foldl_map]
    congr 1
    funext m r
    rw [decodeValue_encodeValue]
    obtain ⟨k, slot⟩ := r
    cases slot <;> rfl

theorem drop_min {α : Type} (l : List α) (n : Nat) : l.drop (min n l.length) = l.drop n := by
  by_cases hn : n ≤ l.length
  · rw [Nat.min_eq_left hn]
  · rw [Nat.min_eq_right (by omega), List.drop_length, List.drop_of_length_le (by omega)]

/-- What a compaction of these segments writes. -/
def mergeWrites (segments : List (Segment Bytes)) : List (Segment Bytes) :=
  if segments.length < 2 then [] else HuskStore.mergedSegments segments

/-- However far a compaction gets, the directory holds what is left of the segments. A finished one
has removed them all. -/
theorem Represents.compactUpTo {d : DiskStore} {s : HuskStore Bytes} (h : Represents d s)
    (hflush : ∀ segment ∈ flushed s.buffer, Fits (encodeSegment segment))
    (hmerge : ∀ segment ∈ mergeWrites s.flush.segments, Fits (encodeSegment segment)) (removed : Nat) :
    ∃ d', d.compactUpTo removed = some d' ∧
      (∃ handles, Files d'.dir handles (s.compactUpTo removed).segments) ∧
      (s.flush.segments.length ≤ removed → Represents d' (s.compactUpTo removed)) := by
  obtain ⟨d₁, hd₁, h₁⟩ := h.flush hflush
  have hlen : d₁.segments.length = s.flush.segments.length := h₁.files.onDisk.length_eq
  unfold DiskStore.compactUpTo HuskStore.compactUpTo
  unfold mergeWrites at hmerge
  rw [hd₁, Option.bind_some, hlen]
  dsimp only
  split
  · exact ⟨d₁, rfl, ⟨_, h₁.files⟩, fun _ => h₁⟩
  · rename_i hmany
    rw [if_neg hmany] at hmerge
    rw [replaySegments_eq h₁.files.onDisk, Option.bind_some]
    change ∃ d', (if (HuskStore.liveValues s.flush.segments).isEmpty then _ else _) = some d' ∧ _
    have hremoved := h₁.files.remove removed
    have hall : s.flush.segments.length ≤ removed →
        d₁.segments.drop removed = [] ∧ s.flush.segments.drop removed = [] := fun hle =>
      ⟨List.drop_of_length_le (by omega), List.drop_of_length_le hle⟩
    unfold HuskStore.mergedSegments at hmerge ⊢
    dsimp only at hmerge ⊢
    split
    · rename_i hempty
      rw [List.append_nil]
      refine ⟨_, rfl, ⟨_, hremoved⟩, fun hle => ?_⟩
      obtain ⟨hhandles, hsegments⟩ := hall hle
      rw [hhandles, hsegments] at hremoved
      rw [hsegments]
      refine ⟨h₁.buffer, h₁.bufferLimit, h₁.cache, hremoved, fun seq hseq => ?_⟩
      exact absurd ((hremoved.numbers seq).mp hseq) (by simp)
    · rename_i hlive
      rw [if_neg hlive] at hmerge
      have hfits := hmerge _ List.mem_cons_self
      have hasc := HuskStore.ascending_map_some (HuskStore.liveValues s.flush.segments)
      have hwrite := writeNext_eq d₁ hfits hasc
      have hfiles := (h₁.files.insert h₁.next hfits hasc).remove (min removed d₁.segments.length)
      rw [List.take_append_of_le_length (Nat.min_le_right _ _), List.drop_append_of_le_length (Nat.min_le_right _ _),
        List.drop_append_of_le_length (by omega), drop_min, hlen, drop_min, ← hlen, ← List.take_eq_take_min] at hfiles
      have hencode : encodeSegment ((HuskStore.liveValues s.flush.segments).toList.map fun kv => (kv.1, some kv.2)) =
          (HuskStore.liveValues s.flush.segments).toList.map fun r => (r.1, encodeValue (some r.2)) := by
        rw [encodeSegment, List.map_map]
        rfl
      change ∃ d', (d₁.writeNext ((HuskStore.liveValues s.flush.segments).toList.map fun r =>
        (r.1, encodeValue (some r.2)))).map _ = some d' ∧ _
      rw [← hencode, hwrite]
      refine ⟨_, rfl, ⟨_, hfiles⟩, fun hle => ?_⟩
      obtain ⟨hhandles, hsegments⟩ := hall hle
      rw [hhandles, hsegments] at hfiles
      rw [hsegments]
      refine ⟨h₁.buffer, h₁.bufferLimit, h₁.cache, hfiles, fun seq hseq => ?_⟩
      obtain rfl := List.mem_singleton.mp ((hfiles.numbers seq).mp hseq)
      exact Nat.lt_succ_self _

theorem Represents.compact {d : DiskStore} {s : HuskStore Bytes} (h : Represents d s)
    (hflush : ∀ segment ∈ flushed s.buffer, Fits (encodeSegment segment))
    (hmerge : ∀ segment ∈ mergeWrites s.flush.segments, Fits (encodeSegment segment)) :
    ∃ d', d.compact = some d' ∧ Represents d' s.compact := by
  have hlen : d.segments.length = s.segments.length := h.files.onDisk.length_eq
  have hcount : s.flush.segments.length ≤ d.segments.length + 1 := by
    rw [hlen]
    unfold HuskStore.flush
    split
    · exact Nat.le_succ _
    · rw [List.length_append, List.length_singleton]
  obtain ⟨d', hd', -, hrep⟩ := h.compactUpTo hflush hmerge (d.segments.length + 1)
  refine ⟨d', hd', ?_⟩
  have hsame : s.compactUpTo (d.segments.length + 1) = s.compact := by
    unfold HuskStore.compact HuskStore.compactUpTo
    dsimp only
    split
    · rfl
    · rw [List.drop_of_length_le hcount, List.drop_length]
  rw [← hsame]
  exact hrep hcount

/-! ## Opening -/

theorem mapM_openFile {dir : BTreeMap Nat Bytes} {handles : List Handle} {segments : List (Segment Bytes)}
    (h : List.Forall₂ (OnDisk dir) handles segments) :
    (handles.map fun handle => (handle.seq, (dir[handle.seq]?).getD [])).mapM (fun (seq, file) => openFile seq file) =
      some handles := by
  induction h with
  | nil => rfl
  | @cons handle segment handles segments hhead _ ih =>
    rw [List.map_cons, List.mapM_cons, hhead.file, Option.getD_some]
    dsimp only
    rw [SegmentFile.openFile_fileOf _ hhead.fits.toFitsIndex, ← hhead.handle_eq, ih]
    rfl

theorem Files.toList {dir : BTreeMap Nat Bytes} {handles : List Handle} {segments : List (Segment Bytes)}
    (h : Files dir handles segments) :
    dir.toList = handles.map fun handle => (handle.seq, (dir[handle.seq]?).getD []) := by
  have hkeys : dir.keys = handles.map (·.seq) := by
    refine List.Perm.eq_of_pairwise (fun a b _ _ (hab : a < b) hba => absurd hab (Nat.lt_asymm hba)) ?_ h.ordered ?_
    · exact dir.ordered_keys.imp fun hlt => Nat.compare_eq_lt.mp hlt
    · refine (List.perm_ext_iff_of_nodup ExtTreeMap.nodup_keys ?_).mpr fun seq => ?_
      · exact h.ordered.imp fun hlt => Nat.ne_of_lt hlt
      · rw [ExtTreeMap.mem_keys, h.numbers]
  have hvalues : dir.toList = dir.keys.map fun seq => (seq, (dir[seq]?).getD []) := by
    rw [← ExtTreeMap.map_fst_toList_eq_keys, List.map_map]
    conv_lhs => rw [← List.map_id dir.toList]
    refine List.map_congr_left fun entry hentry => ?_
    obtain ⟨seq, file⟩ := entry
    have hfile := ExtTreeMap.mem_toList_iff_getElem?_eq_some.mp hentry
    simp [hfile]
  rw [hvalues, hkeys, List.map_map]
  rfl

/-- Opening a directory finds its segments. -/
theorem Files.openDir {dir : BTreeMap Nat Bytes} {handles : List Handle} {s : HuskStore Bytes}
    (h : Files dir handles s.segments) (bufferLimit cacheCap : Nat) :
    ∃ d, DiskStore.openDir dir bufferLimit cacheCap = some d ∧ Represents d (s.reopen bufferLimit cacheCap) := by
  unfold DiskStore.openDir
  rw [h.toList, mapM_openFile h.onDisk]
  refine ⟨_, rfl, rfl, rfl, rfl, h, fun seq hseq => ?_⟩
  dsimp only
  have hordered := h.ordered
  have hmem := (h.numbers seq).mp hseq
  rcases List.eq_nil_or_concat handles with rfl | ⟨before, last, rfl⟩
  · cases hmem
  · rw [List.concat_eq_append, List.map_append] at hmem hordered ⊢
    rw [List.map_singleton, List.getLast?_append, List.getLast?_singleton]
    rcases List.mem_append.mp hmem with hold | hlast
    · exact Nat.lt_succ_of_lt ((List.pairwise_append.mp hordered).2.2 seq hold last.seq List.mem_cons_self)
    · rw [List.mem_singleton.mp hlast]
      exact Nat.lt_succ_self _

end DiskStore

/-! ## Runs -/

inductive StoreOp
  | put (key : Str) (value : Bytes)
  | delete (key : Str)
  | get (key : Str)
  | flush
  | compact
  /-- A flush, and the directory opened again. -/
  | reopen (bufferLimit cacheCap : Nat)

/-- What the operation does to a plain map. -/
def StoreOp.onMap (m : BTreeMap Str Bytes) : StoreOp → BTreeMap Str Bytes
  | .put key value => m.insert key value
  | .delete key => m.erase key
  | _ => m

namespace DiskStore

def step (d : DiskStore) : StoreOp → Option DiskStore
  | .put key value => d.put key value
  | .delete key => d.delete key
  | .get key => (d.get key).map (·.2)
  | .flush => d.flush
  | .compact => d.compact
  | .reopen bufferLimit cacheCap => d.flush.bind fun d => openDir d.dir bufferLimit cacheCap

/-- A store, and the map that the same operations make. -/
def stepBoth (both : Option DiskStore × BTreeMap Str Bytes) (op : StoreOp) :
    Option DiskStore × BTreeMap Str Bytes :=
  (both.1.bind (·.step op), op.onMap both.2)

/-- The segments that an operation writes. -/
def writes (d : DiskStore) (m : BTreeMap Str Bytes) : StoreOp → List (Segment Bytes)
  | .put key value =>
    let buffer := d.buffer.insert key (some value)
    if buffer.size ≥ d.bufferLimit then flushed buffer else []
  | .delete key =>
    let buffer := d.buffer.insert key none
    if buffer.size ≥ d.bufferLimit then flushed buffer else []
  | .get _ => []
  | .flush => flushed d.buffer
  | .reopen _ _ => flushed d.buffer
  | .compact =>
    flushed d.buffer ++
      if d.segments.length + (flushed d.buffer).length < 2 then []
      else if m.isEmpty then [] else [m.toList.map fun kv => (kv.1, some kv.2)]

/-- What an operation writes fits its segment files. -/
def Fitting (d : DiskStore) (m : BTreeMap Str Bytes) (op : StoreOp) : Prop :=
  ∀ segment ∈ d.writes m op, Fits (encodeSegment segment)

/-- The store answers like the map. -/
structure Answers (d : DiskStore) (m : BTreeMap Str Bytes) : Prop where
  get : ∀ key : Str, (d.get key).map (·.1) = some m[key]?
  liveEntries : d.liveEntries = some m.toList
  scanPrefix : ∀ pre, d.scanPrefix pre = some (m.toList.filter (startsWith pre ·.1))

/-- The store represents records that hold the map. -/
def Stores (d : DiskStore) (m : BTreeMap Str Bytes) : Prop := ∃ s, Represents d s ∧ HuskStore.Holds s m

theorem Stores.answers {d : DiskStore} {m : BTreeMap Str Bytes} (h : Stores d m) : Answers d m := by
  obtain ⟨s, hrep, hholds⟩ := h
  refine ⟨fun key => ?_, ?_, fun pre => ?_⟩
  · obtain ⟨d', hget, -⟩ := hrep.get key
    rw [hget, Option.map_some, hholds.get]
  · rw [hrep.liveEntries, hholds.liveEntries]
  · rw [hrep.scanPrefix, hholds.scanPrefix]

theorem liveValues_flush {s : HuskStore Bytes} {m : BTreeMap Str Bytes} (h : HuskStore.Holds s m) :
    HuskStore.liveValues s.flush.segments = m := by
  apply ExtTreeMap.ext_getElem?
  intro k
  rw [HuskStore.liveValues_eq, LayeredMap.getElem?_compacted _ fun segment hmem => (h.toValid.flush.ascending segment hmem).nodup,
    ← h.value, ← HuskStore.slot_flush, HuskStore.slot_of_empty (HuskStore.buffer_flush s)]
  rfl

theorem length_flush (s : HuskStore Bytes) :
    s.flush.segments.length = s.segments.length + (flushed s.buffer).length := by
  unfold HuskStore.flush flushed
  split
  · rfl
  · rw [List.length_append]

/-- What a compaction must fit, on the records. -/
theorem Fitting.compact {d : DiskStore} {s : HuskStore Bytes} {m : BTreeMap Str Bytes} (hrep : Represents d s)
    (hholds : HuskStore.Holds s m) (h : Fitting d m .compact) :
    (∀ segment ∈ flushed s.buffer, Fits (encodeSegment segment)) ∧
      ∀ segment ∈ mergeWrites s.flush.segments, Fits (encodeSegment segment) := by
  have hlen : d.segments.length = s.segments.length := hrep.files.onDisk.length_eq
  unfold Fitting writes at h
  rw [hrep.buffer, hlen, ← length_flush] at h
  refine ⟨fun segment hmem => h segment (List.mem_append_left _ hmem), fun segment hmem => ?_⟩
  refine h segment (List.mem_append_right _ ?_)
  unfold mergeWrites HuskStore.mergedSegments at hmem
  rw [liveValues_flush hholds] at hmem
  exact hmem

theorem Stores.step {d : DiskStore} {m : BTreeMap Str Bytes} (h : Stores d m) (op : StoreOp)
    (hfits : Fitting d m op) : ∃ d', d.step op = some d' ∧ Stores d' (op.onMap m) := by
  obtain ⟨s, hrep, hholds⟩ := h
  have hwrite : ∀ key slot, (∀ segment ∈ (if (d.buffer.insert key slot).size ≥ d.bufferLimit then
        flushed (d.buffer.insert key slot) else []), Fits (encodeSegment segment)) →
      ∃ d', maybeFlush { d with buffer := d.buffer.insert key slot, cache := d.cache.remove key } = some d' ∧
        Represents d' (s.write key slot).maybeFlush := by
    intro key slot hfits
    refine (hrep.write key slot).maybeFlush fun (hfull : (s.buffer.insert key slot).size ≥ s.bufferLimit) => ?_
    rw [hrep.buffer, hrep.bufferLimit, if_pos hfull] at hfits
    exact hfits
  cases op with
  | put key value =>
    obtain ⟨d', hd', hrep'⟩ := hwrite key (some value) hfits
    exact ⟨d', hd', _, hrep', hholds.put key value⟩
  | delete key =>
    obtain ⟨d', hd', hrep'⟩ := hwrite key none hfits
    exact ⟨d', hd', _, hrep', hholds.delete key⟩
  | get key =>
    obtain ⟨d', hd', hrep'⟩ := hrep.get key
    refine ⟨d', ?_, _, hrep', hholds.read key⟩
    rw [DiskStore.step, hd']
    rfl
  | flush =>
    unfold Fitting writes at hfits
    rw [hrep.buffer] at hfits
    obtain ⟨d', hd', hrep'⟩ := hrep.flush hfits
    exact ⟨d', hd', _, hrep', hholds.flush⟩
  | compact =>
    obtain ⟨hflush, hmerge⟩ := hfits.compact hrep hholds
    obtain ⟨d', hd', hrep'⟩ := hrep.compact hflush hmerge
    exact ⟨d', hd', _, hrep', hholds.compact⟩
  | reopen bufferLimit cacheCap =>
    unfold Fitting writes at hfits
    rw [hrep.buffer] at hfits
    obtain ⟨d₁, hd₁, hrep₁⟩ := hrep.flush hfits
    obtain ⟨d', hd', hrep'⟩ := hrep₁.files.openDir bufferLimit cacheCap
    refine ⟨d', ?_, _, hrep', hholds.reopen bufferLimit cacheCap⟩
    rw [DiskStore.step, hd₁]
    exact hd'

/-- A compaction that was cut short loses nothing. -/
theorem Stores.recover {d : DiskStore} {m : BTreeMap Str Bytes} (h : Stores d m) (hfits : Fitting d m .compact)
    (removed bufferLimit cacheCap : Nat) :
    ∃ d', ((d.compactUpTo removed).bind fun cut => openDir cut.dir bufferLimit cacheCap) = some d' ∧
      Stores d' m := by
  obtain ⟨s, hrep, hholds⟩ := h
  obtain ⟨hflush, hmerge⟩ := hfits.compact hrep hholds
  obtain ⟨cut, hcut, ⟨handles, hfiles⟩, -⟩ := hrep.compactUpTo hflush hmerge removed
  obtain ⟨d', hd', hrep'⟩ := hfiles.openDir bufferLimit cacheCap
  refine ⟨d', ?_, _, hrep', hholds.recover removed bufferLimit cacheCap⟩
  rw [hcut]
  exact hd'

theorem stores_fresh (bufferLimit cacheCap : Nat) :
    ∃ d, openDir ∅ bufferLimit cacheCap = some d ∧ Stores d ∅ := by
  refine ⟨_, rfl, HuskStore.new bufferLimit cacheCap, ⟨rfl, rfl, rfl, ⟨List.Forall₂.nil, ?_, List.Pairwise.nil⟩, ?_⟩,
    HuskStore.holds_new bufferLimit cacheCap⟩
  · intro seq
    simp
  · intro seq hseq
    simp at hseq

/-- While every segment that is written fits its file, the store answers like the map that receives
the same operations, also after a compaction that was cut short. -/
theorem store_is_map (bufferLimit cacheCap : Nat) (ops : List StoreOp)
    (hfits : Runs.EachStep stepBoth (fun both op => ∀ d, both.1 = some d → Fitting d both.2 op)
      (openDir ∅ bufferLimit cacheCap, ∅) ops) :
    Runs.Throughout stepBoth (fun both => ∃ d, both.1 = some d ∧ Answers d both.2 ∧
        (Fitting d both.2 .compact → ∀ removed limit cap,
          ∃ d', ((d.compactUpTo removed).bind fun cut => openDir cut.dir limit cap) = some d' ∧
            Answers d' both.2))
      (openDir ∅ bufferLimit cacheCap, ∅) ops := by
  have hstart : ∃ d, openDir ∅ bufferLimit cacheCap = some d ∧ Stores d ∅ := stores_fresh bufferLimit cacheCap
  have hstores : Runs.Throughout stepBoth (fun both => ∃ d, both.1 = some d ∧ Stores d both.2)
      (openDir ∅ bufferLimit cacheCap, ∅) ops := by
    refine Runs.throughout_of_step hstart (fun both op h hop => ?_) hfits
    obtain ⟨d, hd, hstores⟩ := h
    obtain ⟨d', hd', hstores'⟩ := hstores.step op (hop d hd)
    refine ⟨d', ?_, hstores'⟩
    rw [stepBoth, hd]
    exact hd'
  refine hstores.imp fun both h => ?_
  obtain ⟨d, hd, hstores⟩ := h
  refine ⟨d, hd, hstores.answers, fun hcompact removed limit cap => ?_⟩
  obtain ⟨d', hd', hstores'⟩ := hstores.recover hcompact removed limit cap
  exact ⟨d', hd', hstores'.answers⟩

theorem one_flushed_value_reads_back :
    ∃ d, (Runs.run stepBoth (openDir ∅ 8 4, ∅) [.put "a".toList [7], .flush]).1 = some d ∧
      Answers d ((∅ : BTreeMap Str Bytes).insert "a".toList [7]) := by
  have hfits : Fits (encodeSegment [("a".toList, some [7])]) :=
    ⟨⟨by decide, by decide, by decide⟩, by decide⟩
  have hput : ((openDir ∅ 8 4).map fun d => d.writes ∅ (.put "a".toList [7])) = some [] := by decide
  have hflush : ((stepBoth (openDir ∅ 8 4, ∅) (.put "a".toList [7])).1.map fun d =>
      d.writes ((∅ : BTreeMap Str Bytes).insert "a".toList [7]) .flush) = some [[("a".toList, some [7])]] := by
    decide
  have hrun := store_is_map 8 4 [.put "a".toList [7], .flush] ⟨fun d hd => ?_, fun d hd => ?_, trivial⟩
  · obtain ⟨d, hd, hanswers, -⟩ := hrun.finish
    exact ⟨d, hd, hanswers⟩
  · rw [show openDir ∅ 8 4 = some d from hd] at hput
    intro segment hmem
    rw [show d.writes ∅ (.put "a".toList [7]) = [] from Option.some.inj hput] at hmem
    cases hmem
  · rw [show (stepBoth (openDir ∅ 8 4, ∅) (.put "a".toList [7])).1 = some d from hd] at hflush
    intro segment hmem
    have hsegment : segment ∈ [[("a".toList, some [7])]] := Option.some.inj hflush ▸ hmem
    rw [List.mem_singleton.mp hsegment]
    exact hfits

/-- A record whose value is as long as the length field can count reads back as empty. -/
theorem get_long_value {key : Str} (hkey : byteLen key < 2 ^ 32) {value : Bytes} (hlen : value.length = 2 ^ 32) :
    SegmentFile.get (fileOf [(key, value)]) (handleOf 0 [(key, value)]) key = some (some []) := by
  have hsearch : SegmentFile.binarySearch (handleOf 0 [(key, value)]).sparse key = .ok 0 := by
    simp [handleOf, SegmentFile.sparseOf, SegmentFile.binarySearch]
  have hfile : fileOf [(key, value)] = putBytes 4 (utf8 key) ++ (putBytes 4 value ++
      ((leOf 4 (SegmentFile.sparseOf 0 0 [(key, value)]).length ++
        SegmentFile.sparseBytes (SegmentFile.sparseOf 0 0 [(key, value)])) ++
      (leOf 8 (SegmentFile.encodeAll [(key, value)]).length ++ leOf 8 SegmentFile.magic))) := by
    simp only [fileOf, SegmentFile.encodeAll, List.flatMap_cons, List.flatMap_nil, SegmentFile.encodeRecord,
      List.append_assoc, List.append_nil]
  have hend : 0 < (handleOf 0 [(key, value)]).recordsEnd := by
    simp only [handleOf, SegmentFile.encodeAll, List.flatMap_cons, List.flatMap_nil, List.append_nil,
      SegmentFile.length_encodeRecord]
    omega
  rw [SegmentFile.get, if_neg (by simp [handleOf, SegmentFile.sparseOf]), hsearch]
  dsimp only
  rw [SegmentFile.readAt, show SegmentFile.offsetAt (handleOf 0 [(key, value)]).sparse 0 = 0 from rfl, List.drop_zero,
    SegmentFile.scan, if_pos hend, hfile, SegmentFile.readString_append hkey, Option.bind_some]
  dsimp only
  rw [readBytes_append_mod, hlen, Option.bind_some]
  simp [SegmentFile.visitGet]

theorem toList_insert_empty (key : Str) (slot : Option Bytes) :
    ((∅ : BTreeMap Str (Option Bytes)).insert key slot).toList = [(key, slot)] := by
  have hlen : ((∅ : BTreeMap Str (Option Bytes)).insert key slot).toList.length = 1 := by
    rw [ExtTreeMap.length_toList, ExtTreeMap.size_insert]
    simp
  obtain ⟨entry, hentry⟩ := List.length_eq_one_iff.mp hlen
  have hmem : (key, slot) ∈ ((∅ : BTreeMap Str (Option Bytes)).insert key slot).toList :=
    ExtTreeMap.mem_toList_iff_getElem?_eq_some.mpr ExtTreeMap.getElem?_insert_self
  rw [hentry] at hmem ⊢
  rw [List.mem_singleton.mp hmem]

/-- With its tag, the value is one byte too long for the length field, which is zero then. -/
theorem long_value_reads_as_missing (key : Str) (value : Bytes) (hkey : byteLen key < 2 ^ 31)
    (hlen : value.length + 1 = 2 ^ 32) :
    ∃ d, (Runs.run stepBoth (openDir ∅ 8 4, ∅) [.put key value, .flush]).1 = some d ∧
      (d.get key).map (·.1) = some none := by
  have hlen : (encodeValue (some value)).length = 2 ^ 32 := hlen
  have hasc : SegmentFile.Ascending [(key, encodeValue (some value))] := List.pairwise_singleton _ _
  have hfits : SegmentFile.FitsIndex [(key, encodeValue (some value))] := by
    refine ⟨fun r hr => ?_, by simp, ?_⟩
    · rw [List.mem_singleton.mp hr]
      dsimp only
      omega
    · simp only [SegmentFile.encodeAll, List.flatMap_cons, List.flatMap_nil, List.append_nil,
        SegmentFile.length_encodeRecord]
      omega
  have hsize : ¬ ((∅ : BTreeMap Str (Option Bytes)).insert key (some value)).size ≥ 8 := by
    rw [ExtTreeMap.size_insert]
    simp
  have hsome : ¬ ((∅ : BTreeMap Str (Option Bytes)).insert key (some value)).isEmpty = true := by
    rw [← ExtTreeMap.isEmpty_toList, toList_insert_empty]
    simp
  have hput : (openDir ∅ 8 4).bind (·.step (.put key value)) = some
      { dir := ∅, buffer := (∅ : BTreeMap Str (Option Bytes)).insert key (some value), bufferLimit := 8,
        segments := [], nextSeq := 0, cache := (Lru.new 4).remove key } := by
    have hopen : openDir ∅ 8 4 = some
        { dir := ∅, buffer := ∅, bufferLimit := 8, segments := [], nextSeq := 0, cache := Lru.new 4 } := rfl
    rw [hopen, Option.bind_some, step, put, maybeFlush, if_neg hsize]
  have hrun : (Runs.run stepBoth (openDir ∅ 8 4, ∅) [.put key value, .flush]).1 = some
      { dir := (∅ : BTreeMap Nat Bytes).insert 0 (fileOf [(key, encodeValue (some value))]), buffer := ∅,
        bufferLimit := 8, segments := [handleOf 0 [(key, encodeValue (some value))]], nextSeq := 1,
        cache := (Lru.new 4).remove key } := by
    change ((openDir ∅ 8 4).bind (·.step (.put key value))).bind (·.step .flush) = _
    rw [hput, Option.bind_some, step, flush, if_neg hsome, toList_insert_empty, List.map_singleton, writeNext,
      SegmentFile.writeSegment_of_ascending hasc, Option.bind_some, SegmentFile.openFile_fileOf _ hfits]
    rfl
  refine ⟨_, hrun, ?_⟩
  have hfile : ((∅ : BTreeMap Nat Bytes).insert 0 (fileOf [(key, encodeValue (some value))]))[0]? =
      some (fileOf [(key, encodeValue (some value))]) := ExtTreeMap.getElem?_insert_self
  have hcache : (((Lru.new 4).remove key : Lru Bytes).get key).1 = none := by
    rw [Lru.get_fst, Lru.getElem?_remove, if_pos rfl]
    rfl
  unfold get
  rw [ExtTreeMap.getElem?_empty]
  dsimp only
  split
  · rename_i found cache hget
    rw [hget] at hcache
    cases hcache
  · have hread : readSegments
        { dir := (∅ : BTreeMap Nat Bytes).insert 0 (fileOf [(key, encodeValue (some value))]), buffer := ∅,
          bufferLimit := 8, segments := [handleOf 0 [(key, encodeValue (some value))]], nextSeq := 1,
          cache := (Lru.new 4).remove key } key [handleOf 0 [(key, encodeValue (some value))]] = some (some []) := by
      rw [readSegments, show (handleOf 0 [(key, encodeValue (some value))]).seq = 0 from rfl, hfile, Option.bind_some,
        get_long_value (by omega) hlen]
      rfl
    rw [List.reverse_singleton, hread]
    rfl

theorem long_value_is_lost :
    ∃ d, (Runs.run stepBoth (openDir ∅ 8 4, ∅) [.put "k".toList (List.replicate (2 ^ 32 - 1) 0), .flush]).1 = some d ∧
      (d.get "k".toList).map (·.1) = some none ∧ ¬ Answers d
        (Runs.run stepBoth (openDir ∅ 8 4, ∅) [.put "k".toList (List.replicate (2 ^ 32 - 1) 0), .flush]).2 := by
  obtain ⟨d, hd, hget⟩ := long_value_reads_as_missing "k".toList (List.replicate (2 ^ 32 - 1) 0) (by decide)
    (by rw [List.length_replicate]; norm_num)
  refine ⟨d, hd, hget, fun h => ?_⟩
  have hvalue := h.get "k".toList
  rw [hget] at hvalue
  have hmap : (Runs.run stepBoth (openDir ∅ 8 4, ∅)
      [.put "k".toList (List.replicate (2 ^ 32 - 1) 0), .flush]).2["k".toList]? =
        some (List.replicate (2 ^ 32 - 1) 0) := ExtTreeMap.getElem?_insert_self
  rw [hmap] at hvalue
  cases Option.some.inj hvalue

end DiskStore

end Ccos
