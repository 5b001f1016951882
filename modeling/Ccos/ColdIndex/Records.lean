import Ccos.ColdIndex
import Ccos.Lib.LayeredMap

/-!
# The key store as a map

The buffer and the segments are the layers of one map. Flushing moves the top layer, a compaction
merges the layers, and the read cache agrees with them.
-/

open Std

namespace Ccos

/-! ## The read cache -/

namespace Lru

variable {V : Type}

/-- A read moves one clock. -/
theorem getElem?_get (c : Lru V) (key k : Str) :
    (((c.get key).2.map)[k]?).map (·.1) = (c.map[k]?).map (·.1) := by
  simp only [get]
  rw [ExtTreeMap.getElem?_modify]
  split
  · rename_i heq
    obtain rfl := LawfulEqOrd.compare_eq_iff_eq.mp heq
    cases c.map[key]? <;> rfl
  · rfl

theorem get_fst (c : Lru V) (key : Str) : (c.get key).1 = (c.map[key]?).map (·.1) := rfl

/-- An insertion holds the new value, and otherwise only what the cache held. -/
theorem getElem?_insert_cases (c : Lru V) (key k : Str) (value v : V)
    (h : (((c.insert key value).map)[k]?).map (·.1) = some v) :
    (k = key ∧ v = value) ∨ (c.map[k]?).map (·.1) = some v := by
  unfold insert at h
  split at h
  · exact Or.inr h
  · dsimp only at h
    rw [ExtTreeMap.getElem?_insert] at h
    split at h
    · rename_i heq
      exact Or.inl ⟨(LawfulEqOrd.compare_eq_iff_eq.mp heq).symm, (Option.some.inj h).symm⟩
    · right
      split at h
      · split at h
        · rw [ExtTreeMap.getElem?_erase] at h
          split at h
          · cases h
          · exact h
        · exact h
      · exact h

theorem getElem?_remove (c : Lru V) (key k : Str) :
    ((c.remove key).map)[k]? = if k = key then none else c.map[k]? := by
  simp only [remove, ExtTreeMap.getElem?_erase, LawfulEqOrd.compare_eq_iff_eq, eq_comm (a := key)]

end Lru

namespace HuskStore

variable {V : Type}

/-! ## The layers -/

/-- The segments, and the buffer on top. -/
def layers (s : HuskStore V) : List (LayeredMap.Layer Str V) := s.segments ++ [s.buffer.toList]

/-- The record that decides on a key. -/
def slot (s : HuskStore V) (k : Str) : Option (Option V) := LayeredMap.newest s.layers k

theorem slot_eq (s : HuskStore V) (k : Str) :
    s.slot k = (s.buffer[k]?).or (segmentGet s.segments k) := by
  rw [slot, layers, LayeredMap.newest_snoc, LayeredMap.lookup_toList]
  rfl

/-- Records in ascending key order, as a segment file holds them. -/
def Ascending (segment : Segment V) : Prop := segment.Pairwise fun a b => compare a.1 b.1 = .lt

theorem Ascending.nodup {segment : Segment V} (h : Ascending segment) : (segment.map (·.1)).Nodup := by
  rw [List.nodup_iff_pairwise_ne, List.pairwise_map]
  refine h.imp fun {a b} hlt heq => ?_
  rw [LawfulEqOrd.compare_eq_iff_eq.mpr heq] at hlt
  cases hlt

theorem ascending_toList (m : BTreeMap Str (Option V)) : Ascending m.toList := m.ordered_keys_toList

theorem ascending_map_some (m : BTreeMap Str V) :
    Ascending (m.toList.map fun kv => (kv.1, some kv.2)) := by
  rw [Ascending, List.pairwise_map]
  exact m.ordered_keys_toList

/-- The segments are ascending, and the cache holds values that the layers have. -/
structure Valid (s : HuskStore V) : Prop where
  ascending : ∀ segment ∈ s.segments, Ascending segment
  cached : ∀ (k : Str) (v : V), (s.cache.map[k]?).map (·.1) = some v → s.slot k = some (some v)

theorem Valid.nodup_layers {s : HuskStore V} (h : Valid s) :
    ∀ layer ∈ s.layers, (layer.map (·.1)).Nodup := by
  intro layer hmem
  rcases List.mem_append.mp hmem with hseg | hbuf
  · exact (h.ascending layer hseg).nodup
  · obtain rfl := List.mem_singleton.mp hbuf
    exact (ascending_toList s.buffer).nodup

theorem Valid.getElem?_merged {s : HuskStore V} (h : Valid s) (k : Str) : s.merged[k]? = s.slot k := by
  have hmerge := LayeredMap.getElem?_mergeInto s.layers h.nodup_layers ∅ k
  rw [ExtTreeMap.getElem?_empty, Option.or_none] at hmerge
  rw [slot, ← hmerge, LayeredMap.mergeInto, layers, List.flatten_append, List.flatten_singleton]
  rfl

/-! ## What the operations do to the layers -/

theorem valid_new (bufferLimit cacheCap : Nat) : Valid (new bufferLimit cacheCap : HuskStore V) where
  ascending segment hmem := by cases hmem
  cached k v h := by
    simp only [new, Lru.new, ExtTreeMap.getElem?_empty, Option.map_none] at h
    cases h

theorem slot_new (bufferLimit cacheCap : Nat) (k : Str) :
    (new bufferLimit cacheCap : HuskStore V).slot k = none := by
  rw [slot_eq, new, ExtTreeMap.getElem?_empty]
  rfl

theorem slot_flush (s : HuskStore V) (k : Str) : s.flush.slot k = s.slot k := by
  unfold flush
  split
  · rfl
  · rw [slot_eq, slot, layers, ExtTreeMap.getElem?_empty, Option.none_or]
    rfl

theorem Valid.flush {s : HuskStore V} (h : Valid s) : Valid s.flush where
  ascending := by
    unfold HuskStore.flush
    split
    · exact h.ascending
    · intro segment hmem
      rcases List.mem_append.mp hmem with hseg | hbuf
      · exact h.ascending segment hseg
      · rw [List.mem_singleton.mp hbuf]
        exact ascending_toList s.buffer
  cached k v hk := by
    rw [slot_flush]
    apply h.cached
    unfold HuskStore.flush at hk
    split at hk <;> exact hk

theorem slot_maybeFlush (s : HuskStore V) (k : Str) : s.maybeFlush.slot k = s.slot k := by
  unfold maybeFlush
  split
  · exact slot_flush s k
  · rfl

theorem Valid.maybeFlush {s : HuskStore V} (h : Valid s) : Valid s.maybeFlush := by
  unfold HuskStore.maybeFlush
  split
  · exact h.flush
  · exact h

/-- A write of one slot, which `put` and `delete` share. -/
def write (s : HuskStore V) (key : Str) (slot : Option V) : HuskStore V :=
  { s with buffer := s.buffer.insert key slot, cache := s.cache.remove key }

theorem slot_write (s : HuskStore V) (key : Str) (slot : Option V) (k : Str) :
    (s.write key slot).slot k = if k = key then some slot else s.slot k := by
  rw [slot_eq, slot_eq, write, ExtTreeMap.getElem?_insert]
  by_cases hk : k = key
  · rw [if_pos hk, if_pos (LawfulEqOrd.compare_eq_iff_eq.mpr hk.symm), Option.some_or]
  · rw [if_neg hk, if_neg fun heq => hk (LawfulEqOrd.compare_eq_iff_eq.mp heq).symm]

theorem Valid.write {s : HuskStore V} (h : Valid s) (key : Str) (slot : Option V) :
    Valid (s.write key slot) where
  ascending := h.ascending
  cached k v hk := by
    rw [HuskStore.write, Lru.getElem?_remove] at hk
    rw [slot_write]
    split at hk
    · cases hk
    · rename_i hne
      rw [if_neg hne]
      exact h.cached k v hk

theorem slot_put (s : HuskStore V) (key : Str) (value : V) (k : Str) :
    (s.put key value).slot k = if k = key then some (some value) else s.slot k := by
  rw [put, slot_maybeFlush]
  exact slot_write s key (some value) k

theorem slot_delete (s : HuskStore V) (key k : Str) :
    (s.delete key).slot k = if k = key then some none else s.slot k := by
  rw [delete, slot_maybeFlush]
  exact slot_write s key none k

theorem Valid.put {s : HuskStore V} (h : Valid s) (key : Str) (value : V) : Valid (s.put key value) :=
  (h.write key (some value)).maybeFlush

theorem Valid.delete {s : HuskStore V} (h : Valid s) (key : Str) : Valid (s.delete key) :=
  (h.write key none).maybeFlush

theorem Valid.fst_get {s : HuskStore V} (h : Valid s) (k : Str) : (s.get k).1 = (s.slot k).join := by
  unfold HuskStore.get
  split
  · rename_i slot hbuffer
    rw [slot_eq, hbuffer]
    rfl
  · rename_i hbuffer
    split
    · rename_i v cache hget
      have hcached : (s.cache.map[k]?).map (·.1) = some v := by
        rw [← Lru.get_fst, hget]
      rw [h.cached k v hcached]
      rfl
    · rw [slot_eq, hbuffer, Option.none_or]
      split <;> (rename_i hseg; rw [hseg]; rfl)

/-- A read leaves the layers alone. -/
theorem get_layers (s : HuskStore V) (k : Str) :
    (s.get k).2 = { s with cache := (s.get k).2.cache } := by
  unfold get
  split
  · rfl
  · split
    · rfl
    · split <;> rfl

theorem slot_get (s : HuskStore V) (key k : Str) : (s.get key).2.slot k = s.slot k := by
  rw [get_layers]
  rfl

theorem Valid.get {s : HuskStore V} (h : Valid s) (key : Str) : Valid (s.get key).2 where
  ascending := by
    rw [get_layers]
    exact h.ascending
  cached k v hk := by
    rw [slot_get]
    unfold HuskStore.get at hk
    split at hk
    · exact h.cached k v hk
    · rename_i hbuffer
      have hread : ∀ v, (((s.cache.get key).2.map)[k]?).map (·.1) = some v → s.slot k = some (some v) := by
        intro v hv
        rw [Lru.getElem?_get] at hv
        exact h.cached k v hv
      split at hk
      · rename_i w cache hget
        rw [hget] at hread
        exact hread v hk
      · rename_i cache hget
        rw [hget] at hread
        split at hk
        · rename_i w hseg
          rcases Lru.getElem?_insert_cases cache key k w v hk with ⟨rfl, rfl⟩ | hold
          · rw [slot_eq, hbuffer, hseg]
            rfl
          · exact hread v hold
        · exact hread v hk
        · exact hread v hk

/-! ## Compaction and reopening -/

theorem liveValues_eq (segments : List (Segment V)) : liveValues segments = LayeredMap.compacted segments := rfl

theorem valueAt_mergedSegments (segments : List (Segment V)) (h : ∀ segment ∈ segments, Ascending segment)
    (removed : Nat) (k : Str) :
    LayeredMap.valueAt (segments.drop removed ++ mergedSegments segments) k = LayeredMap.valueAt segments k := by
  have hnd := fun segment hmem => (h segment hmem).nodup
  have hcompacted := LayeredMap.valueAt_compacted segments hnd removed k
  unfold mergedSegments
  dsimp only
  split
  · rename_i hempty
    -- An empty layer on top decides on nothing.
    have hnone : (LayeredMap.compacted segments)[k]? = none := by
      rw [← liveValues_eq, ExtTreeMap.isEmpty_iff.mp hempty, ExtTreeMap.getElem?_empty]
    rw [LayeredMap.valueAt, LayeredMap.newest_snoc, LayeredMap.lookup_liveLayer, hnone, Option.map_none,
      Option.none_or] at hcompacted
    rw [List.append_nil]
    exact hcompacted
  · exact hcompacted

/-- The slots of a store without a buffer are those of its segments. -/
theorem slot_of_empty {s : HuskStore V} (h : s.buffer = ∅) (k : Str) : s.slot k = segmentGet s.segments k := by
  rw [slot_eq, h, ExtTreeMap.getElem?_empty, Option.none_or]

theorem buffer_flush (s : HuskStore V) : s.flush.buffer = ∅ := by
  unfold flush
  split
  · rename_i hempty
    exact ExtTreeMap.isEmpty_iff.mp hempty
  · rfl

theorem buffer_compactUpTo (s : HuskStore V) (removed : Nat) : (s.compactUpTo removed).buffer = ∅ := by
  unfold compactUpTo
  dsimp only
  split <;> exact buffer_flush s

theorem Valid.ascending_compactUpTo {s : HuskStore V} (h : Valid s) (removed : Nat) :
    ∀ segment ∈ (s.compactUpTo removed).segments, Ascending segment := by
  unfold compactUpTo
  dsimp only
  split
  · exact h.flush.ascending
  · intro segment hmem
    rcases List.mem_append.mp hmem with hold | hmerged
    · exact h.flush.ascending segment (List.mem_of_mem_drop hold)
    · unfold mergedSegments at hmerged
      dsimp only at hmerged
      split at hmerged
      · cases hmerged
      · rw [List.mem_singleton.mp hmerged]
        exact ascending_map_some _

/-- However far a compaction gets, no value changes. -/
theorem Valid.value_compactUpTo {s : HuskStore V} (h : Valid s) (removed : Nat) (k : Str) :
    ((s.compactUpTo removed).slot k).join = (s.slot k).join := by
  rw [slot_of_empty (buffer_compactUpTo s removed), ← slot_flush s k, slot_of_empty (buffer_flush s)]
  unfold compactUpTo
  dsimp only
  split
  · rfl
  · exact valueAt_mergedSegments s.flush.segments h.flush.ascending removed k

/-- The cache stays right: a value that it holds is live, so it is in the merged segment. -/
theorem Valid.compact {s : HuskStore V} (h : Valid s) : Valid s.compact where
  ascending := h.ascending_compactUpTo _
  cached k v hk := by
    have hcache : s.compact.cache = s.flush.cache := by
      unfold HuskStore.compact compactUpTo
      dsimp only
      split <;> rfl
    rw [hcache] at hk
    have hvalue := h.value_compactUpTo s.flush.segments.length k
    rw [← slot_flush s k, h.flush.cached k v hk] at hvalue
    exact Option.join_eq_some_iff.mp hvalue

theorem Valid.reopen {s : HuskStore V} (h : ∀ segment ∈ s.segments, Ascending segment) (bufferLimit cacheCap : Nat) :
    Valid (s.reopen bufferLimit cacheCap) where
  ascending := h
  cached k v hk := by
    simp only [HuskStore.reopen, Lru.new, ExtTreeMap.getElem?_empty, Option.map_none] at hk
    cases hk

theorem slot_reopen {s : HuskStore V} (h : s.buffer = ∅) (bufferLimit cacheCap : Nat) (k : Str) :
    (s.reopen bufferLimit cacheCap).slot k = s.slot k := by
  rw [slot_of_empty h, slot_of_empty rfl]
  rfl

/-! ## The map of a store -/

/-- The store holds exactly the map. -/
structure Holds (s : HuskStore V) (m : BTreeMap Str V) : Prop extends Valid s where
  value : ∀ k : Str, (s.slot k).join = m[k]?

theorem Holds.liveEntries {s : HuskStore V} {m : BTreeMap Str V} (h : Holds s m) :
    s.liveEntries = m.toList := by
  have hmap : s.merged.filterMap (fun _ slot => slot) = m := by
    apply ExtTreeMap.ext_getElem?
    intro k
    rw [ExtTreeMap.getElem?_filterMap', h.getElem?_merged, ← h.value]
    cases s.slot k <;> rfl
  rw [← hmap, ExtTreeMap.toList_filterMap]
  rfl

theorem Holds.scanPrefix {s : HuskStore V} {m : BTreeMap Str V} (h : Holds s m) (pre : Str) :
    s.scanPrefix pre = m.toList.filter (startsWith pre ·.1) := by
  rw [HuskStore.scanPrefix, h.liveEntries]

theorem Holds.get {s : HuskStore V} {m : BTreeMap Str V} (h : Holds s m) (k : Str) :
    (s.get k).1 = m[k]? := by
  rw [h.fst_get, h.value]

theorem holds_new (bufferLimit cacheCap : Nat) : Holds (new bufferLimit cacheCap : HuskStore V) ∅ where
  toValid := valid_new bufferLimit cacheCap
  value k := by
    rw [slot_new, ExtTreeMap.getElem?_empty]
    rfl

theorem Holds.put {s : HuskStore V} {m : BTreeMap Str V} (h : Holds s m) (key : Str) (value : V) :
    Holds (s.put key value) (m.insert key value) where
  toValid := h.toValid.put key value
  value k := by
    rw [slot_put, ExtTreeMap.getElem?_insert]
    by_cases hk : k = key
    · rw [if_pos hk, if_pos (LawfulEqOrd.compare_eq_iff_eq.mpr hk.symm)]
      rfl
    · rw [if_neg hk, if_neg fun heq => hk (LawfulEqOrd.compare_eq_iff_eq.mp heq).symm, h.value]

theorem Holds.delete {s : HuskStore V} {m : BTreeMap Str V} (h : Holds s m) (key : Str) :
    Holds (s.delete key) (m.erase key) where
  toValid := h.toValid.delete key
  value k := by
    rw [slot_delete, ExtTreeMap.getElem?_erase]
    by_cases hk : k = key
    · rw [if_pos hk, if_pos (LawfulEqOrd.compare_eq_iff_eq.mpr hk.symm)]
      rfl
    · rw [if_neg hk, if_neg fun heq => hk (LawfulEqOrd.compare_eq_iff_eq.mp heq).symm, h.value]

theorem Holds.read {s : HuskStore V} {m : BTreeMap Str V} (h : Holds s m) (key : Str) :
    Holds (s.get key).2 m where
  toValid := h.toValid.get key
  value k := by rw [slot_get, h.value]

theorem Holds.flush {s : HuskStore V} {m : BTreeMap Str V} (h : Holds s m) : Holds s.flush m where
  toValid := h.toValid.flush
  value k := by rw [slot_flush, h.value]

theorem Holds.compact {s : HuskStore V} {m : BTreeMap Str V} (h : Holds s m) : Holds s.compact m where
  toValid := h.toValid.compact
  value k := by rw [HuskStore.compact, h.value_compactUpTo, h.value]

/-- Reopening after a flush. -/
theorem Holds.reopen {s : HuskStore V} {m : BTreeMap Str V} (h : Holds s m) (bufferLimit cacheCap : Nat) :
    Holds (s.flush.reopen bufferLimit cacheCap) m where
  toValid := Valid.reopen h.flush.ascending bufferLimit cacheCap
  value k := by rw [slot_reopen (buffer_flush s), slot_flush, h.value]

/-- Reopening after a compaction that was cut short. -/
theorem Holds.recover {s : HuskStore V} {m : BTreeMap Str V} (h : Holds s m) (removed bufferLimit cacheCap : Nat) :
    Holds ((s.compactUpTo removed).reopen bufferLimit cacheCap) m where
  toValid := Valid.reopen (h.ascending_compactUpTo removed) bufferLimit cacheCap
  value k := by rw [slot_reopen (buffer_compactUpTo s removed), h.value_compactUpTo, h.value]

end HuskStore

end Ccos
