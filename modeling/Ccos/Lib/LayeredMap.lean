import Mathlib.Data.List.Induction
import Mathlib.Tactic.Linarith
import Std.Data.ExtTreeMap.Lemmas

/-!
# Maps in layers

A map is kept as layers of records, the oldest first. A later layer decides over an earlier one, and a
record without a value marks its key as deleted.
-/

open Std

set_option linter.unusedSectionVars false

namespace LayeredMap

variable {K V : Type} [Ord K] [TransOrd K] [LawfulEqOrd K] [BEq K] [LawfulBEq K] [DecidableEq K]

/-- The records of one layer. Each key has one record at most. -/
abbrev Layer (K V : Type) := List (K × Option V)

/-- The record that decides on a key. -/
def newest (layers : List (Layer K V)) (k : K) : Option (Option V) := layers.reverse.findSome? (·.lookup k)

/-- The value of a key. -/
def valueAt (layers : List (Layer K V)) (k : K) : Option V := (newest layers k).join

section

omit [Ord K] [TransOrd K] [LawfulEqOrd K] [LawfulBEq K] [DecidableEq K]

theorem newest_snoc (layers : List (Layer K V)) (top : Layer K V) (k : K) :
    newest (layers ++ [top]) k = (top.lookup k).or (newest layers k) := by
  rw [newest, List.reverse_append, List.reverse_singleton, List.singleton_append, List.findSome?_cons, newest]
  cases top.lookup k <;> rfl

theorem newest_append (older newer : List (Layer K V)) (k : K) :
    newest (older ++ newer) k = (newest newer k).or (newest older k) := by
  rw [newest, List.reverse_append, List.findSome?_append]
  rfl

/-- Without its oldest layers, a map forgets a key or agrees on it. -/
theorem newest_drop (layers : List (Layer K V)) (n : Nat) (k : K) :
    newest (layers.drop n) k = none ∨ newest (layers.drop n) k = newest layers k := by
  have hsplit := newest_append (layers.take n) (layers.drop n) k
  rw [List.take_append_drop] at hsplit
  cases hdrop : newest (layers.drop n) k with
  | none => exact Or.inl rfl
  | some slot =>
    rw [hdrop] at hsplit
    exact Or.inr hsplit.symm

end

/-! ## Maps as layers -/

omit [Ord K] [TransOrd K] [LawfulEqOrd K] [DecidableEq K] in
theorem lookup_of_not_mem {β : Type} {l : List (K × β)} {k : K} (h : k ∉ l.map (·.1)) : l.lookup k = none := by
  rw [List.lookup_eq_none_iff]
  intro p hp
  rw [bne_iff_ne]
  rintro rfl
  exact h (List.mem_map_of_mem hp)

theorem lookup_toList {β : Type} (m : ExtTreeMap K β) (k : K) : m.toList.lookup k = m[k]? := by
  cases hk : m[k]? with
  | none =>
    apply lookup_of_not_mem
    rw [List.mem_map]
    rintro ⟨⟨k', v⟩, hmem, rfl⟩
    rw [ExtTreeMap.mem_toList_iff_getElem?_eq_some, hk] at hmem
    cases hmem
  | some v =>
    have hmem := ExtTreeMap.mem_toList_iff_getElem?_eq_some.mpr hk
    obtain ⟨before, after, hl⟩ := List.append_of_mem hmem
    have hdistinct := m.distinct_keys_toList
    rw [hl, List.pairwise_append] at hdistinct
    rw [hl, List.lookup_append, List.lookup_cons_self, lookup_of_not_mem, Option.none_or]
    rw [List.mem_map]
    rintro ⟨⟨k', v'⟩, hbefore, rfl⟩
    exact hdistinct.2.2 _ hbefore _ List.mem_cons_self ReflCmp.compare_self

/-- The live records as a layer of their own. -/
def liveLayer (m : ExtTreeMap K V) : Layer K V := m.toList.map fun kv => (kv.1, some kv.2)

omit [Ord K] [TransOrd K] [LawfulEqOrd K] [LawfulBEq K] [DecidableEq K] in
theorem lookup_map_some (l : List (K × V)) (k : K) :
    (l.map fun kv => (kv.1, some kv.2)).lookup k = (l.lookup k).map some := by
  induction l with
  | nil => rfl
  | cons kv l ih =>
    obtain ⟨key, v⟩ := kv
    simp only [List.map_cons, List.lookup_cons, ih]
    split <;> rfl

theorem lookup_liveLayer (m : ExtTreeMap K V) (k : K) : (liveLayer m).lookup k = (m[k]?).map some := by
  rw [liveLayer, lookup_map_some, lookup_toList]

/-! ## Merging -/

/-- Every record in turn, a later one over an earlier one. -/
def mergeInto (m : ExtTreeMap K (Option V)) (layers : List (Layer K V)) : ExtTreeMap K (Option V) :=
  layers.flatten.foldl (fun m kv => m.insert kv.1 kv.2) m

theorem getElem?_foldl_insert (layer : Layer K V) (hnd : (layer.map (·.1)).Nodup)
    (m : ExtTreeMap K (Option V)) (k : K) :
    (layer.foldl (fun m kv => m.insert kv.1 kv.2) m)[k]? = (layer.lookup k).or m[k]? := by
  induction layer generalizing m with
  | nil => rfl
  | cons kv layer ih =>
    rw [List.map_cons, List.nodup_cons] at hnd
    rw [List.foldl_cons, ih hnd.2, List.lookup_cons, ExtTreeMap.getElem?_insert]
    by_cases hk : k = kv.1
    · subst hk
      simp [lookup_of_not_mem hnd.1]
    · have hne : compare kv.1 k ≠ .eq := fun heq => hk (LawfulEqOrd.compare_eq_iff_eq.mp heq).symm
      rw [if_neg hne, beq_eq_false_iff_ne.mpr hk]

theorem getElem?_mergeInto (layers : List (Layer K V)) (hnd : ∀ layer ∈ layers, (layer.map (·.1)).Nodup)
    (m : ExtTreeMap K (Option V)) (k : K) : (mergeInto m layers)[k]? = (newest layers k).or m[k]? := by
  induction layers using List.reverseRecOn with
  | nil => rfl
  | append_singleton layers top ih =>
    have ih := ih fun layer h => hnd layer (List.mem_append_left _ h)
    unfold mergeInto at ih ⊢
    rw [List.flatten_append, List.flatten_singleton, List.foldl_append,
      getElem?_foldl_insert top (hnd top (List.mem_append_right _ List.mem_cons_self)), ih, newest_snoc,
      Option.or_assoc]

/-- Keeping some keys, before a merge or after it. -/
theorem filter_foldl_insert {β : Type} (p : K → Bool) (records : List (K × β)) (m : ExtTreeMap K β) :
    (records.filter fun kv => p kv.1).foldl (fun m kv => m.insert kv.1 kv.2) (m.filter fun k _ => p k) =
      (records.foldl (fun m kv => m.insert kv.1 kv.2) m).filter fun k _ => p k := by
  induction records generalizing m with
  | nil => rfl
  | cons kv records ih =>
    rw [List.foldl_cons, ← ih, List.filter_cons]
    have hlookup : ∀ k, ((m.insert kv.1 kv.2).filter fun k _ => p k)[k]? =
        if p k then (if kv.1 = k then some kv.2 else m[k]?) else none := by
      intro k
      rw [ExtTreeMap.getElem?_filter']
      simp only [ExtTreeMap.getElem?_insert, LawfulEqOrd.compare_eq_iff_eq]
      cases (if kv.1 = k then some kv.2 else m[k]?) <;> simp [Option.filter]
    split
    · rename_i hp
      rw [List.foldl_cons]
      congr 1
      apply ExtTreeMap.ext_getElem?
      intro k
      rw [hlookup]
      simp only [ExtTreeMap.getElem?_insert, LawfulEqOrd.compare_eq_iff_eq, ExtTreeMap.getElem?_filter']
      by_cases hk : kv.1 = k
      · subst hk
        rw [if_pos rfl, if_pos rfl, if_pos hp]
      · rw [if_neg hk, if_neg hk]
        cases m[k]? <;> simp [Option.filter]
    · rename_i hp
      congr 1
      apply ExtTreeMap.ext_getElem?
      intro k
      rw [hlookup, ExtTreeMap.getElem?_filter']
      by_cases hk : kv.1 = k
      · subst hk
        rw [if_neg hp]
        cases m[kv.1]? <;> simp [Option.filter, hp]
      · rw [if_neg hk]
        cases m[k]? <;> simp [Option.filter]

/-! ## Compaction -/

/-- One record on top of live values. -/
def applyRecord (m : ExtTreeMap K V) (kv : K × Option V) : ExtTreeMap K V :=
  match kv.2 with
  | some v => m.insert kv.1 v
  | none => m.erase kv.1

/-- The live values of all layers. -/
def compacted (layers : List (Layer K V)) : ExtTreeMap K V := layers.flatten.foldl applyRecord ∅

theorem getElem?_applyRecord (m : ExtTreeMap K V) (kv : K × Option V) (k : K) :
    (applyRecord m kv)[k]? = if k = kv.1 then kv.2 else m[k]? := by
  obtain ⟨key, slot⟩ := kv
  cases slot with
  | some v =>
    simp only [applyRecord, ExtTreeMap.getElem?_insert, LawfulEqOrd.compare_eq_iff_eq]
    by_cases hk : k = key
    · rw [if_pos hk.symm, if_pos hk]
    · rw [if_neg (Ne.symm hk), if_neg hk]
  | none =>
    simp only [applyRecord, ExtTreeMap.getElem?_erase, LawfulEqOrd.compare_eq_iff_eq]
    by_cases hk : k = key
    · rw [if_pos hk.symm, if_pos hk]
    · rw [if_neg (Ne.symm hk), if_neg hk]

theorem getElem?_foldl_applyRecord (layer : Layer K V) (hnd : (layer.map (·.1)).Nodup) (m : ExtTreeMap K V)
    (k : K) : (layer.foldl applyRecord m)[k]? = ((layer.lookup k).getD m[k]?) := by
  induction layer generalizing m with
  | nil => rfl
  | cons kv layer ih =>
    rw [List.map_cons, List.nodup_cons] at hnd
    rw [List.foldl_cons, ih hnd.2, List.lookup_cons, getElem?_applyRecord]
    by_cases hk : k = kv.1
    · subst hk
      simp [lookup_of_not_mem hnd.1]
    · rw [if_neg hk, beq_eq_false_iff_ne.mpr hk]

theorem getElem?_compacted (layers : List (Layer K V)) (hnd : ∀ layer ∈ layers, (layer.map (·.1)).Nodup)
    (k : K) : (compacted layers)[k]? = valueAt layers k := by
  induction layers using List.reverseRecOn with
  | nil => rfl
  | append_singleton layers top ih =>
    have ih := ih fun layer h => hnd layer (List.mem_append_left _ h)
    unfold compacted at ih ⊢
    rw [List.flatten_append, List.flatten_singleton, List.foldl_append,
      getElem?_foldl_applyRecord top (hnd top (List.mem_append_right _ List.mem_cons_self)), ih, valueAt, valueAt,
      newest_snoc]
    cases top.lookup k <;> rfl

/-- The compacted layer on top of the layers that are not removed yet, the oldest removed first. A
deleted key has no record in the compacted layer, and its last record is below, or none is. -/
theorem valueAt_compacted (layers : List (Layer K V)) (hnd : ∀ layer ∈ layers, (layer.map (·.1)).Nodup)
    (removed : Nat) (k : K) :
    valueAt (layers.drop removed ++ [liveLayer (compacted layers)]) k = valueAt layers k := by
  rw [valueAt, newest_snoc, lookup_liveLayer, getElem?_compacted layers hnd]
  cases hlive : valueAt layers k with
  | some v => rfl
  | none =>
    rw [Option.map_none, Option.none_or]
    rcases newest_drop layers removed k with h | h
    · rw [h]
      rfl
    · rw [h]
      exact hlive

end LayeredMap
