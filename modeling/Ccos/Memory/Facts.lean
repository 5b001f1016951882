import Ccos.Memory.Run

/-!
# What the operations do to the fields

One lemma per operation and field that later proofs read. The invariants never unfold an operation
again.
-/

open Std

set_option linter.unusedSectionVars false

namespace Ccos

/-! ## Maps -/

section Maps

variable {α β : Type} [Ord α] [TransOrd α] [LawfulEqOrd α] [DecidableEq α]

theorem mem_erase_iff {m : BTreeMap α β} {k a : α} : a ∈ m.erase k ↔ a ≠ k ∧ a ∈ m := by
  rw [ExtTreeMap.mem_erase, ne_eq, ne_eq, LawfulEqOrd.compare_eq_iff_eq, eq_comm]

theorem mem_insert_iff {m : BTreeMap α β} {k a : α} {v : β} : a ∈ m.insert k v ↔ a = k ∨ a ∈ m := by
  rw [ExtTreeMap.mem_insert, LawfulEqOrd.compare_eq_iff_eq, eq_comm]

theorem getElem?_insert_eq (m : BTreeMap α β) (k a : α) (v : β) :
    (m.insert k v)[a]? = if a = k then some v else m[a]? := by
  rw [ExtTreeMap.getElem?_insert]
  simp only [LawfulEqOrd.compare_eq_iff_eq, @eq_comm _ k a]

theorem getElem?_erase_eq (m : BTreeMap α β) (k a : α) :
    (m.erase k)[a]? = if a = k then none else m[a]? := by
  rw [ExtTreeMap.getElem?_erase]
  simp only [LawfulEqOrd.compare_eq_iff_eq, @eq_comm _ k a]

theorem getElem?_modify_eq (m : BTreeMap α β) (k a : α) (f : β → β) :
    (m.modify k f)[a]? = if a = k then m[a]?.map f else m[a]? := by
  rw [ExtTreeMap.getElem?_modify]
  simp only [LawfulEqOrd.compare_eq_iff_eq]
  by_cases hk : k = a
  · subst hk; simp
  · simp [hk, Ne.symm hk]

theorem getElem?_insertFirst_eq (m : BTreeMap α β) (k a : α) (v : β) :
    (insertFirst m k v)[a]? = if a = k then some (m[k]?.getD v) else m[a]? := by
  unfold insertFirst
  by_cases hk : k ∈ m
  · rw [if_pos hk]
    split
    · rename_i heq
      rw [heq, ExtTreeMap.getElem?_eq_some_getElem hk, Option.getD_some]
    · rfl
  · rw [if_neg hk, getElem?_insert_eq, ExtTreeMap.getElem?_eq_none hk, Option.getD_none]

theorem erase_of_not_mem {m : BTreeMap α β} {k : α} (h : k ∉ m) : m.erase k = m := by
  apply ExtTreeMap.ext_getElem?
  intro a
  rw [getElem?_erase_eq]
  split
  · rename_i hk
    rw [hk, ExtTreeMap.getElem?_eq_none h]
  · rfl

theorem mem_of_getElem?_eq_some {m : BTreeMap α β} {k : α} {v : β} (h : m[k]? = some v) : k ∈ m := by
  rw [ExtTreeMap.mem_iff_isSome_getElem?, h]
  rfl

theorem exists_getElem?_of_mem {m : BTreeMap α β} {k : α} (h : k ∈ m) : ∃ v, m[k]? = some v := by
  rw [ExtTreeMap.mem_iff_isSome_getElem?] at h
  exact Option.isSome_iff_exists.mp h

theorem not_mem_of_getElem?_eq_none {m : BTreeMap α β} {k : α} (h : m[k]? = none) : k ∉ m := by
  rw [ExtTreeMap.mem_iff_isSome_getElem?, h]
  simp

theorem size_foldl_erase (ks : List α) (m : BTreeMap α β) (hnd : ks.Nodup) (hmem : ∀ k ∈ ks, k ∈ m) :
    (ks.foldl (fun m k => m.erase k) m).size = m.size - ks.length := by
  induction ks generalizing m with
  | nil => simp
  | cons a ks ih =>
    rw [List.nodup_cons] at hnd
    have hrest : ∀ k ∈ ks, k ∈ m.erase a := by
      intro k hk
      rw [mem_erase_iff]
      refine ⟨?_, hmem k (List.mem_cons_of_mem _ hk)⟩
      rintro rfl
      exact hnd.1 hk
    rw [List.foldl_cons, ih _ hnd.2 hrest, ExtTreeMap.size_erase,
      if_pos (ExtTreeMap.contains_iff_mem.mpr (hmem a List.mem_cons_self)), List.length_cons]
    omega

theorem size_eq_of_mem_iff {γ : Type} {m : BTreeMap α β} {m' : BTreeMap α γ}
    (h : ∀ k, k ∈ m ↔ k ∈ m') : m.size = m'.size := by
  rw [← ExtTreeMap.length_keys, ← ExtTreeMap.length_keys]
  exact ((List.perm_ext_iff_of_nodup ExtTreeMap.nodup_keys ExtTreeMap.nodup_keys).mpr fun k => by
    rw [ExtTreeMap.mem_keys, ExtTreeMap.mem_keys, h]).length_eq

/-- Keys come in order, so maps with the same keys list them alike. -/
theorem keys_eq_of_mem_iff {γ : Type} {m : BTreeMap α β} {m' : BTreeMap α γ}
    (h : ∀ k, k ∈ m ↔ k ∈ m') : m.keys = m'.keys := by
  have hperm : m.keys.Perm m'.keys :=
    (List.perm_ext_iff_of_nodup ExtTreeMap.nodup_keys ExtTreeMap.nodup_keys).mpr fun k => by
      rw [ExtTreeMap.mem_keys, ExtTreeMap.mem_keys, h]
  refine hperm.eq_of_pairwise (fun a b _ _ hab hba => ?_) ExtTreeMap.ordered_keys ExtTreeMap.ordered_keys
  exact absurd (TransCmp.lt_trans hab hba) (by simp [ReflCmp.compare_self])

section Insertions

variable {γ : Type}

theorem getElem?_foldl_insert_of_ne (f : γ → β) (l : List (α × γ)) (m : BTreeMap α β) (a : α)
    (h : ∀ p ∈ l, p.1 ≠ a) : (l.foldl (fun m p => m.insert p.1 (f p.2)) m)[a]? = m[a]? := by
  induction l generalizing m with
  | nil => rfl
  | cons p l ih =>
    rw [List.foldl_cons, ih _ fun q hq => h q (List.mem_cons_of_mem _ hq), getElem?_insert_eq,
      if_neg (h p List.mem_cons_self).symm]

/-- Inserting the entries of one map into another. -/
theorem getElem?_foldl_insert_toList (f : γ → β) (src : BTreeMap α γ) (m : BTreeMap α β) (a : α) :
    (src.toList.foldl (fun m p => m.insert p.1 (f p.2)) m)[a]? = (src[a]?.map f).orElse fun _ => m[a]? := by
  cases hsrc : src[a]? with
  | none =>
    refine getElem?_foldl_insert_of_ne f _ _ a ?_
    rintro ⟨k, v⟩ hmem rfl
    rw [ExtTreeMap.mem_toList_iff_getElem?_eq_some, hsrc] at hmem
    cases hmem
  | some v =>
    have hmem := ExtTreeMap.mem_toList_iff_getElem?_eq_some.mpr hsrc
    obtain ⟨before, after, hl⟩ := List.append_of_mem hmem
    have hdistinct := src.distinct_keys_toList
    rw [hl, List.pairwise_append, List.pairwise_cons] at hdistinct
    rw [hl, List.foldl_append, List.foldl_cons, getElem?_foldl_insert_of_ne f after _ a,
      getElem?_insert_eq, if_pos rfl]
    · rfl
    · intro p hp heq
      exact hdistinct.2.1.1 p hp (LawfulEqOrd.compare_eq_iff_eq.mpr heq.symm)

end Insertions

/-- Empty entries do not show in the concatenation of a map's lists. -/
theorem flatMap_toList_eq {γ : Type} {m m' : BTreeMap α (List γ)}
    (h : ∀ a : α, (m[a]?).getD [] = (m'[a]?).getD []) :
    m.toList.flatMap (·.2) = m'.toList.flatMap (·.2) := by
  have hdrop : ∀ l : List (α × List γ),
      l.flatMap (·.2) = (l.filter fun p => !p.2.isEmpty).flatMap (·.2) := by
    intro l
    induction l with
    | nil => rfl
    | cons p l ih =>
      cases hp : p.2 with
      | nil => simpa [hp] using ih
      | cons c rest => simp [hp, ih]
  have hmem : ∀ (m : BTreeMap α (List γ)) (p : α × List γ),
      p ∈ m.toList.filter (fun p => !p.2.isEmpty) ↔ p.2 ≠ [] ∧ (m[p.1]?).getD [] = p.2 := by
    rintro m ⟨a, v⟩
    rw [List.mem_filter, ExtTreeMap.mem_toList_iff_getElem?_eq_some]
    simp only [Bool.not_eq_true', List.isEmpty_eq_false_iff]
    constructor
    · rintro ⟨hv, hne⟩
      exact ⟨hne, by rw [hv, Option.getD_some]⟩
    · rintro ⟨hne, hv⟩
      cases hm : m[a]? with
      | none =>
        rw [hm, Option.getD_none] at hv
        exact absurd hv.symm hne
      | some w =>
        rw [hm, Option.getD_some] at hv
        exact ⟨by rw [hv], hne⟩
  have hordered : ∀ m : BTreeMap α (List γ),
      (m.toList.filter fun p => !p.2.isEmpty).Pairwise fun a b => compare a.1 b.1 = .lt :=
    fun m => m.ordered_keys_toList.sublist List.filter_sublist
  have hnodup : ∀ m : BTreeMap α (List γ), (m.toList.filter fun p => !p.2.isEmpty).Nodup := by
    intro m
    refine (hordered m).imp ?_
    rintro a _ hlt rfl
    rw [ReflOrd.compare_self] at hlt
    cases hlt
  have hperm := (List.perm_ext_iff_of_nodup (hnodup m) (hnodup m')).mpr fun p => by
    rw [hmem, hmem, h]
  rw [hdrop, hdrop m'.toList]
  refine congrArg _ (hperm.eq_of_pairwise ?_ (hordered m) (hordered m'))
  intro a b _ _ hab hba
  rw [OrientedOrd.eq_swap, hba] at hab
  cases hab

end Maps

namespace MemoryGraph

variable {F : Type} [Scalar F]

/-! ## Scoring -/

@[simp] theorem fillScoreCaches_nodes (g : MemoryGraph F) : g.fillScoreCaches.nodes = g.nodes := rfl
@[simp] theorem fillScoreCaches_edges (g : MemoryGraph F) : g.fillScoreCaches.edges = g.edges := rfl
@[simp] theorem fillScoreCaches_cold (g : MemoryGraph F) : g.fillScoreCaches.cold = g.cold := rfl
@[simp] theorem fillScoreCaches_cap (g : MemoryGraph F) :
    g.fillScoreCaches.maxInMemoryNodes = g.maxInMemoryNodes := rfl

/-! ## No swap file -/

/-- No spill store is attached and nothing is compacted. -/
structure NoSwap (g : MemoryGraph F) : Prop where
  spill : g.spill = none
  husks : g.huskStore = none
  radj : g.radj = none
  budget : g.coldContentBudget = none

theorem NoSwap.of_eq {g g' : MemoryGraph F} (hg : NoSwap g) (hs : g'.spill = g.spill)
    (hh : g'.huskStore = g.huskStore) (hr : g'.radj = g.radj)
    (hb : g'.coldContentBudget = g.coldContentBudget) : NoSwap g' :=
  ⟨hs.trans hg.spill, hh.trans hg.husks, hr.trans hg.radj, hb.trans hg.budget⟩

theorem enforceColdBudgets_of_noSwap (h : Host F) {g : MemoryGraph F} (hg : NoSwap g) :
    g.enforceColdBudgets h = g := by
  have hcontent : g.enforceColdContentBudget h = g := by
    simp only [enforceColdContentBudget, hg.budget]
  have hspill : g.enforceColdBudget h = g := by simp only [enforceColdBudget, hg.spill]
  rw [enforceColdBudgets, hcontent, hspill, enforceColdResidentBudget, hg.spill]
  cases g.coldResidentBudget <;> rfl

theorem deepGet_of_noSwap {g : MemoryGraph F} (hg : NoSwap g) (id : NodeId) :
    g.deepGet id = (none, g) := by
  simp only [deepGet, hg.husks]

theorem isCold_of_noSwap {g : MemoryGraph F} (hg : NoSwap g) (id : NodeId) :
    g.isCold id = g.cold.contains id := by
  simp only [isCold, deepContains, deepGet_of_noSwap hg, Option.isSome_none, Bool.or_false]

theorem radjAdd_none (id : NodeId) (others : List NodeId) : radjAdd none id others = none := rfl
theorem radjDel_none (id : NodeId) (others : List NodeId) : radjDel none id others = none := rfl

theorem releaseContentBlobIfOrphan_of_noSwap {g : MemoryGraph F} (hg : NoSwap g) (hash : Hash) :
    g.releaseContentBlobIfOrphan hash = g := by
  simp only [releaseContentBlobIfOrphan, spillRemove, hg.spill, Option.map_none]
  split
  · rfl
  · rw [← hg.spill]

theorem dropCold_of_not_mem {g : MemoryGraph F} {id : NodeId} (h : id ∉ g.cold) :
    g.dropCold id = g := by
  rw [dropCold, erase_of_not_mem h]

theorem NoSwap.dropCold {g : MemoryGraph F} (hg : NoSwap g) (id : NodeId) : NoSwap (g.dropCold id) :=
  hg.of_eq rfl rfl rfl rfl

theorem forgetFull_of_noSwap {g : MemoryGraph F} (hg : NoSwap g) (id : NodeId) :
    (g.forgetFull id).1 = g.dropCold id := by
  unfold forgetFull
  split
  · rename_i hc
    exact (dropCold_of_not_mem (not_mem_of_getElem?_eq_none hc)).symm
  · split
    · exact releaseContentBlobIfOrphan_of_noSwap (hg.dropCold id) _
    · rfl

theorem forgetColdShadow_of_noSwap {g : MemoryGraph F} (hg : NoSwap g) (id : NodeId) :
    g.forgetColdShadow id = g.dropCold id := by
  have hfull := forgetFull_of_noSwap hg id
  have hhusk : (g.dropCold id).forgetHusk id = (g.dropCold id, []) := by
    simp only [forgetHusk, deepGet_of_noSwap (hg.dropCold id)]
  have hradj := (hg.dropCold id).radj
  unfold forgetColdShadow
  generalize hf : g.forgetFull id = full at hfull
  obtain ⟨g', others⟩ := full
  simp only at hfull
  subst hfull
  simp only [hhusk, hradj, radjDel_none]
  rw [← hradj]

/-! ## Demotion -/

theorem demote_of_not_mem {g : MemoryGraph F} {id : NodeId} (h : id ∉ g.nodes) : g.demote id = g := by
  simp only [demote, ExtTreeMap.getElem?_eq_none h]

@[simp] theorem demote_nodes (g : MemoryGraph F) (id : NodeId) :
    (g.demote id).nodes = g.nodes.erase id := by
  unfold demote
  split
  · rename_i hn
    exact (erase_of_not_mem (not_mem_of_getElem?_eq_none hn)).symm
  · rfl

theorem demote_edges_sublist (g : MemoryGraph F) (id : NodeId) :
    (g.demote id).edges.Sublist g.edges := by
  unfold demote
  split
  · exact List.Sublist.refl _
  · exact List.filter_sublist

theorem demote_edges {g : MemoryGraph F} {id : NodeId} (h : id ∈ g.nodes) :
    (g.demote id).edges = g.edges.filter (!·.touches id) := by
  obtain ⟨v, hv⟩ := exists_getElem?_of_mem h
  simp only [demote, hv]

theorem mem_demote_cold (g : MemoryGraph F) (id k : NodeId) :
    k ∈ (g.demote id).cold ↔ (k = id ∧ id ∈ g.nodes) ∨ k ∈ g.cold := by
  unfold demote
  split
  · rename_i hn
    have := not_mem_of_getElem?_eq_none hn
    simp [this]
  · rename_i v hv
    have := mem_of_getElem?_eq_some hv
    simp only [mem_insert_iff, this, and_true]

/-- The fields that no demotion touches. -/
structure DemoteFrame (g g' : MemoryGraph F) : Prop where
  cap : g'.maxInMemoryNodes = g.maxInMemoryNodes
  clock : g'.clock = g.clock
  weights : g'.scoringWeights = g.scoringWeights
  threshold : g'.pagingThreshold = g.pagingThreshold
  policy : g'.evictionPolicy = g.evictionPolicy
  spill : g'.spill = g.spill
  husks : g'.huskStore = g.huskStore
  budget : g'.coldContentBudget = g.coldContentBudget
  resident : g'.coldResidentBudget = g.coldResidentBudget
  adjacency : g'.causalAdjCache = g.causalAdjCache
  calls : g'.pendingCalls = g.pendingCalls
  dataRefs : g'.pendingDataRefs = g.pendingDataRefs
  aliases : g'.pendingAliases = g.pendingAliases
  methods : g'.pendingMethods = g.pendingMethods
  dataSymbols : g'.dataSymbols = g.dataSymbols
  edgeSet : g'.edgeSet = g.edgeSet
  noRadj : g.radj = none → g'.radj = none

namespace DemoteFrame

theorem refl (g : MemoryGraph F) : DemoteFrame g g := by
  constructor <;> first | rfl | exact id

theorem trans {a b c : MemoryGraph F} (hab : DemoteFrame a b) (hbc : DemoteFrame b c) :
    DemoteFrame a c where
  cap := hbc.cap.trans hab.cap
  clock := hbc.clock.trans hab.clock
  weights := hbc.weights.trans hab.weights
  threshold := hbc.threshold.trans hab.threshold
  policy := hbc.policy.trans hab.policy
  spill := hbc.spill.trans hab.spill
  husks := hbc.husks.trans hab.husks
  budget := hbc.budget.trans hab.budget
  resident := hbc.resident.trans hab.resident
  adjacency := hbc.adjacency.trans hab.adjacency
  calls := hbc.calls.trans hab.calls
  dataRefs := hbc.dataRefs.trans hab.dataRefs
  aliases := hbc.aliases.trans hab.aliases
  methods := hbc.methods.trans hab.methods
  dataSymbols := hbc.dataSymbols.trans hab.dataSymbols
  edgeSet := hbc.edgeSet.trans hab.edgeSet
  noRadj := fun h => hbc.noRadj (hab.noRadj h)

theorem noSwap {g g' : MemoryGraph F} (h : DemoteFrame g g') (hg : NoSwap g) : NoSwap g' :=
  ⟨h.spill.trans hg.spill, h.husks.trans hg.husks, h.noRadj hg.radj, h.budget.trans hg.budget⟩

end DemoteFrame

theorem fillScoreCaches_frame (g : MemoryGraph F) : DemoteFrame g g.fillScoreCaches := by
  constructor <;> first | rfl | exact id

theorem demote_frame (g : MemoryGraph F) (id : NodeId) : DemoteFrame g (g.demote id) := by
  unfold demote
  split
  · exact DemoteFrame.refl g
  · constructor <;> first | rfl | (intro h; simp only [h, radjAdd_none])

theorem foldl_demote_frame (ids : List NodeId) (g : MemoryGraph F) :
    DemoteFrame g (ids.foldl demote g) := by
  induction ids generalizing g with
  | nil => exact DemoteFrame.refl g
  | cons a ids ih => exact (demote_frame g a).trans (ih _)

theorem foldl_demote_nodes (ids : List NodeId) (g : MemoryGraph F) :
    (ids.foldl demote g).nodes = ids.foldl (fun m k => m.erase k) g.nodes := by
  induction ids generalizing g with
  | nil => rfl
  | cons a ids ih => rw [List.foldl_cons, ih, demote_nodes, List.foldl_cons]

/-! ## Paging out -/

theorem evictionVictims_sublist (g : MemoryGraph F) :
    ∃ entries : List (NodeId × F), entries.Perm (g.nodes.toList.map fun (id, node) =>
        (id, g.computeNodeScore node + g.evictionBias id node (g.computeNodeScore node))) ∧
      g.evictionVictims = (entries.take (g.nodes.size - g.maxInMemoryNodes)).map (·.1) :=
  ⟨_, perm_sortBy _ _, rfl⟩

theorem evictionVictims_subperm (g : MemoryGraph F) : ∃ l : List NodeId, l.Perm g.nodes.keys ∧
    g.evictionVictims = l.take (g.nodes.size - g.maxInMemoryNodes) := by
  obtain ⟨entries, hperm, heq⟩ := g.evictionVictims_sublist
  refine ⟨entries.map (·.1), ?_, by rw [heq, List.map_take]⟩
  have := hperm.map (·.1)
  simpa only [List.map_map, Function.comp_def, ExtTreeMap.map_fst_toList_eq_keys] using this

theorem nodup_evictionVictims (g : MemoryGraph F) : g.evictionVictims.Nodup := by
  obtain ⟨l, hperm, heq⟩ := g.evictionVictims_subperm
  rw [heq]
  exact (hperm.nodup_iff.mpr ExtTreeMap.nodup_keys).sublist (List.take_sublist _ _)

theorem mem_of_mem_evictionVictims {g : MemoryGraph F} {id : NodeId} (h : id ∈ g.evictionVictims) :
    id ∈ g.nodes := by
  obtain ⟨l, hperm, heq⟩ := g.evictionVictims_subperm
  rw [heq] at h
  exact ExtTreeMap.mem_keys.mp (hperm.mem_iff.mp (List.mem_of_mem_take h))

theorem length_evictionVictims (g : MemoryGraph F) :
    g.evictionVictims.length = g.nodes.size - g.maxInMemoryNodes := by
  obtain ⟨l, hperm, heq⟩ := g.evictionVictims_subperm
  have hlen : l.length = g.nodes.size := by rw [hperm.length_eq, ExtTreeMap.length_keys]
  rw [heq, List.length_take, hlen]
  omega

theorem enforcePaging_of_noSwap (h : Host F) {g : MemoryGraph F} (hg : NoSwap g) :
    g.enforcePaging h = if g.nodes.size ≤ g.maxInMemoryNodes then g
      else (g.evictionVictims.foldl demote g.fillScoreCaches).pruneDanglingEdges := by
  unfold enforcePaging
  split
  · rfl
  · have hframe := (fillScoreCaches_frame g).trans (foldl_demote_frame g.evictionVictims _)
    exact enforceColdBudgets_of_noSwap h ((hframe.noSwap hg).of_eq rfl rfl rfl rfl)

/-- What every demotion and every cache fill keeps, paging keeps. -/
theorem enforcePaging_induct (h : Host F) {P : MemoryGraph F → Prop} {g : MemoryGraph F}
    (hg : NoSwap g) (fill : ∀ g, P g → P g.fillScoreCaches) (demote : ∀ g id, P g → P (g.demote id))
    (prune : ∀ g, P g → P g.pruneDanglingEdges) (start : P g) : P (g.enforcePaging h) := by
  rw [enforcePaging_of_noSwap h hg]
  split
  · exact start
  · have hfold : ∀ (ids : List NodeId) g, P g → P (ids.foldl MemoryGraph.demote g) := by
      intro ids
      induction ids with
      | nil => exact fun g hp => hp
      | cons a ids ih => exact fun g hp => ih _ (demote g a hp)
    exact prune _ (hfold _ _ (fill _ start))

theorem size_enforcePaging (h : Host F) {g : MemoryGraph F} (hg : NoSwap g) :
    (g.enforcePaging h).nodes.size ≤ g.maxInMemoryNodes := by
  rw [enforcePaging_of_noSwap h hg]
  split
  · assumption
  · change (g.evictionVictims.foldl demote g.fillScoreCaches).nodes.size ≤ _
    rw [foldl_demote_nodes, fillScoreCaches_nodes,
      size_foldl_erase _ _ g.nodup_evictionVictims fun _ => mem_of_mem_evictionVictims,
      length_evictionVictims]
    omega

/-! ## Paging in -/

theorem swapVictim_graph (g : MemoryGraph F) (id : NodeId) :
    (g.swapVictim id).2 = g ∨ (g.swapVictim id).2 = g.fillScoreCaches := by
  unfold swapVictim
  split <;> simp

theorem minBy_mem {α : Type} (cmp : α → α → Ordering) {l : List α} {a : α}
    (h : minBy cmp l = some a) : a ∈ l := by
  cases l with
  | nil => cases h
  | cons b rest =>
    have hfold : ∀ (l : List α) (b : α),
        l.foldl (fun best x => if cmp best x = .gt then x else best) b ∈ b :: l := by
      intro l
      induction l with
      | nil => simp
      | cons x l ih =>
        intro b
        rw [List.foldl_cons]
        split
        · exact List.mem_cons_of_mem _ (ih x)
        · rcases List.mem_cons.mp (ih b) with hb | hb
          · rw [hb]
            exact List.mem_cons_self
          · exact List.mem_cons_of_mem _ (List.mem_cons_of_mem _ hb)
    simp only [minBy, Option.some.injEq] at h
    exact h ▸ hfold rest b

theorem mem_of_swapVictim {g : MemoryGraph F} {id v : NodeId} (h : (g.swapVictim id).1 = some v) :
    v ∈ g.nodes ∧ v ≠ id := by
  have hlist : ∀ n, (v, n) ∈ g.nodes.toList.filter (·.1 != id) → v ∈ g.nodes ∧ v ≠ id := by
    intro n hn
    rw [List.mem_filter] at hn
    refine ⟨?_, by simpa using hn.2⟩
    exact mem_of_getElem?_eq_some (ExtTreeMap.mem_toList_iff_getElem?_eq_some.mp hn.1)
  unfold swapVictim at h
  split at h
  · cases h
  · rename_i w n heq
    simp only [Option.some.injEq] at h
    subst h
    exact hlist n (heq ▸ List.mem_singleton_self _)
  · simp only [Option.map_eq_some_iff] at h
    obtain ⟨⟨w, score⟩, hmin, hw⟩ := h
    simp only at hw
    subst hw
    have hmem := minBy_mem _ hmin
    simp only [List.mem_map, Prod.mk.injEq] at hmem
    obtain ⟨⟨w, n⟩, hn, rfl, -⟩ := hmem
    exact hlist n hn

theorem size_of_swapVictim_none {g : MemoryGraph F} {id : NodeId} (h : (g.swapVictim id).1 = none) :
    g.nodes.size ≤ 1 := by
  unfold swapVictim at h
  split at h
  · rename_i heq
    have hall : ∀ k ∈ g.nodes.keys, k = id := by
      intro k hk
      obtain ⟨v, hv⟩ := exists_getElem?_of_mem (ExtTreeMap.mem_keys.mp hk)
      have := List.filter_eq_nil_iff.mp heq _ (ExtTreeMap.mem_toList_iff_getElem?_eq_some.mpr hv)
      simpa using this
    rw [← ExtTreeMap.length_keys]
    have hsub : g.nodes.keys.Subperm [id] :=
      List.subperm_of_subset ExtTreeMap.nodup_keys fun k hk => by simp [hall k hk]
    simpa using hsub.length_le
  · cases h
  · simp only [Option.map_eq_none_iff] at h
    rename_i hne _
    revert h
    cases hl : g.nodes.toList.filter (·.1 != id) with
    | nil => exact absurd hl hne
    | cons a rest => simp [minBy]

/-- What a demotion of another node and a cache fill keep, making room keeps. -/
theorem makeRoom_induct {P : MemoryGraph F → Prop} (id : NodeId)
    (fill : ∀ g, P g → P g.fillScoreCaches)
    (demote : ∀ g v, P g → v ∈ g.nodes → v ≠ id → P (g.demote v)) (fuel : Nat) (g : MemoryGraph F)
    (start : P g) : P (makeRoom id fuel g) := by
  induction fuel generalizing g with
  | zero => exact start
  | succ fuel ih =>
    unfold makeRoom
    split
    · exact start
    · have hscored : P (g.swapVictim id).2 := by
        rcases g.swapVictim_graph id with hs | hs <;> rw [hs]
        · exact start
        · exact fill g start
      have hnodes : (g.swapVictim id).2.nodes = g.nodes := by
        rcases g.swapVictim_graph id with hs | hs <;> rw [hs]
        rfl
      have hvictim : ∀ v, (g.swapVictim id).1 = some v → v ∈ g.nodes ∧ v ≠ id :=
        fun _ => mem_of_swapVictim
      generalize g.swapVictim id = s at hscored hnodes hvictim
      obtain ⟨victim, g'⟩ := s
      cases victim with
      | none => exact hscored
      | some v =>
        obtain ⟨hmem, hne⟩ := hvictim v rfl
        exact ih _ (demote g' v hscored (hnodes ▸ hmem) hne)

theorem makeRoom_frame (id : NodeId) (fuel : Nat) (g : MemoryGraph F) :
    DemoteFrame g (makeRoom id fuel g) :=
  makeRoom_induct id (fun _ h => h.trans (fillScoreCaches_frame _))
    (fun _ v h _ _ => h.trans (demote_frame _ v)) fuel g (DemoteFrame.refl g)

theorem size_makeRoom (id : NodeId) (fuel : Nat) (g : MemoryGraph F) (hfuel : g.nodes.size ≤ fuel) :
    (makeRoom id fuel g).nodes.size ≤ Nat.max g.maxInMemoryNodes 1 := by
  induction fuel generalizing g with
  | zero =>
    change g.nodes.size ≤ _
    omega
  | succ fuel ih =>
    unfold makeRoom
    split
    · rename_i hle
      exact hle.trans (Nat.le_max_left _ _)
    · have hcap : (g.swapVictim id).2.maxInMemoryNodes = g.maxInMemoryNodes := by
        rcases g.swapVictim_graph id with hs | hs <;> rw [hs]
        rfl
      have hnodes : (g.swapVictim id).2.nodes = g.nodes := by
        rcases g.swapVictim_graph id with hs | hs <;> rw [hs]
        rfl
      have hvictim : ∀ v, (g.swapVictim id).1 = some v → v ∈ g.nodes ∧ v ≠ id :=
        fun _ => mem_of_swapVictim
      have hnone : (g.swapVictim id).1 = none → g.nodes.size ≤ 1 := size_of_swapVictim_none
      generalize g.swapVictim id = s at hcap hnodes hvictim hnone
      obtain ⟨victim, g'⟩ := s
      simp only at hcap hnodes
      cases victim with
      | none =>
        rw [hnodes]
        exact (hnone rfl).trans (Nat.le_max_right _ _)
      | some v =>
        obtain ⟨hmem, -⟩ := hvictim v rfl
        have hsize : (g'.demote v).nodes.size = g.nodes.size - 1 := by
          rw [demote_nodes, hnodes, ExtTreeMap.size_erase,
            if_pos (ExtTreeMap.contains_iff_mem.mpr hmem)]
        have := ih (g'.demote v) (by omega)
        rwa [(demote_frame g' v).cap, hcap] at this

theorem faultDeep_of_noSwap (h : Host F) {g : MemoryGraph F} (hg : NoSwap g) (id : NodeId) :
    g.faultDeep h id = (g, true) := by
  simp only [faultDeep, deepGet_of_noSwap hg]

theorem pageIn_of_noSwap (h : Host F) {g : MemoryGraph F} (hg : NoSwap g) (id : NodeId) :
    g.pageIn h id =
      match g.cold[id]? with
      | none => (g, false)
      | some c =>
        if c.spill.isSome then (g, false)
        else ((makeRoom id (g.nodes.size + 1) (g.restore id c)).pruneDanglingEdges, true) := by
  have hcontent : g.faultContent h id =
      (g, !((g.cold[id]?).bind (·.spill)).isSome) := by
    unfold faultContent
    cases (g.cold[id]?).bind (·.spill) with
    | none => rfl
    | some s => simp [spillGet, hg.spill]
  simp only [pageIn, faultDeep_of_noSwap h hg, hcontent]
  cases hc : g.cold[id]? with
  | none => simp [hc]
  | some c =>
    cases hs : c.spill with
    | some s => simp [hs]
    | none =>
      have hradj : (g.restore id c).radj = none := by
        change radjDel g.radj id _ = none
        rw [hg.radj, radjDel_none]
      have hrestored : NoSwap (g.restore id c) := ⟨hg.spill, hg.husks, hradj, hg.budget⟩
      have hroom := (makeRoom_frame id (g.nodes.size + 1) (g.restore id c)).noSwap hrestored
      have henforce := enforceColdBudgets_of_noSwap h
        (g := (makeRoom id (g.nodes.size + 1) (g.restore id c)).pruneDanglingEdges)
        (hroom.of_eq rfl rfl rfl rfl)
      simp [hc, hs, henforce]

/-! ## Upserts and removals -/

theorem upsertNode_of_noSwap (h : Host F) {g : MemoryGraph F} (hg : NoSwap g) (id : NodeId)
    (label content : Str) (nodeType : NodeType) :
    g.upsertNode h id label content nodeType =
      enforcePaging h { g.dropCold id with
        nodes := g.nodes.insert id (g.upserted id label content nodeType) } := by
  unfold upsertNode
  rw [forgetColdShadow_of_noSwap hg]
  rfl

theorem removeNode_of_noSwap {g : MemoryGraph F} (hg : NoSwap g) (id : NodeId) :
    g.removeNode id =
      { g.dropCold id with
        nodes := g.nodes.erase id
        edges := g.edges.filter (!·.touches id) } := by
  have hswap : NoSwap { g with nodes := g.nodes.erase id } := hg.of_eq rfl rfl rfl rfl
  unfold removeNode
  rw [forgetColdShadow_of_noSwap hswap]
  rfl

/-! ## Edges and node fields -/

/-- A step that only adds or drops edges. -/
def OnlyEdges (g g' : MemoryGraph F) : Prop := ∃ edges edgeSet, g' = { g with edges, edgeSet }

namespace OnlyEdges

theorem refl (g : MemoryGraph F) : OnlyEdges g g := ⟨g.edges, g.edgeSet, rfl⟩

theorem trans {a b c : MemoryGraph F} : OnlyEdges a b → OnlyEdges b c → OnlyEdges a c := by
  rintro ⟨_, _, rfl⟩ ⟨edges, edgeSet, rfl⟩
  exact ⟨edges, edgeSet, rfl⟩

theorem nodes {g g' : MemoryGraph F} : OnlyEdges g g' → g'.nodes = g.nodes := by
  rintro ⟨_, _, rfl⟩
  rfl

theorem cap {g g' : MemoryGraph F} : OnlyEdges g g' → g'.maxInMemoryNodes = g.maxInMemoryNodes := by
  rintro ⟨_, _, rfl⟩
  rfl

end OnlyEdges

theorem addEdge_onlyEdges (g : MemoryGraph F) (s t : NodeId) (w : F) (ty : EdgeType) :
    OnlyEdges g (g.addEdge s t w ty).1 := by
  unfold addEdge
  split
  · exact OnlyEdges.refl g
  · split <;> exact ⟨_, _, rfl⟩

theorem addEdges_onlyEdges (g : MemoryGraph F) (edges : List (NodeId × NodeId × F × EdgeType)) :
    OnlyEdges g (g.addEdges edges).1 :=
  List.foldlRecOn edges addCounted (motive := fun acc => OnlyEdges g acc.1) (OnlyEdges.refl g)
    fun _ hacc _ _ => hacc.trans (addEdge_onlyEdges _ _ _ _ _)

theorem linkModuleImports_onlyEdges (g : MemoryGraph F) : OnlyEdges g g.linkModuleImports.1 :=
  addEdges_onlyEdges g _

theorem resolveSymbolCalls_onlyEdges (g : MemoryGraph F) : OnlyEdges g g.resolveSymbolCalls.1 :=
  addEdges_onlyEdges g _

theorem resolveDataFlow_onlyEdges (g : MemoryGraph F) : OnlyEdges g g.resolveDataFlow.1 :=
  addEdges_onlyEdges g _

theorem resolveAll_onlyEdges (g : MemoryGraph F) : OnlyEdges g g.resolveAll.1 := by
  have hpruned : OnlyEdges g g.pruneResolutionEdges := ⟨_, _, rfl⟩
  have hlinked := hpruned.trans (linkModuleImports_onlyEdges _)
  rw [resolveAll_fst]
  exact (hlinked.trans (resolveSymbolCalls_onlyEdges _)).trans (resolveDataFlow_onlyEdges _)

theorem propagateBeliefs_onlyEdges (g : MemoryGraph F) (threshold damping : F) :
    OnlyEdges g (g.propagateBeliefs threshold damping).1 := by
  unfold propagateBeliefs
  exact addEdges_onlyEdges _ _

/-- A step that only edits fields of resident nodes, and not their state. -/
def OnlyFields (g g' : MemoryGraph F) : Prop :=
  ∃ nodes : BTreeMap NodeId (GraphNode F), g' = { g with nodes } ∧
    ∀ id : NodeId, (nodes[id]?).map (·.state) = (g.nodes[id]?).map (·.state)

namespace OnlyFields

theorem refl (g : MemoryGraph F) : OnlyFields g g := ⟨g.nodes, rfl, fun _ => rfl⟩

theorem trans {a b c : MemoryGraph F} : OnlyFields a b → OnlyFields b c → OnlyFields a c := by
  rintro ⟨_, rfl, hab⟩ ⟨nodes, rfl, hbc⟩
  exact ⟨nodes, rfl, fun id => (hbc id).trans (hab id)⟩

theorem mem_nodes {g g' : MemoryGraph F} (h : OnlyFields g g') (id : NodeId) :
    id ∈ g'.nodes ↔ id ∈ g.nodes := by
  obtain ⟨nodes, rfl, hstate⟩ := h
  have := congrArg Option.isSome (hstate id)
  rw [Option.isSome_map, Option.isSome_map] at this
  rw [ExtTreeMap.mem_iff_isSome_getElem?, ExtTreeMap.mem_iff_isSome_getElem?, this]

theorem cap {g g' : MemoryGraph F} : OnlyFields g g' → g'.maxInMemoryNodes = g.maxInMemoryNodes := by
  rintro ⟨_, rfl, -⟩
  rfl

end OnlyFields

theorem addPressure_onlyFields (g : MemoryGraph F) (id : NodeId) (propagation : F) :
    OnlyFields g (g.addPressure id propagation) := by
  refine ⟨_, rfl, fun k => ?_⟩
  rw [getElem?_modify_eq]
  split
  · rw [Option.map_map]
    rfl
  · rfl

/-- What every added pressure keeps, propagation keeps. -/
theorem propagateFrom_induct {P : MemoryGraph F → Prop} (press : ∀ g id propagation, P g → P (g.addPressure id propagation))
    (left : Nat) : ∀ (depth : Nat) (origin : NodeId) (g : MemoryGraph F),
      P g → P (propagateFrom left depth origin g) := by
  induction left with
  | zero => exact fun _ _ _ hg => hg
  | succ left ih =>
    intro depth origin g hg
    unfold propagateFrom
    refine List.foldlRecOn _ _ (motive := P) hg fun g' hg' target _ => ?_
    have hpressed := fun propagation => press g' target.1 propagation hg'
    dsimp only
    split
    · exact ih _ _ _ (hpressed _)
    · exact hpressed _

theorem propagateFrom_onlyFields (left depth : Nat) (origin : NodeId) (g : MemoryGraph F) :
    OnlyFields g (propagateFrom left depth origin g) :=
  propagateFrom_induct (fun g' id p hg => hg.trans (addPressure_onlyFields g' id p)) left depth origin g
    (OnlyFields.refl g)

end MemoryGraph

end Ccos
