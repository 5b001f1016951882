import Ccos.Memory.Neighbours

/-!
# The ids that a graph knows

A known id is resident, has a full COLD entry, or has a husk in the index. Paging moves it between the three and
never loses it.
-/

open Std

set_option linter.unusedSectionVars false

namespace Ccos.MemoryGraph

variable {F : Type} [Scalar F]

/-- Resident or COLD. -/
def Known (g : MemoryGraph F) (id : NodeId) : Prop := id ∈ g.nodes ∨ g.isCold id = true

/-- The husk index is sound, and `known` are the ids in the three places. -/
def KnowsExactly (g : MemoryGraph F) (known : NodeId → Prop) : Prop :=
  ∃ husks, HoldsHusks g.huskStore husks ∧ ∀ id, known id ↔ id ∈ g.nodes ∨ id ∈ g.cold ∨ id ∈ husks

theorem isCold_iff {g : MemoryGraph F} {husks : BTreeMap NodeId DeepHusk} (hg : HoldsHusks g.huskStore husks)
    (id : NodeId) : g.isCold id = true ↔ id ∈ g.cold ∨ id ∈ husks := by
  unfold isCold deepContains
  rw [hg.get, Bool.or_eq_true, ExtTreeMap.contains_iff_mem, ← ExtTreeMap.mem_iff_isSome_getElem?]

theorem KnowsExactly.iff {g : MemoryGraph F} {known : NodeId → Prop} (hg : g.KnowsExactly known) (id : NodeId) :
    known id ↔ g.Known id := by
  obtain ⟨husks, hindex, hknown⟩ := hg
  rw [hknown, Known, isCold_iff hindex]

theorem KnowsExactly.of_iff {g : MemoryGraph F} {known known' : NodeId → Prop} (hg : g.KnowsExactly known)
    (hiff : ∀ id, known' id ↔ known id) : g.KnowsExactly known' := by
  obtain ⟨husks, hindex, hknown⟩ := hg
  exact ⟨husks, hindex, fun id => (hiff id).trans (hknown id)⟩

theorem knowsExactly_known {g : MemoryGraph F} {husks : BTreeMap NodeId DeepHusk}
    (hg : HoldsHusks g.huskStore husks) : g.KnowsExactly g.Known :=
  ⟨husks, hg, fun id => by rw [Known, isCold_iff hg]⟩

section Steps

variable {h : Host F} {g g' : MemoryGraph F} {known : NodeId → Prop}

/-! ## Steps that leave every id in its place -/

theorem KnowsExactly.inPlace (hg : g.KnowsExactly known) (hnodes : ∀ id, id ∈ g'.nodes ↔ id ∈ g.nodes)
    (hcold : ∀ id, id ∈ g'.cold ↔ id ∈ g.cold) (hhusks : g'.huskStore = g.huskStore) :
    g'.KnowsExactly known := by
  obtain ⟨husks, hindex, hknown⟩ := hg
  exact ⟨husks, hhusks ▸ hindex, fun id => by rw [hknown, hnodes, hcold]⟩

theorem KnowsExactly.onlySpill (hg : g.KnowsExactly known) (hstep : OnlySpill g g') : g'.KnowsExactly known := by
  obtain ⟨spill, rfl⟩ := hstep
  exact hg.inPlace (fun _ => Iff.rfl) (fun _ => Iff.rfl) rfl

theorem KnowsExactly.onlyEdges (hg : g.KnowsExactly known) (hstep : OnlyEdges g g') : g'.KnowsExactly known := by
  obtain ⟨edges, edgeSet, rfl⟩ := hstep
  exact hg.inPlace (fun _ => Iff.rfl) (fun _ => Iff.rfl) rfl

theorem KnowsExactly.onlyFields (hg : g.KnowsExactly known) (hstep : OnlyFields g g') : g'.KnowsExactly known := by
  have hnodes := hstep.mem_nodes
  obtain ⟨nodes, rfl, -⟩ := hstep
  exact hg.inPlace hnodes (fun _ => Iff.rfl) rfl

/-- An entry is written over. -/
theorem KnowsExactly.overwrite (hg : g.KnowsExactly known) {id : NodeId} {c : ColdNode F} (hc : g.cold[id]? = some c)
    (c' : ColdNode F) (hnodes : g'.nodes = g.nodes) (hcold : g'.cold = g.cold.insert id c')
    (hhusks : g'.huskStore = g.huskStore) : g'.KnowsExactly known := by
  refine hg.inPlace (fun k => by rw [hnodes]) (fun k => ?_) hhusks
  rw [hcold, mem_insert_iff]
  constructor
  · rintro (rfl | hk)
    · exact mem_of_getElem?_eq_some hc
    · exact hk
  · exact .inr

theorem KnowsExactly.read (hg : g.KnowsExactly known) (id : NodeId) : (g.deepGet id).2.KnowsExactly known := by
  obtain ⟨husks, hindex, hknown⟩ := hg
  have hread := hindex.read id
  obtain ⟨huskStore, heq, -⟩ := deepGet_eq g id
  rw [heq] at hread ⊢
  exact ⟨husks, hread, hknown⟩

/-! ## An id moves between two places -/

theorem mem_moved {α β : Type} {m : BTreeMap NodeId α} {m' : BTreeMap NodeId β} {id : NodeId} (hid : id ∈ m)
    (v : β) (k : NodeId) : k ∈ m.erase id ∨ k ∈ m'.insert id v ↔ k ∈ m ∨ k ∈ m' := by
  rw [mem_erase_iff, mem_insert_iff]
  by_cases hk : k = id
  · subst hk
    simp [hid]
  · simp [hk]

/-- A full entry goes to disk. -/
theorem KnowsExactly.deepSpill (hg : g.KnowsExactly known) {id : NodeId} {c : ColdNode F} (hc : g.cold[id]? = some c)
    (entry : ColdNode F) (hstore : g.huskStore.isSome) : (g.deepSpill h id c entry).KnowsExactly known := by
  obtain ⟨husks, hindex, hknown⟩ := hg
  obtain ⟨hs, hsome⟩ := Option.isSome_iff_exists.mp hstore
  rw [hsome] at hindex
  let husk : DeepHusk :=
    { body := { hash := h.sha256 (h.printCold entry), len := byteLen (h.printCold entry) }, adj := huskAdj c }
  have hmoved : KnowsExactly { g.spillPut h (h.printCold entry) with
      huskStore := g.huskStore.map (·.put id husk), cold := g.cold.erase id } known := by
    refine ⟨husks.insert id husk, ?_, fun k => ?_⟩
    · change HoldsHusks (g.huskStore.map (·.put id husk)) _
      rw [hsome]
      exact HuskStore.Holds.put hindex id husk
    · change _ ↔ k ∈ g.nodes ∨ k ∈ g.cold.erase id ∨ _
      rw [hknown, mem_moved (mem_of_getElem?_eq_some hc)]
  unfold MemoryGraph.deepSpill
  dsimp only
  split
  · exact hmoved.onlySpill (releaseContentBlobIfOrphan_onlySpill _ _)
  · exact hmoved

theorem KnowsExactly.demote (hg : g.KnowsExactly known) (id : NodeId) : (g.demote id).KnowsExactly known := by
  unfold MemoryGraph.demote
  split
  · exact hg
  · rename_i node hnode
    obtain ⟨husks, hindex, hknown⟩ := hg
    refine ⟨husks, hindex, fun k => ?_⟩
    dsimp only
    rw [hknown, ← or_assoc, ← or_assoc, mem_moved (mem_of_getElem?_eq_some hnode)]

theorem KnowsExactly.restore (hg : g.KnowsExactly known) {id : NodeId} {c : ColdNode F} (hc : g.cold[id]? = some c) :
    (g.restore id c).KnowsExactly known := by
  obtain ⟨husks, hindex, hknown⟩ := hg
  refine ⟨husks, hindex, fun k => ?_⟩
  change _ ↔ k ∈ g.nodes.insert id (g.accessed c.node) ∨ k ∈ g.cold.erase id ∨ _
  have hmoved : k ∈ g.cold.erase id ∨ k ∈ g.nodes.insert id (g.accessed c.node) ↔ k ∈ g.cold ∨ k ∈ g.nodes :=
    mem_moved (mem_of_getElem?_eq_some hc) _ k
  rw [hknown]
  tauto

/-- A husk comes back, whatever its blob reads as. -/
theorem KnowsExactly.faultDeep (hg : g.KnowsExactly known) (id : NodeId) : (g.faultDeep h id).1.KnowsExactly known := by
  obtain ⟨husks, hindex, hknown⟩ := hg
  have hget := hindex.get id
  have hread := hindex.read id
  have hgraph := deepGet_eq g id
  unfold MemoryGraph.faultDeep
  generalize g.deepGet id = read at hget hread hgraph
  obtain ⟨found, g₁⟩ := read
  obtain ⟨huskStore, rfl, -⟩ := hgraph
  cases found with
  | none => exact ⟨husks, hread, hknown⟩
  | some husk =>
    dsimp only
    split
    · exact ⟨husks, hread, hknown⟩
    · rename_i node _
      refine KnowsExactly.onlySpill ?_ (releaseBlobIfOrphan_onlySpill _ _)
      refine ⟨husks.erase id, hread.delete id, fun k => ?_⟩
      change _ ↔ k ∈ g.nodes ∨ k ∈ g.cold.insert id node ∨ _
      have hmoved : k ∈ husks.erase id ∨ k ∈ g.cold.insert id node ↔ k ∈ husks ∨ k ∈ g.cold :=
        mem_moved (mem_of_getElem?_eq_some hget.symm) _ k
      rw [hknown]
      tauto

theorem KnowsExactly.faultContent (hg : g.KnowsExactly known) (id : NodeId) :
    (g.faultContent h id).1.KnowsExactly known := by
  unfold MemoryGraph.faultContent
  split
  · exact hg
  · split
    · exact hg
    · refine KnowsExactly.onlySpill ?_ (releaseContentBlobIfOrphan_onlySpill _ _)
      exact hg.inPlace (fun _ => Iff.rfl) (fun _ => ExtTreeMap.mem_modify) rfl

/-! ## Paging -/

theorem knowsExactly_moves (h : Host F) (known : NodeId → Prop) :
    KeptByMoves h fun g : MemoryGraph F => g.KnowsExactly known where
  fill g hg := hg.inPlace (fun _ => Iff.rfl) (fun _ => Iff.rfl) rfl
  content g id c hg hc _ := hg.overwrite hc _ rfl rfl rfl
  husk g id c entry hg hc _ hstore := hg.deepSpill hc entry hstore
  stray g id c entry hg _ _ := hg.onlySpill ⟨_, rfl⟩
  floor g id c hg hc := hg.overwrite hc _ rfl rfl rfl
  compact g id c content len hash hg hc _ := by
    unfold compactEntry
    dsimp only
    split
    · refine KnowsExactly.onlySpill ?_ (releaseContentBlobIfOrphan_onlySpill _ _)
      exact hg.overwrite hc _ rfl rfl rfl
    · exact hg.overwrite hc _ rfl rfl rfl

theorem KnowsExactly.pruneDanglingEdges (hg : g.KnowsExactly known) : g.pruneDanglingEdges.KnowsExactly known :=
  hg.onlyEdges ⟨_, g.edgeSet, rfl⟩

theorem KnowsExactly.enforcePaging (hg : g.KnowsExactly known) : (g.enforcePaging h).KnowsExactly known :=
  enforcePaging_of_moves (knowsExactly_moves h known) (fun _ id hg => hg.demote id)
    (fun _ hg => hg.pruneDanglingEdges) hg

theorem KnowsExactly.pageIn (hg : g.KnowsExactly known) (id : NodeId) : (g.pageIn h id).1.KnowsExactly known :=
  pageIn_of_moves (knowsExactly_moves h known) (fun _ id hg => hg.demote id) (fun _ hg => hg.pruneDanglingEdges)
    (fun _ id hg => hg.faultDeep id) (fun _ id hg => hg.faultContent id) (fun _ _ _ hg hc => hg.restore hc) hg id

/-! ## An id comes and goes -/

/-- The shadow goes from both COLD places. -/
theorem forgetColdShadow_places {husks : BTreeMap NodeId DeepHusk} (hg : HoldsHusks g.huskStore husks) (id : NodeId) :
    (g.forgetColdShadow id).cold = g.cold.erase id ∧ HoldsHusks (g.forgetColdShadow id).huskStore (husks.erase id) := by
  obtain ⟨⟨spill, hfull⟩, -⟩ := forgetFull_eq g id
  unfold forgetColdShadow
  generalize g.forgetFull id = full at hfull
  obtain ⟨g₁, fromFull⟩ := full
  obtain rfl : g₁ = { g.dropCold id with spill } := hfull
  have hindex : HoldsHusks ({ g.dropCold id with spill } : MemoryGraph F).huskStore husks := hg
  obtain ⟨spill', huskStore, hhusk, hholds, -, -⟩ := forgetHusk_eq hindex id
  dsimp only
  rw [hhusk]
  exact ⟨rfl, hholds⟩

theorem KnowsExactly.upsertNode (hg : g.KnowsExactly known) (id : NodeId) (label content : Str)
    (nodeType : NodeType) : (g.upsertNode h id label content nodeType).KnowsExactly fun k => k = id ∨ known k := by
  obtain ⟨husks, hindex, hknown⟩ := hg
  obtain ⟨hcold, hforgot⟩ := forgetColdShadow_places hindex id
  have hnodes := forgetColdShadow_nodes g id
  unfold MemoryGraph.upsertNode
  dsimp only
  refine KnowsExactly.enforcePaging ⟨husks.erase id, hforgot, fun k => ?_⟩
  dsimp only
  rw [hcold, hnodes, hknown, mem_insert_iff, mem_erase_iff, mem_erase_iff]
  by_cases hk : k = id
  · simp [hk]
  · simp [hk]

theorem KnowsExactly.removeNode (hg : g.KnowsExactly known) (id : NodeId) :
    (g.removeNode id).KnowsExactly fun k => k ≠ id ∧ known k := by
  obtain ⟨husks, hindex, hknown⟩ := hg
  obtain ⟨hcold, hforgot⟩ := forgetColdShadow_places (g := { g with nodes := g.nodes.erase id }) hindex id
  have hnodes := forgetColdShadow_nodes { g with nodes := g.nodes.erase id } id
  unfold MemoryGraph.removeNode
  refine ⟨husks.erase id, hforgot, fun k => ?_⟩
  dsimp only
  rw [hcold, hnodes, hknown, mem_erase_iff, mem_erase_iff, mem_erase_iff]
  tauto

end Steps

end Ccos.MemoryGraph
