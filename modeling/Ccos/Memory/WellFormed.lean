import Ccos.Memory.Adjacency

/-! # The graph stays well formed -/

open Std

set_option linter.unusedSectionVars false

namespace Ccos.MemoryGraph

variable {F : Type} [Scalar F]

/-- Every edge joins resident nodes, and no node is in two tiers. -/
structure WellFormed (g : MemoryGraph F) : Prop where
  ends : ∀ e ∈ g.edges, e.source ∈ g.nodes ∧ e.target ∈ g.nodes
  disjoint : ∀ id ∈ g.nodes, id ∉ g.cold
  noSwap : NoSwap g

theorem wellFormed_new (threshold : F) (cap : Nat) : WellFormed (new threshold cap) :=
  ⟨by simp [new], by simp [new], ⟨rfl, rfl, rfl, rfl⟩⟩

namespace WellFormed

/-- A step that keeps the ids and adds no edge. -/
theorem of_ids {g g' : MemoryGraph F} (hg : WellFormed g) (hnodes : ∀ id, id ∈ g'.nodes ↔ id ∈ g.nodes)
    (hedges : ∀ e ∈ g'.edges, ∃ e' ∈ g.edges, e.source = e'.source ∧ e.target = e'.target)
    (hcold : ∀ id, id ∈ g'.cold → id ∈ g.cold) (hswap : NoSwap g') : WellFormed g' where
  ends e he := by
    obtain ⟨e', he', hs, ht⟩ := hedges e he
    rw [hs, ht, hnodes, hnodes]
    exact hg.ends e' he'
  disjoint id hid hc := hg.disjoint id ((hnodes id).mp hid) (hcold id hc)
  noSwap := hswap

theorem of_edges_subset {g g' : MemoryGraph F} (hg : WellFormed g) (hnodes : g'.nodes = g.nodes)
    (hedges : g'.edges ⊆ g.edges) (hcold : g'.cold = g.cold) (hswap : NoSwap g') : WellFormed g' :=
  hg.of_ids (by simp [hnodes]) (fun e he => ⟨e, hedges he, rfl, rfl⟩) (by simp [hcold]) hswap

/-! ## Paging -/

theorem fillScoreCaches {g : MemoryGraph F} (hg : WellFormed g) : WellFormed g.fillScoreCaches :=
  hg.of_edges_subset rfl (List.Subset.refl _) rfl ((fillScoreCaches_frame g).noSwap hg.noSwap)

theorem pruneDanglingEdges {g : MemoryGraph F} (hg : WellFormed g) : WellFormed g.pruneDanglingEdges :=
  hg.of_edges_subset rfl List.filter_sublist.subset rfl (hg.noSwap.of_eq rfl rfl rfl rfl)

theorem demote {g : MemoryGraph F} (hg : WellFormed g) (id : NodeId) : WellFormed (g.demote id) := by
  by_cases hid : id ∈ g.nodes
  · refine ⟨Joined.demote hg.ends id, ?_, (demote_frame g id).noSwap hg.noSwap⟩
    · intro k hk hcold
      rw [demote_nodes, mem_erase_iff] at hk
      rcases (mem_demote_cold g id k).mp hcold with ⟨rfl, -⟩ | hcold
      · exact hk.1 rfl
      · exact hg.disjoint k hk.2 hcold
  · rw [demote_of_not_mem hid]
    exact hg

theorem enforcePaging (h : Host F) {g : MemoryGraph F} (hg : WellFormed g) :
    WellFormed (g.enforcePaging h) :=
  enforcePaging_induct h hg.noSwap (fun _ => fillScoreCaches) (fun _ id hg => hg.demote id)
    (fun _ => pruneDanglingEdges) hg

/-- The node that enters leaves the COLD tier first. -/
theorem insertNode {g : MemoryGraph F} (hg : WellFormed g) (id : NodeId) (node : GraphNode F) :
    WellFormed { g.dropCold id with nodes := g.nodes.insert id node } where
  ends := Joined.insertNode hg.ends id node
  disjoint k hk hcold := by
    obtain ⟨hne, hcold⟩ := mem_erase_iff.mp hcold
    rcases mem_insert_iff.mp hk with rfl | hk
    · exact hne rfl
    · exact hg.disjoint k hk hcold
  noSwap := hg.noSwap.of_eq rfl rfl rfl rfl

theorem upsertNode (h : Host F) {g : MemoryGraph F} (hg : WellFormed g) (id : NodeId)
    (label content : Str) (nodeType : NodeType) :
    WellFormed (g.upsertNode h id label content nodeType) := by
  rw [upsertNode_of_noSwap h hg.noSwap]
  exact (hg.insertNode id _).enforcePaging h

theorem removeNode {g : MemoryGraph F} (hg : WellFormed g) (id : NodeId) :
    WellFormed (g.removeNode id) := by
  have hends := Joined.removeNode hg.ends id
  rw [removeNode_of_noSwap hg.noSwap] at hends ⊢
  refine ⟨hends, ?_, hg.noSwap.of_eq rfl rfl rfl rfl⟩
  · intro k hk hcold
    exact hg.disjoint k (mem_erase_iff.mp hk).2 (mem_erase_iff.mp hcold).2

theorem restore {g : MemoryGraph F} (hg : WellFormed g) (id : NodeId) (c : ColdNode F) :
    WellFormed (g.restore id c) := by
  have hin := hg.insertNode id (g.accessed c.node)
  refine ⟨Joined.restore hg.ends id c, hin.disjoint, hin.noSwap.spill, hin.noSwap.husks, ?_, hin.noSwap.budget⟩
  change radjDel g.radj id _ = none
  rw [hg.noSwap.radj, radjDel_none]

theorem pageIn (h : Host F) {g : MemoryGraph F} (hg : WellFormed g) (id : NodeId) :
    WellFormed (g.pageIn h id).1 := by
  rw [pageIn_of_noSwap h hg.noSwap]
  split
  · exact hg
  · split
    · exact hg
    · rename_i c _ _
      exact (makeRoom_induct (P := WellFormed) id (fun _ => fillScoreCaches)
        (fun _ v hg _ _ => hg.demote v) _ _ (hg.restore id c)).pruneDanglingEdges

/-! ## Edges -/

theorem addEdge {g : MemoryGraph F} (hg : WellFormed g) (s t : NodeId) (w : F) (ty : EdgeType) :
    WellFormed (g.addEdge s t w ty).1 := by
  have hends := Joined.addEdge hg.ends s t w ty
  obtain ⟨edges, edgeSet, heq⟩ := addEdge_onlyEdges g s t w ty
  rw [heq] at hends ⊢
  exact ⟨hends, hg.disjoint, hg.noSwap.of_eq rfl rfl rfl rfl⟩

theorem addEdges {g : MemoryGraph F} (hg : WellFormed g)
    (edges : List (NodeId × NodeId × F × EdgeType)) : WellFormed (g.addEdges edges).1 :=
  List.foldlRecOn edges addCounted (motive := fun acc => WellFormed acc.1) hg
    fun _ hacc _ _ => hacc.addEdge _ _ _ _

theorem linkModuleImports {g : MemoryGraph F} (hg : WellFormed g) : WellFormed g.linkModuleImports.1 :=
  hg.addEdges _

theorem resolveSymbolCalls {g : MemoryGraph F} (hg : WellFormed g) :
    WellFormed g.resolveSymbolCalls.1 :=
  hg.addEdges _

theorem resolveDataFlow {g : MemoryGraph F} (hg : WellFormed g) : WellFormed g.resolveDataFlow.1 :=
  hg.addEdges _

theorem resolveAll {g : MemoryGraph F} (hg : WellFormed g) : WellFormed g.resolveAll.1 := by
  have hpruned : WellFormed g.pruneResolutionEdges :=
    hg.of_edges_subset rfl List.filter_sublist.subset rfl (hg.noSwap.of_eq rfl rfl rfl rfl)
  rw [resolveAll_fst]
  exact hpruned.linkModuleImports.resolveSymbolCalls.resolveDataFlow

theorem propagateBeliefs {g : MemoryGraph F} (hg : WellFormed g) (threshold damping : F) :
    WellFormed (g.propagateBeliefs threshold damping).1 := by
  unfold MemoryGraph.propagateBeliefs
  exact hg.addEdges _

/-! ## Node fields -/

/-- A step that only edits fields of resident nodes. -/
theorem editNodes {g : MemoryGraph F} (hg : WellFormed g) {nodes : BTreeMap NodeId (GraphNode F)}
    (h : ∀ id, id ∈ nodes ↔ id ∈ g.nodes) : WellFormed { g with nodes } :=
  hg.of_ids h (fun e he => ⟨e, he, rfl, rfl⟩) (fun _ => id) (hg.noSwap.of_eq rfl rfl rfl rfl)

theorem onlyFields {g g' : MemoryGraph F} (hg : WellFormed g) (h : OnlyFields g g') :
    WellFormed g' := by
  have hids := h.mem_nodes
  obtain ⟨nodes, rfl, -⟩ := h
  exact hg.editNodes hids

theorem setNodeState {g : MemoryGraph F} (hg : WellFormed g) (id : NodeId) (state : NodeState) :
    WellFormed (g.setNodeState id state) :=
  (hg.editNodes fun _ => ExtTreeMap.mem_modify).of_edges_subset rfl (List.Subset.refl _) rfl
    (hg.noSwap.of_eq rfl rfl rfl rfl)

end WellFormed

/-! ## Reload -/

theorem WellFormed.reload {g : MemoryGraph F} (hg : WellFormed g) : WellFormed (g.reload.getD g) := by
  have hends := Joined.reload hg.ends
  cases hr : g.reload with
  | none => exact hg
  | some g' =>
    rw [hr, Option.getD_some] at hends
    obtain ⟨s, rfl, hnodes, -, hcold, -⟩ := reload_eq_some hr
    refine ⟨hends, ?_, ⟨rfl, rfl, rfl, rfl⟩⟩
    intro id hid hc
    exact hg.disjoint id ((hnodes id).mp hid) ((hcold id).mp hc)

/-! ## Runs -/

theorem WellFormed.step (h : Host F) {g : MemoryGraph F} (hg : WellFormed g) (op : GraphOp F) :
    WellFormed (g.step h op) := by
  have same {g' : MemoryGraph F} (hn : g'.nodes = g.nodes) (he : g'.edges = g.edges)
      (hc : g'.cold = g.cold) (hs : NoSwap g') : WellFormed g' :=
    hg.of_edges_subset hn (he ▸ List.Subset.refl _) hc hs
  have swap := hg.noSwap
  cases op with
  | upsertNode id label content nodeType => exact hg.upsertNode h id label content nodeType
  | addEdge s t w ty => exact hg.addEdge s t w ty
  | removeNode id => exact hg.removeNode id
  | setMaxInMemoryNodes cap => exact same rfl rfl rfl (swap.of_eq rfl rfl rfl rfl)
  | enforcePaging => exact hg.enforcePaging h
  | pageIn id => exact hg.pageIn h id
  | pruneDanglingEdges => exact hg.pruneDanglingEdges
  | resolveAll => exact hg.resolveAll
  | propagateFailure origin depth maxDepth => exact hg.onlyFields (propagateFrom_onlyFields _ _ _ g)
  | propagateBeliefs threshold damping => exact hg.propagateBeliefs threshold damping
  | setNodeState id state => exact hg.setNodeState id state
  | setScoringWeights weights => exact same rfl rfl rfl (swap.of_eq rfl rfl rfl rfl)
  | setFailureRelevance id relevance => exact hg.editNodes fun _ => ExtTreeMap.mem_modify
  | stampFileTrust filePath trust => exact hg.editNodes fun _ => ExtTreeMap.mem_map
  | tick =>
    exact (hg.editNodes fun _ => ExtTreeMap.mem_map).of_edges_subset rfl (List.Subset.refl _) rfl
      (swap.of_eq rfl rfl rfl rfl)
  | nodeInDegree => exact same rfl rfl rfl (swap.of_eq rfl rfl rfl rfl)
  | nodeEigencentrality => exact same rfl rfl rfl (swap.of_eq rfl rfl rfl rfl)
  | withCausalAdjacency => exact same rfl rfl rfl (swap.of_eq rfl rfl rfl rfl)
  | setPendingCalls file calls => exact same rfl rfl rfl (swap.of_eq rfl rfl rfl rfl)
  | setPendingDataRefs file refs => exact same rfl rfl rfl (swap.of_eq rfl rfl rfl rfl)
  | setPendingAliases file aliases => exact same rfl rfl rfl (swap.of_eq rfl rfl rfl rfl)
  | setPendingMethods file methods => exact same rfl rfl rfl (swap.of_eq rfl rfl rfl rfl)
  | markDataSymbol id => exact same rfl rfl rfl (swap.of_eq rfl rfl rfl rfl)
  | reload => exact hg.reload

theorem WellFormed.run (h : Host F) (ops : List (GraphOp F)) {g : MemoryGraph F} (hg : WellFormed g) :
    WellFormed (g.run h ops) := by
  induction ops generalizing g with
  | nil => exact hg
  | cons op ops ih => exact ih (hg.step h op)

/-! ## The resident bound -/

/-- The resident set fits the cap, and one node always fits. -/
def Bounded (g : MemoryGraph F) : Prop := g.nodes.size ≤ Nat.max g.maxInMemoryNodes 1

def keepsCap : GraphOp F → Bool
  | .setMaxInMemoryNodes _ => false
  | _ => true

theorem bounded_of_ids {g g' : MemoryGraph F} (hg : Bounded g)
    (hnodes : ∀ id, id ∈ g'.nodes ↔ id ∈ g.nodes) (hcap : g'.maxInMemoryNodes = g.maxInMemoryNodes) :
    Bounded g' := by
  unfold Bounded at *
  rw [hcap, size_eq_of_mem_iff hnodes]
  exact hg

theorem cap_enforcePaging (h : Host F) {g : MemoryGraph F} (hg : NoSwap g) :
    (g.enforcePaging h).maxInMemoryNodes = g.maxInMemoryNodes :=
  enforcePaging_induct (P := fun g' => g'.maxInMemoryNodes = g.maxInMemoryNodes) h hg
    (fun _ => id) (fun g' id hg' => (demote_frame g' id).cap.trans hg') (fun _ => id) rfl

theorem bounded_enforcePaging (h : Host F) {g : MemoryGraph F} (hg : NoSwap g) :
    Bounded (g.enforcePaging h) := by
  unfold Bounded
  rw [cap_enforcePaging h hg]
  exact (size_enforcePaging h hg).trans (Nat.le_max_left _ _)

theorem bounded_pageIn (h : Host F) {g : MemoryGraph F} (hg : NoSwap g) (hb : Bounded g) (id : NodeId) :
    Bounded (g.pageIn h id).1 := by
  rw [pageIn_of_noSwap h hg]
  split
  · exact hb
  · rename_i c _
    split
    · exact hb
    · have hroom := size_makeRoom id (g.nodes.size + 1) (g.restore id c) (by
        change (g.nodes.insert id _).size ≤ _
        exact ExtTreeMap.size_insert_le)
      unfold Bounded
      change (makeRoom id (g.nodes.size + 1) (g.restore id c)).nodes.size ≤
        Nat.max (makeRoom id (g.nodes.size + 1) (g.restore id c)).maxInMemoryNodes 1
      rwa [(makeRoom_frame id _ _).cap]

theorem Bounded.step (h : Host F) {g : MemoryGraph F} (hg : WellFormed g) (hb : Bounded g)
    {op : GraphOp F} (hop : keepsCap op) : Bounded (g.step h op) := by
  have same {g' : MemoryGraph F} (hn : g'.nodes = g.nodes)
      (hc : g'.maxInMemoryNodes = g.maxInMemoryNodes) : Bounded g' :=
    bounded_of_ids hb (by simp [hn]) hc
  cases op with
  | upsertNode id label content nodeType =>
    change Bounded (g.upsertNode h id label content nodeType)
    rw [upsertNode_of_noSwap h hg.noSwap]
    exact bounded_enforcePaging h (hg.noSwap.of_eq rfl rfl rfl rfl)
  | addEdge s t w ty =>
    change Bounded (g.addEdge s t w ty).1
    exact same (addEdge_onlyEdges g s t w ty).nodes (addEdge_onlyEdges g s t w ty).cap
  | removeNode id =>
    change Bounded (g.removeNode id)
    rw [removeNode_of_noSwap hg.noSwap]
    exact (ExtTreeMap.size_erase_le).trans hb
  | setMaxInMemoryNodes cap => cases hop
  | enforcePaging => exact bounded_enforcePaging h hg.noSwap
  | pageIn id => exact bounded_pageIn h hg.noSwap hb id
  | pruneDanglingEdges => exact same rfl rfl
  | resolveAll =>
    change Bounded g.resolveAll.1
    exact same (resolveAll_onlyEdges g).nodes (resolveAll_onlyEdges g).cap
  | propagateFailure origin depth maxDepth =>
    change Bounded (propagateFrom (maxDepth + 1 - depth) depth origin g)
    have := propagateFrom_onlyFields (maxDepth + 1 - depth) depth origin g
    exact bounded_of_ids hb this.mem_nodes this.cap
  | propagateBeliefs threshold damping =>
    change Bounded (g.propagateBeliefs threshold damping).1
    have := propagateBeliefs_onlyEdges g threshold damping
    exact same this.nodes this.cap
  | setNodeState id state => exact bounded_of_ids hb (fun _ => ExtTreeMap.mem_modify) rfl
  | setScoringWeights weights => exact same rfl rfl
  | setFailureRelevance id relevance => exact bounded_of_ids hb (fun _ => ExtTreeMap.mem_modify) rfl
  | stampFileTrust filePath trust => exact bounded_of_ids hb (fun _ => ExtTreeMap.mem_map) rfl
  | tick => exact bounded_of_ids hb (fun _ => ExtTreeMap.mem_map) rfl
  | nodeInDegree => exact same rfl rfl
  | nodeEigencentrality => exact same rfl rfl
  | withCausalAdjacency => exact same rfl rfl
  | setPendingCalls file calls => exact same rfl rfl
  | setPendingDataRefs file refs => exact same rfl rfl
  | setPendingAliases file aliases => exact same rfl rfl
  | setPendingMethods file methods => exact same rfl rfl
  | markDataSymbol id => exact same rfl rfl
  | reload =>
    unfold MemoryGraph.step
    cases hr : g.reload with
    | none => exact hb
    | some g' =>
      obtain ⟨s, rfl, hnodes, -, -, hcap⟩ := reload_eq_some hr
      exact bounded_of_ids hb hnodes hcap

theorem Bounded.run (h : Host F) (ops : List (GraphOp F)) (hops : ∀ op ∈ ops, keepsCap op)
    {g : MemoryGraph F} (hg : WellFormed g) (hb : Bounded g) : Bounded (g.run h ops) := by
  induction ops generalizing g with
  | nil => exact hb
  | cons op ops ih =>
    rw [List.forall_mem_cons] at hops
    exact ih hops.2 (hg.step h op) (hb.step h hg hops.1)

theorem danglingEdgeCount_of_wellFormed {g : MemoryGraph F} (hg : WellFormed g) :
    g.danglingEdgeCount = 0 := by
  rw [danglingEdgeCount, List.length_eq_zero_iff, List.filter_eq_nil_iff]
  intro e he
  have := hg.ends e he
  simp [hasEnds, this.1, this.2]

/-- The graph is well formed after every operation of every run, for every cap. -/
theorem graph_well_formed_in_every_run (h : Host F) (threshold : F) (cap : Nat)
    (ops : List (GraphOp F)) (hops : ∀ op ∈ ops, keepsCap op) :
    ((new threshold cap).run h ops).danglingEdgeCount = 0 ∧
      (∀ id ∈ ((new threshold cap).run h ops).nodes, ((new threshold cap).run h ops).isCold id = false) ∧
      ((new threshold cap).run h ops).nodeCount ≤
        Nat.max ((new threshold cap).run h ops).maxInMemoryNodes 1 := by
  have hwf := (wellFormed_new threshold cap).run h ops
  have hbound : Bounded (new threshold cap) := by
    unfold Bounded
    exact (Nat.zero_le _)
  refine ⟨danglingEdgeCount_of_wellFormed hwf, ?_, hbound.run h ops hops (wellFormed_new threshold cap)⟩
  intro id hid
  rw [isCold_of_noSwap hwf.noSwap]
  exact Bool.eq_false_iff.mpr fun hc => hwf.disjoint id hid (ExtTreeMap.contains_iff_mem.mp hc)

/-- A run over a cap of one: the upserts page each other out, and the page-in swaps. -/
theorem graph_well_formed_over_a_cap_of_one :
    ((new (1 / 5) 1).run Host.ramOnly
      [.upsertNode ['a'] [] [] .symbol, .upsertNode ['b'] [] [] .symbol, .addEdge ['a'] ['b'] 1 .calls,
        .pageIn ['a'], .enforcePaging, .resolveAll]).danglingEdgeCount = 0 :=
  (graph_well_formed_in_every_run Host.ramOnly (1 / 5 : ℚ) 1
    [.upsertNode ['a'] [] [] .symbol, .upsertNode ['b'] [] [] .symbol, .addEdge ['a'] ['b'] 1 .calls,
      .pageIn ['a'], .enforcePaging, .resolveAll] (by simp [keepsCap])).1

end Ccos.MemoryGraph
