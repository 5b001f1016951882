import Ccos.Memory.WellFormed
import Ccos.Lib.SideIndexes
import Ccos.Lib.Runs

/-!
# The duplicate-edge index

`add_edge` asks a set of triples, rebuilt when its size differs from the number of edges, while
`page_in` pushes edges past the set. The index is faithful exactly as long as equal sizes mean equal
triples.
-/

open Std

set_option linter.unusedSectionVars false

namespace Ccos.MemoryGraph

variable {F : Type} [Scalar F]

def triples (g : MemoryGraph F) : List Triple := g.edges.map (·.triple)

/-- `add_edge` adds an edge exactly when it should, and no two edges share a triple. -/
structure Faithful (g : MemoryGraph F) : Prop where
  adds : ∀ s t w ty, (g.addEdge s t w ty).2 = true ↔
    s ∈ g.nodes ∧ t ∈ g.nodes ∧ ∀ e ∈ g.edges, e.triple ≠ (s, t, ty)
  appends : ∀ s t w ty, (g.addEdge s t w ty).1.edges =
    if (g.addEdge s t w ty).2 then
      g.edges ++ [{ source := s, target := t, weight := w, edgeType := ty, createdAt := g.clock }]
    else g.edges
  nodup : g.triples.Nodup

/-- An index of the size of the edge vector lists the triples of the edges. -/
def SizeCheckSound (g : MemoryGraph F) : Prop := CountedIndex.Sound g.edgeSet g.triples

theorem syncedEdgeSet_eq (g : MemoryGraph F) :
    g.syncedEdgeSet = CountedIndex.synced g.edgeSet g.triples := by
  simp only [syncedEdgeSet, CountedIndex.synced, triples, List.length_map]

/-! ## One insertion -/

/-- What an insertion does to the index and to the triples. -/
theorem addEdge_cases (g : MemoryGraph F) (s t : NodeId) (w : F) (ty : EdgeType) :
    ((s ∉ g.nodes ∨ t ∉ g.nodes) ∧ g.addEdge s t w ty = (g, false)) ∨
    (s ∈ g.nodes ∧ t ∈ g.nodes ∧ (s, t, ty) ∈ g.syncedEdgeSet ∧
      g.addEdge s t w ty = ({ g with edgeSet := g.syncedEdgeSet }, false)) ∨
    (s ∈ g.nodes ∧ t ∈ g.nodes ∧ (s, t, ty) ∉ g.syncedEdgeSet ∧
      g.addEdge s t w ty = ({ g with
        edgeSet := insert (s, t, ty) g.syncedEdgeSet
        edges := g.edges ++
          [{ source := s, target := t, weight := w, edgeType := ty, createdAt := g.clock }] }, true)) := by
  unfold addEdge
  by_cases hends : s ∈ g.nodes ∧ t ∈ g.nodes
  · have hs := ExtTreeMap.contains_iff_mem.mpr hends.1
    have ht := ExtTreeMap.contains_iff_mem.mpr hends.2
    by_cases hmem : (s, t, ty) ∈ g.syncedEdgeSet
    · refine Or.inr (Or.inl ⟨hends.1, hends.2, hmem, ?_⟩)
      simp [hs, ht, hmem]
    · refine Or.inr (Or.inr ⟨hends.1, hends.2, hmem, ?_⟩)
      simp [hs, ht, hmem]
  · have hout : s ∉ g.nodes ∨ t ∉ g.nodes := by tauto
    refine Or.inl ⟨hout, ?_⟩
    rcases hout with h | h
    · simp [h]
    · simp [h]

theorem sizeCheckSound_addEdge {g : MemoryGraph F} (hg : SizeCheckSound g) (s t : NodeId) (w : F)
    (ty : EdgeType) : SizeCheckSound (g.addEdge s t w ty).1 := by
  unfold SizeCheckSound at *
  rcases addEdge_cases g s t w ty with ⟨-, h⟩ | ⟨-, -, -, h⟩ | ⟨-, -, -, h⟩
  · rw [h]
    exact hg
  · rw [h, syncedEdgeSet_eq]
    exact CountedIndex.sound_synced hg
  · rw [h, syncedEdgeSet_eq]
    simpa [triples, GraphEdge.triple] using CountedIndex.sound_push (a := (s, t, ty)) hg

theorem not_sizeCheckSound_addEdge {g : MemoryGraph F} (hg : ¬ SizeCheckSound g) (s t : NodeId) (w : F)
    (ty : EdgeType) : ¬ SizeCheckSound (g.addEdge s t w ty).1 := by
  unfold SizeCheckSound at *
  rcases addEdge_cases g s t w ty with ⟨-, h⟩ | ⟨-, -, -, h⟩ | ⟨-, -, hnew, h⟩
  · rw [h]
    exact hg
  · have hcard : g.edgeSet.card = g.triples.length := by
      by_contra hne
      exact hg fun hc => absurd hc hne
    rw [h, syncedEdgeSet_eq, CountedIndex.synced_of_card_eq hcard]
    exact hg
  · rw [syncedEdgeSet_eq] at hnew
    rw [h, syncedEdgeSet_eq]
    simpa [triples, GraphEdge.triple] using CountedIndex.not_sound_push hg hnew

theorem nodup_addEdge {g : MemoryGraph F} (hg : SizeCheckSound g) (hnd : g.triples.Nodup)
    (s t : NodeId) (w : F) (ty : EdgeType) : (g.addEdge s t w ty).1.triples.Nodup := by
  rcases addEdge_cases g s t w ty with ⟨-, h⟩ | ⟨-, -, -, h⟩ | ⟨-, -, hnew, h⟩
  · rw [h]
    exact hnd
  · rw [h]
    exact hnd
  · rw [syncedEdgeSet_eq] at hnew
    rw [h]
    simpa [triples, GraphEdge.triple] using CountedIndex.nodup_push hg hnd hnew

/-! ## Faithful means sound -/

theorem faithful_of_sound {g : MemoryGraph F} (hg : SizeCheckSound g) (hnd : g.triples.Nodup) :
    Faithful g := by
  have hsynced : ∀ x, x ∈ g.syncedEdgeSet ↔ ∃ e ∈ g.edges, e.triple = x := by
    intro x
    rw [syncedEdgeSet_eq, CountedIndex.Sound.synced_eq hg, List.mem_toFinset, triples, List.mem_map]
  refine ⟨?_, ?_, hnd⟩
  · intro s t w ty
    rcases addEdge_cases g s t w ty with ⟨hout, h⟩ | ⟨hs, ht, hmem, h⟩ | ⟨hs, ht, hnew, h⟩
    · simp only [h, Bool.false_eq_true, false_iff]
      tauto
    · obtain ⟨e, he, heq⟩ := (hsynced _).mp hmem
      simp only [h, Bool.false_eq_true, false_iff]
      exact fun hall => hall.2.2 e he heq
    · simp only [h, true_iff]
      exact ⟨hs, ht, fun e he heq => hnew ((hsynced _).mpr ⟨e, he, heq⟩)⟩
  · intro s t w ty
    rcases addEdge_cases g s t w ty with ⟨-, h⟩ | ⟨-, -, -, h⟩ | ⟨-, -, -, h⟩ <;> simp [h]

theorem sound_of_faithful {g : MemoryGraph F} (hwf : WellFormed g) (hg : Faithful g) :
    SizeCheckSound g := by
  refine CountedIndex.sound_of_synced ?_ hg.nodup
  intro x hx
  obtain ⟨e, he, rfl⟩ := List.mem_map.mp hx
  have hends := hwf.ends e he
  rw [← syncedEdgeSet_eq]
  by_contra hnew
  have hadds := hg.adds e.source e.target e.weight e.edgeType
  rcases addEdge_cases g e.source e.target e.weight e.edgeType with
    ⟨hout, -⟩ | ⟨-, -, hmem, -⟩ | ⟨-, -, -, h⟩
  · tauto
  · exact hnew hmem
  · rw [h] at hadds
    exact (hadds.mp rfl).2.2 e he rfl

/-! ## Steps that only drop edges -/

/-- Edges go, and the index stays as it is. -/
structure OnlyDrops (g g' : MemoryGraph F) : Prop where
  edgeSet : g'.edgeSet = g.edgeSet
  edges : g'.edges.Sublist g.edges

namespace OnlyDrops

theorem refl (g : MemoryGraph F) : OnlyDrops g g := ⟨rfl, List.Sublist.refl _⟩

theorem trans {a b c : MemoryGraph F} (hab : OnlyDrops a b) (hbc : OnlyDrops b c) : OnlyDrops a c :=
  ⟨hbc.edgeSet.trans hab.edgeSet, hbc.edges.trans hab.edges⟩

theorem nodup {g g' : MemoryGraph F} (h : OnlyDrops g g') (hnd : g.triples.Nodup) :
    g'.triples.Nodup :=
  hnd.sublist (h.edges.map _)

theorem demote (g : MemoryGraph F) (id : NodeId) : OnlyDrops g (g.demote id) :=
  ⟨(demote_frame g id).edgeSet, demote_edges_sublist g id⟩

theorem pruneDanglingEdges (g : MemoryGraph F) : OnlyDrops g g.pruneDanglingEdges :=
  ⟨rfl, List.filter_sublist⟩

theorem enforcePaging (h : Host F) {g : MemoryGraph F} (hg : NoSwap g) :
    OnlyDrops g (g.enforcePaging h) :=
  enforcePaging_induct h hg (fun _ hd => hd.trans ⟨rfl, List.Sublist.refl _⟩)
    (fun _ id hd => hd.trans (demote _ id)) (fun _ hd => hd.trans (pruneDanglingEdges _)) (refl g)

theorem makeRoom (id : NodeId) (fuel : Nat) (g : MemoryGraph F) :
    OnlyDrops g (makeRoom id fuel g) :=
  makeRoom_induct id (fun _ hd => hd.trans ⟨rfl, List.Sublist.refl _⟩)
    (fun _ v hd _ _ => hd.trans (demote _ v)) fuel g (refl g)

theorem upsertNode (h : Host F) {g : MemoryGraph F} (hg : NoSwap g) (id : NodeId)
    (label content : Str) (nodeType : NodeType) :
    OnlyDrops g (g.upsertNode h id label content nodeType) := by
  rw [upsertNode_of_noSwap h hg]
  have hinsert : OnlyDrops g { g.dropCold id with
      nodes := g.nodes.insert id (g.upserted id label content nodeType) } :=
    ⟨rfl, List.Sublist.refl _⟩
  exact hinsert.trans (enforcePaging h (hg.of_eq rfl rfl rfl rfl))

theorem removeNode {g : MemoryGraph F} (hg : NoSwap g) (id : NodeId) :
    OnlyDrops g (g.removeNode id) := by
  rw [removeNode_of_noSwap hg]
  exact ⟨rfl, List.filter_sublist⟩

end OnlyDrops

/-! ## Page-in -/

/-- The re-link looks at the edges themselves, so it never doubles one. -/
theorem nodup_relink {g : MemoryGraph F} (hnd : g.triples.Nodup) (archived : List (GraphEdge F)) :
    ((g.relink archived).map (·.triple)).Nodup := by
  unfold relink
  refine List.foldlRecOn archived _ (motive := fun edges : List (GraphEdge F) =>
    (edges.map GraphEdge.triple).Nodup) hnd ?_
  intro edges hedges e _
  split
  · rename_i hnew
    simp only [Bool.and_eq_true, Bool.not_eq_true', List.any_eq_false, beq_iff_eq] at hnew
    rw [List.map_append, List.nodup_append]
    refine ⟨hedges, List.nodup_singleton _, ?_⟩
    rintro x hx y hy rfl
    rw [List.map_singleton, List.mem_singleton] at hy
    obtain ⟨e', he', heq⟩ := List.mem_map.mp hx
    exact hnew.2 e' he' (heq.trans hy)
  · exact hedges

/-- A page-in restores an entry and then drops the edges of what it swaps out. -/
theorem pageIn_drops (h : Host F) {g : MemoryGraph F} (hg : NoSwap g) (id : NodeId) :
    (g.pageIn h id).1 = g ∨ ∃ c, g.cold[id]? = some c ∧ OnlyDrops (g.restore id c) (g.pageIn h id).1 := by
  rw [pageIn_of_noSwap h hg]
  cases hc : g.cold[id]? with
  | none => exact Or.inl rfl
  | some c =>
    by_cases hs : c.spill.isSome
    · exact Or.inl (by simp [hs])
    · refine Or.inr ⟨c, rfl, ?_⟩
      simp only [hs, Bool.false_eq_true, if_false]
      exact (OnlyDrops.makeRoom id _ _).trans (OnlyDrops.pruneDanglingEdges _)

theorem nodup_pageIn (h : Host F) {g : MemoryGraph F} (hg : NoSwap g) (hnd : g.triples.Nodup)
    (id : NodeId) : (g.pageIn h id).1.triples.Nodup := by
  rcases pageIn_drops h hg id with heq | ⟨c, -, hdrop⟩
  · rw [heq]
    exact hnd
  · let inserted := { g.dropCold id with nodes := g.nodes.insert id (g.accessed c.node) }
    have hrestored : (inserted.relink c.edges |>.map (·.triple)).Nodup :=
      nodup_relink (g := inserted) hnd c.edges
    exact hdrop.nodup hrestored

/-! ## Resolution -/

theorem addEdges_induct {P : MemoryGraph F → Prop} {g : MemoryGraph F} (start : P g)
    (keep : ∀ g s t w ty, P g → P (g.addEdge s t w ty).1)
    (edges : List (NodeId × NodeId × F × EdgeType)) : P (g.addEdges edges).1 :=
  List.foldlRecOn edges addCounted (motive := fun acc => P acc.1) start
    fun _ hacc _ _ => keep _ _ _ _ _ hacc

theorem resolveAll_induct {P : MemoryGraph F → Prop} {g : MemoryGraph F}
    (start : P g.pruneResolutionEdges) (keep : ∀ g s t w ty, P g → P (g.addEdge s t w ty).1) :
    P g.resolveAll.1 := by
  rw [resolveAll_fst]
  exact addEdges_induct (addEdges_induct (addEdges_induct start keep _) keep _) keep _

theorem nodup_of_adds {P : MemoryGraph F → Prop}
    (hP : P = fun g => SizeCheckSound g ∧ g.triples.Nodup) (g : MemoryGraph F) (s t : NodeId) (w : F)
    (ty : EdgeType) (hg : P g) : P (g.addEdge s t w ty).1 := by
  subst hP
  exact ⟨sizeCheckSound_addEdge hg.1 s t w ty, nodup_addEdge hg.1 hg.2 s t w ty⟩

/-- A sound index after a resolution was sound after its prune, since insertions do not repair it. -/
theorem nodup_resolveAll {g : MemoryGraph F} (hnd : g.triples.Nodup)
    (hafter : SizeCheckSound g.resolveAll.1) : g.resolveAll.1.triples.Nodup := by
  have hprune : OnlyDrops g g.pruneResolutionEdges := ⟨rfl, List.filter_sublist⟩
  by_cases hmid : SizeCheckSound g.pruneResolutionEdges
  · exact (resolveAll_induct (P := fun g => SizeCheckSound g ∧ g.triples.Nodup)
      ⟨hmid, hprune.nodup hnd⟩ (nodup_of_adds rfl)).2
  · exact absurd hafter (resolveAll_induct (P := fun g => ¬ SizeCheckSound g) hmid
      fun _ s t w ty hg => not_sizeCheckSound_addEdge hg s t w ty)

/-! ## Runs -/

theorem triples_reload (g : MemoryGraph F) : (g.reload.getD g).triples = g.triples := by
  cases hr : g.reload with
  | none => rfl
  | some g' =>
    obtain ⟨s, rfl, -, hedges, -, -⟩ := reload_eq_some hr
    exact hedges

/-- Between two states with a sound index, no step doubles an edge. -/
theorem nodup_step (h : Host F) {g : MemoryGraph F} (hwf : WellFormed g) (hnd : g.triples.Nodup)
    (op : GraphOp F) (hbefore : SizeCheckSound g) (hafter : SizeCheckSound (g.step h op)) :
    (g.step h op).triples.Nodup := by
  have swap := hwf.noSwap
  cases op with
  | upsertNode id label content nodeType =>
    exact (OnlyDrops.upsertNode h swap id label content nodeType).nodup hnd
  | addEdge s t w ty => exact nodup_addEdge hbefore hnd s t w ty
  | removeNode id => exact (OnlyDrops.removeNode swap id).nodup hnd
  | enforcePaging => exact (OnlyDrops.enforcePaging h swap).nodup hnd
  | pageIn id => exact nodup_pageIn h swap hnd id
  | pruneDanglingEdges => exact (OnlyDrops.pruneDanglingEdges g).nodup hnd
  | resolveAll => exact nodup_resolveAll hnd hafter
  | propagateFailure origin depth maxDepth =>
    obtain ⟨nodes, heq, -⟩ := propagateFrom_onlyFields (maxDepth + 1 - depth) depth origin g
    change (propagateFrom _ _ _ g).triples.Nodup
    rw [heq]
    exact hnd
  | propagateBeliefs threshold damping =>
    change (g.propagateBeliefs threshold damping).1.triples.Nodup
    unfold MemoryGraph.propagateBeliefs
    exact (addEdges_induct (P := fun g => SizeCheckSound g ∧ g.triples.Nodup) ⟨hbefore, hnd⟩
      (nodup_of_adds rfl) _).2
  | reload =>
    change (g.reload.getD g).triples.Nodup
    rw [triples_reload]
    exact hnd
  | setMaxInMemoryNodes | setNodeState | setScoringWeights | setFailureRelevance | stampFileTrust
  | tick | nodeInDegree | nodeEigencentrality
  | withCausalAdjacency | setPendingCalls | setPendingDataRefs | setPendingAliases
  | setPendingMethods | markDataSymbol => exact hnd

/-! ## Page-ins that bring back known edges -/

/-- The index lists every edge, or nothing at all. -/
def IndexCovers (g : MemoryGraph F) : Prop :=
  g.triples.Nodup ∧ (g.edgeSet = ∅ ∨ ∀ x ∈ g.triples, x ∈ g.edgeSet)

theorem IndexCovers.sound {g : MemoryGraph F} (hg : IndexCovers g) : SizeCheckSound g := by
  unfold SizeCheckSound
  rcases hg.2 with hempty | hsub
  · rw [hempty]
    exact CountedIndex.sound_empty _
  · exact CountedIndex.sound_of_subset hsub hg.1

/-- A page-in only links edges that the index still lists. -/
def relinksKnown (g : MemoryGraph F) : GraphOp F → Prop
  | .pageIn id => g.edgeSet = ∅ ∨ ∀ c, g.cold[id]? = some c → ∀ e ∈ c.edges, e.triple ∈ g.edgeSet
  | _ => True

theorem IndexCovers.drops {g g' : MemoryGraph F} (hg : IndexCovers g) (hdrop : OnlyDrops g g') :
    IndexCovers g' := by
  refine ⟨hdrop.nodup hg.1, ?_⟩
  rw [hdrop.edgeSet]
  rcases hg.2 with hempty | hsub
  · exact Or.inl hempty
  · exact Or.inr fun x hx => hsub x ((hdrop.edges.map _).subset hx)

theorem IndexCovers.addEdge {g : MemoryGraph F} (hg : IndexCovers g) (s t : NodeId) (w : F)
    (ty : EdgeType) : IndexCovers (g.addEdge s t w ty).1 := by
  refine ⟨nodup_addEdge hg.sound hg.1 s t w ty, ?_⟩
  have hsynced : g.syncedEdgeSet = g.triples.toFinset := by
    rw [syncedEdgeSet_eq]
    exact CountedIndex.Sound.synced_eq hg.sound
  rcases addEdge_cases g s t w ty with ⟨-, h⟩ | ⟨-, -, -, h⟩ | ⟨-, -, -, h⟩
  · rw [h]
    exact hg.2
  · rw [h, hsynced]
    exact Or.inr fun x hx => List.mem_toFinset.mpr hx
  · rw [h, hsynced]
    refine Or.inr fun x hx => ?_
    simp only [triples, GraphEdge.triple, List.map_append, List.map_cons, List.map_nil,
      List.mem_append, List.mem_singleton] at hx
    rw [Finset.mem_insert, List.mem_toFinset]
    exact hx.symm

theorem IndexCovers.pageIn (h : Host F) {g : MemoryGraph F} (hg : IndexCovers g) (swap : NoSwap g)
    {id : NodeId} (hknown : relinksKnown g (.pageIn id)) : IndexCovers (g.pageIn h id).1 := by
  refine ⟨nodup_pageIn h swap hg.1 id, ?_⟩
  rcases pageIn_drops h swap id with heq | ⟨c, hc, hdrop⟩
  · rw [heq]
    exact hg.2
  rw [hdrop.edgeSet]
  change g.edgeSet = ∅ ∨ _
  rcases hknown with hempty | hknown
  · exact Or.inl hempty
  rcases hg.2 with hempty | hsub
  · exact Or.inl hempty
  refine Or.inr fun x hx => ?_
  obtain ⟨e, he, rfl⟩ := List.mem_map.mp ((hdrop.edges.map _).subset hx)
  rcases mem_relink he with he | ⟨he, -⟩
  · exact hsub _ (List.mem_map_of_mem he)
  · exact hknown c hc e he

theorem IndexCovers.step (h : Host F) {g : MemoryGraph F} (hwf : WellFormed g) (hg : IndexCovers g)
    {op : GraphOp F} (hop : relinksKnown g op) : IndexCovers (g.step h op) := by
  have swap := hwf.noSwap
  cases op with
  | upsertNode id label content nodeType =>
    exact hg.drops (OnlyDrops.upsertNode h swap id label content nodeType)
  | addEdge s t w ty => exact hg.addEdge s t w ty
  | removeNode id => exact hg.drops (OnlyDrops.removeNode swap id)
  | enforcePaging => exact hg.drops (OnlyDrops.enforcePaging h swap)
  | pageIn id => exact hg.pageIn h swap hop
  | pruneDanglingEdges => exact hg.drops (OnlyDrops.pruneDanglingEdges g)
  | resolveAll =>
    exact resolveAll_induct (P := IndexCovers) (hg.drops ⟨rfl, List.filter_sublist⟩)
      fun _ s t w ty hg => hg.addEdge s t w ty
  | propagateFailure origin depth maxDepth =>
    obtain ⟨nodes, heq, -⟩ := propagateFrom_onlyFields (maxDepth + 1 - depth) depth origin g
    change IndexCovers (propagateFrom _ _ _ g)
    rw [heq]
    exact hg
  | propagateBeliefs threshold damping =>
    change IndexCovers (g.propagateBeliefs threshold damping).1
    unfold MemoryGraph.propagateBeliefs
    exact addEdges_induct hg (fun _ s t w ty hg => hg.addEdge s t w ty) _
  | reload =>
    change IndexCovers (g.reload.getD g)
    refine ⟨by rw [triples_reload]; exact hg.1, ?_⟩
    cases hr : g.reload with
    | none => exact hg.2
    | some g' =>
      obtain ⟨s, rfl, -, -, -, -⟩ := reload_eq_some hr
      exact Or.inl rfl
  | setMaxInMemoryNodes | setNodeState | setScoringWeights | setFailureRelevance | stampFileTrust
  | tick | nodeInDegree | nodeEigencentrality
  | withCausalAdjacency | setPendingCalls | setPendingDataRefs | setPendingAliases
  | setPendingMethods | markDataSymbol => exact hg

/-! ## The main result -/

open Runs (Throughout EachStep throughout_of_both throughout_of_step)

theorem faithful_throughout (h : Host F) {g : MemoryGraph F} (hwf : WellFormed g)
    (hnd : g.triples.Nodup) (ops : List (GraphOp F)) (hsound : Throughout (step h) SizeCheckSound g ops) :
    Throughout (step h) Faithful g ops := by
  have hinv : Throughout (step h) (fun g => WellFormed g ∧ g.triples.Nodup) g ops :=
    throughout_of_both ⟨hwf, hnd⟩
      (fun _ op hg hbefore hafter => ⟨hg.1.step h op, nodup_step h hg.1 hg.2 op hbefore hafter⟩) hsound
  exact (hinv.and hsound).imp fun _ hg => faithful_of_sound hg.2 hg.1.2

/-- The index is faithful throughout a run exactly when its size test is sound throughout, and it
is when page-ins only link edges that the index still lists. -/
theorem edge_index_faithful_iff_size_check_sound (h : Host F) (threshold : F) (cap : Nat)
    (ops : List (GraphOp F)) :
    (Throughout (step h) Faithful (new threshold cap) ops ↔
      Throughout (step h) SizeCheckSound (new threshold cap) ops) ∧
    (EachStep (step h) relinksKnown (new threshold cap) ops →
      Throughout (step h) Faithful (new threshold cap) ops) := by
  have hwf := wellFormed_new threshold cap
  have hnd : (new threshold cap).triples.Nodup := List.nodup_nil
  refine ⟨⟨?_, faithful_throughout h hwf hnd ops⟩, ?_⟩
  · intro hfaithful
    have hwfs : Throughout (step h) WellFormed (new threshold cap) ops :=
      throughout_of_both hwf (fun _ op hg _ _ => hg.step h op) hfaithful
    exact (hwfs.and hfaithful).imp fun _ hg => sound_of_faithful hg.1 hg.2
  · intro hknown
    have hinv : Throughout (step h) (fun g => WellFormed g ∧ IndexCovers g) (new threshold cap) ops :=
      throughout_of_step ⟨hwf, hnd, Or.inl rfl⟩
        (fun _ op hg hop => ⟨hg.1.step h op, hg.2.step h hg.1 hop⟩) hknown
    exact faithful_throughout h hwf hnd ops (hinv.imp fun _ hg => hg.2.sound)

/-- An edge pages out with its node and comes back by its own archive, which the index lists. -/
def roundTrip : List (GraphOp ℚ) :=
  [.upsertNode ['a'] [] [] .symbol, .upsertNode ['b'] [] [] .symbol, .addEdge ['a'] ['b'] 1 .calls,
    .setMaxInMemoryNodes 1, .enforcePaging, .setMaxInMemoryNodes 2, .pageIn ['a']]

example : ((new (1 / 5) 2).run Host.ramOnly roundTrip).edgeSet.card = 1 := by decide +kernel

theorem round_trip_keeps_the_index :
    Throughout (step Host.ramOnly) Faithful (new (1 / 5) 2) roundTrip := by
  refine (edge_index_faithful_iff_size_check_sound Host.ramOnly (1 / 5) 2 roundTrip).2
    ⟨trivial, trivial, trivial, trivial, trivial, trivial, Or.inr ?_, trivial⟩
  intro c hc e he
  have harchived : (((new (1 / 5 : ℚ) 2).run Host.ramOnly (roundTrip.take 6)).cold[['a']]?).map
      (fun c => c.edges.map (·.triple)) = some [(['a'], ['b'], .calls)] := by decide +kernel
  have hlisted : (['a'], ['b'], EdgeType.calls) ∈
      ((new (1 / 5 : ℚ) 2).run Host.ramOnly (roundTrip.take 6)).edgeSet := by decide +kernel
  have hc' : ((new (1 / 5 : ℚ) 2).run Host.ramOnly (roundTrip.take 6)).cold[['a']]? = some c := hc
  rw [hc', Option.map_some, Option.some.injEq] at harchived
  have hmem := List.mem_map_of_mem (f := GraphEdge.triple) he
  rw [show c.edges.map GraphEdge.triple = _ from harchived, List.mem_singleton] at hmem
  rw [hmem]
  exact hlisted

/-- `a → b` pages out, `c → e` is added and removed again, and the page-in of `a` brings the edge
vector back to the size of an index that still lists `c → e`. -/
def staleRun : List (GraphOp ℚ) :=
  [.upsertNode ['a'] [] [] .symbol, .upsertNode ['b'] [] [] .symbol, .upsertNode ['c'] [] [] .symbol,
    .upsertNode ['d'] [] [] .symbol, .upsertNode ['e'] [] [] .symbol,
    .addEdge ['c'] ['d'] 1 .calls, .addEdge ['a'] ['b'] 1 .calls,
    .setMaxInMemoryNodes 4, .enforcePaging,
    .addEdge ['c'] ['e'] 1 .calls, .removeNode ['e'],
    .setMaxInMemoryNodes 5, .pageIn ['a']]

theorem stale_index_admits_a_duplicate :
    ((new (1 / 5) 5).run Host.ramOnly staleRun).triples =
      [(['c'], ['d'], .calls), (['a'], ['b'], .calls)] ∧
    (((new (1 / 5) 5).run Host.ramOnly staleRun).addEdge ['a'] ['b'] 1 .calls).2 = true ∧
    ¬ Throughout (step Host.ramOnly) Faithful (new (1 / 5) 5) staleRun := by
  have htriples : ((new (1 / 5) 5).run Host.ramOnly staleRun).triples =
      [(['c'], ['d'], .calls), (['a'], ['b'], .calls)] := by decide +kernel
  have hadds : (((new (1 / 5) 5).run Host.ramOnly staleRun).addEdge ['a'] ['b'] 1 .calls).2 = true := by
    decide +kernel
  refine ⟨htriples, hadds, fun hfaithful => ?_⟩
  have hmem : (['a'], ['b'], EdgeType.calls) ∈
      ((new (1 / 5) 5).run Host.ramOnly staleRun).triples := by
    rw [htriples]
    exact List.mem_cons_of_mem _ List.mem_cons_self
  obtain ⟨e, he, heq⟩ := List.mem_map.mp hmem
  have hfinal : Faithful ((new (1 / 5) 5).run Host.ramOnly staleRun) := hfaithful.finish
  exact ((hfinal.adds ['a'] ['b'] 1 .calls).mp hadds).2.2 e he heq

end Ccos.MemoryGraph
