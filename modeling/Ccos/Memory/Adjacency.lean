import Ccos.Memory.Swap
import Ccos.Memory.Run
import Ccos.Lib.SideIndexes
import Ccos.ColdIndex.Records

/-! # No edge dangles -/

open Std

set_option linter.unusedSectionVars false

namespace Ccos.MemoryGraph

variable {F : Type} [Scalar F]

/-- Every edge joins resident nodes. -/
def Joined (g : MemoryGraph F) : Prop := ∀ e ∈ g.edges, e.source ∈ g.nodes ∧ e.target ∈ g.nodes

/-! ## Inductions over paging -/

/-- What the COLD tier, every demotion and every prune keep, paging out keeps. -/
theorem enforcePaging_keeps (h : Host F) {P : MemoryGraph F → Prop} {g : MemoryGraph F}
    (cold : ∀ g g', ColdFrame g g' → P g → P g') (demote : ∀ g id, P g → P (g.demote id))
    (prune : ∀ g, P g → P g.pruneDanglingEdges) (start : P g) : P (g.enforcePaging h) :=
  enforcePaging_of_moves (.of_frame cold) demote prune start

theorem upsertNode_keeps (h : Host F) {P : MemoryGraph F → Prop} {g : MemoryGraph F}
    (cold : ∀ g g', ColdFrame g g' → P g → P g') (demote : ∀ g id, P g → P (g.demote id))
    (prune : ∀ g, P g → P g.pruneDanglingEdges)
    (insert : ∀ (g : MemoryGraph F) (id : NodeId) (node : GraphNode F),
      P g → P { g with nodes := g.nodes.insert id node }) (start : P g) (id : NodeId)
    (label content : Str) (nodeType : NodeType) : P (g.upsertNode h id label content nodeType) := by
  unfold upsertNode
  exact enforcePaging_keeps h cold demote prune
    (insert _ id _ (cold _ _ (g.forgetColdShadow_frame id) start))

theorem pageIn_keeps (h : Host F) {P : MemoryGraph F → Prop} {g : MemoryGraph F}
    (cold : ∀ g g', ColdFrame g g' → P g → P g') (demote : ∀ g id, P g → P (g.demote id))
    (prune : ∀ g, P g → P g.pruneDanglingEdges)
    (restore : ∀ (g : MemoryGraph F) (id : NodeId) (c : ColdNode F), P g → P (g.restore id c))
    (start : P g) (id : NodeId) : P (g.pageIn h id).1 :=
  pageIn_of_moves (.of_frame cold) demote prune (fun g id => cold g _ (faultDeep_frame h g id))
    (fun g id => cold g _ (faultContent_frame h g id)) (fun g id c hg _ => restore g id c hg) start id

namespace Joined

/-- A step that keeps the ids and adds no edge. -/
theorem of_ids {g g' : MemoryGraph F} (hg : Joined g) (hnodes : ∀ id, id ∈ g'.nodes ↔ id ∈ g.nodes)
    (hedges : ∀ e ∈ g'.edges, ∃ e' ∈ g.edges, e.source = e'.source ∧ e.target = e'.target) :
    Joined g' := by
  intro e he
  obtain ⟨e', he', hs, ht⟩ := hedges e he
  rw [hs, ht, hnodes, hnodes]
  exact hg e' he'

theorem of_edges_subset {g g' : MemoryGraph F} (hg : Joined g) (hnodes : g'.nodes = g.nodes)
    (hedges : g'.edges ⊆ g.edges) : Joined g' :=
  hg.of_ids (by simp [hnodes]) fun e he => ⟨e, hedges he, rfl, rfl⟩

theorem coldFrame {g g' : MemoryGraph F} (hframe : ColdFrame g g') (hg : Joined g) : Joined g' :=
  hg.of_edges_subset hframe.nodes (hframe.edges ▸ List.Subset.refl _)

/-- A node leaves with the edges that touch it. -/
theorem eraseNode {g : MemoryGraph F} (hg : Joined g) (id : NodeId) :
    Joined { g with nodes := g.nodes.erase id, edges := g.edges.filter (!·.touches id) } := by
  intro e he
  obtain ⟨hmem, hout⟩ := List.mem_filter.mp he
  simp only [GraphEdge.touches, Bool.not_eq_true', Bool.or_eq_false_iff, beq_eq_false_iff_ne] at hout
  have := hg e hmem
  exact ⟨mem_erase_iff.mpr ⟨hout.1, this.1⟩, mem_erase_iff.mpr ⟨hout.2, this.2⟩⟩

theorem demote {g : MemoryGraph F} (hg : Joined g) (id : NodeId) : Joined (g.demote id) := by
  by_cases hid : id ∈ g.nodes
  · obtain ⟨v, hv⟩ := exists_getElem?_of_mem hid
    have := hg.eraseNode id
    simp only [MemoryGraph.demote, hv]
    exact this
  · rw [demote_of_not_mem hid]
    exact hg

theorem pruneDanglingEdges {g : MemoryGraph F} (hg : Joined g) : Joined g.pruneDanglingEdges :=
  hg.of_edges_subset rfl List.filter_sublist.subset

theorem insertNode {g : MemoryGraph F} (hg : Joined g) (id : NodeId) (node : GraphNode F) :
    Joined { g with nodes := g.nodes.insert id node } := by
  intro e he
  have := hg e he
  exact ⟨mem_insert_iff.mpr (Or.inr this.1), mem_insert_iff.mpr (Or.inr this.2)⟩

theorem enforcePaging (h : Host F) {g : MemoryGraph F} (hg : Joined g) : Joined (g.enforcePaging h) :=
  enforcePaging_keeps h (fun _ _ => coldFrame) (fun _ id hg => hg.demote id)
    (fun _ hg => hg.pruneDanglingEdges) hg

theorem upsertNode (h : Host F) {g : MemoryGraph F} (hg : Joined g) (id : NodeId)
    (label content : Str) (nodeType : NodeType) : Joined (g.upsertNode h id label content nodeType) :=
  upsertNode_keeps h (fun _ _ => coldFrame) (fun _ id hg => hg.demote id)
    (fun _ hg => hg.pruneDanglingEdges) (fun _ id node hg => hg.insertNode id node) hg id label content
    nodeType

theorem removeNode {g : MemoryGraph F} (hg : Joined g) (id : NodeId) : Joined (g.removeNode id) := by
  have hframe := forgetColdShadow_frame { g with nodes := g.nodes.erase id } id
  unfold MemoryGraph.removeNode
  obtain ⟨_, _, _, _, _, _, heq⟩ := hframe
  rw [heq]
  exact hg.eraseNode id

end Joined

/-! ## Page-in -/

/-- A page-in links an edge again only when both endpoints are resident. -/
theorem mem_relink {g : MemoryGraph F} {archived : List (GraphEdge F)} {e : GraphEdge F}
    (he : e ∈ g.relink archived) : e ∈ g.edges ∨ (e ∈ archived ∧ g.hasEnds e) := by
  unfold relink at he
  have key : ∀ (archived edges : List (GraphEdge F)),
      e ∈ archived.foldl (fun edges e =>
        if g.hasEnds e && !edges.any (fun x => x.triple == e.triple) then edges ++ [e] else edges) edges →
      e ∈ edges ∨ (e ∈ archived ∧ g.hasEnds e) := by
    intro archived
    induction archived with
    | nil => exact fun _ h => Or.inl h
    | cons a archived ih =>
      intro edges h
      rw [List.foldl_cons] at h
      rcases ih _ h with h | h
      · split at h
        · rename_i hcond
          rcases List.mem_append.mp h with h | h
          · exact Or.inl h
          · rw [List.mem_singleton] at h
            subst h
            simp only [Bool.and_eq_true] at hcond
            exact Or.inr ⟨List.mem_cons_self, hcond.1⟩
        · exact Or.inl h
      · exact Or.inr ⟨List.mem_cons_of_mem _ h.1, h.2⟩
  exact key archived g.edges he

namespace Joined

theorem restore {g : MemoryGraph F} (hg : Joined g) (id : NodeId) (c : ColdNode F) :
    Joined (g.restore id c) := by
  intro e he
  rcases mem_relink he with he | ⟨-, hends⟩
  · exact hg.insertNode id (g.accessed c.node) e he
  · simp only [hasEnds, Bool.and_eq_true, ExtTreeMap.contains_iff_mem] at hends
    exact hends

theorem pageIn (h : Host F) {g : MemoryGraph F} (hg : Joined g) (id : NodeId) :
    Joined (g.pageIn h id).1 :=
  pageIn_keeps h (fun _ _ => coldFrame) (fun _ id hg => hg.demote id)
    (fun _ hg => hg.pruneDanglingEdges) (fun _ id c hg => hg.restore id c) hg id

/-! ## Edges -/

theorem addEdge {g : MemoryGraph F} (hg : Joined g) (s t : NodeId) (w : F) (ty : EdgeType) :
    Joined (g.addEdge s t w ty).1 := by
  unfold MemoryGraph.addEdge
  split
  · exact hg
  · rename_i hends
    simp only [Bool.or_eq_true, Bool.not_eq_true', not_or, Bool.not_eq_false,
      ExtTreeMap.contains_iff_mem] at hends
    split
    · exact hg
    · intro e he
      rcases List.mem_append.mp he with he | he
      · exact hg e he
      · rw [List.mem_singleton] at he
        subst he
        exact hends

theorem addEdges {g : MemoryGraph F} (hg : Joined g) (edges : List (NodeId × NodeId × F × EdgeType)) :
    Joined (g.addEdges edges).1 :=
  List.foldlRecOn edges addCounted (motive := fun acc => Joined acc.1) hg
    fun _ hacc _ _ => hacc.addEdge _ _ _ _

theorem resolveAll {g : MemoryGraph F} (hg : Joined g) : Joined g.resolveAll.1 := by
  have hpruned : Joined g.pruneResolutionEdges := hg.of_edges_subset rfl List.filter_sublist.subset
  rw [resolveAll_fst]
  exact ((hpruned.addEdges _).addEdges _).addEdges _

/-! ## Node fields -/

/-- A step that only edits fields of resident nodes. -/
theorem editNodes {g : MemoryGraph F} (hg : Joined g) {nodes : BTreeMap NodeId (GraphNode F)}
    (h : ∀ id, id ∈ nodes ↔ id ∈ g.nodes) : Joined { g with nodes } :=
  hg.of_ids h fun e he => ⟨e, he, rfl, rfl⟩

theorem onlyFields {g g' : MemoryGraph F} (hg : Joined g) (h : OnlyFields g g') : Joined g' := by
  have hids := h.mem_nodes
  obtain ⟨nodes, rfl, -⟩ := h
  exact hg.editNodes hids

end Joined

/-! ## Reload -/

theorem mem_reparseMap {β : Type} {reparse : β → Option β} {m m' : BTreeMap NodeId β}
    (h : reparseMap reparse m = some m') (id : NodeId) : id ∈ m' ↔ id ∈ m := by
  unfold reparseMap at h
  split at h
  · cases h
    exact ExtTreeMap.mem_map
  · cases h

theorem mapM_reparse_ends {edges edges' : List (GraphEdge F)}
    (h : edges.mapM GraphEdge.reparse = some edges') :
    edges'.map (·.triple) = edges.map (·.triple) := by
  induction edges generalizing edges' with
  | nil => simp at h; simp [h]
  | cons e edges ih =>
    simp only [List.mapM_cons, Option.bind_eq_bind, Option.bind_eq_some_iff, Option.pure_def,
      Option.some.injEq] at h
    obtain ⟨e', he, rest, hrest, rfl⟩ := h
    have htriple : e'.triple = e.triple := by
      simp only [GraphEdge.reparse, Option.bind_eq_bind, Option.bind_eq_some_iff,
        Option.some.injEq] at he
      obtain ⟨w, -, rfl⟩ := he
      rfl
    simp [ih hrest, htriple]

theorem reload_eq_some {g g' : MemoryGraph F} (h : g.reload = some g') :
    ∃ s, g' = ofSnapshot s ∧ (∀ id, id ∈ s.nodes ↔ id ∈ g.nodes) ∧
      s.edges.map (·.triple) = g.edges.map (·.triple) ∧ (∀ id, id ∈ s.cold ↔ id ∈ g.cold) ∧
      s.maxInMemoryNodes = g.maxInMemoryNodes := by
  simp only [reload, Option.map_eq_some_iff, GraphSnapshot.reparse, Option.bind_eq_bind,
    Option.bind_eq_some_iff, Option.some.injEq] at h
  obtain ⟨s, ⟨nodes, hn, edges, he, -, -, -, -, -, -, cold, hc, rfl⟩, rfl⟩ := h
  exact ⟨_, rfl, mem_reparseMap hn, mapM_reparse_ends he, mem_reparseMap hc, rfl⟩

theorem Joined.reload {g : MemoryGraph F} (hg : Joined g) : Joined (g.reload.getD g) := by
  cases hr : g.reload with
  | none => exact hg
  | some g' =>
    obtain ⟨s, rfl, hnodes, hedges, -, -⟩ := reload_eq_some hr
    refine hg.of_ids hnodes ?_
    intro e he
    have hmem : e.triple ∈ g.edges.map (·.triple) := hedges ▸ List.mem_map_of_mem he
    obtain ⟨e', he', heq⟩ := List.mem_map.mp hmem
    simp only [GraphEdge.triple, Prod.mk.injEq] at heq
    exact ⟨e', he', heq.1.symm, heq.2.1.symm⟩

/-! ## Runs -/

theorem Joined.step (h : Host F) {g : MemoryGraph F} (hg : Joined g) (op : GraphOp F) :
    Joined (g.step h op) := by
  cases op with
  | upsertNode id label content nodeType => exact hg.upsertNode h id label content nodeType
  | addEdge s t w ty => exact hg.addEdge s t w ty
  | removeNode id => exact hg.removeNode id
  | enforcePaging => exact hg.enforcePaging h
  | pageIn id => exact hg.pageIn h id
  | pruneDanglingEdges => exact hg.pruneDanglingEdges
  | resolveAll => exact hg.resolveAll
  | propagateFailure origin depth maxDepth => exact hg.onlyFields (propagateFrom_onlyFields _ _ _ g)
  | propagateBeliefs threshold damping =>
    change Joined (g.propagateBeliefs threshold damping).1
    unfold MemoryGraph.propagateBeliefs
    exact hg.addEdges _
  | setNodeState id state => exact hg.editNodes fun _ => ExtTreeMap.mem_modify
  | setFailureRelevance id relevance => exact hg.editNodes fun _ => ExtTreeMap.mem_modify
  | stampFileTrust filePath trust => exact hg.editNodes fun _ => ExtTreeMap.mem_map
  | tick => exact hg.editNodes fun _ => ExtTreeMap.mem_map
  | reload => exact hg.reload
  | setMaxInMemoryNodes | setScoringWeights | nodeInDegree | nodeEigencentrality
  | withCausalAdjacency | setPendingCalls | setPendingDataRefs | setPendingAliases
  | setPendingMethods | markDataSymbol => exact hg

end Ccos.MemoryGraph

/-!
## The reverse adjacency and the shelves

The COLD tier files every archived link with the node that was demoted first, in a full entry or in a
husk. The reverse adjacency lists the same links from both sides, as keys of a store.
-/

open Std MirrorIndex

set_option linter.unusedSectionVars false

namespace Ccos

/-- An id without the separator of the keys. -/
def Plain (id : NodeId) : Prop := '\x1f' ∉ id

instance (id : NodeId) : Decidable (Plain id) := inferInstanceAs (Decidable ('\x1f' ∉ id))

namespace MemoryGraph

variable {F : Type} [Scalar F]

/-! ## The keys of the reverse adjacency -/

/-- A key of two plain ids has one separator, so it splits in one way. -/
theorem radjKey_eq {a b p q : NodeId} (ha : Plain a) (hb : Plain b) (h : radjKey a b = radjKey p q) :
    a = p ∧ b = q := by
  have hcount := congrArg (List.count '\x1f') h
  have hca := List.count_eq_zero.mpr ha
  have hcb := List.count_eq_zero.mpr hb
  simp only [radjKey, List.count_append, List.count_cons_self, hca, hcb] at hcount
  have hp : Plain p := List.count_eq_zero.mp (by omega)
  exact append_sep_inj ha hp h

/-- The store lists the index, a key for each pair. -/
structure Lists (r : HuskStore Unit) (index : NodeId → NodeId → Prop) : Prop where
  plain : ∀ a b, index a b → Plain a ∧ Plain b
  keys : ∃ keys, HuskStore.Holds r keys ∧ ∀ k, k ∈ keys ↔ ∃ a b, index a b ∧ k = radjKey a b

theorem lists_new (bufferLimit cacheCap : Nat) :
    Lists (HuskStore.new bufferLimit cacheCap) fun _ _ => False where
  plain _ _ h := h.elim
  keys := ⟨∅, HuskStore.holds_new bufferLimit cacheCap, fun k => by simp [ExtTreeMap.not_mem_empty]⟩

theorem Lists.congr {r : HuskStore Unit} {index index' : NodeId → NodeId → Prop} (h : Lists r index)
    (hsame : ∀ a b, index' a b ↔ index a b) : Lists r index' := by
  have heq : index' = index := funext fun a => funext fun b => propext (hsame a b)
  exact heq ▸ h

theorem Lists.putPair {r : HuskStore Unit} {index : NodeId → NodeId → Prop} (h : Lists r index)
    {x o : NodeId} (hx : Plain x) (ho : Plain o) :
    Lists ((r.put (radjKey x o) ()).put (radjKey o x) ()) (link index x [o]) := by
  obtain ⟨keys, hholds, hkeys⟩ := h.keys
  refine ⟨?_, _, (hholds.put _ ()).put _ (), fun k => ?_⟩
  · rintro a b (hab | ⟨rfl, hb⟩ | ⟨rfl, ha⟩)
    · exact h.plain a b hab
    · exact ⟨hx, List.mem_singleton.mp hb ▸ ho⟩
    · exact ⟨List.mem_singleton.mp ha ▸ ho, hx⟩
  · rw [mem_insert_iff, mem_insert_iff, hkeys]
    constructor
    · rintro (rfl | rfl | ⟨a, b, hab, rfl⟩)
      · exact ⟨o, x, Or.inr (Or.inr ⟨rfl, List.mem_singleton_self o⟩), rfl⟩
      · exact ⟨x, o, Or.inr (Or.inl ⟨rfl, List.mem_singleton_self o⟩), rfl⟩
      · exact ⟨a, b, Or.inl hab, rfl⟩
    · rintro ⟨a, b, hab | ⟨rfl, hb⟩ | ⟨rfl, ha⟩, rfl⟩
      · exact Or.inr (Or.inr ⟨a, b, hab, rfl⟩)
      · exact Or.inr (Or.inl (by rw [List.mem_singleton.mp hb]))
      · exact Or.inl (by rw [List.mem_singleton.mp ha])

theorem Lists.deletePair {r : HuskStore Unit} {index : NodeId → NodeId → Prop} (h : Lists r index)
    (x o : NodeId) : Lists ((r.delete (radjKey x o)).delete (radjKey o x)) (unlink index x [o]) := by
  obtain ⟨keys, hholds, hkeys⟩ := h.keys
  refine ⟨fun a b hab => h.plain a b hab.1, _, (hholds.delete _).delete _, fun k => ?_⟩
  rw [mem_erase_iff, mem_erase_iff, hkeys]
  simp only [unlink, List.mem_singleton]
  constructor
  · rintro ⟨hne, hne', a, b, hab, rfl⟩
    refine ⟨a, b, ⟨hab, ?_, ?_⟩, rfl⟩
    · rintro ⟨rfl, rfl⟩
      exact hne' rfl
    · rintro ⟨rfl, rfl⟩
      exact hne rfl
  · rintro ⟨a, b, ⟨hab, hout, hin⟩, rfl⟩
    obtain ⟨ha, hb⟩ := h.plain a b hab
    refine ⟨fun heq => ?_, fun heq => ?_, a, b, hab, rfl⟩
    · obtain ⟨rfl, rfl⟩ := radjKey_eq ha hb heq
      exact hin ⟨rfl, rfl⟩
    · obtain ⟨rfl, rfl⟩ := radjKey_eq ha hb heq
      exact hout ⟨rfl, rfl⟩

theorem Lists.radjAdd {r : HuskStore Unit} {index : NodeId → NodeId → Prop} (h : Lists r index)
    {x : NodeId} {row : List NodeId} (hx : Plain x) (hrow : ∀ o ∈ row, Plain o) :
    ∃ r', radjAdd (some r) x row = some r' ∧ Lists r' (link index x row) := by
  refine ⟨_, rfl, ?_⟩
  induction row generalizing r index with
  | nil => exact h.congr fun a b => by simp [link]
  | cons o row ih =>
    have hnext := ih (h.putPair hx (hrow o List.mem_cons_self)) fun o' ho' =>
      hrow o' (List.mem_cons_of_mem _ ho')
    refine hnext.congr fun a b => ?_
    simp only [link, List.mem_cons, List.not_mem_nil, or_false]
    tauto

theorem Lists.radjDel {r : HuskStore Unit} {index : NodeId → NodeId → Prop} (h : Lists r index)
    (x : NodeId) (row : List NodeId) :
    ∃ r', radjDel (some r) x row = some r' ∧ Lists r' (unlink index x row) := by
  refine ⟨_, rfl, ?_⟩
  induction row generalizing r index with
  | nil => exact h.congr fun a b => by simp [unlink]
  | cons o row ih =>
    refine (ih (h.deletePair x o)).congr fun a b => ?_
    simp only [unlink, List.mem_cons, List.not_mem_nil, or_false]
    tauto

/-- A prefix scan answers with the points that the index links to `id`. -/
theorem Lists.mem_scan {r : HuskStore Unit} {index : NodeId → NodeId → Prop} (h : Lists r index)
    (id other : NodeId) :
    (∃ kv ∈ r.scanPrefix (radjKey id []), kv.1.drop (radjKey id []).length = other) ↔ index id other := by
  obtain ⟨keys, hholds, hkeys⟩ := h.keys
  have hmem : ∀ kv : Str × Unit, kv ∈ r.scanPrefix (radjKey id []) ↔
      kv.1 ∈ keys ∧ ∃ rest, kv.1 = radjKey id rest := by
    rintro ⟨k, u⟩
    rw [hholds.scanPrefix, List.mem_filter, ExtTreeMap.mem_toList_iff_getElem?_eq_some, startsWith,
      List.isPrefixOf_iff_prefix]
    have hpre : radjKey id [] <+: k ↔ ∃ rest, k = radjKey id rest := by
      simp only [List.IsPrefix, radjKey, List.append_assoc, List.cons_append, List.nil_append, eq_comm]
    rw [hpre, ExtTreeMap.mem_iff_isSome_getElem?]
    refine and_congr_left fun _ => ?_
    cases keys[k]? <;> simp
  have hdrop : ∀ rest, (radjKey id rest).drop (radjKey id []).length = rest := by
    intro rest
    have hsplit : radjKey id rest = radjKey id [] ++ rest := by simp [radjKey]
    rw [hsplit, List.drop_left]
  constructor
  · rintro ⟨⟨k, u⟩, hkv, rfl⟩
    obtain ⟨hk, rest, hrest⟩ := (hmem _).mp hkv
    obtain ⟨a, b, hab, hkey⟩ := (hkeys k).mp hk
    obtain ⟨ha, hb⟩ := h.plain a b hab
    obtain ⟨rfl, rfl⟩ := radjKey_eq ha hb (hkey.symm.trans hrest)
    dsimp only
    rw [hkey, hdrop]
    exact hab
  · intro hab
    exact ⟨(radjKey id other, ()), (hmem _).mpr ⟨(hkeys _).mpr ⟨id, other, hab, rfl⟩, other, rfl⟩, hdrop other⟩

end MemoryGraph

end Ccos
