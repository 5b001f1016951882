import Ccos.Memory.WellFormed
import Ccos.Lib.Runs

/-!
# The structural caches

In-degrees and the dependency adjacency are cached under the number of edges, the eigenvector
centrality under the numbers of nodes and edges. A mutation that changes the edges and keeps the
numbers leaves a stale cache behind.
-/

open Std

set_option linter.unusedSectionVars false

namespace Ccos.MemoryGraph

variable {F : Type} [Scalar F]

open Scalar
open KeyedCache (Cache Coherent coherent_none coherent_fill view_read_iff_coherent fill_cases)

/-! ## What the queries promise -/

/-- Every query answers from the current graph. -/
structure CachesFresh (g : MemoryGraph F) : Prop where
  degree : ∀ id, g.nodeInDegree id =
    (g.edges.filter fun e => e.target == id && g.loadBearing e).length
  eigen : ∀ id, g.nodeEigencentrality id = (g.eigencentrality[id]?).getD (lit 0)
  adjacency : g.withCausalAdjacency = g.causalAdjacency

/-- A lookup in a table of in-degrees. -/
def degreeIn (m : BTreeMap NodeId Nat) : NodeId → Nat := fun id => (m[id]?).getD 0

/-- A lookup in a table of centralities. -/
def centralityIn (m : BTreeMap NodeId F) : NodeId → F := fun id => (m[id]?).getD (lit 0)

/-- The caches that the current numbers select hold what the graph has. -/
structure CachesCoherent (g : MemoryGraph F) : Prop where
  degree : Coherent degreeIn g.indegreeCache g.edges.length g.freshInDegree
  eigen : Coherent centralityIn g.eigencentralityCache g.eigenKey g.eigencentrality
  adjacency : Coherent id g.causalAdjCache g.edges.length g.causalAdjacency

theorem degreeIn_foldl_countAt (edges : List (GraphEdge F)) (m : BTreeMap NodeId Nat) (id : NodeId) :
    degreeIn (edges.foldl (fun m e => countAt m e.target) m) id =
      degreeIn m id + (edges.filter (·.target == id)).length := by
  induction edges generalizing m with
  | nil => rfl
  | cons e edges ih =>
    rw [List.foldl_cons, ih]
    unfold degreeIn countAt
    rw [getElem?_insert_eq]
    by_cases hid : id = e.target
    · subst hid
      simp
      omega
    · have hne : (e.target == id) = false := by simpa using Ne.symm hid
      simp [hid, hne]

/-- The fresh table counts the edges into a node between nodes that are not orphans. -/
theorem degreeIn_freshInDegree (g : MemoryGraph F) (id : NodeId) :
    degreeIn g.freshInDegree id =
      (g.edges.filter fun e => e.target == id && g.loadBearing e).length := by
  rw [freshInDegree, degreeIn_foldl_countAt, List.filter_filter]
  simp [degreeIn]

theorem cachesFresh_iff_coherent (g : MemoryGraph F) : CachesFresh g ↔ CachesCoherent g := by
  have hdegree : degreeIn (KeyedCache.read g.indegreeCache g.edges.length g.freshInDegree) =
      degreeIn g.freshInDegree ↔ ∀ id, g.nodeInDegree id =
        (g.edges.filter fun e => e.target == id && g.loadBearing e).length := by
    rw [funext_iff]
    refine forall_congr' fun id => ?_
    rw [degreeIn_freshInDegree]
    rfl
  have heigen : centralityIn (KeyedCache.read g.eigencentralityCache g.eigenKey g.eigencentrality) =
      centralityIn g.eigencentrality ↔
        ∀ id, g.nodeEigencentrality id = (g.eigencentrality[id]?).getD (lit 0) := by
    rw [funext_iff]
    rfl
  constructor
  · intro h
    exact ⟨(view_read_iff_coherent _ _ _ _).mp (hdegree.mpr h.degree),
      (view_read_iff_coherent _ _ _ _).mp (heigen.mpr h.eigen),
      (view_read_iff_coherent _ _ _ _).mp h.adjacency⟩
  · intro h
    exact ⟨hdegree.mp ((view_read_iff_coherent _ _ _ _).mpr h.degree),
      heigen.mp ((view_read_iff_coherent _ _ _ _).mpr h.eigen),
      (view_read_iff_coherent id _ _ _).mpr h.adjacency⟩

/-! ## Caches filled inside a paging step -/

/-- The in-degrees were counted when there were at least as many edges. -/
def DegreeAhead (g : MemoryGraph F) : Prop :=
  ∃ k v, g.indegreeCache = some (k, v) ∧ g.edges.length ≤ k ∧
    (k = g.edges.length → degreeIn v = degreeIn g.freshInDegree)

/-- The centralities were computed when there were at least as many nodes and edges. -/
def EigenAhead (g : MemoryGraph F) : Prop :=
  ∃ k v, g.eigencentralityCache = some (k, v) ∧ g.nodes.size ≤ k.1 ∧ g.edges.length ≤ k.2 ∧
    (k = g.eigenKey → centralityIn v = centralityIn g.eigencentrality)

theorem DegreeAhead.coherent {g : MemoryGraph F} (h : DegreeAhead g) :
    Coherent degreeIn g.indegreeCache g.edges.length g.freshInDegree := by
  obtain ⟨k, v, hcache, -, hkey⟩ := h
  intro w hw
  rw [hcache] at hw
  cases hw
  exact hkey rfl

theorem EigenAhead.coherent {g : MemoryGraph F} (h : EigenAhead g) :
    Coherent centralityIn g.eigencentralityCache g.eigenKey g.eigencentrality := by
  obtain ⟨k, v, hcache, -, -, hkey⟩ := h
  intro w hw
  rw [hcache] at hw
  cases hw
  exact hkey rfl

/-- A graph shrinks: some edges go, and some nodes with all their edges. -/
structure Shrinks (g g' : MemoryGraph F) : Prop where
  edges : g'.edges.Sublist g.edges
  size : g'.nodes.size ≤ g.nodes.size
  /-- The endpoints of the remaining edges keep their state. -/
  states : ∀ e ∈ g'.edges, g'.loadBearing e = g.loadBearing e
  nodes : g'.nodes.size = g.nodes.size → g'.nodes = g.nodes
  degreeCache : g'.indegreeCache = g.indegreeCache
  eigenCache : g'.eigencentralityCache = g.eigencentralityCache

theorem freshInDegree_congr {g g' : MemoryGraph F} (hedges : g'.edges = g.edges)
    (hstates : ∀ e ∈ g'.edges, g'.loadBearing e = g.loadBearing e) :
    g'.freshInDegree = g.freshInDegree := by
  unfold freshInDegree
  rw [List.filter_congr hstates, hedges]

theorem DegreeAhead.shrinks {g g' : MemoryGraph F} (h : DegreeAhead g) (hs : Shrinks g g') :
    DegreeAhead g' := by
  obtain ⟨k, v, hcache, hle, hkey⟩ := h
  have hlen := hs.edges.length_le
  refine ⟨k, v, hs.degreeCache.trans hcache, hlen.trans hle, ?_⟩
  intro hk
  -- The number of edges is back at the key only when no edge went.
  have hedges := hs.edges.eq_of_length (by omega)
  rw [freshInDegree_congr hedges hs.states]
  exact hkey (by rw [hk, hedges])

theorem EigenAhead.shrinks {g g' : MemoryGraph F} (h : EigenAhead g) (hs : Shrinks g g') :
    EigenAhead g' := by
  obtain ⟨k, v, hcache, hnodes, hle, hkey⟩ := h
  have hlen := hs.edges.length_le
  have hsize := hs.size
  refine ⟨k, v, hs.eigenCache.trans hcache, hsize.trans hnodes, hlen.trans hle, ?_⟩
  intro hk
  simp only [eigenKey] at hk
  have hk1 : k.1 = g'.nodes.size := by rw [hk]
  have hk2 : k.2 = g'.edges.length := by rw [hk]
  have hedges := hs.edges.eq_of_length (by omega)
  have hnodes := hs.nodes (by omega)
  have hfresh : g'.eigencentrality = g.eigencentrality := by
    simp only [eigencentrality, hedges, hnodes]
  rw [hfresh]
  refine hkey ?_
  rw [hk, eigenKey, hedges, hnodes]

theorem shrinks_demote (g : MemoryGraph F) (id : NodeId) : Shrinks g (g.demote id) := by
  by_cases hid : id ∈ g.nodes
  · have hsize : (g.demote id).nodes.size = g.nodes.size - 1 := by
      rw [demote_nodes, ExtTreeMap.size_erase, if_pos (ExtTreeMap.contains_iff_mem.mpr hid)]
    have hpos : 0 < g.nodes.size := by
      rw [Nat.pos_iff_ne_zero]
      intro hzero
      have := ExtTreeMap.eq_empty_iff_size_eq_zero.mpr hzero
      simp [this] at hid
    refine ⟨demote_edges_sublist g id, by omega, ?_, by omega, ?_, ?_⟩
    · intro e he
      rw [demote_edges hid, List.mem_filter] at he
      have hout := he.2
      simp only [GraphEdge.touches, Bool.not_eq_true', Bool.or_eq_false_iff, beq_eq_false_iff_ne] at hout
      simp only [loadBearing, isOrphan, demote_nodes, getElem?_erase_eq, hout.1, hout.2, if_false]
    · unfold demote
      split <;> rfl
    · unfold demote
      split <;> rfl
  · rw [demote_of_not_mem hid]
    exact ⟨List.Sublist.refl _, Nat.le_refl _, fun _ _ => rfl, fun _ => rfl, rfl, rfl⟩

theorem shrinks_pruneDanglingEdges (g : MemoryGraph F) : Shrinks g g.pruneDanglingEdges :=
  ⟨List.filter_sublist, Nat.le_refl _, fun _ _ => rfl, fun _ => rfl, rfl, rfl⟩

/-- The caches of a paging step: as they were, or filled on the way down. -/
structure Paged (before g : MemoryGraph F) : Prop where
  degree : g.indegreeCache = before.indegreeCache ∨ DegreeAhead g
  eigen : g.eigencentralityCache = before.eigencentralityCache ∨ EigenAhead g
  adjacency : g.causalAdjCache = before.causalAdjCache

namespace Paged

theorem of_eq {before g : MemoryGraph F} (hd : g.indegreeCache = before.indegreeCache)
    (he : g.eigencentralityCache = before.eigencentralityCache)
    (ha : g.causalAdjCache = before.causalAdjCache) : Paged before g :=
  ⟨Or.inl hd, Or.inl he, ha⟩

theorem shrinks {before g g' : MemoryGraph F} (h : Paged before g) (hs : Shrinks g g')
    (ha : g'.causalAdjCache = g.causalAdjCache) : Paged before g' where
  degree := h.degree.imp hs.degreeCache.trans fun h => h.shrinks hs
  eigen := h.eigen.imp hs.eigenCache.trans fun h => h.shrinks hs
  adjacency := ha.trans h.adjacency

theorem fillScoreCaches {before g : MemoryGraph F} (h : Paged before g) :
    Paged before g.fillScoreCaches := by
  refine ⟨?_, ?_, h.adjacency⟩
  · by_cases hmode : g.centralityOn ∧ g.scoringWeights.centralityMode = .inDegree
    · have hcache : g.fillScoreCaches.indegreeCache =
          KeyedCache.fill g.indegreeCache g.edges.length g.freshInDegree := if_pos hmode
      rcases h.degree with heq | hahead
      · rcases fill_cases g.indegreeCache g.edges.length g.freshInDegree with hf | hf
        · exact Or.inl (hcache.trans (hf.trans heq))
        · exact Or.inr ⟨_, _, hcache.trans hf, Nat.le_refl _, fun _ => rfl⟩
      · refine Or.inr ⟨_, _, hcache, Nat.le_refl _, fun _ => ?_⟩
        exact (view_read_iff_coherent _ _ _ _).mpr hahead.coherent
    · have hcache : g.fillScoreCaches.indegreeCache = g.indegreeCache := if_neg hmode
      refine h.degree.imp hcache.trans ?_
      rintro ⟨k, v, hkv, hrest⟩
      exact ⟨k, v, hcache.trans hkv, hrest⟩
  · by_cases hmode : g.centralityOn ∧ g.scoringWeights.centralityMode = .eigenvector
    · have hcache : g.fillScoreCaches.eigencentralityCache =
          KeyedCache.fill g.eigencentralityCache g.eigenKey g.eigencentrality := if_pos hmode
      rcases h.eigen with heq | hahead
      · rcases fill_cases g.eigencentralityCache g.eigenKey g.eigencentrality with hf | hf
        · exact Or.inl (hcache.trans (hf.trans heq))
        · exact Or.inr ⟨_, _, hcache.trans hf, Nat.le_refl _, Nat.le_refl _, fun _ => rfl⟩
      · refine Or.inr ⟨_, _, hcache, Nat.le_refl _, Nat.le_refl _, fun _ => ?_⟩
        exact (view_read_iff_coherent _ _ _ _).mpr hahead.coherent
    · have hcache : g.fillScoreCaches.eigencentralityCache = g.eigencentralityCache := if_neg hmode
      refine h.eigen.imp hcache.trans ?_
      rintro ⟨k, v, hkv, hrest⟩
      exact ⟨k, v, hcache.trans hkv, hrest⟩

theorem demote {before g : MemoryGraph F} (h : Paged before g) (id : NodeId) :
    Paged before (g.demote id) :=
  h.shrinks (shrinks_demote g id) (demote_frame g id).adjacency

theorem pruneDanglingEdges {before g : MemoryGraph F} (h : Paged before g) :
    Paged before g.pruneDanglingEdges :=
  h.shrinks (shrinks_pruneDanglingEdges g) rfl

theorem enforcePaging (h : Host F) {before g : MemoryGraph F} (swap : NoSwap g) (hp : Paged before g) :
    Paged before (g.enforcePaging h) :=
  enforcePaging_induct h swap (fun _ => fillScoreCaches) (fun _ id hp => hp.demote id)
    (fun _ => pruneDanglingEdges) hp

theorem upsertNode (h : Host F) {g : MemoryGraph F} (swap : NoSwap g) (id : NodeId)
    (label content : Str) (nodeType : NodeType) : Paged g (g.upsertNode h id label content nodeType) := by
  rw [upsertNode_of_noSwap h swap]
  exact enforcePaging h (swap.of_eq rfl rfl rfl rfl) (of_eq rfl rfl rfl)

theorem pageIn (h : Host F) {g : MemoryGraph F} (swap : NoSwap g) (id : NodeId) :
    Paged g (g.pageIn h id).1 := by
  rw [pageIn_of_noSwap h swap]
  split
  · exact of_eq rfl rfl rfl
  · split
    · exact of_eq rfl rfl rfl
    · rename_i c _ _
      exact (makeRoom_induct (P := Paged g) id (fun _ => fillScoreCaches)
        (fun _ v hp _ _ => hp.demote v) (g.nodes.size + 1) (g.restore id c)
        (of_eq rfl rfl rfl)).pruneDanglingEdges

end Paged

/-! ## Steps -/

/-- A step that keeps a filled cache and ends at its key ends with the table that the cache holds. -/
structure KeepsTables (h : Host F) (g : MemoryGraph F) (op : GraphOp F) : Prop where
  degree : ∀ k v, g.indegreeCache = some (k, v) → (g.step h op).indegreeCache = some (k, v) →
    k = (g.step h op).edges.length → degreeIn v = degreeIn (g.step h op).freshInDegree
  eigen : ∀ k v, g.eigencentralityCache = some (k, v) →
    (g.step h op).eigencentralityCache = some (k, v) →
    k = (g.step h op).eigenKey → centralityIn v = centralityIn (g.step h op).eigencentrality
  adjacency : ∀ k v, g.causalAdjCache = some (k, v) → (g.step h op).causalAdjCache = some (k, v) →
    k = (g.step h op).edges.length → v = (g.step h op).causalAdjacency

/-- The ids that count as structure. -/
def structuralIds (g : MemoryGraph F) : List NodeId :=
  (g.nodes.toList.filter (·.2.state != .orphan)).map (·.1)

/-- A step that keeps a filled cache and ends at its key keeps what the cache is about. -/
structure KeepsStructure (h : Host F) (g : MemoryGraph F) (op : GraphOp F) : Prop where
  degree : ∀ k v, g.indegreeCache = some (k, v) → (g.step h op).indegreeCache = some (k, v) →
    k = (g.step h op).edges.length →
    (g.step h op).edges = g.edges ∧ ∀ e ∈ g.edges, (g.step h op).loadBearing e = g.loadBearing e
  eigen : ∀ k v, g.eigencentralityCache = some (k, v) →
    (g.step h op).eigencentralityCache = some (k, v) → k = (g.step h op).eigenKey →
    (g.step h op).edges = g.edges ∧ (g.step h op).nodes.size = g.nodes.size ∧
      (g.step h op).structuralIds = g.structuralIds
  adjacency : ∀ k v, g.causalAdjCache = some (k, v) → (g.step h op).causalAdjCache = some (k, v) →
    k = (g.step h op).edges.length → (g.step h op).edges = g.edges

theorem eigencentrality_congr {g g' : MemoryGraph F} (hedges : g'.edges = g.edges)
    (hids : g'.structuralIds = g.structuralIds) : g'.eigencentrality = g.eigencentrality := by
  unfold eigencentrality
  unfold structuralIds at hids
  rw [hids, hedges]

theorem causalAdjacency_congr {g g' : MemoryGraph F} (hedges : g'.edges = g.edges) :
    g'.causalAdjacency = g.causalAdjacency := by
  simp only [causalAdjacency, hedges]

theorem KeepsStructure.keepsTables {h : Host F} {g : MemoryGraph F} {op : GraphOp F}
    (hk : KeepsStructure h g op) (hg : CachesCoherent g) : KeepsTables h g op := by
  refine ⟨?_, ?_, ?_⟩
  · intro k v hcache hcache' hkey
    obtain ⟨hedges, hstates⟩ := hk.degree k v hcache hcache' hkey
    rw [freshInDegree_congr hedges (hedges ▸ hstates)]
    rw [hedges] at hkey
    exact hg.degree v (hkey ▸ hcache)
  · intro k v hcache hcache' hkey
    obtain ⟨hedges, hsize, hids⟩ := hk.eigen k v hcache hcache' hkey
    rw [eigencentrality_congr hedges hids]
    have hsame : (g.step h op).eigenKey = g.eigenKey := by rw [eigenKey, eigenKey, hedges, hsize]
    rw [hsame] at hkey
    exact hg.eigen v (hkey ▸ hcache)
  · intro k v hcache hcache' hkey
    have hedges := hk.adjacency k v hcache hcache' hkey
    rw [causalAdjacency_congr hedges]
    rw [hedges] at hkey
    exact hg.adjacency v (hkey ▸ hcache)

/-- A step that ends off the key of every filled cache is safe. -/
theorem keepsStructure_of_moves {h : Host F} {g : MemoryGraph F} {op : GraphOp F}
    (hdegree : g.indegreeCache.map (·.1) ≠ some (g.step h op).edges.length)
    (heigen : g.eigencentralityCache.map (·.1) ≠ some (g.step h op).eigenKey)
    (hadjacency : g.causalAdjCache.map (·.1) ≠ some (g.step h op).edges.length) :
    KeepsStructure h g op := by
  refine ⟨?_, ?_, ?_⟩
  · rintro k v hcache - rfl
    exact absurd (by rw [hcache]; rfl) hdegree
  · rintro k v hcache - rfl
    exact absurd (by rw [hcache]; rfl) heigen
  · rintro k v hcache - rfl
    exact absurd (by rw [hcache]; rfl) hadjacency

theorem CachesCoherent.keepsTables {h : Host F} {g : MemoryGraph F} {op : GraphOp F}
    (hg : CachesCoherent (g.step h op)) : KeepsTables h g op := by
  refine ⟨?_, ?_, ?_⟩
  · rintro k v - hcache rfl
    exact hg.degree v hcache
  · rintro k v - hcache rfl
    exact hg.eigen v hcache
  · rintro k v - hcache rfl
    exact hg.adjacency v hcache

/-- After a paging step, a cache that it filled is right, and the condition covers the others. -/
theorem Paged.coherent {h : Host F} {g : MemoryGraph F} {op : GraphOp F} (hp : Paged g (g.step h op))
    (hk : KeepsTables h g op) : CachesCoherent (g.step h op) := by
  refine ⟨?_, ?_, ?_⟩
  · rcases hp.degree with heq | hahead
    · exact fun v hv => hk.degree _ v (heq ▸ hv) hv rfl
    · exact hahead.coherent
  · rcases hp.eigen with heq | hahead
    · exact fun v hv => hk.eigen _ v (heq ▸ hv) hv rfl
    · exact hahead.coherent
  · exact fun v hv => hk.adjacency _ v (hp.adjacency ▸ hv) hv rfl

theorem coherent_setNodeState {h : Host F} {g : MemoryGraph F} {id : NodeId} {state : NodeState}
    (hk : KeepsTables h g (.setNodeState id state)) : CachesCoherent (g.setNodeState id state) := by
  by_cases hchanged : (g.nodes[id]?).any (·.state != state)
  · -- The centrality caches are dropped, and the adjacency does not look at states.
    refine ⟨?_, ?_, fun v hv => hk.adjacency _ v hv hv rfl⟩
    · have hnone : (g.setNodeState id state).indegreeCache = none := by
        simp [setNodeState, hchanged]
      rw [hnone]
      exact coherent_none _ _ _
    · have hnone : (g.setNodeState id state).eigencentralityCache = none := by
        simp [setNodeState, hchanged]
      rw [hnone]
      exact coherent_none _ _ _
  · have hp : Paged g (g.step h (.setNodeState id state)) := by
      refine Paged.of_eq ?_ ?_ rfl
      · simp [step, setNodeState, hchanged]
      · simp [step, setNodeState, hchanged]
    exact hp.coherent hk

theorem CachesCoherent.step (h : Host F) {g : MemoryGraph F} (hwf : WellFormed g)
    (hg : CachesCoherent g) {op : GraphOp F} (hk : KeepsTables h g op) :
    CachesCoherent (g.step h op) := by
  have swap := hwf.noSwap
  have kept (hd : (g.step h op).indegreeCache = g.indegreeCache)
      (he : (g.step h op).eigencentralityCache = g.eigencentralityCache)
      (ha : (g.step h op).causalAdjCache = g.causalAdjCache) : CachesCoherent (g.step h op) :=
    (Paged.of_eq hd he ha).coherent hk
  cases op with
  | upsertNode id label content nodeType =>
    exact (Paged.upsertNode h swap id label content nodeType).coherent hk
  | enforcePaging => exact (Paged.enforcePaging h swap (Paged.of_eq rfl rfl rfl)).coherent hk
  | pageIn id => exact (Paged.pageIn h swap id).coherent hk
  | addEdge s t w ty =>
    obtain ⟨edges, edgeSet, heq⟩ := addEdge_onlyEdges g s t w ty
    have heq : g.step h (.addEdge s t w ty) = { g with edges, edgeSet } := heq
    exact kept (by rw [heq]) (by rw [heq]) (by rw [heq])
  | removeNode id =>
    have heq : g.step h (.removeNode id) = _ := removeNode_of_noSwap swap id
    exact kept (by rw [heq]; rfl) (by rw [heq]; rfl) (by rw [heq]; rfl)
  | resolveAll =>
    obtain ⟨edges, edgeSet, heq⟩ := resolveAll_onlyEdges g
    have heq : g.step h .resolveAll = { g with edges, edgeSet } := heq
    exact kept (by rw [heq]) (by rw [heq]) (by rw [heq])
  | propagateFailure origin depth maxDepth =>
    obtain ⟨nodes, heq, -⟩ := propagateFrom_onlyFields (maxDepth + 1 - depth) depth origin g
    have heq : g.step h (.propagateFailure origin depth maxDepth) = { g with nodes } := heq
    exact kept (by rw [heq]) (by rw [heq]) (by rw [heq])
  | propagateBeliefs threshold damping =>
    obtain ⟨edges, edgeSet, heq⟩ := propagateBeliefs_onlyEdges g threshold damping
    have heq : g.step h (.propagateBeliefs threshold damping) = { g with edges, edgeSet } := heq
    exact kept (by rw [heq]) (by rw [heq]) (by rw [heq])
  | setNodeState id state => exact coherent_setNodeState hk
  | nodeInDegree => exact ⟨coherent_fill hg.degree, hg.eigen, hg.adjacency⟩
  | nodeEigencentrality => exact ⟨hg.degree, coherent_fill hg.eigen, hg.adjacency⟩
  | withCausalAdjacency => exact ⟨hg.degree, hg.eigen, coherent_fill hg.adjacency⟩
  | reload =>
    change CachesCoherent (g.reload.getD g)
    cases hr : g.reload with
    | none => exact hg
    | some g' =>
      obtain ⟨s, rfl, -, -, -, -⟩ := reload_eq_some hr
      exact ⟨coherent_none _ _ _, coherent_none _ _ _, coherent_none _ _ _⟩
  | setMaxInMemoryNodes | pruneDanglingEdges | setScoringWeights | setFailureRelevance
  | stampFileTrust | tick | setPendingCalls | setPendingDataRefs
  | setPendingAliases | setPendingMethods | markDataSymbol => exact kept rfl rfl rfl

/-! ## The main result -/

open Runs (Throughout EachStep throughout_of_step eachStep_of_throughout)

/-- The caches are fresh throughout a run exactly when no step keeps a cache, ends at its key and
leaves another table. A step that keeps the structure, or moves off the key, is safe. -/
theorem caches_fresh_iff_tables_kept (h : Host F) (threshold : F) (cap : Nat)
    (ops : List (GraphOp F)) :
    (Throughout (step h) CachesFresh (new threshold cap) ops ↔
      EachStep (step h) (KeepsTables h) (new threshold cap) ops) ∧
    (EachStep (step h) (KeepsStructure h) (new threshold cap) ops →
      Throughout (step h) CachesFresh (new threshold cap) ops) := by
  have hwf := wellFormed_new threshold cap
  have hstart : CachesCoherent (new threshold cap) :=
    ⟨coherent_none _ _ _, coherent_none _ _ _, coherent_none _ _ _⟩
  refine ⟨⟨?_, ?_⟩, ?_⟩
  · intro hfresh
    exact eachStep_of_throughout (fun g op _ hafter =>
      ((cachesFresh_iff_coherent (g.step h op)).mp hafter).keepsTables) hfresh
  · intro hkept
    have hinv : Throughout (step h) (fun g => WellFormed g ∧ CachesCoherent g) (new threshold cap) ops :=
      throughout_of_step ⟨hwf, hstart⟩
        (fun _ op hg hop => ⟨hg.1.step h op, hg.2.step h hg.1 hop⟩) hkept
    exact hinv.imp fun g hg => (cachesFresh_iff_coherent g).mpr hg.2
  · intro hkept
    have hinv : Throughout (step h) (fun g => WellFormed g ∧ CachesCoherent g) (new threshold cap) ops :=
      throughout_of_step ⟨hwf, hstart⟩
        (fun _ op hg hop => ⟨hg.1.step h op, hg.2.step h hg.1 (hop.keepsTables hg.2)⟩) hkept
    exact hinv.imp fun g hg => (cachesFresh_iff_coherent g).mpr hg.2

/-- Each insertion after a query moves the number of edges on. -/
def growingRun : List (GraphOp ℚ) :=
  [.upsertNode ['a'] [] [] .symbol, .upsertNode ['b'] [] [] .symbol, .addEdge ['a'] ['b'] 1 .calls,
    .nodeInDegree, .addEdge ['b'] ['a'] 1 .references]

theorem caches_fresh_in_the_growing_run :
    Throughout (step Host.ramOnly) CachesFresh (new (1 / 5) 3) growingRun := by
  refine (caches_fresh_iff_tables_kept Host.ramOnly (1 / 5) 3 growingRun).2
    ⟨keepsStructure_of_moves ?_ ?_ ?_, keepsStructure_of_moves ?_ ?_ ?_,
      keepsStructure_of_moves ?_ ?_ ?_, keepsStructure_of_moves ?_ ?_ ?_,
      keepsStructure_of_moves ?_ ?_ ?_, trivial⟩ <;> decide

/-- Between two rounds of queries `a → b` goes and `a → c` comes, over the same nodes. -/
def staleReads : List (GraphOp ℚ) :=
  [.upsertNode ['a'] [] [] .symbol, .upsertNode ['b'] [] [] .symbol, .upsertNode ['c'] [] [] .symbol,
    .addEdge ['a'] ['b'] 1 .calls, .nodeInDegree, .withCausalAdjacency,
    .removeNode ['a'], .upsertNode ['a'] [] [] .symbol, .addEdge ['a'] ['c'] 1 .calls]

theorem stale_caches_answer_from_the_old_edges :
    ((new (1 / 5) 3).run Host.ramOnly staleReads).edges.map (·.triple) = [(['a'], ['c'], .calls)] ∧
    ((new (1 / 5) 3).run Host.ramOnly staleReads).nodeInDegree ['b'] = 1 ∧
    ((new (1 / 5) 3).run Host.ramOnly staleReads).nodeInDegree ['c'] = 0 ∧
    ((new (1 / 5) 3).run Host.ramOnly staleReads).withCausalAdjacency.rev[['b']]? = some [['a']] ∧
    ¬ Throughout (step Host.ramOnly) CachesFresh (new (1 / 5) 3) staleReads := by
  have hdegree : ((new (1 / 5) 3).run Host.ramOnly staleReads).nodeInDegree ['b'] = 1 := by
    decide
  have hcount : (((new (1 / 5) 3).run Host.ramOnly staleReads).edges.filter fun e =>
      e.target == ['b'] && ((new (1 / 5) 3).run Host.ramOnly staleReads).loadBearing e).length = 0 := by
    decide
  refine ⟨by decide, hdegree, by decide, by decide, fun hfresh => ?_⟩
  have hfinal : CachesFresh ((new (1 / 5) 3).run Host.ramOnly staleReads) := hfresh.finish
  have := hfinal.degree ['b']
  omega

end Ccos.MemoryGraph
