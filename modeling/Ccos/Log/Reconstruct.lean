import Ccos.Log.EventLog
import Ccos.Memory.EdgeIndex
import Ccos.Query.Walk
import Ccos.Lib.StableSort

/-!
# Recording a graph and rebuilding it

A graph is recorded as one event for each node, in id order, and one for each edge, sorted by source and
target. A reconstructor replays these events into an empty graph that never pages.
-/

open Std

set_option linter.unusedSectionVars false

namespace Ccos

variable {F : Type} [Scalar F]

open Scalar

/-! ## Recording -/

namespace EventLog

def edgeOrder (a b : GraphEdge F) : Ordering := (compare a.source b.source).then (compare a.target b.target)

def nodeUpsert (x : NodeId × GraphNode F) : EventPayload F := .nodeUpserted x.1 x.2.label x.2.content x.2.nodeType

def edgeAddition (e : GraphEdge F) : EventPayload F := .edgeAdded e.source e.target e.weight e.edgeType

def recordGraph (t : LogTools F) (log : EventLog F) (g : MemoryGraph F) : EventLog F :=
  let log := g.nodes.toList.foldl (fun log x => log.append t .graphMutation (nodeUpsert x)) log
  (sortBy edgeOrder g.edges).foldl (fun log e => log.append t .graphMutation (edgeAddition e)) log

end EventLog

/-! ## Rebuilding -/

structure GraphReconstructor (F : Type) where
  graph : MemoryGraph F
  nodesBuilt : Nat
  edgesBuilt : Nat

namespace GraphReconstructor

/-- `usize::MAX`. -/
def usizeMax : Nat := 2 ^ 64 - 1

def new : GraphReconstructor F := { graph := MemoryGraph.new (lit 0) usizeMax, nodesBuilt := 0, edgesBuilt := 0 }

/-- It reports no error for any event. -/
def handlePayload (h : Host F) (r : GraphReconstructor F) : EventPayload F → GraphReconstructor F
  | .nodeUpserted id label content nodeType =>
    { r with graph := r.graph.upsertNode h id label content nodeType, nodesBuilt := r.nodesBuilt + 1 }
  | .edgeAdded source target weight edgeType =>
    let added := r.graph.addEdge source target weight edgeType
    { r with graph := added.1, edgesBuilt := if added.2 then r.edgesBuilt + 1 else r.edgesBuilt }
  | _ => r

/-- `replay_deterministic` with a reconstructor as the handler. -/
def replay (h : Host F) (log : EventLog F) : GraphReconstructor F :=
  log.foldl (fun r event => r.handlePayload h event.payload) new

end GraphReconstructor

/-! ## What a record holds -/

/-- What an event says of a node. -/
structure NodeFacts where
  label : Str
  content : Str
  nodeType : NodeType
  deriving DecidableEq

/-- What an event says of an edge. -/
structure Link (F : Type) where
  source : NodeId
  target : NodeId
  weight : F
  edgeType : EdgeType
  deriving DecidableEq

def GraphNode.facts (n : GraphNode F) : NodeFacts := ⟨n.label, n.content, n.nodeType⟩

def GraphEdge.link (e : GraphEdge F) : Link F := ⟨e.source, e.target, e.weight, e.edgeType⟩

def Link.ends (l : Link F) : NodeId × NodeId := (l.source, l.target)

def Link.triple (l : Link F) : Triple := (l.source, l.target, l.edgeType)

def Link.payload (l : Link F) : EventPayload F := .edgeAdded l.source l.target l.weight l.edgeType

def nodePayload (x : NodeId × NodeFacts) : EventPayload F := .nodeUpserted x.1 x.2.label x.2.content x.2.nodeType

namespace MemoryGraph

def nodeFacts (g : MemoryGraph F) : BTreeMap NodeId NodeFacts := g.nodes.map fun _ n => n.facts

def links (g : MemoryGraph F) : List (Link F) := g.edges.map GraphEdge.link

/-- The payloads of a record. -/
def payloads (g : MemoryGraph F) : List (EventPayload F) :=
  g.nodeFacts.toList.map nodePayload ++
    (sortBy (fun a b => compare (Link.ends a) (Link.ends b)) g.links).map Link.payload

/-- The same nodes and the same set of edges. -/
structure SameContents (g g' : MemoryGraph F) : Prop where
  nodes : g.nodeFacts = g'.nodeFacts
  edges : ∀ l, l ∈ g.links ↔ l ∈ g'.links

end MemoryGraph

open MemoryGraph

theorem sorted_links (g : MemoryGraph F) : (sortBy EventLog.edgeOrder g.edges).map GraphEdge.link =
    sortBy (fun a b => compare (Link.ends a) (Link.ends b)) g.links :=
  List.map_insertionSort _ _ GraphEdge.link g.edges fun _ _ _ _ => Iff.rfl

/-- The log after a list of mutations. -/
def appendAll (t : LogTools F) (log : EventLog F) (ps : List (EventPayload F)) : EventLog F :=
  ps.foldl (fun log p => log.append t .graphMutation p) log

theorem payloads_appendAll (t : LogTools F) (log : EventLog F) (ps : List (EventPayload F)) :
    (appendAll t log ps).map (·.payload) = log.map (·.payload) ++ ps := by
  unfold appendAll
  induction ps generalizing log with
  | nil => exact (List.append_nil _).symm
  | cons p ps ih =>
    rw [List.foldl_cons, ih, EventLog.append]
    simp

theorem recordGraph_eq (t : LogTools F) (log : EventLog F) (g : MemoryGraph F) :
    EventLog.recordGraph t log g = appendAll t log g.payloads := by
  unfold EventLog.recordGraph appendAll payloads nodeFacts
  rw [List.foldl_append, ← sorted_links, ExtTreeMap.toList_map]
  simp only [List.foldl_map]
  rfl

theorem replay_recordGraph (h : Host F) (t : LogTools F) (g : MemoryGraph F) :
    GraphReconstructor.replay h (EventLog.recordGraph t [] g) =
      g.payloads.foldl (GraphReconstructor.handlePayload h) GraphReconstructor.new := by
  have hpayloads := payloads_appendAll t [] g.payloads
  rw [List.map_nil, List.nil_append] at hpayloads
  unfold GraphReconstructor.replay
  rw [recordGraph_eq]
  conv_rhs => rw [← hpayloads, List.foldl_map]

/-! ## The nodes come back -/

/-- What the typed graph promises: no edge dangles, no edge is there twice, and the nodes can be counted. -/
structure Recordable (g : MemoryGraph F) : Prop where
  ends : ∀ e ∈ g.edges, e.source ∈ g.nodes ∧ e.target ∈ g.nodes
  distinct : g.triples.Nodup
  counted : g.nodes.size ≤ GraphReconstructor.usizeMax

/-- A graph under reconstruction that holds some nodes of `g` and no edge. -/
structure HoldsNodes (g : MemoryGraph F) (done : List NodeId) (r : MemoryGraph F) : Prop where
  nodes : ∀ id : NodeId, (r.nodes[id]?).map GraphNode.facts = if id ∈ done then g.nodeFacts[id]? else none
  edges : r.edges = []
  index : r.edgeSet = ∅
  noSwap : NoSwap r
  cap : r.maxInMemoryNodes = GraphReconstructor.usizeMax

theorem HoldsNodes.subset {g r : MemoryGraph F} {done : List NodeId} (h : HoldsNodes g done r) {id : NodeId}
    (hid : id ∈ r.nodes) : id ∈ g.nodes := by
  have hfacts := h.nodes id
  rw [ExtTreeMap.mem_iff_isSome_getElem?] at hid ⊢
  obtain ⟨n, hn⟩ := Option.isSome_iff_exists.mp hid
  rw [hn, Option.map_some] at hfacts
  split at hfacts
  · unfold nodeFacts at hfacts
    rw [ExtTreeMap.getElem?_map] at hfacts
    have hsome := congrArg Option.isSome hfacts
    rw [Option.isSome_map, Option.isSome_some] at hsome
    exact hsome.symm
  · exact absurd hfacts (Option.some_ne_none _)

/-- Fewer keys, fewer entries. -/
theorem size_le_of_keys {V W : Type} {m : BTreeMap NodeId V} {m' : BTreeMap NodeId W}
    (h : ∀ id, id ∈ m → id ∈ m') : m.size ≤ m'.size := by
  rw [← ExtTreeMap.length_keys, ← ExtTreeMap.length_keys]
  refine (List.subperm_of_subset ExtTreeMap.nodup_keys fun id hid => ?_).length_le
  exact ExtTreeMap.mem_keys.mpr (h id (ExtTreeMap.mem_keys.mp hid))

theorem facts_upserted (r : MemoryGraph F) (id : NodeId) (label content : Str) (nodeType : NodeType) :
    (r.upserted id label content nodeType).facts = ⟨label, content, nodeType⟩ := by
  unfold upserted
  split <;> rfl

theorem HoldsNodes.upsert (h : Host F) {g r : MemoryGraph F} {done : List NodeId} (hr : HoldsNodes g done r)
    (hg : Recordable g) {id : NodeId} {facts : NodeFacts} (hid : g.nodeFacts[id]? = some facts) :
    HoldsNodes g (id :: done) (r.upsertNode h id facts.label facts.content facts.nodeType) := by
  have hin : HoldsNodes g (id :: done) { r.dropCold id with
      nodes := r.nodes.insert id (r.upserted id facts.label facts.content facts.nodeType) } := by
    refine ⟨fun k => ?_, hr.edges, hr.index, hr.noSwap.of_eq rfl rfl rfl rfl, hr.cap⟩
    change (((r.nodes.insert id (r.upserted id facts.label facts.content facts.nodeType))[k]?).map _) = _
    rw [getElem?_insert_eq]
    by_cases hk : k = id
    · subst hk
      rw [if_pos rfl, if_pos List.mem_cons_self, Option.map_some, facts_upserted, hid]
    · rw [if_neg hk, hr.nodes k]
      simp [hk]
  rw [upsertNode_of_noSwap h hr.noSwap, enforcePaging_of_noSwap h hin.noSwap, if_pos]
  · exact hin
  · rw [hin.cap]
    exact (size_le_of_keys fun k hk => hin.subset hk).trans hg.counted

theorem foldl_nodes (h : Host F) {g : MemoryGraph F} (hg : Recordable g) (xs : List (NodeId × NodeFacts))
    (hxs : ∀ x ∈ xs, g.nodeFacts[x.1]? = some x.2) {done : List NodeId} {r : GraphReconstructor F}
    (hr : HoldsNodes g done r.graph) :
    HoldsNodes g ((xs.map (·.1)).reverse ++ done) ((xs.map nodePayload).foldl (GraphReconstructor.handlePayload h) r).graph := by
  induction xs generalizing done r with
  | nil => exact hr
  | cons x xs ih =>
    have hstep := hr.upsert h hg (hxs x List.mem_cons_self)
    rw [List.map_cons, List.map_cons, List.foldl_cons, List.reverse_cons, List.append_assoc, List.singleton_append]
    exact ih (fun y hy => hxs y (List.mem_cons_of_mem _ hy)) hstep

theorem holdsNodes_new (g : MemoryGraph F) : HoldsNodes g [] (GraphReconstructor.new : GraphReconstructor F).graph where
  nodes id := by simp [GraphReconstructor.new, MemoryGraph.new]
  edges := rfl
  index := rfl
  noSwap := ⟨rfl, rfl, rfl, rfl⟩
  cap := rfl

theorem foldl_all_nodes (h : Host F) {g : MemoryGraph F} (hg : Recordable g) :
    HoldsNodes g g.nodeFacts.keys
      ((g.nodeFacts.toList.map nodePayload).foldl (GraphReconstructor.handlePayload h) GraphReconstructor.new).graph := by
  have hfold := foldl_nodes h hg g.nodeFacts.toList (fun x hx => ExtTreeMap.mem_toList_iff_getElem?_eq_some.mp hx)
    (holdsNodes_new g)
  rw [ExtTreeMap.map_fst_toList_eq_keys, List.append_nil] at hfold
  exact ⟨fun id => by rw [hfold.nodes id]; simp, hfold.edges, hfold.index, hfold.noSwap, hfold.cap⟩

/-! ## The edges come back -/

theorem triples_eq (g : MemoryGraph F) : g.triples = g.links.map Link.triple := by
  unfold triples links
  rw [List.map_map]
  rfl

theorem handlePayload_adds (h : Host F) {r : GraphReconstructor F} {l : Link F}
    (hends : l.source ∈ r.graph.nodes ∧ l.target ∈ r.graph.nodes) (hsound : SizeCheckSound r.graph)
    (hnew : l.triple ∉ r.graph.triples) :
    (r.handlePayload h l.payload).graph.links = r.graph.links ++ [l] ∧
      (r.handlePayload h l.payload).graph.nodes = r.graph.nodes ∧ SizeCheckSound (r.handlePayload h l.payload).graph := by
  refine ⟨?_, ?_, sizeCheckSound_addEdge hsound l.source l.target l.weight l.edgeType⟩
  all_goals
    unfold Link.payload GraphReconstructor.handlePayload
    rcases addEdge_cases r.graph l.source l.target l.weight l.edgeType with
      ⟨hout, -⟩ | ⟨-, -, hin, -⟩ | ⟨-, -, -, hadd⟩
  · exact (hout.elim (· hends.1) (· hends.2)).elim
  · rw [syncedEdgeSet_eq, CountedIndex.Sound.synced_eq hsound, List.mem_toFinset] at hin
    exact absurd hin hnew
  · simp [hadd, links, GraphEdge.link]
  · exact (hout.elim (· hends.1) (· hends.2)).elim
  · rw [syncedEdgeSet_eq, CountedIndex.Sound.synced_eq hsound, List.mem_toFinset] at hin
    exact absurd hin hnew
  · simp [hadd]

theorem foldl_edges (h : Host F) (ls : List (Link F)) {r : GraphReconstructor F}
    (hends : ∀ l ∈ ls, l.source ∈ r.graph.nodes ∧ l.target ∈ r.graph.nodes) (hsound : SizeCheckSound r.graph)
    (hnodup : ((r.graph.links ++ ls).map Link.triple).Nodup) :
    ((ls.map Link.payload).foldl (GraphReconstructor.handlePayload h) r).graph.links = r.graph.links ++ ls ∧
      ((ls.map Link.payload).foldl (GraphReconstructor.handlePayload h) r).graph.nodes = r.graph.nodes := by
  induction ls generalizing r with
  | nil => exact ⟨(List.append_nil _).symm, rfl⟩
  | cons l ls ih =>
    have hnew : l.triple ∉ r.graph.triples := by
      rw [List.map_append, List.map_cons] at hnodup
      rw [triples_eq]
      intro hin
      exact (List.nodup_append.mp hnodup).2.2 _ hin _ List.mem_cons_self rfl
    obtain ⟨hlinks, hnodes, hsound'⟩ := handlePayload_adds h (hends l List.mem_cons_self) hsound hnew
    rw [List.map_cons, List.foldl_cons]
    obtain ⟨hedges, hsame⟩ := ih (r := r.handlePayload h l.payload)
      (fun k hk => by rw [hnodes]; exact hends k (List.mem_cons_of_mem _ hk)) hsound'
      (by rwa [hlinks, List.append_assoc, List.singleton_append])
    exact ⟨by rw [hedges, hlinks, List.append_assoc, List.singleton_append], hsame.trans hnodes⟩

/-- Replaying a record gives the recorded graph back. -/
theorem rebuilt_sameContents (h : Host F) (t : LogTools F) {g : MemoryGraph F} (hg : Recordable g) :
    SameContents (GraphReconstructor.replay h (EventLog.recordGraph t [] g)).graph g := by
  have hnodes := foldl_all_nodes h hg
  rw [replay_recordGraph]
  unfold payloads
  rw [List.foldl_append]
  generalize (g.nodeFacts.toList.map nodePayload).foldl (GraphReconstructor.handlePayload h)
    GraphReconstructor.new = r at hnodes ⊢
  have hfacts : r.graph.nodeFacts = g.nodeFacts := by
    refine ExtTreeMap.ext_getElem? fun id => ?_
    have hid := hnodes.nodes id
    unfold nodeFacts at hid ⊢
    rw [ExtTreeMap.getElem?_map, hid]
    by_cases hk : id ∈ g.nodes
    · rw [if_pos (by rw [ExtTreeMap.mem_keys]; exact ExtTreeMap.mem_map.mpr hk)]
    · rw [ExtTreeMap.getElem?_map, ExtTreeMap.getElem?_eq_none hk, Option.map_none, ite_self]
  have hmem : ∀ id : NodeId, id ∈ r.graph.nodes ↔ id ∈ g.nodes := by
    intro id
    have hid := congrArg (id ∈ ·) hfacts
    unfold nodeFacts at hid
    simpa using hid
  have hperm := perm_sortBy (fun a b => compare (Link.ends a) (Link.ends b)) g.links
  have hempty : r.graph.links = [] := by
    unfold links
    rw [hnodes.edges, List.map_nil]
  obtain ⟨hlinks, hsame⟩ := foldl_edges h (sortBy (fun a b => compare (Link.ends a) (Link.ends b)) g.links) (r := r)
    (fun l hl => by
      obtain ⟨e, he, rfl⟩ := List.mem_map.mp (hperm.mem_iff.mp hl)
      exact ⟨(hmem _).mpr (hg.ends e he).1, (hmem _).mpr (hg.ends e he).2⟩)
    (by
      unfold SizeCheckSound
      rw [hnodes.index]
      exact CountedIndex.sound_empty _)
    (by
      rw [hempty, List.nil_append, (hperm.map _).nodup_iff, ← triples_eq]
      exact hg.distinct)
  refine ⟨?_, fun l => ?_⟩
  · rw [← hfacts]
    unfold nodeFacts
    rw [hsame]
  · rw [hlinks, hempty, List.nil_append]
    exact hperm.mem_iff

/-! ## Two orders of the same edges -/

theorem Link.payload_injective : Function.Injective (Link.payload (F := F)) := by
  rintro ⟨s, t, w, ty⟩ ⟨s', t', w', ty'⟩ h
  unfold Link.payload at h
  obtain ⟨rfl, rfl, rfl, rfl⟩ := EventPayload.edgeAdded.inj h
  rfl

/-- The edges of each source and target come in the same order. -/
def SameParallelOrder (g g' : MemoryGraph F) : Prop :=
  ∀ ends : NodeId × NodeId, keyed Link.ends ends g.links = keyed Link.ends ends g'.links

theorem payloads_eq_iff {g g' : MemoryGraph F} (hnodes : g.nodeFacts = g'.nodeFacts) :
    g.payloads = g'.payloads ↔ SameParallelOrder g g' := by
  unfold payloads SameParallelOrder
  rw [hnodes, List.append_cancel_left_eq, List.map_inj_right (fun _ _ h => Link.payload_injective h), sortBy_eq_iff]

/-- A record rebuilds its graph, and two graphs of one structure are recorded alike as long as their parallel edges
come in the same order: the sort leaves them as they are. -/
theorem record_faithful_iff (h : Host F) (t : LogTools F) {g g' : MemoryGraph F} (hg : Recordable g)
    (hg' : Recordable g') (hsame : SameContents g g') :
    SameContents (GraphReconstructor.replay h (EventLog.recordGraph t [] g)).graph g ∧
      SameContents (GraphReconstructor.replay h (EventLog.recordGraph t [] g')).graph g' ∧
      (((EventLog.recordGraph t [] g).map (·.payload) = (EventLog.recordGraph t [] g').map (·.payload) ∧
        (EventLog.recordGraph t [] g).chainHead = (EventLog.recordGraph t [] g').chainHead) ↔
          SameParallelOrder g g') := by
  refine ⟨rebuilt_sameContents h t hg, rebuilt_sameContents h t hg', ?_⟩
  rw [recordGraph_eq, recordGraph_eq, payloads_appendAll, payloads_appendAll, List.map_nil, List.nil_append,
    List.nil_append, ← payloads_eq_iff hsame.nodes]
  constructor
  · exact fun hboth => hboth.1
  · intro hpayloads
    rw [hpayloads]
    exact ⟨rfl, rfl⟩

def callThenUse : MemoryGraph ℚ :=
  ofEdges ["a".toList, "b".toList]
    [("a".toList, "b".toList, .calls), ("a".toList, "b".toList, .dependsOn), ("b".toList, "a".toList, .causes)]

def causeFirst : MemoryGraph ℚ :=
  ofEdges ["a".toList, "b".toList]
    [("b".toList, "a".toList, .causes), ("a".toList, "b".toList, .calls), ("a".toList, "b".toList, .dependsOn)]

def useThenCall : MemoryGraph ℚ :=
  ofEdges ["a".toList, "b".toList]
    [("a".toList, "b".toList, .dependsOn), ("a".toList, "b".toList, .calls), ("b".toList, "a".toList, .causes)]

theorem recordable_of_decide {g : MemoryGraph ℚ} (h : (∀ e ∈ g.edges, e.source ∈ g.nodes ∧ e.target ∈ g.nodes) ∧
    g.triples.Nodup ∧ g.nodes.size ≤ GraphReconstructor.usizeMax) : Recordable g :=
  ⟨h.1, h.2.1, h.2.2⟩

theorem sameContents_of_perm {ids : List Str} {edges edges' : List (Str × Str × EdgeType)} (h : edges.Perm edges') :
    SameContents (ofEdges ids edges) (ofEdges ids edges') where
  nodes := rfl
  edges l := by
    unfold links ofEdges
    exact ((h.map _).map _).mem_iff

/-- Tools whose JSON only tells a call from the rest. -/
def callTools : LogTools ℚ where
  sha256 := id
  payloadJson
    | .edgeAdded _ _ _ .calls => ['c']
    | _ => []

theorem sameParallelOrder_when_moved : SameParallelOrder callThenUse causeFirst := by
  intro ends
  change keyed Link.ends ends [(⟨['a'], ['b'], 1, .calls⟩ : Link ℚ), ⟨['a'], ['b'], 1, .dependsOn⟩,
    ⟨['b'], ['a'], 1, .causes⟩] = keyed Link.ends ends [(⟨['b'], ['a'], 1, .causes⟩ : Link ℚ),
      ⟨['a'], ['b'], 1, .calls⟩, ⟨['a'], ['b'], 1, .dependsOn⟩]
  by_cases hab : ((['a'], ['b']) : NodeId × NodeId) = ends
  · subst hab
    rfl
  · by_cases hba : ((['b'], ['a']) : NodeId × NodeId) = ends
    · subst hba
      rfl
    · simp [keyed_cons, Link.ends, hab, hba]

theorem record_faithful_when_moved :
    (EventLog.recordGraph callTools [] callThenUse).chainHead = (EventLog.recordGraph callTools [] causeFirst).chainHead :=
  ((record_faithful_iff Host.ramOnly callTools (recordable_of_decide (by decide))
    (recordable_of_decide (by decide)) (sameContents_of_perm (by decide))).2.2.mpr
      sameParallelOrder_when_moved).2

/-- The same nodes and edges, with a call and a use between two nodes in either order. -/
theorem parallel_edges_record_differently :
    Recordable callThenUse ∧ Recordable useThenCall ∧ SameContents callThenUse useThenCall ∧
      (EventLog.recordGraph callTools [] callThenUse).map (·.payload) ≠
        (EventLog.recordGraph callTools [] useThenCall).map (·.payload) ∧
      (EventLog.recordGraph callTools [] callThenUse).chainHead ≠
        (EventLog.recordGraph callTools [] useThenCall).chainHead :=
  ⟨recordable_of_decide (by decide), recordable_of_decide (by decide),
    sameContents_of_perm (by decide), by decide, by decide⟩

end Ccos
