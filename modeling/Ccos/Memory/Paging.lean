import Ccos.Memory.Cold

/-! # Nodes, edges and paging -/

open Std

namespace Ccos.MemoryGraph

variable {F : Type} [Scalar F]

open Scalar

/-- `u64::saturating_add(1)`. -/
def saturatingSucc (n : Nat) : Nat := min (n + 1) (2 ^ 64 - 1)

/-! ## Demotion -/

/-- Moves a resident node to the COLD tier with the edges incident to it. -/
def demote (g : MemoryGraph F) (id : NodeId) : MemoryGraph F :=
  match g.nodes[id]? with
  | none => g
  | some node =>
    let incident := g.edges.filter (·.touches id)
    { g with
      nodes := g.nodes.erase id
      edges := g.edges.filter (!·.touches id)
      cold := g.cold.insert id
        { node, edges := incident, spill := none, compacted := false, atFloor := false }
      radj := radjAdd g.radj id (incident.map (·.other id)) }

/-- The place of a node in the order of access, most recent first. -/
def recencyRank (g : MemoryGraph F) (id : NodeId) : Nat :=
  let byRecency := sortBy
    (fun (a b : NodeId × F) => ((partialCmp b.2 a.2).getD .eq).then (compare a.1 b.1))
    (g.nodes.toList.map fun (id, n) => (id, n.recency))
  (byRecency.map (·.1)).idxOf id

/-- The nudge of a trained policy: its preference for keeping over evicting. -/
def evictionBias (g : MemoryGraph F) (id : NodeId) (node : GraphNode F) (base : F) : F :=
  if g.evictionPolicy.isTrained then
    let state : PagingState :=
      { score := bucketScore base
        recency := bucketRecency F (g.recencyRank id) g.nodes.size
        pressure := bucketPressure node.failureRelevance
        size := bucketSize ((byteLen node.content + byteLen node.label) / 4) }
    g.evictionPolicy.qValue state .keep - g.evictionPolicy.qValue state .evict
  else lit 0

/-- The nodes over the cap, lowest score first. -/
def evictionVictims (g : MemoryGraph F) : List NodeId :=
  let entries := g.nodes.toList.map fun (id, node) =>
    let base := g.computeNodeScore node
    (id, base + g.evictionBias id node base)
  ((sortBy scoreThenId entries).take (g.nodes.size - g.maxInMemoryNodes)).map (·.1)

def enforcePaging (h : Host F) (g : MemoryGraph F) : MemoryGraph F :=
  if g.nodes.size ≤ g.maxInMemoryNodes then g
  else
    let g := g.evictionVictims.foldl demote g.fillScoreCaches
    g.pruneDanglingEdges.enforceColdBudgets h

/-! ## Nodes and edges -/

/-- What an upsert leaves under the id. -/
def upserted (g : MemoryGraph F) (id : NodeId) (label content : Str) (nodeType : NodeType) :
    GraphNode F :=
  match g.nodes[id]? with
  | some existing =>
    { existing with
      label, content, nodeType
      recency := lit 1
      lastAccessed := g.clock
      accessCount := existing.accessCount + 1 }
  | none =>
    { id, label, content, nodeType
      baseImportance := lit 0.5
      failureRelevance := lit 0
      recency := lit 1
      accessCount := 1
      createdAt := g.clock
      lastAccessed := g.clock
      state := .stable
      trust := lit 1 }

def upsertNode (h : Host F) (g : MemoryGraph F) (id : NodeId) (label content : Str)
    (nodeType : NodeType) : MemoryGraph F :=
  let g := g.forgetColdShadow id
  enforcePaging h { g with nodes := g.nodes.insert id (g.upserted id label content nodeType) }

/-- The duplicate index, rebuilt when its size differs from the number of edges. -/
def syncedEdgeSet (g : MemoryGraph F) : Finset Triple :=
  if g.edgeSet.card ≠ g.edges.length then (g.edges.map (·.triple)).toFinset else g.edgeSet

def addEdge (g : MemoryGraph F) (source target : NodeId) (weight : F) (edgeType : EdgeType) :
    MemoryGraph F × Bool :=
  if !g.nodes.contains source || !g.nodes.contains target then (g, false)
  else if (source, target, edgeType) ∈ g.syncedEdgeSet then
    ({ g with edgeSet := g.syncedEdgeSet }, false)
  else
    let edge := { source, target, weight, edgeType, createdAt := g.clock }
    ({ g with
      edgeSet := insert (source, target, edgeType) g.syncedEdgeSet
      edges := g.edges ++ [edge] }, true)

def removeNode (g : MemoryGraph F) (id : NodeId) : MemoryGraph F :=
  let g := forgetColdShadow { g with nodes := g.nodes.erase id } id
  { g with edges := g.edges.filter (!·.touches id) }

/-! ## Page-in -/

/-- Brings a deep-spilled entry back to the COLD map. The flag is false on a cold miss. -/
def faultDeep (h : Host F) (g : MemoryGraph F) (id : NodeId) : MemoryGraph F × Bool :=
  match g.deepGet id with
  | (none, g) => (g, true)
  | (some husk, g) =>
    match (g.spillGet h husk.body.hash).bind h.parseCold with
    | none => (g, false)
    | some node =>
      let g := g.deepDelete id
      let g := { g with cold := g.cold.insert id node }
      (g.releaseBlobIfOrphan husk.body.hash, true)

/-- Brings the spilled content of a COLD entry back inline. The flag is false on a cold miss. -/
def faultContent (h : Host F) (g : MemoryGraph F) (id : NodeId) : MemoryGraph F × Bool :=
  match (g.cold[id]?).bind (·.spill) with
  | none => (g, true)
  | some s =>
    match g.spillGet h s.hash with
    | none => (g, false)
    | some text =>
      let cold := g.cold.modify id fun c =>
        { c with node := { c.node with content := text }, spill := none }
      (releaseContentBlobIfOrphan { g with cold } s.hash, true)

/-- Links the archived edges again whose two endpoints are resident and that are not there yet. -/
def relink (g : MemoryGraph F) (archived : List (GraphEdge F)) : List (GraphEdge F) :=
  archived.foldl
    (fun edges e =>
      if g.hasEnds e && !edges.any (fun x => x.triple == e.triple) then edges ++ [e] else edges)
    g.edges

/-- A page-in marks the node freshly accessed. -/
def accessed (g : MemoryGraph F) (node : GraphNode F) : GraphNode F :=
  { node with
    recency := lit 1
    lastAccessed := g.clock
    accessCount := saturatingSucc node.accessCount }

/-- Moves an entry from the COLD map to the resident graph. -/
def restore (g : MemoryGraph F) (id : NodeId) (c : ColdNode F) : MemoryGraph F :=
  let g := { g.dropCold id with nodes := g.nodes.insert id (g.accessed c.node) }
  { g with edges := g.relink c.edges, radj := radjDel g.radj id (c.edges.map (·.other id)) }

/-- `Iterator::min_by`: the first of the least. -/
def minBy {α : Type} (cmp : α → α → Ordering) : List α → Option α
  | [] => none
  | a :: rest => some (rest.foldl (fun best x => if cmp best x = .gt then x else best) a)

/-- The lowest-scored node other than `id`. One candidate is taken without scoring it. -/
def swapVictim (g : MemoryGraph F) (id : NodeId) : Option NodeId × MemoryGraph F :=
  match g.nodes.toList.filter (·.1 != id) with
  | [] => (none, g)
  | [(v, _)] => (some v, g)
  | others =>
    ((minBy scoreThenId (others.map fun (v, n) => (v, g.computeNodeScore n))).map (·.1),
      g.fillScoreCaches)

/-- While over capacity, demotes the lowest-scored other node. -/
def makeRoom (id : NodeId) : Nat → MemoryGraph F → MemoryGraph F
  | 0, g => g
  | fuel + 1, g =>
    if g.nodes.size ≤ g.maxInMemoryNodes then g
    else
      match g.swapVictim id with
      | (none, g) => g
      | (some v, g) => makeRoom id fuel (g.demote v)

def pageIn (h : Host F) (g : MemoryGraph F) (id : NodeId) : MemoryGraph F × Bool :=
  match g.faultDeep h id with
  | (g, false) => (g, false)
  | (g, true) =>
    match g.faultContent h id with
    | (g, false) => (g, false)
    | (g, true) =>
      match g.cold[id]? with
      | none => (g, false)
      | some c =>
        let g := makeRoom id (g.nodes.size + 1) (g.restore id c)
        (g.pruneDanglingEdges.enforceColdBudgets h, true)

end Ccos.MemoryGraph

/-! ## Failure pressure and beliefs -/

open Std

namespace Ccos.MemoryGraph

variable {F : Type} [Scalar F]

open Scalar

/-! ## Failure pressure -/

/-- Adds pressure to one resident node. -/
def addPressure (g : MemoryGraph F) (id : NodeId) (propagation : F) : MemoryGraph F :=
  { g with nodes := g.nodes.modify id fun n =>
      { n with
        failureRelevance := clamp01 (n.failureRelevance + propagation)
        recency := lit 1
        lastAccessed := g.clock } }

/-- The out-edges of a node, as targets with weights. -/
def outEdges (g : MemoryGraph F) (id : NodeId) : List (NodeId × F) :=
  (g.edges.filter (·.source == id)).map fun e => (e.target, e.weight)

/-- A node with more than `failure_fanout` out-edges shares its pressure among them. -/
def fanoutDamp (g : MemoryGraph F) (degree : Nat) : F :=
  let fanout := Scalar.max g.scoringWeights.failureFanout (lit 1)
  Scalar.min (fanout / Scalar.max (ofNat degree) fanout) (lit 1)

/-- The first argument counts the depths left. -/
def propagateFrom : Nat → Nat → NodeId → MemoryGraph F → MemoryGraph F
  | 0, _, _, g => g
  | left + 1, depth, origin, g =>
    let baseValue := ((g.nodes[origin]?).map (·.failureRelevance)).getD (lit 0)
    let targets := g.outEdges origin
    let decay := g.scoringWeights.failureDecay
    let damp := g.fanoutDamp targets.length
    let floor := g.pagingThreshold
    targets.foldl
      (fun g (target, weight) =>
        let propagation := baseValue * weight * powi decay depth * damp
        let g := g.addPressure target propagation
        if gt propagation floor then propagateFrom left (depth + 1) target g else g)
      g

def propagateFailure (g : MemoryGraph F) (origin : NodeId) (depth maxDepth : Nat) : MemoryGraph F :=
  propagateFrom (maxDepth + 1 - depth) depth origin g

/-! ## Beliefs -/

structure QBelief (F : Type) where
  support : F
  contradiction : F
  belief : F
  conflict : F

def beliefFromSums (support contradiction : F) : QBelief F :=
  let denom := support + contradiction + lit 1
  { support, contradiction
    belief := (support - contradiction) / denom
    conflict := lit 2 * sqrt (support * contradiction) / denom }

def evidenceSum (g : MemoryGraph F) (claim : NodeId) (polarity : EdgeType) : F :=
  (g.edges.filter fun e => e.target == claim && e.edgeType == polarity).foldl
    (fun sum e => sum + e.weight) (lit 0)

def qbelief (g : MemoryGraph F) (claim : NodeId) : QBelief F :=
  beliefFromSums (g.evidenceSum claim .supports) (g.evidenceSum claim .contradicts)

/-- A derived edge: cause, effect, polarity and weight. -/
structure Derived (F : Type) where
  source : NodeId
  target : NodeId
  supports : Bool
  weight : F

def Derived.edgeType (d : Derived F) : EdgeType := if d.supports then .supports else .contradicts

def derivedEdges (g : MemoryGraph F) (resolveThreshold damping : F) : List (Derived F) :=
  g.edges.filterMap fun e =>
    if e.edgeType != .causes || e.source == e.target then none
    else
      let belief := (g.qbelief e.source).belief
      if lt (Scalar.abs belief) resolveThreshold then none
      else some
        { source := e.source, target := e.target, supports := gt belief (lit 0)
          weight := e.weight * damping * Scalar.abs belief }

def derivedKey (d : Derived F) : NodeId × NodeId × Bool := (d.source, d.target, d.supports)

/-- One `add_edge` of a pass that counts the new edges. -/
def addCounted (acc : MemoryGraph F × Nat) (e : NodeId × NodeId × F × EdgeType) : MemoryGraph F × Nat :=
  let added := acc.1.addEdge e.1 e.2.1 e.2.2.1 e.2.2.2
  (added.1, if added.2 then acc.2 + 1 else acc.2)

def addEdges (g : MemoryGraph F) (edges : List (NodeId × NodeId × F × EdgeType)) : MemoryGraph F × Nat :=
  edges.foldl addCounted (g, 0)

def propagateBeliefs (g : MemoryGraph F) (resolveThreshold damping : F) : MemoryGraph F × Nat :=
  let candidates := g.derivedEdges (clamp01 resolveThreshold) (clamp01 damping)
  let ordered := sortBy (fun a b => compare (derivedKey a) (derivedKey b)) candidates
  let distinct := dedupBy (fun a b => derivedKey a == derivedKey b) ordered
  g.addEdges (distinct.map fun d => (d.source, d.target, d.weight, d.edgeType))

end Ccos.MemoryGraph
