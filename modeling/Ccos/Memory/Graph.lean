import Ccos.Memory.Types
import Ccos.Lib.SideIndexes

/-! # The memory graph and its scores -/

open Std

namespace Ccos

/-- What the graph uses from outside the modelled code. -/
structure Host (F : Type) where
  /-- The hash that names a blob. -/
  sha256 : Str → Hash
  compress : Str → List UInt8
  /-- Decompresses and decodes; `none` when either fails. -/
  decompress : List UInt8 → Option Str
  /-- The JSON text of a demoted node. -/
  printCold : ColdNode F → Str
  parseCold : Str → Option (ColdNode F)
  /-- The lossy compaction of a content, by the `Debug` name of the node's type. -/
  compactContent : Str → Str → Str
  sizeOfColdNode : Nat
  sizeOfNodeId : Nat
  sizeOfGraphEdge : Nat
  sizeOfDeepHusk : Nat
  /-- The byte length of a husk in the index. -/
  huskLen : DeepHusk → Nat

/-- The directory of the spill store: compressed blobs by hash. -/
structure ColdSpill where
  dir : BTreeMap Hash (List UInt8)

structure SpillConfig where
  store : ColdSpill
  inlineBudget : Nat

structure MemoryGraph (F : Type) where
  nodes : BTreeMap NodeId (GraphNode F)
  edges : List (GraphEdge F)
  pagingThreshold : F
  maxInMemoryNodes : Nat
  clock : Nat
  scoringWeights : ScoringWeights F
  evictionPolicy : EvictionPolicy F
  cold : BTreeMap NodeId (ColdNode F)
  -- Everything below is runtime only: a snapshot does not hold it.
  spill : Option SpillConfig
  huskStore : Option (HuskStore DeepHusk)
  radj : Option (HuskStore Unit)
  coldContentBudget : Option Nat
  coldResidentBudget : Option Nat
  indegreeCache : KeyedCache.Cache Nat (BTreeMap NodeId Nat)
  eigencentralityCache : KeyedCache.Cache (Nat × Nat) (BTreeMap NodeId F)
  causalAdjCache : KeyedCache.Cache Nat (CausalAdjacency F)
  pendingCalls : BTreeMap Str (List PendingRef)
  pendingDataRefs : BTreeMap Str (List PendingRef)
  pendingAliases : BTreeMap Str (List (Str × Str))
  pendingMethods : BTreeMap Str (List (Str × Str))
  dataSymbols : BTreeMap NodeId Unit
  edgeSet : Finset Triple

namespace MemoryGraph

variable {F : Type} [Scalar F]

open Scalar

def new (pagingThreshold : F) (maxInMemoryNodes : Nat) : MemoryGraph F where
  nodes := ∅
  edges := []
  pagingThreshold := pagingThreshold
  maxInMemoryNodes := maxInMemoryNodes
  clock := 0
  scoringWeights := ScoringWeights.default
  evictionPolicy := EvictionPolicy.new
  cold := ∅
  spill := none
  huskStore := none
  radj := none
  coldContentBudget := none
  coldResidentBudget := none
  indegreeCache := none
  eigencentralityCache := none
  causalAdjCache := none
  pendingCalls := ∅
  pendingDataRefs := ∅
  pendingAliases := ∅
  pendingMethods := ∅
  dataSymbols := ∅
  edgeSet := ∅

def nodeCount (g : MemoryGraph F) : Nat := g.nodes.size

/-- The resident ids in sorted order. -/
def ids (g : MemoryGraph F) : List NodeId := g.nodes.keys

def hasEnds (g : MemoryGraph F) (e : GraphEdge F) : Bool :=
  g.nodes.contains e.source && g.nodes.contains e.target

def danglingEdgeCount (g : MemoryGraph F) : Nat := (g.edges.filter (!g.hasEnds ·)).length

def pruneDanglingEdges (g : MemoryGraph F) : MemoryGraph F :=
  { g with edges := g.edges.filter g.hasEnds }

/-- `f64` fields of every resident node decay, with a floor. -/
def tick (g : MemoryGraph F) : MemoryGraph F :=
  { g with
    clock := g.clock + 1
    nodes := g.nodes.map fun _ n =>
      let recency := n.recency * lit 0.95
      { n with recency := if lt recency (lit 0.01) then lit 0.01 else recency } }

def setScoringWeights (g : MemoryGraph F) (weights : ScoringWeights F) : MemoryGraph F :=
  { g with scoringWeights := weights }

def setFailureRelevance (g : MemoryGraph F) (id : NodeId) (relevance : F) : MemoryGraph F :=
  { g with nodes := g.nodes.modify id fun n =>
      { n with failureRelevance := clamp01 relevance, recency := lit 1, lastAccessed := g.clock } }

def nodeTrust (g : MemoryGraph F) (id : NodeId) : F := (g.nodes[id]?.map (·.trust)).getD (lit 1)

/-- The ids one source file owns: its file node, modules, imports and symbols. -/
def ownedBy (filePath : Str) (id : NodeId) : Bool :=
  id == "file:".toList ++ filePath || startsWith (scopedId "mod:".toList filePath []) id
    || startsWith (scopedId "use:".toList filePath []) id
    || startsWith (scopedId "sym:".toList filePath []) id

def stampFileTrust (g : MemoryGraph F) (filePath : Str) (trust : F) : MemoryGraph F :=
  { g with nodes := g.nodes.map fun id n =>
      if ownedBy filePath id then { n with trust := clamp01 trust } else n }

/-! ## Structural caches -/

def isOrphan (g : MemoryGraph F) (id : NodeId) : Bool :=
  match g.nodes[id]? with
  | some n => n.state == .orphan
  | none => false

/-- An edge between two nodes that count as structure. -/
def loadBearing (g : MemoryGraph F) (e : GraphEdge F) : Bool :=
  !g.isOrphan e.source && !g.isOrphan e.target

def freshInDegree (g : MemoryGraph F) : BTreeMap NodeId Nat :=
  (g.edges.filter g.loadBearing).foldl (fun m e => countAt m e.target) ∅

def nodeInDegree (g : MemoryGraph F) (id : NodeId) : Nat :=
  ((KeyedCache.read g.indegreeCache g.edges.length g.freshInDegree)[id]?).getD 0

def fillInDegree (g : MemoryGraph F) : MemoryGraph F :=
  { g with indegreeCache := KeyedCache.fill g.indegreeCache g.edges.length g.freshInDegree }

/-- One round of the power iteration. -/
def eigenStep (base : F) (edges : List (Nat × Nat)) (outdeg : List Nat) (x : List F) : List F :=
  edges.foldl
    (fun next (s, t) =>
      next.modify t (· + lit 0.85 * x.getD s (lit 0) / ofNat (outdeg.getD s 0)))
    (List.replicate x.length base)

/-- Damped power iteration over the sorted ids that are not orphans. -/
def eigencentrality (g : MemoryGraph F) : BTreeMap NodeId F :=
  let ids := (g.nodes.toList.filter (·.2.state != .orphan)).map (·.1)
  let n := ids.length
  if n = 0 then ∅
  else
    let pairs := g.edges.filterMap fun e =>
      match ids.idxOf? e.source, ids.idxOf? e.target with
      | some s, some t => some (s, t)
      | _, _ => none
    let outdeg := (List.range n).map fun i => (pairs.filter (·.1 == i)).length
    let edges := sortBy compare pairs
    let base := (lit 1 - lit 0.85) / (ofNat n : F)
    let x := (eigenStep base edges outdeg)^[64] (List.replicate n (lit 1 / ofNat n))
    let top := x.foldl Scalar.max (lit 0)
    let inv := if gt top (lit 0) then lit 1 / top else lit 1
    ExtTreeMap.ofList (ids.zip (x.map (· * inv)))

def eigenKey (g : MemoryGraph F) : Nat × Nat := (g.nodes.size, g.edges.length)

def nodeEigencentrality (g : MemoryGraph F) (id : NodeId) : F :=
  ((KeyedCache.read g.eigencentralityCache g.eigenKey g.eigencentrality)[id]?).getD (lit 0)

def fillEigencentrality (g : MemoryGraph F) : MemoryGraph F :=
  { g with eigencentralityCache :=
      KeyedCache.fill g.eigencentralityCache g.eigenKey g.eigencentrality }

def causalAdjacency (g : MemoryGraph F) : CausalAdjacency F :=
  let deps := g.edges.filter (isDependencyEdge ·.edgeType)
  let fwd : BTreeMap NodeId (List (NodeId × F)) :=
    deps.foldl (fun m e => pushAt m e.source (e.target, e.weight)) ∅
  let rev : BTreeMap NodeId (List NodeId) := deps.foldl (fun m e => pushAt m e.target e.source) ∅
  { fwd := fwd.map fun _ v => sortBy (fun a b => compare a.1 b.1) v
    rev := rev.map fun _ v => sortBy compare v }

/-- The adjacency that `with_causal_adjacency` hands to its callback. -/
def withCausalAdjacency (g : MemoryGraph F) : CausalAdjacency F :=
  KeyedCache.read g.causalAdjCache g.edges.length g.causalAdjacency

def fillCausalAdjacency (g : MemoryGraph F) : MemoryGraph F :=
  { g with causalAdjCache := KeyedCache.fill g.causalAdjCache g.edges.length g.causalAdjacency }

/-- The centrality caches are dropped when the state of a resident node changes. -/
def setNodeState (g : MemoryGraph F) (id : NodeId) (state : NodeState) : MemoryGraph F :=
  let changed := (g.nodes[id]?).any (·.state != state)
  { g with
    nodes := g.nodes.modify id fun n => { n with state }
    indegreeCache := if changed then none else g.indegreeCache
    eigencentralityCache := if changed then none else g.eigencentralityCache }

/-! ## The causal score -/

def centralityOn (g : MemoryGraph F) : Bool := !eq g.scoringWeights.wCentrality (lit 0)

def stateBias : NodeState → F
  | .stable => lit 0
  | .working => lit 0.3
  | .orphan => lit (-1)

def computeNodeScore (g : MemoryGraph F) (node : GraphNode F) : F :=
  let w := g.scoringWeights
  let base := node.baseImportance * w.wBase
  let failure := node.failureRelevance * w.wFailure
  let recency := node.recency * w.wRecency
  let access := ln (ofNat (Nat.max node.accessCount 1)) * w.wAccess
  let centrality :=
    if g.centralityOn then
      (match w.centralityMode with
        | .inDegree => ln (lit 1 + ofNat (g.nodeInDegree node.id))
        | .eigenvector => g.nodeEigencentrality node.id) * w.wCentrality
    else lit 0
  let distrust := if eq w.wTrust (lit 0) then lit 0 else (lit 1 - clamp01 node.trust) * w.wTrust
  clamp01 (base + failure + recency + access + centrality + stateBias node.state - distrust)

/-- The caches that scoring a node fills. -/
def fillScoreCaches (g : MemoryGraph F) : MemoryGraph F :=
  { g with
    indegreeCache :=
      if g.centralityOn ∧ g.scoringWeights.centralityMode = .inDegree then
        KeyedCache.fill g.indegreeCache g.edges.length g.freshInDegree
      else g.indegreeCache
    eigencentralityCache :=
      if g.centralityOn ∧ g.scoringWeights.centralityMode = .eigenvector then
        KeyedCache.fill g.eigencentralityCache g.eigenKey g.eigencentrality
      else g.eigencentralityCache }

/-- `a.1.partial_cmp(&b.1).unwrap_or(Equal).then_with(|| a.0.cmp(b.0))`. -/
def scoreThenId (a b : NodeId × F) : Ordering :=
  ((partialCmp a.2 b.2).getD .eq).then (compare a.1 b.1)

/-- Candidates coldest first, and the graph with the caches that scoring them leaves. -/
def rank (g : MemoryGraph F) (candidates : List (NodeId × GraphNode F)) :
    List NodeId × MemoryGraph F :=
  if candidates.isEmpty then ([], g)
  else
    ((sortBy scoreThenId (candidates.map fun (id, n) => (id, g.computeNodeScore n))).map (·.1),
      g.fillScoreCaches)

end MemoryGraph

end Ccos
