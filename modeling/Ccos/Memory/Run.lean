import Ccos.Memory.Resolve

/-!
# The serialized graph

A snapshot holds the resident graph, the COLD map and the tuning. Everything else is runtime state
that a reload starts afresh.
-/

open Std

namespace Ccos

open Scalar

section Reparse

variable {F : Type} [Scalar F]

/-- Reads every value of a map back; `none` when one of them does not read back. -/
def reparseMap {β : Type} (reparse : β → Option β) (m : BTreeMap NodeId β) : Option (BTreeMap NodeId β) :=
  if m.toList.all fun (_, v) => (reparse v).isSome then some (m.map fun _ v => (reparse v).getD v)
  else none

/-- A weight that is left out of the JSON when it is zero. -/
def reparseElided (x : F) : Option F := if eq x (lit 0) then some (lit 0) else reparse x

/-- Full trust is left out of the JSON. -/
def reparseTrust (x : F) : Option F := if ge x (lit 1) then some (lit 1) else reparse x

def GraphNode.reparse (n : GraphNode F) : Option (GraphNode F) := do
  let baseImportance ← Scalar.reparse n.baseImportance
  let failureRelevance ← Scalar.reparse n.failureRelevance
  let recency ← Scalar.reparse n.recency
  let trust ← reparseTrust n.trust
  some { n with baseImportance, failureRelevance, recency, trust }

def GraphEdge.reparse (e : GraphEdge F) : Option (GraphEdge F) := do
  let weight ← Scalar.reparse e.weight
  some { e with weight }

def ColdNode.reparse (c : ColdNode F) : Option (ColdNode F) := do
  let node ← c.node.reparse
  let edges ← c.edges.mapM GraphEdge.reparse
  some { c with node, edges }

def ScoringWeights.reparse (w : ScoringWeights F) : Option (ScoringWeights F) := do
  let wBase ← Scalar.reparse w.wBase
  let wFailure ← Scalar.reparse w.wFailure
  let wRecency ← Scalar.reparse w.wRecency
  let wAccess ← Scalar.reparse w.wAccess
  let wCentrality ← reparseElided w.wCentrality
  let wTrust ← reparseElided w.wTrust
  let failureDecay ← Scalar.reparse w.failureDecay
  let failureFanout ← Scalar.reparse w.failureFanout
  some { w with wBase, wFailure, wRecency, wAccess, wCentrality, wTrust, failureDecay, failureFanout }

/-- The keys of a learned table are tuples, which JSON has no form for: a trained policy does not
serialize. -/
def EvictionPolicy.reparse (p : EvictionPolicy F) : Option (EvictionPolicy F) := do
  let alpha ← Scalar.reparse p.alpha
  let gamma ← Scalar.reparse p.gamma
  if p.isTrained then none else some { p with alpha, gamma }

end Reparse

/-- The serialized fields of the graph, nodes and COLD entries in key order. -/
structure GraphSnapshot (F : Type) where
  nodes : BTreeMap NodeId (GraphNode F)
  edges : List (GraphEdge F)
  pagingThreshold : F
  maxInMemoryNodes : Nat
  clock : Nat
  scoringWeights : ScoringWeights F
  evictionPolicy : EvictionPolicy F
  cold : BTreeMap NodeId (ColdNode F)

/-- What JSON gives back for a snapshot. -/
def GraphSnapshot.reparse {F : Type} [Scalar F] (s : GraphSnapshot F) : Option (GraphSnapshot F) := do
  let nodes ← reparseMap GraphNode.reparse s.nodes
  let edges ← s.edges.mapM GraphEdge.reparse
  let pagingThreshold ← Scalar.reparse s.pagingThreshold
  let scoringWeights ← s.scoringWeights.reparse
  let evictionPolicy ← s.evictionPolicy.reparse
  let cold ← reparseMap ColdNode.reparse s.cold
  some { s with nodes, edges, pagingThreshold, scoringWeights, evictionPolicy, cold }

namespace MemoryGraph

variable {F : Type} [Scalar F]

omit [Scalar F] in
def snapshot (g : MemoryGraph F) : GraphSnapshot F where
  nodes := g.nodes
  edges := g.edges
  pagingThreshold := g.pagingThreshold
  maxInMemoryNodes := g.maxInMemoryNodes
  clock := g.clock
  scoringWeights := g.scoringWeights
  evictionPolicy := g.evictionPolicy
  cold := g.cold

/-- The graph that a snapshot starts. -/
def ofSnapshot (s : GraphSnapshot F) : MemoryGraph F :=
  { new s.pagingThreshold s.maxInMemoryNodes with
    nodes := s.nodes
    edges := s.edges
    clock := s.clock
    scoringWeights := s.scoringWeights
    evictionPolicy := s.evictionPolicy
    cold := s.cold }

/-- Serializes and deserializes. -/
def reload (g : MemoryGraph F) : Option (MemoryGraph F) := g.snapshot.reparse.map ofSnapshot

end MemoryGraph

end Ccos

/-! ## Runs of the graph -/

open Std

namespace Ccos

/-- The public operations of a graph without a swap file, queries that fill a cache included. -/
inductive GraphOp (F : Type)
  | upsertNode (id : NodeId) (label content : Str) (nodeType : NodeType)
  | addEdge (source target : NodeId) (weight : F) (edgeType : EdgeType)
  | removeNode (id : NodeId)
  | setMaxInMemoryNodes (cap : Nat)
  | enforcePaging
  | pageIn (id : NodeId)
  | pruneDanglingEdges
  | resolveAll
  | propagateFailure (origin : NodeId) (depth maxDepth : Nat)
  | propagateBeliefs (resolveThreshold damping : F)
  | setNodeState (id : NodeId) (state : NodeState)
  | setScoringWeights (weights : ScoringWeights F)
  | setFailureRelevance (id : NodeId) (relevance : F)
  | stampFileTrust (filePath : Str) (trust : F)
  | tick
  | nodeInDegree
  | nodeEigencentrality
  | withCausalAdjacency
  | setPendingCalls (file : Str) (calls : List PendingRef)
  | setPendingDataRefs (file : Str) (refs : List PendingRef)
  | setPendingAliases (file : Str) (aliases : List (Str × Str))
  | setPendingMethods (file : Str) (methods : List (Str × Str))
  | markDataSymbol (id : NodeId)
  /-- A serialization round trip; a graph that does not read back stays. -/
  | reload

namespace MemoryGraph

variable {F : Type} [Scalar F]

def step (h : Host F) (g : MemoryGraph F) : GraphOp F → MemoryGraph F
  | .upsertNode id label content nodeType => g.upsertNode h id label content nodeType
  | .addEdge s t w ty => (g.addEdge s t w ty).1
  | .removeNode id => g.removeNode id
  | .setMaxInMemoryNodes cap => { g with maxInMemoryNodes := cap }
  | .enforcePaging => g.enforcePaging h
  | .pageIn id => (g.pageIn h id).1
  | .pruneDanglingEdges => g.pruneDanglingEdges
  | .resolveAll => g.resolveAll.1
  | .propagateFailure origin depth maxDepth => g.propagateFailure origin depth maxDepth
  | .propagateBeliefs threshold damping => (g.propagateBeliefs threshold damping).1
  | .setNodeState id state => g.setNodeState id state
  | .setScoringWeights weights => g.setScoringWeights weights
  | .setFailureRelevance id relevance => g.setFailureRelevance id relevance
  | .stampFileTrust filePath trust => g.stampFileTrust filePath trust
  | .tick => g.tick
  | .nodeInDegree => g.fillInDegree
  | .nodeEigencentrality => g.fillEigencentrality
  | .withCausalAdjacency => g.fillCausalAdjacency
  | .setPendingCalls file calls => g.setPendingCalls file calls
  | .setPendingDataRefs file refs => g.setPendingDataRefs file refs
  | .setPendingAliases file aliases => g.setPendingAliases file aliases
  | .setPendingMethods file methods => g.setPendingMethods file methods
  | .markDataSymbol id => g.markDataSymbol id
  | .reload => g.reload.getD g

def run (h : Host F) (g : MemoryGraph F) (ops : List (GraphOp F)) : MemoryGraph F :=
  ops.foldl (step h) g

@[simp] theorem run_nil (h : Host F) (g : MemoryGraph F) : g.run h [] = g := rfl

@[simp] theorem run_cons (h : Host F) (g : MemoryGraph F) (op : GraphOp F) (ops : List (GraphOp F)) :
    g.run h (op :: ops) = (g.step h op).run h ops := rfl

theorem run_append (h : Host F) (g : MemoryGraph F) (ops later : List (GraphOp F)) :
    g.run h (ops ++ later) = (g.run h ops).run h later :=
  List.foldl_append

end MemoryGraph

/-- A host for concrete runs without a swap file, which never ask for a blob. -/
def Host.ramOnly : Host ℚ where
  sha256 := id
  compress _ := []
  decompress _ := none
  printCold c := c.node.id
  parseCold _ := none
  compactContent _ content := content
  sizeOfColdNode := 240
  sizeOfNodeId := 24
  sizeOfGraphEdge := 72
  sizeOfDeepHusk := 64
  huskLen husk := byteLen husk.body.hash

end Ccos

/-! ## Runs with a swap file -/

open Std

namespace Ccos

/-- The public operations of a graph that may have a swap file. Every attach is on fresh directories. -/
inductive SwapOp (F : Type)
  | graph (op : GraphOp F)
  | attachColdSpill (inlineBudget : Nat)
  | detachColdSpill
  | flushColdTier
  | setColdContentBudget (budget : Option Nat)
  | setColdResidentBudget (budget : Option Nat)
  | setEvictionPolicy (policy : EvictionPolicy F)
  /-- Any edit of the fields of a resident node but its id. -/
  | nodeMut (id : NodeId) (edit : GraphNode F → GraphNode F)
  /-- A read of the husk index, which its cache remembers. -/
  | isCold (id : NodeId)

namespace MemoryGraph

variable {F : Type} [Scalar F]

section Swap

omit [Scalar F]

def detachColdSpill (g : MemoryGraph F) : MemoryGraph F :=
  { g with spill := none, huskStore := none, radj := none }

def flushColdTier (g : MemoryGraph F) : MemoryGraph F :=
  { g with huskStore := g.huskStore.map (·.flush), radj := g.radj.map (·.flush) }

def setEvictionPolicy (g : MemoryGraph F) (policy : EvictionPolicy F) : MemoryGraph F :=
  { g with evictionPolicy := policy }

def nodeMut (g : MemoryGraph F) (id : NodeId) (edit : GraphNode F → GraphNode F) : MemoryGraph F :=
  { g with nodes := g.nodes.modify id fun n => { edit n with id := n.id } }

end Swap

def swapStep (h : Host F) (g : MemoryGraph F) : SwapOp F → MemoryGraph F
  | .graph op => g.step h op
  | .attachColdSpill inlineBudget => g.attachColdSpill h inlineBudget
  | .detachColdSpill => g.detachColdSpill
  | .flushColdTier => g.flushColdTier
  | .setColdContentBudget budget => g.setColdContentBudget h budget
  | .setColdResidentBudget budget => g.setColdResidentBudget h budget
  | .setEvictionPolicy policy => g.setEvictionPolicy policy
  | .nodeMut id edit => g.nodeMut id edit
  | .isCold id => (g.deepGet id).2

def swapRun (h : Host F) (g : MemoryGraph F) (ops : List (SwapOp F)) : MemoryGraph F :=
  ops.foldl (swapStep h) g

end MemoryGraph

end Ccos
