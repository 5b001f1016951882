import Ccos.Scalar
import Ccos.ColdIndex

/-! # The records of the memory graph -/

open Std

namespace Ccos

abbrev NodeId := Str

/-- Lifecycle of a node, kept apart from the topology. -/
inductive NodeState
  | stable | working | orphan
  deriving DecidableEq, Repr

inductive NodeType
  | module | symbol | contextBlock | analysisResult | codeRegion | unknown
  deriving DecidableEq, Repr

/-- The `Debug` name, which routes the compaction of a node's content. -/
def NodeType.debug : NodeType → Str
  | .module => "Module".toList
  | .symbol => "Symbol".toList
  | .contextBlock => "ContextBlock".toList
  | .analysisResult => "AnalysisResult".toList
  | .codeRegion => "CodeRegion".toList
  | .unknown => "Unknown".toList

inductive EdgeType
  | dependsOn | contains | references | causes | relatedTo | calls | dataFlow | supports | contradicts
  deriving DecidableEq, Repr

structure GraphNode (F : Type) where
  id : NodeId
  label : Str
  content : Str
  nodeType : NodeType
  baseImportance : F
  failureRelevance : F
  recency : F
  accessCount : Nat
  createdAt : Nat
  lastAccessed : Nat
  state : NodeState
  trust : F
  deriving DecidableEq, Repr

structure GraphEdge (F : Type) where
  source : NodeId
  target : NodeId
  weight : F
  edgeType : EdgeType
  createdAt : Nat
  deriving DecidableEq, Repr

/-- What makes two edges the same edge. -/
abbrev Triple := NodeId × NodeId × EdgeType

namespace GraphEdge

variable {F : Type}

def triple (e : GraphEdge F) : Triple := (e.source, e.target, e.edgeType)

def touches (e : GraphEdge F) (id : NodeId) : Bool := e.source == id || e.target == id

/-- The other endpoint of an edge incident to `id`. -/
def other (e : GraphEdge F) (id : NodeId) : NodeId := if e.source == id then e.target else e.source

end GraphEdge

/-! ## Scoring -/

inductive CentralityMode
  | inDegree | eigenvector
  deriving DecidableEq, Repr

structure ScoringWeights (F : Type) where
  wBase : F
  wFailure : F
  wRecency : F
  wAccess : F
  wCentrality : F
  centralityMode : CentralityMode
  wTrust : F
  failureDecay : F
  failureFanout : F
  deriving DecidableEq, Repr

open Scalar in
def ScoringWeights.default {F : Type} [Scalar F] : ScoringWeights F where
  wBase := lit 0.15
  wFailure := lit 0.50
  wRecency := lit 0.30
  wAccess := lit 0.05
  wCentrality := lit 0
  wTrust := lit 0
  centralityMode := .inDegree
  failureDecay := lit 0.8
  failureFanout := lit 6

structure PagingState where
  score : Fin 3
  recency : Fin 3
  pressure : Fin 3
  size : Fin 3
  deriving DecidableEq, Repr

inductive PagingAction
  | keep | evict
  deriving DecidableEq, Repr

/-- The learned eviction policy. The table lists its cells in key order. -/
structure EvictionPolicy (F : Type) where
  q : List ((PagingState × PagingAction) × F)
  alpha : F
  gamma : F
  updates : Nat
  deriving DecidableEq, Repr

namespace EvictionPolicy

variable {F : Type} [Scalar F]

open Scalar

def new : EvictionPolicy F := { q := [], alpha := lit 0.1, gamma := lit 0.9, updates := 0 }

def isTrained (p : EvictionPolicy F) : Bool := !p.q.isEmpty

def qValue (p : EvictionPolicy F) (state : PagingState) (action : PagingAction) : F :=
  (p.q.lookup (state, action)).getD (lit 0)

end EvictionPolicy

section Buckets

variable {F : Type} [Scalar F]

open Scalar

/-- The bucket of a value between two bounds. -/
def bucket (low high : F) (x : F) : Fin 3 := if lt x low then 0 else if lt x high then 1 else 2

def bucketScore (score : F) : Fin 3 := bucket (lit 0.2) (lit 0.5) score

def bucketRecency (F : Type) [Scalar F] (rank total : Nat) : Fin 3 :=
  if total = 0 then 0 else bucket (lit 0.33) (lit 0.66) ((ofNat rank : F) / ofNat total)

def bucketPressure (failureRelevance : F) : Fin 3 := bucket (lit 0.05) (lit 0.4) failureRelevance

def bucketSize (tokens : Nat) : Fin 3 := if tokens < 64 then 0 else if tokens < 512 then 1 else 2

end Buckets

/-! ## The COLD tier -/

/-- A SHA-256 value, named by its hex form. -/
abbrev Hash := Str

/-- The stub of a blob on disk: its key and the byte length of what it holds. -/
structure SpillRef where
  hash : Hash
  len : Nat
  deriving DecidableEq, Repr

/-- A demoted node with the edges incident to it when it left. -/
structure ColdNode (F : Type) where
  node : GraphNode F
  edges : List (GraphEdge F)
  spill : Option SpillRef
  compacted : Bool
  atFloor : Bool
  deriving DecidableEq, Repr

/-- A deep-spilled entry: the blob of the whole `ColdNode`, and its neighbours. The source packs the
ids into one buffer. -/
structure DeepHusk where
  body : SpillRef
  adj : List NodeId
  deriving DecidableEq, Repr

/-! ## Structural indices -/

/-- The dependency adjacency of the causal window. -/
structure CausalAdjacency (F : Type) where
  fwd : BTreeMap NodeId (List (NodeId × F))
  rev : BTreeMap NodeId (List NodeId)

def isDependencyEdge : EdgeType → Bool
  | .dependsOn | .contains | .references | .causes | .calls | .dataFlow => true
  | .relatedTo | .supports | .contradicts => false

/-- A caller or reader, the name it uses, and the line. -/
abbrev PendingRef := Str × Str × Nat

end Ccos
