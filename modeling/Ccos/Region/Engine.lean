import Ccos.Memory.Graph
import Ccos.Log.EventLog

/-!
# Context regions

A region is a cluster of graph nodes with a temperature. The casts to `f32` are dropped, and a point
keeps the coordinates that its heat reads.
-/

open Std

namespace Ccos

/-- The file a node id belongs to, or the id itself. -/
def fileOf (uri : Str) : Str :=
  match stripPrefix "file:".toList uri with
  | some rest => rest
  | none =>
    match ["mod:".toList, "use:".toList, "sym:".toList].findSome? (stripPrefix · uri) with
    | some rest => firstPiece colon rest
    | none => uri

structure ContextPoint (F : Type) where
  activationEnergy : F
  failurePressure : F
  recency : F

structure ContextRegion (F : Type) where
  id : Str
  center : Str
  members : List Str
  totalScore : F
  temperature : F
  causalDensity : F
  lastActivation : Nat
  activationCount : Nat
deriving DecidableEq

/-- Of the policy only the complexity of the task bears on a score. -/
structure ContextPolicy (F : Type) where
  taskComplexity : F

section

variable {F : Type} [Scalar F]

open Scalar

namespace ContextPoint

def fromNode (node : GraphNode F) (g : MemoryGraph F) : ContextPoint F :=
  ⟨g.computeNodeScore node, node.failureRelevance, node.recency⟩

def heat (p : ContextPoint F) : F :=
  clamp01 (lit 0.5 * p.activationEnergy + lit 0.3 * p.failurePressure + lit 0.2 * p.recency)

end ContextPoint

namespace ContextRegion

def new (id center : Str) : ContextRegion F := ⟨id, center, [], lit 0, lit 0, lit 0, 0, 0⟩

def memberCount (r : ContextRegion F) : Nat := r.members.length

def contains (r : ContextRegion F) (uri : Str) : Bool := r.members.contains uri

def recompute (g : MemoryGraph F) (r : ContextRegion F) : ContextRegion F :=
  let members := sortDedup r.members
  let points := members.filterMap fun uri => (g.nodes[uri]?).map fun node => ContextPoint.fromNode node g
  let counted := points.length
  let heatSum := points.foldl (fun sum p => sum + p.heat) (lit 0)
  let internalEdges := (g.edges.filter fun e => members.contains e.source && members.contains e.target).length
  { r with
    members
    totalScore := points.foldl (fun sum p => sum + p.activationEnergy) (lit 0)
    temperature := if counted = 0 then lit 0 else clamp01 (heatSum / ofNat counted)
    causalDensity := if counted = 0 then lit 0 else ofNat internalEdges / ofNat counted }

/-- An activation injects heat. -/
def activate (tick : Nat) (r : ContextRegion F) : ContextRegion F :=
  { r with
    activationCount := r.activationCount + 1
    lastActivation := tick
    temperature := clamp01 (r.temperature + lit 0.25) }

def cool (decay : F) (r : ContextRegion F) : ContextRegion F :=
  { r with temperature := clamp01 (r.temperature * decay) }

end ContextRegion

namespace ContextPolicy

def calculateAdmissionScore (policy : ContextPolicy F) (r : ContextRegion F) : F :=
  let density := clamp01 (r.causalDensity / (lit 1 + r.causalDensity))
  clamp01 (lit 0.55 * r.temperature + lit 0.30 * density + lit 0.15 * policy.taskComplexity)

def estimateTokens (r : ContextRegion F) : Nat := r.memberCount * 128

end ContextPolicy

end

end Ccos

/-!
## The region engine

Regions are the connected components of files over cross-file edges. Activations and evictions are
logged, and a replay applies them again to the regions of the same graph.
-/

open Std

namespace Ccos

inductive RegionQuery
  | node (uri : Str)
  | hottest

structure ContextWindow (F : Type) where
  region : Str
  files : List Str
  tokensEstimated : Nat
  regionScore : F
  reason : Str
deriving DecidableEq

structure ContextRegionEngine (F : Type) where
  regions : BTreeMap Str (ContextRegion F)
  clock : Nat

def external : Str := "external".toList

def regionKey (uri : Str) : Str := if startsWith "dep:".toList uri then external else fileOf uri

/-- The distinct files of some members, sorted. -/
def distinctFiles (members : List Str) : List Str := sortDedup (members.map fileOf)

namespace ContextRegionEngine

variable {F : Type} [Scalar F]

open Scalar

def new : ContextRegionEngine F := ⟨∅, 0⟩

/-! ## Clusters -/

def fileBuckets (g : MemoryGraph F) : BTreeMap Str (List Str) :=
  g.nodes.keys.foldl (fun buckets id => pushAt buckets (regionKey id) id) ∅

abbrev FileSets := BTreeMap Str (BTreeMap Str Unit)

/-- Both ends are unwrapped: an edge of a file without nodes panics. -/
def link (adj : FileSets) (a b : Str) : Option FileSets :=
  (adj[a]?).bind fun ofA =>
    let adj := adj.insert a (ofA.insert b ())
    (adj[b]?).map fun ofB => adj.insert b (ofB.insert a ())

def linkEdge (adj : FileSets) (e : GraphEdge F) : Option FileSets :=
  let ks := regionKey e.source
  let kt := regionKey e.target
  if ks ≠ kt ∧ ks ≠ external ∧ kt ≠ external then link adj ks kt else some adj

def fileLinks (g : MemoryGraph F) (keys : List Str) : Option FileSets :=
  g.edges.foldlM linkEdge (keys.foldl (fun adj key => adj.insert key ∅) ∅)

def enqueue (queue : List Str) (seen : BTreeMap Str Unit) (found : List Str) :
    List Str × BTreeMap Str Unit :=
  found.foldl (fun (queue, seen) key =>
    if key ∈ seen then (queue, seen) else (queue ++ [key], seen.insert key ())) (queue, seen)

/-- The files reached from the queue, in the order they are popped, and all that were seen. -/
def component (adj : FileSets) :
    Nat → List Str → BTreeMap Str Unit → List Str → Option (List Str × BTreeMap Str Unit)
  | _, [], seen, popped => some (popped, seen)
  | 0, _ :: _, _, _ => none
  | fuel + 1, key :: queue, seen, popped =>
    (adj[key]?).bind fun found =>
      let (queue, seen) := enqueue queue seen found.keys
      component adj fuel queue seen (popped ++ [key])

/-- Adds the cluster of a file that no earlier cluster has seen. -/
def clusterFrom (buckets : BTreeMap Str (List Str)) (adj : FileSets)
    (state : BTreeMap Str Unit × BTreeMap Str (List Str)) (start : Str) :
    Option (BTreeMap Str Unit × BTreeMap Str (List Str)) :=
  let (seen, clusters) := state
  if start ∈ seen ∨ start = external then some state
  else
    (component adj adj.size [start] (seen.insert start ()) []).map fun (files, seen) =>
      let files := sortBy compare files
      let rep := "region:".toList ++ files.headD []
      let members := sortBy compare (files.flatMap fun key => (buckets[key]?).getD [])
      (seen, clusters.insert rep members)

/-- `none` when an edge ends in a file without nodes. -/
def clusterNodes (g : MemoryGraph F) : Option (BTreeMap Str (List Str)) := do
  let buckets := fileBuckets g
  let adj ← fileLinks g buckets.keys
  let (_, clusters) ← buckets.keys.foldlM (clusterFrom buckets adj) (∅, ∅)
  return match buckets[external]? with
    | some members => clusters.insert ("region:".toList ++ external) (sortBy compare members)
    | none => clusters

def scoreOf (g : MemoryGraph F) (uri : Str) : F := ((g.nodes[uri]?).map g.computeNodeScore).getD (lit 0)

/-- The member with the highest score, the smaller id on a tie. -/
def pickCenter (g : MemoryGraph F) (members : List Str) : Str :=
  (maxBy (fun a b => ((partialCmp (scoreOf g a) (scoreOf g b)).getD .eq).then (compare b a)) members).getD []

def buildRegion (g : MemoryGraph F) (id : Str) (members : List Str) : ContextRegion F :=
  ContextRegion.recompute g { ContextRegion.new id (pickCenter g members) with members }

/-- The scores read on the way fill caches of the graph, and come out the same afterwards. -/
def clusterAndBuild (e : ContextRegionEngine F) (g : MemoryGraph F) : Option (ContextRegionEngine F) :=
  (clusterNodes g).map fun clusters => { e with regions := clusters.map (buildRegion g) }

/-! ## Live calls -/

def logRegion (t : LogTools F) (log : EventLog F) (r : ContextRegion F) : EventLog F :=
  let files := distinctFiles r.members
  let log :=
    if files.length > 1 then
      log.append t .regionMerged (.regionMerged r.id (joinWith ",".toList files) r.memberCount)
    else log
  log.append t .regionCreated (.regionCreated r.id r.center r.memberCount r.temperature r.causalDensity)

def initializeRegions (t : LogTools F) (e : ContextRegionEngine F) (g : MemoryGraph F) (log : EventLog F) :
    Option (ContextRegionEngine F × EventLog F) :=
  (e.clusterAndBuild g).map fun e => (e, e.regions.values.foldl (logRegion t) log)

def regionOf (e : ContextRegionEngine F) (uri : Str) : Option Str :=
  (e.regions.toList.find? fun (_, r) => r.contains uri).map (·.1)

/-- The highest temperature, the smaller id on a tie. -/
def hottestRegion (e : ContextRegionEngine F) : Option Str :=
  (maxBy (fun a b => ((partialCmp a.temperature b.temperature).getD .eq).then (compare b.id a.id))
    e.regions.values).map (·.id)

def activationReason (e : ContextRegionEngine F) (g : MemoryGraph F) (regionId : Str) : Str :=
  match e.regions[regionId]? with
  | none => "causal proximity".toList
  | some r =>
    if r.members.any fun m => (g.nodes[m]?).any fun n => gt n.failureRelevance (lit 0) then
      "failure propagation + causal proximity".toList
    else "causal proximity + recency".toList

def targetOf (e : ContextRegionEngine F) : RegionQuery → Option Str
  | .node uri => e.regionOf uri
  | .hottest => e.hottestRegion

def activateRegion (t : LogTools F) (e : ContextRegionEngine F) (g : MemoryGraph F) (query : RegionQuery)
    (policy : ContextPolicy F) (log : EventLog F) :
    Option (ContextWindow F) × ContextRegionEngine F × EventLog F :=
  match e.targetOf query with
  | none => (none, e, log)
  | some targetId =>
    let tick := e.clock
    let reason := e.activationReason g targetId
    match e.regions[targetId]? with
    | none => (none, e, log)
    | some region =>
      let region := region.activate tick
      let files := distinctFiles region.members
      let regionScore := policy.calculateAdmissionScore region
      let tokens := ContextPolicy.estimateTokens region
      let log := log.append t .regionActivated
        (.regionActivated region.id tick region.temperature region.activationCount reason)
      let log := log.append t .contextWindowGenerated
        (.contextWindowGenerated region.id files.length tokens regionScore reason)
      (some ⟨region.id, files, tokens, regionScore, reason⟩,
        ⟨e.regions.insert targetId region, e.clock + 1⟩, log)

def evictRegion (t : LogTools F) (state : ContextRegionEngine F × EventLog F) (id : Str) :
    ContextRegionEngine F × EventLog F :=
  let (e, log) := state
  let temp := ((e.regions[id]?).map (·.temperature)).getD (lit 0)
  ({ e with regions := e.regions.erase id },
    log.append t .regionEvicted (.regionEvicted id temp "temperature below eviction floor".toList))

def coldIds (e : ContextRegionEngine F) (evictBelow : F) : List Str :=
  (e.regions.toList.filter fun (_, r) => lt r.temperature evictBelow).map (·.1)

/-- The evicted ids, the engine and the log. -/
def tickCooldown (t : LogTools F) (e : ContextRegionEngine F) (decay evictBelow : F) (log : EventLog F) :
    List Str × ContextRegionEngine F × EventLog F :=
  let e := { e with regions := e.regions.map fun _ r => r.cool decay }
  let evicted := e.coldIds evictBelow
  (evicted, evicted.foldl (evictRegion t) (e, log))

/-! ## Replay -/

def replayEvent (e : ContextRegionEngine F) : EventPayload F → ContextRegionEngine F
  | .regionActivated regionId tick _ _ _ =>
    ⟨e.regions.modify regionId (·.activate tick), Nat.max e.clock (tick + 1)⟩
  | .regionEvicted regionId _ _ => { e with regions := e.regions.erase regionId }
  | _ => e

def replayFrom (g : MemoryGraph F) (log : EventLog F) : Option (ContextRegionEngine F) :=
  (new.clusterAndBuild g).map fun e => log.foldl (fun e event => e.replayEvent event.payload) e

end ContextRegionEngine

end Ccos
