import Ccos.Session.Memory
import Ccos.Lib.HashChain

/-!
# The agent session

A session records every operation in a hash-chained log, so its state can be replayed. What a recall
selects and which weights the tuning proposes is left open: the first leaves nothing behind but filled
caches, and a proposal is an argument of the operation that adopts it.
-/

open Std

namespace Ccos

/-! ## Recorded operations -/

structure CausalFlashRecall (F : Type) where
  horizon : Nat
  decay : F
  includeCallers : Bool
  includeLowTrustSeeds : Bool
  trustThreshold : F
  deriving DecidableEq

/-- How a recall selects its window. -/
inductive Recall (F : Type)
  | workingSet
  | around (uri : Str)
  | task (text : Str)
  | semantic (text : Str)
  | hybrid (text : Str)
  | causalFlash (params : CausalFlashRecall F)
  deriving DecidableEq

inductive Op (F : Type)
  | ingest (uri source : Str)
  | failure (node : Str) (depth : Nat)
  | recallOp (how : Recall F) (budget : Nat)
  | pageFault (files : List Str) (depth : Nat)
  | retune (weights : ScoringWeights F)
  | assert (evidence claim : Str) (supports : Bool) (weight : F)
  deriving DecidableEq

inductive RecallMode
  | plain | compressed | feedback (maxRounds : Nat)

/-- The structural caches. -/
inductive StructureQuery
  | inDegree | eigencentrality | causalAdjacency

def StructureQuery.op {F : Type} : StructureQuery → GraphOp F
  | .inDegree => .nodeInDegree
  | .eigencentrality => .nodeEigencentrality
  | .causalAdjacency => .withCausalAdjacency

structure SessionTools (F : Type) extends Tools F where
  opJson : Op F → Str
  persistedJson : CcosMemory.Persisted F → Str
  /-- Reads a snapshot; `none` when the text is not one. -/
  parsePersisted : Str → Option (CcosMemory.Persisted F)
  /-- The structural caches that a recall goes through. -/
  recallQueries : CcosMemory F → RecallMode → Recall F → Nat → List StructureQuery
  /-- The files that a compiler output blames. -/
  faultFiles : Str → List Str
  pageFaultDepth : Nat

/-- Tools for concrete runs, with the JSON of the operations those runs record. -/
def SessionTools.plain (extract : Str → Str → Extracted) : SessionTools ℚ where
  toTools := Tools.plain extract
  opJson
    | .ingest uri source =>
      "\x7b\"Ingest\":\x7b\"uri\":\"".toList ++ uri ++ "\",\"source\":\"".toList ++ source ++ "\"\x7d\x7d".toList
    | .assert evidence claim supports _ =>
      "\x7b\"Assert\":\x7b\"evidence\":\"".toList ++ evidence ++ "\",\"claim\":\"".toList ++ claim
        ++ (if supports then "\",\"supports\":true" else "\",\"supports\":false").toList
        ++ ",\"weight\":1.0\x7d\x7d".toList
    | _ => []
  persistedJson _ := []
  parsePersisted _ := none
  recallQueries _ _ _ _ := []
  faultFiles _ := []
  pageFaultDepth := 3

/-! ## The chain -/

section Chain

variable {F : Type}

def opLinkHash (t : SessionTools F) (prev : Hash) (seq : Nat) (op : Op F) : Hash :=
  t.sha256 (prev ++ '|' :: natStr seq ++ '|' :: t.opJson op)

def chainOver (t : SessionTools F) (anchor : Hash) (folded : Nat) (ops : List (Op F)) : List Hash :=
  HashChain.linksOf (opLinkHash t) anchor folded ops

def baselineCommitment (t : SessionTools F) (baseline : Option Str) : Hash :=
  (baseline.map t.sha256).getD []

end Chain

/-- The imported timeline of another agent. -/
structure ForeignLog (F : Type) where
  ops : List (Op F)
  chain : List Hash

structure AgentSession (F : Type) where
  live : CcosMemory F
  ops : List (Op F)
  /-- The JSON of the memory that the retained operations replay on. -/
  baseline : Option Str
  /-- The operations that compaction has folded into the baseline. -/
  folded : Nat
  chain : List Hash
  /-- The link before the first retained operation. -/
  anchor : Hash
  baselineHash : Hash
  agent : Str
  foreign : BTreeMap Str (ForeignLog F)
  /-- Pinned signing keys by agent. -/
  knownKeys : BTreeMap Str Str
  customAuthorities : BTreeMap Str F

/-! ## Replay -/

section Replay

variable {F : Type} [Scalar F]

/-- Resolves when an ingest is pending. -/
def settle (t : SessionTools F) (acc : CcosMemory F × Bool) : CcosMemory F × Bool :=
  if acc.2 then (acc.1.resolve t.toTools, false) else acc

/-- Applies one recorded operation. The flag says that an ingest is pending: operations that read
the resolved edges resolve first. -/
def applyOp (t : SessionTools F) (acc : CcosMemory F × Bool) : Op F → CcosMemory F × Bool
  | .ingest uri source => (acc.1.ingestDeferred t.toTools uri source, true)
  | .failure node depth =>
    let (m, dirty) := settle t acc
    (m.signalFailure t.toTools node depth, dirty)
  | .pageFault files depth =>
    let (m, dirty) := settle t acc
    (files.foldl (fun m f => m.signalFailure t.toTools (fileKey f) depth) m, dirty)
  | .recallOp how _ =>
    let (m, dirty) := settle t acc
    match how with
    | .around uri => (m.ensureResident t.toTools uri, dirty)
    | _ => (m, dirty)
  | .retune weights => (acc.1.setScoringWeights t.toTools weights, acc.2)
  | .assert evidence claim supports weight =>
    (acc.1.assertEvidence t.toTools evidence claim supports weight, acc.2)

/-- Applies recorded operations and resolves what they leave pending. -/
def replay (t : SessionTools F) (m : CcosMemory F) (ops : List (Op F)) : CcosMemory F :=
  (settle t (ops.foldl (applyOp t) (m, false))).1

end Replay

namespace AgentSession

variable {F : Type} [Scalar F]

def new : AgentSession F where
  live := CcosMemory.new
  ops := []
  baseline := none
  folded := 0
  chain := []
  anchor := genesis
  baselineHash := []
  agent := []
  foreign := ∅
  knownKeys := ∅
  customAuthorities := ∅

/-- The logical length of the timeline. -/
def len (s : AgentSession F) : Nat := s.folded + s.ops.length

def setAgent (s : AgentSession F) (id : Str) : AgentSession F := { s with agent := id }

/-- The memory that the retained operations replay on. -/
def baselineMemory (t : SessionTools F) (s : AgentSession F) : CcosMemory F :=
  match s.baseline with
  | some snapshot => ((t.parsePersisted snapshot).map CcosMemory.ofPersisted).getD CcosMemory.new
  | none => CcosMemory.new

def replayTo (t : SessionTools F) (s : AgentSession F) (step : Nat) : CcosMemory F :=
  replay t (s.baselineMemory t) (s.ops.take (min step s.len - s.folded))

/-- Folds all but the last `keep` operations into the baseline. -/
def compact (t : SessionTools F) (s : AgentSession F) (keep : Nat) : AgentSession F :=
  if s.ops.length ≤ keep then s
  else
    let fold := s.ops.length - keep
    match (s.replayTo t (s.folded + fold)).toJson with
    | none => s
    | some persisted =>
      let snapshot := t.persistedJson persisted
      { s with
        anchor := s.chain[fold - 1]?.getD s.anchor
        chain := s.chain.drop fold
        baselineHash := baselineCommitment t (some snapshot)
        baseline := some snapshot
        ops := s.ops.drop fold
        folded := s.folded + fold }

/-! ## Operations of the session -/

/-- The only way an operation enters the log. -/
def record (t : SessionTools F) (s : AgentSession F) (op : Op F) : AgentSession F :=
  { s with
    chain := s.chain ++ [opLinkHash t (HashChain.head s.anchor s.chain) (s.folded + s.ops.length) op]
    ops := s.ops ++ [op] }

def onLive (s : AgentSession F) (f : CcosMemory F → CcosMemory F) : AgentSession F :=
  { s with live := f s.live }

def ingest (t : SessionTools F) (s : AgentSession F) (uri source : Str) : AgentSession F :=
  (s.record t (.ingest uri source)).onLive (·.ingestSource t.toTools uri source)

/-- Records every file, and resolves once at the end. -/
def ingestBatch (t : SessionTools F) (s : AgentSession F) (files : List (Str × Str)) : AgentSession F :=
  (files.foldl (fun s (f : Str × Str) =>
    (s.record t (.ingest f.1 f.2)).onLive (·.ingestDeferred t.toTools f.1 f.2)) s).onLive
      (·.resolve t.toTools)

/-- Nothing is recorded for a file that is up to date. -/
def sync (t : SessionTools F) (s : AgentSession F) (uri source : Str) : AgentSession F :=
  if s.live.fileUnchanged t.toTools uri source then s else s.ingest t uri source

/-- `assert_support` and `assert_contradiction`. The log keeps the weight that is used. -/
def assertEvidence (t : SessionTools F) (s : AgentSession F) (evidence claim : Str) (supports : Bool)
    (weight : F) : AgentSession F :=
  let weight := s.customAuthorities[evidence]?.getD weight
  (s.record t (.assert evidence claim supports weight)).onLive
    (·.assertEvidence t.toTools evidence claim supports weight)

def signalFailure (t : SessionTools F) (s : AgentSession F) (node : Str) (depth : Nat) : AgentSession F :=
  (s.record t (.failure node depth)).onLive (·.signalFailure t.toTools node depth)

/-- A recall of the live memory only fills caches. -/
def recallLive (t : SessionTools F) (s : AgentSession F) (mode : RecallMode) (how : Recall F)
    (budget : Nat) : AgentSession F :=
  s.onLive fun m => m.onGraph t.toTools ((t.recallQueries m mode how budget).map StructureQuery.op)

/-- `recall` and its compressed variants. A recall around a node pages it in first. -/
def recallWindow (t : SessionTools F) (s : AgentSession F) (mode : RecallMode) (how : Recall F)
    (budget : Nat) : AgentSession F :=
  let s := match how with
    | .around uri => s.onLive (·.ensureResident t.toTools uri)
    | _ => s
  (s.recallLive t mode how budget).record t (.recallOp how budget)

/-- Presses on the blamed files, then recalls around the first of them. -/
def pageFault (t : SessionTools F) (s : AgentSession F) (compilerOutput : Str) (budget : Nat) :
    AgentSession F :=
  let files := t.faultFiles compilerOutput
  let depth := t.pageFaultDepth
  let s := s.onLive fun m => files.foldl (fun m f => m.signalFailure t.toTools (fileKey f) depth) m
  let how := match files.head? with
    | some f => Recall.around (fileKey f)
    | none => .workingSet
  (s.recallLive t .plain how budget).record t (.pageFault files depth)

/-- Adopts the proposed weights when they do better on the log. -/
def adoptTunedRecallWeights (t : SessionTools F) (s : AgentSession F) (tuned : ScoringWeights F)
    (better : Bool) : AgentSession F :=
  if better then
    (s.onLive (·.setScoringWeights t.toTools tuned)).record t (.retune tuned)
  else s

end AgentSession

/-- The public operations that record, and the authorities that assertions use. -/
inductive LocalOp (F : Type)
  | ingest (uri source : Str)
  | ingestBatch (files : List (Str × Str))
  | sync (uri source : Str)
  | assertEvidence (evidence claim : Str) (supports : Bool) (weight : F)
  | signalFailure (node : Str) (depth : Nat)
  | recallWindow (mode : RecallMode) (how : Recall F) (budget : Nat)
  | pageFault (compilerOutput : Str) (budget : Nat)
  | adoptTunedRecallWeights (tuned : ScoringWeights F) (better : Bool)
  | setCustomAuthorities (map : BTreeMap Str F)

def AgentSession.act {F : Type} [Scalar F] (t : SessionTools F) (s : AgentSession F) :
    LocalOp F → AgentSession F
  | .ingest uri source => s.ingest t uri source
  | .ingestBatch files => s.ingestBatch t files
  | .sync uri source => s.sync t uri source
  | .assertEvidence evidence claim supports weight => s.assertEvidence t evidence claim supports weight
  | .signalFailure node depth => s.signalFailure t node depth
  | .recallWindow mode how budget => s.recallWindow t mode how budget
  | .pageFault output budget => s.pageFault t output budget
  | .adoptTunedRecallWeights tuned better => s.adoptTunedRecallWeights t tuned better
  | .setCustomAuthorities map => { s with customAuthorities := map }

end Ccos
