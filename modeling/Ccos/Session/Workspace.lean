import Ccos.Session.Agent

/-!
# Exchange of timelines

A bundle is a slice of one agent's log with its links. An import checks the links, checks that the
slice continues what is known of that agent, and appends what is new.
-/

open Std

namespace Ccos

structure SyncBundle (F : Type) where
  version : Nat
  agent : Str
  /-- The step of the first operation in the exporter's timeline. -/
  firstSeq : Nat
  /-- The link before the first operation. -/
  anchor : Hash
  ops : List (Op F)
  chain : List Hash
  pubkey : Option Str
  sig : Option Str

inductive SyncError
  | noAgentId
  | selfImport
  | compactedHistory
  | gap (known bundleStart : Nat)
  | tampered (detail : Str)
  | diverged (step : Nat)
  | badSignature (detail : Str)
  | keyMismatch (agent : Str)
  | unsignedFromPinned (agent : Str)
  | signedUnsupported
  deriving DecidableEq

/-- A session's tools with the signature check of the build; `some` refuses. -/
structure SyncTools (F : Type) extends SessionTools F where
  verifyBundleSignature : SyncBundle F → Str → Str → Option SyncError

/-- Tools for concrete runs of a build without signatures. -/
def SyncTools.plain (extract : Str → Str → Extracted) : SyncTools ℚ where
  toSessionTools := SessionTools.plain extract
  verifyBundleSignature _ _ _ := some .signedUnsupported

namespace AgentSession

variable {F : Type}

/-! ## Export -/

/-- The operations from step `since` on. A session without a key exports unsigned. -/
def exportBundle (s : AgentSession F) (since : Nat) : Except SyncError (SyncBundle F) :=
  if s.agent = [] then .error .noAgentId
  else if since < s.folded then .error .compactedHistory
  else
    let start := min (since - s.folded) s.ops.length
    .ok
      { version := 1
        agent := s.agent
        firstSeq := since
        anchor := if start = 0 then s.anchor else s.chain[start - 1]?.getD []
        ops := s.ops.drop start
        chain := s.chain.drop start
        pubkey := none
        sig := none }

/-! ## Import -/

/-- The key to pin once the import has succeeded. -/
def checkAuthenticity (t : SyncTools F) (s : AgentSession F) (b : SyncBundle F) :
    Except SyncError (Option Str) :=
  match b.pubkey, b.sig with
  | some pubkey, some sig =>
    match t.verifyBundleSignature b pubkey sig with
    | some err => .error err
    | none =>
      match s.knownKeys[b.agent]? with
      | some pinned => if pinned ≠ pubkey then .error (.keyMismatch b.agent) else .ok none
      | none => .ok (some pubkey)
  | none, none =>
    if b.agent ∈ s.knownKeys then .error (.unsignedFromPinned b.agent) else .ok none
  | _, _ => .error (.badSignature "pubkey and sig must both be present or both absent".toList)

/-- The first link that does not recompute. -/
def brokenLink (t : SessionTools F) : Hash → Nat → List (Op F) → List Hash → Option Nat
  | prev, seq, op :: ops, link :: links =>
    if opLinkHash t prev seq op ≠ link then some seq else brokenLink t link (seq + 1) ops links
  | _, _, _, _ => none

/-- The first link of the overlap that is not the known one. -/
def disagreement (known : List Hash) : Nat → List Hash → Option Nat
  | _, [] => none
  | seq, link :: links =>
    match known[seq]? with
    | none => none
    | some existing => if existing ≠ link then some seq else disagreement known (seq + 1) links

/-- The bundle against the known log of its agent. An anchor past the known chain, which the source
would panic on, counts as a difference. -/
def checkContinuity (b : SyncBundle F) (known : Option (ForeignLog F)) : Option SyncError :=
  let knownLen := (known.map (·.ops.length)).getD 0
  if b.firstSeq > knownLen then some (.gap knownLen b.firstSeq)
  else
    match known with
    | none => none
    | some log =>
      if b.firstSeq > 0 ∧ log.chain[b.firstSeq - 1]? ≠ some b.anchor then some (.diverged b.firstSeq)
      else (disagreement log.chain b.firstSeq b.chain).map fun seq => .diverged (seq + 1)

/-- Appends the part of the bundle past the overlap. -/
def extendLog (b : SyncBundle F) (known : Option (ForeignLog F)) : ForeignLog F × Nat :=
  let log : ForeignLog F := known.getD { ops := [], chain := [] }
  let overlap := min (log.ops.length - b.firstSeq) b.ops.length
  ({ ops := log.ops ++ b.ops.drop overlap, chain := log.chain ++ b.chain.drop overlap },
    b.ops.length - overlap)

/-- Returns the session after the import and the number of new operations, or why it refused. -/
def importBundle (t : SyncTools F) (s : AgentSession F) (b : SyncBundle F) :
    Except SyncError (AgentSession F × Nat) :=
  if b.agent = [] then .error (.tampered "bundle has no agent id".toList)
  else if b.agent = s.agent then .error .selfImport
  else
    match s.checkAuthenticity t b with
    | .error err => .error err
    | .ok pin =>
      if b.ops.length ≠ b.chain.length then
        .error (.tampered (natStr b.ops.length ++ " op(s) but ".toList ++ natStr b.chain.length
          ++ " chain link(s)".toList))
      else if b.firstSeq = 0 ∧ b.anchor ≠ genesis then
        .error (.tampered "a genesis bundle must anchor at GENESIS".toList)
      else
        match brokenLink t.toSessionTools b.anchor b.firstSeq b.ops b.chain with
        | some seq =>
          .error (.tampered ("link t=".toList ++ natStr (seq + 1) ++ " does not verify".toList))
        | none =>
          match checkContinuity b s.foreign[b.agent]? with
          | some err => .error err
          | none =>
            let extended := extendLog b s.foreign[b.agent]?
            .ok ({ s with
              foreign := s.foreign.insert b.agent extended.1
              knownKeys := match pin with
                | some pubkey => s.knownKeys.insert b.agent pubkey
                | none => s.knownKeys }, extended.2)

/-! ## The merged view -/

/-- The known timelines by agent. A session without an id calls itself `local`. -/
def streams (s : AgentSession F) : BTreeMap Str (List (Op F)) :=
  s.foreign.toList.foldl (fun m (log : Str × ForeignLog F) => m.insert log.1 log.2.ops)
    ((∅ : BTreeMap Str (List (Op F))).insert (if s.agent = [] then "local".toList else s.agent) s.ops)

/-- Every known timeline, replayed from an empty memory in agent order. -/
def mergedView [Scalar F] (t : SessionTools F) (s : AgentSession F) : CcosMemory F :=
  replay t CcosMemory.new (s.streams.toList.flatMap (·.2))

end AgentSession

end Ccos

/-!
## The workspace files of a session

A checkpoint writes two files: the snapshot of the memory and the timeline next to it. Opening reads
them back. Each file is its text, or missing. All writes succeed.
-/

open Std

namespace Ccos

/-- Why a memory operation failed. What a parser or the file system reported is left out. -/
inductive MemoryError
  | nodeNotFound (id : Str)
  | io
  | serde
  | noPath
  | timelineTampered (detail : Str)
  deriving DecidableEq

structure Workspace where
  snapshot : Option Str
  oplog : Option Str

structure PersistedTimeline (F : Type) where
  baseline : Option Str
  ops : List (Op F)
  folded : Nat
  chain : List Hash
  anchor : Hash
  baselineHash : Hash
  agent : Str
  foreign : BTreeMap Str (ForeignLog F)
  knownKeys : BTreeMap Str Str

/-- A session's tools with the JSON of the timeline. -/
structure WorkspaceTools (F : Type) extends SyncTools F where
  timelineJson : PersistedTimeline F → Str
  /-- Reads a timeline; `none` when the text is not one. -/
  parseTimeline : Str → Option (PersistedTimeline F)

/-! ## Verification of a timeline -/

section Verify

variable {F : Type}

/-- The links from step `seq` on, against the link before them: how many recompute, and which do not. -/
def verifyOps (t : SessionTools F) : Hash → Nat → List (Op F) → List Hash → Nat × List Str
  | prev, seq, op :: ops, link :: links =>
    let (verified, errors) := verifyOps t link (seq + 1) ops links
    if opLinkHash t prev seq op = link then (verified + 1, errors)
    else (verified, ("link t=".toList ++ natStr (seq + 1) ++ " broken: op or hash mutated".toList) :: errors)
  | _, _, _, _ => (0, [])

def verifyTimelineParts (t : SessionTools F) (anchor : Hash) (folded : Nat) (ops : List (Op F))
    (chain : List Hash) (baseline : Option Str) (baselineHash : Hash) : LogIntegrity :=
  if chain = [] ∧ anchor = [] ∧ baselineHash = [] then { valid := true, verifiedEvents := 0, errors := [] }
  else
    let uncommitted :=
      if baselineCommitment t baseline ≠ baselineHash then
        ["baseline does not match its recorded commitment".toList]
      else []
    let miscounted :=
      if chain.length ≠ ops.length then
        ["chain has ".toList ++ natStr chain.length ++ " link(s) for ".toList ++ natStr ops.length
          ++ " op(s): an op was inserted or removed".toList]
      else []
    let (verifiedEvents, broken) := verifyOps t anchor folded ops chain
    let errors := uncommitted ++ miscounted ++ broken
    { valid := errors.isEmpty, verifiedEvents, errors }

end Verify

namespace AgentSession

variable {F : Type} [Scalar F]

omit [Scalar F] in
def verifyTimeline (t : SessionTools F) (s : AgentSession F) : LogIntegrity :=
  verifyTimelineParts t s.anchor s.folded s.ops s.chain s.baseline s.baselineHash

omit [Scalar F] in
def timelineHead (s : AgentSession F) : Hash := HashChain.head s.anchor s.chain

/-! ## Opening -/

/-- The memory of a snapshot file; an empty one when there is no file. -/
def openMemory (t : SessionTools F) (snapshot : Option Str) : Except MemoryError (CcosMemory F) :=
  match snapshot with
  | none => .ok CcosMemory.new
  | some text =>
    match t.parsePersisted text with
    | some persisted => .ok (CcosMemory.ofPersisted persisted)
    | none => .error .serde

omit [Scalar F] in
/-- A timeline without any chain gets one; one with a chain must verify. -/
def trustTimeline (t : SessionTools F) (tl : PersistedTimeline F) : Except MemoryError (PersistedTimeline F) :=
  if tl.chain = [] ∧ tl.anchor = [] ∧ tl.baselineHash = [] then
    .ok { tl with
      anchor := genesis
      baselineHash := baselineCommitment t tl.baseline
      chain := chainOver t genesis tl.folded tl.ops }
  else
    let integrity := verifyTimelineParts t tl.anchor tl.folded tl.ops tl.chain tl.baseline tl.baselineHash
    if integrity.valid then .ok tl
    else .error (.timelineTampered (joinWith "; ".toList integrity.errors))

omit [Scalar F] in
def ofTimeline (live : CcosMemory F) (tl : PersistedTimeline F) : AgentSession F where
  live := live
  ops := tl.ops
  baseline := tl.baseline
  folded := tl.folded
  chain := tl.chain
  anchor := tl.anchor
  baselineHash := tl.baselineHash
  agent := tl.agent
  foreign := tl.foreign
  knownKeys := tl.knownKeys
  customAuthorities := ∅

/-- Starts the timeline of a session over at its live memory. -/
def restartTimeline (t : SessionTools F) (s : AgentSession F) : Except MemoryError (AgentSession F) :=
  match s.live.toJson with
  | none => .error .serde
  | some persisted =>
    let baseline := some (t.persistedJson persisted)
    .ok { s with
      baseline
      ops := []
      folded := 0
      chain := []
      anchor := genesis
      baselineHash := baselineCommitment t baseline }

/-- The counts that the consistency guard compares. -/
structure Counts where
  nodes : Nat
  edges : Nat
  files : Nat
  deriving DecidableEq

omit [Scalar F] in
def counts (m : CcosMemory F) : Counts where
  nodes := m.graph.nodes.size
  edges := m.graph.edges.length
  files := m.sources.size

def timelineReproducesMemory (t : SessionTools F) (s : AgentSession F) : Bool :=
  counts (s.replayTo t s.len) = counts s.live

/-- A timeline that does not reproduce the memory is dropped. -/
def guardTimeline (t : SessionTools F) (s : AgentSession F) : Except MemoryError (AgentSession F) :=
  if s.ops ≠ [] ∧ s.timelineReproducesMemory t = false then s.restartTimeline t else .ok s

/-- The timeline in the workspace, if there is one that parses. -/
def restored (t : WorkspaceTools F) (ws : Workspace) : Option (PersistedTimeline F) :=
  ws.oplog.bind t.parseTimeline

/-- `AgentSession::open`. -/
def openWorkspace (t : WorkspaceTools F) (ws : Workspace) : Except MemoryError (AgentSession F) := do
  let live ← openMemory t.toSessionTools ws.snapshot
  let session ← match restored t ws with
    | some tl => (trustTimeline t.toSessionTools tl).map (ofTimeline live)
    | none => restartTimeline t.toSessionTools { new with live }
  guardTimeline t.toSessionTools session

/-! ## Checkpoints and forks -/

omit [Scalar F] in
def toTimeline (s : AgentSession F) : PersistedTimeline F where
  baseline := s.baseline
  ops := s.ops
  folded := s.folded
  chain := s.chain
  anchor := s.anchor
  baselineHash := s.baselineHash
  agent := s.agent
  foreign := s.foreign
  knownKeys := s.knownKeys

/-- `max` and `keep` come from the environment. -/
def compactIfNeeded (t : SessionTools F) (s : AgentSession F) (max keep : Nat) : AgentSession F :=
  if max > 0 ∧ s.ops.length > max then s.compact t keep else s

/-- The files that a checkpoint writes, and the session it leaves. -/
def checkpoint (t : WorkspaceTools F) (s : AgentSession F) (max keep : Nat) :
    Except MemoryError Workspace × AgentSession F :=
  let s := s.compactIfNeeded t.toSessionTools max keep
  match s.live.toJson with
  | none => (.error .serde, s)
  | some persisted =>
    (.ok { snapshot := some (t.persistedJson persisted), oplog := some (t.timelineJson s.toTimeline) }, s)

/-- A session with the first `step` operations, as far as they are retained. -/
def forkAt (t : SessionTools F) (s : AgentSession F) (step : Nat) : AgentSession F :=
  let step := max (min step s.len) s.folded
  let tail := step - s.folded
  { s with
    live := s.replayTo t step
    ops := s.ops.take tail
    chain := s.chain.take tail }

end AgentSession

end Ccos
