import Ccos.Lib.RankedChoice
import Ccos.Log.EventLog
import Ccos.Memory.Facts

/-!
# The swarm orchestrator

A round steps every unit in the order of the ids, publishes their health, and offers the strategy of the best unit to
all the others. The agents are left open: a step may do anything to an agent and report any numbers.
-/

open Std

namespace Ccos

abbrev UnitId := UInt64

structure OrchestratorConfig (F : Type) where
  adoptionMargin : F
  minProjectedGain : F
  riskSlack : F
  maxSourceRpn : F

structure MetaStrategy (F : Type) where
  focus : Vector F 6
  softwareEdit : List F
  gain : F

/-- What the orchestrator reads of a `StepReport`. -/
structure StepReport (F : Type) where
  t : Nat
  siGlobal : F
  siSafe : F
  riskGlobal : F
  maxRpn : F
  deriving DecidableEq, Repr

/-- The agent as the orchestrator uses it. -/
class RSIAgent (A : Type) (F : outParam Type) where
  step : A → A × StepReport F
  strategy : A → MetaStrategy F
  setStrategy : A → MetaStrategy F → A
  /-- `substrate.o.len()`. -/
  substrateLen : A → Nat
  siGlobal : A → F
  /-- `projected_si` of a strategy on the state, the substrate and the surface of the agent. -/
  projectedSi : MetaStrategy F → A → F

inductive RejectionReason
  | insufficientSafeGain | sourceTooRisky | incompatibleStrategy | noProjectedGain
  deriving DecidableEq, Repr

inductive SwarmMessage (F : Type)
  | health (sender : UnitId) (t : Nat) (siGlobal siSafe riskGlobal maxRpn : F)
  | strategyOffer (sender : UnitId) (strategyDigest : UInt64) (siSafe : F)
  | strategyAdopted (unit sender : UnitId) (strategyDigest : UInt64)
  | strategyRejected (unit sender : UnitId) (reason : RejectionReason)
  | shutdown (unit : UnitId)
  deriving DecidableEq, Repr

structure SwarmEvent (F : Type) where
  seq : UInt64
  message : SwarmMessage F
  deriving DecidableEq, Repr

structure UnitRuntime (A F : Type) where
  agent : A
  last : Option (StepReport F)
  adopted : UInt64

structure UnitSummary (F : Type) where
  id : UnitId
  t : Nat
  siGlobal : F
  siSafe : F
  riskGlobal : F
  maxRpn : F
  adopted : UInt64

structure RoundReport (F : Type) where
  round : UInt64
  units : List (UnitSummary F)
  best : Option UnitId
  adoptions : UInt64
  totalSteps : UInt64

structure CervoOrchestrator (A F : Type) where
  config : OrchestratorConfig F
  units : BTreeMap UnitId (UnitRuntime A F)
  events : List (SwarmEvent F)
  nextSeq : UInt64
  round : UInt64
  totalSteps : UInt64
  totalAdoptions : UInt64

/-- A `Vec` takes at most `isize::MAX` bytes, and an event at least the eight bytes of its `seq`. -/
def maxEvents : Nat := (2 ^ 63 - 1) / 8

section

variable {F : Type} [Float64 F]

open Scalar Float64

def OrchestratorConfig.default : OrchestratorConfig F where
  adoptionMargin := lit (1 / 100)
  minProjectedGain := lit 0
  riskSlack := lit 0
  maxSourceRpn := lit ((2 ^ 53 - 1) * 2 ^ 971)

def OrchestratorConfig.validate (c : OrchestratorConfig F) : Except Str Unit :=
  if !isFinite c.adoptionMargin || lt c.adoptionMargin (lit 0) then
    .error "adoption_margin must be finite and >= 0".toList
  else if !isFinite c.minProjectedGain || lt c.minProjectedGain (lit 0) then
    .error "min_projected_gain must be finite and >= 0".toList
  else if !isFinite c.riskSlack || lt c.riskSlack (lit 0) then
    .error "risk_slack must be finite and >= 0".toList
  else if isNan c.maxSourceRpn || lt c.maxSourceRpn (lit 0) then
    .error "max_source_rpn must be >= 0".toList
  else .ok ()

def feed (h bits : UInt64) : UInt64 :=
  (leBytes bits).foldl (fun h byte => (h ^^^ byte.toUInt64) * 0x00000100000001b3) h

def strategyDigest (strategy : MetaStrategy F) : UInt64 :=
  let h := strategy.focus.toList.foldl (fun h value => feed h (toBits value)) 0xcbf29ce484222325
  let h := feed h (toBits strategy.gain)
  let h := feed h (UInt64.ofNat strategy.softwareEdit.length)
  strategy.softwareEdit.foldl (fun h value => feed h (toBits value)) h

def StepReport.health (id : UnitId) (r : StepReport F) : SwarmMessage F :=
  .health id r.t r.siGlobal r.siSafe r.riskGlobal r.maxRpn

end

namespace CervoOrchestrator

variable {A F : Type}

def ofConfig (config : OrchestratorConfig F) : CervoOrchestrator A F where
  config
  units := ∅
  events := []
  nextSeq := 1
  round := 0
  totalSteps := 0
  totalAdoptions := 0

def new [Float64 F] (config : OrchestratorConfig F) : Except Str (CervoOrchestrator A F) := do
  config.validate
  return ofConfig config

def emit (s : CervoOrchestrator A F) (message : SwarmMessage F) : Option (CervoOrchestrator A F) :=
  if s.events.length < maxEvents then
    some { s with
      events := s.events ++ [{ seq := s.nextSeq, message }]
      nextSeq := if s.nextSeq.toNat + 1 < 2 ^ 64 then s.nextSeq + 1 else s.nextSeq }
  else none

def emitAll (s : CervoOrchestrator A F) (messages : List (SwarmMessage F)) : Option (CervoOrchestrator A F) :=
  messages.foldlM emit s

def spawn (s : CervoOrchestrator A F) (id : UnitId) (agent : A) : Except Str (CervoOrchestrator A F) :=
  if id ∈ s.units then .error "duplicate unit id".toList
  else .ok { s with units := s.units.insert id { agent, last := none, adopted := 0 } }

def kill (s : CervoOrchestrator A F) (id : UnitId) : Option (CervoOrchestrator A F × Bool) :=
  if id ∈ s.units then do
    let s ← emit { s with units := s.units.erase id } (.shutdown id)
    return (s, true)
  else some (s, false)

section

variable [Float64 F] [RSIAgent A F]

open Scalar Float64

/-- One RSI step of each unit. An id that is missing would be a panic. -/
def stepUnits (s : CervoOrchestrator A F) :
    List UnitId → Option (CervoOrchestrator A F × List (SwarmMessage F))
  | [] => some (s, [])
  | id :: ids => do
    let unit ← s.units[id]?
    let (agent, report) := RSIAgent.step unit.agent
    let s := { s with
      units := s.units.insert id { unit with agent, last := some report }
      totalSteps := s.totalSteps + 1 }
    let (s, messages) ← s.stepUnits ids
    return (s, report.health id :: messages)

/-- By score, and among equal scores the smaller id is above. -/
def scoreOrder (a b : UnitId × F) : Ordering := (totalCmp a.2 b.2).then (compare b.1 a.1)

def scores (s : CervoOrchestrator A F) : List (UnitId × F) :=
  s.units.toList.filterMap fun (id, unit) => unit.last.map fun r => (id, r.siSafe)

def bestUnit (s : CervoOrchestrator A F) : Option UnitId :=
  match s.scores with
  | [] => none
  | a :: rest => some (Ranked.choose scoreOrder a rest).1

def adoptionDecision (s : CervoOrchestrator A F) (target : UnitId) (sourceStrategy : MetaStrategy F)
    (sourceReport : StepReport F) : Except RejectionReason Unit :=
  match s.units[target]? with
  | none => .error .incompatibleStrategy
  | some targetUnit =>
    match targetUnit.last with
    | none => .error .insufficientSafeGain
    | some targetReport =>
      if ge (targetReport.siSafe + s.config.adoptionMargin) sourceReport.siSafe then .error .insufficientSafeGain
      else if gt sourceReport.riskGlobal (targetReport.riskGlobal + s.config.riskSlack)
          || gt sourceReport.maxRpn s.config.maxSourceRpn then .error .sourceTooRisky
      else if sourceStrategy.softwareEdit.length ≠ RSIAgent.substrateLen targetUnit.agent then
        .error .incompatibleStrategy
      else
        let current := RSIAgent.siGlobal targetUnit.agent
        let projected := RSIAgent.projectedSi sourceStrategy targetUnit.agent
        if lt projected (current + s.config.minProjectedGain) then .error .noProjectedGain else .ok ()

def adopt (s : CervoOrchestrator A F) (target : UnitId) (strategy : MetaStrategy F) : CervoOrchestrator A F :=
  match s.units[target]? with
  | none => s
  | some unit =>
    { s with
      units := s.units.insert target
        { unit with agent := RSIAgent.setStrategy unit.agent strategy, adopted := unit.adopted + 1 }
      totalAdoptions := s.totalAdoptions + 1 }

/-- The answer of one target to the offer. -/
def answer (source : UnitId) (strategy : MetaStrategy F) (report : StepReport F) (s : CervoOrchestrator A F)
    (target : UnitId) : Option (CervoOrchestrator A F) :=
  match s.adoptionDecision target strategy report with
  | .ok () => (s.adopt target strategy).emit (.strategyAdopted target source (strategyDigest strategy))
  | .error reason => s.emit (.strategyRejected target source reason)

def broadcastBestStrategy (s : CervoOrchestrator A F) (source : UnitId) : Option (CervoOrchestrator A F) :=
  match s.units[source]? with
  | none => some s
  | some sourceUnit =>
    match sourceUnit.last with
    | none => some s
    | some report => do
      let strategy := RSIAgent.strategy sourceUnit.agent
      let s ← s.emit (.strategyOffer source (strategyDigest strategy) report.siSafe)
      (s.units.keys.filter (· ≠ source)).foldlM (answer source strategy report) s

/-- The pass of a round from its best unit. -/
def synchronize (s : CervoOrchestrator A F) : Option UnitId → Option (CervoOrchestrator A F)
  | none => some s
  | some source => s.broadcastBestStrategy source

def report (s : CervoOrchestrator A F) (best : Option UnitId) : RoundReport F where
  round := s.round
  units := s.units.toList.filterMap fun (id, unit) => unit.last.map fun r =>
    { id, t := r.t, siGlobal := r.siGlobal, siSafe := r.siSafe, riskGlobal := r.riskGlobal, maxRpn := r.maxRpn,
      adopted := unit.adopted }
  best
  adoptions := s.totalAdoptions
  totalSteps := s.totalSteps

def stepRound (s : CervoOrchestrator A F) : Option (CervoOrchestrator A F × RoundReport F) := do
  let s := { s with round := s.round + 1 }
  let (s, healthMessages) ← s.stepUnits s.units.keys
  let s ← s.emitAll healthMessages
  let best := s.bestUnit
  let s ← s.synchronize best
  return (s, s.report best)

end

end CervoOrchestrator

/-- What a host does with the swarm. -/
inductive SwarmOp (A : Type)
  | spawn (id : UnitId) (agent : A)
  | kill (id : UnitId)
  | stepRound

namespace CervoOrchestrator

variable {A F : Type} [Float64 F] [RSIAgent A F]

/-- A spawn that is refused changes nothing. -/
def step (s : CervoOrchestrator A F) : SwarmOp A → Option (CervoOrchestrator A F)
  | .spawn id agent => some ((s.spawn id agent).toOption.getD s)
  | .kill id => (s.kill id).map (·.1)
  | .stepRound => s.stepRound.map (·.1)

/-- A run that returns. -/
def run (s : CervoOrchestrator A F) (ops : List (SwarmOp A)) : Option (CervoOrchestrator A F) := ops.foldlM step s

end CervoOrchestrator

end Ccos
