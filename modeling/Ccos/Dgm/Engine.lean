import Ccos.Dgm.Archive

/-!
# The Darwin–Gödel engine

A step branches from a variant of the archive, asks for a patch, and measures it on a copy of the live tree.
-/

open ByteCodec

namespace Ccos

structure Proposal where
  patch : Patch
  rationale : Str
  deriving DecidableEq, Repr

/-- What a proposer sees. -/
structure ImprovementContext (F : Type) where
  workspace : Tree
  goal : Str
  parentFitness : Option (Fitness F)
  recentRejections : List Str
  simulatedFeedback : List Str

structure Prediction where
  pass : Option Bool
  reason : Option Str
  deriving DecidableEq, Repr

/-- The proposer and the predictor, with whatever state `P` they keep. -/
structure Advisors (P F : Type) where
  propose : P → ImprovementContext F → Rng → Except DgmError (Option Proposal) × P × Rng
  predict : Option (P → Str → Str → Str → Str → Prediction × P)

structure EvaluationAttestation where
  sourceBefore : Str
  sourceAfter : Str
  sandboxIdentity : Str
  deriving DecidableEq, Repr

/-- A deterministic evaluator, with the evidence that it leaves. -/
structure PromotionEvaluator (F : Type) where
  fitness : Tree → Fitness F
  attestation : Tree → EvaluationAttestation

structure DgmConfig (F : Type) where
  /-- The names of the live root and of the temporary root, which stand in messages and backup ids. -/
  workspaceRoot : Str
  snapshotRoot : Str
  goal : Str
  acceptRequiresAllGreen : Bool
  rejectionMemory : Nat
  minScoreGain : F
  simulatedRevisions : Nat

inductive StepOutcome (F : Type)
  | noProposal
  | evaluated (variantId : Str) (parentId : Option Str) (accepted : Bool) (fitness : Fitness F)
  deriving DecidableEq, Repr

/-- The state of the engine and of its evaluator. -/
structure DgmEngine (P F : Type) where
  archive : Archive F
  advisors : P
  rng : Rng
  recentRejections : List Str
  history : List (StepOutcome F)
  nextSeq : Nat
  prescreenSkips : Nat
  revisions : Nat
  attestation : Option EvaluationAttestation

/-- `matches!(pred, Some(p) if p.pass == Some(false))` -/
def predIsBroken (pred : Option Prediction) : Bool := pred.any fun p => p.pass = some false

/-- `Some(p) if !p.patch.is_noop()` -/
def useful (proposal : Option Proposal) : Option Proposal := proposal.filter fun p => !p.patch.isNoop

section Engine

variable {P F : Type} [InfFloat64 F] (digest : Bytes → Bytes) (advisors : Advisors P F)
  (evaluator : PromotionEvaluator F) (config : DgmConfig F)

namespace DgmEngine

def new (archive : Archive F) (state : P) (seed : UInt64) : DgmEngine P F where
  archive := archive
  advisors := state
  rng := Rng.new seed
  recentRejections := []
  history := []
  nextSeq := archive.variants.length
  prescreenSkips := 0
  revisions := 0
  attestation := none

def record (s : DgmEngine P F) (outcome : StepOutcome F) : Except DgmError (StepOutcome F) × DgmEngine P F :=
  (.ok outcome, { s with history := s.history ++ [outcome] })

variable (workspace : Tree)

def proposeWith (s : DgmEngine P F) (parent : Variant F) (rejections feedback : List Str) :
    Except DgmError (Option Proposal) × DgmEngine P F :=
  let answer := advisors.propose s.advisors
    ⟨workspace, config.goal, parent.fitness, rejections, feedback⟩ s.rng
  (answer.1, { s with advisors := answer.2.1, rng := answer.2.2 })

/-- Nothing is predicted of a file that cannot be read. -/
def predictPatch (s : DgmEngine P F) (patch : Patch) : Option Prediction × DgmEngine P F :=
  match advisors.predict, (relativeTarget patch.target).bind (readTarget workspace patch.target) |>.bind decodeUtf8 with
  | some predict, some content =>
    let answer := predict s.advisors patch.target content patch.find patch.replace
    (some answer.1, { s with advisors := answer.2 })
  | _, _ => (none, s)

def noReason : Str := "un simulateur prédit que ce patch casserait".toList

/-- The loop of the simulated revisions: the last proposal, and what is predicted of it. -/
def reviseFrom (parent : Variant F) (rejections : List Str) :
    Nat → List Str → Proposal → Option Prediction → DgmEngine P F →
      Except DgmError (Proposal × Option Prediction) × DgmEngine P F
  | 0, _, proposal, pred, s => (.ok (proposal, pred), s)
  | left + 1, feedback, proposal, pred, s =>
    if predIsBroken pred then
      let feedback := feedback ++ [(pred.bind (·.reason)).getD noReason]
      let s := { s with revisions := s.revisions + 1 }
      let answer := s.proposeWith advisors config workspace parent rejections feedback
      match answer.1 with
      | .error e => (.error e, answer.2)
      | .ok proposed =>
        match useful proposed with
        | none => (.ok (proposal, pred), answer.2)
        | some revised =>
          let predicted := answer.2.predictPatch advisors workspace revised.patch
          reviseFrom parent rejections left feedback revised predicted.1 predicted.2
    else (.ok (proposal, pred), s)

/-- The copy is patched and measured; the evaluator keeps its evidence. -/
def evaluateCandidate (s : DgmEngine P F) (patch : Patch) : Fitness F × DgmEngine P F :=
  match applyToSnapshot digest config.snapshotRoot (copyTree workspace) patch with
  | .error e => (.broken ("patch did not apply: ".toList ++ e.display), s)
  | .ok snapshot =>
    (evaluator.fitness snapshot, { s with attestation := some (evaluator.attestation snapshot) })

/-- Predicted broken, the evaluation is skipped. -/
def measure (s : DgmEngine P F) (patch : Patch) (pred : Option Prediction) : Fitness F × DgmEngine P F :=
  if predIsBroken pred then
    (.broken "prescreen: prédit cassé (build évité)".toList, { s with prescreenSkips := s.prescreenSkips + 1 })
  else s.evaluateCandidate digest evaluator config workspace patch

def rememberRejection (s : DgmEngine P F) (rationale : Str) : DgmEngine P F :=
  let rejections := s.recentRejections ++ [rationale]
  { s with recentRejections := rejections.drop (rejections.length - config.rejectionMemory) }

def parentFitness (parent : Variant F) : Fitness F :=
  parent.fitness.getD (.broken "parent had no fitness".toList)

def acceptable (parent : Variant F) (fitness : Fitness F) : Bool :=
  (!config.acceptRequiresAllGreen || fitness.allGreen) && fitness.isBetterThan (parentFitness parent)
    && fitness.meetsMinGain (parentFitness parent) config.minScoreGain

/-- What is measured joins the archive when it is better than the parent. -/
def conclude (s : DgmEngine P F) (parent : Variant F) (proposal : Proposal) (fitness : Fitness F) :
    Except DgmError (StepOutcome F) × DgmEngine P F :=
  let accepted := acceptable config parent fitness
  let child := { Variant.child digest parent proposal.patch proposal.rationale s.nextSeq with
    fitness := some fitness, status := if accepted then .accepted else .rejected }
  let s := { s with nextSeq := s.nextSeq + 1 }
  let s := if accepted then { s with archive := s.archive.insert child }
    else s.rememberRejection config child.rationale
  s.record (.evaluated child.id child.parent accepted fitness)

def step (s : DgmEngine P F) : Except DgmError (StepOutcome F) × DgmEngine P F :=
  let selected := s.archive.selectParent s.rng
  let s := { s with rng := selected.2 }
  match selected.1 with
  | none => s.record .noProposal
  | some parent =>
    let rejections := s.recentRejections
    let answer := s.proposeWith advisors config workspace parent rejections []
    match answer.1 with
    | .error e => (.error e, answer.2)
    | .ok proposed =>
      match useful proposed with
      | none => answer.2.record .noProposal
      | some proposal =>
        let predicted := answer.2.predictPatch advisors workspace proposal.patch
        let revised := reviseFrom advisors config workspace parent rejections config.simulatedRevisions [] proposal
          predicted.1 predicted.2
        match revised.1 with
        | .error e => (.error e, revised.2)
        | .ok (proposal, pred) =>
          let measured := revised.2.measure digest evaluator config workspace proposal.patch pred
          measured.2.conclude digest config parent proposal measured.1

end DgmEngine

end Engine

end Ccos
