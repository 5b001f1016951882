import Ccos.Candidate.Policy
import Ccos.Candidate.Search
import Ccos.Log.EventLog

/-!
# The candidate audit

Validated receipts are mirrored into the event log, each at most once. The log is kept as the list of
what was journaled; `eventLog` is its hash-chained form.
-/

open Std ByteCodec

namespace Ccos

/-- What the audit journals. -/
inductive AuditEvent (F : Type)
  | candidate (candidate : CandidateEnvelope)
  | evaluation (receipt : EvaluationReceipt F)
  | counterexample (candidateId : Str) (receipt : CounterexampleReceipt)
  | promotionEvidence (evidence : PromotionEvidenceBundle)
  | promotionVeto (candidateId counterexample evidence : Str)
  | adoption (receipt : AdoptionReceipt)
  deriving DecidableEq

structure CcosCandidateAudit (F : Type) where
  log : List (AuditEvent F)
  candidates : ExtTreeSet Str
  evaluations : ExtTreeSet Str
  promotionEvidence : ExtTreeSet Str
  counterexamplesByCandidate : BTreeMap Str (ExtTreeSet Str)
  counterexampleVetoes : ExtTreeSet Str
  adoptions : ExtTreeSet Str

/-- The digest of the receipts, and the tools of the event log. -/
structure AuditTools (F : Type) where
  sha256 : Bytes → Bytes
  log : LogTools F

variable {F : Type} [Float64 F] (t : AuditTools F)

def AuditEvent.payload : AuditEvent F → EventPayload F
  | .candidate c => .custom "candidate_envelope_v1".toList (c.auditPayload t.sha256)
  | .evaluation r => .custom "candidate_evaluation_v1".toList (r.auditPayload t.sha256)
  | .counterexample id r =>
    .custom "candidate_counterexample_v1".toList ("candidate_id=".toList ++ id ++ ';' :: r.auditPayload t.sha256)
  | .promotionEvidence b => .custom "candidate_promotion_evidence_v1".toList (b.auditPayload t.sha256)
  | .promotionVeto id receipt evidence =>
    .custom "candidate_promotion_veto_v1".toList
      ("candidate=".toList ++ id ++ ";counterexample=".toList ++ receipt ++ ";evidence=".toList ++ evidence)
  | .adoption a => .custom "candidate_adoption_v1".toList (a.auditPayload t.sha256)

namespace CcosCandidateAudit

def new : CcosCandidateAudit F where
  log := []
  candidates := ∅
  evaluations := ∅
  promotionEvidence := ∅
  counterexamplesByCandidate := ∅
  counterexampleVetoes := ∅
  adoptions := ∅

def eventLog (s : CcosCandidateAudit F) : EventLog F :=
  s.log.foldl (fun log event => log.append t.log .agentAction (event.payload t)) []

def append (s : CcosCandidateAudit F) (event : AuditEvent F) : CcosCandidateAudit F :=
  { s with log := s.log ++ [event] }

/-- `Ok(self.log.chain_head())`. -/
def answer (s : CcosCandidateAudit F) : Except CandidateProtocolError Hash × CcosCandidateAudit F :=
  (.ok (s.eventLog t).chainHead, s)

/-- `call?; Ok(value)` -/
def returning {A : Type} (value : A) :
    Except CandidateProtocolError Hash × CcosCandidateAudit F → Except CandidateProtocolError A × CcosCandidateAudit F
  | (.error e, s) => (.error e, s)
  | (.ok _, s) => (.ok value, s)

omit [Float64 F] in
@[simp] theorem returning_snd {A : Type} (value : A) (out : Except CandidateProtocolError Hash × CcosCandidateAudit F) :
    (returning value out).2 = out.2 := by
  obtain ⟨_ | _, _⟩ := out <;> rfl

def recordCandidate (s : CcosCandidateAudit F) (candidate : CandidateEnvelope) :
    Except CandidateProtocolError Hash × CcosCandidateAudit F :=
  match validateCandidate t.sha256 candidate with
  | .error e => (.error e, s)
  | .ok () =>
    let fingerprint := candidate.fingerprint t.sha256
    if fingerprint ∈ s.candidates then s.answer t
    else
      let s := { s with candidates := s.candidates.insert fingerprint }
      (s.append (.candidate candidate)).answer t

def recordEvaluation (s : CcosCandidateAudit F) (candidate : CandidateEnvelope) (receipt : EvaluationReceipt F) :
    Except CandidateProtocolError Hash × CcosCandidateAudit F :=
  match validateEvaluation t.sha256 candidate receipt with
  | .error e => (.error e, s)
  | .ok () =>
    if candidate.fingerprint t.sha256 ∉ s.candidates then
      (.error (.policyViolation "candidate must be recorded before its evaluation".toList), s)
    else
      let fingerprint := receipt.fingerprint t.sha256
      if fingerprint ∈ s.evaluations then s.answer t
      else
        let s := { s with evaluations := s.evaluations.insert fingerprint }
        (s.append (.evaluation receipt)).answer t

/-- The counterexamples of a candidate id. -/
def counterexamplesOf (s : CcosCandidateAudit F) (candidateId : Str) : ExtTreeSet Str :=
  s.counterexamplesByCandidate[candidateId]?.getD ∅

def recordCounterexample (s : CcosCandidateAudit F) (candidate : CandidateEnvelope) (witness : CounterexampleWitness) :
    Except CandidateProtocolError Hash × CcosCandidateAudit F :=
  match witness.validate t.sha256 candidate with
  | .error e => (.error e, s)
  | .ok () =>
    if candidate.fingerprint t.sha256 ∉ s.candidates then
      (.error (.policyViolation "candidate must be recorded before its counterexample".toList), s)
    else
      let fingerprint := witness.receipt.fingerprint t.sha256
      let receipts := s.counterexamplesOf candidate.candidateId
      if fingerprint ∈ receipts then s.answer t
      else
        let s := { s with
          counterexamplesByCandidate :=
            s.counterexamplesByCandidate.insert candidate.candidateId (receipts.insert fingerprint) }
        (s.append (.counterexample candidate.candidateId witness.receipt)).answer t

def hasCounterexample (s : CcosCandidateAudit F) (candidateId : Str) : Bool :=
  s.counterexamplesByCandidate[candidateId]?.any fun receipts => !receipts.isEmpty

/-- Both evaluations of a row are audited. -/
def auditedRow (s : CcosCandidateAudit F) (row : SeedEvidence) : Bool :=
  s.evaluations.contains row.championEvaluationFingerprint
    && s.evaluations.contains row.challengerEvaluationFingerprint

def recordPromotionEvidence (s : CcosCandidateAudit F) (evidence : PromotionEvidenceBundle) :
    Except CandidateProtocolError Hash × CcosCandidateAudit F :=
  if (evidence.selection ++ evidence.holdout).any (!s.auditedRow ·) then
    (.error (.policyViolation
      "every promotion-evidence evaluation must be audited before the evidence bundle".toList), s)
  else
    let fingerprint := evidence.fingerprint t.sha256
    if fingerprint ∈ s.promotionEvidence then s.answer t
    else
      let s := { s with promotionEvidence := s.promotionEvidence.insert fingerprint }
      (s.append (.promotionEvidence evidence)).answer t

/-- The reason of a receipt names evidence that is audited. -/
def bindsEvidence (s : CcosCandidateAudit F) (receipt : AdoptionReceipt) : Bool :=
  s.promotionEvidence.toList.any fun evidence => containsStr evidence receipt.reason

def recordAdoption (s : CcosCandidateAudit F) (evaluation : EvaluationReceipt F) (receipt : AdoptionReceipt) :
    Except CandidateProtocolError Hash × CcosCandidateAudit F :=
  match validateAdoption t.sha256 evaluation receipt with
  | .error e => (.error e, s)
  | .ok () =>
    if evaluation.fingerprint t.sha256 ∉ s.evaluations then
      (.error (.policyViolation "evaluation must be recorded before its adoption decision".toList), s)
    else if receipt.decision = .promote ∧ s.bindsEvidence receipt = false then
      (.error (.policyViolation
        "promotion must bind a previously audited repeated-seed evidence bundle".toList), s)
    else
      let fingerprint := receipt.fingerprint t.sha256
      if fingerprint ∈ s.adoptions then s.answer t
      else
        let s := { s with adoptions := s.adoptions.insert fingerprint }
        (s.append (.adoption receipt)).answer t

/-- `outcome` is what the evaluator returns for the candidate. -/
def evaluate (s : CcosCandidateAudit F) (candidate : CandidateEnvelope)
    (outcome : Except CandidateProtocolError (EvaluationReceipt F)) :
    Except CandidateProtocolError (EvaluationReceipt F) × CcosCandidateAudit F :=
  match s.recordCandidate t candidate with
  | (.error e, s) => (.error e, s)
  | (.ok _, s) =>
    match outcome with
    | .error e => (.error e, s)
    | .ok receipt => returning receipt (s.recordEvaluation t candidate receipt)

def decideChampionChallenger (s : CcosCandidateAudit F) (champion challenger : EvaluationReceipt F)
    (policy : ChampionChallengerPolicy F) (promotedArtifactSha256 : Option Str) :
    Except CandidateProtocolError AdoptionReceipt × CcosCandidateAudit F :=
  if challenger.fingerprint t.sha256 ∉ s.evaluations then
    (.error (.policyViolation "challenger evaluation must be audited before selection decision".toList), s)
  else
    match policy.decide t.sha256 champion challenger promotedArtifactSha256 with
    | .error e => (.error e, s)
    | .ok adoption => returning adoption (s.recordAdoption t challenger adoption)

/-- Journals a veto once. -/
def veto (s : CcosCandidateAudit F) (challengerId counterexample evidence : Str) : CcosCandidateAudit F :=
  let key := challengerId ++ ':' :: counterexample ++ ':' :: evidence
  if key ∈ s.counterexampleVetoes then s
  else
    { s with counterexampleVetoes := s.counterexampleVetoes.insert key }.append
      (.promotionVeto challengerId counterexample evidence)

def decideRepeatedSeed (s : CcosCandidateAudit F) (selection holdout : List (EvaluationPair F))
    (policy : RepeatedSeedPromotionPolicy F) (promotedArtifactSha256 : Option Str) :
    Except CandidateProtocolError RepeatedSeedDecision × CcosCandidateAudit F :=
  match policy.decide t.sha256 selection holdout promotedArtifactSha256 with
  | .error e => (.error e, s)
  | .ok decision =>
    match s.recordPromotionEvidence t decision.evidence with
    | (.error e, s) => (.error e, s)
    | (.ok _, s) =>
      let challengerId := decision.evidence.challengerCandidateId
      match decision.adoption.decision, (s.counterexamplesOf challengerId).toList.head? with
      | .promote, some counterexample =>
        (.error (.policyViolation ("promotion vetoed by audited counterexample ".toList ++ counterexample
            ++ " for candidate ".toList ++ challengerId)),
          s.veto challengerId counterexample (decision.evidence.fingerprint t.sha256))
      | _, _ =>
        match (selection ++ holdout).find? fun pair =>
            pair.challenger.fingerprint t.sha256 = decision.adoption.evaluationFingerprint with
        | none =>
          (.error (.policyViolation
            "repeated-seed adoption anchor is absent from supplied evidence".toList), s)
        | some pair => returning decision (s.recordAdoption t pair.challenger decision.adoption)

end CcosCandidateAudit

end Ccos
