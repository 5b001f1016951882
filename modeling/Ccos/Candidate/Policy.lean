import Ccos.Candidate.Protocol

/-!
# When a candidate may be promoted

One comparison of a champion and a challenger only selects. A promotion takes paired measurements
over two disjoint sets of seeds, and the fingerprint of that evidence goes into its reason.
-/

open ByteCodec

namespace Ccos

variable {F : Type} [Float64 F] (sha256 : Bytes → Bytes)

/-! ## Comparing two evaluations -/

def sameSchema (baseline candidate : ObjectiveValue F) : Bool :=
  baseline.name = candidate.name && baseline.minimize = candidate.minimize

def requireComparable (champion challenger : EvaluationReceipt F) : Except CandidateProtocolError Unit := do
  refuseIf (champion.evaluatorId ≠ challenger.evaluatorId ∨ champion.sandboxPolicyId ≠ challenger.sandboxPolicyId
      ∨ champion.executionProfileSha256 ≠ challenger.executionProfileSha256
      ∨ champion.verifierSha256 ≠ challenger.verifierSha256)
    (.policyViolation "champion and challenger were not measured under the same execution contract".toList)
  refuseIf (champion.objectives.isEmpty = true ∨ champion.objectives.length ≠ challenger.objectives.length)
    (.policyViolation "champion and challenger objective schemas differ".toList)
  refuseIf ((List.zip champion.objectives challenger.objectives).any (fun (b, c) => !sameSchema b c) = true)
    (.policyViolation "champion and challenger objective schemas differ".toList)

def improvement (baseline candidate : ObjectiveValue F) : F :=
  let denominator := Scalar.max (Scalar.abs baseline.value) (Scalar.lit 1e-12)
  if baseline.minimize then (baseline.value - candidate.value) / denominator
  else (candidate.value - baseline.value) / denominator

def improvementsOf : List (ObjectiveValue F × ObjectiveValue F) → Except CandidateProtocolError (List F)
  | [] => .ok []
  | (baseline, candidate) :: rest => do
    refuseIf (Float64.isFinite (improvement baseline candidate) = false)
      (.policyViolation "relative objective improvement is non-finite".toList)
    let improvements ← improvementsOf rest
    .ok (improvement baseline candidate :: improvements)

def relativeImprovements (champion challenger : EvaluationReceipt F) : Except CandidateProtocolError (List F) := do
  requireComparable champion challenger
  improvementsOf (List.zip champion.objectives challenger.objectives)

/-! ## One seed -/

structure ChampionChallengerPolicy (F : Type) where
  policyId : Str
  minPrimaryRelativeImprovement : F
  maxRelativeRegression : F

def ChampionChallengerPolicy.decide (policy : ChampionChallengerPolicy F) (champion challenger : EvaluationReceipt F)
    (_promotedArtifactSha256 : Option Str) : Except CandidateProtocolError AdoptionReceipt :=
  let answer (decision : AdoptionDecision) (reason : Str) :=
    AdoptionReceipt.new sha256 challenger policy.policyId decision reason (some champion.candidateFingerprint) none
  if champion.status ≠ .succeeded ∨ challenger.status ≠ .succeeded then
    answer .reject "champion/challenger comparison requires two successful evaluations".toList
  else do
    let improvements ← relativeImprovements champion challenger
    if (improvements.drop 1).any (Scalar.lt · (-policy.maxRelativeRegression)) then
      answer .reject "challenger regresses a protected secondary objective".toList
    -- Comparable evaluations have a first objective.
    else if Scalar.lt (improvements.headD (Scalar.lit 0)) policy.minPrimaryRelativeImprovement then
      answer .reject "challenger does not meet the primary improvement threshold".toList
    else
      answer .quarantine
        "single-seed gate passed; repeated-seed disjoint holdout is required for promotion".toList

/-! ## The evidence over many seeds -/

structure EvaluationPair (F : Type) where
  championCandidate : CandidateEnvelope
  champion : EvaluationReceipt F
  challengerCandidate : CandidateEnvelope
  challenger : EvaluationReceipt F
  deriving DecidableEq

structure SeedEvidence where
  seed : UInt64
  championCandidateId : Str
  challengerCandidateId : Str
  championEnvelopeFingerprint : Str
  challengerEnvelopeFingerprint : Str
  championEvaluationFingerprint : Str
  challengerEvaluationFingerprint : Str
  deriving DecidableEq, Repr

structure PromotionEvidenceBundle where
  championCandidateId : Str
  challengerCandidateId : Str
  selection : List SeedEvidence
  holdout : List SeedEvidence
  deriving DecidableEq, Repr

def SeedEvidence.canonicalBytes (e : SeedEvidence) : Bytes :=
  pushU64 e.seed ++ pushStr e.championCandidateId ++ pushStr e.challengerCandidateId
    ++ pushStr e.championEnvelopeFingerprint ++ pushStr e.challengerEnvelopeFingerprint
    ++ pushStr e.championEvaluationFingerprint ++ pushStr e.challengerEvaluationFingerprint

/-- The evidence of one pair. -/
def EvaluationPair.evidence (pair : EvaluationPair F) : SeedEvidence where
  seed := pair.champion.trialSeed
  championCandidateId := pair.championCandidate.candidateId
  challengerCandidateId := pair.challengerCandidate.candidateId
  championEnvelopeFingerprint := pair.championCandidate.fingerprint sha256
  challengerEnvelopeFingerprint := pair.challengerCandidate.fingerprint sha256
  championEvaluationFingerprint := pair.champion.fingerprint sha256
  challengerEvaluationFingerprint := pair.challenger.fingerprint sha256

/-- What one pair of a stage must meet, against the seeds before it and the first pair of all. -/
def validatePair (championId challengerId : Str) (anchor : EvaluationPair F) (seeds : List UInt64)
    (pair : EvaluationPair F) : Except CandidateProtocolError Unit := do
  validateEvaluation sha256 pair.championCandidate pair.champion
  validateEvaluation sha256 pair.challengerCandidate pair.challenger
  refuseIf (pair.champion.status ≠ .succeeded ∨ pair.challenger.status ≠ .succeeded)
    (.policyViolation "repeated-seed evidence requires successful paired evaluations".toList)
  refuseIf (pair.championCandidate.trialSeed ≠ pair.challengerCandidate.trialSeed
      ∨ pair.champion.trialSeed ≠ pair.challenger.trialSeed
      ∨ pair.champion.trialSeed ≠ pair.championCandidate.trialSeed)
    (.policyViolation "champion/challenger evidence pair must use one identical trial seed".toList)
  refuseIf (pair.champion.trialSeed ∈ seeds)
    (.policyViolation "duplicate seed inside repeated-seed evidence stage".toList)
  refuseIf (pair.championCandidate.candidateId ≠ championId ∨ pair.challengerCandidate.candidateId ≠ challengerId)
    (.policyViolation "all evidence rows must measure the same champion and challenger content".toList)
  refuseIf (pair.championCandidate.domain ≠ pair.challengerCandidate.domain
      ∨ pair.championCandidate.domain ≠ anchor.championCandidate.domain)
    (.policyViolation "all evidence rows must use one candidate domain".toList)
  requireComparable pair.champion pair.challenger
  requireComparable anchor.champion pair.champion
  requireComparable anchor.champion pair.challenger

namespace PromotionEvidenceBundle

def stageEntries (championId challengerId : Str) (anchor : EvaluationPair F) :
    List UInt64 → List (EvaluationPair F) → Except CandidateProtocolError (List SeedEvidence)
  | _, [] => .ok []
  | seeds, pair :: rest => do
    validatePair sha256 championId challengerId anchor seeds pair
    let entries ← stageEntries championId challengerId anchor (pair.champion.trialSeed :: seeds) rest
    .ok (pair.evidence sha256 :: entries)

def validateStage (pairs : List (EvaluationPair F)) (championId challengerId : Str) (anchor : EvaluationPair F) :
    Except CandidateProtocolError (List SeedEvidence) := do
  let entries ← stageEntries sha256 championId challengerId anchor [] pairs
  .ok (sortBy (fun a b => compare a.seed b.seed) entries)

def fromPairs (selection holdout : List (EvaluationPair F)) :
    Except CandidateProtocolError PromotionEvidenceBundle :=
  match selection.head?.or holdout.head? with
  | none => .error (.policyViolation "empty evidence bundle".toList)
  | some first => do
    let championCandidateId := first.championCandidate.candidateId
    let challengerCandidateId := first.challengerCandidate.candidateId
    refuseIf (championCandidateId = challengerCandidateId)
      (.policyViolation "champion and challenger must be different content-addressed candidates".toList)
    let selection ← validateStage sha256 selection championCandidateId challengerCandidateId first
    let holdout ← validateStage sha256 holdout championCandidateId challengerCandidateId first
    refuseIf (holdout.any (fun entry => entry.seed ∈ selection.map SeedEvidence.seed) = true)
      (.policyViolation "selection and holdout seed sets must be disjoint".toList)
    .ok { championCandidateId, challengerCandidateId, selection, holdout }

def stageBytes (entries : List SeedEvidence) : Bytes :=
  pushLen entries.length ++ entries.flatMap SeedEvidence.canonicalBytes

def canonicalBytes (b : PromotionEvidenceBundle) : Bytes :=
  utf8 "memorithm.promotion-evidence.v1\x00".toList ++ pushStr b.championCandidateId
    ++ pushStr b.challengerCandidateId ++ stageBytes b.selection ++ stageBytes b.holdout

def fingerprint (b : PromotionEvidenceBundle) : Str := digestHex sha256 b.canonicalBytes

def auditPayload (b : PromotionEvidenceBundle) : Str :=
  "schema=1;evidence=".toList ++ b.fingerprint sha256 ++ ";champion=".toList ++ b.championCandidateId
    ++ ";challenger=".toList ++ b.challengerCandidateId ++ ";selection=".toList ++ natStr b.selection.length
    ++ ";holdout=".toList ++ natStr b.holdout.length

end PromotionEvidenceBundle

/-! ## Many seeds -/

structure RepeatedSeedDecision where
  adoption : AdoptionReceipt
  evidence : PromotionEvidenceBundle
  deriving DecidableEq, Repr

structure RepeatedSeedPromotionPolicy (F : Type) where
  policyId : Str
  minSelectionPairs : Nat
  minHoldoutPairs : Nat
  minPrimaryRelativeImprovement : F
  maxRelativeRegression : F
  minPrimaryWinRateBps : UInt16

def maxBps : Nat := 10000

/-- `usize::saturating_mul`. -/
def saturatingMul (a b : Nat) : Nat := min (a * b) (2 ^ 64 - 1)

namespace RepeatedSeedPromotionPolicy

/-- The primary improvements of a stage; `none` once a secondary objective regresses. -/
def primaries (policy : RepeatedSeedPromotionPolicy F) :
    List (EvaluationPair F) → Except CandidateProtocolError (Option (List F))
  | [] => .ok (some [])
  | pair :: rest => do
    let improvements ← relativeImprovements pair.champion pair.challenger
    if (improvements.drop 1).any (Scalar.lt · (-policy.maxRelativeRegression)) then .ok none
    else
      let primary ← policy.primaries rest
      .ok (primary.map (improvements.headD (Scalar.lit 0) :: ·))

def stagePasses (policy : RepeatedSeedPromotionPolicy F) (pairs : List (EvaluationPair F)) :
    Except CandidateProtocolError Bool := do
  match ← policy.primaries pairs with
  | none => .ok false
  | some primary =>
    let wins := primary.countP (Scalar.ge · policy.minPrimaryRelativeImprovement)
    match (sortBy Float64.totalCmp primary)[(primary.length - 1) / 2]? with
    | none => .error .panicked
    | some lowerMedian =>
      .ok (Scalar.ge lowerMedian policy.minPrimaryRelativeImprovement
        && saturatingMul wins maxBps ≥ saturatingMul pairs.length policy.minPrimaryWinRateBps.toNat)

/-- The pair with the least seed, the first of them if there are several. -/
def minBySeed : List (EvaluationPair F) → Option (EvaluationPair F)
  | [] => none
  | pair :: rest =>
    match minBySeed rest with
    | none => some pair
    | some best => if best.challenger.trialSeed < pair.challenger.trialSeed then some best else some pair

/-- The decision, its reason and the artifact, once both gates have been asked. -/
def verdict (selectionPassed holdoutPassed : Bool) (evidenceFingerprint : Str) (artifact : Option Str) :
    Except CandidateProtocolError (AdoptionDecision × Str × Option Str) :=
  if !selectionPassed then
    .ok (.reject, "selection repeated-seed gate failed; evidence_sha256=".toList ++ evidenceFingerprint, none)
  else if !holdoutPassed then
    .ok (.reject, "disjoint holdout gate failed; evidence_sha256=".toList ++ evidenceFingerprint, none)
  else
    match artifact with
    | none => .error (.policyViolation "successful repeated-seed promotion requires artifact digest".toList)
    | some artifact => do
      refuseIf (isSha256Hex artifact = false) (.invalidField "promotion.promoted_artifact_sha256".toList)
      .ok (.promote, "selection and disjoint holdout passed repeated-seed gates; evidence_sha256=".toList
        ++ evidenceFingerprint, some artifact)

def decide (policy : RepeatedSeedPromotionPolicy F) (selection holdout : List (EvaluationPair F))
    (promotedArtifactSha256 : Option Str) : Except CandidateProtocolError RepeatedSeedDecision := do
  refuseIf (selection.length < policy.minSelectionPairs ∨ holdout.length < policy.minHoldoutPairs)
    (.policyViolation "insufficient paired evidence for repeated-seed promotion".toList)
  let evidence ← PromotionEvidenceBundle.fromPairs sha256 selection holdout
  match minBySeed holdout with
  | none => .error (.policyViolation "holdout is empty".toList)
  | some anchor =>
    let selectionPassed ← policy.stagePasses selection
    let holdoutPassed ← policy.stagePasses holdout
    let (decision, reason, artifact) ←
      verdict selectionPassed holdoutPassed (evidence.fingerprint sha256) promotedArtifactSha256
    let adoption ← AdoptionReceipt.new sha256 anchor.challenger policy.policyId decision reason
      (some evidence.championCandidateId) artifact
    validateAdoption sha256 anchor.challenger adoption
    .ok { adoption, evidence }

end RepeatedSeedPromotionPolicy

end Ccos
