import Ccos.Wire.RoundTrip

/-!
# Receipts on the wire

JSON with exact keys, numbers of 64 bits as canonical texts, and the fingerprint of what is carried.
-/

open ByteCodec

namespace Ccos

inductive CandidateWireError
  | parse (error : JsonError)
  | invalid (field : Str)
  | protocol (error : CandidateProtocolError)
  deriving DecidableEq, Repr

/-- `?` on a result of the protocol. -/
def protocol {A : Type} (x : Except CandidateProtocolError A) : Except CandidateWireError A :=
  x.mapError .protocol

def invalid {A : Type} (field : String) : Except CandidateWireError A := .error (.invalid field.toList)

/-! ## The conversions of the standard library -/

/-- `str::parse::<u64>`. -/
def parseU64 (raw : Str) : Option UInt64 :=
  let digits := (stripPrefix ['+'] raw).getD raw
  if digits ≠ [] ∧ digits.all isAsciiDigit = true ∧ Nat.ofDigitChars 10 digits 0 < 2 ^ 64 then
    some (UInt64.ofNat (Nat.ofDigitChars 10 digits 0))
  else none

/-- `u64::from_str_radix(_, 16)`, on digits alone. -/
def fromStrRadix16 (digits : Str) : Option UInt64 :=
  (digits.foldlM (fun n c => (toDigit16 c).map (n * 16 + ·)) 0).bind fun n =>
    if n < 2 ^ 64 then some (UInt64.ofNat n) else none

/-! ## Fields -/

section Fields

variable {F : Type} [WireFloat64 F]

abbrev Fields (F : Type) := List (Str × Json F)

/-- `BTreeMap::get`. -/
def getField (map : Fields F) (key : String) : Option (Json F) :=
  (map.find? fun entry => entry.1 = key.toList).map (·.2)

def optionString : Option Str → Json F
  | some value => .str value
  | none => .null

def requireObject : Json F → Except CandidateWireError (Fields F)
  | .obj map => .ok map
  | _ => invalid "wire.object"

def requireExactKeys (map : Fields F) (keys : List String) : Except CandidateWireError Unit :=
  if sortDedup (keys.map String.toList) = sortDedup (map.map (·.1)) then .ok () else invalid "wire.keys"

def requiredString (map : Fields F) (key : String) : Except CandidateWireError Str :=
  match getField map key with
  | some (.str value) => .ok value
  | _ => invalid key

def optionalString (map : Fields F) (key : String) : Except CandidateWireError (Option Str) :=
  match getField map key with
  | some .null => .ok none
  | some (.str value) => .ok (some value)
  | _ => invalid key

def requiredBool (map : Fields F) (key : String) : Except CandidateWireError Bool :=
  match getField map key with
  | some (.bool value) => .ok value
  | _ => invalid key

def requiredU16 (map : Fields F) (key : String) : Except CandidateWireError UInt16 :=
  match getField map key with
  | some (.num value) =>
    if Float64.isFinite value && Scalar.ge value (Scalar.lit 0)
        && Scalar.eq (WireFloat64.fract value) (Scalar.lit 0) && Scalar.ge (Scalar.lit 65535) value then
      .ok (WireFloat64.toU16 value)
    else invalid key
  | _ => invalid key

def requiredU64String (map : Fields F) (key : String) : Except CandidateWireError UInt64 := do
  let raw ← requiredString map key
  match parseU64 raw with
  | none => invalid key
  | some value => if natStr value.toNat ≠ raw then invalid key else .ok value

/-! ## Names -/

def originName : CandidateOrigin → Str
  | .forge => "forge".toList
  | .rsi => "rsi".toList
  | .sciRust => "scirust".toList
  | .external => "external".toList

def parseOrigin (value : Str) : Except CandidateWireError CandidateOrigin :=
  if value = "forge".toList then .ok .forge
  else if value = "rsi".toList then .ok .rsi
  else if value = "scirust".toList then .ok .sciRust
  else if value = "external".toList then .ok .external
  else invalid "candidate.origin"

def statusName : EvaluationStatus → Str
  | .succeeded => "succeeded".toList
  | .candidateFailed => "candidate_failed".toList
  | .infrastructureFailed => "infrastructure_failed".toList

def parseStatus (value : Str) : Except CandidateWireError EvaluationStatus :=
  if value = "succeeded".toList then .ok .succeeded
  else if value = "candidate_failed".toList then .ok .candidateFailed
  else if value = "infrastructure_failed".toList then .ok .infrastructureFailed
  else invalid "evaluation.status"

def decisionName : AdoptionDecision → Str
  | .promote => "promote".toList
  | .reject => "reject".toList
  | .quarantine => "quarantine".toList

def parseDecision (value : Str) : Except CandidateWireError AdoptionDecision :=
  if value = "promote".toList then .ok .promote
  else if value = "reject".toList then .ok .reject
  else if value = "quarantine".toList then .ok .quarantine
  else invalid "adoption.decision"

/-! ## Candidates -/

def u64String (n : UInt64) : Json F := .str (natStr n.toNat)

def versionNum (version : UInt16) : Json F := .num (Scalar.ofNat version.toNat)

variable (F) (sha256 : Bytes → Bytes)

def parseJson (input : Str) : Except CandidateWireError (Json F) := (Json.parse input).mapError .parse

def candidateEntries (c : CandidateEnvelope) : Fields F := [
  ("candidate_id".toList, .str c.candidateId),
  ("domain".toList, .str c.domain),
  ("fingerprint".toList, .str (c.fingerprint sha256)),
  ("origin".toList, .str (originName c.origin)),
  ("parent_candidate_id".toList, optionString c.parentCandidateId),
  ("producer_candidate_id".toList, optionString c.producerCandidateId),
  ("proposal_sha256".toList, optionString c.proposalSha256),
  ("schema_version".toList, versionNum c.schemaVersion),
  ("source_sha256".toList, .str c.sourceSha256),
  ("trial_seed".toList, u64String c.trialSeed)]

def encodeCandidate (c : CandidateEnvelope) : Except CandidateWireError Str := do
  protocol (validateCandidate sha256 c)
  return Json.write (.obj (ofEntries (candidateEntries F sha256 c)))

def decodeCandidate (input : Str) : Except CandidateWireError CandidateEnvelope := do
  let map ← requireObject (← parseJson F input)
  requireExactKeys map ["candidate_id", "domain", "fingerprint", "origin", "parent_candidate_id",
    "producer_candidate_id", "proposal_sha256", "schema_version", "source_sha256", "trial_seed"]
  let fingerprint ← requiredString map "fingerprint"
  let schemaVersion ← requiredU16 map "schema_version"
  let candidateId ← requiredString map "candidate_id"
  let producerCandidateId ← optionalString map "producer_candidate_id"
  let parentCandidateId ← optionalString map "parent_candidate_id"
  let origin ← parseOrigin (← requiredString map "origin")
  let domain ← requiredString map "domain"
  let sourceSha256 ← requiredString map "source_sha256"
  let proposalSha256 ← optionalString map "proposal_sha256"
  let trialSeed ← requiredU64String map "trial_seed"
  let candidate : CandidateEnvelope := ⟨schemaVersion, candidateId, producerCandidateId, parentCandidateId,
    origin, domain, sourceSha256, proposalSha256, trialSeed⟩
  protocol (validateCandidate sha256 candidate)
  if candidate.fingerprint sha256 ≠ fingerprint then invalid "candidate.fingerprint" else return candidate

/-! ## Evaluations -/

variable {F}

/-- `ObjectiveValue::new`. -/
def ObjectiveValue.new (name : Str) (value : F) (minimize : Bool) :
    Except CandidateProtocolError (ObjectiveValue F) := do
  refuseIf (trim name = []) (.invalidField "objective.name".toList)
  refuseIf (Float64.isFinite value = false) (.nonFiniteObjective name)
  return { name, value, minimize }

def objectiveEntries (o : ObjectiveValue F) : Fields F := [
  ("minimize".toList, .bool o.minimize),
  ("name".toList, .str o.name),
  ("value_bits".toList, .str (hexPad 16 (Float64.toBits o.value).toNat))]

def encodeObjective (o : ObjectiveValue F) : Json F := .obj (ofEntries (objectiveEntries o))

def decodeObjective (value : Json F) : Except CandidateWireError (ObjectiveValue F) := do
  let map ← requireObject value
  requireExactKeys map ["minimize", "name", "value_bits"]
  let bits ← requiredString map "value_bits"
  if byteLen bits ≠ 16 ∨ (utf8 bits).all isHexByte = false then invalid "objective.value_bits"
  else
    match fromStrRadix16 bits with
    | none => invalid "objective.value_bits"
    | some bits =>
      let name ← requiredString map "name"
      let minimize ← requiredBool map "minimize"
      protocol (ObjectiveValue.new name (WireFloat64.fromBits bits) minimize)

/-- The results are collected up to the first error. -/
def decodeObjectives : List (Json F) → Except CandidateWireError (List (ObjectiveValue F))
  | [] => .ok []
  | value :: rest => do
    let objective ← decodeObjective value
    let objectives ← decodeObjectives rest
    return objective :: objectives

def objectivesField (map : Fields F) : Except CandidateWireError (List (Json F)) :=
  match getField map "objectives" with
  | some (.arr items) => .ok items
  | _ => invalid "evaluation.objectives"

def evaluationEntries (r : EvaluationReceipt F) : Fields F := [
  ("candidate_fingerprint".toList, .str r.candidateFingerprint),
  ("evaluator_id".toList, .str r.evaluatorId),
  ("execution_profile_sha256".toList, optionString r.executionProfileSha256),
  ("failure_reason".toList, optionString r.failureReason),
  ("fingerprint".toList, .str (r.fingerprint sha256)),
  ("objectives".toList, .arr (r.objectives.map encodeObjective)),
  ("output_truncated".toList, .bool r.outputTruncated),
  ("sandbox_policy_id".toList, .str r.sandboxPolicyId),
  ("schema_version".toList, versionNum r.schemaVersion),
  ("status".toList, .str (statusName r.status)),
  ("stderr_sha256".toList, .str r.stderrSha256),
  ("stdout_sha256".toList, .str r.stdoutSha256),
  ("timed_out".toList, .bool r.timedOut),
  ("trial_seed".toList, u64String r.trialSeed),
  ("verifier_sha256".toList, optionString r.verifierSha256)]

def encodeEvaluation (c : CandidateEnvelope) (r : EvaluationReceipt F) : Except CandidateWireError Str := do
  protocol (validateEvaluation sha256 c r)
  return Json.write (.obj (ofEntries (evaluationEntries sha256 r)))

def decodeEvaluation (input : Str) (c : CandidateEnvelope) : Except CandidateWireError
    (EvaluationReceipt F) := do
  let map ← requireObject (← parseJson F input)
  requireExactKeys map ["candidate_fingerprint", "evaluator_id", "execution_profile_sha256", "failure_reason",
    "fingerprint", "objectives", "output_truncated", "sandbox_policy_id", "schema_version", "status",
    "stderr_sha256", "stdout_sha256", "timed_out", "trial_seed", "verifier_sha256"]
  let fingerprint ← requiredString map "fingerprint"
  let objectives ← decodeObjectives (← objectivesField map)
  let schemaVersion ← requiredU16 map "schema_version"
  let candidateFingerprint ← requiredString map "candidate_fingerprint"
  let evaluatorId ← requiredString map "evaluator_id"
  let sandboxPolicyId ← requiredString map "sandbox_policy_id"
  let executionProfileSha256 ← optionalString map "execution_profile_sha256"
  let verifierSha256 ← optionalString map "verifier_sha256"
  let trialSeed ← requiredU64String map "trial_seed"
  let status ← parseStatus (← requiredString map "status")
  let stdoutSha256 ← requiredString map "stdout_sha256"
  let stderrSha256 ← requiredString map "stderr_sha256"
  let timedOut ← requiredBool map "timed_out"
  let outputTruncated ← requiredBool map "output_truncated"
  let failureReason ← optionalString map "failure_reason"
  let receipt : EvaluationReceipt F := ⟨schemaVersion, candidateFingerprint, evaluatorId, sandboxPolicyId,
    executionProfileSha256, verifierSha256, trialSeed, status, objectives, stdoutSha256, stderrSha256, timedOut,
    outputTruncated, failureReason⟩
  protocol (validateEvaluation sha256 c receipt)
  if receipt.fingerprint sha256 ≠ fingerprint then invalid "evaluation.fingerprint" else return receipt

/-! ## Adoptions -/

variable (F) in
def adoptionEntries (a : AdoptionReceipt) : Fields F := [
  ("decision".toList, .str (decisionName a.decision)),
  ("evaluation_fingerprint".toList, .str a.evaluationFingerprint),
  ("fingerprint".toList, .str (a.fingerprint sha256)),
  ("policy_id".toList, .str a.policyId),
  ("previous_champion_id".toList, optionString a.previousChampionId),
  ("promoted_artifact_sha256".toList, optionString a.promotedArtifactSha256),
  ("reason".toList, .str a.reason),
  ("schema_version".toList, versionNum a.schemaVersion)]

def encodeAdoption (r : EvaluationReceipt F) (a : AdoptionReceipt) : Except CandidateWireError Str := do
  protocol (validateAdoption sha256 r a)
  return Json.write (.obj (ofEntries (adoptionEntries F sha256 a)))

def decodeAdoption (input : Str) (r : EvaluationReceipt F) : Except CandidateWireError AdoptionReceipt := do
  let map ← requireObject (← parseJson F input)
  requireExactKeys map ["decision", "evaluation_fingerprint", "fingerprint", "policy_id", "previous_champion_id",
    "promoted_artifact_sha256", "reason", "schema_version"]
  let fingerprint ← requiredString map "fingerprint"
  let schemaVersion ← requiredU16 map "schema_version"
  let evaluationFingerprint ← requiredString map "evaluation_fingerprint"
  let policyId ← requiredString map "policy_id"
  let decision ← parseDecision (← requiredString map "decision")
  let reason ← requiredString map "reason"
  let previousChampionId ← optionalString map "previous_champion_id"
  let promotedArtifactSha256 ← optionalString map "promoted_artifact_sha256"
  let receipt : AdoptionReceipt := ⟨schemaVersion, evaluationFingerprint, policyId, decision, reason,
    previousChampionId, promotedArtifactSha256⟩
  protocol (validateAdoption sha256 r receipt)
  if receipt.fingerprint sha256 ≠ fingerprint then invalid "adoption.fingerprint" else return receipt

end Fields

end Ccos
