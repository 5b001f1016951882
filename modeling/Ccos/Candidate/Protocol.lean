import Ccos.Scalar
import Ccos.Lib.ByteCodec
import Ccos.Log.EventLog

/-!
# Candidates, evaluations and adoptions

The receipts, their canonical bytes, and the checks that accept them. The digest is left open, as a
function from bytes to bytes.
-/

open ByteCodec

namespace Ccos

inductive CandidateProtocolError
  | invalidField (field : Str)
  | nonFiniteObjective (name : Str)
  | policyViolation (message : Str)
  | harness (message : Str)
  /-- Not a value of the source: an index out of range, which stops the call. -/
  | panicked
  deriving DecidableEq, Repr

/-- `if bad { return Err(e); }` -/
def refuseIf (bad : Prop) [Decidable bad] (e : CandidateProtocolError) : Except CandidateProtocolError Unit :=
  if bad then .error e else .ok ()

@[simp] theorem refuseIf_ok {bad : Prop} [Decidable bad] {e : CandidateProtocolError} {u : Unit} :
    refuseIf bad e = .ok u ↔ ¬ bad := by
  unfold refuseIf
  split <;> simp [*]

/-! ## Canonical bytes -/

/-- A text as it is hashed: its length in eight bytes, then its UTF-8 form. -/
def pushStr (value : Str) : Bytes := putBytes 8 (utf8 value)

def pushU8 (value : UInt8) : Bytes := [value]

def pushU16 (value : UInt16) : Bytes := leOf 2 value.toNat

def pushU64 (value : UInt64) : Bytes := leOf 8 value.toNat

/-- A length, as `u64`. -/
def pushLen (n : Nat) : Bytes := leOf 8 n

def pushBool (value : Bool) : Bytes := pushU8 (if value then 1 else 0)

def pushOptStr : Option Str → Bytes
  | some value => pushU8 1 ++ pushStr value
  | none => pushU8 0

def digestHex (sha256 : Bytes → Bytes) (bytes : Bytes) : Str := lowerHex (sha256 bytes)

def candidateProtocolVersion : UInt16 := 1

/-! ## The receipts -/

inductive CandidateOrigin
  | forge | rsi | sciRust | external
  deriving DecidableEq, Repr

def CandidateOrigin.tag : CandidateOrigin → UInt8
  | .forge => 1
  | .rsi => 2
  | .sciRust => 3
  | .external => 255

structure CandidateEnvelope where
  schemaVersion : UInt16
  /-- The same for one source in every trial. -/
  candidateId : Str
  producerCandidateId : Option Str
  parentCandidateId : Option Str
  origin : CandidateOrigin
  domain : Str
  sourceSha256 : Str
  proposalSha256 : Option Str
  trialSeed : UInt64
  deriving DecidableEq, Repr

structure ObjectiveValue (F : Type) where
  name : Str
  value : F
  minimize : Bool
  deriving DecidableEq, Repr

inductive EvaluationStatus
  | succeeded | candidateFailed | infrastructureFailed
  deriving DecidableEq, Repr

def EvaluationStatus.tag : EvaluationStatus → UInt8
  | .succeeded => 1
  | .candidateFailed => 2
  | .infrastructureFailed => 3

structure EvaluationReceipt (F : Type) where
  schemaVersion : UInt16
  candidateFingerprint : Str
  evaluatorId : Str
  sandboxPolicyId : Str
  executionProfileSha256 : Option Str
  verifierSha256 : Option Str
  trialSeed : UInt64
  status : EvaluationStatus
  objectives : List (ObjectiveValue F)
  stdoutSha256 : Str
  stderrSha256 : Str
  timedOut : Bool
  outputTruncated : Bool
  failureReason : Option Str
  deriving DecidableEq, Repr

inductive AdoptionDecision
  | promote | reject | quarantine
  deriving DecidableEq, Repr

def AdoptionDecision.tag : AdoptionDecision → UInt8
  | .promote => 1
  | .reject => 2
  | .quarantine => 3

structure AdoptionReceipt where
  schemaVersion : UInt16
  evaluationFingerprint : Str
  policyId : Str
  decision : AdoptionDecision
  reason : Str
  previousChampionId : Option Str
  promotedArtifactSha256 : Option Str
  deriving DecidableEq, Repr

section Canonical

variable {F : Type} [Float64 F] (sha256 : Bytes → Bytes)

/-- What the id of a candidate is the digest of. -/
def identityBytes (origin : CandidateOrigin) (domain sourceSha256 : Str) : Bytes :=
  utf8 "memorithm.candidate.identity.v1\x00".toList ++ pushU8 origin.tag ++ pushStr domain ++ pushStr sourceSha256

def CandidateEnvelope.canonicalBytes (c : CandidateEnvelope) : Bytes :=
  utf8 "memorithm.candidate-envelope.v1\x00".toList ++ pushU16 c.schemaVersion ++ pushStr c.candidateId
    ++ pushOptStr c.producerCandidateId ++ pushOptStr c.parentCandidateId ++ pushU8 c.origin.tag
    ++ pushStr c.domain ++ pushStr c.sourceSha256 ++ pushOptStr c.proposalSha256 ++ pushU64 c.trialSeed

def CandidateEnvelope.fingerprint (c : CandidateEnvelope) : Str := digestHex sha256 c.canonicalBytes

def CandidateEnvelope.auditPayload (c : CandidateEnvelope) : Str :=
  "schema=".toList ++ natStr c.schemaVersion.toNat ++ ";candidate=".toList ++ c.candidateId
    ++ ";envelope=".toList ++ c.fingerprint sha256 ++ ";source=".toList ++ c.sourceSha256
    ++ ";trial=".toList ++ natStr c.trialSeed.toNat

def ObjectiveValue.canonicalBytes (o : ObjectiveValue F) : Bytes :=
  pushStr o.name ++ pushU64 (Float64.toBits o.value) ++ pushBool o.minimize

def EvaluationReceipt.canonicalBytes (r : EvaluationReceipt F) : Bytes :=
  utf8 "memorithm.evaluation-receipt.v1\x00".toList ++ pushU16 r.schemaVersion ++ pushStr r.candidateFingerprint
    ++ pushStr r.evaluatorId ++ pushStr r.sandboxPolicyId ++ pushOptStr r.executionProfileSha256
    ++ pushOptStr r.verifierSha256 ++ pushU64 r.trialSeed ++ pushU8 r.status.tag
    ++ pushLen r.objectives.length ++ r.objectives.flatMap ObjectiveValue.canonicalBytes
    ++ pushStr r.stdoutSha256 ++ pushStr r.stderrSha256 ++ pushBool r.timedOut ++ pushBool r.outputTruncated
    ++ pushOptStr r.failureReason

def EvaluationReceipt.fingerprint (r : EvaluationReceipt F) : Str := digestHex sha256 r.canonicalBytes

def EvaluationReceipt.auditPayload (r : EvaluationReceipt F) : Str :=
  "schema=".toList ++ natStr r.schemaVersion.toNat ++ ";candidate_envelope=".toList ++ r.candidateFingerprint
    ++ ";evaluation=".toList ++ r.fingerprint sha256 ++ ";status=".toList ++ natStr r.status.tag.toNat
    ++ ";trial=".toList ++ natStr r.trialSeed.toNat

def AdoptionReceipt.canonicalBytes (a : AdoptionReceipt) : Bytes :=
  utf8 "memorithm.adoption-receipt.v1\x00".toList ++ pushU16 a.schemaVersion ++ pushStr a.evaluationFingerprint
    ++ pushStr a.policyId ++ pushU8 a.decision.tag ++ pushStr a.reason ++ pushOptStr a.previousChampionId
    ++ pushOptStr a.promotedArtifactSha256

def AdoptionReceipt.fingerprint (a : AdoptionReceipt) : Str := digestHex sha256 a.canonicalBytes

def AdoptionReceipt.auditPayload (a : AdoptionReceipt) : Str :=
  "schema=".toList ++ natStr a.schemaVersion.toNat ++ ";evaluation=".toList ++ a.evaluationFingerprint
    ++ ";adoption=".toList ++ a.fingerprint sha256 ++ ";decision=".toList ++ natStr a.decision.tag.toNat
    ++ ";policy=".toList ++ digestHex sha256 (utf8 a.policyId)

/-- `AdoptionReceipt::new`. -/
def AdoptionReceipt.new (evaluation : EvaluationReceipt F) (policyId : Str) (decision : AdoptionDecision)
    (reason : Str) (previousChampionId promotedArtifactSha256 : Option Str) :
    Except CandidateProtocolError AdoptionReceipt := do
  refuseIf (trim policyId = []) (.invalidField "adoption.policy_id".toList)
  refuseIf (trim reason = []) (.invalidField "adoption.reason".toList)
  .ok { schemaVersion := candidateProtocolVersion, evaluationFingerprint := evaluation.fingerprint sha256
        policyId, decision, reason, previousChampionId, promotedArtifactSha256 }

end Canonical

/-! ## Validation -/

def isHexByte (b : UInt8) : Bool := (48 ≤ b && b ≤ 57) || (97 ≤ b && b ≤ 102)

/-- 64 lowercase hexadecimal digits. -/
def isSha256Hex (value : Str) : Bool := byteLen value = 64 && (utf8 value).all isHexByte

theorem hexByte_digitChar {n : Nat} (h : n < 16) :
    ∃ b, String.utf8EncodeChar n.digitChar = [b] ∧ isHexByte b = true := by
  interval_cases n <;> exact ⟨_, rfl, by decide⟩

theorem isSha256Hex_lowerHex {bytes : Bytes} (h : bytes.length = 32) :
    isSha256Hex (lowerHex bytes) = true := by
  have hall : ∀ bytes : Bytes, (utf8 (lowerHex bytes)).length = 2 * bytes.length ∧
      (utf8 (lowerHex bytes)).all isHexByte = true := by
    intro bytes
    induction bytes with
    | nil => exact ⟨rfl, rfl⟩
    | cons byte bytes ih =>
      have hlt := byte.toNat_lt
      obtain ⟨high, hhigh, hhex⟩ := hexByte_digitChar (n := byte.toNat / 16) (by omega)
      obtain ⟨low, hlow, hhex'⟩ := hexByte_digitChar (n := byte.toNat % 16) (by omega)
      have hcons : utf8 (lowerHex (byte :: bytes)) = high :: low :: utf8 (lowerHex bytes) := by
        simp only [lowerHex, utf8, List.flatMap_cons, hhigh, hlow, List.cons_append, List.nil_append]
      rw [hcons, List.length_cons, List.length_cons, List.length_cons, List.all_cons, List.all_cons, hhex, hhex',
        ih.1, ih.2]
      exact ⟨by omega, rfl⟩
  rw [isSha256Hex, ← length_utf8, (hall bytes).1, (hall bytes).2, h]
  rfl

def validateOptionalDigest (value : Option Str) (field : Str) : Except CandidateProtocolError Unit :=
  refuseIf (value.any (!isSha256Hex ·) = true) (.invalidField field)

section Validate

variable {F : Type} [Float64 F] (sha256 : Bytes → Bytes)

def validateCandidate (c : CandidateEnvelope) : Except CandidateProtocolError Unit := do
  refuseIf (c.schemaVersion ≠ candidateProtocolVersion) (.invalidField "candidate.schema_version".toList)
  refuseIf (trim c.domain = []) (.invalidField "candidate.domain".toList)
  refuseIf (isSha256Hex c.sourceSha256 = false) (.invalidField "candidate.source_sha256".toList)
  validateOptionalDigest c.proposalSha256 "candidate.proposal_sha256".toList
  validateOptionalDigest c.parentCandidateId "candidate.parent_candidate_id".toList
  refuseIf (c.candidateId ≠ digestHex sha256 (identityBytes c.origin c.domain c.sourceSha256))
    (.policyViolation "candidate content identity does not match its declared source digest".toList)

def validateObjective (o : ObjectiveValue F) : Except CandidateProtocolError Unit := do
  refuseIf (trim o.name = []) (.invalidField "objective.name".toList)
  refuseIf (Float64.isFinite o.value = false) (.nonFiniteObjective o.name)

def validateObjectives : List (ObjectiveValue F) → Except CandidateProtocolError Unit
  | [] => .ok ()
  | o :: rest => do
    validateObjective o
    validateObjectives rest

/-- Success carries objectives and no failure; failure carries a reason and no objectives. -/
def validateStatus (r : EvaluationReceipt F) : Except CandidateProtocolError Unit :=
  match r.status with
  | .succeeded =>
    refuseIf (r.timedOut = true ∨ r.failureReason.isSome = true ∨ r.objectives.isEmpty = true)
      (.policyViolation "successful evaluation must contain objectives and no failure state".toList)
  | .candidateFailed | .infrastructureFailed =>
    refuseIf (r.objectives.isEmpty = false ∨ r.failureReason.isNone = true)
      (.policyViolation "failed evaluation must carry a reason and no fitness objectives".toList)

def validateEvaluation (c : CandidateEnvelope) (r : EvaluationReceipt F) : Except CandidateProtocolError Unit := do
  validateCandidate sha256 c
  refuseIf (r.schemaVersion ≠ candidateProtocolVersion) (.invalidField "evaluation.schema_version".toList)
  refuseIf (r.candidateFingerprint ≠ c.fingerprint sha256)
    (.policyViolation "evaluation receipt is not bound to the supplied candidate envelope".toList)
  refuseIf (r.trialSeed ≠ c.trialSeed)
    (.policyViolation "evaluation trial seed differs from candidate envelope".toList)
  refuseIf (trim r.evaluatorId = []) (.invalidField "evaluation.evaluator_id".toList)
  refuseIf (trim r.sandboxPolicyId = []) (.invalidField "evaluation.sandbox_policy_id".toList)
  validateOptionalDigest r.executionProfileSha256 "evaluation.execution_profile_sha256".toList
  validateOptionalDigest r.verifierSha256 "evaluation.verifier_sha256".toList
  refuseIf (isSha256Hex r.stdoutSha256 = false ∨ isSha256Hex r.stderrSha256 = false)
    (.invalidField "evaluation.output_sha256".toList)
  validateObjectives r.objectives
  validateStatus r

def validateAdoption (r : EvaluationReceipt F) (a : AdoptionReceipt) : Except CandidateProtocolError Unit := do
  refuseIf (a.schemaVersion ≠ candidateProtocolVersion) (.invalidField "adoption.schema_version".toList)
  refuseIf (a.evaluationFingerprint ≠ r.fingerprint sha256)
    (.policyViolation "adoption receipt is not bound to the supplied evaluation".toList)
  refuseIf (trim a.policyId = [] ∨ trim a.reason = []) (.invalidField "adoption.policy".toList)
  validateOptionalDigest a.promotedArtifactSha256 "adoption.promoted_artifact_sha256".toList
  if a.decision = .promote then
    refuseIf (r.status ≠ .succeeded) (.policyViolation "a failed evaluation can never be promoted".toList)
    refuseIf (a.promotedArtifactSha256 = none)
      (.policyViolation "promotion requires a content digest for the promoted artifact".toList)
    refuseIf (containsStr "evidence_sha256=".toList a.reason = false)
      (.policyViolation "promotion requires a canonical repeated-seed evidence binding".toList)
  else .ok ()

end Validate

end Ccos
