import Ccos.Candidate.Protocol

/-!
# Counterexamples

A receipt seals an input on which a candidate fails. A witness carries the inputs themselves.
-/

open ByteCodec

namespace Ccos

def counterexampleProtocolVersion : UInt16 := 1

def isIdByte (b : UInt8) : Bool := 33 ≤ b && b ≤ 126 && b ≠ 59 && b ≠ 61

/-- At most 128 visible characters, and neither `;` nor `=`. -/
def validateId (value : Str) (field : Str) : Except CandidateProtocolError Unit :=
  refuseIf (¬ (value ≠ [] ∧ byteLen value ≤ 128 ∧ trim value = value ∧ (utf8 value).all isIdByte = true))
    (.invalidField field)

def validateFailureKind (value : Str) : Except CandidateProtocolError Unit :=
  validateId value "counterexample.failure_kind".toList

structure CounterexampleReceipt where
  schemaVersion : UInt16
  candidateFingerprint : Str
  generatorId : Str
  oracleId : Str
  oracleContractSha256 : Str
  shrinkerId : Str
  searchSeed : UInt64
  generationOrdinal : UInt64
  originalInputSha256 : Str
  originalInputBytes : UInt64
  minimizedInputSha256 : Str
  minimizedInputBytes : UInt64
  failureKind : Str
  generationOracleQueries : UInt64
  shrinkOracleQueries : UInt64
  deriving DecidableEq, Repr

structure CounterexampleWitness where
  receipt : CounterexampleReceipt
  originalInput : Bytes
  minimizedInput : Bytes
  deriving DecidableEq, Repr

variable (sha256 : Bytes → Bytes)

def CounterexampleReceipt.canonicalBytes (r : CounterexampleReceipt) : Bytes :=
  utf8 "memorithm.counterexample-receipt.v1\x00".toList ++ pushU16 r.schemaVersion
    ++ pushStr r.candidateFingerprint ++ pushStr r.generatorId ++ pushStr r.oracleId
    ++ pushStr r.oracleContractSha256 ++ pushStr r.shrinkerId ++ pushU64 r.searchSeed
    ++ pushU64 r.generationOrdinal ++ pushStr r.originalInputSha256 ++ pushU64 r.originalInputBytes
    ++ pushStr r.minimizedInputSha256 ++ pushU64 r.minimizedInputBytes ++ pushStr r.failureKind
    ++ pushU64 r.generationOracleQueries ++ pushU64 r.shrinkOracleQueries

def CounterexampleReceipt.fingerprint (r : CounterexampleReceipt) : Str := digestHex sha256 r.canonicalBytes

def CounterexampleReceipt.auditPayload (r : CounterexampleReceipt) : Str :=
  "schema=".toList ++ natStr r.schemaVersion.toNat ++ ";candidate=".toList ++ r.candidateFingerprint
    ++ ";counterexample=".toList ++ r.fingerprint sha256 ++ ";original=".toList ++ r.originalInputSha256
    ++ ";minimized=".toList ++ r.minimizedInputSha256 ++ ";failure=".toList ++ r.failureKind
    ++ ";seed=".toList ++ natStr r.searchSeed.toNat ++ ";ordinal=".toList ++ natStr r.generationOrdinal.toNat
    ++ ";gen_queries=".toList ++ natStr r.generationOracleQueries.toNat
    ++ ";shrink_queries=".toList ++ natStr r.shrinkOracleQueries.toNat

def validateCounterexampleReceipt (c : CandidateEnvelope) (r : CounterexampleReceipt) :
    Except CandidateProtocolError Unit := do
  validateCandidate sha256 c
  refuseIf (r.schemaVersion ≠ counterexampleProtocolVersion)
    (.invalidField "counterexample.schema_version".toList)
  refuseIf (r.candidateFingerprint ≠ c.fingerprint sha256)
    (.policyViolation "counterexample receipt is not bound to the supplied candidate envelope".toList)
  validateId r.generatorId "counterexample.generator_id".toList
  validateId r.oracleId "counterexample.oracle_id".toList
  validateId r.shrinkerId "counterexample.shrinker_id".toList
  validateFailureKind r.failureKind
  refuseIf (isSha256Hex r.oracleContractSha256 = false)
    (.invalidField "counterexample.oracle_contract_sha256".toList)
  refuseIf (isSha256Hex r.originalInputSha256 = false ∨ isSha256Hex r.minimizedInputSha256 = false)
    (.invalidField "counterexample.input_sha256".toList)
  refuseIf (r.originalInputBytes = 0 ∨ r.minimizedInputBytes = 0 ∨ r.minimizedInputBytes > r.originalInputBytes)
    (.policyViolation "counterexample byte lengths are inconsistent".toList)
  refuseIf (r.generationOracleQueries = 0)
    (.policyViolation "counterexample receipt must include at least one generation oracle query".toList)

def CounterexampleWitness.validate (w : CounterexampleWitness) (c : CandidateEnvelope) :
    Except CandidateProtocolError Unit := do
  validateCounterexampleReceipt sha256 c w.receipt
  refuseIf (w.receipt.originalInputBytes ≠ UInt64.ofNat w.originalInput.length
      ∨ w.receipt.minimizedInputBytes ≠ UInt64.ofNat w.minimizedInput.length
      ∨ w.receipt.originalInputSha256 ≠ digestHex sha256 w.originalInput
      ∨ w.receipt.minimizedInputSha256 ≠ digestHex sha256 w.minimizedInput)
    (.policyViolation "counterexample witness bytes do not match the sealed receipt".toList)

end Ccos

/-!
## The counterexample search

The engine asks the oracle about generated cases until one fails, and then shrinks it as long as its
budget of queries lasts.
-/

open Std ByteCodec

namespace Ccos

inductive OracleVerdict
  | pass
  | counterexample (failureKind : Str)
  | infrastructureFailure (reason : Str)
  deriving DecidableEq, Repr

structure CounterexampleConfig where
  generationBudget : UInt64
  shrinkQueryBudget : UInt64
  maxCaseBytes : UInt64
  deriving DecidableEq, Repr

/-- The engine with its generator, its shrinker and its oracle. -/
structure CounterexampleEngine where
  generatorId : Str
  generate : UInt64 → UInt64 → Except CandidateProtocolError Bytes
  shrinkerId : Str
  candidates : Bytes → Except CandidateProtocolError (List Bytes)
  oracleId : Str
  contractSha256 : Str
  evaluate : CandidateEnvelope → Bytes → Except CandidateProtocolError OracleVerdict
  config : CounterexampleConfig

inductive CounterexampleSearchResult
  | noCounterexample (generatedCases oracleQueries : UInt64)
  | found (witness : CounterexampleWitness)
  deriving DecidableEq, Repr

def CounterexampleConfig.new (generationBudget shrinkQueryBudget maxCaseBytes : UInt64) :
    Except CandidateProtocolError CounterexampleConfig := do
  refuseIf (generationBudget = 0) (.invalidField "counterexample.generation_budget".toList)
  refuseIf (shrinkQueryBudget = 0) (.invalidField "counterexample.shrink_query_budget".toList)
  refuseIf (maxCaseBytes = 0) (.invalidField "counterexample.max_case_bytes".toList)
  return ⟨generationBudget, shrinkQueryBudget, maxCaseBytes⟩

def caseOrder (left right : Bytes) : Ordering :=
  (compare left.length right.length).then (compare left right)

def infrastructureError (reason : Str) : CandidateProtocolError :=
  let reason := if trim reason = [] then "unspecified oracle infrastructure failure".toList else reason
  .policyViolation ("counterexample oracle infrastructure failure: ".toList ++ reason)

/-- What asking about the proposals of one round ends with, and the queries that are left. -/
inductive Round
  | accepted (smaller : Bytes) (remaining : Nat)
  | rejected (remaining : Nat)
  | exhausted
  deriving DecidableEq, Repr

namespace CounterexampleEngine

variable (sha256 : Bytes → Bytes) (engine : CounterexampleEngine) (candidate : CandidateEnvelope)

def new : Except CandidateProtocolError CounterexampleEngine := do
  validateId engine.generatorId "counterexample.generator_id".toList
  validateId engine.shrinkerId "counterexample.shrinker_id".toList
  validateId engine.oracleId "counterexample.oracle_id".toList
  refuseIf (isSha256Hex engine.contractSha256 = false)
    (.invalidField "counterexample.oracle_contract_sha256".toList)
  let _ ← CounterexampleConfig.new engine.config.generationBudget engine.config.shrinkQueryBudget
    engine.config.maxCaseBytes
  return engine

def validateGeneratedCase (input : Bytes) : Except CandidateProtocolError Unit :=
  refuseIf (engine.config.maxCaseBytes.toNat < input.length)
    (.policyViolation ("counterexample generator exceeded max_case_bytes: ".toList ++ natStr input.length
      ++ " > ".toList ++ natStr engine.config.maxCaseBytes.toNat))

/-! ## Shrinking -/

/-- The smaller proposals of the shrinker, in order and without repeats. -/
def normalized (current : Bytes) : Except CandidateProtocolError (List Bytes) := do
  let proposals ← engine.candidates current
  let smaller := proposals.filter fun proposed =>
    proposed.length ≤ engine.config.maxCaseBytes.toNat && caseOrder proposed current == .lt
  return dedupBy (fun a b => decide (a = b)) (sortBy caseOrder smaller)

/-- The loop over the proposals, with the number of queries that are left. -/
def round (failureKind : Str) : Nat → List Bytes → Except CandidateProtocolError Round
  | remaining, [] => .ok (.rejected remaining)
  | 0, _ :: _ => .ok .exhausted
  | remaining + 1, proposed :: rest => do
    match ← engine.evaluate candidate proposed with
    | .pass => round failureKind remaining rest
    | .infrastructureFailure reason => .error (infrastructureError reason)
    | .counterexample proposedKind =>
      validateFailureKind proposedKind
      if proposedKind = failureKind then .ok (.accepted proposed remaining)
      else round failureKind remaining rest

/-- The loop `'shrink`. An accepted proposal costs a query, so `remaining + 1` rounds are enough. -/
def shrinkFrom (failureKind : Str) : Nat → Nat → Bytes → Except CandidateProtocolError (Bytes × Nat)
  | 0, remaining, current => .ok (current, remaining)
  | rounds + 1, remaining, current => do
    let proposals ← engine.normalized current
    match ← engine.round candidate failureKind remaining proposals with
    | .accepted smaller remaining => shrinkFrom failureKind rounds remaining smaller
    | .rejected remaining => .ok (current, remaining)
    | .exhausted => .ok (current, 0)

/-- The minimized input, and the number of queries. -/
def shrink (original : Bytes) (failureKind : Str) : Except CandidateProtocolError (Bytes × UInt64) := do
  let budget := engine.config.shrinkQueryBudget.toNat
  let (minimized, remaining) ← engine.shrinkFrom candidate failureKind (budget + 1) budget original
  return (minimized, UInt64.ofNat (budget - remaining))

/-! ## The search -/

def saturatingSucc (n : UInt64) : UInt64 := if n = 0xFFFFFFFFFFFFFFFF then n else n + 1

/-- The receipt of a failing case, with the two inputs. -/
def witness (searchSeed ordinal : UInt64) (input minimized : Bytes) (failureKind : Str)
    (queries shrinkQueries : UInt64) : CounterexampleWitness where
  receipt := {
    schemaVersion := counterexampleProtocolVersion
    candidateFingerprint := candidate.fingerprint sha256
    generatorId := engine.generatorId
    oracleId := engine.oracleId
    oracleContractSha256 := engine.contractSha256
    shrinkerId := engine.shrinkerId
    searchSeed := searchSeed
    generationOrdinal := ordinal
    originalInputSha256 := digestHex sha256 input
    originalInputBytes := UInt64.ofNat input.length
    minimizedInputSha256 := digestHex sha256 minimized
    minimizedInputBytes := UInt64.ofNat minimized.length
    failureKind := failureKind
    generationOracleQueries := queries
    shrinkOracleQueries := shrinkQueries }
  originalInput := input
  minimizedInput := minimized

/-- A failing case is shrunk, sealed and validated. -/
def report (searchSeed ordinal : UInt64) (input : Bytes) (failureKind : Str) (queries : UInt64) :
    Except CandidateProtocolError CounterexampleSearchResult := do
  validateFailureKind failureKind
  let (minimized, shrinkQueries) ← engine.shrink candidate input failureKind
  let witness := engine.witness sha256 candidate searchSeed ordinal input minimized failureKind queries shrinkQueries
  witness.validate sha256 candidate
  return .found witness

/-- The loop over the ordinals from `ordinal` on, `left` of them. -/
def searchFrom (searchSeed : UInt64) :
    Nat → UInt64 → ExtTreeSet Str → UInt64 → Except CandidateProtocolError CounterexampleSearchResult
  | 0, _, hashes, queries => .ok (.noCounterexample (UInt64.ofNat hashes.size) queries)
  | left + 1, ordinal, hashes, queries => do
    let input ← engine.generate searchSeed ordinal
    engine.validateGeneratedCase input
    let inputHash := digestHex sha256 input
    if inputHash ∈ hashes then searchFrom searchSeed left (ordinal + 1) hashes queries
    else
      let hashes := hashes.insert inputHash
      let queries := saturatingSucc queries
      match ← engine.evaluate candidate input with
      | .pass => searchFrom searchSeed left (ordinal + 1) hashes queries
      | .infrastructureFailure reason => .error (infrastructureError reason)
      | .counterexample failureKind => engine.report sha256 candidate searchSeed ordinal input failureKind queries

def search (searchSeed : UInt64) : Except CandidateProtocolError CounterexampleSearchResult := do
  validateCandidate sha256 candidate
  engine.searchFrom sha256 candidate searchSeed engine.config.generationBudget.toNat 0 ∅ 0

end CounterexampleEngine

/-! ## Deletion of chunks -/

namespace ChunkDeletionShrinker

/-- The input without `chunk` bytes from `start` on, for every start. -/
def deletions (input : Bytes) (chunk : Nat) : List Bytes :=
  (List.range (input.length - chunk + 1)).map fun start => input.take start ++ input.drop (start + chunk)

/-- Chunks of half the size, rounded up, down to single bytes. -/
def chunksFrom (input : Bytes) : Nat → Nat → List Bytes
  | 0, _ => []
  | rounds + 1, chunk =>
    deletions input chunk ++ if chunk = 1 then [] else chunksFrom input rounds ((chunk + 1) / 2)

def candidates (input : Bytes) : Except CandidateProtocolError (List Bytes) :=
  .ok (if input = [] then [] else chunksFrom input input.length input.length)

end ChunkDeletionShrinker

end Ccos
