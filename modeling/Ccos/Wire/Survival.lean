import Ccos.Wire.Candidate

/-!
# What survives the wire

Every valid receipt is read back as it was, and every text that is read stands for a valid receipt.
-/

open Std ByteCodec

namespace Ccos

/-- What is documented of `f64`: a finite number is its bits, and one is written as an integer. -/
class LawfulWireFloat64 (F : Type) [WireFloat64 F] : Prop where
  fromBits_toBits : ∀ x : F, Float64.isFinite x = true → WireFloat64.fromBits (Float64.toBits x) = x
  one_finite : Float64.isFinite (Scalar.ofNat 1 : F) = true
  one_nonneg : Scalar.ge (Scalar.ofNat 1 : F) (Scalar.lit 0) = true
  one_fract : Scalar.eq (WireFloat64.fract (Scalar.ofNat 1 : F)) (Scalar.lit 0) = true
  one_small : Scalar.lt (Scalar.abs (Scalar.ofNat 1 : F)) (Scalar.lit 1000000000000000) = true
  one_le : Scalar.ge (Scalar.lit 65535 : F) (Scalar.ofNat 1) = true
  one_toI64 : WireFloat64.toI64 (Scalar.ofNat 1 : F) = 1
  one_toU16 : WireFloat64.toU16 (Scalar.ofNat 1 : F) = 1
  parse_one : WireFloat64.parse "1".toList = some (Scalar.ofNat 1 : F)

/-! ## Numbers as texts -/

theorem parseU64_natStr (n : UInt64) : parseU64 (natStr n.toNat) = some n := by
  have hdigits : ∀ c ∈ natStr n.toNat, isAsciiDigit c = true := fun c hc => isAsciiDigit_of_mem_natStr hc
  have hne := natStr_ne_nil n.toNat
  rw [parseU64, natStr_unsigned, ofDigitChars_natStr]
  rw [if_pos ⟨hne, List.all_eq_true.mpr hdigits, n.toNat_lt⟩, UInt64.ofNat_toNat]

theorem foldlM_hexPad (width n acc : Nat) :
    (hexPad width n).foldlM (fun n c => (toDigit16 c).map (n * 16 + ·)) acc = some (acc * 16 ^ width + n % 16 ^ width) := by
  induction width generalizing acc with
  | zero => simp [hexPad, Nat.mod_one]
  | succ width ih =>
    have hcons : hexPad (width + 1) n = (n / 16 ^ width % 16).digitChar :: hexPad width n := by
      simp [hexPad, List.range_succ]
    have hmod : n % 16 ^ (width + 1) = n % 16 ^ width + 16 ^ width * (n / 16 ^ width % 16) := by
      rw [Nat.pow_succ, Nat.mod_mul]
    rw [hcons, List.foldlM_cons, toDigit16_digitChar (Nat.mod_lt _ (by decide))]
    show List.foldlM _ (acc * 16 + n / 16 ^ width % 16) (hexPad width n) = _
    rw [ih, hmod, Nat.pow_succ]
    congr 1
    ring

theorem fromStrRadix16_hexPad (n : UInt64) : fromStrRadix16 (hexPad 16 n.toNat) = some n := by
  have hlt : n.toNat < 16 ^ 16 := n.toNat_lt
  rw [fromStrRadix16, foldlM_hexPad, Nat.mod_eq_of_lt hlt, Nat.zero_mul, Nat.zero_add, Option.bind_some,
    if_pos n.toNat_lt, UInt64.ofNat_toNat]

theorem hex_hexPad (width n : Nat) :
    byteLen (hexPad width n) = width ∧ (utf8 (hexPad width n)).all isHexByte = true := by
  induction width with
  | zero => exact ⟨rfl, rfl⟩
  | succ width ih =>
    obtain ⟨byte, hbyte, hhex⟩ := hexByte_digitChar (Nat.mod_lt (n / 16 ^ width) (by decide : 0 < 16))
    have hcons : utf8 (hexPad (width + 1) n) = byte :: utf8 (hexPad width n) := by
      simp [hexPad, List.range_succ, utf8, hbyte]
    rw [← length_utf8, hcons, List.length_cons, length_utf8, ih.1, List.all_cons, hhex, ih.2]
    exact ⟨rfl, rfl⟩

/-! ## Objects -/

section Objects

variable {F : Type}

theorem foldl_insertKey {entries map : List (Str × Json F)}
    (h : (map ++ entries).Pairwise fun a b => compare a.1 b.1 = .lt) :
    entries.foldl (fun map entry => insertKey entry.1 entry.2 map) map = map ++ entries := by
  induction entries generalizing map with
  | nil => rw [List.append_nil]; rfl
  | cons e entries ih =>
    have hlast : insertKey e.1 e.2 map = map ++ [e] :=
      Parser.insertKey_last fun e' he' => (List.pairwise_append.mp h).2.2 e' he' e List.mem_cons_self
    rw [List.foldl_cons, hlast, ih (by rwa [List.append_assoc, List.singleton_append]), List.append_assoc]
    rfl

theorem ofEntries_ascending {entries : List (Str × Json F)}
    (h : entries.Pairwise fun a b => compare a.1 b.1 = .lt) : ofEntries entries = entries :=
  foldl_insertKey h

variable [WireFloat64 F]

/-- An object with ascending keys is parsed back from its text. -/
theorem parse_entries {entries : Fields F} (hkeys : entries.Pairwise fun a b => compare a.1 b.1 = .lt)
    {n : Nat}
    (hn : n < maxDepth) (h : ∀ e ∈ entries, Canonical n e.2) :
    parseJson F (Json.write (.obj (ofEntries entries))) = .ok (.obj entries) := by
  rw [ofEntries_ascending hkeys, parseJson, Json.parse_write (.obj hkeys h) hn]
  rfl

theorem Canonical.optionString {n : Nat} (value : Option Str) :
    Canonical (F := F) n (optionString value) := by
  cases value with
  | none => exact .null
  | some value => exact .str value

variable [LawfulWireFloat64 F]

theorem writeNum_one : Json.writeNum (Scalar.ofNat 1 : F) = "1".toList := by
  rw [Json.writeNum, LawfulWireFloat64.one_fract, LawfulWireFloat64.one_small, LawfulWireFloat64.one_toI64]
  rfl

theorem prints_one : Prints (Scalar.ofNat 1 : F) where
  head := ⟨'1', [], writeNum_one, .inr (by decide)⟩
  chars c hc := by
    rw [writeNum_one] at hc
    rw [List.mem_singleton.mp hc]
    rfl
  parses := (congrArg WireFloat64.parse writeNum_one).trans LawfulWireFloat64.parse_one

theorem requiredU16_one {map : Fields F} {key : String} (h : getField map key = some (versionNum 1)) :
    requiredU16 map key = .ok 1 := by
  have hone : (1 : UInt16).toNat = 1 := rfl
  rw [requiredU16, h, versionNum, hone]
  dsimp only
  rw [LawfulWireFloat64.one_finite, LawfulWireFloat64.one_nonneg, LawfulWireFloat64.one_fract,
    LawfulWireFloat64.one_le, LawfulWireFloat64.one_toU16]
  rfl

omit [WireFloat64 F] [LawfulWireFloat64 F] in
theorem requiredU64String_ok {map : Fields F} {key : String} {n : UInt64}
    (h : getField map key = some (u64String n)) : requiredU64String map key = .ok n := by
  rw [requiredU64String, requiredString, h]
  simp only [u64String, bind, Except.bind, parseU64_natStr]
  rw [if_neg (not_not_intro rfl)]

omit [WireFloat64 F] [LawfulWireFloat64 F] in
theorem optionalString_ok {map : Fields F} {key : String} {value : Option Str}
    (h : getField map key = some (optionString value)) : optionalString map key = .ok value := by
  rw [optionalString, h]
  cases value <;> rfl

end Objects

theorem parseOrigin_name (origin : CandidateOrigin) : parseOrigin (originName origin) = .ok origin := by
  cases origin <;> decide

theorem parseStatus_name (status : EvaluationStatus) : parseStatus (statusName status) = .ok status := by
  cases status <;> decide

theorem parseDecision_name (decision : AdoptionDecision) : parseDecision
    (decisionName decision) = .ok decision := by
  cases decision <;> decide

/-! ## Candidates -/

section Receipts

variable {F : Type} [WireFloat64 F] [LawfulWireFloat64 F] {sha256 : Bytes → Bytes}

omit [LawfulWireFloat64 F] in
theorem candidateEntries_keys (c : CandidateEnvelope) :
    (candidateEntries F sha256 c).Pairwise fun a b => compare a.1 b.1 = .lt := by
  have hkeys : ((candidateEntries F sha256 c).map (·.1)).Pairwise fun a b => compare a b = .lt := by
    show List.Pairwise _ ["candidate_id".toList, "domain".toList, "fingerprint".toList, "origin".toList,
      "parent_candidate_id".toList, "producer_candidate_id".toList, "proposal_sha256".toList,
      "schema_version".toList, "source_sha256".toList, "trial_seed".toList]
    decide
  exact List.pairwise_map.mp hkeys

theorem decodeCandidate_encoded {c : CandidateEnvelope} (h : validateCandidate sha256 c = .ok ()) :
    decodeCandidate F sha256 (Json.write (.obj (ofEntries (candidateEntries F sha256 c)))) = .ok c := by
  have hversion : c.schemaVersion = 1 := not_not.mp (refuseIf_ok.mp (check_eq_ok.mp h).1)
  have hentries : ∀ e ∈ candidateEntries F sha256 c, Canonical 0 e.2 := by
    intro e he
    simp only [candidateEntries, hversion, List.mem_cons, List.not_mem_nil, or_false] at he
    rcases he with rfl | rfl | rfl | rfl | rfl | rfl | rfl | rfl | rfl | rfl
    case inr.inr.inr.inr.inr.inr.inr.inl => exact .num prints_one
    all_goals
      first
      | exact .str _
      | exact .optionString _
  have hparse := parse_entries (@candidateEntries_keys F _ sha256 c) (by decide : 0 < maxDepth) hentries
  have hkeys : requireExactKeys (candidateEntries F sha256 c) ["candidate_id", "domain", "fingerprint", "origin",
      "parent_candidate_id", "producer_candidate_id", "proposal_sha256", "schema_version", "source_sha256",
      "trial_seed"] = .ok () := if_pos rfl
  have hfingerprint : requiredString (candidateEntries F sha256 c) "fingerprint" = .ok (c.fingerprint sha256) := rfl
  have hschema : requiredU16 (candidateEntries F sha256 c) "schema_version" = .ok c.schemaVersion := by
    rw [hversion]
    exact requiredU16_one (by rw [← hversion]; rfl)
  have hid : requiredString (candidateEntries F sha256 c) "candidate_id" = .ok c.candidateId := rfl
  have hproducer : optionalString (candidateEntries F sha256 c) "producer_candidate_id" = .ok c.producerCandidateId :=
    optionalString_ok rfl
  have hparent : optionalString (candidateEntries F sha256 c) "parent_candidate_id" = .ok c.parentCandidateId :=
    optionalString_ok rfl
  have horigin : requiredString (candidateEntries F sha256 c) "origin" = .ok (originName c.origin) := rfl
  have hdomain : requiredString (candidateEntries F sha256 c) "domain" = .ok c.domain := rfl
  have hsource : requiredString (candidateEntries F sha256 c) "source_sha256" = .ok c.sourceSha256 := rfl
  have hproposal : optionalString (candidateEntries F sha256 c) "proposal_sha256" = .ok c.proposalSha256 :=
    optionalString_ok rfl
  have hseed : requiredU64String (candidateEntries F sha256 c) "trial_seed" = .ok c.trialSeed :=
    requiredU64String_ok rfl
  simp only [decodeCandidate, hparse, bind, Except.bind, requireObject, hkeys, hfingerprint, hschema, hid, hproducer,
    hparent, horigin, parseOrigin_name, hdomain, hsource, hproposal, hseed, protocol, h]
  exact if_neg (not_not_intro rfl)

/-! ## Evaluations -/

omit [LawfulWireFloat64 F] in
theorem objectiveEntries_keys (o : ObjectiveValue F) :
    (objectiveEntries o).Pairwise fun a b => compare a.1 b.1 = .lt := by
  have hkeys : ((objectiveEntries o).map (·.1)).Pairwise fun a b => compare a b = .lt := by
    show List.Pairwise _ ["minimize".toList, "name".toList, "value_bits".toList]
    decide
  exact List.pairwise_map.mp hkeys

omit [LawfulWireFloat64 F] in
theorem Canonical.objective (o : ObjectiveValue F) : Canonical 1 (encodeObjective o) := by
  rw [encodeObjective, ofEntries_ascending (objectiveEntries_keys o)]
  refine .obj (objectiveEntries_keys o) fun e he => ?_
  simp only [objectiveEntries, List.mem_cons, List.not_mem_nil, or_false] at he
  rcases he with rfl | rfl | rfl
  · exact .bool _
  · exact .str _
  · exact .str _

theorem decodeObjective_encoded {o : ObjectiveValue F} (h : validateObjective o = .ok ()) :
    decodeObjective (encodeObjective o) = .ok o := by
  obtain ⟨hname, hfinite⟩ := check_eq_ok.mp h
  have hfinite' : Float64.isFinite o.value = true := Bool.not_eq_false _ ▸ refuseIf_ok.mp hfinite
  have hkeys : requireExactKeys (objectiveEntries o) ["minimize", "name", "value_bits"] = .ok () := if_pos rfl
  have hbits : requiredString (objectiveEntries o) "value_bits" =
      .ok (hexPad 16 (Float64.toBits o.value).toNat) := rfl
  have hstring : requiredString (objectiveEntries o) "name" = .ok o.name := rfl
  have hminimize : requiredBool (objectiveEntries o) "minimize" = .ok o.minimize := rfl
  obtain ⟨hlen, hhex⟩ := hex_hexPad 16 (Float64.toBits o.value).toNat
  have hnew : ObjectiveValue.new o.name (WireFloat64.fromBits (Float64.toBits o.value)) o.minimize = .ok o := by
    rw [LawfulWireFloat64.fromBits_toBits o.value hfinite', ObjectiveValue.new, hname, hfinite]
    rfl
  rw [encodeObjective, ofEntries_ascending (objectiveEntries_keys o)]
  simp only [decodeObjective, requireObject, bind, Except.bind, hkeys, hbits]
  rw [if_neg (by rw [hlen, hhex]; decide), fromStrRadix16_hexPad]
  simp only [hstring, hminimize, hnew, protocol]
  rfl

theorem decodeObjectives_encoded {objectives : List (ObjectiveValue F)}
    (h : validateObjectives objectives = .ok ()) :
    decodeObjectives (objectives.map encodeObjective) = .ok objectives := by
  induction objectives with
  | nil => rfl
  | cons o objectives ih =>
    obtain ⟨ho, hrest⟩ := check_eq_ok.mp h
    simp only [List.map_cons, decodeObjectives, decodeObjective_encoded ho, ih hrest, bind, Except.bind]
    rfl

omit [LawfulWireFloat64 F] in
theorem evaluationEntries_keys (r : EvaluationReceipt F) :
    (evaluationEntries sha256 r).Pairwise fun a b => compare a.1 b.1 = .lt := by
  have hkeys : ((evaluationEntries sha256 r).map (·.1)).Pairwise fun a b => compare a b = .lt := by
    show List.Pairwise _ ["candidate_fingerprint".toList, "evaluator_id".toList, "execution_profile_sha256".toList,
      "failure_reason".toList, "fingerprint".toList, "objectives".toList, "output_truncated".toList,
      "sandbox_policy_id".toList, "schema_version".toList, "status".toList, "stderr_sha256".toList,
      "stdout_sha256".toList, "timed_out".toList, "trial_seed".toList, "verifier_sha256".toList]
    decide
  exact List.pairwise_map.mp hkeys

theorem decodeEvaluation_encoded {c : CandidateEnvelope} {r : EvaluationReceipt F}
    (h : validateEvaluation sha256 c r = .ok ()) :
    decodeEvaluation sha256 (Json.write (.obj (ofEntries (evaluationEntries sha256 r)))) c = .ok r := by
  have hchecks := h
  simp only [validateEvaluation, check_eq_ok, refuseIf_ok] at hchecks
  obtain ⟨-, hversion, -, -, -, -, -, -, -, hobjectives, -⟩ := hchecks
  have hversion : r.schemaVersion = 1 := not_not.mp hversion
  have hentries : ∀ e ∈ evaluationEntries sha256 r, Canonical 2 e.2 := by
    intro e he
    simp only [evaluationEntries, hversion, List.mem_cons, List.not_mem_nil, or_false] at he
    rcases he with rfl | rfl | rfl | rfl | rfl | rfl | rfl | rfl | rfl | rfl | rfl | rfl | rfl | rfl | rfl
    case inr.inr.inr.inr.inr.inl => exact .arr (List.forall_mem_map.mpr fun o _ => Canonical.objective o)
    case inr.inr.inr.inr.inr.inr.inr.inr.inl => exact .num prints_one
    all_goals
      first
      | exact .str _
      | exact .bool _
      | exact .optionString _
  have hparse := parse_entries (@evaluationEntries_keys F _ sha256 r) (by decide : 2 < maxDepth) hentries
  let map := evaluationEntries sha256 r
  have hkeys : requireExactKeys map ["candidate_fingerprint", "evaluator_id", "execution_profile_sha256",
      "failure_reason", "fingerprint", "objectives", "output_truncated", "sandbox_policy_id", "schema_version",
      "status", "stderr_sha256", "stdout_sha256", "timed_out", "trial_seed", "verifier_sha256"] = .ok () := if_pos rfl
  have hfingerprint : requiredString map "fingerprint" = .ok (r.fingerprint sha256) := rfl
  have hfield : objectivesField map = .ok (r.objectives.map encodeObjective) := rfl
  have hschema : requiredU16 map "schema_version" = .ok r.schemaVersion := by
    rw [hversion]
    exact requiredU16_one (by rw [← hversion]; rfl)
  have hcandidate : requiredString map "candidate_fingerprint" = .ok r.candidateFingerprint := rfl
  have hevaluator : requiredString map "evaluator_id" = .ok r.evaluatorId := rfl
  have hsandbox : requiredString map "sandbox_policy_id" = .ok r.sandboxPolicyId := rfl
  have hprofile : optionalString map "execution_profile_sha256" = .ok r.executionProfileSha256 := optionalString_ok rfl
  have hverifier : optionalString map "verifier_sha256" = .ok r.verifierSha256 := optionalString_ok rfl
  have hseed : requiredU64String map "trial_seed" = .ok r.trialSeed := requiredU64String_ok rfl
  have hstatus : requiredString map "status" = .ok (statusName r.status) := rfl
  have hstdout : requiredString map "stdout_sha256" = .ok r.stdoutSha256 := rfl
  have hstderr : requiredString map "stderr_sha256" = .ok r.stderrSha256 := rfl
  have htimed : requiredBool map "timed_out" = .ok r.timedOut := rfl
  have htruncated : requiredBool map "output_truncated" = .ok r.outputTruncated := rfl
  have hreason : optionalString map "failure_reason" = .ok r.failureReason := optionalString_ok rfl
  simp only [decodeEvaluation, hparse, bind, Except.bind, requireObject]
  simp only [map] at *
  simp only [hkeys, hfingerprint, hfield, decodeObjectives_encoded hobjectives, hschema, hcandidate, hevaluator,
    hsandbox, hprofile, hverifier, hseed, hstatus, parseStatus_name, hstdout, hstderr, htimed, htruncated, hreason,
    protocol, h]
  exact if_neg (not_not_intro rfl)

/-! ## Adoptions -/

omit [LawfulWireFloat64 F] in
theorem adoptionEntries_keys (a : AdoptionReceipt) :
    (adoptionEntries F sha256 a).Pairwise fun a b => compare a.1 b.1 = .lt := by
  have hkeys : ((adoptionEntries F sha256 a).map (·.1)).Pairwise fun a b => compare a b = .lt := by
    show List.Pairwise _ ["decision".toList, "evaluation_fingerprint".toList, "fingerprint".toList,
      "policy_id".toList, "previous_champion_id".toList, "promoted_artifact_sha256".toList, "reason".toList,
      "schema_version".toList]
    decide
  exact List.pairwise_map.mp hkeys

theorem decodeAdoption_encoded {r : EvaluationReceipt F} {a : AdoptionReceipt}
    (h : validateAdoption sha256 r a = .ok ()) :
    decodeAdoption sha256 (Json.write (.obj (ofEntries (adoptionEntries F sha256 a)))) r = .ok a := by
  have hversion : a.schemaVersion = 1 := not_not.mp (refuseIf_ok.mp (check_eq_ok.mp h).1)
  have hentries : ∀ e ∈ adoptionEntries F sha256 a, Canonical 0 e.2 := by
    intro e he
    simp only [adoptionEntries, hversion, List.mem_cons, List.not_mem_nil, or_false] at he
    rcases he with rfl | rfl | rfl | rfl | rfl | rfl | rfl | rfl
    case inr.inr.inr.inr.inr.inr.inr => exact .num prints_one
    all_goals
      first
      | exact .str _
      | exact .optionString _
  have hparse := parse_entries (@adoptionEntries_keys F _ sha256 a) (by decide : 0 < maxDepth) hentries
  have hkeys : requireExactKeys (adoptionEntries F sha256 a) ["decision", "evaluation_fingerprint", "fingerprint",
      "policy_id", "previous_champion_id", "promoted_artifact_sha256", "reason", "schema_version"] = .ok () :=
    if_pos rfl
  have hfingerprint : requiredString (adoptionEntries F sha256 a) "fingerprint" = .ok (a.fingerprint sha256) := rfl
  have hschema : requiredU16 (adoptionEntries F sha256 a) "schema_version" = .ok a.schemaVersion := by
    rw [hversion]
    exact requiredU16_one (by rw [← hversion]; rfl)
  have hevaluation : requiredString (adoptionEntries F sha256 a) "evaluation_fingerprint" =
      .ok a.evaluationFingerprint := rfl
  have hpolicy : requiredString (adoptionEntries F sha256 a) "policy_id" = .ok a.policyId := rfl
  have hdecision : requiredString (adoptionEntries F sha256 a) "decision" = .ok (decisionName a.decision) := rfl
  have hreason : requiredString (adoptionEntries F sha256 a) "reason" = .ok a.reason := rfl
  have hprevious : optionalString (adoptionEntries F sha256 a) "previous_champion_id" = .ok a.previousChampionId :=
    optionalString_ok rfl
  have hpromoted : optionalString (adoptionEntries F sha256 a) "promoted_artifact_sha256" =
      .ok a.promotedArtifactSha256 := optionalString_ok rfl
  simp only [decodeAdoption, hparse, bind, Except.bind, requireObject, hkeys, hfingerprint, hschema, hevaluation,
    hpolicy, hdecision, parseDecision_name, hreason, hprevious, hpromoted, protocol, h]
  exact if_neg (not_not_intro rfl)

/-! ## What is read is valid -/

omit [WireFloat64 F] [LawfulWireFloat64 F] in
theorem protocol_eq_ok {x : Except CandidateProtocolError Unit} (h : protocol x = .ok ()) : x = .ok () := by
  cases x with
  | error e => cases h
  | ok u => rfl

omit [WireFloat64 F] [LawfulWireFloat64 F] in
/-- A field that is read first says nothing about the result. -/
theorem ok_of_bind {A B : Type} {x : Except CandidateWireError A} {f : A → Except CandidateWireError B}
    {P : B → Prop} (h : ∀ a b, f a = .ok b → P b) : ∀ b, (x >>= f) = .ok b → P b := by
  intro b hb
  obtain ⟨a, -, hb⟩ := bind_eq_ok.mp hb
  exact h a b hb

omit [WireFloat64 F] [LawfulWireFloat64 F] in
theorem ok_of_checked {A : Type} {valid : Except CandidateProtocolError Unit} {bad : Prop} [Decidable bad]
    {field : String} {a : A} {P : A → Prop} (h : valid = .ok () → P a) :
    ∀ b, (protocol valid >>= fun _ => if bad then invalid field else pure a) = .ok b → P b := by
  intro b hb
  obtain ⟨hvalid, hb⟩ := check_eq_ok.mp hb
  split at hb
  · cases hb
  · cases hb
    exact h (protocol_eq_ok hvalid)

omit [LawfulWireFloat64 F] in
theorem decodeCandidate_valid (input : Str) :
    ∀ c, decodeCandidate F sha256 input = .ok c → validateCandidate sha256 c = .ok () := by
  unfold decodeCandidate
  iterate 14 refine ok_of_bind fun _ => ?_
  exact ok_of_checked id

omit [LawfulWireFloat64 F] in
theorem decodeEvaluation_valid (input : Str) (c : CandidateEnvelope) :
    ∀ r : EvaluationReceipt F, decodeEvaluation sha256 input c = .ok r → validateEvaluation sha256 c r = .ok () := by
  unfold decodeEvaluation
  iterate 20 refine ok_of_bind fun _ => ?_
  exact ok_of_checked id

omit [LawfulWireFloat64 F] in
theorem decodeAdoption_valid (input : Str) (r : EvaluationReceipt F) :
    ∀ a, decodeAdoption sha256 input r = .ok a → validateAdoption sha256 r a = .ok () := by
  unfold decodeAdoption
  iterate 12 refine ok_of_bind fun _ => ?_
  exact ok_of_checked id

/-! ## Both directions -/

/-- Valid values come back as they were, and what is read can be sent again. -/
def SurvivesWire {A : Type} (valid : A → Except CandidateProtocolError Unit)
    (encode : A → Except CandidateWireError Str) (decode : Str → Except CandidateWireError A)
    (fingerprint : A → Str) : Prop :=
  (∀ a, valid a = .ok () → ∃ text, encode a = .ok text ∧
      ∃ b, decode text = .ok b ∧ b = a ∧ fingerprint b = fingerprint a) ∧
    ∀ input a, decode input = .ok a → ∃ text, encode a = .ok text ∧ decode text = .ok a

omit [WireFloat64 F] [LawfulWireFloat64 F] in
theorem SurvivesWire.of_written {A : Type} {valid : A → Except CandidateProtocolError Unit}
    {encode : A → Except CandidateWireError Str} {decode : Str → Except CandidateWireError A}
    {fingerprint : A → Str} (written : A → Str) (hencode : ∀ a, valid a = .ok () → encode a = .ok (written a))
    (hdecode : ∀ a, valid a = .ok () → decode (written a) = .ok a)
    (hvalid : ∀ input a, decode input = .ok a → valid a = .ok ()) :
    SurvivesWire valid encode decode fingerprint := by
  refine ⟨fun a ha => ⟨written a, hencode a ha, a, hdecode a ha, rfl, rfl⟩, fun input a h => ?_⟩
  have ha := hvalid input a h
  exact ⟨written a, hencode a ha, hdecode a ha⟩

variable (F sha256) in
/-- Candidates, evaluations and adoptions survive the wire exactly. -/
theorem receipts_survive_wire :
    SurvivesWire (validateCandidate sha256) (encodeCandidate F sha256) (decodeCandidate F sha256)
        (CandidateEnvelope.fingerprint sha256) ∧
      (∀ c : CandidateEnvelope, SurvivesWire (validateEvaluation (F := F) sha256 c) (encodeEvaluation sha256 c)
        (fun input => decodeEvaluation sha256 input c) (EvaluationReceipt.fingerprint sha256)) ∧
      ∀ r : EvaluationReceipt F, SurvivesWire (validateAdoption sha256 r) (encodeAdoption sha256 r)
        (fun input => decodeAdoption sha256 input r) (AdoptionReceipt.fingerprint sha256) := by
  refine ⟨?_, fun c => ?_, fun r => ?_⟩
  · refine .of_written _ (fun c h => ?_) (fun c h => decodeCandidate_encoded h) decodeCandidate_valid
    rw [encodeCandidate, h]
    rfl
  · refine .of_written _ (fun r h => ?_) (fun r h => decodeEvaluation_encoded h) fun input => decodeEvaluation_valid input c
    rw [encodeEvaluation, h]
    rfl
  · refine .of_written _ (fun a h => ?_) (fun a h => decodeAdoption_encoded h) fun input => decodeAdoption_valid input r
    rw [encodeAdoption, h]
    rfl

end Receipts

/-! ## Bit patterns -/

namespace Sample

/-- The bits of a number. The operations are right on the whole numbers below `2^53`, which is what the wire
asks for. -/
structure Bits where
  bits : UInt64
  deriving DecidableEq, Repr

def Bits.ofNat (n : Nat) : Bits :=
  ⟨if n = 0 then 0 else UInt64.ofNat ((1023 + n.log2) * 2 ^ 52 + (n * 2 ^ (52 - n.log2) - 2 ^ 52))⟩

/-- The whole number that the bits stand for. -/
def Bits.whole (x : Bits) : Option Nat :=
  let exponent := x.bits.toNat / 2 ^ 52
  let mantissa := x.bits.toNat % 2 ^ 52 + 2 ^ 52
  if x.bits = 0 then some 0
  else if 1023 ≤ exponent ∧ exponent ≤ 1075 ∧ mantissa % 2 ^ (1075 - exponent) = 0 then
    some (mantissa / 2 ^ (1075 - exponent))
  else none

instance : WireFloat64 Bits where
  add a _ := a
  sub a _ := a
  mul a _ := a
  div a _ := a
  neg a := ⟨a.bits ^^^ 0x8000000000000000⟩
  lit q := Bits.ofNat q.num.natAbs
  ofNat := Bits.ofNat
  ln a := a
  sqrt a := a
  abs a := ⟨a.bits &&& 0x7fffffffffffffff⟩
  powi a _ := a
  partialCmp a b := some (compare a.bits b.bits)
  reparse := some
  toBits := Bits.bits
  isFinite a := a.bits.toNat / 2 ^ 52 % 2 ^ 11 ≠ 2047
  totalCmp a b := compare a.bits b.bits
  fromBits := Bits.mk
  fract a := if a.whole = none then a else Bits.ofNat 0
  toI64 a := (a.whole.getD 0 : Nat)
  toU16 a := UInt16.ofNat (a.whole.getD 0)
  display a := natStr (a.whole.getD 0)
  parse s := if s ≠ [] ∧ s.all isAsciiDigit = true then some (Bits.ofNat (Nat.ofDigitChars 10 s 0)) else none

instance : LawfulWireFloat64 Bits where
  fromBits_toBits _ _ := rfl
  one_finite := by decide
  one_nonneg := by decide
  one_fract := by decide
  one_small := by decide
  one_le := by decide
  one_toI64 := by decide
  one_toU16 := by decide
  parse_one := by decide

/-- Not SHA-256: the first bytes of what it is given. -/
def firstBytes (bytes : Bytes) : Bytes := bytes.take 32

def sorter : CandidateEnvelope :=
  let source := List.replicate 64 '0'
  { schemaVersion := 1, candidateId := digestHex firstBytes (identityBytes .forge "tri \"é\"\n".toList source)
    producerCandidateId := some "p".toList, parentCandidateId := none, origin := .forge
    domain := "tri \"é\"\n".toList, sourceSha256 := source, proposalSha256 := none
    trialSeed := 18446744073709551615 }

/-- One objective, of value -1.5. -/
def measured : EvaluationReceipt Bits where
  schemaVersion := 1
  candidateFingerprint := sorter.fingerprint firstBytes
  evaluatorId := "cargo".toList
  sandboxPolicyId := "bwrap".toList
  executionProfileSha256 := none
  verifierSha256 := none
  trialSeed := 18446744073709551615
  status := .succeeded
  objectives := [⟨"temps".toList, ⟨0xbff8000000000000⟩, true⟩]
  stdoutSha256 := List.replicate 64 'a'
  stderrSha256 := List.replicate 64 'b'
  timedOut := false
  outputTruncated := true
  failureReason := none

theorem sorter_valid : validateCandidate firstBytes sorter = .ok () := by decide

theorem measured_valid : validateEvaluation firstBytes sorter measured = .ok () := by decide

end Sample

theorem sample_survives_wire :
    (∃ text, encodeCandidate Sample.Bits Sample.firstBytes Sample.sorter = .ok text ∧
      ∃ c, decodeCandidate Sample.Bits Sample.firstBytes text = .ok c ∧ c = Sample.sorter ∧
        c.fingerprint Sample.firstBytes = Sample.sorter.fingerprint Sample.firstBytes) ∧
    ∃ text, encodeEvaluation Sample.firstBytes Sample.sorter Sample.measured = .ok text ∧
      ∃ r, decodeEvaluation Sample.firstBytes text Sample.sorter = .ok r ∧ r = Sample.measured ∧
        r.fingerprint Sample.firstBytes = Sample.measured.fingerprint Sample.firstBytes :=
  ⟨(receipts_survive_wire Sample.Bits Sample.firstBytes).1.1 Sample.sorter Sample.sorter_valid,
    ((receipts_survive_wire Sample.Bits Sample.firstBytes).2.1 Sample.sorter).1 Sample.measured Sample.measured_valid⟩

end Ccos
