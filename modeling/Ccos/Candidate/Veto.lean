import Ccos.Candidate.Audit
import Ccos.Candidate.Encoding
import Ccos.Candidate.Evidence
import Ccos.Lib.Runs

/-!
# Counterexamples against promotions

A recorded counterexample stops `decideRepeatedSeed`. It does not stop `recordAdoption`, which takes
any evidence that is audited.
-/

open Std ByteCodec

namespace Ccos

/-! ## What the checks accept -/

section Accepted

variable {F : Type} [Float64 F] {sha256 : Bytes → Bytes}

theorem validateEvaluation_ok {c : CandidateEnvelope} {r : EvaluationReceipt F}
    (h : validateEvaluation sha256 c r = .ok ()) :
    validateCandidate sha256 c = .ok () ∧ r.candidateFingerprint = c.fingerprint sha256 := by
  unfold validateEvaluation at h
  obtain ⟨_, hc, h⟩ := bind_eq_ok.mp h
  obtain ⟨_, -, h⟩ := bind_eq_ok.mp h
  obtain ⟨_, hbound, -⟩ := bind_eq_ok.mp h
  exact ⟨hc, not_not.mp (refuseIf_ok.mp hbound)⟩

theorem validateAdoption_ok {r : EvaluationReceipt F} {a : AdoptionReceipt}
    (h : validateAdoption sha256 r a = .ok ()) : a.evaluationFingerprint = r.fingerprint sha256 := by
  unfold validateAdoption at h
  obtain ⟨_, -, h⟩ := bind_eq_ok.mp h
  obtain ⟨_, hbound, -⟩ := bind_eq_ok.mp h
  exact not_not.mp (refuseIf_ok.mp hbound)

theorem AdoptionReceipt.new_ok {r : EvaluationReceipt F} {policyId reason : Str} {decision : AdoptionDecision}
    {previous artifact : Option Str} {a : AdoptionReceipt}
    (h : AdoptionReceipt.new sha256 r policyId decision reason previous artifact = .ok a) :
    a.decision = decision := by
  unfold AdoptionReceipt.new at h
  obtain ⟨_, -, h⟩ := bind_eq_ok.mp h
  obtain ⟨_, -, h⟩ := bind_eq_ok.mp h
  rw [← Except.ok.inj h]

/-- The gate over one seed never promotes. -/
theorem ChampionChallengerPolicy.decide_ne_promote {policy : ChampionChallengerPolicy F}
    {champion challenger : EvaluationReceipt F} {artifact : Option Str} {a : AdoptionReceipt}
    (h : policy.decide sha256 champion challenger artifact = .ok a) : a.decision ≠ .promote := by
  unfold ChampionChallengerPolicy.decide at h
  split at h
  · rw [AdoptionReceipt.new_ok h]
    decide
  · obtain ⟨improvements, -, h⟩ := bind_eq_ok.mp h
    split at h
    · rw [AdoptionReceipt.new_ok h]
      decide
    · split at h
      · rw [AdoptionReceipt.new_ok h]
        decide
      · rw [AdoptionReceipt.new_ok h]
        decide

end Accepted

/-! ## What a fingerprint determines -/

section Determined

variable {F : Type} [Float64 F] {sha256 : Bytes → Bytes}

theorem candidateId_of_fingerprint (hinj : Function.Injective sha256) {c c' : CandidateEnvelope}
    (hc : FitsMemory c.candidateId) (hc' : FitsMemory c'.candidateId)
    (h : c.fingerprint sha256 = c'.fingerprint sha256) : c.candidateId = c'.candidateId := by
  have hbytes := digestHex_injective hinj h
  simp only [CandidateEnvelope.canonicalBytes, List.append_assoc] at hbytes
  obtain ⟨-, hbytes⟩ := List.append_inj (List.append_cancel_left hbytes) (by simp [pushU16])
  exact (pushStr_append_inj hc hc' hbytes).1

theorem candidateFingerprint_of_fingerprint (hinj : Function.Injective sha256) {r r' : EvaluationReceipt F}
    (hr : FitsMemory r.candidateFingerprint) (hr' : FitsMemory r'.candidateFingerprint)
    (h : r.fingerprint sha256 = r'.fingerprint sha256) : r.candidateFingerprint = r'.candidateFingerprint := by
  have hbytes := digestHex_injective hinj h
  simp only [EvaluationReceipt.canonicalBytes, List.append_assoc] at hbytes
  obtain ⟨-, hbytes⟩ := List.append_inj (List.append_cancel_left hbytes) (by simp [pushU16])
  exact (pushStr_append_inj hr hr' hbytes).1

end Determined

/-! ## Steps of the audit -/

/-- The public operations. Only `fromPairs` builds evidence in the source; here any evidence will do. -/
inductive AuditOp (F : Type)
  | recordCandidate (candidate : CandidateEnvelope)
  | recordEvaluation (candidate : CandidateEnvelope) (receipt : EvaluationReceipt F)
  | recordCounterexample (candidate : CandidateEnvelope) (witness : CounterexampleWitness)
  | recordPromotionEvidence (evidence : PromotionEvidenceBundle)
  | recordAdoption (evaluation : EvaluationReceipt F) (receipt : AdoptionReceipt)
  | evaluate (candidate : CandidateEnvelope) (outcome : Except CandidateProtocolError (EvaluationReceipt F))
  | decideChampionChallenger (champion challenger : EvaluationReceipt F) (policy : ChampionChallengerPolicy F)
      (artifact : Option Str)
  | decideRepeatedSeed (selection holdout : List (EvaluationPair F)) (policy : RepeatedSeedPromotionPolicy F)
      (artifact : Option Str)

def AuditEvent.adoption? {F : Type} : AuditEvent F → Option AdoptionReceipt
  | .adoption a => some a
  | _ => none

namespace CcosCandidateAudit

variable {F : Type} [Float64 F]

def step (t : AuditTools F) (s : CcosCandidateAudit F) : AuditOp F → CcosCandidateAudit F
  | .recordCandidate candidate => (s.recordCandidate t candidate).2
  | .recordEvaluation candidate receipt => (s.recordEvaluation t candidate receipt).2
  | .recordCounterexample candidate witness => (s.recordCounterexample t candidate witness).2
  | .recordPromotionEvidence evidence => (s.recordPromotionEvidence t evidence).2
  | .recordAdoption evaluation receipt => (s.recordAdoption t evaluation receipt).2
  | .evaluate candidate outcome => (s.evaluate t candidate outcome).2
  | .decideChampionChallenger champion challenger policy artifact =>
    (s.decideChampionChallenger t champion challenger policy artifact).2
  | .decideRepeatedSeed selection holdout policy artifact =>
    (s.decideRepeatedSeed t selection holdout policy artifact).2

/-- The audit after some operations. -/
def after (t : AuditTools F) (ops : List (AuditOp F)) : CcosCandidateAudit F := Runs.run (step t) new ops

/-- The adoptions that a call appends to the log. -/
def newAdoptions (s s' : CcosCandidateAudit F) : List AdoptionReceipt :=
  (s'.log.drop s.log.length).filterMap AuditEvent.adoption?

variable {t : AuditTools F} {s s' : CcosCandidateAudit F}

/-- A call journals these adoptions, and leaves the counterexamples as they are. -/
structure Grows (s s' : CcosCandidateAudit F) (adoptions : List AdoptionReceipt) : Prop where
  log : ∃ events, s'.log = s.log ++ events ∧ events.filterMap AuditEvent.adoption? = adoptions
  counterexamples : s'.counterexamplesByCandidate = s.counterexamplesByCandidate

omit [Float64 F] in
theorem Grows.refl (s : CcosCandidateAudit F) : Grows s s [] :=
  ⟨⟨[], (List.append_nil _).symm, rfl⟩, rfl⟩

omit [Float64 F] in
theorem Grows.trans {u : CcosCandidateAudit F} {as bs : List AdoptionReceipt} (h : Grows s s' as)
    (h' : Grows s' u bs) : Grows s u (as ++ bs) := by
  obtain ⟨events, hlog, rfl⟩ := h.log
  obtain ⟨events', hlog', rfl⟩ := h'.log
  exact ⟨⟨events ++ events', by rw [hlog', hlog, List.append_assoc], List.filterMap_append⟩,
    h'.counterexamples.trans h.counterexamples⟩

omit [Float64 F] in
theorem Grows.newAdoptions_eq {as : List AdoptionReceipt} (h : Grows s s' as) : newAdoptions s s' = as := by
  obtain ⟨events, hlog, has⟩ := h.log
  rw [newAdoptions, hlog, List.drop_left, has]

omit [Float64 F] in
theorem Grows.hasCounterexample_eq {as : List AdoptionReceipt} (h : Grows s s' as) (id : Str) :
    s'.hasCounterexample id = s.hasCounterexample id := by
  rw [hasCounterexample, h.counterexamples, hasCounterexample]

omit [Float64 F] in
/-- A call that leaves the counterexamples as they are and journals one event. -/
theorem Grows.of_append (event : AuditEvent F) (hlog : s'.log = s.log)
    (hcounter : s'.counterexamplesByCandidate = s.counterexamplesByCandidate) :
    Grows s (s'.append event) (event.adoption?).toList := by
  refine ⟨⟨[event], by rw [append, hlog], ?_⟩, hcounter⟩
  cases event <;> rfl

theorem grows_recordCandidate (s : CcosCandidateAudit F) (c : CandidateEnvelope) :
    Grows s (s.recordCandidate t c).2 [] := by
  unfold recordCandidate
  split
  · exact .refl s
  · dsimp only
    split
    · exact .refl s
    · exact .of_append (.candidate c) rfl rfl

theorem grows_recordEvaluation (s : CcosCandidateAudit F) (c : CandidateEnvelope) (r : EvaluationReceipt F) :
    Grows s (s.recordEvaluation t c r).2 [] := by
  unfold recordEvaluation
  split
  · exact .refl s
  · split
    · exact .refl s
    · dsimp only
      split
      · exact .refl s
      · exact .of_append (.evaluation r) rfl rfl

theorem grows_recordPromotionEvidence (s : CcosCandidateAudit F) (b : PromotionEvidenceBundle) :
    Grows s (s.recordPromotionEvidence t b).2 [] := by
  unfold recordPromotionEvidence
  split
  · exact .refl s
  · dsimp only
    split
    · exact .refl s
    · exact .of_append (.promotionEvidence b) rfl rfl

omit [Float64 F] in
theorem grows_veto (s : CcosCandidateAudit F) (challengerId receipt evidence : Str) :
    Grows s (s.veto challengerId receipt evidence) [] := by
  unfold veto
  dsimp only
  split
  · exact .refl s
  · exact .of_append (.promotionVeto challengerId receipt evidence) rfl rfl

theorem grows_evaluate (s : CcosCandidateAudit F) (c : CandidateEnvelope)
    (outcome : Except CandidateProtocolError (EvaluationReceipt F)) : Grows s (s.evaluate t c outcome).2 [] := by
  have hcandidate := grows_recordCandidate (t := t) s c
  unfold evaluate
  split
  · rename_i h
    rwa [h] at hcandidate
  · rename_i s₁ h
    rw [h] at hcandidate
    split
    · exact hcandidate
    · rename_i receipt
      rw [returning_snd]
      exact hcandidate.trans (grows_recordEvaluation s₁ c receipt)

/-! ## Counterexamples -/

omit [Float64 F] in
theorem hasCounterexample_insert (s' : CcosCandidateAudit F) {receipts : ExtTreeSet Str} {fingerprint candidateId : Str}
    {map : BTreeMap Str (ExtTreeSet Str)} (hmap : s'.counterexamplesByCandidate =
      map.insert candidateId (receipts.insert fingerprint)) (id : Str) :
    s'.hasCounterexample id = true ↔
      id = candidateId ∨ (map[id]?.any fun receipts => !receipts.isEmpty) = true := by
  rw [hasCounterexample, hmap, ExtTreeMap.getElem?_insert]
  split
  · rename_i heq
    have hid : candidateId = id := LawfulEqOrd.compare_eq_iff_eq.mp heq
    simp [hid.symm]
  · rename_i hne
    have hid : id ≠ candidateId := fun h => hne (LawfulEqOrd.compare_eq_iff_eq.mpr h.symm)
    simp [hid]

omit [Float64 F] in
theorem exists_head?_of_hasCounterexample {id : Str} (h : s.hasCounterexample id = true) :
    ∃ receipt, (s.counterexamplesOf id).toList.head? = some receipt := by
  unfold hasCounterexample at h
  unfold counterexamplesOf
  cases hmap : s.counterexamplesByCandidate[id]? with
  | none => simp [hmap] at h
  | some receipts =>
    rw [hmap] at h
    refine Option.ne_none_iff_exists'.mp fun hhead => ?_
    rw [Option.getD_some, List.head?_eq_none_iff, ← List.isEmpty_iff, ExtTreeSet.isEmpty_toList] at hhead
    simp [hhead] at h

/-- What recording a counterexample does: nothing, or it adds one for the candidate. -/
theorem recordCounterexample_cases (s : CcosCandidateAudit F) (c : CandidateEnvelope) (w : CounterexampleWitness) :
    ((s.recordCounterexample t c w).1.isOk = false ∧ (s.recordCounterexample t c w).2 = s) ∨
      ((s.recordCounterexample t c w).1.isOk = true ∧
        newAdoptions s (s.recordCounterexample t c w).2 = [] ∧
        ∀ id, (s.recordCounterexample t c w).2.hasCounterexample id = true ↔
          id = c.candidateId ∨ s.hasCounterexample id = true) := by
  unfold recordCounterexample
  split
  · exact .inl ⟨rfl, rfl⟩
  · split
    · exact .inl ⟨rfl, rfl⟩
    · dsimp only
      split
      · rename_i hknown
        refine .inr ⟨rfl, (Grows.refl s).newAdoptions_eq, fun id => ⟨.inr, fun h => h.elim (fun hid => ?_) fun h => h⟩⟩
        subst hid
        unfold counterexamplesOf at hknown
        unfold hasCounterexample answer
        cases hmap : s.counterexamplesByCandidate[c.candidateId]? with
        | none => simp [hmap] at hknown
        | some receipts =>
          simp only [hmap, Option.getD_some] at hknown
          have hne : receipts ≠ ∅ := fun h => ExtTreeSet.not_mem_empty (h ▸ hknown)
          simp [hne]
      · have hhas : ∀ id, _ := hasCounterexample_insert
          (({ s with
            counterexamplesByCandidate := s.counterexamplesByCandidate.insert c.candidateId
              ((s.counterexamplesOf c.candidateId).insert (w.receipt.fingerprint t.sha256)) } :
            CcosCandidateAudit F).append (.counterexample c.candidateId w.receipt)) rfl
        refine .inr ⟨rfl, ?_, hhas⟩
        simp only [newAdoptions, answer, append, List.drop_left]
        rfl

/-! ## Adoptions -/

/-- The checks of `record_adoption` pass, and the receipt is new. -/
structure Accepted (t : AuditTools F) (s : CcosCandidateAudit F) (r : EvaluationReceipt F) (a : AdoptionReceipt) :
    Prop where
  valid : validateAdoption t.sha256 r a = .ok ()
  audited : r.fingerprint t.sha256 ∈ s.evaluations
  bound : a.decision = .promote → s.bindsEvidence a = true
  fresh : a.fingerprint t.sha256 ∉ s.adoptions

theorem recordAdoption_of_accepted {r : EvaluationReceipt F} {a : AdoptionReceipt} (h : Accepted t s r a) :
    (s.recordAdoption t r a).2 =
      { s with adoptions := s.adoptions.insert (a.fingerprint t.sha256) }.append (.adoption a) := by
  have hbound : ¬ (a.decision = .promote ∧ s.bindsEvidence a = false) := fun ⟨hp, hf⟩ =>
    Bool.false_ne_true (hf.symm.trans (h.bound hp))
  unfold recordAdoption
  rw [h.valid]
  dsimp only
  rw [if_neg (not_not.mpr h.audited), if_neg hbound, if_neg h.fresh]
  rfl

theorem grows_recordAdoption {r : EvaluationReceipt F} {a : AdoptionReceipt} (h : Accepted t s r a) :
    Grows s (s.recordAdoption t r a).2 [a] := by
  rw [recordAdoption_of_accepted h]
  exact .of_append (.adoption a) rfl rfl

theorem recordAdoption_of_not_accepted {r : EvaluationReceipt F} {a : AdoptionReceipt} (h : ¬ Accepted t s r a) :
    (s.recordAdoption t r a).2 = s := by
  unfold recordAdoption
  split
  · rfl
  · rename_i hvalid
    split
    · rfl
    · rename_i haudited
      split
      · rfl
      · rename_i hbound
        dsimp only
        split
        · rfl
        · rename_i hfresh
          refine absurd ⟨hvalid, not_not.mp haudited, fun hp => ?_, hfresh⟩ h
          exact Bool.not_eq_false _ ▸ fun hf => hbound ⟨hp, hf⟩

/-- What recording an adoption journals. -/
theorem recordAdoption_cases (s : CcosCandidateAudit F) (r : EvaluationReceipt F) (a : AdoptionReceipt) :
    Grows s (s.recordAdoption t r a).2 [] ∨ (Accepted t s r a ∧ Grows s (s.recordAdoption t r a).2 [a]) := by
  by_cases h : Accepted t s r a
  · exact .inr ⟨h, grows_recordAdoption h⟩
  · rw [recordAdoption_of_not_accepted h]
    exact .inl (.refl s)

theorem decideChampionChallenger_cases (s : CcosCandidateAudit F) (champion challenger : EvaluationReceipt F)
    (policy : ChampionChallengerPolicy F) (artifact : Option Str) :
    ∃ as, Grows s (s.decideChampionChallenger t champion challenger policy artifact).2 as ∧
      ∀ a ∈ as, a.decision ≠ .promote := by
  unfold decideChampionChallenger
  split
  · exact ⟨[], .refl s, by simp⟩
  · split
    · exact ⟨[], .refl s, by simp⟩
    · rename_i adoption hdecide
      have hadoption := recordAdoption_cases (t := t) s challenger adoption
      rw [returning_snd]
      rcases hadoption with h | ⟨-, h⟩
      · exact ⟨[], h, by simp⟩
      · refine ⟨[adoption], h, fun a ha => ?_⟩
        rw [List.mem_singleton.mp ha]
        exact ChampionChallengerPolicy.decide_ne_promote hdecide

/-- A promotion over many seeds is of a challenger without counterexamples. -/
theorem decideRepeatedSeed_cases (s : CcosCandidateAudit F) (selection holdout : List (EvaluationPair F))
    (policy : RepeatedSeedPromotionPolicy F) (artifact : Option Str) :
    ∃ as, Grows s (s.decideRepeatedSeed t selection holdout policy artifact).2 as ∧
      ∀ a ∈ as, a.decision = .promote → ∃ pair ∈ selection ++ holdout,
        validateEvaluation t.sha256 pair.challengerCandidate pair.challenger = .ok () ∧
        a.evaluationFingerprint = pair.challenger.fingerprint t.sha256 ∧
        s.hasCounterexample pair.challengerCandidate.candidateId = false := by
  unfold decideRepeatedSeed
  split
  · exact ⟨[], .refl s, by simp⟩
  · rename_i decision hdecide
    have hevidence := grows_recordPromotionEvidence (t := t) s decision.evidence
    split
    · rename_i h
      rw [h] at hevidence
      exact ⟨[], hevidence, by simp⟩
    · rename_i s₁ h
      rw [h] at hevidence
      dsimp only
      split
      · rename_i counterexample hpromote hfirst
        exact ⟨[], hevidence.trans (grows_veto s₁ _ _ _), by simp⟩
      · rename_i hnone
        split
        · exact ⟨[], hevidence, by simp⟩
        · rename_i pair hpair
          have hmem := List.mem_of_find?_eq_some hpair
          have hfingerprint : pair.challenger.fingerprint t.sha256 = decision.adoption.evaluationFingerprint := by
            simpa using List.find?_some hpair
          obtain ⟨_, _, _, hdecided⟩ := RepeatedSeedPromotionPolicy.decide_spec hdecide
          obtain ⟨hvalid, hid⟩ := PromotionEvidenceBundle.fromPairs_challenger hdecided.bundled hmem
          rw [returning_snd]
          rcases recordAdoption_cases (t := t) s₁ pair.challenger decision.adoption with hsame | ⟨-, hnew⟩
          · exact ⟨[], hevidence.trans hsame, by simp⟩
          · refine ⟨[decision.adoption], hevidence.trans hnew, fun a ha hp => ?_⟩
            obtain rfl := List.mem_singleton.mp ha
            refine ⟨pair, hmem, hvalid, hfingerprint.symm, ?_⟩
            rw [hid, ← Bool.not_eq_true]
            intro hhas
            -- The evidence is journaled before the veto is asked for.
            obtain ⟨counterexample, hfirst⟩ := exists_head?_of_hasCounterexample ((hevidence.hasCounterexample_eq _).trans hhas)
            exact hnone counterexample hp hfirst

/-! ## Runs of the audit -/

theorem after_append (pre : List (AuditOp F)) (op : AuditOp F) :
    after t (pre ++ [op]) = (after t pre).step t op := by
  rw [after, Runs.run, List.foldl_append]
  rfl

/-- The two ways to journal a promotion. -/
inductive Promotes (t : AuditTools F) (s : CcosCandidateAudit F) (a : AdoptionReceipt) : AuditOp F → Prop
  | direct {r : EvaluationReceipt F} (accepted : Accepted t s r a) : Promotes t s a (.recordAdoption r a)
  | repeated {selection holdout : List (EvaluationPair F)} {policy : RepeatedSeedPromotionPolicy F}
      {artifact : Option Str} {pair : EvaluationPair F} (hpair : pair ∈ selection ++ holdout)
      (valid : validateEvaluation t.sha256 pair.challengerCandidate pair.challenger = .ok ())
      (anchored : a.evaluationFingerprint = pair.challenger.fingerprint t.sha256)
      (clean : s.hasCounterexample pair.challengerCandidate.candidateId = false) :
      Promotes t s a (.decideRepeatedSeed selection holdout policy artifact)

/-- What a step can do: record a counterexample, or journal adoptions. -/
theorem step_cases (s : CcosCandidateAudit F) (op : AuditOp F) :
    (∃ candidate witness, op = .recordCounterexample candidate witness ∧
      (s.recordCounterexample t candidate witness).1.isOk = true ∧ newAdoptions s (s.step t op) = [] ∧
      ∀ id, (s.step t op).hasCounterexample id = true ↔ id = candidate.candidateId ∨ s.hasCounterexample id = true) ∨
    ((∀ candidate witness, op = .recordCounterexample candidate witness →
        (s.recordCounterexample t candidate witness).1.isOk = false) ∧
      ∃ as, Grows s (s.step t op) as ∧ ∀ a ∈ as, a.decision = .promote → Promotes t s a op) := by
  cases op with
  | recordCandidate c => exact .inr ⟨by simp, [], grows_recordCandidate s c, by simp⟩
  | recordEvaluation c r => exact .inr ⟨by simp, [], grows_recordEvaluation s c r, by simp⟩
  | recordCounterexample c w =>
    rcases recordCounterexample_cases (t := t) s c w with ⟨hfailed, hsame⟩ | ⟨hok, hnone, hhas⟩
    · refine .inr ⟨?_, [], ?_, by simp⟩
      · rintro _ _ ⟨⟩
        exact hfailed
      · rw [step, hsame]
        exact .refl s
    · exact .inl ⟨c, w, rfl, hok, hnone, hhas⟩
  | recordPromotionEvidence b => exact .inr ⟨by simp, [], grows_recordPromotionEvidence s b, by simp⟩
  | recordAdoption r a =>
    rcases recordAdoption_cases (t := t) s r a with hgrows | ⟨haccepted, hgrows⟩
    · exact .inr ⟨by simp, [], hgrows, by simp⟩
    · refine .inr ⟨by simp, [a], hgrows, fun b hb _ => ?_⟩
      rw [List.mem_singleton.mp hb]
      exact .direct haccepted
  | evaluate c outcome => exact .inr ⟨by simp, [], grows_evaluate s c outcome, by simp⟩
  | decideChampionChallenger champion challenger policy artifact =>
    obtain ⟨as, hgrows, has⟩ := decideChampionChallenger_cases (t := t) s champion challenger policy artifact
    exact .inr ⟨by simp, as, hgrows, fun a ha hp => absurd hp (has a ha)⟩
  | decideRepeatedSeed selection holdout policy artifact =>
    obtain ⟨as, hgrows, has⟩ := decideRepeatedSeed_cases (t := t) s selection holdout policy artifact
    refine .inr ⟨by simp, as, hgrows, fun a ha hp => ?_⟩
    obtain ⟨pair, hpair, hvalid, hanchored, hclean⟩ := has a ha hp
    exact .repeated hpair hvalid hanchored hclean

/-- A counterexample stays recorded. -/
theorem hasCounterexample_step (op : AuditOp F) {id : Str} (h : s.hasCounterexample id = true) :
    (s.step t op).hasCounterexample id = true := by
  rcases step_cases (t := t) s op with ⟨_, _, -, -, -, hhas⟩ | ⟨-, as, hgrows, -⟩
  · exact (hhas id).mpr (.inr h)
  · rwa [hgrows.hasCounterexample_eq]

theorem hasCounterexample_run (ops : List (AuditOp F)) {id : Str} (h : s.hasCounterexample id = true) :
    (Runs.run (step t) s ops).hasCounterexample id = true := by
  induction ops generalizing s with
  | nil => exact h
  | cons op ops ih => exact ih (hasCounterexample_step op h)

/-- Every counterexample was recorded by a call that succeeded. -/
theorem recorded_of_hasCounterexample {ops : List (AuditOp F)} {id : Str}
    (h : (after t ops).hasCounterexample id = true) :
    ∃ pre candidate witness mid, ops = pre ++ .recordCounterexample candidate witness :: mid ∧
      ((after t pre).recordCounterexample t candidate witness).1.isOk = true ∧ candidate.candidateId = id := by
  induction ops using List.reverseRecOn with
  | nil => simp [after, Runs.run, new, hasCounterexample] at h
  | append_singleton ops op ih =>
    rw [after_append] at h
    have hbefore : (after t ops).hasCounterexample id = true →
        ∃ pre candidate witness mid, ops ++ [op] = pre ++ .recordCounterexample candidate witness :: mid ∧
          ((after t pre).recordCounterexample t candidate witness).1.isOk = true ∧ candidate.candidateId = id := by
      intro hold
      obtain ⟨pre, candidate, witness, mid, rfl, hok, hid⟩ := ih hold
      exact ⟨pre, candidate, witness, mid ++ [op], by simp, hok, hid⟩
    rcases step_cases (t := t) (after t ops) op with ⟨candidate, witness, rfl, hok, -, hhas⟩ | ⟨-, as, hgrows, -⟩
    · rcases (hhas id).mp h with rfl | hold
      · exact ⟨ops, candidate, witness, [], rfl, hok, rfl⟩
      · exact hbefore hold
    · exact hbefore (by rwa [hgrows.hasCounterexample_eq] at h)

theorem hasCounterexample_of_recorded {pre : List (AuditOp F)} (mid : List (AuditOp F)) {candidate : CandidateEnvelope}
    {witness : CounterexampleWitness}
    (hok : ((after t pre).recordCounterexample t candidate witness).1.isOk = true) :
    (after t (pre ++ .recordCounterexample candidate witness :: mid)).hasCounterexample candidate.candidateId =
      true := by
  have hhas : ((after t pre).step t (.recordCounterexample candidate witness)).hasCounterexample
      candidate.candidateId = true := by
    rcases recordCounterexample_cases (t := t) (after t pre) candidate witness with ⟨hfailed, -⟩ | ⟨-, -, hhas⟩
    · exact absurd hok (by rw [hfailed]; decide)
    · exact (hhas _).mpr (.inl rfl)
  have hrun := hasCounterexample_run (t := t) mid hhas
  rwa [after, Runs.run, List.foldl_append, List.foldl_cons]

/-! ## When a veto holds -/

/-- The evaluation of an adoption is one of this candidate id. -/
def Belongs (t : AuditTools F) (a : AdoptionReceipt) (id : Str) : Prop :=
  ∃ (c : CandidateEnvelope) (r : EvaluationReceipt F), FitsMemory c.candidateId ∧ FitsMemory r.candidateFingerprint ∧
    a.evaluationFingerprint = r.fingerprint t.sha256 ∧ r.candidateFingerprint = c.fingerprint t.sha256 ∧
    c.candidateId = id

/-- The texts of the pairs are texts of the source. -/
def FitsOp : AuditOp F → Prop
  | .decideRepeatedSeed selection holdout _ _ => ∀ pair ∈ selection ++ holdout,
      FitsMemory pair.challengerCandidate.candidateId ∧ FitsMemory pair.challenger.candidateFingerprint
  | _ => True

instance (op : AuditOp F) : Decidable (FitsOp op) := by
  cases op <;> unfold FitsOp <;> infer_instance

/-- A direct `record_adoption`, which nothing refuses, of a promotion of a candidate with a recorded
counterexample. -/
def PromotesVetoed (t : AuditTools F) (s : CcosCandidateAudit F) : AuditOp F → Prop
  | .recordAdoption r a => a.decision = .promote ∧ Accepted t s r a ∧
      ∃ id, s.hasCounterexample id = true ∧ Belongs t a id
  | _ => False

/-- The promotion that a step journals over many seeds is of a candidate without counterexamples. -/
theorem not_belongs_of_clean (hinj : Function.Injective t.sha256) {a : AdoptionReceipt} {pair : EvaluationPair F}
    {id : Str} (hfits : FitsMemory pair.challengerCandidate.candidateId ∧
      FitsMemory pair.challenger.candidateFingerprint)
    (hvalid : validateEvaluation t.sha256 pair.challengerCandidate pair.challenger = .ok ())
    (hanchored : a.evaluationFingerprint = pair.challenger.fingerprint t.sha256)
    (hclean : s.hasCounterexample pair.challengerCandidate.candidateId = false)
    (hvetoed : s.hasCounterexample id = true) : ¬ Belongs t a id := by
  rintro ⟨c, r, hcfits, hrfits, hfingerprint, hbound, rfl⟩
  have hsame : pair.challenger.candidateFingerprint = r.candidateFingerprint :=
    candidateFingerprint_of_fingerprint hinj hfits.2 hrfits (hanchored.symm.trans hfingerprint)
  have henvelope : pair.challengerCandidate.fingerprint t.sha256 = c.fingerprint t.sha256 := by
    rw [← (validateEvaluation_ok hvalid).2, hsame, hbound]
  have hid := candidateId_of_fingerprint hinj hfits.1 hcfits henvelope
  rw [← hid, hclean] at hvetoed
  exact Bool.false_ne_true hvetoed

/-- In a run, no promotion is journaled against a counterexample exactly when `record_adoption` is
never asked for one. -/
theorem veto_holds_iff (t : AuditTools F) (hinj : Function.Injective t.sha256) (ops : List (AuditOp F))
    (hfits : ∀ op ∈ ops, FitsOp op) :
    (∀ pre candidate witness mid op post,
        ops = pre ++ .recordCounterexample candidate witness :: mid ++ op :: post →
        ((after t pre).recordCounterexample t candidate witness).1.isOk = true →
        ∀ a ∈ newAdoptions (after t (pre ++ .recordCounterexample candidate witness :: mid))
          ((after t (pre ++ .recordCounterexample candidate witness :: mid)).step t op),
        a.decision = .promote → ¬ Belongs t a candidate.candidateId) ↔
      ∀ pre op post, ops = pre ++ op :: post → ¬ PromotesVetoed t (after t pre) op := by
  constructor
  · intro h pre op post hops hvetoed
    cases op with
    | recordAdoption r a =>
      obtain ⟨hpromote, haccepted, id, hhas, hbelongs⟩ := hvetoed
      obtain ⟨pre, candidate, witness, mid, rfl, hok, rfl⟩ := recorded_of_hasCounterexample hhas
      refine h pre candidate witness mid _ post hops hok a ?_ hpromote hbelongs
      have hnew := (grows_recordAdoption haccepted).newAdoptions_eq
      exact hnew.symm ▸ List.mem_singleton.mpr rfl
    | _ => exact hvetoed
  · intro h pre candidate witness mid op post hops hok a ha hpromote hbelongs
    have hhas := hasCounterexample_of_recorded mid hok
    rcases step_cases (t := t) (after t (pre ++ .recordCounterexample candidate witness :: mid)) op with
      ⟨_, _, -, -, hnone, -⟩ | ⟨-, as, hgrows, has⟩
    · rw [hnone] at ha
      exact absurd ha List.not_mem_nil
    · rw [hgrows.newAdoptions_eq] at ha
      have hhow := has a ha hpromote
      cases hhow with
      | direct haccepted => exact h _ _ post hops ⟨hpromote, haccepted, _, hhas, hbelongs⟩
      | repeated hpair hvalid hanchored hclean =>
        have hmem := hfits _ (hops ▸ List.mem_append_right _ List.mem_cons_self)
        exact not_belongs_of_clean hinj (hmem _ hpair) hvalid hanchored hclean hhas hbelongs

/-! ## A run -/

/-- A digest that numbers the texts of a table, and frames every other text. -/
def tableDigest (table : List Bytes) (bytes : Bytes) : Bytes :=
  match table.idxOf? bytes with
  | some i => leOf 8 i ++ [1]
  | none => bytes ++ [0]

theorem tableDigest_injective {table : List Bytes} (hsize : table.length < 256 ^ 8) :
    Function.Injective (tableDigest table) := by
  have hat : ∀ {b : Bytes} {i : Nat}, table.idxOf? b = some i → table[i]? = some b := by
    intro b i hi
    obtain ⟨hlt, hb, -⟩ := List.findIdx?_eq_some_iff_getElem.mp hi
    rw [List.getElem?_eq_getElem hlt, eq_of_beq hb]
  intro a b h
  unfold tableDigest at h
  cases ha : table.idxOf? a with
  | none =>
    cases hb : table.idxOf? b with
    | none => simpa [ha, hb] using h
    | some j =>
      simp only [ha, hb] at h
      exact absurd (List.append_inj_right' h rfl) (by decide)
  | some i =>
    cases hb : table.idxOf? b with
    | none =>
      simp only [ha, hb] at h
      exact absurd (List.append_inj_right' h rfl) (by decide)
    | some j =>
      simp only [ha, hb, List.append_cancel_right_eq] at h
      have hi := (List.getElem?_eq_some_iff.mp (hat ha)).1
      have hj := (List.getElem?_eq_some_iff.mp (hat hb)).1
      have hij : i = j := by
        rw [← leTo_leOf_of_lt (hi.trans hsize), h, leTo_leOf_of_lt (hj.trans hsize)]
      exact Option.some.inj ((hat ha).symm.trans (hij ▸ hat hb))

example : tableDigest [[7]] [7] = leOf 8 0 ++ [1] := by decide +kernel

namespace Sample

/-- The digest of the entry with this number. -/
def idOf (n : Nat) : Str := lowerHex (leOf 8 n ++ [1])

def candidateOf (candidate : Nat) (source : Char) (seed : UInt64) : CandidateEnvelope where
  schemaVersion := 1
  candidateId := idOf candidate
  producerCandidateId := none
  parentCandidateId := none
  origin := .rsi
  domain := ['d']
  sourceSha256 := List.replicate 64 source
  proposalSha256 := none
  trialSeed := seed

def receiptOf (envelope : Nat) (seed : UInt64) (latency : ℚ) : EvaluationReceipt ℚ where
  schemaVersion := 1
  candidateFingerprint := idOf envelope
  evaluatorId := ['e']
  sandboxPolicyId := ['s']
  executionProfileSha256 := none
  verifierSha256 := none
  trialSeed := seed
  status := .succeeded
  objectives := [⟨['n', 's'], latency, true⟩]
  stdoutSha256 := List.replicate 64 'c'
  stderrSha256 := List.replicate 64 'd'
  timedOut := false
  outputTruncated := false
  failureReason := none

def pairAt (seed : UInt64) (champion challenger : Nat) : EvaluationPair ℚ where
  championCandidate := candidateOf 0 'a' seed
  champion := receiptOf champion seed 100
  challengerCandidate := candidateOf 1 'b' seed
  challenger := receiptOf challenger seed 90

def bundle : PromotionEvidenceBundle where
  championCandidateId := idOf 0
  challengerCandidateId := idOf 1
  selection := [⟨1, idOf 0, idOf 1, idOf 2, idOf 3, idOf 6, idOf 7⟩]
  holdout := [⟨2, idOf 0, idOf 1, idOf 4, idOf 5, idOf 8, idOf 9⟩]

def table : List Bytes :=
  [identityBytes .rsi ['d'] (List.replicate 64 'a'), identityBytes .rsi ['d'] (List.replicate 64 'b'),
    (candidateOf 0 'a' 1).canonicalBytes, (candidateOf 1 'b' 1).canonicalBytes,
    (candidateOf 0 'a' 2).canonicalBytes, (candidateOf 1 'b' 2).canonicalBytes,
    (receiptOf 2 1 100).canonicalBytes, (receiptOf 3 1 90).canonicalBytes,
    (receiptOf 4 2 100).canonicalBytes, (receiptOf 5 2 90).canonicalBytes, bundle.canonicalBytes]

def tools : AuditTools ℚ where
  sha256 := tableDigest table
  log := { sha256 := id, payloadJson := fun _ => [] }

/-- A failing input of 31 bytes. -/
def failure : CounterexampleWitness where
  receipt :=
    { schemaVersion := 1, candidateFingerprint := idOf 3, generatorId := ['g'], oracleId := ['o']
      oracleContractSha256 := List.replicate 64 'f', shrinkerId := ['s'], searchSeed := 0, generationOrdinal := 0
      originalInputSha256 := List.replicate 64 '0', originalInputBytes := 31
      minimizedInputSha256 := List.replicate 64 '0', minimizedInputBytes := 31, failureKind := ['k']
      generationOracleQueries := 1, shrinkOracleQueries := 0 }
  originalInput := List.replicate 31 0
  minimizedInput := List.replicate 31 0

def policy : RepeatedSeedPromotionPolicy ℚ := ⟨['p'], 1, 1, 1 / 100, 1 / 100, 5000⟩

def decide : AuditOp ℚ :=
  .decideRepeatedSeed [pairAt 1 2 3] [pairAt 2 4 5] policy (some (List.replicate 64 'e'))

/-- A champion and a challenger are measured twice, and the challenger is promoted. -/
def measured : List (AuditOp ℚ) :=
  [.recordCandidate (candidateOf 0 'a' 1), .recordCandidate (candidateOf 1 'b' 1),
    .recordCandidate (candidateOf 0 'a' 2), .recordCandidate (candidateOf 1 'b' 2),
    .recordEvaluation (candidateOf 0 'a' 1) (receiptOf 2 1 100),
    .recordEvaluation (candidateOf 1 'b' 1) (receiptOf 3 1 90),
    .recordEvaluation (candidateOf 0 'a' 2) (receiptOf 4 2 100),
    .recordEvaluation (candidateOf 1 'b' 2) (receiptOf 5 2 90), decide]

def veto : AuditOp ℚ := .recordCounterexample (candidateOf 1 'b' 1) failure

/-- A second promotion, on the evidence of the first. -/
def again : AdoptionReceipt where
  schemaVersion := 1
  evaluationFingerprint := idOf 9
  policyId := ['q']
  decision := .promote
  reason := "evidence_sha256=".toList ++ idOf 10
  previousChampionId := none
  promotedArtifactSha256 := some (List.replicate 64 'e')

theorem sha256_injective : Function.Injective tools.sha256 := tableDigest_injective (by decide)

/-- The facts of the run that need its digests, evaluated together. -/
theorem evaluated :
    (((after tools measured).recordCounterexample tools (candidateOf 1 'b' 1) failure).1.isOk = true ∧
      newAdoptions (after tools (measured ++ [veto]))
        ((after tools (measured ++ [veto])).step tools (.recordAdoption (receiptOf 5 2 90) again)) = [again]) ∧
    (again.evaluationFingerprint = (receiptOf 5 2 90).fingerprint tools.sha256 ∧
      (receiptOf 5 2 90).candidateFingerprint = (candidateOf 1 'b' 2).fingerprint tools.sha256) ∧
    ((PromotionEvidenceBundle.fromPairs tools.sha256 [pairAt 1 2 3] [pairAt 2 4 5]).toOption = some bundle ∧
      ((policy.decide tools.sha256 [pairAt 1 2 3] [pairAt 2 4 5] (some (List.replicate 64 'e'))).map
        fun d => d.adoption.decision).toOption = some .promote) ∧
    validateAdoption tools.sha256 (receiptOf 4 2 100) { again with evaluationFingerprint := idOf 8 } = .ok () ∧
      (receiptOf 4 2 100).fingerprint tools.sha256 ∈ (after tools measured).evaluations ∧
      (after tools measured).bindsEvidence { again with evaluationFingerprint := idOf 8 } = true ∧
      AdoptionReceipt.fingerprint tools.sha256 { again with evaluationFingerprint := idOf 8 } ∉
        (after tools measured).adoptions ∧
      ((after tools measured).log.all fun
        | .promotionEvidence b => Decidable.decide (b = bundle)
        | _ => true) = true := by
  decide +kernel

theorem again_belongs : Belongs tools again (idOf 1) :=
  ⟨candidateOf 1 'b' 2, receiptOf 5 2 90, by decide, by decide, evaluated.2.1.1, evaluated.2.1.2, rfl⟩

/-- The same decision after the counterexample journals no promotion. -/
theorem decision_is_vetoed :
    ¬ ∃ a ∈ newAdoptions (after tools (measured ++ [veto]))
        ((after tools (measured ++ [veto])).step tools decide),
      a.decision = .promote ∧ Belongs tools a (candidateOf 1 'b' 1).candidateId := by
  have hfits : ∀ op ∈ measured ++ [veto, decide], FitsOp op := by decide
  rintro ⟨a, hnew, hpromote, hbelongs⟩
  refine (veto_holds_iff tools sha256_injective _ hfits).mpr (fun pre op post hops hvetoed => ?_) measured
    (candidateOf 1 'b' 1) failure [] decide [] rfl evaluated.1.1 a hnew hpromote hbelongs
  have hmem : op ∈ measured ++ [veto, decide] := hops ▸ List.mem_append_right _ List.mem_cons_self
  simp only [measured, veto, decide, List.cons_append, List.nil_append, List.mem_cons, List.not_mem_nil,
    or_false] at hmem
  rcases hmem with rfl | rfl | rfl | rfl | rfl | rfl | rfl | rfl | rfl | rfl | rfl <;> exact hvetoed

theorem promoted_despite_counterexample :
    ¬ ∀ (t : AuditTools ℚ), Function.Injective t.sha256 → ∀ ops : List (AuditOp ℚ), (∀ op ∈ ops, FitsOp op) →
      ∀ pre candidate witness mid op post,
        ops = pre ++ .recordCounterexample candidate witness :: mid ++ op :: post →
        ((after t pre).recordCounterexample t candidate witness).1.isOk = true →
        ∀ a ∈ newAdoptions (after t (pre ++ .recordCounterexample candidate witness :: mid))
          ((after t (pre ++ .recordCounterexample candidate witness :: mid)).step t op),
        a.decision = .promote → ¬ Belongs t a candidate.candidateId := by
  intro h
  obtain ⟨hok, hnew⟩ := evaluated.1
  refine h tools sha256_injective (measured ++ [veto, .recordAdoption (receiptOf 5 2 90) again]) (by decide)
    measured (candidateOf 1 'b' 1) failure [] (.recordAdoption (receiptOf 5 2 90) again) [] rfl hok again ?_ rfl
    again_belongs
  exact hnew.symm ▸ List.mem_singleton.mpr rfl

end Sample

end CcosCandidateAudit

end Ccos
