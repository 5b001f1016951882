import Mathlib.Logic.Relation
import Ccos.Lib.Journal
import Ccos.Candidate.Veto

/-!
# The order of the audit

The index sets mirror the log: an event is journaled once, and after the events it refers to.
-/

open Std ByteCodec

namespace Ccos

/-! ## Keys -/

theorem CounterexampleWitness.validate_ok {sha256 : Bytes → Bytes} {w : CounterexampleWitness} {c : CandidateEnvelope}
    (h : w.validate sha256 c = .ok ()) : w.receipt.candidateFingerprint = c.fingerprint sha256 := by
  unfold CounterexampleWitness.validate at h
  obtain ⟨_, hreceipt, -⟩ := bind_eq_ok.mp h
  unfold validateCounterexampleReceipt at hreceipt
  obtain ⟨_, -, hreceipt⟩ := bind_eq_ok.mp hreceipt
  obtain ⟨_, -, hreceipt⟩ := bind_eq_ok.mp hreceipt
  obtain ⟨_, hbound, -⟩ := bind_eq_ok.mp hreceipt
  exact not_not.mp (refuseIf_ok.mp hbound)

/-- The entry of an index set. -/
inductive AuditKey
  | candidate (fingerprint : Str)
  | evaluation (fingerprint : Str)
  | counterexample (candidateId fingerprint : Str)
  | evidence (fingerprint : Str)
  | veto (key : Str)
  | adoption (fingerprint : Str)
  deriving DecidableEq, Repr

variable {F : Type} [Float64 F]

def vetoKey (challengerId counterexample evidence : Str) : Str :=
  challengerId ++ ':' :: counterexample ++ ':' :: evidence

namespace AuditEvent

variable (t : AuditTools F)

/-- The entry that the event is journaled under. -/
def key : AuditEvent F → AuditKey
  | .candidate c => .candidate (c.fingerprint t.sha256)
  | .evaluation r => .evaluation (r.fingerprint t.sha256)
  | .counterexample id r => .counterexample id (r.fingerprint t.sha256)
  | .promotionEvidence b => .evidence (b.fingerprint t.sha256)
  | .promotionVeto id receipt evidence => .veto (vetoKey id receipt evidence)
  | .adoption a => .adoption (a.fingerprint t.sha256)

/-- The entries of the events that the event refers to. -/
def needs : AuditEvent F → List AuditKey
  | .candidate _ => []
  | .evaluation r => [.candidate r.candidateFingerprint]
  | .counterexample _ r => [.candidate r.candidateFingerprint]
  | .promotionEvidence b => (b.selection ++ b.holdout).flatMap fun row =>
      [.evaluation row.championEvaluationFingerprint, .evaluation row.challengerEvaluationFingerprint]
  | .promotionVeto id receipt evidence => [.counterexample id receipt, .evidence evidence]
  | .adoption a => [.evaluation a.evaluationFingerprint]

end AuditEvent

namespace CcosCandidateAudit

/-- The index sets, as one. -/
def Holds (s : CcosCandidateAudit F) : AuditKey → Prop
  | .candidate fingerprint => fingerprint ∈ s.candidates
  | .evaluation fingerprint => fingerprint ∈ s.evaluations
  | .counterexample id fingerprint => fingerprint ∈ s.counterexamplesOf id
  | .evidence fingerprint => fingerprint ∈ s.promotionEvidence
  | .veto key => key ∈ s.counterexampleVetoes
  | .adoption fingerprint => fingerprint ∈ s.adoptions

/-- A counterexample was validated against a candidate of the id it is kept under. -/
def Sealed (t : AuditTools F) : AuditEvent F → Prop
  | .counterexample id r => ∃ c : CandidateEnvelope, c.candidateId = id ∧ FitsMemory c.candidateId ∧
      FitsMemory r.candidateFingerprint ∧ r.candidateFingerprint = c.fingerprint t.sha256
  | _ => True

structure Chained (t : AuditTools F) (s : CcosCandidateAudit F) : Prop where
  indexed : Journal.Indexed (AuditEvent.key t) AuditEvent.needs s.Holds s.log
  bound : ∀ e ∈ s.log, Sealed t e

/-- A call journals this event, after its checks. -/
structure Journals (t : AuditTools F) (s s' : CcosCandidateAudit F) (e : AuditEvent F) : Prop where
  log : s'.log = s.log ++ [e]
  fresh : ¬ s.Holds (e.key t)
  holds : ∀ k, s'.Holds k ↔ k = e.key t ∨ s.Holds k
  needed : ∀ k ∈ e.needs, s.Holds k

variable {t : AuditTools F} {s s' : CcosCandidateAudit F}

theorem chained_new : Chained t (new : CcosCandidateAudit F) := by
  refine ⟨⟨fun k => ?_, List.nodup_nil, ?_⟩, fun e he => nomatch he⟩
  · cases k <;> simp [Holds, new, counterexamplesOf]
  · exact Journal.Indexed.nil.ordered

theorem Chained.journals (h : Chained t s) {e : AuditEvent F} (hjournals : Journals t s s' e) (hsealed : Sealed t e) :
    Chained t s' := by
  refine ⟨?_, fun e' he' => ?_⟩
  · rw [hjournals.log]
    exact h.indexed.append hjournals.fresh hjournals.needed hjournals.holds
  · rw [hjournals.log] at he'
    rcases List.mem_append.mp he' with hold | hnew
    · exact h.bound e' hold
    · exact List.mem_singleton.mp hnew ▸ hsealed

/-! ## What a call journals -/

/-- What a call may journal in a state, its own checks passed. -/
inductive Emits (t : AuditTools F) (s : CcosCandidateAudit F) : AuditOp F → AuditEvent F → Prop
  | candidate {c : CandidateEnvelope} : Emits t s (.recordCandidate c) (.candidate c)
  | evaluation {c : CandidateEnvelope} {r : EvaluationReceipt F} : Emits t s (.recordEvaluation c r) (.evaluation r)
  | counterexample {c : CandidateEnvelope} {w : CounterexampleWitness}
      (bound : w.receipt.candidateFingerprint = c.fingerprint t.sha256) :
      Emits t s (.recordCounterexample c w) (.counterexample c.candidateId w.receipt)
  | evidence {b : PromotionEvidenceBundle} : Emits t s (.recordPromotionEvidence b) (.promotionEvidence b)
  | adoption {r : EvaluationReceipt F} {a : AdoptionReceipt} (accepted : Accepted t s r a) :
      Emits t s (.recordAdoption r a) (.adoption a)
  | evaluatedCandidate {c : CandidateEnvelope} {outcome : Except CandidateProtocolError (EvaluationReceipt F)} :
      Emits t s (.evaluate c outcome) (.candidate c)
  | evaluated {c : CandidateEnvelope} {r : EvaluationReceipt F} : Emits t s (.evaluate c (.ok r)) (.evaluation r)
  | selected {champion challenger : EvaluationReceipt F} {policy : ChampionChallengerPolicy F}
      {artifact : Option Str} {a : AdoptionReceipt}
      (decided : policy.decide t.sha256 champion challenger artifact = .ok a) :
      Emits t s (.decideChampionChallenger champion challenger policy artifact) (.adoption a)
  | repeatedEvidence {selection holdout : List (EvaluationPair F)} {policy : RepeatedSeedPromotionPolicy F}
      {artifact : Option Str} {d : RepeatedSeedDecision}
      (decided : policy.decide t.sha256 selection holdout artifact = .ok d) :
      Emits t s (.decideRepeatedSeed selection holdout policy artifact) (.promotionEvidence d.evidence)
  | vetoed {selection holdout : List (EvaluationPair F)} {policy : RepeatedSeedPromotionPolicy F}
      {artifact : Option Str} {id receipt evidence : Str} :
      Emits t s (.decideRepeatedSeed selection holdout policy artifact) (.promotionVeto id receipt evidence)
  | repeatedAdoption {selection holdout : List (EvaluationPair F)} {policy : RepeatedSeedPromotionPolicy F}
      {artifact : Option Str} {d : RepeatedSeedDecision}
      (decided : policy.decide t.sha256 selection holdout artifact = .ok d)
      (recorded : d.evidence.fingerprint t.sha256 ∈ s.promotionEvidence) :
      Emits t s (.decideRepeatedSeed selection holdout policy artifact) (.adoption d.adoption)

/-- One event of a call. -/
def Emission (t : AuditTools F) (op : AuditOp F) (s s' : CcosCandidateAudit F) : Prop :=
  ∃ e, Emits t s op e ∧ Journals t s s' e

theorem mem_insert_str {set : ExtTreeSet Str} {a b : Str} : b ∈ set.insert a ↔ b = a ∨ b ∈ set := by
  rw [ExtTreeSet.mem_insert, LawfulEqOrd.compare_eq_iff_eq, eq_comm]

theorem recordCandidate_cases (s : CcosCandidateAudit F) (c : CandidateEnvelope) :
    (s.recordCandidate t c).2 = s ∨ Journals t s (s.recordCandidate t c).2 (.candidate c) := by
  unfold recordCandidate
  split
  · exact .inl rfl
  · dsimp only
    split
    · exact .inl rfl
    · rename_i hfresh
      refine .inr ⟨rfl, hfresh, fun k => ?_, fun k hk => nomatch hk⟩
      cases k <;> simp [Holds, answer, append, counterexamplesOf, AuditEvent.key, mem_insert_str, -ExtTreeSet.mem_insert]

theorem recordEvaluation_cases (s : CcosCandidateAudit F) (c : CandidateEnvelope) (r : EvaluationReceipt F) :
    (s.recordEvaluation t c r).2 = s ∨ Journals t s (s.recordEvaluation t c r).2 (.evaluation r) := by
  unfold recordEvaluation
  split
  · exact .inl rfl
  · rename_i hvalid
    split
    · exact .inl rfl
    · rename_i hrecorded
      dsimp only
      split
      · exact .inl rfl
      · rename_i hfresh
        refine .inr ⟨rfl, hfresh, fun k => ?_, fun k hk => ?_⟩
        · cases k <;> simp [Holds, answer, append, counterexamplesOf, AuditEvent.key, mem_insert_str, -ExtTreeSet.mem_insert]
        · obtain rfl := List.mem_singleton.mp hk
          rw [Holds, (validateEvaluation_ok hvalid).2]
          exact not_not.mp hrecorded

theorem recordPromotionEvidence_cases (s : CcosCandidateAudit F) (b : PromotionEvidenceBundle) :
    (s.recordPromotionEvidence t b).2 = s ∨ Journals t s (s.recordPromotionEvidence t b).2 (.promotionEvidence b) := by
  unfold recordPromotionEvidence
  split
  · exact .inl rfl
  · rename_i hrows
    dsimp only
    split
    · exact .inl rfl
    · rename_i hfresh
      refine .inr ⟨rfl, hfresh, fun k => ?_, fun k hk => ?_⟩
      · cases k <;> simp [Holds, answer, append, counterexamplesOf, AuditEvent.key, mem_insert_str, -ExtTreeSet.mem_insert]
      · obtain ⟨row, hrow, hk⟩ := List.mem_flatMap.mp hk
        have haudited : s.auditedRow row = true := by
          rw [List.any_eq_true] at hrows
          by_contra hnot
          exact hrows ⟨row, hrow, by simpa using hnot⟩
        simp only [auditedRow, Bool.and_eq_true, ExtTreeSet.contains_iff_mem] at haudited
        rcases List.mem_cons.mp hk with rfl | hk
        · exact haudited.1
        · obtain rfl := List.mem_singleton.mp hk
          exact haudited.2

theorem recordAdoption_journals {r : EvaluationReceipt F} {a : AdoptionReceipt} (h : Accepted t s r a) :
    Journals t s (s.recordAdoption t r a).2 (.adoption a) := by
  rw [recordAdoption_of_accepted h]
  refine ⟨rfl, h.fresh, fun k => ?_, fun k hk => ?_⟩
  · cases k <;> simp [Holds, append, counterexamplesOf, AuditEvent.key, mem_insert_str, -ExtTreeSet.mem_insert]
  · obtain rfl := List.mem_singleton.mp hk
    rw [Holds, validateAdoption_ok h.valid]
    exact h.audited

omit [Float64 F] in
theorem counterexamplesOf_insert {receipts : ExtTreeSet Str} {id id' : Str} (events : List (AuditEvent F)) :
    (CcosCandidateAudit.counterexamplesOf { s with
      log := events, counterexamplesByCandidate := s.counterexamplesByCandidate.insert id receipts } id') =
      if id' = id then receipts else s.counterexamplesOf id' := by
  unfold counterexamplesOf
  dsimp only
  rw [ExtTreeMap.getElem?_insert]
  by_cases hid : id' = id
  · rw [if_pos (LawfulEqOrd.compare_eq_iff_eq.mpr hid.symm), if_pos hid, Option.getD_some]
  · rw [if_neg fun heq => hid (LawfulEqOrd.compare_eq_iff_eq.mp heq).symm, if_neg hid]

theorem recordCounterexample_journals (s : CcosCandidateAudit F) (c : CandidateEnvelope) (w : CounterexampleWitness) :
    (s.recordCounterexample t c w).2 = s ∨ (w.receipt.candidateFingerprint = c.fingerprint t.sha256 ∧
      Journals t s (s.recordCounterexample t c w).2 (.counterexample c.candidateId w.receipt)) := by
  unfold recordCounterexample
  split
  · exact .inl rfl
  · rename_i hvalid
    split
    · exact .inl rfl
    · rename_i hrecorded
      dsimp only
      split
      · exact .inl rfl
      · rename_i hfresh
        have hbound := CounterexampleWitness.validate_ok hvalid
        refine .inr ⟨hbound, rfl, hfresh, fun k => ?_, fun k hk => ?_⟩
        · cases k with
          | counterexample id fingerprint =>
            simp only [Holds, answer, append, AuditEvent.key, counterexamplesOf_insert]
            by_cases hid : id = c.candidateId
            · subst hid
              simp [mem_insert_str, -ExtTreeSet.mem_insert]
            · simp [hid]
          | _ => simp [Holds, answer, append, AuditEvent.key]
        · obtain rfl := List.mem_singleton.mp hk
          rw [Holds, hbound]
          exact not_not.mp hrecorded

omit [Float64 F] in
theorem mem_counterexamplesOf_of_head? {id receipt : Str} (h : (s.counterexamplesOf id).toList.head? = some receipt) :
    receipt ∈ s.counterexamplesOf id := by
  rw [← ExtTreeSet.mem_toList]
  exact List.mem_of_head? h

theorem veto_cases {id receipt evidence : Str} (hreceipt : receipt ∈ s.counterexamplesOf id)
    (hevidence : evidence ∈ s.promotionEvidence) :
    s.veto id receipt evidence = s ∨ Journals t s (s.veto id receipt evidence) (.promotionVeto id receipt evidence) := by
  unfold veto
  dsimp only
  split
  · exact .inl rfl
  · rename_i hfresh
    refine .inr ⟨rfl, hfresh, fun k => ?_, fun k hk => ?_⟩
    · cases k <;> simp [Holds, append, counterexamplesOf, AuditEvent.key, vetoKey, mem_insert_str, -ExtTreeSet.mem_insert]
    · rcases List.mem_cons.mp hk with rfl | hk
      · exact hreceipt
      · obtain rfl := List.mem_singleton.mp hk
        exact hevidence

/-! ## Calls of several calls -/

theorem emissions_of_cases {op : AuditOp F} {e : AuditEvent F} (hemits : Emits t s op e)
    (h : s' = s ∨ Journals t s s' e) :
    Relation.ReflTransGen (Emission t op) s s' := by
  rcases h with rfl | h
  · exact .refl
  · exact .single ⟨e, hemits, h⟩

theorem recordAdoption_emissions {op : AuditOp F} {r : EvaluationReceipt F} {a : AdoptionReceipt}
    (hemits : Accepted t s r a → Emits t s op (.adoption a)) :
    Relation.ReflTransGen (Emission t op) s (s.recordAdoption t r a).2 := by
  by_cases h : Accepted t s r a
  · exact .single ⟨_, hemits h, recordAdoption_journals h⟩
  · rw [recordAdoption_of_not_accepted h]

theorem evaluate_emissions (s : CcosCandidateAudit F) (c : CandidateEnvelope)
    (outcome : Except CandidateProtocolError (EvaluationReceipt F)) :
    Relation.ReflTransGen (Emission t (.evaluate c outcome)) s (s.evaluate t c outcome).2 := by
  have hcandidate := @emissions_of_cases F _ t s _ (.evaluate c outcome) _ .evaluatedCandidate
    (recordCandidate_cases s c)
  unfold evaluate
  split
  · rename_i hout
    rwa [hout] at hcandidate
  · rename_i s₁ hout
    rw [hout] at hcandidate
    split
    · exact hcandidate
    · rename_i receipt
      rw [returning_snd]
      exact hcandidate.trans (emissions_of_cases .evaluated (recordEvaluation_cases s₁ c receipt))

theorem decideChampionChallenger_emissions (s : CcosCandidateAudit F) (champion challenger : EvaluationReceipt F)
    (policy : ChampionChallengerPolicy F) (artifact : Option Str) :
    Relation.ReflTransGen (Emission t (.decideChampionChallenger champion challenger policy artifact)) s
      (s.decideChampionChallenger t champion challenger policy artifact).2 := by
  unfold decideChampionChallenger
  split
  · exact .refl
  · split
    · exact .refl
    · rename_i adoption hdecided
      rw [returning_snd]
      exact recordAdoption_emissions fun _ => .selected hdecided

theorem mem_promotionEvidence_of_recorded {b : PromotionEvidenceBundle} {head : Hash}
    (h : s.recordPromotionEvidence t b = (.ok head, s')) : b.fingerprint t.sha256 ∈ s'.promotionEvidence := by
  unfold recordPromotionEvidence at h
  split at h
  · cases h
  · dsimp only at h
    split at h
    · rename_i hknown
      obtain ⟨-, rfl⟩ := Prod.mk.inj h
      exact hknown
    · obtain ⟨-, rfl⟩ := Prod.mk.inj h
      simp [append]

theorem decideRepeatedSeed_emissions (s : CcosCandidateAudit F) (selection holdout : List (EvaluationPair F))
    (policy : RepeatedSeedPromotionPolicy F) (artifact : Option Str) :
    Relation.ReflTransGen (Emission t (.decideRepeatedSeed selection holdout policy artifact)) s
      (s.decideRepeatedSeed t selection holdout policy artifact).2 := by
  unfold decideRepeatedSeed
  split
  · exact .refl
  · rename_i decision hdecided
    have hevidence := emissions_of_cases (.repeatedEvidence hdecided) (recordPromotionEvidence_cases s decision.evidence)
    split
    · rename_i hout
      rwa [hout] at hevidence
    · rename_i hout
      rw [hout] at hevidence
      have hrecorded := mem_promotionEvidence_of_recorded hout
      dsimp only
      split
      · rename_i hfirst
        exact hevidence.trans (emissions_of_cases .vetoed (veto_cases (mem_counterexamplesOf_of_head? hfirst) hrecorded))
      · split
        · exact hevidence
        · rw [returning_snd]
          exact hevidence.trans (recordAdoption_emissions fun _ => .repeatedAdoption hdecided hrecorded)

/-! ## Invariants -/

/-- A step journals what its call may journal, one event after the other. -/
theorem step_emissions (s : CcosCandidateAudit F) (op : AuditOp F) :
    Relation.ReflTransGen (Emission t op) s (s.step t op) := by
  cases op with
  | recordCandidate c => exact emissions_of_cases .candidate (recordCandidate_cases s c)
  | recordEvaluation c r => exact emissions_of_cases .evaluation (recordEvaluation_cases s c r)
  | recordCounterexample c w =>
    rcases recordCounterexample_journals (t := t) s c w with hsame | ⟨hbound, hjournals⟩
    · rw [step, hsame]
    · exact .single ⟨_, .counterexample hbound, hjournals⟩
  | recordPromotionEvidence b => exact emissions_of_cases .evidence (recordPromotionEvidence_cases s b)
  | recordAdoption r a => exact recordAdoption_emissions .adoption
  | evaluate c outcome => exact evaluate_emissions s c outcome
  | decideChampionChallenger champion challenger policy artifact =>
    exact decideChampionChallenger_emissions s champion challenger policy artifact
  | decideRepeatedSeed selection holdout policy artifact =>
    exact decideRepeatedSeed_emissions s selection holdout policy artifact

/-- What every event keeps, a step keeps. -/
theorem step_invariant {P : CcosCandidateAudit F → Prop} {op : AuditOp F}
    (keep : ∀ s s' e, P s → Emits t s op e → Journals t s s' e → P s') (h : P s) : P (s.step t op) := by
  have hsteps := step_emissions (t := t) s op
  generalize s.step t op = s' at hsteps ⊢
  induction hsteps with
  | refl => exact h
  | tail _ hlast ih =>
    obtain ⟨e, hemits, hjournals⟩ := hlast
    exact keep _ _ e ih hemits hjournals

/-- The texts that tie a counterexample to a candidate id are texts of the source. -/
def FitsCounterexample : AuditOp F → Prop
  | .recordCounterexample c w => FitsMemory c.candidateId ∧ FitsMemory w.receipt.candidateFingerprint
  | _ => True

instance : DecidablePred (FitsCounterexample (F := F))
  | .recordCounterexample _ _ => instDecidableAnd
  | .recordCandidate _ | .recordEvaluation _ _ | .recordPromotionEvidence _ | .recordAdoption _ _ | .evaluate _ _
  | .decideChampionChallenger _ _ _ _ | .decideRepeatedSeed _ _ _ _ => instDecidableTrue

theorem sealed_of_emits {op : AuditOp F} {e : AuditEvent F} (hfits : FitsCounterexample op) (h : Emits t s op e) :
    Sealed t e := by
  cases h with
  | counterexample hbound => exact ⟨_, rfl, hfits.1, hfits.2, hbound⟩
  | _ => trivial

theorem step_chained (h : Chained t s) (op : AuditOp F) (hfits : FitsCounterexample op) : Chained t (s.step t op) :=
  step_invariant (fun _ _ _ h hemits hjournals => h.journals hjournals (sealed_of_emits hfits hemits)) h

theorem run_chained (h : Chained t s) (ops : List (AuditOp F)) (hfits : ∀ op ∈ ops, FitsCounterexample op) :
    Chained t (Runs.run (step t) s ops) := by
  induction ops generalizing s with
  | nil => exact h
  | cons op ops ih =>
    exact ih (step_chained h op (hfits op List.mem_cons_self)) fun op' h' => hfits op' (List.mem_cons_of_mem _ h')

theorem after_chained (ops : List (AuditOp F)) (hfits : ∀ op ∈ ops, FitsCounterexample op) :
    Chained t (after t ops) := run_chained chained_new ops hfits

/-! ## The chain -/

inductive AuditKind
  | candidate | evaluation | counterexample | evidence | veto | adoption
  deriving DecidableEq, Repr

def kindOf : AuditEvent F → AuditKind
  | .candidate _ => .candidate
  | .evaluation _ => .evaluation
  | .counterexample _ _ => .counterexample
  | .promotionEvidence _ => .evidence
  | .promotionVeto _ _ _ => .veto
  | .adoption _ => .adoption

/-- The fingerprint of an event; that of a veto is its key. -/
def fingerprintOf (t : AuditTools F) : AuditEvent F → Str
  | .candidate c => c.fingerprint t.sha256
  | .evaluation r => r.fingerprint t.sha256
  | .counterexample _ r => r.fingerprint t.sha256
  | .promotionEvidence b => b.fingerprint t.sha256
  | .promotionVeto id receipt evidence => vetoKey id receipt evidence
  | .adoption a => a.fingerprint t.sha256

/-- Every event comes after the events it refers to, and no fingerprint is journaled twice in a kind. -/
structure InOrder (t : AuditTools F) (log : List (AuditEvent F)) : Prop where
  evaluation : ∀ pre r post, log = pre ++ .evaluation r :: post →
    ∃ c, .candidate c ∈ pre ∧ c.fingerprint t.sha256 = r.candidateFingerprint
  counterexample : ∀ pre id r post, log = pre ++ .counterexample id r :: post →
    ∃ c, .candidate c ∈ pre ∧ c.fingerprint t.sha256 = r.candidateFingerprint
  evidence : ∀ pre b post, log = pre ++ .promotionEvidence b :: post → ∀ row ∈ b.selection ++ b.holdout,
    (∃ r, .evaluation r ∈ pre ∧ r.fingerprint t.sha256 = row.championEvaluationFingerprint) ∧
      ∃ r, .evaluation r ∈ pre ∧ r.fingerprint t.sha256 = row.challengerEvaluationFingerprint
  adoption : ∀ pre a post, log = pre ++ .adoption a :: post →
    ∃ r, .evaluation r ∈ pre ∧ r.fingerprint t.sha256 = a.evaluationFingerprint
  once : (log.map fun e => (kindOf e, fingerprintOf t e)).Nodup

theorem exists_candidate {pre : List (AuditEvent F)} {fingerprint : Str}
    (h : ∃ e ∈ pre, e.key t = .candidate fingerprint) :
    ∃ c, .candidate c ∈ pre ∧ c.fingerprint t.sha256 = fingerprint := by
  obtain ⟨e, he, hkey⟩ := h
  cases e with
  | candidate c => exact ⟨c, he, AuditKey.candidate.inj hkey⟩
  | _ => cases hkey

theorem exists_evaluation {pre : List (AuditEvent F)} {fingerprint : Str}
    (h : ∃ e ∈ pre, e.key t = .evaluation fingerprint) :
    ∃ r, .evaluation r ∈ pre ∧ r.fingerprint t.sha256 = fingerprint := by
  obtain ⟨e, he, hkey⟩ := h
  cases e with
  | evaluation r => exact ⟨r, he, AuditKey.evaluation.inj hkey⟩
  | _ => cases hkey

omit [Float64 F] in
theorem counterexampleFingerprint_bound (hinj : Function.Injective t.sha256) {r r' : CounterexampleReceipt}
    (hr : FitsMemory r.candidateFingerprint) (hr' : FitsMemory r'.candidateFingerprint)
    (h : r.fingerprint t.sha256 = r'.fingerprint t.sha256) : r.candidateFingerprint = r'.candidateFingerprint := by
  have hbytes := digestHex_injective hinj h
  simp only [CounterexampleReceipt.canonicalBytes, List.append_assoc] at hbytes
  obtain ⟨-, hbytes⟩ := pushU16_append_inj (List.append_cancel_left hbytes)
  exact (pushStr_append_inj hr hr' hbytes).1

/-- Within a kind, the fingerprint is the key: that of a counterexample determines its candidate. -/
theorem key_eq_of_fingerprint (hinj : Function.Injective t.sha256) {e e' : AuditEvent F} (he : Sealed t e)
    (he' : Sealed t e') (hkind : kindOf e = kindOf e') (h : fingerprintOf t e = fingerprintOf t e') :
    e.key t = e'.key t := by
  cases e with
  | counterexample id r =>
    cases e' with
    | counterexample id' r' =>
      obtain ⟨c, rfl, hc, hr, hbound⟩ := he
      obtain ⟨c', rfl, hc', hr', hbound'⟩ := he'
      have hcandidate := counterexampleFingerprint_bound hinj hr hr' h
      have hid := candidateId_of_fingerprint hinj hc hc' (hbound.symm.trans (hcandidate.trans hbound'))
      exact congrArg₂ AuditKey.counterexample hid h
    | _ => cases hkind
  | candidate c =>
    cases e' with
    | candidate c' => exact congrArg AuditKey.candidate h
    | _ => cases hkind
  | evaluation r =>
    cases e' with
    | evaluation r' => exact congrArg AuditKey.evaluation h
    | _ => cases hkind
  | promotionEvidence b =>
    cases e' with
    | promotionEvidence b' => exact congrArg AuditKey.evidence h
    | _ => cases hkind
  | promotionVeto id receipt evidence =>
    cases e' with
    | promotionVeto id' receipt' evidence' => exact congrArg AuditKey.veto h
    | _ => cases hkind
  | adoption a =>
    cases e' with
    | adoption a' => exact congrArg AuditKey.adoption h
    | _ => cases hkind

theorem inOrder_of_chained (hinj : Function.Injective t.sha256) (h : Chained t s) : InOrder t s.log := by
  refine ⟨fun pre r post heq => ?_, fun pre id r post heq => ?_, fun pre b post heq row hrow => ⟨?_, ?_⟩,
    fun pre a post heq => ?_, ?_⟩
  · exact exists_candidate (h.indexed.exists_before heq List.mem_cons_self)
  · exact exists_candidate (h.indexed.exists_before heq List.mem_cons_self)
  · exact exists_evaluation (h.indexed.exists_before heq (List.mem_flatMap.mpr ⟨row, hrow, List.mem_cons_self⟩))
  · exact exists_evaluation (h.indexed.exists_before heq
      (List.mem_flatMap.mpr ⟨row, hrow, List.mem_cons_of_mem _ List.mem_cons_self⟩))
  · exact exists_evaluation (h.indexed.exists_before heq List.mem_cons_self)
  · have hnodup : s.log.Nodup := List.Nodup.of_map _ h.indexed.once
    refine List.Nodup.map_on (fun e he e' he' hsame => ?_) hnodup
    obtain ⟨hkind, hfingerprint⟩ := Prod.mk.inj hsame
    exact List.inj_on_of_nodup_map h.indexed.once he he'
      (key_eq_of_fingerprint hinj (h.bound e he) (h.bound e' he') hkind hfingerprint)

/-- A call of `record_*` that returns an error. -/
def Refused (t : AuditTools F) (s : CcosCandidateAudit F) : AuditOp F → Prop
  | .recordCandidate c => (s.recordCandidate t c).1.isOk = false
  | .recordEvaluation c r => (s.recordEvaluation t c r).1.isOk = false
  | .recordCounterexample c w => (s.recordCounterexample t c w).1.isOk = false
  | .recordPromotionEvidence b => (s.recordPromotionEvidence t b).1.isOk = false
  | .recordAdoption r a => (s.recordAdoption t r a).1.isOk = false
  | _ => False

theorem recordCandidate_of_error {c : CandidateEnvelope} (h : (s.recordCandidate t c).1.isOk = false) :
    (s.recordCandidate t c).2 = s := by
  revert h
  unfold recordCandidate
  split
  · exact fun _ => rfl
  · dsimp only
    split <;> exact nofun

theorem recordEvaluation_of_error {c : CandidateEnvelope} {r : EvaluationReceipt F}
    (h : (s.recordEvaluation t c r).1.isOk = false) : (s.recordEvaluation t c r).2 = s := by
  revert h
  unfold recordEvaluation
  split
  · exact fun _ => rfl
  · split
    · exact fun _ => rfl
    · dsimp only
      split <;> exact nofun

theorem recordPromotionEvidence_of_error {b : PromotionEvidenceBundle}
    (h : (s.recordPromotionEvidence t b).1.isOk = false) : (s.recordPromotionEvidence t b).2 = s := by
  revert h
  unfold recordPromotionEvidence
  split
  · exact fun _ => rfl
  · dsimp only
    split <;> exact nofun

theorem recordAdoption_of_error {r : EvaluationReceipt F} {a : AdoptionReceipt}
    (h : (s.recordAdoption t r a).1.isOk = false) : (s.recordAdoption t r a).2 = s := by
  revert h
  unfold recordAdoption
  split
  · exact fun _ => rfl
  · split
    · exact fun _ => rfl
    · split
      · exact fun _ => rfl
      · dsimp only
        split <;> exact nofun

theorem step_of_refused {op : AuditOp F} (h : Refused t s op) : s.step t op = s := by
  cases op with
  | recordCandidate c => exact recordCandidate_of_error h
  | recordEvaluation c r => exact recordEvaluation_of_error h
  | recordCounterexample c w =>
    rcases recordCounterexample_cases (t := t) s c w with ⟨-, hsame⟩ | ⟨hok, -⟩
    · exact hsame
    · exact absurd (hok.symm.trans h) (by decide)
  | recordPromotionEvidence b => exact recordPromotionEvidence_of_error h
  | recordAdoption r a => exact recordAdoption_of_error h
  | _ => exact h.elim

/-- The log of every run is in order, and a call that is refused changes nothing. -/
theorem audit_chain (t : AuditTools F) (hinj : Function.Injective t.sha256) (ops : List (AuditOp F))
    (hfits : ∀ op ∈ ops, FitsCounterexample op) :
    InOrder t (after t ops).log ∧ ∀ op, Refused t (after t ops) op → (after t ops).step t op = after t ops :=
  ⟨inOrder_of_chained hinj (after_chained ops hfits), fun _ => step_of_refused⟩

theorem audit_chain_sample : InOrder Sample.tools (after Sample.tools (Sample.measured ++ [Sample.veto])).log :=
  (audit_chain Sample.tools Sample.sha256_injective (Sample.measured ++ [Sample.veto]) (by decide)).1

end CcosCandidateAudit

end Ccos
