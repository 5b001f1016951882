import Ccos.Candidate.Chain

/-!
# Promotions and their evidence

A promotion of `decideRepeatedSeed` rests on evidence about its own evaluation. `recordAdoption` only
asks that its reason names some evidence that is audited.
-/

open Std ByteCodec

namespace Ccos

variable {F : Type} [Float64 F]

/-- The challenger evaluations of the rows. -/
def PromotionEvidenceBundle.challengers (b : PromotionEvidenceBundle) : List Str :=
  (b.selection ++ b.holdout).map SeedEvidence.challengerEvaluationFingerprint

def PromotionEvidenceBundle.Fits (b : PromotionEvidenceBundle) : Prop :=
  FitInMemory b.texts [b.selection.length, b.holdout.length]

instance (b : PromotionEvidenceBundle) : Decidable b.Fits := inferInstanceAs (Decidable (FitInMemory _ _))

/-- The evidence of a decision has a row for the evaluation that the decision is about. -/
theorem RepeatedSeedPromotionPolicy.anchor_mem_challengers {sha256 : Bytes → Bytes}
    {policy : RepeatedSeedPromotionPolicy F} {selection holdout : List (EvaluationPair F)} {artifact : Option Str}
    {d : RepeatedSeedDecision} (h : policy.decide sha256 selection holdout artifact = .ok d) :
    d.adoption.evaluationFingerprint ∈ d.evidence.challengers := by
  obtain ⟨anchor, _, _, hdecided⟩ := decide_spec h
  obtain ⟨hanchor, -⟩ := minBySeed_spec hdecided.anchored
  obtain ⟨-, subject, -, hbundle⟩ := PromotionEvidenceBundle.fromPairs_ok_iff.mp hdecided.bundled
  have hrow := @PromotionEvidenceBundle.evidence_mem_rows F _ sha256 _ _ hanchor
  rw [hdecided.about, hbundle]
  exact List.mem_map.mpr ⟨_, List.mem_append_right _ hrow, rfl⟩

/-- The reason of a decision names its evidence. -/
theorem RepeatedSeedPromotionPolicy.reason_contains {sha256 : Bytes → Bytes}
    {policy : RepeatedSeedPromotionPolicy F} {selection holdout : List (EvaluationPair F)} {artifact : Option Str}
    {d : RepeatedSeedDecision} (h : policy.decide sha256 selection holdout artifact = .ok d) :
    containsStr (d.evidence.fingerprint sha256) d.adoption.reason = true := by
  obtain ⟨_, _, _, hdecided⟩ := decide_spec h
  obtain ⟨_, hworded⟩ := hdecided.worded
  obtain ⟨text, hreason⟩ := verdict_reason hworded
  rw [hreason, containsStr_append]

namespace CcosCandidateAudit

/-! ## Binding -/

/-- Evidence journaled before names the evaluation of the adoption, and is named by its reason. -/
def BoundTo (t : AuditTools F) (pre : List (AuditEvent F)) (a : AdoptionReceipt) : Prop :=
  ∃ b, .promotionEvidence b ∈ pre ∧ containsStr (b.fingerprint t.sha256) a.reason = true ∧
    a.evaluationFingerprint ∈ b.challengers

/-- A direct `record_adoption`, which nothing refuses, of a promotion whose reason names only evidence
about other evaluations. -/
def RidesOnOther (t : AuditTools F) (s : CcosCandidateAudit F) : AuditOp F → Prop
  | .recordAdoption r a => a.decision = .promote ∧ Accepted t s r a ∧
      ∀ b, .promotionEvidence b ∈ s.log → containsStr (b.fingerprint t.sha256) a.reason = true →
        r.fingerprint t.sha256 ∉ b.challengers
  | _ => False

/-- The bundles that a call hands to the audit are values of the source. -/
def FitsEvidence (t : AuditTools F) : AuditOp F → Prop
  | .recordPromotionEvidence b => b.Fits
  | .decideRepeatedSeed selection holdout _ _ =>
    ∀ b, PromotionEvidenceBundle.fromPairs t.sha256 selection holdout = .ok b → b.Fits
  | _ => True

/-- The log allows an adoption that is bound, or is no promotion. -/
def Binds (t : AuditTools F) (pre : List (AuditEvent F)) (e : AuditEvent F) : Prop :=
  ∀ a, e = .adoption a → a.decision = .promote → BoundTo t pre a

structure Bound (t : AuditTools F) (s : CcosCandidateAudit F) : Prop where
  chained : Chained t s
  fits : ∀ b, .promotionEvidence b ∈ s.log → b.Fits
  binds : Journal.Guarded (Binds t) s.log

variable {t : AuditTools F} {s s' : CcosCandidateAudit F}

theorem bound_new : Bound t (new : CcosCandidateAudit F) :=
  ⟨chained_new, fun _ h => absurd h List.not_mem_nil, Journal.guarded_nil⟩

/-- The evidence behind a fingerprint of the index is the evidence with that fingerprint. -/
theorem Bound.mem_of_recorded (hinj : Function.Injective t.sha256) (h : Bound t s) {b : PromotionEvidenceBundle}
    (hfits : b.Fits) (hrecorded : b.fingerprint t.sha256 ∈ s.promotionEvidence) :
    .promotionEvidence b ∈ s.log := by
  obtain ⟨e, he, hkey⟩ := List.mem_map.mp ((h.chained.indexed.mirrors (.evidence _)).mp hrecorded)
  cases e with
  | promotionEvidence b' =>
    have hbytes := digestHex_injective hinj (AuditKey.evidence.inj hkey)
    obtain rfl := PromotionEvidenceBundle.canonicalBytes_inj (h.fits b' he) hfits hbytes
    exact he
  | _ => cases hkey

theorem fits_of_emits {op : AuditOp F} {b : PromotionEvidenceBundle} (hfits : FitsEvidence t op)
    (h : Emits t s op (.promotionEvidence b)) : b.Fits := by
  cases h with
  | evidence => exact hfits
  | repeatedEvidence decided =>
    obtain ⟨_, _, _, hdecided⟩ := RepeatedSeedPromotionPolicy.decide_spec decided
    exact hfits _ hdecided.bundled

/-- Unless a call rides on other evidence, a promotion that it journals is bound. -/
theorem binds_of_emits (hinj : Function.Injective t.sha256) {op : AuditOp F} {e : AuditEvent F} (h : Bound t s)
    (hfits : FitsEvidence t op) (hown : ¬ RidesOnOther t s op) (hemits : Emits t s op e) :
    Binds t s.log e := by
  rintro a rfl hpromote
  cases hemits with
  | @adoption r a accepted =>
    by_contra hunbound
    refine hown ⟨hpromote, accepted, fun b hb hnamed hrow => hunbound ⟨b, hb, hnamed, ?_⟩⟩
    rwa [validateAdoption_ok accepted.valid]
  | selected decided => exact absurd hpromote (ChampionChallengerPolicy.decide_ne_promote decided)
  | repeatedAdoption decided recorded =>
    obtain ⟨_, _, _, hdecided⟩ := RepeatedSeedPromotionPolicy.decide_spec decided
    exact ⟨_, h.mem_of_recorded hinj (hfits _ hdecided.bundled) recorded,
      RepeatedSeedPromotionPolicy.reason_contains decided,
      RepeatedSeedPromotionPolicy.anchor_mem_challengers decided⟩

theorem Bound.journals (h : Bound t s) {e : AuditEvent F} (hjournals : Journals t s s' e) (hsealed : Sealed t e)
    (hfits : ∀ b, e = .promotionEvidence b → b.Fits) (hbinds : Binds t s.log e) : Bound t s' := by
  refine ⟨h.chained.journals hjournals hsealed, fun b hb => ?_, ?_⟩
  · rw [hjournals.log] at hb
    rcases List.mem_append.mp hb with hold | hnew
    · exact h.fits b hold
    · exact hfits b (List.mem_singleton.mp hnew).symm
  · rw [hjournals.log]
    exact Journal.guarded_append_iff.mpr ⟨h.binds, hbinds⟩

theorem Bound.emission (hinj : Function.Injective t.sha256) (h : Bound t s) {op : AuditOp F}
    (hcounterexample : FitsCounterexample op) (hfits : FitsEvidence t op) (hown : ¬ RidesOnOther t s op)
    {e : AuditEvent F} (hemits : Emits t s op e) (hjournals : Journals t s s' e) : Bound t s' := by
  refine h.journals hjournals (sealed_of_emits hcounterexample hemits) ?_ (binds_of_emits hinj h hfits hown hemits)
  rintro b rfl
  exact fits_of_emits hfits hemits

theorem step_bound (hinj : Function.Injective t.sha256) (h : Bound t s) {op : AuditOp F}
    (hcounterexample : FitsCounterexample op) (hfits : FitsEvidence t op) (hown : ¬ RidesOnOther t s op) :
    Bound t (s.step t op) := by
  cases op with
  | recordAdoption r a =>
    by_cases haccepted : Accepted t s r a
    · exact h.emission hinj hcounterexample hfits hown (.adoption haccepted) (recordAdoption_journals haccepted)
    · rwa [step, recordAdoption_of_not_accepted haccepted]
  | _ => exact step_invariant (fun _ _ _ h => h.emission hinj hcounterexample hfits hown) h

/-! ## Runs -/

/-- The values that a call brings are values of the source. -/
def FitsCall (t : AuditTools F) (op : AuditOp F) : Prop := FitsCounterexample op ∧ FitsEvidence t op

theorem after_bound (hinj : Function.Injective t.sha256) {ops : List (AuditOp F)} (hfits : ∀ op ∈ ops, FitsCall t op)
    (hown : Journal.Guarded (fun pre op => ¬ RidesOnOther t (after t pre) op) ops) : Bound t (after t ops) := by
  induction ops using List.reverseRecOn with
  | nil => exact bound_new
  | append_singleton ops op ih =>
    obtain ⟨hbefore, hlast⟩ := Journal.guarded_append_iff.mp hown
    obtain ⟨hcounterexample, hevidence⟩ := hfits op (List.mem_append_right _ List.mem_cons_self)
    rw [after_append]
    exact step_bound hinj (ih (fun op' h' => hfits op' (List.mem_append_left _ h')) hbefore) hcounterexample
      hevidence hlast

/-- A log only grows. -/
theorem log_prefix_step (s : CcosCandidateAudit F) (op : AuditOp F) : s.log <+: (s.step t op).log :=
  step_invariant (P := fun s' => s.log <+: s'.log)
    (fun _ _ _ h _ hjournals => hjournals.log ▸ h.trans (List.prefix_append _ _)) List.prefix_rfl

theorem log_prefix_after (pre post : List (AuditOp F)) : (after t pre).log <+: (after t (pre ++ post)).log := by
  induction post using List.reverseRecOn with
  | nil => rw [List.append_nil]
  | append_singleton post op ih =>
    rw [← List.append_assoc, after_append]
    exact ih.trans (log_prefix_step _ _)

/-- In a run, every journaled promotion is bound to evidence about its own evaluation exactly when
`record_adoption` is never handed one that rides on other evidence. -/
theorem promotions_bound_iff (t : AuditTools F) (hinj : Function.Injective t.sha256) (ops : List (AuditOp F))
    (hfits : ∀ op ∈ ops, FitsCall t op) :
    (∀ pre a post, (after t ops).log = pre ++ .adoption a :: post → a.decision = .promote → BoundTo t pre a) ↔
      ∀ pre op post, ops = pre ++ op :: post → ¬ RidesOnOther t (after t pre) op := by
  constructor
  · intro h pre op post hops hrides
    cases op with
    | recordAdoption r a =>
      obtain ⟨hpromote, haccepted, hother⟩ := hrides
      obtain ⟨rest, hrest⟩ := log_prefix_after (t := t) (pre ++ [.recordAdoption r a]) post
      have hlog : (after t ops).log = (after t pre).log ++ .adoption a :: rest := by
        rw [hops, List.append_cons, ← hrest, after_append, step, (recordAdoption_journals haccepted).log,
          List.append_assoc]
        rfl
      obtain ⟨b, hb, hnamed, hrow⟩ := h _ a rest hlog hpromote
      exact hother b hb hnamed (validateAdoption_ok haccepted.valid ▸ hrow)
    | _ => exact hrides
  · exact fun hown pre a post hlog => (after_bound hinj hfits hown).binds pre _ post hlog a rfl

/-! ## A run -/

namespace Sample

/-- The champion is promoted on the evidence for its challenger. -/
def stolen : AdoptionReceipt := { again with evaluationFingerprint := idOf 8 }

theorem fromPairs_sample (b : PromotionEvidenceBundle)
    (h : PromotionEvidenceBundle.fromPairs tools.sha256 [pairAt 1 2 3] [pairAt 2 4 5] = .ok b) : b = bundle := by
  have hbundle := evaluated.2.2.1.1
  rw [h] at hbundle
  exact Option.some.inj hbundle

theorem fits_measured : ∀ op ∈ measured, FitsCall tools op := by
  have hcounterexample : ∀ op ∈ measured, FitsCounterexample op := by decide
  have hbundle : bundle.Fits := by decide
  refine fun op hop => ⟨hcounterexample op hop, ?_⟩
  simp only [measured, decide, List.mem_cons, List.not_mem_nil, or_false] at hop
  rcases hop with rfl | rfl | rfl | rfl | rfl | rfl | rfl | rfl | rfl
  on_goal 9 => exact fun b hb => fromPairs_sample b hb ▸ hbundle
  all_goals trivial

theorem stolen_accepted : Accepted tools (after tools measured) (receiptOf 4 2 100) stolen where
  valid := evaluated.2.2.2.1
  audited := evaluated.2.2.2.2.1
  bound := fun _ => evaluated.2.2.2.2.2.1
  fresh := evaluated.2.2.2.2.2.2.1

/-- The promotion of the run itself is bound. -/
theorem measured_promotion_is_bound :
    ¬ ∃ pre a post, (after tools measured).log = pre ++ .adoption a :: post ∧ a.decision = .promote ∧
      ¬ BoundTo tools pre a := by
  rintro ⟨pre, a, post, hlog, hpromote, hunbound⟩
  refine hunbound ((promotions_bound_iff tools sha256_injective measured fits_measured).mpr
    (fun before op rest hops hrides => ?_) pre a post hlog hpromote)
  have hmem : op ∈ measured := hops ▸ List.mem_append_right _ List.mem_cons_self
  simp only [measured, decide, List.mem_cons, List.not_mem_nil, or_false] at hmem
  rcases hmem with rfl | rfl | rfl | rfl | rfl | rfl | rfl | rfl | rfl <;> exact hrides

theorem promoted_on_other_evidence :
    ¬ ∀ (t : AuditTools ℚ), Function.Injective t.sha256 → ∀ ops : List (AuditOp ℚ), (∀ op ∈ ops, FitsCall t op) →
      ∀ pre a post, (after t ops).log = pre ++ .adoption a :: post → a.decision = .promote → BoundTo t pre a := by
  intro h
  have hfits : ∀ op ∈ measured ++ [.recordAdoption (receiptOf 4 2 100) stolen], FitsCall tools op := by
    intro op hop
    rcases List.mem_append.mp hop with hop | hop
    · exact fits_measured op hop
    · obtain rfl := List.mem_singleton.mp hop
      exact ⟨trivial, trivial⟩
  have hlog : (after tools (measured ++ [.recordAdoption (receiptOf 4 2 100) stolen])).log =
      (after tools measured).log ++ [.adoption stolen] := by
    rw [after_append, step, (recordAdoption_journals stolen_accepted).log]
  obtain ⟨b, hb, -, hrow⟩ := h tools sha256_injective _ hfits _ stolen [] hlog rfl
  obtain rfl : b = bundle := of_decide_eq_true (List.all_eq_true.mp evaluated.2.2.2.2.2.2.2 _ hb)
  revert hrow
  decide

end Sample

end CcosCandidateAudit

end Ccos
