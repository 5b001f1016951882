import Ccos.Candidate.Veto

/-!
# The repeated-seed gate

In exact arithmetic a promotion means that both lists of pairs passed the whole gate, and the gate
does not see the order of the pairs.
-/

open ByteCodec

namespace Ccos

variable {sha256 : Bytes → Bytes}

/-! ## Exact arithmetic -/

/-- The relative improvements of a pair, the primary first. -/
def EvaluationPair.improvements (pair : EvaluationPair ℚ) : List ℚ :=
  (List.zip pair.champion.objectives pair.challenger.objectives).map fun (b, c) => improvement b c

def EvaluationPair.primary (pair : EvaluationPair ℚ) : ℚ := pair.improvements.headD 0

theorem improvementsOf_rat (pairs : List (ObjectiveValue ℚ × ObjectiveValue ℚ)) :
    improvementsOf pairs = .ok (pairs.map fun (b, c) => improvement b c) := by
  induction pairs with
  | nil => rfl
  | cons pair rest ih =>
    rw [improvementsOf, ih]
    rfl

theorem relativeImprovements_rat {pair : EvaluationPair ℚ}
    (h : requireComparable pair.champion pair.challenger = .ok ()) :
    relativeImprovements pair.champion pair.challenger = .ok pair.improvements := by
  rw [relativeImprovements, h, EvaluationPair.improvements, ← improvementsOf_rat]
  rfl

namespace RepeatedSeedPromotionPolicy

variable (policy : RepeatedSeedPromotionPolicy ℚ)

/-! ## One stage -/

/-- Some secondary objective of the pair is worse than the bound allows. -/
def regresses (pair : EvaluationPair ℚ) : Bool :=
  (pair.improvements.drop 1).any (Scalar.lt · (-policy.maxRelativeRegression))

/-- The median of a list, the lower of the two middle values if there are two. -/
def lowerMedian (values : List ℚ) : Option ℚ := (sortBy compare values)[(values.length - 1) / 2]?

def wins (pairs : List (EvaluationPair ℚ)) : Nat :=
  (pairs.map EvaluationPair.primary).countP fun value =>
    Scalar.ge value policy.minPrimaryRelativeImprovement

theorem primaries_rat {pairs : List (EvaluationPair ℚ)}
    (h : ∀ pair ∈ pairs, requireComparable pair.champion pair.challenger = .ok ()) :
    policy.primaries pairs =
      .ok (if pairs.any policy.regresses then none else some (pairs.map EvaluationPair.primary)) := by
  induction pairs with
  | nil => rfl
  | cons pair rest ih =>
    obtain ⟨hpair, hrest⟩ := List.forall_mem_cons.mp h
    rw [primaries, relativeImprovements_rat hpair, ih hrest, List.any_cons]
    change (if policy.regresses pair = true then _ else _) = _
    cases policy.regresses pair with
    | true => rfl
    | false =>
      simp only [Bool.false_or, Bool.false_eq_true, if_false]
      cases rest.any policy.regresses <;> rfl

theorem stagePasses_of_regresses {pairs : List (EvaluationPair ℚ)}
    (h : ∀ pair ∈ pairs, requireComparable pair.champion pair.challenger = .ok ())
    (hbad : pairs.any policy.regresses = true) : policy.stagePasses pairs = .ok false := by
  rw [stagePasses, primaries_rat policy h, if_pos hbad]
  rfl

theorem stagePasses_of_not_regresses {pairs : List (EvaluationPair ℚ)}
    (h : ∀ pair ∈ pairs, requireComparable pair.champion pair.challenger = .ok ())
    (hclean : ¬ pairs.any policy.regresses = true) :
    policy.stagePasses pairs =
      (lowerMedian (pairs.map EvaluationPair.primary)).elim (.error .panicked) fun median =>
        .ok (Scalar.ge median policy.minPrimaryRelativeImprovement
          && saturatingMul (policy.wins pairs) maxBps ≥
            saturatingMul pairs.length policy.minPrimaryWinRateBps.toNat) := by
  rw [stagePasses, primaries_rat policy h, if_neg hclean]
  have hlookup (values : List ℚ) :
      (sortBy Float64.totalCmp values)[(values.length - 1) / 2]? = lowerMedian values := rfl
  simp only [bind, Except.bind, hlookup]
  cases lowerMedian (pairs.map EvaluationPair.primary) <;> rfl

theorem stagePasses_perm {pairs pairs' : List (EvaluationPair ℚ)}
    (h : ∀ pair ∈ pairs, requireComparable pair.champion pair.challenger = .ok ())
    (hperm : pairs.Perm pairs') : policy.stagePasses pairs = policy.stagePasses pairs' := by
  have hvalues := hperm.map EvaluationPair.primary
  have hany : pairs.any policy.regresses = pairs'.any policy.regresses := by
    rw [Bool.eq_iff_iff, List.any_eq_true, List.any_eq_true]
    exact exists_congr fun pair => and_congr_left fun _ => hperm.mem_iff
  have hmedian :
      lowerMedian (pairs.map EvaluationPair.primary) = lowerMedian (pairs'.map EvaluationPair.primary) := by
    have hsorted : sortBy compare (pairs.map EvaluationPair.primary) =
        sortBy compare (pairs'.map EvaluationPair.primary) :=
      sortBy_eq_of_perm id (fun _ _ _ _ heq => heq) hvalues
    rw [lowerMedian, lowerMedian, hsorted, hvalues.length_eq]
  have hwins : policy.wins pairs = policy.wins pairs' := hvalues.countP_eq _
  have h' : ∀ pair ∈ pairs', requireComparable pair.champion pair.challenger = .ok () :=
    fun pair hpair => h pair (hperm.mem_iff.mpr hpair)
  by_cases hbad : pairs.any policy.regresses = true
  · rw [policy.stagePasses_of_regresses h hbad, policy.stagePasses_of_regresses h' (hany ▸ hbad)]
  · rw [policy.stagePasses_of_not_regresses h hbad, policy.stagePasses_of_not_regresses h' (hany ▸ hbad),
      hmedian, hwins, hperm.length_eq]

/-- What a list of pairs meets when it passes. The win rate is compared in `usize`, which is exact
for fewer than `2 ^ 48` pairs. -/
structure StagePassed (pairs : List (EvaluationPair ℚ)) : Prop where
  bounded : ∀ pair ∈ pairs, ∀ value ∈ pair.improvements.drop 1, -policy.maxRelativeRegression ≤ value
  median : ∃ median, lowerMedian (pairs.map EvaluationPair.primary) = some median ∧
    policy.minPrimaryRelativeImprovement ≤ median
  winRate : saturatingMul pairs.length policy.minPrimaryWinRateBps.toNat ≤
    saturatingMul (policy.wins pairs) maxBps
  exactWinRate : pairs.length < 2 ^ 48 →
    pairs.length * policy.minPrimaryWinRateBps.toNat ≤ policy.wins pairs * maxBps

theorem exact_of_saturatingMul {a b c : Nat} {rate : UInt16} (ha : a < 2 ^ 48)
    (h : saturatingMul a rate.toNat ≤ saturatingMul b c) : a * rate.toNat ≤ b * c := by
  have hrate := rate.toNat_lt
  have hsmall : a * rate.toNat ≤ 2 ^ 64 - 1 := by
    have hmul : a * rate.toNat ≤ (2 ^ 48 - 1) * (2 ^ 16 - 1) := Nat.mul_le_mul (by omega) (by omega)
    omega
  unfold saturatingMul at h
  rw [min_eq_left hsmall] at h
  exact h.trans (min_le_left _ _)

theorem stagePassed_of_passes {pairs : List (EvaluationPair ℚ)}
    (hcomparable : ∀ pair ∈ pairs, requireComparable pair.champion pair.challenger = .ok ())
    (h : policy.stagePasses pairs = .ok true) : policy.StagePassed pairs := by
  by_cases hbad : pairs.any policy.regresses = true
  · rw [policy.stagePasses_of_regresses hcomparable hbad] at h
    cases Except.ok.inj h
  · rw [policy.stagePasses_of_not_regresses hcomparable hbad] at h
    cases hmedian : lowerMedian (pairs.map EvaluationPair.primary) with
    | none =>
      rw [hmedian] at h
      cases h
    | some median =>
      rw [hmedian] at h
      have hpassed := Except.ok.inj h
      rw [Bool.and_eq_true, ge_rat, decide_eq_true_eq, decide_eq_true_eq] at hpassed
      refine ⟨fun pair hpair value hvalue => ?_, ⟨median, hmedian, hpassed.1⟩, hpassed.2,
        fun hfew => exact_of_saturatingMul hfew hpassed.2⟩
      by_contra hlow
      refine hbad (List.any_eq_true.mpr ⟨pair, hpair, List.any_eq_true.mpr ⟨value, hvalue, ?_⟩⟩)
      rw [lt_rat, decide_eq_true_eq]
      exact not_le.mp hlow

/-! ## Both stages -/

/-- What stands behind a promotion. -/
structure GatePassed (sha256 : Bytes → Bytes) (selection holdout : List (EvaluationPair ℚ)) : Prop where
  enough : policy.minSelectionPairs ≤ selection.length ∧ policy.minHoldoutPairs ≤ holdout.length
  valid : ∀ pair ∈ selection ++ holdout,
    validateEvaluation sha256 pair.championCandidate pair.champion = .ok () ∧
      validateEvaluation sha256 pair.challengerCandidate pair.challenger = .ok ()
  succeeded : ∀ pair ∈ selection ++ holdout,
    pair.champion.status = .succeeded ∧ pair.challenger.status = .succeeded
  comparable : ∀ p ∈ selection ++ holdout, ∀ q ∈ selection ++ holdout,
    requireComparable p.champion q.champion = .ok () ∧ requireComparable p.champion q.challenger = .ok ()
  contents : ∃ championId challengerId, championId ≠ challengerId ∧ ∀ pair ∈ selection ++ holdout,
    pair.championCandidate.candidateId = championId ∧ pair.challengerCandidate.candidateId = challengerId
  oneSeed : ∀ pair ∈ selection ++ holdout, pair.champion.trialSeed = pair.challenger.trialSeed
  seeds : ((selection ++ holdout).map fun pair => pair.champion.trialSeed).Nodup
  selected : policy.StagePassed selection
  heldOut : policy.StagePassed holdout

theorem gatePassed_of_promote {selection holdout : List (EvaluationPair ℚ)} {artifact : Option Str}
    {d : RepeatedSeedDecision} (h : policy.decide sha256 selection holdout artifact = .ok d)
    (hpromote : d.adoption.decision = .promote) : policy.GatePassed sha256 selection holdout := by
  obtain ⟨anchor, selectionPassed, holdoutPassed, hdecided⟩ := decide_spec h
  obtain ⟨-, subject, hsound, -⟩ := PromotionEvidenceBundle.fromPairs_ok_iff.mp hdecided.bundled
  obtain ⟨artifact', hworded⟩ := hdecided.worded
  obtain ⟨rfl, rfl⟩ := verdict_promote (hpromote ▸ hworded)
  have hcomparable : ∀ pair ∈ selection ++ holdout,
      requireComparable pair.champion pair.challenger = .ok () :=
    fun pair hpair => (hsound.measured pair hpair).comparable
  have hselection := policy.stagePassed_of_passes
    (fun pair hpair => hcomparable pair (List.mem_append_left _ hpair)) hdecided.selected
  have hholdout := policy.stagePassed_of_passes
    (fun pair hpair => hcomparable pair (List.mem_append_right _ hpair)) hdecided.heldOut
  refine ⟨hdecided.enough, fun pair hpair => ?_, fun pair hpair => (hsound.measured pair hpair).succeeded,
    fun p hp q hq => ?_, ⟨subject.championId, subject.challengerId, hsound.different, fun pair hpair => ?_⟩,
    fun pair hpair => (hsound.measured pair hpair).seeds.2.1, hsound.once, hselection, hholdout⟩
  · exact ⟨(hsound.measured pair hpair).champion, (hsound.measured pair hpair).challenger⟩
  · have hsame : p.subject = q.subject := (hsound.common p hp).trans (hsound.common q hq).symm
    have hcontract : p.champion.contract = q.champion.contract := congrArg Subject.contract hsame
    have hschema : p.champion.schema = q.champion.schema := congrArg Subject.schema hsame
    obtain ⟨hcontract', hne, hschema'⟩ := requireComparable_ok.mp (hcomparable q hq)
    rw [requireComparable_ok, requireComparable_ok, hcontract, hschema]
    exact ⟨⟨rfl, hne, rfl⟩, hcontract', hne, hschema'⟩
  · have hsubject := hsound.common pair hpair
    exact ⟨congrArg Subject.championId hsubject, congrArg Subject.challengerId hsubject⟩

theorem decide_perm {selection selection' holdout holdout' : List (EvaluationPair ℚ)} {artifact : Option Str}
    {d : RepeatedSeedDecision} (hs : selection.Perm selection') (hh : holdout.Perm holdout')
    (h : policy.decide sha256 selection holdout artifact = .ok d) :
    policy.decide sha256 selection' holdout' artifact = .ok d := by
  obtain ⟨anchor, selectionPassed, holdoutPassed, hdecided⟩ := decide_spec h
  have hbundled := PromotionEvidenceBundle.fromPairs_perm hs hh hdecided.bundled
  obtain ⟨-, subject, hsound, -⟩ := PromotionEvidenceBundle.fromPairs_ok_iff.mp hdecided.bundled
  have hcomparable : ∀ pair ∈ selection ++ holdout,
      requireComparable pair.champion pair.challenger = .ok () :=
    fun pair hpair => (hsound.measured pair hpair).comparable
  have hseeds : ∀ p ∈ holdout, ∀ q ∈ holdout,
      p.challenger.trialSeed = q.challenger.trialSeed → p = q := by
    intro p hp q hq hseed
    have hp := List.mem_append_right selection hp
    have hq := List.mem_append_right selection hq
    refine List.inj_on_of_nodup_map hsound.once hp hq ?_
    exact (hsound.measured p hp).seeds.2.1.trans (hseed.trans (hsound.measured q hq).seeds.2.1.symm)
  rw [← h]
  refine (decide_congr hs.length_eq hh.length_eq (hdecided.bundled.trans hbundled.symm)
    (minBySeed_perm hseeds hh) (policy.stagePasses_perm (fun pair hpair => ?_) hs)
    (policy.stagePasses_perm (fun pair hpair => ?_) hh)).symm
  · exact hcomparable pair (List.mem_append_left _ hpair)
  · exact hcomparable pair (List.mem_append_right _ hpair)

/-- A promotion has the whole gate behind it, and no order of the pairs changes a decision, its
evidence or its adoption. -/
theorem repeated_seed_gate (sha256 : Bytes → Bytes) (selection holdout : List (EvaluationPair ℚ))
    (artifact : Option Str) :
    (∀ d, policy.decide sha256 selection holdout artifact = .ok d → d.adoption.decision = .promote →
      policy.GatePassed sha256 selection holdout) ∧
    ∀ selection' holdout', selection.Perm selection' → holdout.Perm holdout' → ∀ d,
      policy.decide sha256 selection holdout artifact = .ok d ↔
        policy.decide sha256 selection' holdout' artifact = .ok d :=
  ⟨fun _ h hpromote => policy.gatePassed_of_promote h hpromote, fun _ _ hs hh _ =>
    ⟨policy.decide_perm hs hh, policy.decide_perm hs.symm hh.symm⟩⟩

open CcosCandidateAudit in
theorem repeated_seed_gate_sample :
    Sample.policy.GatePassed Sample.tools.sha256 [Sample.pairAt 1 2 3] [Sample.pairAt 2 4 5] := by
  have hpromoted := Sample.evaluated.2.2.1.2
  cases hd : Sample.policy.decide Sample.tools.sha256 [Sample.pairAt 1 2 3] [Sample.pairAt 2 4 5]
      (some (List.replicate 64 'e')) with
  | error e =>
    rw [hd] at hpromoted
    cases hpromoted
  | ok d =>
    rw [hd] at hpromoted
    exact (Sample.policy.repeated_seed_gate _ _ _ _).1 d hd (Option.some.inj hpromoted)

end RepeatedSeedPromotionPolicy

end Ccos
