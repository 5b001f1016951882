import Ccos.Candidate.Policy

/-!
# What evidence is made of

A bundle is built exactly when every pair is measured properly, all pairs are about one champion and
one challenger under one contract, and no seed is used twice. The order of the pairs does not matter.
-/

open Std ByteCodec

namespace Ccos

variable {F : Type} [Float64 F] {sha256 : Bytes → Bytes}

/-! ## Comparable evaluations -/

/-- The execution contract of an evaluation. -/
def EvaluationReceipt.contract (r : EvaluationReceipt F) : Str × Str × Option Str × Option Str :=
  (r.evaluatorId, r.sandboxPolicyId, r.executionProfileSha256, r.verifierSha256)

/-- The names and directions of the objectives. -/
def EvaluationReceipt.schema (r : EvaluationReceipt F) : List (Str × Bool) :=
  r.objectives.map fun o => (o.name, o.minimize)

omit [Float64 F] in
theorem sameSchema_all_iff {os os' : List (ObjectiveValue F)} (hlen : os.length = os'.length) :
    ¬ (List.zip os os').any (fun (b, c) => !sameSchema b c) = true ↔
      os.map (fun o => (o.name, o.minimize)) = os'.map fun o => (o.name, o.minimize) := by
  induction os generalizing os' with
  | nil =>
    obtain rfl := List.length_eq_zero_iff.mp hlen.symm
    simp
  | cons o os ih =>
    cases os' with
    | nil => cases hlen
    | cons o' os' =>
      have hrest := ih (Nat.succ.inj hlen)
      simp only [List.zip_cons_cons, List.any_cons, Bool.or_eq_true, not_or, List.map_cons, List.cons.injEq,
        Prod.mk.injEq, hrest]
      simp [sameSchema]

omit [Float64 F] in
theorem requireComparable_ok {a b : EvaluationReceipt F} :
    requireComparable a b = .ok () ↔ a.contract = b.contract ∧ a.schema ≠ [] ∧ a.schema = b.schema := by
  unfold requireComparable
  simp only [check_eq_ok, refuseIf_ok, not_or, not_not]
  constructor
  · rintro ⟨⟨h1, h2, h3, h4⟩, ⟨hne, hlen⟩, hschema⟩
    refine ⟨by simp only [EvaluationReceipt.contract, h1, h2, h3, h4], ?_, (sameSchema_all_iff hlen).mp hschema⟩
    simpa [EvaluationReceipt.schema] using hne
  · rintro ⟨hcontract, hne, hschema⟩
    simp only [EvaluationReceipt.contract, Prod.mk.injEq] at hcontract
    have hlen : a.objectives.length = b.objectives.length := by
      simpa [EvaluationReceipt.schema] using congrArg List.length hschema
    refine ⟨hcontract, ⟨?_, hlen⟩, (sameSchema_all_iff hlen).mpr hschema⟩
    simpa [EvaluationReceipt.schema] using hne

/-! ## Pairs -/

/-- What the checks of a pair ask of it alone. -/
structure Measured (sha256 : Bytes → Bytes) (pair : EvaluationPair F) : Prop where
  champion : validateEvaluation sha256 pair.championCandidate pair.champion = .ok ()
  challenger : validateEvaluation sha256 pair.challengerCandidate pair.challenger = .ok ()
  succeeded : pair.champion.status = .succeeded ∧ pair.challenger.status = .succeeded
  seeds : pair.championCandidate.trialSeed = pair.challengerCandidate.trialSeed ∧
    pair.champion.trialSeed = pair.challenger.trialSeed ∧ pair.champion.trialSeed = pair.championCandidate.trialSeed
  domain : pair.championCandidate.domain = pair.challengerCandidate.domain
  comparable : requireComparable pair.champion pair.challenger = .ok ()

/-- What all pairs of a bundle have in common. -/
structure Subject where
  championId : Str
  challengerId : Str
  domain : Str
  contract : Str × Str × Option Str × Option Str
  schema : List (Str × Bool)

def EvaluationPair.subject (pair : EvaluationPair F) : Subject where
  championId := pair.championCandidate.candidateId
  challengerId := pair.challengerCandidate.candidateId
  domain := pair.championCandidate.domain
  contract := pair.champion.contract
  schema := pair.champion.schema

def EvaluationPair.seed (pair : EvaluationPair F) : UInt64 := pair.champion.trialSeed

theorem validatePair_ok_iff {anchor pair : EvaluationPair F} {seeds : List UInt64} :
    validatePair sha256 anchor.subject.championId anchor.subject.challengerId anchor seeds pair = .ok () ↔
      Measured sha256 pair ∧ pair.subject = anchor.subject ∧ pair.seed ∉ seeds := by
  unfold validatePair
  simp only [check_eq_ok, refuseIf_ok, not_or, not_not, requireComparable_ok]
  constructor
  · rintro ⟨hchampion, hchallenger, hsucceeded, hseeds, hfresh, hids, ⟨hdomain, hdomain'⟩, hcomparable, hanchor, -⟩
    refine ⟨⟨hchampion, hchallenger, hsucceeded, hseeds, hdomain, requireComparable_ok.mpr hcomparable⟩, ?_, hfresh⟩
    simp only [EvaluationPair.subject, Subject.mk.injEq]
    exact ⟨hids.1, hids.2, hdomain', hanchor.1.symm, hanchor.2.2.symm⟩
  · rintro ⟨hmeasured, hsubject, hfresh⟩
    simp only [EvaluationPair.subject, Subject.mk.injEq] at hsubject
    obtain ⟨hchampionId, hchallengerId, hdomain, hcontract, hschema⟩ := hsubject
    obtain ⟨hcontract', hne, hschema'⟩ := requireComparable_ok.mp hmeasured.comparable
    refine ⟨hmeasured.champion, hmeasured.challenger, hmeasured.succeeded, hmeasured.seeds, hfresh,
      ⟨hchampionId, hchallengerId⟩, ⟨hmeasured.domain, hdomain⟩, ⟨hcontract', hne, hschema'⟩,
      ⟨hcontract.symm, hschema ▸ hne, hschema.symm⟩, ?_⟩
    exact ⟨hcontract.symm.trans hcontract', hschema ▸ hne, hschema.symm.trans hschema'⟩

/-! ## Bundles -/

namespace PromotionEvidenceBundle

theorem stageEntries_ok_iff {anchor : EvaluationPair F} {seeds : List UInt64} {pairs : List (EvaluationPair F)}
    {entries : List SeedEvidence} :
    stageEntries sha256 anchor.subject.championId anchor.subject.challengerId anchor seeds pairs = .ok entries ↔
      (∀ pair ∈ pairs, Measured sha256 pair ∧ pair.subject = anchor.subject) ∧
        (pairs.map EvaluationPair.seed).Nodup ∧ (∀ pair ∈ pairs, pair.seed ∉ seeds) ∧
        entries = pairs.map (EvaluationPair.evidence sha256) := by
  induction pairs generalizing seeds entries with
  | nil =>
    rw [stageEntries, Except.ok.injEq]
    simp [eq_comm]
  | cons pair rest ih =>
    rw [stageEntries, check_eq_ok, validatePair_ok_iff, bind_eq_ok]
    constructor
    · rintro ⟨⟨hmeasured, hsubject, hfresh⟩, others, hothers, hentries⟩
      obtain ⟨hall, hnodup, hseeds, rfl⟩ := ih.mp hothers
      refine ⟨?_, ?_, ?_, (Except.ok.inj hentries).symm⟩
      · exact List.forall_mem_cons.mpr ⟨⟨hmeasured, hsubject⟩, hall⟩
      · rw [List.map_cons, List.nodup_cons]
        refine ⟨fun hmem => ?_, hnodup⟩
        obtain ⟨other, hother, heq⟩ := List.mem_map.mp hmem
        exact hseeds other hother (List.mem_cons.mpr (.inl heq))
      · exact List.forall_mem_cons.mpr ⟨hfresh, fun other hother hmem => hseeds other hother
          (List.mem_cons_of_mem _ hmem)⟩
    · rintro ⟨hall, hnodup, hseeds, rfl⟩
      obtain ⟨⟨hmeasured, hsubject⟩, hall⟩ := List.forall_mem_cons.mp hall
      obtain ⟨hfresh, hseeds⟩ := List.forall_mem_cons.mp hseeds
      rw [List.map_cons, List.nodup_cons] at hnodup
      refine ⟨⟨hmeasured, hsubject, hfresh⟩, rest.map (EvaluationPair.evidence sha256), ih.mpr
        ⟨hall, hnodup.2, fun other hother hmem => ?_, rfl⟩, rfl⟩
      rcases List.mem_cons.mp hmem with heq | hmem
      · exact hnodup.1 (List.mem_map.mpr ⟨other, hother, heq⟩)
      · exact hseeds other hother hmem

/-- The rows of a stage. -/
def rows (sha256 : Bytes → Bytes) (pairs : List (EvaluationPair F)) : List SeedEvidence :=
  sortBy (fun a b => compare a.seed b.seed) (pairs.map (EvaluationPair.evidence sha256))

theorem validateStage_ok_iff {anchor : EvaluationPair F} {pairs : List (EvaluationPair F)}
    {entries : List SeedEvidence} :
    validateStage sha256 pairs anchor.subject.championId anchor.subject.challengerId anchor = .ok entries ↔
      (∀ pair ∈ pairs, Measured sha256 pair ∧ pair.subject = anchor.subject) ∧
        (pairs.map EvaluationPair.seed).Nodup ∧ entries = rows sha256 pairs := by
  rw [validateStage, bind_eq_ok]
  constructor
  · rintro ⟨others, hothers, hentries⟩
    obtain ⟨hall, hnodup, -, rfl⟩ := stageEntries_ok_iff.mp hothers
    exact ⟨hall, hnodup, (Except.ok.inj hentries).symm⟩
  · rintro ⟨hall, hnodup, rfl⟩
    exact ⟨_, stageEntries_ok_iff.mpr ⟨hall, hnodup, fun _ _ => List.not_mem_nil, rfl⟩, rfl⟩

/-- The bundle of two lists of pairs about one subject. -/
def ofPairs (sha256 : Bytes → Bytes) (subject : Subject) (selection holdout : List (EvaluationPair F)) :
    PromotionEvidenceBundle where
  championCandidateId := subject.championId
  challengerCandidateId := subject.challengerId
  selection := rows sha256 selection
  holdout := rows sha256 holdout

/-- The pairs are measured, are about this subject, and use each seed once. -/
structure Sound (sha256 : Bytes → Bytes) (subject : Subject) (pairs : List (EvaluationPair F)) : Prop where
  different : subject.championId ≠ subject.challengerId
  measured : ∀ pair ∈ pairs, Measured sha256 pair
  common : ∀ pair ∈ pairs, pair.subject = subject
  once : (pairs.map EvaluationPair.seed).Nodup

theorem mem_seeds_rows {pairs : List (EvaluationPair F)} {seed : UInt64} :
    seed ∈ (rows sha256 pairs).map SeedEvidence.seed ↔ seed ∈ pairs.map EvaluationPair.seed := by
  have hperm := ((perm_sortBy (fun a b : SeedEvidence => compare a.seed b.seed)
    (pairs.map (EvaluationPair.evidence sha256))).map SeedEvidence.seed).mem_iff (a := seed)
  rw [rows, hperm, List.map_map]
  rfl

theorem fromPairs_ok_iff {selection holdout : List (EvaluationPair F)} {b : PromotionEvidenceBundle} :
    fromPairs sha256 selection holdout = .ok b ↔ selection ++ holdout ≠ [] ∧
      ∃ subject, Sound sha256 subject (selection ++ holdout) ∧ b = ofPairs sha256 subject selection holdout := by
  have hfirst : selection.head?.or holdout.head? = (selection ++ holdout).head? := by
    rw [List.head?_append]
  unfold fromPairs
  rw [hfirst]
  cases hpairs : selection ++ holdout with
  | nil => exact ⟨nofun, fun h => absurd rfl h.1⟩
  | cons first rest =>
    have hmem : first ∈ selection ++ holdout := hpairs ▸ List.mem_cons_self
    simp only [List.head?_cons, bind_eq_ok, refuseIf_ok, exists_const]
    rw [← hpairs]
    constructor
    · rintro ⟨hdifferent, rows₁, hselection, rows₂, hholdout, hdisjoint, hb⟩
      obtain ⟨hall₁, hnodup₁, rfl⟩ := validateStage_ok_iff.mp hselection
      obtain ⟨hall₂, hnodup₂, rfl⟩ := validateStage_ok_iff.mp hholdout
      have hall : ∀ pair ∈ selection ++ holdout, Measured sha256 pair ∧ pair.subject = first.subject :=
        fun pair hpair => (List.mem_append.mp hpair).elim (hall₁ pair) (hall₂ pair)
      refine ⟨List.ne_nil_of_mem hmem, first.subject, ⟨hdifferent, fun pair hpair => (hall pair hpair).1,
        fun pair hpair => (hall pair hpair).2, ?_⟩, (Except.ok.inj hb).symm⟩
      rw [List.map_append, List.nodup_append]
      refine ⟨hnodup₁, hnodup₂, fun a ha a' ha' heq => hdisjoint ?_⟩
      obtain ⟨row, hrow, hseed⟩ := List.mem_map.mp ((@mem_seeds_rows F _ sha256 _ _).mpr (heq ▸ ha'))
      refine List.any_eq_true.mpr ⟨row, hrow, ?_⟩
      rw [decide_eq_true_eq, hseed]
      exact mem_seeds_rows.mpr ha
    · rintro ⟨-, subject, hsound, rfl⟩
      obtain rfl := hsound.common first hmem
      have hnodup := hsound.once
      rw [List.map_append, List.nodup_append] at hnodup
      refine ⟨hsound.different, rows sha256 selection, validateStage_ok_iff.mpr ⟨fun pair hpair => ?_, hnodup.1, rfl⟩,
        rows sha256 holdout, validateStage_ok_iff.mpr ⟨fun pair hpair => ?_, hnodup.2.1, rfl⟩, fun hany => ?_, rfl⟩
      · have hpair := List.mem_append_left holdout hpair
        exact ⟨hsound.measured pair hpair, hsound.common pair hpair⟩
      · have hpair := List.mem_append_right selection hpair
        exact ⟨hsound.measured pair hpair, hsound.common pair hpair⟩
      · obtain ⟨row, hrow, hseed⟩ := List.any_eq_true.mp hany
        have hholdout := mem_seeds_rows.mp (List.mem_map_of_mem (f := SeedEvidence.seed) hrow)
        exact hnodup.2.2 _ (mem_seeds_rows.mp (of_decide_eq_true hseed)) _ hholdout rfl

theorem rows_perm {pairs pairs' : List (EvaluationPair F)} (honce : (pairs.map EvaluationPair.seed).Nodup)
    (h : pairs.Perm pairs') : rows sha256 pairs = rows sha256 pairs' := by
  refine sortBy_eq_of_perm SeedEvidence.seed (fun a ha b hb hseed => ?_) (h.map _)
  obtain ⟨pair, hpair, rfl⟩ := List.mem_map.mp ha
  obtain ⟨other, hother, rfl⟩ := List.mem_map.mp hb
  exact congrArg _ (List.inj_on_of_nodup_map honce hpair hother hseed)

/-- Evidence forgets the order of its pairs. -/
theorem fromPairs_perm {selection selection' holdout holdout' : List (EvaluationPair F)}
    {b : PromotionEvidenceBundle} (hs : selection.Perm selection') (hh : holdout.Perm holdout')
    (h : fromPairs sha256 selection holdout = .ok b) : fromPairs sha256 selection' holdout' = .ok b := by
  obtain ⟨hne, subject, hsound, rfl⟩ := fromPairs_ok_iff.mp h
  have hperm := hs.append hh
  have honce := hsound.once
  rw [List.map_append, List.nodup_append] at honce
  refine fromPairs_ok_iff.mpr ⟨fun hnil => hne (hnil ▸ hperm).eq_nil, subject, ⟨hsound.different,
    fun pair hpair => hsound.measured pair (hperm.mem_iff.mpr hpair),
    fun pair hpair => hsound.common pair (hperm.mem_iff.mpr hpair), (hperm.map _).nodup_iff.mp hsound.once⟩, ?_⟩
  rw [ofPairs, ofPairs, rows_perm honce.1 hs, rows_perm honce.2.1 hh]

/-- Every pair has its row. -/
theorem evidence_mem_rows {pairs : List (EvaluationPair F)} {pair : EvaluationPair F} (h : pair ∈ pairs) :
    pair.evidence sha256 ∈ rows sha256 pairs := (mem_sortBy _ _ _).mpr (List.mem_map_of_mem h)

/-- Every pair of a bundle measures the challenger that the bundle names. -/
theorem fromPairs_challenger {selection holdout : List (EvaluationPair F)} {b : PromotionEvidenceBundle}
    (h : fromPairs sha256 selection holdout = .ok b) {pair : EvaluationPair F} (hpair : pair ∈ selection ++ holdout) :
    validateEvaluation sha256 pair.challengerCandidate pair.challenger = .ok () ∧
      pair.challengerCandidate.candidateId = b.challengerCandidateId := by
  obtain ⟨-, subject, hsound, rfl⟩ := fromPairs_ok_iff.mp h
  exact ⟨(hsound.measured pair hpair).challenger, congrArg Subject.challengerId (hsound.common pair hpair)⟩

end PromotionEvidenceBundle

/-! ## The anchor -/

namespace RepeatedSeedPromotionPolicy

omit [Float64 F] in
theorem minBySeed_eq_none {pairs : List (EvaluationPair F)} : minBySeed pairs = none ↔ pairs = [] := by
  cases pairs with
  | nil => exact ⟨fun _ => rfl, fun _ => rfl⟩
  | cons pair rest =>
    refine ⟨fun h => ?_, nofun⟩
    unfold minBySeed at h
    split at h
    · cases h
    · split at h <;> cases h

omit [Float64 F] in
theorem minBySeed_spec {pairs : List (EvaluationPair F)} {best : EvaluationPair F} (h : minBySeed pairs = some best) :
    best ∈ pairs ∧ ∀ pair ∈ pairs, best.challenger.trialSeed ≤ pair.challenger.trialSeed := by
  induction pairs generalizing best with
  | nil => cases h
  | cons pair rest ih =>
    unfold minBySeed at h
    split at h
    · rename_i hrest
      obtain rfl := Option.some.inj h
      obtain rfl := minBySeed_eq_none.mp hrest
      exact ⟨List.mem_cons_self, fun other hother => (List.mem_singleton.mp hother) ▸ UInt64.le_refl _⟩
    · rename_i least hrest
      obtain ⟨hmem, hleast⟩ := ih hrest
      split at h
      · rename_i hlt
        obtain rfl := Option.some.inj h
        exact ⟨List.mem_cons_of_mem _ hmem, List.forall_mem_cons.mpr ⟨UInt64.le_of_lt hlt, hleast⟩⟩
      · rename_i hge
        obtain rfl := Option.some.inj h
        refine ⟨List.mem_cons_self, List.forall_mem_cons.mpr ⟨UInt64.le_refl _, fun other hother => ?_⟩⟩
        exact UInt64.le_trans (UInt64.not_lt.mp hge) (hleast other hother)

omit [Float64 F] in
/-- With seeds that differ, the least one picks one pair. -/
theorem minBySeed_perm {pairs pairs' : List (EvaluationPair F)}
    (honce : ∀ p ∈ pairs, ∀ q ∈ pairs, p.challenger.trialSeed = q.challenger.trialSeed → p = q)
    (h : pairs.Perm pairs') : minBySeed pairs = minBySeed pairs' := by
  cases hleft : minBySeed pairs with
  | none =>
    obtain rfl := minBySeed_eq_none.mp hleft
    exact (minBySeed_eq_none.mpr h.symm.eq_nil).symm
  | some best =>
    obtain ⟨hbest, hleast⟩ := minBySeed_spec hleft
    cases hright : minBySeed pairs' with
    | none =>
      obtain rfl := minBySeed_eq_none.mp hright
      exact absurd (h.eq_nil ▸ hbest) List.not_mem_nil
    | some best' =>
      obtain ⟨hbest', hleast'⟩ := minBySeed_spec hright
      have hmem := h.mem_iff.mpr hbest'
      exact congrArg some (honce best hbest best' hmem
        (UInt64.le_antisymm (hleast best' hmem) (hleast' best (h.mem_iff.mp hbest))))

/-! ## The decision -/

theorem verdict_reason {selectionPassed holdoutPassed : Bool} {fingerprint : Str} {artifact artifact' : Option Str}
    {decision : AdoptionDecision} {reason : Str}
    (h : verdict selectionPassed holdoutPassed fingerprint artifact = .ok (decision, reason, artifact')) :
    ∃ text, reason = text ++ fingerprint := by
  unfold verdict at h
  split at h
  · exact ⟨_, (Prod.mk.inj (Prod.mk.inj (Except.ok.inj h)).2).1.symm⟩
  · split at h
    · exact ⟨_, (Prod.mk.inj (Prod.mk.inj (Except.ok.inj h)).2).1.symm⟩
    · split at h
      · cases h
      · exact ⟨_, (Prod.mk.inj (Prod.mk.inj (Except.ok.inj (check_eq_ok.mp h).2)).2).1.symm⟩

theorem verdict_promote {selectionPassed holdoutPassed : Bool} {fingerprint reason : Str} {artifact artifact' : Option Str}
    (h : verdict selectionPassed holdoutPassed fingerprint artifact = .ok (.promote, reason, artifact')) :
    selectionPassed = true ∧ holdoutPassed = true := by
  cases selectionPassed with
  | false => exact absurd (Prod.mk.inj (Except.ok.inj h)).1 (by decide)
  | true =>
    cases holdoutPassed with
    | false => exact absurd (Prod.mk.inj (Except.ok.inj h)).1 (by decide)
    | true => exact ⟨rfl, rfl⟩

/-- What a decision was made of. -/
structure Decided (sha256 : Bytes → Bytes) (policy : RepeatedSeedPromotionPolicy F)
    (selection holdout : List (EvaluationPair F)) (artifact : Option Str) (d : RepeatedSeedDecision)
    (anchor : EvaluationPair F) (selectionPassed holdoutPassed : Bool) : Prop where
  enough : policy.minSelectionPairs ≤ selection.length ∧ policy.minHoldoutPairs ≤ holdout.length
  bundled : PromotionEvidenceBundle.fromPairs sha256 selection holdout = .ok d.evidence
  anchored : minBySeed holdout = some anchor
  selected : policy.stagePasses selection = .ok selectionPassed
  heldOut : policy.stagePasses holdout = .ok holdoutPassed
  about : d.adoption.evaluationFingerprint = anchor.challenger.fingerprint sha256
  worded : ∃ artifact', RepeatedSeedPromotionPolicy.verdict selectionPassed holdoutPassed
    (d.evidence.fingerprint sha256) artifact = .ok (d.adoption.decision, d.adoption.reason, artifact')

theorem decide_spec {policy : RepeatedSeedPromotionPolicy F} {selection holdout : List (EvaluationPair F)}
    {artifact : Option Str} {d : RepeatedSeedDecision}
    (h : policy.decide sha256 selection holdout artifact = .ok d) :
    ∃ anchor selectionPassed holdoutPassed,
      Decided sha256 policy selection holdout artifact d anchor selectionPassed holdoutPassed := by
  unfold decide at h
  obtain ⟨henough, h⟩ := check_eq_ok.mp h
  obtain ⟨evidence, hevidence, h⟩ := bind_eq_ok.mp h
  split at h
  · cases h
  · rename_i anchor hanchor
    obtain ⟨selectionPassed, hselection, h⟩ := bind_eq_ok.mp h
    obtain ⟨holdoutPassed, hholdout, h⟩ := bind_eq_ok.mp h
    obtain ⟨⟨decision, reason, artifact'⟩, hverdict, h⟩ := bind_eq_ok.mp h
    obtain ⟨adoption, hadoption, h⟩ := bind_eq_ok.mp h
    obtain ⟨-, h⟩ := check_eq_ok.mp h
    obtain rfl := Except.ok.inj h
    unfold AdoptionReceipt.new at hadoption
    obtain rfl := Except.ok.inj (check_eq_ok.mp (check_eq_ok.mp hadoption).2).2
    have henough := refuseIf_ok.mp henough
    rw [not_or, Nat.not_lt, Nat.not_lt] at henough
    exact ⟨anchor, selectionPassed, holdoutPassed,
      ⟨henough, hevidence, hanchor, hselection, hholdout, rfl, artifact', hverdict⟩⟩

/-- A decision reads its pairs through their number, the bundle, the anchor and the two gates. -/
theorem decide_congr {policy : RepeatedSeedPromotionPolicy F} {selection selection' holdout holdout' : List (EvaluationPair F)}
    {artifact : Option Str} (hs : selection.length = selection'.length) (hh : holdout.length = holdout'.length)
    (hevidence : PromotionEvidenceBundle.fromPairs sha256 selection holdout =
      PromotionEvidenceBundle.fromPairs sha256 selection' holdout')
    (hanchor : minBySeed holdout = minBySeed holdout') (hselection : policy.stagePasses selection =
      policy.stagePasses selection') (hholdout : policy.stagePasses holdout = policy.stagePasses holdout') :
    policy.decide sha256 selection holdout artifact = policy.decide sha256 selection' holdout' artifact := by
  unfold decide
  rw [hs, hh, hevidence, hanchor, hselection, hholdout]

end RepeatedSeedPromotionPolicy

end Ccos
