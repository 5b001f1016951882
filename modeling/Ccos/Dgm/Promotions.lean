import Ccos.Dgm.Measured

/-!
# Promotions

A candidate is measured on a copy of the live tree and compared with what is stored of the parent that was
drawn. While no stored fitness is behind the live tree, every promotion improves it.
-/

open ByteCodec

namespace Ccos

section Runs

variable {P F : Type} [InfFloat64 F] (t : DgmParts P F)

namespace GuardedDgm

/-! ## What is asked of a step -/

/-- The patch of the variant that the step archives was measured on a copy of the live tree. -/
def Evaluated (g : GuardedDgm P F) (child : Variant F) (fitness : Fitness F) : Prop :=
  (g.runStep t).2.engine.archive = g.engine.archive.insert child ∧ child.fitness = some fitness
    ∧ ∃ snapshot, applyToSnapshot t.digest t.config.snapshotRoot (copyTree g.live) child.patch = .ok snapshot
      ∧ t.evaluator.fitness snapshot = fitness

def Promoted (g : GuardedDgm P F) : Prop := ∃ outcome, (g.runStep t).1 = .ok ⟨outcome, true⟩

/-- The live tree after the step is the one before it with exactly the patch that was evaluated, its fitness is
the one on record, and it is better than before. -/
def Improves (g : GuardedDgm P F) : Prop :=
  ∃ child fitness, (g.runStep t).1 = .ok ⟨.evaluated child.id child.parent true fitness, true⟩
    ∧ g.Evaluated t child fitness
    ∧ PatchedTo t.sandbox.backupDirOr g.live child.patch (g.runStep t).2.live
    ∧ t.evaluator.fitness (copyTree (g.runStep t).2.live) = fitness
    ∧ fitness.isBetterThan (t.evaluator.fitness (copyTree g.live)) = true

/-- A step that promotes improves the live tree, and any other leaves it as it is. -/
def StepHolds (g : GuardedDgm P F) : Prop :=
  (g.Promoted t → g.Improves t) ∧ (¬ g.Promoted t → (g.runStep t).2.live = g.live)

/-- The live tree is not better than what is stored of the parent that the step draws. -/
def FairParent (g : GuardedDgm P F) : Prop :=
  ∀ parent, (g.engine.archive.selectParent g.engine.rng).1 = some parent →
    (t.evaluator.fitness (copyTree g.live)).isBetterThan (DgmEngine.parentFitness parent) = false

/-! ## The invariant of a run -/

/-- No evidence is left over, and every variant carries the id of its own lineage, number and patch. -/
structure Numbered (g : GuardedDgm P F) : Prop where
  noEvidence : g.engine.attestation = none
  id_eq : ∀ v ∈ g.engine.archive.variants, v.id = variantId t.digest v.parent v.generation v.seq v.patch
  bar_not_mem : ∀ v ∈ g.engine.archive.variants, '|' ∉ v.parent.getD []
  seq_lt : ∀ v ∈ g.engine.archive.variants, v.seq < g.engine.nextSeq

end GuardedDgm

end Runs

/-! ## Ids -/

theorem bar_not_mem_variantId (digest : Bytes → Bytes) (parent : Option Str) (generation seq : Nat) (patch : Patch) :
    '|' ∉ variantId digest parent generation seq patch := bar_not_mem_lowerHex _

/-- The text of a patch that its id is made of. -/
def Patch.joined (p : Patch) : Str := p.target ++ '|' :: (p.find ++ '|' :: p.replace)

/-- Ids are equal when everything that is hashed is. -/
theorem variantId_eq_iff {digest : Bytes → Bytes} (hdigest : Function.Injective digest) {parent parent' : Option Str}
    {generation generation' seq seq' : Nat} {patch patch' : Patch} (hparent : '|' ∉ parent.getD [])
    (hparent' : '|' ∉ parent'.getD []) :
    variantId digest parent generation seq patch = variantId digest parent' generation' seq' patch' ↔
      parent.getD [] = parent'.getD [] ∧ generation = generation' ∧ seq = seq' ∧ patch.joined = patch'.joined := by
  constructor
  · intro h
    have hmaterial : variantMaterial parent generation seq patch = variantMaterial parent' generation' seq' patch' :=
      utf8_injective (hdigest (lowerHex_injective h))
    obtain ⟨hname, hrest⟩ := append_sep_inj hparent hparent' hmaterial
    obtain ⟨hgeneration, hrest⟩ := append_sep_inj (bar_not_mem_natStr _) (bar_not_mem_natStr _) hrest
    obtain ⟨hseq, hjoined⟩ := append_sep_inj (bar_not_mem_natStr _) (bar_not_mem_natStr _) hrest
    exact ⟨hname, natStr_injective hgeneration, natStr_injective hseq, hjoined⟩
  · rintro ⟨hname, rfl, rfl, hjoined⟩
    unfold variantId variantMaterial
    unfold Patch.joined at hjoined
    rw [hname, hjoined]

/-- Equal ids have the same number. -/
theorem variantId_seq {digest : Bytes → Bytes} (hdigest : Function.Injective digest) {parent parent' : Option Str}
    {generation generation' seq seq' : Nat} {patch patch' : Patch} (hparent : '|' ∉ parent.getD [])
    (hparent' : '|' ∉ parent'.getD [])
    (h : variantId digest parent generation seq patch = variantId digest parent' generation' seq' patch') :
    seq = seq' := ((variantId_eq_iff hdigest hparent hparent').mp h).2.2.1

section Runs

variable {P F : Type} [InfFloat64 F] {t : DgmParts P F}

namespace GuardedDgm

omit [InfFloat64 F] in
theorem start_numbered (state : P) (seed : UInt64) (live : Tree) : (start t state seed live).Numbered t where
  noEvidence := rfl
  id_eq v hv := by
    rw [List.mem_singleton.mp hv]
    rfl
  bar_not_mem v hv := by
    rw [List.mem_singleton.mp hv]
    exact List.not_mem_nil
  seq_lt v hv := by
    rw [List.mem_singleton.mp hv]
    exact Nat.one_pos

/-- The variant of a step is not in the archive yet. -/
theorem child_id_ne {g : GuardedDgm P F} (hg : g.Numbered t) (hdigest : Function.Injective t.digest)
    {parent : Variant F} (hparent : parent ∈ g.engine.archive.variants) (proposal : Proposal) (fitness : Fitness F)
    {v : Variant F} (hv : v ∈ g.engine.archive.variants) :
    v.id ≠ (DgmEngine.measuredChild t.digest t.config g.engine parent proposal fitness).id := by
  intro heq
  rw [hg.id_eq v hv] at heq
  have hbar : '|' ∉ (some parent.id).getD [] := by
    rw [Option.getD_some, hg.id_eq parent hparent]
    exact bar_not_mem_variantId _ _ _ _ _
  have hseq := variantId_seq hdigest (hg.bar_not_mem v hv) hbar heq
  have := hg.seq_lt v hv
  omega

omit [InfFloat64 F] in
/-- What was archived last is found under its id. -/
theorem get_insert {a : Archive F} {child : Variant F} (h : ∀ v ∈ a.variants, v.id ≠ child.id) :
    (a.insert child).get child.id = some child := by
  unfold Archive.insert Archive.get
  rw [List.find?_append, List.find?_eq_none.mpr (by simpa using h)]
  simp

/-- The archive that grows by the child of a step stays numbered. -/
theorem numbered_insert {g : GuardedDgm P F} (hg : g.Numbered t) {parent : Variant F}
    (hparent : parent ∈ g.engine.archive.variants) (proposal : Proposal) (fitness : Fitness F)
    {g' : GuardedDgm P F} (hnone : g'.engine.attestation = none) (hseq : g'.engine.nextSeq = g.engine.nextSeq + 1)
    (harchive : g'.engine.archive = g.engine.archive
      ∨ g'.engine.archive
        = g.engine.archive.insert (DgmEngine.measuredChild t.digest t.config g.engine parent proposal fitness)) :
    g'.Numbered t := by
  have hmem : ∀ v ∈ g'.engine.archive.variants, v ∈ g.engine.archive.variants
      ∨ v = DgmEngine.measuredChild t.digest t.config g.engine parent proposal fitness := by
    intro v hv
    rcases harchive with h | h
    · rw [h] at hv
      exact .inl hv
    · rw [h] at hv
      exact (List.mem_append.mp hv).imp_right List.mem_singleton.mp
  refine ⟨hnone, ?_, ?_, ?_⟩
  · intro v hv
    rcases hmem v hv with h | rfl
    · exact hg.id_eq v h
    · rfl
  · intro v hv
    rcases hmem v hv with h | rfl
    · exact hg.bar_not_mem v h
    · show '|' ∉ parent.id
      rw [hg.id_eq parent hparent]
      exact bar_not_mem_variantId _ _ _ _ _
  · intro v hv
    rw [hseq]
    rcases hmem v hv with h | rfl
    · exact Nat.lt_succ_of_lt (hg.seq_lt v h)
    · exact Nat.lt_succ_self _

/-! ## Promotion -/

omit [InfFloat64 F] in
/-- Nothing is promoted without evidence, and what is promoted is the patch that the step hands over. -/
theorem promote_spec (g : GuardedDgm P F) (evidence : Option EvaluationAttestation) (liveUnchanged : Bool)
    (variantId : Str) (patch : Patch) :
    (g.promote t evidence liveUnchanged variantId patch).2.engine = g.engine ∧
      ((g.promote t evidence liveUnchanged variantId patch).1 = false
          ∧ (g.promote t evidence liveUnchanged variantId patch).2.live = g.live
        ∨ (g.promote t evidence liveUnchanged variantId patch).1 = true ∧ evidence ≠ none
          ∧ ∃ backupId, promoteToLive t.digest t.config.workspaceRoot g.live patch t.sandbox.backupDirOr
            = .ok (backupId, (g.promote t evidence liveUnchanged variantId patch).2.live)) := by
  unfold promote
  dsimp only
  split
  · exact ⟨rfl, .inl ⟨rfl, rfl⟩⟩
  · next hvalid =>
    have hevidence : evidence ≠ none := by
      rintro rfl
      exact hvalid rfl
    split
    · split
      · next backupId live hpromote => exact ⟨rfl, .inr ⟨rfl, hevidence, backupId, hpromote⟩⟩
      · exact ⟨rfl, .inl ⟨rfl, rfl⟩⟩
    · split <;> exact ⟨rfl, .inl ⟨rfl, rfl⟩⟩

omit [InfFloat64 F] in
theorem promoteOutcome_engine (g : GuardedDgm P F) (evidence : Option EvaluationAttestation) (liveUnchanged : Bool)
    (outcome : StepOutcome F) : (g.promoteOutcome t evidence liveUnchanged outcome).2.engine = g.engine := by
  unfold promoteOutcome
  split
  · split
    · exact (promote_spec ..).1
    · rfl
  · rfl

omit [InfFloat64 F] in
/-- Only what was accepted is promoted: the patch of the variant that the archive has under the id. -/
theorem promoteOutcome_spec {g : GuardedDgm P F} {child : Variant F} {accepted : Bool}
    (hget : accepted = true → g.engine.archive.get child.id = some child) (evidence : Option EvaluationAttestation)
    (liveUnchanged : Bool) (parentId : Option Str) (fitness : Fitness F) :
    let promotion := g.promoteOutcome t evidence liveUnchanged (.evaluated child.id parentId accepted fitness)
    promotion.1 = false ∧ promotion.2.live = g.live
      ∨ promotion.1 = true ∧ accepted = true ∧ evidence ≠ none
        ∧ ∃ backupId, promoteToLive t.digest t.config.workspaceRoot g.live child.patch t.sandbox.backupDirOr
          = .ok (backupId, promotion.2.live) := by
  cases accepted with
  | false => exact .inl ⟨rfl, rfl⟩
  | true =>
    unfold promoteOutcome
    dsimp only
    rw [hget rfl]
    rcases (promote_spec (t := t) g evidence liveUnchanged child.id child.patch).2 with h | ⟨h, hevidence, hpromote⟩
    · exact .inl h
    · exact .inr ⟨h, rfl, hevidence, hpromote⟩

/-! ## One step -/

/-- The state in which the evidence of a step is taken. -/
def taken (g : GuardedDgm P F) (stepped : DgmEngine P F) : GuardedDgm P F :=
  { g with engine := { stepped with attestation := none } }

/-- A step fails and leaves the live tree alone, or it promotes on the evidence of the engine's step. -/
theorem runStep_cases (g : GuardedDgm P F) :
    let stepped := g.engine.step t.digest (guardedAdvisors t) t.evaluator t.config g.live
    ((∃ e, (g.runStep t).1 = .error e) ∧ (g.runStep t).2.live = g.live
        ∧ ((g.runStep t).2.engine = g.engine
          ∨ (∃ e, stepped.1 = .error e) ∧ (g.runStep t).2.engine = stepped.2))
      ∨ ∃ outcome liveUnchanged, stepped.1 = .ok outcome
        ∧ (g.runStep t).1
          = .ok ⟨outcome, ((g.taken stepped.2).promoteOutcome t stepped.2.attestation liveUnchanged outcome).1⟩
        ∧ (g.runStep t).2.live
          = ((g.taken stepped.2).promoteOutcome t stepped.2.attestation liveUnchanged outcome).2.live
        ∧ (g.runStep t).2.engine = { stepped.2 with attestation := none } := by
  dsimp only
  unfold runStep
  cases hsource : t.sourceTreeDigest g.live with
  | error e => exact .inl ⟨⟨e, rfl⟩, rfl, .inl rfl⟩
  | ok liveBefore =>
    dsimp only
    generalize g.engine.step t.digest (guardedAdvisors t) t.evaluator t.config g.live = stepped
    obtain ⟨e | outcome, stepped⟩ := stepped
    · exact .inl ⟨⟨e, rfl⟩, rfl, .inr ⟨⟨e, rfl⟩, rfl⟩⟩
    · dsimp only
      rw [hsource]
      exact .inr ⟨outcome, liveBefore = liveBefore, rfl, rfl, rfl, promoteOutcome_engine ..⟩

/-- A step that measures nothing leaves the archive and the live tree as they were. -/
def Idle (t : DgmParts P F) (g : GuardedDgm P F) : Prop :=
  (g.runStep t).2.engine.archive = g.engine.archive ∧ (g.runStep t).2.engine.nextSeq = g.engine.nextSeq
    ∧ (g.runStep t).2.live = g.live ∧ ¬ g.Promoted t

/-- A step that measures `proposal` against `parent`: promoted, it was accepted and measured on the copy. -/
structure MeasuredStep (t : DgmParts P F) (g : GuardedDgm P F) (parent : Variant F) (proposal : Proposal)
    (fitness : Fitness F) (promoted : Bool) : Prop where
  drawn : (g.engine.archive.selectParent g.engine.rng).1 = some parent
  answer : (g.runStep t).1 = .ok ⟨.evaluated
    (DgmEngine.measuredChild t.digest t.config g.engine parent proposal fitness).id (some parent.id)
    (DgmEngine.acceptable t.config parent fitness) fitness, promoted⟩
  archive : (g.runStep t).2.engine.archive = (if DgmEngine.acceptable t.config parent fitness then
    g.engine.archive.insert (DgmEngine.measuredChild t.digest t.config g.engine parent proposal fitness)
    else g.engine.archive)
  nextSeq : (g.runStep t).2.engine.nextSeq = g.engine.nextSeq + 1
  live : promoted = false → (g.runStep t).2.live = g.live
  accepted : promoted = true → DgmEngine.acceptable t.config parent fitness = true
  measured : promoted = true →
    ∃ snapshot, applyToSnapshot t.digest t.config.snapshotRoot (copyTree g.live) proposal.patch = .ok snapshot
      ∧ fitness = t.evaluator.fitness snapshot
  promotion : promoted = true → ∃ backupId,
    promoteToLive t.digest t.config.workspaceRoot g.live proposal.patch t.sandbox.backupDirOr
      = .ok (backupId, (g.runStep t).2.live)

theorem runStep_spec {g : GuardedDgm P F} (hg : g.Numbered t) (hdigest : Function.Injective t.digest) :
    (g.runStep t).2.engine.attestation = none
      ∧ (g.Idle t ∨ ∃ parent proposal fitness promoted, g.MeasuredStep t parent proposal fitness promoted) := by
  have hstep := @DgmEngine.step_spec P F _ t.digest (guardedAdvisors t) t.evaluator t.config g.live g.engine
  have hrun := g.runStep_cases (t := t)
  dsimp only at hrun
  generalize g.engine.step t.digest (guardedAdvisors t) t.evaluator t.config g.live = stepped at hstep hrun
  obtain ⟨answer, stepped⟩ := stepped
  rcases hrun with ⟨⟨e, herror⟩, hlive, hengine⟩ | ⟨outcome, liveUnchanged, hanswer, hresult, hlive, hengine⟩
  · -- The step of the engine failed, or it was never made.
    have hidle : ¬ g.Promoted t := by
      rintro ⟨outcome, h⟩
      rw [herror] at h
      cases h
    rcases hengine with hengine | ⟨⟨e', hfailed⟩, hengine⟩
    · rw [hengine]
      exact ⟨hg.noEvidence, .inl ⟨by rw [hengine], by rw [hengine], hlive, hidle⟩⟩
    · rcases hstep with ⟨hasked, -⟩ | ⟨_, _, _, _, hok, -⟩
      · rw [hengine]
        refine ⟨hasked.attestation.trans hg.noEvidence, .inl ⟨?_, ?_, hlive, hidle⟩⟩
        · rw [hengine]
          exact hasked.archive
        · rw [hengine]
          exact hasked.nextSeq
      · rw [hfailed] at hok
        cases hok
  · have hrunArchive : (g.runStep t).2.engine.archive = stepped.archive := by rw [hengine]
    have hrunSeq : (g.runStep t).2.engine.nextSeq = stepped.nextSeq := by rw [hengine]
    refine ⟨by rw [hengine], ?_⟩
    rcases hstep with ⟨hasked, hnone | ⟨e, hfailed⟩⟩
      | ⟨parent, proposal, fitness, hdrawn, hok, harchive, hseq, hmeasures⟩
    · rw [hnone] at hanswer
      cases hanswer
      refine .inl ⟨hrunArchive.trans hasked.archive, hrunSeq.trans hasked.nextSeq, hlive, ?_⟩
      rintro ⟨outcome, h⟩
      rw [hresult] at h
      cases h
    · rw [hfailed] at hanswer
      cases hanswer
    · rw [hok] at hanswer
      cases hanswer
      have hget : DgmEngine.acceptable t.config parent fitness = true → (g.taken stepped).engine.archive.get
          (DgmEngine.measuredChild t.digest t.config g.engine parent proposal fitness).id
          = some (DgmEngine.measuredChild t.digest t.config g.engine parent proposal fitness) := by
        intro haccepted
        show stepped.archive.get _ = _
        rw [harchive, haccepted, if_pos rfl]
        exact get_insert fun v hv => child_id_ne hg hdigest (Archive.mem_selectParent hdrawn) proposal fitness hv
      have hpromotion := promoteOutcome_spec (t := t) hget stepped.attestation liveUnchanged (some parent.id) fitness
      dsimp only at hpromotion
      rw [← hlive] at hpromotion
      rcases hpromotion with ⟨hfalse, hkept⟩ | ⟨htrue, haccepted, hevidence, hpromote⟩
      · rw [hfalse] at hresult
        exact .inr ⟨parent, proposal, fitness, false, hdrawn, hresult, hrunArchive.trans harchive,
          hrunSeq.trans hseq, fun _ => hkept, nofun, nofun, nofun⟩
      · rw [htrue] at hresult
        refine .inr ⟨parent, proposal, fitness, true, hdrawn, hresult, hrunArchive.trans harchive,
          hrunSeq.trans hseq, nofun, fun _ => haccepted, fun _ => ?_, fun _ => hpromote⟩
        rcases hmeasures with hsame | hmeasured
        · exact absurd (hsame.trans hg.noEvidence) hevidence
        · exact hmeasured

/-- A step keeps the invariant. -/
theorem runStep_numbered {g : GuardedDgm P F} (hg : g.Numbered t) (hdigest : Function.Injective t.digest) :
    (g.runStep t).2.Numbered t := by
  obtain ⟨hnone, ⟨harchive, hseq, -, -⟩ | ⟨parent, proposal, fitness, promoted, h⟩⟩ := runStep_spec hg hdigest
  · refine ⟨hnone, ?_, ?_, ?_⟩
    · rw [harchive]
      exact hg.id_eq
    · rw [harchive]
      exact hg.bar_not_mem
    · rw [harchive, hseq]
      exact hg.seq_lt
  · refine numbered_insert hg (Archive.mem_selectParent h.drawn) proposal fitness hnone h.nextSeq ?_
    rw [h.archive]
    split
    · exact .inr rfl
    · exact .inl rfl

theorem after_numbered {g : GuardedDgm P F} (hg : g.Numbered t) (hdigest : Function.Injective t.digest) (n : Nat) :
    (g.after t n).Numbered t := by
  induction n with
  | zero => exact hg
  | succ n ih => exact runStep_numbered ih hdigest

/-! ## Whole runs -/

/-- The fitness of a tree is that of its sources. -/
def OnlySources (t : DgmParts P F) : Prop :=
  ∀ a b, SameSource t.sandbox.backupDirOr a b → t.evaluator.fitness a = t.evaluator.fitness b

def FiniteScores (t : DgmParts P F) : Prop := ∀ tree, Float64.isFinite (t.evaluator.fitness tree).score = true

/-- The step that the run rests on: drawn against a parent that is not behind, a promotion improves the tree. -/
theorem runStep_holds [OrderedScore F] {g : GuardedDgm P F} (hg : g.Numbered t)
    (hdigest : Function.Injective t.digest) (hfinite : FiniteScores t) (hsources : OnlySources t)
    (hfair : g.FairParent t) : g.StepHolds t := by
  obtain ⟨-, ⟨-, -, hlive, hidle⟩ | ⟨parent, proposal, fitness, promoted, h⟩⟩ := runStep_spec hg hdigest
  · exact ⟨fun hpromoted => absurd hpromoted hidle, fun _ => hlive⟩
  · cases promoted with
    | false =>
      refine ⟨?_, fun _ => h.live rfl⟩
      rintro ⟨outcome, hpromoted⟩
      rw [h.answer] at hpromoted
      cases hpromoted
    | true =>
      refine ⟨fun _ => ?_, fun hnot => absurd ⟨_, h.answer⟩ hnot⟩
      have haccepted := h.accepted rfl
      obtain ⟨snapshot, hsnapshot, hfitness⟩ := h.measured rfl
      obtain ⟨backupId, hpromote⟩ := h.promotion rfl
      obtain ⟨backupId', live', hpromote', hpatched, hsame⟩ := @promoteToLive_of_applyToSnapshot _ _
        t.config.workspaceRoot _ _ _ t.sandbox.backupDirOr hsnapshot
      rw [hpromote] at hpromote'
      cases hpromote'
      have hlive : t.evaluator.fitness (copyTree (g.runStep t).2.live) = fitness := by
        rw [hfitness]
        exact hsources _ _ hsame
      refine ⟨_, fitness, haccepted ▸ h.answer, ⟨?_, rfl, snapshot, hsnapshot, hfitness.symm⟩, hpatched, hlive, ?_⟩
      · rw [h.archive, if_pos haccepted]
      · refine Fitness.isBetterThan_of_not (hfinite _) (hfair parent h.drawn) ?_
        unfold DgmEngine.acceptable at haccepted
        simp only [Bool.and_eq_true] at haccepted
        exact haccepted.1.2

/-- In a run whose every step draws a parent that is not behind the live tree, no promotion makes it worse. -/
theorem promotions_improve [OrderedScore F] (t : DgmParts P F) (hdigest : Function.Injective t.digest)
    (hfinite : FiniteScores t) (hsources : OnlySources t) (state : P) (seed : UInt64) (live : Tree) (steps : Nat)
    (hfair : ∀ n < steps, ((start t state seed live).after t n).FairParent t) :
    ∀ n < steps, ((start t state seed live).after t n).StepHolds t := by
  intro n hn
  exact runStep_holds (after_numbered (start_numbered state seed live) hdigest n) hdigest hfinite hsources
    (hfair n hn)

end GuardedDgm

end Runs

/-! ## A run that goes down -/

namespace LevelRun

instance : OrderedScore ℚ where
  gt_of_gt a b c _ hab hcb := by
    have hiff : ∀ x y : ℚ, Scalar.gt x y = true ↔ y < x := by
      intro x y
      show (some (compare x y) == some .gt) = true ↔ _
      rw [beq_iff_eq, Option.some_inj, compare_gt_iff_gt]
    rw [hiff] at hcb ⊢
    have hab' : ¬ b < a := by
      rw [← hiff, hab]
      exact Bool.false_ne_true
    exact lt_of_le_of_lt (not_lt.mp hab') hcb

def levelPath : Path := ["level.txt".toList]

def level (tree : Tree) : ℚ :=
  match tree levelPath with
  | some [48] => 0
  | some [49] => 1
  | some [50] => 2
  | _ => 0

/-- Zero is raised to two, and anything else is set to one. -/
def advise (context : ImprovementContext ℚ) : Except DgmError (Option Proposal) :=
  if context.workspace levelPath = some [48] then .ok (some ⟨⟨"level.txt".toList, ['0'], ['2']⟩, "two".toList⟩)
  else .ok (some ⟨⟨"level.txt".toList, ['2'], ['1']⟩, "one".toList⟩)

def parts : DgmParts Unit ℚ where
  digest := id
  sha256 := id
  sourceTreeDigest tree := .ok (lowerHex ((tree levelPath).getD []))
  sanitize := id
  advisors := { propose := fun _ context rng => (advise context, (), rng), predict := none }
  evaluator := {
    fitness := fun tree => ⟨true, 0, 0, level tree, []⟩
    attestation := fun tree =>
      let digest := lowerHex ((tree levelPath).getD [])
      ⟨digest, digest, "sandbox".toList⟩ }
  config := ⟨"live".toList, "copy".toList, "raise the level".toList, true, 8, 0, 0⟩
  sandbox := ⟨["level.txt".toList], [], none⟩

def live : Tree := fun path => if path = levelPath then some [48] else none

def run (n : Nat) : GuardedDgm Unit ℚ := (GuardedDgm.start parts () 7 live).after parts n

theorem levelPath_not_backup : ¬ IsBackup parts.sandbox.backupDirOr levelPath := by
  rintro (h | ⟨dir, hdir, h⟩)
  · exact absurd h (by decide)
  · cases hdir
    exact absurd h (by decide)

theorem parts_onlySources : GuardedDgm.OnlySources parts := by
  intro a b hab
  show (⟨true, 0, 0, level a, []⟩ : Fitness ℚ) = ⟨true, 0, 0, level b, []⟩
  unfold level
  rw [hab levelPath levelPath_not_backup]

example : level live = 0 := by decide +kernel

theorem first_fair : ∀ n < 1, (run n).FairParent parts := by
  intro n hn parent hparent
  obtain rfl : n = 0 := by omega
  have hall : ((run 0).engine.archive.selectParent (run 0).engine.rng).1.all (fun parent =>
      !(parts.evaluator.fitness (copyTree (run 0).live)).isBetterThan (DgmEngine.parentFitness parent)) = true := by
    decide +kernel
  rw [hparent] at hall
  simpa using hall

theorem first_improves : (run 0).StepHolds parts ∧ level (run 1).live = 2 :=
  ⟨GuardedDgm.promotions_improve parts Function.injective_id (fun _ => rfl) parts_onlySources () 7 live 1 first_fair
    0 Nat.one_pos, by decide +kernel⟩

/-- The second step branches from the baseline again: one beats the stored zero, and replaces the live two. -/
theorem promotes_a_worse_tree : ¬ ∀ (t : DgmParts Unit ℚ) (state : Unit) (seed : UInt64) (live : Tree),
    Function.Injective t.digest → GuardedDgm.FiniteScores t → GuardedDgm.OnlySources t →
    (∀ tree, (t.evaluator.attestation tree).sourceBefore = (t.evaluator.attestation tree).sourceAfter
      ∧ (t.evaluator.attestation tree).sandboxIdentity ≠ []) →
    ∀ n, ((GuardedDgm.start t state seed live).after t n).StepHolds t := by
  intro h
  have hstep : (run 1).StepHolds parts := h parts () 7 live Function.injective_id (fun _ => rfl) parts_onlySources
    (fun _ => ⟨rfl, List.cons_ne_nil _ _⟩) 1
  have hpromoted : (((run 1).runStep parts).1.toOption.map (·.promoted)) = some true := by decide +kernel
  have hlevels : level (copyTree (run 1).live) = 2 ∧ level (copyTree ((run 1).runStep parts).2.live) = 1 := by
    decide +kernel
  have hsome : (run 1).Promoted parts := by
    unfold GuardedDgm.Promoted
    cases hrun : ((run 1).runStep parts).1 with
    | error e =>
      rw [hrun] at hpromoted
      cases hpromoted
    | ok r =>
      rw [hrun] at hpromoted
      exact ⟨r.outcome, congrArg Except.ok (by cases r; cases hpromoted; rfl)⟩
  obtain ⟨child, fitness, -, -, -, hfitness, hbetter⟩ := hstep.1 hsome
  rw [← hfitness] at hbetter
  have hworse : ¬ (⟨true, 0, 0, 1, []⟩ : Fitness ℚ).isBetterThan ⟨true, 0, 0, 2, []⟩ = true := by decide
  refine hworse ?_
  rw [← hlevels.1, ← hlevels.2]
  exact hbetter

end LevelRun

end Ccos
