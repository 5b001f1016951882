import Ccos.Dgm.Measured
import Ccos.Lib.Runs

/-!
# The engine with any roles

The proposer, the predictor and the evaluator answer as they like, and a copy of the workspace may fail. A step
is an attempt, which may measure a proposal, and the decision on what it measured.
-/

open ByteCodec

namespace Ccos

/-- The roles of an engine, with whatever state `P` their answers depend on. -/
structure Roles (P F : Type) where
  advisors : Advisors P F
  /-- What keeps `WorkspaceSnapshot::create` from making its copy. -/
  snapshotError : P → Option DgmError
  evaluate : P → Tree → Except DgmError (Fitness F) × P

/-- An evaluator that always answers, and always the same. -/
def Roles.deterministic {P F : Type} (advisors : Advisors P F) (evaluator : PromotionEvaluator F) : Roles P F where
  advisors := advisors
  snapshotError _ := none
  evaluate state tree := (.ok (evaluator.fitness tree), state)

/-- What a step measured, and the parent that it drew. -/
structure Attempt (F : Type) where
  parent : Variant F
  proposal : Proposal
  fitness : Fitness F

section Engine

variable {P F : Type} [InfFloat64 F] (digest : Bytes → Bytes) (roles : Roles P F) (config : DgmConfig F)

namespace DgmEngine

section Step

variable (workspace : Tree)

def evaluateWith (s : DgmEngine P F) (patch : Patch) : Except DgmError (Fitness F) × DgmEngine P F :=
  match roles.snapshotError s.advisors with
  | some e => (.error e, s)
  | none =>
    match applyToSnapshot digest config.snapshotRoot (copyTree workspace) patch with
    | .error e => (.ok (.broken ("patch did not apply: ".toList ++ e.display)), s)
    | .ok snapshot =>
      let answer := roles.evaluate s.advisors snapshot
      (answer.1, { s with advisors := answer.2 })

def measureWith (s : DgmEngine P F) (patch : Patch) (pred : Option Prediction) : Fitness F × DgmEngine P F :=
  if predIsBroken pred then
    (.broken "prescreen: prédit cassé (build évité)".toList, { s with prescreenSkips := s.prescreenSkips + 1 })
  else
    let answer := s.evaluateWith digest roles config workspace patch
    match answer.1 with
    | .ok fitness => (fitness, answer.2)
    | .error e => (.broken ("could not evaluate: ".toList ++ e.display), answer.2)

/-- The step up to the measurement: the parent, the proposal with its revisions, and the fitness. -/
def attempt (s : DgmEngine P F) : Except DgmError (Option (Attempt F)) × DgmEngine P F :=
  let selected := s.archive.selectParent s.rng
  let s := { s with rng := selected.2 }
  match selected.1 with
  | none => (.ok none, s)
  | some parent =>
    let rejections := s.recentRejections
    let answer := s.proposeWith roles.advisors config workspace parent rejections []
    match answer.1 with
    | .error e => (.error e, answer.2)
    | .ok proposed =>
      match useful proposed with
      | none => (.ok none, answer.2)
      | some proposal =>
        let predicted := answer.2.predictPatch roles.advisors workspace proposal.patch
        let revised := reviseFrom roles.advisors config workspace parent rejections config.simulatedRevisions []
          proposal predicted.1 predicted.2
        match revised.1 with
        | .error e => (.error e, revised.2)
        | .ok (proposal, pred) =>
          let measured := revised.2.measureWith digest roles config workspace proposal.patch pred
          (.ok (some ⟨parent, proposal, measured.1⟩), measured.2)

def stepWith (s : DgmEngine P F) : Except DgmError (StepOutcome F) × DgmEngine P F :=
  let tried := s.attempt digest roles config workspace
  match tried.1 with
  | .error e => (.error e, tried.2)
  | .ok none => tried.2.record .noProposal
  | .ok (some t) => tried.2.conclude digest config t.parent t.proposal t.fitness

end Step

def stepped (s : DgmEngine P F) (workspace : Tree) : DgmEngine P F := (s.stepWith digest roles config workspace).2

/-- A new engine on an archive that holds the baseline. -/
def onRoot (baseline : Fitness F) (state : P) (seed : UInt64) : DgmEngine P F :=
  .new (.withRoot digest baseline) state seed

end DgmEngine

end Engine

/-! ## What a step does -/

namespace DgmEngine

variable {P F : Type} [InfFloat64 F] {digest : Bytes → Bytes} {roles : Roles P F} {config : DgmConfig F}
  {workspace : Tree}

theorem evaluateWith_asked (s : DgmEngine P F) (patch : Patch) :
    Asked s (s.evaluateWith digest roles config workspace patch).2 := by
  unfold evaluateWith
  split
  · exact .refl s
  · split
    · exact .refl s
    · exact ⟨rfl, rfl, rfl⟩

theorem measureWith_asked (s : DgmEngine P F) (patch : Patch) (pred : Option Prediction) :
    Asked s (s.measureWith digest roles config workspace patch pred).2 := by
  unfold measureWith
  split
  · exact ⟨rfl, rfl, rfl⟩
  · dsimp only
    split <;> exact evaluateWith_asked s patch

/-- An attempt leaves the archive and the counter alone, and what it measured branches from the archive. -/
theorem attempt_spec (s : DgmEngine P F) : Asked s (s.attempt digest roles config workspace).2 ∧
    ∀ t, (s.attempt digest roles config workspace).1 = .ok (some t) → t.parent ∈ s.archive.variants := by
  unfold attempt
  dsimp only
  have hdrawn : Asked s { s with rng := (s.archive.selectParent s.rng).2 } := ⟨rfl, rfl, rfl⟩
  cases hparent : (s.archive.selectParent s.rng).1 with
  | none => exact ⟨hdrawn, nofun⟩
  | some parent =>
    dsimp only
    have hproposed : Asked s (DgmEngine.proposeWith roles.advisors config workspace
        { s with rng := (s.archive.selectParent s.rng).2 } parent s.recentRejections []).2 :=
      hdrawn.trans (proposeWith_asked _ _ _ _)
    generalize DgmEngine.proposeWith roles.advisors config workspace
      { s with rng := (s.archive.selectParent s.rng).2 } parent s.recentRejections [] = answer at hproposed ⊢
    obtain ⟨e | proposed, asked⟩ := answer
    · exact ⟨hproposed, nofun⟩
    · dsimp only
      cases useful proposed with
      | none => exact ⟨hproposed, nofun⟩
      | some proposal =>
        dsimp only
        have hrevised : Asked s (reviseFrom roles.advisors config workspace parent s.recentRejections
            config.simulatedRevisions [] proposal (asked.predictPatch roles.advisors workspace proposal.patch).1
            (asked.predictPatch roles.advisors workspace proposal.patch).2).2 :=
          (hproposed.trans (predictPatch_asked _ _)).trans (reviseFrom_asked _ _ _ _ _ _ _)
        generalize reviseFrom roles.advisors config workspace parent s.recentRejections config.simulatedRevisions []
          proposal (asked.predictPatch roles.advisors workspace proposal.patch).1
          (asked.predictPatch roles.advisors workspace proposal.patch).2 = revised at hrevised ⊢
        obtain ⟨e | ⟨last, pred⟩, revised⟩ := revised
        · exact ⟨hrevised, nofun⟩
        · refine ⟨hrevised.trans (measureWith_asked _ _ _), ?_⟩
          rintro t h
          cases h
          exact Archive.mem_selectParent hparent

/-- A step measures nothing, or it decides on what was measured against a variant of the archive. -/
theorem stepped_cases (digest : Bytes → Bytes) (roles : Roles P F) (config : DgmConfig F) (s : DgmEngine P F)
    (workspace : Tree) :
    ((∀ t, (s.attempt digest roles config workspace).1 ≠ .ok (some t))
        ∧ (s.stepped digest roles config workspace).archive = s.archive
        ∧ (s.stepped digest roles config workspace).nextSeq = s.nextSeq)
      ∨ ∃ t, (s.attempt digest roles config workspace).1 = .ok (some t) ∧ t.parent ∈ s.archive.variants
        ∧ (s.stepped digest roles config workspace).archive = (if acceptable config t.parent t.fitness then
            s.archive.insert (measuredChild digest config s t.parent t.proposal t.fitness) else s.archive)
        ∧ (s.stepped digest roles config workspace).nextSeq = s.nextSeq + 1 := by
  obtain ⟨hasked, hmem⟩ := @attempt_spec P F _ digest roles config workspace s
  unfold stepped stepWith
  generalize s.attempt digest roles config workspace = tried at hasked hmem ⊢
  obtain ⟨e | none | t, tried⟩ := tried
  · exact .inl ⟨nofun, hasked.archive, hasked.nextSeq⟩
  · exact .inl ⟨nofun, hasked.archive, hasked.nextSeq⟩
  · obtain ⟨-, harchive, hseq, -⟩ := @conclude_eq P F _ digest config tried t.parent t.proposal t.fitness
    dsimp only at hasked
    have hchild : measuredChild digest config tried t.parent t.proposal t.fitness
        = measuredChild digest config s t.parent t.proposal t.fitness := by
      unfold measuredChild
      rw [hasked.nextSeq]
    rw [hchild, hasked.archive] at harchive
    exact .inr ⟨t, rfl, hmem t rfl, harchive, hseq.trans (congrArg (· + 1) hasked.nextSeq)⟩

/-- What an accepted candidate does to a property of the archive decides what the step does to it. -/
theorem stepped_iff {Q : Archive F → Prop} {C : Attempt F → Prop} {s : DgmEngine P F} (hs : Q s.archive)
    (hinsert : ∀ t, t.parent ∈ s.archive.variants → acceptable config t.parent t.fitness = true →
      (Q (s.archive.insert (measuredChild digest config s t.parent t.proposal t.fitness)) ↔ C t)) :
    Q (s.stepped digest roles config workspace).archive ↔
      ∀ t, (s.attempt digest roles config workspace).1 = .ok (some t) →
        acceptable config t.parent t.fitness = true → C t := by
  rcases stepped_cases digest roles config s workspace with ⟨hidle, harchive, -⟩ | ⟨t, htried, hparent, harchive, -⟩
  · rw [harchive]
    exact iff_of_true hs fun t h => absurd h (hidle t)
  · rw [harchive, htried]
    simp only [Except.ok.injEq, Option.some.injEq, forall_eq']
    cases haccepted : acceptable config t.parent t.fitness with
    | false =>
      rw [if_neg Bool.false_ne_true]
      exact iff_of_true hs nofun
    | true =>
      rw [if_pos rfl, hinsert t hparent haccepted]
      exact (imp_iff_right rfl).symm

/-! ## A deterministic evaluator -/

theorem measureWith_deterministic {advisors : Advisors P F} {evaluator : PromotionEvaluator F} (s : DgmEngine P F)
    (patch : Patch) (pred : Option Prediction) :
    let measured := s.measure digest evaluator config workspace patch pred
    s.measureWith digest (.deterministic advisors evaluator) config workspace patch pred
      = (measured.1, { measured.2 with attestation := s.attestation }) := by
  dsimp only
  unfold measureWith measure evaluateWith evaluateCandidate
  split
  · rfl
  · cases applyToSnapshot digest config.snapshotRoot (copyTree workspace) patch <;> rfl

/-- But for the evidence, the step with a deterministic evaluator is one of these steps. -/
theorem stepWith_deterministic (advisors : Advisors P F) (evaluator : PromotionEvaluator F) (s : DgmEngine P F) :
    let stepped := s.step digest advisors evaluator config workspace
    s.stepWith digest (.deterministic advisors evaluator) config workspace
      = (stepped.1, { stepped.2 with attestation := s.attestation }) := by
  dsimp only
  unfold stepWith attempt step
  dsimp only [Roles.deterministic]
  cases (s.archive.selectParent s.rng).1 with
  | none => rfl
  | some parent =>
    dsimp only
    have hproposed : (DgmEngine.proposeWith advisors config workspace
      { s with rng := (s.archive.selectParent s.rng).2 } parent s.recentRejections []).2.attestation
        = s.attestation := rfl
    generalize DgmEngine.proposeWith advisors config workspace { s with rng := (s.archive.selectParent s.rng).2 }
      parent s.recentRejections [] = answer at hproposed ⊢
    obtain ⟨e | proposed, asked⟩ := answer
    · rw [← hproposed]
    · dsimp only
      cases useful proposed with
      | none =>
        rw [← hproposed]
        rfl
      | some proposal =>
        dsimp only at hproposed ⊢
        have hrevised : (reviseFrom advisors config workspace parent s.recentRejections
            config.simulatedRevisions [] proposal (asked.predictPatch advisors workspace proposal.patch).1
            (asked.predictPatch advisors workspace proposal.patch).2).2.attestation = s.attestation :=
          ((predictPatch_asked _ _).trans (reviseFrom_asked _ _ _ _ _ _ _)).attestation.trans hproposed
        generalize reviseFrom advisors config workspace parent s.recentRejections config.simulatedRevisions [] proposal
          (asked.predictPatch advisors workspace proposal.patch).1
          (asked.predictPatch advisors workspace proposal.patch).2 = revised at hrevised ⊢
        obtain ⟨e | ⟨last, pred⟩, revised⟩ := revised
        · rw [← hrevised]
        · have hmeasured := @measureWith_deterministic P F _ digest config workspace advisors evaluator revised
            last.patch pred
          dsimp only [Roles.deterministic] at hmeasured hrevised ⊢
          rw [hmeasured, ← hrevised]
          unfold conclude record rememberRejection
          dsimp only
          split <;> rfl

end DgmEngine

end Ccos
