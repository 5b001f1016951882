import Ccos.Dgm.Engine

/-!
# The guarded engine

The allowlist stands before every evaluation, and an accepted patch is promoted to the live tree on evidence.
-/

open ByteCodec

namespace Ccos

structure GuardedDgmConfig where
  editableAllowlist : List Str
  highRiskAllowlist : List Str
  backupDir : Option BackupDir
  deriving Repr

def normalizeRelativeTarget (target : Str) : Option Str := (relativeTarget target).map fun _ => target

def isHighRiskTarget (target : Str) : Bool :=
  let name := ((relativeTarget target).bind (·.getLast?)).getD []
  ["Cargo.toml".toList, "Cargo.lock".toList, "build.rs".toList].contains name
    || startsWith ".cargo/".toList target || startsWith ".github/workflows/".toList target
    || target = "src/rsi_bridge.rs".toList

def GuardedDgmConfig.isEditable (sandbox : GuardedDgmConfig) (target : Str) : Bool :=
  match normalizeRelativeTarget target with
  | none => false
  | some target =>
    (sandbox.editableAllowlist.filterMap normalizeRelativeTarget).contains target
      && (!isHighRiskTarget target
        || (sandbox.highRiskAllowlist.filterMap normalizeRelativeTarget).contains target)

def GuardedDgmConfig.backupDirOr (sandbox : GuardedDgmConfig) : BackupDir :=
  sandbox.backupDir.getD defaultBackups

/-- What one step leaves in the event log. -/
inductive DgmAuditEvent (F : Type)
  | custom (key value : Str)
  | graphMutation (nodeId operation : Str)
  | rsiMutation (variantId parentId patchTarget patchFindHash patchReplaceHash : Str) (compiles : Bool)
      (testsPassed testsFailed : UInt32) (score : F) (accepted promoted : Bool)
  deriving DecidableEq, Repr

structure GuardedStepOutcome (F : Type) where
  outcome : StepOutcome F
  promoted : Bool
  deriving DecidableEq, Repr

/-- What a guarded engine is built from. `digest` is the first half of a hash and `sha256` the whole. -/
structure DgmParts (P F : Type) where
  digest : Bytes → Bytes
  sha256 : Bytes → Bytes
  sourceTreeDigest : Tree → Except DgmError Str
  sanitize : Str → Str
  advisors : Advisors P F
  evaluator : PromotionEvaluator F
  config : DgmConfig F
  sandbox : GuardedDgmConfig

/-- The engine, the live tree that it works on, and the log. -/
structure GuardedDgm (P F : Type) where
  engine : DgmEngine P F
  live : Tree
  audit : List (DgmAuditEvent F)

section Guarded

variable {P F : Type} [InfFloat64 F] (t : DgmParts P F)

/-- `GuardedProposer::propose`: what may not be edited is refused, and the rationale is sanitized. -/
def guardProposal (answer : Except DgmError (Option Proposal)) : Except DgmError (Option Proposal) := do
  match ← answer with
  | none => return none
  | some p =>
    if !t.sandbox.isEditable p.patch.target then .error (.pathNotAllowed p.patch.target)
    else return some { p with rationale := t.sanitize p.rationale }

def guardedAdvisors : Advisors P F where
  propose state context rng :=
    let answer := t.advisors.propose state context rng
    (guardProposal t answer.1, answer.2)
  predict := t.advisors.predict

namespace GuardedDgm

/-- A guarded engine over a live tree whose fitness is the root of the archive. -/
def start (state : P) (seed : UInt64) (live : Tree) : GuardedDgm P F where
  engine := .new (.withRoot t.digest (t.evaluator.fitness (copyTree live))) state seed
  live := live
  audit := []

def log (g : GuardedDgm P F) (event : DgmAuditEvent F) : GuardedDgm P F := { g with audit := g.audit ++ [event] }

def boolStr (b : Bool) : Str := if b then "true".toList else "false".toList

/-- An accepted variant is promoted when the evidence holds and its target may be edited. -/
def promote (g : GuardedDgm P F) (evidence : Option EvaluationAttestation) (liveUnchanged : Bool) (variantId : Str)
    (patch : Patch) : Bool × GuardedDgm P F :=
  let valid := evidence.any fun e =>
    e.sourceBefore = e.sourceAfter && liveUnchanged && !e.sandboxIdentity.isEmpty
  if !valid then
    (false, g.log (.custom "rsi_dgm_promote_blocked_attestation".toList
      ("target=".toList ++ patch.target ++ ";live_unchanged=".toList ++ boolStr liveUnchanged
        ++ ";evidence_present=".toList ++ boolStr evidence.isSome)))
  else if t.sandbox.isEditable patch.target && !patch.isNoop then
    match promoteToLive t.digest t.config.workspaceRoot g.live patch t.sandbox.backupDirOr with
    | .ok (backupId, live) =>
      (true, { g with live }.log (.graphMutation variantId
        ("rsi_dgm_promote:".toList ++ backupId ++ ":eval_source=".toList
          ++ (evidence.map EvaluationAttestation.sourceBefore).getD "missing".toList ++ ":sandbox=".toList
          ++ (evidence.map EvaluationAttestation.sandboxIdentity).getD "missing".toList)))
    | .error e =>
      (false, g.log (.custom "rsi_dgm_promote_refused".toList
        ("target=".toList ++ patch.target ++ ";err=".toList ++ e.display)))
  else if !patch.isNoop then
    (false, g.log (.custom "rsi_dgm_promote_blocked_allowlist".toList patch.target))
  else (false, g)

def promoteOutcome (g : GuardedDgm P F) (evidence : Option EvaluationAttestation) (liveUnchanged : Bool) :
    StepOutcome F → Bool × GuardedDgm P F
  | .evaluated variantId _ true _ =>
    match g.engine.archive.get variantId with
    | some variant => g.promote t evidence liveUnchanged variantId variant.patch
    | none => (false, g)
  | _ => (false, g)

/-- The record of the step, whatever came of it. -/
def mutation (g : GuardedDgm P F) (promoted : Bool) : StepOutcome F → DgmAuditEvent F
  | .evaluated variantId parentId accepted fitness =>
    let patch := (g.engine.archive.get variantId).map (·.patch)
    .rsiMutation variantId (parentId.getD []) ((patch.map (·.target)).getD [])
      ((patch.map fun p => lowerHex (t.sha256 (utf8 p.find))).getD [])
      ((patch.map fun p => lowerHex (t.sha256 (utf8 p.replace))).getD [])
      fitness.compiles fitness.testsPassed fitness.testsFailed fitness.score accepted promoted
  | .noProposal => .rsiMutation [] [] [] [] [] false 0 0 (-InfFloat64.infinity) false promoted

def runStep (g : GuardedDgm P F) : Except DgmError (GuardedStepOutcome F) × GuardedDgm P F :=
  match t.sourceTreeDigest g.live with
  | .error e => (.error e, g)
  | .ok liveBefore =>
    let stepped := g.engine.step t.digest (guardedAdvisors t) t.evaluator t.config g.live
    match stepped.1 with
    | .error e =>
      (.error e, { g with engine := stepped.2 }.log (.custom "rsi_dgm_evaluation_incomplete".toList e.display))
    | .ok outcome =>
      -- The evidence is taken, so that no later step can use it.
      let g := { g with engine := { stepped.2 with attestation := none } }
      match t.sourceTreeDigest g.live with
      | .error e => (.error e, g)
      | .ok liveAfter =>
        let promotion := g.promoteOutcome t stepped.2.attestation (liveBefore = liveAfter) outcome
        (.ok ⟨outcome, promotion.1⟩, promotion.2.log (promotion.2.mutation t promotion.1 outcome))

/-- The state after `n` steps. -/
def after (g : GuardedDgm P F) : Nat → GuardedDgm P F
  | 0 => g
  | n + 1 => ((g.after n).runStep t).2

end GuardedDgm

end Guarded

end Ccos

/-!
## Spellings of a target

A path can be written with a leading dot, with dots between its slashes, or with slashes doubled. The allowlists
and the prefixes of high-risk directories compare texts, so they depend on how a target is written.
-/

namespace Ccos

/-- The components of a relative path, however they are written. -/
def pathOf (target : Str) : Path := (split ['/'] target).filter fun part => part ≠ [] ∧ part ≠ ['.']

def IsRelative (target : Str) : Prop := startsWith ['/'] target = false

instance (target : Str) : Decidable (IsRelative target) := inferInstanceAs (Decidable (_ = _))

/-- A build file, something in a directory of Cargo or of the workflows, or the guard itself. -/
def IsHighRiskPath (path : Path) : Prop :=
  (∃ name ∈ ["Cargo.toml".toList, "Cargo.lock".toList, "build.rs".toList], path.getLast? = some name)
    ∨ (∃ part rest, path = ".cargo".toList :: part :: rest)
    ∨ (∃ part rest, path = ".github".toList :: "workflows".toList :: part :: rest)
    ∨ path = ["src".toList, "rsi_bridge.rs".toList]

theorem split_slash_cons (target : Str) : split ['/'] ('.' :: '/' :: target) = ['.'] :: split ['/'] target := rfl

theorem pathOf_dot (target : Str) : pathOf ('.' :: '/' :: target) = pathOf target := by
  rw [pathOf, split_slash_cons]
  rfl

theorem relativeTarget_dot (target : Str) : relativeTarget ('.' :: '/' :: target) = none := by
  unfold relativeTarget
  rw [split_slash_cons]
  rfl

theorem isRelative_of_relativeTarget {target : Str} (h : (relativeTarget target).isSome = true) :
    IsRelative target := by
  cases target with
  | nil => cases h
  | cons c target =>
    by_cases hc : c = '/'
    · subst hc
      cases h
    · simp [IsRelative, startsWith, List.isPrefixOf, beq_eq_false_iff_ne.mpr (Ne.symm hc)]

namespace GuardedDgmConfig

variable (sandbox : GuardedDgmConfig)

/-- The answer is the same for every spelling of a path. -/
def IgnoresSpelling : Prop :=
  ∀ a b, IsRelative a → IsRelative b → pathOf a = pathOf b → sandbox.isEditable a = sandbox.isEditable b

/-- Some spelling of every high-risk file that may be edited is on the second list. -/
def AsksTwice : Prop :=
  ∀ target, sandbox.isEditable target = true → IsHighRiskPath (pathOf target) →
    ∃ allowed ∈ sandbox.highRiskAllowlist, IsRelative allowed ∧ pathOf allowed = pathOf target

/-- Every entry that is well formed is taken for high-risk, and not on the second list as it is written. -/
def AllowsNothing : Prop :=
  ∀ allowed ∈ sandbox.editableAllowlist, (relativeTarget allowed).isSome = true →
    isHighRiskTarget allowed = true ∧ allowed ∉ sandbox.highRiskAllowlist

/-- Every well-formed entry that denotes a high-risk file is taken for one, or the file is on the second list. -/
def SeesHighRisk : Prop :=
  ∀ allowed ∈ sandbox.editableAllowlist, (relativeTarget allowed).isSome = true → IsHighRiskPath (pathOf allowed) →
    isHighRiskTarget allowed = true
      ∨ ∃ listed ∈ sandbox.highRiskAllowlist, IsRelative listed ∧ pathOf listed = pathOf allowed

variable {sandbox}

theorem mem_normalized {target : Str} (h : (relativeTarget target).isSome = true) (l : List Str) :
    target ∈ l.filterMap normalizeRelativeTarget ↔ target ∈ l := by
  rw [List.mem_filterMap]
  constructor
  · rintro ⟨allowed, hmem, hsame⟩
    obtain ⟨_, -, rfl⟩ := Option.map_eq_some_iff.mp hsame
    exact hmem
  · intro hmem
    obtain ⟨path, hpath⟩ := Option.isSome_iff_exists.mp h
    exact ⟨target, hmem, by rw [normalizeRelativeTarget, hpath]; rfl⟩

theorem isEditable_iff (target : Str) : sandbox.isEditable target = true ↔
    (relativeTarget target).isSome = true ∧ target ∈ sandbox.editableAllowlist ∧
      (isHighRiskTarget target = true → target ∈ sandbox.highRiskAllowlist) := by
  unfold isEditable
  cases h : relativeTarget target with
  | none => simp [normalizeRelativeTarget, h]
  | some path =>
    have hsome : (relativeTarget target).isSome = true := by rw [h]; rfl
    have hnormalized : normalizeRelativeTarget target = some target := by rw [normalizeRelativeTarget, h]; rfl
    rw [hnormalized]
    simp only [Bool.and_eq_true, Bool.or_eq_true, Bool.not_eq_true', List.contains_iff_mem, mem_normalized hsome,
      Option.isSome_some, true_and]
    cases isHighRiskTarget target <;> simp

theorem isEditable_dot (target : Str) : sandbox.isEditable ('.' :: '/' :: target) = false := by
  rw [← Bool.not_eq_true, isEditable_iff, relativeTarget_dot]
  rintro ⟨hnone, -⟩
  cases hnone

/-- What may be edited is refused with a dot before it. -/
theorem ignoresSpelling_iff : sandbox.IgnoresSpelling ↔ sandbox.AllowsNothing := by
  constructor
  · intro h allowed hallowed hrel
    have hrefused : ¬ sandbox.isEditable allowed = true := by
      rw [h allowed ('.' :: '/' :: allowed) (isRelative_of_relativeTarget hrel) rfl (pathOf_dot allowed).symm,
        isEditable_dot]
      decide
    rw [isEditable_iff] at hrefused
    constructor
    · by_contra hlow
      exact hrefused ⟨hrel, hallowed, fun hhigh => absurd hhigh hlow⟩
    · intro hlisted
      exact hrefused ⟨hrel, hallowed, fun _ => hlisted⟩
  · intro h
    have hnone : ∀ target, sandbox.isEditable target = false := by
      intro target
      rw [← Bool.not_eq_true, isEditable_iff]
      rintro ⟨hrel, hallowed, hlisted⟩
      obtain ⟨hhigh, hmissing⟩ := h target hallowed hrel
      exact hmissing (hlisted hhigh)
    intro a b _ _ _
    rw [hnone a, hnone b]

theorem asksTwice_iff : sandbox.AsksTwice ↔ sandbox.SeesHighRisk := by
  constructor
  · intro h allowed hallowed hrel hrisk
    by_cases hhigh : isHighRiskTarget allowed = true
    · exact .inl hhigh
    · have heditable := (isEditable_iff allowed).mpr ⟨hrel, hallowed, fun h => absurd h hhigh⟩
      exact .inr (h allowed heditable hrisk)
  · intro h target heditable hrisk
    obtain ⟨hrel, hallowed, hlisted⟩ := (isEditable_iff target).mp heditable
    rcases h target hallowed hrel hrisk with hhigh | hlisted'
    · exact ⟨target, hlisted hhigh, isRelative_of_relativeTarget hrel, rfl⟩
    · exact hlisted'

/-- The allowlists mind the spelling unless they allow nothing, and a high-risk file needs both lists exactly when
the first list spells it so that the check sees it. -/
theorem spelling_ignored_iff (sandbox : GuardedDgmConfig) :
    (sandbox.IgnoresSpelling ∧ sandbox.AsksTwice ↔ sandbox.AllowsNothing) ∧
      (sandbox.AsksTwice ↔ sandbox.SeesHighRisk) := by
  refine ⟨?_, asksTwice_iff⟩
  rw [ignoresSpelling_iff, asksTwice_iff]
  refine and_iff_left_of_imp fun h allowed hallowed hrel _ => ?_
  exact .inl (h allowed hallowed hrel).1

/-- A workflow behind a doubled slash. -/
def doubledSlash : GuardedDgmConfig where
  editableAllowlist := [".github//workflows/ci.yml".toList, "src/lib.rs".toList]
  highRiskAllowlist := []
  backupDir := none

/-- A dot takes the permission away, and a doubled slash the second question. -/
theorem spelling_decides : ¬ doubledSlash.IgnoresSpelling ∧ ¬ doubledSlash.AsksTwice := by
  constructor
  · intro h
    have hsame := h "src/lib.rs".toList "./src/lib.rs".toList (by decide) (by decide) (by decide)
    revert hsame
    decide
  · intro h
    obtain ⟨_, hnone, -⟩ := h ".github//workflows/ci.yml".toList (by decide)
      (.inr (.inr (.inl ⟨"ci.yml".toList, [], by decide⟩)))
    cases hnone

end GuardedDgmConfig

end Ccos
