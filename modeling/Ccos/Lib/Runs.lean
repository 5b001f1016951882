import Mathlib.Data.List.Basic
import Mathlib.Tactic.Linarith

/-!
# Runs of a step function

A run folds a step function over a list of operations. Properties of runs are about every state
they pass through, and conditions on runs are about every step they take.
-/

namespace Runs

variable {S O : Type} (step : S → O → S)

def run (s : S) (ops : List O) : S := ops.foldl step s

/-- `P` holds in every state the run passes through, the first and the last included. -/
def Throughout (P : S → Prop) : S → List O → Prop
  | s, [] => P s
  | s, op :: ops => P s ∧ Throughout P (step s op) ops

/-- `C` holds at every step, of the state before it and the operation. -/
def EachStep (C : S → O → Prop) : S → List O → Prop
  | _, [] => True
  | s, op :: ops => C s op ∧ EachStep C (step s op) ops

instance decidableEachStep (C : S → O → Prop) [∀ s op, Decidable (C s op)] :
    (s : S) → (ops : List O) → Decidable (EachStep step C s ops)
  | _, [] => .isTrue trivial
  | s, op :: ops =>
    haveI := decidableEachStep C (step s op) ops
    inferInstanceAs (Decidable (C s op ∧ EachStep step C (step s op) ops))

section

variable {step} {P Q : S → Prop} {C : S → O → Prop}

theorem Throughout.start {s : S} {ops : List O} (h : Throughout step P s ops) : P s := by
  cases ops with
  | nil => exact h
  | cons op ops => exact h.1

theorem Throughout.finish {s : S} {ops : List O} (h : Throughout step P s ops) :
    P (run step s ops) := by
  induction ops generalizing s with
  | nil => exact h
  | cons op ops ih => exact ih h.2

/-- The invariant rule: what every allowed step keeps holds throughout. -/
theorem throughout_of_step {s : S} {ops : List O} (start : P s)
    (keep : ∀ s op, P s → C s op → P (step s op)) (allowed : EachStep step C s ops) :
    Throughout step P s ops := by
  induction ops generalizing s with
  | nil => exact start
  | cons op ops ih => exact ⟨start, ih (keep s op start allowed.1) allowed.2⟩

/-- What every step keeps, whatever the operation, a run keeps. -/
theorem run_keeps {s : S} {ops : List O} (start : P s) (keep : ∀ s op, P s → P (step s op)) : P (run step s ops) := by
  induction ops generalizing s with
  | nil => exact start
  | cons op ops ih => exact ih (keep s op start)

/-- The invariant rule for a step that relies on `Q` before and after it. -/
theorem throughout_of_both {s : S} {ops : List O} (start : P s)
    (keep : ∀ s op, P s → Q s → Q (step s op) → P (step s op)) (around : Throughout step Q s ops) :
    Throughout step P s ops := by
  induction ops generalizing s with
  | nil => exact start
  | cons op ops ih =>
    exact ⟨start, ih (keep s op start around.1 around.2.start) around.2⟩

/-- What two neighbouring states imply about the step between them. -/
theorem eachStep_of_throughout {s : S} {ops : List O}
    (between : ∀ s op, P s → P (step s op) → C s op) (h : Throughout step P s ops) :
    EachStep step C s ops := by
  induction ops generalizing s with
  | nil => trivial
  | cons op ops ih => exact ⟨between s op h.1 h.2.start, ih h.2⟩

/-- Over an invariant of the allowed steps, a property that a step keeps exactly when it is allowed holds throughout
exactly when every step is. -/
theorem throughout_iff_eachStep {s : S} {ops : List O} (start : P s) (holds : Q s)
    (keep : ∀ s op, P s → C s op → P (step s op)) (keeps : ∀ s op, P s → Q s → (Q (step s op) ↔ C s op)) :
    Throughout step Q s ops ↔ EachStep step C s ops := by
  induction ops generalizing s with
  | nil => exact iff_of_true holds trivial
  | cons op ops ih =>
    constructor
    · rintro ⟨-, h⟩
      have hop := (keeps s op start holds).mp h.start
      exact ⟨hop, (ih (keep s op start hop) h.start).mp h⟩
    · rintro ⟨hop, h⟩
      have hnext := (keeps s op start holds).mpr hop
      exact ⟨holds, (ih (keep s op start hop) hnext).mpr h⟩

/-- Over an invariant, a run whose steps all lower a measure has no more steps than the measure allows. -/
theorem length_le_of_lowers (measure : S → Nat) {s : S} {ops : List O} (start : P s)
    (keep : ∀ s op, P s → P (step s op)) (lowers : ∀ s op, P s → C s op → measure (step s op) < measure s)
    (allowed : EachStep step C s ops) : ops.length + measure (run step s ops) ≤ measure s := by
  induction ops generalizing s with
  | nil => exact (Nat.zero_add _).le
  | cons op ops ih =>
    have hrest := ih (keep s op start) allowed.2
    have hlower := lowers s op start allowed.1
    rw [List.length_cons]
    change ops.length + 1 + measure (run step (step s op) ops) ≤ measure s
    omega

theorem eachStep_append {s : S} {before after : List O} :
    EachStep step C s (before ++ after) ↔ EachStep step C s before ∧ EachStep step C (run step s before) after := by
  induction before generalizing s with
  | nil => exact (and_iff_right trivial).symm
  | cons op before ih =>
    rw [List.cons_append, EachStep, EachStep, ih, and_assoc]
    rfl

theorem Throughout.imp {s : S} {ops : List O} (h : Throughout step P s ops)
    (imp : ∀ s, P s → Q s) : Throughout step Q s ops := by
  induction ops generalizing s with
  | nil => exact imp s h
  | cons op ops ih => exact ⟨imp s h.1, ih h.2⟩

theorem Throughout.and {s : S} {ops : List O} (hp : Throughout step P s ops)
    (hq : Throughout step Q s ops) : Throughout step (fun s => P s ∧ Q s) s ops := by
  induction ops generalizing s with
  | nil => exact ⟨hp, hq⟩
  | cons op ops ih => exact ⟨⟨hp.1, hq.1⟩, ih hp.2 hq.2⟩

end

/-! ## Steps that may fail -/

section

variable {f : S → O → Option S} {P : S → Prop}

/-- What every step that succeeds keeps, a run that succeeds keeps. -/
theorem foldlM_keeps (keep : ∀ s op t, P s → f s op = some t → P t) {s t : S} {ops : List O}
    (start : P s) (h : ops.foldlM f s = some t) : P t := by
  induction ops generalizing s with
  | nil => exact Option.some.inj h ▸ start
  | cons op ops ih =>
    rw [List.foldlM_cons] at h
    obtain ⟨u, hu, hrest⟩ := Option.bind_eq_some_iff.mp h
    exact ih (keep s op u start hu) hrest

theorem foldlM_append_eq_some {s t : S} {before after : List O} :
    (before ++ after).foldlM f s = some t ↔
      ∃ u, before.foldlM f s = some u ∧ after.foldlM f u = some t := by
  rw [List.foldlM_append]
  exact Option.bind_eq_some_iff

end

end Runs
