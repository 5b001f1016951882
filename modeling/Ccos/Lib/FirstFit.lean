import Mathlib.Data.List.Induction
import Mathlib.Data.Nat.Basic

/-!
# First fit

Costs come one after the other, and each is let in when it still fits. Where only part of what is let in is
charged, the limit may be passed.
-/

namespace Ccos

/-- What is charged after the costs, when each that fits the limit is. -/
def filledFrom (limit : Nat) : Nat → List Nat → Nat
  | used, [] => used
  | used, c :: costs => filledFrom limit (if used + c ≤ limit then used + c else used) costs

def filled (limit : Nat) (costs : List Nat) : Nat := filledFrom limit 0 costs

/-- What a limit lets in while only the budget's share is charged. -/
def letInFrom (budget limit : Nat) : Nat → List Nat → Nat
  | _, [] => 0
  | used, c :: costs =>
    (if used + c ≤ limit then c else 0) +
      letInFrom budget limit (if used + c ≤ budget then used + c else used) costs

def letIn (budget limit : Nat) (costs : List Nat) : Nat := letInFrom budget limit 0 costs

/-- A cost that fits beside what is charged also fits beside all that was let in. -/
def Spared (budget limit : Nat) (costs : List Nat) : Prop :=
  ∀ before c after, costs = before ++ c :: after → filled budget before + c ≤ limit →
    letIn budget limit before + c ≤ limit

variable (budget limit : Nat)

theorem filledFrom_append (used : Nat) (costs costs' : List Nat) :
    filledFrom limit used (costs ++ costs') = filledFrom limit (filledFrom limit used costs) costs' := by
  induction costs generalizing used with
  | nil => rfl
  | cons c costs ih => exact ih _

theorem letInFrom_append (used : Nat) (costs costs' : List Nat) : letInFrom budget limit used (costs ++ costs') =
    letInFrom budget limit used costs + letInFrom budget limit (filledFrom budget used costs) costs' := by
  induction costs generalizing used with
  | nil => exact (Nat.zero_add _).symm
  | cons c costs ih =>
    rw [List.cons_append, letInFrom, ih, letInFrom, filledFrom, Nat.add_assoc]

theorem filled_concat (costs : List Nat) (c : Nat) : filled limit (costs ++ [c]) =
    if filled limit costs + c ≤ limit then filled limit costs + c else filled limit costs :=
  filledFrom_append limit 0 costs [c]

theorem letIn_concat (costs : List Nat) (c : Nat) : letIn budget limit (costs ++ [c]) =
    letIn budget limit costs + if filled budget costs + c ≤ limit then c else 0 :=
  letInFrom_append budget limit 0 costs [c]

theorem filled_le (costs : List Nat) : filled limit costs ≤ limit := by
  induction costs using List.reverseRecOn with
  | nil => exact Nat.zero_le _
  | append_singleton costs c ih =>
    rw [filled_concat]
    split <;> assumption

/-- What is let in counts from the first cost on. -/
theorem letIn_le_append (costs costs' : List Nat) :
    letIn budget limit costs ≤ letIn budget limit (costs ++ costs') := by
  unfold letIn
  rw [letInFrom_append]
  exact Nat.le_add_right _ _

/-- Without a second limit, what is let in is what is charged. -/
theorem letIn_self (costs : List Nat) : letIn budget budget costs = filled budget costs := by
  induction costs using List.reverseRecOn with
  | nil => rfl
  | append_singleton costs c ih =>
    rw [letIn_concat, filled_concat, ih]
    split <;> rfl

theorem spared_iff (costs : List Nat) : Spared budget limit costs ↔ letIn budget limit costs ≤ limit := by
  constructor
  · intro h
    induction costs using List.reverseRecOn with
    | nil => exact Nat.zero_le _
    | append_singleton costs c ih =>
      have hcosts : Spared budget limit costs := fun before d after heq hfits =>
        h before d (after ++ [c]) (by rw [heq, List.append_assoc, List.cons_append]) hfits
      rw [letIn_concat]
      split
      · exact h costs c [] rfl ‹_›
      · exact ih hcosts
  · rintro h before c after rfl hfits
    have hle := letIn_le_append budget limit (before ++ [c]) after
    rw [letIn_concat, if_pos hfits, List.append_assoc, List.singleton_append] at hle
    exact Nat.le_trans hle h

end Ccos
