import Mathlib.Data.List.Forall2

/-!
# Calls that may stop

A call returns a value or stops for a reason. `Meets` says what holds of the value when it returns, and
which reasons for stopping are accepted.
-/

namespace Outcome

variable {ε α β : Type} {accepted : ε → Prop}

/-- The call returns a value with `post`, or stops for an accepted reason. -/
def Meets (accepted : ε → Prop) (r : Except ε α) (post : α → Prop) : Prop :=
  match r with
  | .ok a => post a
  | .error e => accepted e

theorem Meets.mono {r : Except ε α} {P Q : α → Prop} (h : Meets accepted r P) (imp : ∀ a, P a → Q a) :
    Meets accepted r Q := by
  cases r with
  | ok a => exact imp a h
  | error e => exact h

theorem meets_pure {a : α} {P : α → Prop} (h : P a) : Meets accepted (pure a : Except ε α) P := h

/-- What the first call leaves is what the second one starts from. -/
theorem meets_bind {r : Except ε α} {f : α → Except ε β} {P : α → Prop} {Q : β → Prop} (hr : Meets accepted r P)
    (hf : ∀ a, P a → Meets accepted (f a) Q) : Meets accepted (r >>= f) Q := by
  cases r with
  | ok a => exact hf a hr
  | error e => exact hr

/-- The loop rule: `I` relates what a loop has done to the state it has reached. -/
theorem meets_foldlM {I : List α → β → Prop} {f : β → α → Except ε β} {l : List α} {b : β} (start : I [] b)
    (keep : ∀ done x b, x ∈ l → I done b → Meets accepted (f b x) (I (done ++ [x]))) :
    Meets accepted (l.foldlM f b) (I l) := by
  suffices h : ∀ (todo done : List α) (b : β), (∀ x ∈ todo, x ∈ l) → I done b →
      Meets accepted (todo.foldlM f b) (I (done ++ todo)) from h l [] b (fun _ hx => hx) start
  intro todo
  induction todo with
  | nil =>
    intro done b _ hb
    rw [List.foldlM_nil, List.append_nil]
    exact meets_pure hb
  | cons x todo ih =>
    intro done b htodo hb
    obtain ⟨hx, htodo⟩ := List.forall_mem_cons.mp htodo
    rw [List.foldlM_cons]
    refine meets_bind (keep done x b hx hb) fun c hc => ?_
    have hrest := ih (done ++ [x]) c htodo hc
    rwa [List.append_assoc, List.singleton_append] at hrest

theorem mapM_of_ok {f : α → Except ε β} {g : α → β} {l : List α} (h : ∀ x ∈ l, f x = .ok (g x)) :
    l.mapM f = .ok (l.map g) := by
  induction l with
  | nil => rfl
  | cons x l ih =>
    obtain ⟨hx, hl⟩ := List.forall_mem_cons.mp h
    rw [List.mapM_cons, hx, ih hl]
    rfl

/-- The results of a mapped call are those of its elements. -/
theorem mapM_eq_ok {f : α → Except ε β} {l : List α} {bs : List β} :
    l.mapM f = .ok bs ↔ List.Forall₂ (fun a b => f a = .ok b) l bs := by
  induction l generalizing bs with
  | nil =>
    rw [List.mapM_nil, List.forall₂_nil_left_iff]
    constructor
    · intro h
      exact (Except.ok.inj h).symm
    · rintro rfl
      rfl
  | cons a l ih =>
    rw [List.mapM_cons]
    cases ha : f a with
    | error e =>
      constructor
      · intro h
        cases h
      · intro h
        cases h with
        | cons hb hrest =>
          rw [ha] at hb
          cases hb
    | ok b =>
      constructor
      · intro h
        cases hl : l.mapM f with
        | error e =>
          rw [hl] at h
          cases h
        | ok bs' =>
          rw [hl] at h
          obtain rfl := Except.ok.inj h
          exact .cons ha (ih.mp hl)
      · intro h
        cases h with
        | cons hb hrest =>
          rw [ha] at hb
          obtain rfl := Except.ok.inj hb
          rw [ih.mpr hrest]
          rfl

theorem mapM_isOk_iff {f : α → Except ε β} {l : List α} :
    (∃ bs, l.mapM f = .ok bs) ↔ ∀ a ∈ l, ∃ b, f a = .ok b := by
  simp only [mapM_eq_ok]
  induction l with
  | nil => simp
  | cons a l ih =>
    rw [List.forall_mem_cons, ← ih]
    constructor
    · rintro ⟨bs, h⟩
      cases h with
      | cons hb hrest => exact ⟨⟨_, hb⟩, _, hrest⟩
    · rintro ⟨⟨b, hb⟩, bs, hrest⟩
      exact ⟨b :: bs, .cons hb hrest⟩

end Outcome
