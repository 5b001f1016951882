import Mathlib.Data.List.TakeWhile

/-!
# Stretches of a list

A stretch is a longest run of items that are inside. Whether the stretch of an item holds some other item is
read off the list before it, backwards, and the list behind it. A rewriting that puts outside items between
its pieces can only cut stretches; one that drops items can join them, to stretches of a wider kind.
-/

namespace Stretches

variable {α β : Type}

/-- The stretch at the front holds an item with `p`. -/
def ahead (inside p : α → Bool) (l : List α) : Bool := (l.takeWhile inside).any p

/-- The stretch of `c` holds an item with `p`. What is before `c` is given backwards. -/
def around (inside p : α → Bool) (pre : List α) (c : α) (post : List α) : Bool :=
  inside c && (ahead inside p pre || ahead inside p (c :: post))

@[simp] theorem ahead_nil (inside p : α → Bool) : ahead inside p [] = false := rfl

theorem ahead_cons (inside p : α → Bool) (a : α) (l : List α) :
    ahead inside p (a :: l) = (inside a && (p a || ahead inside p l)) := by
  unfold ahead
  rw [List.takeWhile_cons]
  cases inside a with
  | false => rfl
  | true => rfl

theorem ahead_of_outside {inside : α → Bool} {a : α} (h : inside a = false) (p : α → Bool) (l : List α) :
    ahead inside p (a :: l) = false := by
  rw [ahead_cons, h, Bool.false_and]

/-! ## Rewriting item by item -/

/-- Pieces that start outside cut the stretch at the front. -/
theorem ahead_flatMap_of_cut {inside p : α → Bool} {f : β → List α} {g : β → α} {l : List β}
    (hpiece : ∀ x ∈ l, f x = [g x] ∨ ∃ a rest, f x = a :: rest ∧ inside a = false)
    (h : ahead inside p (l.flatMap f) = true) : ahead inside p (l.map g) = true := by
  induction l with
  | nil => exact h
  | cons x l ih =>
    rw [List.flatMap_cons] at h
    rw [List.map_cons]
    rcases hpiece x List.mem_cons_self with hkept | ⟨a, rest, hcut, houtside⟩
    · rw [hkept, List.singleton_append, ahead_cons, Bool.and_eq_true, Bool.or_eq_true] at h
      rw [ahead_cons, Bool.and_eq_true, Bool.or_eq_true]
      exact ⟨h.1, h.2.imp_right (ih fun y hy => hpiece y (List.mem_cons_of_mem _ hy))⟩
    · rw [hcut, List.cons_append, ahead_of_outside houtside] at h
      cases h

/-- Dropping items of a wider kind joins the stretches between them. -/
theorem ahead_flatMap_of_drop {inside wide p : α → Bool} {f : β → List α} {g : β → α} {l : List β}
    (hpiece : ∀ x ∈ l, (f x = [g x] ∧ wide (g x) = inside (g x)) ∨ (f x = [] ∧ wide (g x) = true ∧ p (g x) = false)) :
    ahead inside p (l.flatMap f) = ahead wide p (l.map g) := by
  induction l with
  | nil => rfl
  | cons x l ih =>
    have ih := ih fun y hy => hpiece y (List.mem_cons_of_mem _ hy)
    rw [List.flatMap_cons, List.map_cons, ahead_cons]
    rcases hpiece x List.mem_cons_self with ⟨hkept, hsame⟩ | ⟨hdropped, hwide, hp⟩
    · rw [hkept, List.singleton_append, ahead_cons, ih, hsame]
    · rw [hdropped, List.nil_append, hwide, hp, Bool.true_and, Bool.false_or, ih]

theorem split_of_flatMap {f : β → List α} {l : List β} {pre post : List α} {c : α}
    (h : l.flatMap f = pre ++ c :: post) :
    ∃ before x after p q, l = before ++ x :: after ∧ f x = p ++ c :: q ∧ pre = before.flatMap f ++ p ∧
      post = q ++ after.flatMap f := by
  induction l generalizing pre with
  | nil => cases pre <;> cases h
  | cons x l ih =>
    rw [List.flatMap_cons] at h
    rcases List.append_eq_append_iff.mp h with ⟨between, rfl, hlater⟩ | ⟨q, hpiece, hpost⟩
    · obtain ⟨before, y, after, p, q, rfl, hpiece, rfl, rfl⟩ := ih hlater
      exact ⟨x :: before, y, after, p, q, rfl, hpiece, by rw [List.flatMap_cons, List.append_assoc], rfl⟩
    · cases q with
      | nil =>
        rw [List.append_nil] at hpiece
        rw [List.nil_append] at hpost
        have hlater : l.flatMap f = [] ++ c :: post := hpost.symm
        obtain ⟨before, y, after, p, q, rfl, hpiece', hpre, rfl⟩ := ih hlater
        rw [eq_comm, List.append_eq_nil_iff] at hpre
        refine ⟨x :: before, y, after, p, q, rfl, hpiece', ?_, rfl⟩
        rw [List.flatMap_cons, hpre.1, hpre.2, List.append_nil, List.append_nil, hpiece]
      | cons d q =>
        obtain ⟨rfl, rfl⟩ := List.cons.inj hpost
        exact ⟨[], x, l, pre, q, rfl, hpiece, rfl, rfl⟩

end Stretches
