import Mathlib.Data.List.Nodup
import Mathlib.Logic.Relation

/-!
# Connected components

A search marks what it meets and pops it in turn. For a symmetric relation, and when what was marked before is
closed under it, the search pops the class of its start, and what is marked afterwards is closed again. So a
search from every point that is not marked yet gives each class one representative.
-/

namespace Components

open Relation

variable {α : Type} {R : α → α → Prop} {old seen seen' : α → Prop} {start : α} {queue popped : List α}

theorem reach_symm (hsymm : ∀ x y, R x y → R y x) {x y : α} (h : ReflTransGen R x y) : ReflTransGen R y x := by
  induction h with
  | refl => exact .refl
  | tail _ hstep ih => exact .head (hsymm _ _ hstep) ih

/-! ## One search -/

/-- A search from `start`, and what was marked before it. -/
structure Search (R : α → α → Prop) (old : α → Prop) (start : α) (queue popped : List α) (seen : α → Prop) :
    Prop where
  met : start ∈ popped ++ queue
  seen_iff : ∀ x, seen x ↔ old x ∨ x ∈ popped ++ queue
  fresh : ∀ x ∈ popped ++ queue, ¬ old x
  nodup : (popped ++ queue).Nodup
  reach : ∀ x ∈ popped ++ queue, ReflTransGen R start x
  looked : ∀ x ∈ popped, ∀ y, R x y → seen y

theorem search_start (hnew : ¬ old start) (hseen : ∀ x, seen x ↔ old x ∨ x = start) :
    Search R old start [start] [] seen where
  met := List.mem_singleton_self _
  seen_iff x := by rw [hseen, List.nil_append, List.mem_singleton]
  fresh x hx := List.mem_singleton.mp hx ▸ hnew
  nodup := List.nodup_singleton _
  reach x hx := List.mem_singleton.mp hx ▸ .refl
  looked x hx := absurd hx List.not_mem_nil

/-- The front is popped, and what it leads to is marked and enqueued. -/
theorem Search.turn {front : α} {found : List α} (h : Search R old start (front :: queue) popped seen)
    (hfound : ∀ x, x ∈ found ↔ R front x ∧ ¬ seen x) (hnodup : found.Nodup)
    (hseen : ∀ x, seen' x ↔ seen x ∨ R front x) : Search R old start (queue ++ found) (popped ++ [front]) seen' := by
  have hsame : popped ++ [front] ++ (queue ++ found) = popped ++ front :: queue ++ found := by simp
  have hmem : ∀ x, x ∈ popped ++ front :: queue ++ found ↔
      x ∈ popped ++ front :: queue ∨ R front x ∧ ¬ seen x := fun x => by rw [List.mem_append, hfound]
  have hold : ∀ x ∈ popped ++ front :: queue, seen x := fun x hx => (h.seen_iff x).mpr (.inr hx)
  have hfront : front ∈ popped ++ front :: queue := by simp
  constructor
  · rw [hsame, hmem]
    exact .inl h.met
  · intro x
    rw [hsame, hmem, hseen, h.seen_iff]
    tauto
  · intro x hx
    rw [hsame, hmem] at hx
    rcases hx with hx | ⟨-, hnew⟩
    · exact h.fresh x hx
    · exact fun hx => hnew ((h.seen_iff x).mpr (.inl hx))
  · rw [hsame]
    refine h.nodup.append hnodup fun x hx hx' => ?_
    exact ((hfound x).mp hx').2 (hold x hx)
  · intro x hx
    rw [hsame, hmem] at hx
    rcases hx with hx | ⟨hstep, -⟩
    · exact h.reach x hx
    · exact (h.reach front hfront).tail hstep
  · intro x hx y hstep
    rw [hseen]
    rcases List.mem_append.mp hx with hx | hx
    · exact .inl (h.looked x hx y hstep)
    · exact .inr (List.mem_singleton.mp hx ▸ hstep)

/-- A search that is over has popped the class of its start. -/
theorem Search.mem_popped_iff (hsymm : ∀ x y, R x y → R y x) (hold : ∀ x y, R x y → old x → old y)
    (h : Search R old start [] popped seen) (x : α) : x ∈ popped ↔ ReflTransGen R start x := by
  constructor
  · exact fun hx => h.reach x (List.mem_append_left _ hx)
  · intro hreach
    induction hreach with
    | refl => simpa using h.met
    | @tail y z _ hstep ih =>
      rcases (h.seen_iff z).mp (h.looked y ih z hstep) with hz | hz
      · exact absurd (hold z y (hsymm y z hstep) hz) (h.fresh y (List.mem_append_left _ ih))
      · simpa using hz

theorem Search.seen_iff_class (hsymm : ∀ x y, R x y → R y x) (hold : ∀ x y, R x y → old x → old y)
    (h : Search R old start [] popped seen) (x : α) : seen x ↔ old x ∨ ReflTransGen R start x := by
  rw [h.seen_iff, List.append_nil, h.mem_popped_iff hsymm hold]

/-! ## Representatives -/

/-- What is marked is closed, and each of its classes has one representative. -/
structure Classes (R : α → α → Prop) (seen rep : α → Prop) : Prop where
  closed : ∀ x y, R x y → seen x → seen y
  marked : ∀ r, rep r → seen r
  cover : ∀ x, seen x → ∃ r, rep r ∧ ReflTransGen R r x
  unique : ∀ r r', rep r → rep r' → ReflTransGen R r r' → r = r'

theorem Classes.closed_reach {rep : α → Prop} (h : Classes R seen rep) {x y : α} (hreach : ReflTransGen R x y)
    (hx : seen x) : seen y := by
  induction hreach with
  | refl => exact hx
  | tail _ hstep ih => exact h.closed _ _ hstep ih

/-- The class of a point that is not marked, under one of its points. -/
theorem Classes.add (hsymm : ∀ x y, R x y → R y x) {rep rep' : α → Prop} {r : α} (h : Classes R seen rep)
    (hnew : ¬ seen start) (hr : ReflTransGen R start r) (hseen : ∀ x, seen' x ↔ seen x ∨ ReflTransGen R start x)
    (hrep : ∀ x, rep' x ↔ rep x ∨ x = r) : Classes R seen' rep' := by
  have hback : ∀ {x y}, ReflTransGen R x y → ReflTransGen R y x := reach_symm hsymm
  have happart : ∀ x, seen x → ¬ ReflTransGen R start x := fun x hx hreach => hnew (h.closed_reach (hback hreach) hx)
  constructor
  · intro x y hstep hx
    rw [hseen] at hx ⊢
    exact hx.imp (h.closed x y hstep) (·.tail hstep)
  · intro x hx
    rw [hseen]
    rcases (hrep x).mp hx with hx | rfl
    · exact .inl (h.marked x hx)
    · exact .inr hr
  · intro x hx
    rcases (hseen x).mp hx with hx | hreach
    · obtain ⟨q, hq, hreach⟩ := h.cover x hx
      exact ⟨q, (hrep q).mpr (.inl hq), hreach⟩
    · exact ⟨r, (hrep r).mpr (.inr rfl), (hback hr).trans hreach⟩
  · intro p q hp hq hreach
    rcases (hrep p).mp hp with hp | rfl <;> rcases (hrep q).mp hq with hq | rfl
    · exact h.unique p q hp hq hreach
    · exact absurd (hr.trans (hback hreach)) (happart p (h.marked p hp))
    · exact absurd (hr.trans hreach) (happart q (h.marked q hq))
    · rfl

end Components
