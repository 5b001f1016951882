import Mathlib.Order.Lattice
import Mathlib.Data.List.Induction
import Std.Data.ExtTreeMap

/-!
# Choosing a greatest element

Elements are compared by a rank and, within a rank, by a measure that may be missing. What has no measure is
neither above nor below its own rank, so it is the order of the list that decides whether the choice is greatest.
-/

namespace Ranked

variable {α R M : Type} [LinearOrder R] [LinearOrder M] (rank : α → R) (measure : α → Option M)

def Above (a b : α) : Prop :=
  rank b < rank a ∨ rank a = rank b ∧ ∃ x y, measure a = some x ∧ measure b = some y ∧ y < x

/-- A later element takes the place of the choice unless the choice compares as greater. -/
def choose (cmp : α → α → Ordering) (a : α) (rest : List α) : α :=
  rest.foldl (fun best x => if cmp best x = .gt then best else x) a

/-- Nothing in the list is above `b`. -/
def Greatest (l : List α) (b : α) : Prop := ∀ w ∈ l, ¬ Above rank measure w b

/-- The last element of rank `r` has no measure. -/
def LastUnmeasured (l : List α) (r : R) : Prop :=
  ∃ before w after, l = before ++ w :: after ∧ rank w = r ∧ measure w = none ∧ ∀ x ∈ after, rank x ≠ r

/-- Something is above `v`, but no rank is, and what has no measure stands between. -/
structure Hides (l : List α) (v : α) : Prop where
  noneAbove : ∀ w ∈ l, rank w ≤ rank v
  unmeasured : LastUnmeasured rank measure l (rank v)
  better : ∃ w ∈ l, Above rank measure w v

variable {rank measure} {cmp : α → α → Ordering}

/-! ## The comparison -/

theorem not_above_of_rank_lt {a b : α} (h : rank a < rank b) : ¬ Above rank measure a b := by
  rintro (hlt | ⟨heq, -⟩)
  · exact lt_asymm h hlt
  · exact h.ne heq

theorem Above.rank_le {a b : α} (h : Above rank measure a b) : rank b ≤ rank a := by
  rcases h with hlt | ⟨heq, -⟩
  · exact hlt.le
  · exact heq.ge

theorem not_above_self (a : α) : ¬ Above rank measure a a := by
  rintro (hlt | ⟨-, x, y, hx, hy, hlt⟩)
  · exact lt_irrefl _ hlt
  · rw [hx] at hy
    cases hy
    exact lt_irrefl _ hlt

theorem Above.not_above {a b : α} (h : Above rank measure a b) : ¬ Above rank measure b a := by
  rcases h with hlt | ⟨heq, x, y, hx, hy, hlt⟩
  · exact not_above_of_rank_lt hlt
  · rintro (hlt' | ⟨-, y', x', hy', hx', hlt'⟩)
    · exact hlt'.ne heq
    · rw [hx] at hx'
      rw [hy] at hy'
      cases hx'
      cases hy'
      exact lt_asymm hlt hlt'

theorem above_unmeasured {a b : α} (h : Above rank measure a b) (hnone : measure a = none ∨ measure b = none) :
    rank b < rank a := by
  rcases h with hlt | ⟨-, x, y, hx, hy, -⟩
  · exact hlt
  · rcases hnone with hnone | hnone
    · rw [hnone] at hx
      cases hx
    · rw [hnone] at hy
      cases hy

/-- What fails to pass on that `w` is above `v` has their rank and no measure. -/
theorem unmeasured_between {w b v : α} (hwv : Above rank measure w v) (hbv : ¬ Above rank measure b v)
    (hwb : ¬ Above rank measure w b) : rank b = rank v ∧ measure b = none := by
  have hle : rank b ≤ rank v := not_lt.mp fun hlt => hbv (.inl hlt)
  have hge : rank w ≤ rank b := not_lt.mp fun hlt => hwb (.inl hlt)
  have hb : rank b = rank v := le_antisymm hle (hwv.rank_le.trans hge)
  have hw : rank w = rank v := le_antisymm (hge.trans hle) hwv.rank_le
  refine ⟨hb, ?_⟩
  rcases hwv with hlt | ⟨-, x, y, hx, hy, hlt⟩
  · exact absurd hw hlt.ne'
  · cases hz : measure b with
    | none => rfl
    | some z =>
      have hxz : ¬ z < x := fun h => hwb (.inr ⟨hw.trans hb.symm, x, z, hx, hz, h⟩)
      have hzy : ¬ y < z := fun h => hbv (.inr ⟨hb, z, y, hz, hy, h⟩)
      exact absurd (hlt.trans_le (not_lt.mp hxz)) hzy

/-! ## The choice -/

theorem choose_append (a : α) (l rest : List α) : choose cmp a (l ++ rest) = choose cmp (choose cmp a l) rest :=
  List.foldl_append

theorem choose_concat (a : α) (l : List α) (v : α) :
    choose cmp a (l ++ [v]) = if cmp (choose cmp a l) v = .gt then choose cmp a l else v := choose_append a l [v]

theorem choose_mem (a : α) (l : List α) : choose cmp a l ∈ a :: l := by
  induction l using List.reverseRecOn with
  | nil => exact List.mem_singleton_self a
  | append_singleton l v ih =>
    rw [choose_concat]
    split
    · exact List.mem_append_left [v] ih
    · exact List.mem_append_right (a :: l) (List.mem_singleton_self v)

/-- In a total order the choice is a greatest element. -/
theorem isLE_choose [Std.TransCmp cmp] (a : α) (l : List α) : ∀ x ∈ a :: l, (cmp x (choose cmp a l)).isLE := by
  induction l using List.reverseRecOn with
  | nil =>
    intro x hx
    rw [List.mem_singleton.mp hx]
    exact Std.ReflCmp.isLE_rfl
  | append_singleton l v ih =>
    intro x hx
    rw [choose_concat]
    rcases List.mem_append.mp (List.cons_append ▸ hx) with hx | hx
    · split
      · exact ih x hx
      · next hle => exact Std.TransCmp.isLE_trans (ih x hx) (Ordering.ne_gt_iff_isLE.mp hle)
    · rw [List.mem_singleton.mp hx]
      split
      · next hgt => exact Ordering.isLE_of_eq_lt (Std.OrientedCmp.gt_iff_lt.mp hgt)
      · exact Std.ReflCmp.isLE_rfl

section

variable (hcmp : ∀ a b, cmp a b = .gt ↔ Above rank measure a b)

include hcmp

theorem choose_stays {w : α} {l : List α} (h : ∀ x ∈ l, rank x < rank w) : choose cmp w l = w := by
  induction l with
  | nil => rfl
  | cons x l ih =>
    rw [choose, List.foldl_cons, if_pos ((hcmp w x).mpr (.inl (h x List.mem_cons_self)))]
    exact ih fun y hy => h y (List.mem_cons_of_mem x hy)

/-- Among the greatest ranks, the last element is the choice when it has no measure. -/
theorem choose_eq_unmeasured {a w : α} {l before after : List α} (hl : a :: l = before ++ w :: after)
    (hnone : measure w = none) (hbefore : ∀ x ∈ before, rank x ≤ rank w) (hafter : ∀ x ∈ after, rank x < rank w) :
    choose cmp a l = w := by
  cases before with
  | nil =>
    obtain ⟨rfl, rfl⟩ := List.cons.inj hl
    exact choose_stays hcmp hafter
  | cons c before =>
    rw [List.cons_append] at hl
    obtain ⟨rfl, rfl⟩ := List.cons.inj hl
    have hkept : ¬ cmp (choose cmp a before) w = .gt := by
      intro h
      have hlt := above_unmeasured ((hcmp _ _).mp h) (.inr hnone)
      exact absurd hlt (not_lt.mpr (hbefore _ (choose_mem a before)))
    rw [List.append_cons, choose_append, choose_concat, if_neg hkept]
    exact choose_stays hcmp hafter

theorem after_unmeasured {a : α} {l : List α} (h : measure (choose cmp a l) = none) :
    ∃ before after, a :: l = before ++ choose cmp a l :: after ∧ ∀ x ∈ after, rank x < rank (choose cmp a l) := by
  induction l using List.reverseRecOn with
  | nil => exact ⟨[], [], rfl, fun x hx => absurd hx List.not_mem_nil⟩
  | append_singleton l v ih =>
    rw [choose_concat] at h ⊢
    split at h
    · next hgt =>
      rw [if_pos hgt]
      obtain ⟨before, after, hl, hafter⟩ := ih h
      refine ⟨before, after ++ [v], ?_, ?_⟩
      · rw [← List.cons_append, hl, List.append_assoc, List.cons_append]
      · intro x hx
        rcases List.mem_append.mp hx with hx | hx
        · exact hafter x hx
        · rw [List.mem_singleton.mp hx]
          exact above_unmeasured ((hcmp _ _).mp hgt) (.inl h)
    · next hgt =>
      rw [if_neg hgt]
      exact ⟨a :: l, [], rfl, fun x hx => absurd hx List.not_mem_nil⟩

/-- A greatest choice stays one exactly when nothing without a measure hides what is above the new element. -/
theorem greatest_concat_iff {a : α} {l : List α} (h : Greatest rank measure (a :: l) (choose cmp a l)) (v : α) :
    Greatest rank measure (a :: (l ++ [v])) (choose cmp a (l ++ [v])) ↔ ¬ Hides rank measure (a :: l) v := by
  rw [choose_concat]
  split
  · -- The choice stays, and is above `v`: a measure missing after it would contradict that.
    next hgt =>
    have habove := (hcmp _ _).mp hgt
    refine iff_of_true ?_ ?_
    · intro w hw
      rcases List.mem_append.mp (List.cons_append ▸ hw) with hw | hw
      · exact h w hw
      · rw [List.mem_singleton.mp hw]
        exact habove.not_above
    · rintro ⟨hle, ⟨before, w, after, hl, hrank, hnone, hafter⟩, -⟩
      have hlt : ∀ x ∈ after, rank x < rank w := by
        intro x hx
        rw [hrank]
        exact lt_of_le_of_ne (hle x (hl ▸ List.mem_append_right _ (List.mem_cons_of_mem w hx))) (hafter x hx)
      have hchoice := choose_eq_unmeasured hcmp hl hnone
        (fun x hx => hrank ▸ hle x (hl ▸ List.mem_append_left _ hx)) hlt
      rw [hchoice] at habove
      exact absurd hrank (above_unmeasured habove (.inl hnone)).ne'
  · -- `v` is the new choice. What was above it had to be hidden from it.
    next hgt =>
    have hnot : ¬ Above rank measure (choose cmp a l) v := fun habove => hgt ((hcmp _ _).mpr habove)
    constructor
    · rintro hgreatest ⟨-, -, w, hw, hwv⟩
      exact hgreatest w (List.mem_append_left [v] hw) hwv
    · intro hhides w hw hwv
      rcases List.mem_append.mp (List.cons_append ▸ hw) with hw | hw
      · refine hhides ⟨?_, ?_, w, hw, hwv⟩
        · intro x hx
          have hx' : rank x ≤ rank (choose cmp a l) := not_lt.mp fun hlt => h x hx (.inl hlt)
          exact hx'.trans (not_lt.mp fun hlt => hnot (.inl hlt))
        · obtain ⟨hrank, hnone⟩ := unmeasured_between hwv hnot (h w hw)
          obtain ⟨before, after, hl, hafter⟩ := after_unmeasured hcmp hnone
          exact ⟨before, _, after, hl, hrank, hnone, fun x hx => hrank ▸ (hafter x hx).ne⟩
      · rw [List.mem_singleton.mp hw] at hwv
        exact not_above_self v hwv

end

end Ranked

/-!
## Tallies

A list is gathered under keys, and the key with the greatest total is chosen from the entries in some order. The order
decides among equals, and any of them can be the last.
-/

open Std

namespace Tally

/-! ## Gathering -/

section

variable {κ β σ : Type} [Ord κ] [TransOrd κ] [LawfulEqOrd κ] [DecidableEq κ]

def gather (key : β → κ) (step : σ → β → σ) (start : σ) (l : List β) : ExtTreeMap κ σ :=
  l.foldl (fun m b => m.insert (key b) (step ((m[key b]?).getD start) b)) ∅

variable {key : β → κ} {step : σ → β → σ} {start : σ}

theorem getElem?_gather_from (l : List β) (m : ExtTreeMap κ σ) (k : κ) :
    (l.foldl (fun m b => m.insert (key b) (step ((m[key b]?).getD start) b)) m)[k]? =
      if k ∈ l.map key then some ((l.filter fun b => key b = k).foldl step ((m[k]?).getD start)) else m[k]? := by
  induction l generalizing m with
  | nil => rfl
  | cons b l ih =>
    rw [List.foldl_cons, ih, List.map_cons]
    by_cases hk : key b = k
    · subst hk
      by_cases hmem : key b ∈ l.map key
      · simp [hmem]
      · have hnone : l.filter (fun c => key c = key b) = [] := by
          refine List.filter_eq_nil_iff.mpr fun c hc heq => hmem ?_
          exact List.mem_map.mpr ⟨c, hc, of_decide_eq_true heq⟩
        simp [hmem, hnone]
    · have hne : ¬ compare (key b) k = .eq := by rwa [LawfulEqOrd.compare_eq_iff_eq]
      simp [hk, Ne.symm hk, ExtTreeMap.getElem?_insert, hne]

/-- Under a key is what its elements come to. -/
theorem getElem?_gather (key : β → κ) (step : σ → β → σ) (start : σ) (l : List β) (k : κ) : (gather key step start l)[k]? =
    if k ∈ l.map key then some ((l.filter fun b => key b = k).foldl step start) else none := by
  rw [gather, getElem?_gather_from]
  simp

end

/-! ## Choosing -/

section

variable {α S : Type} [LinearOrder S] {f : α → S} {l : List α} {x : α}

/-- The entry that is chosen, of equals the last. -/
def choice (cmp : α → α → Ordering) : List α → Option α
  | [] => none
  | a :: l => some (Ranked.choose cmp a l)

theorem choice_spec (h : choice (compareOn f) l = some x) : x ∈ l ∧ ∀ y ∈ l, f y ≤ f x := by
  cases l with
  | nil => cases h
  | cons a l =>
    obtain rfl := Option.some.inj h
    refine ⟨Ranked.choose_mem a l, fun y hy => ?_⟩
    have hle : (compareOn f y (Ranked.choose (compareOn f) a l)).isLE := Ranked.isLE_choose a l y hy
    exact compare_le_iff_le.mp (Ordering.ne_gt_iff_isLE.mpr hle)

theorem choice_concat (h : ∀ y ∈ l, f y ≤ f x) : choice (compareOn f) (l ++ [x]) = some x := by
  cases l with
  | nil => rfl
  | cons a l =>
    rw [List.cons_append, choice, Ranked.choose_concat, if_neg]
    exact fun hgt => absurd (compare_gt_iff_gt.mp hgt) (h _ (Ranked.choose_mem a l)).not_gt

/-- In some order the choice falls on `x` exactly when nothing is greater. -/
theorem exists_order_iff [DecidableEq α] :
    (∃ order, order.Perm l ∧ choice (compareOn f) order = some x) ↔ x ∈ l ∧ ∀ y ∈ l, f y ≤ f x := by
  constructor
  · rintro ⟨order, hperm, hmax⟩
    obtain ⟨hmem, hle⟩ := choice_spec hmax
    exact ⟨hperm.mem_iff.mp hmem, fun y hy => hle y (hperm.mem_iff.mpr hy)⟩
  · rintro ⟨hmem, hle⟩
    refine ⟨l.erase x ++ [x], ?_, choice_concat fun y hy => hle y (List.mem_of_mem_erase hy)⟩
    exact List.perm_append_comm.trans (List.perm_cons_erase hmem).symm

end

end Tally
