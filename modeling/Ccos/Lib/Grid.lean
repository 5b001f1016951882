import Mathlib.Data.List.Basic
import Mathlib.Data.List.Sublists
import Mathlib.Order.Bounds.Basic
import Mathlib.Order.MinMax

/-!
# Tables filled from a corner

A table has a row for each prefix of one list and a cell for each prefix of the other. A cell is computed from
the three that come before it. Its value is then that of a best way to reach the cell, or of a longest common
sublist of the two prefixes.
-/

namespace Grid

/-! ## Filling -/

section

variable {α β C : Type}

/-- The cells of a row behind `left`. -/
def fillRow (f : β → C → C → C → C) : C → List C → List β → List C
  | left, diag :: up :: above, y :: ys =>
    let c := f y diag up left
    c :: fillRow f c (up :: above) ys
  | _, _, _ => []

/-- The rows, where `above` is the first and `left` starts every other. -/
def table (f : α → β → C → C → C → C) (left : C) (ys : List β) : List C → List α → List (List C)
  | above, [] => [above]
  | above, x :: xs => above :: table f left ys (left :: fillRow (f x) left above ys) xs

def cell (t : List (List C)) (i j : Nat) : Option C := t[i]?.bind fun row => row[j]?

theorem length_fillRow (f : β → C → C → C → C) (left : C) {above : List C} {ys : List β}
    (h : above.length = ys.length + 1) : (fillRow f left above ys).length = ys.length := by
  induction ys generalizing left above with
  | nil =>
    cases above with
    | nil => rfl
    | cons diag above => cases above <;> rfl
  | cons y ys ih =>
    obtain ⟨diag, above, rfl⟩ := List.exists_cons_of_length_eq_add_one h
    obtain ⟨up, above, rfl⟩ := List.exists_cons_of_length_eq_add_one (Nat.succ.inj h)
    rw [fillRow, List.length_cons, ih _ (Nat.succ.inj h), List.length_cons]

/-- A cell of a row, from the cell before it and the two above. -/
theorem fillRow_cell (f : β → C → C → C → C) (left : C) {above : List C} {ys : List β}
    (h : above.length = ys.length + 1) {j : Nat} {y : β} (hy : ys[j]? = some y) :
    ∃ diag up before, above[j]? = some diag ∧ above[j + 1]? = some up ∧
      (left :: fillRow f left above ys)[j]? = some before ∧
      (left :: fillRow f left above ys)[j + 1]? = some (f y diag up before) := by
  induction ys generalizing left above j with
  | nil => simp at hy
  | cons y' ys ih =>
    obtain ⟨diag, above, rfl⟩ := List.exists_cons_of_length_eq_add_one h
    obtain ⟨up, above, rfl⟩ := List.exists_cons_of_length_eq_add_one (Nat.succ.inj h)
    cases j with
    | zero =>
      obtain rfl := Option.some.inj hy
      exact ⟨diag, up, left, rfl, rfl, rfl, rfl⟩
    | succ j => exact ih (f y' diag up left) (Nat.succ.inj h) hy

variable {f : α → β → C → C → C → C} {left : C} {ys : List β}

theorem cell_zero (above : List C) (xs : List α) (j : Nat) : cell (table f left ys above xs) 0 j = above[j]? := by
  cases xs <;> rfl

theorem cell_succ_zero {above : List C} {xs : List α} {i : Nat} (hi : i < xs.length) :
    cell (table f left ys above xs) (i + 1) 0 = some left := by
  induction xs generalizing above i with
  | nil => exact absurd hi (Nat.not_lt_zero i)
  | cons x xs ih =>
    cases i with
    | zero =>
      show cell (table f left ys (left :: fillRow (f x) left above ys) xs) 0 0 = _
      rw [cell_zero]
      rfl
    | succ i => exact ih (Nat.lt_of_succ_lt_succ hi)

theorem cell_succ_succ {above : List C} (h : above.length = ys.length + 1) {xs : List α} {i j : Nat} {x : α} {y : β}
    (hx : xs[i]? = some x) (hy : ys[j]? = some y) :
    ∃ diag up before, cell (table f left ys above xs) i j = some diag ∧
      cell (table f left ys above xs) i (j + 1) = some up ∧
      cell (table f left ys above xs) (i + 1) j = some before ∧
      cell (table f left ys above xs) (i + 1) (j + 1) = some (f x y diag up before) := by
  induction xs generalizing above i with
  | nil => simp at hx
  | cons x' xs ih =>
    cases i with
    | zero =>
      obtain rfl := Option.some.inj hx
      obtain ⟨diag, up, before, hdiag, hup, hbefore, hcell⟩ := fillRow_cell (f x') left h hy
      refine ⟨diag, up, before, hdiag, hup, ?_, ?_⟩
      · show cell (table f left ys (left :: fillRow (f x') left above ys) xs) 0 j = _
        rw [cell_zero, hbefore]
      · show cell (table f left ys (left :: fillRow (f x') left above ys) xs) 0 (j + 1) = _
        rw [cell_zero, hcell]
    | succ i =>
      have hlen : (left :: fillRow (f x') left above ys).length = ys.length + 1 := by
        rw [List.length_cons, length_fillRow (f x') left h]
      exact ih hlen hx

theorem forall_fillRow {P : C → Prop} {f : β → C → C → C → C} {left : C} {above : List C} {ys : List β}
    (hf : ∀ y ∈ ys, ∀ diag up before, P diag → P up → P before → P (f y diag up before)) (hleft : P left)
    (habove : ∀ c ∈ above, P c) : ∀ c ∈ fillRow f left above ys, P c := by
  induction ys generalizing left above with
  | nil =>
    intro c hc
    rcases above with - | ⟨diag, - | ⟨up, above⟩⟩ <;> simp [fillRow] at hc
  | cons y ys ih =>
    rcases above with - | ⟨diag, - | ⟨up, above⟩⟩
    · simp [fillRow]
    · simp [fillRow]
    · rw [List.forall_mem_cons, List.forall_mem_cons] at habove
      obtain ⟨hdiag, hup, habove⟩ := habove
      have hcell : P (f y diag up left) := hf y List.mem_cons_self diag up left hdiag hup hleft
      rw [fillRow, List.forall_mem_cons]
      have hrest : ∀ c ∈ up :: above, P c := List.forall_mem_cons.mpr ⟨hup, habove⟩
      exact ⟨hcell, ih (fun y' hy' => hf y' (List.mem_cons_of_mem y hy')) hcell hrest⟩

/-- What holds of the first row and the left border, and of a cell when of the three before it, holds of every cell. -/
theorem forall_cell {P : C → Prop} {above : List C} {xs : List α}
    (hf : ∀ x ∈ xs, ∀ y ∈ ys, ∀ diag up before, P diag → P up → P before → P (f x y diag up before)) (hleft : P left)
    (habove : ∀ c ∈ above, P c) {i j : Nat} {c : C} (hc : cell (table f left ys above xs) i j = some c) : P c := by
  induction xs generalizing above i with
  | nil =>
    cases i with
    | zero => exact habove c (List.mem_of_getElem? hc)
    | succ i => cases hc
  | cons x xs ih =>
    cases i with
    | zero =>
      rw [cell_zero] at hc
      exact habove c (List.mem_of_getElem? hc)
    | succ i =>
      exact ih (fun x' hx' => hf x' (List.mem_cons_of_mem x hx'))
        (List.forall_mem_cons.mpr ⟨hleft, forall_fillRow (hf x List.mem_cons_self) hleft habove⟩) hc

end

/-! ## Paths -/

/-- One step, in one direction or in both. -/
inductive Step : Nat × Nat → Nat × Nat → Prop
  | diag (i j : Nat) : Step (i, j) (i + 1, j + 1)
  | down (i j : Nat) : Step (i, j) (i + 1, j)
  | right (i j : Nat) : Step (i, j) (i, j + 1)

/-- A path from the corner to a cell. -/
inductive Path : List (Nat × Nat) → Nat × Nat → Prop
  | corner : Path [(0, 0)] (0, 0)
  | step {p : List (Nat × Nat)} {c c' : Nat × Nat} (h : Path p c) (hstep : Step c c') : Path (p ++ [c']) c'

section

variable {C : Type} {extend : Nat × Nat → C → C} {start : C}

/-- What a path costs, from its corner on. -/
def cost (extend : Nat × Nat → C → C) (start : C) (p : List (Nat × Nat)) : C :=
  p.foldl (fun c at' => extend at' c) start

theorem cost_snoc (p : List (Nat × Nat)) (c : Nat × Nat) :
    cost extend start (p ++ [c]) = extend c (cost extend start p) := by
  rw [cost, List.foldl_append]
  rfl

variable [Preorder C]

/-- Each cell extends a least one of the three before it. Cell `(i + 1, j + 1)` is for the paths that end at `(i, j)`,
and the cells before the first row and column are the border. -/
structure Bellman (extend : Nat × Nat → C → C) (start : C) (n m : Nat) (best : Nat → Nat → C) : Prop where
  corner : best 0 0 = start
  cell : ∀ i j, i < n → j < m → ∃ c, best (i + 1) (j + 1) = extend (i, j) c ∧
    (c = best i j ∨ c = best i (j + 1) ∨ c = best (i + 1) j) ∧
    c ≤ best i j ∧ c ≤ best i (j + 1) ∧ c ≤ best (i + 1) j

variable {n m : Nat} {best : Nat → Nat → C}

/-- No path is better than its cell. -/
theorem Bellman.le_cost (h : Bellman extend start n m best) (hmono : ∀ c, Monotone (extend c)) {p : List (Nat × Nat)}
    {c : Nat × Nat} (hp : Path p c) (hi : c.1 < n) (hj : c.2 < m) : best (c.1 + 1) (c.2 + 1) ≤ cost extend start p := by
  induction hp with
  | corner =>
    obtain ⟨v, hv, -, hdiag, -, -⟩ := h.cell 0 0 hi hj
    rw [hv]
    exact hmono _ (hdiag.trans h.corner.le)
  | @step p c c' hp hstep ih =>
    obtain ⟨v, hv, -, hdiag, hup, hleft⟩ := h.cell c'.1 c'.2 hi hj
    rw [hv, cost_snoc]
    refine hmono _ ?_
    cases hstep with
    | diag i j => exact hdiag.trans (ih (Nat.lt_of_succ_lt hi) (Nat.lt_of_succ_lt hj))
    | down i j => exact hup.trans (ih (Nat.lt_of_succ_lt hi) hj)
    | right i j => exact hleft.trans (ih hi (Nat.lt_of_succ_lt hj))

/-- A path whose every step comes from a cell that is a least one of the three. -/
inductive Traced (best : Nat → Nat → C) : List (Nat × Nat) → Nat × Nat → Prop
  | corner : Traced best [(0, 0)] (0, 0)
  | step {p : List (Nat × Nat)} {c : Nat × Nat} {i j : Nat} (h : Traced best p c) (hstep : Step c (i, j))
      (hdiag : best (c.1 + 1) (c.2 + 1) ≤ best i j) (hup : best (c.1 + 1) (c.2 + 1) ≤ best i (j + 1))
      (hleft : best (c.1 + 1) (c.2 + 1) ≤ best (i + 1) j) : Traced best (p ++ [(i, j)]) (i, j)

theorem Traced.path {p : List (Nat × Nat)} {c : Nat × Nat} (h : Traced best p c) : Path p c := by
  induction h with
  | corner => exact .corner
  | step _ hstep _ _ _ ih => exact .step ih hstep

/-- A traced path is as good as its cell. -/
theorem Bellman.cost_le (h : Bellman extend start n m best) (hmono : ∀ c, Monotone (extend c))
    (hborder : start ≤ best 0 1 ∧ start ≤ best 1 0) {p : List (Nat × Nat)} {c : Nat × Nat} (hp : Traced best p c)
    (hi : c.1 < n) (hj : c.2 < m) : cost extend start p ≤ best (c.1 + 1) (c.2 + 1) := by
  induction hp with
  | corner =>
    obtain ⟨v, hv, hone, -⟩ := h.cell 0 0 hi hj
    rw [hv]
    refine hmono _ ?_
    rcases hone with rfl | rfl | rfl
    · exact h.corner.ge
    · exact hborder.1
    · exact hborder.2
  | @step p c i j hp hstep hdiag hup hleft ih =>
    obtain ⟨v, hv, hone, -⟩ := h.cell i j hi hj
    have hc : c.1 ≤ i ∧ c.2 ≤ j := by
      cases hstep with
      | diag i j => exact ⟨Nat.le_succ i, Nat.le_succ j⟩
      | down i j => exact ⟨Nat.le_succ i, le_refl j⟩
      | right i j => exact ⟨le_refl i, Nat.le_succ j⟩
    rw [hv, cost_snoc]
    refine hmono _ ((ih (hc.1.trans_lt hi) (hc.2.trans_lt hj)).trans ?_)
    rcases hone with rfl | rfl | rfl
    · exact hdiag
    · exact hup
    · exact hleft

end

/-! ## Longest common sublists -/

section

variable {α : Type} {xs ys s : List α} {x y : α}

/-- The length of a longest list that is a sublist of both. -/
def Longest (xs ys : List α) (k : Nat) : Prop :=
  IsGreatest {n | ∃ s : List α, s.Sublist xs ∧ s.Sublist ys ∧ s.length = n} k

theorem sublist_snoc_iff : s.Sublist (xs ++ [x]) ↔ s.Sublist xs ∨ ∃ r, s = r ++ [x] ∧ r.Sublist xs := by
  rw [List.sublist_append_iff]
  constructor
  · rintro ⟨r, t, rfl, hr, ht⟩
    rcases List.sublist_singleton.mp ht with rfl | rfl
    · exact .inl (by rwa [List.append_nil])
    · exact .inr ⟨r, rfl, hr⟩
  · rintro (h | ⟨r, rfl, hr⟩)
    · exact ⟨s, [], by rw [List.append_nil], h, List.nil_sublist _⟩
    · exact ⟨r, [x], rfl, hr, List.Sublist.refl _⟩

theorem longest_nil_left (ys : List α) : Longest [] ys 0 := by
  refine ⟨⟨[], List.nil_sublist _, List.nil_sublist _, rfl⟩, ?_⟩
  rintro n ⟨s, hs, -, rfl⟩
  rw [List.sublist_nil.mp hs, List.length_nil]

theorem longest_nil_right (xs : List α) : Longest xs [] 0 := by
  refine ⟨⟨[], List.nil_sublist _, List.nil_sublist _, rfl⟩, ?_⟩
  rintro n ⟨s, -, hs, rfl⟩
  rw [List.sublist_nil.mp hs, List.length_nil]

/-- A common last element is in a longest one. -/
theorem Longest.snoc {k : Nat} (h : Longest xs ys k) : Longest (xs ++ [x]) (ys ++ [x]) (k + 1) := by
  obtain ⟨⟨s, hxs, hys, rfl⟩, hmax⟩ := h
  refine ⟨⟨s ++ [x], hxs.append (List.Sublist.refl _), hys.append (List.Sublist.refl _), by simp⟩, ?_⟩
  have hle : ∀ r : List α, r.Sublist xs → r.Sublist ys → r.length ≤ s.length := fun r hr hr' => hmax ⟨r, hr, hr', rfl⟩
  have hinit : ∀ (r zs : List α), (r ++ [x]).Sublist zs → r.Sublist zs :=
    fun r zs h => (List.sublist_append_left r [x]).trans h
  rintro n ⟨t, htx, hty, rfl⟩
  rcases sublist_snoc_iff.mp htx with hx | ⟨r, rfl, hr⟩
  · rcases sublist_snoc_iff.mp hty with hy | ⟨r, rfl, hr⟩
    · exact (hle t hx hy).trans (Nat.le_succ _)
    · rw [List.length_append]
      exact Nat.succ_le_succ (hle r (hinit r xs hx) hr)
  · rw [List.length_append]
    refine Nat.succ_le_succ (hle r hr ?_)
    rcases sublist_snoc_iff.mp hty with hy | ⟨r', heq, hr'⟩
    · exact hinit r ys hy
    · rwa [List.append_cancel_right heq]

/-- Where the last elements differ, one of them is left out. -/
theorem Longest.snoc_of_ne {up left : Nat} (hne : x ≠ y) (hup : Longest xs (ys ++ [y]) up)
    (hleft : Longest (xs ++ [x]) ys left) : Longest (xs ++ [x]) (ys ++ [y]) (max up left) := by
  refine ⟨?_, ?_⟩
  · rcases max_cases up left with ⟨heq, -⟩ | ⟨heq, -⟩
    · obtain ⟨s, hx, hy, hlen⟩ := hup.1
      exact ⟨s, hx.trans (List.sublist_append_left _ _), hy, hlen.trans heq.symm⟩
    · obtain ⟨s, hx, hy, hlen⟩ := hleft.1
      exact ⟨s, hx, hy.trans (List.sublist_append_left _ _), hlen.trans heq.symm⟩
  · rintro n ⟨s, hx, hy, rfl⟩
    rcases sublist_snoc_iff.mp hx with hxs | ⟨r, rfl, -⟩
    · exact le_max_of_le_left (hup.2 ⟨s, hxs, hy, rfl⟩)
    · rcases sublist_snoc_iff.mp hy with hys | ⟨r', heq, -⟩
      · exact le_max_of_le_right (hleft.2 ⟨r ++ [x], hx, hys, rfl⟩)
      · exact absurd (List.singleton_inj.mp (List.append_inj_right' heq rfl)) hne

end

end Grid
