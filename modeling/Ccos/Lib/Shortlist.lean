import Mathlib.Order.Defs.LinearOrder
import Mathlib.Data.List.Sort
import Mathlib.Data.List.Nodup
import Mathlib.Data.List.Count
import Mathlib.Data.Finset.Max

/-!
# Shortlists

A partial selection keeps some items that are nearest by a distance and reranks them by a score. Equal distances may be
kept, and placed, in any way that leaves a farthest item last, and equal scores stay as they were placed.
-/

namespace Shortlist

/-! ## Counts along a list -/

section

variable {α : Type} {p : α → Bool} {l : List α} {n : Nat}

theorem countP_eq_zero_of_head {a : α} (hmono : (a :: l).Pairwise fun x y => p y = true → p x = true)
    (ha : ¬ p a = true) : l.countP p = 0 :=
  List.countP_eq_zero.mpr fun b hb hp => ha ((List.pairwise_cons.mp hmono).1 b hb hp)

/-- Where what holds of an item holds of all before it, it holds of as many as it is counted for. -/
theorem of_mem_take (hmono : l.Pairwise fun x y => p y = true → p x = true) (hn : n ≤ l.countP p) :
    ∀ x ∈ l.take n, p x = true := by
  induction l generalizing n with
  | nil => simp
  | cons a l ih =>
    cases n with
    | zero => simp
    | succ n =>
      by_cases ha : p a = true
      · rw [List.countP_cons_of_pos ha] at hn
        rw [List.take_succ_cons, List.forall_mem_cons]
        exact ⟨ha, ih (List.pairwise_cons.mp hmono).2 (Nat.le_of_succ_le_succ hn)⟩
      · rw [List.countP_cons_of_neg ha, countP_eq_zero_of_head hmono ha] at hn
        exact absurd hn (Nat.not_succ_le_zero n)

theorem of_mem_drop (hmono : l.Pairwise fun x y => p y = true → p x = true) (hn : l.countP p ≤ n) :
    ∀ x ∈ l.drop n, ¬ p x = true := by
  induction l generalizing n with
  | nil => simp
  | cons a l ih =>
    have hrest := (List.pairwise_cons.mp hmono).2
    by_cases ha : p a = true
    · rw [List.countP_cons_of_pos ha] at hn
      cases n with
      | zero => exact absurd hn (Nat.not_succ_le_zero _)
      | succ n => exact ih hrest (Nat.le_of_succ_le_succ hn)
    · have hzero := countP_eq_zero_of_head hmono ha
      intro x hx
      rcases List.mem_cons.mp (List.mem_of_mem_drop hx) with rfl | hx
      · exact ha
      · exact List.countP_eq_zero.mp hzero x hx

end

section

variable {α H S : Type} [DecidableEq α] [LinearOrder H] [LinearOrder S]

/-! ## Selection and rank -/

/-- `l` may be kept of `all`. -/
def Kept (distance : α → H) (all l : List α) : Prop :=
  ∃ front pivot rest, l = front ++ [pivot] ∧ (l ++ rest).Perm all ∧ (∀ x ∈ front, distance x ≤ distance pivot) ∧
    ∀ y ∈ rest, distance pivot ≤ distance y

/-- How many items of the list come before `a` when it is sorted by score. -/
def rank (score : α → S) (a : α) (l : List α) : Nat :=
  l.countP (fun x => decide (score a < score x)) +
    (l.takeWhile fun x => decide (x ≠ a)).countP fun x => decide (score x = score a)

omit [DecidableEq α] in
theorem countP_le_eq {score : α → S} {a : α} (l : List α) :
    l.countP (fun x => decide (score a ≤ score x)) = l.countP (fun x => decide (score a < score x)) +
      l.countP fun x => decide (score x = score a) := by
  induction l with
  | nil => rfl
  | cons x l ih =>
    simp only [List.countP_cons, ih, decide_eq_true_eq]
    rcases lt_trichotomy (score a) (score x) with h | h | h
    · simp [h, h.le, h.ne']
      omega
    · simp [h]
      omega
    · simp [h.not_ge, h.not_gt, h.ne]

theorem rank_append {score : α → S} {a : α} {before after : List α} (h : a ∉ before) :
    rank score a (before ++ a :: after) = before.countP (fun x => decide (score a ≤ score x)) +
      after.countP fun x => decide (score a < score x) := by
  have htake : (before ++ a :: after).takeWhile (fun x => decide (x ≠ a)) = before := by
    rw [List.takeWhile_append_of_pos, List.takeWhile_cons_of_neg (by simp), List.append_nil]
    intro x hx
    apply decide_eq_true
    rintro rfl
    exact h hx
  rw [rank, htake, List.countP_append, List.countP_cons_of_neg (by simp), countP_le_eq before]
  omega

section Rerank

variable {score : α → S} {r : α → α → Prop} [DecidableRel r]

theorem rank_cons_self (a : α) (l : List α) :
    rank score a (a :: l) = l.countP fun x => decide (score a < score x) := by
  have h : rank score a ([] ++ a :: l) = _ := rank_append List.not_mem_nil
  simpa using h

theorem rank_cons_of_ne {a x : α} (h : x ≠ a) (l : List α) :
    rank score a (x :: l) = rank score a l + if score a ≤ score x then 1 else 0 := by
  unfold rank
  rw [List.takeWhile_cons_of_pos (by simpa using h)]
  simp only [List.countP_cons, decide_eq_true_eq]
  rcases lt_trichotomy (score a) (score x) with hlt | heq | hgt
  · simp [hlt, hlt.le, hlt.ne']
    omega
  · simp [heq]
    omega
  · simp [hgt.not_ge, hgt.not_gt, hgt.ne]

omit [DecidableEq α] in
/-- An insertion passes the items of a greater score. -/
theorem insert_self {a : α} {l : List α} (hl : l.Pairwise fun x y => score y ≤ score x)
    (hr : ∀ x ∈ l, r a x ↔ score x ≤ score a) :
    ∃ before after, l.orderedInsert r a = before ++ a :: after ∧
      before.length = l.countP (fun x => decide (score a < score x)) ∧ ∀ x ∈ before, score a ≤ score x := by
  induction l with
  | nil => exact ⟨[], [], rfl, rfl, by simp⟩
  | cons x l ih =>
    obtain ⟨hx, hl⟩ := List.pairwise_cons.mp hl
    obtain ⟨hrx, hr⟩ := List.forall_mem_cons.mp hr
    rw [List.orderedInsert_cons]
    by_cases h : score x ≤ score a
    · have hzero : (x :: l).countP (fun y => decide (score a < score y)) = 0 := by
        apply List.countP_eq_zero.mpr
        intro y hy
        rcases List.mem_cons.mp hy with rfl | hy
        · simpa using h
        · simpa using (hx y hy).trans h
      exact ⟨[], x :: l, if_pos (hrx.mpr h), hzero.symm, by simp⟩
    · obtain ⟨before, after, heq, hlen, hle⟩ := ih hl hr
      refine ⟨x :: before, after, ?_, ?_, List.forall_mem_cons.mpr ⟨(not_le.mp h).le, hle⟩⟩
      · rw [if_neg fun h' => h (hrx.mp h'), heq]
        rfl
      · rw [List.countP_cons_of_pos (by simpa using h), List.length_cons, hlen]

omit [DecidableEq α] in
/-- An insertion is before an item when its score is not below. -/
theorem insert_other {a x : α} {before after : List α} (hr : ∀ y ∈ before ++ a :: after, r x y ↔ score y ≤ score x)
    (hle : ∀ y ∈ before, score a ≤ score y) :
    ∃ before' after', (before ++ a :: after).orderedInsert r x = before' ++ a :: after' ∧
      before'.length = before.length + (if score a ≤ score x then 1 else 0) ∧ ∀ y ∈ before', score a ≤ score y := by
  induction before with
  | nil =>
    have hra := hr a List.mem_cons_self
    rw [List.nil_append, List.orderedInsert_cons]
    by_cases h : score a ≤ score x
    · exact ⟨[x], after, if_pos (hra.mpr h), by simp [h], by simpa using h⟩
    · exact ⟨[], _, if_neg fun h' => h (hra.mp h'), by simp [h], by simp⟩
  | cons b before ih =>
    obtain ⟨hrb, hr⟩ := List.forall_mem_cons.mp hr
    obtain ⟨hb, hle⟩ := List.forall_mem_cons.mp hle
    rw [List.cons_append, List.orderedInsert_cons]
    by_cases h : score b ≤ score x
    · have hax := hb.trans h
      refine ⟨x :: b :: before, after, if_pos (hrb.mpr h), by simp [hax], ?_⟩
      exact List.forall_mem_cons.mpr ⟨hax, List.forall_mem_cons.mpr ⟨hb, hle⟩⟩
    · obtain ⟨before', after', heq, hlen, hle'⟩ := ih hr hle
      refine ⟨b :: before', after', ?_, ?_, List.forall_mem_cons.mpr ⟨hb, hle'⟩⟩
      · rw [if_neg fun h' => h (hrb.mp h'), heq]
        rfl
      · rw [List.length_cons, List.length_cons, hlen]
        omega

omit [DecidableEq α] in
theorem sorted_by_score {l : List α} (hr : ∀ x ∈ l, ∀ y ∈ l, r x y ↔ score y ≤ score x) :
    (l.insertionSort r).Pairwise fun x y => score y ≤ score x := by
  induction l with
  | nil => exact List.Pairwise.nil
  | cons x l ih =>
    have hl := ih fun y hy z hz => hr y (List.mem_cons_of_mem _ hy) z (List.mem_cons_of_mem _ hz)
    have hx : ∀ y ∈ l.insertionSort r, r x y ↔ score y ≤ score x := fun y hy =>
      hr x List.mem_cons_self y (List.mem_cons_of_mem _ ((List.mem_insertionSort r).mp hy))
    rw [List.insertionSort_cons]
    generalize l.insertionSort r = sorted at hl hx
    induction sorted with
    | nil => exact List.pairwise_singleton _ _
    | cons b sorted ih' =>
      obtain ⟨hb, hsorted⟩ := List.pairwise_cons.mp hl
      obtain ⟨hxb, hx⟩ := List.forall_mem_cons.mp hx
      rw [List.orderedInsert_cons]
      by_cases h : score b ≤ score x
      · rw [if_pos (hxb.mpr h)]
        refine List.pairwise_cons.mpr ⟨List.forall_mem_cons.mpr ⟨h, fun y hy => (hb y hy).trans h⟩, hl⟩
      · rw [if_neg fun h' => h (hxb.mp h')]
        refine List.pairwise_cons.mpr ⟨fun y hy => ?_, ih' hsorted hx⟩
        rcases (List.mem_orderedInsert r).mp hy with rfl | hy
        · exact (not_le.mp h).le
        · exact hb y hy

/-- A stable sort by score puts an item after the `rank` items that come before it. -/
theorem exists_sorted_split {l : List α} (hr : ∀ x ∈ l, ∀ y ∈ l, r x y ↔ score y ≤ score x) {a : α} (ha : a ∈ l) :
    ∃ before after, l.insertionSort r = before ++ a :: after ∧ before.length = rank score a l ∧
      ∀ x ∈ before, score a ≤ score x := by
  induction l with
  | nil => exact absurd ha List.not_mem_nil
  | cons x l ih =>
    have hrl : ∀ y ∈ l, ∀ z ∈ l, r y z ↔ score z ≤ score y := fun y hy z hz =>
      hr y (List.mem_cons_of_mem _ hy) z (List.mem_cons_of_mem _ hz)
    have hrx : ∀ y ∈ l.insertionSort r, r x y ↔ score y ≤ score x := fun y hy =>
      hr x List.mem_cons_self y (List.mem_cons_of_mem _ ((List.mem_insertionSort r).mp hy))
    rw [List.insertionSort_cons]
    by_cases hxa : x = a
    · subst hxa
      rw [rank_cons_self, ← (List.perm_insertionSort r l).countP_eq]
      exact insert_self (sorted_by_score hrl) hrx
    · obtain ⟨before, after, hsplit, hlen, hle⟩ := ih hrl ((List.mem_cons.mp ha).resolve_left (Ne.symm hxa))
      rw [rank_cons_of_ne hxa, ← hlen]
      rw [hsplit] at hrx ⊢
      exact insert_other hrx hle

theorem mem_take_sorted {l : List α} (hl : l.Nodup) (hr : ∀ x ∈ l, ∀ y ∈ l, r x y ↔ score y ≤ score x) {a : α}
    {k : Nat} : a ∈ (l.insertionSort r).take k ↔ a ∈ l ∧ rank score a l < k := by
  by_cases ha : a ∈ l
  · obtain ⟨before, after, hsplit, hlen, -⟩ := exists_sorted_split hr ha
    have hnodup := (List.perm_insertionSort r l).nodup_iff.mpr hl
    rw [hsplit] at hnodup ⊢
    have hnot : a ∉ before := fun h => (List.nodup_append.mp hnodup).2.2 a h a List.mem_cons_self rfl
    rw [← hlen]
    constructor
    · intro h
      refine ⟨ha, Nat.lt_of_not_le fun hk => hnot ?_⟩
      rw [List.take_append_of_le_length hk] at h
      exact List.mem_of_mem_take h
    · rintro ⟨-, h⟩
      rw [List.take_append, List.take_of_length_le h.le]
      obtain ⟨n, hn⟩ : ∃ n, k - before.length = n + 1 := ⟨k - before.length - 1, by omega⟩
      rw [hn, List.take_succ_cons]
      exact List.mem_append_right _ List.mem_cons_self
  · exact ⟨fun h => absurd ((List.mem_insertionSort r).mp (List.mem_of_mem_take h)) ha, fun h => absurd h.1 ha⟩

end Rerank

/-! ## Where an item stands -/

variable (distance : α → H) (score : α → S) (all : List α)

/-- The nearer items. -/
def nearer (a : α) : Nat := all.countP fun x => decide (distance x < distance a)

/-- The items that are no farther, `a` among them. -/
def within (a : α) : Nat := all.countP fun x => decide (distance x ≤ distance a)

/-- Some shortlist of `m` items has `a` among its best `k`: when all others are nearer `a` is last among its equals. -/
def MayFind (k : Nat) (a : α) (m : Nat) : Prop :=
  nearer distance all a < m ∧
    (m = nearer distance all a + 1 →
      all.countP (fun x => decide (distance x < distance a ∧ score a ≤ score x)) < k)

/-- Among all items but a farthest one, `j`, at least `k` come before `a`, also when the one that is last, `l`, does not
for an equal score. -/
def Crowded (k : Nat) (a : α) : Prop :=
  ∃ j ∈ all, ∃ l ∈ all, j ≠ l ∧ j ≠ a ∧ distance l ≤ distance j ∧ (∀ x ∈ all, x ≠ j → distance x ≤ distance l) ∧
    k ≤ all.countP fun x => decide (x ≠ a ∧ x ≠ j ∧ score a ≤ score x ∧ (x = l → score a < score x))

variable {distance score all}

/-! ## Found items -/

omit [DecidableEq α] [LinearOrder S] in
theorem le_pivot {l front : List α} {pivot : α} (h : l = front ++ [pivot])
    (hfront : ∀ x ∈ front, distance x ≤ distance pivot) : ∀ x ∈ l, distance x ≤ distance pivot := by
  intro x hx
  rw [h, List.mem_append, List.mem_singleton] at hx
  rcases hx with hx | rfl
  · exact hfront x hx
  · exact le_refl _

omit [DecidableEq α] [LinearOrder S] in
theorem mem_of_within {l : List α} (hl : Kept distance all l) {a : α} (ha : a ∈ all)
    (h : within distance all a ≤ l.length) : a ∈ l := by
  obtain ⟨front, pivot, rest, hlist, hperm, hfront, hrest⟩ := hl
  have hpivot := le_pivot hlist hfront
  by_contra hnot
  have harest : a ∈ rest := (List.mem_append.mp (hperm.mem_iff.mpr ha)).resolve_left hnot
  have hcount : within distance all a = l.countP (fun x => decide (distance x ≤ distance a)) +
      rest.countP fun x => decide (distance x ≤ distance a) := by
    rw [within, ← hperm.countP_eq, List.countP_append]
  have hfull : l.countP (fun x => decide (distance x ≤ distance a)) = l.length :=
    List.countP_eq_length.mpr fun x hx => decide_eq_true ((hpivot x hx).trans (hrest a harest))
  have hpos : 0 < rest.countP fun x => decide (distance x ≤ distance a) :=
    List.countP_pos_iff.mpr ⟨a, harest, decide_eq_true (le_refl _)⟩
  omega

theorem mayFind_of_found {k : Nat} {l : List α} {a : α} (hall : all.Nodup) (hl : Kept distance all l) (ha : a ∈ l)
    (hfound : rank score a l < k) : MayFind distance score all k a l.length := by
  obtain ⟨front, pivot, rest, hlist, hperm, hfront, hrest⟩ := hl
  have hpivot := le_pivot hlist hfront
  have hnone : ∀ y ∈ rest, ¬ distance y < distance a := fun y hy => ((hpivot a ha).trans (hrest y hy)).not_gt
  have hzero : rest.countP (fun x => decide (distance x < distance a)) = 0 :=
    List.countP_eq_zero.mpr fun y hy => by simpa using hnone y hy
  have hnear : nearer distance all a = l.countP fun x => decide (distance x < distance a) := by
    rw [nearer, ← hperm.countP_eq, List.countP_append, hzero, Nat.add_zero]
  refine ⟨hnear ▸ List.countP_lt_length_iff.mpr ⟨a, ha, by simp⟩, fun hlen => ?_⟩
  -- Only `a` itself is not nearer, so it stands last.
  have hnodup : l.Nodup := ((hperm.nodup_iff.mpr hall).sublist (List.sublist_append_left l rest))
  have hrestl : (l.erase a).countP (fun x => decide (distance x < distance a)) = (l.erase a).length := by
    have hcount := (List.perm_cons_erase ha).countP_eq fun x => decide (distance x < distance a)
    rw [List.countP_cons_of_neg (by simp)] at hcount
    rw [List.length_erase_of_mem ha, ← hcount]
    omega
  have hothers : ∀ x ∈ l, x ≠ a → distance x < distance a := fun x hx hne =>
    of_decide_eq_true (List.countP_eq_length.mp hrestl x ((List.mem_erase_of_ne hne).mpr hx))
  have hlast : pivot = a := by
    by_contra hne
    have hpl : pivot ∈ l := by simp [hlist]
    exact absurd (hothers pivot hpl hne) (hpivot a ha).not_gt
  subst hlast
  have hnot : pivot ∉ front := by
    rw [hlist] at hnodup
    exact fun hmem => (List.nodup_append.mp hnodup).2.2 pivot hmem pivot (List.mem_singleton_self pivot) rfl
  rw [hlist, rank_append hnot, List.countP_nil, Nat.add_zero] at hfound
  have hzero : rest.countP (fun x => decide (distance x < distance pivot ∧ score pivot ≤ score x)) = 0 :=
    List.countP_eq_zero.mpr fun y hy h => hnone y hy (of_decide_eq_true h).1
  rw [← hperm.countP_eq, List.countP_append, hzero, Nat.add_zero, hlist, List.countP_append,
    List.countP_cons_of_neg (by simp), List.countP_nil, Nat.add_zero]
  refine Nat.lt_of_le_of_lt (List.countP_mono_left fun x hx h => ?_) hfound
  simp only [decide_eq_true_eq] at h ⊢
  exact h.2

/-! ## Shortlists that find, and that miss -/

/-- All other items, nearest first. -/
def others (distance : α → H) (all : List α) (a : α) : List α :=
  (all.erase a).insertionSort fun x y => distance x ≤ distance y

theorem others_perm (distance : α → H) {a : α} (ha : a ∈ all) : (a :: others distance all a).Perm all :=
  ((List.perm_insertionSort _ _).cons a).trans (List.perm_cons_erase ha).symm

theorem others_sorted (distance : α → H) (all : List α) (a : α) :
    (others distance all a).Pairwise fun x y => distance x ≤ distance y := by
  have htotal : Std.Total fun x y : α => distance x ≤ distance y := ⟨fun x y => le_total _ _⟩
  have htrans : IsTrans α fun x y => distance x ≤ distance y := ⟨fun _ _ _ => le_trans⟩
  exact List.pairwise_insertionSort _ _

theorem countP_others (distance : α → H) {a : α} (ha : a ∈ all) (p : α → Bool) :
    all.countP p = (others distance all a).countP p + if p a then 1 else 0 := by
  rw [← (others_perm distance ha).countP_eq, List.countP_cons]

theorem not_mem_others (distance : α → H) {a : α} (hall : all.Nodup) (ha : a ∈ all) : a ∉ others distance all a :=
  (List.nodup_cons.mp ((others_perm distance ha).nodup_iff.mpr hall)).1

theorem monotone_lt (all : List α) (a : α) : (others distance all a).Pairwise fun x y =>
    decide (distance y < distance a) = true → decide (distance x < distance a) = true :=
  (others_sorted distance all a).imp fun h hy => decide_eq_true (h.trans_lt (of_decide_eq_true hy))

theorem monotone_le (all : List α) (a : α) : (others distance all a).Pairwise fun x y =>
    decide (distance y ≤ distance a) = true → decide (distance x ≤ distance a) = true :=
  (others_sorted distance all a).imp fun h hy => decide_eq_true (h.trans (of_decide_eq_true hy))

omit [DecidableEq α] in
theorem take_succ_eq {l : List α} {n : Nat} (h : n < l.length) : l.take (n + 1) = l.take n ++ [l[n]] := by
  rw [List.take_add_one, List.getElem?_eq_getElem h]
  rfl

omit [DecidableEq α] in
theorem le_getElem (distance : α → H) {l : List α} (hl : l.Pairwise fun x y => distance x ≤ distance y) {n : Nat}
    (h : n < l.length) :
    (∀ x ∈ l.take n, distance x ≤ distance l[n]) ∧ ∀ y ∈ l.drop (n + 1), distance l[n] ≤ distance y := by
  have hsplit : l = l.take n ++ l[n] :: l.drop (n + 1) := by
    rw [List.getElem_cons_drop, List.take_append_drop]
  rw [hsplit] at hl
  obtain ⟨-, hrest, hcross⟩ := List.pairwise_append.mp hl
  exact ⟨fun x hx => hcross x hx _ List.mem_cons_self, (List.pairwise_cons.mp hrest).1⟩

theorem exists_found {k m : Nat} {a : α} (hall : all.Nodup) (ha : a ∈ all) (hm : m ≤ all.length)
    (hmay : MayFind distance score all k a m)
    (hbest : all.countP (fun x => decide (score a < score x)) < k) :
    ∃ l, Kept distance all l ∧ l.length = m ∧ a ∈ l ∧ rank score a l < k := by
  obtain ⟨hlt, hedge⟩ := hmay
  have hlen : all.length = (others distance all a).length + 1 := ((others_perm distance ha).length_eq).symm
  have hnear : (others distance all a).countP (fun x => decide (distance x < distance a)) = nearer distance all a := by
    rw [nearer, countP_others distance ha]
    simp
  have hsorted := others_sorted distance all a
  have hnot := not_mem_others distance hall ha
  generalize hs : others distance all a = s at *
  have hperm : (a :: s).Perm all := hs ▸ others_perm distance ha
  by_cases hcase : m = nearer distance all a + 1
  · -- `a` is last.
    subst hcase
    have hfront : ∀ x ∈ s.take (nearer distance all a), distance x < distance a := fun x hx =>
      of_decide_eq_true (of_mem_take (hs ▸ monotone_lt all a) hnear.ge x hx)
    refine ⟨s.take (nearer distance all a) ++ [a],
      ⟨_, a, s.drop (nearer distance all a), rfl, ?_, fun x hx => (hfront x hx).le, fun y hy => ?_⟩, ?_,
      by simp, ?_⟩
    · rw [List.append_assoc, List.singleton_append]
      refine (List.perm_middle).trans ?_
      rwa [List.take_append_drop]
    · have := of_mem_drop (hs ▸ monotone_lt all a) hnear.le y hy
      exact not_lt.mp fun h => this (decide_eq_true h)
    · rw [List.length_append, List.length_take, List.length_singleton]
      omega
    · rw [rank_append fun h => hnot (List.mem_of_mem_take h), List.countP_nil, Nat.add_zero]
      refine Nat.lt_of_le_of_lt ?_ (hedge rfl)
      rw [← hperm.countP_eq, List.countP_cons_of_neg (by simp)]
      refine (List.countP_mono_left fun x hx h => ?_).trans (List.take_sublist _ s).countP_le
      exact decide_eq_true ⟨hfront x hx, of_decide_eq_true h⟩
  · -- `a` is first.
    obtain ⟨n, rfl⟩ : ∃ n, m = n + 2 := ⟨m - 2, by omega⟩
    have hn : n < s.length := by omega
    obtain ⟨hle, hge⟩ := le_getElem distance hsorted hn
    have hpivot : distance a ≤ distance s[n] := by
      have hmem : s[n] ∈ s.drop n := by
        rw [List.drop_eq_getElem_cons hn]
        exact List.mem_cons_self
      have := of_mem_drop (hs ▸ monotone_lt all a) (show _ ≤ n by omega) _ hmem
      exact not_lt.mp fun h => this (decide_eq_true h)
    refine ⟨a :: s.take (n + 1), ⟨a :: s.take n, s[n], s.drop (n + 1), ?_, ?_, ?_, hge⟩, ?_,
      List.mem_cons_self, ?_⟩
    · rw [take_succ_eq hn, List.cons_append]
    · rwa [List.cons_append, List.take_append_drop]
    · exact List.forall_mem_cons.mpr ⟨hpivot, hle⟩
    · rw [List.length_cons, List.length_take]
      omega
    · rw [rank_cons_self]
      refine Nat.lt_of_le_of_lt ?_ hbest
      rw [← hperm.countP_eq, List.countP_cons_of_neg (by simp)]
      exact (List.take_sublist _ s).countP_le

theorem exists_missed {m : Nat} {a : α} (hall : all.Nodup) (ha : a ∈ all) (hpos : 0 < m)
    (hm : m < within distance all a) : ∃ l, Kept distance all l ∧ l.length = m ∧ a ∉ l := by
  have hlen : all.length = (others distance all a).length + 1 := ((others_perm distance ha).length_eq).symm
  have hwithin : (others distance all a).countP (fun x => decide (distance x ≤ distance a)) + 1 =
      within distance all a := by
    rw [within, countP_others distance ha]
    simp
  have hsorted := others_sorted distance all a
  have hnot := not_mem_others distance hall ha
  have hcount := List.countP_le_length (p := fun x => decide (distance x ≤ distance a)) (l := others distance all a)
  generalize hs : others distance all a = s at *
  have hperm : (a :: s).Perm all := hs ▸ others_perm distance ha
  obtain ⟨n, rfl⟩ : ∃ n, m = n + 1 := ⟨m - 1, by omega⟩
  have hn : n < s.length := by omega
  obtain ⟨hle, hge⟩ := le_getElem distance hsorted hn
  have hmem : s[n] ∈ s.take (n + 1) := by
    rw [take_succ_eq hn]
    exact List.mem_append_right _ (List.mem_singleton_self _)
  have hnear : n + 1 ≤ s.countP fun x => decide (distance x ≤ distance a) := by omega
  have hpivot : distance s[n] ≤ distance a := of_decide_eq_true (of_mem_take (hs ▸ monotone_le all a) hnear s[n] hmem)
  refine ⟨s.take (n + 1), ⟨s.take n, s[n], s.drop (n + 1) ++ [a], take_succ_eq hn, ?_, hle, ?_⟩, ?_,
    fun h => hnot (List.mem_of_mem_take h)⟩
  · rw [← List.append_assoc, List.take_append_drop]
    exact (List.perm_append_singleton a s).trans hperm
  · intro y hy
    rcases List.mem_append.mp hy with hy | hy
    · exact hge y hy
    · rw [List.mem_singleton.mp hy]
      exact hpivot
  · rw [List.length_take]
    omega

theorem exists_crowded {k : Nat} {a : α} (hall : all.Nodup) (ha : a ∈ all)
    (h : Crowded distance score all k a) :
    ∃ l, Kept distance all l ∧ l.length + 1 = all.length ∧ ¬ (a ∈ l ∧ rank score a l < k) := by
  obtain ⟨j, hj, l, hl, hjl, hja, hdist, hfar, hcount⟩ := h
  have hpermj := List.perm_cons_erase hj
  have hnodupj : (all.erase j).Nodup := hall.erase j
  have haj : a ∈ all.erase j := (List.mem_erase_of_ne hja.symm).mpr ha
  have hperma := List.perm_cons_erase haj
  have hfront : ∀ x ∈ all.erase j, distance x ≤ distance l := fun x hx =>
    hfar x (List.mem_of_mem_erase hx) fun heq => (hall.mem_erase_iff.mp hx).1 heq
  have hnota : a ∉ (all.erase j).erase a := hnodupj.not_mem_erase
  have hjnot : ∀ x ∈ all.erase j, x ≠ j := fun x hx => (hall.mem_erase_iff.mp hx).1
  rw [hpermj.countP_eq, List.countP_cons_of_neg (by simp), hperma.countP_eq,
    List.countP_cons_of_neg (by simp)] at hcount
  generalize hrest : (all.erase j).erase a = rest at *
  by_cases hla : l = a
  · subst hla
    refine ⟨rest ++ [l], ⟨rest, l, [j], rfl, ?_, fun x hx => ?_, by simpa using hdist⟩, ?_, fun hfound => ?_⟩
    · exact ((List.perm_append_singleton j _).trans
        (((List.perm_append_singleton l rest).trans hperma.symm).cons j)).trans hpermj.symm
    · exact hfront x (hperma.mem_iff.mpr (List.mem_cons_of_mem _ hx))
    · rw [hpermj.length_eq, List.length_cons, hperma.length_eq]
      simp
    · rw [rank_append hnota, List.countP_nil, Nat.add_zero] at hfound
      refine absurd (hcount.trans (List.countP_mono_left fun x hx h => ?_)) hfound.2.not_ge
      simp only [decide_eq_true_eq] at h ⊢
      exact h.2.2.1
  · have hlrest : l ∈ rest := by
      have hlj : l ∈ all.erase j := (List.mem_erase_of_ne hjl.symm).mpr hl
      exact (List.mem_cons.mp (hperma.mem_iff.mp hlj)).resolve_left hla
    have hperml := List.perm_cons_erase hlrest
    have hnodupr : rest.Nodup := hrest ▸ hnodupj.erase a
    have hlnot : l ∉ rest.erase l := hnodupr.not_mem_erase
    have hnota' : a ∉ rest.erase l := fun h => hnota (List.mem_of_mem_erase h)
    refine ⟨rest.erase l ++ a :: [l], ⟨rest.erase l ++ [a], l, [j], by simp, ?_, fun x hx => ?_, by simpa using hdist⟩,
      ?_, fun hfound => ?_⟩
    · refine ((List.perm_append_singleton j _).trans (List.Perm.cons j ?_)).trans hpermj.symm
      refine List.Perm.trans ?_ hperma.symm
      exact List.perm_middle.trans (((List.perm_append_singleton l _).trans hperml.symm).cons a)
    · rcases List.mem_append.mp hx with hx | hx
      · exact hfront x (hperma.mem_iff.mpr (List.mem_cons_of_mem _ (List.mem_of_mem_erase hx)))
      · rw [List.mem_singleton.mp hx]
        exact hfront a haj
    · rw [hpermj.length_eq, List.length_cons, hperma.length_eq, List.length_cons, hperml.length_eq]
      simp
    · rw [rank_append hnota'] at hfound
      refine absurd (hcount.trans ?_) hfound.2.not_ge
      rw [hperml.countP_eq, List.countP_cons, Nat.add_comm, Nat.add_comm (List.countP _ _)]
      refine Nat.add_le_add ?_ (List.countP_mono_left fun x hx h => ?_)
      · rw [List.countP_singleton]
        by_cases hlt : score a < score l
        · simp [hlt]
          split <;> omega
        · simp [hlt]
      · simp only [decide_eq_true_eq] at h ⊢
        exact h.2.2.1

/-- The items that come before `a` in a list whose last item is `pivot`. -/
theorem rank_le (score : α → S) {front l : List α} {pivot a : α} (hnodup : l.Nodup) (hlist : l = front ++ [pivot])
    (ha : a ∈ l) :
    rank score a l ≤ l.countP fun x =>
      decide (x ≠ a ∧ score a ≤ score x ∧ (x = pivot → score a < score x)) := by
  obtain ⟨before, after, hsplit⟩ := List.append_of_mem ha
  have hnot : a ∉ before ∧ a ∉ after := by
    rw [hsplit] at hnodup
    have := (List.nodup_middle.mp hnodup)
    simpa using (List.nodup_cons.mp this).1
  have hpivot : pivot ∉ before := by
    intro hmem
    rw [hsplit] at hnodup hlist
    obtain ⟨t, ht⟩ : ∃ t, a :: after = t ++ [pivot] := by
      have hne : a :: after ≠ [] := List.cons_ne_nil _ _
      refine ⟨(a :: after).dropLast, ?_⟩
      have hlast := congrArg List.getLast? hlist
      rw [List.getLast?_append_of_ne_nil _ hne, List.getLast?_concat, List.getLast?_eq_getLast_of_ne_nil hne] at hlast
      rw [← Option.some.inj hlast, List.dropLast_append_getLast]
    have hin : pivot ∈ a :: after := by simp [ht]
    exact (List.nodup_append.mp hnodup).2.2 pivot hmem pivot hin rfl
  rw [hsplit, rank_append hnot.1, List.countP_append, List.countP_cons_of_neg (by simp)]
  refine Nat.add_le_add (List.countP_mono_left fun x hx h => ?_) (List.countP_mono_left fun x hx h => ?_)
  · simp only [decide_eq_true_eq] at h ⊢
    exact ⟨fun heq => hnot.1 (heq ▸ hx), h, fun heq => absurd (heq ▸ hx) hpivot⟩
  · simp only [decide_eq_true_eq] at h ⊢
    exact ⟨fun heq => hnot.2 (heq ▸ hx), h.le, fun _ => h⟩

theorem exists_farthest (distance : α → H) {l : List α} (h : l ≠ []) : ∃ j ∈ l, ∀ x ∈ l, distance x ≤ distance j := by
  obtain ⟨j, hj, hmax⟩ := Finset.exists_max_image l.toFinset distance (by simpa using h)
  exact ⟨j, List.mem_toFinset.mp hj, fun x hx => hmax x (List.mem_toFinset.mpr hx)⟩

/-- A shortlist that keeps all items no farther than `a` finds it, unless it is crowded. -/
theorem found_of_not_crowded {k : Nat} {a : α} {l : List α} (hall : all.Nodup) (ha : a ∈ all)
    (hl : Kept distance all l) (hwithin : within distance all a ≤ l.length) (hlen : l.length < all.length)
    (h : ¬ Crowded distance score all k a) : a ∈ l ∧ rank score a l < k := by
  have hal := mem_of_within hl ha hwithin
  refine ⟨hal, ?_⟩
  obtain ⟨front, pivot, rest, hlist, hperm, hfront, hrest⟩ := hl
  have hpivot := le_pivot hlist hfront
  have hnodup : (l ++ rest).Nodup := hperm.nodup_iff.mpr hall
  obtain ⟨hnodupl, hnodupr, hdisj⟩ := List.nodup_append.mp hnodup
  have hrank := rank_le score hnodupl hlist hal
  have hne : rest ≠ [] := by
    rintro rfl
    rw [← hperm.length_eq, List.append_nil] at hlen
    exact absurd hlen (lt_irrefl _)
  obtain ⟨j, hj, hjfar⟩ := exists_farthest distance hne
  have hpl : pivot ∈ l := by simp [hlist]
  have hmem : ∀ x, x ∈ all ↔ x ∈ l ∨ x ∈ rest := fun x => by rw [← hperm.mem_iff, List.mem_append]
  by_contra hk
  have hcrowd : ∀ last ∈ all, last ≠ j → distance last ≤ distance j → (last ∈ l → last = pivot) →
      (∀ x ∈ all, x ≠ j → distance x ≤ distance last) → False := by
    intro last hlast hnej hle heq hfar
    refine h ⟨j, (hmem j).mpr (Or.inr hj), last, hlast, hnej.symm, fun h => hdisj a hal j hj h.symm, hle, hfar, ?_⟩
    rw [← hperm.countP_eq, List.countP_append]
    refine ((not_lt.mp hk).trans hrank).trans
      (Nat.le_trans (List.countP_mono_left fun x hx h => ?_) (Nat.le_add_right _ _))
    simp only [decide_eq_true_eq] at h ⊢
    exact ⟨h.1, hdisj x hx j hj, h.2.1, fun h' => h.2.2 (h' ▸ heq (h' ▸ hx))⟩
  by_cases hone : rest.erase j = []
  · refine hcrowd pivot ((hmem pivot).mpr (Or.inl hpl)) (hdisj pivot hpl j hj) (hrest j hj) (fun _ => rfl)
      fun x hx hne => ?_
    rcases (hmem x).mp hx with hx | hx
    · exact hpivot x hx
    · exact absurd ((List.mem_erase_of_ne hne).mpr hx) (hone ▸ List.not_mem_nil)
  · obtain ⟨last, hlast, hfar⟩ := exists_farthest distance hone
    have hlastr := List.mem_of_mem_erase hlast
    refine hcrowd last ((hmem last).mpr (Or.inr hlastr)) (hnodupr.mem_erase_iff.mp hlast).1 (hjfar last hlastr)
      (fun hmeml => absurd rfl (hdisj last hmeml last hlastr)) fun x hx hne => ?_
    rcases (hmem x).mp hx with hx | hx
    · exact (hpivot x hx).trans (hrest last hlastr)
    · exact hfar x ((List.mem_erase_of_ne hne).mpr hx)

end

end Shortlist
