import Ccos.Lib.StableSort

/-!
# Merged rankings

Several rankings are put one after another, sorted by key, and cut. The sort is stable, so elements of one key come in
the order in which their rankings were taken.
-/

open Std

namespace Ccos

variable {α β : Type}

/-! ## Words cut to a length -/

theorem take_append_eq_iff {m : Nat} {u v : List α} (w : List α) (h : u.length = v.length) :
    (u ++ w).take m = (v ++ w).take m ↔ u.take m = v.take m := by
  constructor
  · intro heq
    have hcut := congrArg (List.take u.length) heq
    rwa [List.take_take, List.take_take, Nat.min_comm, ← List.take_take, ← List.take_take, List.take_left,
      h, List.take_left] at hcut
  · intro heq
    rw [List.take_append, List.take_append, heq, h]

/-- Cut to `m`, words that read the same in both orders pairwise make one text in all orders. -/
theorem take_flatMap_of_perm {γ : Type} {f : γ → List α} {us us' : List γ} (hperm : us.Perm us') {m : Nat}
    (h : us.Pairwise fun u v => (f u ++ f v).take m = (f v ++ f u).take m) :
    (us.flatMap f).take m = (us'.flatMap f).take m := by
  induction hperm generalizing m with
  | nil => rfl
  | cons u _ ih =>
    rw [List.flatMap_cons, List.flatMap_cons, List.take_append, List.take_append]
    refine congrArg (List.take m (f u) ++ ·) (ih ((List.pairwise_cons.mp h).2.imp fun {v w} hvw => ?_))
    have hcut := congrArg (List.take (m - (f u).length)) hvw
    rwa [List.take_take, List.take_take, Nat.min_eq_left (Nat.sub_le _ _)] at hcut
  | swap u v l =>
    have huv := (List.pairwise_cons.mp h).1 u List.mem_cons_self
    simp only [List.flatMap_cons, ← List.append_assoc]
    exact (take_append_eq_iff (l.flatMap f) (by simp [Nat.add_comm])).mpr huv
  | trans hfirst _ ih ih' =>
    rw [ih h, ih' ((hfirst.pairwise_iff fun huv => huv.symm).mp h)]

theorem take_flatMap_perm_iff {γ : Type} {f : γ → List α} {us : List γ} {m : Nat} :
    (∀ us' : List γ, us'.Perm us → (us'.flatMap f).take m = (us.flatMap f).take m) ↔
      us.Pairwise fun u v => (f u ++ f v).take m = (f v ++ f u).take m := by
  constructor
  · intro h
    refine List.pairwise_iff_forall_sublist.mpr fun {u v} hsub => ?_
    obtain ⟨rest, hrest⟩ := hsub.exists_perm_append
    have hfirst := h _ hrest.symm
    have hsecond := h (v :: u :: rest) ((List.Perm.swap u v rest).trans hrest.symm)
    have heq := hfirst.trans hsecond.symm
    simp only [List.cons_append, List.nil_append, List.flatMap_cons, ← List.append_assoc] at heq
    exact (take_append_eq_iff (rest.flatMap f) (by simp [Nat.add_comm])).mp heq
  · intro h us' hperm
    exact (take_flatMap_of_perm hperm.symm h).symm

/-! ## Merging -/

section

variable [DecidableEq β] [Ord β] {key : α → β}

def merged (key : α → β) (k : Nat) (rankings : List (List α)) : List α :=
  (sortBy (fun a b => compare (key a) (key b)) rankings.flatten).take k

/-- How many elements have a smaller key. -/
def countLower (key : α → β) (d : β) (l : List α) : Nat := l.countP fun a => compare (key a) d = .lt

variable [TransOrd β] [LawfulEqOrd β]

/-- Cutting a sorted list cuts the elements of a key behind those of smaller keys. -/
theorem keyed_take {l : List α} (hl : l.Pairwise fun a b => (compare (key a) (key b)).isLE) (k : Nat) (d : β) :
    keyed key d (l.take k) = (keyed key d l).take (k - countLower key d l) := by
  induction l generalizing k with
  | nil => simp [keyed]
  | cons a l ih =>
    obtain ⟨ha, hl⟩ := List.pairwise_cons.mp hl
    cases k with
    | zero => simp [keyed]
    | succ k =>
      have ih := ih hl k
      unfold countLower at ih ⊢
      rw [List.take_succ_cons, keyed_cons, keyed_cons, ih]
      by_cases hlt : compare (key a) d = .lt
      · have hne : key a ≠ d := fun heq => by rw [heq, ReflOrd.compare_self] at hlt; cases hlt
        rw [List.countP_cons_of_pos (by simpa using hlt), if_neg hne, if_neg hne, Nat.add_sub_add_right]
      · -- No later element has a smaller key either.
        have hzero : l.countP (fun b => decide (compare (key b) d = .lt)) = 0 := by
          refine List.countP_eq_zero.mpr fun b hb h => hlt ?_
          exact TransCmp.lt_of_isLE_of_lt (ha b hb) (of_decide_eq_true h)
        rw [List.countP_cons_of_neg (by simpa using hlt), hzero, Nat.sub_zero, Nat.sub_zero]
        by_cases heq : key a = d
        · rw [if_pos heq, if_pos heq, List.take_succ_cons]
        · have hnone : keyed key d l = [] := by
            refine List.filter_eq_nil_iff.mpr fun b hb h => ?_
            have hbd : key b = d := of_decide_eq_true h
            have hle := ha b hb
            rw [hbd] at hle
            cases hcmp : compare (key a) d with
            | lt => exact hlt hcmp
            | eq => exact heq (LawfulEqOrd.compare_eq_iff_eq.mp hcmp)
            | gt => rw [hcmp] at hle; cases hle
          rw [if_neg heq, if_neg heq, hnone, List.take_nil, List.take_nil]

omit [Ord β] [TransOrd β] [LawfulEqOrd β] in
theorem keyed_flatten (d : β) (rankings : List (List α)) :
    keyed key d rankings.flatten = rankings.flatMap (keyed key d) := by
  unfold keyed
  rw [List.filter_flatten, List.flatMap_def]

theorem keyed_merged (k : Nat) (rankings : List (List α)) (d : β) :
    keyed key d (merged key k rankings) =
      (rankings.flatMap (keyed key d)).take (k - countLower key d rankings.flatten) := by
  unfold merged
  rw [keyed_take (pairwise_sortBy key _), keyed_sortBy, keyed_flatten]
  unfold countLower
  rw [(perm_sortBy _ _).countP_eq]

omit [DecidableEq β] [LawfulEqOrd β] in
theorem pairwise_merged (k : Nat) (rankings : List (List α)) :
    (merged key k rankings).Pairwise fun a b => (compare (key a) (key b)).isLE :=
  (pairwise_sortBy key _).sublist (List.take_sublist _ _)

omit [DecidableEq β] in
/-- Whatever the order of the rankings, the merged keys are the same. -/
theorem map_key_merged (key : α → β) {rankings rankings' : List (List α)} (h : rankings'.Perm rankings) (k : Nat) :
    (merged key k rankings').map key = (merged key k rankings).map key := by
  unfold merged
  rw [List.map_take, List.map_take]
  have hsorted : ∀ l : List α, ((sortBy (fun a b => compare (key a) (key b)) l).map key).Pairwise fun a b =>
      (compare a b).isLE := fun l => List.pairwise_map.mpr (pairwise_sortBy key l)
  refine congrArg (List.take k) (List.Perm.eq_of_pairwise (fun a b _ _ hab hba => ?_) (hsorted _) (hsorted _) ?_)
  · exact LawfulEqOrd.compare_eq_iff_eq.mp (OrientedCmp.isLE_antisymm hab hba)
  · exact ((perm_sortBy _ _).trans (h.flatten.trans (perm_sortBy _ _).symm)).map key

/-- At every key with places left, two rankings read the same in both orders, as far as the places go. -/
def Agree (key : α → β) (k : Nat) (rankings : List (List α)) : Prop :=
  ∀ d, countLower key d rankings.flatten < k → rankings.Pairwise fun u v =>
    (keyed key d u ++ keyed key d v).take (k - countLower key d rankings.flatten) =
      (keyed key d v ++ keyed key d u).take (k - countLower key d rankings.flatten)

/-- The merged ranking does not depend on the order of the rankings exactly when they agree. -/
theorem merged_order_iff {k : Nat} {rankings : List (List α)} :
    (∀ rankings', rankings'.Perm rankings → merged key k rankings' = merged key k rankings) ↔ Agree key k rankings := by
  have hlower : ∀ {rankings' : List (List α)}, rankings'.Perm rankings → ∀ d,
      countLower key d rankings'.flatten = countLower key d rankings.flatten := by
    intro rankings' hperm d
    unfold countLower
    exact hperm.flatten.countP_eq _
  constructor
  · intro h d _
    refine take_flatMap_perm_iff.mp fun rankings' hperm => ?_
    have hword := congrArg (keyed key d) (h rankings' hperm)
    rwa [keyed_merged, keyed_merged, hlower hperm] at hword
  · intro h rankings' hperm
    refine eq_of_keyed (pairwise_merged k _) (pairwise_merged k _) fun d => ?_
    rw [keyed_merged, keyed_merged, hlower hperm]
    rcases Nat.lt_or_ge (countLower key d rankings.flatten) k with hlt | hge
    · exact take_flatMap_perm_iff.mpr (h d hlt) rankings' hperm
    · rw [Nat.sub_eq_zero_of_le hge, List.take_zero, List.take_zero]

end

end Ccos
