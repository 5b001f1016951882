import Ccos.Text

/-!
# Stable sorts

A stable sort by a key keeps the elements of each key in their order, and this determines it.
-/

open Std

namespace Ccos

variable {α β : Type} [DecidableEq β]

/-- The elements of one key, in order. -/
def keyed (key : α → β) (k : β) (l : List α) : List α := l.filter fun a => key a = k

theorem mem_keyed {key : α → β} {k : β} {l : List α} {a : α} : a ∈ keyed key k l ↔ a ∈ l ∧ key a = k := by
  unfold keyed
  rw [List.mem_filter, decide_eq_true_eq]

theorem keyed_cons (key : α → β) (k : β) (a : α) (l : List α) :
    keyed key k (a :: l) = if key a = k then a :: keyed key k l else keyed key k l := by
  unfold keyed
  rw [List.filter_cons]
  simp

variable [Ord β] [LawfulEqOrd β]

theorem keyed_sortBy (key : α → β) (k : β) (l : List α) :
    keyed key k (sortBy (fun a b => compare (key a) (key b)) l) = keyed key k l := by
  have hsame : (keyed key k l).Pairwise fun a b => (compare (key a) (key b)).isLE = true := by
    refine List.pairwise_of_forall_mem_list fun a ha b hb => ?_
    rw [(mem_keyed.mp ha).2, (mem_keyed.mp hb).2, ReflOrd.compare_self]
    rfl
  have hsub := (List.sublist_insertionSort hsame List.filter_sublist).filter fun a => decide (key a = k)
  have hidem : (keyed key k l).filter (fun a => decide (key a = k)) = keyed key k l := by
    unfold keyed
    rw [List.filter_filter]
    simp
  rw [hidem] at hsub
  exact (hsub.eq_of_length_le ((perm_sortBy _ l).filter _).length_eq.le).symm

variable [TransOrd β]

/-- Lists in key order agree once they agree on each key. -/
theorem eq_of_keyed {key : α → β} {l l' : List α} (hl : l.Pairwise fun a b => (compare (key a) (key b)).isLE)
    (hl' : l'.Pairwise fun a b => (compare (key a) (key b)).isLE) (h : ∀ k, keyed key k l = keyed key k l') : l = l' := by
  induction l generalizing l' with
  | nil =>
    cases l' with
    | nil => rfl
    | cons b l' =>
      have hb := h (key b)
      rw [keyed_cons, if_pos rfl] at hb
      exact absurd hb nofun
  | cons a l ih =>
    cases l' with
    | nil =>
      have ha := h (key a)
      rw [keyed_cons, if_pos rfl] at ha
      exact absurd ha nofun
    | cons b l' =>
      obtain ⟨hfirst, hrest⟩ := List.pairwise_cons.mp hl
      obtain ⟨hfirst', hrest'⟩ := List.pairwise_cons.mp hl'
      -- Each head is in the other list, so neither key is below the other.
      have hkey : key a = key b := by
        have hb : b ∈ a :: l := (mem_keyed.mp (h (key b) ▸ mem_keyed.mpr ⟨List.mem_cons_self, rfl⟩)).1
        have ha : a ∈ b :: l' := (mem_keyed.mp (h (key a) ▸ mem_keyed.mpr ⟨List.mem_cons_self, rfl⟩)).1
        rcases List.mem_cons.mp hb with rfl | hb
        · rfl
        · rcases List.mem_cons.mp ha with rfl | ha
          · rfl
          · exact LawfulEqOrd.compare_eq_iff_eq.mp (OrientedCmp.isLE_antisymm (hfirst b hb) (hfirst' a ha))
      have hhead := h (key a)
      rw [keyed_cons, keyed_cons, if_pos rfl, if_pos hkey.symm] at hhead
      obtain ⟨rfl, -⟩ := List.cons.inj hhead
      refine congrArg (a :: ·) (ih hrest hrest' fun k => ?_)
      have hk := h k
      rw [keyed_cons, keyed_cons] at hk
      by_cases hak : key a = k
      · rw [if_pos hak, if_pos hak] at hk
        exact (List.cons.inj hk).2
      · rwa [if_neg hak, if_neg hak] at hk

theorem sortBy_eq_iff (key : α → β) (l l' : List α) :
    sortBy (fun a b => compare (key a) (key b)) l = sortBy (fun a b => compare (key a) (key b)) l' ↔
      ∀ k, keyed key k l = keyed key k l' := by
  constructor
  · intro h k
    rw [← keyed_sortBy key k l, h, keyed_sortBy]
  · intro h
    refine eq_of_keyed (pairwise_sortBy key l) (pairwise_sortBy key l') fun k => ?_
    rw [keyed_sortBy, keyed_sortBy, h]

/-- A stable sort commutes with dropping elements. -/
theorem filter_sortBy (key : α → β) (p : α → Bool) (l : List α) :
    (sortBy (fun a b => compare (key a) (key b)) l).filter p =
      sortBy (fun a b => compare (key a) (key b)) (l.filter p) := by
  have hkeyed : ∀ (l : List α) (k : β), keyed key k (l.filter p) = (keyed key k l).filter p := fun l k => by
    unfold keyed
    rw [List.filter_filter, List.filter_filter]
    simp only [Bool.and_comm]
  refine eq_of_keyed ((pairwise_sortBy key l).sublist List.filter_sublist) (pairwise_sortBy key (l.filter p)) fun k => ?_
  rw [hkeyed, keyed_sortBy, keyed_sortBy, hkeyed]

/-- Where no key is smaller, the elements of a key come first. -/
theorem prefix_keyed {key : α → β} {k : β} {l : List α} (hl : l.Pairwise fun a b => (compare (key a) (key b)).isLE)
    (hk : ∀ a ∈ l, (compare k (key a)).isLE) : keyed key k l <+: l := by
  induction l with
  | nil => exact List.prefix_rfl
  | cons a l ih =>
    obtain ⟨hfirst, hrest⟩ := List.pairwise_cons.mp hl
    rw [keyed_cons]
    split
    · exact (List.prefix_cons_inj a).mpr (ih hrest fun b hb => hk b (List.mem_cons_of_mem a hb))
    · rename_i hne
      have hnone : keyed key k l = [] := List.filter_eq_nil_iff.mpr fun b hb => by
        rw [decide_eq_true_eq]
        rintro rfl
        exact hne (LawfulEqOrd.compare_eq_iff_eq.mp (OrientedCmp.isLE_antisymm (hfirst b hb) (hk a List.mem_cons_self)))
      rw [hnone]
      exact List.nil_prefix

/-- In key order the elements of a key stand together. -/
theorem infix_keyed {key : α → β} (k : β) {l : List α} (hl : l.Pairwise fun a b => (compare (key a) (key b)).isLE) :
    keyed key k l <:+: l := by
  induction l with
  | nil => exact List.infix_rfl
  | cons a l ih =>
    obtain ⟨hfirst, hrest⟩ := List.pairwise_cons.mp hl
    by_cases hle : (compare k (key a)).isLE
    · refine (prefix_keyed hl fun b hb => ?_).isInfix
      rcases List.mem_cons.mp hb with rfl | hb
      · exact hle
      · exact TransCmp.isLE_trans hle (hfirst b hb)
    · have hne : key a ≠ k := by
        rintro rfl
        exact hle (by rw [ReflOrd.compare_self]; rfl)
      rw [keyed_cons, if_neg hne]
      exact List.infix_cons (ih hrest)

/-- A sort is in the order of a key that its comparison agrees with, whatever decides among equal keys. -/
theorem pairwise_sortBy_of {α β : Type} [Preorder β] {cmp : α → α → Ordering} {key : α → β} {l : List α}
    (hle : ∀ a ∈ l, ∀ b ∈ l, (cmp a b).isLE = true → key a ≤ key b)
    (hgt : ∀ a ∈ l, ∀ b ∈ l, (cmp a b).isLE = false → key b ≤ key a) :
    (sortBy cmp l).Pairwise fun a b => key a ≤ key b := by
  unfold sortBy
  induction l with
  | nil => exact List.Pairwise.nil
  | cons a l ih =>
    have hl := ih (fun b hb c hc => hle b (List.mem_cons_of_mem _ hb) c (List.mem_cons_of_mem _ hc))
      fun b hb c hc => hgt b (List.mem_cons_of_mem _ hb) c (List.mem_cons_of_mem _ hc)
    have hmem : ∀ b ∈ l.insertionSort fun a b => (cmp a b).isLE, b ∈ a :: l := fun b hb =>
      List.mem_cons_of_mem _ ((List.mem_insertionSort _).mp hb)
    rw [List.insertionSort_cons]
    generalize l.insertionSort (fun a b => (cmp a b).isLE = true) = sorted at hl hmem ⊢
    induction sorted with
    | nil => exact List.pairwise_singleton _ a
    | cons b sorted ih' =>
      obtain ⟨hb, hsorted⟩ := List.pairwise_cons.mp hl
      obtain ⟨hmemb, hmem⟩ := List.forall_mem_cons.mp hmem
      rw [List.orderedInsert_cons]
      split
      · rename_i hfirst
        have hab := hle a List.mem_cons_self b hmemb hfirst
        refine List.pairwise_cons.mpr ⟨fun c hc => ?_, hl⟩
        rcases List.mem_cons.mp hc with rfl | hc
        · exact hab
        · exact hab.trans (hb c hc)
      · rename_i hlater
        have hba := hgt a List.mem_cons_self b hmemb (by simpa using hlater)
        refine List.pairwise_cons.mpr ⟨fun c hc => ?_, ih' hsorted hmem⟩
        rcases (List.mem_orderedInsert _).mp hc with rfl | hc
        · exact hba
        · exact hb c hc

/-- Elements that are at most everything, where the others are above them, come first in their order. -/
theorem sortBy_split {α : Type} {cmp : α → α → Ordering} (p : α → Bool) {l : List α}
    (hfirst : ∀ a ∈ l, p a = true → ∀ b ∈ l, (cmp a b).isLE = true)
    (hlast : ∀ a ∈ l, p a = false → ∀ b ∈ l, p b = true → (cmp a b).isLE = false) :
    sortBy cmp l = l.filter p ++ sortBy cmp (l.filter fun a => !p a) := by
  unfold sortBy
  induction l with
  | nil => rfl
  | cons a l ih =>
    obtain ⟨hfirsta, hfirst⟩ := List.forall_mem_cons.mp hfirst
    obtain ⟨hlasta, hlast⟩ := List.forall_mem_cons.mp hlast
    have hl := ih (fun b hb hp c hc => hfirst b hb hp c (List.mem_cons_of_mem _ hc))
      fun b hb hp c hc => hlast b hb hp c (List.mem_cons_of_mem _ hc)
    rw [List.insertionSort_cons, hl]
    cases hp : p a with
    | true =>
      rw [List.filter_cons_of_pos hp, List.filter_cons_of_neg (by simp [hp])]
      cases hsorted : l.filter p ++ (l.filter fun a => !p a).insertionSort fun a b => (cmp a b).isLE with
      | nil =>
        rw [List.cons_append, hsorted]
        rfl
      | cons b sorted =>
        have hb : b ∈ l := by
          have hmem : b ∈ l.filter p ++ (l.filter fun a => !p a).insertionSort fun a b => (cmp a b).isLE := by
            rw [hsorted]
            exact List.mem_cons_self
          rcases List.mem_append.mp hmem with hb | hb
          · exact (List.mem_filter.mp hb).1
          · exact (List.mem_filter.mp ((List.mem_insertionSort _).mp hb)).1
        rw [List.cons_append, hsorted, List.orderedInsert_cons, if_pos (hfirsta hp b (List.mem_cons_of_mem _ hb))]
    | false =>
      rw [List.filter_cons_of_neg (by simp [hp]), List.filter_cons_of_pos (by simp [hp]), List.insertionSort_cons]
      have hbefore : ∀ b ∈ l.filter p, (cmp a b).isLE = false := fun b hb =>
        hlasta hp b (List.mem_cons_of_mem _ (List.mem_filter.mp hb).1) (List.mem_filter.mp hb).2
      generalize l.filter p = firsts at hbefore ⊢
      induction firsts with
      | nil => rfl
      | cons b firsts ih' =>
        obtain ⟨hb, hbefore⟩ := List.forall_mem_cons.mp hbefore
        rw [List.cons_append, List.cons_append, List.orderedInsert_cons, if_neg (by simp [hb]), ih' hbefore]

section Ends

variable {α β : Type} [LinearOrder β] {cmp : α → α → Ordering} {key : α → β}

/-- A stable sort begins with the first of the least. -/
theorem head_sortBy {l : List α} (hcmp : ∀ a ∈ l, ∀ b ∈ l, (cmp a b).isLE = true ↔ key a ≤ key b) {a : α}
    (h : (sortBy cmp l).head? = some a) :
    ∃ before after, l = before ++ a :: after ∧ (∀ b ∈ before, key a < key b) ∧ ∀ b ∈ after, key a ≤ key b := by
  unfold sortBy at h
  induction l generalizing a with
  | nil => cases h
  | cons x l ih =>
    have hl := @ih fun b hb c hc => hcmp b (List.mem_cons_of_mem _ hb) c (List.mem_cons_of_mem _ hc)
    rw [List.insertionSort_cons] at h
    cases hsorted : l.insertionSort fun a b => (cmp a b).isLE with
    | nil =>
      rw [hsorted] at h
      cases h
      have hperm := List.perm_insertionSort (fun a b => (cmp a b).isLE = true) l
      rw [hsorted] at hperm
      rw [List.nil_perm.mp hperm]
      exact ⟨[], [], rfl, nofun, nofun⟩
    | cons y sorted =>
      obtain ⟨before, after, rfl, hbefore, hafter⟩ := hl (a := y) (by rw [hsorted]; rfl)
      have hxy := hcmp x List.mem_cons_self y (List.mem_cons_of_mem _ (List.mem_append_cons_self))
      rw [hsorted, List.orderedInsert_cons] at h
      split at h
      · rename_i hle
        cases h
        refine ⟨[], _, rfl, nofun, fun b hb => ?_⟩
        rcases List.mem_append.mp hb with hb | hb
        · exact (hxy.mp hle).trans (hbefore b hb).le
        · rcases List.mem_cons.mp hb with rfl | hb
          · exact hxy.mp hle
          · exact (hxy.mp hle).trans (hafter b hb)
      · rename_i hgt
        cases h
        refine ⟨x :: before, after, rfl, List.forall_mem_cons.mpr ⟨?_, hbefore⟩, hafter⟩
        exact lt_of_not_ge fun hle => hgt (hxy.mpr hle)

omit [LinearOrder β] in
theorem getLast?_orderedInsert {r : α → α → Prop} [DecidableRel r] (x : α) (l : List α) :
    (List.orderedInsert r x l).getLast? = if ∀ b ∈ l, ¬ r x b then some x else l.getLast? := by
  induction l with
  | nil => rfl
  | cons b l ih =>
    rw [List.orderedInsert_cons]
    by_cases hb : r x b
    · rw [if_pos hb, if_neg fun h => h b List.mem_cons_self hb, List.getLast?_cons_cons]
    · have hne : List.orderedInsert r x l ≠ [] := List.ne_nil_of_mem ((List.mem_orderedInsert r).mpr (.inl rfl))
      obtain ⟨c, rest, hrest⟩ := List.exists_cons_of_ne_nil hne
      rw [if_neg hb, hrest, List.getLast?_cons_cons, ← hrest, ih]
      by_cases hall : ∀ c ∈ l, ¬ r x c
      · rw [if_pos hall, if_pos ((List.forall_mem_cons (p := fun c => ¬ r x c)).mpr ⟨hb, hall⟩)]
      · rw [if_neg hall, if_neg fun h => hall (List.forall_mem_cons.mp h).2]
        cases l with
        | nil => exact absurd nofun hall
        | cons c l => rw [List.getLast?_cons_cons]

/-- A stable sort ends with the last of the greatest. -/
theorem getLast_sortBy {l : List α} (hcmp : ∀ a ∈ l, ∀ b ∈ l, (cmp a b).isLE = true ↔ key a ≤ key b) {a : α}
    (h : (sortBy cmp l).getLast? = some a) :
    ∃ before after, l = before ++ a :: after ∧ (∀ b ∈ before, key b ≤ key a) ∧ ∀ b ∈ after, key b < key a := by
  unfold sortBy at h
  induction l generalizing a with
  | nil => cases h
  | cons x l ih =>
    have hcmpl := fun b hb c hc => hcmp b (List.mem_cons_of_mem _ hb) c (List.mem_cons_of_mem _ hc)
    have hx : ∀ b ∈ l, (cmp x b).isLE = true ↔ key x ≤ key b := fun b hb =>
      hcmp x List.mem_cons_self b (List.mem_cons_of_mem _ hb)
    rw [List.insertionSort_cons, getLast?_orderedInsert] at h
    simp only [List.mem_insertionSort] at h
    split at h
    · rename_i hall
      cases h
      exact ⟨[], l, rfl, nofun, fun b hb => lt_of_not_ge fun hle => hall b hb ((hx b hb).mpr hle)⟩
    · rename_i hsome
      obtain ⟨before, after, rfl, hbefore, hafter⟩ := ih hcmpl h
      refine ⟨x :: before, after, rfl, List.forall_mem_cons.mpr ⟨?_, hbefore⟩, hafter⟩
      push Not at hsome
      obtain ⟨b, hb, hle⟩ := hsome
      refine ((hx b hb).mp hle).trans ?_
      rcases List.mem_append.mp hb with hb | hb
      · exact hbefore b hb
      · rcases List.mem_cons.mp hb with rfl | hb
        · exact le_rfl
        · exact (hafter b hb).le

end Ends

end Ccos
