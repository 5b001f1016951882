import Ccos.Forge.Fronts

/-!
# The order of the sort

Rank is depth, so nothing comes before what dominates it. The sort ends unless a front of three or more has a member
without one of the objectives that the first individual has.
-/

open Std

namespace Ccos

variable {C F : Type}

namespace Pareto

/-! ## Ranks -/

section Ranks

theorem length_foldl_set (front : List Nat) (ranks : List Nat) (rank : Nat) :
    (front.foldl (fun ranks idx => ranks.set idx rank) ranks).length = ranks.length := by
  induction front generalizing ranks with
  | nil => rfl
  | cons idx front ih => rw [List.foldl_cons, ih, List.length_set]

theorem getElem?_foldl_set (front : List Nat) {ranks : List Nat} (rank : Nat) {i : Nat} (hi : i < ranks.length) :
    (front.foldl (fun ranks idx => ranks.set idx rank) ranks)[i]? =
      if i ∈ front then some rank else ranks[i]? := by
  induction front generalizing ranks with
  | nil => simp
  | cons idx front ih =>
    rw [List.foldl_cons, ih (by rwa [List.length_set]), List.getElem?_set]
    by_cases hidx : idx = i
    · subst hidx
      simp [hi]
    · simp [hidx, Ne.symm hidx]

theorem length_foldl_ranks (fs : List (List Nat × Nat)) (ranks : List Nat) :
    (fs.foldl (fun ranks (front, rank) => front.foldl (fun ranks idx => ranks.set idx rank) ranks) ranks).length =
      ranks.length := by
  induction fs generalizing ranks with
  | nil => rfl
  | cons f fs ih => rw [List.foldl_cons, ih, length_foldl_set]

/-- An index that is in fronts of rank `d` only has rank `d` in the end. -/
theorem getElem?_foldl_ranks {fs : List (List Nat × Nat)} {ranks : List Nat} {i d : Nat} (hi : i < ranks.length)
    (hrank : ∀ f ∈ fs, i ∈ f.1 → f.2 = d) (hsome : (∃ f ∈ fs, i ∈ f.1) ∨ ranks[i]? = some d) :
    (fs.foldl (fun ranks (front, rank) => front.foldl (fun ranks idx => ranks.set idx rank) ranks) ranks)[i]? =
      some d := by
  induction fs generalizing ranks with
  | nil =>
    rcases hsome with ⟨f, hf, -⟩ | hsome
    · cases hf
    · exact hsome
  | cons f fs ih =>
    obtain ⟨hf, hrank⟩ := List.forall_mem_cons.mp hrank
    rw [List.foldl_cons]
    refine ih (by rwa [length_foldl_set]) hrank ?_
    rw [getElem?_foldl_set f.1 f.2 hi]
    by_cases hmem : i ∈ f.1
    · rw [if_pos hmem, hf hmem]
      exact .inr rfl
    · rw [if_neg hmem]
      refine hsome.imp_left ?_
      rintro ⟨f', hf', hi'⟩
      rcases List.mem_cons.mp hf' with rfl | hf'
      · exact absurd hi' hmem
      · exact ⟨f', hf', hi'⟩

variable [InfFloat64 F] {archive : List (Individual C F)}

theorem length_flatRanks : (flatRanks archive).length = archive.length := by
  rw [flatRanks, length_foldl_ranks, List.length_replicate]

theorem flatRanks_eq [PlacedFloat64 F] (hplaced : ∀ a ∈ archive, a.score.Placed) :
    flatRanks archive = archive.map (depth archive) := by
  refine List.ext_getElem? fun i => ?_
  rw [List.getElem?_map]
  by_cases hi : i < archive.length
  · have ha := List.getElem?_eq_getElem hi
    rw [ha, Option.map_some, flatRanks]
    refine getElem?_foldl_ranks (by rwa [List.length_replicate]) (fun f hf hmem => ?_) (.inl ?_)
    · have hfront : (fronts archive).getD f.2 [] = f.1 := by
        rw [List.getD_eq_getElem?_getD, List.mem_zipIdx_iff_getElem?.mp hf]
        rfl
      exact ((mem_front hplaced ha).mp (hfront ▸ hmem)).symm
    · have hmem := (mem_front hplaced ha).mpr rfl
      rw [List.getD_eq_getElem?_getD] at hmem
      cases hfront : (fronts archive)[depth archive archive[i]]? with
      | none =>
        rw [hfront] at hmem
        cases hmem
      | some front =>
        rw [hfront] at hmem
        exact ⟨(front, depth archive archive[i]), List.mem_zipIdx_iff_getElem?.mpr hfront, hmem⟩
  · rw [List.getElem?_eq_none (by rw [length_flatRanks]; omega), List.getElem?_eq_none (by omega)]
    rfl

end Ranks

/-! ## Distances -/

section Distances

theorem foldlM_invariant {A B : Type} {f : B → A → Option B} {P : B → Prop} {l : List A}
    (h : ∀ a ∈ l, ∀ b b', P b → f b a = some b' → P b') {b b' : B} (hb : P b) (hrun : l.foldlM f b = some b') :
    P b' := by
  induction l generalizing b with
  | nil =>
    cases hrun
    exact hb
  | cons a l ih =>
    obtain ⟨ha, hl⟩ := List.forall_mem_cons.mp h
    rw [List.foldlM_cons] at hrun
    obtain ⟨b'', hstep, hrun⟩ := Option.bind_eq_some_iff.mp hrun
    exact ih hl (ha b b'' hb hstep) hrun

variable [InfFloat64 F] {archive : List (Individual C F)}

theorem length_foldl_widen (norm : F) (l : List ((Nat × F) × (Nat × F) × (Nat × F))) (distances : List F) :
    (l.foldl (widen norm) distances).length = distances.length := by
  induction l generalizing distances with
  | nil => rfl
  | cons neighbours l ih => rw [List.foldl_cons, ih, widen, List.length_modify]

theorem length_spread (sorted : List (Nat × F)) (distances : List F) :
    (spread sorted distances).length = distances.length := by
  unfold spread
  split
  · dsimp only
    split
    · rw [length_foldl_widen, List.length_set, List.length_set]
    · rw [List.length_set, List.length_set]
  · rfl

theorem length_crowdObjective {front : List Nat} {distances distances' : List F} {objIdx : Nat}
    (h : crowdObjective archive front distances objIdx = some distances') : distances'.length = distances.length := by
  obtain ⟨values, -, hspread⟩ := Option.bind_eq_some_iff.mp h
  cases hspread
  exact length_spread _ _

theorem length_crowdFront {num : Nat} {distances distances' : List F} {front : List Nat}
    (h : crowdFront archive num distances front = some distances') : distances'.length = distances.length := by
  unfold crowdFront at h
  split at h
  · cases h
    exact List.foldlRecOn (motive := fun d : List F => d.length = distances.length) front _ rfl fun d hd idx _ => by
      rw [List.length_set, hd]
  · exact foldlM_invariant (P := fun d => d.length = distances.length)
      (fun _ _ _ _ hd hstep => (length_crowdObjective hstep).trans hd) rfl h

theorem length_crowdingDistances {distances : List F} (h : crowdingDistances archive = some distances) :
    distances.length = archive.length :=
  foldlM_invariant (P := fun d => d.length = archive.length)
    (fun _ _ _ _ hd hstep => (length_crowdFront hstep).trans hd) List.length_replicate h

end Distances

/-! ## The sorted archive -/

section Sorted

variable [InfFloat64 F]

/-- The individuals that share their depth with two others have every objective the archive is sorted by. -/
def Reaching (archive : List (Individual C F)) : Prop :=
  ∀ a ∈ archive, 3 ≤ archive.countP (fun b => depth archive b = depth archive a) →
    numObjectives archive ≤ a.score.objectives.length

instance (archive : List (Individual C F)) : Decidable (Reaching archive) :=
  List.decidableBAll (fun a => 3 ≤ archive.countP (fun b => depth archive b = depth archive a) →
    numObjectives archive ≤ a.score.objectives.length) archive

/-- What a sorted archive promises. Cutting it anywhere drops nothing that is less deep than what is kept. -/
structure Sorted (archive sorted : List (Individual C F)) : Prop where
  perm : sorted.Perm archive
  undominated : sorted.Pairwise fun a b => b.score.dominates a.score = false
  ascending : sorted.Pairwise fun a b => depth archive a ≤ depth archive b
  truncated : ∀ k, ∀ kept ∈ sorted.take k, ∀ dropped ∈ sorted.drop k, depth archive kept ≤ depth archive dropped

variable [PlacedFloat64 F] {archive : List (Individual C F)} (hplaced : ∀ a ∈ archive, a.score.Placed)

include hplaced

theorem level_iff_reaching : Level archive ↔ Reaching archive := by
  constructor
  · intro h a ha hthree
    obtain ⟨i, hi⟩ := List.mem_iff_getElem?.mp ha
    have hmem := (mem_front hplaced hi).mpr rfl
    rw [← length_front hplaced] at hthree
    rw [List.getD_eq_getElem?_getD] at hmem hthree
    cases hfront : (fronts archive)[depth archive a]? with
    | none =>
      rw [hfront] at hmem
      cases hmem
    | some front =>
      rw [hfront] at hmem hthree
      exact h front (List.mem_of_getElem? hfront) hthree i hmem a hi
  · intro h front hfront hthree i hi a ha
    obtain ⟨r, hr⟩ := List.mem_iff_getElem?.mp hfront
    have hget : (fronts archive).getD r [] = front := by rw [List.getD_eq_getElem?_getD, hr]; rfl
    have hdepth := (mem_front hplaced ha).mp (hget ▸ hi)
    refine h a (List.mem_of_getElem? ha) ?_
    rwa [hdepth, ← length_front hplaced, hget]

theorem dominates_of_mem {a b : Individual C F} (hb : b ∈ archive) (h : b.score.dominates a.score = true)
    (ha : a ∈ archive) : depth archive b < depth archive a := by
  obtain ⟨i, hi⟩ := List.mem_iff_getElem?.mp ha
  obtain ⟨j, hj⟩ := List.mem_iff_getElem?.mp hb
  rw [← indexDepth_eq hi, ← indexDepth_eq hj]
  refine Depth.depth_lt domAt_self (domAt_trans hplaced) ?_ ?_
  · exact List.mem_range.mpr (List.getElem?_eq_some_iff.mp hj).1
  · rwa [domAt, scoreAt_eq hi, scoreAt_eq hj]

/-- A permutation in the order of depth is what is promised. -/
theorem Sorted.of_ascending {sorted : List (Individual C F)} (hperm : sorted.Perm archive)
    (h : sorted.Pairwise fun a b => depth archive a ≤ depth archive b) : Sorted archive sorted where
  perm := hperm
  ascending := h
  undominated := by
    refine h.imp_of_mem fun {a b} ha hb hle => ?_
    by_contra hdom
    have hlt := dominates_of_mem hplaced (hperm.mem_iff.mp hb) (by simpa using hdom) (hperm.mem_iff.mp ha)
    omega
  truncated k kept hkept dropped hdropped := by
    rw [← List.take_append_drop k sorted] at h
    exact (List.pairwise_append.mp h).2.2 kept hkept dropped hdropped

theorem annotated_rank {distances : List F} {x : Individual C F × Nat × F} (hx : x ∈ annotated archive distances) :
    x.2.1 = depth archive x.1 := by
  obtain ⟨i, hi⟩ := List.mem_iff_getElem?.mp hx
  rw [annotated, List.getElem?_zip_eq_some, List.getElem?_zip_eq_some, flatRanks_eq hplaced, List.getElem?_map] at hi
  rw [hi.1] at hi
  exact (Option.some.inj hi.2.1).symm

theorem sorted_of_annotated {distances : List F} (hlen : distances.length = archive.length) :
    Sorted archive ((sortBy cmpAnnotated (annotated archive distances)).map Prod.fst) := by
  have hfst : (annotated archive distances).map Prod.fst = archive := by
    rw [annotated, List.map_fst_zip]
    rw [List.length_zip, length_flatRanks, hlen, Nat.min_self]
  refine Sorted.of_ascending hplaced ?_ ?_
  · exact ((perm_sortBy _ _).map Prod.fst).trans (List.Perm.of_eq hfst)
  · have hranks : (sortBy cmpAnnotated (annotated archive distances)).Pairwise fun x y => x.2.1 ≤ y.2.1 := by
      refine pairwise_sortBy_of (fun x _ y _ hle => ?_) fun x _ y _ hgt => ?_
      · by_contra hlt
        rw [cmpAnnotated, compare_gt_iff_gt.mpr (Nat.lt_of_not_le hlt)] at hle
        cases hle
      · by_contra hlt
        rw [cmpAnnotated, compare_lt_iff_lt.mpr (Nat.lt_of_not_le hlt)] at hgt
        cases hgt
    refine List.pairwise_map.mpr (hranks.imp_of_mem fun {x y} hx hy hle => ?_)
    rwa [← annotated_rank hplaced ((mem_sortBy _ _ _).mp hx), ← annotated_rank hplaced ((mem_sortBy _ _ _).mp hy)]

omit hplaced

end Sorted

/-! ### One valid score, and three that are not -/

def lone : List (Individual Unit ℚ) := [⟨(), .ofObjectives [1]⟩, ⟨(), .invalid⟩, ⟨(), .invalid⟩, ⟨(), .invalid⟩]

def pair : List (Individual Unit ℚ) :=
  [⟨(), .ofObjectives [3, 3]⟩, ⟨(), .invalid⟩, ⟨(), .ofObjectives [1, 2]⟩, ⟨(), .ofObjectives [2, 1]⟩]

end Pareto

end Ccos
