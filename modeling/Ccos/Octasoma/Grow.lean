import Ccos.Octasoma.Insert

/-!
# Runs of inserts

Every insert leaves a memory whose tree holds each stored item once. The world only doubles, so the
largest coordinate of a run bounds the fuel it needs.
-/

open scoped BigOperators

namespace Ccos.Octasoma

open Outcome

namespace FractalMemory3D

open Octree

/-- The first `n` items are in the tree, and all are in the world. -/
structure Built (m : FractalMemory3D ℚ) (n : Nat) : Prop where
  tree : ∃ t : Octree, t.root = 0 ∧ m.Holds t origin m.worldHalfSize ∧ t.items = Multiset.range n
  books : (m.leafBuckets.flatten : Multiset ItemId) = Multiset.range n
  inWorld : ∀ item ∈ m.items, InCube item.point origin m.worldHalfSize

/-- Every stored item is in the tree. -/
def WellFormed (m : FractalMemory3D ℚ) : Prop := m.Built m.items.length

variable {m : FractalMemory3D ℚ}

theorem resetRoot_built (h : ∀ item ∈ m.items, InCube item.point origin m.worldHalfSize) : m.resetRoot.Built 0 where
  tree := by
    refine ⟨.leaf 0 [], rfl, ⟨⟨rfl, ?_⟩, ⟨rfl, rfl, ?_⟩, trivial⟩, rfl⟩
    · show 1 ≤ noId
      decide
    · intro i hi
      exact absurd hi (Multiset.notMem_zero i)
  books := rfl
  inWorld := h

theorem route_built {n fuel levels : Nat} (h : m.Built n) (hn : n < m.items.length)
    (hlevels : m.worldHalfSize ≤ m.minHalfSize * 2 ^ levels) (hfuel : 2 * levels + 1 ≤ fuel) :
    Meets Exhausted (m.route fuel n) fun m' =>
      m' = { m with nodes := m'.nodes, leafBuckets := m'.leafBuckets } ∧ m'.Built (n + 1) := by
  obtain ⟨t, hroot, hholds, hitems⟩ := h.tree
  have hitem : m.items[n]? = some m.items[n] := List.getElem?_eq_getElem hn
  have hpresent : t ≠ .absent := by
    rintro rfl
    exact absurd hroot (by decide)
  have hmore : ({n} : Multiset ItemId) + Multiset.range n = Multiset.range (n + 1) := (Multiset.range_succ n).symm
  unfold route
  refine meets_bind (index_meets hitem) ?_
  rintro _ rfl
  have hroute := routeFrom_meets hholds hpresent hitem (h.inWorld _ (List.getElem_mem hn)) hlevels hfuel
  rw [hroot] at hroute
  refine hroute.mono ?_
  rintro m' ⟨t', hroot', hadds⟩
  have hsame := hadds.changes.same
  have hworld : m'.worldHalfSize = m.worldHalfSize := by rw [hsame]
  refine ⟨hsame, ⟨t', hroot', ?_, ?_⟩, ?_, ?_⟩
  · rw [hworld]
    exact hadds.holds
  · rw [hadds.items, hitems, hmore]
  · rw [hadds.books, h.books, hmore]
  · rw [hadds.changes.items_eq, hworld]
    exact h.inWorld

/-! ## Growth -/

theorem growWorld_eq {coord half : ℚ} {doublings fuel : Nat} (henough : coord ≤ half * 2 ^ doublings)
    (hfuel : doublings + 1 ≤ fuel) :
    ∃ j ≤ doublings, growWorld coord fuel half = .ok (half * 2 ^ j) ∧ coord ≤ half * 2 ^ j := by
  induction doublings generalizing half fuel with
  | zero =>
    obtain ⟨fuel, rfl⟩ : ∃ n, fuel = n + 1 := ⟨fuel - 1, by omega⟩
    rw [pow_zero, mul_one] at henough
    refine ⟨0, le_rfl, ?_, by rw [pow_zero, mul_one]; exact henough⟩
    rw [growWorld, lt_rat, decide_eq_false (not_lt.mpr henough), pow_zero, mul_one]
    rfl
  | succ doublings ih =>
    obtain ⟨fuel, rfl⟩ : ∃ n, fuel = n + 1 := ⟨fuel - 1, by omega⟩
    by_cases hlt : half < coord
    · rw [growWorld, lt_rat, decide_eq_true hlt, if_pos rfl]
      have henough' : coord ≤ half * 2 * 2 ^ doublings := by
        rw [mul_assoc, ← pow_succ']
        exact henough
      obtain ⟨j, hj, heq, hle⟩ := ih henough' (show doublings + 1 ≤ fuel by omega)
      refine ⟨j + 1, by omega, ?_, ?_⟩
      · rw [pow_succ', ← mul_assoc]
        exact heq
      · rw [pow_succ', ← mul_assoc]
        exact hle
    · refine ⟨0, Nat.zero_le _, ?_, ?_⟩
      · rw [growWorld, lt_rat, decide_eq_false hlt, pow_zero, mul_one]
        rfl
      · rw [pow_zero, mul_one]
        exact not_lt.mp hlt

theorem inCube_origin {p : Point ℚ} {half : ℚ} : InCube p origin half ↔ maxCoord p ≤ half := by
  have hmax : maxCoord p = max (max |p 0| |p 1|) |p 2| := by
    unfold maxCoord
    rw [max_rat, max_rat]
    rfl
  have hcube : InCube p origin half ↔ ∀ a, |p a| ≤ half := by
    refine forall_congr' fun a => ?_
    rw [show p a - (origin : Point ℚ) a = p a from sub_zero (p a)]
  rw [hcube, hmax, max_le_iff, max_le_iff, Fin.forall_fin_succ, Fin.forall_fin_two, and_assoc]
  rfl

/-- The world is at most this many doublings of its first size. -/
def WorldWithin (doublings : Nat) (m : FractalMemory3D ℚ) : Prop := ∃ j ≤ doublings, m.worldHalfSize = 2 ^ j

theorem WorldWithin.le {doublings levels : Nat} (h : WorldWithin doublings m)
    (hlevels : (2 : ℚ) ^ doublings ≤ m.minHalfSize * 2 ^ levels) : m.worldHalfSize ≤ m.minHalfSize * 2 ^ levels := by
  obtain ⟨j, hj, heq⟩ := h
  rw [heq]
  exact (pow_le_pow_right₀ one_le_two hj).trans hlevels

theorem rebuild_meets {n levels fuel : Nat} (h : m.Built 0) (hlevels : m.worldHalfSize ≤ m.minHalfSize * 2 ^ levels)
    (hfuel : 2 * levels + 1 ≤ fuel) (hn : n ≤ m.items.length) :
    Meets Exhausted ((List.range n).foldlM (route fuel) m) fun m' =>
      m' = { m with nodes := m'.nodes, leafBuckets := m'.leafBuckets } ∧ m'.Built n := by
  induction n with
  | zero => exact meets_pure ⟨rfl, h⟩
  | succ n ih =>
    rw [List.range_succ, List.foldlM_append]
    refine meets_bind (ih (by omega)) ?_
    rintro m₁ ⟨hsame, hbuilt⟩
    rw [List.foldlM_cons]
    have hitems : m₁.items = m.items := by rw [hsame]
    have hlevels₁ : m₁.worldHalfSize ≤ m₁.minHalfSize * 2 ^ levels := by
      rw [hsame]
      exact hlevels
    refine meets_bind (route_built hbuilt (by rw [hitems]; omega) hlevels₁ hfuel) ?_
    rintro m₂ ⟨hsame₂, hbuilt₂⟩
    exact meets_pure ⟨by rw [hsame₂, hsame], hbuilt₂⟩

theorem growTo_meets {coord : ℚ} {doublings levels fuel : Nat} (hworld : WorldWithin doublings m)
    (hin : ∀ item ∈ m.items, InCube item.point origin m.worldHalfSize) (hcoord : coord ≤ 2 ^ doublings)
    (hlevels : (2 : ℚ) ^ doublings ≤ m.minHalfSize * 2 ^ levels) (hfuel : doublings + 1 ≤ fuel)
    (hfuel' : 2 * levels + 1 ≤ fuel) :
    Meets Exhausted (m.growTo fuel coord) fun m' => m'.WellFormed ∧ m'.items = m.items ∧
      m'.minHalfSize = m.minHalfSize ∧ WorldWithin doublings m' ∧ coord ≤ m'.worldHalfSize := by
  obtain ⟨j, hj, heq⟩ := hworld
  have henough : coord ≤ m.worldHalfSize * 2 ^ (doublings - j) := by
    rw [heq, ← pow_add, Nat.add_sub_cancel' hj]
    exact hcoord
  obtain ⟨k, hk, hgrown, hle⟩ := growWorld_eq henough (show doublings - j + 1 ≤ fuel by omega)
  have hsize : m.worldHalfSize * 2 ^ k = 2 ^ (j + k) := by rw [heq, pow_add]
  have hlarger : m.worldHalfSize ≤ m.worldHalfSize * 2 ^ k := by
    rw [hsize, heq]
    exact pow_le_pow_right₀ one_le_two (Nat.le_add_right j k)
  unfold growTo
  rw [hgrown]
  refine meets_bind (P := fun half => half = m.worldHalfSize * 2 ^ k) rfl ?_
  rintro _ rfl
  dsimp only
  let m₁ : FractalMemory3D ℚ := ({ m with worldHalfSize := m.worldHalfSize * 2 ^ k } : FractalMemory3D ℚ).resetRoot
  have hworld₁ : WorldWithin doublings m₁ := ⟨j + k, by omega, hsize⟩
  have hbuilt : m₁.Built 0 := by
    apply resetRoot_built
    intro item hitem a
    exact (hin item hitem a).trans hlarger
  refine meets_bind (P := fun _ => True) ?_ ?_
  · unfold freshItemId
    split
    · trivial
    · rfl
  intro _ _
  refine (rebuild_meets hbuilt (hworld₁.le hlevels) hfuel' le_rfl).mono ?_
  rintro m' ⟨hsame, hbuilt'⟩
  have hworld' : m'.worldHalfSize = m.worldHalfSize * 2 ^ k := by
    rw [hsame]
    rfl
  have hitems : m'.items = m.items := by
    rw [hsame]
    rfl
  have hmin : m'.minHalfSize = m.minHalfSize := by
    rw [hsame]
    rfl
  refine ⟨?_, hitems, hmin, ⟨j + k, by omega, hworld'.trans hsize⟩, ?_⟩
  · rw [WellFormed, hitems]
    exact hbuilt'
  · rw [hworld']
    exact hle

/-! ## An insert -/

/-- A new item at the end leaves the tree of the others as it is. -/
theorem stage_built {point : Point ℚ} (h : m.WellFormed) (hpoint : InCube point origin m.worldHalfSize)
    (payload : Option (List UInt8)) : (m.stage point payload).Built m.items.length where
  tree := by
    obtain ⟨t, hroot, hholds, hitems⟩ := h.tree
    refine ⟨t, hroot, ⟨⟨hholds.fits.buckets, hholds.fits.ids⟩, ?_, hholds.separate⟩, hitems⟩
    refine hholds.rep.frame ?_ rfl fun _ _ => ⟨rfl, rfl⟩
    intro i item hitem
    have hlt : i < m.items.length := (List.getElem?_eq_some_iff.mp hitem).1
    unfold stage
    rw [List.getElem?_append_left hlt]
    exact hitem
  books := h.books
  inWorld := by
    intro item hitem
    unfold stage at hitem
    rcases List.mem_append.mp hitem with hitem | hitem
    · exact h.inWorld item hitem
    · rw [List.mem_singleton.mp hitem]
      exact hpoint

variable {E : Type} {project : E → Option (Point ℚ)}

/-- An insert stores the projected point, or rejects an embedding without one. -/
theorem insertWith_meets {doublings levels fuel : Nat} (h : m.WellFormed) (hworld : WorldWithin doublings m)
    (hlevels : (2 : ℚ) ^ doublings ≤ m.minHalfSize * 2 ^ levels) (hfuel : doublings + 1 ≤ fuel)
    (hfuel' : 2 * levels + 1 ≤ fuel) {embedding : E}
    (hcoord : ∀ point, project embedding = some point → maxCoord point ≤ 2 ^ doublings) (payload : Option (List UInt8)) :
    Meets Exhausted (insertWith project fuel m embedding payload) fun r =>
      r.2.WellFormed ∧ WorldWithin doublings r.2 ∧ r.2.minHalfSize = m.minHalfSize ∧
      r.2.items.map Item.point = m.items.map Item.point ++ (project embedding).toList := by
  unfold insertWith
  cases hproject : project embedding with
  | none => exact meets_pure ⟨h, hworld, rfl, by simp⟩
  | some point =>
    have hfinite : ((List.finRange 3).all fun a => Single.isFinite (point a)) = true := rfl
    simp only [hfinite, Bool.not_true, Bool.false_eq_true, if_false]
    have hgrow : Meets Exhausted (m.growFor fuel point) fun m' =>
        m'.WellFormed ∧ m'.items = m.items ∧ m'.minHalfSize = m.minHalfSize ∧ WorldWithin doublings m' ∧
          maxCoord point ≤ m'.worldHalfSize := by
      unfold growFor
      rw [gt_rat]
      by_cases hlt : m.worldHalfSize < maxCoord point
      · rw [if_pos (decide_eq_true hlt)]
        exact growTo_meets hworld h.inWorld (hcoord point hproject) hlevels hfuel hfuel'
      · rw [if_neg (by rw [decide_eq_false hlt]; exact Bool.false_ne_true)]
        exact meets_pure ⟨h, rfl, rfl, hworld, not_lt.mp hlt⟩
    refine meets_bind hgrow ?_
    rintro m₁ ⟨h₁, hitems, hmin, hworld₁, hle⟩
    refine meets_bind (P := fun id => id = m₁.items.length) ?_ ?_
    · unfold freshItemId
      split
      · rfl
      · rfl
    rintro _ rfl
    have hstaged := stage_built h₁ (inCube_origin.mpr hle) payload
    have hlength : (m₁.stage point payload).items.length = m₁.items.length + 1 := by
      unfold stage
      rw [List.length_append, List.length_singleton]
    have hlevels₁ : (m₁.stage point payload).worldHalfSize ≤ (m₁.stage point payload).minHalfSize * 2 ^ levels :=
      WorldWithin.le (m := m₁) hworld₁ (hmin ▸ hlevels)
    refine meets_bind (route_built hstaged (by omega) hlevels₁ hfuel') ?_
    rintro m₂ ⟨hsame, hbuilt⟩
    have hitems₂ : m₂.items = (m₁.stage point payload).items := by rw [hsame]
    refine meets_pure ⟨?_, ?_, ?_, ?_⟩
    · show m₂.Built m₂.items.length
      rw [hitems₂, hlength]
      exact hbuilt
    · show WorldWithin doublings m₂
      rw [hsame]
      exact hworld₁
    · show m₂.minHalfSize = m.minHalfSize
      rw [hsame]
      exact hmin
    · show m₂.items.map Item.point = _
      rw [hitems₂]
      unfold stage
      rw [List.map_append, hitems]
      rfl

/-! ## A run of inserts -/

theorem newEmpty_wellFormed (highDim : Nat) (matrix : List ℚ) (bucketCapacity : Nat) (minHalfSize : ℚ) :
    (newEmpty highDim matrix bucketCapacity minHalfSize).WellFormed :=
  resetRoot_built fun _ hitem => absurd hitem List.not_mem_nil

def insertAll (project : E → Option (Point ℚ)) (fuel : Nat) (m : FractalMemory3D ℚ)
    (inserts : List (E × Option (List UInt8))) : Except Stop (FractalMemory3D ℚ) :=
  inserts.foldlM (fun m insert => do
    let (_, m) ← insertWith project fuel m insert.1 insert.2
    return m) m

theorem insertAll_meets {doublings levels fuel : Nat} (h : m.WellFormed) (hworld : WorldWithin doublings m)
    (hlevels : (2 : ℚ) ^ doublings ≤ m.minHalfSize * 2 ^ levels) (hfuel : doublings + 1 ≤ fuel)
    (hfuel' : 2 * levels + 1 ≤ fuel) {inserts : List (E × Option (List UInt8))}
    (hcoord : ∀ insert ∈ inserts, ∀ point, project insert.1 = some point → maxCoord point ≤ 2 ^ doublings) :
    Meets Exhausted (insertAll project fuel m inserts) fun m' => m'.WellFormed ∧
      m'.items.map Item.point = m.items.map Item.point ++ inserts.filterMap fun insert => project insert.1 := by
  have hloop : Meets Exhausted (insertAll project fuel m inserts) fun m' => m'.WellFormed ∧
      WorldWithin doublings m' ∧ m'.minHalfSize = m.minHalfSize ∧
      m'.items.map Item.point = m.items.map Item.point ++ inserts.filterMap fun insert => project insert.1 := by
    refine meets_foldlM (I := fun (done : List (E × Option (List UInt8))) (m' : FractalMemory3D ℚ) => m'.WellFormed ∧
      WorldWithin doublings m' ∧ m'.minHalfSize = m.minHalfSize ∧
      m'.items.map Item.point = m.items.map Item.point ++ done.filterMap fun insert => project insert.1) ?_ ?_
    · exact ⟨h, hworld, rfl, by simp⟩
    · rintro done insert m₁ hinsert ⟨h₁, hworld₁, hmin, hpoints⟩
      refine meets_bind (insertWith_meets h₁ hworld₁ (hmin ▸ hlevels) hfuel hfuel' (hcoord insert hinsert) insert.2) ?_
      rintro ⟨_, m₂⟩ ⟨h₂, hworld₂, hmin₂, hpoints₂⟩
      refine meets_pure ⟨h₂, hworld₂, hmin₂.trans hmin, ?_⟩
      rw [hpoints₂, hpoints, List.append_assoc, List.filterMap_append]
      cases hproject : project insert.1 with
      | none => simp [hproject]
      | some point => simp [hproject]
  exact hloop.mono fun m' hm' => ⟨hm'.1, hm'.2.2.2⟩

end FractalMemory3D

end Ccos.Octasoma
