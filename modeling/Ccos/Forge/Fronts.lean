import Ccos.Forge.Pareto
import Ccos.Lib.Depth
import Ccos.Lib.StableSort

/-!
# Fronts and depth

The front of rank `k` is what has depth `k`: a counter holds what still dominates an individual, and it reaches zero
in the round that takes the last of it.
-/

open Std

namespace Ccos

variable {C F : Type}

/-! ## Domination is a strict order -/

namespace Score

open PlacedFloat64

/-- The objectives of a valid score are numbers. -/
def Placed [Float64 F] [PlacedFloat64 F] (s : Score F) : Prop :=
  s.valid = true → ∀ x ∈ s.objectives, ∃ y, place x = some y

variable [Float64 F]

theorem dominatesFrom_iff (pairs : List (F × F)) (better : Bool) :
    dominatesFrom pairs better = true ↔
      (∀ p ∈ pairs, ¬ Scalar.gt p.1 p.2 = true) ∧ (better = true ∨ ∃ p ∈ pairs, Scalar.lt p.1 p.2 = true) := by
  induction pairs generalizing better with
  | nil => simp [dominatesFrom]
  | cons p pairs ih =>
    obtain ⟨a, b⟩ := p
    rw [dominatesFrom, List.forall_mem_cons]
    by_cases hgt : Scalar.gt a b = true
    · rw [if_pos hgt]
      exact iff_of_false Bool.false_ne_true fun h => h.1.1 hgt
    · rw [if_neg hgt, ih, Bool.or_eq_true, List.exists_mem_cons_iff]
      constructor
      · rintro ⟨hall, h⟩
        exact ⟨⟨hgt, hall⟩, by tauto⟩
      · rintro ⟨⟨-, hall⟩, h⟩
        exact ⟨hall, by tauto⟩

theorem dominates_of_invalid {s t : Score F} (hs : s.valid = true) (ht : t.valid = false) : s.dominates t = true := by
  simp [dominates, hs, ht]

theorem valid_of_dominates {s t : Score F} (h : s.dominates t = true) : s.valid = true := by
  by_contra hs
  simp [dominates, hs] at h

theorem dominates_iff_of_valid {s t : Score F} (hs : s.valid = true) (ht : t.valid = true) :
    s.dominates t = true ↔ s.objectives.length = t.objectives.length ∧
      (∀ (i : Nat) (x y : F), s.objectives[i]? = some x → t.objectives[i]? = some y → ¬ Scalar.gt x y = true) ∧
      ∃ (i : Nat) (x y : F), s.objectives[i]? = some x ∧ t.objectives[i]? = some y ∧ Scalar.lt x y = true := by
  have hmem : ∀ x y, (x, y) ∈ s.objectives.zip t.objectives ↔
      ∃ i : Nat, s.objectives[i]? = some x ∧ t.objectives[i]? = some y := by
    intro x y
    rw [List.mem_iff_getElem?]
    exact exists_congr fun i => List.getElem?_zip_eq_some
  unfold dominates
  rw [if_neg (by simp [hs]), if_neg (by simp [ht])]
  by_cases hlen : s.objectives.length = t.objectives.length
  · rw [if_neg (not_not_intro hlen), dominatesFrom_iff]
    simp only [Prod.forall, Prod.exists, hmem, Bool.false_eq_true, false_or]
    constructor
    · rintro ⟨hall, x, y, ⟨i, hx, hy⟩, hlt⟩
      exact ⟨hlen, fun i x y hx hy => hall x y ⟨i, hx, hy⟩, i, x, y, hx, hy, hlt⟩
    · rintro ⟨-, hall, i, x, y, hx, hy, hlt⟩
      exact ⟨fun x y ⟨i, hx, hy⟩ => hall i x y hx hy, x, y, ⟨i, hx, hy⟩, hlt⟩
  · rw [if_pos hlen]
    exact iff_of_false Bool.false_ne_true fun h => hlen h.1

variable [PlacedFloat64 F]

theorem dominates_self (s : Score F) : s.dominates s = false := by
  by_contra h
  have hdom : s.dominates s = true := by simpa using h
  have hvalid := valid_of_dominates hdom
  obtain ⟨-, -, i, x, y, hx, hy, hlt⟩ := (dominates_iff_of_valid hvalid hvalid).mp hdom
  obtain rfl := Option.some.inj (hx.symm.trans hy)
  obtain ⟨p, q, hp, hq, hlt⟩ := (lt_iff_place x x).mp hlt
  rw [hp] at hq
  cases hq
  exact lt_irrefl _ hlt

theorem dominates_trans {s t u : Score F} (ht : t.Placed) (hplaced : u.Placed) (hst : s.dominates t = true)
    (htu : t.dominates u = true) : s.dominates u = true := by
  have hs := valid_of_dominates hst
  have hvalid := valid_of_dominates htu
  cases hu : u.valid with
  | false => exact dominates_of_invalid hs hu
  | true =>
    obtain ⟨hlen, hle, i, x, y, hx, hy, hlt⟩ := (dominates_iff_of_valid hs hvalid).mp hst
    obtain ⟨hlen', hle', -⟩ := (dominates_iff_of_valid hvalid hu).mp htu
    -- Between two numbers, not to be above is to be at most as high.
    have hmiddle : ∀ (i : Nat) (y z : F), t.objectives[i]? = some y → u.objectives[i]? = some z →
        ∃ p q, place y = some p ∧ place z = some q ∧ p ≤ q := by
      intro i y z hy hz
      obtain ⟨p, hp⟩ := ht hvalid y (List.mem_of_getElem? hy)
      obtain ⟨q, hq⟩ := hplaced hu z (List.mem_of_getElem? hz)
      refine ⟨p, q, hp, hq, le_of_not_gt fun hlt => ?_⟩
      exact hle' i y z hy hz ((gt_iff_place y z).mpr ⟨p, q, hp, hq, hlt⟩)
    refine (dominates_iff_of_valid hs hu).mpr ⟨hlen.trans hlen', fun i x z hx hz hgt => ?_, ?_⟩
    · obtain ⟨a, c, ha, hc, hca⟩ := (gt_iff_place x z).mp hgt
      obtain ⟨hi, -⟩ := List.getElem?_eq_some_iff.mp hz
      have hy := List.getElem?_eq_getElem (hlen'.symm ▸ hi)
      obtain ⟨p, q, hp, hq, hpq⟩ := hmiddle i _ z hy hz
      obtain rfl := Option.some.inj (hc.symm.trans hq)
      exact hle i x _ hx hy ((gt_iff_place x _).mpr ⟨a, p, ha, hp, hpq.trans_lt hca⟩)
    · obtain ⟨hi, -⟩ := List.getElem?_eq_some_iff.mp hy
      have hz := List.getElem?_eq_getElem (hlen' ▸ hi)
      obtain ⟨p, q, hp, hq, hpq⟩ := hmiddle i y _ hy hz
      obtain ⟨a, b, ha, hb, hab⟩ := (lt_iff_place x y).mp hlt
      obtain rfl := Option.some.inj (hb.symm.trans hp)
      exact ⟨i, x, _, hx, hz, (lt_iff_place x _).mpr ⟨a, q, ha, hq, hab.trans_le hpq⟩⟩

end Score

namespace Pareto

/-! ## Counting down -/

/-- `domination_counts[q] -= 1`; `none` is an underflow. -/
def discountChecked (state : List Nat × List Nat) (q : Nat) : Option (List Nat × List Nat) :=
  if state.1[q]? = some 0 then none else some (discount state q)

def nextFrontChecked (lists : List (List Nat)) (counts : List Nat) (front : List Nat) :
    Option (List Nat × List Nat) :=
  (front.flatMap fun p => lists.getD p []).foldlM discountChecked (counts, [])

def frontsFromChecked (lists : List (List Nat)) : Nat → List Nat → List Nat → Option (List (List Nat))
  | 0, counts, front => (nextFrontChecked lists counts front).map fun _ => [front]
  | fuel + 1, counts, front => do
    let next ← nextFrontChecked lists counts front
    if next.2 = [] then some [front] else (frontsFromChecked lists fuel next.1 next.2).map (front :: ·)

/-- The fronts, with every subtraction checked. -/
def frontsChecked [Float64 F] (archive : List (Individual C F)) : Option (List (List Nat)) :=
  let counts := dominationCounts archive
  let first := (List.range archive.length).filter fun i => counts[i]? = some 0
  if first = [] then some [] else frontsFromChecked (dominatesList archive) archive.length counts first

theorem getElem?_modify_pred (counts : List Nat) (q i : Nat) :
    (counts.modify q (· - 1))[i]? = counts[i]?.map (· - if q = i then 1 else 0) := by
  rw [List.getElem?_modify]
  by_cases hi : q = i <;> simp [hi]

theorem getElem?_discount (state : List Nat × List Nat) (q i : Nat) :
    (discount state q).1[i]? = state.1[i]?.map (· - if q = i then 1 else 0) := by
  unfold discount
  split
  · rename_i hlast
    rw [List.getElem?_set]
    by_cases hi : q = i
    · subst hi
      obtain ⟨hlt, -⟩ := List.getElem?_eq_some_iff.mp hlast
      rw [if_pos rfl, if_pos hlt, hlast, if_pos rfl]
      rfl
    · simp [hi]
  · exact getElem?_modify_pred state.1 q i

theorem getElem?_foldl_discount (qs : List Nat) (state : List Nat × List Nat) (i : Nat) :
    (qs.foldl discount state).1[i]? = state.1[i]?.map (· - qs.count i) := by
  induction qs generalizing state with
  | nil => simp
  | cons q qs ih =>
    rw [List.foldl_cons, ih, getElem?_discount, Option.map_map, List.count_cons]
    refine Option.map_congr fun c _ => ?_
    simp only [Function.comp_apply, beq_iff_eq]
    omega

theorem mem_discount_iff (state : List Nat × List Nat) (q i : Nat) :
    i ∈ (discount state q).2 ↔ i ∈ state.2 ∨ q = i ∧ state.1[q]? = some 1 := by
  unfold discount
  split
  · rename_i hlast
    rw [List.mem_append, List.mem_singleton]
    exact or_congr_right ⟨fun h => ⟨h.symm, hlast⟩, fun h => h.1.symm⟩
  · rename_i hmore
    exact ⟨.inl, fun h => h.resolve_right fun h => hmore h.2⟩

/-- What joins is what the last of its count is taken from. -/
theorem mem_foldl_discount_iff (qs : List Nat) (state : List Nat × List Nat) (i : Nat) :
    i ∈ (qs.foldl discount state).2 ↔ i ∈ state.2 ∨ ∃ c, state.1[i]? = some c ∧ 0 < c ∧ c ≤ qs.count i := by
  induction qs generalizing state with
  | nil =>
    refine ⟨.inl, fun h => h.resolve_right ?_⟩
    rintro ⟨c, -, hpos, hle⟩
    rw [List.count_nil] at hle
    omega
  | cons q qs ih =>
    rw [List.foldl_cons, ih, mem_discount_iff, getElem?_discount, List.count_cons, or_assoc]
    refine or_congr_right ?_
    by_cases hi : q = i
    · subst hi
      cases state.1[q]? with
      | none => simp
      | some c =>
        simp only [if_pos, beq_self_eq_true, Option.map_some, Option.some.injEq, true_and, exists_eq_left']
        omega
    · simp [hi]

theorem nodup_foldl_discount {qs : List Nat} {state : List Nat × List Nat} (h : state.2.Nodup)
    (hdone : ∀ i ∈ state.2, state.1[i]? = some 0) : (qs.foldl discount state).2.Nodup := by
  induction qs generalizing state with
  | nil => exact h
  | cons q qs ih =>
    refine ih ?_ ?_
    · unfold discount
      split
      · rename_i hlast
        refine List.nodup_append.mpr ⟨h, List.nodup_singleton q, fun i hi j hj heq => ?_⟩
        rw [heq, List.mem_singleton.mp hj] at hi
        rw [hdone q hi] at hlast
        cases hlast
      · exact h
    · intro i hi
      rw [getElem?_discount]
      rcases (mem_discount_iff state q i).mp hi with hi | ⟨rfl, hlast⟩
      · rw [hdone i hi]
        simp
      · rw [hlast]
        simp

theorem foldlM_discountChecked {qs : List Nat} {state : List Nat × List Nat}
    (h : ∀ q ∈ qs, ∃ c, state.1[q]? = some c ∧ qs.count q ≤ c) :
    qs.foldlM discountChecked state = some (qs.foldl discount state) := by
  induction qs generalizing state with
  | nil => rfl
  | cons q qs ih =>
    obtain ⟨c, hc, hle⟩ := h q List.mem_cons_self
    rw [List.count_cons_self] at hle
    have hpos : ¬ state.1[q]? = some 0 := by
      rw [hc, Option.some.injEq]
      omega
    rw [List.foldlM_cons, discountChecked, if_neg hpos]
    refine ih fun i hi => ?_
    obtain ⟨c, hc, hle⟩ := h i (List.mem_cons_of_mem _ hi)
    rw [List.count_cons] at hle
    refine ⟨c - if q = i then 1 else 0, by rw [getElem?_discount, hc]; rfl, ?_⟩
    simp only [beq_iff_eq] at hle
    omega

/-! ## Rounds -/

section Rounds

variable (n : Nat) (dom : Nat → Nat → Bool)

/-- The depth of an index among the first `n`. -/
def indexDepth (q : Nat) : Nat := Depth.depth dom (List.range n) q

/-- The front is what has depth `k`, and a counter holds the dominators of that depth and beyond. -/
structure AtDepth (k : Nat) (counts front : List Nat) : Prop where
  front : front.Perm ((List.range n).filter fun q => indexDepth n dom q = k)
  counts : ∀ q < n, counts[q]? = some ((List.range n).countP fun p => dom p q && k ≤ indexDepth n dom p)

variable {n dom}

theorem AtDepth.mem_front {k : Nat} {counts front : List Nat} (h : AtDepth n dom k counts front) {q : Nat} :
    q ∈ front ↔ q < n ∧ indexDepth n dom q = k := by
  rw [h.front.mem_iff, List.mem_filter, List.mem_range, decide_eq_true_eq]

variable (hirrefl : ∀ a, dom a a = false) (htrans : ∀ a b c, dom a b = true → dom b c = true → dom a c = true)
  {lists : List (List Nat)} (hlists : ∀ p < n, lists.getD p [] = (List.range n).filter (dom p))

include hlists

/-- An index is taken from once for each member of the front that dominates it. -/
theorem count_front {front : List Nat} (hfront : ∀ p ∈ front, p < n) {q : Nat} (hq : q < n) :
    (front.flatMap fun p => lists.getD p []).count q = front.countP (dom · q) := by
  induction front with
  | nil => rfl
  | cons p front ih =>
    obtain ⟨hp, hfront⟩ := List.forall_mem_cons.mp hfront
    rw [List.flatMap_cons, List.count_append, ih hfront, List.countP_cons, hlists p hp, Nat.add_comm]
    refine congrArg _ ?_
    by_cases hdom : dom p q = true
    · rw [List.count_filter hdom, if_pos hdom]
      exact List.count_eq_one_of_mem List.nodup_range (List.mem_range.mpr hq)
    · rw [if_neg hdom]
      exact List.count_eq_zero.mpr fun hmem => hdom (List.mem_filter.mp hmem).2

theorem AtDepth.count {k : Nat} {counts front : List Nat} (h : AtDepth n dom k counts front) {q : Nat} (hq : q < n) :
    (front.flatMap fun p => lists.getD p []).count q =
      (List.range n).countP fun p => dom p q && indexDepth n dom p = k := by
  rw [count_front hlists (fun p hp => (h.mem_front.mp hp).1) hq, h.front.countP_eq, List.countP_filter]

omit hlists in
/-- The dominators of an index from depth `k` on are those of depth `k` and those beyond. -/
theorem countP_from_depth (k q : Nat) :
    ((List.range n).countP fun p => dom p q && k ≤ indexDepth n dom p) =
      ((List.range n).countP fun p => dom p q && indexDepth n dom p = k) +
        (List.range n).countP fun p => dom p q && k + 1 ≤ indexDepth n dom p := by
  rw [List.countP_eq_countP_filter_add _ _ fun p => indexDepth n dom p = k, List.countP_filter, List.countP_filter]
  refine congrArg₂ (· + ·) (List.countP_congr fun p _ => ?_) (List.countP_congr fun p _ => ?_)
  · simp only [Bool.and_eq_true, decide_eq_true_eq]
    exact ⟨fun h => ⟨h.1.1, h.2⟩, fun h => ⟨⟨h.1, h.2.ge⟩, h.2⟩⟩
  · simp only [Bool.and_eq_true, Bool.not_eq_true', decide_eq_false_iff_not, decide_eq_true_eq]
    exact ⟨fun h => ⟨h.1.1, by omega⟩, fun h => ⟨⟨h.1, by omega⟩, by omega⟩⟩

include hirrefl htrans

omit hlists in
/-- Something of depth `k` dominates `q`, and nothing beyond. -/
theorem indexDepth_eq_succ_iff (k q : Nat) : indexDepth n dom q = k + 1 ↔
    0 < ((List.range n).countP fun p => dom p q && indexDepth n dom p = k) ∧
      ((List.range n).countP fun p => dom p q && k + 1 ≤ indexDepth n dom p) = 0 := by
  simp only [List.countP_pos_iff, List.countP_eq_zero, Bool.and_eq_true, decide_eq_true_eq, not_and]
  constructor
  · intro hdepth
    refine ⟨Depth.exists_of_depth_succ hirrefl htrans hdepth, fun p hp hdom => ?_⟩
    have hlt : indexDepth n dom p < indexDepth n dom q := Depth.depth_lt hirrefl htrans hp hdom
    omega
  · rintro ⟨⟨p, hp, hdom, hk⟩, hnone⟩
    have hlt : indexDepth n dom p < indexDepth n dom q := Depth.depth_lt hirrefl htrans hp hdom
    by_contra hne
    obtain ⟨b, hb, hdom, hdepth⟩ :=
      Depth.exists_of_lt_depth (l := List.range n) hirrefl htrans (show k + 1 < indexDepth n dom q by omega)
    exact hnone b hb hdom hdepth.ge

theorem AtDepth.next {k : Nat} {counts front : List Nat} (h : AtDepth n dom k counts front) :
    AtDepth n dom (k + 1) (nextFront lists counts front).1 (nextFront lists counts front).2 ∧
      nextFrontChecked lists counts front = some (nextFront lists counts front) := by
  have hmem : ∀ q ∈ front.flatMap (fun p => lists.getD p []), q < n := by
    intro q hq
    obtain ⟨p, hp, hq⟩ := List.mem_flatMap.mp hq
    rw [hlists p (h.mem_front.mp hp).1] at hq
    exact List.mem_range.mp (List.mem_filter.mp hq).1
  refine ⟨⟨?_, fun q hq => ?_⟩, foldlM_discountChecked fun q hq => ⟨_, h.counts q (hmem q hq), ?_⟩⟩
  · refine (List.perm_ext_iff_of_nodup (nodup_foldl_discount List.nodup_nil (by simp)) (List.nodup_range.filter _)).mpr ?_
    intro q
    rw [mem_foldl_discount_iff, List.mem_filter, List.mem_range, decide_eq_true_eq, or_iff_right List.not_mem_nil,
      indexDepth_eq_succ_iff hirrefl htrans]
    constructor
    · rintro ⟨c, hc, hpos, hle⟩
      have hq : q < n := hmem q (List.count_pos_iff.mp (hpos.trans_le hle))
      obtain rfl := Option.some.inj ((h.counts q hq).symm.trans hc)
      rw [h.count hlists hq] at hle
      rw [countP_from_depth] at hpos hle
      exact ⟨hq, by omega, by omega⟩
    · rintro ⟨hq, hpos, hnone⟩
      refine ⟨_, h.counts q hq, ?_, ?_⟩
      · rw [countP_from_depth]
        omega
      · rw [h.count hlists hq, countP_from_depth, hnone]
        exact Nat.le_refl _
  · rw [nextFront, getElem?_foldl_discount, h.counts q hq, h.count hlists hq, countP_from_depth, Option.map_some,
      Nat.add_sub_cancel_left]
  · rw [h.count hlists (hmem q hq), countP_from_depth]
    exact Nat.le_add_right _ _

/-- The front of each rank is what has that depth, and no depth is left out. -/
theorem AtDepth.fronts {fuel k : Nat} {counts front : List Nat} (h : AtDepth n dom k counts front)
    (hfuel : n ≤ k + fuel) :
    (∀ r, ((frontsFrom lists fuel counts front).getD r []).Perm
      ((List.range n).filter fun q => indexDepth n dom q = k + r)) ∧
    frontsFromChecked lists fuel counts front = some (frontsFrom lists fuel counts front) := by
  induction fuel generalizing k counts front with
  | zero =>
    obtain ⟨-, hchecked⟩ := h.next hirrefl htrans hlists
    refine ⟨fun r => ?_, by rw [frontsFromChecked, hchecked]; rfl⟩
    cases r with
    | zero => exact h.front
    | succ r =>
      have hnone : ((List.range n).filter fun q => indexDepth n dom q = k + (r + 1)) = [] := by
        refine List.filter_eq_nil_iff.mpr fun q _ => ?_
        have hle := @Depth.depth_le _ dom (List.range n) q
        rw [List.length_range] at hle
        unfold indexDepth
        rw [decide_eq_true_eq]
        omega
      rw [hnone]
      exact List.Perm.refl _
  | succ fuel ih =>
    obtain ⟨hnext, hchecked⟩ := h.next hirrefl htrans hlists
    obtain ⟨hfronts, hrest⟩ := ih hnext (by omega)
    rw [frontsFrom, frontsFromChecked, hchecked]
    by_cases hnil : (nextFront lists counts front).2 = []
    · refine ⟨fun r => ?_, by simp [hnil]⟩
      rw [if_pos hnil]
      cases r with
      | zero => exact h.front
      | succ r =>
        -- Depth has no gaps, so nothing lies beyond an empty front.
        have hnone : ((List.range n).filter fun q => indexDepth n dom q = k + (r + 1)) = [] := by
          refine List.filter_eq_nil_iff.mpr fun q hq => ?_
          rw [decide_eq_true_eq]
          intro hdepth
          have hempty : ∀ p < n, indexDepth n dom p ≠ k + 1 := by
            intro p hp hk
            have hmem := hnext.mem_front.mpr ⟨hp, hk⟩
            rw [hnil] at hmem
            cases hmem
          cases r with
          | zero => exact hempty q (List.mem_range.mp hq) hdepth
          | succ r =>
            have hlt : k + 1 < Depth.depth dom (List.range n) q := by
              change k + 1 < indexDepth n dom q
              omega
            obtain ⟨p, hp, -, hk⟩ := Depth.exists_of_lt_depth hirrefl htrans hlt
            exact hempty p (List.mem_range.mp hp) hk
        rw [hnone]
        exact List.Perm.refl _
    · refine ⟨fun r => ?_, by simp [hnil, hrest]⟩
      rw [if_neg hnil]
      cases r with
      | zero => exact h.front
      | succ r =>
        have hshift := hfronts r
        rwa [Nat.add_assoc, Nat.add_comm 1 r] at hshift

end Rounds

/-! ## The fronts of an archive -/

section Archive

variable {archive : List (Individual C F)}

def scoreAt (archive : List (Individual C F)) (i : Nat) : Score F :=
  (archive[i]?.map (·.score)).getD .invalid

theorem scoreAt_eq {i : Nat} {a : Individual C F} (h : archive[i]? = some a) : scoreAt archive i = a.score := by
  rw [scoreAt, h]
  rfl

theorem map_scoreAt : (List.range archive.length).map (scoreAt archive) = archive.map (·.score) := by
  refine List.ext_getElem? fun i => ?_
  rw [List.getElem?_map, List.getElem?_map]
  by_cases hi : i < archive.length
  · rw [List.getElem?_range hi, List.getElem?_eq_getElem hi]
    exact congrArg some (scoreAt_eq (List.getElem?_eq_getElem hi))
  · rw [List.getElem?_eq_none (by simpa using hi), List.getElem?_eq_none (by simpa using hi)]
    rfl

theorem map_filter_zipIdx {f : Individual C F × Nat → Bool} {g : Nat → Bool}
    (h : ∀ b j, archive[j]? = some b → f (b, j) = g j) :
    (archive.zipIdx.filter f).map Prod.snd = (List.range archive.length).filter g := by
  have hcongr : archive.zipIdx.filter f = archive.zipIdx.filter (g ∘ Prod.snd) := by
    refine List.filter_congr fun x hx => ?_
    exact h x.1 x.2 (List.mem_zipIdx_iff_getElem?.mp hx)
  rw [hcongr, ← List.filter_map, List.zipIdx_map_snd, List.range_eq_range']

variable [Float64 F]

def domAt (archive : List (Individual C F)) (p q : Nat) : Bool :=
  (scoreAt archive p).dominates (scoreAt archive q)

/-- The length of the longest chain of domination that ends in the individual. -/
def depth (archive : List (Individual C F)) (a : Individual C F) : Nat :=
  Depth.depth Score.dominates (archive.map (·.score)) a.score

theorem indexDepth_eq {i : Nat} {a : Individual C F} (h : archive[i]? = some a) :
    indexDepth archive.length (domAt archive) i = depth archive a := by
  rw [depth, ← map_scoreAt, ← scoreAt_eq h, Depth.depth_map]
  rfl

theorem map_indexDepth :
    (List.range archive.length).map (indexDepth archive.length (domAt archive)) = archive.map (depth archive) := by
  refine List.ext_getElem? fun i => ?_
  rw [List.getElem?_map, List.getElem?_map]
  by_cases hi : i < archive.length
  · rw [List.getElem?_range hi, List.getElem?_eq_getElem hi]
    exact congrArg some (indexDepth_eq (List.getElem?_eq_getElem hi))
  · rw [List.getElem?_eq_none (by simpa using hi), List.getElem?_eq_none (by simpa using hi)]
    rfl

variable [PlacedFloat64 F]

theorem domAt_self (p : Nat) : domAt archive p p = false := Score.dominates_self _

theorem getD_dominatesList {p : Nat} (hp : p < archive.length) :
    (dominatesList archive).getD p [] = (List.range archive.length).filter (domAt archive p) := by
  rw [List.getD_eq_getElem?_getD, dominatesList, List.getElem?_mapIdx, List.getElem?_eq_getElem hp]
  refine map_filter_zipIdx fun b j hj => ?_
  rw [domAt, scoreAt_eq (List.getElem?_eq_getElem hp), scoreAt_eq hj]
  by_cases hpj : p = j
  · subst hpj
    rw [List.getElem?_eq_getElem hp] at hj
    cases hj
    simp [Score.dominates_self]
  · simp [hpj]

variable (hplaced : ∀ a ∈ archive, a.score.Placed)

include hplaced

theorem placed_scoreAt (i : Nat) : (scoreAt archive i).Placed := by
  unfold scoreAt
  cases hi : archive[i]? with
  | none => exact nofun
  | some a => exact hplaced a (List.mem_of_getElem? hi)

theorem domAt_trans (p q r : Nat) (hpq : domAt archive p q = true) (hqr : domAt archive q r = true) :
    domAt archive p r = true :=
  Score.dominates_trans (placed_scoreAt hplaced q) (placed_scoreAt hplaced r) hpq hqr

theorem getElem?_dominationCounts {q : Nat} (hq : q < archive.length) :
    (dominationCounts archive)[q]? = some ((List.range archive.length).countP (domAt archive · q)) := by
  rw [dominationCounts, List.getElem?_mapIdx, List.getElem?_eq_getElem hq, Option.map_some, List.countP_eq_length_filter,
    List.countP_eq_length_filter, ← map_filter_zipIdx, List.length_map]
  intro b j hj
  have hdom := @scoreAt_eq _ _ archive _ _ (List.getElem?_eq_getElem hq)
  rw [domAt, scoreAt_eq hj, hdom]
  cases hback : b.score.dominates (archive[q]).score with
  | false => simp [hback]
  | true =>
    have hne : q ≠ j := by
      rintro rfl
      rw [List.getElem?_eq_getElem hq] at hj
      cases hj
      rw [Score.dominates_self] at hback
      cases hback
    have hnot : (archive[q]).score.dominates b.score = false := by
      by_contra hforth
      have hloop := domAt_trans hplaced q j q (by rw [domAt, scoreAt_eq hj, hdom]; simpa using hforth)
        (by rw [domAt, scoreAt_eq hj, hdom, hback])
      rw [domAt_self] at hloop
      cases hloop
    simp [hne, hnot, hback]

theorem atDepth_start : AtDepth archive.length (domAt archive) 0 (dominationCounts archive)
    ((List.range archive.length).filter fun i => (dominationCounts archive)[i]? = some 0) := by
  constructor
  · refine List.Perm.of_eq (List.filter_congr fun q hq => ?_)
    rw [getElem?_dominationCounts hplaced (List.mem_range.mp hq), decide_eq_decide, Option.some.injEq, indexDepth,
      Depth.depth_eq_zero_iff domAt_self (domAt_trans hplaced), List.countP_eq_zero]
    simp
  · intro q hq
    rw [getElem?_dominationCounts hplaced hq]
    simp

/-- The front of rank `r` is what has depth `r`, and no counter underflows. -/
theorem fronts_at_depth : (∀ r, ((fronts archive).getD r []).Perm
      ((List.range archive.length).filter fun q => indexDepth archive.length (domAt archive) q = r)) ∧
    frontsChecked archive = some (fronts archive) := by
  have hstart := atDepth_start hplaced
  have hfuel : archive.length ≤ 0 + archive.length := by omega
  obtain ⟨hfronts, hchecked⟩ := hstart.fronts domAt_self (domAt_trans hplaced)
    (fun p hp => getD_dominatesList hp) hfuel
  simp only [Nat.zero_add] at hfronts
  unfold fronts frontsChecked
  dsimp only
  by_cases hnil : ((List.range archive.length).filter fun i => (dominationCounts archive)[i]? = some 0) = []
  · refine ⟨fun r => ?_, by rw [if_pos hnil, if_pos hnil]⟩
    have hnone : ((List.range archive.length).filter fun q =>
        indexDepth archive.length (domAt archive) q = r) = [] := by
      refine List.filter_eq_nil_iff.mpr fun q hq => ?_
      have hempty : ∀ p < archive.length, indexDepth archive.length (domAt archive) p ≠ 0 := by
        intro p hp hzero
        have hmem := hstart.mem_front.mpr ⟨hp, hzero⟩
        rw [hnil] at hmem
        cases hmem
      have hpos := Nat.pos_of_ne_zero (hempty q (List.mem_range.mp hq))
      obtain ⟨p, hp, -, hzero⟩ := Depth.exists_of_lt_depth domAt_self (domAt_trans hplaced) hpos
      exact absurd hzero (hempty p (List.mem_range.mp hp))
    rw [if_pos hnil, hnone]
    exact List.Perm.refl _
  · rw [if_neg hnil, if_neg hnil]
    exact ⟨hfronts, hchecked⟩

theorem length_front (r : Nat) :
    ((fronts archive).getD r []).length = archive.countP fun a => depth archive a = r := by
  have hindex : (List.range archive.length).map (indexDepth archive.length (domAt archive)) =
      archive.map (depth archive) := map_indexDepth
  have hmap := congrArg (List.countP fun d => d = r) hindex
  rw [List.countP_map, List.countP_map] at hmap
  rw [((fronts_at_depth hplaced).1 r).length_eq, ← List.countP_eq_length_filter]
  exact hmap

theorem mem_front {r i : Nat} {a : Individual C F} (ha : archive[i]? = some a) :
    i ∈ (fronts archive).getD r [] ↔ depth archive a = r := by
  obtain ⟨hi, -⟩ := List.getElem?_eq_some_iff.mp ha
  rw [((fronts_at_depth hplaced).1 r).mem_iff, List.mem_filter, List.mem_range, decide_eq_true_eq, indexDepth_eq ha]
  exact and_iff_right hi

end Archive

end Pareto

end Ccos
