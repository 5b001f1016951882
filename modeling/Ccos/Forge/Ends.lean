import Ccos.Forge.Sorted

/-!
# The ends of the first front

Along an objective the first of the least and the last of the greatest are the ends of a front. Their crowding distance
is infinite, so the sort puts the ends of the first front before everything else, in the order they came in.
-/

namespace Ccos

/-- What the crowding distance asks of `f64`. -/
class CrowdingFloat64 (F : Type) [InfFloat64 F] extends FinitePlacedFloat64 F where
  finite_zero : Float64.isFinite (Scalar.lit 0 : F) = true
  eq_infinity : Scalar.eq (InfFloat64.infinity : F) InfFloat64.infinity = true
  lt_infinity : ∀ a : F, Float64.isFinite a = true → Scalar.lt a InfFloat64.infinity = true
  /-- A part of a range is no wider than the range. -/
  finite_sub : ∀ lo a b hi : F, Float64.isFinite a = true → Float64.isFinite b = true →
    Scalar.gt lo a = false → Scalar.gt a b = false → Scalar.gt b hi = false → Float64.isFinite (hi - lo) = true →
    Float64.isFinite (b - a) = true ∧ Scalar.gt (Scalar.lit 0) (b - a) = false ∧ Scalar.gt (b - a) (hi - lo) = false
  /-- A share is at most one. -/
  finite_div : ∀ a b : F, Float64.isFinite a = true → Float64.isFinite b = true → Scalar.gt (Scalar.lit 0) a = false →
    Scalar.gt a b = false → Scalar.gt b (Scalar.lit (1 / 10 ^ 9)) = true →
    Float64.isFinite (a / b) = true ∧ Scalar.gt (Scalar.lit 0) (a / b) = false ∧
      Scalar.gt (a / b) (Scalar.lit 1) = false
  /-- A finite number stays finite when at most one is added. -/
  finite_add : ∀ a b : F, Float64.isFinite a = true → Float64.isFinite b = true →
    Scalar.gt (Scalar.lit 0) b = false → Scalar.gt b (Scalar.lit 1) = false → Float64.isFinite (a + b) = true

variable {C F : Type}

namespace Pareto

section Definitions

variable [Float64 F]

/-- What nothing dominates, in the order of the archive. -/
def firstFront (archive : List (Individual C F)) : List Nat :=
  (List.range archive.length).filter fun q => (List.range archive.length).all fun p => !domAt archive p q

/-- Along an objective `i` comes before `p`: it is less, or equal and earlier. -/
def comesBefore (archive : List (Individual C F)) (objIdx i p : Nat) : Bool :=
  match objectiveOf archive objIdx i, objectiveOf archive objIdx p with
  | some x, some y => if i < p then !Scalar.gt x y else Scalar.lt x y
  | _, _ => false

/-- The first or the last of the front along an objective. -/
def isEndAlong (archive : List (Individual C F)) (i objIdx : Nat) : Bool :=
  ((firstFront archive).all fun p => p = i || comesBefore archive objIdx i p)
    || (firstFront archive).all fun p => p = i || comesBefore archive objIdx p i

def isEnd (archive : List (Individual C F)) (i : Nat) : Bool :=
  (firstFront archive).contains i && (List.range (numObjectives archive)).any (isEndAlong archive i)

/-- The individuals at the ends, in the order of the archive. -/
def ends (archive : List (Individual C F)) : List (Individual C F) :=
  (archive.zipIdx.filter fun (_, i) => isEnd archive i).map Prod.fst

end Definitions

/-! ## Distances along one objective -/

section Spread

variable [InfFloat64 F]

open InfFloat64

theorem getElem?_widen (norm : F) (distances : List F) (neighbours : (Nat × F) × (Nat × F) × (Nat × F)) (i : Nat) :
    (widen norm distances neighbours)[i]? = distances[i]?.map fun distance =>
      if neighbours.2.1.1 = i then
        if Scalar.eq distance infinity then distance else distance + (neighbours.2.2.2 - neighbours.1.2) / norm
      else distance := by
  rw [widen, List.getElem?_modify]
  by_cases hi : neighbours.2.1.1 = i <;> simp [hi]

theorem foldl_widen_other (norm : F) {l : List ((Nat × F) × (Nat × F) × (Nat × F))} {distances : List F} {i : Nat}
    (h : ∀ neighbours ∈ l, neighbours.2.1.1 ≠ i) : (l.foldl (widen norm) distances)[i]? = distances[i]? := by
  induction l generalizing distances with
  | nil => rfl
  | cons neighbours l ih =>
    obtain ⟨hne, hl⟩ := List.forall_mem_cons.mp h
    rw [List.foldl_cons, ih hl, getElem?_widen]
    simp [hne]

omit [InfFloat64 F] in
/-- The triples of neighbours are in the order they are sorted in. -/
theorem neighbours_of_mem {sorted : List (Nat × F)} {neighbours : (Nat × F) × (Nat × F) × (Nat × F)}
    (h : neighbours ∈ sorted.zip ((sorted.drop 1).zip (sorted.drop 2))) :
    ∃ t, sorted[t]? = some neighbours.1 ∧ sorted[t + 1]? = some neighbours.2.1 ∧
      sorted[t + 2]? = some neighbours.2.2 := by
  obtain ⟨t, ht⟩ := List.mem_iff_getElem?.mp h
  rw [List.getElem?_zip_eq_some, List.getElem?_zip_eq_some, List.getElem?_drop, List.getElem?_drop] at ht
  exact ⟨t, ht.1, by rw [Nat.add_comm]; exact ht.2.1, by rw [Nat.add_comm]; exact ht.2.2⟩

theorem spread_other {sorted : List (Nat × F)} {distances : List F} {i : Nat} (h : ∀ p ∈ sorted, p.1 ≠ i) :
    (spread sorted distances)[i]? = distances[i]? := by
  unfold spread
  split
  · rename_i first last hfirst hlast
    have hset : ((distances.set first.1 infinity).set last.1 infinity)[i]? = distances[i]? := by
      rw [List.getElem?_set_ne (h last (List.mem_of_getLast? hlast)),
        List.getElem?_set_ne (h first (List.mem_of_mem_head? hfirst))]
    dsimp only
    split
    · rw [foldl_widen_other, hset]
      intro neighbours hmem
      obtain ⟨t, -, hcurr, -⟩ := neighbours_of_mem hmem
      exact h _ (List.mem_of_getElem? hcurr)
    · exact hset
  · rfl

theorem getElem?_set_infinity {distances : List F} {i j : Nat} (hi : i < distances.length)
    (h : j = i ∨ distances[i]? = some infinity) : (distances.set j infinity)[i]? = some infinity := by
  rw [List.getElem?_set]
  by_cases hj : j = i
  · rw [if_pos hj, if_pos (hj ▸ hi)]
  · rw [if_neg hj]
    exact h.resolve_left hj

theorem getElem?_foldl_infinity {front : List Nat} {distances : List F} {i : Nat} (hi : i < distances.length)
    (h : i ∈ front ∨ distances[i]? = some infinity) :
    (front.foldl (fun distances idx => distances.set idx infinity) distances)[i]? = some infinity := by
  induction front generalizing distances with
  | nil => exact h.resolve_left List.not_mem_nil
  | cons idx front ih =>
    refine ih (by rwa [List.length_set]) ?_
    rcases h with h | h
    · rcases List.mem_cons.mp h with rfl | h
      · exact .inr (getElem?_set_infinity hi (.inl rfl))
      · exact .inl h
    · exact .inr (getElem?_set_infinity hi (.inr h))

variable [CrowdingFloat64 F]

/-- An infinite distance stays infinite. -/
theorem foldl_widen_infinite (norm : F) (l : List ((Nat × F) × (Nat × F) × (Nat × F))) {distances : List F} {i : Nat}
    (h : distances[i]? = some infinity) : (l.foldl (widen norm) distances)[i]? = some infinity := by
  induction l generalizing distances with
  | nil => exact h
  | cons neighbours l ih =>
    refine ih ?_
    rw [getElem?_widen, h]
    simp [CrowdingFloat64.eq_infinity]

theorem spread_infinite {sorted : List (Nat × F)} {distances : List F} {i : Nat} (hi : i < distances.length)
    (h : distances[i]? = some infinity ∨ (∃ x, sorted.head? = some (i, x)) ∨ ∃ x, sorted.getLast? = some (i, x)) :
    (spread sorted distances)[i]? = some infinity := by
  unfold spread
  split
  · rename_i first last hfirst hlast
    have hset : ((distances.set first.1 infinity).set last.1 infinity)[i]? = some infinity := by
      refine getElem?_set_infinity (by rwa [List.length_set]) ?_
      rcases h with h | ⟨x, h⟩ | ⟨x, h⟩
      · exact .inr (getElem?_set_infinity hi (.inr h))
      · obtain rfl := Option.some.inj (hfirst.symm.trans h)
        exact .inr (getElem?_set_infinity hi (.inl rfl))
      · obtain rfl := Option.some.inj (hlast.symm.trans h)
        exact .inl rfl
    dsimp only
    split
    · exact foldl_widen_infinite _ _ hset
    · exact hset
  · rename_i hnone
    rcases h with h | ⟨x, h⟩ | ⟨x, h⟩
    · exact h
    · cases hlast : sorted.getLast? with
      | none =>
        rw [List.getLast?_eq_none_iff.mp hlast] at h
        cases h
      | some last => exact absurd hlast (hnone _ _ h)
    · cases hfirst : sorted.head? with
      | none =>
        rw [List.head?_eq_none_iff.mp hfirst] at h
        cases h
      | some first => exact absurd h (hnone _ _ hfirst)

/-- Each addition is of a share of the range. -/
theorem foldl_widen_finite {norm : F} {l : List ((Nat × F) × (Nat × F) × (Nat × F))}
    (h : ∀ neighbours ∈ l, Float64.isFinite ((neighbours.2.2.2 - neighbours.1.2) / norm) = true ∧
      Scalar.gt (Scalar.lit 0) ((neighbours.2.2.2 - neighbours.1.2) / norm) = false ∧
      Scalar.gt ((neighbours.2.2.2 - neighbours.1.2) / norm) (Scalar.lit 1) = false)
    {distances : List F} {i : Nat} {d : F} (hd : distances[i]? = some d) (hfinite : Float64.isFinite d = true) :
    ∃ d', (l.foldl (widen norm) distances)[i]? = some d' ∧ Float64.isFinite d' = true := by
  induction l generalizing distances d with
  | nil => exact ⟨d, hd, hfinite⟩
  | cons neighbours l ih =>
    obtain ⟨⟨hshare, hpos, hone⟩, hl⟩ := List.forall_mem_cons.mp h
    rw [List.foldl_cons]
    refine ih hl (by rw [getElem?_widen, hd]; rfl) ?_
    split
    · dsimp only
      split
      · exact hfinite
      · exact CrowdingFloat64.finite_add _ _ hfinite hshare hpos hone
    · exact hfinite

/-- Between the ends a finite distance stays finite. -/
theorem spread_finite {sorted : List (Nat × F)} {distances : List F} {i : Nat} {d : F}
    (hvalues : ∀ p ∈ sorted, Float64.isFinite p.2 = true)
    (hsorted : sorted.Pairwise fun p q => Scalar.gt p.2 q.2 = false)
    (hrange : ∀ p ∈ sorted, ∀ q ∈ sorted, Float64.isFinite (q.2 - p.2) = true)
    (hfirst : ∀ x, sorted.head? ≠ some (i, x)) (hlast : ∀ x, sorted.getLast? ≠ some (i, x))
    (hd : distances[i]? = some d) (hfinite : Float64.isFinite d = true) :
    ∃ d', (spread sorted distances)[i]? = some d' ∧ Float64.isFinite d' = true := by
  unfold spread
  split
  · rename_i first last hhead hend
    have hset : ((distances.set first.1 infinity).set last.1 infinity)[i]? = some d := by
      rw [List.getElem?_set_ne, List.getElem?_set_ne, hd]
      · rintro rfl
        exact hfirst first.2 hhead
      · rintro rfl
        exact hlast last.2 hend
    dsimp only
    split
    · rename_i hwide
      refine foldl_widen_finite (fun neighbours hmem => ?_) hset hfinite
      obtain ⟨t, hprev, -, hnext⟩ := neighbours_of_mem hmem
      have hle : ∀ {s t : Nat} {p q : Nat × F}, s ≤ t → sorted[s]? = some p → sorted[t]? = some q →
          Scalar.gt p.2 q.2 = false := by
        intro s t p q hst hp hq
        rcases Nat.eq_or_lt_of_le hst with rfl | hlt
        · cases hp.symm.trans hq
          exact gt_self _
        · obtain ⟨_, rfl⟩ := List.getElem?_eq_some_iff.mp hp
          obtain ⟨_, rfl⟩ := List.getElem?_eq_some_iff.mp hq
          exact List.pairwise_iff_getElem.mp hsorted _ _ _ _ hlt
      have hlow : Scalar.gt first.2 neighbours.1.2 = false := hle (Nat.zero_le t) (by rwa [← List.head?_eq_getElem?]) hprev
      have hhigh : Scalar.gt neighbours.2.2.2 last.2 = false := by
        rw [List.getLast?_eq_getElem?] at hend
        have hlt := (List.getElem?_eq_some_iff.mp hnext).1
        exact hle (by omega) hnext hend
      obtain ⟨hpart, hnonneg, hwithin⟩ := CrowdingFloat64.finite_sub first.2 neighbours.1.2 neighbours.2.2.2 last.2
        (hvalues _ (List.mem_of_getElem? hprev)) (hvalues _ (List.mem_of_getElem? hnext)) hlow
        (hle (by omega) hprev hnext) hhigh (hrange _ (List.mem_of_mem_head? hhead) _ (List.mem_of_getLast? hend))
      exact CrowdingFloat64.finite_div _ _ hpart
        (hrange _ (List.mem_of_mem_head? hhead) _ (List.mem_of_getLast? hend)) hnonneg hwithin hwide
    · exact ⟨d, hset, hfinite⟩
  · exact ⟨d, hd, hfinite⟩

end Spread

/-! ## Distances of a front -/

section Regularity

variable [InfFloat64 F]

/-- The archive is of gated scores, and no difference of two objectives of its first front overflows. -/
structure Regular (archive : List (Individual C F)) : Prop where
  gated : ∀ a ∈ archive, a.score.valid = true ∧ a.score.Gated
  range : ∀ i ∈ firstFront archive, ∀ p ∈ firstFront archive, ∀ objIdx x y,
    objectiveOf archive objIdx i = some x → objectiveOf archive objIdx p = some y → Float64.isFinite (y - x) = true

variable {archive : List (Individual C F)}

theorem Regular.finite (h : Regular archive) {objIdx i : Nat} {x : F} (hx : objectiveOf archive objIdx i = some x) :
    Float64.isFinite x = true := by
  obtain ⟨a, ha, hx⟩ := Option.bind_eq_some_iff.mp hx
  exact (h.gated a (List.mem_of_getElem? ha)).2.2 x (List.mem_of_getElem? hx)

theorem Regular.numObjectives_pos (h : Regular archive) (hsome : archive ≠ []) : 0 < numObjectives archive := by
  obtain ⟨a, rest, rfl⟩ := List.exists_cons_of_ne_nil hsome
  exact List.length_pos_iff.mpr (h.gated a List.mem_cons_self).2.1

theorem comesBefore_eq {objIdx i p : Nat} {x y : F} (hx : objectiveOf archive objIdx i = some x)
    (hy : objectiveOf archive objIdx p = some y) :
    comesBefore archive objIdx i p = if i < p then !Scalar.gt x y else Scalar.lt x y := by
  rw [comesBefore, hx, hy]

theorem Regular.placed [FinitePlacedFloat64 F] (h : Regular archive) : ∀ a ∈ archive, a.score.Placed :=
  fun a ha _ x hx => FinitePlacedFloat64.exists_place x ((h.gated a ha).2.2 x hx)

/-- Two values of an objective are in one order or the other. -/
theorem comesBefore_swap [PlacedFloat64 F] {objIdx i p : Nat} {x y : F} (hx : objectiveOf archive objIdx i = some x)
    (hy : objectiveOf archive objIdx p = some y) (hne : i ≠ p) :
    comesBefore archive objIdx p i = !comesBefore archive objIdx i p := by
  rw [comesBefore_eq hx hy, comesBefore_eq hy hx]
  rcases Nat.lt_or_gt_of_ne hne with hlt | hlt
  · rw [if_pos hlt, if_neg (Nat.not_lt_of_gt hlt), Bool.not_not, lt_eq_gt]
  · rw [if_neg (Nat.not_lt_of_gt hlt), if_pos hlt, lt_eq_gt]

end Regularity

/-! ## Sorting a front by an objective -/

section Objective

variable [InfFloat64 F] {archive : List (Individual C F)} {objIdx : Nat} {front : List Nat} {values : List (Nat × F)}

omit [InfFloat64 F] in
theorem values_of_mapM (h : front.mapM (fun idx => (objectiveOf archive objIdx idx).map (idx, ·)) = some values) :
    values.map Prod.fst = front ∧ ∀ p ∈ values, objectiveOf archive objIdx p.1 = some p.2 := by
  induction front generalizing values with
  | nil =>
    cases h
    exact ⟨rfl, nofun⟩
  | cons idx front ih =>
    rw [List.mapM_cons] at h
    obtain ⟨p, hp, h⟩ := Option.bind_eq_some_iff.mp h
    obtain ⟨rest, hrest, h⟩ := Option.bind_eq_some_iff.mp h
    cases h
    obtain ⟨x, hx, rfl⟩ := Option.map_eq_some_iff.mp hp
    obtain ⟨hfst, hvalues⟩ := ih hrest
    exact ⟨congrArg (idx :: ·) hfst, List.forall_mem_cons.mpr ⟨hx, hvalues⟩⟩

/-- The order of `sort_by` on the members of a front. -/
def cmpValues (a b : Nat × F) : Ordering := (Scalar.partialCmp a.2 b.2).getD .eq

variable [CrowdingFloat64 F] (hregular : Regular archive)
  (hvalues : ∀ p ∈ values, objectiveOf archive objIdx p.1 = some p.2)

include hregular hvalues

theorem isLE_cmpValues_iff (a : Nat × F) (ha : a ∈ values) (b : Nat × F) (hb : b ∈ values) :
    (cmpValues a b).isLE = true ↔
      (PlacedFloat64.place a.2).getD 0 ≤ (PlacedFloat64.place b.2).getD 0 := by
  obtain ⟨x, hx⟩ := FinitePlacedFloat64.exists_place a.2 (hregular.finite (hvalues a ha))
  obtain ⟨y, hy⟩ := FinitePlacedFloat64.exists_place b.2 (hregular.finite (hvalues b hb))
  rw [cmpValues, PlacedFloat64.partialCmp_eq, hx, hy]
  exact Ordering.isLE_iff_ne_gt.trans (compare_gt_iff_gt.not.trans not_lt)

theorem gt_eq_false_iff (a : Nat × F) (ha : a ∈ values) (b : Nat × F) (hb : b ∈ values) :
    Scalar.gt a.2 b.2 = false ↔ (PlacedFloat64.place a.2).getD 0 ≤ (PlacedFloat64.place b.2).getD 0 := by
  obtain ⟨x, hx⟩ := FinitePlacedFloat64.exists_place a.2 (hregular.finite (hvalues a ha))
  obtain ⟨y, hy⟩ := FinitePlacedFloat64.exists_place b.2 (hregular.finite (hvalues b hb))
  rw [← Bool.not_eq_true, gt_iff_place, hx, hy]
  simp

theorem pairwise_sorted : (sortBy cmpValues values).Pairwise fun p q => Scalar.gt p.2 q.2 = false := by
  have hcmp := isLE_cmpValues_iff hregular hvalues
  have hsorted : (sortBy cmpValues values).Pairwise fun p q =>
      (PlacedFloat64.place p.2).getD 0 ≤ (PlacedFloat64.place q.2).getD 0 := by
    refine pairwise_sortBy_of (fun a ha b hb => (hcmp a ha b hb).mp) fun a ha b hb hgt => ?_
    exact (lt_of_not_ge fun hle => by rw [(hcmp a ha b hb).mpr hle] at hgt; cases hgt).le
  exact hsorted.imp_of_mem fun hp hq hle =>
    (gt_eq_false_iff hregular hvalues _ ((mem_sortBy _ _ _).mp hp) _ ((mem_sortBy _ _ _).mp hq)).mpr hle

variable (hfront : (values.map Prod.fst).Pairwise (· < ·))

include hfront

/-- The head of the sorted values comes before all others. -/
theorem head_comesBefore {a : Nat × F} (ha : (sortBy cmpValues values).head? = some a) {p : Nat × F} (hp : p ∈ values)
    (hne : p.1 ≠ a.1) : comesBefore archive objIdx a.1 p.1 = true := by
  obtain ⟨before, after, hsplit, hbefore, hafter⟩ := head_sortBy (isLE_cmpValues_iff hregular hvalues) ha
  have hmem : a ∈ values := by
    rw [hsplit]
    exact List.mem_append_cons_self
  have hgt := gt_eq_false_iff hregular hvalues
  rw [comesBefore_eq (hvalues a hmem) (hvalues p hp)]
  rw [hsplit, List.map_append, List.map_cons, List.pairwise_append, List.pairwise_cons] at hfront
  rcases List.mem_append.mp (hsplit ▸ hp) with hbef | hp'
  · have hlt := hfront.2.2 p.1 (List.mem_map_of_mem hbef) a.1 List.mem_cons_self
    rw [if_neg (Nat.not_lt_of_gt hlt), lt_eq_gt]
    by_contra hnot
    exact (hbefore p hbef).not_ge ((hgt p hp a hmem).mp (by simpa using hnot))
  · rcases List.mem_cons.mp hp' with rfl | haft
    · exact absurd rfl hne
    · rw [if_pos (hfront.2.1.1 p.1 (List.mem_map_of_mem haft)), (hgt a hmem p hp).mpr (hafter p haft)]
      rfl

/-- All others come before the last of the sorted values. -/
theorem comesBefore_last {a : Nat × F} (ha : (sortBy cmpValues values).getLast? = some a) {p : Nat × F} (hp : p ∈ values)
    (hne : p.1 ≠ a.1) : comesBefore archive objIdx p.1 a.1 = true := by
  obtain ⟨before, after, hsplit, hbefore, hafter⟩ := getLast_sortBy (isLE_cmpValues_iff hregular hvalues) ha
  have hmem : a ∈ values := by
    rw [hsplit]
    exact List.mem_append_cons_self
  have hgt := gt_eq_false_iff hregular hvalues
  rw [comesBefore_eq (hvalues p hp) (hvalues a hmem)]
  rw [hsplit, List.map_append, List.map_cons, List.pairwise_append, List.pairwise_cons] at hfront
  rcases List.mem_append.mp (hsplit ▸ hp) with hbef | hp'
  · rw [if_pos (hfront.2.2 p.1 (List.mem_map_of_mem hbef) a.1 List.mem_cons_self),
      (hgt p hp a hmem).mpr (hbefore p hbef)]
    rfl
  · rcases List.mem_cons.mp hp' with rfl | haft
    · exact absurd rfl hne
    · have hlt := hfront.2.1.1 p.1 (List.mem_map_of_mem haft)
      rw [if_neg (Nat.not_lt_of_gt hlt), lt_eq_gt]
      by_contra hnot
      exact (hafter p haft).not_ge ((hgt a hmem p hp).mp (by simpa using hnot))

/-- Along an objective the ends are the head and the last of the sorted values. -/
theorem isEndAlong_iff (hall : values.map Prod.fst = firstFront archive) {i : Nat} (hi : i ∈ firstFront archive) :
    isEndAlong archive i objIdx = true ↔
      (∃ x, (sortBy cmpValues values).head? = some (i, x)) ∨ ∃ x, (sortBy cmpValues values).getLast? = some (i, x) := by
  have hmem : ∀ q ∈ firstFront archive, ∃ x, (q, x) ∈ values := by
    intro q hq
    rw [← hall] at hq
    obtain ⟨p, hp, rfl⟩ := List.mem_map.mp hq
    exact ⟨p.2, hp⟩
  obtain ⟨x, hx⟩ := hmem i hi
  have hne : sortBy cmpValues values ≠ [] := List.ne_nil_of_mem ((mem_sortBy _ _ _).mpr hx)
  obtain ⟨first, hfirst⟩ := Option.isSome_iff_exists.mp (List.isSome_head?.mpr hne)
  obtain ⟨last, hlast⟩ : ∃ last, (sortBy cmpValues values).getLast? = some last :=
    ⟨_, List.getLast?_eq_some_getLast hne⟩
  have hfirstmem := (mem_sortBy _ _ _).mp (List.mem_of_mem_head? hfirst)
  have hlastmem := (mem_sortBy _ _ _).mp (List.mem_of_getLast? hlast)
  rw [isEndAlong, Bool.or_eq_true, List.all_eq_true, List.all_eq_true]
  simp only [Bool.or_eq_true, decide_eq_true_eq]
  refine or_congr ⟨fun hbefore => ?_, ?_⟩ ⟨fun hbefore => ?_, ?_⟩
  · by_contra hnot
    have hother : i ≠ first.1 := by
      rintro rfl
      exact hnot ⟨first.2, hfirst⟩
    have hforth := head_comesBefore hregular hvalues hfront hfirst hx hother
    have hback := (hbefore first.1 (hall ▸ List.mem_map_of_mem hfirstmem)).resolve_left (Ne.symm hother)
    rw [comesBefore_swap (hvalues _ hx) (hvalues _ hfirstmem) hother, hback] at hforth
    cases hforth
  · rintro ⟨y, hy⟩ q hq
    obtain ⟨z, hz⟩ := hmem q hq
    exact (eq_or_ne q i).imp_right fun hqi => head_comesBefore hregular hvalues hfront hy hz hqi
  · by_contra hnot
    have hother : i ≠ last.1 := by
      rintro rfl
      exact hnot ⟨last.2, hlast⟩
    have hforth := comesBefore_last hregular hvalues hfront hlast hx hother
    have hback := (hbefore last.1 (hall ▸ List.mem_map_of_mem hlastmem)).resolve_left (Ne.symm hother)
    rw [comesBefore_swap (hvalues _ hx) (hvalues _ hlastmem) hother, hforth] at hback
    cases hback
  · rintro ⟨y, hy⟩ q hq
    obtain ⟨z, hz⟩ := hmem q hq
    exact (eq_or_ne q i).imp_right fun hqi => comesBefore_last hregular hvalues hfront hy hz hqi

end Objective

/-! ## The distances of the archive -/

section Distances

variable [InfFloat64 F]

/-- Infinite at an end, and finite elsewhere. -/
def Crowded (atEnd : Bool) (distance : F) : Prop :=
  if atEnd then distance = InfFloat64.infinity else Float64.isFinite distance = true

variable {archive : List (Individual C F)}

theorem crowdObjective_other {front : List Nat} {distances distances' : List F} {objIdx i : Nat} (hi : i ∉ front)
    (h : crowdObjective archive front distances objIdx = some distances') : distances'[i]? = distances[i]? := by
  obtain ⟨values, hvalues, hspread⟩ := Option.bind_eq_some_iff.mp h
  cases hspread
  refine spread_other fun p hp => ?_
  rintro rfl
  refine hi ?_
  rw [← (values_of_mapM hvalues).1]
  exact List.mem_map_of_mem ((mem_sortBy _ _ _).mp hp)

/-- A front leaves the distances of all others alone. -/
theorem crowdFront_other {front : List Nat} {num : Nat} {distances distances' : List F} {i : Nat} (hi : i ∉ front)
    (h : crowdFront archive num distances front = some distances') : distances'[i]? = distances[i]? := by
  unfold crowdFront at h
  split at h
  · cases h
    refine List.foldlRecOn (motive := fun d : List F => d[i]? = distances[i]?) front _ rfl fun d hd idx hidx => ?_
    rw [List.getElem?_set_ne, hd]
    rintro rfl
    exact hi hidx
  · exact foldlM_invariant (P := fun d => d[i]? = distances[i]?)
      (fun _ _ _ _ hd hstep => (crowdObjective_other hi hstep).trans hd) rfl h

theorem pairwise_firstFront : (firstFront archive).Pairwise (· < ·) := List.pairwise_lt_range.filter _

/-- In a front of one or two everything is an end. -/
theorem isEndAlong_of_short [PlacedFloat64 F] (hshort : (firstFront archive).length ≤ 2) {i objIdx : Nat} (hi : i ∈ firstFront archive)
    (hobjective : ∀ p ∈ firstFront archive, ∃ x, objectiveOf archive objIdx p = some x) :
    isEndAlong archive i objIdx = true := by
  have hcases : ∃ q ∈ firstFront archive, ∀ p ∈ firstFront archive, p = i ∨ p = q := by
    match hfront : firstFront archive, hshort with
    | [], _ =>
      rw [hfront] at hi
      cases hi
    | [a], _ =>
      rw [hfront, List.mem_singleton] at hi
      exact ⟨a, List.mem_singleton_self a, fun p hp => .inr (List.mem_singleton.mp hp)⟩
    | [a, b], _ =>
      rw [hfront] at hi
      rcases List.mem_cons.mp hi with rfl | hi
      · exact ⟨b, by simp, fun p hp => by simpa using hp⟩
      · rw [List.mem_singleton] at hi
        subst hi
        exact ⟨a, by simp, fun p hp => by simpa [or_comm] using hp⟩
  obtain ⟨q, hq, hall⟩ := hcases
  obtain ⟨x, hx⟩ := hobjective i hi
  obtain ⟨y, hy⟩ := hobjective q hq
  rw [isEndAlong, Bool.or_eq_true, List.all_eq_true, List.all_eq_true]
  by_cases hqi : q = i
  · exact .inl fun p hp => by rcases hall p hp with rfl | rfl <;> simp [hqi]
  · cases hbefore : comesBefore archive objIdx i q with
    | true => exact .inl fun p hp => by rcases hall p hp with rfl | rfl <;> simp [hbefore]
    | false =>
      have hback := comesBefore_swap hx hy (Ne.symm hqi)
      rw [hbefore] at hback
      exact .inr fun p hp => by rcases hall p hp with rfl | rfl <;> simp [hback]

variable [CrowdingFloat64 F] (hregular : Regular archive)

include hregular

/-- One objective makes its ends infinite and leaves the rest of the front finite. -/
theorem crowdObjective_crowded {distances distances' : List F} {objIdx i : Nat} {atEnd : Bool} {d : F}
    (hi : i ∈ firstFront archive) (h : crowdObjective archive (firstFront archive) distances objIdx = some distances')
    (hd : distances[i]? = some d) (hcrowded : Crowded atEnd d) :
    ∃ d', distances'[i]? = some d' ∧ Crowded (atEnd || isEndAlong archive i objIdx) d' := by
  obtain ⟨values, hvalues, hspread⟩ := Option.bind_eq_some_iff.mp h
  cases hspread
  obtain ⟨hfst, hvalues⟩ := values_of_mapM hvalues
  have hends := isEndAlong_iff hregular hvalues (hfst ▸ pairwise_firstFront) hfst hi
  by_cases hend : atEnd = true ∨ isEndAlong archive i objIdx = true
  · refine ⟨InfFloat64.infinity, spread_infinite (List.getElem?_eq_some_iff.mp hd).1 ?_, ?_⟩
    · rcases hend with rfl | hend
      · exact .inl (hd.trans (congrArg some hcrowded))
      · exact .inr (hends.mp hend)
    · unfold Crowded
      rw [if_pos (by simpa using hend)]
  · rw [not_or] at hend
    obtain ⟨hnot, hbetween⟩ := hend
    rw [hends, not_or, not_exists, not_exists] at hbetween
    have hfinite : Float64.isFinite d = true := by simpa [Crowded, hnot] using hcrowded
    obtain ⟨d', hd', hfinite'⟩ := spread_finite
      (fun p hp => hregular.finite (hvalues p ((mem_sortBy _ _ _).mp hp))) (pairwise_sorted hregular hvalues)
      (fun p hp q hq => hregular.range p.1 (hfst ▸ List.mem_map_of_mem ((mem_sortBy _ _ _).mp hp)) q.1
        (hfst ▸ List.mem_map_of_mem ((mem_sortBy _ _ _).mp hq)) objIdx _ _
        (hvalues p ((mem_sortBy _ _ _).mp hp)) (hvalues q ((mem_sortBy _ _ _).mp hq)))
      hbetween.1 hbetween.2 hd hfinite
    refine ⟨d', hd', ?_⟩
    have hoff : isEndAlong archive i objIdx = false := by
      rw [← Bool.not_eq_true, hends, not_or, not_exists, not_exists]
      exact hbetween
    unfold Crowded
    rwa [hoff, Bool.or_false, if_neg hnot]

theorem foldlM_crowded {distances distances' : List F} {i : Nat} {atEnd : Bool} {d : F} (hi : i ∈ firstFront archive)
    {objectives : List Nat}
    (h : objectives.foldlM (crowdObjective archive (firstFront archive)) distances = some distances')
    (hd : distances[i]? = some d) (hcrowded : Crowded atEnd d) :
    ∃ d', distances'[i]? = some d' ∧ Crowded (atEnd || objectives.any (isEndAlong archive i)) d' := by
  induction objectives generalizing distances atEnd d with
  | nil =>
    cases h
    exact ⟨d, hd, by simpa using hcrowded⟩
  | cons objIdx objectives ih =>
    rw [List.foldlM_cons] at h
    obtain ⟨next, hstep, h⟩ := Option.bind_eq_some_iff.mp h
    obtain ⟨d', hd', hcrowded'⟩ := crowdObjective_crowded hregular hi hstep hd hcrowded
    obtain ⟨d'', hd'', hcrowded''⟩ := ih h hd' hcrowded'
    exact ⟨d'', hd'', by rwa [List.any_cons, ← Bool.or_assoc]⟩

theorem firstFront_eq :
    ((List.range archive.length).filter fun i => (dominationCounts archive)[i]? = some 0) = firstFront archive := by
  refine List.filter_congr fun q hq => ?_
  rw [getElem?_dominationCounts hregular.placed (List.mem_range.mp hq), Bool.eq_iff_iff, decide_eq_true_eq,
    Option.some.injEq, List.countP_eq_zero, List.all_eq_true]
  simp

theorem mem_firstFront_iff {i : Nat} {a : Individual C F} (ha : archive[i]? = some a) :
    i ∈ firstFront archive ↔ depth archive a = 0 := by
  rw [← firstFront_eq hregular, (atDepth_start hregular.placed).mem_front, indexDepth_eq ha]
  exact and_iff_right (List.getElem?_eq_some_iff.mp ha).1

theorem fronts_eq (hsome : firstFront archive ≠ []) :
    ∃ rest, fronts archive = firstFront archive :: rest ∧ ∀ front ∈ rest, ∀ i ∈ front, i ∉ firstFront archive := by
  have hhead : ∀ (lists : List (List Nat)) fuel counts front, ∃ rest, frontsFrom lists fuel counts front = front :: rest := by
    intro lists fuel counts front
    cases fuel with
    | zero => exact ⟨[], rfl⟩
    | succ fuel =>
      rw [frontsFrom]
      split
      · exact ⟨[], rfl⟩
      · exact ⟨_, rfl⟩
  obtain ⟨rest, hrest⟩ : ∃ rest, fronts archive = firstFront archive :: rest := by
    unfold fronts
    dsimp only
    rw [firstFront_eq hregular, if_neg hsome]
    exact hhead _ _ _ _
  refine ⟨rest, hrest, fun front hfront i hi hfirst => ?_⟩
  obtain ⟨r, hr⟩ := List.mem_iff_getElem?.mp hfront
  have hget : (fronts archive).getD (r + 1) [] = front := by
    rw [hrest, List.getD_eq_getElem?_getD, List.getElem?_cons_succ, hr]
    rfl
  have hlt : i < archive.length := lt_of_mem_fronts (hrest ▸ List.mem_cons_of_mem _ hfront) hi
  have hdepth := (mem_front hregular.placed (List.getElem?_eq_getElem hlt)).mp (hget ▸ hi)
  rw [(mem_firstFront_iff hregular (List.getElem?_eq_getElem hlt)).mp hfirst] at hdepth
  cases hdepth

/-- In the first front the distance is infinite at the ends and finite elsewhere. -/
theorem crowdingDistances_crowded {distances : List F} (h : crowdingDistances archive = some distances) {i : Nat}
    (hi : i ∈ firstFront archive) : ∃ d, distances[i]? = some d ∧ Crowded (isEnd archive i) d := by
  obtain ⟨rest, hfronts, hrest⟩ := fronts_eq hregular (List.ne_nil_of_mem hi)
  have hlt : i < archive.length := List.mem_range.mp (List.mem_filter.mp hi).1
  have hobjective : ∀ p ∈ firstFront archive, ∃ x, objectiveOf archive 0 p = some x := by
    intro p hp
    have hplt : p < archive.length := List.mem_range.mp (List.mem_filter.mp hp).1
    obtain ⟨x, xs, hx⟩ := List.exists_cons_of_ne_nil (hregular.gated _ (List.getElem_mem hplt)).2.1
    exact ⟨x, by simp [objectiveOf, hplt, hx]⟩
  have hzero : (List.replicate archive.length (Scalar.lit 0 : F))[i]? = some (Scalar.lit 0) := by
    rw [List.getElem?_replicate, if_pos hlt]
  rw [crowdingDistances, hfronts, List.foldlM_cons] at h
  obtain ⟨next, hstep, h⟩ := Option.bind_eq_some_iff.mp h
  have hsame : distances[i]? = next[i]? := by
    refine foldlM_invariant (P := fun d : List F => d[i]? = next[i]?) (fun front hfront _ _ hd hstep => ?_) rfl h
    exact (crowdFront_other (fun hmem => hrest front hfront i hmem hi) hstep).trans hd
  rw [hsame]
  have hmem : (firstFront archive).contains i = true := List.contains_iff_mem.mpr hi
  unfold crowdFront at hstep
  unfold isEnd
  rw [hmem, Bool.true_and]
  split at hstep
  · rename_i hshort
    have hpos : 0 ∈ List.range (numObjectives archive) := by
      refine List.mem_range.mpr (hregular.numObjectives_pos ?_)
      rintro rfl
      cases hlt
    refine ⟨InfFloat64.infinity, ?_, ?_⟩
    · cases hstep
      exact getElem?_foldl_infinity (by rwa [List.length_replicate]) (.inl hi)
    · rw [List.any_eq_true.mpr ⟨0, hpos, isEndAlong_of_short hshort hi hobjective⟩]
      rfl
  · have hstart : Crowded false (Scalar.lit 0 : F) := CrowdingFloat64.finite_zero
    have hcrowded := foldlM_crowded hregular hi hstep hzero hstart
    rwa [Bool.false_or] at hcrowded

end Distances

end Pareto

end Ccos
