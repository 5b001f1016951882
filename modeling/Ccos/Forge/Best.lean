import Mathlib.Algebra.Order.Field.Basic
import Ccos.Forge.Ends
import Ccos.Forge.Resume

/-!
# The best of a campaign

The best is the head of the archive. It has the least first objective exactly when, of the ends of the last generation
that the archive has room for, the one that came in first has.
-/

namespace Ccos

variable {C R E F : Type} [InfFloat64 F]

/-- The head has a first objective not greater than that of any individual. -/
def LeastFirst (archive : List (Individual C F)) : Prop :=
  ∀ best, archive.head? = some best → ∀ a ∈ archive, ∀ x y, best.score.objectives.head? = some x →
    a.score.objectives.head? = some y → Scalar.gt x y = false

def leastFirst (archive : List (Individual C F)) : Bool :=
  archive.head?.all fun best => archive.all fun a => best.score.objectives.head?.all fun x =>
    a.score.objectives.head?.all fun y => !Scalar.gt x y

theorem leastFirst_iff {archive : List (Individual C F)} : leastFirst archive = true ↔ LeastFirst archive := by
  simp only [leastFirst, LeastFirst, Option.all_eq_true, List.all_eq_true, Bool.not_eq_true']
  exact ⟨fun h best hbest a ha x y hx hy => h best hbest a ha x hx y hy,
    fun h best hbest a ha x hx y hy => h best hbest a ha x y hx hy⟩

instance (archive : List (Individual C F)) : Decidable (LeastFirst archive) := decidable_of_iff _ leastFirst_iff

namespace Pareto

/-! ## What the sort begins with -/

section Begins

/-- At an end of the first front. -/
def foremost (x : Individual C F × Nat × F) : Bool := x.2.1 = 0 && Scalar.eq x.2.2 InfFloat64.infinity

omit [InfFloat64 F] in
theorem map_filter_fst {A B : Type} {p : A × B → Bool} {q : Nat → Bool} {xs : List (A × B)}
    (h : ∀ i x, xs[i]? = some x → p x = q i) :
    (xs.filter p).map Prod.fst = ((xs.map Prod.fst).zipIdx.filter fun (_, i) => q i).map Prod.fst := by
  induction xs generalizing q with
  | nil => rfl
  | cons x xs ih =>
    have hx : p x = q 0 := h 0 x rfl
    have hxs := ih (q := fun i => q (i + 1)) fun i y hy => h (i + 1) y hy
    rw [List.map_cons, List.zipIdx_cons', List.filter_cons, List.filter_cons, hx, List.filter_map]
    cases hq : q 0 with
    | true => simpa [hq, Function.comp_def, List.map_map] using hxs
    | false => simpa [hq, Function.comp_def, List.map_map] using hxs

variable [CrowdingFloat64 F] {archive : List (Individual C F)} (hregular : Regular archive)

include hregular

theorem annotated_crowded {distances : List F} (hdistances : crowdingDistances archive = some distances) {i : Nat}
    {x : Individual C F × Nat × F} (hx : (annotated archive distances)[i]? = some x) :
    archive[i]? = some x.1 ∧ x.2.1 = depth archive x.1 ∧
      (x.2.1 = 0 → i ∈ firstFront archive ∧ Crowded (isEnd archive i) x.2.2) := by
  have hrank := annotated_rank hregular.placed (List.mem_of_getElem? hx)
  rw [annotated, List.getElem?_zip_eq_some, List.getElem?_zip_eq_some] at hx
  refine ⟨hx.1, hrank, fun hzero => ?_⟩
  have hi : i ∈ firstFront archive := (mem_firstFront_iff hregular hx.1).mpr (hrank ▸ hzero)
  obtain ⟨d, hd, hcrowded⟩ := crowdingDistances_crowded hregular hdistances hi
  obtain rfl := Option.some.inj (hd.symm.trans hx.2.2)
  exact ⟨hi, hcrowded⟩

omit hregular in
theorem eq_infinity_of_finite {d : F} (h : Float64.isFinite d = true) :
    Scalar.eq d InfFloat64.infinity = false := by
  have hlt := CrowdingFloat64.lt_infinity d h
  unfold Scalar.lt at hlt
  rw [beq_iff_eq] at hlt
  rw [Scalar.eq, hlt]
  rfl

theorem foremost_eq_isEnd {distances : List F} (hdistances : crowdingDistances archive = some distances) {i : Nat}
    {x : Individual C F × Nat × F} (hx : (annotated archive distances)[i]? = some x) :
    foremost x = isEnd archive i := by
  obtain ⟨hi, hrank, hcrowded⟩ := annotated_crowded hregular hdistances hx
  unfold foremost
  by_cases hzero : x.2.1 = 0
  · have hd := (hcrowded hzero).2
    rw [decide_eq_true hzero, Bool.true_and]
    cases hend : isEnd archive i with
    | true =>
      rw [hend] at hd
      rw [show x.2.2 = InfFloat64.infinity from hd, CrowdingFloat64.eq_infinity]
    | false =>
      rw [hend] at hd
      exact eq_infinity_of_finite hd
  · have hout : isEnd archive i = false := by
      unfold isEnd
      rw [Bool.and_eq_false_iff]
      left
      rw [← Bool.not_eq_true, List.contains_iff_mem, mem_firstFront_iff hregular hi, ← hrank]
      exact hzero
    rw [hout, decide_eq_false hzero, Bool.false_and]

/-- Of two members of the first front the one at an end comes first. -/
theorem sortBy_annotated {distances : List F} (hdistances : crowdingDistances archive = some distances) :
    ∃ rest, (∀ a ∈ rest, a ∈ archive) ∧
      (sortBy cmpAnnotated (annotated archive distances)).map Prod.fst = ends archive ++ rest := by
  have hfst : (annotated archive distances).map Prod.fst = archive := by
    rw [annotated, List.map_fst_zip]
    rw [List.length_zip, length_flatRanks, length_crowdingDistances hdistances, Nat.min_self]
  have hstatus : ∀ x ∈ annotated archive distances, x.2.1 = 0 →
      x.2.2 = InfFloat64.infinity ∧ foremost x = true ∨ Float64.isFinite x.2.2 = true ∧ foremost x = false := by
    intro x hx hzero
    obtain ⟨i, hi⟩ := List.mem_iff_getElem?.mp hx
    rw [foremost_eq_isEnd hregular hdistances hi]
    have hcrowded := ((annotated_crowded hregular hdistances hi).2.2 hzero).2
    cases hend : isEnd archive i with
    | true => exact .inl ⟨by rwa [hend] at hcrowded, rfl⟩
    | false => exact .inr ⟨by rwa [hend] at hcrowded, rfl⟩
  have hzero : ∀ x : Individual C F × Nat × F, foremost x = true → x.2.1 = 0 := fun x hx => by
    rw [foremost, Bool.and_eq_true, decide_eq_true_eq] at hx
    exact hx.1
  refine ⟨(sortBy cmpAnnotated ((annotated archive distances).filter fun x => !foremost x)).map Prod.fst,
    fun a ha => ?_, ?_⟩
  · obtain ⟨x, hx, rfl⟩ := List.mem_map.mp ha
    rw [← hfst]
    exact List.mem_map_of_mem (List.mem_filter.mp ((mem_sortBy _ _ _).mp hx)).1
  · rw [sortBy_split foremost, List.map_append, map_filter_fst fun i x hx => foremost_eq_isEnd hregular hdistances hx,
      hfst]
    · rfl
    · intro x hx hforemost y hy
      have hx0 := hzero x hforemost
      have hinf : x.2.2 = InfFloat64.infinity := ((hstatus x hx hx0).resolve_right (by simp [hforemost])).1
      unfold cmpAnnotated
      rw [hx0, hinf]
      rcases Nat.eq_zero_or_pos y.2.1 with hy0 | hpos
      · rw [hy0, show compare 0 0 = Ordering.eq from rfl, Ordering.eq_then]
        rcases hstatus y hy hy0 with ⟨hyinf, -⟩ | ⟨hfinite, -⟩
        · have heq := CrowdingFloat64.eq_infinity (F := F)
          rw [Scalar.eq, beq_iff_eq] at heq
          rw [hyinf, heq]
          rfl
        · have hlt := CrowdingFloat64.lt_infinity _ hfinite
          rw [Scalar.lt, beq_iff_eq] at hlt
          rw [hlt]
          rfl
      · rw [compare_lt_iff_lt.mpr hpos]
        rfl
    · intro x hx hbehind y hy hforemost
      have hy0 := hzero y hforemost
      have hinf : y.2.2 = InfFloat64.infinity := ((hstatus y hy hy0).resolve_right (by simp [hforemost])).1
      unfold cmpAnnotated
      rw [hy0, hinf]
      rcases Nat.eq_zero_or_pos x.2.1 with hx0 | hpos
      · have hfinite := ((hstatus x hx hx0).resolve_left (by simp [hbehind])).1
        have hgt := CrowdingFloat64.lt_infinity _ hfinite
        rw [lt_eq_gt, Scalar.gt, beq_iff_eq] at hgt
        rw [hx0, show compare 0 0 = Ordering.eq from rfl, Ordering.eq_then, hgt]
        rfl
      · rw [compare_gt_iff_gt.mpr hpos]
        rfl

/-! ## The least first objective -/

omit hregular [CrowdingFloat64 F] in
theorem mem_ends {a : Individual C F} :
    a ∈ ends archive ↔ ∃ i, archive[i]? = some a ∧ isEnd archive i = true := by
  unfold ends
  rw [List.mem_map]
  constructor
  · rintro ⟨⟨b, i⟩, hmem, rfl⟩
    obtain ⟨hmem, hend⟩ := List.mem_filter.mp hmem
    exact ⟨i, List.mem_zipIdx_iff_getElem?.mp hmem, hend⟩
  · rintro ⟨i, hi, hend⟩
    exact ⟨(a, i), List.mem_filter.mpr ⟨List.mem_zipIdx_iff_getElem?.mpr hi, hend⟩, rfl⟩

/-- Everything has something in the first front that is at most as high. -/
theorem exists_firstFront_le {a : Individual C F} (ha : a ∈ archive) {y : F} (hy : a.score.objectives.head? = some y) :
    ∃ i ∈ firstFront archive, ∃ x, objectiveOf archive 0 i = some x ∧ Scalar.gt x y = false := by
  obtain ⟨q, hq⟩ := List.mem_iff_getElem?.mp ha
  by_cases hzero : depth archive a = 0
  · refine ⟨q, (mem_firstFront_iff hregular hq).mpr hzero, y, ?_, gt_self y⟩
    simp [objectiveOf, hq, ← List.head?_eq_getElem?, hy]
  · obtain ⟨p, hp, hdom, hdepth⟩ := Depth.exists_of_lt_depth domAt_self (domAt_trans hregular.placed)
      (show 0 < Depth.depth (domAt archive) (List.range archive.length) q from
        Nat.pos_of_ne_zero fun hnone => hzero ((indexDepth_eq hq).symm.trans hnone))
    have hp := List.mem_range.mp hp
    have hb := List.getElem?_eq_getElem hp
    obtain ⟨x, xs, hx⟩ := List.exists_cons_of_ne_nil (hregular.gated _ (List.getElem_mem hp)).2.1
    refine ⟨p, (mem_firstFront_iff hregular hb).mpr (indexDepth_eq hb ▸ hdepth), x, ?_, ?_⟩
    · simp [objectiveOf, hb, hx]
    · rw [domAt, scoreAt_eq hb, scoreAt_eq hq] at hdom
      have hle := ((Score.dominates_iff_of_valid (hregular.gated _ (List.getElem_mem hp)).1
        (hregular.gated a ha).1).mp hdom).2.1 0 x y (by rw [hx]; rfl) (by rw [← List.head?_eq_getElem?, hy])
      simpa using hle

/-- One of the ends has the least first objective of the archive. -/
theorem exists_end_least (hsome : archive ≠ []) : ∃ m ∈ ends archive, ∃ x, m.score.objectives.head? = some x ∧
    ∀ a ∈ archive, ∀ y, a.score.objectives.head? = some y → Scalar.gt x y = false := by
  have hobjective : ∀ i ∈ firstFront archive, (objectiveOf archive 0 i).isSome = true := by
    intro i hi
    have hlt := List.mem_range.mp (List.mem_filter.mp hi).1
    obtain ⟨x, xs, hx⟩ := List.exists_cons_of_ne_nil (hregular.gated _ (List.getElem_mem hlt)).2.1
    simp [objectiveOf, hlt, hx]
  obtain ⟨values, hvalues⟩ := Option.isSome_iff_exists.mp
    ((isSome_mapM (f := fun idx => (objectiveOf archive 0 idx).map (idx, ·)) (firstFront archive)).mpr
      fun i hi => by rw [Option.isSome_map]; exact hobjective i hi)
  obtain ⟨hfst, hvalues⟩ := values_of_mapM hvalues
  have hfront : (values.map Prod.fst).Pairwise (· < ·) := hfst ▸ pairwise_firstFront
  -- The archive has a first front, since what it holds has something in it.
  have hne : sortBy cmpValues values ≠ [] := by
    obtain ⟨a, ha⟩ := List.exists_mem_of_ne_nil _ hsome
    obtain ⟨y, ys, hy⟩ := List.exists_cons_of_ne_nil (hregular.gated a ha).2.1
    obtain ⟨i, hi, -⟩ := exists_firstFront_le hregular ha (y := y) (by rw [hy]; rfl)
    rw [← hfst] at hi
    obtain ⟨p, hp, -⟩ := List.mem_map.mp hi
    exact List.ne_nil_of_mem ((mem_sortBy cmpValues values p).mpr hp)
  obtain ⟨first, hfirst⟩ := Option.isSome_iff_exists.mp (List.isSome_head?.mpr hne)
  have hmem := (mem_sortBy _ _ _).mp (List.mem_of_mem_head? hfirst)
  have hin : first.1 ∈ firstFront archive := hfst ▸ List.mem_map_of_mem hmem
  obtain ⟨m, hm, hx⟩ := Option.bind_eq_some_iff.mp (hvalues first hmem)
  have hend : isEnd archive first.1 = true := by
    rw [isEnd, Bool.and_eq_true, List.any_eq_true]
    refine ⟨List.contains_iff_mem.mpr hin, 0, List.mem_range.mpr (hregular.numObjectives_pos hsome), ?_⟩
    exact (isEndAlong_iff hregular hvalues hfront hfst hin).mpr (.inl ⟨first.2, hfirst⟩)
  refine ⟨m, mem_ends.mpr ⟨_, hm, hend⟩, first.2, by rw [List.head?_eq_getElem?]; exact hx, fun a ha y hy => ?_⟩
  obtain ⟨i, hi, z, hz, hle⟩ := exists_firstFront_le hregular ha hy
  have hzvalues : (i, z) ∈ values := by
    rw [← hfst] at hi
    obtain ⟨p, hp, rfl⟩ := List.mem_map.mp hi
    obtain rfl := Option.some.inj (hz.symm.trans (hvalues p hp))
    exact hp
  have hfirstle : Scalar.gt first.2 z = false := by
    by_cases hi : i = first.1
    · subst hi
      obtain rfl := Option.some.inj (hz.symm.trans (hvalues first hmem))
      exact gt_self _
    · have hbefore := head_comesBefore hregular hvalues hfront hfirst hzvalues hi
      rw [comesBefore_eq (hvalues first hmem) hz] at hbefore
      split at hbefore
      · simpa using hbefore
      · rw [lt_eq_gt] at hbefore
        exact gt_eq_false_of_gt hbefore
  obtain ⟨w, hw⟩ := FinitePlacedFloat64.exists_place z (hregular.finite hz)
  exact gt_eq_false_trans hw hfirstle hle

omit hregular [CrowdingFloat64 F] in
theorem ends_sublist : (ends archive).Sublist archive := by
  refine (List.filter_sublist.map Prod.fst).trans ?_
  rw [List.zipIdx_map_fst]

theorem ends_ne_nil (hsome : archive ≠ []) : ends archive ≠ [] := by
  obtain ⟨m, hm, -⟩ := exists_end_least hregular hsome
  exact List.ne_nil_of_mem hm

theorem sort_begins {sorted : List (Individual C F)} (hsort : sortByParetoDomination archive = some sorted) :
    ∃ rest, (∀ a ∈ rest, a ∈ archive) ∧ sorted = ends archive ++ rest := by
  unfold sortByParetoDomination at hsort
  split at hsort
  · rename_i hshort
    cases hsort
    refine ⟨[], nofun, ?_⟩
    rw [List.append_nil]
    refine (ends_sublist.eq_of_length_le ?_).symm
    cases archive with
    | nil => exact Nat.zero_le _
    | cons a archive => exact hshort.trans (List.length_pos_iff.mpr (ends_ne_nil hregular (List.cons_ne_nil _ _)))
  · obtain ⟨distances, hdistances, rfl⟩ := Option.map_eq_some_iff.mp hsort
    exact sortBy_annotated hregular hdistances

/-- The head of the truncated archive is least exactly when the first of as many ends is. -/
theorem leastFirst_take_iff {sorted : List (Individual C F)} (hsort : sortByParetoDomination archive = some sorted)
    {k : Nat} (hk : 0 < k) : LeastFirst (sorted.take k) ↔ LeastFirst ((ends archive).take k) := by
  obtain ⟨rest, hrest, rfl⟩ := sort_begins hregular hsort
  by_cases hsome : archive = []
  · subst hsome
    have hnil : rest = [] := List.eq_nil_iff_forall_not_mem.mpr fun a ha => List.not_mem_nil (hrest a ha)
    rw [hnil, List.append_nil]
  obtain ⟨first, others, hends⟩ := List.exists_cons_of_ne_nil (ends_ne_nil hregular hsome)
  have hhead : ∀ tail : List (Individual C F), (((ends archive) ++ tail).take k).head? = some first := by
    intro tail
    obtain ⟨k, rfl⟩ := Nat.exists_eq_succ_of_ne_zero hk.ne'
    rw [hends]
    rfl
  have hhead' : ((ends archive).take k).head? = some first := by
    rw [← List.append_nil (ends archive)]
    exact hhead []
  unfold LeastFirst
  rw [hhead rest, hhead']
  constructor
  · intro h best hbest a ha
    refine h best hbest a ?_
    rw [List.take_append]
    exact List.mem_append_left _ ha
  · intro h best hbest a ha x y hx hy
    rw [List.take_append] at ha
    rcases List.mem_append.mp ha with ha | ha
    · exact h best hbest a ha x y hx hy
    · -- There is room behind the ends, so the least end is among those kept.
      have hroom : (ends archive).length ≤ k := by
        by_contra hfull
        rw [Nat.sub_eq_zero_of_le (by omega), List.take_zero] at ha
        cases ha
      obtain ⟨m, hm, z, hz, hleast⟩ := exists_end_least hregular hsome
      have hgated := (hregular.gated m (ends_sublist.subset hm)).2.2 z (List.mem_of_mem_head? hz)
      obtain ⟨w, hw⟩ := FinitePlacedFloat64.exists_place z hgated
      refine gt_eq_false_trans hw (h best hbest m ?_ x z hx hz) (hleast a (hrest a (List.mem_of_mem_take ha)) y hy)
      rwa [List.take_of_length_le hroom]

end Begins

end Pareto

/-! ## Whole runs -/

namespace Engine

variable {engine : Engine C R E F}

/-- What the last generation sorts. -/
def LastMerged (engine : Engine C R E F) (archive : List (Individual C F)) : Prop :=
  ∃ n s, engine.config.generations - engine.startGeneration = n + 1 ∧
    engine.generations n engine.startGeneration engine.start = .ok s ∧
    archive = engine.merged (engine.startGeneration + n) s

/-- Of the ends that there is room for, the first has the least first objective. A campaign without a generation has
only the archive it starts with. -/
def FirstEndLeast (engine : Engine C R E F) : Prop :=
  (engine.config.generations - engine.startGeneration = 0 → LeastFirst engine.start.archive) ∧
    ∀ archive, engine.LastMerged archive →
      LeastFirst ((Pareto.ends archive).take (max engine.config.survivors 1))

theorem archive_of_generation {g : Nat} {s s' : Campaign C R F} (h : engine.generation g s = .ok s') :
    ∃ sorted, sortByParetoDomination (engine.merged g s) = some sorted ∧
      s'.archive = sorted.take (max engine.config.survivors 1) := by
  obtain ⟨selected, hselected, h⟩ := bind_eq_ok.mp h
  obtain ⟨⟨pop, master⟩, -, h⟩ := bind_eq_ok.mp h
  cases h
  obtain ⟨baseline, -, h⟩ := bind_eq_ok.mp hselected
  obtain ⟨best, -, h⟩ := bind_eq_ok.mp h
  obtain ⟨sorted, hsorted, h⟩ := bind_eq_ok.mp h
  cases h
  refine ⟨sorted, ?_, rfl⟩
  unfold orPanic at hsorted
  cases hsort : sortByParetoDomination (engine.merged g s) with
  | none =>
    rw [hsort] at hsorted
    cases hsorted
  | some sorted' =>
    rw [hsort] at hsorted
    exact congrArg some (Except.ok.inj hsorted)

theorem report_of_finish {s : Campaign C R F} {report : Report C F} (h : engine.finish s = .ok report) :
    report.best = s.archive.head? ∧ report.finalFront = s.archive := by
  unfold finish at h
  dsimp only at h
  cases hhead : s.archive.head? with
  | none =>
    rw [hhead] at h
    cases h
    exact ⟨rfl, rfl⟩
  | some best =>
    rw [hhead] at h
    obtain ⟨score, -, h⟩ := bind_eq_ok.mp h
    obtain ⟨baseline, -, h⟩ := bind_eq_ok.mp h
    cases h
    exact ⟨rfl, rfl⟩

/-- In a run whose last archive is regular, the best has the least first objective exactly when the first end has. -/
theorem best_is_least_iff [CrowdingFloat64 F] {engine : Engine C R E F} {report : Report C F}
    (hrun : engine.run = .ok report) (hregular : ∀ archive, engine.LastMerged archive → Pareto.Regular archive) :
    (∀ best, report.best = some best → ∀ a ∈ report.finalFront, ∀ x y, best.score.objectives.head? = some x →
      a.score.objectives.head? = some y → Scalar.gt x y = false) ↔ engine.FirstEndLeast := by
  obtain ⟨s, hgenerations, hfinish⟩ := bind_eq_ok.mp hrun
  obtain ⟨hbest, hfront⟩ := report_of_finish hfinish
  rw [hbest, hfront]
  change LeastFirst s.archive ↔ _
  cases hremaining : engine.config.generations - engine.startGeneration with
  | zero =>
    rw [hremaining] at hgenerations
    cases hgenerations
    refine ⟨fun h => ⟨fun _ => h, ?_⟩, fun h => h.1 hremaining⟩
    rintro archive ⟨n, s, hsucc, -⟩
    rw [hremaining] at hsucc
    cases hsucc
  | succ n =>
    rw [hremaining, generations_add] at hgenerations
    obtain ⟨before, hbefore, hlast⟩ := bind_eq_ok.mp hgenerations
    obtain ⟨after, hafter, hdone⟩ := bind_eq_ok.mp hlast
    cases hdone
    obtain ⟨sorted, hsort, harchive⟩ := archive_of_generation hafter
    have hmerged : engine.LastMerged (engine.merged (engine.startGeneration + n) before) :=
      ⟨n, before, hremaining, hbefore, rfl⟩
    rw [harchive, Pareto.leastFirst_take_iff (hregular _ hmerged) hsort (Nat.lt_of_lt_of_le Nat.zero_lt_one
      (Nat.le_max_right _ _))]
    constructor
    · intro h
      refine ⟨fun hzero => ?_, ?_⟩
      · rw [hremaining] at hzero
        cases hzero
      · rintro archive ⟨n', s', hn', hs', rfl⟩
        obtain rfl : n = n' := Nat.succ_inj.mp (hremaining.symm.trans hn')
        obtain rfl := Except.ok.inj (hbefore.symm.trans hs')
        exact h
    · intro h
      exact h.2 _ hmerged

end Engine

/-! ## Numbers with an infinity -/

/-- Exact numbers, an infinity above them and what is not a number. -/
inductive Extended
  | num (q : ℚ)
  | infinity
  | nan
  deriving DecidableEq

namespace Extended

/-- The line between minus one and one. -/
def squash (q : ℚ) : ℚ := q / (1 + |q|)

theorem squash_strictMono : StrictMono squash := by
  intro a b hab
  unfold squash
  rw [div_lt_div_iff₀ (by positivity) (by positivity)]
  rcases abs_cases a with ⟨ha, ha'⟩ | ⟨ha, ha'⟩ <;> rcases abs_cases b with ⟨hb, hb'⟩ | ⟨hb, hb'⟩ <;> rw [ha, hb] <;>
    nlinarith

theorem squash_lt_one (q : ℚ) : squash q < 1 := by
  rw [squash, div_lt_one (by positivity)]
  linarith [le_abs_self q]

def place : Extended → Option ℚ
  | num q => some (squash q)
  | infinity => some 1
  | nan => none

def lift (f : ℚ → ℚ) : Extended → Extended
  | num a => num (f a)
  | _ => nan

/-- The runs below only calculate with finite numbers. -/
def lift2 (f : ℚ → ℚ → ℚ) : Extended → Extended → Extended
  | num a, num b => num (f a b)
  | _, _ => nan

instance : InfFloat64 Extended where
  add := lift2 (· + ·)
  sub := lift2 (· - ·)
  mul := lift2 (· * ·)
  div a b := if b = num 0 then nan else lift2 (· / ·) a b
  neg := lift (- ·)
  lit := num
  ofNat n := num n
  ln := lift Scalar.ln
  sqrt := lift Scalar.sqrt
  abs := lift Scalar.abs
  powi x n := lift (· ^ n) x
  partialCmp a b := a.place.bind fun x => b.place.map (compare x)
  reparse
    | num q => some (num q)
    | _ => none
  toBits
    | num q => Float64.toBits q
    | infinity => 0x7ff0000000000000
    | nan => 0x7ff8000000000000
  isFinite
    | num _ => true
    | _ => false
  totalCmp a b := compare (a.place.getD 2) (b.place.getD 2)
  infinity := infinity

theorem isFinite_iff (a : Extended) : Float64.isFinite a = true ↔ ∃ q, a = num q := by
  cases a with
  | num q => exact iff_of_true rfl ⟨q, rfl⟩
  | infinity => exact iff_of_false Bool.false_ne_true nofun
  | nan => exact iff_of_false Bool.false_ne_true nofun

instance : FinitePlacedFloat64 Extended where
  place := place
  partialCmp_eq _ _ := rfl
  exists_place a ha := by
    obtain ⟨q, rfl⟩ := (isFinite_iff a).mp ha
    exact ⟨squash q, rfl⟩

theorem gt_num (a b : ℚ) : Scalar.gt (num a) (num b) = decide (b < a) := by
  rw [Bool.eq_iff_iff, gt_iff_place, decide_eq_true_eq, ← squash_strictMono.lt_iff_lt]
  constructor
  · rintro ⟨x, y, hx, hy, hlt⟩
    cases hx
    cases hy
    exact hlt
  · exact fun hlt => ⟨_, _, rfl, rfl, hlt⟩

theorem finite_sub {a b : Extended} (ha : Float64.isFinite a = true) (hb : Float64.isFinite b = true) :
    Float64.isFinite (a - b) = true := by
  obtain ⟨x, rfl⟩ := (isFinite_iff a).mp ha
  obtain ⟨y, rfl⟩ := (isFinite_iff b).mp hb
  rfl

instance : CrowdingFloat64 Extended where
  finite_zero := rfl
  eq_infinity := by decide +kernel
  lt_infinity a ha := by
    obtain ⟨q, rfl⟩ := (isFinite_iff a).mp ha
    exact (lt_iff_place _ _).mpr ⟨_, _, rfl, rfl, squash_lt_one q⟩
  finite_sub lo a b hi ha hb hlo hab hhi hrange := by
    obtain ⟨x, rfl⟩ := (isFinite_iff a).mp ha
    obtain ⟨y, rfl⟩ := (isFinite_iff b).mp hb
    cases lo <;> cases hi <;> try cases hrange
    rename_i l h
    refine ⟨rfl, ?_, ?_⟩
    · change Scalar.gt (num 0) (num (y - x)) = false
      rw [gt_num, decide_eq_false_iff_not] at *
      linarith
    · change Scalar.gt (num (y - x)) (num (h - l)) = false
      rw [gt_num, decide_eq_false_iff_not] at *
      linarith
  finite_div a b ha hb hpos hab hwide := by
    obtain ⟨x, rfl⟩ := (isFinite_iff a).mp ha
    obtain ⟨y, rfl⟩ := (isFinite_iff b).mp hb
    rw [show (Scalar.lit 0 : Extended) = num 0 from rfl, gt_num, decide_eq_false_iff_not, not_lt] at hpos
    rw [gt_num, decide_eq_false_iff_not, not_lt] at hab
    rw [show (Scalar.lit (1 / 10 ^ 9) : Extended) = num (1 / 10 ^ 9) from rfl, gt_num, decide_eq_true_eq] at hwide
    have hy : 0 < y := lt_trans (by norm_num) hwide
    have hdiv : num x / num y = num (x / y) := if_neg fun h => hy.ne' (Extended.num.inj h)
    rw [hdiv]
    refine ⟨rfl, ?_, ?_⟩
    · change Scalar.gt (num 0) (num (x / y)) = false
      rw [gt_num, decide_eq_false_iff_not, not_lt]
      positivity
    · change Scalar.gt (num (x / y)) (num 1) = false
      rw [gt_num, decide_eq_false_iff_not, not_lt]
      exact (div_le_one hy).mpr hab
  finite_add a b ha hb _ _ := by
    obtain ⟨x, rfl⟩ := (isFinite_iff a).mp ha
    obtain ⟨y, rfl⟩ := (isFinite_iff b).mp hb
    rfl

end Extended

/-! ### Two generations -/

namespace Crossing

def rng : StdRng Nat where
  seedFromU64 _ := 0
  genRange r n := (r % n, r + 1)
  genRange_lt r _ hn := Nat.mod_lt r hn

/-- Every seed is candidate zero and every mutation is candidate one. -/
def domain (zero one : List Extended) : Domain Nat Nat Unit Extended where
  id := UInt64.ofNat
  repr n := List.replicate n 'x'
  seed r := (0, r + 1)
  mutate r _ := .ok (1, r + 1)
  verify _ _ := .ok true
  measure n _ := .ok (if n = 0 then zero else one)
  baseline _ := .ok (.ofObjectives zero)

def engine (zero one : List Extended) : Engine Nat Nat Unit Extended := .new rng (domain zero one) ⟨2, 2, 2, 7⟩

def lowFirst : List Extended := [.num 1, .num 5]

def highFirst : List Extended := [.num 5, .num 1]

/-- Candidate zero has the higher first objective, and stays at the head because it came in first. -/
theorem best_is_not_least : ¬ ∀ (engine : Engine Nat Nat Unit Extended) (report : Report Nat Extended),
    engine.run = .ok report → ∀ best, report.best = some best → ∀ a ∈ report.finalFront, ∀ x y,
      best.score.objectives.head? = some x → a.score.objectives.head? = some y → Scalar.gt x y = false := by
  intro h
  have hrun : (engine highFirst lowFirst).run = .ok {
      best := some ⟨0, .ofObjectives highFirst⟩
      finalFront := [⟨0, .ofObjectives highFirst⟩, ⟨1, .ofObjectives lowFirst⟩]
      finalFrontHoldout := [some (.ofObjectives highFirst), some (.ofObjectives lowFirst)]
      finalBaseline := some (.ofObjectives highFirst)
      holdoutBest := some (.ofObjectives highFirst)
      holdoutBaseline := some (.ofObjectives highFirst)
      history := [.num 5, .num 1] } := by
    decide +kernel
  have hle := h _ _ hrun _ rfl _ (List.mem_cons_of_mem _ List.mem_cons_self) (.num 5) (.num 1) rfl rfl
  rw [Extended.gt_num] at hle
  exact absurd hle (by decide)

theorem lowFirst_best : ∃ report, (engine lowFirst highFirst).run = .ok report ∧
    ∀ best, report.best = some best → ∀ a ∈ report.finalFront, ∀ x y, best.score.objectives.head? = some x →
      a.score.objectives.head? = some y → Scalar.gt x y = false := by
  have hok : (engine lowFirst highFirst).run.toOption.isSome = true := by decide +kernel
  obtain ⟨report, hrun⟩ : ∃ report, (engine lowFirst highFirst).run = .ok report := by
    cases hrun : (engine lowFirst highFirst).run with
    | error e =>
      rw [hrun] at hok
      cases hok
    | ok report => exact ⟨report, rfl⟩
  refine ⟨report, hrun, ?_⟩
  have hmerged : ∀ archive, (engine lowFirst highFirst).LastMerged archive →
      archive = [⟨0, .ofObjectives lowFirst⟩, ⟨1, .ofObjectives highFirst⟩] := by
    rintro archive ⟨n, s, hn, hs, rfl⟩
    obtain rfl : n = 1 := (Nat.succ_inj.mp hn).symm
    have hlast : ((engine lowFirst highFirst).generations 1 0 (engine lowFirst highFirst).start).toOption.map
        ((engine lowFirst highFirst).merged 1) =
          some [⟨0, .ofObjectives lowFirst⟩, ⟨1, .ofObjectives highFirst⟩] := by
      decide +kernel
    rw [show (engine lowFirst highFirst).startGeneration = 0 from rfl] at hs
    rw [hs] at hlast
    exact Option.some.inj hlast
  have hgated : ∀ a ∈ [(⟨0, .ofObjectives lowFirst⟩ : Individual Nat Extended), ⟨1, .ofObjectives highFirst⟩],
      a.score.valid = true ∧ a.score.Gated := by
    decide
  refine (Engine.best_is_least_iff hrun fun archive harchive => ?_).mpr ⟨fun h => ?_, fun archive harchive => ?_⟩
  · rw [hmerged archive harchive]
    refine ⟨hgated, fun i _ p _ objIdx x y hx hy => ?_⟩
    obtain ⟨a, ha, hx⟩ := Option.bind_eq_some_iff.mp hx
    obtain ⟨b, hb, hy⟩ := Option.bind_eq_some_iff.mp hy
    exact Extended.finite_sub ((hgated b (List.mem_of_getElem? hb)).2.2 y (List.mem_of_getElem? hy))
      ((hgated a (List.mem_of_getElem? ha)).2.2 x (List.mem_of_getElem? hx))
  · cases h
  · rw [hmerged archive harchive]
    decide +kernel

end Crossing

end Ccos
