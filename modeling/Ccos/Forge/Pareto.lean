import Ccos.Scalar

/-!
# Domains and scores

A domain says what a candidate is worth. The engine knows it only through these functions.
-/

namespace Ccos

/-- What the engine asks of `f64` besides: `f64::INFINITY`. -/
class InfFloat64 (F : Type) extends Float64 F where
  infinity : F

/-- For concrete runs: above every `f64`. -/
instance : InfFloat64 ℚ where
  infinity := 2 ^ 1024

structure Score (F : Type) where
  objectives : List F
  valid : Bool
  deriving DecidableEq, Repr

namespace Score

variable {F : Type} [Float64 F]

def invalid : Score F := ⟨[], false⟩

def ofObjectives (objectives : List F) : Score F := ⟨objectives, true⟩

/-- The loop of `dominates` over the pairs of objectives. -/
def dominatesFrom : List (F × F) → Bool → Bool
  | [], strictlyBetter => strictlyBetter
  | (a, b) :: rest, strictlyBetter =>
    if Scalar.gt a b then false else dominatesFrom rest (Scalar.lt a b || strictlyBetter)

def dominates (s other : Score F) : Bool :=
  if !s.valid then false
  else if !other.valid then true
  else if s.objectives.length ≠ other.objectives.length then false
  else dominatesFrom (s.objectives.zip other.objectives) false

/-- What the gate promises of a valid score. -/
def Gated (s : Score F) : Prop := s.objectives ≠ [] ∧ ∀ x ∈ s.objectives, Float64.isFinite x = true

instance (s : Score F) : Decidable s.Gated := inferInstanceAs (Decidable (_ ∧ _))

end Score

structure Trial where
  generation : UInt64
  seed : UInt64
  deriving DecidableEq, Repr

/-- A domain with its candidates `C`, over a generator of states `R`, with errors `E`. -/
structure Domain (C R E F : Type) where
  id : C → UInt64
  repr : C → Str
  seed : R → C × R
  mutate : R → List C → Except E (C × R)
  verify : C → Trial → Except E Bool
  measure : C → Trial → Except E (List F)
  baseline : Trial → Except E (Score F)

structure Individual (C F : Type) where
  cand : C
  score : Score F
  deriving DecidableEq, Repr

section

variable {C R E F : Type} [Float64 F]

/-- The body of `evaluate`: the check of correctness, then the measure. -/
def gate (verified : Except E Bool) (measured : Except E (List F)) : Except E (Score F) := do
  if !(← verified) then return .invalid
  let objectives ← measured
  if objectives.isEmpty || !objectives.all Float64.isFinite then return .invalid
  return .ofObjectives objectives

def evaluate (domain : Domain C R E F) (cand : C) (trial : Trial) : Except E (Score F) :=
  gate (domain.verify cand trial) (domain.measure cand trial)

theorem gated_of_gate {verified : Except E Bool} {measured : Except E (List F)} {score : Score F}
    (h : gate verified measured = .ok score) (hvalid : score.valid = true) : score.Gated := by
  unfold gate at h
  obtain ⟨correct, -, h⟩ := bind_eq_ok.mp h
  cases correct with
  | false =>
    obtain rfl := Except.ok.inj h
    cases hvalid
  | true =>
    obtain ⟨objectives, -, h⟩ := bind_eq_ok.mp h
    cases hbad : objectives.isEmpty || !objectives.all Float64.isFinite with
    | true =>
      rw [hbad] at h
      obtain rfl := Except.ok.inj h
      cases hvalid
    | false =>
      rw [hbad] at h
      obtain rfl := Except.ok.inj h
      rw [Bool.or_eq_false_iff, Bool.not_eq_false', List.all_eq_true, List.isEmpty_eq_false_iff] at hbad
      exact hbad

end

section Primary

variable {F : Type} [InfFloat64 F]

def cmpPrimary (a b : Score F) : Ordering :=
  let av := a.objectives.head?.getD InfFloat64.infinity
  let bv := b.objectives.head?.getD InfFloat64.infinity
  (Scalar.partialCmp av bv).getD .eq

end Primary

end Ccos

/-!
## The Pareto sort

The archive is sorted by front, and within a front by crowding distance. `none` is an index out of
range: it happens when a front is sorted by an objective that one of its members lacks.
-/

namespace Ccos

variable {C F : Type}

namespace Pareto

/-! ## Fronts -/

section Fronts

variable [Float64 F]

/-- `dominates_list`: for each individual, those it dominates. -/
def dominatesList (archive : List (Individual C F)) : List (List Nat) :=
  archive.mapIdx fun i a =>
    (archive.zipIdx.filter fun (b, j) => i ≠ j && a.score.dominates b.score).map Prod.snd

/-- `domination_counts`: for each individual, by how many it is dominated. -/
def dominationCounts (archive : List (Individual C F)) : List Nat :=
  archive.mapIdx fun i a => archive.zipIdx.countP fun (b, j) =>
    i ≠ j && !a.score.dominates b.score && b.score.dominates a.score

/-- One less individual dominates `q`; it joins the next front with the last of them. -/
def discount (state : List Nat × List Nat) (q : Nat) : List Nat × List Nat :=
  if state.1[q]? = some 1 then (state.1.set q 0, state.2 ++ [q]) else (state.1.modify q (· - 1), state.2)

/-- The next front, with the counts after it. -/
def nextFront (lists : List (List Nat)) (counts : List Nat) (front : List Nat) : List Nat × List Nat :=
  (front.flatMap fun p => lists.getD p []).foldl discount (counts, [])

/-- The fronts from `front` on. There are no more than individuals. -/
def frontsFrom (lists : List (List Nat)) : Nat → List Nat → List Nat → List (List Nat)
  | 0, _, front => [front]
  | fuel + 1, counts, front =>
    let next := nextFront lists counts front
    if next.2 = [] then [front] else front :: frontsFrom lists fuel next.1 next.2

def fronts (archive : List (Individual C F)) : List (List Nat) :=
  let counts := dominationCounts archive
  let first := (List.range archive.length).filter fun i => counts[i]? = some 0
  if first = [] then [] else frontsFrom (dominatesList archive) archive.length counts first

/-! The rounds end by themselves: each takes some count to zero. -/

def pending (counts : List Nat) : Nat := counts.countP (0 < ·)

theorem pending_modify_le (counts : List Nat) (q : Nat) : pending (counts.modify q (· - 1)) ≤ pending counts := by
  unfold pending
  induction counts generalizing q with
  | nil => simp
  | cons count rest ih =>
    cases q with
    | zero =>
      simp only [List.modify_zero_cons, List.countP_cons, decide_eq_true_eq]
      split <;> split <;> omega
    | succ q =>
      have hrest := ih q
      simp only [List.modify_succ_cons, List.countP_cons]
      omega

theorem pending_set_zero {counts : List Nat} {q : Nat} (h : counts[q]? = some 1) :
    pending (counts.set q 0) + 1 = pending counts := by
  unfold pending
  induction counts generalizing q with
  | nil => cases h
  | cons count rest ih =>
    cases q with
    | zero =>
      obtain rfl := Option.some.inj h
      simp
    | succ q =>
      have hrest := ih (q := q) h
      simp only [List.set_cons_succ, List.countP_cons]
      omega

theorem pending_foldl_discount (qs : List Nat) (state : List Nat × List Nat) :
    pending (qs.foldl discount state).1 + (qs.foldl discount state).2.length ≤ pending state.1 + state.2.length := by
  induction qs generalizing state with
  | nil => exact Nat.le_refl _
  | cons q qs ih =>
    refine (ih (discount state q)).trans ?_
    unfold discount
    split
    · rename_i hlast
      have hless := pending_set_zero hlast
      simp only [List.length_append, List.length_singleton]
      omega
    · exact Nat.add_le_add_right (pending_modify_le state.1 q) _

theorem pending_nextFront (lists : List (List Nat)) (counts front : List Nat) :
    pending (nextFront lists counts front).1 + (nextFront lists counts front).2.length ≤ pending counts :=
  pending_foldl_discount _ (counts, [])

/-- More rounds than pending counts find no more fronts. -/
theorem frontsFrom_add (lists : List (List Nat)) {fuel : Nat} {counts : List Nat} (h : pending counts ≤ fuel)
    (front : List Nat) (more : Nat) :
    frontsFrom lists (fuel + more) counts front = frontsFrom lists fuel counts front := by
  induction fuel generalizing counts front with
  | zero =>
    have hnext := pending_nextFront lists counts front
    have hnil : (nextFront lists counts front).2 = [] := List.length_eq_zero_iff.mp (by omega)
    cases more with
    | zero => rfl
    | succ more =>
      rw [Nat.zero_add, frontsFrom, frontsFrom]
      exact if_pos hnil
  | succ fuel ih =>
    have hnext := pending_nextFront lists counts front
    rw [Nat.add_right_comm, frontsFrom, frontsFrom]
    by_cases hnil : (nextFront lists counts front).2 = []
    · rw [if_pos hnil, if_pos hnil]
    · have hpos := List.length_pos_iff.mpr hnil
      rw [if_neg hnil, if_neg hnil, ih (by omega)]

/-- The fronts are those of the loop, however often it runs. -/
theorem frontsFrom_enough (archive : List (Individual C F)) (front : List Nat) (more : Nat) :
    frontsFrom (dominatesList archive) (archive.length + more) (dominationCounts archive) front =
      frontsFrom (dominatesList archive) archive.length (dominationCounts archive) front := by
  refine frontsFrom_add _ ?_ front more
  exact List.countP_le_length.trans_eq (List.length_mapIdx ..)

/-! Every member of a front is an index of the archive. -/

theorem mem_foldl_discount {qs : List Nat} {state : List Nat × List Nat} {q : Nat}
    (h : q ∈ (qs.foldl discount state).2) : q ∈ state.2 ∨ q ∈ qs := by
  induction qs generalizing state with
  | nil => exact .inl h
  | cons q' qs ih =>
    rcases ih h with hold | hnew
    · unfold discount at hold
      split at hold
      · rcases List.mem_append.mp hold with hold | hlast
        · exact .inl hold
        · exact .inr (List.mem_singleton.mp hlast ▸ List.mem_cons_self)
      · exact .inl hold
    · exact .inr (List.mem_cons_of_mem _ hnew)

theorem mem_frontsFrom {lists : List (List Nat)} {n : Nat} (hlists : ∀ l ∈ lists, ∀ q ∈ l, q < n) {fuel : Nat}
    {counts front : List Nat} (hfront : ∀ q ∈ front, q < n) :
    ∀ f ∈ frontsFrom lists fuel counts front, ∀ q ∈ f, q < n := by
  induction fuel generalizing counts front with
  | zero => exact fun f hf => List.mem_singleton.mp hf ▸ hfront
  | succ fuel ih =>
    rw [frontsFrom]
    have hnext : ∀ q ∈ (nextFront lists counts front).2, q < n := by
      intro q hq
      rcases mem_foldl_discount hq with hnil | hq
      · cases hnil
      · obtain ⟨p, -, hq⟩ := List.mem_flatMap.mp hq
        rw [List.getD_eq_getElem?_getD] at hq
        cases hat : lists[p]? with
        | none =>
          rw [hat] at hq
          cases hq
        | some l =>
          rw [hat] at hq
          exact hlists l (List.mem_of_getElem? hat) q hq
    by_cases hnil : (nextFront lists counts front).2 = []
    · rw [if_pos hnil]
      exact fun f hf => List.mem_singleton.mp hf ▸ hfront
    · rw [if_neg hnil]
      exact List.forall_mem_cons.mpr ⟨hfront, ih hnext⟩

theorem lt_of_mem_fronts {archive : List (Individual C F)} {front : List Nat} (hfront : front ∈ fronts archive)
    {idx : Nat} (hidx : idx ∈ front) : idx < archive.length := by
  unfold fronts at hfront
  dsimp only at hfront
  split at hfront
  · cases hfront
  · refine mem_frontsFrom (fun l hl q hq => ?_) (fun q hq => ?_) front hfront idx hidx
    · obtain ⟨i, hi, rfl⟩ := List.mem_mapIdx.mp hl
      obtain ⟨⟨b, j⟩, hb, rfl⟩ := List.mem_map.mp hq
      exact (List.mem_zipIdx (List.mem_filter.mp hb).1).2.1.trans_eq (Nat.zero_add _)
    · exact List.mem_range.mp (List.mem_filter.mp hq).1

end Fronts

/-! ## Crowding -/

section Crowding

variable [InfFloat64 F]

def objectiveOf (archive : List (Individual C F)) (objIdx idx : Nat) : Option F := do
  let individual ← archive[idx]?
  individual.score.objectives[objIdx]?

/-- The member between two neighbours gets their distance. -/
def widen (norm : F) (distances : List F) (neighbours : (Nat × F) × (Nat × F) × (Nat × F)) : List F :=
  let (prev, curr, next) := neighbours
  distances.modify curr.1 fun distance =>
    if Scalar.eq distance InfFloat64.infinity then distance else distance + (next.2 - prev.2) / norm

/-- The distances along one objective, over the members in its order. -/
def spread (sorted : List (Nat × F)) (distances : List F) : List F :=
  match sorted.head?, sorted.getLast? with
  | some first, some last =>
    let distances := (distances.set first.1 InfFloat64.infinity).set last.1 InfFloat64.infinity
    let norm := last.2 - first.2
    if Scalar.gt norm (Scalar.lit (1 / 10 ^ 9)) then
      (sorted.zip ((sorted.drop 1).zip (sorted.drop 2))).foldl (widen norm) distances
    else distances
  | _, _ => distances

def crowdObjective (archive : List (Individual C F)) (front : List Nat) (distances : List F) (objIdx : Nat) :
    Option (List F) := do
  let values ← front.mapM fun idx => (objectiveOf archive objIdx idx).map (idx, ·)
  return spread (sortBy (fun a b => (Scalar.partialCmp a.2 b.2).getD .eq) values) distances

def crowdFront (archive : List (Individual C F)) (numObjectives : Nat) (distances : List F) (front : List Nat) :
    Option (List F) :=
  if front.length ≤ 2 then
    some (front.foldl (fun distances idx => distances.set idx InfFloat64.infinity) distances)
  else (List.range numObjectives).foldlM (crowdObjective archive front) distances

/-- `archive[0].score.objectives.len()` -/
def numObjectives (archive : List (Individual C F)) : Nat :=
  (archive.head?.map fun individual => individual.score.objectives.length).getD 0

def crowdingDistances (archive : List (Individual C F)) : Option (List F) :=
  (fronts archive).foldlM (crowdFront archive (numObjectives archive))
    (List.replicate archive.length (Scalar.lit 0))

/-- `flat_ranks`: the number of each individual's front. -/
def flatRanks (archive : List (Individual C F)) : List Nat :=
  (fronts archive).zipIdx.foldl (fun ranks (front, rank) => front.foldl (fun ranks idx => ranks.set idx rank) ranks)
    (List.replicate archive.length 0)

/-- The individuals with rank and distance. -/
def annotated (archive : List (Individual C F)) (distances : List F) : List (Individual C F × Nat × F) :=
  archive.zip ((flatRanks archive).zip distances)

def cmpAnnotated (a b : Individual C F × Nat × F) : Ordering :=
  (compare a.2.1 b.2.1).then ((Scalar.partialCmp b.2.2 a.2.2).getD .eq)

/-! ## When the sort ends -/

omit [InfFloat64 F] in
/-- A fold that succeeds or not by its elements alone. -/
theorem isSome_foldlM {A B : Type} {f : B → A → Option B} {p : A → Prop} (h : ∀ b a, (f b a).isSome = true ↔ p a)
    (l : List A) (b : B) : (l.foldlM f b).isSome = true ↔ ∀ a ∈ l, p a := by
  induction l generalizing b with
  | nil => simp
  | cons a rest ih =>
    rw [List.foldlM_cons, List.forall_mem_cons, ← h b a]
    cases f b a with
    | none => simp
    | some b' => simpa using ih b'

omit [InfFloat64 F] in
theorem isSome_mapM {A B : Type} {f : A → Option B} (l : List A) :
    (l.mapM f).isSome = true ↔ ∀ a ∈ l, (f a).isSome = true := by
  induction l with
  | nil => simp
  | cons a rest ih =>
    rw [List.mapM_cons, List.forall_mem_cons, ← ih]
    cases f a with
    | none => simp
    | some b => cases rest.mapM f <;> simp

/-- Every member of a front of three or more has the objectives that the archive is sorted by. -/
def Level (archive : List (Individual C F)) : Prop :=
  ∀ front ∈ fronts archive, 3 ≤ front.length → ∀ idx ∈ front, ∀ individual, archive[idx]? = some individual →
    numObjectives archive ≤ individual.score.objectives.length

theorem isSome_crowdObjective (archive : List (Individual C F)) (front : List Nat) (distances : List F) (objIdx : Nat) :
    (crowdObjective archive front distances objIdx).isSome = true ↔
      ∀ idx ∈ front, (objectiveOf archive objIdx idx).isSome = true := by
  have hvalues := isSome_mapM (f := fun idx => (objectiveOf archive objIdx idx).map (idx, ·)) front
  simp only [Option.isSome_map] at hvalues
  rw [← hvalues]
  unfold crowdObjective
  cases front.mapM fun idx => (objectiveOf archive objIdx idx).map (idx, ·) <;> rfl

theorem isSome_crowdFront (archive : List (Individual C F)) (num : Nat) (distances : List F) (front : List Nat) :
    (crowdFront archive num distances front).isSome = true ↔
      (3 ≤ front.length → ∀ objIdx ∈ List.range num, ∀ idx ∈ front, (objectiveOf archive objIdx idx).isSome = true) := by
  unfold crowdFront
  by_cases hshort : front.length ≤ 2
  · rw [if_pos hshort]
    exact iff_of_true rfl fun hlong => by omega
  · rw [if_neg hshort, isSome_foldlM (isSome_crowdObjective archive front)]
    exact ⟨fun h _ => h, fun h => h (by omega)⟩

/-- The distances exist exactly when the archive is level. -/
theorem isSome_crowdingDistances (archive : List (Individual C F)) :
    (crowdingDistances archive).isSome = true ↔ Level archive := by
  unfold crowdingDistances
  rw [isSome_foldlM (isSome_crowdFront archive _)]
  unfold Level
  refine forall₂_congr fun front hfront => imp_congr_right fun _ => ?_
  constructor
  · intro h idx hidx individual hat
    by_contra hshort
    have hsome := h individual.score.objectives.length (List.mem_range.mpr (by omega)) idx hidx
    simp [objectiveOf, hat] at hsome
  · intro h objIdx hobj idx hidx
    have hlt := lt_of_mem_fronts hfront hidx
    have hlong := h idx hidx _ (List.getElem?_eq_getElem hlt)
    have hobj := List.mem_range.mp hobj
    simp only [objectiveOf, List.getElem?_eq_getElem hlt, Option.bind_eq_bind, Option.bind_some]
    rw [List.getElem?_eq_getElem (hobj.trans_le hlong)]
    rfl

end Crowding

end Pareto

open Pareto in
def sortByParetoDomination [InfFloat64 F] (archive : List (Individual C F)) : Option (List (Individual C F)) :=
  if archive.length ≤ 1 then some archive
  else (crowdingDistances archive).map fun distances => (sortBy cmpAnnotated (annotated archive distances)).map Prod.fst

end Ccos
