import Ccos.Forge.Pareto

/-!
# The engine

The loop of generations: evaluate the population, merge the valid individuals into the archive, sort and
truncate it, commit a checkpoint, breed the next population.
-/

namespace Ccos

/-- `run` returns an error of the domain, or an index is out of range. -/
inductive RunError (E : Type)
  | failed (error : E)
  | panicked
  deriving DecidableEq, Repr

structure Config where
  generations : Nat
  population : Nat
  survivors : Nat
  baseSeed : UInt64
  deriving DecidableEq, Repr

/-- The generator of the `rand` crate: a range is drawn from within the range. -/
structure StdRng (R : Type) where
  seedFromU64 : UInt64 → R
  genRange : R → Nat → Nat × R
  genRange_lt : ∀ r n, 0 < n → (genRange r n).1 < n

/-- Where the score of a candidate comes from: the cache, a worker, or the harness of this process (the
local mode and the local fallback). -/
inductive Answer (E F : Type)
  | cached (objectives : List F)
  | worker (objectives : List F) (isValid : Bool)
  | measured (verified : Except E Bool) (objectives : Except E (List F))

def Answer.score {E F : Type} [Float64 F] : Answer E F → Score F
  | .cached objectives => .ofObjectives objectives
  | .worker objectives isValid => ⟨objectives, isValid⟩
  | .measured verified objectives => (gate verified objectives).toOption.getD .invalid

/-- The state of the loop between two generations. -/
structure Campaign (C R F : Type) where
  master : R
  pop : List C
  archive : List (Individual C F)
  history : List F
  finalBaseline : Option (Score F)

/-- What a generation leaves behind, before it breeds. -/
structure Selected (C F : Type) where
  archive : List (Individual C F)
  history : List F
  baseline : Score F
  deriving DecidableEq, Repr

structure EngineState (C F : Type) where
  currentGeneration : Nat
  masterSeed : UInt64
  populationSources : List Str
  archive : List (Individual C F)
  history : List F

structure Report (C F : Type) where
  best : Option (Individual C F)
  finalFront : List (Individual C F)
  finalFrontHoldout : List (Option (Score F))
  finalBaseline : Option (Score F)
  holdoutBest : Option (Score F)
  holdoutBaseline : Option (Score F)
  history : List F
  deriving DecidableEq, Repr

/-- `answers g i cand` is what answers for the candidate at place `i` of generation `g`. -/
structure Engine (C R E F : Type) where
  rng : StdRng R
  domain : Domain C R E F
  config : Config
  answers : Nat → Nat → C → Answer E F
  startGeneration : Nat
  startSeed : UInt64
  initialPopulation : Option (List C)
  initialArchive : Option (List (Individual C F))
  initialHistory : List F

variable {C R E F : Type} [InfFloat64 F]

def Config.trial (config : Config) (g : Nat) : Trial where
  generation := UInt64.ofNat g
  seed := config.baseSeed * 0x9E3779B97F4A7C15 + (UInt64.ofNat g + 1)

def Config.holdout (config : Config) : Trial where
  generation := 0xFFFFFFFFFFFFFFFF
  seed := config.baseSeed ^^^ 0xDEADBEEFCAFEF00D

/-- Without workers and without a cache every candidate is measured here. -/
def localAnswers (domain : Domain C R E F) (config : Config) (g _i : Nat) (cand : C) : Answer E F :=
  .measured (domain.verify cand (config.trial g)) (domain.measure cand (config.trial g))

/-- An index out of range ends the run. -/
def orPanic {A : Type} (x : Option A) : Except (RunError E) A := x.elim (.error .panicked) .ok

/-- `?` on a result of the domain. -/
def orFail {A : Type} (x : Except E A) : Except (RunError E) A := x.mapError .failed

namespace Engine

def new (rng : StdRng R) (domain : Domain C R E F) (config : Config) : Engine C R E F where
  rng := rng
  domain := domain
  config := config
  answers := localAnswers domain config
  startGeneration := 0
  startSeed := config.baseSeed
  initialPopulation := none
  initialArchive := none
  initialHistory := []

variable (engine : Engine C R E F)

def seedPopulation : Nat → R → List C × R
  | 0, master => ([], master)
  | n + 1, master =>
    let (cand, master) := engine.domain.seed master
    let (rest, master) := seedPopulation n master
    (cand :: rest, master)

/-! ## One generation -/

def evaluated (g : Nat) (s : Campaign C R F) : List (Individual C F) :=
  s.pop.mapIdx fun i cand => ⟨cand, (engine.answers g i cand).score⟩

def valids (g : Nat) (s : Campaign C R F) : List (Individual C F) :=
  sortBy (fun a b => cmpPrimary a.score b.score) ((engine.evaluated g s).filter (·.score.valid))

/-- `valids.first().map(|i| i.score.objectives[0]).unwrap_or(f64::INFINITY)` -/
def bestObjective : List (Individual C F) → Option F
  | [] => some InfFloat64.infinity
  | individual :: _ => individual.score.objectives.head?

/-- `archive.retain(|i| seen.insert(i.cand.id()))` -/
def retainNew (seen : List UInt64) : List (Individual C F) → List (Individual C F)
  | [] => []
  | individual :: rest =>
    let id := engine.domain.id individual.cand
    if id ∈ seen then retainNew seen rest else individual :: retainNew (id :: seen) rest

def merged (g : Nat) (s : Campaign C R F) : List (Individual C F) :=
  engine.retainNew [] (s.archive ++ engine.valids g s)

def select (g : Nat) (s : Campaign C R F) : Except (RunError E) (Selected C F) := do
  let baseline ← orFail (engine.domain.baseline (engine.config.trial g))
  let best ← orPanic (bestObjective (engine.valids g s))
  let archive ← orPanic (sortByParetoDomination (engine.merged g s))
  return ⟨archive.take (max engine.config.survivors 1), s.history ++ [best], baseline⟩

/-- The loop that fills the next population up by mutation. -/
def fill (survivors : List C) : Nat → List C → R → Except (RunError E) (List C × R)
  | 0, next, master => .ok (next, master)
  | n + 1, next, master => do
    let (i, master) := engine.rng.genRange master survivors.length
    let parent ← orPanic survivors[i]?
    let (child, master) ← orFail (engine.domain.mutate master [parent])
    fill survivors n (next ++ [child]) master

def breed (archive : List (Individual C F)) (master : R) : Except (RunError E) (List C × R) :=
  let survivors := archive.map Individual.cand
  if survivors.isEmpty then .ok (engine.seedPopulation engine.config.population master)
  else engine.fill survivors (engine.config.population - survivors.length) survivors master

def generation (g : Nat) (s : Campaign C R F) : Except (RunError E) (Campaign C R F) := do
  let selected ← engine.select g s
  let (pop, master) ← engine.breed selected.archive s.master
  return ⟨master, pop, selected.archive, selected.history, some selected.baseline⟩

/-! ## A campaign -/

def generations : Nat → Nat → Campaign C R F → Except (RunError E) (Campaign C R F)
  | 0, _, s => .ok s
  | n + 1, g, s => do generations n (g + 1) (← engine.generation g s)

def start : Campaign C R F :=
  let master := engine.rng.seedFromU64
    (if 0 < engine.startGeneration then engine.startSeed else engine.config.baseSeed)
  let (pop, master) := match engine.initialPopulation with
    | some initial => (initial, master)
    | none => engine.seedPopulation engine.config.population master
  ⟨master, pop, engine.initialArchive.getD [], engine.initialHistory, none⟩

/-- The end of `run`, after the loop. -/
def finish (s : Campaign C R F) : Except (RunError E) (Report C F) := do
  let holdout := engine.config.holdout
  let (holdoutBest, holdoutBaseline) ← match s.archive.head? with
    | some best => do
      let score ← orFail (evaluate engine.domain best.cand holdout)
      let baseline ← orFail (engine.domain.baseline holdout)
      pure (some score, some baseline)
    | none => pure (none, none)
  return {
    best := s.archive.head?
    finalFront := s.archive
    finalFrontHoldout := s.archive.map fun individual => (evaluate engine.domain individual.cand holdout).toOption
    finalBaseline := s.finalBaseline
    holdoutBest := holdoutBest
    holdoutBaseline := holdoutBaseline
    history := s.history }

def run : Except (RunError E) (Report C F) := do
  let remaining := engine.config.generations - engine.startGeneration
  engine.finish (← engine.generations remaining engine.startGeneration engine.start)

/-! ## Checkpoints -/

/-- What generation `g` commits: the population is the one that it evaluated. -/
def checkpoint (g : Nat) (s : Campaign C R F) (selected : Selected C F) : EngineState C F where
  currentGeneration := g + 1
  masterSeed := engine.config.baseSeed
  populationSources := s.pop.map engine.domain.repr
  archive := selected.archive
  history := selected.history

def resumeFromState (rng : StdRng R) (domain : Domain C R E F) (config : Config) (deserialize : Str → Option C)
    (state : EngineState C F) : Engine C R E F :=
  let pop := state.populationSources.filterMap deserialize
  let fresh := Engine.new rng domain config
  let (seeds, _) := fresh.seedPopulation (config.population - pop.length) (rng.seedFromU64 state.masterSeed)
  { fresh with
    startGeneration := state.currentGeneration
    startSeed := state.masterSeed
    initialPopulation := some (pop ++ seeds)
    initialArchive := some state.archive
    initialHistory := state.history }

end Engine

end Ccos

/-!
## One gate for every score

The harness checks what it measures. A score from the cache or from a worker is taken as it comes.
-/

namespace Ccos

open Pareto

variable {C R E F : Type} [InfFloat64 F]

/-- A score that no harness of this process has seen keeps the gate's promise. -/
def Answer.Sound : Answer E F → Prop
  | .cached objectives => (Score.ofObjectives objectives).Gated
  | .worker objectives isValid => isValid = true → (Score.ofObjectives objectives).Gated
  | .measured _ _ => True

theorem Answer.gated_iff (answer : Answer E F) :
    (answer.score.valid = true → answer.score.Gated) ↔ answer.Sound := by
  cases answer with
  | cached objectives => exact forall_prop_of_true rfl
  | worker objectives isValid => exact Iff.rfl
  | measured verified objectives =>
    refine iff_of_true (fun hvalid => ?_) trivial
    have hscore : (measured verified objectives).score = (gate verified objectives).toOption.getD .invalid := rfl
    rw [hscore] at hvalid ⊢
    cases hgate : gate verified objectives with
    | error e =>
      rw [hgate] at hvalid
      cases hvalid
    | ok score =>
      rw [hgate] at hvalid
      exact gated_of_gate hgate hvalid

namespace Engine

variable (engine : Engine C R E F)

/-- The valid individuals of a generation are gated, and it does not index out of range. -/
structure GateHolds (g : Nat) (s : Campaign C R F) : Prop where
  entering : ∀ individual ∈ engine.valids g s, individual.score.Gated
  ends : engine.generation g s ≠ .error .panicked

/-- What a generation is handed from elsewhere is gated, and its merged archive can be sorted. -/
structure Sound (g : Nat) (s : Campaign C R F) : Prop where
  answers : ∀ i cand, s.pop[i]? = some cand → (engine.answers g i cand).Sound
  level : 2 ≤ (engine.merged g s).length → Level (engine.merged g s)

variable {engine}

theorem mem_valids {g : Nat} {s : Campaign C R F} {individual : Individual C F} :
    individual ∈ engine.valids g s ↔ ∃ i cand, s.pop[i]? = some cand ∧
      individual = ⟨cand, (engine.answers g i cand).score⟩ ∧ individual.score.valid = true := by
  rw [valids, mem_sortBy, List.mem_filter, evaluated, List.mem_mapIdx]
  constructor
  · rintro ⟨⟨i, hi, rfl⟩, hvalid⟩
    exact ⟨i, _, List.getElem?_eq_getElem hi, rfl, hvalid⟩
  · rintro ⟨i, cand, hat, rfl, hvalid⟩
    obtain ⟨hi, rfl⟩ := List.getElem?_eq_some_iff.mp hat
    exact ⟨⟨i, hi, rfl⟩, hvalid⟩

/-- The valid individuals are gated exactly when the answers are sound. -/
theorem gated_valids_iff {g : Nat} {s : Campaign C R F} :
    (∀ individual ∈ engine.valids g s, individual.score.Gated) ↔
      ∀ i cand, s.pop[i]? = some cand → (engine.answers g i cand).Sound := by
  constructor
  · intro h i cand hat
    rw [← Answer.gated_iff]
    exact fun hvalid => h ⟨cand, _⟩ (mem_valids.mpr ⟨i, cand, hat, rfl, hvalid⟩)
  · rintro h individual hmem
    obtain ⟨i, cand, hat, rfl, hvalid⟩ := mem_valids.mp hmem
    exact (Answer.gated_iff _).mpr (h i cand hat) hvalid

theorem bestObjective_isSome {individuals : List (Individual C F)}
    (h : ∀ individual ∈ individuals, individual.score.Gated) : (bestObjective individuals).isSome = true := by
  cases individuals with
  | nil => rfl
  | cons individual rest =>
    have hne := (h individual List.mem_cons_self).1
    rw [bestObjective, List.isSome_head?]
    exact hne

theorem isSome_sort (archive : List (Individual C F)) :
    (sortByParetoDomination archive).isSome = true ↔ (2 ≤ archive.length → Level archive) := by
  unfold sortByParetoDomination
  by_cases hshort : archive.length ≤ 1
  · rw [if_pos hshort]
    exact iff_of_true rfl fun hlong => by omega
  · rw [if_neg hshort, Option.isSome_map, isSome_crowdingDistances]
    exact ⟨fun h _ => h, fun h => h (by omega)⟩

omit [InfFloat64 F] in
/-- A drawn parent is there. -/
theorem fill_ne_panicked {survivors : List C} (hsome : 0 < survivors.length) (n : Nat) (next : List C) (master : R) :
    engine.fill survivors n next master ≠ .error .panicked := by
  induction n generalizing next master with
  | zero => exact nofun
  | succ n ih =>
    have hlt := engine.rng.genRange_lt master survivors.length hsome
    simp only [fill, orPanic, List.getElem?_eq_getElem hlt, Option.elim_some]
    intro h
    cases hchild : engine.domain.mutate (engine.rng.genRange master survivors.length).2
        [survivors[(engine.rng.genRange master survivors.length).1]] with
    | error e =>
      simp only [bind, Except.bind, orFail, hchild, Except.mapError] at h
      cases h
    | ok child =>
      simp only [bind, Except.bind, orFail, hchild, Except.mapError] at h
      exact ih _ _ h

omit [InfFloat64 F] in
theorem breed_ne_panicked (archive : List (Individual C F)) (master : R) :
    engine.breed archive master ≠ .error .panicked := by
  unfold breed
  dsimp only
  split
  · exact nofun
  · rename_i hsome
    refine fill_ne_panicked (List.length_pos_iff.mpr fun hnil => hsome ?_) _ _ _
    rw [hnil]
    rfl

/-- A generation with a baseline and gated individuals ends exactly when its archive can be sorted. -/
theorem generation_ne_panicked_iff {g : Nat} {s : Campaign C R F} {baseline : Score F}
    (hbaseline : engine.domain.baseline (engine.config.trial g) = .ok baseline)
    (hgated : ∀ individual ∈ engine.valids g s, individual.score.Gated) :
    engine.generation g s ≠ .error .panicked ↔
      (2 ≤ (engine.merged g s).length → Level (engine.merged g s)) := by
  obtain ⟨best, hbest⟩ := Option.isSome_iff_exists.mp (bestObjective_isSome hgated)
  rw [← isSome_sort]
  unfold generation select
  simp only [hbaseline, hbest, orFail, orPanic, Except.mapError, Option.elim_some, bind, Except.bind]
  cases sortByParetoDomination (engine.merged g s) with
  | none => simp
  | some archive =>
    refine iff_of_true (fun h => ?_) rfl
    simp only [Option.elim_some, pure, Except.pure] at h
    split at h
    · rename_i e hbreed
      obtain rfl := Except.error.inj h
      exact breed_ne_panicked _ _ hbreed
    · cases h

theorem gateHolds_iff {g : Nat} {s : Campaign C R F} {baseline : Score F}
    (hbaseline : engine.domain.baseline (engine.config.trial g) = .ok baseline) :
    engine.GateHolds g s ↔ engine.Sound g s := by
  constructor
  · rintro ⟨hentering, hends⟩
    exact ⟨gated_valids_iff.mp hentering, (generation_ne_panicked_iff hbaseline hentering).mp hends⟩
  · rintro ⟨hanswers, hlevel⟩
    have hentering := gated_valids_iff.mpr hanswers
    exact ⟨hentering, (generation_ne_panicked_iff hbaseline hentering).mpr hlevel⟩

/-- In every campaign, the gate holds in each generation that has its baseline exactly when what the
generation is handed from elsewhere is sound. -/
theorem gate_holds_iff (engine : Engine C R E F) :
    (∀ k < engine.config.generations - engine.startGeneration, ∀ s,
        engine.generations k engine.startGeneration engine.start = .ok s →
        ∀ baseline, engine.domain.baseline (engine.config.trial (engine.startGeneration + k)) = .ok baseline →
          engine.GateHolds (engine.startGeneration + k) s) ↔
      ∀ k < engine.config.generations - engine.startGeneration, ∀ s,
        engine.generations k engine.startGeneration engine.start = .ok s →
        ∀ baseline, engine.domain.baseline (engine.config.trial (engine.startGeneration + k)) = .ok baseline →
          engine.Sound (engine.startGeneration + k) s :=
  forall₄_congr fun _ _ _ _ => forall₂_congr fun _ hbaseline => gateHolds_iff hbaseline

namespace Sample

/-- Candidates are numbers, and the larger is the better. -/
def domain : Domain Nat Nat Unit ℚ where
  id := UInt64.ofNat
  repr n := List.replicate n 'x'
  seed r := (r, r + 1)
  mutate r parents := .ok (parents.headD 0 + 10, r + 1)
  verify _ _ := .ok true
  measure n _ := .ok [100 - n]
  baseline _ := .ok (.ofObjectives [100])

def rng : StdRng Nat where
  seedFromU64 _ := 0
  genRange r n := (r % n, r + 1)
  genRange_lt r _ hn := Nat.mod_lt r hn

/-- One generation of one candidate, which a worker answers for. -/
def distributed (objectives : List ℚ) : Engine Nat Nat Unit ℚ :=
  { Engine.new rng domain ⟨1, 1, 1, 7⟩ with answers := fun _ _ _ => .worker objectives true }

theorem worker_with_an_objective : (distributed [5]).GateHolds 0 (distributed [5]).start := by
  refine (gate_holds_iff (distributed [5])).mpr (fun k hk s hs _ _ => ?_) 0 (by decide) _ rfl (.ofObjectives [100]) rfl
  obtain rfl : k = 0 := Nat.lt_one_iff.mp hk
  obtain rfl := Except.ok.inj hs
  refine ⟨fun i cand _ _ => ⟨by decide, by decide⟩, fun hlong => absurd hlong ?_⟩
  decide

/-- A worker that calls a candidate valid without an objective. -/
theorem worker_without_objectives : ¬ ∀ (engine : Engine Nat Nat Unit ℚ),
    ∀ k < engine.config.generations - engine.startGeneration, ∀ s,
      engine.generations k engine.startGeneration engine.start = .ok s →
      ∀ baseline, engine.domain.baseline (engine.config.trial (engine.startGeneration + k)) = .ok baseline →
        engine.GateHolds (engine.startGeneration + k) s := by
  intro h
  exact (h (distributed []) 0 (by decide) _ rfl (.ofObjectives [100]) rfl).ends rfl

end Sample

end Engine

end Ccos
