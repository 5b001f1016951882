import Ccos.Forge.Engine

/-!
# Resuming a campaign

A checkpoint keeps the population that its generation evaluated, and the master seed. The loop goes on
with the population bred from it, and with the generator as far as it was drawn.
-/

namespace Ccos

variable {C R E F : Type} [InfFloat64 F]

/-- What a resumed campaign is compared by. -/
def Report.outcome (report : Report C F) : List F × List (Individual C F) × Option (Individual C F) :=
  (report.history, report.finalFront, report.best)

namespace Engine

variable (engine : Engine C R E F)

/-! ## The loop -/

theorem generations_add (m n g : Nat) (s : Campaign C R F) :
    engine.generations (m + n) g s = engine.generations m g s >>= engine.generations n (g + m) := by
  induction m generalizing g s with
  | zero => rw [Nat.zero_add]; rfl
  | succ m ih =>
    rw [Nat.add_right_comm, generations, generations]
    cases engine.generation g s with
    | error e => rfl
    | ok s' =>
      have hplace : g + 1 + m = g + (m + 1) := by omega
      exact (ih (g + 1) s').trans (by rw [hplace]; rfl)

/-- The engine with another start. -/
def restart (startGeneration : Nat) (startSeed : UInt64) (pop : List C) (archive : List (Individual C F))
    (history : List F) : Engine C R E F :=
  { engine with
    startGeneration := startGeneration
    startSeed := startSeed
    initialPopulation := some pop
    initialArchive := some archive
    initialHistory := history }

section Restart

variable (g₀ : Nat) (seed : UInt64) (pop : List C) (archive : List (Individual C F)) (history : List F)

omit [InfFloat64 F] in
theorem seedPopulation_restart (n : Nat) (master : R) :
    (engine.restart g₀ seed pop archive history).seedPopulation n master = engine.seedPopulation n master := by
  induction n generalizing master with
  | zero => rfl
  | succ n ih => simp only [seedPopulation, ih]; rfl

omit [InfFloat64 F] in
theorem retainNew_restart (seen : List UInt64) (individuals : List (Individual C F)) :
    (engine.restart g₀ seed pop archive history).retainNew seen individuals = engine.retainNew seen individuals := by
  induction individuals generalizing seen with
  | nil => rfl
  | cons individual rest ih => rw [retainNew, retainNew, ih, ih]; rfl

omit [InfFloat64 F] in
theorem fill_restart (survivors : List C) (n : Nat) (next : List C) (master : R) :
    (engine.restart g₀ seed pop archive history).fill survivors n next master = engine.fill survivors n next master := by
  induction n generalizing next master with
  | zero => rfl
  | succ n ih => simp only [fill, ih]; rfl

theorem generation_restart (g : Nat) (s : Campaign C R F) :
    (engine.restart g₀ seed pop archive history).generation g s = engine.generation g s := by
  simp only [generation, select, merged, breed, retainNew_restart, seedPopulation_restart, fill_restart]
  rfl

theorem generations_restart (n g : Nat) (s : Campaign C R F) :
    (engine.restart g₀ seed pop archive history).generations n g s = engine.generations n g s := by
  induction n generalizing g s with
  | zero => rfl
  | succ n ih => simp only [generations, generation_restart, ih]

/-- A restarted engine runs the rest of the loop from its own start. -/
theorem run_restart :
    (engine.restart g₀ seed pop archive history).run =
      engine.generations (engine.config.generations - g₀) g₀
        (engine.restart g₀ seed pop archive history).start >>= engine.finish := by
  rw [← engine.generations_restart g₀ seed pop archive history]
  rfl

end Restart

/-! ## Generations that do not draw -/

/-- The survivors alone are the next population. -/
def NoDraw (archive : List (Individual C F)) : Prop :=
  if archive = [] then engine.config.population = 0 else engine.config.population ≤ archive.length

/-- No generation of the rest of the loop draws from the generator. -/
def Quiet : Nat → Nat → Campaign C R F → Prop
  | 0, _, _ => True
  | n + 1, g, s => ∀ selected, engine.select g s = .ok selected → engine.NoDraw selected.archive ∧
      ∀ s', engine.generation g s = .ok s' → Quiet n (g + 1) s'

variable {engine}

omit [InfFloat64 F] in
theorem NoDraw.breed {archive : List (Individual C F)} (h : engine.NoDraw archive) :
    ∃ pop, ∀ master, engine.breed archive master = .ok (pop, master) := by
  unfold NoDraw at h
  by_cases hnil : archive = []
  · subst hnil
    rw [if_pos rfl] at h
    exact ⟨[], fun master => by simp [Engine.breed, h, seedPopulation]⟩
  · rw [if_neg hnil] at h
    refine ⟨archive.map Individual.cand, fun master => ?_⟩
    have hsome : (archive.map Individual.cand).isEmpty = false := by simpa using hnil
    have hfull : engine.config.population - (archive.map Individual.cand).length = 0 := by
      rw [List.length_map]
      omega
    unfold Engine.breed
    simp only [hsome, hfull, Bool.false_eq_true, if_false]
    rfl

theorem generation_of {g : Nat} {s : Campaign C R F} {selected : Selected C F} {pop : List C} {master : R}
    (hselect : engine.select g s = .ok selected) (hbreed : engine.breed selected.archive s.master = .ok (pop, master)) :
    engine.generation g s = .ok ⟨master, pop, selected.archive, selected.history, some selected.baseline⟩ := by
  simp only [generation, hselect, bind, Except.bind, hbreed]
  rfl

/-- What a quiet loop reports does not depend on the generator. -/
theorem Quiet.finish_eq {n g : Nat} {s : Campaign C R F} (h : engine.Quiet n g s) (master : R) :
    (engine.generations n g { s with master := master } >>= engine.finish) =
      (engine.generations n g s >>= engine.finish) := by
  induction n generalizing g s with
  | zero => rfl
  | succ n ih =>
    have hsame : engine.select g { s with master := master } = engine.select g s := rfl
    cases hselect : engine.select g s with
    | error e =>
      simp only [generations, generation, hsame, hselect]
      rfl
    | ok selected =>
      obtain ⟨hnoDraw, hrest⟩ := h selected hselect
      obtain ⟨pop, hbreed⟩ := hnoDraw.breed
      have hgeneration (master : R) : engine.generation g { s with master := master } =
          .ok ⟨master, pop, selected.archive, selected.history, some selected.baseline⟩ :=
        generation_of (s := { s with master := master }) hselect (hbreed master)
      have hquiet := hrest _ (hgeneration s.master)
      simp only [generations]
      rw [hgeneration master, hgeneration s.master]
      exact ih hquiet

/-! ## When resuming is exact -/

/-- The population that a resumed campaign starts with. -/
def resumedPopulation (rng : StdRng R) (domain : Domain C R E F) (config : Config) (pop : List C) : List C :=
  pop ++ ((Engine.new rng domain config).seedPopulation (config.population - pop.length)
    (rng.seedFromU64 config.baseSeed)).1

/-- Breeding after generation `g` gives back the population of the checkpoint, and leaves the generator
as it was seeded, or nothing draws from it any more. -/
def Restored (rng : StdRng R) (domain : Domain C R E F) (config : Config) (g : Nat) (s : Campaign C R F)
    (selected : Selected C F) : Prop :=
  ∃ pop master, (Engine.new rng domain config).breed selected.archive s.master = .ok (pop, master) ∧
    pop = resumedPopulation rng domain config s.pop ∧
    (master = rng.seedFromU64 config.baseSeed ∨
      (Engine.new rng domain config).Quiet (config.generations - (g + 1)) (g + 1)
        ⟨master, pop, selected.archive, selected.history, some selected.baseline⟩)

omit [InfFloat64 F] in
theorem resumeFromState_checkpoint {rng : StdRng R} {domain : Domain C R E F} {config : Config}
    {deserialize : Str → Option C} (hread : ∀ c, deserialize (domain.repr c) = some c) (g : Nat)
    (s : Campaign C R F) (selected : Selected C F) :
    resumeFromState rng domain config deserialize ((Engine.new rng domain config).checkpoint g s selected) =
      (Engine.new rng domain config).restart (g + 1) config.baseSeed (resumedPopulation rng domain config s.pop)
        selected.archive selected.history := by
  have hpop : (s.pop.map domain.repr).filterMap deserialize = s.pop := by
    rw [List.filterMap_map]
    exact (List.filterMap_congr fun c _ => hread c).trans List.filterMap_some
  unfold resumeFromState checkpoint
  simp only [show (Engine.new rng domain config).domain.repr = domain.repr from rfl, hpop]
  rfl

namespace Sample

def deserialize (source : Str) : Option Nat := some source.length

theorem deserialize_repr (n : Nat) : deserialize (domain.repr n) = some n :=
  congrArg some List.length_replicate

def campaign (population : Nat) : Engine Nat Nat Unit ℚ := Engine.new rng domain ⟨2, population, 1, 7⟩

/-- The best of the first generation, whose candidates are numbered from 0. -/
def firstSelected (best : Nat) : Selected Nat ℚ :=
  ⟨[⟨best, .ofObjectives [100 - best]⟩], [100 - best], .ofObjectives [100]⟩

theorem select_first (population best : Nat)
    (h : ((campaign population).select 0 (campaign population).start).toOption = some (firstSelected best)) :
    (campaign population).select 0 (campaign population).start = .ok (firstSelected best) := by
  cases hselect : (campaign population).select 0 (campaign population).start with
  | error e =>
    rw [hselect] at h
    cases h
  | ok selected =>
    rw [hselect] at h
    rw [Option.some.inj h]

example : ((campaign 1).select 0 (campaign 1).start).isOk = true := by decide +kernel

end Sample

end Engine

end Ccos
