import Ccos.Dgm.Open
import Ccos.Lib.RankedChoice
import Mathlib.Data.Prod.Lex

/-!
# Lineage and the best variant

Whatever joins the archive is better than its parent. The best variant is what `max_by` chooses, and a score that
is not a number compares as equal to every other, so such a score can hide what is better than a new variant.
-/

open ByteCodec

namespace Ccos

variable {F : Type} [InfFloat64 F]

/-! ## What is asked of an archive -/

/-- The part of `Fitness::key` before the score. -/
def Fitness.gates (f : Fitness F) : Bool ×ₗ Int ×ₗ Int :=
  toLex (f.compiles, toLex (-(f.testsFailed.toNat : Int), (f.testsPassed.toNat : Int)))

/-- Both were measured, and `v` is better than `w`. -/
def Variant.Beats (v w : Variant F) : Prop :=
  ∃ f g, v.fitness = some f ∧ w.fitness = some g ∧ f.isBetterThan g = true

namespace Archive

/-- Every variant but the root records a variant of the archive as its parent, and is better than it. -/
def Lineage (digest : Bytes → Bytes) (baseline : Fitness F) (a : Archive F) : Prop :=
  ∀ v ∈ a.variants, v = Variant.root digest baseline ∨ ∃ p ∈ a.variants, v.parent = some p.id ∧ v.Beats p

def BestIsMaximal (a : Archive F) : Prop := ∃ best, a.best = some best ∧ ∀ v ∈ a.variants, ¬ v.Beats best

/-- Something is better than `f` while nothing has better gates, and the last variant with the gates of `f` has a
score that is not a number. -/
structure HidesBetter (a : Archive F) (f : Fitness F) : Prop where
  noneAbove : ∀ v ∈ a.variants, ∀ g, v.fitness = some g → g.gates ≤ f.gates
  lastNan : ∃ before v after, a.variants = before ++ v :: after
    ∧ (∃ g, v.fitness = some g ∧ g.gates = f.gates ∧ Scalar.isNan g.score = true)
    ∧ ∀ w ∈ after, ∀ g, w.fitness = some g → g.gates ≠ f.gates
  better : ∃ v ∈ a.variants, ∃ g, v.fitness = some g ∧ g.isBetterThan f = true

end Archive

namespace DgmEngine

/-- The step archives nothing that a score which is not a number stands before. -/
def NothingHidden {P : Type} (digest : Bytes → Bytes) (roles : Roles P F) (config : DgmConfig F) (s : DgmEngine P F)
    (workspace : Tree) : Prop :=
  ∀ t, (s.attempt digest roles config workspace).1 = .ok (some t) → acceptable config t.parent t.fitness = true →
    ¬ s.archive.HidesBetter t.fitness

end DgmEngine

/-! ## The order of fitness -/

variable [PlacedFloat64 F]

open PlacedFloat64

def Fitness.measure (f : Fitness F) : Option ℚ := place f.score

theorem Fitness.isBetterThan_iff_above (f g : Fitness F) :
    f.isBetterThan g = true ↔ Ranked.Above Fitness.gates Fitness.measure f g := by
  have hcompiles : ∀ b c : Bool, b < c ↔ b.toNat < c.toNat := by decide
  have hsame : ∀ b c : Bool, b = c ↔ b.toNat = c.toNat := by decide
  rw [isBetterThan_iff, gt_iff_place]
  unfold Ranked.Above gates Fitness.measure
  simp only [Prod.Lex.toLex_lt_toLex, EmbeddingLike.apply_eq_iff_eq, Prod.mk.injEq, hcompiles, hsame]
  generalize (∃ x y, place f.score = some x ∧ place g.score = some y ∧ y < x) = higher
  by_cases h : higher
  · simp only [h, and_true]
    omega
  · simp only [h, and_false, or_false]
    omega

namespace Variant

def rank (v : Variant F) : WithBot (Bool ×ₗ Int ×ₗ Int) :=
  match v.fitness with
  | some f => f.gates
  | none => ⊥

def measure (v : Variant F) : Option ℚ := v.fitness.bind Fitness.measure

theorem beats_iff_above {v w : Variant F} {g : Fitness F} (hw : w.fitness = some g) :
    v.Beats w ↔ Ranked.Above rank measure v w := by
  unfold Beats Ranked.Above rank measure
  rw [hw]
  cases v.fitness with
  | none => simp
  | some f => simp [Fitness.isBetterThan_iff_above, Ranked.Above]

omit [InfFloat64 F] [PlacedFloat64 F] in
theorem rank_eq {v : Variant F} {g : Fitness F} (hg : v.fitness = some g) : v.rank = g.gates := by
  unfold rank
  rw [hg]

omit [InfFloat64 F] [PlacedFloat64 F] in
theorem rank_eq_iff {v w : Variant F} {g f : Fitness F} (hv : v.fitness = some g) (hw : w.fitness = some f) :
    v.rank = w.rank ↔ g.gates = f.gates := by
  rw [rank_eq hv, rank_eq hw, WithBot.coe_inj]

theorem measure_eq_none_iff {v : Variant F} {g : Fitness F} (hg : v.fitness = some g) :
    v.measure = none ↔ Scalar.isNan g.score = true := by
  unfold measure
  rw [hg, isNan_iff_place]
  rfl

end Variant

theorem Archive.compareFitness_gt_iff (v w : Variant F) :
    Archive.compareFitness v w = .gt ↔ Ranked.Above Variant.rank Variant.measure v w := by
  cases hw : w.fitness with
  | some g =>
    rw [← Variant.beats_iff_above hw]
    unfold Archive.compareFitness Variant.Beats
    rw [hw]
    cases v.fitness with
    | none => simp
    | some f =>
      dsimp only
      cases hfg : f.isBetterThan g
      · cases g.isBetterThan f <;> simp [hfg]
      · simp [hfg]
  | none =>
    unfold Archive.compareFitness Ranked.Above Variant.rank Variant.measure
    rw [hw]
    cases v.fitness <;> simp

namespace Archive

def Measured (a : Archive F) : Prop := ∀ v ∈ a.variants, ∃ f, v.fitness = some f

theorem bestIsMaximal_iff {a : Archive F} (ha : a.Measured) {v : Variant F} {rest : List (Variant F)}
    (hv : a.variants = v :: rest) :
    a.BestIsMaximal ↔ Ranked.Greatest Variant.rank Variant.measure (v :: rest) (Ranked.choose compareFitness v rest) := by
  have hbest : a.best = some (Ranked.choose compareFitness v rest) := by
    unfold best
    rw [hv]
    rfl
  obtain ⟨g, hg⟩ := ha (Ranked.choose compareFitness v rest) (hv ▸ Ranked.choose_mem v rest)
  unfold BestIsMaximal Ranked.Greatest
  rw [hbest, hv]
  constructor
  · rintro ⟨_, heq, h⟩ w hw habove
    cases heq
    exact h w hw ((Variant.beats_iff_above hg).mpr habove)
  · intro h
    exact ⟨_, rfl, fun w hw hbeats => h w hw ((Variant.beats_iff_above hg).mp hbeats)⟩

theorem lastNan_iff {a : Archive F} (ha : a.Measured) {child : Variant F} {f : Fitness F}
    (hf : child.fitness = some f) :
    (∃ before v after, a.variants = before ++ v :: after
      ∧ (∃ g, v.fitness = some g ∧ g.gates = f.gates ∧ Scalar.isNan g.score = true)
      ∧ ∀ w ∈ after, ∀ g, w.fitness = some g → g.gates ≠ f.gates) ↔
    Ranked.LastUnmeasured Variant.rank Variant.measure a.variants child.rank := by
  refine exists_congr fun before => exists_congr fun v => exists_congr fun after => and_congr_right fun hl => ?_
  obtain ⟨g, hg⟩ := ha v (hl ▸ List.mem_append_right _ List.mem_cons_self)
  rw [Variant.rank_eq_iff hg hf, Variant.measure_eq_none_iff hg, ← and_assoc]
  refine and_congr ?_ (forall₂_congr fun w hw => ?_)
  · constructor
    · rintro ⟨g', hg', h⟩
      rwa [Option.some.inj (hg'.symm.trans hg)] at h
    · intro h
      exact ⟨g, hg, h⟩
  · obtain ⟨gw, hgw⟩ := ha w (hl ▸ List.mem_append_right _ (List.mem_cons_of_mem v hw))
    rw [Ne, Variant.rank_eq_iff hgw hf]
    constructor
    · intro h
      exact h gw hgw
    · intro h g' hg'
      rwa [Option.some.inj (hg'.symm.trans hgw)]

theorem better_iff {a : Archive F} {child : Variant F} {f : Fitness F} (hf : child.fitness = some f) :
    (∃ v ∈ a.variants, ∃ g, v.fitness = some g ∧ g.isBetterThan f = true) ↔
    ∃ v ∈ a.variants, Ranked.Above Variant.rank Variant.measure v child := by
  refine exists_congr fun v => and_congr_right fun _ => ?_
  rw [← Variant.beats_iff_above hf]
  unfold Variant.Beats
  rw [hf]
  simp

theorem hidesBetter_iff {a : Archive F} (ha : a.Measured) {child : Variant F} {f : Fitness F}
    (hf : child.fitness = some f) :
    a.HidesBetter f ↔ Ranked.Hides Variant.rank Variant.measure a.variants child := by
  constructor
  · rintro ⟨hnone, hlast, hbetter⟩
    refine ⟨fun v hv => ?_, (lastNan_iff ha hf).mp hlast, (better_iff hf).mp hbetter⟩
    obtain ⟨g, hg⟩ := ha v hv
    rw [Variant.rank_eq hg, Variant.rank_eq hf]
    exact WithBot.coe_le_coe.mpr (hnone v hv g hg)
  · rintro ⟨hnone, hlast, hbetter⟩
    refine ⟨fun v hv g hg => ?_, (lastNan_iff ha hf).mpr hlast, (better_iff hf).mpr hbetter⟩
    have hle := hnone v hv
    rw [Variant.rank_eq hg, Variant.rank_eq hf] at hle
    exact WithBot.coe_le_coe.mp hle

/-- A variant that joins keeps the best one maximal exactly when nothing hides what is better. -/
theorem bestIsMaximal_insert {a : Archive F} (ha : a.Measured) (hne : a.variants ≠ []) (hbest : a.BestIsMaximal)
    {child : Variant F} {f : Fitness F} (hf : child.fitness = some f) :
    (a.insert child).BestIsMaximal ↔ ¬ a.HidesBetter f := by
  obtain ⟨v, rest, hv⟩ := List.exists_cons_of_ne_nil hne
  have hinsert : (a.insert child).variants = v :: (rest ++ [child]) := by
    unfold insert
    rw [hv, List.cons_append]
  have hmeasured : (a.insert child).Measured := by
    intro w hw
    rcases List.mem_append.mp hw with hw | hw
    · exact ha w hw
    · exact ⟨f, List.mem_singleton.mp hw ▸ hf⟩
  rw [bestIsMaximal_iff hmeasured hinsert, hidesBetter_iff ha hf, hv]
  exact Ranked.greatest_concat_iff compareFitness_gt_iff ((bestIsMaximal_iff ha hv).mp hbest) child

end Archive

/-! ## Whole runs -/

namespace DgmEngine

variable {P : Type} {digest : Bytes → Bytes} {roles : Roles P F} {config : DgmConfig F} {baseline : Fitness F}

omit [PlacedFloat64 F] in
theorem measuredChild_beats {s : DgmEngine P F} {parent : Variant F} {g : Fitness F} (hg : parent.fitness = some g)
    (proposal : Proposal) {fitness : Fitness F} (h : acceptable config parent fitness = true) :
    (measuredChild digest config s parent proposal fitness).parent = some parent.id
      ∧ (measuredChild digest config s parent proposal fitness).Beats parent := by
  refine ⟨rfl, fitness, g, rfl, hg, ?_⟩
  unfold acceptable parentFitness at h
  rw [hg] at h
  simp only [Bool.and_eq_true] at h
  exact h.1.2

/-- Everything in the archive was measured, beginning with the root, and descends from it. -/
structure Descended (digest : Bytes → Bytes) (baseline : Fitness F) (s : DgmEngine P F) : Prop where
  rooted : s.archive.variants ≠ []
  measured : s.archive.Measured
  lineage : s.archive.Lineage digest baseline

omit [PlacedFloat64 F] in
theorem onRoot_descended (state : P) (seed : UInt64) :
    (onRoot digest baseline state seed).Descended digest baseline where
  rooted := List.cons_ne_nil _ _
  measured v hv := ⟨baseline, by rw [List.mem_singleton.mp hv]; rfl⟩
  lineage v hv := .inl (List.mem_singleton.mp hv)

omit [PlacedFloat64 F] in
theorem stepped_descended {s : DgmEngine P F} (hs : s.Descended digest baseline) (workspace : Tree) :
    (s.stepped digest roles config workspace).Descended digest baseline := by
  have hkept : ∀ s' : DgmEngine P F, s'.archive = s.archive → s'.Descended digest baseline := by
    intro s' h
    exact ⟨h ▸ hs.rooted, h ▸ hs.measured, h ▸ hs.lineage⟩
  rcases stepped_cases digest roles config s workspace with ⟨-, harchive, -⟩ | ⟨t, -, hparent, harchive, -⟩
  · exact hkept _ harchive
  · cases haccepted : acceptable config t.parent t.fitness with
    | false =>
      rw [haccepted, if_neg Bool.false_ne_true] at harchive
      exact hkept _ harchive
    | true =>
      rw [haccepted, if_pos rfl] at harchive
      obtain ⟨g, hg⟩ := hs.measured t.parent hparent
      refine ⟨?_, ?_, ?_⟩ <;> rw [harchive]
      · exact List.append_ne_nil_of_right_ne_nil _ (List.cons_ne_nil _ _)
      · intro v hv
        rcases List.mem_append.mp hv with hv | hv
        · exact hs.measured v hv
        · rw [List.mem_singleton.mp hv]
          exact ⟨t.fitness, rfl⟩
      · intro v hv
        rcases List.mem_append.mp hv with hv | hv
        · rcases hs.lineage v hv with h | ⟨p, hp, h⟩
          · exact .inl h
          · exact .inr ⟨p, List.mem_append_left _ hp, h⟩
        · rw [List.mem_singleton.mp hv]
          exact .inr ⟨t.parent, List.mem_append_left _ hparent, measuredChild_beats hg t.proposal haccepted⟩

/-- A step keeps the best variant maximal exactly when it archives nothing that hides a better one. -/
theorem stepped_bestIsMaximal_iff {s : DgmEngine P F} (hs : s.Descended digest baseline)
    (hbest : s.archive.BestIsMaximal) (workspace : Tree) :
    (s.stepped digest roles config workspace).archive.BestIsMaximal ↔
      s.NothingHidden digest roles config workspace := by
  refine stepped_iff hbest fun t _ _ => ?_
  exact Archive.bestIsMaximal_insert hs.measured hs.rooted hbest rfl

theorem onRoot_bestIsMaximal (state : P) (seed : UInt64) :
    (onRoot digest baseline state seed).archive.BestIsMaximal :=
  (Archive.bestIsMaximal_iff (onRoot_descended state seed).measured rfl).mpr fun w hw => by
    rw [List.mem_singleton.mp hw]
    exact Ranked.not_above_self _

/-- In every run from a root the lineage holds, and the best variant stays maximal exactly when no step archives a
variant that a score which is not a number stands before. -/
theorem best_is_maximal_iff (digest : Bytes → Bytes) (roles : Roles P F) (config : DgmConfig F) (baseline : Fitness F)
    (state : P) (seed : UInt64) (workspaces : List Tree) :
    Runs.Throughout (stepped digest roles config)
        (fun s => s.archive.Lineage digest baseline ∧ s.archive.BestIsMaximal)
        (onRoot digest baseline state seed) workspaces ↔
      Runs.EachStep (stepped digest roles config) (NothingHidden digest roles config)
        (onRoot digest baseline state seed) workspaces := by
  have hstart : (onRoot digest baseline state seed).Descended digest baseline := onRoot_descended state seed
  refine Runs.throughout_iff_eachStep hstart ⟨hstart.lineage, onRoot_bestIsMaximal state seed⟩
    (fun s workspace hs _ => stepped_descended hs workspace) fun s workspace hs h => ?_
  rw [← stepped_bestIsMaximal_iff hs h.2 workspace]
  exact and_iff_right (stepped_descended hs workspace).lineage

end DgmEngine

/-! ## A run with a malformed score -/

/-- Exact arithmetic, with infinities and a value that is not a number. -/
inductive ExtRat
  | num (q : ℚ)
  | infinity (negative : Bool)
  | nan
  deriving DecidableEq

namespace ExtRat

/-- The infinities lie beyond every `f64`. -/
def place : ExtRat → Option ℚ
  | num q => some q
  | infinity negative => some (if negative then -2 ^ 1024 else 2 ^ 1024)
  | nan => none

/-- The runs below only calculate with finite numbers. -/
def lift (f : ℚ → ℚ) : ExtRat → ExtRat
  | num a => num (f a)
  | _ => nan

def lift2 (f : ℚ → ℚ → ℚ) : ExtRat → ExtRat → ExtRat
  | num a, num b => num (f a b)
  | _, _ => nan

instance : InfFloat64 ExtRat where
  add := lift2 (· + ·)
  sub := lift2 (· - ·)
  mul := lift2 (· * ·)
  div a b := if b = num 0 then nan else lift2 (· / ·) a b
  neg
    | num q => num (-q)
    | infinity negative => infinity (!negative)
    | nan => nan
  lit := num
  ofNat n := num n
  ln := lift Scalar.ln
  sqrt := lift Scalar.sqrt
  abs := lift Scalar.abs
  powi x n := lift (· ^ n) x
  partialCmp a b := a.place.bind fun x => b.place.map (compare x)
  reparse
    | num q => some (num q)
    | _ => none
  toBits
    | num q => Float64.toBits q
    | infinity negative => if negative then 0xfff0000000000000 else 0x7ff0000000000000
    | nan => 0x7ff8000000000000
  isFinite
    | num _ => true
    | _ => false
  totalCmp a b := compare (a.place.getD (2 ^ 1025)) (b.place.getD (2 ^ 1025))
  infinity := infinity false

instance : PlacedFloat64 ExtRat where
  place := place
  partialCmp_eq _ _ := rfl

end ExtRat

namespace NanRun

def level : Tree := fun path => if path = ["level.txt".toList] then some [48] else none

/-- The scores of the candidates in turn: five, one that is malformed, and one. -/
def score : Nat → ExtRat
  | 0 => .num 5
  | 1 => .nan
  | _ => .num 1

/-- Every candidate passes two tests where the baseline passes none. -/
def roles : Roles Nat ExtRat where
  advisors := {
    propose := fun measured _ rng => (.ok (some ⟨⟨"level.txt".toList, ['0'], ['1']⟩, "one".toList⟩), measured, rng)
    predict := none }
  snapshotError _ := none
  evaluate measured _ := (.ok ⟨true, 2, 0, score measured, []⟩, measured + 1)

def config : DgmConfig ExtRat := ⟨"live".toList, "copy".toList, "pass the tests".toList, true, 8, .num 0, 0⟩

def baseline : Fitness ExtRat := ⟨true, 0, 0, .num 0, []⟩

/-- With this seed every step draws the baseline. -/
def finished : DgmEngine Nat ExtRat :=
  Runs.run (DgmEngine.stepped id roles config) (.onRoot id baseline 0 9) [level, level, level]

example : finished.archive.variants.map (fun v => v.fitness.map (·.score))
      = [some (.num 0), some (.num 5), some .nan, some (.num 1)]
    ∧ (finished.archive.best.bind (·.fitness)).map (·.score) = some (.num 1) := by
  decide +kernel

/-- One takes the place of the malformed score, which took the place of five. -/
theorem one_stands_before_five : ¬ ∀ (roles : Roles Nat ExtRat) (config : DgmConfig ExtRat) (baseline : Fitness ExtRat)
    (state : Nat) (seed : UInt64) (workspaces : List Tree),
    Runs.Throughout (DgmEngine.stepped id roles config)
      (fun s => s.archive.Lineage id baseline ∧ s.archive.BestIsMaximal)
      (.onRoot id baseline state seed) workspaces := by
  intro h
  obtain ⟨-, best, hbest, hmaximal⟩ := (h roles config baseline 0 9 [level, level, level]).finish
  have hbeaten : finished.archive.best.any (fun best => finished.archive.variants.any fun v =>
      v.fitness.any fun f => best.fitness.any fun g => f.isBetterThan g) = true := by
    decide +kernel
  rw [show finished.archive.best = some best from hbest, Option.any_some, List.any_eq_true] at hbeaten
  obtain ⟨v, hv, hbeats⟩ := hbeaten
  simp only [Option.any_eq_true] at hbeats
  obtain ⟨f, hf, g, hg, hlt⟩ := hbeats
  exact hmaximal v hv ⟨f, g, hf, hg, hlt⟩

end NanRun

end Ccos
