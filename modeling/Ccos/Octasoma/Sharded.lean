import Ccos.Octasoma.Memory
import Ccos.Octasoma.Sketch
import Ccos.Lib.Outcome
import Ccos.Lib.Merge
import Mathlib.Data.List.Perm.Basic

/-!
# Sharded memories

One memory per region, in a hash map whose iteration order is open. A global recall takes the hits of all regions, sorts
them by distance or by cosine, and keeps the first.
-/

namespace Ccos.Octasoma

/-- What the model leaves open; `E` is the error of the embedder. A fresh tree has a projection drawn from the seed. -/
structure Deployment (F E : Type) where
  embed : Str → Except E (List F)
  freshTree : FractalMemory3D F
  freshSketch : SketchIndex F
  project : FractalMemory3D F → List F → Option (Point F)
  fromUtf8Lossy : List UInt8 → Str
  select : SketchIndex.Select
  fuel : Nat

inductive RecallError (E : Type)
  | embed (e : E)
  | stop (s : Stop)
  deriving DecidableEq

/-- A hash map, in some iteration order. -/
abbrev Shards (α : Type) := List (Str × α)

/-- `entry(region).or_insert_with(..)`, with what is done to the entry. -/
def Shards.entry {α : Type} (region : Str) (fresh : α) (act : α → Except Stop α) : Shards α → Except Stop (Shards α)
  | [] => do return [(region, ← act fresh)]
  | shard :: rest => do
    if shard.1 = region then return (shard.1, ← act shard.2) :: rest
    else return shard :: (← Shards.entry region fresh act rest)

namespace Deployment

variable {F E : Type} [Quantized F] (d : Deployment F E)

def embedded (text : Str) : Except (RecallError E) (List F) := (d.embed text).mapError .embed

/-- The hits of all regions in iteration order, sorted stably and cut. -/
def globalRecall {α : Type} (hitsOf : List F → Nat → α → Except Stop (List (F × Str)))
    (cmp : F × Str → F × Str → Ordering) (order : Shards α) (query : Str) (k : Nat) :
    Except (RecallError E) (List (Str × F)) := do
  let v ← d.embedded query
  let hits ← (order.mapM fun shard => hitsOf v k shard.2).mapError .stop
  return ((sortBy cmp hits.flatten).take k).map fun hit => (hit.2, hit.1)

/-! ## Trees by region -/

namespace Sharded

def insert (shards : Shards (FractalMemory3D F)) (region uri text : Str) :
    Except (RecallError E) (Shards (FractalMemory3D F)) := do
  let v ← d.embedded text
  (shards.entry region d.freshTree fun shard => do
    let inserted ← shard.insertWith (d.project shard) d.fuel v (some (utf8 uri))
    return inserted.2).mapError .stop

def nearestEmbedding (shard : FractalMemory3D F) (v : List F) (k : Nat) : Except Stop (List (ItemId × F)) :=
  match d.project shard v with
  | some point => shard.nearest d.fuel point k
  | none => .ok []

/-- A hit whose payload is out of range is left out. -/
def hitsOf (v : List F) (k : Nat) (shard : FractalMemory3D F) : Except Stop (List (F × Str)) := do
  let found ← nearestEmbedding d shard v k
  return found.filterMap fun e => (shard.getPayload e.1).map fun p => (e.2, d.fromUtf8Lossy p)

def byDistance (a b : F × Str) : Ordering := Single.totalCmp a.1 b.1

def recallGlobalScored (order : Shards (FractalMemory3D F)) (query : Str) (k : Nat) :
    Except (RecallError E) (List (Str × F)) := d.globalRecall (hitsOf d) byDistance order query k

def recallGlobal (order : Shards (FractalMemory3D F)) (query : Str) (k : Nat) :
    Except (RecallError E) (List Str) := do
  let scored ← recallGlobalScored d order query k
  return scored.map (·.1)

end Sharded

end Deployment

/-! ## Hybrid memories by region -/

structure HybridMemory (F : Type) where
  tree : FractalMemory3D F
  sketch : SketchIndex F
  dim : Nat
  defaultShortlist : Nat

namespace Deployment

variable {F E : Type} [Quantized F] (d : Deployment F E)

namespace Hybrid

def freshHybrid : HybridMemory F := ⟨d.freshTree, d.freshSketch, d.freshSketch.dim, 256⟩

/-- Only what the tree takes is sketched. -/
def insertBoth (m : HybridMemory F) (v : List F) (payload : List UInt8) : Except Stop (Bool × HybridMemory F) :=
  if v.length ≠ m.dim then return (false, m)
  else do
    let inserted ← m.tree.insertWith (d.project m.tree) d.fuel v (some payload)
    if inserted.1.isNone then return (false, { m with tree := inserted.2 })
    else
      let sketched := m.sketch.insert v payload
      return (sketched.2, { m with tree := inserted.2, sketch := sketched.1 })

def insert (shards : Shards (HybridMemory F)) (region uri text : Str) :
    Except (RecallError E) (Shards (HybridMemory F)) := do
  let v ← d.embedded text
  (shards.entry region (freshHybrid d) fun shard => do
    let inserted ← insertBoth d shard v (utf8 uri)
    return inserted.2).mapError .stop

/-- `query` with the sketch strategy. -/
def queryPrecise (shard : HybridMemory F) (v : List F) (k : Nat) : List (List UInt8 × F) :=
  shard.sketch.nearest d.select v k (max shard.defaultShortlist k)

def hitsOf (v : List F) (k : Nat) (shard : HybridMemory F) : Except Stop (List (F × Str)) :=
  return (queryPrecise d shard v k).map fun hit => (hit.2, d.fromUtf8Lossy hit.1)

def byCosine (a b : F × Str) : Ordering := Single.totalCmp b.1 a.1

def recallGlobal (order : Shards (HybridMemory F)) (query : Str) (k : Nat) :
    Except (RecallError E) (List (Str × F)) := d.globalRecall (hitsOf d) byCosine order query k

end Hybrid

end Deployment

end Ccos.Octasoma

/-!
## Global recall depends on the hash order

Hits of two regions at one distance come in the order in which the hash map gives the regions, and the cut keeps the
first of them.
-/

open Std

namespace Ccos.Octasoma

/-- `f32::total_cmp` is a total order on the values. -/
class TotalFloat (F : Type) [Single F] : Prop where
  trans : TransCmp (Single.totalCmp : F → F → Ordering)
  lawful : LawfulEqCmp (Single.totalCmp : F → F → Ordering)

instance : TotalFloat ℚ where
  trans := inferInstanceAs (TransCmp (compare : ℚ → ℚ → Ordering))
  lawful := inferInstanceAs (LawfulEqCmp (compare : ℚ → ℚ → Ordering))

section

variable {F : Type}

/-- Distances, the least first. -/
def Ascending (F : Type) := F

/-- Cosines, the greatest first. -/
def Descending (F : Type) := F

instance [DecidableEq F] : DecidableEq (Ascending F) := inferInstanceAs (DecidableEq F)
instance [DecidableEq F] : DecidableEq (Descending F) := inferInstanceAs (DecidableEq F)

variable [Single F]

instance : Ord (Ascending F) := ⟨fun a b => Single.totalCmp (F := F) a b⟩
instance : Ord (Descending F) := ⟨fun a b => Single.totalCmp (F := F) b a⟩

variable [TotalFloat F]

attribute [instance] TotalFloat.trans TotalFloat.lawful

instance : TransOrd (Ascending F) := inferInstanceAs (TransCmp (Single.totalCmp : F → F → Ordering))

instance : LawfulEqOrd (Ascending F) := inferInstanceAs (LawfulEqCmp (Single.totalCmp : F → F → Ordering))

instance : TransOrd (Descending F) := inferInstanceAs (TransCmp fun a b : F => Single.totalCmp b a)

instance : LawfulEqOrd (Descending F) := inferInstanceAs (LawfulEqCmp fun a b : F => Single.totalCmp b a)

end

/-! ## Orders of the shards -/

/-- All orders of the shards that give an answer give the same one. -/
def SameForAllOrders {α X R : Type} (shards : Shards α) (answer : Shards α → Except X R) : Prop :=
  ∀ order order' r r', order.Perm shards → order'.Perm shards → answer order = .ok r → answer order' = .ok r' → r = r'

/-- `hits` are the hits of the shards. -/
def Hit {F α : Type} (hitsOf : α → Except Stop (List (F × Str))) (shards : Shards α) (hits : List (List (F × Str))) :
    Prop := List.Forall₂ (fun shard h => hitsOf shard.2 = .ok h) shards hits

section

variable {F α : Type} {hitsOf : α → Except Stop (List (F × Str))} {shards order : Shards α}
  {hits hits' : List (List (F × Str))}

theorem Hit.unique (h : Hit hitsOf shards hits) (h' : Hit hitsOf shards hits') : hits = hits' := by
  have hright : Relator.RightUnique fun (shard : Str × α) (h : List (F × Str)) => hitsOf shard.2 = .ok h := by
    intro shard h h' hh hh'
    rw [hh] at hh'
    exact Except.ok.inj hh'
  exact List.right_unique_forall₂' hright h h'

theorem Hit.of_perm (h : Hit hitsOf order hits) (hperm : order.Perm shards) :
    ∃ hits', Hit hitsOf shards hits' ∧ hits.Perm hits' := by
  obtain ⟨hits', h', hp⟩ := List.perm_comp_forall₂ hperm.symm h
  exact ⟨hits', h', hp.symm⟩

theorem Hit.reorder (h : Hit hitsOf shards hits) (hperm : hits'.Perm hits) :
    ∃ order, Hit hitsOf order hits' ∧ order.Perm shards := by
  obtain ⟨order, horder, hp⟩ := List.perm_comp_forall₂ hperm h.flip
  exact ⟨order, horder.flip, hp⟩

end

section

variable {F E α β : Type} (d : Deployment F E) [DecidableEq β] [Ord β] [TransOrd β] [LawfulEqOrd β]
  {hitsOf : List F → Nat → α → Except Stop (List (F × Str))} {cmp : F × Str → F × Str → Ordering} {toKey : F → β}
  {shards : Shards α} {query : Str} {k : Nat}

namespace Deployment

/-- Regions with hits at one distance or cosine, where places are left, agree on which come first. -/
def Agrees (hitsOf : List F → Nat → α → Except Stop (List (F × Str))) (toKey : F → β) (shards : Shards α) (query : Str)
    (k : Nat) : Prop :=
  ∀ v hits, d.embed query = .ok v → Hit (hitsOf v k) shards hits → Agree (fun hit => toKey hit.1) k hits

/-- The answer is the beginning of all hits in the order of their scores. -/
def ScorePrefix (hitsOf : List F → Nat → α → Except Stop (List (F × Str))) (cmp : F × Str → F × Str → Ordering)
    (shards : Shards α) (query : Str) (k : Nat) (r : List (Str × F)) : Prop :=
  ∃ v hits ranked, d.embed query = .ok v ∧ Hit (hitsOf v k) shards hits ∧ List.Perm ranked hits.flatten ∧
    ranked.Pairwise (fun a b => (cmp a b).isLE) ∧ r = (ranked.take k).map fun hit => (hit.2, hit.1)

variable {d}

omit [DecidableEq β] [TransOrd β] [LawfulEqOrd β] in
theorem globalRecall_ok (hcmp : cmp = fun a b => compare (toKey a.1) (toKey b.1)) {order : Shards α}
    {r : List (Str × F)} :
    d.globalRecall hitsOf cmp order query k = .ok r ↔ ∃ v hits, d.embed query = .ok v ∧ Hit (hitsOf v k) order hits ∧
      r = (merged (fun hit => toKey hit.1) k hits).map fun hit => (hit.2, hit.1) := by
  subst hcmp
  unfold globalRecall embedded Hit
  cases hv : d.embed query with
  | error e =>
    constructor
    · intro h
      cases h
    · rintro ⟨v, -, hv', -⟩
      cases hv'
  | ok v =>
    cases hhits : order.mapM fun shard => hitsOf v k shard.2 with
    | error stop =>
      constructor
      · intro h
        simp only [Except.mapError, bind, Except.bind, hhits] at h
        cases h
      · rintro ⟨v', hits, hv', hhit, -⟩
        cases hv'
        rw [Outcome.mapM_eq_ok.mpr hhit] at hhits
        cases hhits
    | ok hits =>
      simp only [Except.mapError, bind, Except.bind, hhits]
      constructor
      · intro h
        exact ⟨v, hits, rfl, Outcome.mapM_eq_ok.mp hhits, (Except.ok.inj h).symm⟩
      · rintro ⟨v', hits', hv', hhit, rfl⟩
        cases hv'
        rw [Outcome.mapM_eq_ok.mpr hhit] at hhits
        cases hhits
        rfl

/-- Whatever is read off the answer tells two answers of different orders apart as the answer does. -/
theorem same_iff_agrees (hcmp : cmp = fun a b => compare (toKey a.1) (toKey b.1)) {R : Type}
    {read : List (Str × F) → R}
    (hread : ∀ r r' : List (Str × F), r.map (fun hit => toKey hit.2) = r'.map (fun hit => toKey hit.2) →
      read r = read r' → r = r') :
    SameForAllOrders shards (fun order => (d.globalRecall hitsOf cmp order query k).map read) ↔
      d.Agrees hitsOf toKey shards query k := by
  have hok : ∀ order x, (d.globalRecall hitsOf cmp order query k).map read = .ok x ↔ ∃ v hits, d.embed query = .ok v ∧
      Hit (hitsOf v k) order hits ∧
        x = read ((merged (fun hit => toKey hit.1) k hits).map fun hit => (hit.2, hit.1)) := by
    intro order x
    constructor
    · intro h
      cases hrecall : d.globalRecall hitsOf cmp order query k with
      | error e =>
        rw [hrecall] at h
        cases h
      | ok r =>
        rw [hrecall] at h
        cases h
        obtain ⟨v, hits, hv, hhits, rfl⟩ := (globalRecall_ok hcmp).mp hrecall
        exact ⟨v, hits, hv, hhits, rfl⟩
    · rintro ⟨v, hits, hv, hhits, rfl⟩
      rw [(globalRecall_ok hcmp).mpr ⟨v, hits, hv, hhits, rfl⟩]
      rfl
  constructor
  · intro h v hits hv hhits
    refine merged_order_iff.mp fun hits' hperm => ?_
    obtain ⟨order, horder, hp⟩ := hhits.reorder hperm
    have hsame := h order shards _ _ hp (List.Perm.refl _) ((hok _ _).mpr ⟨v, hits', hv, horder, rfl⟩)
      ((hok _ _).mpr ⟨v, hits, hv, hhits, rfl⟩)
    have hkeys := map_key_merged (fun hit : F × Str => toKey hit.1) hperm k
    have heq := hread _ _ (by rw [List.map_map, List.map_map]; exact hkeys) hsame
    exact (List.map_inj_right fun a b hab => Prod.swap_injective hab).mp heq
  · intro h order order' r r' hperm hperm' hr hr'
    obtain ⟨v, hits, hv, hhits, rfl⟩ := (hok _ _).mp hr
    obtain ⟨v', hits', hv', hhits', rfl⟩ := (hok _ _).mp hr'
    rw [hv] at hv'
    cases hv'
    obtain ⟨base, hbase, hp⟩ := hhits.of_perm hperm
    obtain ⟨base', hbase', hp'⟩ := hhits'.of_perm hperm'
    rw [← hbase.unique hbase'] at hp'
    have hagree := merged_order_iff.mpr (h v base hv hbase)
    rw [hagree hits hp, hagree hits' hp']

omit [DecidableEq β] [LawfulEqOrd β] in
theorem scorePrefix_of_ok (hcmp : cmp = fun a b => compare (toKey a.1) (toKey b.1)) {order : Shards α}
    (horder : order.Perm shards) {r : List (Str × F)} (h : d.globalRecall hitsOf cmp order query k = .ok r) :
    d.ScorePrefix hitsOf cmp shards query k r := by
  obtain ⟨v, hits, hv, hhits, rfl⟩ := (globalRecall_ok hcmp).mp h
  obtain ⟨base, hbase, hp⟩ := hhits.of_perm horder
  subst hcmp
  exact ⟨v, base, _, hv, hbase, (perm_sortBy _ _).trans hp.flatten, 
    pairwise_sortBy (fun hit : F × Str => toKey hit.1) _, rfl⟩

end Deployment

end

namespace Deployment

variable {F E : Type} [Quantized F] [DecidableEq F] [TotalFloat F] (d : Deployment F E)

/-- The answer does not depend on the hash order, and is the beginning of all hits. -/
def OrderFree {α : Type} (answer : Shards α → Except (RecallError E) (List (Str × F)))
    (hitsOf : List F → Nat → α → Except Stop (List (F × Str))) (cmp : F × Str → F × Str → Ordering) (shards : Shards α)
    (query : Str) (k : Nat) : Prop :=
  SameForAllOrders shards answer ∧
    ∀ order r, order.Perm shards → answer order = .ok r → d.ScorePrefix hitsOf cmp shards query k r

def asDistance (f : F) : Ascending F := f

def asCosine (f : F) : Descending F := f

variable {d}

omit [Quantized F] [DecidableEq F] in
theorem orderFree_iff {α β : Type} [DecidableEq β] [Ord β] [TransOrd β] [LawfulEqOrd β]
    {hitsOf : List F → Nat → α → Except Stop (List (F × Str))} {cmp : F × Str → F × Str → Ordering} {toKey : F → β}
    (hcmp : cmp = fun a b => compare (toKey a.1) (toKey b.1)) {shards : Shards α} {query : Str} {k : Nat} :
    d.OrderFree (fun order => d.globalRecall hitsOf cmp order query k) hitsOf cmp shards query k ↔
      d.Agrees hitsOf toKey shards query k := by
  have hsame : SameForAllOrders shards (fun order => (d.globalRecall hitsOf cmp order query k).map id) ↔
      d.Agrees hitsOf toKey shards query k := same_iff_agrees hcmp fun _ _ _ h => h
  have hid : (fun order => (d.globalRecall hitsOf cmp order query k).map id) =
      fun order => d.globalRecall hitsOf cmp order query k := by
    funext order
    cases d.globalRecall hitsOf cmp order query k with
    | error e => rfl
    | ok r => rfl
  rw [hid] at hsame
  exact (and_iff_left fun order r horder hr => scorePrefix_of_ok hcmp horder hr).trans hsame

omit [DecidableEq F] [TotalFloat F] in
theorem recallGlobal_eq (order : Shards (FractalMemory3D F)) (query : Str) (k : Nat) :
    Sharded.recallGlobal d order query k = (Sharded.recallGlobalScored d order query k).map (List.map (·.1)) := by
  unfold Sharded.recallGlobal
  cases Sharded.recallGlobalScored d order query k with
  | error e => rfl
  | ok r => rfl

omit [DecidableEq F] [TotalFloat F] in
theorem byDistance_eq : (Sharded.byDistance : F × Str → F × Str → Ordering) =
    fun a b => compare (asDistance a.1) (asDistance b.1) := rfl

omit [DecidableEq F] [TotalFloat F] in
theorem byCosine_eq : (Hybrid.byCosine : F × Str → F × Str → Ordering) =
    fun a b => compare (asCosine a.1) (asCosine b.1) := rfl

/-- Global recall is the same for all hash orders exactly when the regions agree. -/
theorem hash_order_exactly (d : Deployment F E) (trees : Shards (FractalMemory3D F)) (hybrids : Shards (HybridMemory F))
    (query : Str) (k : Nat) :
    (d.OrderFree (fun order => Sharded.recallGlobalScored d order query k) (Sharded.hitsOf d) Sharded.byDistance trees
        query k ↔ d.Agrees (Sharded.hitsOf d) asDistance trees query k) ∧
      (SameForAllOrders trees (fun order => Sharded.recallGlobal d order query k) ↔
        d.Agrees (Sharded.hitsOf d) asDistance trees query k) ∧
      (d.OrderFree (fun order => Hybrid.recallGlobal d order query k) (Hybrid.hitsOf d) Hybrid.byCosine hybrids query
        k ↔ d.Agrees (Hybrid.hitsOf d) asCosine hybrids query k) := by
  refine ⟨orderFree_iff byDistance_eq, ?_, orderFree_iff byCosine_eq⟩
  simp only [recallGlobal_eq]
  refine same_iff_agrees byDistance_eq fun r r' hkeys huris => ?_
  rw [← List.zip_unzip r, ← List.zip_unzip r', List.unzip_eq_map, List.unzip_eq_map]
  exact congrArg₂ List.zip huris hkeys

end Deployment

namespace Sample

/-- Everything is embedded at the origin. -/
def deployment : Deployment ℚ Unit where
  embed _ := .ok [0]
  freshTree := FractalMemory3D.newEmpty 1 [1, 0, 0] 16 (1 / 1000000)
  freshSketch := ⟨⟨List.replicate 64 1, 1, 64⟩, 1, .f32 [], [], [], []⟩
  project _ _ := some origin
  fromUtf8Lossy bytes := (decodeUtf8 bytes).getD []
  select cand _ := cand
  fuel := 5

/-- One text in two regions, under two uris. -/
def twoRegions (uri uri' : Str) : Except (RecallError Unit) (Shards (FractalMemory3D ℚ)) := do
  let shards ← Deployment.Sharded.insert deployment [] "a".toList uri "text".toList
  Deployment.Sharded.insert deployment shards "b".toList uri' "text".toList

def recalled (uri uri' : Str) (order : Shards (FractalMemory3D ℚ) → Shards (FractalMemory3D ℚ)) :
    Except (RecallError Unit) (List (Str × ℚ)) := do
  let trees ← twoRegions uri uri'
  Deployment.Sharded.recallGlobalScored deployment (order trees) "text".toList 1

theorem two_regions_in_hash_order : ∃ trees, twoRegions "x".toList "y".toList = .ok trees ∧
    ¬ SameForAllOrders trees fun order => Deployment.Sharded.recallGlobalScored deployment order "text".toList 1 := by
  have hfirst : recalled "x".toList "y".toList id = .ok [("x".toList, 0)] := by decide +kernel
  have hsecond : recalled "x".toList "y".toList List.reverse = .ok [("y".toList, 0)] := by decide +kernel
  obtain ⟨trees, htrees, hone⟩ := bind_eq_ok.mp hfirst
  refine ⟨trees, htrees, fun h => ?_⟩
  unfold recalled at hsecond
  rw [htrees] at hsecond
  have hsame := h _ _ _ _ (List.Perm.refl trees) (List.reverse_perm trees) hone hsecond
  exact absurd hsame (by decide)

theorem one_uri_in_two_regions : ∃ trees, twoRegions "x".toList "x".toList = .ok trees ∧
    deployment.OrderFree (fun order => Deployment.Sharded.recallGlobalScored deployment order "text".toList 1)
      (Deployment.Sharded.hitsOf deployment) Deployment.Sharded.byDistance trees "text".toList 1 := by
  have hhits : (twoRegions "x".toList "x".toList).map (fun trees => (trees.mapM fun shard : Str × FractalMemory3D ℚ =>
      Deployment.Sharded.hitsOf deployment [0] 1 shard.2).toOption) =
      .ok (some [[(0, "x".toList)], [(0, "x".toList)]]) := by decide +kernel
  cases htrees : twoRegions "x".toList "x".toList with
  | error e =>
    rw [htrees] at hhits
    cases hhits
  | ok trees =>
    refine ⟨trees, rfl, (Deployment.hash_order_exactly deployment trees [] "text".toList 1).1.mpr ?_⟩
    intro v hits hv hit
    cases hv
    rw [htrees] at hhits
    have hsame := Except.ok.inj hhits
    dsimp only at hsame
    rw [Outcome.mapM_eq_ok.mpr hit] at hsame
    cases Option.some.inj hsame
    exact fun d _ => List.pairwise_pair.mpr rfl

end Sample

end Ccos.Octasoma
