import Ccos.Query.Walk
import Ccos.Lib.Walks

/-!
# The causal cone

The context window around a set of seeds: their dependencies, layer by layer up to a horizon, and one ring of
callers. Orphans stay out.
-/

open Std Walks

set_option linter.unusedSectionVars false

namespace Ccos

structure CausalFlashConfig (F : Type) where
  horizon : Nat
  includeLowTrustSeeds : Bool
  trustThreshold : F
  decay : F
  includeCallers : Bool
  /-- `none` is unbounded. -/
  maxNodes : Option Nat

inductive CausalRole
  | seed | dependency | caller
  deriving DecidableEq, Repr

def CausalRole.rank : CausalRole → Nat
  | .seed => 0
  | .dependency => 1
  | .caller => 2

structure CausalWindowNode (F : Type) where
  id : NodeId
  state : NodeState
  trust : F
  role : CausalRole
  depth : Nat
  relevance : F

structure CausalWindow (F : Type) where
  nodes : List (CausalWindowNode F)
  complete : Bool
  omitted : Nat
  seedCount : Nat

namespace MemoryGraph

variable {F : Type} [Float64 F]

open Scalar

/-! ## The layers -/

/-- `decay.clamp(f64::MIN_POSITIVE, 1.0)`. -/
def clampDecay (decay : F) : F :=
  if lt decay (lit (1 / 2 ^ 1022)) then lit (1 / 2 ^ 1022) else if gt decay (lit 1) then lit 1 else decay

/-- The tables of the search, and the layer that is being filled. -/
structure Cone (F : Type) where
  depth : BTreeMap NodeId Nat
  relevance : BTreeMap NodeId F
  next : ExtTreeSet NodeId

/-- A dependency of a node with relevance `prel`, looked at for layer `d`. -/
def visitChild (g : MemoryGraph F) (decay : F) (d : Nat) (prel : F) (c : Cone F) (child : NodeId × F) : Cone F :=
  if g.isOrphan child.1 then c
  else
    let contrib := prel * decay * child.2
    let c := { c with relevance := c.relevance.insert child.1 ((c.relevance[child.1]?).getD (lit 0) + contrib) }
    if child.1 ∈ c.depth then c
    else { c with depth := c.depth.insert child.1 d, next := c.next.insert child.1 }

def childrenOf (adj : CausalAdjacency F) (id : NodeId) : List (NodeId × F) := (adj.fwd[id]?).getD []

def expandLayer (g : MemoryGraph F) (decay : F) (adj : CausalAdjacency F) (d : Nat) (frontier : List NodeId)
    (c : Cone F) : Cone F :=
  frontier.foldl (fun c parent =>
    (childrenOf adj parent).foldl (g.visitChild decay d ((c.relevance[parent]?).getD (lit 0))) c) c

/-- Layers `d`, `d + 1`, … while there is something on the frontier: the tables and the last frontier. -/
def layers (g : MemoryGraph F) (decay : F) (adj : CausalAdjacency F) : Nat → Nat → List NodeId → Cone F →
    Cone F × List NodeId
  | 0, _, frontier, c => (c, frontier)
  | left + 1, d, frontier, c =>
    let c := g.expandLayer decay adj d frontier { c with next := ∅ }
    if c.next.toList = [] then (c, []) else layers g decay adj left (d + 1) c.next.toList c

/-- The dependencies of the last frontier that the tables do not have. Only looked for when the horizon is not 0. -/
def cutDeps (g : MemoryGraph F) (horizon : Nat) (adj : CausalAdjacency F) (frontier : List NodeId) (c : Cone F) :
    ExtTreeSet NodeId :=
  if 0 < horizon then
    frontier.foldl (fun cut parent =>
      (childrenOf adj parent).foldl (fun cut child =>
        if g.isOrphan child.1 then cut else if child.1 ∈ c.depth then cut else cut.insert child.1) cut) ∅
  else ∅

/-! ## The window -/

def coneNodes (g : MemoryGraph F) (seeds : ExtTreeSet NodeId) (c : Cone F) : List (CausalWindowNode F) :=
  c.depth.toList.filterMap fun (id, d) =>
    (g.nodes[id]?).map fun node =>
      { id, state := node.state, trust := node.trust, role := if id ∈ seeds then .seed else .dependency, depth := d
        relevance := (c.relevance[id]?).getD (lit 0) }

/-- A caller of a node of the cone, unless it is listed already. -/
def visitCaller (g : MemoryGraph F) (decay : F) (c : Cone F) (cone : NodeId × Nat)
    (s : ExtTreeSet NodeId × List (CausalWindowNode F)) (caller : NodeId) :
    ExtTreeSet NodeId × List (CausalWindowNode F) :=
  if caller ∈ c.depth ∨ caller ∈ s.1 then s
  else
    match g.nodes[caller]? with
    | none => s
    | some node =>
      if node.state = .orphan then s
      else
        (s.1.insert caller, s.2 ++ [{ id := caller, state := node.state, trust := node.trust, role := .caller
                                      depth := cone.2, relevance := (c.relevance[cone.1]?).getD (lit 0) * decay }])

def callerNodes (g : MemoryGraph F) (decay : F) (adj : CausalAdjacency F) (c : Cone F) : List (CausalWindowNode F) :=
  (c.depth.toList.foldl (fun s cone => ((adj.rev[cone.1]?).getD []).foldl (g.visitCaller decay c cone) s) (∅, [])).2

/-- The reading order: role, depth, relevance from the highest, id. -/
def windowOrder (a b : CausalWindowNode F) : Ordering :=
  (compare a.role.rank b.role.rank).then
    ((compare a.depth b.depth).then
      ((Float64.totalCmp b.relevance a.relevance).then (compare a.id b.id)))

/-- The places of the callers that do not fit, least relevant first. -/
def droppedCallers (cap : Nat) (out : List (CausalWindowNode F)) : List (CausalWindowNode F × Nat) :=
  let callers := out.zipIdx.filter (·.1.role = .caller)
  let callers := sortBy (fun a b => (Float64.totalCmp a.1.relevance b.1.relevance).then (compare a.1.id b.1.id)) callers
  callers.take (out.length - cap)

/-- Drops callers until the window has `max_nodes` nodes, or no caller is left: what is kept, and how many went. -/
def truncate (maxNodes : Option Nat) (out : List (CausalWindowNode F)) : List (CausalWindowNode F) × Nat :=
  match maxNodes with
  | none => (out, 0)
  | some cap =>
    if cap < out.length then
      let drop := (droppedCallers cap out).map (·.2)
      ((out.zipIdx.filter (·.2 ∉ drop)).map (·.1), drop.length)
    else (out, 0)

def coneCore (g : MemoryGraph F) (cfg : CausalFlashConfig F) (adj : CausalAdjacency F) (seeds : ExtTreeSet NodeId) :
    CausalWindow F :=
  let decay := clampDecay cfg.decay
  let start : Cone F :=
    { depth := seeds.toList.foldl (fun m s => m.insert s 0) ∅
      relevance := seeds.toList.foldl (fun m s => m.insert s (lit 1)) ∅
      next := ∅ }
  let (c, frontier) := g.layers decay adj cfg.horizon 1 seeds.toList start
  let cut := g.cutDeps cfg.horizon adj frontier c
  let callers := if cfg.includeCallers then g.callerNodes decay adj c else []
  let (nodes, dropped) := truncate cfg.maxNodes (sortBy windowOrder (g.coneNodes seeds c ++ callers))
  { nodes, complete := cut.isEmpty, omitted := cut.size + dropped, seedCount := seeds.size }

/-- The seeds that are resident and no orphans. -/
def liveSeeds (g : MemoryGraph F) (seedIds : List NodeId) : ExtTreeSet NodeId :=
  seedIds.foldl (fun seeds id => if (g.nodes[id]?).any (·.state ≠ .orphan) then seeds.insert id else seeds) ∅

def causalFlashWindowWith (g : MemoryGraph F) (cfg : CausalFlashConfig F) (adj : CausalAdjacency F)
    (seedIds : List NodeId) : CausalWindow F :=
  g.coneCore cfg adj (g.liveSeeds seedIds)

/-- The seeds are the working nodes, and the nodes of low trust when these are asked for. -/
def causalFlashWindow (g : MemoryGraph F) (cfg : CausalFlashConfig F) : CausalWindow F :=
  let seedIds := (g.nodes.toList.filter fun (_, node) => node.state = .working ∨
    cfg.includeLowTrustSeeds ∧ lt node.trust cfg.trustThreshold).map (·.1)
  g.coneCore cfg g.withCausalAdjacency (g.liveSeeds seedIds)

/-! ## What the search visits -/

/-- A dependency edge to a node that is no orphan. -/
def DependsOnLive (g : MemoryGraph F) (a b : NodeId) : Prop :=
  (∃ e ∈ g.edges, isDependencyEdge e.edgeType = true ∧ e.source = a ∧ e.target = b) ∧ g.isOrphan b = false

theorem mem_childrenOf (g : MemoryGraph F) (a b : NodeId) : (∃ w, (b, w) ∈ childrenOf g.causalAdjacency a) ↔
    ∃ e ∈ g.edges, isDependencyEdge e.edgeType = true ∧ e.source = a ∧ e.target = b := by
  have hgroup := getElem?_foldl_pushAt (fun e : GraphEdge F => e.source) (fun e => (e.target, e.weight))
    (g.edges.filter (isDependencyEdge ·.edgeType)) ∅ a
  rw [ExtTreeMap.getElem?_empty, Option.getD_none, List.nil_append] at hgroup
  unfold childrenOf causalAdjacency
  dsimp only
  rw [ExtTreeMap.getElem?_map]
  generalize ((g.edges.filter (isDependencyEdge ·.edgeType)).foldl (fun m e => pushAt m e.source (e.target, e.weight))
    (∅ : BTreeMap NodeId (List (NodeId × F))))[a]? = found at hgroup ⊢
  have hmem : ∀ w, (b, w) ∈ (found.map fun v => sortBy (fun a b => compare a.1 b.1) v).getD [] ↔
      (b, w) ∈ found.getD [] := by
    intro w
    cases found with
    | none => rfl
    | some v => exact mem_sortBy _ _ _
  simp only [hmem, hgroup]
  constructor
  · rintro ⟨w, h⟩
    obtain ⟨e, he, heq⟩ := List.mem_map.mp h
    obtain ⟨he, hsource⟩ := List.mem_filter.mp he
    obtain ⟨he, hdep⟩ := List.mem_filter.mp he
    exact ⟨e, he, hdep, of_decide_eq_true hsource, congrArg Prod.fst heq⟩
  · rintro ⟨e, he, hdep, rfl, rfl⟩
    refine ⟨e.weight, List.mem_map.mpr ⟨e, ?_, rfl⟩⟩
    exact List.mem_filter.mpr ⟨List.mem_filter.mpr ⟨he, hdep⟩, decide_eq_true rfl⟩

theorem mem_insert_id {set : ExtTreeSet NodeId} {a b : NodeId} : b ∈ set.insert a ↔ b = a ∨ b ∈ set := by
  rw [ExtTreeSet.mem_insert, LawfulEqOrd.compare_eq_iff_eq, eq_comm]

/-- The tables grow by the ids in `P` that are new, at depth `d`. -/
structure LayerGrown (d : Nat) (c c' : Cone F) (P : NodeId → Prop) : Prop where
  depth : ∀ v k, c'.depth[v]? = some k ↔ c.depth[v]? = some k ∨ k = d ∧ c.depth[v]? = none ∧ P v
  next : ∀ v, v ∈ c'.next ↔ v ∈ c.next ∨ c.depth[v]? = none ∧ P v

theorem LayerGrown.refl (d : Nat) (c : Cone F) : LayerGrown d c c fun _ => False where
  depth := by simp
  next := by simp

theorem LayerGrown.none_iff {d : Nat} {c c' : Cone F} {P : NodeId → Prop} (h : LayerGrown d c c' P) (v : NodeId) :
    c'.depth[v]? = none ↔ c.depth[v]? = none ∧ ¬ P v := by
  rw [Option.eq_none_iff_forall_ne_some, Option.eq_none_iff_forall_ne_some]
  constructor
  · intro hnone
    have hold : ∀ k, c.depth[v]? ≠ some k := fun k hk => hnone k ((h.depth v k).mpr (.inl hk))
    exact ⟨hold, fun hP => hnone d ((h.depth v d).mpr (.inr ⟨rfl, Option.eq_none_iff_forall_ne_some.mpr hold, hP⟩))⟩
  · rintro ⟨hold, hP⟩ k hk
    rcases (h.depth v k).mp hk with hk | ⟨-, -, hv⟩
    · exact hold k hk
    · exact hP hv

theorem LayerGrown.trans {d : Nat} {c c' c'' : Cone F} {P Q : NodeId → Prop} (h : LayerGrown d c c' P)
    (h' : LayerGrown d c' c'' Q) : LayerGrown d c c'' fun v => P v ∨ Q v where
  depth v k := by
    rw [h'.depth, h.depth, h.none_iff]
    tauto
  next v := by
    rw [h'.next, h.next, h.none_iff]
    tauto

theorem LayerGrown.congr {d : Nat} {c c' : Cone F} {P Q : NodeId → Prop} (h : LayerGrown d c c' P)
    (hPQ : ∀ v, P v ↔ Q v) : LayerGrown d c c' Q where
  depth v k := by rw [h.depth, hPQ]
  next v := by rw [h.next, hPQ]

theorem LayerGrown.foldl {β : Type} {d : Nat} {f : Cone F → β → Cone F} {P : β → NodeId → Prop} (l : List β)
    (hstep : ∀ c, ∀ x ∈ l, LayerGrown d c (f c x) (P x)) (c : Cone F) :
    LayerGrown d c (l.foldl f c) fun v => ∃ x ∈ l, P x v := by
  induction l generalizing c with
  | nil => exact (LayerGrown.refl d c).congr (by simp)
  | cons x l ih =>
    have hfirst := hstep c x List.mem_cons_self
    have hrest := ih (fun c y hy => hstep c y (List.mem_cons_of_mem _ hy)) (f c x)
    exact (hfirst.trans hrest).congr fun v => by simp

theorem layerGrown_visitChild (g : MemoryGraph F) (decay : F) (d : Nat) (prel : F) (c : Cone F) (child : NodeId × F) :
    LayerGrown d c (g.visitChild decay d prel c child) fun v => v = child.1 ∧ g.isOrphan child.1 = false := by
  unfold visitChild
  split
  · rename_i horphan
    exact (LayerGrown.refl d c).congr (by simp [horphan])
  · rename_i hlive
    rw [Bool.not_eq_true] at hlive
    dsimp only
    split
    · -- A node that is in the tables only raises its relevance.
      rename_i hseen
      have hsome : c.depth[child.1]? ≠ none := by
        rw [← Option.isSome_iff_ne_none]
        exact ExtTreeMap.isSome_getElem?_iff_mem.mpr hseen
      refine ⟨fun v k => ?_, fun v => ?_⟩
      · constructor
        · exact .inl
        · rintro (hk | ⟨-, hnone, rfl, -⟩)
          · exact hk
          · exact absurd hnone hsome
      · constructor
        · exact .inl
        · rintro (hv | ⟨hnone, rfl, -⟩)
          · exact hv
          · exact absurd hnone hsome
    · rename_i hnew
      have hnone : c.depth[child.1]? = none := ExtTreeMap.getElem?_eq_none hnew
      refine ⟨fun v k => ?_, fun v => ?_⟩
      · dsimp only
        rw [getElem?_insert_eq]
        by_cases hv : v = child.1
        · subst hv
          rw [if_pos rfl, hnone]
          simp [hlive, eq_comm]
        · rw [if_neg hv]
          simp [hv]
      · dsimp only
        rw [mem_insert_id]
        by_cases hv : v = child.1
        · subst hv
          simp [hlive, hnone]
        · simp [hv]

theorem layerGrown_expandLayer (g : MemoryGraph F) (decay : F) (d : Nat) (frontier : List NodeId) (c : Cone F) :
    LayerGrown d c (g.expandLayer decay g.causalAdjacency d frontier c) fun v =>
      ∃ p ∈ frontier, g.DependsOnLive p v := by
  refine (LayerGrown.foldl frontier (fun c p _ => ?_) c)
  refine (LayerGrown.foldl _ (fun c child _ => g.layerGrown_visitChild decay d _ c child) c).congr fun v => ?_
  rw [DependsOnLive, ← g.mem_childrenOf p v]
  constructor
  · rintro ⟨child, hchild, rfl, hlive⟩
    exact ⟨⟨child.2, hchild⟩, hlive⟩
  · rintro ⟨⟨w, hw⟩, hlive⟩
    exact ⟨(v, w), hw, rfl, hlive⟩

/-! ## The layers are the distances -/

def SeedSet (seeds : ExtTreeSet NodeId) (v : NodeId) : Prop := v ∈ seeds

/-- The tables have the nodes within `d`, and the frontier those at `d`. -/
structure AtLayer (g : MemoryGraph F) (seeds : ExtTreeSet NodeId) (d : Nat) (frontier : List NodeId) (c : Cone F) :
    Prop where
  layered : Layered g.DependsOnLive (SeedSet seeds) d fun v => c.depth[v]?
  frontier : ∀ p, p ∈ frontier ↔ c.depth[p]? = some d

theorem atLayer_expand {g : MemoryGraph F} {seeds : ExtTreeSet NodeId} {d : Nat} {frontier : List NodeId} {c : Cone F}
    (h : g.AtLayer seeds d frontier c) (decay : F) :
    g.AtLayer seeds (d + 1)
      (g.expandLayer decay g.causalAdjacency (d + 1) frontier { c with next := ∅ }).next.toList
      (g.expandLayer decay g.causalAdjacency (d + 1) frontier { c with next := ∅ }) := by
  have hgrown := g.layerGrown_expandLayer decay (d + 1) frontier { c with next := ∅ }
  have hP : ∀ v, (∃ p ∈ frontier, g.DependsOnLive p v) ↔ ∃ p, c.depth[p]? = some d ∧ g.DependsOnLive p v := fun v =>
    exists_congr fun p => and_congr_left fun _ => h.frontier p
  refine ⟨h.layered.succ fun v k => (hgrown.depth v k).trans ?_, fun p => ?_⟩
  · rw [hP]
  · rw [ExtTreeSet.mem_toList, hgrown.next, hgrown.depth]
    have hold : c.depth[p]? ≠ some (d + 1) := by
      intro hp
      have := ((h.layered p (d + 1)).mp hp).1
      omega
    simp [hold]

theorem atLayer_layers {g : MemoryGraph F} {seeds : ExtTreeSet NodeId} (decay : F) (left : Nat) {d : Nat}
    {frontier : List NodeId} {c : Cone F} (h : g.AtLayer seeds d frontier c) :
    g.AtLayer seeds (d + left) (g.layers decay g.causalAdjacency left (d + 1) frontier c).2
      (g.layers decay g.causalAdjacency left (d + 1) frontier c).1 := by
  induction left generalizing d frontier c with
  | zero => exact h
  | succ left ih =>
    have hnext := atLayer_expand h decay
    rw [layers]
    split
    · -- The layer is empty, so that every greater depth has the same tables.
      rename_i hempty
      rw [hempty] at hnext
      have hnone : ∀ p, (g.expandLayer decay g.causalAdjacency (d + 1) frontier { c with next := ∅ }).depth[p]? ≠
          some (d + 1) := fun p hp => absurd ((hnext.frontier p).mpr hp) List.not_mem_nil
      refine ⟨hnext.layered.of_empty (by omega) hnone, fun p => ?_⟩
      refine iff_of_false List.not_mem_nil fun hp => ?_
      have hle := ((hnext.layered p _).mp hp).1
      exact hnone p (by rw [hp]; congr 1; omega)
    · rw [show d + (left + 1) = d + 1 + left by omega]
      exact ih hnext

theorem getElem?_foldl_insert_zero (ids : List NodeId) (m : BTreeMap NodeId Nat) (v : NodeId) :
    (ids.foldl (fun m s => m.insert s 0) m)[v]? = if v ∈ ids then some 0 else m[v]? := by
  induction ids generalizing m with
  | nil => simp
  | cons id ids ih =>
    rw [List.foldl_cons, ih, getElem?_insert_eq]
    by_cases hv : v ∈ ids
    · rw [if_pos hv, if_pos (List.mem_cons_of_mem _ hv)]
    · rw [if_neg hv]
      simp [hv]

theorem atLayer_start (g : MemoryGraph F) (seeds : ExtTreeSet NodeId) (relevance : BTreeMap NodeId F) :
    g.AtLayer seeds 0 seeds.toList
      { depth := seeds.toList.foldl (fun m s => m.insert s 0) ∅, relevance, next := ∅ } := by
  have hget : ∀ v k, (seeds.toList.foldl (fun m s => m.insert s 0) (∅ : BTreeMap NodeId Nat))[v]? = some k ↔
      k = 0 ∧ SeedSet seeds v := by
    intro v k
    rw [getElem?_foldl_insert_zero, ExtTreeMap.getElem?_empty]
    simp only [ExtTreeSet.mem_toList, SeedSet]
    split
    · simp [*, eq_comm]
    · simp [*]
  exact ⟨layered_zero hget, fun p => by rw [hget, ExtTreeSet.mem_toList]; simp [SeedSet]⟩

/-! ## What is cut -/

theorem mem_foldl_of_step {β : Type} {f : ExtTreeSet NodeId → β → ExtTreeSet NodeId} {P : β → NodeId → Prop}
    (l : List β) (hstep : ∀ set, ∀ x ∈ l, ∀ v, v ∈ f set x ↔ v ∈ set ∨ P x v) (set : ExtTreeSet NodeId) (v : NodeId) :
    v ∈ l.foldl f set ↔ v ∈ set ∨ ∃ x ∈ l, P x v := by
  induction l generalizing set with
  | nil => simp
  | cons x l ih =>
    rw [List.foldl_cons, ih fun set y hy => hstep set y (List.mem_cons_of_mem _ hy),
      hstep set x List.mem_cons_self, List.exists_mem_cons_iff, or_assoc]

theorem mem_cutDeps (g : MemoryGraph F) (horizon : Nat) (frontier : List NodeId) (c : Cone F) (v : NodeId) :
    v ∈ g.cutDeps horizon g.causalAdjacency frontier c ↔
      0 < horizon ∧ c.depth[v]? = none ∧ ∃ p ∈ frontier, g.DependsOnLive p v := by
  have hnone : ∀ u, c.depth[u]? = none ↔ u ∉ c.depth := fun u => by
    rw [← ExtTreeMap.isSome_getElem?_iff_mem, Bool.not_eq_true, Option.isSome_eq_false_iff, Option.isNone_iff_eq_none]
  have hchild : ∀ (set : ExtTreeSet NodeId) (child : NodeId × F) (u : NodeId),
      u ∈ (if g.isOrphan child.1 then set else if child.1 ∈ c.depth then set else set.insert child.1) ↔
        u ∈ set ∨ u = child.1 ∧ g.isOrphan child.1 = false ∧ c.depth[child.1]? = none := by
    intro set child u
    rw [hnone]
    split
    · simp [*]
    · split
      · simp [*]
      · rw [mem_insert_id]
        simp [*, or_comm]
  unfold cutDeps
  split
  · rename_i hpos
    refine (mem_foldl_of_step frontier (fun set p _ u => mem_foldl_of_step (childrenOf g.causalAdjacency p)
      (fun set child _ u => hchild set child u) set u) ∅ v).trans ?_
    simp only [ExtTreeSet.not_mem_empty, false_or, hpos, true_and]
    constructor
    · rintro ⟨p, hp, child, hchild, rfl, hlive, hnew⟩
      exact ⟨hnew, p, hp, (g.mem_childrenOf p child.1).mp ⟨child.2, hchild⟩, hlive⟩
    · rintro ⟨hnew, p, hp, hedge, hlive⟩
      obtain ⟨w, hw⟩ := (g.mem_childrenOf p v).mpr hedge
      exact ⟨p, hp, (v, w), hw, rfl, hlive, hnew⟩
  · rename_i hzero
    simp [hzero]

/-- Nothing is cut when the horizon is 0; otherwise, nothing is cut when the tables have all that can be reached. -/
theorem isEmpty_cutDeps {g : MemoryGraph F} {seeds : ExtTreeSet NodeId} {horizon : Nat} {frontier : List NodeId}
    {c : Cone F} (h : g.AtLayer seeds horizon frontier c) :
    (g.cutDeps horizon g.causalAdjacency frontier c).isEmpty = true ↔
      (0 < horizon → ∀ v, ReachableFrom g.DependsOnLive (SeedSet seeds) v → (c.depth[v]?).isSome = true) := by
  rw [← h.layered.closed_iff, ← ExtTreeSet.isEmpty_toList, List.isEmpty_iff, List.eq_nil_iff_forall_not_mem]
  simp only [ExtTreeSet.mem_toList, mem_cutDeps]
  constructor
  · intro hnone hpos p v hp hstep
    by_contra hv
    rw [Bool.not_eq_true, Option.isSome_eq_false_iff, Option.isNone_iff_eq_none] at hv
    exact hnone v ⟨hpos, hv, p, (h.frontier p).mpr hp, hstep⟩
  · rintro hclosed v ⟨hpos, hv, p, hp, hstep⟩
    have hsome := hclosed hpos p v ((h.frontier p).mp hp) hstep
    rw [hv] at hsome
    cases hsome

/-! ## What the window keeps -/

def coneEntries (w : CausalWindow F) : List (CausalWindowNode F) := w.nodes.filter (·.role ≠ .caller)

theorem filter_truncate (maxNodes : Option Nat) (out : List (CausalWindowNode F)) :
    (truncate maxNodes out).1.filter (·.role ≠ .caller) = out.filter (·.role ≠ .caller) := by
  unfold truncate
  cases maxNodes with
  | none => rfl
  | some cap =>
    dsimp only
    split
    · have hcaller : ∀ x ∈ droppedCallers cap out, x ∈ out.zipIdx ∧ x.1.role = .caller := by
        intro x hx
        have hx := (mem_sortBy _ _ _).mp (List.mem_of_mem_take hx)
        obtain ⟨hx, hrole⟩ := List.mem_filter.mp hx
        exact ⟨hx, of_decide_eq_true hrole⟩
      have hkept : ∀ x ∈ out.zipIdx, x.1.role ≠ .caller → x.2 ∉ (droppedCallers cap out).map (·.2) := by
        intro x hx hrole hdrop
        obtain ⟨y, hy, hxy⟩ := List.mem_map.mp hdrop
        obtain ⟨hy, hcaller⟩ := hcaller y hy
        have hsame : x.1 = y.1 := by
          have hgetx := List.mem_zipIdx_iff_getElem?.mp hx
          have hgety := List.mem_zipIdx_iff_getElem?.mp hy
          rw [hxy, hgetx] at hgety
          exact Option.some.inj hgety
        exact hrole (hsame ▸ hcaller)
      rw [List.filter_map, List.filter_filter]
      have hfilter : out.zipIdx.filter (fun x => decide (x.1.role ≠ .caller) &&
          decide (x.2 ∉ (droppedCallers cap out).map (·.2))) =
          out.zipIdx.filter (fun x => decide (x.1.role ≠ .caller)) := by
        refine List.filter_congr fun x hx => ?_
        by_cases hrole : x.1.role = .caller
        · simp [hrole]
        · rw [decide_eq_true (hkept x hx hrole), Bool.and_true]
      refine (congrArg (List.map _) hfilter).trans ?_
      rw [← List.zipIdx_map_fst 0 out, List.filter_map]
      simp only [List.zipIdx_map_fst]
      rfl
    · rfl

theorem role_callerNodes (g : MemoryGraph F) (decay : F) (adj : CausalAdjacency F) (c : Cone F) :
    ∀ n ∈ g.callerNodes decay adj c, n.role = .caller := by
  have hvisit : ∀ (cone : NodeId × Nat) (s : ExtTreeSet NodeId × List (CausalWindowNode F)) (caller : NodeId),
      (∀ n ∈ s.2, n.role = .caller) → ∀ n ∈ (g.visitCaller decay c cone s caller).2, n.role = .caller := by
    intro cone s caller hs
    unfold visitCaller
    split
    · exact hs
    · split
      · exact hs
      · split
        · exact hs
        · intro n hn
          rcases List.mem_append.mp hn with hn | hn
          · exact hs n hn
          · rw [List.mem_singleton.mp hn]
  have hring : ∀ (callers : List NodeId) (cone : NodeId × Nat) (s : ExtTreeSet NodeId × List (CausalWindowNode F)),
      (∀ n ∈ s.2, n.role = .caller) → ∀ n ∈ (callers.foldl (g.visitCaller decay c cone) s).2, n.role = .caller := by
    intro callers cone
    induction callers with
    | nil => exact fun s hs => hs
    | cons caller callers ih => exact fun s hs => ih _ (hvisit cone s caller hs)
  have hall : ∀ (cones : List (NodeId × Nat)) (s : ExtTreeSet NodeId × List (CausalWindowNode F)),
      (∀ n ∈ s.2, n.role = .caller) →
      ∀ n ∈ (cones.foldl (fun s cone => ((adj.rev[cone.1]?).getD []).foldl (g.visitCaller decay c cone) s) s).2,
        n.role = .caller := by
    intro cones
    induction cones with
    | nil => exact fun s hs => hs
    | cons cone cones ih => exact fun s hs => ih _ (hring _ cone s hs)
  exact hall _ _ (by simp)

theorem role_coneNodes {g : MemoryGraph F} {seeds : ExtTreeSet NodeId} {c : Cone F} {n : CausalWindowNode F}
    (h : n ∈ g.coneNodes seeds c) : n.role ≠ .caller := by
  obtain ⟨⟨id, d⟩, -, hn⟩ := List.mem_filterMap.mp h
  obtain ⟨node, -, rfl⟩ := Option.map_eq_some_iff.mp hn
  dsimp only
  split <;> nofun

theorem mem_coneNodes {g : MemoryGraph F} {seeds : ExtTreeSet NodeId} {c : Cone F} {v : NodeId} {k : Nat} :
    (∃ n ∈ g.coneNodes seeds c, n.id = v ∧ n.depth = k) ↔ c.depth[v]? = some k ∧ v ∈ g.nodes := by
  constructor
  · rintro ⟨n, hn, rfl, rfl⟩
    obtain ⟨⟨id, d⟩, hmem, hn⟩ := List.mem_filterMap.mp hn
    obtain ⟨node, hnode, rfl⟩ := Option.map_eq_some_iff.mp hn
    refine ⟨ExtTreeMap.mem_toList_iff_getElem?_eq_some.mp hmem, ExtTreeMap.isSome_getElem?_iff_mem.mp ?_⟩
    exact Option.isSome_of_mem hnode
  · rintro ⟨hk, hv⟩
    obtain ⟨node, hnode⟩ := Option.isSome_iff_exists.mp (ExtTreeMap.isSome_getElem?_iff_mem.mpr hv)
    let entry : CausalWindowNode F :=
      { id := v, state := node.state, trust := node.trust, role := if v ∈ seeds then .seed else .dependency, depth := k
        relevance := (c.relevance[v]?).getD (lit 0) }
    refine ⟨entry, List.mem_filterMap.mpr ⟨(v, k), ExtTreeMap.mem_toList_iff_getElem?_eq_some.mpr hk, ?_⟩, rfl, rfl⟩
    dsimp only
    rw [hnode]
    rfl

theorem nodup_coneNodes (g : MemoryGraph F) (seeds : ExtTreeSet NodeId) (c : Cone F) :
    ((g.coneNodes seeds c).map (·.id)).Nodup := by
  have hkeys : (c.depth.toList.map (·.1)).Nodup := by
    have hdistinct := c.depth.distinct_keys_toList
    refine List.pairwise_map.mpr (hdistinct.imp fun h heq => ?_)
    exact h (LawfulEqOrd.compare_eq_iff_eq.mpr heq)
  have hids : (g.coneNodes seeds c).map (·.id) =
      (c.depth.toList.map (·.1)).filter fun id => (g.nodes[id]?).isSome := by
    unfold coneNodes
    induction c.depth.toList with
    | nil => rfl
    | cons x l ih =>
      obtain ⟨id, d⟩ := x
      rw [List.filterMap_cons, List.map_cons, List.filter_cons]
      dsimp only
      cases hnode : g.nodes[id]? with
      | none => exact ih
      | some node => exact congrArg (id :: ·) ih
  rw [hids]
  exact hkeys.filter _

theorem role_eq_seed_iff {g : MemoryGraph F} {seeds : ExtTreeSet NodeId} {c : Cone F} {n : CausalWindowNode F}
    (h : n ∈ g.coneNodes seeds c) : n.role = .seed ↔ n.id ∈ seeds := by
  obtain ⟨⟨id, d⟩, -, hn⟩ := List.mem_filterMap.mp h
  obtain ⟨node, -, rfl⟩ := Option.map_eq_some_iff.mp hn
  dsimp only
  split <;> simp [*]

theorem coneEntries_perm {g : MemoryGraph F} {seeds : ExtTreeSet NodeId} {c : Cone F}
    {callers : List (CausalWindowNode F)} (hcallers : ∀ n ∈ callers, n.role = .caller) (maxNodes : Option Nat) :
    ((truncate maxNodes (sortBy windowOrder (g.coneNodes seeds c ++ callers))).1.filter (·.role ≠ .caller)).Perm
      (g.coneNodes seeds c) := by
  rw [filter_truncate]
  refine ((perm_sortBy _ _).filter _).trans (List.Perm.of_eq ?_)
  rw [List.filter_append, List.filter_eq_self.mpr fun n hn => decide_eq_true (role_coneNodes hn),
    List.filter_eq_nil_iff.mpr fun n hn => by simp [hcallers n hn], List.append_nil]

/-! ## The cone is exact -/

/-- The callers pass only seeds that are resident and no orphans. -/
def LiveSeeds (g : MemoryGraph F) (seeds : ExtTreeSet NodeId) : Prop :=
  ∀ s ∈ seeds, s ∈ g.nodes ∧ g.isOrphan s = false

theorem liveSeeds_live (g : MemoryGraph F) (seedIds : List NodeId) : g.LiveSeeds (g.liveSeeds seedIds) := by
  have hall : ∀ (ids : List NodeId) (seeds : ExtTreeSet NodeId), g.LiveSeeds seeds → g.LiveSeeds
      (ids.foldl (fun seeds id => if (g.nodes[id]?).any (·.state ≠ .orphan) then seeds.insert id else seeds) seeds) := by
    intro ids
    induction ids with
    | nil => exact fun _ h => h
    | cons id ids ih =>
      refine fun seeds h => ih _ ?_
      dsimp only
      split
      · rename_i hlive
        intro s hs
        rcases mem_insert_id.mp hs with rfl | hs
        · cases hnode : g.nodes[s]? with
          | none => simp [hnode] at hlive
          | some node =>
            refine ⟨ExtTreeMap.isSome_getElem?_iff_mem.mp (by rw [hnode]; rfl), ?_⟩
            rw [hnode, Option.any_some, decide_eq_true_iff] at hlive
            simp [isOrphan, hnode, hlive]
        · exact h s hs
      · exact h
  exact hall seedIds ∅ fun s hs => absurd hs ExtTreeSet.not_mem_empty

/-- The entries are the nodes within the horizon, once each and at their distances, and `complete` says that
nothing else can be reached. -/
structure ConeExact (g : MemoryGraph F) (horizon : Nat) (seeds : ExtTreeSet NodeId) (w : CausalWindow F) : Prop where
  once : ((coneEntries w).map (·.id)).Nodup
  exact : ∀ v k, (∃ n ∈ coneEntries w, n.id = v ∧ n.depth = k) ↔
    k ≤ horizon ∧ DistanceFrom g.DependsOnLive (SeedSet seeds) v k
  role : ∀ n ∈ coneEntries w, n.role = .seed ↔ n.id ∈ seeds
  complete : w.complete = true ↔
    ∀ v, ReachableFrom g.DependsOnLive (SeedSet seeds) v → ∃ n ∈ coneEntries w, n.id = v

theorem resident_of_reachable {g : MemoryGraph F} (hg : g.NoDangling) {seeds : ExtTreeSet NodeId}
    (hseeds : g.LiveSeeds seeds) {v : NodeId} (h : ReachableFrom g.DependsOnLive (SeedSet seeds) v) : v ∈ g.nodes := by
  obtain ⟨s, hs, hreach⟩ := h
  rcases hreach.cases_tail with rfl | ⟨p, -, ⟨e, he, -, -, rfl⟩, -⟩
  · exact (hseeds _ hs).1
  · exact (hg e he).2

theorem closed_of_step {g : MemoryGraph F} {seeds : ExtTreeSet NodeId}
    (hclosed : ∀ s ∈ seeds, ∀ v, g.DependsOnLive s v → v ∈ seeds) {v : NodeId}
    (h : ReachableFrom g.DependsOnLive (SeedSet seeds) v) : v ∈ seeds := by
  obtain ⟨s, hs, hreach⟩ := h
  induction hreach with
  | refl => exact hs
  | tail _ hstep ih => exact hclosed _ ih _ hstep

theorem coneExact_iff_of_layer {g : MemoryGraph F} (hg : g.NoDangling) {seeds : ExtTreeSet NodeId}
    (hseeds : g.LiveSeeds seeds) {horizon : Nat} {frontier : List NodeId} {c : Cone F} {w : CausalWindow F}
    (hlayer : g.AtLayer seeds horizon frontier c) (hentries : (coneEntries w).Perm (g.coneNodes seeds c))
    (hcomplete : w.complete = (g.cutDeps horizon g.causalAdjacency frontier c).isEmpty) :
    g.ConeExact horizon seeds w ↔ 0 < horizon ∨ ∀ s ∈ seeds, ∀ v, g.DependsOnLive s v → v ∈ seeds := by
  have hmem : ∀ v k, (∃ n ∈ coneEntries w, n.id = v ∧ n.depth = k) ↔ c.depth[v]? = some k := by
    intro v k
    simp only [hentries.mem_iff]
    rw [mem_coneNodes]
    refine and_iff_left_of_imp fun hk => ?_
    exact resident_of_reachable hg hseeds (reachableFrom_iff.mpr ⟨k, ((hlayer.layered v k).mp hk).2⟩)
  have hlisted : ∀ v, (∃ n ∈ coneEntries w, n.id = v) ↔ (c.depth[v]?).isSome = true := by
    intro v
    rw [Option.isSome_iff_exists]
    simp only [← hmem]
    exact ⟨fun ⟨n, hn, hv⟩ => ⟨n.depth, n, hn, hv, rfl⟩, fun ⟨_, n, hn, hv, _⟩ => ⟨n, hn, hv⟩⟩
  have hverdict : w.complete = true ↔
      (0 < horizon → ∀ v, ReachableFrom g.DependsOnLive (SeedSet seeds) v → ∃ n ∈ coneEntries w, n.id = v) := by
    rw [hcomplete, isEmpty_cutDeps hlayer]
    simp only [hlisted]
  constructor
  · intro hexact
    rcases Nat.eq_zero_or_pos horizon with rfl | hpos
    · -- The verdict is true, so that all that can be reached is at depth 0.
      have hall := hexact.complete.mp (hverdict.mpr nofun)
      refine .inr fun s hs v hstep => ?_
      obtain ⟨k, hk⟩ := Option.isSome_iff_exists.mp ((hlisted v).mp (hall v ⟨s, hs, .single hstep⟩))
      obtain ⟨hle, hdist⟩ := (hlayer.layered v k).mp hk
      rw [Nat.le_zero.mp hle] at hdist
      exact distanceFrom_zero_iff.mp hdist
    · exact .inl hpos
  · intro hcond
    refine ⟨?_, fun v k => (hmem v k).trans (hlayer.layered v k), ?_, hverdict.trans ?_⟩
    · exact ((hentries.map (·.id)).nodup_iff).mpr (g.nodup_coneNodes seeds c)
    · exact fun n hn => role_eq_seed_iff (hentries.mem_iff.mp hn)
    · rcases hcond with hpos | hclosed
      · exact ⟨fun h => h hpos, fun h _ => h⟩
      · refine iff_of_true (fun _ v hv => ?_) fun v hv => ?_
        all_goals
          have hseed := closed_of_step hclosed hv
          exact (hlisted v).mpr (Option.isSome_iff_exists.mpr
            ⟨0, (hlayer.layered v 0).mpr ⟨Nat.zero_le _, distanceFrom_zero_iff.mpr hseed⟩⟩)

/-- Without a horizon the entries are the seeds, and `complete` is true whatever the seeds depend on. -/
theorem coneExact_coneCore_iff {g : MemoryGraph F} (hg : g.NoDangling) (cfg : CausalFlashConfig F)
    {seeds : ExtTreeSet NodeId} (hseeds : g.LiveSeeds seeds) :
    g.ConeExact cfg.horizon seeds (g.coneCore cfg g.causalAdjacency seeds) ↔
      0 < cfg.horizon ∨ ∀ s ∈ seeds, ∀ v, g.DependsOnLive s v → v ∈ seeds := by
  have hlayer := atLayer_layers (clampDecay cfg.decay) cfg.horizon
    (g.atLayer_start seeds (seeds.toList.foldl (fun m s => m.insert s (lit 1)) ∅))
  rw [Nat.zero_add] at hlayer
  refine coneExact_iff_of_layer hg hseeds hlayer (coneEntries_perm ?_ cfg.maxNodes) rfl
  split
  · exact g.role_callerNodes _ _ _
  · nofun

/-- A function, the one it calls, and the one that one calls. -/
def callChain : MemoryGraph ℚ :=
  ofEdges ["a".toList, "b".toList, "c".toList] [("a".toList, "b".toList, .calls), ("b".toList, "c".toList, .calls)]

def chainConfig (horizon : Nat) : CausalFlashConfig ℚ :=
  { horizon, includeLowTrustSeeds := false, trustThreshold := 0, decay := 1 / 2, includeCallers := true
    maxNodes := some 1 }

theorem coneExact_one_call_deep : callChain.ConeExact 1 (callChain.liveSeeds ["a".toList])
    (callChain.coneCore (chainConfig 1) callChain.causalAdjacency (callChain.liveSeeds ["a".toList])) :=
  (coneExact_coneCore_iff (show callChain.NoDangling by unfold NoDangling; decide) (chainConfig 1)
    (callChain.liveSeeds_live ["a".toList])).mpr (.inl (by decide))

/-- With a horizon of 0 the window says that the closure is complete, and the callee is not in it. -/
theorem cone_complete_without_callee : ¬ callChain.ConeExact 0 (callChain.liveSeeds ["a".toList])
    (callChain.coneCore (chainConfig 0) callChain.causalAdjacency (callChain.liveSeeds ["a".toList])) := by
  intro h
  have hcomplete : (callChain.coneCore (chainConfig 0) callChain.causalAdjacency
      (callChain.liveSeeds ["a".toList])).complete = true := by decide
  have hseed : SeedSet (callChain.liveSeeds ["a".toList]) "a".toList :=
    show "a".toList ∈ callChain.liveSeeds ["a".toList] by decide
  have hstep : callChain.DependsOnLive "a".toList "b".toList := ⟨by decide, by decide⟩
  obtain ⟨n, hn, hid⟩ := h.complete.mp hcomplete "b".toList ⟨"a".toList, hseed, .single hstep⟩
  have hnone : ∀ n ∈ coneEntries (callChain.coneCore (chainConfig 0) callChain.causalAdjacency
      (callChain.liveSeeds ["a".toList])), n.id ≠ "b".toList := by decide
  exact hnone n hn hid

end MemoryGraph

end Ccos
