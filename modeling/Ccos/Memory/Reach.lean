import Ccos.Memory.Facts
import Ccos.Query.Walk
import Ccos.Lib.RoundedArithmetic

/-!
# How far failure pressure goes

A propagation with `left` depths left presses nodes that are one to `left` edges away. The depth is tested on the
way in, so a propagation down to depth `d` has `d + 1` of them.
-/

open Std Walks

set_option linter.unusedSectionVars false

namespace Ccos

/-- A fold gets a property at one element and keeps it from there. -/
theorem foldl_of_mem {α β : Type} {f : β → α → β} {I Q : β → Prop} {l : List α} {a : α} (ha : a ∈ l)
    (inv : ∀ b, ∀ x ∈ l, I b → I (f b x)) (gets : ∀ b, I b → Q (f b a)) (keeps : ∀ b x, Q b → Q (f b x)) {b : β}
    (hb : I b) : Q (l.foldl f b) := by
  induction l generalizing b with
  | nil => exact absurd ha List.not_mem_nil
  | cons x l ih =>
    rw [List.foldl_cons]
    rcases List.mem_cons.mp ha with rfl | ha
    · exact List.foldlRecOn l f (motive := Q) (gets b hb) fun b hQ x _ => keeps b x hQ
    · exact ih ha (fun b y hy => inv b y (List.mem_cons_of_mem x hy)) (inv b x List.mem_cons_self hb)

/-- What pressure changes of a node. -/
def GraphNode.pressure {F : Type} (n : GraphNode F) : F × F × Nat := (n.failureRelevance, n.recency, n.lastAccessed)

namespace MemoryGraph

section Frame

variable {F : Type} [Scalar F]

open Scalar

theorem OnlyFields.linked {g g' : MemoryGraph F} (h : OnlyFields g g') : g'.Linked = g.Linked := by
  obtain ⟨_, rfl, -⟩ := h
  rfl

theorem mem_outEdges {g : MemoryGraph F} {origin : NodeId} {x : NodeId × F} (hx : x ∈ g.outEdges origin) :
    ∃ e ∈ g.edges, e.source = origin ∧ x = (e.target, e.weight) := by
  obtain ⟨e, he, rfl⟩ := List.mem_map.mp hx
  obtain ⟨hmem, hsource⟩ := List.mem_filter.mp he
  exact ⟨e, hmem, beq_iff_eq.mp hsource, rfl⟩

theorem getElem?_addPressure (g : MemoryGraph F) (id k : NodeId) (p : F) : (g.addPressure id p).nodes[k]? =
    if k = id then (g.nodes[k]?).map fun n =>
      { n with failureRelevance := clamp01 (n.failureRelevance + p), recency := lit 1, lastAccessed := g.clock }
    else g.nodes[k]? :=
  getElem?_modify_eq g.nodes id k _

/-- Nothing changes of a node that no walk of a length still allowed reaches. -/
theorem propagateFrom_reach (left : Nat) : ∀ (depth : Nat) (origin : NodeId) (g : MemoryGraph F) (k : NodeId),
    (∀ d < left, ¬ Walk g.Linked (d + 1) origin k) → (propagateFrom left depth origin g).nodes[k]? = g.nodes[k]? := by
  induction left with
  | zero => exact fun _ _ _ _ _ => rfl
  | succ left ih =>
    intro depth origin g k hk
    unfold propagateFrom
    refine (List.foldlRecOn _ _ (motive := fun g' => OnlyFields g g' ∧ g'.nodes[k]? = g.nodes[k]?)
      ⟨OnlyFields.refl g, rfl⟩ fun g' hg' target htarget => ?_).2
    obtain ⟨hfields, hsame⟩ := hg'
    obtain ⟨e, he, hsource, rfl⟩ := mem_outEdges htarget
    have hlink : g.Linked origin e.target := ⟨e, he, hsource, rfl⟩
    have hne : k ≠ e.target := by
      rintro rfl
      exact hk 0 (Nat.succ_pos left) ((Walk.nil origin).snoc hlink)
    have hpressed : ∀ p, OnlyFields g (g'.addPressure e.target p) ∧ (g'.addPressure e.target p).nodes[k]? = g.nodes[k]? := by
      intro p
      rw [getElem?_addPressure, if_neg hne]
      exact ⟨hfields.trans (addPressure_onlyFields g' e.target p), hsame⟩
    dsimp only
    split
    · refine ⟨(hpressed _).1.trans (propagateFrom_onlyFields _ _ _ _), (ih _ _ _ k fun d hd hwalk => ?_).trans (hpressed _).2⟩
      rw [(hpressed _).1.linked] at hwalk
      exact hk (d + 1) (Nat.succ_lt_succ hd) (hwalk.cons hlink)
    · exact hpressed _

/-- A failure signal, once its node is resident. -/
def signalled (g : MemoryGraph F) (id : NodeId) (depth : Nat) : MemoryGraph F :=
  (g.setFailureRelevance id (lit 0.95)).propagateFailure id 0 depth

theorem setFailureRelevance_onlyFields (g : MemoryGraph F) (id : NodeId) (relevance : F) :
    OnlyFields g (g.setFailureRelevance id relevance) := by
  refine ⟨_, rfl, fun k => ?_⟩
  rw [getElem?_modify_eq]
  split
  · rw [Option.map_map]
    rfl
  · rfl

theorem getElem?_setFailureRelevance (g : MemoryGraph F) (id k : NodeId) (relevance : F) :
    (g.setFailureRelevance id relevance).nodes[k]? =
      if k = id then (g.nodes[k]?).map fun n =>
        { n with failureRelevance := clamp01 relevance, recency := lit 1, lastAccessed := g.clock }
      else g.nodes[k]? :=
  getElem?_modify_eq g.nodes id k _

theorem signalled_onlyFields (g : MemoryGraph F) (id : NodeId) (depth : Nat) : OnlyFields g (g.signalled id depth) :=
  (setFailureRelevance_onlyFields g id _).trans (propagateFrom_onlyFields _ _ _ _)

/-- No resident node is one edge too far. -/
def NoneJustBeyond (g : MemoryGraph F) (id : NodeId) (depth : Nat) : Prop :=
  ∀ k ∈ g.nodes, ¬ Distance g.Linked id k (depth + 1)

theorem signalled_reach {g : MemoryGraph F} {id k : NodeId} {depth : Nat} (hbeyond : NoneJustBeyond g id depth)
    (hk : k ≠ id) (hfar : ∀ d ≤ depth, ¬ Walk g.Linked d id k) : (g.signalled id depth).nodes[k]? = g.nodes[k]? := by
  have hset : (g.setFailureRelevance id (lit 0.95)).nodes[k]? = g.nodes[k]? := by
    rw [getElem?_setFailureRelevance, if_neg hk]
  by_cases hres : k ∈ g.nodes
  · refine (propagateFrom_reach (depth + 1 - 0) 0 id _ k fun d hd hwalk => ?_).trans hset
    rw [(setFailureRelevance_onlyFields g id _).linked] at hwalk
    rcases Nat.lt_or_ge d depth with hlt | hge
    · exact hfar (d + 1) hlt hwalk
    · obtain rfl : d = depth := by omega
      exact hbeyond k hres ⟨hwalk, fun j hj => hfar j (by omega)⟩
  · have hgone : k ∉ (g.signalled id depth).nodes := fun hin => hres ((signalled_onlyFields g id depth).mem_nodes k |>.mp hin)
    rw [ExtTreeMap.getElem?_eq_none hres, ExtTreeMap.getElem?_eq_none hgone]

end Frame

/-! ## The values on the way -/

section Values

variable {F : Type} [Float64 F] [RoundedArithmetic F]

open Scalar RoundedArithmetic

/-- The numbers that a propagation multiplies. -/
structure FiniteNumbers (g : MemoryGraph F) : Prop where
  weights : ∀ e ∈ g.edges, Float64.isFinite e.weight = true
  decay : InUnit g.scoringWeights.failureDecay
  fanout : Float64.isFinite g.scoringWeights.failureFanout = true

def UnitRelevances (g : MemoryGraph F) : Prop :=
  ∀ (k : NodeId) n, g.nodes[k]? = some n → InUnit n.failureRelevance

/-- A stage of a propagation in `g`. -/
structure Within (g g' : MemoryGraph F) : Prop where
  fields : OnlyFields g g'
  unit : UnitRelevances g'

/-- What one edge adds to its target. -/
def IsPressure (g : MemoryGraph F) (p : F) : Prop :=
  ∃ base : F, ∃ e ∈ g.edges, ∃ depth degree, InUnit base ∧
    p = base * e.weight * powi g.scoringWeights.failureDecay depth * g.fanoutDamp degree

theorem FiniteNumbers.damp {g : MemoryGraph F} (hg : FiniteNumbers g) (degree : Nat) : InUnit (g.fanoutDamp degree) := by
  have hone : InUnit (lit 1 : F) := unit_lit zero_le_one le_rfl
  obtain ⟨hfan, -, hle⟩ := finite_max hg.fanout hone.finite
  obtain ⟨hmax, -, hdegree⟩ := finite_max (finite_ofNat (F := F) degree) hfan
  rw [lit_one] at hle
  unfold fanoutDamp
  obtain ⟨hfinite, hnonneg, hle'⟩ := div_unit _ _ hfan hmax hle hdegree
  exact unit_min_one ⟨hfinite, hnonneg, hle'⟩

theorem IsPressure.spec {g : MemoryGraph F} (hg : FiniteNumbers g) {p : F} (hp : IsPressure g p) :
    Float64.isFinite p = true ∧ ((∀ e ∈ g.edges, 0 ≤ value e.weight) → 0 ≤ value p) ∧
      ((∀ e ∈ g.edges, value e.weight ≤ 0) → value p ≤ 0) := by
  obtain ⟨base, e, he, depth, degree, hbase, rfl⟩ := hp
  have hdecay := hg.decay.powi depth
  have hdamp := hg.damp degree
  have hweight := hbase.mul (hg.weights e he)
  rw [mul_comm _ (g.fanoutDamp degree), mul_comm (base * e.weight)]
  have hdecayed := hdecay.mul hweight
  refine ⟨hdamp.mul hdecayed, fun hw => ?_, fun hw => ?_⟩
  · exact hdamp.mul_nonneg hdecayed (hdecay.mul_nonneg hweight (hbase.mul_nonneg (hg.weights e he) (hw e he)))
  · exact hdamp.mul_nonpos hdecayed (hdecay.mul_nonpos hweight (hbase.mul_nonpos (hg.weights e he) (hw e he)))

theorem IsPressure.of_onlyFields {g g' : MemoryGraph F} (h : OnlyFields g g') {p : F} (hp : IsPressure g' p) :
    IsPressure g p := by
  obtain ⟨_, rfl, -⟩ := h
  exact hp

/-- The pressure that an edge of the origin adds at a stage. -/
theorem Within.pressure {g g' : MemoryGraph F} (h : Within g g') {origin : NodeId} {x : NodeId × F}
    (hx : x ∈ g'.outEdges origin) (depth : Nat) : IsPressure g
      (((g'.nodes[origin]?).map (·.failureRelevance)).getD (lit 0) * x.2 *
        powi g'.scoringWeights.failureDecay depth * g'.fanoutDamp (g'.outEdges origin).length) := by
  obtain ⟨e, he, -, rfl⟩ := mem_outEdges hx
  refine IsPressure.of_onlyFields h.fields ⟨_, e, he, depth, _, ?_, rfl⟩
  cases hn : g'.nodes[origin]? with
  | none => exact unit_lit le_rfl zero_le_one
  | some n => exact h.unit origin n hn

/-- What every pressure keeps, propagation keeps, as long as the relevances stay in the unit interval. -/
theorem propagateFrom_induct_unit {g : MemoryGraph F} {P : MemoryGraph F → Prop} (hP : ∀ g', P g' → Within g g')
    (press : ∀ g' id p, P g' → IsPressure g p → P (g'.addPressure id p)) (left : Nat) :
    ∀ (depth : Nat) (origin : NodeId) (g' : MemoryGraph F), P g' → P (propagateFrom left depth origin g') := by
  induction left with
  | zero => exact fun _ _ _ hg => hg
  | succ left ih =>
    intro depth origin g' hg'
    unfold propagateFrom
    refine List.foldlRecOn _ _ (motive := P) hg' fun g'' hg'' target htarget => ?_
    have hpressed := press g'' target.1 _ hg'' ((hP g' hg').pressure htarget depth)
    dsimp only
    split
    · exact ih _ _ _ hpressed
    · exact hpressed

theorem UnitRelevances.addPressure {g : MemoryGraph F} (hg : UnitRelevances g) (id : NodeId) {p : F}
    (hp : Float64.isFinite p = true) : UnitRelevances (g.addPressure id p) := by
  intro k n hn
  rw [getElem?_addPressure] at hn
  split at hn
  · obtain ⟨m, hm, rfl⟩ := Option.map_eq_some_iff.mp hn
    have hrel := hg k m hm
    exact (unit_clamp01 (add_unit _ p hrel.finite hrel.nonneg hrel.le_one hp).1).1
  · exact hg k n hn

theorem unitRelevances_set {g : MemoryGraph F} {id : NodeId} (hg : ∀ k ≠ id, ∀ n, g.nodes[k]? = some n → InUnit n.failureRelevance) :
    UnitRelevances (g.setFailureRelevance id (lit 0.95)) := by
  intro k n hn
  rw [getElem?_setFailureRelevance] at hn
  split at hn
  · obtain ⟨m, -, rfl⟩ := Option.map_eq_some_iff.mp hn
    exact (unit_clamp01 (finite_lit (F := F) 0.95 (by norm_num) (by norm_num))).1
  · rename_i hk
    exact hg k hk n hn

theorem Within.set {g : MemoryGraph F} {id : NodeId} (hg : ∀ k ≠ id, ∀ n, g.nodes[k]? = some n → InUnit n.failureRelevance) :
    Within g (g.setFailureRelevance id (lit 0.95)) :=
  ⟨setFailureRelevance_onlyFields g id _, unitRelevances_set hg⟩

theorem Within.addPressure {g g' : MemoryGraph F} (h : Within g g') (hnum : FiniteNumbers g) (id : NodeId) {p : F}
    (hp : IsPressure g p) : Within g (g'.addPressure id p) :=
  ⟨h.fields.trans (addPressure_onlyFields g' id p), h.unit.addPressure id (hp.spec hnum).1⟩

theorem Within.propagateFrom {g g' : MemoryGraph F} (h : Within g g') (hnum : FiniteNumbers g) (left depth : Nat)
    (origin : NodeId) : Within g (propagateFrom left depth origin g') :=
  propagateFrom_induct_unit (g := g) (fun _ h => h) (fun _ id _ h hp => h.addPressure hnum id hp) left depth origin g' h

theorem unitRelevances_signalled {g : MemoryGraph F} (hnum : FiniteNumbers g) {id : NodeId} (depth : Nat)
    (hg : ∀ k ≠ id, ∀ n, g.nodes[k]? = some n → InUnit n.failureRelevance) : UnitRelevances (g.signalled id depth) :=
  ((Within.set hg).propagateFrom hnum _ _ _).unit

/-- No relevance of `g` is above the one in `g'`. -/
def NoneDecreases (g g' : MemoryGraph F) : Prop :=
  ∀ (k : NodeId) n n', g.nodes[k]? = some n → g'.nodes[k]? = some n' → value n.failureRelevance ≤ value n'.failureRelevance

theorem NoneDecreases.addPressure {g g' : MemoryGraph F} (h : NoneDecreases g g') (hunit : UnitRelevances g') (id : NodeId)
    {p : F} (hp : Float64.isFinite p = true) (hnonneg : 0 ≤ value p) : NoneDecreases g (g'.addPressure id p) := by
  intro k n n' hn hn'
  rw [getElem?_addPressure] at hn'
  split at hn'
  · obtain ⟨m, hm, rfl⟩ := Option.map_eq_some_iff.mp hn'
    have hrel := hunit k m hm
    obtain ⟨hfinite, hgrows, -⟩ := add_unit _ p hrel.finite hrel.nonneg hrel.le_one hp
    have hle := h k n m hn hm
    exact (unit_clamp01 hfinite).2.1 _ (hle.trans hrel.le_one) (hle.trans (hgrows hnonneg))
  · exact h k n n' hn hn'

/-- The node does not start above the relevance that it is set to. -/
def NotAboveSeverity (g : MemoryGraph F) (id : NodeId) : Prop :=
  ∀ n, g.nodes[id]? = some n → value n.failureRelevance ≤ value (lit 0.95 : F)

theorem noneDecreases_set {g : MemoryGraph F} {id : NodeId} (hlow : NotAboveSeverity g id) :
    NoneDecreases g (g.setFailureRelevance id (lit 0.95)) := by
  have hseverity : InUnit (lit 0.95 : F) := unit_lit (by norm_num) (by norm_num)
  intro k n n' hn hn'
  rw [getElem?_setFailureRelevance] at hn'
  split at hn'
  · rename_i hk
    subst hk
    obtain ⟨m, -, rfl⟩ := Option.map_eq_some_iff.mp hn'
    exact (unit_clamp01 hseverity.finite).2.1 _ ((hlow n hn).trans hseverity.le_one) (hlow n hn)
  · rw [hn] at hn'
    cases hn'
    exact le_rfl

theorem noneDecreases_signalled {g : MemoryGraph F} (hnum : FiniteNumbers g) {id : NodeId} (depth : Nat)
    (hunit : ∀ k ≠ id, ∀ n, g.nodes[k]? = some n → InUnit n.failureRelevance) (hlow : NotAboveSeverity g id)
    (hweights : ∀ e ∈ g.edges, 0 ≤ value e.weight) : NoneDecreases g (g.signalled id depth) := by
  refine (propagateFrom_induct_unit (g := g) (P := fun g' => Within g g' ∧ NoneDecreases g g') (fun _ h => h.1)
    (fun g' target p hg' hp => ?_) _ _ _ _ ⟨.set hunit, noneDecreases_set hlow⟩).2
  obtain ⟨hfinite, hnonneg, -⟩ := hp.spec hnum
  exact ⟨hg'.1.addPressure hnum target hp, hg'.2.addPressure hg'.1.unit target hfinite (hnonneg hweights)⟩

/-! ## Where it goes too far -/

/-- The same resident nodes, the same edges up to their weights, and the same relevance of one node. -/
structure SameShape (g g' : MemoryGraph F) (id : NodeId) : Prop where
  nodes : ∀ k : NodeId, k ∈ g'.nodes ↔ k ∈ g.nodes
  edges : g'.edges.map (fun e => (e.source, e.target, e.edgeType)) = g.edges.map fun e => (e.source, e.target, e.edgeType)
  relevance : (g'.nodes[id]?).map (·.failureRelevance) = (g.nodes[id]?).map (·.failureRelevance)

/-- No weight, no recency, no relevance but that of one node, and a floor below every pressure. -/
def flattened (g : MemoryGraph F) (id : NodeId) : MemoryGraph F :=
  { g with
    nodes := g.nodes.map fun k n =>
      { n with failureRelevance := if k = id then n.failureRelevance else lit 0, recency := lit 0 }
    edges := g.edges.map fun e => { e with weight := lit 0 }
    scoringWeights := { g.scoringWeights with failureDecay := lit 1, failureFanout := lit 1 }
    pagingThreshold := lit (-1) }

theorem getElem?_flattened (g : MemoryGraph F) (id k : NodeId) : (g.flattened id).nodes[k]? =
    (g.nodes[k]?).map fun n =>
      { n with failureRelevance := if k = id then n.failureRelevance else lit 0, recency := lit 0 } := by
  unfold flattened
  rw [ExtTreeMap.getElem?_map]

theorem flattened_sameShape (g : MemoryGraph F) (id : NodeId) : SameShape g (g.flattened id) id where
  nodes k := by
    unfold flattened
    exact ExtTreeMap.mem_map
  edges := by
    unfold flattened
    rw [List.map_map]
    rfl
  relevance := by
    rw [getElem?_flattened, Option.map_map]
    refine congrArg (Option.map · _) (funext fun n => ?_)
    exact if_pos rfl

theorem flattened_linked (g : MemoryGraph F) (id : NodeId) : (g.flattened id).Linked = g.Linked := by
  funext a b
  unfold Linked flattened
  simp

theorem flattened_numbers (g : MemoryGraph F) (id : NodeId) : FiniteNumbers (g.flattened id) where
  weights e he := by
    obtain ⟨e', -, rfl⟩ := List.mem_map.mp he
    exact finite_lit 0 (by norm_num) (by norm_num)
  decay := unit_lit zero_le_one le_rfl
  fanout := finite_lit 1 (by norm_num) le_rfl

theorem flattened_weight {g : MemoryGraph F} {id : NodeId} {e : GraphEdge F} (he : e ∈ (g.flattened id).edges) :
    value e.weight = 0 := by
  obtain ⟨e', -, rfl⟩ := List.mem_map.mp he
  exact lit_zero

theorem flattened_unit {g : MemoryGraph F} {id : NodeId} {n : GraphNode F} (hn : g.nodes[id]? = some n)
    (hunit : InUnit n.failureRelevance) : UnitRelevances (g.flattened id) := by
  intro k n' hn'
  rw [getElem?_flattened] at hn'
  obtain ⟨m, hm, rfl⟩ := Option.map_eq_some_iff.mp hn'
  dsimp only
  split
  · rename_i hk
    subst hk
    rw [hn] at hm
    cases hm
    exact hunit
  · exact unit_lit le_rfl zero_le_one

/-- Pressed nodes are fresh. -/
def Fresh (k : NodeId) (g : MemoryGraph F) : Prop := ∀ n, g.nodes[k]? = some n → n.recency = lit 1

theorem Fresh.addPressure {g : MemoryGraph F} {k : NodeId} (hg : Fresh k g) (id : NodeId) (p : F) :
    Fresh k (g.addPressure id p) := by
  intro n hn
  rw [getElem?_addPressure] at hn
  split at hn
  · obtain ⟨m, -, rfl⟩ := Option.map_eq_some_iff.mp hn
    rfl
  · exact hg n hn

theorem fresh_addPressure (g : MemoryGraph F) (k : NodeId) (p : F) : Fresh k (g.addPressure k p) := by
  intro n hn
  rw [getElem?_addPressure, if_pos rfl] at hn
  obtain ⟨m, -, rfl⟩ := Option.map_eq_some_iff.mp hn
  rfl

theorem Fresh.propagateFrom {g : MemoryGraph F} {k : NodeId} (hg : Fresh k g) (left depth : Nat) (origin : NodeId) :
    Fresh k (propagateFrom left depth origin g) :=
  propagateFrom_induct (P := Fresh k) (fun _ id p h => h.addPressure id p) left depth origin g hg

/-- When every pressure is above the floor, every node within the depths left is pressed. -/
theorem propagateFrom_presses {g : MemoryGraph F} (hnum : FiniteNumbers g)
    (hrelay : ∀ p, IsPressure g p → gt p g.pagingThreshold = true) (left : Nat) :
    ∀ (depth : Nat) (origin : NodeId) (g' : MemoryGraph F), Within g g' →
      ∀ (k : NodeId), ∀ d < left, Walk g.Linked (d + 1) origin k → Fresh k (propagateFrom left depth origin g') := by
  induction left with
  | zero => exact fun _ _ _ _ _ _ hd _ => absurd hd (Nat.not_lt_zero _)
  | succ left ih =>
    intro depth origin g' hwithin k d hd hwalk
    obtain ⟨b, hlink, hrest⟩ := hwalk.head
    rw [← hwithin.fields.linked] at hlink
    obtain ⟨e, he, hsource, htarget⟩ := hlink
    have hmem : (b, e.weight) ∈ g'.outEdges origin := by
      unfold outEdges
      exact List.mem_map.mpr ⟨e, List.mem_filter.mpr ⟨he, beq_iff_eq.mpr hsource⟩, by rw [htarget]⟩
    have hfloor : g'.pagingThreshold = g.pagingThreshold := by
      obtain ⟨_, rfl, -⟩ := hwithin.fields
      rfl
    unfold MemoryGraph.propagateFrom
    refine foldl_of_mem (I := Within g) hmem (fun g'' x hx hg'' => ?_) (fun g'' hg'' => ?_)
      (fun g'' x hfresh => ?_) hwithin
    · have hpressed := hg''.addPressure hnum x.1 (hwithin.pressure hx depth)
      dsimp only
      split
      · exact hpressed.propagateFrom hnum _ _ _
      · exact hpressed
    · dsimp only
      rw [hfloor, if_pos (hrelay _ (hwithin.pressure hmem depth))]
      cases d with
      | zero =>
        rw [Walk.zero_iff] at hrest
        subst hrest
        exact (fresh_addPressure g'' b _).propagateFrom _ _ _
      | succ d =>
        exact ih _ _ _ (hg''.addPressure hnum b (hwithin.pressure hmem depth)) k d (Nat.lt_of_succ_lt_succ hd) hrest
    · dsimp only
      split
      · exact (hfresh.addPressure _ _).propagateFrom _ _ _
      · exact hfresh.addPressure _ _

/-- Flattened, a node one edge too far is pressed. -/
theorem flattened_presses {g : MemoryGraph F} {id k : NodeId} {depth : Nat} {n : GraphNode F}
    (hn : g.nodes[id]? = some n) (hunit : InUnit n.failureRelevance) (hk : Walk g.Linked (depth + 1) id k) :
    Fresh k ((g.flattened id).signalled id depth) := by
  have hnum := flattened_numbers g id
  refine propagateFrom_presses hnum (fun p hp => ?_) (depth + 1 - 0) 0 id _
    (.set fun j _ m hm => flattened_unit hn hunit j m hm) k depth (Nat.lt_succ_self depth) ?_
  · obtain ⟨hfinite, hnonneg, -⟩ := hp.spec hnum
    have hp0 := hnonneg fun e he => (flattened_weight he).ge
    rw [show (g.flattened id).pagingThreshold = lit (-1) from rfl, gt_eq hfinite (finite_lit (-1) le_rfl (by norm_num)),
      lit_neg_one]
    exact decide_eq_true (by linarith)
  · rw [flattened_linked]
    exact hk

/-- Flattened, nothing raises a node that was set back. -/
theorem flattened_stays {g : MemoryGraph F} {id : NodeId} {n : GraphNode F} (hn : g.nodes[id]? = some n)
    (hunit : InUnit n.failureRelevance) (depth : Nat) {n' : GraphNode F}
    (hn' : ((g.flattened id).signalled id depth).nodes[id]? = some n') :
    value n'.failureRelevance ≤ value (lit 0.95 : F) := by
  have hnum := flattened_numbers g id
  have hseverity : InUnit (lit 0.95 : F) := unit_lit (by norm_num) (by norm_num)
  refine (propagateFrom_induct_unit (g := g.flattened id)
    (P := fun g' => Within (g.flattened id) g' ∧
      ∀ m, g'.nodes[id]? = some m → value m.failureRelevance ≤ value (lit 0.95 : F))
    (fun _ h => h.1) (fun g' target p hg' hp => ?_) _ _ _ _
    ⟨.set fun j _ m hm => flattened_unit hn hunit j m hm, fun m hm => ?_⟩).2 n' hn'
  · obtain ⟨hfinite, -, hnonpos⟩ := hp.spec hnum
    refine ⟨hg'.1.addPressure hnum target hp, fun m hm => ?_⟩
    rw [getElem?_addPressure] at hm
    split at hm
    · obtain ⟨m', hm', rfl⟩ := Option.map_eq_some_iff.mp hm
      have hrel := hg'.1.unit id m' hm'
      obtain ⟨hsum, -, hle⟩ := add_unit _ p hrel.finite hrel.nonneg hrel.le_one hfinite
      exact (unit_clamp01 hsum).2.2 _ hseverity.nonneg
        ((hle (hnonpos fun e he => (flattened_weight he).le)).trans (hg'.2 m' hm'))
    · exact hg'.2 m hm
  · rw [getElem?_setFailureRelevance, if_pos rfl] at hm
    obtain ⟨m', -, rfl⟩ := Option.map_eq_some_iff.mp hm
    exact (unit_clamp01 hseverity.finite).2.2 _ hseverity.nonneg le_rfl

end Values

end MemoryGraph

end Ccos
