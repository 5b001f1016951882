import Ccos.Query.Walk

/-!
# Intervention and blame

Both follow the dependency edges in rounds and sum up the mass that arrives. `intervene` goes against
the edges and `blame` along them, and each severs the node it starts from.
-/

open Std Walks

set_option linter.unusedSectionVars false

namespace Ccos

def isDirectional : EdgeType → Bool
  | .calls | .dependsOn | .dataFlow => true
  | .contains | .references | .causes | .relatedTo | .supports | .contradicts => false

/-- The mass of each node in a round. -/
abbrev Mass (F : Type) := BTreeMap NodeId F

namespace MemoryGraph

variable {F : Type} [Scalar F]

open Scalar

/-- A node that is not there counts as an orphan. -/
def orphaned (g : MemoryGraph F) (id : NodeId) : Bool := ((g.nodes[id]?).map (·.state == .orphan)).getD true

def depEdges (g : MemoryGraph F) : List (GraphEdge F) :=
  sortBy (fun a b => (compare a.source b.source).then (compare a.target b.target))
    (g.edges.filter fun e => isDirectional e.edgeType && !g.orphaned e.source && !g.orphaned e.target)

/-- `*m.entry(id).or_insert(0.0) += x`. -/
def addMass (m : Mass F) (id : NodeId) (x : F) : Mass F := m.insert id ((m[id]?).getD (lit 0) + x)

/-- What one edge carries into the next round. -/
def driveAlong (d : Direction) (damping : F) (current next : Mass F) (e : GraphEdge F) : Mass F :=
  match current[(d.along e).1]? with
  | none => next
  | some mass =>
    let contrib := mass * e.weight * damping
    if gt contrib (lit 0) then addMass next (d.along e).2 contrib else next

/-- The round after `current`. The origin is never driven again. -/
def nextRound (d : Direction) (damping : F) (edges : List (GraphEdge F)) (origin : NodeId) (current : Mass F) : Mass F :=
  (edges.foldl (driveAlong d damping current) ∅).erase origin

def sumMass (total next : Mass F) : Mass F := next.toList.foldl (fun total x => addMass total x.1 x.2) total

def spreadRounds (d : Direction) (damping : F) (edges : List (GraphEdge F)) (origin : NodeId) :
    Nat → Mass F → Mass F → Mass F
  | 0, _, total => total
  | rounds + 1, current, total =>
    let next := nextRound d damping edges origin current
    if next.isEmpty then total else spreadRounds d damping edges origin rounds next (sumMass total next)

/-- Heaviest first, then by id. -/
def massOrder (a b : NodeId × F) : Ordering := ((partialCmp b.2 a.2).getD .eq).then (compare a.1 b.1)

/-- What `intervene` and `blame` share: they differ in the direction and the mass they start with. -/
def spread (g : MemoryGraph F) (d : Direction) (origin : NodeId) (mass damping : F) (maxDepth : Nat) : List (NodeId × F) :=
  if !g.nodes.contains origin then []
  else
    sortBy massOrder
      (spreadRounds d (clamp01 damping) g.depEdges origin maxDepth ((∅ : Mass F).insert origin mass) ∅).toList

def intervene (g : MemoryGraph F) (origin : NodeId) (magnitude damping : F) (maxDepth : Nat) : List (NodeId × F) :=
  g.spread .upstream origin (Scalar.max magnitude (lit 0)) damping maxDepth

def blame (g : MemoryGraph F) (origin : NodeId) (damping : F) (maxDepth : Nat) : List (NodeId × F) :=
  g.spread .downstream origin (lit 1) damping maxDepth

/-! ## The dependency relation -/

/-- Resident and no orphan. -/
def Live (g : MemoryGraph F) (id : NodeId) : Prop := ∃ n, g.nodes[id]? = some n ∧ n.state ≠ .orphan

/-- One dependency edge between live nodes. -/
def DependsOn (g : MemoryGraph F) (a b : NodeId) : Prop :=
  ∃ e ∈ g.edges, isDirectional e.edgeType = true ∧ e.source = a ∧ e.target = b ∧ g.Live a ∧ g.Live b

theorem orphaned_eq_false {g : MemoryGraph F} {id : NodeId} : g.orphaned id = false ↔ g.Live id := by
  unfold orphaned Live
  cases g.nodes[id]? with
  | none => simp
  | some n => simp

theorem mem_depEdges {g : MemoryGraph F} {e : GraphEdge F} :
    e ∈ g.depEdges ↔ e ∈ g.edges ∧ isDirectional e.edgeType = true ∧ g.Live e.source ∧ g.Live e.target := by
  unfold depEdges
  rw [mem_sortBy, List.mem_filter]
  simp only [Bool.and_eq_true, Bool.not_eq_true', orphaned_eq_false, and_assoc]

/-- A step of a round: along a dependency edge, and not into the origin. -/
def Driven (g : MemoryGraph F) (d : Direction) (origin a b : NodeId) : Prop :=
  (∃ e ∈ g.depEdges, d.along e = (a, b)) ∧ b ≠ origin

theorem driven_downstream {g : MemoryGraph F} {origin a b : NodeId} :
    g.Driven .downstream origin a b ↔ g.DependsOn a b ∧ b ≠ origin := by
  refine and_congr_left fun _ => ?_
  simp only [mem_depEdges, Direction.along, Prod.mk.injEq, DependsOn]
  constructor
  · rintro ⟨e, ⟨he, hty, hs, ht⟩, rfl, rfl⟩
    exact ⟨e, he, hty, rfl, rfl, hs, ht⟩
  · rintro ⟨e, he, hty, rfl, rfl, hs, ht⟩
    exact ⟨e, ⟨he, hty, hs, ht⟩, rfl, rfl⟩

theorem driven_upstream {g : MemoryGraph F} {origin a b : NodeId} :
    g.Driven .upstream origin a b ↔ g.DependsOn b a ∧ b ≠ origin := by
  refine and_congr_left fun _ => ?_
  simp only [mem_depEdges, Direction.along, Prod.mk.injEq, DependsOn]
  constructor
  · rintro ⟨e, ⟨he, hty, hs, ht⟩, rfl, rfl⟩
    exact ⟨e, he, hty, rfl, rfl, hs, ht⟩
  · rintro ⟨e, he, hty, rfl, rfl, hs, ht⟩
    exact ⟨e, ⟨he, hty, hs, ht⟩, rfl, rfl⟩

/-! ## One round, in exact arithmetic -/

section Exact

/-- Every mass is above zero. -/
def AllPos (m : Mass ℚ) : Prop := ∀ (id : NodeId) (x : ℚ), m[id]? = some x → 0 < x

theorem allPos_empty : AllPos ∅ := by simp [AllPos]

theorem mem_addMass {m : Mass F} {id k : NodeId} {x : F} : k ∈ addMass m id x ↔ k = id ∨ k ∈ m := mem_insert_iff

theorem AllPos.addMass {m : Mass ℚ} (h : AllPos m) (id : NodeId) {x : ℚ} (hx : 0 < x) : AllPos (addMass m id x) := by
  intro k y hy
  unfold MemoryGraph.addMass at hy
  rw [getElem?_insert_eq] at hy
  split at hy
  · obtain rfl := Option.some.inj hy
    cases hm : m[id]? with
    | none => simpa [lit] using hx
    | some z => exact add_pos (h id z hm) hx
  · exact h k y hy

variable {d : Direction} {damping : ℚ} {current : Mass ℚ}

theorem driveAlong_exact (hdamping : 0 < damping) (hcurrent : AllPos current) {next : Mass ℚ} (hnext : AllPos next)
    {e : GraphEdge ℚ} (he : 0 < e.weight) : AllPos (driveAlong d damping current next e) ∧
      ∀ k, k ∈ driveAlong d damping current next e ↔ k ∈ next ∨ ((d.along e).1 ∈ current ∧ (d.along e).2 = k) := by
  unfold driveAlong
  cases hfrom : current[(d.along e).1]? with
  | none =>
    have hout : (d.along e).1 ∉ current := by
      rw [ExtTreeMap.mem_iff_isSome_getElem?, hfrom]
      exact Bool.false_ne_true
    exact ⟨hnext, fun k => by simp [hout]⟩
  | some mass =>
    have hin : (d.along e).1 ∈ current := by rw [ExtTreeMap.mem_iff_isSome_getElem?, hfrom]; rfl
    have hpos : 0 < mass * e.weight * damping := mul_pos (mul_pos (hcurrent _ _ hfrom) he) hdamping
    dsimp only
    rw [gt_rat, if_pos (by simpa [lit] using hpos)]
    refine ⟨hnext.addMass _ hpos, fun k => ?_⟩
    rw [mem_addMass, or_comm, and_iff_right hin, eq_comm]

theorem foldl_driveAlong (hdamping : 0 < damping) (hcurrent : AllPos current) (edges : List (GraphEdge ℚ))
    (hedges : ∀ e ∈ edges, 0 < e.weight) {next : Mass ℚ} (hnext : AllPos next) :
    AllPos (edges.foldl (driveAlong d damping current) next) ∧
      ∀ k, k ∈ edges.foldl (driveAlong d damping current) next ↔
        k ∈ next ∨ ∃ e ∈ edges, (d.along e).1 ∈ current ∧ (d.along e).2 = k := by
  induction edges generalizing next with
  | nil => exact ⟨hnext, by simp⟩
  | cons e edges ih =>
    obtain ⟨hpos, hmem⟩ := driveAlong_exact hdamping hcurrent hnext (hedges e List.mem_cons_self)
    obtain ⟨hpos', hmem'⟩ := ih (fun e he => hedges e (List.mem_cons_of_mem _ he)) hpos
    refine ⟨hpos', fun k => ?_⟩
    rw [List.foldl_cons, hmem', hmem, List.exists_mem_cons_iff, or_assoc]

/-- The next round reaches what one step from the current one reaches. -/
theorem nextRound_exact (hdamping : 0 < damping) (hcurrent : AllPos current) {edges : List (GraphEdge ℚ)}
    (hedges : ∀ e ∈ edges, 0 < e.weight) (origin : NodeId) :
    AllPos (nextRound d damping edges origin current) ∧
      ∀ k, k ∈ nextRound d damping edges origin current ↔
        ∃ a ∈ current, (∃ e ∈ edges, d.along e = (a, k)) ∧ k ≠ origin := by
  obtain ⟨hpos, hmem⟩ := foldl_driveAlong hdamping hcurrent edges hedges allPos_empty
  unfold nextRound
  constructor
  · intro k x hx
    rw [getElem?_erase_eq] at hx
    split at hx
    · exact absurd hx nofun
    · exact hpos k x hx
  · intro k
    rw [mem_erase_iff, hmem]
    constructor
    · rintro ⟨hne, hk | ⟨e, he, hfrom, rfl⟩⟩
      · exact absurd hk ExtTreeMap.not_mem_empty
      · exact ⟨_, hfrom, ⟨e, he, rfl⟩, hne⟩
    · rintro ⟨a, ha, ⟨e, he, hends⟩, hne⟩
      refine ⟨hne, Or.inr ⟨e, he, ?_, ?_⟩⟩
      · rwa [hends]
      · rw [hends]

theorem mem_sumMass {total next : Mass F} {k : NodeId} : k ∈ sumMass total next ↔ k ∈ total ∨ k ∈ next := by
  have hfold : ∀ (l : List (NodeId × F)) (total : Mass F),
      k ∈ l.foldl (fun total x => addMass total x.1 x.2) total ↔ k ∈ total ∨ ∃ x ∈ l, x.1 = k := by
    intro l
    induction l with
    | nil => simp
    | cons x l ih =>
      intro total
      rw [List.foldl_cons, ih, mem_addMass, List.exists_mem_cons_iff, eq_comm, or_comm (a := x.1 = k), or_assoc]
  have hkeys : k ∈ next ↔ ∃ x ∈ next.toList, x.1 = k := by
    rw [← ExtTreeMap.mem_keys, ← ExtTreeMap.map_fst_toList_eq_keys, List.mem_map]
  unfold sumMass
  rw [hfold, hkeys]

/-! ## All rounds -/

variable {R : NodeId → NodeId → Prop} {edges : List (GraphEdge ℚ)} {origin : NodeId}

/-- The rounds reach the ends of the walks of at least one and at most so many steps. -/
theorem mem_spreadRounds (hdamping : 0 < damping) (hedges : ∀ e ∈ edges, 0 < e.weight)
    (hR : ∀ a b, R a b ↔ (∃ e ∈ edges, d.along e = (a, b)) ∧ b ≠ origin) (rounds : Nat) (hcurrent : AllPos current)
    (total : Mass ℚ) (k : NodeId) : k ∈ spreadRounds d damping edges origin rounds current total ↔
      k ∈ total ∨ ∃ a ∈ current, ∃ n < rounds, Walk R (n + 1) a k := by
  induction rounds generalizing current total with
  | zero => simp [spreadRounds]
  | succ rounds ih =>
    obtain ⟨hpos, hnext⟩ := nextRound_exact (d := d) hdamping hcurrent hedges origin
    have hstep : ∀ b, b ∈ nextRound d damping edges origin current ↔ ∃ a ∈ current, R a b := fun b => by
      simp only [hnext, hR]
    unfold spreadRounds
    dsimp only
    split
    · rename_i hempty
      have hnone : ∀ b, b ∉ nextRound d damping edges origin current := by
        rw [ExtTreeMap.isEmpty_iff.mp hempty]
        exact fun b => ExtTreeMap.not_mem_empty
      refine ⟨Or.inl, ?_⟩
      rintro (hk | ⟨a, ha, n, -, hwalk⟩)
      · exact hk
      · obtain ⟨b, hb, -⟩ := hwalk.head
        exact absurd ((hstep b).mpr ⟨a, ha, hb⟩) (hnone b)
    · rw [ih hpos, mem_sumMass, or_assoc]
      refine or_congr_right ⟨?_, ?_⟩
      · rintro (hk | ⟨b, hb, n, hn, hwalk⟩)
        · obtain ⟨a, ha, hak⟩ := (hstep k).mp hk
          exact ⟨a, ha, 0, Nat.succ_pos _, (Walk.nil a).snoc hak⟩
        · obtain ⟨a, ha, hab⟩ := (hstep b).mp hb
          exact ⟨a, ha, n + 1, Nat.succ_lt_succ hn, hwalk.cons hab⟩
      · rintro ⟨a, ha, n, hn, hwalk⟩
        obtain ⟨b, hab, hrest⟩ := hwalk.head
        have hb := (hstep b).mpr ⟨a, ha, hab⟩
        cases n with
        | zero =>
          rw [Walk.zero_iff] at hrest
          exact Or.inl (hrest ▸ hb)
        | succ n => exact Or.inr ⟨b, hb, n, Nat.lt_of_succ_lt_succ hn, hrest⟩

/-- What a spread lists: the walks that do not come back to the origin. -/
theorem mem_spread {g : MemoryGraph ℚ} (hpos : ∀ e ∈ g.edges, isDirectional e.edgeType = true → 0 < e.weight) {mass : ℚ}
    (hmass : 0 < mass) (h0 : 0 < damping) (h1 : damping ≤ 1) (maxDepth : Nat) {origin k : NodeId} :
    k ∈ (g.spread d origin mass damping maxDepth).map (·.1) ↔
      origin ∈ g.nodes ∧ ∃ n < maxDepth, Walk (g.Driven d origin) (n + 1) origin k := by
  unfold spread
  by_cases horigin : origin ∈ g.nodes
  · have hclamp : clamp01 damping = damping := by
      unfold clamp01
      rw [lt_rat, gt_rat, if_neg, if_neg]
      · simpa [lit] using h1
      · simpa [lit] using h0.le
    have hstart : AllPos ((∅ : Mass ℚ).insert origin mass) := by
      intro id x hx
      rw [getElem?_insert_eq] at hx
      split at hx
      · exact Option.some.inj hx ▸ hmass
      · exact allPos_empty id x hx
    have hin : ¬ (!g.nodes.contains origin) = true := by simp [horigin]
    rw [if_neg hin, hclamp, ((perm_sortBy _ _).map _).mem_iff, ExtTreeMap.map_fst_toList_eq_keys, ExtTreeMap.mem_keys,
      mem_spreadRounds h0 (fun e he => hpos e (mem_depEdges.mp he).1 (mem_depEdges.mp he).2.1) (fun _ _ => Iff.rfl) maxDepth hstart]
    simp only [ExtTreeMap.not_mem_empty, false_or, horigin, true_and, mem_insert_iff, or_false, exists_eq_left]
    rfl
  · have hout : (!g.nodes.contains origin) = true := by
      rw [Bool.not_eq_true', ← Bool.not_eq_true, ExtTreeMap.contains_iff_mem]
      exact horigin
    rw [if_pos hout]
    simp [horigin]

end Exact

/-! ## The converse of each other -/

theorem not_walk_driven_self {g : MemoryGraph F} {d : Direction} {origin : NodeId} {n : Nat} :
    ¬ Walk (g.Driven d origin) (n + 1) origin origin := by
  intro h
  obtain ⟨b, -, hstep⟩ := Walk.succ_iff.mp h
  exact hstep.2 rfl

/-- Severing the origin loses no node: a walk that comes back to it has a shorter one that does not. -/
theorem walk_driven_iff {g : MemoryGraph F} {d : Direction} {R : NodeId → NodeId → Prop} {origin k : NodeId}
    (hR : ∀ a b, g.Driven d origin a b ↔ R a b ∧ b ≠ origin) (hne : origin ≠ k) (maxDepth : Nat) :
    (∃ n < maxDepth, Walk (g.Driven d origin) (n + 1) origin k) ↔ ∃ n ≤ maxDepth, Walk R n origin k := by
  constructor
  · rintro ⟨n, hn, hwalk⟩
    exact ⟨n + 1, hn, hwalk.mono fun a b hab => ((hR a b).mp hab).1⟩
  · rintro ⟨n, hn, hwalk⟩
    obtain ⟨j, hj, havoid⟩ := hwalk.avoid_start hne
    cases j with
    | zero => exact absurd (Walk.zero_iff.mp havoid) hne
    | succ j => exact ⟨j, by omega, havoid.mono fun a b hab => (hR a b).mpr hab⟩

/-- Both sides of the claim are one path of dependencies. -/
theorem intervene_blame_converse {g : MemoryGraph ℚ}
    (hpos : ∀ e ∈ g.edges, isDirectional e.edgeType = true → 0 < e.weight) {damping : ℚ} (h0 : 0 < damping)
    (h1 : damping ≤ 1) (maxDepth : Nat) :
    (∀ x, x ∉ (g.intervene x 1 damping maxDepth).map (·.1) ∧ x ∉ (g.blame x damping maxDepth).map (·.1)) ∧
    ∀ x y, g.Live x → g.Live y → x ≠ y →
      (y ∈ (g.intervene x 1 damping maxDepth).map (·.1) ↔ ∃ n ≤ maxDepth, Walk g.DependsOn n y x) ∧
      (x ∈ (g.blame y damping maxDepth).map (·.1) ↔ ∃ n ≤ maxDepth, Walk g.DependsOn n y x) := by
  have hmagnitude : Scalar.max (1 : ℚ) (lit 0) = 1 := by
    rw [max_rat]
    simp [lit]
  have hin : ∀ x : NodeId, g.Live x → x ∈ g.nodes := by
    rintro x ⟨n, hn, -⟩
    rw [ExtTreeMap.mem_iff_isSome_getElem?, hn]
    rfl
  unfold intervene blame
  rw [hmagnitude]
  refine ⟨fun x => ⟨?_, ?_⟩, fun x y hx hy hne => ⟨?_, ?_⟩⟩
  · rw [mem_spread hpos one_pos h0 h1]
    exact fun ⟨_, n, _, hwalk⟩ => not_walk_driven_self hwalk
  · rw [mem_spread hpos (show (0 : ℚ) < lit 1 by simp [lit]) h0 h1]
    exact fun ⟨_, n, _, hwalk⟩ => not_walk_driven_self hwalk
  · rw [mem_spread hpos one_pos h0 h1, and_iff_right (hin x hx),
      walk_driven_iff (R := flip g.DependsOn) (fun a b => driven_upstream) hne]
    simp only [Walk.reverse_iff]
  · rw [mem_spread hpos (show (0 : ℚ) < lit 1 by simp [lit]) h0 h1, and_iff_right (hin y hy),
      walk_driven_iff (R := g.DependsOn) (fun a b => driven_downstream) hne.symm]

/-- Two callers of each other, and what one of them reads. -/
def recursiveCalls : MemoryGraph ℚ :=
  ofEdges ["a".toList, "b".toList, "c".toList]
    [("a".toList, "b".toList, .calls), ("b".toList, "a".toList, .calls), ("b".toList, "c".toList, .dataFlow)]

theorem intervene_blame_converse_on_a_cycle :
    ("a".toList ∈ (recursiveCalls.intervene "c".toList 1 (1 / 2) 3).map (·.1) ↔
      ∃ n ≤ 3, Walk recursiveCalls.DependsOn n "a".toList "c".toList) ∧
    ("c".toList ∈ (recursiveCalls.blame "a".toList (1 / 2) 3).map (·.1) ↔
      ∃ n ≤ 3, Walk recursiveCalls.DependsOn n "a".toList "c".toList) :=
  (intervene_blame_converse (show ∀ e ∈ recursiveCalls.edges, _ by decide) (by norm_num) (by norm_num) 3).2 _ _
    (orphaned_eq_false.mp (by decide)) (orphaned_eq_false.mp (by decide)) (by decide)

end MemoryGraph

end Ccos
