import Ccos.Memory.Facts
import Ccos.Lib.Walks
import Ccos.Lib.CycleSearch

/-!
# Edges as a directed graph

The walks of the queries read the edges through a map from a node to the sorted list of its neighbours.
-/

open Std

namespace Ccos

section Grouping

variable {α β γ : Type} [Ord α] [TransOrd α] [LawfulEqOrd α] [DecidableEq α]

/-- What a fold of `entry(..).or_default().push(..)` leaves under a key. -/
theorem getElem?_foldl_pushAt (key : γ → α) (val : γ → β) (l : List γ) (m : BTreeMap α (List β)) (k : α) :
    ((l.foldl (fun m e => pushAt m (key e) (val e)) m)[k]?).getD [] =
      (m[k]?).getD [] ++ (l.filter fun e => decide (key e = k)).map val := by
  induction l generalizing m with
  | nil => simp
  | cons e l ih =>
    rw [List.foldl_cons, ih, List.filter_cons]
    unfold pushAt
    rw [getElem?_insert_eq]
    by_cases hk : key e = k
    · simp [hk]
    · rw [if_neg fun heq => hk heq.symm, if_neg (by simpa using hk)]

theorem mem_foldl_pushAt (key : γ → α) (val : γ → β) (l : List γ) (m : BTreeMap α (List β)) (k : α) :
    k ∈ l.foldl (fun m e => pushAt m (key e) (val e)) m ↔ k ∈ m ∨ ∃ e ∈ l, key e = k := by
  induction l generalizing m with
  | nil => simp
  | cons e l ih =>
    rw [List.foldl_cons, ih, List.exists_mem_cons_iff, pushAt, mem_insert_iff, or_comm (a := k = key e), or_assoc,
      eq_comm (a := k)]

end Grouping

/-- The direction of a walk over the edges. -/
inductive Direction
  | downstream | upstream
  deriving DecidableEq, Repr

variable {F : Type}

namespace Direction

/-- The two ends of an edge, in the order of the walk. -/
def along (d : Direction) (e : GraphEdge F) : NodeId × NodeId :=
  match d with
  | .downstream => (e.source, e.target)
  | .upstream => (e.target, e.source)

end Direction

namespace MemoryGraph

def adjacency (g : MemoryGraph F) (d : Direction) : BTreeMap NodeId (List NodeId) :=
  (g.edges.foldl (fun m e => pushAt m (d.along e).1 (d.along e).2) ∅).map fun _ v => sortDedup v

/-- The neighbours of a node, without repetition. -/
def neighbours (adj : BTreeMap NodeId (List NodeId)) (id : NodeId) : List NodeId := (adj[id]?).getD []

/-- One edge, from its source to its target. -/
def Linked (g : MemoryGraph F) (a b : NodeId) : Prop := ∃ e ∈ g.edges, e.source = a ∧ e.target = b

def LinkedAlong (g : MemoryGraph F) (d : Direction) (a b : NodeId) : Prop := ∃ e ∈ g.edges, d.along e = (a, b)

theorem linkedAlong_downstream (g : MemoryGraph F) : g.LinkedAlong .downstream = g.Linked := by
  funext a b
  simp [LinkedAlong, Linked, Direction.along]

theorem linkedAlong_upstream (g : MemoryGraph F) : g.LinkedAlong .upstream = flip g.Linked := by
  funext a b
  simp [LinkedAlong, Linked, Direction.along, flip, and_comm]

theorem mem_neighbours (g : MemoryGraph F) (d : Direction) (a b : NodeId) :
    b ∈ neighbours (g.adjacency d) a ↔ g.LinkedAlong d a b := by
  have hgroup := getElem?_foldl_pushAt (fun e : GraphEdge F => (d.along e).1) (fun e => (d.along e).2) g.edges ∅ a
  rw [ExtTreeMap.getElem?_empty, Option.getD_none, List.nil_append] at hgroup
  unfold neighbours adjacency LinkedAlong
  rw [ExtTreeMap.getElem?_map]
  generalize (g.edges.foldl (fun m e => pushAt m (d.along e).1 (d.along e).2) ∅)[a]? = found at hgroup ⊢
  have hmem : b ∈ (found.map sortDedup).getD [] ↔ b ∈ found.getD [] := by
    cases found with
    | none => rfl
    | some v => exact mem_sortDedup
  rw [hmem, hgroup]
  simp [Prod.ext_iff, and_assoc]

/-- A graph for concrete runs: plain nodes, and edges of weight one. -/
def ofEdges (ids : List Str) (edges : List (Str × Str × EdgeType)) : MemoryGraph ℚ :=
  let plain (id : Str) : GraphNode ℚ :=
    { id, label := id, content := id, nodeType := .symbol, baseImportance := 1 / 2, failureRelevance := 0, recency := 1
      accessCount := 1, createdAt := 0, lastAccessed := 0, state := .stable, trust := 1 }
  { MemoryGraph.new (1 / 5 : ℚ) 100 with
    nodes := ids.foldl (fun m id => m.insert id (plain id)) ∅
    edges := edges.map fun (s, t, ty) => ⟨s, t, 1, ty, 0⟩ }

end MemoryGraph

end Ccos

/-! ## Dependency cycles -/

open Std Relation

set_option linter.unusedSectionVars false

namespace Ccos.MemoryGraph

variable {F : Type}

/-- Every resident node has an entry, and only edges between resident nodes count. -/
def residentAdjacency (g : MemoryGraph F) : BTreeMap NodeId (List NodeId) :=
  ((g.edges.filter g.hasEnds).foldl (fun m e => pushAt m e.source e.target) (g.nodes.map fun _ _ => [])).map
    fun _ v => sortDedup v

/-- A node is entered once, with one turn for each of its children and one to leave it. -/
def findCycles (g : MemoryGraph F) : List (List NodeId) :=
  CycleSearch.search (neighbours g.residentAdjacency) (g.nodes.size * (g.edges.length + 1)) g.residentAdjacency.keys

/-- One edge between resident nodes. -/
def ResidentLink (g : MemoryGraph F) (a b : NodeId) : Prop :=
  ∃ e ∈ g.edges, e.source = a ∧ e.target = b ∧ a ∈ g.nodes ∧ b ∈ g.nodes

theorem hasEnds_iff {g : MemoryGraph F} {e : GraphEdge F} :
    g.hasEnds e = true ↔ e.source ∈ g.nodes ∧ e.target ∈ g.nodes := by
  unfold hasEnds
  rw [Bool.and_eq_true, ExtTreeMap.contains_iff_mem, ExtTreeMap.contains_iff_mem]

theorem mem_residentAdjacency {g : MemoryGraph F} {k : NodeId} : k ∈ g.residentAdjacency ↔ k ∈ g.nodes := by
  unfold residentAdjacency
  rw [ExtTreeMap.mem_map, mem_foldl_pushAt, ExtTreeMap.mem_map]
  refine ⟨?_, Or.inl⟩
  rintro (hk | ⟨e, he, rfl⟩)
  · exact hk
  · exact (hasEnds_iff.mp (List.mem_filter.mp he).2).1

/-- The entry of a node before it is sorted. -/
def residentTargets (g : MemoryGraph F) (a : NodeId) : List NodeId :=
  ((g.edges.filter g.hasEnds).filter fun e => decide (e.source = a)).map (·.target)

theorem neighbours_residentAdjacency (g : MemoryGraph F) (a : NodeId) :
    neighbours g.residentAdjacency a = sortDedup (g.residentTargets a) := by
  have hgroup := getElem?_foldl_pushAt (fun e : GraphEdge F => e.source) (fun e => e.target) (g.edges.filter g.hasEnds)
    (g.nodes.map fun _ _ => []) a
  have hstart : ((g.nodes.map fun _ _ => ([] : List NodeId))[a]?).getD [] = [] := by
    rw [ExtTreeMap.getElem?_map]
    cases g.nodes[a]? <;> rfl
  rw [hstart, List.nil_append] at hgroup
  unfold neighbours residentAdjacency residentTargets
  rw [ExtTreeMap.getElem?_map, ← hgroup]
  cases ((g.edges.filter g.hasEnds).foldl (fun m e => pushAt m e.source e.target) (g.nodes.map fun _ _ => []))[a]? <;> rfl

theorem residentLink_iff (g : MemoryGraph F) (a b : NodeId) :
    b ∈ neighbours g.residentAdjacency a ↔ g.ResidentLink a b := by
  rw [neighbours_residentAdjacency, mem_sortDedup]
  unfold residentTargets ResidentLink
  simp only [List.mem_map, List.mem_filter, hasEnds_iff, decide_eq_true_eq]
  constructor
  · rintro ⟨e, ⟨⟨he, hs, ht⟩, rfl⟩, rfl⟩
    exact ⟨e, he, rfl, rfl, hs, ht⟩
  · rintro ⟨e, he, rfl, rfl, hs, ht⟩
    exact ⟨e, ⟨⟨he, hs, ht⟩, rfl⟩, rfl⟩

theorem length_neighbours_le (g : MemoryGraph F) (a : NodeId) :
    (neighbours g.residentAdjacency a).length ≤ g.edges.length := by
  rw [neighbours_residentAdjacency]
  refine (length_sortDedup_le _).trans ?_
  unfold residentTargets
  rw [List.length_map]
  exact (List.length_filter_le _ _).trans (List.length_filter_le _ _)

/-- The turns that the search needs. -/
theorem sum_neighbours_le (g : MemoryGraph F) :
    ∑ v ∈ g.nodes.keys.toFinset, ((neighbours g.residentAdjacency v).length + 1) ≤ g.nodes.size * (g.edges.length + 1) := by
  have hcard : g.nodes.keys.toFinset.card ≤ g.nodes.size := by
    refine (List.toFinset_card_le _).trans ?_
    rw [ExtTreeMap.length_keys]
  calc ∑ v ∈ g.nodes.keys.toFinset, ((neighbours g.residentAdjacency v).length + 1)
      ≤ g.nodes.keys.toFinset.card * (g.edges.length + 1) :=
        Finset.sum_le_card_nsmul _ _ _ fun v _ => Nat.succ_le_succ (g.length_neighbours_le v)
    _ ≤ g.nodes.size * (g.edges.length + 1) := Nat.mul_le_mul_right _ hcard

/-- Every list found is a cycle of resident edges, and none is found only if there is none. -/
theorem findCycles_sound_and_complete (g : MemoryGraph F) :
    (∀ c ∈ g.findCycles, (∀ id ∈ c, id ∈ g.nodes) ∧ CycleSearch.IsCycle g.ResidentLink c) ∧
    (g.findCycles = [] ↔ ¬ ∃ id, TransGen g.ResidentLink id id) := by
  have hlinked : (fun a b => b ∈ neighbours g.residentAdjacency a) = g.ResidentLink := by
    funext a b
    exact propext (g.residentLink_iff a b)
  have hkeys : ∀ v, v ∈ g.residentAdjacency.keys ↔ v ∈ g.nodes.keys.toFinset := by
    intro v
    rw [ExtTreeMap.mem_keys, mem_residentAdjacency, List.mem_toFinset, ExtTreeMap.mem_keys]
  have hends : ∀ a, ∀ b ∈ neighbours g.residentAdjacency a,
      a ∈ g.nodes.keys.toFinset ∧ b ∈ g.nodes.keys.toFinset := by
    intro a b hb
    obtain ⟨e, -, -, -, ha, hb⟩ := (g.residentLink_iff a b).mp hb
    simp only [List.mem_toFinset, ExtTreeMap.mem_keys]
    exact ⟨ha, hb⟩
  have hspec := CycleSearch.search_spec hends g.sum_neighbours_le hkeys
  rw [hlinked] at hspec
  exact ⟨fun c hc => ⟨(hspec.1 c hc).forall_mem fun a b ⟨_, _, _, _, ha, _⟩ => ha, hspec.1 c hc⟩, hspec.2⟩

end Ccos.MemoryGraph

/-! ## Causal walks -/

open Std Walks

set_option linter.unusedSectionVars false

namespace Ccos

structure Reached (F : Type) where
  id : NodeId
  distance : Nat
  score : F
  deriving DecidableEq, Repr

namespace MemoryGraph

variable {F : Type} [Scalar F]

open Scalar

/-- Nearest first, then the highest score, then the id. -/
def reachedOrder (a b : Reached F) : Ordering :=
  (compare a.distance b.distance).then
    (((partialCmp b.score a.score).getD .eq).then (compare a.id b.id))

/-- What a walk records of a node. -/
def reached (g : MemoryGraph F) (x : NodeId × Nat) : Reached F where
  id := x.1
  distance := x.2
  score := ((g.nodes[x.1]?).map g.computeNodeScore).getD (lit 0)

/-- Every turn of the loop takes a node off the queue: the origin, or the end of an edge. -/
def walk (g : MemoryGraph F) (origin : NodeId) (maxDepth : Nat) (direction : Direction) : List (Reached F) :=
  if !g.nodes.contains origin then []
  else
    let found := BreadthFirst.search (neighbours (g.adjacency direction)) maxDepth (g.edges.length + 1) origin
    sortBy reachedOrder (found.map g.reached)

def impactSet (g : MemoryGraph F) (origin : NodeId) (maxDepth : Nat) : List (Reached F) :=
  g.walk origin maxDepth .downstream

def sourceSet (g : MemoryGraph F) (origin : NodeId) (maxDepth : Nat) : List (Reached F) :=
  g.walk origin maxDepth .upstream

/-! ## One walk -/

/-- The nodes a walk from `origin` can get to. -/
def walkEnds (g : MemoryGraph F) (direction : Direction) (origin : NodeId) : Finset NodeId :=
  (origin :: g.edges.map fun e => (direction.along e).2).toFinset

theorem card_walkEnds (g : MemoryGraph F) (direction : Direction) (origin : NodeId) :
    (g.walkEnds direction origin).card ≤ g.edges.length + 1 := by
  refine (List.toFinset_card_le _).trans ?_
  simp

theorem neighbours_walkEnds (g : MemoryGraph F) (direction : Direction) (origin a b : NodeId)
    (hb : b ∈ neighbours (g.adjacency direction) a) : b ∈ g.walkEnds direction origin := by
  obtain ⟨e, he, hends⟩ := (g.mem_neighbours direction a b).mp hb
  refine List.mem_toFinset.mpr (List.mem_cons_of_mem _ (List.mem_map.mpr ⟨e, he, ?_⟩))
  rw [hends]

theorem search_walk (g : MemoryGraph F) (origin : NodeId) (maxDepth : Nat) (direction : Direction) :
    ((BreadthFirst.search (neighbours (g.adjacency direction)) maxDepth (g.edges.length + 1) origin).map (·.1)).Nodup ∧
    ∀ v k, (v, k) ∈ BreadthFirst.search (neighbours (g.adjacency direction)) maxDepth (g.edges.length + 1) origin ↔
      v ≠ origin ∧ k ≤ maxDepth ∧ Distance (g.LinkedAlong direction) origin v k := by
  have hlinked : (fun a b => b ∈ neighbours (g.adjacency direction) a) = g.LinkedAlong direction := by
    funext a b
    exact propext (g.mem_neighbours direction a b)
  rw [← hlinked]
  exact BreadthFirst.search_exact (List.mem_toFinset.mpr List.mem_cons_self)
    (fun a _ b hb => g.neighbours_walkEnds direction origin a b hb) (g.card_walkEnds direction origin)

/-- Every edge has two resident ends. -/
def NoDangling (g : MemoryGraph F) : Prop := ∀ e ∈ g.edges, e.source ∈ g.nodes ∧ e.target ∈ g.nodes

theorem NoDangling.resident {g : MemoryGraph F} (hg : g.NoDangling) {direction : Direction} {a b : NodeId}
    (h : g.LinkedAlong direction a b) : a ∈ g.nodes ∧ b ∈ g.nodes := by
  obtain ⟨e, he, hends⟩ := h
  obtain ⟨hs, ht⟩ := hg e he
  cases direction with
  | downstream =>
    obtain ⟨rfl, rfl⟩ := Prod.mk.inj hends
    exact ⟨hs, ht⟩
  | upstream =>
    obtain ⟨rfl, rfl⟩ := Prod.mk.inj hends
    exact ⟨ht, hs⟩

/-- Nothing but itself is at a distance from a node that is not resident. -/
theorem NoDangling.eq_origin {g : MemoryGraph F} (hg : g.NoDangling) {direction : Direction} {origin v : NodeId} {k : Nat}
    (horigin : origin ∉ g.nodes) (h : Walk (g.LinkedAlong direction) k origin v) : v = origin := by
  induction h with
  | nil a => rfl
  | snoc _ hstep ih =>
    have hfrom := (hg.resident hstep).1
    rw [ih horigin] at hfrom
    exact absurd hfrom horigin

theorem mem_walk {g : MemoryGraph F} (hg : g.NoDangling) (origin : NodeId) (maxDepth : Nat) (direction : Direction)
    (v : NodeId) (k : Nat) : (∃ r ∈ g.walk origin maxDepth direction, r.id = v ∧ r.distance = k) ↔
      v ≠ origin ∧ k ≤ maxDepth ∧ Distance (g.LinkedAlong direction) origin v k := by
  unfold walk
  by_cases horigin : origin ∈ g.nodes
  · rw [if_neg (by simp [horigin])]
    rw [← (g.search_walk origin maxDepth direction).2 v k]
    constructor
    · rintro ⟨r, hr, rfl, rfl⟩
      rw [mem_sortBy] at hr
      obtain ⟨x, hx, rfl⟩ := List.mem_map.mp hr
      exact hx
    · intro hmem
      exact ⟨g.reached (v, k), (mem_sortBy _ _ _).mpr (List.mem_map_of_mem hmem), rfl, rfl⟩
  · have hout : (!g.nodes.contains origin) = true := by
      rw [Bool.not_eq_true', ← Bool.not_eq_true, ExtTreeMap.contains_iff_mem]
      exact horigin
    rw [if_pos hout]
    refine ⟨fun ⟨_, hr, _⟩ => absurd hr List.not_mem_nil, ?_⟩
    rintro ⟨hne, -, hwalk, -⟩
    exact absurd (hg.eq_origin horigin hwalk) hne

theorem nodup_walk (g : MemoryGraph F) (origin : NodeId) (maxDepth : Nat) (direction : Direction) :
    ((g.walk origin maxDepth direction).map (·.id)).Nodup := by
  unfold walk
  split
  · exact List.nodup_nil
  · refine ((perm_sortBy _ _).map _).nodup_iff.mpr ?_
    rw [List.map_map]
    exact (g.search_walk origin maxDepth direction).1

/-! ## Both directions -/

/-- The nodes a walk lists: all but the origin, within the depth, once and at the shortest distance. -/
structure ListsExactly (R : NodeId → NodeId → Prop) (origin : NodeId) (maxDepth : Nat) (found : List (Reached F)) : Prop where
  once : (found.map (·.id)).Nodup
  exact : ∀ v k, (∃ r ∈ found, r.id = v ∧ r.distance = k) ↔
    v ≠ origin ∧ 1 ≤ k ∧ k ≤ maxDepth ∧ Distance R origin v k

theorem walk_listsExactly {g : MemoryGraph F} (hg : g.NoDangling) (origin : NodeId) (maxDepth : Nat)
    (direction : Direction) :
    ListsExactly (g.LinkedAlong direction) origin maxDepth (g.walk origin maxDepth direction) where
  once := g.nodup_walk origin maxDepth direction
  exact v k := by
    rw [mem_walk hg]
    refine and_congr_right fun hne => ⟨fun ⟨hk, hdist⟩ => ⟨?_, hk, hdist⟩, And.right⟩
    rcases Nat.eq_zero_or_pos k with rfl | hpos
    · exact absurd (Walk.zero_iff.mp hdist.1).symm hne
    · exact hpos

/-- The two walks are exact, and each is the other one turned round. -/
theorem walks_exact_and_dual {g : MemoryGraph F} (hg : g.NoDangling) :
    (∀ origin maxDepth, ListsExactly g.Linked origin maxDepth (g.impactSet origin maxDepth)) ∧
    (∀ origin maxDepth, ListsExactly (flip g.Linked) origin maxDepth (g.sourceSet origin maxDepth)) ∧
    ∀ m n maxDepth k, (∃ r ∈ g.impactSet m maxDepth, r.id = n ∧ r.distance = k) ↔
      ∃ r ∈ g.sourceSet n maxDepth, r.id = m ∧ r.distance = k := by
  have hdown : ∀ origin maxDepth, ListsExactly g.Linked origin maxDepth (g.impactSet origin maxDepth) := by
    intro origin maxDepth
    rw [← linkedAlong_downstream]
    exact walk_listsExactly hg origin maxDepth .downstream
  have hup : ∀ origin maxDepth, ListsExactly (flip g.Linked) origin maxDepth (g.sourceSet origin maxDepth) := by
    intro origin maxDepth
    rw [← linkedAlong_upstream]
    exact walk_listsExactly hg origin maxDepth .upstream
  refine ⟨hdown, hup, fun m n maxDepth k => ?_⟩
  rw [(hdown m maxDepth).exact, (hup n maxDepth).exact, distance_reverse_iff, ne_comm]

/-- A cycle of three, and a second edge between two of its nodes. -/
def triangle : MemoryGraph ℚ :=
  ofEdges ["a".toList, "b".toList, "c".toList]
    [("a".toList, "b".toList, .calls), ("b".toList, "c".toList, .dependsOn), ("c".toList, "a".toList, .causes),
      ("a".toList, "b".toList, .contains)]

theorem walks_dual_on_a_triangle :
    (∃ r ∈ triangle.impactSet "a".toList 9, r.id = "c".toList ∧ r.distance = 2) ↔
      ∃ r ∈ triangle.sourceSet "c".toList 9, r.id = "a".toList ∧ r.distance = 2 :=
  (walks_exact_and_dual (show triangle.NoDangling by unfold NoDangling; decide)).2.2 _ _ _ _

example : (triangle.impactSet "a".toList 9).map (fun r => (r.id, r.distance)) =
    [("b".toList, 1), ("c".toList, 2)] := by decide +kernel

end MemoryGraph

end Ccos
