import Ccos.Query.Walk

/-!
# Hops from an anchor

The region around an anchor is weighted by how far its nodes are. The search follows the edges both ways and does not
relay through the hub of a dependency, so that a shared import makes no two files close.
-/

open Std Walks

namespace Ccos

namespace CcosMemory

variable {F : Type}

structure HopState where
  dist : BTreeMap NodeId Nat
  queue : List NodeId

/-- The other end of an edge of `cur`. -/
def neighbour (cur : NodeId) (e : GraphEdge F) : Option NodeId :=
  if e.source = cur then some e.target else if e.target = cur then some e.source else none

def hop (d : Nat) (s : HopState) (nb : NodeId) : HopState :=
  if nb ∈ s.dist then s else { dist := s.dist.insert nb (d + 1), queue := s.queue ++ [nb] }

def isHub (id : NodeId) : Bool := startsWith "dep:".toList id

/-- One turn of the loop. A hub is reached and recorded, but not expanded onward. -/
def relay (g : MemoryGraph F) (maxHops : Nat) (cur : NodeId) (d : Nat) (s : HopState) : HopState :=
  if maxHops ≤ d ∨ isHub cur then s
  else g.edges.foldl (fun s e => ((neighbour cur e).map (hop d s)).getD s) s

/-- `while let Some(cur) = queue.pop_front()`: without a distance for `cur` the source panics. -/
def hopLoop (g : MemoryGraph F) (maxHops : Nat) : Nat → HopState → Option (BTreeMap NodeId Nat)
  | _, ⟨dist, []⟩ => some dist
  | 0, _ => none
  | fuel + 1, ⟨dist, cur :: queue⟩ =>
    dist[cur]?.bind fun d => hopLoop g maxHops fuel (relay g maxHops cur d ⟨dist, queue⟩)

/-- Every turn takes a node off the queue: the anchor, or an end of an edge. -/
def hopDistances (g : MemoryGraph F) (anchor : NodeId) (maxHops : Nat) : Option (BTreeMap NodeId Nat) :=
  hopLoop g maxHops (g.edges.length + g.edges.length + 1) ⟨(∅ : BTreeMap NodeId Nat).insert anchor 0, [anchor]⟩

/-! ## The search it makes -/

/-- One hop out of a node that is not a hub. -/
def Relays (g : MemoryGraph F) (a b : NodeId) : Prop :=
  isHub a = false ∧ ∃ e ∈ g.edges, (e.source = a ∧ e.target = b) ∨ (e.target = a ∧ e.source = b)

def hopNeighbours (g : MemoryGraph F) (cur : NodeId) : List NodeId :=
  if isHub cur then [] else g.edges.filterMap (neighbour cur)

theorem mem_hopNeighbours (g : MemoryGraph F) (a b : NodeId) : b ∈ hopNeighbours g a ↔ Relays g a b := by
  unfold hopNeighbours Relays
  by_cases hhub : isHub a = true
  · simp [hhub]
  · rw [if_neg hhub, List.mem_filterMap, Bool.eq_false_iff, and_iff_right hhub]
    refine exists_congr fun e => and_congr_right fun _ => ?_
    unfold neighbour
    by_cases hs : e.source = a <;> by_cases ht : e.target = a <;> simp [hs, ht]

/-- The ends a search from the anchor can meet. -/
def hopEnds (g : MemoryGraph F) (anchor : NodeId) : Finset NodeId :=
  (anchor :: (g.edges.map (·.source) ++ g.edges.map (·.target))).toFinset

theorem card_hopEnds (g : MemoryGraph F) (anchor : NodeId) :
    (hopEnds g anchor).card ≤ g.edges.length + g.edges.length + 1 := by
  refine (List.toFinset_card_le _).trans ?_
  simp

theorem hopNeighbours_hopEnds (g : MemoryGraph F) (anchor : NodeId) {a b : NodeId} (hb : b ∈ hopNeighbours g a) :
    b ∈ hopEnds g anchor := by
  obtain ⟨-, e, he, hends⟩ := (mem_hopNeighbours g a b).mp hb
  refine List.mem_toFinset.mpr (List.mem_cons_of_mem _ (List.mem_append.mpr ?_))
  rcases hends with ⟨-, rfl⟩ | ⟨-, rfl⟩
  · exact .inr (List.mem_map.mpr ⟨e, he, rfl⟩)
  · exact .inl (List.mem_map.mpr ⟨e, he, rfl⟩)

/-- The two states of one search: the map has the nodes recorded, at their distances. -/
structure SameSearch (anchor : NodeId) (s : HopState) (b : BreadthFirst.State NodeId) : Prop where
  queue : s.queue = b.queue.map (·.1)
  dist : ∀ v k, s.dist[v]? = some k ↔ (v, k) ∈ BreadthFirst.recorded anchor b
  seen : ∀ v, v ∈ b.visited ↔ v ∈ s.dist

variable {anchor : NodeId} {s : HopState} {b : BreadthFirst.State NodeId}

theorem SameSearch.hop (h : SameSearch anchor s b) (d : Nat) (nb : NodeId) :
    SameSearch anchor (hop d s nb) (BreadthFirst.visit d b nb) := by
  unfold CcosMemory.hop BreadthFirst.visit
  by_cases hnb : nb ∈ s.dist
  · rw [if_pos hnb, if_pos ((h.seen nb).mpr hnb)]
    exact h
  · rw [if_neg hnb, if_neg fun hseen => hnb ((h.seen nb).mp hseen)]
    refine ⟨?_, fun v k => ?_, fun v => ?_⟩
    · simp only [h.queue, List.map_append, List.map_cons, List.map_nil]
    · show _ ↔ (v, k) ∈ BreadthFirst.recorded anchor (b.record (nb, d + 1))
      rw [BreadthFirst.mem_recorded_record, ← h.dist, getElem?_insert_eq, Prod.mk.injEq]
      by_cases hv : v = nb
      · subst hv
        rw [if_pos rfl, ExtTreeMap.getElem?_eq_none hnb]
        simp [eq_comm]
      · rw [if_neg hv]
        simp [hv]
    · rw [Finset.mem_insert, mem_insert_iff, h.seen]

theorem SameSearch.relay (h : SameSearch anchor s b) (g : MemoryGraph F) (maxHops : Nat) (cur : NodeId) (d : Nat) :
    SameSearch anchor (relay g maxHops cur d s) (BreadthFirst.expand (hopNeighbours g) maxHops cur d b) := by
  have hfold : ∀ (edges : List (GraphEdge F)) {s : HopState} {b : BreadthFirst.State NodeId}, SameSearch anchor s b →
      SameSearch anchor (edges.foldl (fun s e => ((neighbour cur e).map (CcosMemory.hop d s)).getD s) s)
        ((edges.filterMap (neighbour cur)).foldl (BreadthFirst.visit d) b) := by
    intro edges
    induction edges with
    | nil => exact fun h => h
    | cons e edges ih =>
      intro s b h
      rw [List.foldl_cons, List.filterMap_cons]
      cases neighbour cur e with
      | none => exact ih h
      | some nb => exact ih (h.hop d nb)
  unfold CcosMemory.relay BreadthFirst.expand hopNeighbours
  by_cases hdeep : maxHops ≤ d
  · rw [if_pos (.inl hdeep), if_pos hdeep]
    exact h
  · by_cases hhub : isHub cur = true
    · rw [if_pos (.inr hhub), if_neg hdeep, if_pos hhub]
      exact h
    · rw [if_neg (not_or.mpr ⟨hdeep, hhub⟩), if_neg hdeep, if_neg hhub]
      exact hfold g.edges h

theorem hopLoop_eq (g : MemoryGraph F) (maxHops fuel : Nat) (h : SameSearch anchor s b)
    (hinv : BreadthFirst.Inv (hopNeighbours g) maxHops anchor b)
    (hdone : (BreadthFirst.loop (hopNeighbours g) maxHops fuel b).queue = []) :
    ∃ dist, hopLoop g maxHops fuel s = some dist ∧ ∀ v k, dist[v]? = some k ↔
      (v, k) ∈ BreadthFirst.recorded anchor (BreadthFirst.loop (hopNeighbours g) maxHops fuel b) := by
  induction fuel generalizing s b with
  | zero =>
    have hqueue : s.queue = [] := by rw [h.queue, show b.queue = [] from hdone, List.map_nil]
    obtain ⟨dist, queue⟩ := s
    subst hqueue
    exact ⟨dist, rfl, h.dist⟩
  | succ fuel ih =>
    obtain ⟨dist, queue⟩ := s
    rw [BreadthFirst.loop] at hdone ⊢
    cases hb : b.queue with
    | nil =>
      have hqueue := h.queue
      rw [hb, List.map_nil] at hqueue
      subst hqueue
      exact ⟨dist, rfl, h.dist⟩
    | cons front rest =>
      obtain ⟨cur, d⟩ := front
      have hqueue := h.queue
      rw [hb, List.map_cons] at hqueue
      subst hqueue
      rw [hb] at hdone
      have hd : dist[cur]? = some d := (h.dist cur d).mpr (hinv.queued _ (hb ▸ List.mem_cons_self))
      have hpopped : SameSearch anchor ⟨dist, rest.map (·.1)⟩ { b with queue := rest } := ⟨rfl, h.dist, h.seen⟩
      rw [hopLoop, hd, Option.bind_some]
      exact ih (hpopped.relay g maxHops cur d) (BreadthFirst.inv_expand hinv hb) hdone

/-- The distance of a node is that of the shortest way to it that no hub relays, and the nodes that have one are those
within the bound. -/
theorem hopDistances_exact (g : MemoryGraph F) (anchor : NodeId) (maxHops : Nat) :
    ∃ dist, hopDistances g anchor maxHops = some dist ∧
      ∀ v k, dist[v]? = some k ↔ k ≤ maxHops ∧ Distance (Relays g) anchor v k := by
  have hrelays : (fun a b => b ∈ hopNeighbours g a) = Relays g := by
    funext a b
    exact propext (mem_hopNeighbours g a b)
  have hstart :
      SameSearch anchor ⟨(∅ : BTreeMap NodeId Nat).insert anchor 0, [anchor]⟩ (BreadthFirst.start anchor) := by
    refine ⟨rfl, fun v k => ?_, fun v => ?_⟩
    · rw [getElem?_insert_eq, ExtTreeMap.getElem?_empty]
      by_cases hv : v = anchor
      · simp [BreadthFirst.recorded, BreadthFirst.start, hv, eq_comm]
      · simp [BreadthFirst.recorded, BreadthFirst.start, hv]
    · rw [mem_insert_iff]
      simp [BreadthFirst.start]
  have hanchor : anchor ∈ hopEnds g anchor := List.mem_toFinset.mpr List.mem_cons_self
  have hends : ∀ v ∈ hopEnds g anchor, ∀ w ∈ hopNeighbours g v, w ∈ hopEnds g anchor :=
    fun _ _ _ hw => hopNeighbours_hopEnds g anchor hw
  obtain ⟨dist, hdist, hrecorded⟩ := hopLoop_eq g maxHops _ hstart BreadthFirst.inv_start
    (BreadthFirst.queue_search hanchor hends (card_hopEnds g anchor))
  obtain ⟨-, hsearch⟩ := @BreadthFirst.search_exact _ _ (hopNeighbours g) maxHops anchor _ hanchor hends _
    (card_hopEnds g anchor)
  refine ⟨dist, hdist, fun v k => ?_⟩
  rw [hrecorded, BreadthFirst.recorded, List.mem_cons, ← hrelays]
  refine (or_congr_right (hsearch v k)).trans ?_
  by_cases hv : v = anchor
  · subst hv
    simp only [ne_eq, not_true_eq_false, false_and, or_false, Prod.mk.injEq, true_and]
    constructor
    · rintro rfl
      exact ⟨Nat.zero_le _, .nil v, fun j hj => absurd hj (Nat.not_lt_zero j)⟩
    · rintro ⟨-, -, hshort⟩
      by_contra hk
      exact hshort 0 (Nat.pos_of_ne_zero hk) (.nil v)
  · simp [hv]

end CcosMemory

end Ccos
