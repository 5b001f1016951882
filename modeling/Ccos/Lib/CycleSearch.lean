import Mathlib.Data.List.Chain
import Mathlib.Algebra.GroupWithZero.Nat
import Mathlib.Algebra.Order.BigOperators.Group.Finset
import Mathlib.Tactic.Common

/-!
# Cycle search by colours

A depth-first search with an explicit stack and the path to its top. An edge back to the path closes a
cycle. Nodes are finished in an order in which no edge of a finished node leads forwards, so a search
that closes no cycle has proved that there is none.
-/

namespace CycleSearch

open Relation Function

variable {α : Type} {R : α → α → Prop}

/-! ## Cycles -/

/-- Distinct nodes, each related to the next and the last one to the first. -/
structure IsCycle (R : α → α → Prop) (c : List α) : Prop where
  nodup : c.Nodup
  chain : c.IsChain R
  closes : ∃ h : c ≠ [], R (c.getLast h) (c.head h)

theorem IsCycle.transGen {c : List α} (h : IsCycle R c) : ∃ a, TransGen R a a := by
  obtain ⟨hne, hback⟩ := h.closes
  have hthrough := List.relationReflTransGen_of_exists_isChain c h.chain hne
  exact ⟨_, TransGen.tail' hthrough hback⟩

/-- Every node of a cycle is the start of one of its steps. -/
theorem IsCycle.forall_mem {c : List α} (h : IsCycle R c) {P : α → Prop} (hP : ∀ a b, R a b → P a) : ∀ a ∈ c, P a := by
  intro a ha
  obtain ⟨before, after, rfl⟩ := List.append_of_mem ha
  cases after with
  | nil =>
    obtain ⟨hne, hback⟩ := h.closes
    rw [List.getLast_concat] at hback
    exact hP a _ hback
  | cons b after =>
    have hchain := h.chain.right_of_append
    rw [List.isChain_cons_cons] at hchain
    exact hP a b hchain.1

/-- Every element leads only to what comes behind it in the list. -/
def Sealed (R : α → α → Prop) : List α → Prop
  | [] => True
  | a :: rest => (∀ b, R a b → b ∈ rest) ∧ Sealed R rest

theorem Sealed.closed {l : List α} (h : Sealed R l) {a b : α} (ha : a ∈ l) (hab : R a b) : b ∈ l := by
  induction l with
  | nil => exact absurd ha List.not_mem_nil
  | cons x l ih =>
    rcases List.mem_cons.mp ha with rfl | ha
    · exact List.mem_cons_of_mem _ (h.1 b hab)
    · exact List.mem_cons_of_mem _ (ih h.2 ha)

theorem Sealed.closed_transGen {l : List α} (h : Sealed R l) {a b : α} (ha : a ∈ l) (hab : TransGen R a b) :
    b ∈ l := by
  induction hab with
  | single hstep => exact h.closed ha hstep
  | tail _ hstep ih => exact h.closed ih hstep

theorem Sealed.no_cycle {l : List α} (h : Sealed R l) {a : α} (ha : a ∈ l) : ¬ TransGen R a a := by
  induction l with
  | nil => exact absurd ha List.not_mem_nil
  | cons x l ih =>
    by_cases hin : a ∈ l
    · exact ih h.2 hin
    · obtain rfl : a = x := (List.mem_cons.mp ha).resolve_right hin
      intro hcycle
      -- The first step leads into the rest, which is never left again.
      obtain ⟨b, hab, hrest⟩ := TransGen.head'_iff.mp hcycle
      have hb := h.1 b hab
      rcases reflTransGen_iff_eq_or_transGen.mp hrest with heq | hrest
      · exact hin (heq ▸ hb)
      · exact hin (h.2.closed_transGen hb hrest)

/-! ## The search -/

inductive Color
  | unvisited | onPath | done
  deriving DecidableEq, Repr

/-- The top of the stack is its head. The path lists the same nodes from the bottom up. -/
structure State (α : Type) where
  color : α → Color
  stack : List (α × Nat)
  path : List α
  cycles : List (List α)

variable [DecidableEq α]

/-- Looks at one child of the top of the stack. -/
def look (node : α) (idx : Nat) (below : List (α × Nat)) (child : α) (s : State α) : State α :=
  match s.color child with
  | .unvisited =>
    { s with
      color := update s.color child .onPath
      stack := (child, 0) :: (node, idx + 1) :: below
      path := s.path ++ [child] }
  | .onPath =>
    { s with
      stack := (node, idx + 1) :: below
      cycles :=
        match s.path.idxOf? child with
        | some pos => s.cycles ++ [s.path.drop pos]
        | none => s.cycles }
  | .done => { s with stack := (node, idx + 1) :: below }

/-- One turn of the inner loop. -/
def step (adj : α → List α) (s : State α) : State α :=
  match s.stack with
  | [] => s
  | (node, idx) :: below =>
    match (adj node)[idx]? with
    | some child => look node idx below child s
    | none => { s with color := update s.color node .done, stack := below, path := s.path.dropLast }

/-- One turn of the outer loop: the search from a node not seen yet. `fuel` bounds the inner turns. -/
def visitFrom (adj : α → List α) (fuel : Nat) (s : State α) (start : α) : State α :=
  if s.color start ≠ .unvisited then s
  else (step adj)^[fuel] { s with color := update s.color start .onPath, stack := [(start, 0)], path := [start] }

def blank : State α := { color := fun _ => .unvisited, stack := [], path := [], cycles := [] }

def search (adj : α → List α) (fuel : Nat) (starts : List α) : List (List α) :=
  (starts.foldl (visitFrom adj fuel) blank).cycles

/-! ## What every turn keeps -/

variable {adj : α → List α}

/-- The children behind the index of each stack entry are done, but for the entry above it. -/
def Explored (adj : α → List α) (color : α → Color) : Option α → List (α × Nat) → Prop
  | _, [] => True
  | above, (node, idx) :: below =>
    (∀ child ∈ (adj node).take idx, color child = .done ∨ above = some child) ∧ Explored adj color (some node) below

structure Inv (adj : α → List α) (s : State α) : Prop where
  path_eq : s.path = (s.stack.map (·.1)).reverse
  nodup : s.path.Nodup
  onPath : ∀ v, s.color v = .onPath ↔ v ∈ s.path
  chain : s.path.IsChain fun a b => b ∈ adj a
  sound : ∀ c ∈ s.cycles, IsCycle (fun a b => b ∈ adj a) c
  explored : s.cycles = [] → Explored adj s.color none s.stack
  finished : s.cycles = [] → ∃ order, Sealed (fun a b => b ∈ adj a) order ∧ ∀ v, s.color v = .done ↔ v ∈ order

omit [DecidableEq α] in
theorem Explored.mono {color color' : α → Color} (hdone : ∀ v, color v = .done → color' v = .done)
    {above : Option α} {stack : List (α × Nat)} (h : Explored adj color above stack) :
    Explored adj color' above stack := by
  induction stack generalizing above with
  | nil => trivial
  | cons top below ih => exact ⟨fun child hc => (h.1 child hc).imp_left (hdone child), ih h.2⟩

omit [DecidableEq α] in
/-- The entry above may leave once it is done. -/
theorem Explored.pop {color : α → Color} {top : α} (hdone : color top = .done) {stack : List (α × Nat)}
    (h : Explored adj color (some top) stack) : Explored adj color none stack := by
  cases stack with
  | nil => trivial
  | cons entry below =>
    refine ⟨fun child hc => ?_, h.2⟩
    rcases h.1 child hc with hchild | heq
    · exact Or.inl hchild
    · obtain rfl := Option.some.inj heq
      exact Or.inl hdone

omit [DecidableEq α] in
theorem inv_blank : Inv adj (blank : State α) where
  path_eq := rfl
  nodup := List.nodup_nil
  onPath v := by simp [blank]
  chain := List.isChain_nil
  sound := by simp [blank]
  explored _ := trivial
  finished _ := ⟨[], trivial, by simp [blank]⟩

omit [DecidableEq α] in
/-- The path ends at the top of the stack. -/
theorem Inv.path_top {s : State α} (h : Inv adj s) {node : α} {idx : Nat} {below : List (α × Nat)}
    (hstack : s.stack = (node, idx) :: below) : s.path = (below.map (·.1)).reverse ++ [node] := by
  rw [h.path_eq, hstack]
  simp

omit [DecidableEq α] in
/-- Moves the index of the top past a child that is done. -/
theorem Explored.advance {color : α → Color} {node child : α} {idx : Nat} {below : List (α × Nat)} {above : Option α}
    (hchild : (adj node)[idx]? = some child) (hdone : color child = .done ∨ above = some child)
    (h : Explored adj color none ((node, idx) :: below)) : Explored adj color above ((node, idx + 1) :: below) := by
  refine ⟨fun c hc => ?_, h.2⟩
  rw [List.take_add_one, hchild, List.mem_append] at hc
  rcases hc with hc | hc
  · rcases h.1 c hc with hc | hc
    · exact Or.inl hc
    · exact absurd hc nofun
  · obtain rfl : c = child := by simpa using hc
    exact hdone

theorem Inv.pushChild {s : State α} (h : Inv adj s) {node child : α} {idx : Nat} {below : List (α × Nat)}
    (hstack : s.stack = (node, idx) :: below) (hchild : (adj node)[idx]? = some child)
    (hcolor : s.color child = .unvisited) :
    Inv adj { s with
      color := update s.color child .onPath
      stack := (child, 0) :: (node, idx + 1) :: below
      path := s.path ++ [child] } where
  path_eq := by
    rw [h.path_top hstack]
    simp
  nodup := by
    have hout : child ∉ s.path := by
      rw [← h.onPath, hcolor]
      exact nofun
    refine List.nodup_append.mpr ⟨h.nodup, List.nodup_singleton _, ?_⟩
    rintro a ha b hb rfl
    exact hout (List.mem_singleton.mp hb ▸ ha)
  onPath v := by
    by_cases hv : v = child
    · subst hv
      simp
    · simp only [update_of_ne hv, h.onPath, List.mem_append, List.mem_singleton, hv, or_false]
  chain := by
    refine h.chain.append (List.isChain_singleton _) ?_
    intro x hx y hy
    rw [h.path_top hstack, List.getLast?_concat, Option.mem_some_iff] at hx
    obtain rfl : child = y := by simpa using hy
    subst hx
    exact List.mem_of_getElem? hchild
  sound := h.sound
  explored hnone := by
    have hexplored := h.explored hnone
    rw [hstack] at hexplored
    refine ⟨by simp, (Explored.advance hchild (Or.inr rfl) hexplored).mono fun v hv => ?_⟩
    have hne : v ≠ child := by
      rintro rfl
      rw [hcolor] at hv
      exact absurd hv nofun
    exact (update_of_ne hne _ _).trans hv
  finished hnone := by
    obtain ⟨order, hsealed, hdone⟩ := h.finished hnone
    refine ⟨order, hsealed, fun v => ?_⟩
    by_cases hv : v = child
    · subst hv
      have hout := (hdone v).not.mp (by rw [hcolor]; exact nofun)
      simp [hout]
    · simp only [update_of_ne hv, hdone]

/-- An edge back to the path closes a cycle: the path from the child on. -/
theorem Inv.closeCycle {s : State α} (h : Inv adj s) {node child : α} {idx : Nat} {below : List (α × Nat)}
    (hstack : s.stack = (node, idx) :: below) (hchild : (adj node)[idx]? = some child)
    (hcolor : s.color child = .onPath) : ∃ pos, s.path.idxOf? child = some pos ∧
      IsCycle (fun a b => b ∈ adj a) (s.path.drop pos) := by
  have hin : child ∈ s.path := (h.onPath child).mp hcolor
  obtain ⟨pos, hpos⟩ := Option.isSome_iff_exists.mp (List.isSome_idxOf?.mpr hin)
  obtain ⟨hlt, hget, -⟩ := List.idxOf?_eq_some_iff.mp hpos
  refine ⟨pos, hpos, h.nodup.sublist (List.drop_sublist _ _), h.chain.drop pos, ?_⟩
  have hne : s.path.drop pos ≠ [] := by
    rw [Ne, List.drop_eq_nil_iff]
    omega
  refine ⟨hne, ?_⟩
  have hhead : (s.path.drop pos).head hne = child := by
    rw [List.head_drop, hget]
  have hlast : (s.path.drop pos).getLast hne = node := by
    rw [List.getLast_drop]
    simp only [h.path_top hstack, List.getLast_concat]
  rw [hhead, hlast]
  exact List.mem_of_getElem? hchild

theorem Inv.look {s : State α} (h : Inv adj s) {node child : α} {idx : Nat} {below : List (α × Nat)}
    (hstack : s.stack = (node, idx) :: below) (hchild : (adj node)[idx]? = some child) :
    Inv adj (look node idx below child s) := by
  unfold CycleSearch.look
  split
  · rename_i hcolor
    exact h.pushChild hstack hchild hcolor
  · rename_i hcolor
    obtain ⟨pos, hpos, hcycle⟩ := h.closeCycle hstack hchild hcolor
    rw [hpos]
    refine ⟨?_, h.nodup, h.onPath, h.chain, ?_, fun hnone => ?_, fun hnone => ?_⟩
    · rw [h.path_eq, hstack]
      rfl
    · intro c hc
      rcases List.mem_append.mp hc with hc | hc
      · exact h.sound c hc
      · exact List.mem_singleton.mp hc ▸ hcycle
    · exact absurd (List.append_eq_nil_iff.mp hnone).2 (List.cons_ne_nil _ _)
    · exact absurd (List.append_eq_nil_iff.mp hnone).2 (List.cons_ne_nil _ _)
  · rename_i hcolor
    refine ⟨?_, h.nodup, h.onPath, h.chain, h.sound, fun hnone => ?_, h.finished⟩
    · rw [h.path_eq, hstack]
      rfl
    · have hexplored := h.explored hnone
      rw [hstack] at hexplored
      exact Explored.advance hchild (Or.inl hcolor) hexplored

/-- A node whose children are all done is finished after them. -/
theorem Inv.finish {s : State α} (h : Inv adj s) {node : α} {idx : Nat} {below : List (α × Nat)}
    (hstack : s.stack = (node, idx) :: below) (hend : (adj node)[idx]? = none) :
    Inv adj { s with color := update s.color node .done, stack := below, path := s.path.dropLast } := by
  have htop := h.path_top hstack
  have hpath : s.path.dropLast = (below.map (·.1)).reverse := by rw [htop, List.dropLast_concat]
  have hnodup := h.nodup
  rw [htop, List.nodup_append] at hnodup
  have hout : node ∉ (below.map (·.1)).reverse := fun hin => hnodup.2.2 node hin node (List.mem_singleton_self _) rfl
  refine ⟨hpath, ?_, ?_, h.chain.dropLast, h.sound, fun hnone => ?_, fun hnone => ?_⟩
  · exact h.nodup.sublist (List.dropLast_sublist _)
  · intro v
    dsimp only
    rw [hpath]
    by_cases hv : v = node
    · subst hv
      simp [hout]
    · rw [update_of_ne hv, h.onPath, htop, List.mem_append, List.mem_singleton, or_iff_left hv]
  · have hexplored := h.explored hnone
    rw [hstack] at hexplored
    refine Explored.pop (update_self _ _ _) (hexplored.2.mono fun v hv => ?_)
    by_cases hv' : v = node
    · rw [hv', update_self]
    · rw [update_of_ne hv', hv]
  · obtain ⟨order, hsealed, hdone⟩ := h.finished hnone
    have hexplored := h.explored hnone
    rw [hstack] at hexplored
    refine ⟨node :: order, ⟨fun b hb => ?_, hsealed⟩, fun v => ?_⟩
    · have htake : b ∈ (adj node).take idx := by
        rwa [List.take_of_length_le (List.getElem?_eq_none_iff.mp hend)]
      exact (hdone b).mp ((hexplored.1 b htake).resolve_right nofun)
    · by_cases hv : v = node
      · subst hv
        simp
      · simp only [update_of_ne hv, hdone, List.mem_cons, hv, false_or]

theorem inv_step {s : State α} (h : Inv adj s) : Inv adj (step adj s) := by
  unfold step
  split
  · exact h
  · rename_i node idx below hstack
    split
    · rename_i child hchild
      exact h.look hstack hchild
    · rename_i hend
      exact h.finish hstack hend

theorem inv_iterate (fuel : Nat) {s : State α} (h : Inv adj s) : Inv adj ((step adj)^[fuel] s) := by
  induction fuel generalizing s with
  | zero => exact h
  | succ fuel ih => exact ih (inv_step h)

/-! ## The fuel -/

/-- The turns still to come: for a node not seen yet one for each child and one to leave it, for an
entry of the stack what is left of these. -/
def potential (adj : α → List α) (U : Finset α) (s : State α) : Nat :=
  (∑ v ∈ U with s.color v = .unvisited, ((adj v).length + 1)) +
    (s.stack.map fun x => (adj x.1).length - x.2 + 1).sum

/-- The nodes not seen yet, less one that the search enters. -/
theorem filter_enter (U : Finset α) (color : α → Color) (v : α) :
    (U.filter fun w => update color v Color.onPath w = .unvisited) = (U.filter fun w => color w = .unvisited).erase v := by
  ext w
  rw [Finset.mem_erase, Finset.mem_filter, Finset.mem_filter]
  by_cases hw : w = v
  · subst hw
    simp
  · rw [update_of_ne hw, and_iff_right hw]

theorem potential_step {U : Finset α} (hU : ∀ a, ∀ b ∈ adj a, b ∈ U) {s : State α} (h : Inv adj s)
    (hstack : s.stack ≠ []) : potential adj U (step adj s) + 1 ≤ potential adj U s := by
  unfold step
  split
  · rename_i hnil
    exact absurd hnil hstack
  · rename_i node idx below hstack
    split
    · rename_i child hchild
      have hlt : idx < (adj node).length := (List.getElem?_eq_some_iff.mp hchild).1
      have hin : child ∈ U := hU node child (List.mem_of_getElem? hchild)
      unfold look potential
      split
      · rename_i hcolor
        have hsum := Finset.add_sum_erase (U.filter fun v => s.color v = .unvisited) (fun v => (adj v).length + 1)
          (Finset.mem_filter.mpr ⟨hin, hcolor⟩)
        simp only [filter_enter, hstack, List.map_cons, List.sum_cons]
        omega
      · simp only [hstack, List.map_cons, List.sum_cons]
        omega
      · simp only [hstack, List.map_cons, List.sum_cons]
        omega
    · have hnode : s.color node = .onPath := (h.onPath node).mpr (by rw [h.path_top hstack]; simp)
      have hsame : (U.filter fun v => update s.color node Color.done v = .unvisited) =
          U.filter fun v => s.color v = .unvisited := by
        refine Finset.filter_congr fun v _ => ?_
        by_cases hv : v = node
        · subst hv
          simp [hnode]
        · rw [update_of_ne hv]
      unfold potential
      simp only [hsame, hstack, List.map_cons, List.sum_cons]
      omega

theorem iterate_idle (fuel : Nat) {s : State α} (hstack : s.stack = []) : (step adj)^[fuel] s = s := by
  refine iterate_fixed ?_ fuel
  unfold step
  rw [hstack]

theorem stack_iterate {U : Finset α} (hU : ∀ a, ∀ b ∈ adj a, b ∈ U) (fuel : Nat) {s : State α} (h : Inv adj s)
    (hfuel : potential adj U s ≤ fuel) : ((step adj)^[fuel] s).stack = [] := by
  induction fuel generalizing s with
  | zero =>
    by_contra hstack
    have := potential_step hU h hstack
    omega
  | succ fuel ih =>
    by_cases hstack : s.stack = []
    · rw [iterate_idle _ hstack, hstack]
    · have := potential_step hU h hstack
      exact ih (inv_step h) (by omega)

/-- A node that was seen stays seen. -/
theorem seen_step {s : State α} {v : α} (hv : s.color v ≠ .unvisited) : (step adj s).color v ≠ .unvisited := by
  have hupdate : ∀ (w : α) (c : Color), c ≠ .unvisited → update s.color w c v ≠ .unvisited := by
    intro w c hc
    by_cases hvw : v = w
    · rwa [hvw, update_self]
    · rwa [update_of_ne hvw]
  unfold step
  split
  · exact hv
  · split
    · unfold look
      split
      · exact hupdate _ _ nofun
      · exact hv
      · exact hv
    · exact hupdate _ _ nofun

theorem seen_iterate (fuel : Nat) {s : State α} {v : α} (hv : s.color v ≠ .unvisited) :
    ((step adj)^[fuel] s).color v ≠ .unvisited := by
  induction fuel generalizing s with
  | zero => exact hv
  | succ fuel ih => exact ih (seen_step hv)

/-! ## The search is sound and complete -/

/-- Between two turns of the outer loop. -/
structure Idle (adj : α → List α) (s : State α) : Prop extends Inv adj s where
  empty : s.stack = []

omit [DecidableEq α] in
theorem Idle.path_nil {s : State α} (h : Idle adj s) : s.path = [] := by
  rw [h.path_eq, h.empty]
  rfl

theorem Idle.start {s : State α} (h : Idle adj s) {start : α} (hstart : s.color start = .unvisited) :
    Inv adj { s with color := update s.color start .onPath, stack := [(start, 0)], path := [start] } where
  path_eq := rfl
  nodup := List.nodup_singleton _
  onPath v := by
    by_cases hv : v = start
    · subst hv
      simp
    · simp only [update_of_ne hv, h.onPath, h.path_nil, List.mem_singleton, hv, List.not_mem_nil]
  chain := List.isChain_singleton _
  sound := h.sound
  explored _ := ⟨by simp, trivial⟩
  finished hnone := by
    obtain ⟨order, hsealed, hdone⟩ := h.finished hnone
    refine ⟨order, hsealed, fun v => ?_⟩
    by_cases hv : v = start
    · subst hv
      have hout := (hdone v).not.mp (by rw [hstart]; exact nofun)
      simp [hout]
    · simp only [update_of_ne hv, hdone]

theorem visitFrom_spec {U : Finset α} (hU : ∀ a, ∀ b ∈ adj a, b ∈ U) {fuel : Nat}
    (hfuel : ∑ v ∈ U, ((adj v).length + 1) ≤ fuel) {s : State α} (h : Idle adj s) {start : α} (hstart : start ∈ U) :
    Idle adj (visitFrom adj fuel s start) ∧ (visitFrom adj fuel s start).color start ≠ .unvisited ∧
      ∀ v, s.color v ≠ .unvisited → (visitFrom adj fuel s start).color v ≠ .unvisited := by
  unfold visitFrom
  split
  · rename_i hseen
    exact ⟨h, hseen, fun _ hv => hv⟩
  · rename_i hnew
    have hcolor : s.color start = .unvisited := not_not.mp hnew
    have hinv := h.start hcolor
    have hpotential : potential adj U { s with color := update s.color start .onPath, stack := [(start, 0)], path := [start] } ≤ fuel := by
      have hsub := Finset.sum_le_sum_of_subset (f := fun v => (adj v).length + 1)
        (Finset.erase_subset_erase start (Finset.filter_subset (fun v => s.color v = .unvisited) U))
      have hsum := Finset.add_sum_erase U (fun v => (adj v).length + 1) hstart
      unfold potential
      simp only [filter_enter, List.map_cons, List.map_nil, List.sum_cons, List.sum_nil]
      omega
    refine ⟨⟨inv_iterate fuel hinv, stack_iterate hU fuel hinv hpotential⟩, ?_, fun v hv => ?_⟩
    · exact seen_iterate fuel (by simp)
    · refine seen_iterate fuel ?_
      by_cases hvs : v = start
      · subst hvs
        exact absurd hcolor hv
      · simpa only [update_of_ne hvs] using hv

theorem visitAll_spec {U : Finset α} (hU : ∀ a, ∀ b ∈ adj a, b ∈ U) {fuel : Nat}
    (hfuel : ∑ v ∈ U, ((adj v).length + 1) ≤ fuel) (starts : List α) (hstarts : ∀ v ∈ starts, v ∈ U) {s : State α}
    (h : Idle adj s) : Idle adj (starts.foldl (visitFrom adj fuel) s) ∧
      ∀ v, (v ∈ starts ∨ s.color v ≠ .unvisited) → (starts.foldl (visitFrom adj fuel) s).color v ≠ .unvisited := by
  induction starts generalizing s with
  | nil => exact ⟨h, by simp⟩
  | cons start starts ih =>
    obtain ⟨hidle, hseen, hkept⟩ := visitFrom_spec hU hfuel h (hstarts start List.mem_cons_self)
    obtain ⟨hend, hall⟩ := ih (fun v hv => hstarts v (List.mem_cons_of_mem _ hv)) hidle
    refine ⟨hend, fun v hv => hall v ?_⟩
    rcases hv with hv | hv
    · rcases List.mem_cons.mp hv with rfl | hv
      · exact Or.inr hseen
      · exact Or.inl hv
    · exact Or.inr (hkept v hv)

/-- What the search lists are cycles, and it lists none only if there is none. -/
theorem search_spec {U : Finset α} (hU : ∀ a, ∀ b ∈ adj a, a ∈ U ∧ b ∈ U) {fuel : Nat}
    (hfuel : ∑ v ∈ U, ((adj v).length + 1) ≤ fuel) {starts : List α} (hstarts : ∀ v, v ∈ starts ↔ v ∈ U) :
    (∀ c ∈ search adj fuel starts, IsCycle (fun a b => b ∈ adj a) c) ∧
    (search adj fuel starts = [] ↔ ¬ ∃ a, TransGen (fun a b => b ∈ adj a) a a) := by
  obtain ⟨hidle, hseen⟩ := visitAll_spec (fun a b hb => (hU a b hb).2) hfuel starts (fun v hv => (hstarts v).mp hv)
    (s := blank) ⟨inv_blank, rfl⟩
  refine ⟨hidle.sound, fun hnone => ?_, fun hacyclic => ?_⟩
  · obtain ⟨order, hsealed, hdone⟩ := hidle.finished hnone
    rintro ⟨a, hcycle⟩
    obtain ⟨b, hab, -⟩ := TransGen.head'_iff.mp hcycle
    have hcolor := hseen a (Or.inl ((hstarts a).mpr (hU a b hab).1))
    have hpath : ∀ v, (starts.foldl (visitFrom adj fuel) blank).color v ≠ .onPath := by
      intro v hv
      have hin := (hidle.onPath v).mp hv
      rw [hidle.path_nil] at hin
      exact absurd hin List.not_mem_nil
    refine hsealed.no_cycle ((hdone a).mp ?_) hcycle
    cases hc : (starts.foldl (visitFrom adj fuel) blank).color a with
    | unvisited => exact absurd hc hcolor
    | onPath => exact absurd hc (hpath a)
    | done => rfl
  · by_contra hsome
    obtain ⟨c, hc⟩ := List.exists_mem_of_ne_nil _ hsome
    exact hacyclic (hidle.sound c hc).transGen

end CycleSearch
