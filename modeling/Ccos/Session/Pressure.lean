import Ccos.Session.Memory
import Ccos.Memory.Reach
import Ccos.Memory.Swap

/-!
# The reach of a failure signal

A signal is documented to press nodes up to `depth` hops downstream. It presses those one hop further too, unless
its floor stops it before, and sets its node to the severity even from above.
-/

open Std Walks

set_option linter.unusedSectionVars false

namespace Ccos

namespace MemoryGraph

variable {F : Type} [Scalar F]

/-- A page-in changes no other node that stays, and one that fails changes none. -/
theorem pageIn_nodes (h : Host F) (g : MemoryGraph F) (id : NodeId) :
    ((g.pageIn h id).2 = false → (g.pageIn h id).1.nodes = g.nodes) ∧
      ∀ k ≠ id, ∀ n, (g.pageIn h id).1.nodes[k]? = some n → g.nodes[k]? = some n := by
  have hdeep := (faultDeep_frame h g id).nodes
  unfold pageIn
  generalize g.faultDeep h id = faulted at hdeep
  obtain ⟨g₁, ok⟩ := faulted
  cases ok with
  | false => exact ⟨fun _ => hdeep, fun k _ n hn => hdeep ▸ hn⟩
  | true =>
    have hcontent := (faultContent_frame h g₁ id).nodes
    dsimp only
    generalize g₁.faultContent h id = faulted at hcontent
    obtain ⟨g₂, ok⟩ := faulted
    have hsame : g₂.nodes = g.nodes := hcontent.trans hdeep
    cases ok with
    | false => exact ⟨fun _ => hsame, fun k _ n hn => hsame ▸ hn⟩
    | true =>
      dsimp only
      split
      · exact ⟨fun _ => hsame, fun k _ n hn => hsame ▸ hn⟩
      · rename_i c _
        refine ⟨fun hfalse => absurd hfalse Bool.noConfusion, fun k hk n hn => ?_⟩
        rw [(enforceColdBudgets_frame h _).nodes] at hn
        refine makeRoom_induct (P := fun g' => ∀ n, g'.nodes[k]? = some n → g.nodes[k]? = some n) id
          (fun _ hg' => hg') (fun g' v hg' _ _ n hn => ?_) _ _ (fun n hn => ?_) n hn
        · rw [demote_nodes, getElem?_erase_eq] at hn
          split at hn
          · exact absurd hn (by simp)
          · exact hg' n hn
        · change (g₂.nodes.insert id (g₂.accessed c.node))[k]? = some n at hn
          rw [getElem?_insert_eq, if_neg hk, hsame] at hn
          exact hn

end MemoryGraph

open MemoryGraph

namespace CcosMemory

section

variable {F : Type} [Scalar F]

/-- The graph that a signal spreads over: its node is paged in first. -/
def pressedFrom (t : Tools F) (m : CcosMemory F) (node : Str) : MemoryGraph F :=
  if normalize node ∈ m.graph.nodes then m.graph else (m.graph.pageIn t.toHost (normalize node)).1

theorem signalFailure_graph (t : Tools F) (m : CcosMemory F) (node : Str) (depth : Nat) :
    (m.signalFailure t node depth).graph = (m.pressedFrom t node).signalled (normalize node) depth ∨
      normalize node ∉ m.graph.nodes ∧ (m.signalFailure t node depth).graph = m.pressedFrom t node ∧
        (m.pressedFrom t node).nodes = m.graph.nodes := by
  unfold signalFailure pressedFrom
  dsimp only
  by_cases hid : normalize node ∈ m.graph.nodes
  · rw [if_pos hid, if_pos hid]
    exact .inl rfl
  · rw [if_neg hid, if_neg hid]
    cases hpage : (m.graph.pageIn t.toHost (normalize node)).2 with
    | true => exact .inl rfl
    | false => exact .inr ⟨hid, rfl, (pageIn_nodes t.toHost m.graph (normalize node)).1 hpage⟩

theorem pressedFrom_others {t : Tools F} {m : CcosMemory F} {node : Str} {k : NodeId} (hk : k ≠ normalize node)
    {n : GraphNode F} (hn : (m.pressedFrom t node).nodes[k]? = some n) : m.graph.nodes[k]? = some n := by
  unfold pressedFrom at hn
  split at hn
  · exact hn
  · exact (pageIn_nodes t.toHost m.graph (normalize node)).2 k hk n hn

end

variable {F : Type} [Float64 F] [RoundedArithmetic F]

open Scalar RoundedArithmetic

/-- What is said of a signal: it changes only nodes within `depth` edges of its own, keeps every relevance between
zero and one, and lowers none when no weight is negative. A page-in of its node comes before. -/
structure DocumentedReach (t : Tools F) (m : CcosMemory F) (node : Str) (depth : Nat) : Prop where
  frame : ∀ (k : NodeId) n', (m.signalFailure t node depth).graph.nodes[k]? = some n' → k ≠ normalize node →
    ∃ n, m.graph.nodes[k]? = some n ∧
      (n'.pressure = n.pressure ∨ ∃ d ≤ depth, Walk (m.pressedFrom t node).Linked d (normalize node) k)
  unit : UnitRelevances m.graph → UnitRelevances (m.signalFailure t node depth).graph
  grows : UnitRelevances m.graph → (∀ e ∈ (m.pressedFrom t node).edges, 0 ≤ value e.weight) →
    NoneDecreases (m.pressedFrom t node) (m.signalFailure t node depth).graph

theorem documentedReach_of {t : Tools F} {m : CcosMemory F} {node : Str} {depth : Nat}
    (hnum : FiniteNumbers (m.pressedFrom t node)) (hbeyond : NoneJustBeyond (m.pressedFrom t node) (normalize node) depth)
    (hlow : NotAboveSeverity (m.pressedFrom t node) (normalize node)) : DocumentedReach t m node depth := by
  have hothers : UnitRelevances m.graph → ∀ k ≠ normalize node, ∀ n, (m.pressedFrom t node).nodes[k]? = some n →
      InUnit n.failureRelevance := fun hunit k hk n hn => hunit k n (pressedFrom_others hk hn)
  rcases signalFailure_graph t m node depth with hgraph | ⟨hid, hgraph, hnodes⟩
  · refine ⟨fun k n' hn' hk => ?_, fun hunit => ?_, fun hunit hweights => ?_⟩
    · rw [hgraph] at hn'
      by_cases hnear : ∃ d ≤ depth, Walk (m.pressedFrom t node).Linked d (normalize node) k
      · have hin : k ∈ (m.pressedFrom t node).nodes :=
          ((signalled_onlyFields _ _ depth).mem_nodes k).mp (mem_of_getElem?_eq_some hn')
        obtain ⟨n, hn⟩ := exists_getElem?_of_mem hin
        exact ⟨n, pressedFrom_others hk hn, .inr hnear⟩
      · rw [signalled_reach hbeyond hk fun d hd hwalk => hnear ⟨d, hd, hwalk⟩] at hn'
        exact ⟨n', pressedFrom_others hk hn', .inl rfl⟩
    · rw [hgraph]
      exact unitRelevances_signalled hnum depth (hothers hunit)
    · rw [hgraph]
      exact noneDecreases_signalled hnum depth (hothers hunit) hlow hweights
  · refine ⟨fun k n' hn' _ => ?_, fun hunit k n hn => ?_, fun _ _ k n n' hn hn' => ?_⟩
    · rw [hgraph, hnodes] at hn'
      exact ⟨n', hn', .inl rfl⟩
    · rw [hgraph, hnodes] at hn
      exact hunit k n hn
    · rw [hgraph, hn] at hn'
      cases hn'
      exact le_rfl

/-- The memory over the flattened graph. -/
theorem not_documentedReach {t : Tools F} {m : CcosMemory F} {node : Str} {depth : Nat} {n : GraphNode F}
    (hn : (m.pressedFrom t node).nodes[normalize node]? = some n) (hunit : InUnit n.failureRelevance)
    (hfails : ¬ (NoneJustBeyond (m.pressedFrom t node) (normalize node) depth ∧
      NotAboveSeverity (m.pressedFrom t node) (normalize node))) :
    ∃ m' : CcosMemory F, SameShape (m.pressedFrom t node) (m'.pressedFrom t node) (normalize node) ∧
      FiniteNumbers (m'.pressedFrom t node) ∧ ¬ DocumentedReach t m' node depth := by
  generalize m.pressedFrom t node = g at hn hfails
  have hshape := flattened_sameShape g (normalize node)
  have hin : normalize node ∈ (g.flattened (normalize node)).nodes := (hshape.nodes _).mpr (mem_of_getElem?_eq_some hn)
  obtain ⟨m', hgraph, hbase, hsignal⟩ : ∃ m' : CcosMemory F, m'.graph = g.flattened (normalize node) ∧
      m'.pressedFrom t node = g.flattened (normalize node) ∧
      (m'.signalFailure t node depth).graph = (g.flattened (normalize node)).signalled (normalize node) depth := by
    refine ⟨{ m with graph := g.flattened (normalize node) }, rfl, if_pos hin, ?_⟩
    unfold signalFailure
    dsimp only
    rw [if_pos hin]
    rfl
  have hkeeps := signalled_onlyFields (g.flattened (normalize node)) (normalize node) depth
  refine ⟨m', hbase ▸ hshape, hbase ▸ flattened_numbers g _, fun hdoc => hfails ⟨fun k hk hdist => ?_, fun n₀ hn₀ => ?_⟩⟩
  · have hne : k ≠ normalize node := by
      rintro rfl
      exact hdist.2 0 (Nat.succ_pos depth) (Walk.nil _)
    obtain ⟨n', hn'⟩ := exists_getElem?_of_mem ((hkeeps.mem_nodes k).mpr ((hshape.nodes k).mpr hk))
    obtain ⟨n₁, hn₁, hsame | ⟨d, hd, hwalk⟩⟩ := hdoc.frame k n' (hsignal ▸ hn') hne
    · -- It was stale, and the press made it fresh.
      rw [hgraph, getElem?_flattened] at hn₁
      obtain ⟨n₂, -, rfl⟩ := Option.map_eq_some_iff.mp hn₁
      have hfresh : n'.recency = lit 1 := flattened_presses hn hunit hdist.1 n' hn'
      have hvalues := congrArg (fun x : F × F × Nat => value x.2.1) hsame
      simp only [GraphNode.pressure, hfresh, lit_one, lit_zero] at hvalues
      exact one_ne_zero hvalues
    · rw [hbase, flattened_linked] at hwalk
      exact hdist.2 d (Nat.lt_succ_of_le hd) hwalk
  · rw [hn] at hn₀
    cases hn₀
    obtain ⟨n', hn'⟩ := exists_getElem?_of_mem ((hkeeps.mem_nodes _).mpr hin)
    have hgrows := hdoc.grows (hgraph ▸ flattened_unit hn hunit) (fun e he => (flattened_weight (hbase ▸ he)).ge)
      (normalize node) _ n' (by rw [hbase, getElem?_flattened, hn]; rfl) (hsignal ▸ hn')
    dsimp only at hgrows
    rw [if_pos rfl] at hgrows
    exact hgrows.trans (flattened_stays hn hunit depth hn')

def chainOfThree : CcosMemory ℚ :=
  { CcosMemory.new with
    graph := ofEdges ["file:a".toList, "file:b".toList, "file:c".toList]
      [("file:a".toList, "file:b".toList, .dependsOn), ("file:b".toList, "file:c".toList, .dependsOn)] }

example : chainOfThree.graph.nodes.size = 3 := by decide +kernel

/-- Tools whose parser finds nothing. -/
def emptyTools : Tools ℚ := .plain fun _ _ => .empty

theorem chainOfThree_pressedFrom : chainOfThree.pressedFrom emptyTools "file:a".toList = chainOfThree.graph :=
  if_pos (by decide)

theorem chainOfThree_ids {k : NodeId} (hk : k ∈ chainOfThree.graph.nodes) :
    k ∈ ["file:a".toList, "file:b".toList, "file:c".toList] := by
  have hkeys : chainOfThree.graph.nodes.keys = ["file:a".toList, "file:b".toList, "file:c".toList] := by decide
  rw [← hkeys]
  exact ExtTreeMap.mem_keys.mpr hk

theorem linked_a_b : chainOfThree.graph.Linked "file:a".toList "file:b".toList := by
  unfold Linked
  decide

theorem linked_b_c : chainOfThree.graph.Linked "file:b".toList "file:c".toList := by
  unfold Linked
  decide

end CcosMemory

end Ccos
