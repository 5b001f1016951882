import Ccos.Memory.EdgeIndex

/-!
# Belief propagation to a fixpoint

Derived edges change the beliefs that the next round reads, and a claim can change its sign. What
bounds the rounds is the duplicate index: it only grows, and every round asks for the same triples,
two for each `Causes` edge.
-/

open Std

set_option linter.unusedSectionVars false

namespace Ccos.MemoryGraph

variable {F : Type} [Scalar F]

/-- Sweeps until a sweep adds nothing or the rounds are used up. Returns the number of new edges. -/
def propagateBeliefsConverge (g : MemoryGraph F) (resolveThreshold damping : F) :
    Nat → MemoryGraph F × Nat
  | 0 => (g, 0)
  | rounds + 1 =>
    let swept := g.propagateBeliefs resolveThreshold damping
    if swept.2 = 0 then swept
    else
      let rest := swept.1.propagateBeliefsConverge resolveThreshold damping rounds
      (rest.1, swept.2 + rest.2)

def causesEdges (g : MemoryGraph F) : List (GraphEdge F) := g.edges.filter (·.edgeType == .causes)

/-- An evidence edge along a `Causes` edge that is no self-loop. -/
def Derivable (g : MemoryGraph F) (x : Triple) : Prop :=
  (x.2.2 = .supports ∨ x.2.2 = .contradicts) ∧
    ∃ c ∈ g.edges, c.edgeType = .causes ∧ c.source ≠ c.target ∧ c.source = x.1 ∧ c.target = x.2.1

/-! ## One insertion -/

/-- `add_edge` turns the request down. -/
def Refuses (g : MemoryGraph F) (x : Triple) : Prop :=
  x.1 ∉ g.nodes ∨ x.2.1 ∉ g.nodes ∨ x ∈ g.syncedEdgeSet

/-- What a pass that added the triples of `new` leaves. -/
structure Grown (g g' : MemoryGraph F) (new : List (GraphEdge F)) : Prop where
  nodes : g'.nodes = g.nodes
  edges : g'.edges = g.edges ++ new
  index : g'.syncedEdgeSet = g.syncedEdgeSet ∪ (new.map (·.triple)).toFinset
  fresh : ∀ e ∈ new, e.triple ∉ g.syncedEdgeSet
  nodup : (new.map (·.triple)).Nodup

theorem Grown.refl (g : MemoryGraph F) : Grown g g [] :=
  ⟨rfl, by simp, by simp, by simp, by simp⟩

theorem Grown.trans {a b c : MemoryGraph F} {new more : List (GraphEdge F)} (hab : Grown a b new)
    (hbc : Grown b c more) : Grown a c (new ++ more) := by
  have hout : ∀ e ∈ more, e.triple ∉ a.syncedEdgeSet ∧ e.triple ∉ (new.map (·.triple)).toFinset := by
    intro e he
    have hfresh := hbc.fresh e he
    rw [hab.index, Finset.mem_union] at hfresh
    exact not_or.mp hfresh
  refine ⟨hbc.nodes.trans hab.nodes, ?_, ?_, ?_, ?_⟩
  · rw [hbc.edges, hab.edges, List.append_assoc]
  · rw [hbc.index, hab.index, List.map_append, List.toFinset_append, Finset.union_assoc]
  · intro e he
    rcases List.mem_append.mp he with he | he
    · exact hab.fresh e he
    · exact (hout e he).1
  · rw [List.map_append, List.nodup_append]
    refine ⟨hab.nodup, hbc.nodup, ?_⟩
    rintro x hx y hy rfl
    obtain ⟨e, he, rfl⟩ := List.mem_map.mp hy
    exact (hout e he).2 (List.mem_toFinset.mpr hx)

/-- A pass that added nothing leaves what `add_edge` reads as it was. -/
theorem Grown.refuses {g g' : MemoryGraph F} (h : Grown g g' []) (x : Triple) :
    Refuses g' x ↔ Refuses g x := by
  unfold Refuses
  rw [h.nodes, h.index]
  simp

theorem grown_addEdge (g : MemoryGraph F) (s t : NodeId) (w : F) (ty : EdgeType) :
    ((g.addEdge s t w ty).2 = false ∧ Refuses g (s, t, ty) ∧ Grown g (g.addEdge s t w ty).1 []) ∨
    ((g.addEdge s t w ty).2 = true ∧ ¬ Refuses g (s, t, ty) ∧
      ∃ e : GraphEdge F, e.triple = (s, t, ty) ∧ Grown g (g.addEdge s t w ty).1 [e]) := by
  rcases addEdge_cases g s t w ty with ⟨hout, h⟩ | ⟨-, -, hmem, h⟩ | ⟨hs, ht, hnew, h⟩
  · left
    rw [h]
    refine ⟨rfl, ?_, Grown.refl g⟩
    unfold Refuses
    tauto
  · left
    rw [h]
    refine ⟨rfl, Or.inr (Or.inr hmem), ⟨rfl, by simp, ?_, by simp, by simp⟩⟩
    have hsync : CountedIndex.synced g.syncedEdgeSet g.triples = g.syncedEdgeSet := by
      rw [syncedEdgeSet_eq, CountedIndex.synced_synced]
    rw [syncedEdgeSet_eq, List.map_nil, List.toFinset_nil, Finset.union_empty]
    exact hsync
  · right
    rw [h]
    refine ⟨rfl, ?_, ⟨s, t, w, ty, g.clock⟩, rfl, rfl, rfl, ?_, ?_, by simp⟩
    · rintro (hno | hno | hno)
      · exact hno hs
      · exact hno ht
      · exact hnew hno
    · rw [syncedEdgeSet_eq] at hnew
      rw [syncedEdgeSet_eq, syncedEdgeSet_eq]
      have hpush := CountedIndex.synced_push hnew
      rw [Finset.union_comm]
      simpa [triples, GraphEdge.triple] using hpush
    · simpa [GraphEdge.triple] using hnew

/-! ## One pass -/

theorem foldl_addCounted (edges : List (NodeId × NodeId × F × EdgeType)) (g : MemoryGraph F) (n : Nat) :
    edges.foldl addCounted (g, n) = ((g.addEdges edges).1, n + (g.addEdges edges).2) := by
  unfold addEdges
  induction edges generalizing g n with
  | nil => rfl
  | cons e edges ih =>
    have hstep : ∀ n, edges.foldl addCounted (addCounted (g, n) e) =
        ((edges.foldl addCounted ((g.addEdge e.1 e.2.1 e.2.2.1 e.2.2.2).1, 0)).1,
          (if (g.addEdge e.1 e.2.1 e.2.2.1 e.2.2.2).2 then n + 1 else n) +
            (edges.foldl addCounted ((g.addEdge e.1 e.2.1 e.2.2.1 e.2.2.2).1, 0)).2) := fun n => ih _ _
    rw [List.foldl_cons, List.foldl_cons, hstep, hstep]
    split <;> simp only [Prod.mk.injEq, true_and] <;> omega

def requested (e : NodeId × NodeId × F × EdgeType) : Triple := (e.1, e.2.1, e.2.2.2)

/-- A pass adds exactly what it counts, and counts nothing only if every request is refused. -/
theorem grown_addEdges (edges : List (NodeId × NodeId × F × EdgeType)) (g : MemoryGraph F) :
    ∃ new, Grown g (g.addEdges edges).1 new ∧ new.length = (g.addEdges edges).2 ∧
      (∀ e ∈ new, ∃ r ∈ edges, e.triple = requested r) ∧
      (new = [] ↔ ∀ r ∈ edges, Refuses g (requested r)) := by
  induction edges generalizing g with
  | nil => exact ⟨[], Grown.refl g, rfl, by simp, by simp⟩
  | cons r edges ih =>
    have hstep : g.addEdges (r :: edges) =
        edges.foldl addCounted ((g.addEdge r.1 r.2.1 r.2.2.1 r.2.2.2).1,
          if (g.addEdge r.1 r.2.1 r.2.2.1 r.2.2.2).2 then 0 + 1 else 0) := rfl
    rw [hstep, foldl_addCounted]
    obtain ⟨new, hgrown, hlength, hfrom, hnone⟩ := ih (g.addEdge r.1 r.2.1 r.2.2.1 r.2.2.2).1
    rcases grown_addEdge g r.1 r.2.1 r.2.2.1 r.2.2.2 with ⟨hflag, href, hone⟩ | ⟨hflag, href, e, he, hone⟩
    · refine ⟨new, hone.trans hgrown, ?_, ?_, ?_⟩
      · rw [hflag]
        simp [hlength]
      · intro e he
        obtain ⟨r', hr', heq⟩ := hfrom e he
        exact ⟨r', List.mem_cons_of_mem _ hr', heq⟩
      · rw [hnone, List.forall_mem_cons, requested, and_iff_right href]
        simp only [hone.refuses]
    · refine ⟨e :: new, hone.trans hgrown, ?_, ?_, ?_⟩
      · rw [hflag, List.length_cons, hlength]
        simp only [if_true]
        omega
      · intro e' he'
        rcases List.mem_cons.mp he' with rfl | he'
        · exact ⟨r, List.mem_cons_self, he⟩
        · obtain ⟨r', hr', heq⟩ := hfrom e' he'
          exact ⟨r', List.mem_cons_of_mem _ hr', heq⟩
      · refine ⟨nofun, fun h => absurd (h r List.mem_cons_self) href⟩

/-! ## One sweep -/

def sweepRequests (g : MemoryGraph F) (resolveThreshold damping : F) :
    List (NodeId × NodeId × F × EdgeType) :=
  (dedupBy (fun a b => derivedKey a == derivedKey b)
    (sortBy (fun a b => compare (derivedKey a) (derivedKey b))
      (g.derivedEdges (Scalar.clamp01 resolveThreshold) (Scalar.clamp01 damping)))).map
    fun d => (d.source, d.target, d.weight, d.edgeType)

theorem propagateBeliefs_eq (g : MemoryGraph F) (threshold damping : F) :
    g.propagateBeliefs threshold damping = g.addEdges (g.sweepRequests threshold damping) := rfl

theorem derivable_of_derived {g : MemoryGraph F} {threshold damping : F} {d : Derived F}
    (hd : d ∈ g.derivedEdges threshold damping) : Derivable g (d.source, d.target, d.edgeType) := by
  unfold derivedEdges at hd
  obtain ⟨e, he, hsome⟩ := List.mem_filterMap.mp hd
  split at hsome
  · exact absurd hsome nofun
  · rename_i hguard
    simp only [Bool.or_eq_true, bne_iff_ne, ne_eq, beq_iff_eq, not_or, not_not] at hguard
    dsimp only at hsome
    split at hsome
    · exact absurd hsome nofun
    · obtain rfl := Option.some.inj hsome
      refine ⟨?_, e, he, hguard.1, hguard.2, rfl, rfl⟩
      unfold Derived.edgeType
      split
      · exact Or.inl rfl
      · exact Or.inr rfl

theorem derivable_of_requested {g : MemoryGraph F} {threshold damping : F}
    {r : NodeId × NodeId × F × EdgeType} (hr : r ∈ g.sweepRequests threshold damping) :
    Derivable g (requested r) := by
  obtain ⟨d, hd, rfl⟩ := List.mem_map.mp hr
  exact derivable_of_derived ((mem_sortBy _ _ d).mp ((sublist_dedupBy _ _).subset hd))

/-- Derived edges are no causes, so what can be derived stays the same. -/
theorem Grown.derivable {g g' : MemoryGraph F} {new : List (GraphEdge F)} (h : Grown g g' new)
    (hnew : ∀ e ∈ new, Derivable g e.triple) (x : Triple) : Derivable g' x ↔ Derivable g x := by
  unfold Derivable
  rw [h.edges]
  refine and_congr_right fun _ => ⟨?_, ?_⟩
  · rintro ⟨c, hc, hcauses, hrest⟩
    rcases List.mem_append.mp hc with hc | hc
    · exact ⟨c, hc, hcauses, hrest⟩
    · have hty : c.edgeType = .supports ∨ c.edgeType = .contradicts := (hnew c hc).1
      rw [hcauses] at hty
      rcases hty with hty | hty <;> exact absurd hty nofun
  · rintro ⟨c, hc, hrest⟩
    exact ⟨c, List.mem_append_left _ hc, hrest⟩

theorem grown_propagateBeliefs (g : MemoryGraph F) (threshold damping : F) :
    ∃ new, Grown g (g.propagateBeliefs threshold damping).1 new ∧
      new.length = (g.propagateBeliefs threshold damping).2 ∧ ∀ e ∈ new, Derivable g e.triple := by
  obtain ⟨new, hgrown, hlength, hfrom, -⟩ := grown_addEdges (g.sweepRequests threshold damping) g
  refine ⟨new, hgrown, hlength, fun e he => ?_⟩
  obtain ⟨r, hr, heq⟩ := hfrom e he
  exact heq ▸ derivable_of_requested hr

theorem sweepRequests_congr {g g' : MemoryGraph F} (hedges : g'.edges = g.edges) (threshold damping : F) :
    g'.sweepRequests threshold damping = g.sweepRequests threshold damping := by
  unfold sweepRequests derivedEdges qbelief evidenceSum
  rw [hedges]

/-- After a sweep that adds nothing the next one adds nothing either. -/
theorem propagateBeliefs_again {g : MemoryGraph F} {threshold damping : F}
    (h : (g.propagateBeliefs threshold damping).2 = 0) :
    ((g.propagateBeliefs threshold damping).1.propagateBeliefs threshold damping).2 = 0 := by
  rw [propagateBeliefs_eq] at h ⊢
  obtain ⟨new, hgrown, hlength, -, hnone⟩ := grown_addEdges (g.sweepRequests threshold damping) g
  have hnil : new = [] := List.length_eq_zero_iff.mp (hlength.trans h)
  subst hnil
  have hrefused := hnone.mp rfl
  obtain ⟨again, -, hcount, -, hall⟩ :=
    grown_addEdges ((g.addEdges (g.sweepRequests threshold damping)).1.sweepRequests threshold damping)
      (g.addEdges (g.sweepRequests threshold damping)).1
  rw [propagateBeliefs_eq, ← hcount, List.length_eq_zero_iff, hall,
    sweepRequests_congr (hgrown.edges.trans (List.append_nil _))]
  exact fun r hr => (hgrown.refuses _).mpr (hrefused r hr)

/-! ## The rounds -/

/-- Two triples a `Causes` edge. -/
def derivableTriples (g : MemoryGraph F) : Finset Triple :=
  (g.causesEdges.flatMap fun c =>
    [(c.source, c.target, EdgeType.supports), (c.source, c.target, EdgeType.contradicts)]).toFinset

theorem mem_derivableTriples {g : MemoryGraph F} {x : Triple} (hx : Derivable g x) : x ∈ g.derivableTriples := by
  obtain ⟨hty, c, hc, hcauses, -, hs, ht⟩ := hx
  obtain ⟨s, t, ty⟩ := x
  dsimp only at hty hs ht
  subst hs ht
  refine List.mem_toFinset.mpr (List.mem_flatMap.mpr ⟨c, List.mem_filter.mpr ⟨hc, by simp [hcauses]⟩, ?_⟩)
  rcases hty with rfl | rfl <;> simp

theorem card_derivableTriples (g : MemoryGraph F) : g.derivableTriples.card ≤ 2 * g.causesEdges.length := by
  refine (List.toFinset_card_le _).trans ?_
  rw [List.length_flatMap]
  simp [Nat.mul_comm]

/-- New triples are distinct, so there are no more of them than can be derived. -/
theorem Grown.length_le {g g' : MemoryGraph F} {new : List (GraphEdge F)} (h : Grown g g' new)
    (hnew : ∀ e ∈ new, Derivable g e.triple) : new.length ≤ 2 * g.causesEdges.length := by
  have hsub : (new.map (·.triple)).toFinset ⊆ g.derivableTriples := by
    intro x hx
    obtain ⟨e, he, rfl⟩ := List.mem_map.mp (List.mem_toFinset.mp hx)
    exact mem_derivableTriples (hnew e he)
  have hcard := (Finset.card_le_card hsub).trans g.card_derivableTriples
  rwa [List.toFinset_card_of_nodup h.nodup, List.length_map] at hcard

/-- Either the rounds end at a fixpoint or each of them added an edge. -/
theorem grown_converge (threshold damping : F) (rounds : Nat) (g : MemoryGraph F) :
    ∃ new, Grown g (g.propagateBeliefsConverge threshold damping rounds).1 new ∧
      new.length = (g.propagateBeliefsConverge threshold damping rounds).2 ∧
      (∀ e ∈ new, Derivable g e.triple) ∧
      (((g.propagateBeliefsConverge threshold damping rounds).1.propagateBeliefs threshold damping).2 = 0 ∨
        rounds ≤ new.length) := by
  induction rounds generalizing g with
  | zero => exact ⟨[], Grown.refl g, rfl, by simp, Or.inr (Nat.le_refl 0)⟩
  | succ rounds ih =>
    obtain ⟨swept, hswept, hcount, hfrom⟩ := grown_propagateBeliefs g threshold damping
    unfold propagateBeliefsConverge
    dsimp only
    by_cases hzero : (g.propagateBeliefs threshold damping).2 = 0
    · rw [if_pos hzero]
      exact ⟨swept, hswept, hcount, hfrom, Or.inl (propagateBeliefs_again hzero)⟩
    · rw [if_neg hzero]
      obtain ⟨rest, hrest, hlength, hrestFrom, hend⟩ := ih (g.propagateBeliefs threshold damping).1
      refine ⟨swept ++ rest, hswept.trans hrest, ?_, ?_, ?_⟩
      · rw [List.length_append, hcount, hlength]
      · intro e he
        rcases List.mem_append.mp he with he | he
        · exact hfrom e he
        · exact (hswept.derivable hfrom _).mp (hrestFrom e he)
      · refine hend.imp id fun hrounds => ?_
        rw [List.length_append]
        omega

/-- A further sweep adds nothing. -/
def AtFixpoint (g : MemoryGraph F) (threshold damping : F) : Prop :=
  (g.propagateBeliefs threshold damping).2 = 0 ∧ (g.propagateBeliefs threshold damping).1.edges = g.edges

/-- The rounds reach a fixpoint, and all they do is append evidence along causes. -/
theorem converge_reaches_fixpoint (g : MemoryGraph F) (threshold damping : F) (maxRounds : Nat)
    (hrounds : 2 * g.causesEdges.length + 1 ≤ maxRounds) :
    (g.propagateBeliefsConverge threshold damping maxRounds).2 ≤ 2 * g.causesEdges.length ∧
    AtFixpoint (g.propagateBeliefsConverge threshold damping maxRounds).1 threshold damping ∧
    (g.propagateBeliefsConverge threshold damping maxRounds).1.nodes = g.nodes ∧
    ∃ new, (g.propagateBeliefsConverge threshold damping maxRounds).1.edges = g.edges ++ new ∧
      new.length = (g.propagateBeliefsConverge threshold damping maxRounds).2 ∧
      ∀ e ∈ new, (e.edgeType = .supports ∨ e.edgeType = .contradicts) ∧
        ∃ c ∈ g.edges, c.edgeType = .causes ∧ c.source ≠ c.target ∧ c.source = e.source ∧ c.target = e.target := by
  obtain ⟨new, hgrown, hlength, hfrom, hend⟩ := grown_converge threshold damping maxRounds g
  have hbound := hgrown.length_le hfrom
  have hfix : ((g.propagateBeliefsConverge threshold damping maxRounds).1.propagateBeliefs threshold damping).2 = 0 := by
    rcases hend with hfix | hmany
    · exact hfix
    · omega
  obtain ⟨more, hmore, hcount, -⟩ :=
    grown_propagateBeliefs (g.propagateBeliefsConverge threshold damping maxRounds).1 threshold damping
  obtain rfl : more = [] := List.length_eq_zero_iff.mp (hcount.trans hfix)
  have hsame := hmore.edges
  rw [List.append_nil] at hsame
  exact ⟨hlength ▸ hbound, ⟨hfix, hsame⟩, hgrown.nodes, new, hgrown.edges, hlength, hfrom⟩

/-- Two claims that cause each other, one of them supported. -/
def mutualCauses : MemoryGraph ℚ :=
  let claim (id : Str) : GraphNode ℚ :=
    { id, label := id, content := [], nodeType := .contextBlock, baseImportance := 0, failureRelevance := 0, recency := 1
      accessCount := 1, createdAt := 0, lastAccessed := 0, state := .stable, trust := 1 }
  let nodes : BTreeMap NodeId (GraphNode ℚ) :=
    ((∅ : BTreeMap NodeId (GraphNode ℚ)).insert "a".toList (claim "a".toList)).insert "b".toList (claim "b".toList)
  { MemoryGraph.new (1 / 5 : ℚ) 10 with
    nodes
    edges := [⟨"a".toList, "b".toList, 1, .causes, 0⟩, ⟨"b".toList, "a".toList, 1, .causes, 0⟩,
      ⟨"b".toList, "a".toList, 1, .supports, 0⟩] }

theorem converge_reaches_fixpoint_on_a_cycle :
    AtFixpoint (mutualCauses.propagateBeliefsConverge (1 / 5) 1 5).1 (1 / 5) 1 :=
  (converge_reaches_fixpoint mutualCauses (1 / 5) 1 5 (by decide)).2.1

end Ccos.MemoryGraph
