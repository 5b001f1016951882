import Ccos.Memory.WellFormed
import Ccos.Lib.Archive

/-!
# Out to the COLD tier and back

A demotion takes the incident edges along, and a page-in links those again whose other end is
resident. An edge between two demoted nodes is archived with the one that left first only, so it
survives exactly when that one comes back last.
-/

open Std

set_option linter.unusedSectionVars false

namespace Ccos.MemoryGraph

variable {F : Type} [Scalar F]

/-- How edges attach to nodes. -/
def edgeShape : Archive.Shape NodeId (GraphEdge F) Triple where
  src := GraphEdge.source
  tgt := GraphEdge.target
  key := GraphEdge.triple
  src_of_key e e' h := by
    simp only [GraphEdge.triple, Prod.mk.injEq] at h
    exact h.1
  tgt_of_key e e' h := by
    simp only [GraphEdge.triple, Prod.mk.injEq] at h
    exact h.2.1

/-- The graph as vertices with links: the content is the payload, and a COLD entry is a shelf. -/
def tiers (g : MemoryGraph F) : Archive.State NodeId (GraphEdge F) Str where
  present id := (g.nodes[id]?).map (·.content)
  links := g.edges
  shelf id := (g.cold[id]?).map fun c => (c.node.content, c.edges)

theorem tiers_present_isSome (g : MemoryGraph F) (id : NodeId) :
    (g.tiers.present id).isSome ↔ id ∈ g.nodes := by
  rw [tiers, Option.isSome_map, ExtTreeMap.mem_iff_isSome_getElem?]

theorem tiers_joined {g : MemoryGraph F} (hg : WellFormed g) : g.tiers.Joined edgeShape := by
  intro e he
  rw [Archive.State.joins_iff, tiers_present_isSome, tiers_present_isSome]
  exact hg.ends e he

theorem shape_touches (e : GraphEdge F) (id : NodeId) : edgeShape.touches e id = e.touches id := by
  rw [Bool.eq_iff_iff, Archive.Shape.touches_iff]
  simp [GraphEdge.touches, edgeShape]

theorem shape_other (e : GraphEdge F) (id : NodeId) : edgeShape.other e id = e.other id := by
  simp only [Archive.Shape.other, edgeShape, GraphEdge.other, beq_iff_eq]
  split <;> simp [*]

/-! ## Demotion -/

theorem tiers_demote (g : MemoryGraph F) (id : NodeId) :
    (g.demote id).tiers = g.tiers.evict edgeShape id := by
  cases hn : g.nodes[id]? with
  | none =>
    rw [demote_of_not_mem (not_mem_of_getElem?_eq_none hn)]
    simp [Archive.State.evict, tiers, hn]
  | some node =>
    have hpresent : g.tiers.present id = some node.content := by simp [tiers, hn]
    simp only [Archive.State.evict, hpresent]
    simp only [demote, hn, tiers, Archive.State.mk.injEq, shape_touches]
    refine ⟨?_, trivial, ?_⟩
    · funext k
      rw [getElem?_erase_eq, Function.update_apply]
      split <;> rfl
    · funext k
      rw [getElem?_insert_eq, Function.update_apply]
      split <;> rfl

theorem tiers_foldl_demote (ids : List NodeId) (g : MemoryGraph F) :
    (ids.foldl demote g).tiers = ids.foldl (Archive.State.evict edgeShape) g.tiers := by
  induction ids generalizing g with
  | nil => rfl
  | cons id ids ih => rw [List.foldl_cons, ih, tiers_demote, List.foldl_cons]

theorem pruneDanglingEdges_of_wellFormed {g : MemoryGraph F} (hg : WellFormed g) :
    g.pruneDanglingEdges = g := by
  have hedges : g.edges.filter g.hasEnds = g.edges := by
    rw [List.filter_eq_self]
    intro e he
    have := hg.ends e he
    simp [hasEnds, this.1, this.2]
  rw [pruneDanglingEdges, hedges]

/-- A round of paging makes some resident nodes leave. -/
theorem tiers_enforcePaging (h : Host F) {g : MemoryGraph F} (hg : WellFormed g) :
    ∃ ids : List NodeId, ids.Nodup ∧ (∀ id ∈ ids, id ∈ g.nodes) ∧
      (g.enforcePaging h).tiers = ids.foldl (Archive.State.evict edgeShape) g.tiers := by
  rw [enforcePaging_of_noSwap h hg.noSwap]
  split
  · exact ⟨[], List.nodup_nil, by simp, rfl⟩
  · have hout : WellFormed (g.evictionVictims.foldl demote g.fillScoreCaches) :=
      List.foldlRecOn g.evictionVictims demote (motive := WellFormed) hg.fillScoreCaches
        fun _ hg id _ => hg.demote id
    refine ⟨g.evictionVictims, g.nodup_evictionVictims, fun _ => mem_of_mem_evictionVictims, ?_⟩
    rw [pruneDanglingEdges_of_wellFormed hout, tiers_foldl_demote]
    rfl

/-- Entries that a round of paging archives have their content inline. -/
theorem cold_enforcePaging (h : Host F) {g : MemoryGraph F} (hg : NoSwap g) (id : NodeId) :
    ∀ c, (g.enforcePaging h).cold[id]? = some c → g.cold[id]? = some c ∨ c.spill = none := by
  refine enforcePaging_induct (P := fun g' => ∀ c, g'.cold[id]? = some c →
    g.cold[id]? = some c ∨ c.spill = none) h hg (fun _ hp => hp) ?_ (fun _ hp => hp) fun _ hc => Or.inl hc
  intro g' v hp c hc
  unfold demote at hc
  split at hc
  · exact hp c hc
  · simp only [getElem?_insert_eq] at hc
    split at hc
    · cases hc
      exact Or.inr rfl
    · exact hp c hc

/-! ## Page-in with room -/

theorem size_le_of_mem_imp {α β γ : Type} [Ord α] [TransOrd α] [LawfulEqOrd α] [DecidableEq α]
    {m : BTreeMap α β} {m' : BTreeMap α γ} (h : ∀ k ∈ m, k ∈ m') : m.size ≤ m'.size := by
  rw [← ExtTreeMap.length_keys, ← ExtTreeMap.length_keys]
  refine (List.subperm_of_subset ExtTreeMap.nodup_keys fun k hk => ?_).length_le
  exact ExtTreeMap.mem_keys.mpr (h k (ExtTreeMap.mem_keys.mp hk))

theorem relink_eq (g : MemoryGraph F) (archived : List (GraphEdge F)) :
    g.relink archived = Archive.State.relink edgeShape g.tiers.present g.edges archived := by
  have hjoins : ∀ e, g.hasEnds e = Archive.State.joins edgeShape g.tiers.present e := by
    intro e
    rw [Bool.eq_iff_iff, Archive.State.joins_iff, tiers_present_isSome, tiers_present_isSome]
    simp [hasEnds, edgeShape]
  unfold relink Archive.State.relink
  congr 1
  funext edges e
  have hkey : (fun x : GraphEdge F => x.triple == e.triple) =
      fun x => decide (edgeShape.key x = edgeShape.key e) := by
    funext x
    rw [Bool.eq_iff_iff, beq_iff_eq, decide_eq_true_iff]
    rfl
  rw [hjoins, hkey]

theorem tiers_restore (g : MemoryGraph F) {id : NodeId} {c : ColdNode F} (hc : g.cold[id]? = some c) :
    (g.restore id c).tiers = g.tiers.restore edgeShape id := by
  let inserted := { g.dropCold id with nodes := g.nodes.insert id (g.accessed c.node) }
  have hshelf : g.tiers.shelf id = some (c.node.content, c.edges) := by simp [tiers, hc]
  have hpresent : inserted.tiers.present = Function.update g.tiers.present id (some c.node.content) := by
    funext k
    simp only [tiers, inserted, getElem?_insert_eq, Function.update_apply]
    split <;> rfl
  have hcold : (fun k => ((g.cold.erase id)[k]?).map fun c => (c.node.content, c.edges)) =
      Function.update g.tiers.shelf id none := by
    funext k
    simp only [tiers, getElem?_erase_eq, Function.update_apply]
    split <;> rfl
  have hedges : (g.restore id c).edges =
      Archive.State.relink edgeShape inserted.tiers.present g.tiers.links c.edges :=
    relink_eq inserted c.edges
  rw [Archive.State.restore_of_shelf hshelf, ← hpresent, ← hcold, ← hedges]
  rfl

theorem makeRoom_of_room (id : NodeId) (fuel : Nat) {g : MemoryGraph F}
    (hroom : g.nodes.size ≤ g.maxInMemoryNodes) : makeRoom id fuel g = g := by
  cases fuel with
  | zero => rfl
  | succ fuel => simp only [makeRoom, hroom, if_true]

/-- With room for one more node, a page-in is a restoration. -/
theorem pageIn_of_room (h : Host F) {g : MemoryGraph F} (hg : WellFormed g) {id : NodeId} {c : ColdNode F}
    (hc : g.cold[id]? = some c) (hspill : c.spill = none)
    (hroom : (g.nodes.insert id (g.accessed c.node)).size ≤ g.maxInMemoryNodes) :
    (g.pageIn h id).1 = g.restore id c := by
  have hfits : (g.restore id c).nodes.size ≤ (g.restore id c).maxInMemoryNodes := hroom
  rw [pageIn_of_noSwap h hg.noSwap]
  simp only [hc, hspill, Option.isSome_none, Bool.false_eq_true, if_false]
  rw [makeRoom_of_room id _ hfits, pruneDanglingEdges_of_wellFormed (hg.restore id c)]

/-! ## Rounds of paging and page-ins -/

/-- Sets the cap and pages out, once for each cap. -/
def pagingRounds (F : Type) (caps : List Nat) : List (GraphOp F) :=
  caps.flatMap fun cap => [.setMaxInMemoryNodes cap, .enforcePaging]

/-- Makes room and pages in. -/
def pageIns (F : Type) (room : Nat) (order : List NodeId) : List (GraphOp F) :=
  .setMaxInMemoryNodes room :: order.map .pageIn

/-- The entries of the nodes that left have their content inline. -/
def Inline (g : MemoryGraph F) (gone : List NodeId) : Prop :=
  ∀ id ∈ gone, ∀ c, g.cold[id]? = some c → c.spill = none

theorem evicted_pagingRounds (h : Host F) {start g : MemoryGraph F} (hg : WellFormed g)
    {gone : List NodeId} (hev : Archive.State.Evicted edgeShape start.tiers gone g.tiers)
    (hinline : Inline g gone) (hgone : ∀ id ∈ gone, id ∈ start.nodes) (caps : List Nat) :
    ∃ all : List NodeId, Archive.State.Evicted edgeShape start.tiers all
        (g.run h (pagingRounds F caps)).tiers ∧
      Inline (g.run h (pagingRounds F caps)) all ∧ WellFormed (g.run h (pagingRounds F caps)) ∧
      ∀ id ∈ all, id ∈ start.nodes := by
  induction caps generalizing g gone with
  | nil => exact ⟨gone, hev, hinline, hg, hgone⟩
  | cons cap caps ih =>
    have hcapped : WellFormed { g with maxInMemoryNodes := cap } := hg.step h (.setMaxInMemoryNodes cap)
    obtain ⟨ids, hnd, hmem, htiers⟩ := tiers_enforcePaging h hcapped
    have habsent : ∀ id ∈ ids, id ∉ gone := by
      intro id hid hin
      have hpresent := (tiers_present_isSome g id).mpr (hmem id hid)
      rw [hev.absent id hin] at hpresent
      cases hpresent
    have hstart : ∀ id ∈ ids, (start.tiers.present id).isSome := by
      intro id hid
      rw [← hev.others id (habsent id hid)]
      exact (tiers_present_isSome g id).mpr (hmem id hid)
    obtain ⟨all, hall, hev'⟩ := Archive.State.evicted_foldl hev ids hnd habsent hstart
    refine ih (g := enforcePaging h { g with maxInMemoryNodes := cap }) (hcapped.enforcePaging h)
      (htiers ▸ hev') ?_ ?_
    · intro id hid c hc
      rcases cold_enforcePaging h hcapped.noSwap id c hc with hc | hc
      · rcases (hall id).mp hid with hin | hin
        · exact hinline id hin c hc
        · exact absurd (mem_of_getElem?_eq_some hc) (hg.disjoint id (hmem id hin))
      · exact hc
    · intro id hid
      rcases (hall id).mp hid with hin | hin
      · exact hgone id hin
      · exact (tiers_present_isSome start id).mp (hstart id hin)

theorem tiers_pageIns (h : Host F) {g : MemoryGraph F} (hg : WellFormed g) {start : MemoryGraph F}
    (hnodes : ∀ id ∈ g.nodes, id ∈ start.nodes) (hroom : start.nodes.size ≤ g.maxInMemoryNodes)
    {order : List NodeId} (hnd : order.Nodup) (horder : ∀ id ∈ order, id ∈ start.nodes)
    (hcold : ∀ id ∈ order, ∃ c, g.cold[id]? = some c ∧ c.spill = none) :
    (g.run h (order.map .pageIn)).tiers = order.foldl (Archive.State.restore edgeShape) g.tiers := by
  induction order generalizing g with
  | nil => rfl
  | cons id order ih =>
    rw [List.nodup_cons] at hnd
    rw [List.forall_mem_cons] at horder hcold
    obtain ⟨⟨c, hc, hspill⟩, hcold⟩ := hcold
    have hnodes' : ∀ k ∈ g.nodes.insert id (g.accessed c.node), k ∈ start.nodes := by
      intro k hk
      rcases mem_insert_iff.mp hk with rfl | hk
      · exact horder.1
      · exact hnodes k hk
    have hpage : g.step h (.pageIn id) = g.restore id c :=
      pageIn_of_room h hg hc hspill ((size_le_of_mem_imp hnodes').trans hroom)
    rw [List.map_cons, run_cons, hpage, List.foldl_cons, ← tiers_restore g hc]
    refine ih (hg.restore id c) hnodes' hroom hnd.2 horder.2 ?_
    intro k hk
    obtain ⟨c', hc', hspill'⟩ := hcold k hk
    have hne : k ≠ id := by
      rintro rfl
      exact hnd.1 hk
    refine ⟨c', ?_, hspill'⟩
    change (g.cold.erase id)[k]? = some c'
    rw [getElem?_erase_eq, if_neg hne, hc']

/-! ## The main result -/

/-- An edge as the snapshot of a structure compares it. -/
def linkOf (e : GraphEdge F) : Triple × F := (e.triple, e.weight)

/-- The same edges, as a set of links, and the same contents under the same ids. -/
structure SameStructure (g g' : MemoryGraph F) : Prop where
  edges : ∀ l, (∃ e ∈ g.edges, linkOf e = l) ↔ ∃ e ∈ g'.edges, linkOf e = l
  contents : ∀ id : NodeId, (g.nodes[id]?).map (·.content) = (g'.nodes[id]?).map (·.content)

/-- No node comes back before one that its archived edges lead to. -/
def ComesBackInOrder (out : MemoryGraph F) (order : List NodeId) : Prop :=
  ∀ before id after, order = before ++ id :: after →
    ∀ c, out.cold[id]? = some c → ∀ e ∈ c.edges, e.other id ∉ after

/-- Two edges of one triple at a node that left have one weight. -/
def NoTwins (g out : MemoryGraph F) : Prop :=
  ∀ e ∈ g.edges, ∀ e' ∈ g.edges, e.triple = e'.triple →
    (∃ id ∉ out.nodes, e.touches id) → e.weight = e'.weight

def Reachable (h : Host F) (g : MemoryGraph F) : Prop :=
  ∃ threshold cap ops, g = (new threshold cap).run h ops

theorem shelved_tiers {g : MemoryGraph F} {id : NodeId} {c : ColdNode F} (hc : g.cold[id]? = some c) :
    g.tiers.shelved id = c.edges := by
  simp [Archive.State.shelved, tiers, hc]

theorem inOrder_iff {out : MemoryGraph F} {order : List NodeId}
    (hcold : ∀ id ∈ order, ∃ c, out.cold[id]? = some c ∧ c.spill = none) :
    Archive.State.InOrder edgeShape out.tiers order ↔ ComesBackInOrder out order := by
  constructor
  · intro hord before id after hsplit c hc e he
    rw [← shape_other]
    exact hord before id after hsplit e (by rwa [shelved_tiers hc])
  · intro hord before id after hsplit e he
    obtain ⟨c, hc, -⟩ := hcold id (by simp [hsplit])
    rw [shelved_tiers hc] at he
    rw [shape_other]
    exact hord before id after hsplit c hc e he

theorem noTwins_iff {g out : MemoryGraph F} (hg : WellFormed g) {gone : List NodeId}
    (hgone : ∀ id, id ∈ gone ↔ id ∈ g.nodes ∧ id ∉ out.nodes) :
    Archive.State.NoTwins edgeShape g.tiers gone linkOf ↔ NoTwins g out := by
  have hmark : ∀ e e' : GraphEdge F, e.triple = e'.triple → (linkOf e = linkOf e' ↔ e.weight = e'.weight) := by
    intro e e' htriple
    simp [linkOf, htriple]
  constructor
  · rintro htwins e he e' he' htriple ⟨id, hid, htouch⟩
    have hnode : id ∈ g.nodes := by
      have hends := hg.ends e he
      simp only [GraphEdge.touches, Bool.or_eq_true, beq_iff_eq] at htouch
      rcases htouch with rfl | rfl
      · exact hends.1
      · exact hends.2
    refine (hmark e e' htriple).mp (htwins e he e' he' htriple ⟨id, (hgone id).mpr ⟨hnode, hid⟩, ?_⟩)
    rwa [shape_touches]
  · rintro htwins e he e' he' htriple ⟨id, hid, htouch⟩
    rw [shape_touches] at htouch
    exact (hmark e e' htriple).mpr (htwins e he e' he' htriple ⟨id, ((hgone id).mp hid).2, htouch⟩)

/-- Two nodes with an edge between them. Both page out in one round, the first of them with the edge. -/
def linkedPair : MemoryGraph ℚ :=
  (new (1 / 5) 2).run Host.ramOnly
    [.upsertNode ['a'] [] [] .symbol, .upsertNode ['b'] [] [] .symbol, .addEdge ['a'] ['b'] 1 .calls]

example : linkedPair.edgeSet.card = 1 := by decide +kernel

theorem reachable_linkedPair : Reachable Host.ramOnly linkedPair := ⟨_, _, _, rfl⟩

theorem mem_pair_iff {order : List NodeId} (hperm : order.Perm [['a'], ['b']]) (id : NodeId) :
    id ∈ order ↔ id ∈ linkedPair.nodes ∧
      id ∉ (linkedPair.run Host.ramOnly (pagingRounds ℚ [0])).nodes := by
  have hbefore : linkedPair.nodes.keys = [['a'], ['b']] := by decide
  have hout : (linkedPair.run Host.ramOnly (pagingRounds ℚ [0])).nodes.keys = [] := by decide +kernel
  rw [hperm.mem_iff, ← ExtTreeMap.mem_keys, ← ExtTreeMap.mem_keys, hbefore, hout]
  simp

end Ccos.MemoryGraph
