import Ccos.Memory.Shelves

/-!
# The neighbours that the index answers with

In every run, with a swap file or without, the cold neighbours of a node are the other ends of the
edges that some COLD entry archives. Every operation keeps the shelves in order, and one lemma reads
the answer off them.
-/

open Std MirrorIndex

set_option linter.unusedSectionVars false

namespace Ccos

section Reparse

variable {F : Type} [Scalar F]

/-- What reading back keeps of every value, it keeps of the map. -/
theorem map_reparseMap {β γ : Type} {reparse : β → Option β} {m m' : BTreeMap NodeId β} (f : β → γ)
    (hf : ∀ v v', reparse v = some v' → f v' = f v) (h : reparseMap reparse m = some m') (k : NodeId) :
    (m'[k]?).map f = (m[k]?).map f := by
  unfold reparseMap at h
  split at h
  · rename_i hall
    cases h
    rw [ExtTreeMap.getElem?_map, Option.map_map]
    cases hk : m[k]? with
    | none => rfl
    | some v =>
      have hread := List.all_eq_true.mp hall (k, v) (ExtTreeMap.mem_toList_iff_getElem?_eq_some.mpr hk)
      obtain ⟨v', hv'⟩ := Option.isSome_iff_exists.mp hread
      simp only [Option.map_some, Function.comp_apply, hv', Option.getD_some, hf v v' hv']
  · cases h

theorem GraphNode.reparse_id {n n' : GraphNode F} (h : n.reparse = some n') : n'.id = n.id := by
  simp only [GraphNode.reparse, Option.bind_eq_bind, Option.bind_eq_some_iff, Option.some.injEq] at h
  obtain ⟨_, -, _, -, _, -, _, -, rfl⟩ := h
  rfl

theorem ColdNode.reparse_links {c c' : ColdNode F} (h : c.reparse = some c') : c'.links = c.links := by
  simp only [ColdNode.reparse, Option.bind_eq_bind, Option.bind_eq_some_iff, Option.some.injEq] at h
  obtain ⟨node, hnode, edges, hedges, rfl⟩ := h
  have hends := congrArg (List.map fun t : Triple => (t.1, t.2.1)) (MemoryGraph.mapM_reparse_ends hedges)
  rw [List.map_map, List.map_map] at hends
  exact Prod.ext (GraphNode.reparse_id hnode) hends

end Reparse

namespace MemoryGraph

variable {F : Type} [Scalar F]

/-! ## Nodes and edges -/

theorem ids_of_modify {nodes : BTreeMap NodeId (GraphNode F)} {id : NodeId} {f : GraphNode F → GraphNode F}
    (hf : ∀ n, (f n).id = n.id) (k : NodeId) (n' : GraphNode F) (h : (nodes.modify id f)[k]? = some n') :
    ∃ n, nodes[k]? = some n ∧ n'.id = n.id := by
  rw [getElem?_modify_eq] at h
  split at h
  · obtain ⟨n, hn, rfl⟩ := Option.map_eq_some_iff.mp h
    exact ⟨n, hn, hf n⟩
  · exact ⟨n', h, rfl⟩

theorem ids_of_map {nodes : BTreeMap NodeId (GraphNode F)} {f : NodeId → GraphNode F → GraphNode F}
    (hf : ∀ k n, (f k n).id = n.id) (k : NodeId) (n' : GraphNode F) (h : (nodes.map f)[k]? = some n') :
    ∃ n, nodes[k]? = some n ∧ n'.id = n.id := by
  rw [ExtTreeMap.getElem?_map] at h
  obtain ⟨n, hn, rfl⟩ := Option.map_eq_some_iff.mp h
  exact ⟨n, hn, hf k n⟩

section Steps

variable {h : Host F} {g g' : MemoryGraph F} {husks : BTreeMap NodeId DeepHusk}

theorem Shelved.onlyNodes (hg : Shelved h g husks)
    (hnodes : ∀ (id : NodeId) n', g'.nodes[id]? = some n' → ∃ n, g.nodes[id]? = some n ∧ n'.id = n.id)
    (hcold : g'.cold = g.cold) (hhusks : g'.huskStore = g.huskStore) (hradj : g'.radj = g.radj) :
    Shelved h g' husks :=
  hg.edit hnodes (fun _ => by rw [hcold]) (hhusks ▸ hg.index) (fun hnone => hhusks.trans hnone) hradj

theorem Shelved.onlyEdges (hg : Shelved h g husks) (hstep : OnlyEdges g g') : Shelved h g' husks := by
  obtain ⟨edges, edgeSet, rfl⟩ := hstep
  exact hg.entries rfl rfl rfl fun _ => rfl

/-- Pressure changes no id. -/
theorem Shelved.propagateFailure (hg : Shelved h g husks) (origin : NodeId) (depth maxDepth : Nat) :
    Shelved h (g.propagateFailure origin depth maxDepth) husks :=
  propagateFrom_induct (P := fun g => Shelved h g husks)
    (fun _ _ _ hg => hg.onlyNodes (ids_of_modify fun _ => rfl) rfl rfl rfl) _ _ _ _ hg

/-- Without the husks, which no store holds any more. -/
theorem Shelves.clear (hg : Shelves h g husks) : Shelves h g ∅ where
  nodeId := hg.nodeId
  resident id hid := ⟨(hg.resident id hid).1, ExtTreeMap.not_mem_empty⟩
  full id c hc := ⟨(hg.full id c hc).1, ExtTreeMap.not_mem_empty⟩
  deep id husk hhusk := by
    rw [ExtTreeMap.getElem?_empty] at hhusk
    cases hhusk
  once := by
    have hsub : ∀ a b, filed g.cold ∅ a b → filed g.cold husks a b := by
      rintro a b (hfull | ⟨husk, hhusk, -⟩)
      · exact Or.inl hfull
      · rw [ExtTreeMap.getElem?_empty] at hhusk
        cases hhusk
    exact fun a b hne hab hba => hg.once a b hne (hsub a b hab) (hsub b a hba)

theorem Shelved.detachColdSpill (hg : Shelved h g husks) : Shelved h g.detachColdSpill ∅ where
  toShelves := hg.toShelves.clear.edit (fun _ n hn => ⟨n, hn, rfl⟩) fun _ => rfl
  index := rfl
  adjacency r hr := by cases hr
  attached _ := rfl

/-- A reload keeps the ids and the links, and starts without a swap file. -/
theorem Shelved.reload (hg : Shelved h g husks) (hr : g.reload = some g') : Shelved h g' ∅ := by
  simp only [MemoryGraph.reload, Option.map_eq_some_iff, GraphSnapshot.reparse, Option.bind_eq_bind,
    Option.bind_eq_some_iff, Option.some.injEq] at hr
  obtain ⟨s, ⟨nodes, hnodes, edges, -, -, -, -, -, -, -, cold, hcold, rfl⟩, rfl⟩ := hr
  refine ⟨hg.toShelves.clear.edit (fun k n' hn' => ?_) ?_, rfl, fun r hr => (by cases hr), fun _ => rfl⟩
  · have hid := map_reparseMap GraphNode.id (fun _ _ => GraphNode.reparse_id) hnodes k
    have hn' : nodes[k]? = some n' := hn'
    rw [hn', Option.map_some, eq_comm, Option.map_eq_some_iff] at hid
    obtain ⟨n, hn, hid⟩ := hid
    exact ⟨n, hn, hid.symm⟩
  · exact map_reparseMap ColdNode.links (fun _ _ => ColdNode.reparse_links) hcold

theorem Lists.flush {r : HuskStore Unit} {index : NodeId → NodeId → Prop} (hr : Lists r index) :
    Lists r.flush index := by
  obtain ⟨hplain, keys, hholds, hkeys⟩ := hr
  exact ⟨hplain, keys, HuskStore.Holds.flush hholds, hkeys⟩

theorem Shelved.flushColdTier (hg : Shelved h g husks) : Shelved h g.flushColdTier husks := by
  refine ⟨hg.toShelves.edit (fun _ n hn => ⟨n, hn, rfl⟩) fun _ => rfl, ?_, ?_, ?_⟩
  · have hindex := hg.index
    change HoldsHusks (g.huskStore.map (·.flush)) husks
    generalize g.huskStore = store at hindex
    cases store with
    | none => exact hindex
    | some hs => exact HuskStore.Holds.flush hindex
  · intro r' hr'
    obtain ⟨r, hr, rfl⟩ := Option.map_eq_some_iff.mp hr'
    obtain ⟨index, hlists, hmirrors⟩ := hg.adjacency r hr
    exact ⟨index, hlists.flush, hmirrors⟩
  · intro hnone
    change g.huskStore.map _ = none
    rw [hg.attached (Option.map_eq_none_iff.mp hnone), Option.map_none]

/-! ## Attaching -/

theorem ListsFiled.foldl {radj : Option (HuskStore Unit)} {filed : NodeId → NodeId → Prop}
    (hradj : ListsFiled radj filed) (rows : List (NodeId × List NodeId))
    (hplain : ∀ row ∈ rows, Plain row.1 ∧ ∀ o ∈ row.2, Plain o) :
    ListsFiled (rows.foldl (fun radj row => MemoryGraph.radjAdd radj row.1 row.2) radj)
      (rows.foldl (fun filed row => fileRow filed row.1 row.2) filed) := by
  induction rows generalizing radj filed with
  | nil => exact hradj
  | cons row rows ih =>
    obtain ⟨hid, hrow⟩ := hplain row List.mem_cons_self
    exact ih (hradj.radjAdd hid hrow) fun row' hmem => hplain row' (List.mem_cons_of_mem _ hmem)

theorem foldl_radjAdd_ne_none (rows : List (NodeId × List NodeId)) (r : HuskStore Unit) :
    rows.foldl (fun radj row => radjAdd radj row.1 row.2) (some r) ≠ none := by
  induction rows generalizing r with
  | nil => simp
  | cons row rows ih => exact ih _

theorem Shelved.attachColdSpill (hg : Shelved h g husks) (inlineBudget : Nat) :
    ∃ husks', Shelved h (g.attachColdSpill h inlineBudget) husks' := by
  let rows : List (NodeId × List NodeId) := g.cold.toList.map fun kv => (kv.1, kv.2.edges.map (·.other kv.1))
  have hradj : g.cold.toList.foldl (fun r kv => radjAdd r kv.1 (kv.2.edges.map (·.other kv.1)))
      (some (HuskStore.new 4096 1024)) =
      rows.foldl (fun radj row => radjAdd radj row.1 row.2) (some (HuskStore.new 4096 1024)) := by
    rw [List.foldl_map]
  have hempty : ListsFiled (some (HuskStore.new 4096 1024)) fun _ _ => False := by
    intro r hr
    cases hr
    exact ⟨_, lists_new 4096 1024, mirrors_empty⟩
  have hplain : ∀ row ∈ rows, Plain row.1 ∧ ∀ o ∈ row.2, Plain o := by
    intro row hrow
    obtain ⟨⟨k, c⟩, hkv, rfl⟩ := List.mem_map.mp hrow
    obtain ⟨hentry, -⟩ := hg.full k c (ExtTreeMap.mem_toList_iff_getElem?_eq_some.mp hkv)
    refine ⟨hentry.plain, fun o ho => ?_⟩
    obtain ⟨e, he, rfl⟩ := List.mem_map.mp ho
    exact (hentry.touches e he).2
  have hsame : Same (filed g.cold ∅) (rows.foldl (fun filed row => fileRow filed row.1 row.2) fun _ _ => False) := by
    intro a b _
    rw [foldl_fileRow_iff, false_or]
    simp only [filed, ExtTreeMap.getElem?_empty, reduceCtorEq, false_and, exists_false, or_false, rows, List.mem_map,
      Prod.exists, ExtTreeMap.mem_toList_iff_getElem?_eq_some]
    constructor
    · rintro ⟨c, hc, hb⟩
      exact ⟨a, _, ⟨a, c, hc, rfl⟩, rfl, List.mem_map.mpr hb⟩
    · rintro ⟨_, _, ⟨k, c, hc, heq⟩, rfl, hb⟩
      cases heq
      exact ⟨c, hc, List.mem_map.mp hb⟩
  refine (shelved_moves h).enforceColdResidentBudget ((shelved_moves h).enforceColdBudget ⟨∅, ?_⟩)
  refine ⟨hg.toShelves.clear.edit (fun _ n hn => ⟨n, hn, rfl⟩) fun _ => rfl, HuskStore.holds_new 4096 1024, ?_, ?_⟩
  · dsimp only
    rw [hradj]
    exact (hempty.foldl rows hplain).congr hsame
  · intro hnone
    dsimp only at hnone
    rw [hradj] at hnone
    exact absurd hnone (foldl_radjAdd_ne_none _ _)

end Steps

/-! ## Runs -/

/-- What every operation keeps: edges join resident nodes, and the shelves are in order. -/
def InOrder (h : Host F) (g : MemoryGraph F) : Prop := Joined g ∧ ∃ husks, Shelved h g husks

theorem inOrder_new (h : Host F) (threshold : F) (cap : Nat) : InOrder h (new threshold cap) := by
  refine ⟨fun e he => (by cases he), ∅, ⟨⟨?_, ?_, ?_, ?_, ?_⟩, rfl, fun r hr => (by cases hr), fun _ => rfl⟩⟩
  · intro id n hn
    simp [new] at hn
  · intro id hid
    exact absurd hid ExtTreeMap.not_mem_empty
  · intro id c hc
    simp [new] at hc
  · intro id husk hhusk
    simp at hhusk
  · refine filedOnce_empty.congr fun a b _ => ?_
    simp [filed, new]

namespace InOrder

variable {h : Host F} {g : MemoryGraph F}

theorem moves (h : Host F) : KeptByMoves h (InOrder (F := F) h) :=
  (KeptByMoves.of_frame fun _ _ => Joined.coldFrame).and (shelved_moves h)

theorem demote (hg : InOrder h g) (id : NodeId) : InOrder h (g.demote id) :=
  ⟨hg.1.demote id, hg.2.imp fun _ hs => hs.demote hg.1 id⟩

theorem pruneDanglingEdges (hg : InOrder h g) : InOrder h g.pruneDanglingEdges :=
  ⟨hg.1.pruneDanglingEdges, hg.2.imp fun _ hs => hs.entries rfl rfl rfl fun _ => rfl⟩

theorem enforcePaging (hg : InOrder h g) : InOrder h (g.enforcePaging h) :=
  enforcePaging_of_moves (moves h) (fun _ id hg => hg.demote id) (fun _ hg => hg.pruneDanglingEdges) hg

theorem upsertNode (hg : InOrder h g) {id : NodeId} (hplain : Plain id) (label content : Str)
    (nodeType : NodeType) : InOrder h (g.upsertNode h id label content nodeType) := by
  obtain ⟨hjoined, husks, hs⟩ := hg
  obtain ⟨hforgot, hout⟩ := hs.forgetColdShadow id
  have hjoined' := hjoined.coldFrame (forgetColdShadow_frame g id)
  unfold MemoryGraph.upsertNode
  dsimp only
  have hid : ((g.forgetColdShadow id).upserted id label content nodeType).id = id := by
    unfold upserted
    split
    · rename_i existing hexisting
      exact (hforgot.nodeId id existing hexisting).1
    · rfl
  refine enforcePaging ⟨hjoined'.insertNode id _, husks.erase id, ?_⟩
  exact hforgot.insertNode hid hplain hout (fun hmem => (mem_erase_iff.mp hmem).1 rfl) rfl rfl rfl rfl

theorem removeNode (hg : InOrder h g) (id : NodeId) : InOrder h (g.removeNode id) := by
  obtain ⟨hjoined, husks, hs⟩ := hg
  have herased : Shelved h { g with nodes := g.nodes.erase id } husks := by
    refine hs.onlyNodes (fun k n hn => ?_) rfl rfl rfl
    rw [getElem?_erase_eq] at hn
    split at hn
    · cases hn
    · exact ⟨n, hn, rfl⟩
  exact ⟨hjoined.removeNode id, _, (herased.forgetColdShadow id).1.entries rfl rfl rfl fun _ => rfl⟩

theorem pageIn (hkeeps : h.KeepsLinks) (hg : InOrder h g) (id : NodeId) : InOrder h (g.pageIn h id).1 := by
  refine pageIn_of_moves (moves h) (fun _ id hg => hg.demote id) (fun _ hg => hg.pruneDanglingEdges) ?_ ?_ ?_ hg id
  · rintro g id ⟨hjoined, husks, hs⟩
    exact ⟨hjoined.coldFrame (faultDeep_frame h g id), hs.faultDeep hkeeps id⟩
  · rintro g id ⟨hjoined, husks, hs⟩
    exact ⟨hjoined.coldFrame (faultContent_frame h g id), husks, hs.faultContent id⟩
  · rintro g id c ⟨hjoined, husks, hs⟩ hc
    exact ⟨hjoined.restore id c, _, hs.restore hc⟩

/-- One operation of the graph. -/
theorem step (hkeeps : h.KeepsLinks) (hg : InOrder h g) (op : GraphOp F)
    (hplain : ∀ id label content nodeType, op = .upsertNode id label content nodeType → Plain id) :
    InOrder h (g.step h op) := by
  obtain ⟨hjoined, husks, hs⟩ := hg
  have hjoined' := hjoined.step h op
  cases op with
  | upsertNode id label content nodeType =>
    exact upsertNode ⟨hjoined, husks, hs⟩ (hplain id label content nodeType rfl) label content nodeType
  | removeNode id => exact removeNode ⟨hjoined, husks, hs⟩ id
  | enforcePaging => exact enforcePaging ⟨hjoined, husks, hs⟩
  | pageIn id => exact pageIn hkeeps ⟨hjoined, husks, hs⟩ id
  | reload =>
    refine ⟨hjoined', ?_⟩
    change ∃ husks, Shelved h (g.reload.getD g) husks
    cases hr : g.reload with
    | none => exact ⟨husks, hs⟩
    | some g' => exact ⟨∅, hs.reload hr⟩
  | addEdge s t w ty => exact ⟨hjoined', husks, hs.onlyEdges (addEdge_onlyEdges g s t w ty)⟩
  | resolveAll => exact ⟨hjoined', husks, hs.onlyEdges (resolveAll_onlyEdges g)⟩
  | propagateBeliefs threshold damping =>
    exact ⟨hjoined', husks, hs.onlyEdges (propagateBeliefs_onlyEdges g threshold damping)⟩
  | propagateFailure origin depth maxDepth => exact ⟨hjoined', husks, hs.propagateFailure origin depth maxDepth⟩
  | setNodeState id state => exact ⟨hjoined', husks, hs.onlyNodes (ids_of_modify fun _ => rfl) rfl rfl rfl⟩
  | setFailureRelevance id relevance =>
    exact ⟨hjoined', husks, hs.onlyNodes (ids_of_modify fun _ => rfl) rfl rfl rfl⟩
  | stampFileTrust filePath trust =>
    refine ⟨hjoined', husks, hs.onlyNodes (ids_of_map fun k n => ?_) rfl rfl rfl⟩
    split <;> rfl
  | tick => exact ⟨hjoined', husks, hs.onlyNodes (ids_of_map fun _ _ => rfl) rfl rfl rfl⟩
  | pruneDanglingEdges | setMaxInMemoryNodes | setScoringWeights | nodeInDegree | nodeEigencentrality
  | withCausalAdjacency | setPendingCalls | setPendingDataRefs | setPendingAliases | setPendingMethods
  | markDataSymbol => exact ⟨hjoined', husks, hs.entries rfl rfl rfl fun _ => rfl⟩

end InOrder

/-- The ids that an operation makes nodes of are plain. -/
def PlainIds : SwapOp F → Prop
  | .graph (.upsertNode id _ _ _) => Plain id
  | _ => True

theorem InOrder.swapStep {h : Host F} (hkeeps : h.KeepsLinks) {g : MemoryGraph F} (hg : InOrder h g) (op : SwapOp F)
    (hplain : PlainIds op) : InOrder h (g.swapStep h op) := by
  cases op with
  | graph op =>
    refine hg.step hkeeps op ?_
    rintro id label content nodeType rfl
    exact hplain
  | setColdContentBudget budget =>
    exact (InOrder.moves h).enforceColdContentBudget
      ⟨hg.1, hg.2.imp fun _ hs => hs.entries rfl rfl rfl fun _ => rfl⟩
  | setColdResidentBudget budget =>
    exact (InOrder.moves h).enforceColdResidentBudget
      ⟨hg.1, hg.2.imp fun _ hs => hs.entries rfl rfl rfl fun _ => rfl⟩
  | attachColdSpill inlineBudget =>
    obtain ⟨hjoined, husks, hs⟩ := hg
    have hmoves := KeptByMoves.of_frame (h := h) fun _ _ => Joined.coldFrame (F := F)
    refine ⟨hmoves.enforceColdResidentBudget (hmoves.enforceColdBudget ?_), hs.attachColdSpill inlineBudget⟩
    exact hjoined
  | detachColdSpill => exact ⟨hg.1, ∅, hg.2.elim fun _ hs => hs.detachColdSpill⟩
  | flushColdTier => exact ⟨hg.1, hg.2.imp fun _ hs => hs.flushColdTier⟩
  | setEvictionPolicy policy => exact ⟨hg.1, hg.2.imp fun _ hs => hs.entries rfl rfl rfl fun _ => rfl⟩
  | nodeMut id edit =>
    exact ⟨hg.1.editNodes fun _ => ExtTreeMap.mem_modify,
      hg.2.imp fun _ hs => hs.onlyNodes (ids_of_modify fun _ => rfl) rfl rfl rfl⟩
  | isCold id => exact ⟨hg.1.coldFrame (deepGet_frame g id), hg.2.imp fun _ hs => hs.read id⟩

theorem InOrder.swapRun {h : Host F} (hkeeps : h.KeepsLinks) (ops : List (SwapOp F)) {g : MemoryGraph F}
    (hg : InOrder h g) (hplain : ∀ op ∈ ops, PlainIds op) : InOrder h (g.swapRun h ops) := by
  induction ops generalizing g with
  | nil => exact hg
  | cons op ops ih =>
    exact ih (hg.swapStep hkeeps op (hplain op List.mem_cons_self)) fun op' hop' =>
      hplain op' (List.mem_cons_of_mem _ hop')

end MemoryGraph

/-! ## The answer -/

/-- An edge between two nodes, either way. -/
def GraphEdge.Joins {F : Type} (e : GraphEdge F) (a b : NodeId) : Prop :=
  (e.source = a ∧ e.target = b) ∨ (e.source = b ∧ e.target = a)

theorem GraphEdge.joins_comm {F : Type} (e : GraphEdge F) (a b : NodeId) : e.Joins a b ↔ e.Joins b a := or_comm

theorem GraphEdge.joins_iff {F : Type} (e : GraphEdge F) (a b : NodeId) :
    e.Joins a b ↔ e.touches a ∧ e.other a = b := by
  simp only [GraphEdge.Joins, GraphEdge.touches, GraphEdge.other, Bool.or_eq_true, beq_iff_eq]
  by_cases hs : e.source = a
  · simp only [hs, true_and, true_or, if_true]
    constructor
    · rintro (hb | ⟨rfl, hb⟩)
      · exact hb
      · exact hb
    · exact Or.inl
  · simp only [hs, false_and, false_or, if_false, and_comm]

theorem Entry.mem_others {F : Type} {a b : NodeId} {c : ColdNode F} (hc : Entry a c) :
    b ∈ c.edges.map (·.other a) ↔ ∃ e ∈ c.edges, e.Joins a b := by
  simp only [List.mem_map, GraphEdge.joins_iff]
  exact ⟨fun ⟨e, he, hb⟩ => ⟨e, he, (hc.touches e he).1, hb⟩, fun ⟨e, he, _, hb⟩ => ⟨e, he, hb⟩⟩

namespace MemoryGraph

variable {F : Type} [Scalar F]

/-- The COLD entry of `k`, full or deep-spilled, holds the edge. The text of a deep-spilled entry is
the one that its husk names. -/
def Archives (h : Host F) (g : MemoryGraph F) (k : NodeId) (e : GraphEdge F) : Prop :=
  (∃ c, g.cold[k]? = some c ∧ e ∈ c.edges) ∨
    ∃ husk entry, (g.deepGet k).1 = some husk ∧ husk.body.hash = h.sha256 (h.printCold entry) ∧ e ∈ entry.edges

section Answer

variable {h : Host F} {g : MemoryGraph F} {husks : BTreeMap NodeId DeepHusk}

/-- The text of an entry determines the ends of its edges. -/
theorem Shelved.archives_husk (hkeeps : h.KeepsLinks) (hg : Shelved h g husks) {k : NodeId} {husk : DeepHusk}
    (hhusk : husks[k]? = some husk) :
    ∃ entry, Entry k entry ∧ husk.body.hash = h.sha256 (h.printCold entry) ∧ husk.adj = huskAdj entry ∧
      ∀ entry' : ColdNode F, husk.body.hash = h.sha256 (h.printCold entry') → Entry k entry' ∧ entry'.links = entry.links := by
  obtain ⟨entry, hentry, hhash, hadj⟩ := hg.deep k husk hhusk
  refine ⟨entry, hentry, hhash, hadj, fun entry' hhash' => ?_⟩
  have hlinks := hkeeps.printed entry' entry (hkeeps.sha256 (hhash'.symm.trans hhash))
  exact ⟨hentry.of_links hlinks, hlinks⟩

theorem Shelved.filed_iff (hkeeps : h.KeepsLinks) (hg : Shelved h g husks) {a b : NodeId} (hne : a ≠ b) :
    filed g.cold husks a b ↔ ∃ e, g.Archives h a e ∧ e.Joins a b := by
  have hget := hg.index.get a
  constructor
  · rintro (⟨c, hc, hb⟩ | ⟨husk, hhusk, hb⟩)
    · obtain ⟨e, he, hjoins⟩ := (hg.full a c hc).1.mem_others.mp hb
      exact ⟨e, Or.inl ⟨c, hc, he⟩, hjoins⟩
    · obtain ⟨entry, hentry, hhash, hadj, -⟩ := hg.archives_husk hkeeps hhusk
      rw [hadj, mem_huskAdj, hentry.nodeId, hentry.mem_others] at hb
      obtain ⟨-, e, he, hjoins⟩ := hb
      exact ⟨e, Or.inr ⟨husk, entry, hget.trans hhusk, hhash, he⟩, hjoins⟩
  · rintro ⟨e, ⟨c, hc, he⟩ | ⟨husk, entry', hhusk, hhash, he⟩, hjoins⟩
    · exact Or.inl ⟨c, hc, (hg.full a c hc).1.mem_others.mpr ⟨e, he, hjoins⟩⟩
    · obtain ⟨entry, hentry, -, hadj, hsame⟩ := hg.archives_husk hkeeps (hget.symm.trans hhusk)
      obtain ⟨hentry', hlinks⟩ := hsame entry' hhash
      refine Or.inr ⟨husk, hget.symm.trans hhusk, ?_⟩
      rw [hadj, mem_huskAdj, hentry.nodeId, ← others_of_links hlinks, hentry'.mem_others]
      exact ⟨hne.symm, e, he, hjoins⟩

/-- An archived edge touches the node it is filed with. -/
theorem Shelved.archives_touches (hkeeps : h.KeepsLinks) (hg : Shelved h g husks) {k : NodeId} {e : GraphEdge F}
    (harch : g.Archives h k e) : e.touches k := by
  rcases harch with ⟨c, hc, he⟩ | ⟨husk, entry', hhusk, hhash, he⟩
  · exact ((hg.full k c hc).1.touches e he).1
  · obtain ⟨_, -, -, -, hsame⟩ := hg.archives_husk hkeeps ((hg.index.get k).symm.trans hhusk)
    exact ((hsame entry' hhash).1.touches e he).1

theorem Shelved.linked_iff (hkeeps : h.KeepsLinks) (hg : Shelved h g husks) {a b : NodeId} (hne : a ≠ b) :
    filed g.cold husks a b ∨ filed g.cold husks b a ↔ ∃ k e, g.Archives h k e ∧ e.Joins a b := by
  rw [hg.filed_iff hkeeps hne, hg.filed_iff hkeeps hne.symm]
  constructor
  · rintro (⟨e, harch, hjoins⟩ | ⟨e, harch, hjoins⟩)
    · exact ⟨a, e, harch, hjoins⟩
    · exact ⟨b, e, harch, (e.joins_comm b a).mp hjoins⟩
  · rintro ⟨k, e, harch, hjoins⟩
    have htouches := hg.archives_touches hkeeps harch
    have hk : k = a ∨ k = b := by
      simp only [GraphEdge.touches, Bool.or_eq_true, beq_iff_eq] at htouches
      rcases hjoins with ⟨rfl, rfl⟩ | ⟨rfl, rfl⟩
      · exact htouches.imp Eq.symm Eq.symm
      · exact htouches.symm.imp Eq.symm Eq.symm
    rcases hk with rfl | rfl
    · exact Or.inl ⟨e, harch, hjoins⟩
    · exact Or.inr ⟨e, harch, (e.joins_comm _ _).mp hjoins⟩

theorem Shelved.mem_coldNeighbours (hkeeps : h.KeepsLinks) (hg : Shelved h g husks) (id other : NodeId) :
    other ∈ g.coldNeighbours id ↔
      other ≠ id ∧ g.isCold other ∧ ∃ k e, g.Archives h k e ∧ e.Joins id other := by
  cases hradj : g.radj with
  | some radj =>
    obtain ⟨index, hlists, hmirrors⟩ := hg.adjacency radj hradj
    have hscan := hlists.mem_scan id other
    simp only [coldNeighbours, hradj, mem_sortDedup, List.mem_filterMap, Option.ite_none_right_eq_some,
      Bool.and_eq_true, bne_iff_ne, Option.some.injEq]
    constructor
    · rintro ⟨kv, hkv, ⟨hne, hcold⟩, rfl⟩
      have hindex := hscan.mp ⟨kv, hkv, rfl⟩
      exact ⟨hne, hcold, (hg.linked_iff hkeeps hne.symm).mp ((hmirrors _ _ hne.symm).mp hindex)⟩
    · rintro ⟨hne, hcold, hlinked⟩
      have hindex := (hmirrors _ _ hne.symm).mpr ((hg.linked_iff hkeeps hne.symm).mpr hlinked)
      obtain ⟨kv, hkv, rfl⟩ := hscan.mpr hindex
      exact ⟨kv, hkv, ⟨hne, hcold⟩, rfl⟩
  | none =>
    -- Without the index there is no husk, and every entry is scanned.
    have hdeep : ∀ k, g.deepGet k = (none, g) := fun k => by rw [deepGet, hg.attached hradj]
    have hcold : g.isCold other = g.cold.contains other := by
      rw [isCold, deepContains, hdeep, Option.isSome_none, Bool.or_false]
    have harch : ∀ k e, g.Archives h k e ↔ ∃ c, g.cold[k]? = some c ∧ e ∈ c.edges := by
      intro k e
      simp only [Archives, hdeep, reduceCtorEq, false_and, exists_false, or_false]
    have hstep : ∀ e : GraphEdge F, (if !e.touches id then none
        else if e.other id != id && g.cold.contains (e.other id) then some (e.other id) else none) = some other ↔
          e.Joins id other ∧ other ≠ id ∧ g.cold.contains other := by
      intro e
      rw [GraphEdge.joins_iff]
      cases e.touches id with
      | false => simp
      | true =>
        simp only [Bool.not_true, Bool.false_eq_true, if_false, Option.ite_none_right_eq_some, Bool.and_eq_true,
          bne_iff_ne, Option.some.injEq, true_and]
        constructor
        · rintro ⟨hcond, rfl⟩
          exact ⟨rfl, hcond⟩
        · rintro ⟨rfl, hcond⟩
          exact ⟨hcond, rfl⟩
    simp only [coldNeighbours, hradj, mem_sortDedup, List.mem_filterMap, hstep, hcold, harch, List.mem_flatMap,
      Prod.exists, ExtTreeMap.mem_toList_iff_getElem?_eq_some]
    constructor
    · rintro ⟨e, ⟨k, c, hc, he⟩, hjoins, hne, hcontains⟩
      exact ⟨hne, hcontains, k, e, ⟨c, hc, he⟩, hjoins⟩
    · rintro ⟨hne, hcontains, k, e, ⟨c, hc, he⟩, hjoins⟩
      exact ⟨e, ⟨k, c, hc, he⟩, hjoins, hne, hcontains⟩

theorem ascending_coldNeighbours (g : MemoryGraph F) (id : NodeId) :
    (g.coldNeighbours id).Pairwise fun a b => compare a b = .lt := by
  unfold coldNeighbours
  split <;> exact ascending_sortDedup _

end Answer

/-- The cold neighbours of `id` are the cold nodes that an archived edge joins to it, in order. -/
theorem cold_neighbours_match_the_archive (h : Host F) (hkeeps : h.KeepsLinks) (threshold : F) (cap : Nat)
    (ops : List (SwapOp F)) (hplain : ∀ op ∈ ops, PlainIds op) (id : NodeId) :
    let g := (new threshold cap).swapRun h ops
    (g.coldNeighbours id).Pairwise (fun a b => compare a b = .lt) ∧
      ∀ other, other ∈ g.coldNeighbours id ↔
        other ≠ id ∧ g.isCold other ∧ ∃ k e, g.Archives h k e ∧ e.Joins id other := by
  obtain ⟨-, husks, hs⟩ := (inOrder_new h threshold cap).swapRun hkeeps ops hplain
  exact ⟨ascending_coldNeighbours _ id, hs.mem_coldNeighbours hkeeps id⟩

end MemoryGraph

/-! ## A run with two husks -/

/-- A text with a mark before each character, and a mark at its end. -/
def quoted (s : Str) : Str := s.flatMap (fun c => ['.', c]) ++ [';']

/-- Reads quoted texts back. The first argument is the text read so far. -/
def readQuoted (piece : Str) : Str → Option (List Str)
  | [] => if piece = [] then some [] else none
  | '.' :: c :: rest => readQuoted (piece ++ [c]) rest
  | ';' :: rest => (readQuoted [] rest).map (piece :: ·)
  | _ => none

theorem readQuoted_quoted (texts : List Str) : readQuoted [] (texts.flatMap quoted) = some texts := by
  have hone : ∀ (s piece rest : Str), readQuoted piece (s.flatMap (fun c => ['.', c]) ++ ';' :: rest) =
      (readQuoted [] rest).map ((piece ++ s) :: ·) := by
    intro s
    induction s with
    | nil => intro piece rest; simp [readQuoted]
    | cons c s ih => intro piece rest; simp [readQuoted, ih]
  induction texts with
  | nil => rfl
  | cons s texts ih =>
    rw [List.flatMap_cons, quoted, List.append_assoc, List.singleton_append, hone, ih]
    rfl

/-- Edges from the ends of fresh calls. -/
def callsFrom : List Str → Option (List (GraphEdge ℚ))
  | [] => some []
  | source :: target :: rest =>
    (callsFrom rest).map ({ source, target, weight := 1, edgeType := .calls, createdAt := 0 } :: ·)
  | _ => none

def freshSymbol (id label content : Str) : GraphNode ℚ where
  id := id
  label := label
  content := content
  nodeType := .symbol
  baseImportance := 1 / 2
  failureRelevance := 0
  recency := 1
  accessCount := 1
  createdAt := 0
  lastAccessed := 0
  state := .stable
  trust := 1

/-- A fresh symbol from its texts and the ends of its calls. -/
def freshEntry : List Str → Option (ColdNode ℚ)
  | id :: label :: content :: ends => (callsFrom ends).map fun edges =>
    { node := freshSymbol id label content, edges, spill := none, compacted := false, atFloor := false }
  | _ => none

def entryTexts (c : ColdNode ℚ) : List Str :=
  c.node.id :: c.node.label :: c.node.content :: c.edges.flatMap fun e => [e.source, e.target]

theorem freshEntry_entryTexts (c : ColdNode ℚ) : ∃ d, freshEntry (entryTexts c) = some d ∧ d.links = c.links := by
  have hcalls : ∀ edges : List (GraphEdge ℚ), ∃ calls,
      callsFrom (edges.flatMap fun e => [e.source, e.target]) = some calls ∧
        calls.map (fun e => (e.source, e.target)) = edges.map fun e => (e.source, e.target) := by
    intro edges
    induction edges with
    | nil => exact ⟨[], rfl, rfl⟩
    | cons e edges ih =>
      obtain ⟨calls, hcalls, hends⟩ := ih
      refine ⟨{ source := e.source, target := e.target, weight := 1, edgeType := .calls, createdAt := 0 } :: calls, ?_, ?_⟩
      · simp [callsFrom, hcalls]
      · simp [hends]
  obtain ⟨calls, hcalls, hends⟩ := hcalls c.edges
  refine ⟨_, by rw [entryTexts, freshEntry, hcalls, Option.map_some], ?_⟩
  exact Prod.ext rfl hends

/-- A host for concrete runs whose blobs are named by their own text. -/
def Host.onDisk : Host ℚ where
  sha256 := id
  compress := utf8
  decompress := decodeUtf8
  printCold c := (entryTexts c).flatMap quoted
  parseCold text := (readQuoted [] text).bind freshEntry
  compactContent _ content := content
  sizeOfColdNode := 240
  sizeOfNodeId := 24
  sizeOfGraphEdge := 72
  sizeOfDeepHusk := 64
  huskLen husk := byteLen husk.body.hash

theorem Host.onDisk_keepsLinks : Host.onDisk.KeepsLinks := by
  have hread : ∀ c : ColdNode ℚ, readQuoted [] (Host.onDisk.printCold c) = some (entryTexts c) :=
    fun c => readQuoted_quoted (entryTexts c)
  refine ⟨fun _ _ heq => heq, fun c c' heq => ?_, fun c c' hparse => ?_⟩
  · have htexts : some (entryTexts c) = some (entryTexts c') := by rw [← hread c, ← hread c', heq]
    obtain ⟨d, hd, hlinks⟩ := freshEntry_entryTexts c
    obtain ⟨d', hd', hlinks'⟩ := freshEntry_entryTexts c'
    rw [Option.some.inj htexts] at hd
    obtain rfl := Option.some.inj (hd.symm.trans hd')
    exact hlinks.symm.trans hlinks'
  · obtain ⟨d, hd, hlinks⟩ := freshEntry_entryTexts c
    change (readQuoted [] (Host.onDisk.printCold c)).bind freshEntry = some c' at hparse
    rw [hread, Option.bind_some, hd] at hparse
    obtain rfl := Option.some.inj hparse
    exact hlinks

/-- Two linked nodes are demoted and deep-spilled. -/
def twoDeep : List (SwapOp ℚ) :=
  [.attachColdSpill 1000, .graph (.upsertNode ['a'] [] ['x'] .symbol), .graph (.upsertNode ['b'] [] ['y'] .symbol),
    .graph (.addEdge ['a'] ['b'] 1 .calls), .graph (.setMaxInMemoryNodes 0), .graph .enforcePaging,
    .setColdResidentBudget (some 0)]

namespace MemoryGraph

/-- The edge is filed with `a`, which left first, and `b` has it as a neighbour too. -/
theorem deep_entry_is_a_neighbour :
    ['a'] ∈ ((new (1 / 5) 2).swapRun Host.onDisk twoDeep).coldNeighbours ['b'] := by
  have hanswer := cold_neighbours_match_the_archive Host.onDisk Host.onDisk_keepsLinks (1 / 5) 2 twoDeep
    (by simp [twoDeep, PlainIds, Plain]) ['b']
  let call : GraphEdge ℚ := ⟨['a'], ['b'], 1, .calls, 0⟩
  let entry : ColdNode ℚ := ⟨freshSymbol ['a'] [] ['x'], [call], none, false, false⟩
  have hhusk : (((new (1 / 5) 2).swapRun Host.onDisk twoDeep).deepGet ['a']).1 =
      some { body := { hash := Host.onDisk.printCold entry, len := 13 }, adj := [['b']] } := by decide +kernel
  have harch : ((new (1 / 5) 2).swapRun Host.onDisk twoDeep).Archives Host.onDisk ['a'] call :=
    Or.inr ⟨_, entry, hhusk, rfl, List.mem_singleton_self call⟩
  exact (hanswer.2 ['a']).mpr ⟨by decide, by decide +kernel, ['a'], call, harch, Or.inr ⟨rfl, rfl⟩⟩

end MemoryGraph

end Ccos
