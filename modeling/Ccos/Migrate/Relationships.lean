import Ccos.Lib.StableSort
import Ccos.Memory.EdgeIndex
import Ccos.Migrate.Verdict
import Ccos.Session.Scanned

/-!
# The relationships of a bundle

Links become edges between document nodes only, and a node that is paged out takes its edges along.
-/

open Std

set_option linter.unusedSectionVars false

namespace Ccos.Migrate

variable {F M : Type} [Scalar F]

/-! ## The links of a bundle -/

/-- The node of a raw id: that of the last record that has it, else a document. -/
def nodeOf (mode : Mode) (records : List (CmbRecord F M)) (raw : Str) : NodeId :=
  ((records.reverse.find? fun rec => rec.id = raw).map fun rec => nodeIdFor rec mode).getD (docId raw)

/-- The records of one parent by ordinal, in their order where it is the same. -/
def siblings (records : List (CmbRecord F M)) (parent : Str) : List (CmbRecord F M) :=
  sortBy (fun a b => compare (a.ordinal.getD 0) (b.ordinal.getD 0))
    (records.filter fun rec => rec.parent = some parent ∧ rec.ordinal.isSome)

/-- The two nodes that a link joins, and the type of its edge. -/
inductive Link (mode : Mode) (records : List (CmbRecord F M)) : NodeId → NodeId → EdgeType → Prop
  | parent {rec : CmbRecord F M} (h : rec ∈ records) {parent : Str} (hparent : rec.parent = some parent) :
      Link mode records (nodeOf mode records parent) (nodeOf mode records rec.id) .contains
  | next {parent : Str} {a b : CmbRecord F M} (h : [a, b] <:+: siblings records parent) :
      Link mode records (nodeIdFor a mode) (nodeIdFor b mode) .relatedTo
  | relation {rec : CmbRecord F M} (h : rec ∈ records) {r : CmbRelation F} (hr : r ∈ rec.relations) :
      Link mode records (nodeOf mode records (r.source.getD rec.id)) (nodeOf mode records r.target)
        (mapEdgeKind r.kind)

def isDocument (id : NodeId) : Prop := "doc:".toList <+: id

/-! ## What the first pass collects -/

theorem foldl_links (t : MigrateTools F) (mode : Mode) (records : List (CmbRecord F M)) (p : Pass F M) :
    (records.foldl (Pass.record t mode) p).containment =
        p.containment ++ records.flatMap (fun rec => (rec.parent.map fun parent => (parent, rec.id)).toList) ∧
      (records.foldl (Pass.record t mode) p).seq = p.seq ++ records.flatMap (fun rec =>
        (rec.parent.bind fun parent => rec.ordinal.map fun ord => (parent, ord, nodeIdFor rec mode)).toList) ∧
      (records.foldl (Pass.record t mode) p).relations = p.relations ++ records.flatMap (fun rec =>
        rec.relations.map fun r => (r.source.getD rec.id, r.target, r.weight, mapEdgeKind r.kind)) := by
  induction records generalizing p with
  | nil => simp
  | cons rec records ih =>
    obtain ⟨hcontainment, hseq, hrelations⟩ := ih (p.record t mode rec)
    rw [List.foldl_cons, hcontainment, hseq, hrelations]
    by_cases hc : isCode rec mode = true
    · simp [Pass.record, Pass.relate, Pass.place, Pass.account, hc]
    · simp [Pass.record, Pass.relate, Pass.place, Pass.account, hc]

theorem idMap_record (t : MigrateTools F) (mode : Mode) (p : Pass F M) (rec : CmbRecord F M) :
    (p.record t mode rec).idMap = p.idMap.insert rec.id (nodeIdFor rec mode) := by
  unfold Pass.record Pass.relate Pass.place Pass.account
  dsimp only
  split <;> rfl

theorem resolveId_firstPass (t : MigrateTools F) (mode : Mode) (records : List (CmbRecord F M)) (raw : Str) :
    (firstPass t mode records).resolveId raw = nodeOf mode records raw := by
  have hmap : (firstPass t mode records).idMap[raw]? =
      (records.reverse.find? fun rec => rec.id = raw).map fun rec => nodeIdFor rec mode := by
    unfold firstPass
    induction records using List.reverseRecOn with
    | nil => rfl
    | append_singleton records rec ih =>
      rw [List.foldl_concat, idMap_record, getElem?_insert_eq, List.reverse_append, List.reverse_singleton,
        List.singleton_append]
      by_cases hid : rec.id = raw
      · simp [hid]
      · rw [List.find?_cons_of_neg (by simpa using hid), ← ih, if_neg fun h => hid h.symm]
  unfold Pass.resolveId nodeOf
  rw [hmap]

/-- No edge is added while nodes are. -/
def Bare (g : MemoryGraph F) : Prop := g.edges = [] ∧ g.edgeSet = ∅

theorem Bare.upsertNode (h : Host F) {g : MemoryGraph F} (hg : Bare g) (id : NodeId) (label content : Str)
    (nodeType : NodeType) : Bare (g.upsertNode h id label content nodeType) := by
  refine MemoryGraph.upsertNode_keeps h ?_ ?_ ?_ (fun _ _ _ hg => hg) hg id label content nodeType
  · rintro g _ ⟨_, _, _, _, _, _, rfl⟩ hg
    exact hg
  · intro g id hg
    have hdrop := MemoryGraph.OnlyDrops.demote g id
    exact ⟨List.sublist_nil.mp (hg.1 ▸ hdrop.edges), hdrop.edgeSet.trans hg.2⟩
  · intro g hg
    have hdrop := MemoryGraph.OnlyDrops.pruneDanglingEdges g
    exact ⟨List.sublist_nil.mp (hg.1 ▸ hdrop.edges), hdrop.edgeSet.trans hg.2⟩

theorem bare_firstPass (t : MigrateTools F) (mode : Mode) (records : List (CmbRecord F M)) :
    Bare (firstPass t mode records).graph := by
  unfold firstPass
  refine List.foldlRecOn records _ (motive := fun p : Pass F M => Bare p.graph) ⟨rfl, rfl⟩ fun p hp rec _ => ?_
  unfold Pass.record Pass.relate Pass.place Pass.account
  dsimp only
  split
  · exact hp
  · exact hp.upsertNode _ _ _ _ _

/-! ## The edges of the document graph -/

theorem bare_addPlaceholders (t : MigrateTools F) {graph : MemoryGraph F} (hg : Bare graph)
    (docIds : BTreeMap Str Unit) (needed : List Str) : Bare (addPlaceholders t graph docIds needed).1 := by
  unfold addPlaceholders
  refine List.foldlRecOn needed _ (motive := fun acc : MemoryGraph F × BTreeMap Str Unit => Bare acc.1) hg
    fun acc hacc e _ => ?_
  dsimp only
  split
  · split
    · exact hacc
    · exact hacc.upsertNode _ _ _ _ _
  · exact hacc

/-- A document that is referred to has its id listed, and no id is taken off. -/
theorem mem_addPlaceholders (t : MigrateTools F) (graph : MemoryGraph F) (docIds : BTreeMap Str Unit)
    (needed : List Str) {id : Str} (h : id ∈ docIds ∨ id ∈ needed ∧ isDocument id) :
    id ∈ (addPlaceholders t graph docIds needed).2 := by
  unfold addPlaceholders
  induction needed generalizing graph docIds with
  | nil => exact h.resolve_right fun hneeded => absurd hneeded.1 List.not_mem_nil
  | cons e needed ih =>
    rw [List.foldl_cons]
    apply ih
    rcases h with h | ⟨hmem, hdoc⟩
    · left
      split
      · split
        · exact h
        · exact mem_insert_iff.mpr (.inr h)
      · exact h
    · rcases List.mem_cons.mp hmem with rfl | hmem
      · left
        obtain ⟨label, rfl⟩ := hdoc
        have hstrip : stripPrefix "doc:".toList ("doc:".toList ++ label) = some label := rfl
        rw [hstrip]
        dsimp only
        split
        · assumption
        · exact mem_insert_iff.mpr (.inl rfl)
      · exact .inr ⟨hmem, hdoc⟩

/-- The link between resident nodes is an edge. -/
def Linked (source target : NodeId) (kind : EdgeType) (g : MemoryGraph F) : Prop :=
  source ∈ g.nodes → target ∈ g.nodes → (source, target, kind) ∈ g.triples

theorem triples_addEdge (g : MemoryGraph F) (s t : NodeId) (w : F) (ty : EdgeType) :
    g.triples ⊆ (g.addEdge s t w ty).1.triples := by
  rcases MemoryGraph.addEdge_cases g s t w ty with ⟨-, h⟩ | ⟨-, -, -, h⟩ | ⟨-, -, -, h⟩
  · rw [h]
    exact List.Subset.refl _
  · rw [h]
    exact List.Subset.refl _
  · rw [h]
    unfold MemoryGraph.triples
    rw [List.map_append]
    exact List.subset_append_left _ _

theorem linked_addEdge {g : MemoryGraph F} (hg : MemoryGraph.SizeCheckSound g) (s t : NodeId) (w : F) (ty : EdgeType) :
    Linked s t ty (g.addEdge s t w ty).1 := by
  rw [Linked, MemoryGraph.addEdge_nodes]
  intro hs ht
  rcases MemoryGraph.addEdge_cases g s t w ty with ⟨hout, -⟩ | ⟨-, -, hmem, h⟩ | ⟨-, -, -, h⟩
  · exact absurd hout (by simp [hs, ht])
  · rw [h]
    rw [MemoryGraph.syncedEdgeSet_eq, CountedIndex.Sound.synced_eq hg, List.mem_toFinset] at hmem
    exact hmem
  · rw [h]
    simp [MemoryGraph.triples, GraphEdge.triple]

theorem Linked.addEdge {source target : NodeId} {kind : EdgeType} {g : MemoryGraph F} (hg : Linked source target kind g)
    (s t : NodeId) (w : F) (ty : EdgeType) : Linked source target kind (g.addEdge s t w ty).1 := by
  rw [Linked, MemoryGraph.addEdge_nodes]
  exact fun hs ht => triples_addEdge g s t w ty (hg hs ht)

/-- Edges are added without a node of their own, and the index stays sound. -/
theorem addDocEdges_spec (docIds : BTreeMap Str Unit) {graph : MemoryGraph F} (hg : MemoryGraph.SizeCheckSound graph)
    (edges : List (Str × Str × F × EdgeType)) :
    MemoryGraph.SizeCheckSound (addDocEdges docIds graph edges).1 ∧
      (∀ source target kind, Linked source target kind graph →
        Linked source target kind (addDocEdges docIds graph edges).1) ∧
      ∀ e ∈ edges, e.1 ≠ e.2.1 → e.1 ∈ docIds → e.2.1 ∈ docIds →
        Linked e.1 e.2.1 e.2.2.2 (addDocEdges docIds graph edges).1 := by
  unfold addDocEdges
  induction edges using List.reverseRecOn with
  | nil => exact ⟨hg, fun _ _ _ h => h, fun _ h => absurd h List.not_mem_nil⟩
  | append_singleton edges e ih =>
    obtain ⟨source, target, weight, kind⟩ := e
    obtain ⟨hsound, hkept, hlinked⟩ := ih
    rw [List.foldl_concat]
    dsimp only
    unfold ensureDocEdge
    by_cases hdocs : source ≠ target ∧ source ∈ docIds ∧ target ∈ docIds
    · rw [if_pos hdocs]
      refine ⟨MemoryGraph.sizeCheckSound_addEdge hsound _ _ _ _, fun s t k h => (hkept s t k h).addEdge _ _ _ _, ?_⟩
      intro e he hne hs ht
      rcases List.mem_append.mp he with he | he
      · exact (hlinked e he hne hs ht).addEdge _ _ _ _
      · obtain rfl := List.mem_singleton.mp he
        exact linked_addEdge hsound _ _ _ _
    · rw [if_neg hdocs]
      refine ⟨hsound, hkept, fun e he hne hs ht => ?_⟩
      rcases List.mem_append.mp he with he | he
      · exact hlinked e he hne hs ht
      · obtain rfl := List.mem_singleton.mp he
        exact absurd ⟨hne, hs, ht⟩ hdocs

/-! ## Neighbours under one parent -/

theorem sequencePairs_of_infix {a b : Str × Int × Str} {l : List (Str × Int × Str)} (hparent : a.1 = b.1)
    (h : [a, b] <:+: l) : (a.2.2, b.2.2) ∈ sequencePairs l := by
  induction l with
  | nil => exact absurd (List.eq_nil_of_infix_nil h) (by simp)
  | cons e l ih =>
    obtain ⟨parent, ord, node⟩ := e
    rcases List.infix_cons_iff.mp h with hprefix | hinfix
    · obtain ⟨rfl, htail⟩ := List.cons_prefix_cons.mp hprefix
      obtain ⟨f, l, rfl⟩ : ∃ f l', l = f :: l' := by
        obtain ⟨rest, rfl⟩ := htail
        exact ⟨b, rest, rfl⟩
      obtain ⟨rfl, -⟩ := List.cons_prefix_cons.mp htail
      obtain ⟨parent', ord', node'⟩ := b
      rw [sequencePairs, if_pos hparent]
      exact List.mem_cons_self
    · cases l with
      | nil => exact absurd (List.eq_nil_of_infix_nil hinfix) (by simp)
      | cons f l =>
        obtain ⟨parent', ord', node'⟩ := f
        rw [sequencePairs]
        exact List.mem_append_right _ (ih hinfix)

def seqEntry (mode : Mode) (parent : Str) (rec : CmbRecord F M) : Str × Int × Str :=
  (parent, rec.ordinal.getD 0, nodeIdFor rec mode)

theorem entries_of_parent (mode : Mode) (records : List (CmbRecord F M)) (parent : Str) :
    (records.flatMap fun rec => (rec.parent.bind fun parent =>
      rec.ordinal.map fun ord => (parent, ord, nodeIdFor rec mode)).toList).filter (fun e => e.1 = parent) =
      (records.filter fun rec => rec.parent = some parent ∧ rec.ordinal.isSome).map (seqEntry mode parent) := by
  induction records with
  | nil => rfl
  | cons rec records ih =>
    rw [List.flatMap_cons, List.filter_append, ih]
    cases hparent : rec.parent with
    | none => simp [hparent]
    | some parent' =>
      cases hord : rec.ordinal with
      | none => simp [hparent, hord]
      | some ord =>
        by_cases heq : parent' = parent
        · simp [hparent, hord, heq, seqEntry]
        · simp [hparent, hord, heq]

theorem seqCmp_eq : seqCmp = fun a b => compare (a.1, a.2.1) (b.1, b.2.1) := rfl

/-- The entries of one parent, in the order of the whole list. -/
theorem siblings_entries (t : MigrateTools F) (mode : Mode) (records : List (CmbRecord F M)) (parent : Str) :
    (siblings records parent).map (seqEntry mode parent) =
      (sortBy seqCmp (firstPass t mode records).seq).filter fun e => e.1 = parent := by
  have hseq : (firstPass t mode records).seq = records.flatMap fun rec =>
      (rec.parent.bind fun parent => rec.ordinal.map fun ord => (parent, ord, nodeIdFor rec mode)).toList :=
    (foldl_links t mode records .start).2.1
  rw [seqCmp_eq, filter_sortBy (fun e : Str × Int × Str => (e.1, e.2.1)), hseq, entries_of_parent]
  unfold siblings sortBy
  refine List.map_insertionSort _ _ _ _ fun a _ b _ => ?_
  change _ ↔ ((compare parent parent).then (compare (a.ordinal.getD 0) (b.ordinal.getD 0))).isLE = true
  rw [ReflOrd.compare_self]
  rfl

theorem neighbours_listed (t : MigrateTools F) {mode : Mode} {records : List (CmbRecord F M)} {parent : Str}
    {a b : CmbRecord F M} (h : [a, b] <:+: siblings records parent) :
    (nodeIdFor a mode, nodeIdFor b mode) ∈ sequencePairs (sortBy seqCmp (firstPass t mode records).seq) := by
  have hentries : [seqEntry mode parent a, seqEntry mode parent b] <:+:
      (siblings records parent).map (seqEntry mode parent) := by
    obtain ⟨before, after, heq⟩ := h
    exact ⟨before.map (seqEntry mode parent), after.map (seqEntry mode parent), by rw [← heq]; simp⟩
  rw [siblings_entries t] at hentries
  have hsorted : (sortBy seqCmp (firstPass t mode records).seq).Pairwise fun e f => (compare e.1 f.1).isLE := by
    refine (pairwise_sortBy (fun e : Str × Int × Str => (e.1, e.2.1)) _).imp fun {e f} hle => ?_
    change ((compare e.1 f.1).then (compare e.2.1 f.2.1)).isLE = true at hle
    cases hcmp : compare e.1 f.1 with
    | lt | eq => rfl
    | gt =>
      rw [hcmp] at hle
      exact hle
  have hinfix := hentries.trans (infix_keyed parent hsorted)
  exact sequencePairs_of_infix (a := seqEntry mode parent a) (b := seqEntry mode parent b) rfl hinfix

/-! ## The links of the document graph -/

theorem not_isDocument_fileKey (path : Str) : ¬ isDocument (fileKey path) := by
  rintro ⟨rest, h⟩
  cases h

theorem mem_foldl_insert (ids : List Str) (docIds : BTreeMap Str Unit) {id : Str} (h : id ∈ docIds ∨ id ∈ ids) :
    id ∈ ids.foldl (fun docIds id => docIds.insert id ()) docIds := by
  induction ids generalizing docIds with
  | nil => exact h.resolve_right List.not_mem_nil
  | cons a ids ih =>
    apply ih
    rcases h with h | h
    · exact .inl (mem_insert_iff.mpr (.inr h))
    · rcases List.mem_cons.mp h with rfl | h
      · exact .inl (mem_insert_iff.mpr (.inl rfl))
      · exact .inr h

theorem Bare.sound {g : MemoryGraph F} (hg : Bare g) : MemoryGraph.SizeCheckSound g := by
  unfold MemoryGraph.SizeCheckSound
  rw [hg.2]
  exact CountedIndex.sound_empty _

/-- The ids that the links of the second pass go by. -/
def referredTo (p : Pass F M) : List Str :=
  (p.containment.flatMap fun (parent, child) => [p.resolveId parent, p.resolveId child]) ++
    p.relations.flatMap fun (source, target, _, _) => [p.resolveId source, p.resolveId target]

/-- The graph of the second pass, by its three batches of edges. -/
theorem secondPass_linked (t : MigrateTools F) (mode : Mode) (records : List (CmbRecord F M)) {p : Pass F M}
    (hbare : Bare p.graph) :
    let graph := (secondPass t mode records p).1
    let Listed := fun id : Str => isDocument id ∧
      (id ∈ referredTo p ∨ ∃ rec ∈ records, isCode rec mode = false ∧ nodeIdFor rec mode = id)
    (∀ link ∈ p.containment, p.resolveId link.1 ≠ p.resolveId link.2 → Listed (p.resolveId link.1) →
      Listed (p.resolveId link.2) → Linked (p.resolveId link.1) (p.resolveId link.2) .contains graph) ∧
    (∀ pair ∈ sequencePairs (sortBy seqCmp p.seq), pair.1 ≠ pair.2 → Listed pair.1 → Listed pair.2 →
      Linked pair.1 pair.2 .relatedTo graph) ∧
    ∀ r ∈ p.relations, p.resolveId r.1 ≠ p.resolveId r.2.1 → Listed (p.resolveId r.1) → Listed (p.resolveId r.2.1) →
      Linked (p.resolveId r.1) (p.resolveId r.2.1) r.2.2.2 graph := by
  let docIds : BTreeMap Str Unit := ((records.filter fun rec => !isCode rec mode).map fun rec =>
    nodeIdFor rec mode).foldl (fun docIds id => docIds.insert id ()) ∅
  let placed := addPlaceholders t p.graph docIds (referredTo p)
  have hlisted : ∀ id, isDocument id ∧
      (id ∈ referredTo p ∨ ∃ rec ∈ records, isCode rec mode = false ∧ nodeIdFor rec mode = id) → id ∈ placed.2 := by
    rintro id ⟨hdoc, hid⟩
    refine mem_addPlaceholders t p.graph docIds (referredTo p) (hid.symm.imp ?_ fun h => ⟨h, hdoc⟩)
    rintro ⟨rec, hrec, hcode, rfl⟩
    refine mem_foldl_insert _ _ (.inr (List.mem_map.mpr ⟨rec, List.mem_filter.mpr ⟨hrec, ?_⟩, rfl⟩))
    rw [hcode]
    rfl
  have hcontains := addDocEdges_spec placed.2 (bare_addPlaceholders t hbare docIds (referredTo p)).sound
    (p.containment.map fun (parent, child) => (p.resolveId parent, p.resolveId child, Scalar.lit 1, .contains))
  have hsequence := addDocEdges_spec placed.2 hcontains.1
    ((sequencePairs (sortBy seqCmp p.seq)).map fun (a, b) => (a, b, Scalar.lit 0.5, .relatedTo))
  have hrelation := addDocEdges_spec placed.2 hsequence.1
    (p.relations.map fun (source, target, weight, kind) => (p.resolveId source, p.resolveId target, weight, kind))
  refine ⟨fun link hlink hne hs ht => ?_, fun pair hpair hne hs ht => ?_, fun r hr hne hs ht => ?_⟩
  · exact hrelation.2.1 _ _ _ (hsequence.2.1 _ _ _
      (hcontains.2.2 _ (List.mem_map_of_mem hlink) hne (hlisted _ hs) (hlisted _ ht)))
  · exact hrelation.2.1 _ _ _ (hsequence.2.2 _ (List.mem_map_of_mem hpair) hne (hlisted _ hs) (hlisted _ ht))
  · exact hrelation.2.2 _ (List.mem_map_of_mem hr) hne (hlisted _ hs) (hlisted _ ht)

/-! ## What ingestion leaves of a link -/

section Ingestion

variable {source target : NodeId} {kind : EdgeType} {g : MemoryGraph F}

theorem mem_triples {x : Triple} : x ∈ g.triples ↔ ∃ e ∈ g.edges, e.triple = x := List.mem_map

theorem Linked.of_eq {g' : MemoryGraph F} (hg : Linked source target kind g)
    (hnodes : ∀ id, isDocument id → id ∈ g'.nodes → id ∈ g.nodes) (hsource : isDocument source)
    (htarget : isDocument target) (hedges : g'.edges = g.edges) : Linked source target kind g' := by
  intro hs ht
  rw [MemoryGraph.triples, hedges]
  exact hg (hnodes _ hsource hs) (hnodes _ htarget ht)

theorem Linked.cold {g' : MemoryGraph F} (hframe : MemoryGraph.ColdFrame g g') (hg : Linked source target kind g) :
    Linked source target kind g' := by
  obtain ⟨_, _, _, _, _, _, rfl⟩ := hframe
  exact hg

/-- A link outlives a filter that keeps its edge. -/
theorem Linked.sift {g' : MemoryGraph F} {keep : GraphEdge F → Bool} (hg : Linked source target kind g)
    (hnodes : ∀ id, id ∈ g'.nodes → id ∈ g.nodes) (hedges : g'.edges = g.edges.filter keep)
    (hkeep : source ∈ g'.nodes → target ∈ g'.nodes → ∀ e : GraphEdge F, e.source = source → e.target = target →
      keep e = true) : Linked source target kind g' := by
  intro hs ht
  obtain ⟨e, he, htriple⟩ := mem_triples.mp (hg (hnodes _ hs) (hnodes _ ht))
  obtain ⟨hsource, htarget, -⟩ : e.source = source ∧ e.target = target ∧ e.edgeType = kind := by
    simpa [GraphEdge.triple] using htriple
  rw [mem_triples, hedges]
  exact ⟨e, List.mem_filter.mpr ⟨he, hkeep hs ht e hsource htarget⟩, htriple⟩

theorem Linked.eraseNode (hg : Linked source target kind g) (id : NodeId) : Linked source target kind
    { g with nodes := g.nodes.erase id, edges := g.edges.filter (!·.touches id) } := by
  refine hg.sift (fun _ h => (mem_erase_iff.mp h).2) rfl fun hs ht e hsource htarget => ?_
  simp [GraphEdge.touches, hsource, htarget, (mem_erase_iff.mp hs).1, (mem_erase_iff.mp ht).1]

theorem Linked.demote (hg : Linked source target kind g) (id : NodeId) : Linked source target kind (g.demote id) := by
  by_cases hid : id ∈ g.nodes
  · obtain ⟨v, hv⟩ := exists_getElem?_of_mem hid
    have herase := hg.eraseNode id
    simp only [MemoryGraph.demote, hv]
    exact herase
  · rw [MemoryGraph.demote_of_not_mem hid]
    exact hg

theorem Linked.pruneDanglingEdges (hg : Linked source target kind g) :
    Linked source target kind g.pruneDanglingEdges := by
  refine hg.sift (fun _ h => h) rfl fun hs ht e hsource htarget => ?_
  unfold MemoryGraph.hasEnds
  rw [hsource, htarget, Bool.and_eq_true]
  exact ⟨ExtTreeMap.contains_iff_mem.mpr hs, ExtTreeMap.contains_iff_mem.mpr ht⟩

theorem Linked.upsertNode (h : Host F) (hg : Linked source target kind g) (hsource : isDocument source)
    (htarget : isDocument target) {id : NodeId} (hid : ¬ isDocument id) (label content : Str) (nodeType : NodeType) :
    Linked source target kind (g.upsertNode h id label content nodeType) := by
  unfold MemoryGraph.upsertNode
  refine MemoryGraph.enforcePaging_keeps h (fun _ _ hframe hg => hg.cold hframe) (fun _ id hg => hg.demote id)
    (fun _ hg => hg.pruneDanglingEdges) ?_
  have hcold := hg.cold (g.forgetColdShadow_frame id)
  refine hcold.of_eq (fun id' hdoc hmem => ?_) hsource htarget rfl
  rcases mem_insert_iff.mp hmem with rfl | hmem
  · exact absurd hdoc hid
  · exact hmem

theorem Linked.removeNode (hg : Linked source target kind g) (id : NodeId) :
    Linked source target kind (g.removeNode id) := by
  have hframe := MemoryGraph.forgetColdShadow_frame { g with nodes := g.nodes.erase id } id
  unfold MemoryGraph.removeNode
  obtain ⟨_, _, _, _, _, _, heq⟩ := hframe
  rw [heq]
  exact hg.eraseNode id

/-- Resolution owns no edge that starts at a document. -/
theorem Linked.resolveAll (hg : Linked source target kind g) (hsource : isDocument source) :
    Linked source target kind g.resolveAll.1 := by
  refine MemoryGraph.resolveAll_induct ?_ fun g s t w ty hg => hg.addEdge s t w ty
  obtain ⟨rest, rfl⟩ := hsource
  refine hg.sift (fun _ h => h) rfl fun _ _ e hs _ => ?_
  have hfile : startsWith "file:".toList ("doc:".toList ++ rest) = false := rfl
  have hsym : symFile ("doc:".toList ++ rest) = none := rfl
  unfold MemoryGraph.resolutionOwned
  rw [hs, hfile, hsym]
  cases e.edgeType <;> rfl

/-- The graph calls of an ingestion. -/
def Ingests (op : GraphOp F) : Prop :=
  (∃ path, op.BuildsFile path) ∨ (∃ id, op = .removeNode id) ∨ ∃ path trust, op = .stampFileTrust path trust

theorem Linked.step (h : Host F) (hg : Linked source target kind g) (hsource : isDocument source)
    (htarget : isDocument target) {op : GraphOp F} (hop : Ingests op) : Linked source target kind (g.step h op) := by
  rcases hop with ⟨path, hbuilds, hinserted⟩ | ⟨id, rfl⟩ | ⟨path, trust, rfl⟩
  · cases op with
    | upsertNode id label content nodeType =>
      refine hg.upsertNode h hsource htarget ?_ label content nodeType
      rintro ⟨rest, rfl⟩
      rcases hinserted _ rfl with howned | ⟨root, hdep⟩
      · rw [ownedBy_iff] at howned
        simp only [List.mem_cons, List.not_mem_nil, or_false] at howned
        rcases howned with hfile | ⟨_, rfl | rfl | rfl, x, hscoped⟩
        · cases hfile
        all_goals cases hscoped
      · cases hdep
    | addEdge s t w ty => exact hg.addEdge s t w ty
    | setPendingCalls | setPendingDataRefs | setPendingAliases | setPendingMethods | markDataSymbol => exact hg
    | _ => exact hbuilds.elim
  · exact hg.removeNode id
  · exact hg.of_eq (fun id _ hmem => ExtTreeMap.mem_map.mp hmem) hsource htarget rfl

theorem Linked.run (h : Host F) (hg : Linked source target kind g) (hsource : isDocument source)
    (htarget : isDocument target) {ops : List (GraphOp F)} (hops : ∀ op ∈ ops, Ingests op) :
    Linked source target kind (g.run h ops) := by
  induction ops generalizing g with
  | nil => exact hg
  | cons op ops ih =>
    obtain ⟨hop, hops⟩ := List.forall_mem_cons.mp hops
    rw [MemoryGraph.run_cons]
    exact ih (hg.step h hsource htarget hop) hops

theorem ingestOps_ingest (t : Tools F) (mem : CcosMemory F) (uri content : Str) :
    ∀ op ∈ CcosMemory.ingestOps t mem uri content, Ingests op := by
  intro op hop
  rcases List.mem_append.mp hop with hop | hop
  · unfold CcosMemory.processDelta at hop
    dsimp only at hop
    split at hop
    · exact .inl ⟨_, updateOps_build _ _ _ op hop⟩
    · split at hop
      · exact absurd hop List.not_mem_nil
      · rcases List.mem_append.mp hop with hop | hop
        · obtain ⟨id, -, rfl⟩ := List.mem_map.mp hop
          exact .inr (.inl ⟨id, rfl⟩)
        · exact .inl ⟨_, updateOps_build _ _ _ op hop⟩
  · unfold CcosMemory.taintOps at hop
    dsimp only at hop
    split at hop
    · exact .inr (.inr ⟨_, _, List.mem_singleton.mp hop⟩)
    · exact absurd hop List.not_mem_nil

theorem linked_ingestCode (t : MigrateTools F) (code : List (Str × Str)) {mem : CcosMemory F}
    (hmem : Linked source target kind mem.graph) (hsource : isDocument source) (htarget : isDocument target) :
    Linked source target kind (ingestCode t mem code).graph := by
  unfold ingestCode
  refine List.foldlRecOn code _ (motive := fun mem : CcosMemory F => Linked source target kind mem.graph) hmem
    fun mem hmem file _ => ?_
  exact hmem.run _ hsource htarget (ingestOps_ingest t.toTools mem file.1 file.2)

theorem linked_resolveCounted (t : MigrateTools F) {mem : CcosMemory F} (hmem : Linked source target kind mem.graph)
    (hsource : isDocument source) : Linked source target kind (resolveCounted t mem).1.graph := by
  change Linked source target kind (mem.resolve t.toTools).graph
  unfold CcosMemory.resolve
  split
  · have hrun : mem.graph.run t.toHost [.resolveAll] = mem.graph.resolveAll.1 := by
      simp only [MemoryGraph.run_cons, MemoryGraph.run_nil, MemoryGraph.step]
    unfold CcosMemory.onGraph
    dsimp only
    rw [hrun]
    exact hmem.resolveAll hsource
  · exact hmem

end Ingestion

/-! ## After a migration -/

theorem linked_freshMemory {source target : NodeId} {kind : EdgeType} {graph : MemoryGraph F}
    {sources : BTreeMap Str Str} {mem : CcosMemory F} (hgraph : Linked source target kind graph)
    (h : freshMemory graph sources = some mem) : Linked source target kind mem.graph := by
  obtain ⟨persisted, hreparse, rfl⟩ := Option.map_eq_some_iff.mp h
  obtain ⟨snapshot, hsnapshot, hreparse⟩ := Option.bind_eq_some_iff.mp hreparse
  obtain ⟨eventLog, -, heq⟩ := Option.bind_eq_some_iff.mp hreparse
  cases heq
  have hreload : graph.reload = some (MemoryGraph.ofSnapshot snapshot) := by
    unfold MemoryGraph.reload
    rw [hsnapshot]
    rfl
  obtain ⟨s, heq, hnodes, htriples, -, -⟩ := MemoryGraph.reload_eq_some hreload
  change Linked source target kind (MemoryGraph.ofSnapshot snapshot)
  rw [heq]
  intro hs ht
  have hedge := hgraph ((hnodes source).mp hs) ((hnodes target).mp ht)
  rw [MemoryGraph.triples, ← htriples] at hedge
  exact hedge

/-- A link between different documents is an edge of the document graph. -/
theorem linked_secondPass (t : MigrateTools F) {mode : Mode} {records : List (CmbRecord F M)} {source target : NodeId}
    {kind : EdgeType} (h : Link mode records source target kind) (hne : source ≠ target) (hsource : isDocument source)
    (htarget : isDocument target) :
    Linked source target kind (secondPass t mode records (firstPass t mode records)).1 := by
  have hresolve := resolveId_firstPass t mode records
  obtain ⟨hcontainment, -, hrelations⟩ := foldl_links t mode records Pass.start
  obtain ⟨hparents, hnext, hlinks⟩ := secondPass_linked t mode records (bare_firstPass t mode records)
  cases h with
  | @parent rec hrec parent hparent =>
    have hmem : (parent, rec.id) ∈ (firstPass t mode records).containment := by
      refine hcontainment.symm ▸ List.mem_append_right _ (List.mem_flatMap.mpr ⟨rec, hrec, ?_⟩)
      simp [hparent]
    have hreferred : ∀ id ∈ [nodeOf mode records parent, nodeOf mode records rec.id],
        id ∈ referredTo (firstPass t mode records) := by
      intro id hid
      rw [← hresolve, ← hresolve] at hid
      exact List.mem_append_left _ (List.mem_flatMap.mpr ⟨_, hmem, hid⟩)
    have hlink := hparents _ hmem
    dsimp only at hlink
    rw [hresolve, hresolve] at hlink
    exact hlink hne ⟨hsource, .inl (hreferred _ (by simp))⟩ ⟨htarget, .inl (hreferred _ (by simp))⟩
  | @next parent a b hnextTo =>
    have hrecord : ∀ rec ∈ [a, b], isDocument (nodeIdFor rec mode) →
        ∃ rec' ∈ records, isCode rec' mode = false ∧ nodeIdFor rec' mode = nodeIdFor rec mode := by
      intro rec hrec hdoc
      have hmem : rec ∈ siblings records parent := hnextTo.subset hrec
      refine ⟨rec, List.mem_of_mem_filter ((mem_sortBy _ _ _).mp hmem), ?_, rfl⟩
      rw [← Bool.not_eq_true]
      intro hcode
      rw [nodeIdFor, if_pos hcode] at hdoc
      exact not_isDocument_fileKey _ hdoc
    exact hnext _ (neighbours_listed t hnextTo) hne ⟨hsource, .inr (hrecord a (by simp) hsource)⟩
      ⟨htarget, .inr (hrecord b (by simp) htarget)⟩
  | @relation rec hrec r hr =>
    have hmem : (r.source.getD rec.id, r.target, r.weight, mapEdgeKind r.kind) ∈
        (firstPass t mode records).relations :=
      hrelations.symm ▸ List.mem_append_right _ (List.mem_flatMap.mpr ⟨rec, hrec, List.mem_map_of_mem hr⟩)
    have hreferred : ∀ id ∈ [nodeOf mode records (r.source.getD rec.id), nodeOf mode records r.target],
        id ∈ referredTo (firstPass t mode records) := by
      intro id hid
      rw [← hresolve, ← hresolve] at hid
      exact List.mem_append_right _ (List.mem_flatMap.mpr ⟨_, hmem, hid⟩)
    have hlink := hlinks _ hmem
    dsimp only at hlink
    rw [hresolve, hresolve] at hlink
    exact hlink hne ⟨hsource, .inl (hreferred _ (by simp))⟩ ⟨htarget, .inl (hreferred _ (by simp))⟩

/-- Every link is an edge that joins different nodes with `P`. -/
def KeepsLinks (P : NodeId → Prop) (mode : Mode) (records : List (CmbRecord F M)) (graph : MemoryGraph F) : Prop :=
  ∀ source target kind, Link mode records source target kind → source ≠ target → P source → P target →
    ∃ e ∈ graph.edges, e.triple = (source, target, kind)

def chunkOf (id parent : String) (ordinal : Int) : CmbRecord ℚ Unit :=
  ⟨id.toList, "chunk".toList, id.toList, none, some parent.toList, some ordinal, (), [], none⟩

def documentOfChunks : List (CmbRecord ℚ Unit) := [plainRecord "d" "text" none, chunkOf "a" "d" 0, chunkOf "b" "d" 1]

def chunkOfCode : List (CmbRecord ℚ Unit) := [plainRecord "p" "x" (some "a.rs"), chunkOf "c" "p" 0]

end Ccos.Migrate
