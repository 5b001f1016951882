import Ccos.Memory.Adjacency

/-!
# What the COLD tier files

One invariant over the resident nodes, the full entries, the husks and the two stores beside them, and
what each move between them does to it.
-/

open Std MirrorIndex

set_option linter.unusedSectionVars false

namespace Ccos

section Entries

variable {F : Type}

/-- The id of an entry and the ends of the edges it archives. -/
def ColdNode.links (c : ColdNode F) : NodeId × List (NodeId × NodeId) :=
  (c.node.id, c.edges.map fun e => (e.source, e.target))

/-- An entry under its own id, whose edges all touch it. -/
structure Entry (id : NodeId) (c : ColdNode F) : Prop where
  nodeId : c.node.id = id
  plain : Plain id
  touches : ∀ e ∈ c.edges, e.touches id ∧ Plain (e.other id)

/-- What the paging to disk relies on: blobs have distinct names, and the JSON text of an entry keeps
its id and the ends of its edges. -/
structure Host.KeepsLinks (h : Host F) : Prop where
  sha256 : Function.Injective h.sha256
  printed : ∀ c c' : ColdNode F, h.printCold c = h.printCold c' → c.links = c'.links
  parsed : ∀ c c' : ColdNode F, h.parseCold (h.printCold c) = some c' → c'.links = c.links

theorem exists_edge_of_links {c c' : ColdNode F} (h : c'.links = c.links) {e : GraphEdge F} (he : e ∈ c'.edges) :
    ∃ e₀ ∈ c.edges, e₀.source = e.source ∧ e₀.target = e.target := by
  have hends : (e.source, e.target) ∈ c.links.2 := h ▸ List.mem_map_of_mem he
  obtain ⟨e₀, he₀, heq⟩ := List.mem_map.mp hends
  exact ⟨e₀, he₀, congrArg Prod.fst heq, congrArg Prod.snd heq⟩

theorem GraphEdge.touches_congr {e e₀ : GraphEdge F} (hs : e₀.source = e.source) (ht : e₀.target = e.target)
    (id : NodeId) : e₀.touches id = e.touches id ∧ e₀.other id = e.other id := by
  simp only [GraphEdge.touches, GraphEdge.other, hs, ht, and_self]

theorem Entry.of_links {id : NodeId} {c c' : ColdNode F} (h : Entry id c) (hlinks : c'.links = c.links) :
    Entry id c' where
  nodeId := (congrArg Prod.fst hlinks).trans h.nodeId
  plain := h.plain
  touches e he := by
    obtain ⟨e₀, he₀, hs, ht⟩ := exists_edge_of_links hlinks he
    obtain ⟨htouches, hother⟩ := GraphEdge.touches_congr hs ht id
    rw [← htouches, ← hother]
    exact h.touches e₀ he₀

theorem others_of_links {c c' : ColdNode F} (h : c'.links = c.links) (id b : NodeId) :
    b ∈ c'.edges.map (·.other id) ↔ b ∈ c.edges.map (·.other id) := by
  have himp : ∀ {c c' : ColdNode F}, c'.links = c.links → b ∈ c'.edges.map (·.other id) →
      b ∈ c.edges.map (·.other id) := by
    intro c c' h hb
    obtain ⟨e, he, rfl⟩ := List.mem_map.mp hb
    obtain ⟨e₀, he₀, hs, ht⟩ := exists_edge_of_links h he
    exact List.mem_map.mpr ⟨e₀, he₀, (GraphEdge.touches_congr hs ht id).2⟩
  exact ⟨himp h, himp h.symm⟩

end Entries

namespace MemoryGraph

variable {F : Type} [Scalar F]

theorem mem_huskAdj {c : ColdNode F} {b : NodeId} :
    b ∈ huskAdj c ↔ b ≠ c.node.id ∧ b ∈ c.edges.map (·.other c.node.id) := by
  rw [huskAdj, mem_sortDedup, List.mem_filter, bne_iff_ne, and_comm]

/-- A husk in the place of an entry: its blob has the name of the entry's text. -/
def StandsFor (h : Host F) (husk : DeepHusk) (id : NodeId) : Prop :=
  ∃ entry, Entry id entry ∧ husk.body.hash = h.sha256 (h.printCold entry) ∧ husk.adj = huskAdj entry

/-- Who files a link to whom. -/
def filed (cold : BTreeMap NodeId (ColdNode F)) (husks : BTreeMap NodeId DeepHusk) (a b : NodeId) : Prop :=
  (∃ c, cold[a]? = some c ∧ b ∈ c.edges.map (·.other a)) ∨ ∃ husk, husks[a]? = some husk ∧ b ∈ husk.adj

/-- The three places a node can be in, and what lies there. -/
structure Shelves (h : Host F) (g : MemoryGraph F) (husks : BTreeMap NodeId DeepHusk) : Prop where
  nodeId : ∀ (id : NodeId) n, g.nodes[id]? = some n → n.id = id ∧ Plain id
  resident : ∀ id ∈ g.nodes, id ∉ g.cold ∧ id ∉ husks
  full : ∀ (id : NodeId) c, g.cold[id]? = some c → Entry id c ∧ id ∉ husks
  deep : ∀ (id : NodeId) husk, husks[id]? = some husk → StandsFor h husk id
  once : FiledOnce (filed g.cold husks)

/-- The husk index holds the husks; without one there are none. -/
def HoldsHusks (store : Option (HuskStore DeepHusk)) (husks : BTreeMap NodeId DeepHusk) : Prop :=
  match store with
  | none => husks = ∅
  | some hs => HuskStore.Holds hs husks

/-- The reverse adjacency, when there is one, lists the filed links. -/
def ListsFiled (radj : Option (HuskStore Unit)) (filed : NodeId → NodeId → Prop) : Prop :=
  ∀ r, radj = some r → ∃ index, Lists r index ∧ Mirrors index filed

structure Shelved (h : Host F) (g : MemoryGraph F) (husks : BTreeMap NodeId DeepHusk) : Prop
    extends Shelves h g husks where
  index : HoldsHusks g.huskStore husks
  adjacency : ListsFiled g.radj (filed g.cold husks)
  attached : g.radj = none → g.huskStore = none

theorem ListsFiled.congr {radj : Option (HuskStore Unit)} {filed filed' : NodeId → NodeId → Prop}
    (h : ListsFiled radj filed) (hsame : Same filed' filed) : ListsFiled radj filed' := by
  intro r hr
  obtain ⟨index, hlists, hmirrors⟩ := h r hr
  exact ⟨index, hlists, hmirrors.congr (fun _ _ _ => Iff.rfl) hsame⟩

theorem HoldsHusks.get {g : MemoryGraph F} {husks : BTreeMap NodeId DeepHusk} (hg : HoldsHusks g.huskStore husks)
    (id : NodeId) : (g.deepGet id).1 = husks[id]? := by
  unfold deepGet
  unfold HoldsHusks at hg
  split
  · rename_i hnone
    rw [hnone] at hg
    rw [hg, ExtTreeMap.getElem?_empty]
  · rename_i hs hsome
    rw [hsome] at hg
    exact hg.get id

theorem HoldsHusks.read {g : MemoryGraph F} {husks : BTreeMap NodeId DeepHusk} (hg : HoldsHusks g.huskStore husks)
    (id : NodeId) : HoldsHusks (g.deepGet id).2.huskStore husks := by
  unfold deepGet
  split
  · exact hg
  · rename_i hs hsome
    rw [hsome] at hg
    exact HuskStore.Holds.read hg id

theorem HoldsHusks.delete {store : Option (HuskStore DeepHusk)} {husks : BTreeMap NodeId DeepHusk}
    (hindex : HoldsHusks store husks) (id : NodeId) : HoldsHusks (store.map (·.delete id)) (husks.erase id) := by
  cases store with
  | none =>
    have hempty : husks = ∅ := hindex
    rw [hempty]
    exact erase_of_not_mem ExtTreeMap.not_mem_empty
  | some hs => exact HuskStore.Holds.delete hindex id

/-- A read touches nothing but the cache of the index. -/
theorem deepGet_eq (g : MemoryGraph F) (id : NodeId) :
    ∃ huskStore, (g.deepGet id).2 = { g with huskStore } ∧ (g.huskStore = none → huskStore = none) := by
  unfold deepGet
  split
  · exact ⟨g.huskStore, rfl, fun hnone => hnone⟩
  · rename_i hs hsome
    exact ⟨_, rfl, fun hnone => by rw [hsome] at hnone; cases hnone⟩

/-! ## Steps that leave the links alone -/

theorem filed_congr {cold cold' : BTreeMap NodeId (ColdNode F)} (husks : BTreeMap NodeId DeepHusk)
    (hcold : ∀ id : NodeId, (cold'[id]?).map ColdNode.links = (cold[id]?).map ColdNode.links) (a b : NodeId) :
    filed cold' husks a b ↔ filed cold husks a b := by
  have himp : ∀ {m m' : BTreeMap NodeId (ColdNode F)},
      (m'[a]?).map ColdNode.links = (m[a]?).map ColdNode.links →
      (∃ c, m'[a]? = some c ∧ b ∈ c.edges.map (·.other a)) → ∃ c, m[a]? = some c ∧ b ∈ c.edges.map (·.other a) := by
    rintro m m' heq ⟨c', hc', hb⟩
    rw [hc', Option.map_some, eq_comm, Option.map_eq_some_iff] at heq
    obtain ⟨c, hc, hlinks⟩ := heq
    exact ⟨c, hc, (others_of_links hlinks.symm a b).mp hb⟩
  exact or_congr_left ⟨himp (hcold a), himp (hcold a).symm⟩

/-- A step that edits fields of nodes and of entries, and none of the links. -/
theorem Shelves.edit {h : Host F} {g g' : MemoryGraph F} {husks : BTreeMap NodeId DeepHusk} (hg : Shelves h g husks)
    (hnodes : ∀ (id : NodeId) n', g'.nodes[id]? = some n' → ∃ n, g.nodes[id]? = some n ∧ n'.id = n.id)
    (hcold : ∀ id : NodeId, (g'.cold[id]?).map ColdNode.links = (g.cold[id]?).map ColdNode.links) :
    Shelves h g' husks where
  nodeId id n' hn' := by
    obtain ⟨n, hn, hid⟩ := hnodes id n' hn'
    rw [hid]
    exact hg.nodeId id n hn
  resident id hid := by
    obtain ⟨n', hn'⟩ := exists_getElem?_of_mem hid
    obtain ⟨n, hn, -⟩ := hnodes id n' hn'
    obtain ⟨hcold₀, hhusk⟩ := hg.resident id (mem_of_getElem?_eq_some hn)
    refine ⟨fun hmem => hcold₀ ?_, hhusk⟩
    have hsome := congrArg Option.isSome (hcold id)
    rw [Option.isSome_map, Option.isSome_map] at hsome
    rwa [ExtTreeMap.mem_iff_isSome_getElem?, ← hsome, ← ExtTreeMap.mem_iff_isSome_getElem?]
  full id c' hc' := by
    have hlinks := hcold id
    rw [hc', Option.map_some, eq_comm, Option.map_eq_some_iff] at hlinks
    obtain ⟨c, hc, hlinks⟩ := hlinks
    obtain ⟨hentry, hhusk⟩ := hg.full id c hc
    exact ⟨hentry.of_links hlinks.symm, hhusk⟩
  deep := hg.deep
  once := hg.once.congr fun a b _ => filed_congr husks hcold a b

theorem Shelved.edit {h : Host F} {g g' : MemoryGraph F} {husks : BTreeMap NodeId DeepHusk} (hg : Shelved h g husks)
    (hnodes : ∀ (id : NodeId) n', g'.nodes[id]? = some n' → ∃ n, g.nodes[id]? = some n ∧ n'.id = n.id)
    (hcold : ∀ id : NodeId, (g'.cold[id]?).map ColdNode.links = (g.cold[id]?).map ColdNode.links)
    (hhusks : HoldsHusks g'.huskStore husks) (hattached : g.huskStore = none → g'.huskStore = none)
    (hradj : g'.radj = g.radj) : Shelved h g' husks where
  toShelves := hg.toShelves.edit hnodes hcold
  index := hhusks
  adjacency := hradj ▸ hg.adjacency.congr fun a b _ => filed_congr husks hcold a b
  attached hnone := hattached (hg.attached (hradj ▸ hnone))

theorem Shelved.entries {h : Host F} {g g' : MemoryGraph F} {husks : BTreeMap NodeId DeepHusk}
    (hg : Shelved h g husks) (hnodes : g'.nodes = g.nodes) (hhusks : g'.huskStore = g.huskStore)
    (hradj : g'.radj = g.radj)
    (hcold : ∀ id : NodeId, (g'.cold[id]?).map ColdNode.links = (g.cold[id]?).map ColdNode.links) :
    Shelved h g' husks :=
  hg.edit (fun _ n' hn' => ⟨n', hnodes ▸ hn', rfl⟩) hcold (hhusks ▸ hg.index) (fun hnone => hhusks.trans hnone) hradj

theorem links_insert {cold : BTreeMap NodeId (ColdNode F)} {id : NodeId} {c c' : ColdNode F}
    (hc : cold[id]? = some c) (hlinks : c'.links = c.links) (k : NodeId) :
    ((cold.insert id c')[k]?).map ColdNode.links = (cold[k]?).map ColdNode.links := by
  rw [getElem?_insert_eq]
  split
  · rename_i hk
    rw [hk, hc, Option.map_some, Option.map_some, hlinks]
  · rfl

/-- A step inside the blob store. -/
def OnlySpill (g g' : MemoryGraph F) : Prop := ∃ spill, g' = { g with spill }

theorem Shelved.onlySpill {h : Host F} {g g' : MemoryGraph F} {husks : BTreeMap NodeId DeepHusk}
    (hg : Shelved h g husks) (hstep : OnlySpill g g') : Shelved h g' husks := by
  obtain ⟨spill, rfl⟩ := hstep
  exact hg.entries rfl rfl rfl fun _ => rfl

theorem releaseContentBlobIfOrphan_onlySpill (g : MemoryGraph F) (hash : Hash) :
    OnlySpill g (g.releaseContentBlobIfOrphan hash) := by
  unfold releaseContentBlobIfOrphan
  split <;> exact ⟨_, rfl⟩

theorem releaseBlobIfOrphan_onlySpill (g : MemoryGraph F) (hash : Hash) :
    OnlySpill g (g.releaseBlobIfOrphan hash) := by
  unfold releaseBlobIfOrphan
  split <;> exact ⟨_, rfl⟩

theorem Shelved.read {h : Host F} {g : MemoryGraph F} {husks : BTreeMap NodeId DeepHusk} (hg : Shelved h g husks)
    (id : NodeId) : Shelved h (g.deepGet id).2 husks := by
  refine hg.edit (fun k n hn => ⟨n, ?_, rfl⟩) (fun k => ?_) (hg.index.read id) ?_ ?_
  all_goals
    unfold deepGet at *
    split at *
  all_goals first | rfl | exact hn | exact id | (intro hnone; simp_all)

/-! ## Between a full entry and a husk -/

theorem filed_moved {cold cold' : BTreeMap NodeId (ColdNode F)} {husks husks' : BTreeMap NodeId DeepHusk}
    {id : NodeId} {c : ColdNode F} {husk : DeepHusk} (hc : cold[id]? = some c) (hhusk : husks[id]? = none)
    (hc' : cold'[id]? = none) (hhusk' : husks'[id]? = some husk)
    (hcold : ∀ k, k ≠ id → cold'[k]? = cold[k]?) (hhusks : ∀ k, k ≠ id → husks'[k]? = husks[k]?)
    (hadj : ∀ b, b ≠ id → (b ∈ husk.adj ↔ b ∈ c.edges.map (·.other id))) :
    Same (filed cold' husks') (filed cold husks) := by
  intro a b hne
  unfold filed
  by_cases ha : a = id
  · subst ha
    rw [hc, hhusk, hc', hhusk']
    simp only [reduceCtorEq, false_and, exists_false, false_or, or_false, Option.some.injEq, exists_eq_left']
    exact hadj b hne.symm
  · rw [hcold a ha, hhusks a ha]

theorem foldInline_edges {h : Host F} {g : MemoryGraph F} {c entry : ColdNode F}
    (hentry : g.foldInline h c = some entry) : entry.edges = c.edges ∧ entry.node.id = c.node.id := by
  unfold foldInline at hentry
  split at hentry
  · cases hentry
    exact ⟨rfl, rfl⟩
  · obtain ⟨text, -, rfl⟩ := Option.map_eq_some_iff.mp hentry
    exact ⟨rfl, rfl⟩

/-- A full entry goes to disk, and a husk takes its place. -/
theorem Shelved.deepSpill {h : Host F} {g : MemoryGraph F} {husks : BTreeMap NodeId DeepHusk} (hg : Shelved h g husks)
    {id : NodeId} {c entry : ColdNode F} (hc : g.cold[id]? = some c) (hentry : g.foldInline h c = some entry)
    (hstore : g.huskStore.isSome) : ∃ husks', Shelved h (g.deepSpill h id c entry) husks' := by
  obtain ⟨hentry₀, hfree⟩ := hg.full id c hc
  obtain ⟨hedges, hid⟩ := foldInline_edges hentry
  obtain ⟨hs, hsome⟩ := Option.isSome_iff_exists.mp hstore
  let husk : DeepHusk :=
    { body := { hash := h.sha256 (h.printCold entry), len := byteLen (h.printCold entry) }, adj := huskAdj c }
  let moved : MemoryGraph F := { g.spillPut h (h.printCold entry) with
    huskStore := g.huskStore.map (·.put id husk), cold := g.cold.erase id }
  have hsame : Same (filed moved.cold (husks.insert id husk)) (filed g.cold husks) := by
    have hhusk : (husks.insert id husk)[id]? = some husk := by rw [getElem?_insert_eq, if_pos rfl]
    refine filed_moved hc (ExtTreeMap.getElem?_eq_none hfree) ?_ hhusk (fun k hk => ?_) (fun k hk => ?_) fun b hb => ?_
    · rw [getElem?_erase_eq, if_pos rfl]
    · rw [getElem?_erase_eq, if_neg hk]
    · rw [getElem?_insert_eq, if_neg hk]
    · rw [mem_huskAdj, hentry₀.nodeId, and_iff_right hb]
  have hmoved : Shelved h moved (husks.insert id husk) := by
    refine ⟨⟨hg.nodeId, fun k hk => ?_, fun k c' hc' => ?_, fun k husk' hhusk' => ?_, hg.once.congr hsame⟩,
      ?_, hg.adjacency.congr hsame, fun hnone => ?_⟩
    · obtain ⟨hcold, hhusk⟩ := hg.resident k hk
      have hne : k ≠ id := fun heq => hcold (heq ▸ mem_of_getElem?_eq_some hc)
      rw [mem_erase_iff, mem_insert_iff]
      exact ⟨fun hmem => hcold hmem.2, fun hmem => hmem.elim hne hhusk⟩
    · rw [getElem?_erase_eq] at hc'
      split at hc'
      · cases hc'
      · rename_i hne
        obtain ⟨hentry', hhusk'⟩ := hg.full k c' hc'
        exact ⟨hentry', fun hmem => (mem_insert_iff.mp hmem).elim hne hhusk'⟩
    · rw [getElem?_insert_eq] at hhusk'
      split at hhusk'
      · rename_i hk
        cases hhusk'
        have hlinks : entry.links = c.links := by rw [ColdNode.links, ColdNode.links, hedges, hid]
        exact hk ▸ ⟨entry, hentry₀.of_links hlinks, rfl, by simp only [husk, huskAdj, hedges, hid]⟩
      · exact hg.deep k husk' hhusk'
    · have hindex := hg.index
      rw [hsome] at hindex
      change HoldsHusks (g.huskStore.map (·.put id husk)) _
      rw [hsome]
      exact HuskStore.Holds.put hindex id husk
    · exact absurd (hg.attached hnone) (by rw [hsome]; simp)
  refine ⟨husks.insert id husk, ?_⟩
  unfold MemoryGraph.deepSpill
  dsimp only
  split
  · exact hmoved.onlySpill (releaseContentBlobIfOrphan_onlySpill _ _)
  · exact hmoved

/-- A blob that is read has the name it was asked for by. -/
theorem sha256_of_spillGet {h : Host F} {g : MemoryGraph F} {hash : Hash} {text : Str}
    (hget : g.spillGet h hash = some text) : h.sha256 text = hash := by
  obtain ⟨cfg, -, hread⟩ := Option.bind_eq_some_iff.mp hget
  unfold ColdSpill.get at hread
  split at hread
  · cases hread
  · split at hread
    · cases hread
    · split at hread
      · rename_i heq
        cases hread
        exact heq
      · cases hread

/-- A husk faults back as the entry it stood for. -/
theorem Shelved.faultDeep {h : Host F} (hkeeps : h.KeepsLinks) {g : MemoryGraph F}
    {husks : BTreeMap NodeId DeepHusk} (hg : Shelved h g husks) (id : NodeId) :
    ∃ husks', Shelved h (g.faultDeep h id).1 husks' := by
  have hread := hg.read id
  have hget := hg.index.get id
  unfold MemoryGraph.faultDeep
  generalize g.deepGet id = read at hread hget
  obtain ⟨found, g₁⟩ := read
  cases found with
  | none => exact ⟨husks, hread⟩
  | some husk =>
    dsimp only at hread hget ⊢
    split
    · exact ⟨husks, hread⟩
    · rename_i node hnode
      obtain ⟨text, htext, hparse⟩ := Option.bind_eq_some_iff.mp hnode
      obtain ⟨entry, hentry, hhash, hadj⟩ := hread.deep id husk hget.symm
      obtain rfl := hkeeps.sha256 ((sha256_of_spillGet htext).trans hhash)
      have hlinks := hkeeps.parsed entry node hparse
      have hhusk := mem_of_getElem?_eq_some hget.symm
      have hfree : id ∉ g₁.cold := fun hmem => by
        obtain ⟨c, hc⟩ := exists_getElem?_of_mem hmem
        exact (hread.full id c hc).2 hhusk
      let moved : MemoryGraph F := { g₁.deepDelete id with cold := g₁.cold.insert id node }
      have hsame : Same (filed moved.cold (husks.erase id)) (filed g₁.cold husks) := by
        have hnode : moved.cold[id]? = some node := by
          change (g₁.cold.insert id node)[id]? = _
          rw [getElem?_insert_eq, if_pos rfl]
        have hgone : (husks.erase id)[id]? = none := by rw [getElem?_erase_eq, if_pos rfl]
        have hmoved := filed_moved hnode hgone (ExtTreeMap.getElem?_eq_none hfree) hget.symm
          (fun k hk => by rw [getElem?_insert_eq, if_neg hk]) (fun k hk => by rw [getElem?_erase_eq, if_neg hk])
          fun b hb => by rw [hadj, mem_huskAdj, hentry.nodeId, and_iff_right hb, others_of_links hlinks]
        exact fun a b hne => (hmoved a b hne).symm
      have hmoved : Shelved h moved (husks.erase id) := by
        refine ⟨⟨hread.nodeId, fun k hk => ?_, fun k c hc => ?_, fun k husk' hhusk' => ?_,
          hread.once.congr hsame⟩, ?_, hread.adjacency.congr hsame, fun hnone => ?_⟩
        · obtain ⟨hcold, hhusks⟩ := hread.resident k hk
          have hne : k ≠ id := fun heq => hhusks (heq ▸ hhusk)
          exact ⟨fun hmem => (mem_insert_iff.mp hmem).elim hne hcold, fun hmem => hhusks (mem_erase_iff.mp hmem).2⟩
        · rw [getElem?_insert_eq] at hc
          split at hc
          · rename_i hk
            cases hc
            rw [hk]
            exact ⟨hentry.of_links hlinks, fun hmem => (mem_erase_iff.mp hmem).1 rfl⟩
          · obtain ⟨hentry', hhusks⟩ := hread.full k c hc
            exact ⟨hentry', fun hmem => hhusks (mem_erase_iff.mp hmem).2⟩
        · rw [getElem?_erase_eq] at hhusk'
          split at hhusk'
          · cases hhusk'
          · exact hread.deep k husk' hhusk'
        · exact hread.index.delete id
        · change g₁.huskStore.map _ = none
          rw [hread.attached hnone, Option.map_none]
      exact ⟨husks.erase id, hmoved.onlySpill (releaseBlobIfOrphan_onlySpill _ _)⟩

theorem Shelved.faultContent {h : Host F} {g : MemoryGraph F} {husks : BTreeMap NodeId DeepHusk}
    (hg : Shelved h g husks) (id : NodeId) : Shelved h (g.faultContent h id).1 husks := by
  unfold MemoryGraph.faultContent
  split
  · exact hg
  · split
    · exact hg
    · refine Shelved.onlySpill ?_ (releaseContentBlobIfOrphan_onlySpill _ _)
      refine hg.entries rfl rfl rfl fun k => ?_
      rw [getElem?_modify_eq]
      split
      · rw [Option.map_map]
        rfl
      · rfl

/-! ## The budgets -/

theorem shelved_moves (h : Host F) : KeptByMoves h fun g => ∃ husks, Shelved h g husks where
  fill g hg := hg.imp fun _ hg => hg.entries rfl rfl rfl fun _ => rfl
  content g id c hg hc _ := hg.imp fun _ hg => hg.entries rfl rfl rfl (links_insert hc rfl)
  husk g id c entry hg hc hentry hstore := by
    obtain ⟨husks, hg⟩ := hg
    exact hg.deepSpill hc hentry hstore
  stray g id c entry hg _ _ := hg.imp fun _ hg => hg.onlySpill ⟨_, rfl⟩
  floor g id c hg hc := hg.imp fun _ hg => hg.entries rfl rfl rfl (links_insert hc rfl)
  compact g id c content len hash hg hc _ := hg.imp fun husks hg => by
    have hcompact : Shelved h { g with cold := g.cold.insert id { c with
        node := { c.node with content := h.compactContent c.node.nodeType.debug content }
        spill := none, compacted := true } } husks :=
      hg.entries rfl rfl rfl (links_insert hc rfl)
    unfold compactEntry
    dsimp only
    split
    · exact hcompact.onlySpill (releaseContentBlobIfOrphan_onlySpill _ _)
    · exact hcompact

/-! ## A node leaves the COLD tier -/

theorem filed_dropped (cold : BTreeMap NodeId (ColdNode F)) (husks : BTreeMap NodeId DeepHusk) (id a b : NodeId) :
    filed (cold.erase id) (husks.erase id) a b ↔ dropRow (filed cold husks) id a b := by
  unfold filed dropRow
  rw [getElem?_erase_eq, getElem?_erase_eq]
  by_cases ha : a = id
  · simp [ha]
  · simp [ha]

theorem ListsFiled.radjDel {radj : Option (HuskStore Unit)} {filed : NodeId → NodeId → Prop}
    (h : ListsFiled radj filed) (honce : FiledOnce filed) {id : NodeId} {row : List NodeId}
    (hrow : ∀ b, b ≠ id → (b ∈ row ↔ filed id b)) : ListsFiled (radjDel radj id row) (dropRow filed id) := by
  intro r' hr'
  obtain ⟨r, rfl, -⟩ := Option.map_eq_some_iff.mp hr'
  obtain ⟨index, hlists, hmirrors⟩ := h r rfl
  obtain ⟨r'', hr'', hlists'⟩ := hlists.radjDel id row
  obtain rfl := Option.some.inj (hr''.symm.trans hr')
  exact ⟨_, hlists', hmirrors.dropRow honce hrow⟩

/-- Its entry or husk goes, and its links leave the reverse adjacency. -/
theorem Shelved.drop {h : Host F} {g g' : MemoryGraph F} {husks : BTreeMap NodeId DeepHusk} (hg : Shelved h g husks)
    {id : NodeId} {row : List NodeId} (hrow : ∀ b, b ≠ id → (b ∈ row ↔ filed g.cold husks id b))
    (hnodes : g'.nodes = g.nodes) (hcold : g'.cold = g.cold.erase id)
    (hindex : HoldsHusks g'.huskStore (husks.erase id)) (hattached : g.huskStore = none → g'.huskStore = none)
    (hradj : g'.radj = radjDel g.radj id row) : Shelved h g' (husks.erase id) := by
  have hsame : Same (filed g'.cold (husks.erase id)) (dropRow (filed g.cold husks) id) := fun a b _ => by
    rw [hcold]
    exact filed_dropped g.cold husks id a b
  refine ⟨⟨fun k n hn => hg.nodeId k n (hnodes ▸ hn), fun k hk => ?_, fun k c hc => ?_, fun k husk hhusk => ?_,
    (hg.once.dropRow id).congr hsame⟩, hindex, ?_, fun hnone => ?_⟩
  · obtain ⟨hout, hhusks⟩ := hg.resident k (hnodes ▸ hk)
    rw [hcold]
    exact ⟨fun hmem => hout (mem_erase_iff.mp hmem).2, fun hmem => hhusks (mem_erase_iff.mp hmem).2⟩
  · rw [hcold, getElem?_erase_eq] at hc
    split at hc
    · cases hc
    · obtain ⟨hentry, hhusks⟩ := hg.full k c hc
      exact ⟨hentry, fun hmem => hhusks (mem_erase_iff.mp hmem).2⟩
  · rw [getElem?_erase_eq] at hhusk
    split at hhusk
    · cases hhusk
    · exact hg.deep k husk hhusk
  · rw [hradj]
    exact (hg.adjacency.radjDel hg.once hrow).congr hsame
  · rw [hradj, MemoryGraph.radjDel, Option.map_eq_none_iff] at hnone
    exact hattached (hg.attached hnone)

theorem filed_full {cold : BTreeMap NodeId (ColdNode F)} {husks : BTreeMap NodeId DeepHusk} {id : NodeId}
    {c : ColdNode F} (hc : cold[id]? = some c) (hhusk : id ∉ husks) (b : NodeId) :
    b ∈ c.edges.map (·.other id) ↔ filed cold husks id b := by
  simp only [filed, hc, ExtTreeMap.getElem?_eq_none hhusk, Option.some.injEq, exists_eq_left', reduceCtorEq,
    false_and, exists_false, or_false]

/-- The full entry and its content blob go; the reverse adjacency is still to follow. -/
theorem forgetFull_eq (g : MemoryGraph F) (id : NodeId) :
    OnlySpill (g.dropCold id) (g.forgetFull id).1 ∧
      ∀ b, b ∈ (g.forgetFull id).2 ↔ ∃ c, g.cold[id]? = some c ∧ b ∈ c.edges.map (·.other id) := by
  unfold forgetFull
  cases hc : g.cold[id]? with
  | none =>
    rw [dropCold_of_not_mem (not_mem_of_getElem?_eq_none hc)]
    exact ⟨⟨g.spill, rfl⟩, by simp⟩
  | some c =>
    dsimp only
    split
    · exact ⟨releaseContentBlobIfOrphan_onlySpill _ _, by simp⟩
    · exact ⟨⟨g.spill, rfl⟩, by simp⟩

/-- The husk and its body go. -/
theorem forgetHusk_eq {g : MemoryGraph F} {husks : BTreeMap NodeId DeepHusk} (hg : HoldsHusks g.huskStore husks)
    (id : NodeId) :
    ∃ spill huskStore, (g.forgetHusk id).1 = { g with spill, huskStore } ∧ HoldsHusks huskStore (husks.erase id) ∧
      (g.huskStore = none → huskStore = none) ∧
      ∀ b, b ∈ (g.forgetHusk id).2 ↔ ∃ husk, husks[id]? = some husk ∧ b ∈ husk.adj := by
  have hget := hg.get id
  have hread := hg.read id
  have hgraph := deepGet_eq g id
  unfold forgetHusk
  generalize g.deepGet id = read at hget hread hgraph
  obtain ⟨found, g₁⟩ := read
  obtain ⟨huskStore, rfl, hattached⟩ := hgraph
  cases found with
  | none =>
    have hgone := erase_of_not_mem (not_mem_of_getElem?_eq_none hget.symm)
    exact ⟨g.spill, huskStore, rfl, hgone.symm ▸ hread, hattached, by simp [← hget]⟩
  | some husk =>
    obtain ⟨spill, hspill⟩ := releaseBlobIfOrphan_onlySpill (deepDelete { g with huskStore } id) husk.body.hash
    exact ⟨spill, _, hspill, HoldsHusks.delete hread id, fun hnone => by rw [hattached hnone]; rfl, by simp [← hget]⟩

theorem Shelved.forgetColdShadow {h : Host F} {g : MemoryGraph F} {husks : BTreeMap NodeId DeepHusk}
    (hg : Shelved h g husks) (id : NodeId) :
    Shelved h (g.forgetColdShadow id) (husks.erase id) ∧ id ∉ (g.forgetColdShadow id).cold := by
  obtain ⟨⟨spill, hfull⟩, hothers⟩ := forgetFull_eq g id
  unfold MemoryGraph.forgetColdShadow
  generalize g.forgetFull id = full at hfull hothers
  obtain ⟨g₁, fromFull⟩ := full
  dsimp only at hfull hothers ⊢
  obtain rfl := hfull
  have hindex : HoldsHusks ({ g.dropCold id with spill } : MemoryGraph F).huskStore husks := hg.index
  obtain ⟨spill', huskStore, hhusk, hholds, hattached, hadj⟩ := forgetHusk_eq hindex id
  generalize ({ g.dropCold id with spill } : MemoryGraph F).forgetHusk id = forgot at hhusk hadj
  obtain ⟨g₂, fromHusk⟩ := forgot
  dsimp only at hhusk hadj ⊢
  obtain rfl := hhusk
  refine ⟨hg.drop (fun b _ => ?_) rfl rfl hholds hattached rfl, fun hmem => (mem_erase_iff.mp hmem).1 rfl⟩
  rw [List.mem_append, hothers, hadj]
  rfl

/-! ## A node enters the resident set, and leaves it -/

theorem Shelved.insertNode {h : Host F} {g g' : MemoryGraph F} {husks : BTreeMap NodeId DeepHusk}
    (hg : Shelved h g husks) {id : NodeId} {n : GraphNode F} (hid : n.id = id) (hplain : Plain id)
    (hout : id ∉ g.cold) (hfree : id ∉ husks) (hnodes : g'.nodes = g.nodes.insert id n) (hcold : g'.cold = g.cold)
    (hhusks : g'.huskStore = g.huskStore) (hradj : g'.radj = g.radj) : Shelved h g' husks := by
  refine ⟨⟨fun k n' hn' => ?_, fun k hk => ?_, hcold ▸ hg.full, hg.deep, hcold ▸ hg.once⟩, hhusks ▸ hg.index, ?_,
    fun hnone => ?_⟩
  · rw [hnodes, getElem?_insert_eq] at hn'
    split at hn'
    · rename_i hk
      cases hn'
      rw [hk]
      exact ⟨hid, hplain⟩
    · exact hg.nodeId k n' hn'
  · rw [hcold]
    rcases mem_insert_iff.mp (hnodes ▸ hk) with rfl | hk
    · exact ⟨hout, hfree⟩
    · exact hg.resident k hk
  · rw [hradj, hcold]
    exact hg.adjacency
  · rw [hhusks]
    exact hg.attached (hradj ▸ hnone)

/-- A page-in takes the entry out of the COLD map, and its links out of the reverse adjacency. -/
theorem Shelved.restore {h : Host F} {g : MemoryGraph F} {husks : BTreeMap NodeId DeepHusk} (hg : Shelved h g husks)
    {id : NodeId} {c : ColdNode F} (hc : g.cold[id]? = some c) : Shelved h (g.restore id c) (husks.erase id) := by
  obtain ⟨hentry, hfree⟩ := hg.full id c hc
  have hdropped : Shelved h { g.dropCold id with radj := radjDel g.radj id (c.edges.map (·.other id)) }
      (husks.erase id) :=
    hg.drop (fun b _ => filed_full hc hfree b) rfl rfl ((erase_of_not_mem hfree).symm ▸ hg.index) (fun hnone => hnone) rfl
  have hid : (g.accessed c.node).id = id := hentry.nodeId
  exact hdropped.insertNode hid hentry.plain (fun hmem => (mem_erase_iff.mp hmem).1 rfl)
    (fun hmem => (mem_erase_iff.mp hmem).1 rfl) rfl rfl rfl rfl

theorem filed_added {cold : BTreeMap NodeId (ColdNode F)} {id : NodeId} (hout : id ∉ cold)
    (husks : BTreeMap NodeId DeepHusk) (c : ColdNode F) (a b : NodeId) :
    filed (cold.insert id c) husks a b ↔ fileRow (filed cold husks) id (c.edges.map (·.other id)) a b := by
  unfold filed fileRow
  rw [getElem?_insert_eq]
  by_cases ha : a = id
  · subst ha
    simp only [if_true, ExtTreeMap.getElem?_eq_none hout, Option.some.injEq, exists_eq_left', reduceCtorEq, false_and,
      exists_false, false_or, true_and]
    exact or_comm
  · simp [ha]

theorem ListsFiled.radjAdd {radj : Option (HuskStore Unit)} {filed : NodeId → NodeId → Prop}
    (h : ListsFiled radj filed) {id : NodeId} {row : List NodeId} (hid : Plain id) (hrow : ∀ o ∈ row, Plain o) :
    ListsFiled (radjAdd radj id row) (fileRow filed id row) := by
  intro r' hr'
  obtain ⟨r, rfl, -⟩ := Option.map_eq_some_iff.mp hr'
  obtain ⟨index, hlists, hmirrors⟩ := h r rfl
  obtain ⟨r'', hr'', hlists'⟩ := hlists.radjAdd hid hrow
  obtain rfl := Option.some.inj (hr''.symm.trans hr')
  exact ⟨_, hlists', hmirrors.fileRow id row⟩

/-- The edges of a demoted node are filed with it. Their other ends are resident, so none of them files
the edge already. -/
theorem Shelved.demote {h : Host F} {g : MemoryGraph F} {husks : BTreeMap NodeId DeepHusk} (hg : Shelved h g husks)
    (hjoined : Joined g) (id : NodeId) : Shelved h (g.demote id) husks := by
  unfold MemoryGraph.demote
  split
  · exact hg
  · rename_i node hnode
    dsimp only
    obtain ⟨hid, hplain⟩ := hg.nodeId id node hnode
    obtain ⟨hout, hfree⟩ := hg.resident id (mem_of_getElem?_eq_some hnode)
    have hends : ∀ e ∈ g.edges.filter (·.touches id), e.touches id ∧ e.other id ∈ g.nodes := by
      intro e he
      obtain ⟨hmem, htouches⟩ := List.mem_filter.mp he
      obtain ⟨hs, ht⟩ := hjoined e hmem
      refine ⟨htouches, ?_⟩
      unfold GraphEdge.other
      split
      · exact ht
      · exact hs
    have hresident : ∀ o ∈ (g.edges.filter (·.touches id)).map (·.other id), o ∈ g.nodes := by
      intro o ho
      obtain ⟨e, he, rfl⟩ := List.mem_map.mp ho
      exact (hends e he).2
    have hplains : ∀ o ∈ g.nodes, Plain o := by
      intro o ho
      obtain ⟨n, hn⟩ := exists_getElem?_of_mem ho
      exact (hg.nodeId o n hn).2
    have hsame : Same (filed (g.cold.insert id _) husks) (fileRow (filed g.cold husks) id _) := fun a b _ =>
      filed_added hout husks { node, edges := g.edges.filter (·.touches id), spill := none, compacted := false, atFloor := false } a b
    refine ⟨⟨fun k n hn => ?_, fun k hk => ?_, fun k c hc => ?_, hg.deep, ?_⟩, hg.index, ?_, fun hnone => ?_⟩
    · rw [getElem?_erase_eq] at hn
      split at hn
      · cases hn
      · exact hg.nodeId k n hn
    · obtain ⟨hne, hk⟩ := mem_erase_iff.mp hk
      obtain ⟨hcold, hhusks⟩ := hg.resident k hk
      exact ⟨fun hmem => (mem_insert_iff.mp hmem).elim hne hcold, hhusks⟩
    · rw [getElem?_insert_eq] at hc
      split at hc
      · rename_i hk
        cases hc
        rw [hk]
        exact ⟨⟨hid, hplain, fun e he => ⟨(hends e he).1, hplains _ (hends e he).2⟩⟩, hfree⟩
      · exact hg.full k c hc
    · refine (hg.once.fileRow fun b hb _ hfiled => ?_).congr hsame
      obtain ⟨hcold, hhusks⟩ := hg.resident b (hresident b hb)
      rcases hfiled with ⟨c, hc, -⟩ | ⟨husk, hhusk, -⟩
      · exact hcold (mem_of_getElem?_eq_some hc)
      · exact hhusks (mem_of_getElem?_eq_some hhusk)
    · exact (hg.adjacency.radjAdd hplain fun o ho => hplains o (hresident o ho)).congr hsame
    · exact hg.attached (Option.map_eq_none_iff.mp hnone)

end MemoryGraph

end Ccos
