import Ccos.Memory.Blobs

/-!
# Stocked tiers

Every node is in one place, and what was paged out can come back: its blob is in the swap file, and reads back. The
invariant is kept as long as no content is the text of an entry, since a content and an entry of one text would share
a blob, and the release of the content does not look at the husks.
-/

open Std

set_option linter.unusedSectionVars false

namespace Ccos.MemoryGraph

variable {F : Type} [Scalar F]

structure Stocked (h : Host F) (g : MemoryGraph F) (husks : BTreeMap NodeId DeepHusk) : Prop where
  index : HoldsHusks g.huskStore husks
  attached : g.Attached h
  resident : ∀ id ∈ g.nodes, id ∉ g.cold ∧ id ∉ husks
  full : ∀ id ∈ g.cold, id ∉ husks
  nodes : ∀ (id : NodeId) n, g.nodes[id]? = some n → n.Fit h
  edges : ∀ e ∈ g.edges, e.reparse.isSome
  entries : ∀ (id : NodeId) c, g.cold[id]? = some c → ∃ entry, g.foldInline h c = some entry ∧ entry.Whole h
  bodies : ∀ (id : NodeId) husk, husks[id]? = some husk →
    ∃ entry, g.spillGet h husk.body.hash = some (h.printCold entry) ∧ entry.Whole h

section Steps

variable {h : Host F} {g g' : MemoryGraph F} {husks : BTreeMap NodeId DeepHusk}

/-! ## Entries and their blobs -/

theorem foldInline_of_inline {c : ColdNode F} (hc : c.spill = none) : g.foldInline h c = some c := by
  rw [foldInline, hc]

theorem Stocked.inline_whole (hg : Stocked h g husks) {id : NodeId} {c : ColdNode F} (hc : g.cold[id]? = some c)
    (hinline : c.spill = none) : c.Whole h := by
  obtain ⟨entry, hentry, hwhole⟩ := hg.entries id c hc
  rw [foldInline_of_inline hinline] at hentry
  rwa [Option.some.inj hentry]

/-- The stub of an entry names the content that comes back. -/
theorem foldInline_stub {c entry : ColdNode F} {s : SpillRef} (hs : c.spill = some s)
    (hentry : g.foldInline h c = some entry) : g.spillGet h s.hash = some entry.node.content ∧
      entry = { c with node := { c.node with content := entry.node.content }, spill := none } := by
  rw [foldInline, hs] at hentry
  obtain ⟨text, htext, rfl⟩ := Option.map_eq_some_iff.mp hentry
  exact ⟨htext, rfl⟩

theorem foldInline_atFloor (c : ColdNode F) :
    g.foldInline h { c with atFloor := true } = (g.foldInline h c).map fun entry => { entry with atFloor := true } := by
  obtain ⟨node, edges, spill, compacted, atFloor⟩ := c
  cases spill with
  | none => rfl
  | some s => simp only [foldInline, Option.map_map, Function.comp_def]

/-- A change inside the swap file that still answers every reference. -/
theorem Stocked.respill (hg : Stocked h g husks) {spill : Option SpillConfig}
    (hattached : Attached h { g with spill })
    (hfull : ∀ (id : NodeId) (c : ColdNode F) (s : SpillRef) (text : Str), g.cold[id]? = some c → c.spill = some s →
      g.spillGet h s.hash = some text → spillGet h { g with spill } s.hash = some text)
    (hbody : ∀ (id : NodeId) (husk : DeepHusk) (text : Str), husks[id]? = some husk →
      g.spillGet h husk.body.hash = some text → spillGet h { g with spill } husk.body.hash = some text) :
    Stocked h { g with spill } husks :=
  { hg with
    attached := hattached
    entries := fun id c hc => by
      obtain ⟨entry, hentry, hwhole⟩ := hg.entries id c hc
      refine ⟨entry, ?_, hwhole⟩
      cases hs : c.spill with
      | none =>
        rw [foldInline_of_inline hs] at hentry ⊢
        exact hentry
      | some s =>
        obtain ⟨htext, heq⟩ := foldInline_stub hs hentry
        rw [foldInline, hs, heq]
        dsimp only
        rw [hfull id c s _ hc hs htext, Option.map_some]
    bodies := fun id husk hhusk => by
      obtain ⟨entry, hentry, hwhole⟩ := hg.bodies id husk hhusk
      exact ⟨entry, hbody id husk _ hhusk hentry, hwhole⟩ }

theorem Stocked.spillPut (hread : h.ReadsBack) (hg : Stocked h g husks) (text : Str) :
    Stocked h (g.spillPut h text) husks :=
  hg.respill (hg.attached.spillPut hread text)
    (fun _ _ _ _ _ _ hold => spillGet_of_spillPut hread hg.attached text hold)
    fun _ _ _ _ hold => spillGet_of_spillPut hread hg.attached text hold

theorem Stocked.spillRemove (hg : Stocked h g husks) {hash : Hash} (hfull : g.referencedByFull hash = false)
    (hbody : ∀ (id : NodeId) (husk : DeepHusk), husks[id]? = some husk → husk.body.hash ≠ hash) :
    Stocked h (g.spillRemove hash) husks := by
  have hgone : ∀ {k : Hash} {text : Str}, k ≠ hash → g.spillGet h k = some text →
      (g.spillRemove hash).spillGet h k = some text := fun hne hold => by
    rw [spillGet_spillRemove, if_neg hne]
    exact hold
  refine hg.respill (hg.attached.spillRemove hash) (fun id c s text hc hs => hgone fun heq => ?_) fun id husk text hhusk =>
    hgone (hbody id husk hhusk)
  rw [referencedByFull_iff.mpr ⟨id, c, s, hc, hs, heq⟩] at hfull
  cases hfull

/-- A content blob goes. It is no husk's body, because the content is no entry's text. -/
theorem Stocked.releaseContent (hread : h.ReadsBack) (hg : Stocked h g husks) {hash : Hash} {text : Str}
    {nodeType : NodeType} (hhash : h.sha256 text = hash) (hapart : h.Apart nodeType text) :
    Stocked h (g.releaseContentBlobIfOrphan hash) husks := by
  unfold releaseContentBlobIfOrphan
  split
  · exact hg
  · rename_i hfull
    refine hg.spillRemove (Bool.not_eq_true _ ▸ hfull) fun id husk hhusk heq => ?_
    obtain ⟨entry, hentry, hwhole⟩ := hg.bodies id husk hhusk
    have hsame : h.sha256 text = h.sha256 (h.printCold entry) := by rw [hhash, ← heq, sha256_of_spillGet hentry]
    exact hapart.ne hwhole.inline (hread.sha256 hsame)

/-- A body goes. Here the husks are looked at. -/
theorem Stocked.releaseBlob (hg : Stocked h g husks) (hash : Hash) : Stocked h (g.releaseBlobIfOrphan hash) husks := by
  unfold releaseBlobIfOrphan
  split
  · exact hg
  · rename_i hfree
    simp only [Bool.or_eq_true, not_or, Bool.not_eq_true] at hfree
    refine hg.spillRemove hfree.1 fun id husk hhusk heq => ?_
    rw [(referencedByHusk_iff hg.index).mpr ⟨id, husk, hhusk, heq⟩] at hfree
    cases hfree.2

/-! ## One entry -/

theorem Stocked.setEntry (hg : Stocked h g husks) {id : NodeId} {c c' entry : ColdNode F} (hc : g.cold[id]? = some c)
    (hentry : g.foldInline h c' = some entry) (hwhole : entry.Whole h) :
    Stocked h { g with cold := g.cold.insert id c' } husks := by
  have hmem : ∀ k, k ∈ g.cold.insert id c' ↔ k ∈ g.cold := fun k => by
    rw [mem_insert_iff, or_iff_right_of_imp]
    rintro rfl
    exact mem_of_getElem?_eq_some hc
  refine { hg with resident := fun k hk => ?_, full := fun k hk => hg.full k ((hmem k).mp hk), entries := fun k d hd => ?_ }
  · dsimp only
    rw [hmem]
    exact hg.resident k hk
  · dsimp only at hd
    rw [getElem?_insert_eq] at hd
    split at hd
    · cases hd
      exact ⟨entry, hentry, hwhole⟩
    · exact hg.entries k d hd

theorem Stocked.dropCold (hg : Stocked h g husks) (id : NodeId) : Stocked h (g.dropCold id) husks := by
  refine { hg with resident := fun k hk => ?_, full := fun k hk => ?_, entries := fun k c hc => ?_ }
  · obtain ⟨hcold, hhusk⟩ := hg.resident k hk
    exact ⟨fun hmem => hcold (mem_erase_iff.mp hmem).2, hhusk⟩
  · exact hg.full k (mem_erase_iff.mp hk).2
  · have hc : (g.cold.erase id)[k]? = some c := hc
    rw [getElem?_erase_eq] at hc
    split at hc
    · cases hc
    · exact hg.entries k c hc

/-- A node enters the COLD map, from the resident set or from a husk. -/
theorem Stocked.insertCold (hg : Stocked h g husks) {id : NodeId} {c : ColdNode F} (hout : id ∉ g.nodes)
    (hfree : id ∉ husks) (hc : c.Whole h) : Stocked h { g with cold := g.cold.insert id c } husks := by
  refine { hg with resident := fun k hk => ?_, full := fun k hk => ?_, entries := fun k d hd => ?_ }
  · obtain ⟨hcold, hhusk⟩ := hg.resident k hk
    have hne : k ≠ id := fun heq => hout (heq ▸ hk)
    exact ⟨fun hmem => (mem_insert_iff.mp hmem).elim hne hcold, hhusk⟩
  · rcases mem_insert_iff.mp hk with rfl | hk
    · exact hfree
    · exact hg.full k hk
  · dsimp only at hd
    rw [getElem?_insert_eq] at hd
    split at hd
    · cases hd
      exact ⟨c, foldInline_of_inline hc.inline, hc⟩
    · exact hg.entries k d hd

theorem Stocked.eraseHusk (hg : Stocked h g husks) (id : NodeId) : Stocked h (g.deepDelete id) (husks.erase id) := by
  refine { hg with index := hg.index.delete id, resident := fun k hk => ?_, full := fun k hk => ?_,
                   bodies := fun k husk hhusk => ?_ }
  · obtain ⟨hcold, hhusk⟩ := hg.resident k hk
    exact ⟨hcold, fun hmem => hhusk (mem_erase_iff.mp hmem).2⟩
  · exact fun hmem => hg.full k hk (mem_erase_iff.mp hmem).2
  · rw [getElem?_erase_eq] at hhusk
    split at hhusk
    · cases hhusk
    · exact hg.bodies k husk hhusk

theorem Stocked.insertHusk (hg : Stocked h g husks) {id : NodeId} (husk : DeepHusk) {entry : ColdNode F}
    (hstore : g.huskStore.isSome) (hout : id ∉ g.nodes) (hfree : id ∉ g.cold)
    (hbody : g.spillGet h husk.body.hash = some (h.printCold entry)) (hwhole : entry.Whole h) :
    Stocked h { g with huskStore := g.huskStore.map (·.put id husk) } (husks.insert id husk) := by
  refine { hg with index := ?_, resident := fun k hk => ?_, full := fun k hk hmem => ?_, bodies := fun k husk' hhusk' => ?_ }
  · obtain ⟨hs, hsome⟩ := Option.isSome_iff_exists.mp hstore
    have hindex := hg.index
    dsimp only
    rw [hsome] at hindex ⊢
    exact HuskStore.Holds.put hindex id husk
  · obtain ⟨hcold, hhusk⟩ := hg.resident k hk
    have hne : k ≠ id := fun heq => hout (heq ▸ hk)
    exact ⟨hcold, fun hmem => (mem_insert_iff.mp hmem).elim hne hhusk⟩
  · have hne : k ≠ id := fun heq => hfree (heq ▸ hk)
    exact (mem_insert_iff.mp hmem).elim hne (hg.full k hk)
  · rw [getElem?_insert_eq] at hhusk'
    split at hhusk'
    · cases hhusk'
      exact ⟨entry, hbody, hwhole⟩
    · exact hg.bodies k husk' hhusk'

/-! ## The budgets -/

/-- A full entry goes to disk as the text of itself with its content inline. Its content blob goes. -/
theorem Stocked.deepSpill (hread : h.ReadsBack) (hg : Stocked h g husks) {id : NodeId} {c entry : ColdNode F}
    (hc : g.cold[id]? = some c) (hentry : g.foldInline h c = some entry) (hstore : g.huskStore.isSome) :
    ∃ husks', Stocked h (g.deepSpill h id c entry) husks' := by
  let husk : DeepHusk :=
    { body := { hash := h.sha256 (h.printCold entry), len := byteLen (h.printCold entry) }, adj := huskAdj c }
  have hwhole : entry.Whole h := by
    obtain ⟨entry', hentry', hwhole⟩ := hg.entries id c hc
    rwa [Option.some.inj (hentry.symm.trans hentry')]
  have hout : id ∉ g.nodes := fun hmem => (hg.resident id hmem).1 (mem_of_getElem?_eq_some hc)
  have hwritten := (hg.spillPut hread (h.printCold entry)).dropCold id
  have hbody : ((g.spillPut h (h.printCold entry)).dropCold id).spillGet h husk.body.hash = some (h.printCold entry) := by
    have hput := spillGet_spillPut hread hg.attached (h.printCold entry) husk.body.hash
    rwa [if_pos rfl] at hput
  have hmoved := hwritten.insertHusk husk hstore hout (fun hmem => (mem_erase_iff.mp hmem).1 rfl) hbody hwhole
  refine ⟨husks.insert id husk, ?_⟩
  unfold MemoryGraph.deepSpill
  dsimp only
  split
  · rename_i s hs
    obtain ⟨htext, -⟩ := foldInline_stub hs hentry
    exact hmoved.releaseContent hread (sha256_of_spillGet htext) hwhole.fit.apart
  · exact hmoved

/-- The compact form takes the place of the content. -/
theorem Stocked.compactEntry (hread : h.ReadsBack) (hg : Stocked h g husks) {id : NodeId} {c : ColdNode F}
    {content : Str} {len : Nat} {hash : Option Hash} (hc : g.cold[id]? = some c)
    (hm : g.materialise h c = some (content, len, hash)) :
    Stocked h (g.compactEntry id c (h.compactContent c.node.nodeType.debug content) hash) husks := by
  obtain ⟨entry, hentry, hwhole⟩ := hg.entries id c hc
  -- Materialising and folding inline read the same content.
  have hcontent : entry = { c with node := { c.node with content }, spill := none } ∧
      ∀ k, hash = some k → h.sha256 content = k := by
    unfold materialise at hm
    cases hs : c.spill with
    | none =>
      rw [hs] at hm
      rw [foldInline_of_inline hs] at hentry
      cases hm
      cases hentry
      exact ⟨by rw [← hs], fun k hk => by cases hk⟩
    | some s =>
      rw [hs] at hm
      obtain ⟨htext, heq⟩ := foldInline_stub hs hentry
      obtain ⟨text, htext', hpair⟩ := Option.map_eq_some_iff.mp hm
      cases hpair
      rw [htext] at htext'
      rw [← Option.some.inj htext']
      exact ⟨heq, fun k hk => Option.some.inj hk ▸ sha256_of_spillGet htext⟩
  obtain ⟨rfl, hhash⟩ := hcontent
  have hcompacted : ColdNode.Whole h { c with
      node := { c.node with content := h.compactContent c.node.nodeType.debug content }
      spill := none, compacted := true } :=
    ⟨rfl, hwhole.fit.compact, hwhole.edges⟩
  have hset := hg.setEntry hc (foldInline_of_inline hcompacted.inline) hcompacted
  unfold MemoryGraph.compactEntry
  dsimp only
  split
  · rename_i k
    exact hset.releaseContent hread (hhash k rfl) hwhole.fit.apart
  · exact hset

theorem stocked_moves (hread : h.ReadsBack) : KeptByMoves h fun g : MemoryGraph F => ∃ husks, Stocked h g husks where
  fill g hg := hg.imp fun _ hg => { hg with }
  content g id c hg hc hs := by
    obtain ⟨husks, hg⟩ := hg
    have hput := hg.spillPut hread c.node.content
    refine ⟨husks, hput.setEntry hc ?_ (hg.inline_whole hc hs)⟩
    simp only [foldInline, spillGet_spillPut hread hg.attached, if_true, Option.map_some]
    rw [← hs]
  husk g id c entry hg hc hentry hstore := hg.elim fun _ hg => hg.deepSpill hread hc hentry hstore
  stray g id c entry hg _ _ := hg.imp fun _ hg => hg.spillPut hread _
  floor g id c hg hc := by
    obtain ⟨husks, hg⟩ := hg
    obtain ⟨entry, hentry, hwhole⟩ := hg.entries id c hc
    have hfloor : g.foldInline h { c with atFloor := true } = some { entry with atFloor := true } := by
      rw [foldInline_atFloor, hentry, Option.map_some]
    exact ⟨husks, hg.setEntry hc hfloor ⟨hwhole.inline, hwhole.fit, hwhole.edges⟩⟩
  compact g id c content len hash hg hc hm := hg.imp fun _ hg => hg.compactEntry hread hc hm

/-! ## Out of the resident set, and back -/

theorem Stocked.demote (hg : Stocked h g husks) (id : NodeId) : Stocked h (g.demote id) husks := by
  unfold MemoryGraph.demote
  split
  · exact hg
  · rename_i node hnode
    have hleft : Stocked h { g with nodes := g.nodes.erase id, edges := g.edges.filter (!·.touches id) } husks := by
      refine { hg with resident := fun k hk => hg.resident k (mem_erase_iff.mp hk).2, nodes := fun k n hn => ?_,
                       edges := fun e he => hg.edges e (List.mem_filter.mp he).1 }
      dsimp only at hn
      rw [getElem?_erase_eq] at hn
      split at hn
      · cases hn
      · exact hg.nodes k n hn
    have hwhole : ColdNode.Whole h { node, edges := g.edges.filter (·.touches id), spill := none, compacted := false, atFloor := false } :=
      ⟨rfl, hg.nodes id node hnode, fun e he => hg.edges e (List.mem_filter.mp he).1⟩
    have hfree := (hg.resident id (mem_of_getElem?_eq_some hnode)).2
    exact { hleft.insertCold (fun hmem => (mem_erase_iff.mp hmem).1 rfl) hfree hwhole with }

theorem Stocked.pruneDanglingEdges (hg : Stocked h g husks) : Stocked h g.pruneDanglingEdges husks :=
  { hg with edges := fun e he => hg.edges e (List.mem_filter.mp he).1 }

theorem exists_stocked_enforcePaging (hread : h.ReadsBack) (hg : Stocked h g husks) :
    ∃ husks', Stocked h (g.enforcePaging h) husks' :=
  enforcePaging_of_moves (stocked_moves hread) (fun _ id hg => hg.imp fun _ hg => hg.demote id)
    (fun _ hg => hg.imp fun _ hg => hg.pruneDanglingEdges) ⟨husks, hg⟩

theorem Stocked.insertNode (hg : Stocked h g husks) {id : NodeId} {n : GraphNode F} (hout : id ∉ g.cold)
    (hfree : id ∉ husks) (hn : n.Fit h) : Stocked h { g with nodes := g.nodes.insert id n } husks := by
  refine { hg with resident := fun k hk => ?_, nodes := fun k n' hn' => ?_ }
  · rcases mem_insert_iff.mp hk with rfl | hk
    · exact ⟨hout, hfree⟩
    · exact hg.resident k hk
  · dsimp only at hn'
    rw [getElem?_insert_eq] at hn'
    split at hn'
    · cases hn'
      exact hn
    · exact hg.nodes k n' hn'

theorem OnlySpill.cold (hstep : OnlySpill g g') : g'.cold = g.cold := by
  obtain ⟨spill, rfl⟩ := hstep
  rfl

/-- A husk faults back, whatever the swap file was used for since. -/
theorem Stocked.faultDeep (hread : h.ReadsBack) (hg : Stocked h g husks) (id : NodeId) :
    (g.faultDeep h id).2 = true ∧ (id ∈ (g.faultDeep h id).1.cold ↔ id ∈ g.cold ∨ id ∈ husks) ∧
      ∃ husks', Stocked h (g.faultDeep h id).1 husks' := by
  have hget := hg.index.get id
  have hindex := hg.index.read id
  obtain ⟨huskStore, heq, -⟩ := deepGet_eq g id
  unfold MemoryGraph.faultDeep
  generalize g.deepGet id = read at hget hindex heq
  obtain ⟨found, g₁⟩ := read
  obtain rfl : g₁ = { g with huskStore } := heq
  have hg₁ : Stocked h { g with huskStore } husks := { hg with index := hindex }
  cases found with
  | none =>
    have hfree : id ∉ husks := not_mem_of_getElem?_eq_none hget.symm
    exact ⟨rfl, (or_iff_left hfree).symm, husks, hg₁⟩
  | some husk =>
    obtain ⟨entry, hbody, hwhole⟩ := hg.bodies id husk hget.symm
    obtain ⟨node, hparse, hnode⟩ := hread.whole hwhole
    have hhusk : id ∈ husks := mem_of_getElem?_eq_some hget.symm
    have hfound : (spillGet h { g with huskStore } husk.body.hash).bind h.parseCold = some node := by
      change (g.spillGet h _).bind _ = _
      rw [hbody, Option.bind_some, hparse]
    have hmoved := (hg₁.eraseHusk id).insertCold (c := node) (fun hmem => (hg.resident id hmem).2 hhusk)
      (fun hmem => (mem_erase_iff.mp hmem).1 rfl) hnode
    dsimp only
    rw [hfound]
    refine ⟨rfl, ?_, husks.erase id, hmoved.releaseBlob _⟩
    rw [(releaseBlobIfOrphan_onlySpill _ _).cold]
    exact iff_of_true (mem_insert_iff.mpr (.inl rfl)) (.inr hhusk)

/-- Its content comes back too. -/
theorem Stocked.faultContent (hread : h.ReadsBack) (hg : Stocked h g husks) (id : NodeId) :
    (g.faultContent h id).2 = true ∧ (∀ k, k ∈ (g.faultContent h id).1.cold ↔ k ∈ g.cold) ∧
      Stocked h (g.faultContent h id).1 husks ∧
      ∀ c, (g.faultContent h id).1.cold[id]? = some c → c.spill = none := by
  unfold MemoryGraph.faultContent
  cases hstub : (g.cold[id]?).bind (·.spill) with
  | none =>
    refine ⟨rfl, fun _ => Iff.rfl, hg, fun c hc => ?_⟩
    rwa [hc, Option.bind_some] at hstub
  | some s =>
    obtain ⟨c, hc, hs⟩ := Option.bind_eq_some_iff.mp hstub
    obtain ⟨entry, hentry, hwhole⟩ := hg.entries id c hc
    obtain ⟨htext, heq⟩ := foldInline_stub hs hentry
    have hcold : (g.cold.modify id fun c => { c with node := { c.node with content := entry.node.content }, spill := none }) =
        g.cold.insert id entry := by
      apply ExtTreeMap.ext_getElem?
      intro k
      rw [getElem?_modify_eq, getElem?_insert_eq]
      split
      · rename_i hk
        rw [hk, hc, Option.map_some, heq]
      · rfl
    have hset := hg.setEntry hc (foldInline_of_inline hwhole.inline) hwhole
    have hreleased := hset.releaseContent hread (sha256_of_spillGet htext) hwhole.fit.apart
    dsimp only
    rw [htext]
    dsimp only
    rw [hcold, (releaseContentBlobIfOrphan_onlySpill _ _).cold]
    refine ⟨rfl, fun k => ?_, hreleased, fun c' hc' => ?_⟩
    · rw [mem_insert_iff, or_iff_right_of_imp]
      rintro rfl
      exact mem_of_getElem?_eq_some hc
    · dsimp only at hc'
      rw [getElem?_insert_eq, if_pos rfl] at hc'
      cases hc'
      exact hwhole.inline

theorem Stocked.restore (hread : h.ReadsBack) (hg : Stocked h g husks) {id : NodeId} {c : ColdNode F}
    (hc : g.cold[id]? = some c) (hwhole : c.Whole h) : Stocked h (g.restore id c) husks := by
  have hfit : (g.accessed c.node).Fit h := by
    obtain ⟨hbase, hfailure, -, htrust⟩ := isSome_reparse_node.mp hwhole.fit.finite
    exact ⟨isSome_reparse_node.mpr ⟨hbase, hfailure, hread.literals 1 (by simp), htrust⟩, hwhole.fit.apart⟩
  have hback := (hg.dropCold id).insertNode (fun hmem => (mem_erase_iff.mp hmem).1 rfl)
    (hg.full id (mem_of_getElem?_eq_some hc)) hfit
  exact { hback with edges := fun e he => (mem_relink he).elim (hg.edges e) fun he => hwhole.edges e he.1 }

/-- A page-in brings exactly the COLD ids back. -/
theorem Stocked.pageIn (hread : h.ReadsBack) (hg : Stocked h g husks) (id : NodeId) :
    (g.pageIn h id).2 = g.isCold id ∧ ∃ husks', Stocked h (g.pageIn h id).1 husks' := by
  have hcold := isCold_iff hg.index id
  obtain ⟨hdeep, hfull, husks', hg₁⟩ := hg.faultDeep hread id
  unfold MemoryGraph.pageIn
  generalize g.faultDeep h id = faulted at hdeep hfull hg₁
  obtain ⟨g₁, ok⟩ := faulted
  obtain rfl : ok = true := hdeep
  obtain ⟨hcontent, hsame, hg₂, hinline⟩ := hg₁.faultContent hread id
  dsimp only at hfull ⊢
  generalize g₁.faultContent h id = faulted at hcontent hsame hg₂ hinline
  obtain ⟨g₂, ok⟩ := faulted
  obtain rfl : ok = true := hcontent
  dsimp only at hsame ⊢
  split
  · rename_i hnone
    refine ⟨?_, husks', hg₂⟩
    rw [eq_comm, ← Bool.not_eq_true, hcold, ← hfull, ← hsame]
    exact not_mem_of_getElem?_eq_none hnone
  · rename_i c hc
    refine ⟨?_, ?_⟩
    · rw [eq_comm, hcold, ← hfull, ← hsame]
      exact mem_of_getElem?_eq_some hc
    · have hback := hg₂.restore hread hc (hg₂.inline_whole hc (hinline c hc))
      have hroom := makeRoom_induct (P := fun g => ∃ husks, Stocked h g husks) id (stocked_moves hread).fill
        (fun g v hg _ _ => hg.imp fun _ hg => hg.demote v) (g₂.nodes.size + 1) (g₂.restore id c) ⟨husks', hback⟩
      exact (stocked_moves hread).enforceColdBudgets (hroom.imp fun _ hg => hg.pruneDanglingEdges)

/-! ## A node comes and goes -/

theorem Stocked.forgetColdShadow (hread : h.ReadsBack) (hg : Stocked h g husks) (id : NodeId) :
    Stocked h (g.forgetColdShadow id) (husks.erase id) := by
  have hfull : Stocked h (g.forgetFull id).1 husks := by
    unfold forgetFull
    split
    · exact hg
    · rename_i old hold
      obtain ⟨entry, hentry, hwhole⟩ := hg.entries id old hold
      dsimp only
      split
      · rename_i s hs
        obtain ⟨htext, -⟩ := foldInline_stub hs hentry
        exact (hg.dropCold id).releaseContent hread (sha256_of_spillGet htext) hwhole.fit.apart
      · exact hg.dropCold id
  have hhusk : Stocked h ((g.forgetFull id).1.forgetHusk id).1 (husks.erase id) := by
    have hget := hfull.index.get id
    have hindex := hfull.index.read id
    obtain ⟨huskStore, heq, -⟩ := deepGet_eq (g.forgetFull id).1 id
    unfold forgetHusk
    generalize (g.forgetFull id).1.deepGet id = read at hget hindex heq
    obtain ⟨found, g₁⟩ := read
    obtain rfl : g₁ = { (g.forgetFull id).1 with huskStore } := heq
    have hg₁ : Stocked h { (g.forgetFull id).1 with huskStore } husks := { hfull with index := hindex }
    cases found with
    | none => exact (erase_of_not_mem (not_mem_of_getElem?_eq_none hget.symm)).symm ▸ hg₁
    | some husk => exact (hg₁.eraseHusk id).releaseBlob _
  exact { hhusk with }

theorem Stocked.upsertNode (hread : h.ReadsBack) (hg : Stocked h g husks) (id : NodeId) (label : Str) {content : Str}
    {nodeType : NodeType} (hapart : h.Apart nodeType content) :
    ∃ husks', Stocked h (g.upsertNode h id label content nodeType) husks' := by
  have hforgot := hg.forgetColdShadow hread id
  have hout : id ∉ (g.forgetColdShadow id).cold := by
    rw [(forgetColdShadow_places hg.index id).1]
    exact fun hmem => (mem_erase_iff.mp hmem).1 rfl
  have hfit : ((g.forgetColdShadow id).upserted id label content nodeType).Fit h := by
    have hone := hread.literals 1 (by simp)
    unfold upserted
    split
    · rename_i existing hexisting
      obtain ⟨hbase, hfailure, -, htrust⟩ := isSome_reparse_node.mp (hforgot.nodes id existing hexisting).finite
      exact ⟨isSome_reparse_node.mpr ⟨hbase, hfailure, hone, htrust⟩, hapart⟩
    · refine ⟨isSome_reparse_node.mpr ⟨hread.literals _ (by simp), hread.literals _ (by simp), hone, ?_⟩, hapart⟩
      dsimp only
      unfold reparseTrust
      split
      · rfl
      · exact hone
  exact exists_stocked_enforcePaging hread
    (hforgot.insertNode hout (fun hmem => (mem_erase_iff.mp hmem).1 rfl) hfit)

theorem Stocked.removeNode (hread : h.ReadsBack) (hg : Stocked h g husks) (id : NodeId) :
    Stocked h (g.removeNode id) (husks.erase id) := by
  have hout : Stocked h { g with nodes := g.nodes.erase id } husks := by
    refine { hg with resident := fun k hk => hg.resident k (mem_erase_iff.mp hk).2, nodes := fun k n hn => ?_ }
    dsimp only at hn
    rw [getElem?_erase_eq] at hn
    split at hn
    · cases hn
    · exact hg.nodes k n hn
  have hforgot := hout.forgetColdShadow hread id
  exact { hforgot with edges := fun e he => hforgot.edges e (List.mem_filter.mp he).1 }

theorem Stocked.addEdge (hg : Stocked h g husks) (s t : NodeId) {w : F} (hw : (Scalar.reparse w).isSome)
    (ty : EdgeType) : Stocked h (g.addEdge s t w ty).1 husks := by
  unfold MemoryGraph.addEdge
  split
  · exact hg
  · split
    · exact { hg with }
    · refine { hg with edges := fun e he => ?_ }
      rcases List.mem_append.mp he with he | he
      · exact hg.edges e he
      · rw [List.mem_singleton.mp he, isSome_reparse_edge]
        exact hw

theorem Stocked.attach (hread : h.ReadsBack) (threshold : F) (cap inlineBudget : Nat) :
    ∃ husks, Stocked h ((new threshold cap).attachColdSpill h inlineBudget) husks := by
  unfold attachColdSpill
  refine (stocked_moves hread).enforceColdResidentBudget ((stocked_moves hread).enforceColdBudget ⟨∅, ?_⟩)
  refine ⟨HuskStore.holds_new 4096 1024, ⟨_, rfl, fun hash hmem => absurd hmem ExtTreeMap.not_mem_empty⟩, ?_, ?_, ?_, ?_,
    ?_, ?_⟩
  · exact fun id hid => absurd hid ExtTreeMap.not_mem_empty
  · exact fun id hid => absurd hid ExtTreeMap.not_mem_empty
  · intro id n hn
    simp [new] at hn
  · intro e he
    cases he
  · intro id c hc
    simp [new] at hc
  · intro id husk hhusk
    simp at hhusk

end Steps

end Ccos.MemoryGraph
