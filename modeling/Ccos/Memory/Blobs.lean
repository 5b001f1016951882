import Ccos.Memory.Known

/-!
# The blobs of the swap file

One directory holds the texts of spilled contents and the texts of deep-spilled entries, each under its hash. What a
write, a read and a release do to the other blobs in it, and which entries survive the trip.
-/

open Std

set_option linter.unusedSectionVars false

namespace Ccos

/-! ## What reads back -/

section Reading

variable {F : Type} [Scalar F]

theorem isSome_reparse_node {n : GraphNode F} :
    n.reparse.isSome ↔ (Scalar.reparse n.baseImportance).isSome ∧ (Scalar.reparse n.failureRelevance).isSome ∧
      (Scalar.reparse n.recency).isSome ∧ (reparseTrust n.trust).isSome := by
  simp [GraphNode.reparse, Option.isSome_iff_exists, Option.bind_eq_some_iff]

theorem isSome_reparse_edge {e : GraphEdge F} : e.reparse.isSome ↔ (Scalar.reparse e.weight).isSome := by
  simp [GraphEdge.reparse, Option.isSome_iff_exists, Option.bind_eq_some_iff]

theorem isSome_reparse_edges {edges : List (GraphEdge F)} :
    (edges.mapM GraphEdge.reparse).isSome ↔ ∀ e ∈ edges, e.reparse.isSome := by
  induction edges with
  | nil => simp
  | cons e edges ih =>
    rw [List.forall_mem_cons, ← ih, List.mapM_cons]
    cases e.reparse with
    | none => simp
    | some e' => cases edges.mapM GraphEdge.reparse <;> simp

theorem isSome_reparse_cold {c : ColdNode F} :
    c.reparse.isSome ↔ c.node.reparse.isSome ∧ ∀ e ∈ c.edges, e.reparse.isSome := by
  rw [← isSome_reparse_edges, ColdNode.reparse]
  cases c.node.reparse with
  | none => simp
  | some node => cases c.edges.mapM GraphEdge.reparse <;> simp

/-- Neither the text nor anything that compacting it can leave is the text of an entry. -/
def Host.Apart (h : Host F) (nodeType : NodeType) (text : Str) : Prop :=
  ∀ (times : Nat) (c : ColdNode F), c.spill = none → (h.compactContent nodeType.debug)^[times] text ≠ h.printCold c

theorem Host.Apart.compact {h : Host F} {nodeType : NodeType} {text : Str} (hapart : h.Apart nodeType text) :
    h.Apart nodeType (h.compactContent nodeType.debug text) := fun times => hapart (times + 1)

theorem Host.Apart.ne {h : Host F} {nodeType : NodeType} {text : Str} (hapart : h.Apart nodeType text)
    {c : ColdNode F} (hinline : c.spill = none) : text ≠ h.printCold c := hapart 0 c hinline

/-- A node whose numbers read back and whose content is no entry's text. -/
structure GraphNode.Fit (h : Host F) (n : GraphNode F) : Prop where
  finite : n.reparse.isSome
  apart : h.Apart n.nodeType n.content

theorem GraphNode.Fit.compact {h : Host F} {n : GraphNode F} (hn : n.Fit h) :
    GraphNode.Fit h { n with content := h.compactContent n.nodeType.debug n.content } where
  finite := isSome_reparse_node.mpr (isSome_reparse_node (n := n).mp hn.finite)
  apart := hn.apart.compact

/-- An entry with its content inline, as the swap file takes it. -/
structure ColdNode.Whole (h : Host F) (c : ColdNode F) : Prop where
  inline : c.spill = none
  fit : c.node.Fit h
  edges : ∀ e ∈ c.edges, e.reparse.isSome

theorem ColdNode.Whole.finite {h : Host F} {c : ColdNode F} (hc : c.Whole h) : c.reparse.isSome :=
  isSome_reparse_cold.mpr ⟨hc.fit.finite, hc.edges⟩

/-- What paging through the swap file relies on: blobs have distinct names, compression loses nothing, and the JSON
text of an entry without a stub reads back when its numbers do. The numbers of a fresh node do. -/
structure Host.ReadsBack (h : Host F) : Prop where
  literals : ∀ q ∈ ([0.5, 0, 1] : List ℚ), (Scalar.reparse (Scalar.lit q : F)).isSome
  sha256 : Function.Injective h.sha256
  decompress : ∀ text, h.decompress (h.compress text) = some text
  parsed : ∀ c : ColdNode F, c.spill = none → c.reparse.isSome → ∃ c', h.parseCold (h.printCold c) = some c' ∧
    c'.spill = none ∧ c'.reparse.isSome ∧ c'.node.nodeType = c.node.nodeType ∧ c'.node.content = c.node.content

theorem Host.ReadsBack.whole {h : Host F} (hread : h.ReadsBack) {c : ColdNode F} (hc : c.Whole h) :
    ∃ c', h.parseCold (h.printCold c) = some c' ∧ c'.Whole h := by
  obtain ⟨c', hparse, hinline, hfinite, htype, hcontent⟩ := hread.parsed c hc.inline hc.finite
  obtain ⟨hnode, hedges⟩ := isSome_reparse_cold.mp hfinite
  exact ⟨c', hparse, hinline, ⟨hnode, htype ▸ hcontent ▸ hc.fit.apart⟩, hedges⟩

end Reading

/-! ## The directory -/

namespace ColdSpill

variable {F : Type} {h : Host F} {s : ColdSpill}

/-- Every blob reads back under its name. -/
def Sound (h : Host F) (s : ColdSpill) : Prop := ∀ hash ∈ s.dir, (s.get h hash).isSome

theorem get_congr {s' : ColdSpill} {hash : Hash} (hdir : s'.dir[hash]? = s.dir[hash]?) : s'.get h hash = s.get h hash := by
  unfold get
  rw [hdir]

theorem sha256_of_get {hash : Hash} {text : Str} (hget : s.get h hash = some text) : h.sha256 text = hash := by
  unfold get at hget
  split at hget
  · cases hget
  · split at hget
    · cases hget
    · simp only [Option.ite_none_right_eq_some, Option.some.injEq] at hget
      obtain ⟨hhash, rfl⟩ := hget
      exact hhash

theorem mem_of_get {hash : Hash} {text : Str} (hget : s.get h hash = some text) : hash ∈ s.dir := by
  cases hdir : s.dir[hash]? with
  | none => simp [get, hdir] at hget
  | some blob => exact mem_of_getElem?_eq_some hdir

theorem get_remove (s : ColdSpill) (hash k : Hash) :
    (s.remove hash).get h k = if k = hash then none else s.get h k := by
  have hdir : (s.remove hash).dir[k]? = if k = hash then none else s.dir[k]? := getElem?_erase_eq s.dir hash k
  split at hdir
  · rename_i hk
    rw [if_pos hk, get, hdir]
  · rename_i hk
    rw [if_neg hk, get_congr hdir]

/-- A text that is written reads back, also when its blob was there already. -/
theorem get_put [Scalar F] (hread : h.ReadsBack) (hs : s.Sound h) (text : Str) (k : Hash) :
    (s.put h text).2.get h k = if k = h.sha256 text then some text else s.get h k := by
  have hdir : (s.put h text).2.dir[k]? =
      if k = h.sha256 text then some (s.dir[h.sha256 text]?.getD (h.compress text)) else s.dir[k]? :=
    getElem?_insertFirst_eq s.dir _ k _
  split at hdir
  · rename_i hk
    rw [if_pos hk]
    cases hold : s.dir[h.sha256 text]? with
    | none =>
      rw [hold, Option.getD_none] at hdir
      rw [get, hdir]
      simp only [hread.decompress, hk, if_true]
    | some blob =>
      rw [hold, Option.getD_some, ← hold, ← hk] at hdir
      rw [get_congr hdir]
      obtain ⟨text', htext'⟩ := Option.isSome_iff_exists.mp (hs k (hk ▸ mem_of_getElem?_eq_some hold))
      rw [htext', hread.sha256 ((sha256_of_get htext').trans hk)]
  · rename_i hk
    rw [if_neg hk, get_congr hdir]

theorem Sound.put [Scalar F] (hread : h.ReadsBack) (hs : s.Sound h) (text : Str) : (s.put h text).2.Sound h := by
  intro k hk
  rw [get_put hread hs]
  split
  · rfl
  · rename_i hne
    refine hs k ?_
    rw [ExtTreeMap.mem_iff_isSome_getElem?] at hk ⊢
    change ((insertFirst s.dir _ _)[k]?).isSome at hk
    rwa [getElem?_insertFirst_eq, if_neg hne] at hk

theorem Sound.remove (hs : s.Sound h) (hash : Hash) : (s.remove hash).Sound h := by
  intro k hk
  obtain ⟨hne, hk⟩ := mem_erase_iff.mp hk
  rw [get_remove, if_neg hne]
  exact hs k hk

end ColdSpill

namespace MemoryGraph

variable {F : Type} [Scalar F] {h : Host F} {g : MemoryGraph F}

/-- A swap file is attached, and no blob in it is damaged. -/
def Attached (h : Host F) (g : MemoryGraph F) : Prop := ∃ cfg, g.spill = some cfg ∧ cfg.store.Sound h

theorem Attached.spillPut (hread : h.ReadsBack) (hg : g.Attached h) (text : Str) : (g.spillPut h text).Attached h := by
  obtain ⟨cfg, hcfg, hs⟩ := hg
  exact ⟨{ cfg with store := (cfg.store.put h text).2 }, by rw [MemoryGraph.spillPut, hcfg]; rfl, hs.put hread text⟩

theorem Attached.spillRemove (hg : g.Attached h) (hash : Hash) : (g.spillRemove hash).Attached h := by
  obtain ⟨cfg, hcfg, hs⟩ := hg
  exact ⟨{ cfg with store := cfg.store.remove hash }, by rw [MemoryGraph.spillRemove, hcfg]; rfl, hs.remove hash⟩

theorem spillGet_spillPut (hread : h.ReadsBack) (hg : g.Attached h) (text : Str) (k : Hash) :
    (g.spillPut h text).spillGet h k = if k = h.sha256 text then some text else g.spillGet h k := by
  obtain ⟨cfg, hcfg, hs⟩ := hg
  simp only [spillGet, MemoryGraph.spillPut, hcfg, Option.map_some, Option.bind_some]
  exact ColdSpill.get_put hread hs text k

theorem spillGet_spillRemove (g : MemoryGraph F) (hash k : Hash) :
    (g.spillRemove hash).spillGet h k = if k = hash then none else g.spillGet h k := by
  cases hcfg : g.spill with
  | none => simp [spillGet, spillRemove, hcfg]
  | some cfg =>
    simp only [spillGet, spillRemove, hcfg, Option.map_some, Option.bind_some]
    exact ColdSpill.get_remove cfg.store hash k

/-- What was written is still read after another write. -/
theorem spillGet_of_spillPut (hread : h.ReadsBack) (hg : g.Attached h) (text : Str) {k : Hash} {old : Str}
    (hold : g.spillGet h k = some old) : (g.spillPut h text).spillGet h k = some old := by
  rw [spillGet_spillPut hread hg]
  split
  · rename_i hk
    rw [hread.sha256 ((sha256_of_spillGet hold).trans hk)]
  · exact hold

/-! ## Who refers to a blob -/

theorem referencedByFull_iff {hash : Hash} :
    g.referencedByFull hash = true ↔
      ∃ (id : NodeId) (c : ColdNode F) (s : SpillRef), g.cold[id]? = some c ∧ c.spill = some s ∧ s.hash = hash := by
  simp only [referencedByFull, List.any_eq_true, Prod.exists, ExtTreeMap.mem_toList_iff_getElem?_eq_some, beq_iff_eq,
    Option.map_eq_some_iff]
  constructor
  · rintro ⟨id, c, hc, s, hs, hhash⟩
    exact ⟨id, c, s, hc, hs, hhash⟩
  · rintro ⟨id, c, s, hc, hs, hhash⟩
    exact ⟨id, c, hc, s, hs, hhash⟩

theorem referencedByHusk_iff {husks : BTreeMap NodeId DeepHusk} (hg : HoldsHusks g.huskStore husks) {hash : Hash} :
    g.referencedByHusk hash = true ↔ ∃ (id : NodeId) (husk : DeepHusk), husks[id]? = some husk ∧ husk.body.hash = hash := by
  have hentries : g.deepEntries = husks.toList := by
    unfold deepEntries
    unfold HoldsHusks at hg
    split
    · rename_i hnone
      rw [hnone] at hg
      rw [hg]
      rfl
    · rename_i hs hsome
      rw [hsome] at hg
      exact HuskStore.Holds.liveEntries hg
  simp only [referencedByHusk, hentries, List.any_eq_true, Prod.exists, ExtTreeMap.mem_toList_iff_getElem?_eq_some,
    beq_iff_eq]

end MemoryGraph

end Ccos
