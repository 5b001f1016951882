import Ccos.Session.Scanned
import Ccos.Memory.Known

/-!
# Editing a file

An edit takes the nodes of the old version out and parses the new one in. It looks for the old ones among the resident
nodes only, so what was paged out stays known, unless the new version makes it again.
-/

open Std

set_option linter.unusedSectionVars false

namespace Ccos

section

variable {F : Type} [Scalar F]

/-- A call that takes no id away. -/
def GraphOp.KeepsIds : GraphOp F → Prop
  | .removeNode _ | .reload => False
  | _ => True

theorem GraphOp.Builds.keepsIds {op : GraphOp F} (h : op.Builds) : op.KeepsIds := by
  cases op with
  | removeNode | reload => exact h.elim
  | _ => trivial

end

namespace MemoryGraph

variable {F : Type} [Scalar F] {h : Host F} {g : MemoryGraph F} {known : NodeId → Prop}

/-! ## What a call does to the known ids -/

/-- One call adds what it inserts. -/
theorem KnowsExactly.step (hg : g.KnowsExactly known) {op : GraphOp F} (hop : op.KeepsIds) :
    (g.step h op).KnowsExactly fun id => known id ∨ op.inserted = some id := by
  have hquiet : op.inserted = none → (g.step h op).KnowsExactly known →
      (g.step h op).KnowsExactly fun id => known id ∨ op.inserted = some id := fun hnone hafter =>
    hafter.of_iff fun id => or_iff_left (by simp [hnone])
  cases op with
  | removeNode | reload => exact hop.elim
  | upsertNode id label content nodeType =>
    refine (hg.upsertNode id label content nodeType).of_iff fun k => ?_
    rw [GraphOp.inserted, Option.some.injEq, or_comm, eq_comm]
  | enforcePaging => exact hquiet rfl hg.enforcePaging
  | pageIn id => exact hquiet rfl (hg.pageIn id)
  | addEdge s t w ty => exact hquiet rfl (hg.onlyEdges (addEdge_onlyEdges g s t w ty))
  | resolveAll => exact hquiet rfl (hg.onlyEdges (resolveAll_onlyEdges g))
  | propagateBeliefs threshold damping =>
    exact hquiet rfl (hg.onlyEdges (propagateBeliefs_onlyEdges g threshold damping))
  | pruneDanglingEdges => exact hquiet rfl hg.pruneDanglingEdges
  | propagateFailure origin depth maxDepth =>
    exact hquiet rfl (hg.onlyFields (propagateFrom_onlyFields _ _ _ _))
  | setNodeState | setFailureRelevance =>
    exact hquiet rfl (hg.inPlace (fun _ => ExtTreeMap.mem_modify) (fun _ => Iff.rfl) rfl)
  | stampFileTrust | tick => exact hquiet rfl (hg.inPlace (fun _ => ExtTreeMap.mem_map) (fun _ => Iff.rfl) rfl)
  | setMaxInMemoryNodes | setScoringWeights | nodeInDegree | nodeEigencentrality | withCausalAdjacency
  | setPendingCalls | setPendingDataRefs | setPendingAliases | setPendingMethods | markDataSymbol =>
    exact hquiet rfl (hg.inPlace (fun _ => Iff.rfl) (fun _ => Iff.rfl) rfl)

theorem KnowsExactly.run (hg : g.KnowsExactly known) {ops : List (GraphOp F)} (hops : ∀ op ∈ ops, op.KeepsIds) :
    (g.run h ops).KnowsExactly fun id => known id ∨ ∃ op ∈ ops, op.inserted = some id := by
  induction ops generalizing g known with
  | nil => exact hg.of_iff fun id => by simp
  | cons op ops ih =>
    obtain ⟨hop, hops⟩ := List.forall_mem_cons.mp hops
    refine (ih (hg.step hop) hops).of_iff fun id => ?_
    simp only [List.mem_cons, exists_eq_or_imp, or_assoc]

theorem KnowsExactly.runRemoves (hg : g.KnowsExactly known) (ids : List NodeId) :
    (g.run h (ids.map .removeNode)).KnowsExactly fun id => known id ∧ id ∉ ids := by
  induction ids generalizing g known with
  | nil => exact hg.of_iff fun id => by simp
  | cons id ids ih =>
    refine (ih (hg.removeNode id)).of_iff fun k => ?_
    rw [List.mem_cons, not_or]
    tauto

/-- Of the ids of a file, an eviction takes the resident ones. -/
theorem KnowsExactly.evictFileNodes (hg : g.KnowsExactly known) (path : Str) :
    (g.run h (CcosMemory.evictFileNodes g path)).KnowsExactly fun id =>
      known id ∧ ¬ (id ∈ g.nodes ∧ ownedBy path id = true) := by
  unfold CcosMemory.evictFileNodes
  refine (hg.runRemoves _).of_iff fun id => ?_
  rw [List.mem_filter, ids, ExtTreeMap.mem_keys]

/-! ## The index stays sound -/

/-- The husk index holds a map. -/
def Indexed (g : MemoryGraph F) : Prop := ∃ husks, HoldsHusks g.huskStore husks

theorem KnowsExactly.indexed (hg : g.KnowsExactly known) : g.Indexed := hg.imp fun _ hg => hg.1

theorem Indexed.knows (hg : g.Indexed) : g.KnowsExactly g.Known := hg.elim fun _ hindex => knowsExactly_known hindex

theorem indexed_moves (h : Host F) : KeptByMoves h (Indexed : MemoryGraph F → Prop) where
  fill g hg := ((knowsExactly_moves h _).fill g hg.knows).indexed
  content g id c hg hc hinline := ((knowsExactly_moves h _).content g id c hg.knows hc hinline).indexed
  husk g id c entry hg hc hentry hstore :=
    ((knowsExactly_moves h _).husk g id c entry hg.knows hc hentry hstore).indexed
  stray g id c entry hg hc hentry := ((knowsExactly_moves h _).stray g id c entry hg.knows hc hentry).indexed
  floor g id c hg hc := ((knowsExactly_moves h _).floor g id c hg.knows hc).indexed
  compact g id c content len hash hg hc hread :=
    ((knowsExactly_moves h _).compact g id c content len hash hg.knows hc hread).indexed

theorem Indexed.step (hg : g.Indexed) (op : GraphOp F) : (g.step h op).Indexed := by
  cases op with
  | removeNode id => exact (hg.knows.removeNode id).indexed
  | reload =>
    unfold MemoryGraph.step
    cases hr : g.reload with
    | none => exact hg
    | some g' =>
      obtain ⟨s, rfl, -⟩ := reload_eq_some hr
      exact ⟨∅, rfl⟩
  | _ =>
    refine KnowsExactly.indexed (KnowsExactly.step hg.knows ?_)
    trivial

theorem Indexed.run (hg : g.Indexed) (ops : List (GraphOp F)) : (g.run h ops).Indexed := by
  induction ops generalizing g with
  | nil => exact hg
  | cons op ops ih => exact ih (hg.step op)

end MemoryGraph

/-! ## Runs of the memory -/

/-- The directories of a swap file, as an attach finds them. The husk index there was written by the store. -/
structure SwapDirectory where
  blobs : ColdSpill
  husks : HuskStore DeepHusk
  radj : HuskStore Unit
  sound : ∃ held, HuskStore.Holds husks held

/-- The public operations of a memory, and the reads that leave something in a cache. -/
inductive MemoryOp (F : Type)
  | ingestSource (uri source : Str)
  | ingestDeferred (uri source : Str)
  | resolve
  | assertEvidence (evidence claim : NodeId) (supports : Bool) (weight : F)
  | signalFailure (node : Str) (depth : Nat)
  | ensureResident (uri : Str)
  | setMaxResident (cap : Nat)
  | setScoringWeights (weights : ScoringWeights F)
  | tick
  | attachColdSpill (dir : SwapDirectory) (inlineBudget : Nat)
  | setColdContentBudget (budget : Option Nat)
  | checkpoint
  /-- A serialization round trip; a memory that does not read back stays. -/
  | reload
  | isCold (id : NodeId)
  | nodeInDegree
  | nodeEigencentrality
  | withCausalAdjacency

namespace CcosMemory

variable {F : Type} [Scalar F] (t : Tools F)

/-- What a checkpoint does to the memory: pending edges are resolved, and the indices flushed. -/
def checkpoint (m : CcosMemory F) : CcosMemory F :=
  let m := m.resolve t
  { m with graph := m.graph.flushColdTier }

def memoryStep (m : CcosMemory F) : MemoryOp F → CcosMemory F
  | .ingestSource uri source => m.ingestSource t uri source
  | .ingestDeferred uri source => m.ingestDeferred t uri source
  | .resolve => m.resolve t
  | .assertEvidence evidence claim supports weight => m.assertEvidence t evidence claim supports weight
  | .signalFailure node depth => m.signalFailure t node depth
  | .ensureResident uri => m.ensureResident t uri
  | .setMaxResident cap => m.setMaxResident t cap
  | .setScoringWeights weights => m.setScoringWeights t weights
  | .tick => m.tick t
  | .attachColdSpill dir inlineBudget => m.attachColdSpill t dir.blobs dir.husks dir.radj inlineBudget
  | .setColdContentBudget budget => m.setColdContentBudget t budget
  | .checkpoint => m.checkpoint t
  | .reload => (m.toJson.bind fromJson).getD m
  | .isCold id => { m with graph := (m.graph.deepGet id).2 }
  | .nodeInDegree => m.onGraph t [.nodeInDegree]
  | .nodeEigencentrality => m.onGraph t [.nodeEigencentrality]
  | .withCausalAdjacency => m.onGraph t [.withCausalAdjacency]

def Reachable (m : CcosMemory F) : Prop := ∃ ops, m = Runs.run (memoryStep t) new ops

end CcosMemory

namespace MemoryGraph

variable {F : Type} [Scalar F] {h : Host F} {g : MemoryGraph F}

theorem Indexed.flushColdTier (hg : g.Indexed) : g.flushColdTier.Indexed := by
  obtain ⟨husks, hindex⟩ := hg
  refine ⟨husks, ?_⟩
  change HoldsHusks (g.huskStore.map (·.flush)) husks
  generalize g.huskStore = store at hindex
  cases store with
  | none => exact hindex
  | some hs => exact HuskStore.Holds.flush hindex

end MemoryGraph

namespace CcosMemory

open MemoryGraph

variable {F : Type} [Scalar F] {t : Tools F} {m : CcosMemory F}

theorem resolve_graph (m : CcosMemory F) :
    (m.resolve t).graph = m.graph.run t.toHost (if m.needsResolution then [.resolveAll] else []) := by
  unfold resolve
  by_cases hneeds : m.needsResolution = true
  · rw [if_pos hneeds, if_pos hneeds, onGraph]
  · rw [if_neg hneeds, if_neg hneeds, run_nil]

theorem indexed_resolve (hm : m.graph.Indexed) : (m.resolve t).graph.Indexed := by
  rw [resolve_graph]
  exact hm.run _

theorem ingestSource_graph (m : CcosMemory F) (uri source : Str) :
    (m.ingestSource t uri source).graph = m.graph.run t.toHost (m.ingestOps t uri source ++ [.resolveAll]) := by
  rw [ingestSource, resolve_graph, run_append]
  rfl

theorem indexed_ensureNode (hm : m.graph.Indexed) (id : NodeId) : (m.ensureNode t id).graph.Indexed := by
  unfold ensureNode
  split
  · exact hm
  · exact hm.run _

theorem indexed_signalFailure (hm : m.graph.Indexed) (node : Str) (depth : Nat) :
    (m.signalFailure t node depth).graph.Indexed := by
  unfold signalFailure
  dsimp only
  split
  · exact hm.run _
  · split
    · exact hm.run _
    · exact hm.run _

theorem indexed_attachColdSpill (dir : SwapDirectory) (inlineBudget : Nat) :
    (m.attachColdSpill t dir.blobs dir.husks dir.radj inlineBudget).graph.Indexed :=
  (indexed_moves t.toHost).enforceColdResidentBudget ((indexed_moves t.toHost).enforceColdBudget dir.sound)

theorem indexed_reload (hm : m.graph.Indexed) : ((m.toJson.bind fromJson).getD m).graph.Indexed := by
  cases hload : m.toJson.bind fromJson with
  | none => exact hm
  | some m' =>
    obtain ⟨p, -, hp⟩ := Option.bind_eq_some_iff.mp hload
    obtain ⟨p', -, rfl⟩ := Option.map_eq_some_iff.mp hp
    exact ⟨∅, rfl⟩

theorem indexed_step (hm : m.graph.Indexed) (op : MemoryOp F) : (m.memoryStep t op).graph.Indexed := by
  cases op with
  | ingestSource uri source =>
    rw [memoryStep, ingestSource_graph]
    exact hm.run _
  | ingestDeferred uri source => exact hm.run _
  | resolve => exact indexed_resolve hm
  | assertEvidence evidence claim supports weight =>
    exact (indexed_ensureNode (indexed_ensureNode hm evidence) claim).run _
  | signalFailure node depth => exact indexed_signalFailure hm node depth
  | attachColdSpill dir inlineBudget => exact indexed_attachColdSpill dir inlineBudget
  | setColdContentBudget budget => exact (indexed_moves t.toHost).enforceColdContentBudget hm
  | checkpoint => exact (indexed_resolve hm).flushColdTier
  | reload => exact indexed_reload hm
  | isCold id => exact (hm.knows.read id).indexed
  | ensureResident | setMaxResident | setScoringWeights | tick | nodeInDegree | nodeEigencentrality
  | withCausalAdjacency => exact hm.run _

theorem Reachable.indexed (hm : Reachable t m) : m.graph.Indexed := by
  obtain ⟨ops, rfl⟩ := hm
  suffices hrun : ∀ m : CcosMemory F, m.graph.Indexed → (Runs.run (memoryStep t) m ops).graph.Indexed from
    hrun new ⟨∅, rfl⟩
  induction ops with
  | nil => exact fun _ hm => hm
  | cons op ops ih => exact fun m hm => ih _ (indexed_step hm op)

/-! ## What an ingest leaves known -/

open WorkspaceScanner (fileIds mem_fileIds processDelta_build)

/-- The stored source has another hash, so the delta evicts and parses. -/
def Replaces (t : Tools F) (old : Option Str) (new : Str) : Prop := ∃ o, old = some o ∧ t.sha256 o ≠ t.sha256 new

/-- The stored source has the same hash, so the delta does nothing. -/
def Unchanged (t : Tools F) (old : Option Str) (new : Str) : Prop := ∃ o, old = some o ∧ t.sha256 o = t.sha256 new

theorem knowsExactly_processDelta {g : MemoryGraph F} {known : NodeId → Prop} (hg : g.KnowsExactly known)
    (path : Str) (old : Option Str) (new : Str) :
    (g.run t.toHost (processDelta t g path old new)).KnowsExactly fun id =>
      (known id ∧ ¬ (Replaces t old new ∧ id ∈ g.nodes ∧ ownedBy path id = true)) ∨
        (¬ Unchanged t old new ∧ id ∈ fileIds t path new) := by
  have hparse : ∀ {g' : MemoryGraph F} {known' : NodeId → Prop}, g'.KnowsExactly known' →
      (g'.run t.toHost (processDelta t g path none new)).KnowsExactly fun id => known' id ∨ id ∈ fileIds t path new := by
    intro g' known' hg'
    have hkeeps : ∀ op ∈ processDelta t g path none new, op.KeepsIds := fun op hop =>
      (processDelta_build g path new op hop).1.keepsIds
    refine (hg'.run hkeeps).of_iff fun id => ?_
    rw [mem_fileIds]
  cases old with
  | none =>
    exact (hparse hg).of_iff fun id => by simp [Replaces, Unchanged]
  | some old =>
    by_cases hsame : t.sha256 old = t.sha256 new
    · unfold processDelta
      dsimp only
      rw [if_pos hsame, run_nil]
      exact hg.of_iff fun id => by simp [Replaces, Unchanged, hsame]
    · have hsplit :
          processDelta t g path (some old) new = evictFileNodes g path ++ processDelta t g path none new := by
        unfold processDelta
        dsimp only
        rw [if_neg hsame]
      rw [hsplit, run_append]
      exact (hparse (hg.evictFileNodes path)).of_iff fun id => by simp [Replaces, Unchanged, hsame]

/-- Taints and links concern no id. -/
theorem run_rest_known {g : MemoryGraph F} {known : NodeId → Prop} (hg : g.KnowsExactly known) (path clean : Str)
    (found : List AnomalyKind) :
    (g.run t.toHost (taintOps t path clean found ++ [.resolveAll])).KnowsExactly known := by
  have hquiet : ∀ op ∈ taintOps t path clean found ++ [.resolveAll], op.KeepsIds ∧ op.inserted = none := by
    intro op hop
    rcases List.mem_append.mp hop with hop | hop
    · unfold taintOps at hop
      dsimp only at hop
      split at hop
      · obtain rfl := List.mem_singleton.mp hop
        exact ⟨trivial, rfl⟩
      · exact absurd hop List.not_mem_nil
    · obtain rfl := List.mem_singleton.mp hop
      exact ⟨trivial, rfl⟩
  refine (hg.run fun op hop => (hquiet op hop).1).of_iff fun id => ?_
  rw [iff_comm, or_iff_left]
  rintro ⟨op, hop, hid⟩
  rw [(hquiet op hop).2] at hid
  exact absurd hid (by simp)

/-- The edit takes the id out: it is resident, and the stored source has another hash. -/
def TakesOut (t : Tools F) (m : CcosMemory F) (uri source : Str) (id : NodeId) : Prop :=
  Replaces t m.sources[fileKey (stripFile uri)]? (t.defang source).1 ∧ id ∈ m.graph.nodes

/-- The ids that parsing the clean form of a source makes for its file. -/
def parsedIds (t : Tools F) (uri source : Str) : List NodeId := fileIds t (stripFile uri) (t.defang source).1

theorem known_ingestSource (hm : m.graph.Indexed) {uri : Str} (source : Str) {id : NodeId}
    (howned : ownedBy (stripFile uri) id = true) :
    (m.ingestSource t uri source).graph.Known id ↔
      (m.graph.Known id ∧ ¬ m.TakesOut t uri source id) ∨
        (¬ Unchanged t m.sources[fileKey (stripFile uri)]? (t.defang source).1 ∧ id ∈ parsedIds t uri source) := by
  have hdelta := knowsExactly_processDelta (t := t) hm.knows (stripFile uri) m.sources[fileKey (stripFile uri)]?
    (t.defang source).1
  have hafter := run_rest_known (t := t) hdelta (stripFile uri) (t.defang source).1 (t.defang source).2
  rw [← run_append, ← List.append_assoc] at hafter
  rw [ingestSource_graph, ingestOps]
  rw [← KnowsExactly.iff hafter id, howned]
  simp only [and_true, TakesOut, parsedIds]

/-! ## Ghosts -/

/-- After the ingest, every id of the file that is resident or COLD comes from the parse. -/
def LeavesNoGhost (t : Tools F) (m : CcosMemory F) (uri source : Str) : Prop :=
  ∀ id, ownedBy (stripFile uri) id = true → (m.ingestSource t uri source).graph.Known id →
    id ∈ parsedIds t uri source

/-- An ingest leaves no ghost exactly when every known id of the file is taken out or made again. The COLD ones are
never taken out. -/
theorem leaves_no_ghost_iff (t : Tools F) {m : CcosMemory F} (hm : Reachable t m) (uri source : Str) :
    m.LeavesNoGhost t uri source ↔ ∀ id, ownedBy (stripFile uri) id = true → m.graph.Known id →
      m.TakesOut t uri source id ∨ id ∈ parsedIds t uri source := by
  constructor
  · intro hclean id howned hid
    by_cases htaken : m.TakesOut t uri source id
    · exact .inl htaken
    · exact .inr (hclean id howned ((known_ingestSource hm.indexed source howned).mpr (.inl ⟨hid, htaken⟩)))
  · intro hcond id howned hid
    rcases (known_ingestSource hm.indexed source howned).mp hid with ⟨hbefore, hstays⟩ | ⟨-, hmade⟩
    · exact (hcond id howned hbefore).resolve_left hstays
    · exact hmade

/-! ## A file that loses a function -/

def fnDecl (name : Str) : SymbolDecl := { name, line := 1, kind := .function }

/-- Tools whose parser reads a source as the names of its functions, one a line. -/
def linesAreFunctions : Tools ℚ :=
  .plain fun _ source => { Extracted.empty with symbols := (lines source).map fnDecl }

def twoFunctions : Str := "drop\nkeep".toList

example : (lines twoFunctions).length = 2 := by decide +kernel

def oneFunction : Str := "keep".toList

def ingested : CcosMemory ℚ := Runs.run (memoryStep linesAreFunctions) new [.ingestSource "a.rs".toList twoFunctions]

def pagedOut : CcosMemory ℚ :=
  Runs.run (memoryStep linesAreFunctions) new [.ingestSource "a.rs".toList twoFunctions, .setMaxResident 1]

theorem reachable_ingested : Reachable linesAreFunctions ingested := ⟨_, rfl⟩

theorem ingested_replaces :
    Replaces linesAreFunctions ingested.sources[fileKey (stripFile "a.rs".toList)]?
      (linesAreFunctions.defang oneFunction).1 :=
  ⟨twoFunctions, by decide, by decide⟩

/-- With everything resident, nothing stays known. -/
theorem resident_file_leaves_no_ghost : ingested.LeavesNoGhost linesAreFunctions "a.rs".toList oneFunction := by
  refine (leaves_no_ghost_iff linesAreFunctions reachable_ingested "a.rs".toList oneFunction).mpr fun id _ hid => ?_
  rcases hid with hid | hid
  · exact .inl ⟨ingested_replaces, hid⟩
  · have hcold : ingested.graph.cold = ∅ := ExtTreeMap.isEmpty_iff.mp (by decide +kernel)
    have hstore : ingested.graph.huskStore = none := Option.isNone_iff_eq_none.mp (by decide +kernel)
    have hindex : HoldsHusks ingested.graph.huskStore ∅ := by
      rw [hstore]
      rfl
    rw [isCold_iff hindex, hcold] at hid
    exact (hid.elim ExtTreeMap.not_mem_empty ExtTreeMap.not_mem_empty).elim

theorem paged_out_function_is_a_ghost :
    Reachable linesAreFunctions pagedOut ∧
      pagedOut.sources["file:a.rs".toList]? = some twoFunctions ∧
      (pagedOut.ingestSource linesAreFunctions "a.rs".toList oneFunction).graph.isCold "sym:a.rs:drop".toList = true ∧
      ¬ pagedOut.LeavesNoGhost linesAreFunctions "a.rs".toList oneFunction := by
  have hcold : (pagedOut.ingestSource linesAreFunctions "a.rs".toList oneFunction).graph.isCold "sym:a.rs:drop".toList =
      true := by decide +kernel
  refine ⟨⟨_, rfl⟩, by decide, hcold, fun hclean => ?_⟩
  have hmade := hclean "sym:a.rs:drop".toList (by decide) (.inr hcold)
  exact absurd hmade (by decide)

end CcosMemory

end Ccos
