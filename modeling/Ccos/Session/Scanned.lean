import Ccos.Session.Memory
import Ccos.Lib.Runs
import Ccos.Memory.Swap

/-!
# The workspace scanner

A scanner keeps the content hash of each source file under its root. A scan reports what changed since
the last one, and a sync applies it to a graph as well. What the engine records of its own work is left
out: nothing here reads it.
-/

open Std

namespace Ccos

/-- The files of a directory tree, by path. -/
abbrev Directory := BTreeMap Str Str

/-- `Path::extension` of a file name: a name that only begins with a dot has none. -/
def extension (name : Str) : Option Str :=
  match rsplitOnce ".".toList name with
  | some (_ :: _, ext) => some ext
  | _ => none

/-- Directories that `collect_rs` does not enter. -/
def skipsDirectory (name : Str) : Bool :=
  name = "target".toList || name = ".git".toList || startsWith ".".toList name

/-- `collect_rs` finds the file. -/
def collects (root path : Str) : Bool :=
  match stripPrefix (root ++ ['/']) path with
  | none => false
  | some rest =>
    let parts := split "/".toList rest
    parts.dropLast.all (fun dir => !skipsDirectory dir) && parts.getLast?.bind extension = some "rs".toList

structure WorkspaceDelta where
  added : List Str
  modified : List Str
  removed : List Str
  deriving DecidableEq

structure WorkspaceScanner where
  root : Str
  files : BTreeMap Str Hash

/-- What a scan reads: the hash and the content of every source file. -/
abbrev Current := BTreeMap Str (Hash × Str)

namespace WorkspaceScanner

def new (root : Str) : WorkspaceScanner := ⟨root, ∅⟩

def diff (previous : BTreeMap Str Hash) (current : Current) : WorkspaceDelta where
  added := current.keys.filter fun path => previous[path]?.isNone
  modified := current.keys.filter fun path =>
    (previous[path]?).any fun old => decide ((current[path]?).map Prod.fst ≠ some old)
  removed := previous.keys.filter fun path => current[path]?.isNone

variable {F : Type} [Scalar F] (t : Tools F)

def readCurrent (s : WorkspaceScanner) (dir : Directory) : Current :=
  (dir.filter fun path _ => collects s.root path).map fun _ content => (t.sha256 content, content)

/-- The scanner after it has seen `current`. -/
def seen (s : WorkspaceScanner) (current : Current) : WorkspaceScanner :=
  { s with files := current.map fun _ entry => entry.1 }

def scanWorkspace (s : WorkspaceScanner) (dir : Directory) : WorkspaceDelta × WorkspaceScanner :=
  let current := s.readCurrent t dir
  (diff s.files current, s.seen current)

def updateDelta (s : WorkspaceScanner) (dir : Directory) : WorkspaceDelta × WorkspaceScanner :=
  s.scanWorkspace t dir

/-! ## Applying a delta -/

/-- What a sync does to a file of its delta. -/
inductive FileAction
  | ingest (path content : Str)
  | evict (path : Str)

/-- The graph calls of an action. An ingest evicts what an earlier version has left. -/
def FileAction.ops (g : MemoryGraph F) : FileAction → List (GraphOp F)
  | .ingest path content =>
    CcosMemory.evictFileNodes g path ++ CcosMemory.processDelta t g path none content
  | .evict path => CcosMemory.evictFileNodes g path

def act (g : MemoryGraph F) (a : FileAction) : MemoryGraph F := g.run t.toHost (a.ops t g)

def actions (delta : WorkspaceDelta) (current : Current) : List FileAction :=
  ((delta.added ++ delta.modified).filterMap fun path =>
    (current[path]?).map fun entry => .ingest path entry.2) ++
  delta.removed.map .evict

def sync (s : WorkspaceScanner) (dir : Directory) (g : MemoryGraph F) :
    WorkspaceDelta × WorkspaceScanner × MemoryGraph F :=
  let current := s.readCurrent t dir
  let delta := diff s.files current
  (delta, s.seen current, (actions delta current).foldl (act t) g)

end WorkspaceScanner

/-! ## Runs -/

inductive ScanOp
  | scanWorkspace | updateDelta | sync
  deriving DecidableEq

/-- One scanner and one graph, with the deltas so far and whether each was applied. -/
structure ScanSession (F : Type) where
  scanner : WorkspaceScanner
  graph : MemoryGraph F
  reports : List (Bool × WorkspaceDelta)

namespace ScanSession

variable {F : Type} [Scalar F]

def start (root : Str) (threshold : F) (cap : Nat) : ScanSession F :=
  ⟨WorkspaceScanner.new root, MemoryGraph.new threshold cap, []⟩

/-- An operation on the directory as it is then. -/
def step (t : Tools F) (s : ScanSession F) (call : Directory × ScanOp) : ScanSession F :=
  match call.2 with
  | .scanWorkspace =>
    let (delta, scanner) := s.scanner.scanWorkspace t call.1
    { s with scanner, reports := s.reports ++ [(false, delta)] }
  | .updateDelta =>
    let (delta, scanner) := s.scanner.updateDelta t call.1
    { s with scanner, reports := s.reports ++ [(false, delta)] }
  | .sync =>
    let (delta, scanner, graph) := s.scanner.sync t call.1 s.graph
    { scanner, graph, reports := s.reports ++ [(true, delta)] }

end ScanSession

end Ccos

/-!
## What a sync leaves in the graph

A sync brings every file up to date whose changes it is the first to see. A report that is not applied
uses its changes up.
-/

open Std

namespace Ccos

section

variable {F : Type} [Scalar F]

/-! ## Ids and their files -/

theorem ownedBy_iff {path : Str} {id : NodeId} : MemoryGraph.ownedBy path id = true ↔
    id = "file:".toList ++ path ∨
    ∃ kind ∈ ["mod:".toList, "use:".toList, "sym:".toList], ∃ rest, id = scopedId kind path rest := by
  have hstarts : ∀ kind : Str, startsWith (scopedId kind path []) id = true ↔ ∃ rest, id = scopedId kind path rest := by
    intro kind
    unfold startsWith scopedId
    rw [List.isPrefixOf_iff_prefix]
    constructor
    · rintro ⟨rest, rfl⟩
      exact ⟨rest, by simp⟩
    · rintro ⟨rest, rfl⟩
      exact ⟨rest, by simp⟩
  unfold MemoryGraph.ownedBy
  simp only [Bool.or_eq_true, beq_iff_eq, hstarts, List.mem_cons, List.not_mem_nil, or_false, exists_eq_or_imp,
    exists_eq_left, or_assoc]

theorem file_ne_scopedId {kind : Str} (h : kind ∈ ["mod:".toList, "use:".toList, "sym:".toList]) (p q rest : Str) :
    "file:".toList ++ p ≠ scopedId kind q rest := by
  simp only [List.mem_cons, List.not_mem_nil, or_false] at h
  rcases h with rfl | rfl | rfl
  all_goals simp [scopedId]

theorem scopedId_path {kind kind' p q x y : Str} (hk : kind ∈ ["mod:".toList, "use:".toList, "sym:".toList])
    (hk' : kind' ∈ ["mod:".toList, "use:".toList, "sym:".toList]) (hp : ':' ∉ p) (hq : ':' ∉ q)
    (h : scopedId kind p x = scopedId kind' q y) : p = q := by
  have hkind : kind = kind' := by
    simp only [List.mem_cons, List.not_mem_nil, or_false] at hk hk'
    rcases hk with rfl | rfl | rfl <;> rcases hk' with rfl | rfl | rfl
    all_goals first | rfl | simp [scopedId] at h
  subst hkind
  unfold scopedId at h
  rw [List.append_assoc, List.append_assoc, List.append_cancel_left_eq] at h
  exact (append_sep_inj hp hq h).1

/-- A path without a colon can be read off the ids it owns. -/
theorem owner_unique {p q : Str} {id : NodeId} (hp : ':' ∉ p) (hq : ':' ∉ q)
    (hpid : MemoryGraph.ownedBy p id = true) (hqid : MemoryGraph.ownedBy q id = true) : p = q := by
  rw [ownedBy_iff] at hpid hqid
  rcases hpid with rfl | ⟨kind, hk, x, rfl⟩
  · rcases hqid with hid | ⟨kind', hk', y, hid⟩
    · exact List.append_cancel_left hid
    · exact absurd hid (file_ne_scopedId hk' p q y)
  · rcases hqid with hid | ⟨kind', hk', y, hid⟩
    · exact absurd hid.symm (file_ne_scopedId hk q p x)
    · exact scopedId_path hk hk' hp hq hid

/-- A dependency belongs to no file. -/
theorem not_ownedBy_dep (path root : Str) : MemoryGraph.ownedBy path ("dep:".toList ++ root) = false := by
  rw [← Bool.not_eq_true, ownedBy_iff]
  simp only [List.mem_cons, List.not_mem_nil, or_false]
  rintro (h | ⟨_, rfl | rfl | rfl, x, h⟩)
  all_goals simp [scopedId] at h

/-! ## The calls that build a file -/

/-- The id that a call puts in the graph. -/
def GraphOp.inserted : GraphOp F → Option NodeId
  | .upsertNode id _ _ _ => some id
  | _ => none

/-- The calls of `update_memory_graph`. -/
def GraphOp.Builds : GraphOp F → Prop
  | .upsertNode .. | .addEdge .. | .setPendingCalls .. | .setPendingDataRefs .. | .setPendingAliases ..
  | .setPendingMethods .. | .markDataSymbol .. => True
  | _ => False

/-- A call that builds `path` and nothing but its nodes and dependencies. -/
def GraphOp.BuildsFile (path : Str) (op : GraphOp F) : Prop :=
  op.Builds ∧ ∀ id, op.inserted = some id → MemoryGraph.ownedBy path id = true ∨ ∃ root, id = "dep:".toList ++ root

omit [Scalar F] in
theorem buildsFile_node {path : Str} {id : NodeId} (h : MemoryGraph.ownedBy path id = true) (label content : Str)
    (nodeType : NodeType) : (GraphOp.upsertNode id label content nodeType : GraphOp F).BuildsFile path := by
  refine ⟨trivial, ?_⟩
  rintro _ ⟨⟩
  exact .inl h

theorem ownedBy_scopedId {kind : Str} (h : kind ∈ ["mod:".toList, "use:".toList, "sym:".toList]) (path rest : Str) :
    MemoryGraph.ownedBy path (scopedId kind path rest) = true :=
  ownedBy_iff.mpr (.inr ⟨kind, h, rest, rfl⟩)

theorem ownedBy_file (path : Str) : MemoryGraph.ownedBy path ("file:".toList ++ path) = true :=
  ownedBy_iff.mpr (.inl rfl)

mutual

theorem moduleOps_build (path : Str) (ls : List Str) (parent : NodeId) (weight : ℚ) (m : ModuleDecl) :
    ∀ op ∈ moduleOps F path ls parent weight m, op.BuildsFile path := by
  cases m with
  | mk name line children =>
    rw [moduleOps]
    simp only [List.forall_mem_cons]
    exact ⟨buildsFile_node (ownedBy_scopedId (by simp) path name) _ _ _, ⟨trivial, nofun⟩,
      moduleTreeOps_build path ls _ children⟩

theorem moduleTreeOps_build (path : Str) (ls : List Str) (parent : NodeId) (children : List ModuleDecl) :
    ∀ op ∈ moduleTreeOps F path ls parent children, op.BuildsFile path := by
  cases children with
  | nil =>
    rw [moduleTreeOps]
    exact nofun
  | cons child rest =>
    rw [moduleTreeOps]
    intro op hop
    rcases List.mem_append.mp hop with hop | hop
    · exact moduleOps_build path ls parent _ child op hop
    · exact moduleTreeOps_build path ls parent rest op hop

end

theorem useOps_build (path : Str) (ls : List Str) (u : UseStatement) :
    ∀ op ∈ (useOps path ls u : List (GraphOp F)), op.BuildsFile path := by
  unfold useOps
  dsimp only
  intro op hop
  rcases List.mem_append.mp hop with hop | hop
  · simp only [List.mem_cons, List.not_mem_nil, or_false] at hop
    rcases hop with rfl | rfl
    · exact buildsFile_node (ownedBy_scopedId (by simp) path _) _ _ _
    · exact ⟨trivial, nofun⟩
  · split at hop
    · exact absurd hop List.not_mem_nil
    · simp only [List.mem_cons, List.not_mem_nil, or_false] at hop
      rcases hop with rfl | rfl
      · refine ⟨trivial, ?_⟩
        rintro _ ⟨⟩
        exact .inr ⟨_, rfl⟩
      · exact ⟨trivial, nofun⟩

theorem symbolOps_build (path : Str) (ls : List Str) (s : SymbolDecl) :
    ∀ op ∈ (symbolOps path ls s : List (GraphOp F)), op.BuildsFile path := by
  unfold symbolOps
  dsimp only
  intro op hop
  rcases List.mem_append.mp hop with hop | hop
  · simp only [List.mem_cons, List.not_mem_nil, or_false] at hop
    rcases hop with rfl | rfl
    · exact buildsFile_node (ownedBy_scopedId (by simp) path _) _ _ _
    · exact ⟨trivial, nofun⟩
  · split at hop
    · obtain rfl := List.mem_singleton.mp hop
      exact ⟨trivial, nofun⟩
    · exact absurd hop List.not_mem_nil

theorem updateOps_build (cap : Nat) (r : ParseResult) (source : Str) :
    ∀ op ∈ (updateOps cap r source : List (GraphOp F)), op.BuildsFile r.filePath := by
  unfold updateOps
  dsimp only
  intro op hop
  rcases List.mem_cons.mp hop with rfl | hop
  · exact buildsFile_node (ownedBy_file r.filePath) _ _ _
  simp only [List.mem_append, List.mem_flatMap, List.mem_cons, List.not_mem_nil, or_false] at hop
  rcases hop with ((⟨m, -, hop⟩ | ⟨u, -, hop⟩) | ⟨s, -, hop⟩) | rfl | rfl | rfl | rfl
  · exact moduleOps_build _ _ _ _ m op hop
  · exact useOps_build _ _ u op hop
  · exact symbolOps_build _ _ s op hop
  all_goals exact ⟨trivial, nofun⟩

/-! ## What the calls leave resident -/

namespace MemoryGraph

/-- The call leaves the resident count within the cap. -/
def HasRoom (g : MemoryGraph F) (op : GraphOp F) : Prop :=
  ∀ id, op.inserted = some id → g.nodes.size + (if id ∈ g.nodes then 0 else 1) ≤ g.maxInMemoryNodes

instance (g : MemoryGraph F) (op : GraphOp F) : Decidable (g.HasRoom op) :=
  match h : op.inserted with
  | none => .isTrue fun _ hid => nomatch h.symm.trans hid
  | some id =>
    decidable_of_iff (g.nodes.size + (if id ∈ g.nodes then 0 else 1) ≤ g.maxInMemoryNodes)
      ⟨fun hroom _ hid => Option.some.inj (h.symm.trans hid) ▸ hroom, fun hroom => hroom id h⟩

theorem mem_removeNode {g : MemoryGraph F} {id k : NodeId} :
    k ∈ (g.removeNode id).nodes ↔ k ≠ id ∧ k ∈ g.nodes := by
  unfold removeNode
  dsimp only
  rw [forgetColdShadow_nodes, mem_erase_iff]

/-- With room, an upsert is an insert. -/
theorem upsertNode_nodes (h : Host F) {g : MemoryGraph F} {id : NodeId} {label content : Str} {nodeType : NodeType}
    (hroom : g.HasRoom (.upsertNode id label content nodeType)) :
    (g.upsertNode h id label content nodeType).nodes =
      g.nodes.insert id ((g.forgetColdShadow id).upserted id label content nodeType) := by
  have hcap : (g.forgetColdShadow id).maxInMemoryNodes = g.maxInMemoryNodes := by
    obtain ⟨_, _, _, _, _, _, heq⟩ := forgetColdShadow_frame g id
    rw [heq]
  have hsize := hroom id rfl
  unfold upsertNode enforcePaging
  dsimp only
  rw [if_pos]
  · dsimp only
    rw [forgetColdShadow_nodes]
  · rw [forgetColdShadow_nodes, hcap, ExtTreeMap.size_insert]
    by_cases hmem : id ∈ g.nodes
    · rw [if_pos hmem] at hsize
      rw [if_pos (ExtTreeMap.contains_iff_mem.mpr hmem)]
      exact hsize
    · rw [if_neg hmem] at hsize
      rw [if_neg (fun hc => hmem (ExtTreeMap.contains_iff_mem.mp hc))]
      exact hsize

theorem upsertNode_nodes_of_room (h : Host F) {g : MemoryGraph F} {id : NodeId} {label content : Str}
    {nodeType : NodeType} (hroom : g.HasRoom (.upsertNode id label content nodeType)) {k : NodeId} :
    k ∈ (g.upsertNode h id label content nodeType).nodes ↔ k = id ∨ k ∈ g.nodes := by
  rw [upsertNode_nodes h hroom, mem_insert_iff]

omit [Scalar F] in
theorem addEdge_nodes (g : MemoryGraph F) (source target : NodeId) (weight : F) (edgeType : EdgeType) :
    (g.addEdge source target weight edgeType).1.nodes = g.nodes := by
  unfold addEdge
  split
  · rfl
  · split
    · rfl
    · rfl

/-- A building call with room adds its node and evicts none. -/
theorem mem_step_of_builds (h : Host F) {g : MemoryGraph F} {op : GraphOp F} (hbuilds : op.Builds)
    (hroom : g.HasRoom op) {k : NodeId} :
    k ∈ (g.step h op).nodes ↔ k ∈ g.nodes ∨ op.inserted = some k := by
  cases op with
  | upsertNode id label content nodeType =>
    rw [step, upsertNode_nodes_of_room h hroom, GraphOp.inserted, Option.some.injEq, or_comm, eq_comm]
  | addEdge source target weight edgeType =>
    rw [step, addEdge_nodes]
    exact (or_iff_left nofun).symm
  | setPendingCalls | setPendingDataRefs | setPendingAliases | setPendingMethods | markDataSymbol =>
    exact (or_iff_left nofun).symm
  | _ => exact hbuilds.elim

theorem mem_run_of_builds (h : Host F) {g : MemoryGraph F} {ops : List (GraphOp F)} (hbuilds : ∀ op ∈ ops, op.Builds)
    (hroom : Runs.EachStep (step h) HasRoom g ops) {k : NodeId} :
    k ∈ (g.run h ops).nodes ↔ k ∈ g.nodes ∨ ∃ op ∈ ops, op.inserted = some k := by
  induction ops generalizing g with
  | nil => simp
  | cons op ops ih =>
    obtain ⟨hop, hops⟩ := List.forall_mem_cons.mp hbuilds
    rw [run_cons, ih hops hroom.2, mem_step_of_builds h hop hroom.1, or_assoc]
    simp only [List.mem_cons, exists_eq_or_imp]

theorem mem_run_removeNode (h : Host F) (g : MemoryGraph F) (ids : List NodeId) {k : NodeId} :
    k ∈ (g.run h (ids.map .removeNode)).nodes ↔ k ∈ g.nodes ∧ k ∉ ids := by
  induction ids generalizing g with
  | nil => simp
  | cons id ids ih =>
    rw [List.map_cons, run_cons, ih, step, mem_removeNode, List.mem_cons, not_or]
    tauto

/-- Eviction takes out exactly the nodes of the file. -/
theorem mem_run_evictFileNodes (h : Host F) (g : MemoryGraph F) (path : Str) {k : NodeId} :
    k ∈ (g.run h (CcosMemory.evictFileNodes g path)).nodes ↔ k ∈ g.nodes ∧ ¬ ownedBy path k = true := by
  unfold CcosMemory.evictFileNodes
  rw [mem_run_removeNode, List.mem_filter, ids, ExtTreeMap.mem_keys]
  tauto

end MemoryGraph

/-! ## What an action leaves resident -/

namespace WorkspaceScanner

open MemoryGraph

variable (t : Tools F)

/-- The ids that parsing a file puts in the graph. -/
def fileIds (path content : Str) : List NodeId :=
  (CcosMemory.processDelta t (MemoryGraph.new (Scalar.lit 0) 0) path none content).filterMap GraphOp.inserted

def FileAction.path : FileAction → Str
  | .ingest path _ => path
  | .evict path => path

/-- The ids of its file that an action leaves. -/
def FileAction.Leaves : FileAction → NodeId → Prop
  | .ingest path content, k => k ∈ fileIds t path content
  | .evict _, _ => False

/-- The cap is not reached while the action runs. -/
def ActRoom (g : MemoryGraph F) (a : FileAction) : Prop :=
  Runs.EachStep (MemoryGraph.step t.toHost) HasRoom g (a.ops t g)

instance (g : MemoryGraph F) (a : FileAction) : Decidable (ActRoom t g a) :=
  Runs.decidableEachStep (MemoryGraph.step t.toHost) HasRoom g (a.ops t g)

variable {t}

theorem mem_fileIds {path content : Str} {g : MemoryGraph F} {k : NodeId} : k ∈ fileIds t path content ↔
    ∃ op ∈ CcosMemory.processDelta t g path none content, op.inserted = some k := List.mem_filterMap

theorem processDelta_build (g : MemoryGraph F) (path content : Str) :
    ∀ op ∈ CcosMemory.processDelta t g path none content, op.BuildsFile path :=
  updateOps_build _ _ _

theorem fileIds_owned {path content : Str} {k : NodeId} (h : k ∈ fileIds t path content) :
    ownedBy path k = true ∨ ∃ root, k = "dep:".toList ++ root := by
  obtain ⟨op, hop, hk⟩ := List.mem_filterMap.mp h
  exact (processDelta_build _ path content op hop).2 k hk

theorem mem_act_ingest {g : MemoryGraph F} {path content : Str} (hroom : ActRoom t g (.ingest path content))
    {k : NodeId} : k ∈ (act t g (.ingest path content)).nodes ↔
      (k ∈ g.nodes ∧ ¬ ownedBy path k = true) ∨ k ∈ fileIds t path content := by
  have hbuilt : Runs.EachStep (MemoryGraph.step t.toHost) HasRoom
      (g.run t.toHost (CcosMemory.evictFileNodes g path)) (CcosMemory.processDelta t g path none content) :=
    (Runs.eachStep_append.mp hroom).2
  unfold act FileAction.ops
  rw [run_append, mem_run_of_builds _ (fun op hop => (processDelta_build g path content op hop).1) hbuilt,
    mem_run_evictFileNodes]
  exact or_congr_right mem_fileIds.symm

theorem mem_act_evict {g : MemoryGraph F} {path : Str} {k : NodeId} :
    k ∈ (act t g (.evict path)).nodes ↔ k ∈ g.nodes ∧ ¬ ownedBy path k = true :=
  mem_run_evictFileNodes _ _ _

/-- An action says all there is to say of its own file. -/
theorem mem_act_own {g : MemoryGraph F} {a : FileAction} (hroom : ActRoom t g a) {k : NodeId}
    (hk : ownedBy a.path k = true) : k ∈ (act t g a).nodes ↔ a.Leaves t k := by
  cases a with
  | ingest path content =>
    rw [mem_act_ingest hroom]
    exact or_iff_right fun h => h.2 hk
  | evict path =>
    rw [mem_act_evict]
    exact iff_of_false (fun h => h.2 hk) id

/-- And nothing of any other. -/
theorem mem_act_other {g : MemoryGraph F} {a : FileAction} {p : Str} (hroom : ActRoom t g a) (ha : ':' ∉ a.path)
    (hp : ':' ∉ p) (hne : a.path ≠ p) {k : NodeId} (hk : ownedBy p k = true) :
    k ∈ (act t g a).nodes ↔ k ∈ g.nodes := by
  have hother : ¬ ownedBy a.path k = true := fun h => hne (owner_unique ha hp h hk)
  cases a with
  | ingest path content =>
    have hout : k ∉ fileIds t path content := by
      intro hin
      rcases fileIds_owned hin with h | ⟨root, rfl⟩
      · exact hother h
      · rw [not_ownedBy_dep] at hk
        cases hk
    rw [mem_act_ingest hroom, or_iff_left hout]
    exact and_iff_left hother
  | evict path =>
    rw [mem_act_evict]
    exact and_iff_left hother

/-! ## What a list of actions leaves resident -/

theorem mem_acts_other {g : MemoryGraph F} {as : List FileAction} {p : Str}
    (hroom : Runs.EachStep (act t) (ActRoom t) g as) (has : ∀ a ∈ as, ':' ∉ a.path) (hp : ':' ∉ p)
    (hne : ∀ a ∈ as, a.path ≠ p) {k : NodeId} (hk : ownedBy p k = true) :
    k ∈ (as.foldl (act t) g).nodes ↔ k ∈ g.nodes := by
  induction as generalizing g with
  | nil => rfl
  | cons a as ih =>
    obtain ⟨ha, has⟩ := List.forall_mem_cons.mp has
    obtain ⟨hna, hne⟩ := List.forall_mem_cons.mp hne
    rw [List.foldl_cons, ih hroom.2 has hne, mem_act_other hroom.1 ha hp hna hk]

/-- When one action is all that happens to a file, it decides. -/
theorem mem_acts_own {g : MemoryGraph F} {as : List FileAction} {b : FileAction}
    (hroom : Runs.EachStep (act t) (ActRoom t) g as) (has : ∀ a ∈ as, ':' ∉ a.path) (hb : b ∈ as)
    (honly : ∀ a ∈ as, a.path = b.path → a = b) {k : NodeId} (hk : ownedBy b.path k = true) :
    k ∈ (as.foldl (act t) g).nodes ↔ b.Leaves t k := by
  induction as generalizing g with
  | nil => exact absurd hb List.not_mem_nil
  | cons a as ih =>
    obtain ⟨-, hasTail⟩ := List.forall_mem_cons.mp has
    obtain ⟨-, honlyTail⟩ := List.forall_mem_cons.mp honly
    rw [List.foldl_cons]
    by_cases hlater : b ∈ as
    · exact ih hroom.2 hasTail hlater honlyTail
    · have hother : ∀ c ∈ as, c.path ≠ b.path := fun c hc heq => hlater (honlyTail c hc heq ▸ hc)
      rw [mem_acts_other hroom.2 hasTail (has b hb) hother hk]
      obtain rfl : b = a := (List.mem_cons.mp hb).resolve_right hlater
      exact mem_act_own hroom.1 hk

end WorkspaceScanner

end

end Ccos
