import Ccos.Session.Memory

/-!
# Migration bundles

Records of a retrieval store become document nodes, built by hand, or code files, which go through
ingestion. A verification at the end decides whether the migration was lossless.
-/

open Std

namespace Ccos.Migrate

inductive Mode
  | auto | code | docs
  deriving DecidableEq

structure MigrateConfig where
  mode : Mode
  verify : Bool
  extendFrom : Option Str

structure CmbRelation (F : Type) where
  source : Option Str
  target : Str
  kind : Str
  weight : F

/-- `M` is the type of a metadata map. -/
structure CmbRecord (F M : Type) where
  id : Str
  kind : Str
  content : Str
  sourceUri : Option Str
  parent : Option Str
  ordinal : Option Int
  metadata : M
  relations : List (CmbRelation F)
  embedding : Option (List F)

structure ManifestEntry (M : Type) where
  id : Str
  nodeId : Str
  kind : Str
  contentSha256 : Hash
  sourceUri : Option Str
  parent : Option Str
  ordinal : Option Int
  metadata : M

structure EmbeddingEntry (F : Type) where
  nodeId : Str
  dim : Nat
  vector : List F

structure MigrationReport where
  records : Nat
  nodesDocuments : Nat
  nodesCodeFiles : Nat
  edgesContainment : Nat
  edgesSequence : Nat
  edgesRelation : Nat
  crossFileEdges : Nat
  embeddingsPreserved : Nat
  bytesContent : Nat
  hashMismatches : Nat
  lossless : Bool
  byKind : BTreeMap Str Nat
  warnings : List Str

def MigrationReport.default : MigrationReport := ⟨0, 0, 0, 0, 0, 0, 0, 0, 0, 0, false, ∅, []⟩

/-- Of the errors only the one a record list can still meet. -/
inductive MigrateError
  | assemble

structure MigrationOutcome (F M : Type) where
  memory : CcosMemory F
  report : MigrationReport
  manifest : List (ManifestEntry M)
  embeddings : List (EmbeddingEntry F)

/-- A hash map gives its keys in some order, and a path holds nothing, a workspace or something that
does not read. -/
structure MigrateTools (F : Type) extends Tools F where
  nodeOrder : List NodeId → List NodeId
  saved : Str → Option (Option (CcosMemory.Persisted F))

/-! ## Routes -/

def mapEdgeKind (kind : Str) : EdgeType :=
  let kind := String.ofList (kind.map Char.toLower)
  if kind ∈ ["contains", "contain", "parent", "part_of", "has_child"] then .contains
  else if kind ∈ ["sequence", "next", "prev", "previous", "adjacent", "follows"] then .relatedTo
  else if kind ∈ ["depends_on", "depends", "import", "imports", "uses", "requires"] then .dependsOn
  else if kind ∈ ["calls", "call", "invokes"] then .calls
  else if kind ∈ ["data_flow", "dataflow", "writes", "reads"] then .dataFlow
  else if kind ∈ ["references", "reference", "mentions", "mention", "cites", "links_to", "source"] then
    .references
  else if kind ∈ ["supports", "support", "affirms", "confirms"] then .supports
  else if kind ∈ ["contradicts", "contradict", "refutes", "conflicts"] then .contradicts
  else if kind ∈ ["causes", "cause", "leads_to"] then .causes
  else .relatedTo

def codeExts : List String :=
  [".rs", ".py", ".js", ".ts", ".tsx", ".jsx", ".go", ".java", ".c", ".h", ".cpp", ".hpp", ".cc", ".rb",
    ".php", ".cs", ".swift", ".kt", ".scala", ".sh"]

def looksLikeCode (uri : Str) : Bool :=
  codeExts.any fun ext => ext.toList.isSuffixOf (uri.map Char.toLower)

section

variable {F M : Type}

def isCode (rec : CmbRecord F M) : Mode → Bool
  | .code => true
  | .docs => false
  | .auto => rec.kind == "code_file".toList || (rec.sourceUri.map looksLikeCode).getD false

def docId (raw : Str) : Str := "doc:".toList ++ (stripPrefix "doc:".toList raw).getD raw

/-- The uri that a code record is ingested under. -/
def codeUri (rec : CmbRecord F M) : Str := rec.sourceUri.getD rec.id

def nodeIdFor (rec : CmbRecord F M) (mode : Mode) : Str :=
  if isCode rec mode then fileKey (stripFile (codeUri rec)) else docId rec.id

end

/-! ## The first pass -/

/-- What the pass over the records collects. -/
structure Pass (F M : Type) where
  graph : MemoryGraph F
  sources : BTreeMap Str Str
  code : List (Str × Str)
  idMap : BTreeMap Str Str
  seq : List (Str × Int × Str)
  containment : List (Str × Str)
  relations : List (Str × Str × F × EdgeType)
  report : MigrationReport
  manifest : List (ManifestEntry M)
  embeddings : List (EmbeddingEntry F)

section

variable {F M : Type} [Scalar F]

open Scalar

def Pass.start : Pass F M :=
  ⟨MemoryGraph.new (lit 0.2) 5000, ∅, [], ∅, [], [], [], .default, [], []⟩

/-- The record's node or its place among the code files. -/
def Pass.place (t : MigrateTools F) (mode : Mode) (p : Pass F M) (rec : CmbRecord F M) : Pass F M :=
  if isCode rec mode then
    { p with
      code := p.code ++ [(codeUri rec, rec.content)]
      report := { p.report with nodesCodeFiles := p.report.nodesCodeFiles + 1 } }
  else
    { p with
      graph := p.graph.upsertNode t.toHost (nodeIdFor rec mode) (codeUri rec) rec.content .contextBlock
      sources := p.sources.insert (nodeIdFor rec mode) rec.content
      report := { p.report with nodesDocuments := p.report.nodesDocuments + 1 } }

omit [Scalar F] in
def Pass.relate (mode : Mode) (p : Pass F M) (rec : CmbRecord F M) : Pass F M :=
  { p with
    containment := p.containment ++ (rec.parent.map fun parent => (parent, rec.id)).toList
    seq := p.seq ++ (rec.parent.bind fun parent =>
      rec.ordinal.map fun ord => (parent, ord, nodeIdFor rec mode)).toList
    relations := p.relations ++ rec.relations.map fun r =>
      (r.source.getD rec.id, r.target, r.weight, mapEdgeKind r.kind) }

omit [Scalar F] in
def manifestEntry (t : MigrateTools F) (mode : Mode) (rec : CmbRecord F M) : ManifestEntry M where
  id := rec.id
  nodeId := nodeIdFor rec mode
  kind := rec.kind
  contentSha256 := t.sha256 rec.content
  sourceUri := rec.sourceUri
  parent := rec.parent
  ordinal := rec.ordinal
  metadata := rec.metadata

omit [Scalar F] in
def Pass.account (t : MigrateTools F) (mode : Mode) (p : Pass F M) (rec : CmbRecord F M) : Pass F M :=
  { p with
    idMap := p.idMap.insert rec.id (nodeIdFor rec mode)
    manifest := p.manifest ++ [manifestEntry t mode rec]
    embeddings := p.embeddings ++ (rec.embedding.map fun v => ⟨nodeIdFor rec mode, v.length, v⟩).toList
    report := { p.report with
      records := p.report.records + 1
      byKind := countAt p.report.byKind rec.kind
      bytesContent := p.report.bytesContent + byteLen rec.content
      embeddingsPreserved := p.report.embeddingsPreserved + rec.embedding.toList.length } }

def Pass.record (t : MigrateTools F) (mode : Mode) (p : Pass F M) (rec : CmbRecord F M) : Pass F M :=
  ((p.account t mode rec).place t mode rec).relate mode rec

def firstPass (t : MigrateTools F) (mode : Mode) (records : List (CmbRecord F M)) : Pass F M :=
  records.foldl (Pass.record t mode) .start

/-! ## Placeholders and edges -/

omit [Scalar F] in
/-- A raw id that no record has is taken for a document. -/
def Pass.resolveId (p : Pass F M) (raw : Str) : Str := (p.idMap[raw]?).getD (docId raw)

/-- The graph with a placeholder for each document that is only referred to, and all document ids. -/
def addPlaceholders (t : MigrateTools F) (graph : MemoryGraph F) (docIds : BTreeMap Str Unit)
    (needed : List Str) : MemoryGraph F × BTreeMap Str Unit :=
  needed.foldl (fun (graph, docIds) e =>
    match stripPrefix "doc:".toList e with
    | some label =>
      if e ∈ docIds then (graph, docIds)
      else (graph.upsertNode t.toHost e label [] .contextBlock, docIds.insert e ())
    | none => (graph, docIds)) (graph, docIds)

def ensureDocEdge (docIds : BTreeMap Str Unit) (graph : MemoryGraph F) (source target : Str) (weight : F)
    (kind : EdgeType) : MemoryGraph F × Bool :=
  if source ≠ target ∧ source ∈ docIds ∧ target ∈ docIds then graph.addEdge source target weight kind
  else (graph, false)

/-- Adds edges in turn, and counts those that were new. -/
def addDocEdges (docIds : BTreeMap Str Unit) (graph : MemoryGraph F)
    (edges : List (Str × Str × F × EdgeType)) : MemoryGraph F × Nat :=
  edges.foldl (fun (graph, count) (source, target, weight, kind) =>
    let (graph, added) := ensureDocEdge docIds graph source target weight kind
    (graph, if added then count + 1 else count)) (graph, 0)

omit [Scalar F] in
/-- Neighbours in order under one parent. -/
def sequencePairs : List (Str × Int × Str) → List (Str × Str)
  | (parent, _, a) :: (parent', ord, b) :: rest =>
    (if parent = parent' then [(a, b)] else []) ++ sequencePairs ((parent', ord, b) :: rest)
  | _ => []

omit [Scalar F] in
def seqCmp (a b : Str × Int × Str) : Ordering := (compare a.1 b.1).then (compare a.2.1 b.2.1)

/-- The document graph with its edges, and the report that counts them. -/
def secondPass (t : MigrateTools F) (mode : Mode) (records : List (CmbRecord F M)) (p : Pass F M) :
    MemoryGraph F × MigrationReport :=
  let docIds := ((records.filter fun rec => !isCode rec mode).map fun rec => nodeIdFor rec mode).foldl
    (fun docIds id => docIds.insert id ()) ∅
  let needed := (p.containment.flatMap fun (parent, child) => [p.resolveId parent, p.resolveId child])
    ++ p.relations.flatMap fun (source, target, _, _) => [p.resolveId source, p.resolveId target]
  let (graph, docIds) := addPlaceholders t p.graph docIds needed
  let (graph, edgesContainment) := addDocEdges docIds graph (p.containment.map fun (parent, child) =>
    (p.resolveId parent, p.resolveId child, lit 1, .contains))
  let (graph, edgesSequence) := addDocEdges docIds graph ((sequencePairs (sortBy seqCmp p.seq)).map
    fun (a, b) => (a, b, lit 0.5, .relatedTo))
  let (graph, edgesRelation) := addDocEdges docIds graph (p.relations.map
    fun (source, target, weight, kind) => (p.resolveId source, p.resolveId target, weight, kind))
  (graph, { p.report with edgesContainment, edgesSequence, edgesRelation })

/-! ## Assembly -/

/-- `CcosMemory::open` without a checkpoint path. -/
def openMemory (t : MigrateTools F) (path : Str) : Option (CcosMemory F) :=
  match t.saved path with
  | none => some .new
  | some none => none
  | some (some persisted) => CcosMemory.fromJson persisted

/-- The nodes of the new graph, then its edges, on top of an existing one. -/
def mergeGraph (t : MigrateTools F) (base graph : MemoryGraph F) : MemoryGraph F :=
  let base := (t.nodeOrder graph.ids).foldl (fun (base : MemoryGraph F) id =>
    match graph.nodes[id]? with
    | some n => base.upsertNode t.toHost id n.label n.content n.nodeType
    | none => base) base
  graph.edges.foldl (fun base e => (base.addEdge e.source e.target e.weight e.edgeType).1) base

def extendMemory (t : MigrateTools F) (path : Str) (graph : MemoryGraph F) (sources : BTreeMap Str Str) :
    Option (CcosMemory F) := do
  let existing ← openMemory t path
  let printed ← existing.toJson
  let persisted ← printed.reparse
  let base := mergeGraph t (MemoryGraph.ofSnapshot persisted.graph) graph
  let merged := sources.toList.foldl (fun all (id, source) => all.insert id source) persisted.sources
  let printed ← CcosMemory.toJson
    { graph := base, eventLog := persisted.eventLog, distLog := persisted.distLog, sources := merged,
      needsResolution := false }
  CcosMemory.fromJson printed

def freshMemory (graph : MemoryGraph F) (sources : BTreeMap Str Str) : Option (CcosMemory F) :=
  CcosMemory.fromJson ⟨graph.snapshot, [], DistributedEventLog.new, sources⟩

def assemble (t : MigrateTools F) (cfg : MigrateConfig) (graph : MemoryGraph F)
    (sources : BTreeMap Str Str) (report : MigrationReport) : Option (CcosMemory F) :=
  match cfg.extendFrom with
  | some path => extendMemory t path graph sources
  | none => if report.nodesDocuments > 0 then freshMemory graph sources else some .new

def ingestCode (t : MigrateTools F) (mem : CcosMemory F) (code : List (Str × Str)) : CcosMemory F :=
  code.foldl (fun mem (uri, content) => mem.ingestDeferred t.toTools uri content) mem

/-- `resolve`, with the import edges it counts. -/
def resolveCounted (t : MigrateTools F) (mem : CcosMemory F) : CcosMemory F × Nat :=
  (mem.resolve t.toTools, if mem.needsResolution then mem.graph.resolveAll.2 else 0)

/-! ## Verification -/

omit [Scalar F] in
/-- A document's text is compared by its hash. A code file only has to have a node. -/
def verifyEntry (t : MigrateTools F) (mem : CcosMemory F) (report : MigrationReport)
    (entry : ManifestEntry M) : MigrationReport :=
  match mem.graph.nodes[entry.nodeId]? with
  | none =>
    { report with
      hashMismatches := report.hashMismatches + 1
      warnings := report.warnings ++ ["record ".toList ++ entry.id ++ " produced no node".toList] }
  | some node =>
    if startsWith "doc:".toList entry.nodeId ∧ t.sha256 node.content ≠ entry.contentSha256 then
      { report with
        hashMismatches := report.hashMismatches + 1
        warnings := report.warnings ++ ["content hash mismatch for ".toList ++ entry.id] }
    else report

omit [Scalar F] in
def verifyEntries (t : MigrateTools F) (mem : CcosMemory F) (manifest : List (ManifestEntry M))
    (report : MigrationReport) : MigrationReport :=
  manifest.foldl (verifyEntry t mem) report

def migrateRecords (t : MigrateTools F) (records : List (CmbRecord F M)) (cfg : MigrateConfig) :
    Except MigrateError (MigrationOutcome F M) :=
  let p := firstPass t cfg.mode records
  let (graph, report) := secondPass t cfg.mode records p
  match assemble t cfg graph p.sources report with
  | none => .error .assemble
  | some mem =>
    let (mem, crossFileEdges) := resolveCounted t (ingestCode t mem p.code)
    let report := { report with crossFileEdges }
    let report := if cfg.verify then verifyEntries t mem p.manifest report else report
    .ok ⟨mem, { report with lossless := report.hashMismatches = 0 }, p.manifest, p.embeddings⟩

end

end Ccos.Migrate
