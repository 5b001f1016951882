import Ccos.Memory.Run
import Ccos.Log.EventLog
import Ccos.Log.Distributed

/-!
# From a parsed file to graph operations

The extraction of modules, imports, symbols and references is left open. What a parse result does to
the graph does not depend on the graph, so it is a list of graph operations.
-/

open Std

namespace Ccos

/-! ## Lines of a source -/

/-- Where a scan for comments stands. -/
inductive ScanMode
  | code
  | string (escaped : Bool)
  | block (afterStar : Bool)

def stripFrom : ScanMode → Str → Str
  | _, [] => []
  | .code, '/' :: '/' :: _ => []
  | .code, '/' :: '*' :: cs => stripFrom (.block false) cs
  | .code, c :: cs => c :: stripFrom (if c = '"' then .string false else .code) cs
  | .string escaped, c :: cs =>
    c :: stripFrom
      (if escaped then .string false
        else if c = '\\' then .string true
        else if c = '"' then .code
        else .string false) cs
  | .block afterStar, c :: cs =>
    stripFrom (if afterStar && c = '/' then .code else .block (c = '*')) cs

/-- A line without its comments. Comment marks inside string literals stay. -/
def stripComments (line : Str) : Str := trim (stripFrom .code line)

/-- The line of the closing brace, counting from the given line and depth. -/
def closeBrace : Int → List Char → Int × Bool
  | depth, [] => (depth, false)
  | depth, c :: cs =>
    if c = '{' then closeBrace (depth + 1) cs
    else if c = '}' then (if depth - 1 = 0 then (0, true) else closeBrace (depth - 1) cs)
    else closeBrace depth cs

def closeLine : Nat → Int → List Str → Option Nat
  | _, _, [] => none
  | i, depth, line :: rest =>
    match closeBrace depth (stripComments line) with
    | (_, true) => some i
    | (depth, false) => closeLine (i + 1) depth rest

/-- What ends the signature: an opening brace, or a semicolon that ends a brace-less item. -/
inductive SignatureEnd
  | brace (offset : Nat)
  | semicolon (offset : Nat)

def signatureEnd : Nat → List Str → Option SignatureEnd
  | _, [] => none
  | off, line :: rest =>
    let stripped := stripComments line
    if '{' ∈ stripped then some (.brace off)
    else if (trimEnd stripped).getLast? = some ';' then some (.semicolon off)
    else signatureEnd (off + 1) rest

/-- The inclusive 1-based lines of the item that begins at `startLine`. -/
def symbolSpan (ls : List Str) (startLine : Nat) : Nat × Nat :=
  let n := ls.length
  if startLine = 0 ∨ startLine > n then
    let line := min (max startLine 1) (max n 1)
    (line, line)
  else
    let s0 := startLine - 1
    match signatureEnd 0 ((ls.drop s0).take 8) with
    | none => (startLine, startLine)
    | some (.semicolon off) => (startLine, s0 + off + 1)
    | some (.brace off) => (startLine, (closeLine (s0 + off + 1) 0 (ls.drop (s0 + off))).getD n)

/-! ## Parse results -/

inductive ModuleDecl
  | mk (name : Str) (line : Nat) (children : List ModuleDecl)

structure UseStatement where
  fullPath : Str
  line : Nat
  components : List Str
  deriving DecidableEq

inductive SymbolKind
  | function | struct | enum | trait | impl | const | static | type | macroRules | other
  deriving DecidableEq, Repr

structure SymbolDecl where
  name : Str
  line : Nat
  kind : SymbolKind
  deriving DecidableEq

/-- What the parser extracts from a source. A call names its caller and callee, a data reference its
reader and the name it reads. -/
structure Extracted where
  modules : List ModuleDecl
  useStatements : List UseStatement
  symbols : List SymbolDecl
  callSites : List PendingRef
  dataRefs : List PendingRef
  importAliases : List (Str × Str)
  methodDefs : List (Str × Str)

def Extracted.empty : Extracted where
  modules := []
  useStatements := []
  symbols := []
  callSites := []
  dataRefs := []
  importAliases := []
  methodDefs := []

structure ParseResult extends Extracted where
  filePath : Str
  fileHash : Hash

/-! ## The operations of one file -/

section

variable {F : Type} [Scalar F]

open Scalar

/-- The trimmed line of a declaration; empty past the end of the file. -/
def lineAt (ls : List Str) (line : Nat) : Str := ((ls[line - 1]?).map trim).getD []

/-- The signature lines that the header shows: the first non-empty ones, up to the cap. -/
def shownSignatures (cap : Nat) (ls : List Str) (symbols : List SymbolDecl) : List Str :=
  ((symbols.map fun s => lineAt ls s.line).filter (· ≠ [])).take cap

/-- The content of a file node: its path and a signature line for each symbol. -/
def fileHeader (cap : Nat) (ls : List Str) (filePath : Str) (symbols : List SymbolDecl) : Str :=
  let shown := shownSignatures cap ls symbols
  "// ".toList ++ filePath ++ " — ".toList ++ natStr symbols.length ++ " symbols\n".toList
    ++ (shown.flatMap fun sig => sig ++ ['\n'])
    ++ (if symbols.length > shown.length then
          "// … (+".toList ++ natStr (symbols.length - shown.length) ++ " more)\n".toList
        else [])

mutual

/-- A module node with its edge from the parent, then its children. -/
def moduleOps (F : Type) [Scalar F] (filePath : Str) (ls : List Str) (parent : NodeId) (weight : ℚ) :
    ModuleDecl → List (GraphOp F)
  | .mk name line children =>
    let id := scopedId "mod:".toList filePath name
    .upsertNode id name (lineAt ls line) .module :: .addEdge parent id (lit weight) .contains
      :: moduleTreeOps F filePath ls id children

def moduleTreeOps (F : Type) [Scalar F] (filePath : Str) (ls : List Str) (parent : NodeId) :
    List ModuleDecl → List (GraphOp F)
  | [] => []
  | child :: rest =>
    moduleOps F filePath ls parent (85 / 100) child ++ moduleTreeOps F filePath ls parent rest

end

def useOps (filePath : Str) (ls : List Str) (u : UseStatement) : List (GraphOp F) :=
  let fileId := "file:".toList ++ filePath
  let useId := scopedId "use:".toList filePath u.fullPath
  [.upsertNode useId ("use ".toList ++ u.fullPath) (lineAt ls u.line) .symbol,
    .addEdge fileId useId (lit 0.5) .dependsOn] ++
  match u.components.head? with
  | none => []
  | some root =>
    let depId := "dep:".toList ++ root
    [.upsertNode depId root ("External dependency: ".toList ++ root) .symbol,
      .addEdge useId depId (lit 0.7) .dependsOn]

/-- The source span of a symbol. -/
def symbolBody (ls : List Str) (line : Nat) : Str :=
  if ls.isEmpty then []
  else
    let (start, finish) := symbolSpan ls line
    let s := min (max start 1) ls.length
    let e := min (max finish s) ls.length
    joinWith ['\n'] ((ls.take e).drop (s - 1))

def symbolOps (filePath : Str) (ls : List Str) (s : SymbolDecl) : List (GraphOp F) :=
  let symId := scopedId "sym:".toList filePath s.name
  [.upsertNode symId s.name (symbolBody ls s.line) .symbol,
    .addEdge ("file:".toList ++ filePath) symId (lit 0.6) .contains] ++
  if s.kind ∈ [.static, .const] then [.markDataSymbol symId] else []

/-- `ASTParser::update_memory_graph`: the graph calls for one parsed file, in order. -/
def updateOps (headerSymbolCap : Nat) (r : ParseResult) (source : Str) : List (GraphOp F) :=
  let ls := lines source
  let fileId := "file:".toList ++ r.filePath
  .upsertNode fileId r.filePath (fileHeader headerSymbolCap ls r.filePath r.symbols) .module
    :: (r.modules.flatMap (moduleOps F r.filePath ls fileId (9 / 10))
      ++ r.useStatements.flatMap (useOps r.filePath ls)
      ++ r.symbols.flatMap (symbolOps r.filePath ls)
      ++ [.setPendingCalls r.filePath r.callSites, .setPendingDataRefs r.filePath r.dataRefs,
        .setPendingAliases r.filePath r.importAliases, .setPendingMethods r.filePath r.methodDefs])

end

end Ccos

/-!
## The external memory

A memory is a graph, the sources it was built from, and two hash-chained logs. The random ids and
the wall clock of the log entries are left out: no hash covers them. What an operation reports back
to its caller (counts, windows, anomalies) is left out too, as no operation reads it.
-/

open Std

namespace Ccos

/-! ## What the memory uses -/

inductive AnomalyKind
  | bidiControl | tagChar | zeroWidth | control | otherFormat | confusable
  deriving DecidableEq, Repr

/-- The parser, the sanitizer and the injection classifier are left open, as functions of the text. -/
structure Tools (F : Type) extends Host F where
  /-- The parse of a file, by path and source. -/
  extract : Str → Str → Extracted
  /-- The clean form of a source and the kinds of what was found in it. -/
  defang : Str → Str × List AnomalyKind
  injectionProbability : Str → F
  /-- SHA-256 of bytes. -/
  sha256Bytes : List UInt8 → Hash
  payloadJson : EventPayload F → Str
  /-- `format!("{x}")`. -/
  displayFloat : F → Str
  headerSymbolCap : Nat

def Tools.log {F : Type} (t : Tools F) : LogTools F where
  sha256 := t.sha256
  payloadJson := t.payloadJson

/-- Tools for concrete runs on clean, unflagged sources. A text is its own hash. -/
def Tools.plain (extract : Str → Str → Extracted) : Tools ℚ where
  toHost := Host.ramOnly
  extract := extract
  defang source := (source, [])
  injectionProbability _ := 0
  sha256Bytes bytes := bytes.map fun b => Char.ofNat b.toNat
  payloadJson
    | .parsing path hash _ _ _ =>
      "\x7b\"Parsing\":\x7b\"file_path\":\"".toList ++ path ++ "\",\"file_hash\":\"".toList ++ hash
        ++ "\",\"modules_found\":0,\"uses_found\":0,\"symbols_found\":0\x7d\x7d".toList
    | _ => []
  displayFloat x := natStr x.num.toNat
  headerSymbolCap := 24

/-! ## The memory -/

structure CcosMemory (F : Type) where
  graph : MemoryGraph F
  eventLog : EventLog F
  distLog : DistributedEventLog
  sources : BTreeMap Str Str
  /-- Resolution is pending. Runtime only. -/
  needsResolution : Bool

/-- A path without the `file:` an agent may have copied along. -/
def stripFile (uri : Str) : Str := (stripPrefix "file:".toList uri).getD uri

def fileKey (path : Str) : Str := "file:".toList ++ path

/-- Known id prefixes stay; a bare path becomes a file id. -/
def normalize (uri : Str) : NodeId :=
  if ["file:", "sym:", "mod:", "use:", "dep:"].any fun p => startsWith p.toList uri then uri
  else fileKey uri

namespace CcosMemory

variable {F : Type} [Scalar F]

open Scalar

def new : CcosMemory F where
  graph := MemoryGraph.new (lit 0.2) 5000
  eventLog := []
  distLog := DistributedEventLog.new
  sources := ∅
  needsResolution := false

/-- Graph calls, in order. -/
def onGraph (t : Tools F) (m : CcosMemory F) (ops : List (GraphOp F)) : CcosMemory F :=
  { m with graph := m.graph.run t.toHost ops }

/-! ## Ingestion -/

def evictFileNodes (g : MemoryGraph F) (filePath : Str) : List (GraphOp F) :=
  (g.ids.filter (MemoryGraph.ownedBy filePath)).map .removeNode

/-- The graph calls of `process_delta`: a new file is parsed in, a changed one replaces its old
nodes, and an unchanged one does nothing. -/
def processDelta (t : Tools F) (g : MemoryGraph F) (filePath : Str) (old : Option Str) (new : Str) :
    List (GraphOp F) :=
  let result : ParseResult := { t.extract filePath new with filePath, fileHash := t.sha256 new }
  match old with
  | none => updateOps t.headerSymbolCap result new
  | some old =>
    if t.sha256 old = t.sha256 new then []
    else evictFileNodes g filePath ++ updateOps t.headerSymbolCap result new

/-- A flagged source discounts the trust of its nodes. A bidi or tag character caps it. -/
def taintOps (t : Tools F) (path source : Str) (found : List AnomalyKind) : List (GraphOp F) :=
  let score := t.injectionProbability source
  let hard := found.any fun k => k == .bidiControl || k == .tagChar
  if ge score (lit 0.5) || hard then
    let trust := if ge score (lit 0.5) then clamp01 (lit 1 - score) else lit 1
    [.stampFileTrust path (if hard then Scalar.min trust (lit 0.5) else trust)]
  else []

/-- The graph calls of one deferred ingest. -/
def ingestOps (t : Tools F) (m : CcosMemory F) (uri source : Str) : List (GraphOp F) :=
  let path := stripFile uri
  let (clean, found) := t.defang source
  processDelta t m.graph path m.sources[fileKey path]? clean ++ taintOps t path clean found

def ingestDeferred (t : Tools F) (m : CcosMemory F) (uri source : Str) : CcosMemory F :=
  let path := stripFile uri
  let clean := (t.defang source).1
  { graph := m.graph.run t.toHost (ingestOps t m uri source)
    eventLog := m.eventLog.append t.log .parsing (.parsing path (t.sha256 clean) 0 0 0)
    distLog := m.distLog.append t.sha256Bytes (t.sha256 clean) "external-memory".toList
    sources := m.sources.insert (fileKey path) clean
    needsResolution := true }

def resolve (t : Tools F) (m : CcosMemory F) : CcosMemory F :=
  if m.needsResolution then { m.onGraph t [.resolveAll] with needsResolution := false } else m

def ingestSource (t : Tools F) (m : CcosMemory F) (uri source : Str) : CcosMemory F :=
  (m.ingestDeferred t uri source).resolve t

/-- Compares against the clean form, which is what is kept. -/
def fileUnchanged (t : Tools F) (m : CcosMemory F) (uri source : Str) : Bool :=
  m.sources[fileKey (stripFile uri)]? == some (t.defang source).1

/-! ## Assertions -/

/-- An empty context block, unless the node is resident. -/
def ensureNode (t : Tools F) (m : CcosMemory F) (id : NodeId) : CcosMemory F :=
  if id ∈ m.graph.nodes then m else m.onGraph t [.upsertNode id id [] .contextBlock]

def polarity (supports : Bool) : EdgeType := if supports then .supports else .contradicts

def assertionText (t : Tools F) (evidence claim : NodeId) (supports : Bool) (authority : F) : Str :=
  (if supports then "support" else "contradict").toList ++ ':' :: evidence ++ "->".toList ++ claim
    ++ ':' :: t.displayFloat authority

def assertEvidence (t : Tools F) (m : CcosMemory F) (evidence claim : NodeId) (supports : Bool)
    (weight : F) : CcosMemory F :=
  let authority := clamp01 weight
  let m := ((m.ensureNode t evidence).ensureNode t claim).onGraph t
    [.addEdge evidence claim authority (polarity supports)]
  { m with distLog :=
      m.distLog.append t.sha256Bytes (t.sha256 (assertionText t evidence claim supports authority)) "assertion".toList }

/-! ## Failures, paging and tuning -/

/-- A demoted node is paged in first. An unknown one is an error, and nothing happens to it. -/
def signalFailure (t : Tools F) (m : CcosMemory F) (node : Str) (depth : Nat) : CcosMemory F :=
  let id := normalize node
  let press : List (GraphOp F) := [.setFailureRelevance id (lit 0.95), .propagateFailure id 0 depth]
  if id ∈ m.graph.nodes then m.onGraph t press
  else if (m.graph.pageIn t.toHost id).2 then m.onGraph t (.pageIn id :: press)
  else m.onGraph t [.pageIn id]

/-- Pages in a node and the COLD neighbours it had before. -/
def ensureResident (t : Tools F) (m : CcosMemory F) (uri : Str) : CcosMemory F :=
  let id := normalize uri
  m.onGraph t (.pageIn id :: (m.graph.coldNeighbours id).map .pageIn)

def setMaxResident (t : Tools F) (m : CcosMemory F) (cap : Nat) : CcosMemory F :=
  m.onGraph t [.setMaxInMemoryNodes (Nat.max cap 1), .enforcePaging]

def setScoringWeights (t : Tools F) (m : CcosMemory F) (weights : ScoringWeights F) : CcosMemory F :=
  m.onGraph t [.setScoringWeights weights]

def tick (t : Tools F) (m : CcosMemory F) : CcosMemory F := m.onGraph t [.tick]

/-! ## The swap file -/

/-- Attaching a store whose directories may hold something already. -/
def attachColdSpill (t : Tools F) (m : CcosMemory F) (store : ColdSpill) (husks : HuskStore DeepHusk)
    (radj : HuskStore Unit) (inlineBudget : Nat) : CcosMemory F :=
  let g := { m.graph with
    spill := some { store, inlineBudget }, huskStore := some husks, radj := some radj }
  { m with graph := (g.enforceColdBudget t.toHost).enforceColdResidentBudget t.toHost }

def setColdContentBudget (t : Tools F) (m : CcosMemory F) (budget : Option Nat) : CcosMemory F :=
  { m with graph := m.graph.setColdContentBudget t.toHost budget }

/-! ## Snapshots -/

/-- The serialized memory. -/
structure Persisted (F : Type) where
  graph : GraphSnapshot F
  eventLog : EventLog F
  distLog : DistributedEventLog
  sources : BTreeMap Str Str

/-- A trained eviction policy does not serialize. -/
def toJson (m : CcosMemory F) : Option (Persisted F) :=
  if m.graph.evictionPolicy.isTrained then none
  else some
    { graph := m.graph.snapshot, eventLog := m.eventLog, distLog := m.distLog, sources := m.sources }

/-- What JSON gives back. -/
def Persisted.reparse (p : Persisted F) : Option (Persisted F) := do
  let graph ← p.graph.reparse
  let eventLog ← p.eventLog.reparse
  some { p with graph, eventLog }

def ofPersisted (p : Persisted F) : CcosMemory F where
  graph := MemoryGraph.ofSnapshot p.graph
  eventLog := p.eventLog
  distLog := p.distLog
  sources := p.sources
  needsResolution := false

/-- The memory that a serialized one gives back. -/
def fromJson (p : Persisted F) : Option (CcosMemory F) := p.reparse.map ofPersisted

/-- What `state_fingerprint` hashes. -/
structure Fingerprint (F : Type) where
  graph : GraphSnapshot F
  sources : BTreeMap Str Str
  chainHead : Hash
  distHead : Hash

def stateFingerprint (m : CcosMemory F) : Fingerprint F where
  graph := m.graph.snapshot
  sources := m.sources
  chainHead := m.eventLog.chainHead
  distHead := m.distLog.head

end CcosMemory

end Ccos
