import Ccos.Memory.Paging

/-!
# Resolution of imports, calls and data references

Resolution prunes the edges it owns and builds them again from the resident ids and the pending
tables. The three passes only read node ids and tables, so each is the list of edges it asks for,
added one by one.
-/

open Std

namespace Ccos

/-! ## Paths and modules -/

/-- `src/`-relative path to module path; `mod`, `lib` and `main` name their directory. -/
def moduleOf (after : Str) : Option Str :=
  (stripSuffix ".rs".toList after).bind fun p =>
    let segs := (split ['/'] p).filter (· != [])
    segs.getLast?.map fun last =>
      if last ∈ ["mod".toList, "lib".toList, "main".toList] then joinWith colons segs.dropLast
      else joinWith colons segs

/-- The source file of a `sym:<file>:<name>` id. -/
def symFile (id : NodeId) : Option Str :=
  ((stripPrefix "sym:".toList id).bind (rsplitOnce colon)).map (·.1)

abbrev CrateModule := Str × Str

def crateAndModule (filePath : Str) : Option CrateModule :=
  let (krate, after) :=
    match splitOnce "/src/".toList filePath with
    | some (before, after) =>
      ((lastPiece ['/'] before).map fun c => if c = '-' then '_' else c, after)
    | none => ([], (stripPrefix "src/".toList filePath).getD filePath)
  (moduleOf after).map fun m => (krate, m)

/-- The target crate of a path and the module segments below its root. -/
def parseModpath (importerCrate usepath : Str) : Str × List Str :=
  let (targetCrate, rest) :=
    match (stripPrefix "crate::".toList usepath).orElse fun _ =>
      (stripPrefix "self::".toList usepath).orElse fun _ => stripPrefix "super::".toList usepath with
    | some r => (importerCrate, r)
    | none =>
      if usepath ∈ ["crate".toList, "self".toList, "super".toList] then (importerCrate, [])
      else (splitOnce colons usepath).getD (usepath, [])
  (targetCrate, (split colons rest).filter (· != []))

/-! ## The indices of a resolution -/

abbrev FileIndex := BTreeMap CrateModule NodeId
abbrev Defs := BTreeMap (Str × Str × Str) NodeId
abbrev Scope := BTreeMap Str (List Str)
abbrev Names := BTreeMap Str (List NodeId)

/-- `(crate, module)` to the file that defines it. A later id of the same key wins. -/
def fileIndex (ids : List NodeId) : FileIndex :=
  ids.foldl
    (fun m id =>
      match (stripPrefix "file:".toList id).bind crateAndModule with
      | some km => m.insert km id
      | none => m)
    ∅

/-- The imports of every file. -/
def importScope (ids : List NodeId) : Scope :=
  ids.foldl
    (fun m id =>
      match (stripPrefix "use:".toList id).bind (splitOnce colon) with
      | some (file, usepath) => pushAt m file usepath
      | none => m)
    ∅

/-- `(crate, module, name)` to the symbol. -/
def symbolDefs (ids : List NodeId) : Defs :=
  ids.foldl
    (fun m id =>
      match (stripPrefix "sym:".toList id).bind (rsplitOnce colon) with
      | some (file, name) =>
        match crateAndModule file with
        | some (c, md) => m.insert (c, md, name) id
        | none => m
      | none => m)
    ∅

/-- Every symbol of a name, in id order: the source keeps their count and the first. -/
def symbolNames (ids : List NodeId) : Names :=
  ids.foldl
    (fun m id =>
      match (stripPrefix "sym:".toList id).bind (rsplitOnce colon) with
      | some (_, name) => pushAt m name id
      | none => m)
    ∅

/-- The data symbols of a name. Any id with a colon counts here. -/
def dataNames (ids : List NodeId) : Names :=
  ids.foldl
    (fun m id =>
      match rsplitOnce colon id with
      | some (_, name) => pushAt m name id
      | none => m)
    ∅

/-- The only symbol of a name. -/
def uniqueName (names : Names) (name : Str) : Option NodeId :=
  match names[name]? with
  | some [id] => some id
  | _ => none

/-! ## Resolution of one path -/

/-- Tries the full module path, then its ancestors. An import of the same crate needs one segment. -/
def resolveUse (importerCrate usepath : Str) (index : FileIndex) : Option NodeId :=
  let (targetCrate, segs) := parseModpath importerCrate usepath
  let minLen := if targetCrate = importerCrate then 1 else 0
  (((List.range (segs.length + 1)).drop minLen).reverse).findSome? fun len =>
    index[(targetCrate, joinWith colons (segs.take len))]?

/-- The file whose module is exactly the path. -/
def resolveModuleExact (importerCrate path : Str) (index : FileIndex) : Option NodeId :=
  let (targetCrate, segs) := parseModpath importerCrate path
  index[(targetCrate, joinWith colons segs)]?

/-- A local submodule of the caller's own crate. -/
def resolveBareModpath (pre name fcrate : Str) (index : FileIndex) (defs : Defs) : Option NodeId :=
  match index[(fcrate, pre)]? with
  | none => none
  | some _ => defs[(fcrate, pre, name)]?

/-- The symbol of a name in the file of a resolved module. -/
def symbolIn (name : Str) (defs : Defs) (file : NodeId) : Option NodeId :=
  ((stripPrefix "file:".toList file).bind crateAndModule).bind fun (c, m) => defs[(c, m, name)]?

def resolveQualified (file path fcrate : Str) (scope : Scope) (index : FileIndex) (defs : Defs) :
    Option NodeId :=
  match rsplitOnce colons path with
  | none => none
  | some (pre, name) =>
    let exactly (abs : Str) : Option NodeId :=
      (resolveModuleExact fcrate abs index).bind (symbolIn name defs)
    if pre = "crate".toList ∨ startsWith "crate::".toList pre then exactly pre
    else
      let first := firstPiece colons pre
      let rest := (stripPrefix first pre).getD []
      match ((scope[file]?).getD []).filter fun u => lastPiece colons u == first with
      | [usePath] => exactly (usePath ++ rest)
      | [] => resolveBareModpath pre name fcrate index defs
      | _ => none

/-- Tiers A, B and C for a bare name: the imports that bring it in, the own module, and the only
symbol of that name anywhere. Two candidates among the imports end the search. -/
def resolveBare (name file fcrate fmodule : Str) (scope : Scope) (index : FileIndex) (defs : Defs)
    (names : Names) : Option NodeId :=
  let candidates := sortDedup <| ((scope[file]?).getD []).filterMap fun usepath =>
    if lastPiece colons usepath != name then none
    else (rsplitOnce colons usepath).bind fun (modulePath, _) =>
      (resolveUse fcrate modulePath index).bind (symbolIn name defs)
  match candidates with
  | [sym] => some sym
  | [] => (defs[(fcrate, fmodule, name)]?).orElse fun _ => uniqueName names name
  | _ => none

/-- The first binding of a local name. -/
def aliasTarget (aliases : List (Str × Str)) (name : Str) : Option Str := aliases.lookup name

/-- Rewrites the leading segment of a path when it is a renamed import. -/
def rewriteAlias (aliases : List (Str × Str)) (path : Str) : Option Str :=
  (aliasTarget aliases (firstPiece colons path)).map fun target =>
    match splitOnce colons path with
    | some (_, rest) => target ++ colons ++ rest
    | none => target

/-- The definition of a `(type, method)` that no other impl block shares. The count is over all
recorded methods, the target must be resident. -/
def typeMethod (resident : NodeId → Bool) (methods : BTreeMap Str (List (Str × Str)))
    (ty method : Str) : Option NodeId :=
  let hits := methods.toList.flatMap fun (file, ms) =>
    (ms.filter (· == (ty, method))).map fun _ => scopedId "sym:".toList file method
  match hits with
  | [sym] => if resident sym then some sym else none
  | _ => none

/-- Everything a call resolves against. -/
structure CallIndex where
  scope : Scope
  fileIndex : FileIndex
  defs : Defs
  names : Names
  typeMethod : Str → Str → Option NodeId

/-- A call whose alias is rewritten already. -/
def resolveCallee (ix : CallIndex) (file callee fcrate fmodule : Str) : Option NodeId :=
  match stripPrefix "Self::".toList callee with
  | some method => ix.defs[(fcrate, fmodule, method)]?
  | none =>
    if containsStr colons callee then
      let moduleHit := resolveQualified file callee fcrate ix.scope ix.fileIndex ix.defs
      let typeHit :=
        match rsplitOnce colons callee with
        | some (ty, method) => if containsStr colons ty then none else ix.typeMethod ty method
        | none => none
      match moduleHit, typeHit with
      | some m, some t => if m = t then some m else none
      | some m, none => some m
      | none, some t => some t
      | none, none => none
    else resolveBare callee file fcrate fmodule ix.scope ix.fileIndex ix.defs ix.names

def resolveCall (ix : CallIndex) (aliases : List (Str × Str)) (file callee fcrate fmodule : Str) :
    Option NodeId :=
  resolveCallee ix file ((rewriteAlias aliases callee).getD callee) fcrate fmodule

def resolveDataRef (scope : Scope) (index : FileIndex) (defs : Defs) (names : Names)
    (aliases : List (Str × Str)) (file name fcrate fmodule : Str) : Option NodeId :=
  let rewritten := (rewriteAlias aliases name).getD name
  if containsStr colons rewritten then resolveQualified file rewritten fcrate scope index defs
  else resolveBare rewritten file fcrate fmodule scope index defs names

namespace MemoryGraph

variable {F : Type} [Scalar F]

open Scalar

/-! ## The three passes -/

/-- An importer and the file that defines the module it imports. -/
def importLinks (ids : List NodeId) (index : FileIndex) : List (NodeId × NodeId × EdgeType) :=
  ids.filterMap fun id =>
    (stripPrefix "use:".toList id).bind fun rest => (splitOnce colon rest).bind fun (file, usepath) =>
      let importer := "file:".toList ++ file
      if importer ∉ ids then none
      else
        let importerCrate := ((crateAndModule file).map (·.1)).getD []
        (resolveUse importerCrate usepath index).bind fun target =>
          if target = importer then none else some (importer, target, EdgeType.dependsOn)

/-- A parent module's file and its sub-module's file. -/
def hierarchyLinks (index : FileIndex) : List (NodeId × NodeId × EdgeType) :=
  index.toList.filterMap fun ((krate, module), child) =>
    if module = [] then none
    else
      let parentModule := ((rsplitOnce colons module).map (·.1)).getD []
      (index[(krate, parentModule)]?).bind fun parent =>
        if parent = child then none else some (parent, child, EdgeType.contains)

def importEdges (ids : List NodeId) : List (NodeId × NodeId × F × EdgeType) :=
  let index := fileIndex ids
  (importLinks ids index ++ hierarchyLinks index).map fun (s, t, ty) => (s, t, lit 0.85, ty)

def callIndex (ids : List NodeId) (methods : BTreeMap Str (List (Str × Str))) : CallIndex where
  scope := importScope ids
  fileIndex := fileIndex ids
  defs := symbolDefs ids
  names := symbolNames ids
  typeMethod := typeMethod (fun id => decide (id ∈ ids)) methods

/-- The references of every file, resolved by `resolve file name crate module`, as edges from the
resident symbol that makes them. -/
def refLinks (ids : List NodeId) (refs : BTreeMap Str (List PendingRef))
    (resolve : Str → Str → Str → Str → Option NodeId) : List (NodeId × NodeId) :=
  sortDedup <| refs.toList.flatMap fun (file, uses) =>
    let (fcrate, fmodule) := (crateAndModule file).getD ([], [])
    uses.filterMap fun (user, name, _) =>
      let userSym := scopedId "sym:".toList file user
      if userSym ∉ ids then none
      else (resolve file name fcrate fmodule).bind fun t =>
        if t = userSym then none else some (userSym, t)

def aliasesOf (aliases : BTreeMap Str (List (Str × Str))) (file : Str) : List (Str × Str) :=
  (aliases[file]?).getD []

def callEdges (ids : List NodeId) (calls : BTreeMap Str (List PendingRef))
    (aliases methods : BTreeMap Str (List (Str × Str))) : List (NodeId × NodeId × F × EdgeType) :=
  let ix := callIndex ids methods
  (refLinks ids calls fun file callee c m =>
    resolveCall ix (aliasesOf aliases file) file callee c m).map fun (s, t) => (s, t, lit 0.75, .calls)

def dataFlowEdges (ids : List NodeId) (refs : BTreeMap Str (List PendingRef))
    (aliases : BTreeMap Str (List (Str × Str))) (dataSymbols : List NodeId) :
    List (NodeId × NodeId × F × EdgeType) :=
  let live := dataSymbols.filter (· ∈ ids)
  let scope := importScope ids
  let index := fileIndex ids
  let defs := symbolDefs live
  let names := dataNames live
  (refLinks ids refs fun file name c m =>
    resolveDataRef scope index defs names (aliasesOf aliases file) file name c m).map
    fun (s, t) => (s, t, lit 0.6, .dataFlow)

def linkModuleImports (g : MemoryGraph F) : MemoryGraph F × Nat := g.addEdges (importEdges g.ids)

def resolveSymbolCalls (g : MemoryGraph F) : MemoryGraph F × Nat :=
  g.addEdges (callEdges g.ids g.pendingCalls g.pendingAliases g.pendingMethods)

def resolveDataFlow (g : MemoryGraph F) : MemoryGraph F × Nat :=
  g.addEdges (dataFlowEdges g.ids g.pendingDataRefs g.pendingAliases g.dataSymbols.keys)

/-! ## Prune and rebuild -/

/-- An edge that resolution is about to build again. Calls and data flow are only pruned when the
references of their source file are still recorded. -/
def resolutionOwned (g : MemoryGraph F) (e : GraphEdge F) : Bool :=
  match e.edgeType with
  | .dependsOn | .contains => startsWith "file:".toList e.source && startsWith "file:".toList e.target
  | .calls => (symFile e.source).any g.pendingCalls.contains
  | .dataFlow => (symFile e.source).any g.pendingDataRefs.contains
  | _ => false

def pruneResolutionEdges (g : MemoryGraph F) : MemoryGraph F :=
  { g with edges := g.edges.filter (!g.resolutionOwned ·) }

/-- Prunes, then runs the three passes. Returns the number of import edges. -/
def resolveAll (g : MemoryGraph F) : MemoryGraph F × Nat :=
  let linked := g.pruneResolutionEdges.linkModuleImports
  (linked.1.resolveSymbolCalls.1.resolveDataFlow.1, linked.2)

theorem resolveAll_fst (g : MemoryGraph F) :
    g.resolveAll.1 =
      g.pruneResolutionEdges.linkModuleImports.1.resolveSymbolCalls.1.resolveDataFlow.1 := by
  simp only [resolveAll]

/-! ## Pending tables -/

/-- Replaces the entry of a file, or drops it when there is nothing to record. -/
def setPending {β : Type} (table : BTreeMap Str (List β)) (file : Str) (entries : List β) :
    BTreeMap Str (List β) :=
  if entries.isEmpty then table.erase file else table.insert file entries

def setPendingCalls (g : MemoryGraph F) (file : Str) (calls : List PendingRef) : MemoryGraph F :=
  { g with pendingCalls := setPending g.pendingCalls file calls }

def setPendingDataRefs (g : MemoryGraph F) (file : Str) (refs : List PendingRef) : MemoryGraph F :=
  { g with pendingDataRefs := setPending g.pendingDataRefs file refs }

def setPendingAliases (g : MemoryGraph F) (file : Str) (aliases : List (Str × Str)) : MemoryGraph F :=
  { g with pendingAliases := setPending g.pendingAliases file aliases }

def setPendingMethods (g : MemoryGraph F) (file : Str) (methods : List (Str × Str)) : MemoryGraph F :=
  { g with pendingMethods := setPending g.pendingMethods file methods }

def markDataSymbol (g : MemoryGraph F) (id : NodeId) : MemoryGraph F :=
  { g with dataSymbols := g.dataSymbols.insert id () }

end MemoryGraph

end Ccos
