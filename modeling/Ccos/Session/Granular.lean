import Ccos.Session.Scanned

/-!
# Declarations and their nodes

The node id of a declaration is made of its kind, its file and its name. Declarations of one kind with one name share a
node, and the last one is what it holds.
-/

open Std

namespace Ccos

/-! ## Declarations -/

mutual

/-- The name and the line of a module and of those inside it. -/
def ModuleDecl.nested : ModuleDecl → List (Str × Nat)
  | .mk name line children => (name, line) :: nestedTree children

def nestedTree : List ModuleDecl → List (Str × Nat)
  | [] => []
  | child :: rest => child.nested ++ nestedTree rest

end

/-- All modules of a file. -/
def Extracted.allModules (r : Extracted) : List (Str × Nat) := nestedTree r.modules

/-- An id with the content and the type of its node. -/
structure NodeText where
  id : NodeId
  content : Str
  nodeType : NodeType
  deriving DecidableEq

def moduleText (filePath : Str) (ls : List Str) (m : Str × Nat) : NodeText :=
  ⟨scopedId "mod:".toList filePath m.1, lineAt ls m.2, .module⟩

def useText (filePath : Str) (ls : List Str) (u : UseStatement) : NodeText :=
  ⟨scopedId "use:".toList filePath u.fullPath, lineAt ls u.line, .symbol⟩

def symbolText (filePath : Str) (ls : List Str) (s : SymbolDecl) : NodeText :=
  ⟨scopedId "sym:".toList filePath s.name, symbolBody ls s.line, .symbol⟩

def depText (root : Str) : NodeText := ⟨"dep:".toList ++ root, "External dependency: ".toList ++ root, .symbol⟩

section

variable {F : Type} [Scalar F]

/-! ## What the calls write -/

def GraphOp.written : GraphOp F → Option NodeText
  | .upsertNode id _ content nodeType => some ⟨id, content, nodeType⟩
  | _ => none

mutual

theorem moduleOps_written (filePath : Str) (ls : List Str) (parent : NodeId) (weight : ℚ) (m : ModuleDecl) :
    (moduleOps F filePath ls parent weight m).filterMap GraphOp.written = m.nested.map (moduleText filePath ls) := by
  cases m with
  | mk name line children =>
    have hchildren := moduleTreeOps_written filePath ls (scopedId "mod:".toList filePath name) children
    rw [moduleOps, ModuleDecl.nested]
    simp only [List.filterMap_cons, GraphOp.written, hchildren, List.map_cons, moduleText]

theorem moduleTreeOps_written (filePath : Str) (ls : List Str) (parent : NodeId) (children : List ModuleDecl) :
    (moduleTreeOps F filePath ls parent children).filterMap GraphOp.written =
      (nestedTree children).map (moduleText filePath ls) := by
  cases children with
  | nil =>
    rw [moduleTreeOps, nestedTree]
    rfl
  | cons child rest =>
    rw [moduleTreeOps, nestedTree, List.filterMap_append, List.map_append,
      moduleOps_written filePath ls parent _ child, moduleTreeOps_written filePath ls parent rest]

end

theorem flatMap_moduleOps_written (filePath : Str) (ls : List Str) (parent : NodeId) (weight : ℚ)
    (ms : List ModuleDecl) :
    (ms.flatMap (moduleOps F filePath ls parent weight)).filterMap GraphOp.written =
      (nestedTree ms).map (moduleText filePath ls) := by
  induction ms with
  | nil =>
    rw [nestedTree]
    rfl
  | cons m ms ih => rw [List.flatMap_cons, nestedTree, List.filterMap_append, List.map_append, ih, moduleOps_written]

theorem useOps_written (filePath : Str) (ls : List Str) (u : UseStatement) :
    (useOps filePath ls u : List (GraphOp F)).filterMap GraphOp.written =
      useText filePath ls u :: (u.components.head?.map depText).toList := by
  unfold useOps
  cases u.components.head? with
  | none => rfl
  | some root => rfl

theorem symbolOps_written (filePath : Str) (ls : List Str) (s : SymbolDecl) :
    (symbolOps filePath ls s : List (GraphOp F)).filterMap GraphOp.written = [symbolText filePath ls s] := by
  unfold symbolOps
  dsimp only
  by_cases hdata : s.kind ∈ [.static, .const]
  · rw [if_pos hdata]
    rfl
  · rw [if_neg hdata]
    rfl

/-- A file writes its header, its modules, its imports with their roots, and its symbols. -/
theorem mem_updateOps_written {cap : Nat} {r : ParseResult} {source : Str} {e : NodeText} :
    e ∈ (updateOps cap r source : List (GraphOp F)).filterMap GraphOp.written ↔
      e = ⟨"file:".toList ++ r.filePath, fileHeader cap (lines source) r.filePath r.symbols, .module⟩ ∨
      (∃ m ∈ r.allModules, moduleText r.filePath (lines source) m = e) ∨
      (∃ u ∈ r.useStatements, useText r.filePath (lines source) u = e ∨ ∃ root ∈ u.components.head?, depText root = e) ∨
      ∃ s ∈ r.symbols, symbolText r.filePath (lines source) s = e := by
  have huses : e ∈ (r.useStatements.flatMap (useOps (F := F) r.filePath (lines source))).filterMap GraphOp.written ↔
      ∃ u ∈ r.useStatements, useText r.filePath (lines source) u = e ∨ ∃ root ∈ u.components.head?, depText root = e := by
    simp only [List.filterMap_flatMap, useOps_written, List.mem_flatMap, List.mem_cons, Option.mem_toList,
      Option.map_eq_some_iff, Option.mem_def, eq_comm]
  have hsymbols : e ∈ (r.symbols.flatMap (symbolOps (F := F) r.filePath (lines source))).filterMap GraphOp.written ↔
      ∃ s ∈ r.symbols, symbolText r.filePath (lines source) s = e := by
    simp only [List.filterMap_flatMap, symbolOps_written, List.mem_flatMap, List.mem_singleton, eq_comm]
  unfold updateOps
  simp only [List.filterMap_cons, List.filterMap_append, GraphOp.written, List.filterMap_nil, List.append_nil,
    List.mem_cons, List.mem_append, flatMap_moduleOps_written, huses, hsymbols, List.mem_map, Extracted.allModules,
    or_assoc]

/-! ## What stays of it -/

namespace MemoryGraph

/-- The node of the text is resident, with its type and content. -/
def Shows (g : MemoryGraph F) (e : NodeText) : Prop :=
  ∃ n, g.nodes[e.id]? = some n ∧ n.content = e.content ∧ n.nodeType = e.nodeType

omit [Scalar F] in
theorem Shows.eq_of_id {g : MemoryGraph F} {e e' : NodeText} (h : g.Shows e) (h' : g.Shows e') (hid : e.id = e'.id) :
    e = e' := by
  obtain ⟨n, hn, hcontent, htype⟩ := h
  obtain ⟨n', hn', hcontent', htype'⟩ := h'
  rw [hid, hn', Option.some.injEq] at hn
  subst hn
  obtain ⟨id, content, nodeType⟩ := e
  obtain ⟨id', content', nodeType'⟩ := e'
  simp only at hid hcontent htype hcontent' htype'
  rw [hid, ← hcontent, ← hcontent', ← htype, ← htype']

theorem upserted_content (g : MemoryGraph F) (id : NodeId) (label content : Str) (nodeType : NodeType) :
    (g.upserted id label content nodeType).content = content ∧
      (g.upserted id label content nodeType).nodeType = nodeType := by
  unfold upserted
  split
  · exact ⟨rfl, rfl⟩
  · exact ⟨rfl, rfl⟩

theorem shows_step_of_written (h : Host F) {g : MemoryGraph F} {op : GraphOp F} {e : NodeText} (hroom : g.HasRoom op)
    (hw : op.written = some e) : (g.step h op).Shows e := by
  cases op with
  | upsertNode id label content nodeType =>
    obtain rfl : ⟨id, content, nodeType⟩ = e := Option.some.inj hw
    have hup := upserted_content (g.forgetColdShadow id) id label content nodeType
    refine ⟨(g.forgetColdShadow id).upserted id label content nodeType, ?_, hup.1, hup.2⟩
    rw [step, upsertNode_nodes h hroom, ExtTreeMap.getElem?_insert_self]
  | _ => cases hw

theorem shows_step_of_other (h : Host F) {g : MemoryGraph F} {op : GraphOp F} {e : NodeText} (hbuilds : op.Builds)
    (hroom : g.HasRoom op) (hother : ∀ e', op.written = some e' → e'.id ≠ e.id) (hs : g.Shows e) :
    (g.step h op).Shows e := by
  obtain ⟨n, hn, hcontent⟩ := hs
  refine ⟨n, ?_, hcontent⟩
  cases op with
  | upsertNode id label content nodeType =>
    have hne : id ≠ e.id := hother _ rfl
    rw [step, upsertNode_nodes h hroom, ExtTreeMap.getElem?_insert, if_neg, hn]
    exact fun heq => hne (compare_eq_iff_eq.mp heq)
  | addEdge source target weight edgeType => rw [step, addEdge_nodes, hn]
  | setPendingCalls | setPendingDataRefs | setPendingAliases | setPendingMethods | markDataSymbol => exact hn
  | _ => exact hbuilds.elim

/-- A text stays when no later one under its id differs. -/
theorem shows_run (h : Host F) {g : MemoryGraph F} {ops : List (GraphOp F)} {e : NodeText}
    (hbuilds : ∀ op ∈ ops, op.Builds) (hroom : Runs.EachStep (step h) HasRoom g ops)
    (hsame : ∀ e' ∈ ops.filterMap GraphOp.written, e'.id = e.id → e' = e)
    (hfrom : g.Shows e ∨ e ∈ ops.filterMap GraphOp.written) : (g.run h ops).Shows e := by
  induction ops generalizing g with
  | nil => exact hfrom.resolve_right List.not_mem_nil
  | cons op ops ih =>
    obtain ⟨hop, hops⟩ := List.forall_mem_cons.mp hbuilds
    rw [run_cons]
    cases hw : op.written with
    | none =>
      rw [List.filterMap_cons_none hw] at hsame hfrom
      refine ih hops hroom.2 hsame (hfrom.imp_left fun hs => ?_)
      exact shows_step_of_other h hop hroom.1 (by simp [hw]) hs
    | some e' =>
      rw [List.filterMap_cons_some hw] at hsame hfrom
      obtain ⟨hhead, htail⟩ := List.forall_mem_cons.mp hsame
      by_cases hid : e'.id = e.id
      · obtain rfl := hhead hid
        exact ih hops hroom.2 htail (.inl (shows_step_of_written h hroom.1 hw))
      · refine ih hops hroom.2 htail ?_
        rcases hfrom with hs | hmem
        · refine .inl (shows_step_of_other h hop hroom.1 (fun e'' hw' => ?_) hs)
          rw [hw, Option.some.injEq] at hw'
          rwa [← hw']
        · exact .inr ((List.mem_cons.mp hmem).resolve_left fun heq => hid (heq ▸ rfl))

end MemoryGraph

/-! ## Declarations that share a node -/

/-- Every declaration has a resident node of its kind with its own text. -/
structure KeepsDeclarations (g : MemoryGraph F) (r : ParseResult) (source : Str) : Prop where
  modules : ∀ m ∈ r.allModules, g.Shows (moduleText r.filePath (lines source) m)
  uses : ∀ u ∈ r.useStatements, g.Shows (useText r.filePath (lines source) u)
  symbols : ∀ s ∈ r.symbols, g.Shows (symbolText r.filePath (lines source) s)

/-- Declarations of one kind with one name have the same text. -/
structure NamesTell (r : ParseResult) (source : Str) : Prop where
  modules : ∀ a ∈ r.allModules, ∀ b ∈ r.allModules, a.1 = b.1 → lineAt (lines source) a.2 = lineAt (lines source) b.2
  uses : ∀ a ∈ r.useStatements, ∀ b ∈ r.useStatements, a.fullPath = b.fullPath →
    lineAt (lines source) a.line = lineAt (lines source) b.line
  symbols : ∀ a ∈ r.symbols, ∀ b ∈ r.symbols, a.name = b.name →
    symbolBody (lines source) a.line = symbolBody (lines source) b.line

theorem scopedId_inj {kind path x y : Str} (h : scopedId kind path x = scopedId kind path y) : x = y := by
  unfold scopedId at h
  simpa using h

/-- What is written under the id of a module is a module. -/
theorem NamesTell.moduleText_eq {r : ParseResult} {source : Str} (hnames : NamesTell r source) {cap : Nat}
    {a : Str × Nat} (ha : a ∈ r.allModules) {e : NodeText}
    (he : e ∈ (updateOps cap r source : List (GraphOp F)).filterMap GraphOp.written)
    (hid : e.id = (moduleText r.filePath (lines source) a).id) : e = moduleText r.filePath (lines source) a := by
  rcases mem_updateOps_written.mp he with rfl | ⟨m, hm, rfl⟩ | ⟨u, -, rfl | ⟨root, -, rfl⟩⟩ | ⟨s, -, rfl⟩
  · exact absurd hid (file_ne_scopedId (by simp) _ _ _)
  · unfold moduleText
    rw [scopedId_inj hid, hnames.modules m hm a ha (scopedId_inj hid)]
  · simp [useText, moduleText, scopedId] at hid
  · simp [depText, moduleText, scopedId] at hid
  · simp [symbolText, moduleText, scopedId] at hid

theorem NamesTell.useText_eq {r : ParseResult} {source : Str} (hnames : NamesTell r source) {cap : Nat}
    {a : UseStatement} (ha : a ∈ r.useStatements) {e : NodeText}
    (he : e ∈ (updateOps cap r source : List (GraphOp F)).filterMap GraphOp.written)
    (hid : e.id = (useText r.filePath (lines source) a).id) : e = useText r.filePath (lines source) a := by
  rcases mem_updateOps_written.mp he with rfl | ⟨m, -, rfl⟩ | ⟨u, hu, rfl | ⟨root, -, rfl⟩⟩ | ⟨s, -, rfl⟩
  · exact absurd hid (file_ne_scopedId (by simp) _ _ _)
  · simp [useText, moduleText, scopedId] at hid
  · unfold useText
    rw [scopedId_inj hid, hnames.uses u hu a ha (scopedId_inj hid)]
  · simp [depText, useText, scopedId] at hid
  · simp [symbolText, useText, scopedId] at hid

theorem NamesTell.symbolText_eq {r : ParseResult} {source : Str} (hnames : NamesTell r source) {cap : Nat}
    {a : SymbolDecl} (ha : a ∈ r.symbols) {e : NodeText}
    (he : e ∈ (updateOps cap r source : List (GraphOp F)).filterMap GraphOp.written)
    (hid : e.id = (symbolText r.filePath (lines source) a).id) : e = symbolText r.filePath (lines source) a := by
  rcases mem_updateOps_written.mp he with rfl | ⟨m, -, rfl⟩ | ⟨u, -, rfl | ⟨root, -, rfl⟩⟩ | ⟨s, hs, rfl⟩
  · exact absurd hid (file_ne_scopedId (by simp) _ _ _)
  · simp [symbolText, moduleText, scopedId] at hid
  · simp [symbolText, useText, scopedId] at hid
  · simp [depText, symbolText, scopedId] at hid
  · unfold symbolText
    rw [scopedId_inj hid, hnames.symbols s hs a ha (scopedId_inj hid)]

/-- With room for a file, all its declarations stay exactly when declarations of one kind with one name have the same
text. -/
theorem keeps_declarations_iff (h : Host F) (g : MemoryGraph F) (cap : Nat) (r : ParseResult) (source : Str)
    (hroom : Runs.EachStep (MemoryGraph.step h) MemoryGraph.HasRoom g (updateOps cap r source)) :
    KeepsDeclarations (g.run h (updateOps cap r source)) r source ↔ NamesTell r source := by
  have hbuilds : ∀ op ∈ (updateOps cap r source : List (GraphOp F)), op.Builds := fun op hop =>
    (updateOps_build cap r source op hop).1
  constructor
  · intro hkeeps
    refine ⟨fun a ha b hb hname => ?_, fun a ha b hb hname => ?_, fun a ha b hb hname => ?_⟩
    · have htext := (hkeeps.modules a ha).eq_of_id (hkeeps.modules b hb) (by rw [moduleText, hname, moduleText])
      exact (NodeText.mk.inj htext).2.1
    · have htext := (hkeeps.uses a ha).eq_of_id (hkeeps.uses b hb) (by rw [useText, hname, useText])
      exact (NodeText.mk.inj htext).2.1
    · have htext := (hkeeps.symbols a ha).eq_of_id (hkeeps.symbols b hb) (by rw [symbolText, hname, symbolText])
      exact (NodeText.mk.inj htext).2.1
  · intro hnames
    refine ⟨fun m hm => ?_, fun u hu => ?_, fun s hs => ?_⟩
    · refine MemoryGraph.shows_run h hbuilds hroom (fun e he hid => hnames.moduleText_eq hm he hid) (.inr ?_)
      exact mem_updateOps_written.mpr (.inr (.inl ⟨m, hm, rfl⟩))
    · refine MemoryGraph.shows_run h hbuilds hroom (fun e he hid => hnames.useText_eq hu he hid) (.inr ?_)
      exact mem_updateOps_written.mpr (.inr (.inr (.inl ⟨u, hu, .inl rfl⟩)))
    · refine MemoryGraph.shows_run h hbuilds hroom (fun e he hid => hnames.symbolText_eq hs he hid) (.inr ?_)
      exact mem_updateOps_written.mpr (.inr (.inr (.inr ⟨s, hs, rfl⟩)))

end

/-! ## A type and its implementation -/

namespace Sample

def fileOf (modules : List ModuleDecl) (useStatements : List UseStatement) (symbols : List SymbolDecl) : ParseResult :=
  { Extracted.empty with modules, useStatements, symbols, filePath := "a.rs".toList, fileHash := [] }

def ownNamesText : Str := "mod m;\nuse std::fmt;\nfn f() \x7b\x7d".toList

def ownNames : ParseResult :=
  fileOf [.mk ['m'] 1 []] [⟨"std::fmt".toList, 2, ["std".toList, "fmt".toList]⟩] [⟨['f'], 3, .function⟩]

theorem own_names_room : Runs.EachStep (MemoryGraph.step Host.ramOnly) MemoryGraph.HasRoom
    (MemoryGraph.new (1 / 5) 8) (updateOps 24 ownNames ownNamesText) := by
  have hroom : @decide _ (Runs.decidableEachStep (MemoryGraph.step Host.ramOnly) MemoryGraph.HasRoom
      (MemoryGraph.new (1 / 5 : ℚ) 8) (updateOps 24 ownNames ownNamesText)) = true := by decide
  exact of_decide_eq_true hroom

theorem own_names_keep : KeepsDeclarations
    ((MemoryGraph.new (1 / 5 : ℚ) 8).run Host.ramOnly (updateOps 24 ownNames ownNamesText)) ownNames ownNamesText :=
  (keeps_declarations_iff Host.ramOnly _ 24 ownNames ownNamesText own_names_room).mpr
    ⟨by decide, by decide, by decide⟩

def oneNameText : Str := "struct Foo;\nimpl Foo \x7b\n\x7d".toList

def oneName : ParseResult := fileOf [] [] [⟨"Foo".toList, 1, .struct⟩, ⟨"Foo".toList, 2, .impl⟩]

/-- The implementation overwrites the node of its type. -/
theorem impl_overwrites_type : ¬ ∀ (h : Host ℚ) (g : MemoryGraph ℚ) (cap : Nat) (r : ParseResult) (source : Str),
    Runs.EachStep (MemoryGraph.step h) MemoryGraph.HasRoom g (updateOps cap r source) →
      KeepsDeclarations (g.run h (updateOps cap r source)) r source := by
  intro hkeeps
  have hroom : @decide _ (Runs.decidableEachStep (MemoryGraph.step Host.ramOnly) MemoryGraph.HasRoom
      (MemoryGraph.new (1 / 5 : ℚ) 8) (updateOps 24 oneName oneNameText)) = true := by decide
  have hkept := hkeeps Host.ramOnly (MemoryGraph.new (1 / 5) 8) 24 oneName oneNameText (of_decide_eq_true hroom)
  have htype := hkept.symbols ⟨"Foo".toList, 1, .struct⟩ (by decide)
  have himpl := hkept.symbols ⟨"Foo".toList, 2, .impl⟩ (by decide)
  have hsame := (NodeText.mk.inj (htype.eq_of_id himpl rfl)).2.1
  exact absurd hsame (by decide)

end Sample

end Ccos
