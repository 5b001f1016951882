import Ccos.Memory.Stocked

/-!
# Runs over the three tiers

With a swap file from the start, no run loses a node or has it twice, and every COLD node pages in. That needs contents
that are no entry's text: a content which is, shares a blob with the entry, and takes it along.
-/

open Std

set_option linter.unusedSectionVars false

namespace Ccos

/-- The operations that move nodes between the tiers, and what they work on. -/
inductive TierOp (F : Type)
  | upsertNode (id : NodeId) (label content : Str) (nodeType : NodeType)
  | addEdge (source target : NodeId) (weight : F) (edgeType : EdgeType)
  | removeNode (id : NodeId)
  | enforcePaging
  | pageIn (id : NodeId)
  | setColdContentBudget (budget : Option Nat)
  | setColdResidentBudget (budget : Option Nat)

section

variable {F : Type} [Scalar F]

/-- Upserted contents are no entry's text, and weights are numbers that JSON has. -/
def TierOp.Safe (h : Host F) : TierOp F → Prop
  | .upsertNode _ _ content nodeType => h.Apart nodeType content
  | .addEdge _ _ weight _ => (Scalar.reparse weight).isSome
  | _ => True

/-- The ids that were upserted and not removed since. -/
def TierOp.live (ids : Finset NodeId) : TierOp F → Finset NodeId
  | .upsertNode id _ _ _ => insert id ids
  | .removeNode id => ids.erase id
  | _ => ids

def liveIds (ops : List (TierOp F)) : Finset NodeId := ops.foldl TierOp.live ∅

end

namespace MemoryGraph

variable {F : Type} [Scalar F]

def tierStep (h : Host F) (g : MemoryGraph F) : TierOp F → MemoryGraph F
  | .upsertNode id label content nodeType => g.upsertNode h id label content nodeType
  | .addEdge s t w ty => (g.addEdge s t w ty).1
  | .removeNode id => g.removeNode id
  | .enforcePaging => g.enforcePaging h
  | .pageIn id => (g.pageIn h id).1
  | .setColdContentBudget budget => g.setColdContentBudget h budget
  | .setColdResidentBudget budget => g.setColdResidentBudget h budget

def tierRun (h : Host F) (g : MemoryGraph F) (ops : List (TierOp F)) : MemoryGraph F := ops.foldl (tierStep h) g

/-! ## What is promised -/

inductive Tier
  | resident | full | deep
  deriving DecidableEq, Repr

def LiesIn (g : MemoryGraph F) (id : NodeId) : Tier → Prop
  | .resident => id ∈ g.nodes
  | .full => id ∈ g.cold
  | .deep => g.deepContains id = true

/-- A COLD entry or a husk names the blob. -/
def References (g : MemoryGraph F) (hash : Hash) : Prop :=
  (∃ (id : NodeId) (c : ColdNode F) (s : SpillRef), g.cold[id]? = some c ∧ c.spill = some s ∧ s.hash = hash) ∨
    ∃ (id : NodeId) (husk : DeepHusk), (g.deepGet id).1 = some husk ∧ husk.body.hash = hash

def HasBlob (g : MemoryGraph F) (hash : Hash) : Prop := ∃ cfg, g.spill = some cfg ∧ hash ∈ cfg.store.dir

structure NothingLost (h : Host F) (g : MemoryGraph F) (live : Finset NodeId) : Prop where
  oneTier : ∀ id ∈ live, ∃! tier, g.LiesIn id tier
  blobs : ∀ hash, g.References hash → g.HasBlob hash
  pagesIn : ∀ id, g.isCold id = true → (g.pageIn h id).2 = true

section Steps

variable {h : Host F} {g : MemoryGraph F} {husks : BTreeMap NodeId DeepHusk} {live : Finset NodeId}

theorem Stocked.oneTier (hg : Stocked h g husks) {id : NodeId} (hknown : g.Known id) : ∃! tier, g.LiesIn id tier := by
  have hdeep : g.deepContains id = true ↔ id ∈ husks := by
    rw [deepContains, hg.index.get, ← ExtTreeMap.mem_iff_isSome_getElem?]
  rw [Known, isCold_iff hg.index] at hknown
  have hresident := hg.resident id
  have hfull := hg.full id
  rcases hknown with hnode | hcold | hhusk
  · refine ⟨.resident, hnode, fun tier htier => ?_⟩
    cases tier with
    | resident => rfl
    | full => exact absurd htier (hresident hnode).1
    | deep => exact absurd (hdeep.mp htier) (hresident hnode).2
  · refine ⟨.full, hcold, fun tier htier => ?_⟩
    cases tier with
    | resident => exact absurd hcold (hresident htier).1
    | full => rfl
    | deep => exact absurd (hdeep.mp htier) (hfull hcold)
  · refine ⟨.deep, hdeep.mpr hhusk, fun tier htier => ?_⟩
    cases tier with
    | resident => exact absurd hhusk (hresident htier).2
    | full => exact absurd hhusk (hfull htier)
    | deep => rfl

theorem Stocked.hasBlob (hg : Stocked h g husks) {hash : Hash} (href : g.References hash) : g.HasBlob hash := by
  have hfound : ∀ {text}, g.spillGet h hash = some text → g.HasBlob hash := fun hget => by
    obtain ⟨cfg, hcfg, hread⟩ := Option.bind_eq_some_iff.mp hget
    exact ⟨cfg, hcfg, ColdSpill.mem_of_get hread⟩
  rcases href with ⟨id, c, s, hc, hs, rfl⟩ | ⟨id, husk, hhusk, rfl⟩
  · obtain ⟨entry, hentry, -⟩ := hg.entries id c hc
    exact hfound (foldInline_stub hs hentry).1
  · obtain ⟨entry, hentry, -⟩ := hg.bodies id husk ((hg.index.get id).symm.trans hhusk)
    exact hfound hentry

theorem Stocked.nothingLost (hread : h.ReadsBack) (hg : Stocked h g husks) (hlive : g.KnowsExactly (· ∈ live)) :
    g.NothingLost h live where
  oneTier id hid := hg.oneTier ((hlive.iff id).mp hid)
  blobs _ href := hg.hasBlob href
  pagesIn id hcold := (hg.pageIn hread id).1.trans hcold

/-! ## Runs -/

theorem Stocked.tierStep (hread : h.ReadsBack) (hg : Stocked h g husks) {op : TierOp F} (hsafe : op.Safe h) :
    ∃ husks', Stocked h (g.tierStep h op) husks' := by
  cases op with
  | upsertNode id label content nodeType => exact hg.upsertNode hread id label hsafe
  | addEdge s t w ty => exact ⟨husks, hg.addEdge s t hsafe ty⟩
  | removeNode id => exact ⟨_, hg.removeNode hread id⟩
  | enforcePaging => exact exists_stocked_enforcePaging hread hg
  | pageIn id => exact (hg.pageIn hread id).2
  | setColdContentBudget budget => exact (stocked_moves hread).enforceColdContentBudget ⟨husks, { hg with }⟩
  | setColdResidentBudget budget => exact (stocked_moves hread).enforceColdResidentBudget ⟨husks, { hg with }⟩

theorem KnowsExactly.tierStep (hlive : g.KnowsExactly (· ∈ live)) (op : TierOp F) :
    (g.tierStep h op).KnowsExactly (· ∈ op.live live) := by
  have hbudgets : ∀ {g' : MemoryGraph F}, g'.nodes = g.nodes → g'.cold = g.cold → g'.huskStore = g.huskStore →
      g'.KnowsExactly (· ∈ live) := fun hnodes hcold =>
    hlive.inPlace (fun _ => by rw [hnodes]) (fun _ => by rw [hcold])
  cases op with
  | upsertNode id label content nodeType =>
    exact (hlive.upsertNode id label content nodeType).of_iff fun k => Finset.mem_insert
  | removeNode id => exact (hlive.removeNode id).of_iff fun k => Finset.mem_erase
  | addEdge s t w ty => exact hlive.onlyEdges (addEdge_onlyEdges g s t w ty)
  | enforcePaging => exact hlive.enforcePaging
  | pageIn id => exact hlive.pageIn id
  | setColdContentBudget budget => exact (knowsExactly_moves h _).enforceColdContentBudget (hbudgets rfl rfl rfl)
  | setColdResidentBudget budget => exact (knowsExactly_moves h _).enforceColdResidentBudget (hbudgets rfl rfl rfl)

theorem Stocked.tierRun (hread : h.ReadsBack) {ops : List (TierOp F)} (hsafe : ∀ op ∈ ops, op.Safe h)
    (hg : Stocked h g husks) (hlive : g.KnowsExactly (· ∈ live)) :
    ∃ husks', Stocked h (g.tierRun h ops) husks' ∧ (g.tierRun h ops).KnowsExactly (· ∈ ops.foldl TierOp.live live) := by
  induction ops generalizing g husks live with
  | nil => exact ⟨husks, hg, hlive⟩
  | cons op ops ih =>
    obtain ⟨husks', hg'⟩ := hg.tierStep hread (hsafe op List.mem_cons_self)
    exact ih (fun op' hop' => hsafe op' (List.mem_cons_of_mem op hop')) hg' (hlive.tierStep op)

theorem knowsExactly_attach (threshold : F) (cap inlineBudget : Nat) :
    ((new threshold cap).attachColdSpill h inlineBudget).KnowsExactly (· ∈ (∅ : Finset NodeId)) := by
  unfold attachColdSpill
  refine (knowsExactly_moves h _).enforceColdResidentBudget ((knowsExactly_moves h _).enforceColdBudget ?_)
  refine ⟨∅, HuskStore.holds_new 4096 1024, fun id => ?_⟩
  simp [new]

end Steps

/-- Every live node is in one tier, every blob that is named is there, and every COLD node pages in. -/
theorem tiers_lose_nothing (h : Host F) (hread : h.ReadsBack) (threshold : F) (cap inlineBudget : Nat)
    (ops : List (TierOp F)) (hsafe : ∀ op ∈ ops, op.Safe h) :
    (((new threshold cap).attachColdSpill h inlineBudget).tierRun h ops).NothingLost h (liveIds ops) := by
  obtain ⟨husks, hstart⟩ := Stocked.attach hread threshold cap inlineBudget
  obtain ⟨husks', hg, hlive⟩ := hstart.tierRun hread hsafe (knowsExactly_attach threshold cap inlineBudget)
  exact hg.nothingLost hread hlive

end MemoryGraph

/-! ## A run that loses a node -/

def readNodeType (text : Str) : Option NodeType :=
  [NodeType.module, .symbol, .contextBlock, .analysisResult, .codeRegion, .unknown].find? (·.debug == text)

theorem readNodeType_debug (nodeType : NodeType) : readNodeType nodeType.debug = some nodeType := by
  cases nodeType <;> decide

def freshTyped : List Str → Option (ColdNode ℚ)
  | nodeType :: texts => do
    let entry ← freshEntry texts
    let nodeType ← readNodeType nodeType
    some { entry with node := { entry.node with nodeType } }
  | [] => none

/-- A host for concrete runs whose entry texts keep the type of the node too. -/
def Host.typedOnDisk : Host ℚ :=
  { Host.onDisk with
    printCold := fun c => (c.node.nodeType.debug :: entryTexts c).flatMap quoted
    parseCold := fun text => (readQuoted [] text).bind freshTyped }

theorem readQuoted_typedOnDisk (c : ColdNode ℚ) :
    readQuoted [] (Host.typedOnDisk.printCold c) = some (c.node.nodeType.debug :: entryTexts c) :=
  readQuoted_quoted _

theorem freshEntry_content {texts : List Str} {d : ColdNode ℚ} {id label content : Str}
    (h : freshEntry (id :: label :: content :: texts) = some d) : d.spill = none ∧ d.node.content = content := by
  obtain ⟨edges, -, rfl⟩ := Option.map_eq_some_iff.mp h
  exact ⟨rfl, rfl⟩

theorem isSome_reparse_rat (c : ColdNode ℚ) : c.reparse.isSome := by
  refine isSome_reparse_cold.mpr ⟨isSome_reparse_node.mpr ⟨rfl, rfl, rfl, ?_⟩, fun e _ => rfl⟩
  unfold reparseTrust
  split <;> rfl

theorem Host.typedOnDisk_readsBack : Host.typedOnDisk.ReadsBack := by
  refine ⟨fun _ _ => rfl, fun _ _ heq => heq, decodeUtf8_utf8, fun c hinline _ => ?_⟩
  obtain ⟨d, hd, -⟩ := freshEntry_entryTexts c
  obtain ⟨hspill, hcontent⟩ := freshEntry_content hd
  refine ⟨{ d with node := { d.node with nodeType := c.node.nodeType } }, ?_, hspill, isSome_reparse_rat _, rfl, hcontent⟩
  change (readQuoted [] (Host.typedOnDisk.printCold c)).bind freshTyped = _
  rw [readQuoted_typedOnDisk, Option.bind_some, freshTyped, hd, readNodeType_debug]
  rfl

/-- A text that is not quoted is no entry's. -/
theorem Host.typedOnDisk_apart {text : Str} (htext : readQuoted [] text = none) (nodeType : NodeType) :
    Host.typedOnDisk.Apart nodeType text := by
  have hsame : Host.typedOnDisk.compactContent nodeType.debug = id := rfl
  intro times c _ heq
  rw [hsame, Function.iterate_id, id] at heq
  rw [heq, readQuoted_typedOnDisk] at htext
  cases htext

/-- Under a cap of one, `a` and `b` are spilled and then deep-spilled. -/
def twoTiersDown : List (TierOp ℚ) :=
  [.upsertNode ['a'] [] ['x'] .symbol, .upsertNode ['b'] [] ['y'] .symbol, .setColdResidentBudget (some 0),
    .upsertNode ['c'] [] ['z'] .symbol]

/-- The text of the entry of `a`. -/
def entryOfA : Str :=
  Host.typedOnDisk.printCold
    { node := freshSymbol ['a'] [] ['x'], edges := [], spill := none, compacted := false, atFloor := false }

/-- The same, but the content of `b` is the text of the entry of `a`. -/
def sharedBlob : List (TierOp ℚ) :=
  [.upsertNode ['a'] [] ['x'] .symbol, .upsertNode ['b'] [] entryOfA .symbol, .setColdResidentBudget (some 0),
    .upsertNode ['c'] [] ['z'] .symbol]

namespace MemoryGraph

theorem tiers_lose_nothing_two_tiers_down :
    (((new (1 / 5) 1).attachColdSpill Host.typedOnDisk 0).tierRun Host.typedOnDisk twoTiersDown).NothingLost
      Host.typedOnDisk (liveIds twoTiersDown) := by
  refine tiers_lose_nothing Host.typedOnDisk Host.typedOnDisk_readsBack (1 / 5) 1 0 twoTiersDown ?_
  simp only [twoTiersDown, List.forall_mem_cons, List.not_mem_nil, false_imp_iff, implies_true, and_true, TierOp.Safe]
  exact ⟨Host.typedOnDisk_apart rfl _, Host.typedOnDisk_apart rfl _, trivial, Host.typedOnDisk_apart rfl _⟩

/-- When `b` goes deeper, its content blob is released, and it is the body of `a`. -/
theorem shared_blob_is_lost : Host.typedOnDisk.ReadsBack ∧
    ¬(((new (1 / 5) 1).attachColdSpill Host.typedOnDisk 0).tierRun Host.typedOnDisk sharedBlob).NothingLost
      Host.typedOnDisk (liveIds sharedBlob) := by
  refine ⟨Host.typedOnDisk_readsBack, fun hkept => ?_⟩
  have hcold : (((new (1 / 5) 1).attachColdSpill Host.typedOnDisk 0).tierRun Host.typedOnDisk sharedBlob).isCold ['a'] =
      true := by decide +kernel
  have hmiss : ((((new (1 / 5) 1).attachColdSpill Host.typedOnDisk 0).tierRun Host.typedOnDisk sharedBlob).pageIn
      Host.typedOnDisk ['a']).2 = false := by decide +kernel
  rw [hkept.pagesIn ['a'] hcold] at hmiss
  cases hmiss

end MemoryGraph

end Ccos
