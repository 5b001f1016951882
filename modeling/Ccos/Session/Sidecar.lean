import Ccos.Session.Restore

/-!
# What a sidecar brings in

Opening checks the own timeline of a sidecar. It takes the foreign logs as they are, and compares the
replayed memory with the loaded one by its counts only.
-/

open Std

set_option linter.unusedSectionVars false

namespace Ccos

variable {F : Type} [Scalar F]

/-- The memory that a sidecar's timeline replays to. -/
def PersistedTimeline.memory (t : SessionTools F) (tl : PersistedTimeline F) : CcosMemory F :=
  replay t ((AgentSession.ofTimeline CcosMemory.new tl).baselineMemory t) tl.ops

/-- Tools for concrete runs that read the listed files, and print the first listed snapshot. -/
def WorkspaceTools.reading (snapshots : List (Str × CcosMemory.Persisted ℚ))
    (timelines : List (Str × PersistedTimeline ℚ)) : WorkspaceTools ℚ where
  toSyncTools := { SyncTools.plain fun _ _ => .empty with
    persistedJson := fun _ => (snapshots.head?.map (·.1)).getD []
    parsePersisted := fun text => snapshots.lookup text }
  timelineJson _ := []
  parseTimeline text := timelines.lookup text

/-- The sidecar of a session that has recorded nothing itself. -/
def PersistedTimeline.foreignOnly (foreign : BTreeMap Str (ForeignLog ℚ)) : PersistedTimeline ℚ where
  baseline := none
  ops := []
  folded := 0
  chain := []
  anchor := genesis
  baselineHash := []
  agent := []
  foreign := foreign
  knownKeys := ∅

theorem exists_of_isOk {E A : Type} {x : Except E A} (h : x.isOk = true) : ∃ a, x = .ok a := by
  cases x with
  | error err => cases h
  | ok a => exact ⟨a, rfl⟩

namespace AgentSession

/-! ## Which sidecars are kept -/

theorem replayTo_len (t : SessionTools F) (s : AgentSession F) :
    s.replayTo t s.len = replay t (s.baselineMemory t) s.ops := by
  rw [replayTo, Nat.min_self, len, Nat.add_sub_cancel_left, List.take_length]

theorem replayTo_ofTimeline {t : SessionTools F} {tl trusted : PersistedTimeline F} (live : CcosMemory F)
    (h : trustTimeline t tl = .ok trusted) :
    (ofTimeline live trusted).replayTo t (ofTimeline live trusted).len = tl.memory t := by
  obtain ⟨hops, hbaseline, -⟩ := trustTimeline_ok h
  rw [replayTo_len]
  simp only [PersistedTimeline.memory, ofTimeline, baselineMemory, hops, hbaseline]

/-- A sidecar is kept when it has no tail, or replays to the counts of the snapshot. -/
def Kept (t : SessionTools F) (tl : PersistedTimeline F) (live : CcosMemory F) : Prop :=
  tl.ops = [] ∨ counts (tl.memory t) = counts live

/-- An open session has the timeline of a kept sidecar, or one that starts at the snapshot. The foreign
logs are the sidecar's either way. -/
theorem open_cases {t : WorkspaceTools F} {ws : Workspace} {s : AgentSession F}
    (h : openWorkspace t ws = .ok s) :
    openMemory t.toSessionTools ws.snapshot = .ok s.live ∧
      (∀ tl, restored t ws = some tl → s.foreign = tl.foreign) ∧
      (restored t ws = none → s.foreign = ∅) ∧
      ((∃ tl, restored t ws = some tl ∧ Kept t.toSessionTools tl s.live ∧
          s.replayTo t.toSessionTools s.len = tl.memory t.toSessionTools) ∨
        (∀ tl, restored t ws = some tl → ¬ Kept t.toSessionTools tl s.live) ∧
          ∃ persisted, s.live.toJson = some persisted ∧ s.ops = [] ∧
            s.baseline = some (t.persistedJson persisted)) := by
  obtain ⟨live, hlive, hopen⟩ := openWorkspace_ok h
  cases hrestored : restored t ws with
  | none =>
    rw [hrestored] at hopen
    obtain ⟨persisted, hjson, rfl⟩ := restartTimeline_ok hopen
    refine ⟨hlive, fun tl htl => (by cases htl), fun _ => rfl, Or.inr ⟨fun tl htl => (by cases htl), ?_⟩⟩
    exact ⟨persisted, hjson, rfl, rfl⟩
  | some tl =>
    rw [hrestored] at hopen
    obtain ⟨trusted, htrust, hguard⟩ := hopen
    have hreplay := replayTo_ofTimeline live htrust
    obtain ⟨hops, -, -, hforeign, -⟩ := trustTimeline_ok htrust
    have hsame : ∀ tl', some tl = some tl' → tl = tl' := fun _ => Option.some.inj
    unfold guardTimeline at hguard
    split at hguard
    · rename_i hdropped
      obtain ⟨persisted, hjson, rfl⟩ := restartTimeline_ok hguard
      rw [timelineReproducesMemory, hreplay, decide_eq_false_iff_not] at hdropped
      refine ⟨hlive, ?_, fun hnone => (by cases hnone), Or.inr ⟨?_, persisted, hjson, rfl, rfl⟩⟩
      · rintro tl' htl
        rw [← hsame tl' htl]
        exact hforeign
      · rintro tl' htl hkept
        rw [← hsame tl' htl] at hkept
        rcases hkept with hnil | hcounts
        · exact hdropped.1 (hops.trans hnil)
        · exact hdropped.2 hcounts
    · rename_i hkept
      rw [timelineReproducesMemory, hreplay, decide_eq_false_iff_not] at hkept
      obtain rfl := Except.ok.inj hguard
      refine ⟨hlive, ?_, fun hnone => (by cases hnone), Or.inl ⟨tl, rfl, ?_, hreplay⟩⟩
      · rintro tl' htl
        rw [← hsame tl' htl]
        exact hforeign
      · by_cases hnil : tl.ops = []
        · exact Or.inl hnil
        · right
          by_contra hcounts
          exact hkept ⟨fun htail => hnil (hops.symm.trans htail), hcounts⟩

/-- Opening with a sidecar that parses. -/
theorem openWorkspace_of_read {t : WorkspaceTools F} {ws : Workspace} {live : CcosMemory F}
    {tl : PersistedTimeline F} (hlive : openMemory t.toSessionTools ws.snapshot = .ok live)
    (hrestored : restored t ws = some tl) :
    openWorkspace t ws =
      (trustTimeline t.toSessionTools tl).map (ofTimeline live) >>= guardTimeline t.toSessionTools := by
  unfold openWorkspace
  rw [hlive, hrestored]
  rfl

section Reading

variable (snapshots : List (Str × CcosMemory.Persisted ℚ)) (timelines : List (Str × PersistedTimeline ℚ))
variable (text : Str) (p : CcosMemory.Persisted ℚ)

theorem restored_reading (snapshot : Option Str) (tl : PersistedTimeline ℚ) :
    restored (.reading snapshots [(text, tl)]) { snapshot, oplog := some text } = some tl := by
  simp [restored, WorkspaceTools.reading]

theorem parsePersisted_reading :
    (WorkspaceTools.reading [(text, p)] timelines).parsePersisted text = some p := by
  simp [WorkspaceTools.reading]

theorem persistedJson_reading (q : CcosMemory.Persisted ℚ) :
    (WorkspaceTools.reading [(text, p)] timelines).persistedJson q = text := rfl

theorem openMemory_reading :
    openMemory (WorkspaceTools.reading [(text, p)] timelines).toSessionTools (some text) =
      .ok (CcosMemory.ofPersisted p) := by
  simp [openMemory, parsePersisted_reading]

theorem openWorkspace_reading (text' : Str) (tl : PersistedTimeline ℚ) :
    openWorkspace (.reading [(text, p)] [(text', tl)]) { snapshot := some text, oplog := some text' } =
      (trustTimeline (WorkspaceTools.reading [(text, p)] [(text', tl)]).toSessionTools tl).map
          (ofTimeline (CcosMemory.ofPersisted p)) >>=
        guardTimeline (WorkspaceTools.reading [(text, p)] [(text', tl)]).toSessionTools :=
  openWorkspace_of_read (openMemory_reading _ _ _) (restored_reading _ _ _ _)

end Reading

/-! ## Foreign logs -/

theorem getElem?_streams_orElse (s : AgentSession F) (agent : Str) :
    s.streams[agent]? = ((s.foreign[agent]?).map (·.ops)).orElse fun _ =>
      if agent = (if s.agent = [] then "local".toList else s.agent) then some s.ops else none := by
  unfold streams
  have h := getElem?_foldl_insert_toList (fun log : ForeignLog F => log.ops) s.foreign
    ((∅ : BTreeMap Str (List (Op F))).insert (if s.agent = [] then "local".toList else s.agent) s.ops) agent
  rw [h, getElem?_insert_eq, ExtTreeMap.getElem?_empty]

/-- A merged view replays the own operations and those of the foreign logs. -/
theorem getElem?_streams_cases {s : AgentSession F} {agent : Str} {ops : List (Op F)}
    (h : s.streams[agent]? = some ops) :
    ops = s.ops ∨ ∃ log : ForeignLog F, s.foreign[agent]? = some log ∧ log.ops = ops := by
  rw [getElem?_streams_orElse] at h
  cases hheld : s.foreign[agent]? with
  | some log =>
    rw [hheld] at h
    exact Or.inr ⟨log, rfl, Option.some.inj h⟩
  | none =>
    rw [hheld] at h
    simp only [Option.map_none, Option.orElse_eq_or, Option.none_or, Option.ite_none_right_eq_some] at h
    exact Or.inl (Option.some.inj h.2).symm

/-- Every foreign log is chained from genesis, and so is what a merged view replays of other agents. -/
def ForeignVerified (t : SessionTools F) (s : AgentSession F) : Prop :=
  (∀ (agent : Str) (log : ForeignLog F), s.foreign[agent]? = some log →
    log.chain.length = log.ops.length ∧ log.chain = chainOver t genesis 0 log.ops) ∧
  ∀ (agent : Str) (ops : List (Op F)), s.streams[agent]? = some ops →
    ops = s.ops ∨ ∃ log : ForeignLog F, s.foreign[agent]? = some log ∧ log.ops = ops ∧
      log.chain = chainOver t genesis 0 log.ops

theorem foreignVerified_iff {t : SessionTools F} {s : AgentSession F} :
    s.ForeignVerified t ↔ s.ForeignChained t := by
  constructor
  · intro h agent log hheld
    exact (h.1 agent log hheld).2
  · intro h
    refine ⟨fun agent log hheld => ?_, fun agent ops hstream => ?_⟩
    · have hchain := h agent log hheld
      exact ⟨by rw [hchain, chainOver, HashChain.length_linksOf], hchain⟩
    · rcases getElem?_streams_cases hstream with hown | ⟨log, hheld, hops⟩
      · exact Or.inl hown
      · exact Or.inr ⟨log, hheld, hops, h agent log hheld⟩

def unlinkedText : Str :=
  ("\x7b\"baseline\":null,\"ops\":[],\"folded\":0,\"chain\":[],\"anchor\":\"GENESIS\",\"baseline_hash\":\"\","
    ++ "\"foreign\":\x7b\"mallory\":\x7b\"ops\":[\x7b\"Ingest\":\x7b\"uri\":\"a.rs\",\"source\":\"\"\x7d\x7d],"
    ++ "\"chain\":[]\x7d\x7d\x7d").toList

/-- A sidecar with a foreign operation and no link. -/
def unlinked : PersistedTimeline ℚ :=
  .foreignOnly ((∅ : BTreeMap Str (ForeignLog ℚ)).insert "mallory".toList
    { ops := [.ingest "a.rs".toList []], chain := [] })

def linkedText : Str :=
  ("\x7b\"baseline\":null,\"ops\":[],\"folded\":0,\"chain\":[],\"anchor\":\"GENESIS\",\"baseline_hash\":\"\","
    ++ "\"foreign\":\x7b\"peer\":\x7b\"ops\":[],\"chain\":[]\x7d\x7d\x7d").toList

def linked : PersistedTimeline ℚ :=
  .foreignOnly ((∅ : BTreeMap Str (ForeignLog ℚ)).insert "peer".toList { ops := [], chain := [] })

/-- The same resident nodes, edges and sources. -/
structure Agree (a b : CcosMemory F) : Prop where
  nodes : ∀ id : NodeId, (a.graph.nodes[id]?).map (fun n => (n.content, n.failureRelevance)) =
    (b.graph.nodes[id]?).map fun n => (n.content, n.failureRelevance)
  edges : ∀ e, e ∈ a.graph.edges.map GraphEdge.triple ↔ e ∈ b.graph.edges.map GraphEdge.triple
  sources : a.sources = b.sources

/-- A memory that its own JSON gives back. -/
def GivenBack (m : CcosMemory F) : Prop :=
  Agree ((m.toJson.bind CcosMemory.fromJson).getD CcosMemory.new) m

/-- The sidecar is kept and replays to the snapshot, or the snapshot starts a timeline and survives its
own JSON. -/
def Reproducible (t : WorkspaceTools F) (ws : Workspace) (live : CcosMemory F) : Prop :=
  (∀ tl, restored t ws = some tl → Kept t.toSessionTools tl live → Agree (tl.memory t.toSessionTools) live) ∧
  ((∀ tl, restored t ws = some tl → ¬ Kept t.toSessionTools tl live) → GivenBack live)

/-- A memory with one node, as a snapshot that another program wrote. -/
def oneNodeText : Str :=
  ("\x7b\"graph\":\x7b\"nodes\":\x7b\"sym:a.rs:f\":\x7b\"id\":\"sym:a.rs:f\",\"label\":\"f\",\"content\":\"fn f() \x7b\x7d\","
    ++ "\"node_type\":\"Symbol\",\"base_importance\":0.5,\"failure_relevance\":0.0,\"recency\":1.0,"
    ++ "\"access_count\":1,\"created_at\":1,\"last_accessed\":1\x7d\x7d,\"edges\":[],\"paging_threshold\":0.2,"
    ++ "\"max_in_memory_nodes\":5000,\"clock\":1\x7d,\"event_log\":\x7b\"session_id\":\"s\",\"events\":[]\x7d,"
    ++ "\"dist_log\":\x7b\"events\":[],\"hash_chain\":[],\"next_id\":0\x7d,\"sources\":\x7b\x7d\x7d").toList

def oneNode : CcosMemory.Persisted ℚ where
  graph :=
    { (CcosMemory.new : CcosMemory ℚ).graph.snapshot with
      nodes := (∅ : BTreeMap NodeId (GraphNode ℚ)).insert "sym:a.rs:f".toList
        { id := "sym:a.rs:f".toList
          label := "f".toList
          content := "fn f() \x7b\x7d".toList
          nodeType := .symbol
          baseImportance := 1 / 2
          failureRelevance := 0
          recency := 1
          accessCount := 1
          createdAt := 1
          lastAccessed := 1
          state := .stable
          trust := 1 }
      clock := 1 }
  eventLog := []
  distLog := DistributedEventLog.new
  sources := ∅

def emptyTailText : Str :=
  ("\x7b\"baseline\":null,\"ops\":[],\"folded\":0,\"chain\":[],\"anchor\":\"GENESIS\","
    ++ "\"baseline_hash\":\"\"\x7d").toList

def emptyTail : PersistedTimeline ℚ := .foreignOnly ∅

def noNodeText : Str :=
  ("\x7b\"graph\":\x7b\"nodes\":\x7b\x7d,\"edges\":[],\"paging_threshold\":0.2,\"max_in_memory_nodes\":5000,\"clock\":0,"
    ++ "\"scoring_weights\":\x7b\"w_base\":0.15,\"w_failure\":0.5,\"w_recency\":0.3,\"w_access\":0.05,"
    ++ "\"failure_decay\":0.8,\"failure_fanout\":6.0\x7d,\"eviction_policy\":\x7b\"q\":\x7b\x7d,\"alpha\":0.1,\"gamma\":0.9,"
    ++ "\"updates\":0\x7d,\"cold\":\x7b\x7d\x7d,\"event_log\":\x7b\"session_id\":\"s\",\"events\":[]\x7d,"
    ++ "\"dist_log\":\x7b\"events\":[],\"hash_chain\":[],\"next_id\":0\x7d,\"sources\":\x7b\x7d\x7d").toList

def noNode : CcosMemory.Persisted ℚ where
  graph := (CcosMemory.new : CcosMemory ℚ).graph.snapshot
  eventLog := []
  distLog := DistributedEventLog.new
  sources := ∅

end AgentSession

end Ccos
