import Ccos.Lib.Splits
import Ccos.Octasoma.Sharded
import Ccos.Session.Reingest

/-!
# Regions and files

The semantic index keeps one memory a region, and takes the region of a node from its id. The id scheme of the ingest
has four shapes, of which two keep their names in the region.
-/

open Std

namespace Ccos.Octasoma

/-- The kind goes, and the name of a symbol. -/
def regionOf (uri : Str) : Str :=
  let rest := match splitOnce [':'] uri with
    | some (_, r) => r
    | none => uri
  if startsWith "sym:".toList uri then
    match rsplitOnce [':'] rest with
    | some (path, _) => path
    | none => rest
  else rest

/-! ## The index over a graph -/

/-- What the index needs of the memory of a region. -/
structure RegionStore (S V D : Type) where
  embed : Str → Option V
  fresh : S
  insert : S → V → Str → Except Stop S
  nearest : S → V → Nat → Except Stop (List (Str × D))

namespace RegionStore

variable {S V D F : Type} (store : RegionStore S V D)

/-- A node that does not embed is left out. -/
def indexNodeIn (shards : Shards S) (region uri content : Str) : Except Stop (Shards S) :=
  match store.embed content with
  | none => .ok shards
  | some v => shards.entry region store.fresh fun s => store.insert s v uri

/-- The content-carrying nodes, in the order of their ids. -/
def contentEntries (g : MemoryGraph F) : List (Ccos.NodeId × GraphNode F) :=
  g.nodes.toList.filter fun e => e.2.content ≠ []

def indexEntry (shards : Shards S) (e : Ccos.NodeId × GraphNode F) : Except Stop (Shards S) :=
  store.indexNodeIn shards (regionOf e.1) e.1 e.2.content

def indexGraph (shards : Shards S) (g : MemoryGraph F) : Except Stop (Shards S × Nat) := do
  let entries := contentEntries g
  let shards ← entries.foldlM store.indexEntry shards
  return (shards, entries.length)

/-- A region without a memory has nothing near. -/
def recallFrom (memory : Option S) (query : Str) (k : Nat) : Except Stop (List (Str × D)) :=
  match memory with
  | none => .ok []
  | some s => match store.embed query with
    | none => .ok []
    | some v => store.nearest s v k

def recallScored (shards : Shards S) (region query : Str) (k : Nat) : Except Stop (List (Str × D)) :=
  store.recallFrom (shards.lookup region) query k

/-! ## The memory of a region -/

/-- The memory of a region, if it has one, after one more node. -/
def addNode (memory : Option S) (e : Ccos.NodeId × GraphNode F) : Except Stop (Option S) :=
  match store.embed e.2.content with
  | none => .ok memory
  | some v => (store.insert (memory.getD store.fresh) v e.1).map some

/-- The memory that some nodes build. -/
def ofNodes (entries : List (Ccos.NodeId × GraphNode F)) : Except Stop (Option S) := entries.foldlM store.addNode none

end RegionStore

theorem Shards.lookup_entry {α : Type} {region : Str} {fresh : α} {act : α → Except Stop α} {shards shards' : Shards α}
    (h : shards.entry region fresh act = .ok shards') :
    (act ((shards.lookup region).getD fresh)).map some = .ok (shards'.lookup region) ∧
      ∀ q ≠ region, shards'.lookup q = shards.lookup q := by
  induction shards generalizing shards' with
  | nil =>
    obtain ⟨a, ha, h⟩ := bind_eq_ok.mp h
    obtain rfl := Except.ok.inj h
    refine ⟨by simp [ha, Except.map], fun q hq => by simp [hq]⟩
  | cons shard rest ih =>
    obtain ⟨name, held⟩ := shard
    rw [Shards.entry] at h
    by_cases hregion : name = region
    · rw [if_pos hregion] at h
      obtain ⟨a, ha, h⟩ := bind_eq_ok.mp h
      obtain rfl := Except.ok.inj h
      subst hregion
      refine ⟨?_, fun q hq => ?_⟩
      · rw [List.lookup_cons_self, List.lookup_cons_self, Option.getD_some, ha]
        rfl
      · have hne : (q == name) = false := beq_eq_false_iff_ne.mpr hq
        rw [List.lookup_cons, List.lookup_cons, hne]
    · rw [if_neg hregion] at h
      obtain ⟨rest', hrest, h⟩ := bind_eq_ok.mp h
      obtain rfl := Except.ok.inj h
      obtain ⟨hsame, hother⟩ := ih hrest
      have hne : (region == name) = false := beq_eq_false_iff_ne.mpr (Ne.symm hregion)
      refine ⟨?_, fun q hq => ?_⟩
      · rw [List.lookup_cons, List.lookup_cons, hne]
        exact hsame
      · rw [List.lookup_cons, List.lookup_cons, hother q hq]

theorem Shards.entry_total {α : Type} (region : Str) (fresh : α) {act : α → Except Stop α}
    (hact : ∀ a, ∃ a', act a = .ok a') (shards : Shards α) :
    ∃ shards', shards.entry region fresh act = .ok shards' := by
  induction shards with
  | nil =>
    obtain ⟨a, ha⟩ := hact fresh
    exact ⟨[(region, a)], by simp [Shards.entry, ha, bind, Except.bind, pure, Except.pure]⟩
  | cons shard rest ih =>
    rw [Shards.entry]
    obtain ⟨a, ha⟩ := hact shard.2
    obtain ⟨rest', hrest⟩ := ih
    split
    · exact ⟨(shard.1, a) :: rest, by simp [ha, bind, Except.bind, pure, Except.pure]⟩
    · exact ⟨shard :: rest', by simp [hrest, bind, Except.bind, pure, Except.pure]⟩

namespace RegionStore

variable {S V D F : Type} {store : RegionStore S V D}

theorem lookup_indexEntry {shards shards' : Shards S} {e : Ccos.NodeId × GraphNode F}
    (h : store.indexEntry shards e = .ok shards') (p : Str) :
    if regionOf e.1 = p then store.addNode (shards.lookup p) e = .ok (shards'.lookup p)
    else shards'.lookup p = shards.lookup p := by
  unfold indexEntry indexNodeIn at h
  unfold addNode
  cases hv : store.embed e.2.content with
  | none =>
    rw [hv] at h
    obtain rfl := Except.ok.inj h
    split <;> rfl
  | some v =>
    rw [hv] at h
    obtain ⟨hsame, hother⟩ := Shards.lookup_entry h
    split
    · rename_i hregion
      subst hregion
      exact hsame
    · rename_i hregion
      exact hother p (Ne.symm hregion)

/-- A region holds what the nodes with that region build. -/
theorem lookup_foldlM {entries : List (Ccos.NodeId × GraphNode F)} {shards shards' : Shards S}
    (h : entries.foldlM store.indexEntry shards = .ok shards') (p : Str) :
    (entries.filter fun e => regionOf e.1 = p).foldlM store.addNode (shards.lookup p) = .ok (shards'.lookup p) := by
  induction entries generalizing shards with
  | nil =>
    obtain rfl := Except.ok.inj h
    rfl
  | cons e entries ih =>
    rw [List.foldlM_cons] at h
    obtain ⟨next, hnext, h⟩ := bind_eq_ok.mp h
    have hstep := lookup_indexEntry hnext p
    by_cases hregion : regionOf e.1 = p
    · rw [if_pos hregion] at hstep
      rw [List.filter_cons_of_pos (by simpa using hregion), List.foldlM_cons]
      exact bind_eq_ok.mpr ⟨_, hstep, ih h⟩
    · rw [if_neg hregion] at hstep
      rw [List.filter_cons_of_neg (by simpa using hregion), ← hstep]
      exact ih h

theorem lookup_indexGraph {g : MemoryGraph F} {shards : Shards S} {fed : Nat}
    (h : store.indexGraph [] g = .ok (shards, fed)) (p : Str) :
    store.ofNodes ((contentEntries g).filter fun e => regionOf e.1 = p) = .ok (shards.lookup p) := by
  obtain ⟨shards', hfold, h⟩ := bind_eq_ok.mp h
  obtain ⟨rfl, -⟩ := Prod.mk.inj (Except.ok.inj h)
  exact lookup_foldlM hfold p

/-- The store of a deployment. -/
def ofDeployment {F E : Type} [Quantized F] (d : Deployment F E) : RegionStore (FractalMemory3D F) (List F) F where
  embed text := (d.embed text).toOption
  fresh := d.freshTree
  insert s v uri := do
    let inserted ← s.insertWith (d.project s) d.fuel v (some (utf8 uri))
    return inserted.2
  nearest s v k := do
    let hits ← Deployment.Sharded.hitsOf d v k s
    return hits.map Prod.swap

/-- An insert of the deployment whose failure to embed is dropped. -/
theorem indexNodeIn_ofDeployment {F E : Type} [Quantized F] (d : Deployment F E) (shards : Shards (FractalMemory3D F))
    (region uri content : Str) : (ofDeployment d).indexNodeIn shards region uri content =
      match Deployment.Sharded.insert d shards region uri content with
      | .ok after => .ok after
      | .error (.embed _) => .ok shards
      | .error (.stop s) => .error s := by
  unfold indexNodeIn Deployment.Sharded.insert Deployment.embedded
  simp only [ofDeployment]
  cases d.embed content with
  | error e => rfl
  | ok v =>
    simp only [Except.toOption, Except.mapError, bind, Except.bind]
    generalize Shards.entry region d.freshTree _ shards = entered
    cases entered with
    | error e => rfl
    | ok after => rfl

/-! ## A store that keeps the ids -/

/-- Everything embeds, and a memory is the list of what it was given. -/
def log : RegionStore (List Str) Unit Unit where
  embed _ := some ()
  fresh := []
  insert s _ uri := .ok (s ++ [uri])
  nearest s _ k := .ok ((s.take k).map (·, ()))

theorem log_foldlM (entries : List (Ccos.NodeId × GraphNode F)) (memory : Option (List Str)) :
    ∃ after, entries.foldlM log.addNode memory = .ok after ∧ after.getD [] = memory.getD [] ++ entries.map (·.1) := by
  induction entries generalizing memory with
  | nil => exact ⟨memory, rfl, by simp⟩
  | cons e entries ih =>
    obtain ⟨after, hafter, hids⟩ := ih (some (memory.getD [] ++ [e.1]))
    refine ⟨after, ?_, by simpa using hids⟩
    rw [List.foldlM_cons]
    exact bind_eq_ok.mpr ⟨_, rfl, hafter⟩

theorem log_indexes (g : MemoryGraph F) : ∃ shards fed, log.indexGraph [] g = .ok (shards, fed) := by
  have hfold : ∀ (entries : List (Ccos.NodeId × GraphNode F)) (shards : Shards (List Str)),
      ∃ shards', entries.foldlM log.indexEntry shards = .ok shards' := by
    intro entries
    induction entries with
    | nil => exact fun shards => ⟨shards, rfl⟩
    | cons e entries ih =>
      intro shards
      have hact : ∀ s : List Str, ∃ s', log.insert s () e.1 = .ok s' := fun s => ⟨_, rfl⟩
      obtain ⟨next, hnext⟩ := Shards.entry_total (regionOf e.1) log.fresh hact shards
      obtain ⟨shards', hshards'⟩ := ih next
      refine ⟨shards', ?_⟩
      rw [List.foldlM_cons]
      exact bind_eq_ok.mpr ⟨next, hnext, hshards'⟩
  obtain ⟨shards, hshards⟩ := hfold (contentEntries g) []
  exact ⟨shards, (contentEntries g).length, bind_eq_ok.mpr ⟨shards, hshards, rfl⟩⟩

end RegionStore

/-! ## A region and its file -/

open RegionStore MemoryGraph

section

variable {F : Type}

/-- In every store, the region of a path holds what the nodes of that file build. -/
def FollowsFile (g : MemoryGraph F) (path : Str) : Prop :=
  ∀ (S V D : Type) (store : RegionStore S V D) (shards : Shards S) (fed : Nat),
    store.indexGraph [] g = .ok (shards, fed) →
      store.ofNodes ((contentEntries g).filter fun e => ownedBy path e.1) = .ok (shards.lookup path)

theorem followsFile_iff {g : MemoryGraph F} {path : Str} : FollowsFile g path ↔
    ∀ e ∈ contentEntries g, regionOf e.1 = path ↔ ownedBy path e.1 = true := by
  constructor
  · intro hfollows e he
    obtain ⟨shards, fed, hindex⟩ := log_indexes g
    have howned := hfollows _ _ _ log shards fed hindex
    have hregion := lookup_indexGraph hindex path
    obtain ⟨after, hafter, hids⟩ := log_foldlM ((contentEntries g).filter fun e => ownedBy path e.1) none
    obtain ⟨after', hafter', hids'⟩ := log_foldlM ((contentEntries g).filter fun e => regionOf e.1 = path) none
    rw [ofNodes, hafter, Except.ok.injEq] at howned
    rw [ofNodes, hafter', Except.ok.injEq] at hregion
    subst howned
    subst hregion
    have hsame : ((contentEntries g).filter fun e => ownedBy path e.1).map (·.1) =
        ((contentEntries g).filter fun e => regionOf e.1 = path).map (·.1) := by
      rw [Option.getD_none, List.nil_append] at hids hids'
      rw [← hids, hids']
    constructor
    · intro hp
      have hmem : e.1 ∈ ((contentEntries g).filter fun e => regionOf e.1 = path).map (·.1) :=
        List.mem_map_of_mem (List.mem_filter.mpr ⟨he, by simpa using hp⟩)
      rw [← hsame] at hmem
      obtain ⟨e', he', heq⟩ := List.mem_map.mp hmem
      rw [← heq]
      exact (List.mem_filter.mp he').2
    · intro hp
      have hmem : e.1 ∈ ((contentEntries g).filter fun e => ownedBy path e.1).map (·.1) :=
        List.mem_map_of_mem (List.mem_filter.mpr ⟨he, hp⟩)
      rw [hsame] at hmem
      obtain ⟨e', he', heq⟩ := List.mem_map.mp hmem
      rw [← heq]
      simpa using (List.mem_filter.mp he').2
  · intro hiff S V D store shards fed hindex
    have hsame : (contentEntries g).filter (fun e => ownedBy path e.1) =
        (contentEntries g).filter fun e => regionOf e.1 = path := by
      refine List.filter_congr fun e he => ?_
      rw [Bool.eq_iff_iff, ← hiff e he, decide_eq_true_iff]
    rw [hsame]
    exact lookup_indexGraph hindex path

/-! ## The regions of the id scheme -/

/-- The shapes of the ids that an ingest makes. -/
def FileShape (id : Ccos.NodeId) : Prop :=
  (∃ path, ':' ∉ path ∧ ownedBy path id = true) ∨ ∃ root, id = "dep:".toList ++ root

theorem regionOf_after {kind : Str} (hkind : kind ∈ ["file".toList, "mod".toList, "use".toList, "dep".toList])
    (rest : Str) : regionOf (kind ++ ':' :: rest) = rest := by
  have hsplit : ∀ kind : Str, ':' ∉ kind → splitOnce [':'] (kind ++ ':' :: rest) = some (kind, rest) :=
    fun kind h => splitOnce_char h rest
  simp only [List.mem_cons, List.not_mem_nil, or_false] at hkind
  rcases hkind with rfl | rfl | rfl | rfl
  all_goals
    unfold regionOf
    rw [hsplit _ (by simp)]
    simp [startsWith]

theorem regionOf_sym (rest : Str) : regionOf ("sym".toList ++ ':' :: rest) =
    match rsplitOnce [':'] rest with
    | some (path, _) => path
    | none => rest := by
  unfold regionOf
  rw [splitOnce_char (by simp)]
  simp [startsWith]

theorem scopedId_kind (kind path name : Str) :
    scopedId (kind ++ [':']) path name = kind ++ ':' :: (path ++ ':' :: name) := by
  simp [scopedId]

theorem regionOf_sym_name {path name : Str} (hname : ':' ∉ name) :
    regionOf (scopedId "sym:".toList path name) = path := by
  have hid : scopedId "sym:".toList path name = _ := scopedId_kind "sym".toList path name
  rw [hid, regionOf_sym, rsplitOnce_char path hname]

/-- A name with a colon leaves part of itself in the region. -/
theorem colon_mem_regionOf_sym {path name : Str} (hname : ':' ∈ name) :
    ':' ∈ regionOf (scopedId "sym:".toList path name) := by
  have hid : scopedId "sym:".toList path name = _ := scopedId_kind "sym".toList path name
  rw [hid, regionOf_sym]
  cases hlast : rsplitOnce [':'] name with
  | none => exact absurd hname (rsplitOnce_char_none hlast)
  | some parts =>
    obtain ⟨hsplit, htail⟩ := rsplitOnce_char_eq hlast
    have hrest : path ++ ':' :: name = (path ++ ':' :: parts.1) ++ ':' :: parts.2 := by rw [hsplit]; simp
    rw [hrest, rsplitOnce_char _ htail]
    simp

/-- Of the ids an ingest makes, a region of a path has the file, its symbols with plain names, and a dependency. -/
theorem regionOf_eq_iff {id : Ccos.NodeId} (hid : FileShape id) {path : Str} (hpath : ':' ∉ path) : regionOf id = path ↔
    id = "file:".toList ++ path ∨ (∃ name, ':' ∉ name ∧ id = scopedId "sym:".toList path name) ∨
      id = "dep:".toList ++ path := by
  have hfile : regionOf ("file:".toList ++ path) = path := @regionOf_after "file".toList (by simp) path
  have hdep : ∀ root, regionOf ("dep:".toList ++ root) = root := @regionOf_after "dep".toList (by simp)
  constructor
  · intro hregion
    rcases hid with ⟨own, -, howned⟩ | ⟨root, rfl⟩
    · rcases ownedBy_iff.mp howned with rfl | ⟨kind, hkind, name, rfl⟩
      · have hown : regionOf ("file:".toList ++ own) = own := @regionOf_after "file".toList (by simp) own
        exact .inl (by rw [← hregion, hown])
      · simp only [List.mem_cons, List.not_mem_nil, or_false] at hkind
        rcases hkind with rfl | rfl | rfl
        · have hmod : scopedId "mod:".toList own name = _ := scopedId_kind "mod".toList own name
          rw [← hregion, hmod, regionOf_after (by simp)] at hpath
          simp at hpath
        · have huse : scopedId "use:".toList own name = _ := scopedId_kind "use".toList own name
          rw [← hregion, huse, regionOf_after (by simp)] at hpath
          simp at hpath
        · by_cases hname : ':' ∈ name
          · exact absurd (hregion ▸ colon_mem_regionOf_sym hname) hpath
          · rw [regionOf_sym_name hname] at hregion
            exact .inr (.inl ⟨name, hname, by rw [hregion]⟩)
    · exact .inr (.inr (by rw [← hregion, hdep]))
  · rintro (rfl | ⟨name, hname, rfl⟩ | rfl)
    · exact hfile
    · exact regionOf_sym_name hname
    · exact hdep path

end

/-! ## Graphs that ingests build -/

section

variable {F : Type} [Scalar F]

/-- Every known id has one of the shapes. -/
structure FromFiles (g : MemoryGraph F) : Prop where
  indexed : g.Indexed
  shape : ∀ id, g.Known id → FileShape id

/-- A call that puts in no other id, and is no reload. -/
def InsertsShape : GraphOp F → Prop
  | .upsertNode id _ _ _ => FileShape id
  | .reload => False
  | _ => True

theorem FromFiles.step {h : Host F} {g : MemoryGraph F} (hg : FromFiles g) {op : GraphOp F} (hop : InsertsShape op) :
    FromFiles (g.step h op) := by
  refine ⟨hg.indexed.step op, fun id hid => ?_⟩
  cases op with
  | reload => exact hop.elim
  | removeNode k => exact hg.shape id (((hg.indexed.knows.removeNode k).iff id).mpr hid).2
  | upsertNode k =>
    rcases ((hg.indexed.knows.upsertNode k _ _ _).iff id).mpr hid with rfl | hknown
    · exact hop
    · exact hg.shape id hknown
  | _ =>
    refine hg.shape id ((((hg.indexed.knows.step ?_).iff id).mpr hid).resolve_right ?_)
    · trivial
    · simp [GraphOp.inserted]

theorem FromFiles.run {h : Host F} {g : MemoryGraph F} (hg : FromFiles g) {ops : List (GraphOp F)}
    (hops : ∀ op ∈ ops, InsertsShape op) : FromFiles (g.run h ops) := by
  induction ops generalizing g with
  | nil => exact hg
  | cons op ops ih =>
    obtain ⟨hop, hops⟩ := List.forall_mem_cons.mp hops
    exact ih (hg.step hop) hops

omit [Scalar F] in
theorem insertsShape_of_buildsFile {path : Str} (hpath : ':' ∉ path) {op : GraphOp F} (h : op.BuildsFile path) :
    InsertsShape op := by
  cases op with
  | upsertNode id => exact (h.2 id rfl).imp_left fun howned => ⟨path, hpath, howned⟩
  | reload => exact h.1.elim
  | _ => trivial

theorem ingestOps_shape {t : Tools F} (m : CcosMemory F) {uri : Str} (huri : ':' ∉ stripFile uri) (source : Str) :
    ∀ op ∈ m.ingestOps t uri source, InsertsShape op := by
  have hupdate : ∀ r text, r.filePath = stripFile uri → ∀ op ∈ (updateOps t.headerSymbolCap r text : List (GraphOp F)),
      InsertsShape op := by
    intro r text hpath op hop
    have hbuilds := updateOps_build _ _ _ op hop
    rw [hpath] at hbuilds
    exact insertsShape_of_buildsFile huri hbuilds
  intro op hop
  unfold CcosMemory.ingestOps at hop
  rcases List.mem_append.mp hop with hop | hop
  · unfold CcosMemory.processDelta at hop
    dsimp only at hop
    split at hop
    · exact hupdate _ _ rfl op hop
    · split at hop
      · exact absurd hop List.not_mem_nil
      · rcases List.mem_append.mp hop with hop | hop
        · unfold CcosMemory.evictFileNodes at hop
          obtain ⟨id, -, rfl⟩ := List.mem_map.mp hop
          trivial
        · exact hupdate _ _ rfl op hop
  · unfold CcosMemory.taintOps at hop
    dsimp only at hop
    split at hop
    · obtain rfl := List.mem_singleton.mp hop
      trivial
    · exact absurd hop List.not_mem_nil

/-- An ingest of a path without a colon, or paging. -/
def Ingests : MemoryOp F → Prop
  | .ingestSource uri _ | .ingestDeferred uri _ => ':' ∉ stripFile uri
  | .resolve | .ensureResident _ | .setMaxResident _ | .tick => True
  | _ => False

theorem fromFiles_memoryStep {t : Tools F} {m : CcosMemory F} (hm : FromFiles m.graph) {op : MemoryOp F}
    (hop : Ingests op) : FromFiles (m.memoryStep t op).graph := by
  cases op with
  | ingestSource uri source =>
    rw [CcosMemory.memoryStep, CcosMemory.ingestSource_graph]
    refine hm.run fun op hmem => ?_
    rcases List.mem_append.mp hmem with hmem | hmem
    · exact ingestOps_shape m hop source op hmem
    · obtain rfl := List.mem_singleton.mp hmem
      trivial
  | ingestDeferred uri source => exact hm.run (ingestOps_shape m hop source)
  | resolve =>
    rw [CcosMemory.memoryStep, CcosMemory.resolve_graph]
    refine hm.run fun op hmem => ?_
    split at hmem
    · obtain rfl := List.mem_singleton.mp hmem
      trivial
    · exact absurd hmem List.not_mem_nil
  | ensureResident uri =>
    refine hm.run fun op hmem => ?_
    rcases List.mem_cons.mp hmem with rfl | hmem
    · trivial
    · obtain ⟨id, -, rfl⟩ := List.mem_map.mp hmem
      trivial
  | setMaxResident cap =>
    refine hm.run fun op hmem => ?_
    simp only [List.mem_cons, List.not_mem_nil, or_false] at hmem
    rcases hmem with rfl | rfl
    all_goals trivial
  | tick =>
    refine hm.run fun op hmem => ?_
    obtain rfl := List.mem_singleton.mp hmem
    trivial
  | _ => exact hop.elim

theorem fromFiles_ingests {t : Tools F} {ops : List (MemoryOp F)} (hops : ∀ op ∈ ops, Ingests op) :
    FromFiles (Runs.run (CcosMemory.memoryStep t) CcosMemory.new ops).graph := by
  suffices hrun : ∀ m : CcosMemory F, FromFiles m.graph → FromFiles (Runs.run (CcosMemory.memoryStep t) m ops).graph by
    refine hrun CcosMemory.new ⟨⟨∅, rfl⟩, fun id hid => ?_⟩
    rcases hid with hid | hid
    · exact absurd hid ExtTreeMap.not_mem_empty
    · cases hid
  induction ops with
  | nil => exact fun _ hm => hm
  | cons op ops ih =>
    obtain ⟨hop, hops⟩ := List.forall_mem_cons.mp hops
    exact fun m hm => ih hops _ (fromFiles_memoryStep hm hop)

omit [Scalar F] in
theorem FromFiles.shape_content {g : MemoryGraph F} (hg : FromFiles g) {e : Ccos.NodeId × GraphNode F}
    (he : e ∈ contentEntries g) : FileShape e.1 := by
  have hnode := ExtTreeMap.mem_toList_iff_getElem?_eq_some.mp (List.mem_filter.mp he).1
  exact hg.shape e.1 (.inl (mem_of_getElem?_eq_some hnode))

/-- The region of a path is its file exactly when the file has no module, no import and no symbol with a colon in its
name, and there is no dependency of that name. -/
theorem region_follows_file_iff (t : Tools F) {ops : List (MemoryOp F)} (hops : ∀ op ∈ ops, Ingests op) {path : Str}
    (hpath : ':' ∉ path) : FollowsFile (Runs.run (CcosMemory.memoryStep t) CcosMemory.new ops).graph path ↔
      ∀ e ∈ contentEntries (Runs.run (CcosMemory.memoryStep t) CcosMemory.new ops).graph,
        (ownedBy path e.1 = true → e.1 = "file:".toList ++ path ∨
          ∃ name, ':' ∉ name ∧ e.1 = scopedId "sym:".toList path name) ∧
        e.1 ≠ "dep:".toList ++ path := by
  have hfrom := fromFiles_ingests (t := t) hops
  rw [followsFile_iff]
  refine forall₂_congr fun e he => ?_
  rw [regionOf_eq_iff (hfrom.shape_content he) hpath]
  constructor
  · intro hiff
    have hdep : e.1 ≠ "dep:".toList ++ path := by
      intro heq
      have howned := hiff.mp (.inr (.inr heq))
      rw [heq, not_ownedBy_dep] at howned
      cases howned
    refine ⟨fun howned => ?_, hdep⟩
    rcases hiff.mpr howned with hfile | hsym | heq
    · exact .inl hfile
    · exact .inr hsym
    · exact absurd heq hdep
  · rintro ⟨hcond, hdep⟩
    constructor
    · rintro (hfile | ⟨name, -, hsym⟩ | heq)
      · rw [hfile]
        exact ownedBy_file path
      · rw [hsym]
        exact ownedBy_scopedId (by simp) path name
      · exact absurd heq hdep
    · intro howned
      exact (hcond howned).imp_right .inl

end

namespace Sample

theorem plain_path : ':' ∉ "a.rs".toList := by decide

def ingestFunction : List (MemoryOp ℚ) := [.ingestSource "a.rs".toList CcosMemory.oneFunction]

theorem ingestFunction_ingests : ∀ op ∈ ingestFunction, Ingests op := List.forall_mem_singleton.mpr plain_path

def functionMemory : CcosMemory ℚ :=
  Runs.run (CcosMemory.memoryStep CcosMemory.linesAreFunctions) CcosMemory.new ingestFunction

theorem functions_follow_their_file : FollowsFile functionMemory.graph "a.rs".toList := by
  have hids : (contentEntries functionMemory.graph).map (·.1) = ["file:a.rs".toList, "sym:a.rs:keep".toList] := by
    decide +kernel
  refine (region_follows_file_iff CcosMemory.linesAreFunctions ingestFunction_ingests plain_path).mpr fun e he => ?_
  have hmem : e.1 ∈ (contentEntries functionMemory.graph).map (·.1) := List.mem_map_of_mem he
  rw [hids] at hmem
  simp only [List.mem_cons, List.not_mem_nil, or_false] at hmem
  rcases hmem with hid | hid
  · exact ⟨fun _ => .inl hid, by rw [hid]; decide⟩
  · exact ⟨fun _ => .inr ⟨"keep".toList, by decide, hid⟩, by rw [hid]; decide⟩

/-- A parser that reads one import. -/
def oneImport : Tools ℚ :=
  .plain fun _ _ => { Extracted.empty with useStatements := [⟨"std::fmt".toList, 1, ["std".toList, "fmt".toList]⟩] }

/-- The import of a file lands in a region of its own. -/
theorem import_leaves_its_file : ¬ ∀ (t : Tools ℚ) (ops : List (MemoryOp ℚ)) (path : Str), (∀ op ∈ ops, Ingests op) →
    ':' ∉ path → FollowsFile (Runs.run (CcosMemory.memoryStep t) CcosMemory.new ops).graph path := by
  intro hfollows
  have hfile := hfollows oneImport [.ingestSource "a.rs".toList "use std::fmt;".toList] "a.rs".toList
    (List.forall_mem_singleton.mpr plain_path) plain_path
  have hmem : "use:a.rs:std::fmt".toList ∈ (contentEntries (Runs.run (CcosMemory.memoryStep oneImport) CcosMemory.new
      [.ingestSource "a.rs".toList "use std::fmt;".toList]).graph).map (·.1) := by decide +kernel
  obtain ⟨e, he, hid⟩ := List.mem_map.mp hmem
  have hregion := (followsFile_iff.mp hfile e he).mpr (by rw [hid]; decide)
  rw [hid] at hregion
  exact absurd hregion (by decide)

end Sample

end Ccos.Octasoma
