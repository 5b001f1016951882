import Ccos.Region.Clusters
import Ccos.Query.Walk
import Ccos.Lib.Components

/-!
# Clusters are components

The keys of two nodes are linked by a chain of edges between files exactly when the nodes share a region. The key
`external` stands for all external dependencies, and also for a file of that name.
-/

open Std Components Relation

namespace Ccos.ContextRegionEngine

variable {F : Type}

/-! ## Buckets and links -/

theorem bucket_eq (g : MemoryGraph F) (key : Str) :
    ((fileBuckets g)[key]?).getD [] = g.nodes.keys.filter fun id => decide (regionKey id = key) := by
  have hgroup := getElem?_foldl_pushAt regionKey id g.nodes.keys ∅ key
  rw [ExtTreeMap.getElem?_empty, Option.getD_none, List.nil_append, List.map_id] at hgroup
  exact hgroup

theorem mem_fileBuckets {g : MemoryGraph F} {key : Str} : key ∈ fileBuckets g ↔ ∃ id ∈ g.nodes, regionKey id = key := by
  refine (mem_foldl_pushAt regionKey id g.nodes.keys ∅ key).trans ?_
  simp [ExtTreeMap.mem_keys]

theorem edgesHome_of_noDangling {g : MemoryGraph F} (hg : g.NoDangling) : EdgesHome g := fun e he =>
  ⟨mem_fileBuckets.mpr ⟨e.source, (hg e he).1, rfl⟩, mem_fileBuckets.mpr ⟨e.target, (hg e he).2, rfl⟩⟩

def Adjacent (adj : FileSets) (a b : Str) : Prop := ∃ found, adj[a]? = some found ∧ b ∈ found

/-- The keys at the two ends of an edge, in either order. -/
def JoinsKeys (e : GraphEdge F) (a b : Str) : Prop :=
  regionKey e.source = a ∧ regionKey e.target = b ∨ regionKey e.source = b ∧ regionKey e.target = a

/-- An edge between two buckets, neither of them `external`. -/
def Linked (g : MemoryGraph F) (a b : Str) : Prop :=
  (a ≠ b ∧ a ≠ external ∧ b ≠ external) ∧ ∃ e ∈ g.edges, JoinsKeys e a b

theorem linked_symm (g : MemoryGraph F) (a b : Str) (h : Linked g a b) : Linked g b a := by
  obtain ⟨⟨hne, ha, hb⟩, e, he, hends⟩ := h
  exact ⟨⟨hne.symm, hb, ha⟩, e, he, hends.symm⟩

theorem adjacent_insert {adj : FileSets} {a b : Str} {found : BTreeMap Str Unit} (h : adj[a]? = some found)
    (x y : Str) : Adjacent (adj.insert a (found.insert b ())) x y ↔ Adjacent adj x y ∨ x = a ∧ y = b := by
  unfold Adjacent
  rw [getElem?_insert_eq]
  by_cases hx : x = a
  · subst hx
    simp only [h, if_true, Option.some.injEq, exists_eq_left', mem_insert_iff, true_and]
    exact or_comm
  · simp [hx]

theorem adjacent_link {adj adj' : FileSets} {a b : Str} (h : link adj a b = some adj') (x y : Str) :
    Adjacent adj' x y ↔ Adjacent adj x y ∨ (x = a ∧ y = b ∨ x = b ∧ y = a) := by
  obtain ⟨ofA, hofA, h⟩ := Option.bind_eq_some_iff.mp h
  obtain ⟨ofB, hofB, rfl⟩ := Option.map_eq_some_iff.mp h
  rw [adjacent_insert hofB, adjacent_insert hofA, or_assoc]

theorem adjacent_linkEdge {adj adj' : FileSets} {e : GraphEdge F} (h : linkEdge adj e = some adj') (x y : Str) :
    Adjacent adj' x y ↔ Adjacent adj x y ∨ (x ≠ y ∧ x ≠ external ∧ y ≠ external) ∧ JoinsKeys e x y := by
  unfold linkEdge at h
  dsimp only at h
  unfold JoinsKeys
  split at h
  · rename_i hends
    rw [adjacent_link h]
    refine or_congr_right ?_
    constructor
    · rintro (⟨rfl, rfl⟩ | ⟨rfl, rfl⟩)
      · exact ⟨hends, .inl ⟨rfl, rfl⟩⟩
      · exact ⟨⟨hends.1.symm, hends.2.2, hends.2.1⟩, .inr ⟨rfl, rfl⟩⟩
    · rintro ⟨-, ⟨rfl, rfl⟩ | ⟨rfl, rfl⟩⟩
      · exact .inl ⟨rfl, rfl⟩
      · exact .inr ⟨rfl, rfl⟩
  · rename_i hends
    obtain rfl := Option.some.inj h
    refine (or_iff_left ?_).symm
    rintro ⟨⟨hne, hx, hy⟩, ⟨rfl, rfl⟩ | ⟨rfl, rfl⟩⟩
    · exact hends ⟨hne, hx, hy⟩
    · exact hends ⟨hne.symm, hy, hx⟩

theorem adjacent_linkEdges {edges : List (GraphEdge F)} {adj adj' : FileSets}
    (h : edges.foldlM linkEdge adj = some adj') (x y : Str) : Adjacent adj' x y ↔
      Adjacent adj x y ∨ (x ≠ y ∧ x ≠ external ∧ y ≠ external) ∧ ∃ e ∈ edges, JoinsKeys e x y := by
  induction edges generalizing adj with
  | nil =>
    obtain rfl := Option.some.inj h
    simp
  | cons e edges ih =>
    rw [List.foldlM_cons] at h
    obtain ⟨next, hnext, h⟩ := Option.bind_eq_some_iff.mp h
    rw [ih h, adjacent_linkEdge hnext, List.exists_mem_cons_iff]
    tauto

theorem adjacent_fileLinks {g : MemoryGraph F} {keys : List Str} {adj : FileSets} (h : fileLinks g keys = some adj)
    (x y : Str) : Adjacent adj x y ↔ Linked g x y := by
  refine (adjacent_linkEdges h x y).trans (or_iff_right ?_)
  rintro ⟨found, hfound, hy⟩
  rw [linksInside_empty keys (by simp) x found hfound] at hy
  exact ExtTreeMap.not_mem_empty hy

/-! ## One search -/

theorem enqueue_fresh (found queue : List Str) (seen : BTreeMap Str Unit) : ∃ fresh, fresh.Nodup ∧
    (enqueue queue seen found).1 = queue ++ fresh ∧ (∀ x, x ∈ fresh ↔ x ∈ found ∧ x ∉ seen) ∧
    ∀ x, x ∈ (enqueue queue seen found).2 ↔ x ∈ seen ∨ x ∈ found := by
  induction found generalizing queue seen with
  | nil => exact ⟨[], List.nodup_nil, (List.append_nil _).symm, by simp, by simp [enqueue]⟩
  | cons key found ih =>
    rw [enqueue_cons]
    split
    · rename_i hold
      obtain ⟨fresh, hnodup, hqueue, hfresh, hseen⟩ := ih queue seen
      refine ⟨fresh, hnodup, hqueue, fun x => ?_, fun x => ?_⟩
      · rw [hfresh, List.mem_cons]
        constructor
        · exact fun ⟨hx, hnew⟩ => ⟨.inr hx, hnew⟩
        · rintro ⟨rfl | hx, hnew⟩
          · exact absurd hold hnew
          · exact ⟨hx, hnew⟩
      · rw [hseen, List.mem_cons]
        constructor
        · exact Or.imp_right .inr
        · rintro (hx | rfl | hx)
          · exact .inl hx
          · exact .inl hold
          · exact .inr hx
    · rename_i hnew
      obtain ⟨fresh, hnodup, hqueue, hfresh, hseen⟩ := ih (queue ++ [key]) (seen.insert key ())
      refine ⟨key :: fresh, ?_, ?_, fun x => ?_, fun x => ?_⟩
      · refine List.nodup_cons.mpr ⟨fun hkey => ?_, hnodup⟩
        exact ((hfresh key).mp hkey).2 (mem_insert_iff.mpr (.inl rfl))
      · rw [hqueue, List.append_assoc, List.singleton_append]
      · rw [List.mem_cons, List.mem_cons, hfresh, mem_insert_iff]
        by_cases hx : x = key
        · subst hx
          simp [hnew]
        · simp [hx]
      · rw [hseen, mem_insert_iff, List.mem_cons]
        tauto

theorem search_component {adj : FileSets} {old : Str → Prop} {start : Str} {fuel : Nat} {queue popped files : List Str}
    {seen seen' : BTreeMap Str Unit} (h : Search (Adjacent adj) old start queue popped (· ∈ seen))
    (hdone : component adj fuel queue seen popped = some (files, seen')) :
    Search (Adjacent adj) old start [] files (· ∈ seen') := by
  induction fuel generalizing queue seen popped with
  | zero =>
    cases queue with
    | nil =>
      obtain ⟨rfl, rfl⟩ := Prod.mk.inj (Option.some.inj hdone)
      exact h
    | cons key queue => cases hdone
  | succ fuel ih =>
    cases queue with
    | nil =>
      obtain ⟨rfl, rfl⟩ := Prod.mk.inj (Option.some.inj hdone)
      exact h
    | cons key queue =>
      obtain ⟨found, hfound, hdone⟩ := Option.bind_eq_some_iff.mp hdone
      have hstep : ∀ x, Adjacent adj key x ↔ x ∈ found.keys := by
        intro x
        unfold Adjacent
        rw [hfound, ExtTreeMap.mem_keys]
        simp
      obtain ⟨fresh, hnodup, hqueue, hfresh, hseen⟩ := enqueue_fresh found.keys queue seen
      have hnext : Search (Adjacent adj) old start (enqueue queue seen found.keys).1 (popped ++ [key])
          (· ∈ (enqueue queue seen found.keys).2) := by
        rw [hqueue]
        refine h.turn (fun x => ?_) hnodup fun x => ?_
        · rw [hfresh, hstep]
        · rw [hseen, hstep]
      exact ih hnext hdone

/-! ## The clusters -/

def regionId (key : Str) : Str := "region:".toList ++ key

theorem regionId_inj {a b : Str} : regionId a = regionId b ↔ a = b := List.append_right_inj _

/-- The members of a region: the nodes whose keys are of the class of `rep`. -/
def HoldsClass (g : MemoryGraph F) (rep : Str) (members : List Str) : Prop :=
  members.Nodup ∧ ∀ id, id ∈ members ↔ id ∈ g.nodes ∧ ReflTransGen (Linked g) rep (regionKey id)

/-- The clusters of the keys that were seen. -/
structure Clustered (g : MemoryGraph F) (seen : Str → Prop) (clusters : BTreeMap Str (List Str)) : Prop where
  classes : Classes (Linked g) seen fun key => regionId key ∈ clusters
  filed : ∀ id members, clusters[id]? = some members → ∃ rep, id = regionId rep ∧ HoldsClass g rep members

theorem Clustered.add {g : MemoryGraph F} {seen seen' : Str → Prop} {clusters : BTreeMap Str (List Str)}
    (h : Clustered g seen clusters) {start rep : Str} {members : List Str} (hnew : ¬ seen start)
    (hrep : ReflTransGen (Linked g) start rep) (hseen : ∀ x, seen' x ↔ seen x ∨ ReflTransGen (Linked g) start x)
    (hmembers : HoldsClass g rep members) : Clustered g seen' (clusters.insert (regionId rep) members) where
  classes := by
    refine h.classes.add (linked_symm g) hnew hrep hseen fun x => ?_
    rw [mem_insert_iff, regionId_inj, or_comm]
  filed id found hfound := by
    rw [getElem?_insert_eq] at hfound
    split at hfound
    · rename_i hid
      obtain rfl := Option.some.inj hfound
      exact ⟨rep, hid, hmembers⟩
    · exact h.filed id found hfound

theorem holdsClass_buckets {g : MemoryGraph F} {files : List Str} {start rep : Str} (hnodup : files.Nodup)
    (hfiles : ∀ key, key ∈ files ↔ ReflTransGen (Linked g) start key) (hrep : ReflTransGen (Linked g) start rep) :
    HoldsClass g rep (sortBy compare (files.flatMap fun key => ((fileBuckets g)[key]?).getD [])) := by
  simp only [bucket_eq]
  constructor
  · refine (perm_sortBy _ _).nodup_iff.mpr (List.nodup_flatMap.mpr ⟨fun key _ => ?_, ?_⟩)
    · exact ExtTreeMap.nodup_keys.filter _
    · refine hnodup.imp fun {a b} hne id ha hb => hne ?_
      rw [← of_decide_eq_true (List.mem_filter.mp ha).2, of_decide_eq_true (List.mem_filter.mp hb).2]
  · intro id
    rw [mem_sortBy, List.mem_flatMap]
    simp only [List.mem_filter, decide_eq_true_eq, ExtTreeMap.mem_keys]
    constructor
    · rintro ⟨key, hkey, hid, rfl⟩
      exact ⟨hid, (reach_symm (linked_symm g) hrep).trans ((hfiles _).mp hkey)⟩
    · rintro ⟨hid, hreach⟩
      exact ⟨regionKey id, (hfiles _).mpr (hrep.trans hreach), hid, rfl⟩

theorem reach_external_iff {g : MemoryGraph F} {key : Str} : ReflTransGen (Linked g) external key ↔ key = external := by
  constructor
  · intro hreach
    rcases hreach.cases_head with h | ⟨next, ⟨⟨-, hne, -⟩, -⟩, -⟩
    · exact h.symm
    · exact absurd rfl hne
  · rintro rfl
    exact .refl

theorem clustered_clusterFrom {g : MemoryGraph F} {adj : FileSets}
    {state next : BTreeMap Str Unit × BTreeMap Str (List Str)} {start : Str} (hadj : Adjacent adj = Linked g)
    (h : Clustered g (· ∈ state.1) state.2) (hfree : external ∉ state.1)
    (hnext : clusterFrom (fileBuckets g) adj state start = some next) :
    Clustered g (· ∈ next.1) next.2 ∧ external ∉ next.1 ∧ (∀ key ∈ state.1, key ∈ next.1) ∧
      (start ≠ external → start ∈ next.1) := by
  unfold clusterFrom at hnext
  dsimp only at hnext
  split at hnext
  · rename_i hskip
    obtain rfl := Option.some.inj hnext
    exact ⟨h, hfree, fun _ hkey => hkey, fun hne => hskip.resolve_right hne⟩
  · -- The search marks the class of `start` in full, and what was marked before was closed.
    rename_i hgo
    rw [not_or] at hgo
    obtain ⟨⟨files, seen⟩, hfiles, rfl⟩ := Option.map_eq_some_iff.mp hnext
    have hsearch := search_component (search_start (R := Adjacent adj) hgo.1 fun x => by
      rw [mem_insert_iff, or_comm]) hfiles
    rw [hadj] at hsearch
    have hpopped := hsearch.mem_popped_iff (linked_symm g) h.classes.closed
    have hseen := hsearch.seen_iff_class (linked_symm g) h.classes.closed
    have hrep : ReflTransGen (Linked g) start ((sortBy compare files).headD []) := by
      rw [← hpopped, ← mem_sortBy compare]
      cases hsorted : sortBy compare files with
      | nil =>
        have hstart := (mem_sortBy compare files start).mpr ((hpopped start).mpr .refl)
        rw [hsorted] at hstart
        cases hstart
      | cons key rest => exact List.mem_cons_self
    refine ⟨h.add hgo.1 hrep hseen (holdsClass_buckets ?_ (fun key => ?_) hrep), ?_, ?_, ?_⟩
    · have hnodup := hsearch.nodup
      rw [List.append_nil] at hnodup
      exact (perm_sortBy _ _).nodup_iff.mpr hnodup
    · rw [mem_sortBy, hpopped]
    · rw [hseen]
      rintro (hold | hreach)
      · exact hfree hold
      · exact hgo.2 (reach_external_iff.mp (reach_symm (linked_symm g) hreach))
    · exact fun key hkey => (hseen key).mpr (.inl hkey)
    · exact fun _ => (hseen start).mpr (.inr .refl)

theorem clustered_foldlM {g : MemoryGraph F} {adj : FileSets} (hadj : Adjacent adj = Linked g) (keys : List Str)
    {state last : BTreeMap Str Unit × BTreeMap Str (List Str)} (h : Clustered g (· ∈ state.1) state.2)
    (hfree : external ∉ state.1) (hlast : keys.foldlM (clusterFrom (fileBuckets g) adj) state = some last) :
    Clustered g (· ∈ last.1) last.2 ∧ external ∉ last.1 ∧ (∀ key ∈ state.1, key ∈ last.1) ∧
      ∀ key ∈ keys, key ≠ external → key ∈ last.1 := by
  induction keys generalizing state with
  | nil =>
    obtain rfl := Option.some.inj hlast
    exact ⟨h, hfree, fun _ hkey => hkey, fun key hkey => absurd hkey List.not_mem_nil⟩
  | cons start keys ih =>
    rw [List.foldlM_cons] at hlast
    obtain ⟨next, hnext, hlast⟩ := Option.bind_eq_some_iff.mp hlast
    obtain ⟨hone, hfreeOne, hkept, hstart⟩ := clustered_clusterFrom hadj h hfree hnext
    obtain ⟨hall, hfreeAll, hrest, hkeys⟩ := ih hone hfreeOne hlast
    refine ⟨hall, hfreeAll, fun key hkey => hrest key (hkept key hkey), fun key hkey hne => ?_⟩
    rcases List.mem_cons.mp hkey with rfl | hkey
    · exact hrest key (hstart hne)
    · exact hkeys key hkey hne

/-- Every key of a node is in a class that has a region. -/
theorem clustered_clusterNodes {g : MemoryGraph F} {clusters : BTreeMap Str (List Str)}
    (h : clusterNodes g = some clusters) : ∃ seen, Clustered g seen clusters ∧ ∀ id ∈ g.nodes, seen (regionKey id) := by
  obtain ⟨adj, hadj, h⟩ := Option.bind_eq_some_iff.mp h
  obtain ⟨⟨seen, files⟩, hlast, h⟩ := Option.bind_eq_some_iff.mp h
  have hlinks : Adjacent adj = Linked g := funext fun x => funext fun y => propext (adjacent_fileLinks hadj x y)
  have hstart : Clustered g (· ∈ (∅ : BTreeMap Str Unit)) ∅ := by
    refine ⟨⟨?_, ?_, ?_, ?_⟩, ?_⟩ <;> simp
  obtain ⟨hclusters, hfree, -, hkeys⟩ := clustered_foldlM hlinks _ hstart (by simp) hlast
  have hkey : ∀ id ∈ g.nodes, regionKey id ≠ external → regionKey id ∈ seen := fun id hid hne =>
    hkeys _ (ExtTreeMap.mem_keys.mpr (mem_fileBuckets.mpr ⟨id, hid, rfl⟩)) hne
  dsimp only at h
  cases hbucket : (fileBuckets g)[external]? with
  | none =>
    rw [hbucket] at h
    obtain rfl := Option.some.inj h
    refine ⟨_, hclusters, fun id hid => hkey id hid fun hext => ?_⟩
    exact not_mem_of_getElem?_eq_none hbucket (mem_fileBuckets.mpr ⟨id, hid, hext⟩)
  | some members =>
    rw [hbucket] at h
    obtain rfl := Option.some.inj h
    have hmembers : HoldsClass g external (sortBy compare members) := by
      have hbuckets := holdsClass_buckets (g := g) (List.nodup_singleton external)
        (fun key => by rw [reach_external_iff, List.mem_singleton]) .refl
      rwa [List.flatMap_singleton, hbucket] at hbuckets
    refine ⟨_, hclusters.add hfree .refl (fun _ => Iff.rfl) hmembers, fun id hid => ?_⟩
    by_cases hext : regionKey id = external
    · exact .inr (reach_external_iff.mpr hext)
    · exact .inl (hkey id hid hext)

/-! ## The partition -/

def InRegion (clusters : BTreeMap Str (List Str)) (region id : Str) : Prop :=
  ∃ members, clusters[region]? = some members ∧ id ∈ members

def ShareRegion (clusters : BTreeMap Str (List Str)) (a b : Str) : Prop :=
  ∃ region, InRegion clusters region a ∧ InRegion clusters region b

theorem inRegion_iff {g : MemoryGraph F} {seen : Str → Prop} {clusters : BTreeMap Str (List Str)}
    (h : Clustered g seen clusters) {region id : Str} : InRegion clusters region id ↔
      ∃ rep, region = regionId rep ∧ regionId rep ∈ clusters ∧ id ∈ g.nodes ∧
        ReflTransGen (Linked g) rep (regionKey id) := by
  constructor
  · rintro ⟨members, hmembers, hid⟩
    obtain ⟨rep, rfl, -, hholds⟩ := h.filed region members hmembers
    obtain ⟨hnode, hreach⟩ := (hholds id).mp hid
    refine ⟨rep, rfl, ExtTreeMap.isSome_getElem?_iff_mem.mp ?_, hnode, hreach⟩
    rw [hmembers]
    rfl
  · rintro ⟨rep, rfl, hmem, hnode, hreach⟩
    obtain ⟨members, hmembers⟩ := exists_getElem?_of_mem hmem
    obtain ⟨rep', hsame, -, hholds⟩ := h.filed _ members hmembers
    obtain rfl := regionId_inj.mp hsame
    exact ⟨members, hmembers, (hholds id).mpr ⟨hnode, hreach⟩⟩

theorem existsUnique_region {g : MemoryGraph F} {seen : Str → Prop} {clusters : BTreeMap Str (List Str)}
    (h : Clustered g seen clusters) {id : Str} (hid : id ∈ g.nodes) (hkey : seen (regionKey id)) :
    ∃! region, InRegion clusters region id := by
  obtain ⟨rep, hrep, hreach⟩ := h.classes.cover _ hkey
  refine ⟨regionId rep, (inRegion_iff h).mpr ⟨rep, rfl, hrep, hid, hreach⟩, fun region hregion => ?_⟩
  obtain ⟨rep', rfl, hrep', -, hreach'⟩ := (inRegion_iff h).mp hregion
  rw [h.classes.unique rep' rep hrep' hrep (hreach'.trans (reach_symm (linked_symm g) hreach))]

theorem shareRegion_iff {g : MemoryGraph F} {seen : Str → Prop} {clusters : BTreeMap Str (List Str)}
    (h : Clustered g seen clusters) {a b : Str} (ha : a ∈ g.nodes) (hb : b ∈ g.nodes) (hkey : seen (regionKey a)) :
    ShareRegion clusters a b ↔ ReflTransGen (Linked g) (regionKey a) (regionKey b) := by
  constructor
  · rintro ⟨region, hregionA, hregionB⟩
    obtain ⟨rep, rfl, -, -, hreachA⟩ := (inRegion_iff h).mp hregionA
    obtain ⟨rep', hsame, -, -, hreachB⟩ := (inRegion_iff h).mp hregionB
    obtain rfl := regionId_inj.mp hsame
    exact (reach_symm (linked_symm g) hreachA).trans hreachB
  · intro hreach
    obtain ⟨rep, hrep, hreachA⟩ := h.classes.cover _ hkey
    exact ⟨regionId rep, (inRegion_iff h).mpr ⟨rep, rfl, hrep, ha, hreachA⟩,
      (inRegion_iff h).mpr ⟨rep, rfl, hrep, hb, hreachA.trans hreach⟩⟩

/-! ## External dependencies and files -/

def isDep (id : Str) : Bool := startsWith "dep:".toList id

/-- An edge between nodes of two files, none of them an external dependency. -/
def CrossFile (g : MemoryGraph F) (a b : Str) : Prop :=
  a ≠ b ∧ ∃ e ∈ g.edges, isDep e.source = false ∧ isDep e.target = false ∧
    (fileOf e.source = a ∧ fileOf e.target = b ∨ fileOf e.source = b ∧ fileOf e.target = a)

/-- One region for the external dependencies, and one for every class of files that edges join. -/
structure PartitionsByFile (g : MemoryGraph F) (clusters : BTreeMap Str (List Str)) : Prop where
  once : ∀ id ∈ g.nodes, ∃! region, InRegion clusters region id
  nodes : ∀ (region : Str) (members : List Str), clusters[region]? = some members →
    members.Nodup ∧ ∀ id ∈ members, id ∈ g.nodes
  deps : ∀ a ∈ g.nodes, isDep a = true → ∀ b ∈ g.nodes, ShareRegion clusters a b ↔ isDep b = true
  files : ∀ a ∈ g.nodes, isDep a = false → ∀ b ∈ g.nodes, isDep b = false →
    (ShareRegion clusters a b ↔ ReflTransGen (CrossFile g) (fileOf a) (fileOf b))

/-- When a file is called `external`, there are no external dependencies, and no edge joins it to another file. -/
def ExternalIsFree (g : MemoryGraph F) : Prop :=
  (∃ id ∈ g.nodes, isDep id = false ∧ fileOf id = external) →
    (∀ id ∈ g.nodes, isDep id = false) ∧ ∀ file, ¬ CrossFile g external file

theorem regionKey_dep {id : Str} (h : isDep id = true) : regionKey id = external := if_pos h

theorem regionKey_file {id : Str} (h : isDep id = false) : regionKey id = fileOf id :=
  if_neg (Bool.not_eq_true _ ▸ h)

theorem isDep_of_regionKey {id : Str} (h : regionKey id ≠ external) : isDep id = false := by
  by_contra hdep
  exact h (regionKey_dep (Bool.not_eq_false _ ▸ hdep))

theorem linked_iff_crossFile (g : MemoryGraph F) (a b : Str) :
    Linked g a b ↔ CrossFile g a b ∧ a ≠ external ∧ b ≠ external := by
  constructor
  · rintro ⟨⟨hne, ha, hb⟩, e, he, hends⟩
    have hsource : isDep e.source = false := by
      rcases hends with ⟨hs, -⟩ | ⟨hs, -⟩ <;> exact isDep_of_regionKey (by rwa [hs])
    have htarget : isDep e.target = false := by
      rcases hends with ⟨-, ht⟩ | ⟨-, ht⟩ <;> exact isDep_of_regionKey (by rwa [ht])
    refine ⟨⟨hne, e, he, hsource, htarget, ?_⟩, ha, hb⟩
    rwa [← regionKey_file hsource, ← regionKey_file htarget]
  · rintro ⟨⟨hne, e, he, hsource, htarget, hends⟩, ha, hb⟩
    refine ⟨⟨hne, ha, hb⟩, e, he, ?_⟩
    unfold JoinsKeys
    rwa [regionKey_file hsource, regionKey_file htarget]

theorem crossFile_symm (g : MemoryGraph F) (a b : Str) (h : CrossFile g a b) : CrossFile g b a := by
  obtain ⟨hne, e, he, hsource, htarget, hends⟩ := h
  exact ⟨hne.symm, e, he, hsource, htarget, hends.symm⟩

theorem exists_ends_of_crossFile {g : MemoryGraph F} (hg : g.NoDangling) {a b : Str} (h : CrossFile g a b) :
    (∃ id ∈ g.nodes, isDep id = false ∧ fileOf id = a) ∧ ∃ id ∈ g.nodes, isDep id = false ∧ fileOf id = b := by
  obtain ⟨-, e, he, hsource, htarget, hends⟩ := h
  obtain ⟨hnodeSource, hnodeTarget⟩ := hg e he
  rcases hends with ⟨hs, ht⟩ | ⟨hs, ht⟩
  · exact ⟨⟨_, hnodeSource, hsource, hs⟩, ⟨_, hnodeTarget, htarget, ht⟩⟩
  · exact ⟨⟨_, hnodeTarget, htarget, ht⟩, ⟨_, hnodeSource, hsource, hs⟩⟩

theorem linked_eq_crossFile {g : MemoryGraph F} (hg : g.NoDangling) (hfree : ExternalIsFree g) :
    Linked g = CrossFile g := by
  funext a b
  refine propext ((linked_iff_crossFile g a b).trans (and_iff_left_of_imp fun hcross => ⟨?_, ?_⟩))
  · rintro rfl
    exact (hfree (exists_ends_of_crossFile hg hcross).1).2 b hcross
  · rintro rfl
    exact (hfree (exists_ends_of_crossFile hg hcross).2).2 a (crossFile_symm g a external hcross)

theorem partitionsByFile_iff {g : MemoryGraph F} (hg : g.NoDangling) {seen : Str → Prop}
    {clusters : BTreeMap Str (List Str)} (h : Clustered g seen clusters) (hkeys : ∀ id ∈ g.nodes, seen (regionKey id)) :
    PartitionsByFile g clusters ↔ ExternalIsFree g := by
  have hshare : ∀ a ∈ g.nodes, ∀ b ∈ g.nodes,
      (ShareRegion clusters a b ↔ ReflTransGen (Linked g) (regionKey a) (regionKey b)) := fun a ha b hb =>
    shareRegion_iff h ha hb (hkeys a ha)
  constructor
  · rintro hparts ⟨id, hid, hfile, hname⟩
    have hkey : regionKey id = external := (regionKey_file hfile).trans hname
    refine ⟨fun other hother => ?_, fun file hcross => ?_⟩
    · by_contra hdep
      rw [Bool.not_eq_false] at hdep
      have hsame : ShareRegion clusters other id := by
        rw [hshare other hother id hid, regionKey_dep hdep, hkey]
      rw [hparts.deps other hother hdep id hid, hfile] at hsame
      cases hsame
    · obtain ⟨⟨a, ha, hfileA, hnameA⟩, b, hb, hfileB, hnameB⟩ := exists_ends_of_crossFile hg hcross
      have hsame : ShareRegion clusters a b := by
        rw [hparts.files a ha hfileA b hb hfileB, hnameA, hnameB]
        exact .single hcross
      rw [hshare a ha b hb, regionKey_file hfileA, regionKey_file hfileB, hnameA, hnameB, reach_external_iff] at hsame
      exact hcross.1 hsame.symm
  · intro hfree
    refine ⟨fun id hid => existsUnique_region h hid (hkeys id hid), fun region members hmembers => ?_,
      fun a ha hdep b hb => ?_, fun a ha hfileA b hb hfileB => ?_⟩
    · obtain ⟨rep, -, hnodup, hholds⟩ := h.filed region members hmembers
      exact ⟨hnodup, fun id hid => ((hholds id).mp hid).1⟩
    · rw [hshare a ha b hb, regionKey_dep hdep, reach_external_iff]
      refine ⟨fun hkey => ?_, regionKey_dep⟩
      by_contra hfile
      rw [Bool.not_eq_true] at hfile
      have hnone := (hfree ⟨b, hb, hfile, (regionKey_file hfile).symm.trans hkey⟩).1 a ha
      rw [hdep] at hnone
      cases hnone
    · rw [hshare a ha b hb, regionKey_file hfileA, regionKey_file hfileB, linked_eq_crossFile hg hfree]

/-- The clusters are the partition by files, unless a file takes the key of the external dependencies. -/
theorem clusterNodes_partitions_iff {g : MemoryGraph F} (hg : g.NoDangling) :
    (∃ clusters, clusterNodes g = some clusters ∧ PartitionsByFile g clusters) ↔ ExternalIsFree g := by
  obtain ⟨clusters, hclusters⟩ := exists_clusterNodes (edgesHome_of_noDangling hg)
  obtain ⟨seen, hseen, hkeys⟩ := clustered_clusterNodes hclusters
  rw [← partitionsByFile_iff hg hseen hkeys]
  constructor
  · rintro ⟨clusters', hclusters', hparts⟩
    rw [hclusters] at hclusters'
    rwa [Option.some.inj hclusters']
  · exact fun hparts => ⟨clusters, hclusters, hparts⟩

/-- Two files that call each other, a third one, and a dependency of it. -/
def threeFiles : MemoryGraph ℚ :=
  MemoryGraph.ofEdges
    ["file:a.rs".toList, "sym:a.rs:f".toList, "file:b.rs".toList, "file:c.rs".toList, "dep:serde".toList]
    [("sym:a.rs:f".toList, "file:b.rs".toList, .calls), ("file:c.rs".toList, "dep:serde".toList, .dependsOn)]

theorem clusterNodes_three_files :
    ∃ clusters, clusterNodes threeFiles = some clusters ∧ PartitionsByFile threeFiles clusters := by
  have hnames : ∀ id ∈ threeFiles.nodes.keys, ¬ (isDep id = false ∧ fileOf id = external) := by decide
  refine (clusterNodes_partitions_iff (g := threeFiles)
    (show threeFiles.NoDangling by unfold MemoryGraph.NoDangling; decide)).mpr ?_
  rintro ⟨id, hid, hfile⟩
  exact absurd hfile (hnames id (ExtTreeMap.mem_keys.mpr hid))

/-- A file of that name, and a dependency of it. -/
def namedExternal : MemoryGraph ℚ :=
  MemoryGraph.ofEdges ["file:external".toList, "dep:serde".toList]
    [("file:external".toList, "dep:serde".toList, .dependsOn)]

/-- The file shares the region of the dependencies. -/
theorem clusterNodes_joins_dependencies :
    ¬ ∃ clusters, clusterNodes namedExternal = some clusters ∧ PartitionsByFile namedExternal clusters := by
  rintro ⟨clusters, hclusters, hparts⟩
  have hregion : ((clusterNodes namedExternal).bind (·["region:external".toList]?)) =
      some ["dep:serde".toList, "file:external".toList] := by decide
  rw [hclusters] at hregion
  have hshare : ShareRegion clusters "dep:serde".toList "file:external".toList :=
    ⟨"region:external".toList, ⟨_, hregion, by decide⟩, ⟨_, hregion, by decide⟩⟩
  have hdep := (hparts.deps _ (by decide) (by decide) _ (by decide)).mp hshare
  exact absurd hdep (by decide)

end Ccos.ContextRegionEngine
