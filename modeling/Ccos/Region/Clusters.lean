import Ccos.Region.Engine
import Ccos.Memory.Facts

/-!
# Clustering ends

The search pops each file once, so that the number of files is fuel enough. Only an edge of a file
without nodes stops it.
-/

open Std

namespace Ccos.ContextRegionEngine

/-! ## One component -/

/-- Links lead to files that have an entry of their own. -/
def LinksInside (adj : FileSets) : Prop :=
  ∀ (key : Str) (found : BTreeMap Str Unit), adj[key]? = some found → ∀ other ∈ found, other ∈ adj

def unseen (adj : FileSets) (seen : BTreeMap Str Unit) : List Str := adj.keys.filter fun key => key ∉ seen

theorem length_unseen_insert {adj : FileSets} {seen : BTreeMap Str Unit} {key : Str} (hin : key ∈ adj)
    (hnew : key ∉ seen) : (unseen adj (seen.insert key ())).length + 1 ≤ (unseen adj seen).length := by
  have hsplit : unseen adj (seen.insert key ()) = (unseen adj seen).filter fun other => other ≠ key := by
    unfold unseen
    rw [List.filter_filter]
    congr 1
    funext other
    simp [@eq_comm _ key other]
  rw [hsplit]
  apply Nat.succ_le_of_lt
  rw [List.length_filter_lt_length_iff_exists]
  exact ⟨key, List.mem_filter.mpr ⟨ExtTreeMap.mem_keys.mpr hin, by simpa using hnew⟩, by simp⟩

theorem enqueue_cons (queue : List Str) (seen : BTreeMap Str Unit) (key : Str) (found : List Str) :
    enqueue queue seen (key :: found) =
      if key ∈ seen then enqueue queue seen found
      else enqueue (queue ++ [key]) (seen.insert key ()) found := by
  unfold enqueue
  rw [List.foldl_cons]
  dsimp only
  split <;> rfl

theorem enqueue_spec {adj : FileSets} (found : List Str) {queue : List Str} {seen : BTreeMap Str Unit}
    (hfound : ∀ key ∈ found, key ∈ adj) (hqueue : ∀ key ∈ queue, key ∈ adj) :
    (∀ key ∈ (enqueue queue seen found).1, key ∈ adj) ∧
      (enqueue queue seen found).1.length + (unseen adj (enqueue queue seen found).2).length ≤
        queue.length + (unseen adj seen).length := by
  induction found generalizing queue seen with
  | nil => exact ⟨hqueue, Nat.le_refl _⟩
  | cons key found ih =>
    have hin := hfound key List.mem_cons_self
    have hrest : ∀ other ∈ found, other ∈ adj := fun other ho => hfound other (List.mem_cons_of_mem _ ho)
    rw [enqueue_cons]
    split
    · exact ih hrest hqueue
    · next hnew =>
      have hlen := length_unseen_insert hin hnew
      have hnext : ∀ other ∈ queue ++ [key], other ∈ adj := fun other ho => by
        rcases List.mem_append.mp ho with ho | ho
        · exact hqueue other ho
        · exact List.mem_singleton.mp ho ▸ hin
      obtain ⟨hmem, hle⟩ := @ih (queue ++ [key]) (seen.insert key ()) hrest hnext
      refine ⟨hmem, hle.trans ?_⟩
      rw [List.length_append, List.length_singleton]
      omega

theorem exists_component {adj : FileSets} (h : LinksInside adj) {fuel : Nat} {queue : List Str}
    {seen : BTreeMap Str Unit} {popped : List Str} (hqueue : ∀ key ∈ queue, key ∈ adj)
    (hfuel : queue.length + (unseen adj seen).length ≤ fuel) :
    ∃ result, component adj fuel queue seen popped = some result := by
  induction fuel generalizing queue seen popped with
  | zero =>
    have hempty : queue = [] := List.eq_nil_of_length_eq_zero (by omega)
    subst hempty
    exact ⟨_, rfl⟩
  | succ fuel ih =>
    cases queue with
    | nil => exact ⟨_, rfl⟩
    | cons key queue =>
      obtain ⟨found, hget⟩ := exists_getElem?_of_mem (hqueue key List.mem_cons_self)
      obtain ⟨hmem, hle⟩ := @enqueue_spec adj found.keys queue seen
        (fun other ho => h key found hget other (ExtTreeMap.mem_keys.mp ho))
        (fun other ho => hqueue other (List.mem_cons_of_mem _ ho))
      rw [List.length_cons] at hfuel
      rw [component, hget, Option.bind_some]
      exact @ih (enqueue queue seen found.keys).1 (enqueue queue seen found.keys).2 (popped ++ [key]) hmem (by omega)

/-! ## The links -/

theorem linksInside_insert {adj : FileSets} (h : LinksInside adj) {a b : Str}
    {found : BTreeMap Str Unit} (ha : adj[a]? = some found) (hb : b ∈ adj) :
    LinksInside (adj.insert a (found.insert b ())) := by
  intro key other hget third hthird
  rw [mem_insert_iff]
  rw [getElem?_insert_eq] at hget
  split at hget
  · obtain rfl := Option.some.inj hget
    rcases mem_insert_iff.mp hthird with rfl | hthird
    · exact .inr hb
    · exact .inr (h a found ha third hthird)
  · exact .inr (h key other hget third hthird)

/-- A link between two files that have entries. -/
theorem exists_link {adj : FileSets} (h : LinksInside adj) {a b : Str} (ha : a ∈ adj) (hb : b ∈ adj) :
    ∃ adj', link adj a b = some adj' ∧ LinksInside adj' ∧ ∀ key, key ∈ adj' ↔ key ∈ adj := by
  obtain ⟨ofA, hofA⟩ := exists_getElem?_of_mem ha
  have hinside := linksInside_insert h hofA hb
  have hb' : b ∈ adj.insert a (ofA.insert b ()) := mem_insert_iff.mpr (.inr hb)
  have ha' : a ∈ adj.insert a (ofA.insert b ()) := mem_insert_iff.mpr (.inr ha)
  obtain ⟨ofB, hofB⟩ := exists_getElem?_of_mem hb'
  refine ⟨_, ?_, linksInside_insert hinside hofB ha', fun key => ?_⟩
  · unfold link
    rw [hofA, Option.bind_some]
    dsimp only
    rw [hofB, Option.map_some]
  · rw [mem_insert_iff, mem_insert_iff]
    constructor
    · rintro (rfl | rfl | hkey)
      · exact hb
      · exact ha
      · exact hkey
    · exact fun hkey => .inr (.inr hkey)

variable {F : Type}

/-- The files at both ends of every edge have nodes. -/
def EdgesHome (g : MemoryGraph F) : Prop :=
  ∀ e ∈ g.edges, regionKey e.source ∈ fileBuckets g ∧ regionKey e.target ∈ fileBuckets g

theorem exists_linkEdges {edges : List (GraphEdge F)} {adj : FileSets} (h : LinksInside adj)
    (hhome : ∀ e ∈ edges, regionKey e.source ∈ adj ∧ regionKey e.target ∈ adj) :
    ∃ adj', edges.foldlM linkEdge adj = some adj' ∧ LinksInside adj' ∧ ∀ key, key ∈ adj' ↔ key ∈ adj := by
  induction edges generalizing adj with
  | nil => exact ⟨adj, rfl, h, fun _ => Iff.rfl⟩
  | cons e edges ih =>
    obtain ⟨hs, ht⟩ := hhome e List.mem_cons_self
    have hone : ∃ adj', linkEdge adj e = some adj' ∧ LinksInside adj' ∧ ∀ key, key ∈ adj' ↔ key ∈ adj := by
      unfold linkEdge
      dsimp only
      split
      · exact exists_link h hs ht
      · exact ⟨adj, rfl, h, fun _ => Iff.rfl⟩
    obtain ⟨adj₁, hadj₁, hinside, hsame⟩ := hone
    obtain ⟨adj₂, hadj₂, hinside₂, hsame₂⟩ := ih hinside fun f hf => by
      rw [hsame, hsame]
      exact hhome f (List.mem_cons_of_mem _ hf)
    refine ⟨adj₂, ?_, hinside₂, fun key => (hsame₂ key).trans (hsame key)⟩
    rw [List.foldlM_cons, hadj₁]
    exact hadj₂

theorem mem_foldl_insert_empty (keys : List Str) (adj : FileSets) (key : Str) :
    key ∈ keys.foldl (fun adj key => adj.insert key ∅) adj ↔ key ∈ keys ∨ key ∈ adj := by
  induction keys generalizing adj with
  | nil => simp
  | cons first keys ih =>
    rw [List.foldl_cons, ih, mem_insert_iff, List.mem_cons]
    tauto

theorem linksInside_empty (keys : List Str) {adj : FileSets}
    (h : ∀ (key : Str) (found : BTreeMap Str Unit), adj[key]? = some found → found = ∅) :
    ∀ (key : Str) (found : BTreeMap Str Unit),
      (keys.foldl (fun adj key => adj.insert key ∅) adj)[key]? = some found → found = ∅ := by
  induction keys generalizing adj with
  | nil => exact h
  | cons first keys ih =>
    refine ih fun key found hget => ?_
    rw [getElem?_insert_eq] at hget
    split at hget
    · exact (Option.some.inj hget).symm
    · exact h key found hget

theorem exists_clusterNodes {g : MemoryGraph F} (h : EdgesHome g) : ∃ clusters, clusterNodes g = some clusters := by
  have hstart : LinksInside ((fileBuckets g).keys.foldl (fun adj key => adj.insert key ∅) ∅) := by
    intro key found hget other hother
    rw [linksInside_empty _ (by simp) key found hget] at hother
    simp at hother
  obtain ⟨adj, hadj, hinside, hsame⟩ := exists_linkEdges hstart fun e he => by
    simp only [mem_foldl_insert_empty, ExtTreeMap.mem_keys]
    exact ⟨.inl (h e he).1, .inl (h e he).2⟩
  have hkeys : ∀ key ∈ (fileBuckets g).keys, key ∈ adj := fun key hkey =>
    (hsame key).mpr ((mem_foldl_insert_empty _ _ _).mpr (.inl hkey))
  have hloop : ∀ (keys : List Str) state, (∀ key ∈ keys, key ∈ adj) →
      ∃ result, keys.foldlM (clusterFrom (fileBuckets g) adj) state = some result := by
    intro keys
    induction keys with
    | nil => exact fun state _ => ⟨state, rfl⟩
    | cons key keys ih =>
      intro state hin
      have hkey := hin key List.mem_cons_self
      have hone : ∃ next, clusterFrom (fileBuckets g) adj state key = some next := by
        unfold clusterFrom
        dsimp only
        split
        · exact ⟨state, rfl⟩
        · next hskip =>
          rw [not_or] at hskip
          have hlen := length_unseen_insert hkey hskip.1
          have hsize : (unseen adj state.1).length ≤ adj.size := by
            rw [← ExtTreeMap.length_keys]
            exact List.length_filter_le _ _
          have hfuel : [key].length + (unseen adj (state.1.insert key ())).length ≤ adj.size := by
            rw [List.length_singleton]
            omega
          obtain ⟨result, hresult⟩ := @exists_component adj hinside adj.size [key] (state.1.insert key ()) []
            (fun other ho => List.mem_singleton.mp ho ▸ hkey) hfuel
          rw [hresult]
          exact ⟨_, rfl⟩
      obtain ⟨next, hnext⟩ := hone
      obtain ⟨result, hresult⟩ := ih next fun other ho => hin other (List.mem_cons_of_mem _ ho)
      refine ⟨result, ?_⟩
      rw [List.foldlM_cons, hnext]
      exact hresult
  obtain ⟨result, hresult⟩ := hloop _ (∅, ∅) hkeys
  refine ⟨_, Option.bind_eq_some_iff.mpr ⟨adj, hadj, Option.bind_eq_some_iff.mpr ⟨result, hresult, rfl⟩⟩⟩

end Ccos.ContextRegionEngine
