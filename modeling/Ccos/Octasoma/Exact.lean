import Ccos.Octasoma.Grow
import Ccos.Octasoma.Search

/-!
# The search is exact

Every stored item has one place in the tree, and a search through the tree finds the same distances as a
look at all items. The result set is allocated for `k` entries up front, so `k` must leave room for them.
-/

open scoped BigOperators

namespace Ccos.Octasoma

open Outcome

namespace FractalMemory3D

open Octree

/-! ## Paths -/

/-- A path from a node down to a leaf whose bucket holds the item. -/
inductive Leads (m : FractalMemory3D ℚ) (i : ItemId) : NodeId → List NodeId → Prop
  | leaf {n : NodeId} {node : OctreeNode ℚ} {bucket : List ItemId} (hnode : m.nodes[n]? = some node)
      (hleaf : node.isLeaf = true) (hbucket : m.leafBuckets[node.bucketId]? = some bucket) (hi : i ∈ bucket) :
      Leads m i n [n]
  | child {n : NodeId} {node : OctreeNode ℚ} {o : Fin 8} {path : List NodeId} (hnode : m.nodes[n]? = some node)
      (hinternal : node.isLeaf = false) (hchild : node.children o ≠ noId) (hrest : Leads m i (node.children o) path) :
      Leads m i n (n :: path)

/-- The item is in one bucket, at the end of one path, and inside every cube on the way. -/
def InPlace (m : FractalMemory3D ℚ) (i : ItemId) (point : Point ℚ) : Prop :=
  m.leafBuckets.flatten.count i = 1 ∧ (∃ path, Leads m i 0 path ∧ ∀ path', Leads m i 0 path' → path' = path) ∧
    ∀ path, Leads m i 0 path → ∀ n ∈ path, ∃ node, m.nodes[n]? = some node ∧ InCube point node.center node.halfSize

variable {m : FractalMemory3D ℚ} {t : Octree} {center : Point ℚ} {half : ℚ} {i : ItemId}

theorem isLeaf_leaf {n : NodeId} {bucket : List ItemId} (h : m.Holds (.leaf n bucket) center half) :
    (OctreeNode.leaf center half n).isLeaf = true := by
  have hn : n < m.nodes.length := h.rep.lt_length rfl
  exact decide_eq_true (Nat.ne_of_lt (hn.trans_le h.fits.ids))

theorem exists_leads (h : m.Holds t center half) (hi : i ∈ t.items) : ∃ path, Leads m i t.root path := by
  induction t generalizing center half with
  | absent => exact absurd hi (Multiset.notMem_zero i)
  | leaf n bucket => exact ⟨[n], .leaf h.rep.1 (isLeaf_leaf h) h.rep.2.1 hi⟩
  | node id children ih =>
    obtain ⟨o, -, ho⟩ := Multiset.mem_sum.mp hi
    obtain ⟨path, hpath⟩ := ih o (h.child o) ho
    have hpresent : children o ≠ .absent := by
      intro habsent
      rw [habsent] at ho
      exact Multiset.notMem_zero i ho
    exact ⟨id :: path, .child h.rep.1 (decide_eq_false (not_not.mpr rfl)) (mt (root_eq_noId (h.child o)).mp hpresent) hpath⟩

/-- The first step of a path, read in the tree. -/
theorem Leads.cases (h : m.Holds t center half) (hpresent : t ≠ .absent) {path : List NodeId}
    (hpath : Leads m i t.root path) :
    (∃ n bucket, t = .leaf n bucket ∧ i ∈ bucket ∧ path = [n]) ∨
      ∃ id children o rest, t = .node id children ∧ children o ≠ .absent ∧ Leads m i (children o).root rest ∧
        path = id :: rest := by
  cases t with
  | absent => exact absurd rfl hpresent
  | leaf n bucket =>
    have hnode : m.nodes[n]? = some (OctreeNode.leaf center half n) := h.rep.1
    cases hpath with
    | leaf hnode' hleaf hbucket hi =>
      obtain rfl := Option.some.inj (hnode.symm.trans hnode')
      obtain rfl := Option.some.inj (hbucket.symm.trans h.rep.2.1)
      exact .inl ⟨n, _, rfl, hi, rfl⟩
    | child hnode' hinternal hchild hrest =>
      obtain rfl := Option.some.inj (hnode.symm.trans hnode')
      rw [isLeaf_leaf h] at hinternal
      cases hinternal
  | node id children =>
    have hnode : m.nodes[id]? = some ⟨center, half, fun o => (children o).root, noId⟩ := h.rep.1
    cases hpath with
    | leaf hnode' hleaf hbucket hi =>
      obtain rfl := Option.some.inj (hnode.symm.trans hnode')
      exact absurd rfl (of_decide_eq_true hleaf)
    | child hnode' hinternal hchild hrest =>
      obtain rfl := Option.some.inj (hnode.symm.trans hnode')
      refine .inr ⟨id, children, _, _, rfl, ?_, hrest, rfl⟩
      intro habsent
      exact hchild (congrArg root habsent)

theorem mem_items_of_leads (h : m.Holds t center half) (hpresent : t ≠ .absent) {path : List NodeId}
    (hpath : Leads m i t.root path) : i ∈ t.items := by
  induction t generalizing center half path with
  | absent => exact absurd rfl hpresent
  | leaf n bucket =>
    rcases hpath.cases h hpresent with ⟨_, _, heq, hi, -⟩ | ⟨_, _, _, _, heq, -⟩
    · obtain ⟨-, rfl⟩ := Octree.leaf.inj heq
      exact hi
    · cases heq
  | node id children ih =>
    rcases hpath.cases h hpresent with ⟨_, _, heq, -⟩ | ⟨_, _, o, rest, heq, hchild, hrest, -⟩
    · cases heq
    · obtain ⟨-, rfl⟩ := Octree.node.inj heq
      exact Multiset.mem_sum.mpr ⟨o, Finset.mem_univ o, ih o (h.child o) hchild hrest⟩

/-- Every cube on the way contains the item. -/
theorem inCube_of_leads (h : m.Holds t center half) (hpresent : t ≠ .absent) {item : Item ℚ}
    (hitem : m.items[i]? = some item) {path : List NodeId} (hpath : Leads m i t.root path) {n : NodeId} (hn : n ∈ path) :
    ∃ node, m.nodes[n]? = some node ∧ InCube item.point node.center node.halfSize := by
  induction t generalizing center half path with
  | absent => exact absurd rfl hpresent
  | leaf id bucket =>
    rcases hpath.cases h hpresent with ⟨_, _, heq, hi, rfl⟩ | ⟨_, _, _, _, heq, -⟩
    · obtain ⟨rfl, rfl⟩ := Octree.leaf.inj heq
      obtain rfl := List.mem_singleton.mp hn
      obtain ⟨item', hitem', hcube⟩ := h.rep.inside i hi
      obtain rfl := Option.some.inj (hitem'.symm.trans hitem)
      exact ⟨_, h.rep.1, hcube⟩
    · cases heq
  | node id children ih =>
    have hin := mem_items_of_leads h hpresent hpath
    rcases hpath.cases h hpresent with ⟨_, _, heq, -⟩ | ⟨_, _, o, rest, heq, hchild, hrest, rfl⟩
    · cases heq
    · obtain ⟨rfl, rfl⟩ := Octree.node.inj heq
      rcases List.mem_cons.mp hn with rfl | hn
      · obtain ⟨item', hitem', hcube⟩ := h.rep.inside i hin
        obtain rfl := Option.some.inj (hitem'.symm.trans hitem)
        exact ⟨_, h.rep.1, hcube⟩
      · exact ih o (h.child o) hchild hrest hn

/-- The subtree that holds an item is the only one. -/
theorem leads_unique (h : m.Holds t center half) (hpresent : t ≠ .absent) (hnodup : t.items.Nodup)
    {path path' : List NodeId} (hpath : Leads m i t.root path) (hpath' : Leads m i t.root path') : path = path' := by
  induction t generalizing center half path path' with
  | absent => exact absurd rfl hpresent
  | leaf id bucket =>
    rcases hpath.cases h hpresent with ⟨_, _, heq, -, rfl⟩ | ⟨_, _, _, _, heq, -⟩
    · rcases hpath'.cases h hpresent with ⟨_, _, heq', -, rfl⟩ | ⟨_, _, _, _, heq', -⟩
      · rw [(Octree.leaf.inj heq).1.symm, (Octree.leaf.inj heq').1]
      · cases heq'
    · cases heq
  | node id children ih =>
    rcases hpath.cases h hpresent with ⟨_, _, heq, -⟩ | ⟨_, _, o, rest, heq, hchild, hrest, rfl⟩
    · cases heq
    obtain ⟨rfl, rfl⟩ := Octree.node.inj heq
    rcases hpath'.cases h hpresent with ⟨_, _, heq', -⟩ | ⟨_, _, o', rest', heq', hchild', hrest', rfl⟩
    · cases heq'
    obtain ⟨rfl, rfl⟩ := Octree.node.inj heq'
    have hsplit : (Octree.node id children).items = (children o).items + ∑ x ∈ Finset.univ.erase o, (children x).items :=
      (Finset.add_sum_erase Finset.univ (fun x => (children x).items) (Finset.mem_univ o)).symm
    rw [hsplit, Multiset.nodup_add] at hnodup
    have hi := mem_items_of_leads (h.child o) hchild hrest
    have hi' := mem_items_of_leads (h.child o') hchild' hrest'
    by_cases heqo : o' = o
    · subst heqo
      rw [ih o' (h.child o') hchild hnodup.1 hrest hrest']
    · have hother : i ∈ ∑ x ∈ Finset.univ.erase o, (children x).items :=
        Multiset.mem_sum.mpr ⟨o', Finset.mem_erase.mpr ⟨heqo, Finset.mem_univ o'⟩, hi'⟩
      exact absurd hother (Multiset.disjoint_left.mp hnodup.2.2 hi)

theorem inPlace_of_wellFormed (h : m.WellFormed) {item : Item ℚ} (hitem : m.items[i]? = some item) :
    m.InPlace i item.point := by
  obtain ⟨t, hroot, hholds, hitems⟩ := h.tree
  have hi : i < m.items.length := (List.getElem?_eq_some_iff.mp hitem).1
  have hpresent : t ≠ .absent := by
    rintro rfl
    exact absurd hroot (by decide)
  have hin : i ∈ t.items := by
    rw [hitems]
    exact Multiset.mem_range.mpr hi
  refine ⟨?_, ?_, ?_⟩
  · rw [← Multiset.coe_count, h.books]
    exact Multiset.count_eq_one_of_mem (Multiset.nodup_range _) (Multiset.mem_range.mpr hi)
  · obtain ⟨path, hpath⟩ := exists_leads hholds hin
    rw [hroot] at hpath
    refine ⟨path, hpath, fun path' hpath' => ?_⟩
    rw [← hroot] at hpath hpath'
    exact leads_unique hholds hpresent (hitems ▸ Multiset.nodup_range _) hpath' hpath
  · intro path hpath n hn
    rw [← hroot] at hpath
    exact inCube_of_leads hholds hpresent hitem hpath hn

/-! ## The search -/

/-- The search returns the nearest items, in the distances that a look at all of them finds. -/
def SearchExact (m : FractalMemory3D ℚ) (q : Point ℚ) (k : Nat) : Prop :=
  ∃ fuel₀, ∀ fuel, fuel₀ ≤ fuel → ∃ found reference : List (ItemId × ℚ),
    m.nearest fuel q k = .ok found ∧ m.nearestBruteforce q k = .ok reference ∧
    found.length = min k m.items.length ∧ (found.map Prod.fst).Nodup ∧
    (∀ e ∈ found, ∃ item, m.items[e.1]? = some item ∧ e.2 = dist2 q item.point) ∧
    (found.map Prod.snd).Pairwise (· ≤ ·) ∧ found.map Prod.snd = reference.map Prod.snd

variable {q : Point ℚ} {k : Nat}

theorem intoSorted_perm (s : KnnSet ℚ) : s.intoSorted.Perm s.best := perm_sortBy _ _

theorem intoSorted_sorted (s : KnnSet ℚ) : (s.intoSorted.map Prod.snd).Pairwise (· ≤ ·) := by
  rw [List.pairwise_map]
  refine (pairwise_sortBy (Prod.snd : ItemId × ℚ → ℚ) s.best).imp ?_
  intro a b hab
  exact compare_le_iff_le.mp (Ordering.isLE_iff_ne_gt.mp hab)

theorem new_eq (hk : 1 ≤ k) (hfits : 8 * k < 2 ^ 63) : (KnnSet.new k : Except Stop (KnnSet ℚ)) = .ok ⟨k, []⟩ := by
  unfold KnnSet.new
  have hmax : Nat.max k 1 = k := Nat.max_eq_left hk
  rw [hmax]
  exact if_pos hfits

theorem empty_holdsNearest (hk : 1 ≤ k) : (⟨k, []⟩ : KnnSet ℚ).HoldsNearest k 0 := ⟨rfl, hk, Nearest.Holds.empty _ k⟩

/-- What a result set that was offered every item looks like. -/
theorem intoSorted_of_all {heap : KnnSet ℚ}
    (h : heap.HoldsNearest k ((Multiset.range m.items.length).map (m.entry q) + 0)) :
    heap.intoSorted.length = min k m.items.length ∧ (heap.intoSorted.map Prod.fst).Nodup ∧
      ∀ e ∈ heap.intoSorted, ∃ item, m.items[e.1]? = some item ∧ e.2 = dist2 q item.point := by
  rw [add_zero] at h
  obtain ⟨-, -, hbest⟩ := h
  have hperm := intoSorted_perm heap
  refine ⟨?_, ?_, ?_⟩
  · have hcard := hbest.card
    rw [Multiset.card_map, Multiset.card_range, Multiset.coe_card] at hcard
    rw [hperm.length_eq, hcard]
  · have hids : (heap.best.map Prod.fst : Multiset ItemId) ≤ Multiset.range m.items.length := by
      have hle := Multiset.map_le_map (f := (Prod.fst : ItemId × ℚ → ItemId)) hbest.le
      have hfst : Prod.fst ∘ m.entry q = id := rfl
      rwa [Multiset.map_map, hfst, Multiset.map_id] at hle
    exact (hperm.map Prod.fst).nodup_iff.mpr
      (Multiset.coe_nodup.mp (Multiset.nodup_of_le hids (Multiset.nodup_range _)))
  · intro e he
    have hmem : e ∈ (heap.best : Multiset (ItemId × ℚ)) := hperm.mem_iff.mp he
    obtain ⟨i, hi, rfl⟩ := Multiset.mem_map.mp (Multiset.mem_of_le hbest.le hmem)
    have hitem : m.items[i]? = some _ := List.getElem?_eq_getElem (Multiset.mem_range.mp hi)
    exact ⟨_, hitem, entry_snd hitem⟩

theorem nearest_of_wellFormed (h : m.WellFormed) (hk : 1 ≤ k) (hfits : 8 * k < 2 ^ 63) :
    ∃ fuel₀, ∀ fuel, fuel₀ ≤ fuel → ∃ heap : KnnSet ℚ, m.nearest fuel q k = .ok heap.intoSorted ∧
      heap.HoldsNearest k ((Multiset.range m.items.length).map (m.entry q) + 0) := by
  obtain ⟨t, hroot, hholds, hitems⟩ := h.tree
  have hpresent : t ≠ .absent := by
    rintro rfl
    exact absurd hroot (by decide)
  refine ⟨t.height, fun fuel hfuel => ?_⟩
  unfold nearest
  by_cases hempty : m.items = []
  · refine ⟨⟨k, []⟩, if_pos (.inr (.inl hempty)), ?_⟩
    rw [hempty]
    exact empty_holdsNearest hk
  · have hdescend : Meets Never (m.nnDescend q fuel t.root ⟨k, []⟩) fun heap =>
        heap.HoldsNearest k (t.items.map (m.entry q) + 0) :=
      nnDescend_meets hholds hpresent hfuel (empty_holdsNearest hk)
    rw [hroot, hitems] at hdescend
    obtain ⟨heap, heq, hheap⟩ := eq_ok_of_never hdescend
    refine ⟨heap, ?_, hheap⟩
    rw [if_neg, new_eq hk hfits]
    · show (m.nnDescend q fuel 0 ⟨k, []⟩ >>= fun heap => pure heap.intoSorted) = _
      rw [heq]
      rfl
    · rintro (hzero | hnil | hinfinite)
      · omega
      · exact hempty hnil
      · exact hinfinite rfl

theorem nearestBruteforce_eq (hk : 1 ≤ k) (hfits : 8 * k < 2 ^ 63) :
    ∃ heap : KnnSet ℚ, m.nearestBruteforce q k = .ok heap.intoSorted ∧
      heap.HoldsNearest k ((Multiset.range m.items.length).map (m.entry q) + 0) := by
  have hoffers : Meets Never ((List.range m.items.length).foldlM (m.offerItem q) ⟨k, []⟩) fun heap =>
      heap.HoldsNearest k (((List.range m.items.length : List ItemId) : Multiset ItemId).map (m.entry q) + 0) :=
    offerItems_meets (empty_holdsNearest hk) fun i hi => List.mem_range.mp hi
  obtain ⟨heap, heq, hheap⟩ := eq_ok_of_never hoffers
  refine ⟨heap, ?_, hheap⟩
  unfold nearestBruteforce
  rw [if_neg (by omega), new_eq hk hfits]
  show (List.foldlM (m.offerItem q) ⟨k, []⟩ (List.range m.items.length) >>= fun heap => pure heap.intoSorted) = _
  rw [heq]
  rfl

/-- The search is exact for every `k` whose result set can be allocated. -/
theorem searchExact_iff (h : m.WellFormed) (hk : 1 ≤ k) : m.SearchExact q k ↔ 8 * k < 2 ^ 63 := by
  constructor
  · rintro ⟨fuel₀, hall⟩
    obtain ⟨_, reference, -, hreference, -⟩ := hall fuel₀ le_rfl
    by_contra hlarge
    unfold nearestBruteforce KnnSet.new at hreference
    rw [if_neg (by omega), show Nat.max k 1 = k from Nat.max_eq_left hk] at hreference
    dsimp only at hreference
    rw [if_neg hlarge] at hreference
    cases hreference
  · intro hfits
    obtain ⟨fuel₀, hnearest⟩ := nearest_of_wellFormed (q := q) h hk hfits
    refine ⟨fuel₀, fun fuel hfuel => ?_⟩
    obtain ⟨heap, hfound, hheap⟩ := hnearest fuel hfuel
    obtain ⟨heap', hreference, hheap'⟩ := nearestBruteforce_eq (q := q) hk hfits
    obtain ⟨hlength, hnodup, hdistances⟩ := intoSorted_of_all hheap
    refine ⟨_, _, hfound, hreference, hlength, hnodup, hdistances, intoSorted_sorted heap, ?_⟩
    apply List.Perm.eq_of_pairwise (fun _ _ _ _ => le_antisymm) (intoSorted_sorted heap) (intoSorted_sorted heap')
    have hkeys := Nearest.Holds.map_key_eq hheap.2.2 hheap'.2.2
    have hsame : (heap.best.map Prod.snd).Perm (heap'.best.map Prod.snd) := Multiset.coe_eq_coe.mp hkeys
    exact ((intoSorted_perm heap).map _).trans (hsame.trans ((intoSorted_perm heap').map _).symm)

/-! ## Every run -/

variable {E : Type}

theorem exists_pow_bound (project : E → Option (Point ℚ)) (inserts : List (E × Option (List UInt8))) :
    ∃ doublings : Nat, ∀ insert ∈ inserts, ∀ point, project insert.1 = some point → maxCoord point ≤ 2 ^ doublings := by
  induction inserts with
  | nil => exact ⟨0, nofun⟩
  | cons insert inserts ih =>
    obtain ⟨doublings, hrest⟩ := ih
    obtain ⟨more, hmore⟩ : ∃ n : Nat, ∀ point, project insert.1 = some point → maxCoord point ≤ (2 : ℚ) ^ n := by
      cases hproject : project insert.1 with
      | none => exact ⟨0, nofun⟩
      | some point =>
        obtain ⟨n, hn⟩ := pow_unbounded_of_one_lt (maxCoord point) one_lt_two
        refine ⟨n, ?_⟩
        rintro _ ⟨⟩
        exact hn.le
    refine ⟨max doublings more, List.forall_mem_cons.mpr ⟨fun point hpoint => ?_, fun other hother point hpoint => ?_⟩⟩
    · exact (hmore point hpoint).trans (pow_le_pow_right₀ one_le_two (le_max_right _ _))
    · exact (hrest other hother point hpoint).trans (pow_le_pow_right₀ one_le_two (le_max_left _ _))

/-- Whatever is inserted, a run that does not exhaust the ids leaves every item in place, and its search is
exact for every `k` whose result set can be allocated. -/
theorem octree_search_exact_iff (project : E → Option (Point ℚ)) (highDim : Nat) (matrix : List ℚ)
    (bucketCapacity : Nat) {minHalfSize : ℚ} (hmin : 0 < minHalfSize) (inserts : List (E × Option (List UInt8))) :
    ∃ fuel₀, ∀ fuel, fuel₀ ≤ fuel →
      insertAll project fuel (newEmpty highDim matrix bucketCapacity minHalfSize) inserts ≠ .error .idsExhausted →
      ∃ m, insertAll project fuel (newEmpty highDim matrix bucketCapacity minHalfSize) inserts = .ok m ∧
        m.items.map Item.point = inserts.filterMap (fun insert => project insert.1) ∧
        (∀ (i : ItemId) (item : Item ℚ), m.items[i]? = some item → m.InPlace i item.point) ∧
        ∀ (q : Point ℚ) (k : Nat), 1 ≤ k → (m.SearchExact q k ↔ 8 * k < 2 ^ 63) := by
  obtain ⟨doublings, hcoord⟩ := exists_pow_bound project inserts
  obtain ⟨levels, hlevels⟩ := pow_unbounded_of_one_lt ((2 : ℚ) ^ doublings / minHalfSize) one_lt_two
  have hlevels' : (2 : ℚ) ^ doublings ≤ minHalfSize * 2 ^ levels := by
    rw [div_lt_iff₀ hmin, mul_comm] at hlevels
    exact hlevels.le
  refine ⟨max (doublings + 1) (2 * levels + 1), fun fuel hfuel hids => ?_⟩
  have hrun := insertAll_meets (newEmpty_wellFormed highDim matrix bucketCapacity minHalfSize)
    ⟨0, Nat.zero_le _, (pow_zero 2).symm⟩ hlevels' ((le_max_left _ _).trans hfuel) ((le_max_right _ _).trans hfuel) hcoord
  cases hresult : insertAll project fuel (newEmpty highDim matrix bucketCapacity minHalfSize) inserts with
  | error e =>
    rw [hresult] at hrun hids
    exact absurd (congrArg Except.error hrun) hids
  | ok m =>
    rw [hresult] at hrun
    obtain ⟨hwell, hpoints⟩ := hrun
    exact ⟨m, rfl, hpoints, fun i item hitem => inPlace_of_wellFormed hwell hitem, fun q k hk => searchExact_iff hwell hk⟩

def twoInserts : List (Point ℚ × Option (List UInt8)) := [(origin, none), (origin, some [7])]

theorem octree_search_exact_on_two :
    ∃ fuel₀, ∀ fuel, fuel₀ ≤ fuel →
      ∃ m, insertAll some fuel (newEmpty 3 [] 16 (1 / 1000000)) twoInserts = .ok m ∧
        m.items.map Item.point = [origin, origin] ∧
        (∀ (i : ItemId) (item : Item ℚ), m.items[i]? = some item → m.InPlace i item.point) ∧
        ∀ (q : Point ℚ) (k : Nat), 1 ≤ k → (m.SearchExact q k ↔ 8 * k < 2 ^ 63) := by
  obtain ⟨fuel₀, hall⟩ := octree_search_exact_iff (some : Point ℚ → Option (Point ℚ)) 3 [] 16
    (show (0 : ℚ) < 1 / 1000000 by norm_num) twoInserts
  refine ⟨max fuel₀ 5, fun fuel hfuel => hall fuel ((le_max_left _ _).trans hfuel) ?_⟩
  obtain ⟨n, rfl⟩ : ∃ n, fuel = n + 5 := ⟨fuel - 5, by omega⟩
  intro hexhausted
  have hok : (insertAll some (n + 5) (newEmpty 3 [] 16 (1 / 1000000)) twoInserts).isOk = true := rfl
  rw [hexhausted] at hok
  cases hok

def oneItem : FractalMemory3D ℚ where
  nodes := [OctreeNode.leaf origin 1 0]
  leafBuckets := [[0]]
  items := [⟨origin, 0, 0⟩]
  projectionMatrix := []
  highDim := 3
  payloadArena := []
  worldHalfSize := 1
  bucketCapacity := 16
  minHalfSize := 1 / 1000000

/-- A search for as many items as `usize` can name panics. -/
theorem search_for_all_panics :
    insertAll some 5 (newEmpty 3 [] 16 (1 / 1000000)) [((origin : Point ℚ), none)] = .ok oneItem ∧
      oneItem.nearest 5 origin (2 ^ 64 - 1) = .error .panic ∧
      oneItem.nearestBruteforce origin (2 ^ 64 - 1) = .error .panic ∧ ¬ oneItem.SearchExact origin (2 ^ 64 - 1) := by
  refine ⟨rfl, rfl, rfl, ?_⟩
  rintro ⟨fuel₀, hall⟩
  obtain ⟨_, reference, -, hreference, -⟩ := hall fuel₀ le_rfl
  have hpanic : oneItem.nearestBruteforce origin (2 ^ 64 - 1) = .error .panic := rfl
  rw [hpanic] at hreference
  cases hreference

end FractalMemory3D

end Ccos.Octasoma
