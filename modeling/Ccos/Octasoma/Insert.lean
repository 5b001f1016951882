import Ccos.Octasoma.Tree

/-!
# Inserting into the tree

Each call of an insert adds its items to a subtree and to the buckets, and touches nothing outside the
subtree. It returns, unless the ids run out.
-/

open scoped BigOperators

namespace Ccos.Octasoma

open Outcome

/-- The only reason for an insert to stop. -/
def Exhausted (e : Stop) : Prop := e = .idsExhausted

theorem index_of_some {α : Type} {xs : List α} {i : Nat} {x : α} (h : xs[i]? = some x) : index xs i = .ok x := by
  rw [index, h]

theorem index_meets {α : Type} {accepted : Stop → Prop} {xs : List α} {i : Nat} {x : α} (h : xs[i]? = some x) :
    Meets accepted (index xs i) fun y => x = y := by
  rw [index_of_some h]
  rfl

theorem freshId_meets (len : Nat) : Meets Exhausted (freshId len) fun id => id = len ∧ len < noId := by
  unfold freshId
  split
  · rename_i hlt
    exact ⟨rfl, hlt⟩
  · rfl

/-! ## What the buckets hold -/

theorem flatten_set {l : List (List ItemId)} {b : Nat} {old : List ItemId} (h : l[b]? = some old) (new : List ItemId) :
    (old : Multiset ItemId) + ((l.set b new).flatten : Multiset ItemId) = new + l.flatten := by
  induction l generalizing b with
  | nil => simp at h
  | cons x l ih =>
    cases b with
    | zero =>
      obtain rfl : x = old := by simpa using h
      rw [List.set_cons_zero, List.flatten_cons, List.flatten_cons, ← Multiset.coe_add, ← Multiset.coe_add,
        add_left_comm]
    | succ b =>
      rw [List.set_cons_succ, List.flatten_cons, List.flatten_cons, ← Multiset.coe_add, ← Multiset.coe_add,
        add_left_comm, ih (by simpa using h), add_left_comm]

namespace FractalMemory3D

open Octree

/-- The call adds `more` to the subtree and to the buckets. -/
structure Adds (m m' : FractalMemory3D ℚ) (t t' : Octree) (center : Point ℚ) (half : ℚ) (more : Multiset ItemId) :
    Prop where
  holds : m'.Holds t' center half
  changes : m.Changes m' t t'
  items : t'.items = more + t.items
  books : (m'.leafBuckets.flatten : Multiset ItemId) = more + m.leafBuckets.flatten

section

variable {m m' m'' : FractalMemory3D ℚ} {t t' t'' : Octree} {center : Point ℚ} {half : ℚ} {more more' : Multiset ItemId}

theorem Adds.trans (h : m.Adds m' t t' center half more) (h' : m'.Adds m'' t' t'' center half more') :
    m.Adds m'' t t'' center half (more' + more) where
  holds := h'.holds
  changes := h.changes.trans h'.changes
  items := by rw [h'.items, h.items, add_assoc]
  books := by rw [h'.books, h.books, add_assoc]

theorem Adds.update {id : NodeId} {children : Fin 8 → Octree} {o : Fin 8} (h : m.Holds (.node id children) center half)
    (hadds : m.Adds m' (children o) t (childCenter center half o) (half * (1 / 2)) more)
    (hroot : t.root = (children o).root) (hmore : Inside m more center half) :
    m.Adds m' (.node id children) (.node id (Function.update children o t)) center half more := by
  have hinside : Inside m' t.items center half := by
    intro i hi
    rw [hadds.changes.items_eq]
    rw [hadds.items] at hi
    rcases Multiset.mem_add.mp hi with hi | hi
    · exact hmore i hi
    · exact h.rep.inside i (Multiset.mem_sum.mpr ⟨o, Finset.mem_univ o, hi⟩)
  obtain ⟨hholds, hchanges⟩ := h.update hadds.changes hadds.holds hroot hinside
  exact ⟨hholds, hchanges, items_update children o hadds.items, hadds.books⟩

/-! ## A leaf takes one more item -/

theorem pushItem_adds {n : NodeId} {bucket : List ItemId} (h : m.Holds (.leaf n bucket) center half) {i : ItemId}
    (hi : Inside m {i} center half) :
    m.Adds (m.pushItem n i) (.leaf n bucket) (.leaf n (bucket ++ [i])) center half {i} := by
  obtain ⟨hnode, hbucket, hin⟩ := h.rep
  have hset : (m.pushItem n i).leafBuckets = m.leafBuckets.set n (bucket ++ [i]) := by
    unfold pushItem
    rw [List.modify_eq_set_getElem?, hbucket]
    rfl
  have hitems : ((bucket ++ [i] : List ItemId) : Multiset ItemId) = {i} + bucket := by
    rw [← Multiset.coe_add, add_comm]
    rfl
  refine ⟨⟨⟨?_, h.fits.ids⟩, ⟨hnode, ?_, ?_⟩, trivial⟩, ⟨rfl, le_rfl, ?_, fun _ hn => .inl hn⟩, hitems, ?_⟩
  · rw [hset, List.length_set]
    exact h.fits.buckets
  · rw [hset, List.getElem?_set_self]
    exact (List.getElem?_eq_some_iff.mp hbucket).1
  · intro j hj
    rw [hitems] at hj
    rcases Multiset.mem_add.mp hj with hj | hj
    · exact hi j hj
    · exact hin j hj
  · intro k _ hk
    refine ⟨rfl, ?_⟩
    rw [hset, List.getElem?_set_ne (Ne.symm hk)]
  · have hflat := flatten_set hbucket (bucket ++ [i])
    rw [hset]
    rw [hitems, add_assoc, add_left_comm] at hflat
    exact add_left_cancel hflat

/-! ## A child is created -/

theorem newLeaf_meets (h : m.Fits) (leafCenter : Point ℚ) (leafHalf : ℚ) :
    Meets Exhausted (m.newLeaf leafCenter leafHalf) fun r => m.nodes.length < noId ∧
      r = (m.nodes.length, m.addLeaf leafCenter leafHalf m.nodes.length) := by
  unfold newLeaf
  refine meets_bind (freshId_meets _) ?_
  rintro _ ⟨rfl, -⟩
  refine meets_bind (freshId_meets _) ?_
  rintro _ ⟨rfl, hlt⟩
  rw [h.buckets]
  exact meets_pure ⟨hlt, rfl⟩

theorem root_eq_noId (h : m.Holds t center half) : t.root = noId ↔ t = .absent := by
  constructor
  · intro heq
    cases t with
    | absent => rfl
    | leaf id bucket =>
      have hlt : id < m.nodes.length := h.rep.lt_length rfl
      exact absurd heq (Nat.ne_of_lt (hlt.trans_le h.fits.ids))
    | node id children =>
      have hlt : id < m.nodes.length := h.rep.lt_length (.inl rfl)
      exact absurd heq (Nat.ne_of_lt (hlt.trans_le h.fits.ids))
  · rintro rfl
    rfl

theorem Holds.child {id : NodeId} {children : Fin 8 → Octree} (h : m.Holds (.node id children) center half)
    (o : Fin 8) : m.Holds (children o) (childCenter center half o) (half * (1 / 2)) :=
  ⟨h.fits, h.rep.2.2.2 o, h.separate.2.2 o⟩

/-- An absent child becomes an empty leaf. -/
theorem createChild_adds {id : NodeId} {children : Fin 8 → Octree} (h : m.Holds (.node id children) center half)
    {o : Fin 8} (habsent : children o = .absent) (hroom : m.nodes.length < noId) :
    m.Adds ((m.addLeaf (childCenter center half o) (half * (1 / 2)) m.nodes.length).setChild id o m.nodes.length)
      (.node id children) (.node id (Function.update children o (.leaf m.nodes.length []))) center half 0 := by
  obtain ⟨hnode, hlt, hin, hchildren⟩ := h.rep
  obtain ⟨hself, hapart, hseparate⟩ := h.separate
  have hid : id < m.nodes.length := h.rep.lt_length (.inl rfl)
  have hlen := h.fits.buckets
  have hitems : ∑ o', (Function.update children o (.leaf m.nodes.length []) o').items = ∑ o', (children o').items := by
    have hnone : (Octree.leaf m.nodes.length []).items = 0 + (children o).items := by
      rw [habsent]
      rfl
    rw [items_update children o hnone, zero_add]
  -- The nodes of the new memory, old ones first.
  have hold : ∀ n, n < m.nodes.length → n ≠ id →
      ((m.addLeaf (childCenter center half o) (half * (1 / 2)) m.nodes.length).setChild id o m.nodes.length).nodes[n]? =
        m.nodes[n]? := by
    intro n hn hne
    unfold setChild addLeaf
    rw [List.getElem?_modify_ne _ _ (Ne.symm hne), List.getElem?_append_left hn]
  have hbuckets : ∀ n, n < m.nodes.length → (m.leafBuckets ++ [[]])[n]? = m.leafBuckets[n]? := by
    intro n hn
    rw [List.getElem?_append_left (by omega)]
  refine ⟨⟨⟨?_, ?_⟩, ⟨?_, hlt, ?_, ?_⟩, ?_, ?_, ?_⟩, ⟨rfl, ?_, ?_, ?_⟩, ?_, ?_⟩
  · simp [setChild, addLeaf, hlen]
  · simpa [setChild, addLeaf, Nat.succ_le_iff] using hroom
  · unfold setChild addLeaf
    rw [List.getElem?_modify_eq, List.getElem?_append_left hid, hnode, root_update]
    rfl
  · rw [hitems]
    exact hin
  · intro o'
    by_cases heq : o' = o
    · rw [heq, Function.update_self]
      refine ⟨?_, ?_, fun i hi => absurd hi (Multiset.notMem_zero i)⟩
      · unfold setChild addLeaf
        rw [List.getElem?_modify_ne _ _ hid.ne, List.getElem?_append_right le_rfl, Nat.sub_self]
        rfl
      show (m.leafBuckets ++ [[]])[m.nodes.length]? = some []
      rw [← hlen, List.getElem?_append_right le_rfl, Nat.sub_self]
      rfl
    · rw [Function.update_of_ne heq]
      refine (hchildren o').frame (fun _ _ hitem => hitem) rfl fun n hn => ?_
      have hlt' := (hchildren o').lt_length hn
      have hne : n ≠ id := fun hnid => hself o' (hnid ▸ hn)
      exact ⟨hold n hlt' hne, hbuckets n hlt'⟩
  · intro o' hhas
    by_cases heq : o' = o
    · rw [heq, Function.update_self] at hhas
      exact hid.ne hhas
    · rw [Function.update_of_ne heq] at hhas
      exact hself o' hhas
  · intro a b hab n ha hb
    by_cases hao : a = o
    · have hbo : b ≠ o := fun hbo => hab (hao.trans hbo.symm)
      rw [hao, Function.update_self] at ha
      rw [Function.update_of_ne hbo] at hb
      exact ((hchildren b).lt_length hb).ne ha
    · rw [Function.update_of_ne hao] at ha
      by_cases hbo : b = o
      · rw [hbo, Function.update_self] at hb
        exact ((hchildren a).lt_length ha).ne hb
      · rw [Function.update_of_ne hbo] at hb
        exact hapart a b hab n ha hb
  · intro o'
    by_cases heq : o' = o
    · rw [heq, Function.update_self]
      trivial
    · rw [Function.update_of_ne heq]
      exact hseparate o'
  · simp [setChild, addLeaf]
  · intro n hn hout
    exact ⟨hold n hn fun hnid => hout (.inl hnid), hbuckets n hn⟩
  · rintro n (rfl | ⟨o', hhas⟩)
    · exact .inl (.inl rfl)
    · by_cases heq : o' = o
      · rw [heq, Function.update_self] at hhas
        exact .inr (le_of_eq hhas.symm)
      · rw [Function.update_of_ne heq] at hhas
        exact .inl (.inr ⟨o', hhas⟩)
  · exact hitems.trans (zero_add _).symm
  · unfold setChild addLeaf
    rw [List.flatten_append, zero_add]
    simp

theorem Adds.refl (h : m.Holds t center half) : m.Adds m t t center half 0 :=
  ⟨h, Changes.refl m t, (zero_add _).symm, (zero_add _).symm⟩

/-- The child of an octant as it was, or an empty leaf where there was none. -/
theorem lazyChild_meets {id : NodeId} {children : Fin 8 → Octree} (h : m.Holds (.node id children) center half)
    (o : Fin 8) : Meets Exhausted (m.lazyChild id o) fun r => ∃ t : Octree, r.1 = t.root ∧ t ≠ .absent ∧
      (t = children o ∨ ∃ n, t = .leaf n []) ∧
      m.Adds r.2 (.node id children) (.node id (Function.update children o t)) center half 0 := by
  unfold lazyChild
  refine meets_bind (index_meets h.rep.1) ?_
  rintro _ rfl
  dsimp only
  by_cases habsent : children o = .absent
  · rw [if_pos ((root_eq_noId (h.child o)).mpr habsent)]
    refine meets_bind (newLeaf_meets h.fits _ _) ?_
    rintro _ ⟨hroom, rfl⟩
    refine meets_pure ⟨.leaf m.nodes.length [], rfl, nofun, .inr ⟨_, rfl⟩, ?_⟩
    exact createChild_adds h habsent hroom
  · rw [if_neg (mt (root_eq_noId (h.child o)).mp habsent)]
    refine meets_pure ⟨children o, rfl, habsent, .inl rfl, ?_⟩
    rw [Function.update_eq_self]
    exact Adds.refl h

/-! ## A leaf is subdivided -/

/-- The children of a node that has just been subdivided. -/
def Shallow (children : Fin 8 → Octree) : Prop := ∀ o, children o = .absent ∨ ∃ n bucket, children o = .leaf n bucket

theorem Shallow.update {children : Fin 8 → Octree} (h : Shallow children) (o : Fin 8) (n : NodeId)
    (bucket : List ItemId) : Shallow (Function.update children o (.leaf n bucket)) := by
  intro o'
  by_cases heq : o' = o
  · rw [heq, Function.update_self]
    exact .inr ⟨n, bucket, rfl⟩
  · rw [Function.update_of_ne heq]
    exact h o'

theorem moveItem_meets {id : NodeId} {children : Fin 8 → Octree} (h : m.Holds (.node id children) center half)
    (hshallow : Shallow children) {i : ItemId} (hi : Inside m {i} center half) :
    Meets Exhausted (moveItem id center m i) fun m' => ∃ children', Shallow children' ∧
      m.Adds m' (.node id children) (.node id children') center half {i} := by
  obtain ⟨item, hitem, hcube⟩ := hi i (Multiset.mem_singleton_self i)
  unfold moveItem
  refine meets_bind (index_meets hitem) ?_
  rintro _ rfl
  refine meets_bind (lazyChild_meets h _) ?_
  rintro ⟨child, m₁⟩ ⟨t, rfl, hpresent, ht, hadds⟩
  dsimp only
  obtain ⟨n, bucket, rfl⟩ : ∃ n bucket, t = .leaf n bucket := by
    rcases ht with rfl | ⟨n, rfl⟩
    · exact (hshallow _).resolve_left hpresent
    · exact ⟨n, [], rfl⟩
  have hleaf := hadds.holds.child (octantIndex center item.point)
  rw [Function.update_self] at hleaf
  have hinside : Inside m₁ {i} center half := by
    rw [Inside, hadds.changes.items_eq]
    exact hi
  have hchild : Inside m₁ {i} (childCenter center half (octantIndex center item.point)) (half * (1 / 2)) := by
    intro j hj
    obtain rfl := Multiset.mem_singleton.mp hj
    rw [hadds.changes.items_eq]
    exact ⟨item, hitem, inCube_child hcube⟩
  refine meets_bind (index_meets hleaf.rep.1) ?_
  rintro _ rfl
  refine meets_bind (index_meets hleaf.rep.2.1) ?_
  rintro _ rfl
  refine meets_pure ⟨_, hshallow.update (octantIndex center item.point) n (bucket ++ [i]), ?_⟩
  have hpush := pushItem_adds hleaf hchild
  have hin := Adds.update (o := octantIndex center item.point) hadds.holds
    (by rw [Function.update_self]; exact hpush) (by rw [Function.update_self]; rfl) hinside
  rw [Function.update_idem] at hin
  exact hadds.trans hin

theorem subdivide_meets {n : NodeId} {bucket : List ItemId} (h : m.Holds (.leaf n bucket) center half)
    (hsize : m.minHalfSize < half) :
    Meets Exhausted (m.subdivide n) fun m' => ∃ children,
      m.Adds m' (.leaf n bucket) (.node n children) center half 0 := by
  obtain ⟨hnode, hbucket, hin⟩ := h.rep
  have hn : n < m.nodes.length := h.rep.lt_length rfl
  unfold subdivide
  refine meets_bind (index_meets hnode) ?_
  rintro _ rfl
  refine meets_bind (index_meets hbucket) ?_
  rintro _ rfl
  dsimp only
  -- The leaf becomes an internal node without children.
  let m₁ : FractalMemory3D ℚ := { m with
    leafBuckets := m.leafBuckets.set n []
    nodes := m.nodes.set n ⟨center, half, fun _ => noId, noId⟩ }
  have hempty : (∑ o : Fin 8, ((fun _ => Octree.absent : Fin 8 → Octree) o).items) = 0 := Finset.sum_const_zero
  have hholds : m₁.Holds (.node n fun _ => .absent) center half := by
    refine ⟨⟨?_, ?_⟩, ⟨?_, hsize, ?_, fun _ => trivial⟩, fun _ => id, fun _ _ _ _ hk => hk.elim, fun _ => trivial⟩
    · show (m.leafBuckets.set n []).length = (m.nodes.set n _).length
      rw [List.length_set, List.length_set, h.fits.buckets]
    · show (m.nodes.set n _).length ≤ noId
      rw [List.length_set]
      exact h.fits.ids
    · exact List.getElem?_set_self hn
    · intro i hi
      rw [hempty] at hi
      exact absurd hi (Multiset.notMem_zero i)
  have hchanges : m.Changes m₁ (.leaf n bucket) (.node n fun _ => .absent) := by
    refine ⟨rfl, ?_, ?_, ?_⟩
    · show m.nodes.length ≤ (m.nodes.set n _).length
      rw [List.length_set]
    · intro k _ hk
      exact ⟨List.getElem?_set_ne (Ne.symm hk), List.getElem?_set_ne (Ne.symm hk)⟩
    · rintro k (rfl | ⟨_, hk⟩)
      · exact .inl rfl
      · exact hk.elim
  have hbooks : (bucket : Multiset ItemId) + (m₁.leafBuckets.flatten : Multiset ItemId) = m.leafBuckets.flatten := by
    have hflat := flatten_set hbucket []
    rwa [Multiset.coe_nil, zero_add] at hflat
  have hloop : Meets Exhausted (bucket.foldlM (moveItem n center) m₁) fun m' => ∃ children, Shallow children ∧
      m₁.Adds m' (.node n fun _ => .absent) (.node n children) center half bucket := by
    refine meets_foldlM (I := fun (done : List ItemId) m' => ∃ children, Shallow children ∧
      m₁.Adds m' (.node n fun _ => .absent) (.node n children) center half (done : Multiset ItemId)) ?_ ?_
    · exact ⟨_, fun _ => .inl rfl, Adds.refl hholds⟩
    · rintro done i m₂ hi ⟨children, hshallow, hadds⟩
      have hinside : Inside m₂ {i} center half := by
        intro j hj
        rw [hadds.changes.items_eq, Multiset.mem_singleton.mp hj]
        exact hin i hi
      refine (moveItem_meets hadds.holds hshallow hinside).mono ?_
      rintro m₃ ⟨children', hshallow', hadds'⟩
      refine ⟨children', hshallow', ?_⟩
      have hmore := hadds.trans hadds'
      rwa [add_comm, show ({i} : Multiset ItemId) = ([i] : List ItemId) from rfl, Multiset.coe_add] at hmore
  refine hloop.mono ?_
  rintro m' ⟨children, -, hadds⟩
  refine ⟨children, hadds.holds, hchanges.trans hadds.changes, ?_, ?_⟩
  · rw [hadds.items]
    show (bucket : Multiset ItemId) + ∑ o : Fin 8, ((fun _ => Octree.absent : Fin 8 → Octree) o).items = _
    rw [hempty, add_zero, zero_add]
    rfl
  · rw [hadds.books, hbooks, zero_add]

/-! ## Routing an item -/

theorem ge_rat_iff {a b : ℚ} : Scalar.ge a b = true ↔ b ≤ a := by
  rw [ge_rat, decide_eq_true_iff]

/-- An internal node hands the item to the child of its octant. -/
theorem routeFrom_node_meets {fuel : Nat} {id : NodeId} {children : Fin 8 → Octree}
    (h : m.Holds (.node id children) center half) {i : ItemId} {item : Item ℚ} (hitem : m.items[i]? = some item)
    (hcube : InCube item.point center half)
    (hbelow : ∀ (m₁ : FractalMemory3D ℚ) (t : Octree), m₁.items = m.items → m₁.minHalfSize = m.minHalfSize →
      m₁.Holds t (childCenter center half (octantIndex center item.point)) (half * (1 / 2)) → t ≠ .absent →
      Meets Exhausted (routeFrom i item.point fuel m₁ t.root) fun m' => ∃ t', t'.root = t.root ∧
        m₁.Adds m' t t' (childCenter center half (octantIndex center item.point)) (half * (1 / 2)) {i}) :
    Meets Exhausted (routeFrom i item.point (fuel + 1) m id) fun m' => ∃ t', t'.root = id ∧
      m.Adds m' (.node id children) t' center half {i} := by
  rw [routeFrom]
  refine meets_bind (index_meets h.rep.1) ?_
  rintro _ rfl
  rw [if_pos rfl]
  refine meets_bind (lazyChild_meets h _) ?_
  rintro ⟨child, m₁⟩ ⟨t, rfl, hpresent, -, hadds⟩
  have hchild := hadds.holds.child (octantIndex center item.point)
  rw [Function.update_self] at hchild
  have hsame := hadds.changes.items_eq
  refine (hbelow m₁ t hsame hadds.changes.minHalfSize_eq hchild hpresent).mono ?_
  rintro m' ⟨t', hroot, hadds'⟩
  have hinside : Inside m₁ {i} center half := by
    intro j hj
    obtain rfl := Multiset.mem_singleton.mp hj
    exact ⟨item, (congrArg (·[j]?) hsame).trans hitem, hcube⟩
  have hin := Adds.update (o := octantIndex center item.point) hadds.holds
    (by rw [Function.update_self]; exact hadds') (by rw [Function.update_self]; exact hroot) hinside
  rw [Function.update_idem] at hin
  exact ⟨_, rfl, hadds.trans hin⟩

/-- A leaf takes the item, or is subdivided when it is full and may still be divided. -/
theorem routeFrom_leaf_meets {fuel : Nat} {n : NodeId} {bucket : List ItemId}
    (h : m.Holds (.leaf n bucket) center half) {i : ItemId} {item : Item ℚ} (hitem : m.items[i]? = some item)
    (hcube : InCube item.point center half)
    (hbelow : m.minHalfSize < half → ∀ (m₁ : FractalMemory3D ℚ) (children : Fin 8 → Octree),
      m.Adds m₁ (.leaf n bucket) (.node n children) center half 0 →
      Meets Exhausted (routeFrom i item.point fuel m₁ n) fun m' => ∃ t', t'.root = n ∧
        m₁.Adds m' (.node n children) t' center half {i}) :
    Meets Exhausted (routeFrom i item.point (fuel + 1) m n) fun m' => ∃ t', t'.root = n ∧
      m.Adds m' (.leaf n bucket) t' center half {i} := by
  have hn : n < m.nodes.length := h.rep.lt_length rfl
  have hleaf : (OctreeNode.leaf center half n).bucketId ≠ noId := Nat.ne_of_lt (hn.trans_le h.fits.ids)
  rw [routeFrom]
  refine meets_bind (index_meets h.rep.1) ?_
  rintro _ rfl
  rw [if_neg hleaf]
  refine meets_bind (index_meets h.rep.2.1) ?_
  rintro _ rfl
  split
  · refine meets_pure ⟨_, rfl, pushItem_adds h ?_⟩
    intro j hj
    obtain rfl := Multiset.mem_singleton.mp hj
    exact ⟨item, hitem, hcube⟩
  · rename_i hfull
    have hsize : m.minHalfSize < half := by
      rw [Bool.or_eq_true, ge_rat_iff, not_or] at hfull
      exact not_le.mp hfull.2
    refine meets_bind (subdivide_meets h hsize) ?_
    rintro m₁ ⟨children, hadds⟩
    refine (hbelow hsize m₁ children hadds).mono ?_
    rintro m' ⟨t', hroot, hadds'⟩
    exact ⟨t', hroot, hadds.trans hadds'⟩

/-- The loop ends in a leaf: every other turn at most halves the cube, down to the smallest size. -/
theorem routeFrom_meets {levels fuel : Nat} (h : m.Holds t center half) (hpresent : t ≠ .absent) {i : ItemId}
    {item : Item ℚ} (hitem : m.items[i]? = some item) (hcube : InCube item.point center half)
    (hlevels : half ≤ m.minHalfSize * 2 ^ levels) (hfuel : 2 * levels + 1 ≤ fuel) :
    Meets Exhausted (routeFrom i item.point fuel m t.root) fun m' => ∃ t', t'.root = t.root ∧
      m.Adds m' t t' center half {i} := by
  induction levels generalizing m t center half fuel with
  | zero =>
    rw [pow_zero, mul_one] at hlevels
    obtain ⟨fuel, rfl⟩ : ∃ n, fuel = n + 1 := ⟨fuel - 1, by omega⟩
    cases t with
    | absent => exact absurd rfl hpresent
    | node id children => exact absurd h.rep.2.1 (not_lt.mpr hlevels)
    | leaf n bucket =>
      apply routeFrom_leaf_meets h hitem hcube
      intro hsize
      exact absurd hsize (not_lt.mpr hlevels)
  | succ levels ih =>
    have hhalf : half * (1 / 2) ≤ m.minHalfSize * 2 ^ levels := by
      rw [pow_succ] at hlevels
      linarith
    obtain ⟨fuel, rfl⟩ : ∃ n, fuel = n + 2 := ⟨fuel - 2, by omega⟩
    -- Below an internal node the cubes are half the size.
    have hnode : ∀ {m₁ : FractalMemory3D ℚ} {id : NodeId} {children : Fin 8 → Octree} (fuel : Nat),
        m₁.Holds (.node id children) center half → m₁.items = m.items → m₁.minHalfSize = m.minHalfSize →
        2 * levels + 1 ≤ fuel → Meets Exhausted (routeFrom i item.point (fuel + 1) m₁ id) fun m' => ∃ t', t'.root = id ∧
          m₁.Adds m' (.node id children) t' center half {i} := by
      intro m₁ id children fuel h₁ hsame hmin hfuel
      apply routeFrom_node_meets h₁ (hsame ▸ hitem) hcube
      intro m₂ t₂ hsame₂ hmin₂ h₂ hpresent₂
      exact ih h₂ hpresent₂ (by rw [hsame₂, hsame]; exact hitem) (inCube_child hcube)
        (by rw [hmin₂, hmin]; exact hhalf) hfuel
    cases t with
    | absent => exact absurd rfl hpresent
    | node id children => exact hnode (fuel + 1) h rfl rfl (by omega)
    | leaf n bucket =>
      apply routeFrom_leaf_meets h hitem hcube
      intro _ m₁ children hadds
      exact hnode fuel hadds.holds hadds.changes.items_eq hadds.changes.minHalfSize_eq (by omega)

end

end FractalMemory3D

end Ccos.Octasoma
