import Ccos.Octasoma.Memory
import Ccos.Lib.Outcome

/-!
# The tree in the arrays

What the arrays of a memory stand for: a tree of cubes that owns its nodes, with the items of a subtree
inside its cube.
-/

open scoped BigOperators

namespace Ccos.Octasoma

open Outcome

inductive Octree
  | absent
  | leaf (id : NodeId) (bucket : List ItemId)
  | node (id : NodeId) (children : Fin 8 → Octree)

namespace Octree

def root : Octree → NodeId
  | .absent => noId
  | .leaf id _ => id
  | .node id _ => id

/-- The node belongs to the tree. -/
def Has : Octree → NodeId → Prop
  | .absent, _ => False
  | .leaf id _, n => n = id
  | .node id children, n => n = id ∨ ∃ o, (children o).Has n

def items : Octree → Multiset ItemId
  | .absent => 0
  | .leaf _ bucket => bucket
  | .node _ children => ∑ o, (children o).items

/-- No node occurs twice. -/
def Separate : Octree → Prop
  | .absent => True
  | .leaf _ _ => True
  | .node id children =>
    (∀ o, ¬ (children o).Has id) ∧ (∀ o o', o ≠ o' → ∀ n, (children o).Has n → ¬ (children o').Has n) ∧
      ∀ o, (children o).Separate

/-- Every item is inside the cube. -/
def Inside (m : FractalMemory3D ℚ) (ids : Multiset ItemId) (center : Point ℚ) (half : ℚ) : Prop :=
  ∀ i ∈ ids, ∃ item, m.items[i]? = some item ∧ InCube item.point center half

/-- The memory holds the tree, in the given cube. -/
def Rep (m : FractalMemory3D ℚ) : Octree → Point ℚ → ℚ → Prop
  | .absent, _, _ => True
  | .leaf id bucket, center, half =>
    m.nodes[id]? = some (OctreeNode.leaf center half id) ∧ m.leafBuckets[id]? = some bucket ∧
      Inside m bucket center half
  | .node id children, center, half =>
    m.nodes[id]? = some ⟨center, half, fun o => (children o).root, noId⟩ ∧ m.minHalfSize < half ∧
      Inside m (∑ o, (children o).items) center half ∧
      ∀ o, (children o).Rep m (childCenter center half o) (half * (1 / 2))

theorem Rep.inside {m : FractalMemory3D ℚ} {t : Octree} {center : Point ℚ} {half : ℚ} (h : t.Rep m center half) :
    Inside m t.items center half := by
  cases t with
  | absent =>
    intro i hi
    exact absurd hi (Multiset.notMem_zero i)
  | leaf id bucket => exact h.2.2
  | node id children => exact h.2.2.1

theorem Rep.lt_length {m : FractalMemory3D ℚ} {t : Octree} {center : Point ℚ} {half : ℚ} (h : t.Rep m center half)
    {n : NodeId} (hn : t.Has n) : n < m.nodes.length := by
  induction t generalizing center half with
  | absent => exact hn.elim
  | leaf id bucket =>
    obtain rfl := hn
    exact (List.getElem?_eq_some_iff.mp h.1).1
  | node id children ih =>
    rcases hn with rfl | ⟨o, ho⟩
    · exact (List.getElem?_eq_some_iff.mp h.1).1
    · exact ih o (h.2.2.2 o) ho

/-- A tree is held as long as its own nodes, their buckets and the stored items stay as they are. -/
theorem Rep.frame {m m' : FractalMemory3D ℚ} {t : Octree} {center : Point ℚ} {half : ℚ} (h : t.Rep m center half)
    (hitems : ∀ (i : ItemId) (item : Item ℚ), m.items[i]? = some item → m'.items[i]? = some item)
    (hmin : m'.minHalfSize = m.minHalfSize)
    (hsame : ∀ n, t.Has n → m'.nodes[n]? = m.nodes[n]? ∧ m'.leafBuckets[n]? = m.leafBuckets[n]?) :
    t.Rep m' center half := by
  have hinside : ∀ ids center half, Inside m ids center half → Inside m' ids center half := by
    intro ids center half hin i hi
    obtain ⟨item, hitem, hcube⟩ := hin i hi
    exact ⟨item, hitems i item hitem, hcube⟩
  induction t generalizing center half with
  | absent => trivial
  | leaf id bucket =>
    obtain ⟨hnode, hbucket⟩ := hsame id rfl
    exact ⟨hnode.trans h.1, hbucket.trans h.2.1, hinside _ _ _ h.2.2⟩
  | node id children ih =>
    obtain ⟨hnode, hlt, hin, hchildren⟩ := h
    refine ⟨(hsame id (.inl rfl)).1.trans hnode, hmin ▸ hlt, hinside _ _ _ hin, ?_⟩
    intro o
    exact ih o (hchildren o) fun n hn => hsame n (.inr ⟨o, hn⟩)

/-! ## Replacing a child -/

theorem root_update (children : Fin 8 → Octree) (o : Fin 8) (t : Octree) :
    (fun o' => (Function.update children o t o').root) =
      Function.update (fun o' => (children o').root) o t.root := by
  funext o'
  by_cases h : o' = o
  · rw [h, Function.update_self, Function.update_self]
  · rw [Function.update_of_ne h, Function.update_of_ne h]

theorem items_update (children : Fin 8 → Octree) (o : Fin 8) {t : Octree} {more : Multiset ItemId}
    (h : t.items = more + (children o).items) :
    ∑ o', (Function.update children o t o').items = more + ∑ o', (children o').items := by
  have hfun : (fun o' => (Function.update children o t o').items) =
      Function.update (fun o' => (children o').items) o t.items := by
    funext o'
    by_cases ho : o' = o
    · rw [ho, Function.update_self, Function.update_self]
    · rw [Function.update_of_ne ho, Function.update_of_ne ho]
  rw [hfun, Finset.sum_update_of_mem (Finset.mem_univ o), h, add_assoc,
    ← Finset.add_sum_erase Finset.univ (fun o' => (children o').items) (Finset.mem_univ o), Finset.sdiff_singleton_eq_erase]

end Octree

/-! ## What a call may change -/

namespace FractalMemory3D

open Octree

/-- Every node has its own bucket, and no id reads as `NONE`. -/
structure Fits (m : FractalMemory3D ℚ) : Prop where
  buckets : m.leafBuckets.length = m.nodes.length
  ids : m.nodes.length ≤ noId

/-- Only nodes of the tree are changed, and only its nodes and fresh ones are in the new tree. -/
structure Changes (m m' : FractalMemory3D ℚ) (t t' : Octree) : Prop where
  same : m' = { m with nodes := m'.nodes, leafBuckets := m'.leafBuckets }
  length_le : m.nodes.length ≤ m'.nodes.length
  outside : ∀ n, n < m.nodes.length → ¬ t.Has n → m'.nodes[n]? = m.nodes[n]? ∧ m'.leafBuckets[n]? = m.leafBuckets[n]?
  fresh : ∀ n, t'.Has n → t.Has n ∨ m.nodes.length ≤ n

theorem Changes.items_eq {m m' : FractalMemory3D ℚ} {t t' : Octree} (h : m.Changes m' t t') : m'.items = m.items := by
  rw [h.same]

theorem Changes.stored {m m' : FractalMemory3D ℚ} {t t' : Octree} (h : m.Changes m' t t') (i : ItemId)
    (item : Item ℚ) (hitem : m.items[i]? = some item) : m'.items[i]? = some item := by
  rw [h.items_eq]
  exact hitem

theorem Changes.minHalfSize_eq {m m' : FractalMemory3D ℚ} {t t' : Octree} (h : m.Changes m' t t') :
    m'.minHalfSize = m.minHalfSize := by
  rw [h.same]

theorem Changes.refl (m : FractalMemory3D ℚ) (t : Octree) : m.Changes m t t :=
  ⟨rfl, le_rfl, fun _ _ _ => ⟨rfl, rfl⟩, fun _ h => .inl h⟩

theorem Changes.trans {m m' m'' : FractalMemory3D ℚ} {t t' t'' : Octree} (h : m.Changes m' t t')
    (h' : m'.Changes m'' t' t'') : m.Changes m'' t t'' where
  same := by rw [h'.same, h.same]
  length_le := h.length_le.trans h'.length_le
  outside := by
    intro n hn hout
    have hout' : ¬ t'.Has n := by
      intro hin
      rcases h.fresh n hin with hin | hle
      · exact hout hin
      · omega
    obtain ⟨hnode, hbucket⟩ := h.outside n hn hout
    obtain ⟨hnode', hbucket'⟩ := h'.outside n (hn.trans_le h.length_le) hout'
    exact ⟨hnode'.trans hnode, hbucket'.trans hbucket⟩
  fresh := by
    intro n hn
    rcases h'.fresh n hn with hn | hle
    · exact h.fresh n hn
    · exact .inr (h.length_le.trans hle)

/-- The memory holds the tree, and the tree owns its nodes. -/
structure Holds (m : FractalMemory3D ℚ) (t : Octree) (center : Point ℚ) (half : ℚ) : Prop where
  fits : m.Fits
  rep : t.Rep m center half
  separate : t.Separate

/-- A child that is changed in place. -/
theorem Holds.update {m m' : FractalMemory3D ℚ} {id : NodeId} {children : Fin 8 → Octree} {center : Point ℚ} {half : ℚ}
    (h : m.Holds (.node id children) center half) {o : Fin 8} {t : Octree} (hchanges : m.Changes m' (children o) t)
    (hchild : m'.Holds t (childCenter center half o) (half * (1 / 2))) (hroot : t.root = (children o).root)
    (hinside : Inside m' t.items center half) :
    m'.Holds (.node id (Function.update children o t)) center half ∧
      m.Changes m' (.node id children) (.node id (Function.update children o t)) := by
  obtain ⟨hnode, hlt, hin, hchildren⟩ := h.rep
  obtain ⟨hself, hapart, hseparate⟩ := h.separate
  have hid : id < m.nodes.length := h.rep.lt_length (.inl rfl)
  -- A node of the new child is an old node of the child or a fresh one.
  have hnew : ∀ n, n < m.nodes.length → t.Has n → (children o).Has n := by
    intro n hn hin
    rcases hchanges.fresh n hin with hin | hle
    · exact hin
    · omega
  refine ⟨⟨hchild.fits, ⟨?_, ?_, ?_, ?_⟩, ?_, ?_, ?_⟩, hchanges.same, hchanges.length_le, ?_, ?_⟩
  · rw [(hchanges.outside id hid (hself o)).1, hnode, root_update, hroot]
    simp only [Function.update_eq_self]
  · rw [hchanges.minHalfSize_eq]
    exact hlt
  · intro i hi
    obtain ⟨o', -, ho'⟩ := Multiset.mem_sum.mp hi
    by_cases heq : o' = o
    · rw [heq, Function.update_self] at ho'
      exact hinside i ho'
    · rw [Function.update_of_ne heq] at ho'
      rw [hchanges.items_eq]
      exact hin i (Multiset.mem_sum.mpr ⟨o', Finset.mem_univ o', ho'⟩)
  · intro o'
    by_cases heq : o' = o
    · rw [heq, Function.update_self]
      exact hchild.rep
    · rw [Function.update_of_ne heq]
      refine (hchildren o').frame hchanges.stored hchanges.minHalfSize_eq fun n hn => ?_
      exact hchanges.outside n ((hchildren o').lt_length hn) (hapart o' o heq n hn)
  · intro o' hhas
    by_cases heq : o' = o
    · rw [heq, Function.update_self] at hhas
      exact hself o (hnew id hid hhas)
    · rw [Function.update_of_ne heq] at hhas
      exact hself o' hhas
  · intro a b hab n ha hb
    by_cases hao : a = o
    · have hbo : b ≠ o := fun hbo => hab (hao.trans hbo.symm)
      rw [hao, Function.update_self] at ha
      rw [Function.update_of_ne hbo] at hb
      exact hapart o b (Ne.symm hbo) n (hnew n ((hchildren b).lt_length hb) ha) hb
    · rw [Function.update_of_ne hao] at ha
      by_cases hbo : b = o
      · rw [hbo, Function.update_self] at hb
        exact hapart a o hao n ha (hnew n ((hchildren a).lt_length ha) hb)
      · rw [Function.update_of_ne hbo] at hb
        exact hapart a b hab n ha hb
  · intro o'
    by_cases heq : o' = o
    · rw [heq, Function.update_self]
      exact hchild.separate
    · rw [Function.update_of_ne heq]
      exact hseparate o'
  · intro n hn hout
    exact hchanges.outside n hn fun hhas => hout (.inr ⟨o, hhas⟩)
  · rintro n (rfl | ⟨o', hhas⟩)
    · exact .inl (.inl rfl)
    · by_cases heq : o' = o
      · rw [heq, Function.update_self] at hhas
        exact (hchanges.fresh n hhas).imp_left fun hhas => .inr ⟨o, hhas⟩
      · rw [Function.update_of_ne heq] at hhas
        exact .inl (.inr ⟨o', hhas⟩)

end FractalMemory3D

end Ccos.Octasoma
