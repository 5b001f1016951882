import Ccos.Octasoma.Exact

/-!
# Zooming in

Every depth of the octree is a zoom level. A query leads from the root towards its leaf, and each cube on the way is
summarised: how many items it has, their mean point, and a few payloads.
-/

open scoped BigOperators

namespace Ccos.Octasoma

open Outcome

/-- `f32` to `f64` and back. -/
class Widens (F : Type) (D : outParam Type) where
  widen : F → D
  narrow : D → F

instance : Widens ℚ ℚ := ⟨id, id⟩

structure RegionView (F : Type) where
  level : Nat
  center : Point F
  halfSize : F
  count : Nat
  centroid : Point F
  samples : List (List UInt8)

/-- What `collect_region` has gathered. -/
structure Gathered (D : Type) where
  count : Nat
  sum : Point D
  samples : List (List UInt8)

namespace FractalMemory3D

section

variable {F D : Type} [Single F] [Scalar D] [Widens F D]

open Scalar Widens

def gatherItem (m : FractalMemory3D F) (maxSamples : Nat) (g : Gathered D) (item : ItemId) :
    Except Stop (Gathered D) := do
  let it ← index m.items item
  return { count := g.count + 1
           sum := fun a => g.sum a + widen (it.point a)
           samples := g.samples ++ if g.samples.length < maxSamples then (m.getPayload item).toList else [] }

def collectRegion (m : FractalMemory3D F) (maxSamples : Nat) :
    Nat → NodeId → Gathered D → Except Stop (Gathered D)
  | 0, _, _ => .error .outOfFuel
  | fuel + 1, n, g => do
    let node ← index m.nodes n
    if node.isLeaf then
      let bucket ← index m.leafBuckets node.bucketId
      bucket.foldlM (m.gatherItem maxSamples) g
    else
      (List.finRange 8).foldlM (fun g o =>
        if node.children o = noId then pure g else collectRegion m maxSamples fuel (node.children o) g) g

def summarize (fuel : Nat) (m : FractalMemory3D F) (maxSamples : Nat) (n : NodeId) (depth : Nat) :
    Except Stop (RegionView F) := do
  let node ← index m.nodes n
  let g ← m.collectRegion maxSamples fuel n ⟨0, fun _ => (lit 0 : D), []⟩
  return { level := depth
           center := node.center
           halfSize := node.halfSize
           count := g.count
           centroid := if 0 < g.count then fun a => narrow (g.sum a / ofNat g.count) else node.center
           samples := g.samples }

/-- The child on the way to the point: none at a leaf or an empty octant. -/
def childToward (m : FractalMemory3D F) (p : Point F) (n : NodeId) : Except Stop (Option NodeId) := do
  let node ← index m.nodes n
  if node.isLeaf then return none
  else
    let child := node.children (octantIndex node.center p)
    return if child = noId then none else some child

/-- The levels that are left to descend, from a node at some depth. -/
def descendAlong (m : FractalMemory3D F) (p : Point F) : Nat → NodeId → Nat → Except Stop (NodeId × Nat)
  | 0, node, depth => .ok (node, depth)
  | left + 1, node, depth => do
    match ← m.childToward p node with
    | none => return (node, depth)
    | some child => descendAlong m p left child (depth + 1)

/-- The summaries from a node on, with the levels that are left to descend. -/
def zoomFrom (fuel : Nat) (m : FractalMemory3D F) (p : Point F) (maxSamples : Nat) :
    Nat → NodeId → Nat → Except Stop (List (RegionView F))
  | 0, node, depth => do return [← m.summarize fuel maxSamples node depth]
  | left + 1, node, depth => do
    let view ← m.summarize fuel maxSamples node depth
    match ← m.childToward p node with
    | none => return [view]
    | some child => return view :: (← zoomFrom fuel m p maxSamples left child (depth + 1))

/-- The point of a query, when it is one that can be looked up. -/
def probe {E : Type} (project : E → Option (Point F)) (embedding : E) : Option (Point F) :=
  (project embedding).filter fun p => (List.finRange 3).all fun a => Single.isFinite (p a)

def zoom {E : Type} (project : E → Option (Point F)) (fuel : Nat) (m : FractalMemory3D F) (embedding : E)
    (level maxSamples : Nat) : Except Stop (Option (RegionView F)) :=
  match probe project embedding with
  | none => return none
  | some p => do
    let (node, depth) ← m.descendAlong p level 0 0
    return some (← m.summarize fuel maxSamples node depth)

def zoomPath {E : Type} (project : E → Option (Point F)) (fuel : Nat) (m : FractalMemory3D F) (embedding : E)
    (maxLevel maxSamples : Nat) : Except Stop (List (RegionView F)) :=
  match probe project embedding with
  | none => return []
  | some p => m.zoomFrom fuel p maxSamples maxLevel 0 0

end

/-! ## What a region has -/

open Octree

variable {m : FractalMemory3D ℚ} {center : Point ℚ} {half : ℚ}

def StrictlyIn (p center : Point ℚ) (half : ℚ) : Prop := ∀ a, |p a - center a| < half

/-- The coordinate of a stored item. -/
def coordinate (m : FractalMemory3D ℚ) (a : Fin 3) (i : ItemId) : ℚ :=
  ((m.items[i]?).map fun item => item.point a).getD 0

/-- `g'` is `g` with the items. -/
structure GathersMore (m : FractalMemory3D ℚ) (maxSamples : Nat) (ids : Multiset ItemId) (g g' : Gathered ℚ) :
    Prop where
  count : g'.count = g.count + ids.card
  sum : ∀ a, g'.sum a = g.sum a + (ids.map (m.coordinate a)).sum
  samples : g.samples.length ≤ maxSamples → g'.samples.length ≤ maxSamples
  sampled : g'.samples.length ≤ g.samples.length + ids.card

theorem GathersMore.refl (m : FractalMemory3D ℚ) (maxSamples : Nat) (g : Gathered ℚ) : m.GathersMore maxSamples 0 g g :=
  ⟨rfl, fun _ => (add_zero _).symm, id, le_rfl⟩

theorem GathersMore.trans {maxSamples : Nat} {ids ids' : Multiset ItemId} {g g' g'' : Gathered ℚ}
    (h : m.GathersMore maxSamples ids g g') (h' : m.GathersMore maxSamples ids' g' g'') :
    m.GathersMore maxSamples (ids + ids') g g'' where
  count := by rw [h'.count, h.count, Multiset.card_add, add_assoc]
  sum a := by rw [h'.sum, h.sum, Multiset.map_add, Multiset.sum_add, add_assoc]
  samples hle := h'.samples (h.samples hle)
  sampled := by
    have hfirst := h.sampled
    have hsecond := h'.sampled
    rw [Multiset.card_add]
    omega

theorem gatherItem_meets {maxSamples : Nat} (g : Gathered ℚ) {i : ItemId} (hi : i < m.items.length) :
    Meets Never (m.gatherItem maxSamples g i) fun g' => m.GathersMore maxSamples {i} g g' := by
  have hitem : m.items[i]? = some m.items[i] := List.getElem?_eq_getElem hi
  have hsample : ((m.getPayload i).toList).length ≤ 1 := by
    cases m.getPayload i <;> simp
  unfold gatherItem
  refine meets_bind (index_meets hitem) ?_
  rintro _ rfl
  refine meets_pure ⟨rfl, fun a => ?_, fun hle => ?_, ?_⟩
  · rw [Multiset.map_singleton, Multiset.sum_singleton, coordinate, hitem]
    rfl
  · rw [List.length_append]
    split
    · omega
    · exact hle
  · rw [List.length_append, Multiset.card_singleton]
    split
    · omega
    · exact Nat.le_succ _

theorem collectRegion_meets {t : Octree} {fuel maxSamples : Nat} {g : Gathered ℚ} (h : m.Holds t center half)
    (hpresent : t ≠ .absent) (hfuel : t.height ≤ fuel) :
    Meets Never (m.collectRegion maxSamples fuel t.root g) fun g' => m.GathersMore maxSamples t.items g g' := by
  induction t generalizing center half fuel g with
  | absent => exact absurd rfl hpresent
  | leaf n bucket =>
    obtain ⟨fuel, rfl⟩ : ∃ f, fuel = f + 1 := ⟨fuel - 1, by simp only [height] at hfuel; omega⟩
    have hn : n < m.nodes.length := h.rep.lt_length rfl
    have hleaf : (OctreeNode.leaf center half n).isLeaf = true :=
      decide_eq_true (Nat.ne_of_lt (hn.trans_le h.fits.ids))
    rw [collectRegion]
    refine meets_bind (index_meets h.rep.1) ?_
    rintro _ rfl
    rw [if_pos hleaf]
    refine meets_bind (index_meets h.rep.2.1) ?_
    rintro _ rfl
    refine meets_foldlM (I := fun (done : List ItemId) g' => m.GathersMore maxSamples (done : Multiset ItemId) g g')
      (.refl m maxSamples g) fun done i g' hi hg => ?_
    refine (gatherItem_meets g' (Inside.lt_length h.rep.2.2 hi)).mono fun g'' hg' => ?_
    rw [← Multiset.coe_add, Multiset.coe_singleton]
    exact hg.trans hg'
  | node id children ih =>
    obtain ⟨fuel, rfl⟩ : ∃ f, fuel = f + 1 := ⟨fuel - 1, by simp only [height] at hfuel; omega⟩
    have hbelow : ∀ o, (children o).height ≤ fuel := by
      intro o
      have hle : (children o).height ≤ Finset.univ.sup fun o => (children o).height :=
        Finset.le_sup (f := fun o => (children o).height) (Finset.mem_univ o)
      simp only [height] at hfuel
      omega
    rw [collectRegion]
    refine meets_bind (index_meets h.rep.1) ?_
    rintro _ rfl
    rw [if_neg (show ¬ (OctreeNode.isLeaf _) = true by simp [OctreeNode.isLeaf])]
    have hloop : Meets Never ((List.finRange 8).foldlM (fun g o =>
        if (children o).root = noId then pure g else m.collectRegion maxSamples fuel (children o).root g) g) fun g' =>
          m.GathersMore maxSamples ((List.finRange 8).map fun o => (children o).items).sum g g' := by
      refine meets_foldlM (I := fun (done : List (Fin 8)) g' =>
        m.GathersMore maxSamples (done.map fun o => (children o).items).sum g g') (.refl m maxSamples g) ?_
      intro done o g' _ hg
      rw [List.map_append, List.sum_append, List.map_singleton, List.sum_singleton]
      by_cases habsent : children o = .absent
      · rw [if_pos ((root_eq_noId (h.child o)).mpr habsent), habsent]
        exact meets_pure (hg.trans (.refl m maxSamples g'))
      · rw [if_neg fun hroot => habsent ((root_eq_noId (h.child o)).mp hroot)]
        exact (ih o (h.child o) habsent (hbelow o)).mono fun g'' hg' => hg.trans hg'
    refine hloop.mono fun g' hg => ?_
    rw [← Fin.sum_univ_def] at hg
    exact hg

/-! ## What a view says -/

instance (p center : Point ℚ) (half : ℚ) : Decidable (InCube p center half) :=
  inferInstanceAs (Decidable (∀ a, |p a - center a| ≤ half))

instance (p center : Point ℚ) (half : ℚ) : Decidable (StrictlyIn p center half) :=
  inferInstanceAs (Decidable (∀ a, |p a - center a| < half))

/-- The items of the cube are counted, those on its faces perhaps by a neighbour. -/
structure Describes (m : FractalMemory3D ℚ) (maxSamples : Nat) (v : RegionView ℚ) : Prop where
  le_count : m.items.countP (fun item => StrictlyIn item.point v.center v.halfSize) ≤ v.count
  count_le : v.count ≤ m.items.countP fun item => InCube item.point v.center v.halfSize
  centroid : 0 < v.count → InCube v.centroid v.center v.halfSize
  samples : v.samples.length ≤ maxSamples ∧ v.samples.length ≤ v.count

/-- No stored item strictly inside the cube is outside of the tree. -/
def Covers (m : FractalMemory3D ℚ) (t : Octree) (center : Point ℚ) (half : ℚ) : Prop :=
  ∀ (i : ItemId) (item : Item ℚ), m.items[i]? = some item → StrictlyIn item.point center half → i ∈ t.items

theorem countP_range {α : Type} (q : α → Bool) (l : List α) :
    l.countP q = ((Multiset.range l.length).filter fun i => (l[i]?).any q = true).card := by
  induction l using List.reverseRecOn with
  | nil => rfl
  | append_singleton l x ih =>
    have hold : (Multiset.range l.length).filter (fun i => ((l ++ [x])[i]?).any q = true) =
        (Multiset.range l.length).filter fun i => (l[i]?).any q = true :=
      Multiset.filter_congr fun i hi => by rw [List.getElem?_append_left (Multiset.mem_range.mp hi)]
    rw [List.countP_append, List.length_append, List.length_singleton, Multiset.range_succ, Multiset.filter_cons,
      Multiset.card_add, hold, ih, List.getElem?_append_right le_rfl, Nat.sub_self, add_comm, List.countP_singleton]
    cases hq : q x <;> simp [hq]

theorem mem_items_lt {t : Octree} (h : m.Holds t center half) {i : ItemId} (hi : i ∈ t.items) : i < m.items.length :=
  Inside.lt_length h.rep.inside hi

theorem card_bounds {t : Octree} (h : m.Holds t center half) (hnodup : t.items.Nodup)
    (hcovers : m.Covers t center half) :
    m.items.countP (fun item => StrictlyIn item.point center half) ≤ t.items.card ∧
      t.items.card ≤ m.items.countP fun item => InCube item.point center half := by
  have hrange : (Multiset.range m.items.length).Nodup := Multiset.nodup_range _
  rw [countP_range, countP_range]
  constructor
  · refine Multiset.card_le_card ((Multiset.le_iff_subset (hrange.filter _)).mpr fun i hi => ?_)
    obtain ⟨-, hany⟩ := Multiset.mem_filter.mp hi
    obtain ⟨item, hitem, hin⟩ := (Option.any_eq_true _ _).mp hany
    exact hcovers i item hitem (of_decide_eq_true hin)
  · refine Multiset.card_le_card ((Multiset.le_iff_subset hnodup).mpr fun i hi => ?_)
    obtain ⟨item, hitem, hin⟩ := h.rep.inside i hi
    refine Multiset.mem_filter.mpr ⟨Multiset.mem_range.mpr (mem_items_lt h hi), ?_⟩
    exact (Option.any_eq_true _ _).mpr ⟨item, hitem, decide_eq_true hin⟩

/-- The mean of coordinates is no further from the middle of an interval than they are. -/
theorem mean_inside {ids : Multiset ItemId} {f : ItemId → ℚ} {c half : ℚ} (hpos : 0 < ids.card)
    (h : ∀ i ∈ ids, |f i - c| ≤ half) : |(ids.map f).sum / ids.card - c| ≤ half := by
  have hcard : (0 : ℚ) < ids.card := Nat.cast_pos.mpr hpos
  have hsum : (ids.map f).sum / ids.card - c = (ids.map fun i => f i - c).sum / ids.card := by
    rw [Multiset.sum_map_sub, Multiset.map_const', Multiset.sum_replicate, nsmul_eq_mul, sub_div,
      mul_div_cancel_left₀ _ hcard.ne']
  rw [hsum, abs_div, abs_of_pos hcard, div_le_iff₀ hcard, mul_comm]
  calc |(ids.map fun i => f i - c).sum|
      ≤ (ids.map fun i => |f i - c|).sum := by
        rw [← Function.comp_def abs, ← Multiset.map_map]
        exact Multiset.abs_sum_le_sum_abs
    _ ≤ ids.card • half := by
        refine Multiset.sum_le_card_nsmul _ _ ?_ |>.trans_eq (by rw [Multiset.card_map])
        intro x hx
        obtain ⟨i, hi, rfl⟩ := Multiset.mem_map.mp hx
        exact h i hi
    _ = ids.card * half := nsmul_eq_mul _ _

theorem summarize_meets {t : Octree} {fuel maxSamples depth : Nat} (h : m.Holds t center half)
    (hpresent : t ≠ .absent) (hfuel : t.height ≤ fuel) (hnodup : t.items.Nodup) (hcovers : m.Covers t center half) :
    Meets Never (m.summarize fuel maxSamples t.root depth) fun v => (v.level = depth ∧ v.center = center ∧
      v.halfSize = half ∧ v.count = t.items.card) ∧ m.Describes maxSamples v := by
  obtain ⟨node, hnode, rfl, rfl⟩ := h.rep.record hpresent
  unfold summarize
  refine meets_bind (index_meets hnode) ?_
  rintro _ rfl
  refine meets_bind (collectRegion_meets h hpresent hfuel) fun g hg => ?_
  have hcount : g.count = t.items.card := by rw [hg.count, Nat.zero_add]
  have hbounds := card_bounds h hnodup hcovers
  refine meets_pure ⟨⟨rfl, rfl, rfl, hcount⟩, hcount ▸ hbounds.1, hcount ▸ hbounds.2, fun hpos a => ?_, ?_, ?_⟩
  · have hsum : g.sum a = (t.items.map (m.coordinate a)).sum := by
      rw [hg.sum]
      exact zero_add _
    rw [if_pos hpos]
    show |g.sum a / (g.count : ℚ) - node.center a| ≤ node.halfSize
    rw [hsum, hcount]
    refine mean_inside (hcount ▸ hpos) fun i hi => ?_
    obtain ⟨item, hitem, hin⟩ := h.rep.inside i hi
    rw [coordinate, hitem]
    exact hin a
  · exact hg.samples (Nat.zero_le _)
  · rw [hcount]
    exact hg.sampled.trans_eq (Nat.zero_add _)

/-! ## The way in -/

variable {p : Point ℚ}

/-- What is strictly inside the cube of an octant is inside that of its parent. -/
theorem strictlyIn_child {x : Point ℚ} {o : Fin 8} (h : StrictlyIn x (childCenter center half o) (half * (1 / 2))) :
    StrictlyIn x center half := by
  intro a
  have ha := abs_lt.mp (h a)
  rw [abs_lt]
  unfold childCenter at ha
  simp only [Scalar.lit, id] at ha
  split at ha <;> constructor <;> linarith [ha.1, ha.2]

/-- It is in no cube of another octant, faces included. -/
theorem octant_of_strictlyIn {x : Point ℚ} {o o' : Fin 8}
    (h : StrictlyIn x (childCenter center half o) (half * (1 / 2)))
    (h' : InCube x (childCenter center half o') (half * (1 / 2))) : o' = o := by
  have hbits : ∀ o o' : Fin 8, (∀ a, o &&& axisBit a ≠ 0 ↔ o' &&& axisBit a ≠ 0) → o' = o := by decide
  refine hbits o o' fun a => ?_
  have ha := abs_lt.mp (h a)
  have ha' := abs_le.mp (h' a)
  unfold childCenter at ha ha'
  simp only [Scalar.lit, id] at ha ha'
  by_cases hset : o &&& axisBit a ≠ 0 <;> by_cases hset' : o' &&& axisBit a ≠ 0
  · exact iff_of_true hset hset'
  · rw [if_pos hset] at ha
    rw [if_neg hset'] at ha'
    linarith [ha.1, ha'.2]
  · rw [if_neg hset] at ha
    rw [if_pos hset'] at ha'
    linarith [ha.2, ha'.1]
  · exact iff_of_false hset hset'

theorem Covers.child {id : NodeId} {children : Fin 8 → Octree} (h : m.Holds (.node id children) center half)
    (hcovers : m.Covers (.node id children) center half) (o : Fin 8) :
    m.Covers (children o) (childCenter center half o) (half * (1 / 2)) := by
  intro i item hitem hin
  obtain ⟨o', -, ho'⟩ := Multiset.mem_sum.mp (hcovers i item hitem (strictlyIn_child hin))
  obtain ⟨item', hitem', hin'⟩ := (h.child o').rep.inside i ho'
  obtain rfl := Option.some.inj (hitem.symm.trans hitem')
  rwa [octant_of_strictlyIn hin hin'] at ho'

/-- The next view is of the octant of the point. -/
structure Narrows (p : Point ℚ) (v v' : RegionView ℚ) : Prop where
  level : v'.level = v.level + 1
  center : v'.center = childCenter v.center v.halfSize (octantIndex v.center p)
  halfSize : v'.halfSize = v.halfSize * (1 / 2)
  count : v'.count ≤ v.count

/-- The way on ends, or goes to the octant of the point. -/
theorem childToward_meets {t : Octree} (h : m.Holds t center half) (hpresent : t ≠ .absent) :
    Meets Never (m.childToward p t.root) fun next => next = none ∨ ∃ id children, t = .node id children ∧
      children (octantIndex center p) ≠ .absent ∧ next = some (children (octantIndex center p)).root := by
  cases t with
  | absent => exact absurd rfl hpresent
  | leaf n bucket =>
    have hn : n < m.nodes.length := h.rep.lt_length rfl
    have hleaf : (OctreeNode.leaf center half n).isLeaf = true :=
      decide_eq_true (Nat.ne_of_lt (hn.trans_le h.fits.ids))
    unfold childToward
    refine meets_bind (index_meets h.rep.1) ?_
    rintro _ rfl
    rw [if_pos hleaf]
    exact meets_pure (.inl rfl)
  | node id children =>
    unfold childToward
    refine meets_bind (index_meets h.rep.1) ?_
    rintro _ rfl
    rw [if_neg (show ¬ (OctreeNode.isLeaf _) = true by simp [OctreeNode.isLeaf])]
    refine meets_pure ?_
    by_cases habsent : children (octantIndex center p) = .absent
    · exact .inl (if_pos ((root_eq_noId (h.child _)).mpr habsent))
    · exact .inr ⟨id, children, rfl, habsent, if_neg fun hroot => habsent ((root_eq_noId (h.child _)).mp hroot)⟩

/-- The views of a descent from a tree on, the first of them given. -/
structure ZoomsFrom (m : FractalMemory3D ℚ) (p : Point ℚ) (left maxSamples : Nat) (view : RegionView ℚ)
    (views : List (RegionView ℚ)) : Prop where
  first : views.head? = some view
  narrows : views.IsChain (Narrows p)
  describes : ∀ v ∈ views, m.Describes maxSamples v
  length : views.length ≤ left + 1

theorem zoomFrom_meets {t : Octree} {fuel maxSamples left depth : Nat} (h : m.Holds t center half)
    (hpresent : t ≠ .absent) (hfuel : t.height ≤ fuel) (hnodup : t.items.Nodup) (hcovers : m.Covers t center half) :
    Meets Never (m.zoomFrom fuel p maxSamples left t.root depth) fun views => ∃ view, (view.level = depth ∧
      view.center = center ∧ view.halfSize = half ∧ view.count = t.items.card) ∧
        m.ZoomsFrom p left maxSamples view views := by
  induction left generalizing t center half depth with
  | zero =>
    rw [zoomFrom]
    refine meets_bind (summarize_meets h hpresent hfuel hnodup hcovers) fun v hv => ?_
    exact meets_pure ⟨v, hv.1, rfl, .singleton v, List.forall_mem_singleton.mpr hv.2, le_rfl⟩
  | succ left ih =>
    rw [zoomFrom]
    refine meets_bind (summarize_meets h hpresent hfuel hnodup hcovers) fun v hv => ?_
    refine meets_bind (childToward_meets h hpresent) ?_
    rintro _ (rfl | ⟨id, children, rfl, hchild, rfl⟩)
    · exact meets_pure ⟨v, hv.1, rfl, .singleton v, List.forall_mem_singleton.mpr hv.2, Nat.le_add_left 1 _⟩
    · have hle : (children (octantIndex center p)).items ≤ ∑ o, (children o).items :=
        Finset.single_le_sum (f := fun o => (children o).items) (fun _ _ => Multiset.zero_le _) (Finset.mem_univ _)
      have hheight : (children (octantIndex center p)).height ≤ fuel := by
        have hsup : (children (octantIndex center p)).height ≤ Finset.univ.sup fun o => (children o).height :=
          Finset.le_sup (f := fun o => (children o).height) (Finset.mem_univ _)
        simp only [height] at hfuel
        omega
      refine meets_bind (ih (h.child _) hchild hheight (Multiset.nodup_of_le hle hnodup)
        (hcovers.child h _)) fun views hviews => ?_
      obtain ⟨v', ⟨hlevel, hcenter, hhalf, hcount⟩, hfirst, hnarrows, hdescribes, hlength⟩ := hviews
      obtain ⟨rest, rfl⟩ : ∃ rest, views = v' :: rest := List.head?_eq_some_iff.mp hfirst
      have hnext : Narrows p v v' := by
        obtain ⟨hlevel', hcenter', hhalf', hcount'⟩ := hv.1
        refine ⟨by rw [hlevel, hlevel'], by rw [hcenter, hcenter', hhalf'], by rw [hhalf, hhalf'], ?_⟩
        rw [hcount, hcount']
        exact Multiset.card_le_card hle
      refine meets_pure ⟨v, hv.1, rfl, .cons_cons hnext hnarrows, List.forall_mem_cons.mpr ⟨hv.2, hdescribes⟩, ?_⟩
      rw [List.length_cons]
      exact Nat.succ_le_succ hlength

/-- Zooming to a level stops at that place of the way in, or at its end. -/
theorem summarize_descendAlong {fuel maxSamples left node depth : Nat} {views : List (RegionView ℚ)}
    (h : m.zoomFrom fuel p maxSamples left node depth = .ok views) {level : Nat} (hlevel : level ≤ left) :
    ∃ view, views[min level (views.length - 1)]? = some view ∧
      (do let (node, depth) ← m.descendAlong p level node depth
          m.summarize fuel maxSamples node depth) = .ok view := by
  induction left generalizing node depth views level with
  | zero =>
    obtain rfl := Nat.le_zero.mp hlevel
    rw [zoomFrom] at h
    obtain ⟨v, hv, hviews⟩ := bind_eq_ok.mp h
    obtain rfl := Except.ok.inj hviews
    exact ⟨v, rfl, hv⟩
  | succ left ih =>
    rw [zoomFrom] at h
    obtain ⟨v, hv, h⟩ := bind_eq_ok.mp h
    obtain ⟨next, hnext, h⟩ := bind_eq_ok.mp h
    cases next with
    | none =>
      obtain rfl := Except.ok.inj h
      refine ⟨v, by rw [List.length_singleton, Nat.sub_self, Nat.min_zero]; rfl, ?_⟩
      cases level with
      | zero => exact hv
      | succ level =>
        rw [descendAlong, hnext]
        exact hv
    | some child =>
      obtain ⟨rest, hrest, hviews⟩ := bind_eq_ok.mp h
      obtain rfl := Except.ok.inj hviews
      cases level with
      | zero => exact ⟨v, by rw [Nat.zero_min]; rfl, hv⟩
      | succ level =>
        obtain ⟨view, hview, hzoom⟩ := ih hrest (Nat.le_of_succ_le_succ hlevel)
        have hpos : 0 < rest.length := (Nat.zero_le _).trans_lt (List.getElem?_eq_some_iff.mp hview).1
        refine ⟨view, ?_, ?_⟩
        · have hplace : min (level + 1) rest.length = min level (rest.length - 1) + 1 := by omega
          rw [List.length_cons, Nat.add_sub_cancel, hplace, List.getElem?_cons_succ]
          exact hview
        · rw [descendAlong, hnext]
          exact hzoom

/-! ## Every run -/

variable {E : Type}

/-- The views of a query go from the whole memory into ever smaller cubes, and `zoom` answers with one of them. -/
structure ZoomsIn (m : FractalMemory3D ℚ) (project : E → Option (Point ℚ)) (fuel : Nat) (embedding : E)
    (p : Point ℚ) (maxLevel maxSamples : Nat) (views : List (RegionView ℚ)) : Prop where
  whole : ∃ view, views.head? = some view ∧ view.level = 0 ∧ view.center = origin ∧ view.halfSize = m.worldHalfSize ∧
    view.count = m.items.length
  narrows : views.IsChain (Narrows p)
  describes : ∀ v ∈ views, m.Describes maxSamples v
  length : views.length ≤ maxLevel + 1
  zoom : ∀ level ≤ maxLevel, ∃ view, views[min level (views.length - 1)]? = some view ∧
    m.zoom project fuel embedding level maxSamples = .ok (some view)

theorem probe_eq {project : E → Option (Point ℚ)} {embedding : E} {p : Point ℚ} (hp : project embedding = some p) :
    probe project embedding = some p := by
  rw [probe, hp]
  rfl

theorem zoomPath_of_wellFormed (h : m.WellFormed) : ∃ fuel₀, ∀ fuel, fuel₀ ≤ fuel →
    ∀ (project : E → Option (Point ℚ)) (embedding : E) (p : Point ℚ), project embedding = some p →
      ∀ maxLevel maxSamples, ∃ views, m.zoomPath project fuel embedding maxLevel maxSamples = .ok views ∧
        m.ZoomsIn project fuel embedding p maxLevel maxSamples views := by
  obtain ⟨t, hroot, hholds, hitems⟩ := h.tree
  have hpresent : t ≠ .absent := by
    rintro rfl
    exact absurd hroot (by decide)
  have hcovers : m.Covers t origin m.worldHalfSize := fun i item hitem _ => by
    rw [hitems]
    exact Multiset.mem_range.mpr (List.getElem?_eq_some_iff.mp hitem).1
  refine ⟨t.height, fun fuel hfuel project embedding p hp maxLevel maxSamples => ?_⟩
  obtain ⟨views, hviews, view, ⟨hlevel, hcenter, hhalf, hcount⟩, hzooms⟩ := eq_ok_of_never
    (zoomFrom_meets hholds hpresent hfuel (hitems ▸ Multiset.nodup_range _) hcovers)
  rw [hroot] at hviews
  refine ⟨views, ?_, ⟨view, hzooms.first, hlevel, hcenter, hhalf, ?_⟩, hzooms.narrows, hzooms.describes, hzooms.length,
    fun level hle => ?_⟩
  · rw [zoomPath, probe_eq hp]
    exact hviews
  · rw [hcount, hitems, Multiset.card_range]
  · obtain ⟨view, hview, hzoom⟩ := summarize_descendAlong hviews hle
    refine ⟨view, hview, ?_⟩
    rw [zoom, probe_eq hp]
    show (m.descendAlong p level 0 0 >>= fun x => m.summarize fuel maxSamples x.1 x.2 >>= fun v => pure (some v)) = _
    rw [← bind_assoc]
    exact congrArg (· >>= fun v => pure (some v)) hzoom

end FractalMemory3D

end Ccos.Octasoma
