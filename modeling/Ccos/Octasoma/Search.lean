import Ccos.Octasoma.Insert
import Ccos.Lib.Nearest

/-!
# Searching the tree

The result set holds the nearest of the items it was offered. A pruned cube has nothing nearer to offer.
-/

open scoped BigOperators

namespace Ccos.Octasoma

open Outcome

/-- No reason for a search to stop. -/
def Never (_ : Stop) : Prop := False

theorem eq_ok_of_never {α : Type} {r : Except Stop α} {P : α → Prop} (h : Meets Never r P) : ∃ a, r = .ok a ∧ P a := by
  cases r with
  | ok a => exact ⟨a, rfl, h⟩
  | error e => exact h.elim

/-! ## The result set -/

namespace KnnSet

theorem isNan_rat (a : ℚ) : Scalar.isNan a = false := rfl

theorem foldl_maxFrom (l : List (ItemId × ℚ)) (w : ℚ) :
    ∃ w', l.foldl (fun m entry => maxFrom m entry.2) (some w) = some w' ∧ w ≤ w' ∧ ∀ e ∈ l, e.2 ≤ w' := by
  induction l generalizing w with
  | nil => exact ⟨w, rfl, le_rfl, nofun⟩
  | cons x l ih =>
    obtain ⟨w', heq, hw, hl⟩ := ih (Scalar.max w x.2)
    rw [max_rat, max_le_iff] at hw
    refine ⟨w', heq, hw.1, ?_⟩
    rw [List.forall_mem_cons]
    exact ⟨hw.2, hl⟩

/-- The worst distance is one that no entry exceeds. -/
theorem worst_spec {s : KnnSet ℚ} (h : s.best ≠ []) : ∃ w, s.worst = some w ∧ ∀ e ∈ s.best, e.2 ≤ w := by
  unfold worst
  cases hbest : s.best with
  | nil => exact absurd hbest h
  | cons x l =>
    obtain ⟨w, heq, hx, hl⟩ := foldl_maxFrom l x.2
    refine ⟨w, ?_, List.forall_mem_cons.mpr ⟨hx, hl⟩⟩
    rw [List.foldl_cons, maxFrom, isNan_rat, if_neg Bool.false_ne_true, heq]

/-- The farthest entry, by its place. -/
theorem farthest_spec {best : List (ItemId × ℚ)} (h : best ≠ []) :
    ∃ i e, farthest best = (i, some e.2) ∧ best[i]? = some e ∧ ∀ y ∈ best, y.2 ≤ e.2 := by
  induction best using List.reverseRecOn with
  | nil => exact absurd rfl h
  | append_singleton l x ih =>
    have hstep : farthest (l ++ [x]) =
        if above x.2 (farthest l).2 then (l.length, some x.2) else farthest l := by
      unfold farthest
      rw [List.zipIdx_append, List.foldl_append]
      simp
    have hlast : (l ++ [x])[l.length]? = some x := List.getElem?_concat_length
    by_cases hl : l = []
    · subst hl
      refine ⟨0, x, ?_, rfl, ?_⟩
      · rw [hstep]
        rfl
      · intro y hy
        rw [List.mem_singleton.mp hy]
    · obtain ⟨i, e, heq, hget, hle⟩ := ih hl
      rw [hstep, heq]
      simp only [above, gt_rat, decide_eq_true_eq]
      by_cases hgt : e.2 < x.2
      · rw [if_pos hgt]
        refine ⟨l.length, x, rfl, hlast, ?_⟩
        intro y hy
        rcases List.mem_append.mp hy with hy | hy
        · exact (hle y hy).trans hgt.le
        · rw [List.mem_singleton.mp hy]
      · rw [if_neg hgt]
        refine ⟨i, e, rfl, ?_, ?_⟩
        · rw [List.getElem?_append_left (List.getElem?_eq_some_iff.mp hget).1]
          exact hget
        · intro y hy
          rcases List.mem_append.mp hy with hy | hy
          · exact hle y hy
          · rw [List.mem_singleton.mp hy]
            exact not_lt.mp hgt

theorem coe_set {l : List (ItemId × ℚ)} {i : Nat} {e : ItemId × ℚ} (h : l[i]? = some e) (x : ItemId × ℚ) :
    ∃ rest : Multiset (ItemId × ℚ), (l : Multiset (ItemId × ℚ)) = e ::ₘ rest ∧
      (l.set i x : Multiset (ItemId × ℚ)) = x ::ₘ rest := by
  induction l generalizing i with
  | nil => simp at h
  | cons y l ih =>
    cases i with
    | zero =>
      obtain rfl : y = e := by simpa using h
      exact ⟨l, rfl, rfl⟩
    | succ i =>
      obtain ⟨rest, hold, hnew⟩ := ih (by simpa using h)
      refine ⟨y ::ₘ rest, ?_, ?_⟩
      · rw [← Multiset.cons_coe, hold, Multiset.cons_swap]
      · rw [List.set_cons_succ, ← Multiset.cons_coe, hnew, Multiset.cons_swap]

/-- The set holds the nearest of what it was offered. -/
def HoldsNearest (s : KnnSet ℚ) (k : Nat) (seen : Multiset (ItemId × ℚ)) : Prop :=
  s.k = k ∧ 0 < k ∧ Nearest.Holds (Prod.snd : ItemId × ℚ → ℚ) k seen s.best

variable {s : KnnSet ℚ} {k : Nat} {seen : Multiset (ItemId × ℚ)}

theorem HoldsNearest.offer (h : s.HoldsNearest k seen) (item : ItemId) (d2 : ℚ) :
    (s.offer item d2).HoldsNearest k ((item, d2) ::ₘ seen) := by
  obtain ⟨rfl, hpos, hbest⟩ := h
  unfold KnnSet.offer
  by_cases hroom : s.best.length < s.k
  · rw [if_pos hroom]
    refine ⟨rfl, hpos, ?_⟩
    have hpush := hbest.push (Multiset.coe_card s.best ▸ hroom) (item, d2)
    show Nearest.Holds _ _ _ ((s.best ++ [(item, d2)] : List (ItemId × ℚ)) : Multiset (ItemId × ℚ))
    rwa [← Multiset.coe_add, add_comm, Multiset.coe_singleton, Multiset.singleton_add]
  · rw [if_neg hroom]
    have hne : s.best ≠ [] := by
      intro hnil
      rw [hnil] at hroom
      exact hroom hpos
    obtain ⟨i, e, heq, hget, hmax⟩ := farthest_spec hne
    rw [heq]
    simp only [Option.any_some, lt_rat, decide_eq_true_eq]
    by_cases hnear : d2 < e.2
    · rw [if_pos hnear]
      obtain ⟨rest, hold, hnew⟩ := coe_set hget (item, d2)
      refine ⟨rfl, hpos, ?_⟩
      show Nearest.Holds _ _ _ ((s.best.set i (item, d2) : List (ItemId × ℚ)) : Multiset (ItemId × ℚ))
      rw [hnew]
      have hcard : s.best.length = rest.card + 1 := by
        rw [← Multiset.coe_card, hold, Multiset.card_cons]
      rw [hold] at hbest
      refine hbest.replace (by omega) ?_ hnear
      intro y hy
      exact hmax y (by rw [← Multiset.mem_coe, hold]; exact Multiset.mem_cons_of_mem hy)
    · rw [if_neg hnear]
      refine ⟨rfl, hpos, ?_⟩
      rw [← Multiset.singleton_add]
      refine hbest.skip (by rw [Multiset.coe_card]; omega) ?_
      intro x hx y hy
      rw [Multiset.mem_singleton.mp hx]
      exact (hmax y hy).trans (not_lt.mp hnear)

/-- What a pruned cube has to offer is no nearer than the worst result. -/
theorem HoldsNearest.prune (h : s.HoldsNearest k seen) {lowerBound : ℚ}
    (hprune : FractalMemory3D.prunes s lowerBound = true) {more : Multiset (ItemId × ℚ)}
    (hfar : ∀ x ∈ more, lowerBound ≤ x.2) : s.HoldsNearest k (more + seen) := by
  obtain ⟨rfl, hpos, hbest⟩ := h
  unfold FractalMemory3D.prunes isFull at hprune
  rw [Bool.and_eq_true, decide_eq_true_eq] at hprune
  obtain ⟨hfull, hge⟩ := hprune
  have hne : s.best ≠ [] := by
    intro hnil
    rw [hnil, List.length_nil] at hfull
    omega
  obtain ⟨w, heq, hworst⟩ := worst_spec hne
  rw [heq, atLeast, ge_rat, decide_eq_true_eq] at hge
  refine ⟨rfl, hpos, hbest.skip hfull ?_⟩
  intro x hx y hy
  exact (hworst y hy).trans (hge.trans (hfar x hx))

end KnnSet

/-! ## The descent -/

namespace Octree

def height : Octree → Nat
  | .absent => 0
  | .leaf _ _ => 1
  | .node _ children => 1 + Finset.univ.sup fun o => (children o).height

/-- The children that are there. -/
noncomputable def present (children : Fin 8 → Octree) : List (Fin 8) :=
  open Classical in (List.finRange 8).filter fun o => children o ≠ .absent

theorem mem_present {children : Fin 8 → Octree} {o : Fin 8} : o ∈ present children ↔ children o ≠ .absent := by
  simp [present]

theorem sum_present (children : Fin 8 → Octree) :
    ((present children).map fun o => (children o).items).sum = ∑ o, (children o).items := by
  rw [Fin.sum_univ_def]
  unfold present
  generalize List.finRange 8 = l
  induction l with
  | nil => rfl
  | cons o l ih =>
    by_cases habsent : children o = .absent
    · rw [List.filter_cons_of_neg (by simp [habsent]), List.map_cons, List.sum_cons, ih, habsent]
      exact (zero_add _).symm
    · rw [List.filter_cons_of_pos (by simp [habsent]), List.map_cons, List.sum_cons, List.map_cons, List.sum_cons, ih]

theorem Rep.record {m : FractalMemory3D ℚ} {t : Octree} {center : Point ℚ} {half : ℚ} (h : t.Rep m center half)
    (hpresent : t ≠ .absent) : ∃ node, m.nodes[t.root]? = some node ∧ node.center = center ∧ node.halfSize = half := by
  cases t with
  | absent => exact absurd rfl hpresent
  | leaf id bucket => exact ⟨_, h.1, rfl, rfl⟩
  | node id children => exact ⟨_, h.1, rfl, rfl⟩

end Octree

namespace FractalMemory3D

open Octree

/-- What a stored item offers to a query. -/
def entry (m : FractalMemory3D ℚ) (q : Point ℚ) (i : ItemId) : ItemId × ℚ :=
  (i, ((m.items[i]?).map fun item => dist2 q item.point).getD 0)

variable {m : FractalMemory3D ℚ} {q : Point ℚ} {k : Nat}

theorem offerItem_meets {heap : KnnSet ℚ} {seen : Multiset (ItemId × ℚ)} (h : heap.HoldsNearest k seen) {i : ItemId}
    (hi : i < m.items.length) :
    Meets Never (m.offerItem q heap i) fun heap' => heap'.HoldsNearest k (m.entry q i ::ₘ seen) := by
  have hitem : m.items[i]? = some m.items[i] := List.getElem?_eq_getElem hi
  have hentry : m.entry q i = (i, dist2 q m.items[i].point) := by
    unfold entry
    rw [hitem]
    rfl
  unfold offerItem
  refine meets_bind (index_meets hitem) ?_
  rintro _ rfl
  rw [hentry]
  exact meets_pure (h.offer i _)

theorem offerItems_meets {heap : KnnSet ℚ} {seen : Multiset (ItemId × ℚ)} (h : heap.HoldsNearest k seen)
    {ids : List ItemId} (hids : ∀ i ∈ ids, i < m.items.length) :
    Meets Never (ids.foldlM (m.offerItem q) heap) fun heap' =>
      heap'.HoldsNearest k ((ids : Multiset ItemId).map (m.entry q) + seen) := by
  refine meets_foldlM (I := fun (done : List ItemId) (heap' : KnnSet ℚ) =>
    heap'.HoldsNearest k ((done : Multiset ItemId).map (m.entry q) + seen)) ?_ ?_
  · rw [Multiset.coe_nil, Multiset.map_zero, zero_add]
    exact h
  · intro done i heap hi hheap
    have hdone : ((done ++ [i] : List ItemId) : Multiset ItemId) = i ::ₘ done := by
      rw [← Multiset.coe_add, add_comm, Multiset.coe_singleton, Multiset.singleton_add]
    rw [hdone, Multiset.map_cons, Multiset.cons_add]
    exact offerItem_meets hheap (hids i hi)

/-- The order of the visit is some order of the children that are there. -/
theorem childOrder_eq {id : NodeId} {children : Fin 8 → Octree} {center : Point ℚ} {half : ℚ}
    (h : m.Holds (.node id children) center half) :
    ∃ visit : List (Fin 8), visit.Perm (present children) ∧
      m.childOrder q ⟨center, half, fun o => (children o).root, noId⟩ = .ok (visit.map fun o =>
        (cubeMinDist2 q (childCenter center half o) (half * (1 / 2)), (children o).root)) := by
  have hroots : ((List.finRange 8).filterMap fun o =>
      if (children o).root = noId then none else some (children o).root) =
        (present children).map fun o => (children o).root := by
    unfold present
    generalize List.finRange 8 = l
    induction l with
    | nil => rfl
    | cons o l ih =>
      have hroot := root_eq_noId (h.child o)
      by_cases habsent : children o = .absent
      · rw [List.filterMap_cons_none (by rw [if_pos (hroot.mpr habsent)]), List.filter_cons_of_neg (by simp [habsent]), ih]
      · rw [List.filterMap_cons_some (by rw [if_neg (mt hroot.mp habsent)]), List.filter_cons_of_pos (by simp [habsent]),
          List.map_cons, ih]
  let bound (o : Fin 8) : ℚ × NodeId :=
    (cubeMinDist2 q (childCenter center half o) (half * (1 / 2)), (children o).root)
  have hbounds : ((present children).map fun o => (children o).root).mapM (fun child => do
      let c ← index m.nodes child
      return (cubeMinDist2 q c.center c.halfSize, child)) = .ok ((present children).map bound) := by
    rw [List.mapM_map]
    apply mapM_of_ok
    intro o ho
    obtain ⟨node, hnode, hcenter, hhalf⟩ := (h.child o).rep.record (mem_present.mp ho)
    show (index m.nodes (children o).root >>= _) = _
    rw [index_of_some hnode]
    show Except.ok (cubeMinDist2 q node.center node.halfSize, (children o).root) = _
    rw [hcenter, hhalf]
  refine ⟨sortBy (fun a b => compare (bound a).1 (bound b).1) (present children), perm_sortBy _ _, ?_⟩
  have hsorted : (sortBy (fun a b => compare (bound a).1 (bound b).1) (present children)).map bound =
      sortBy (fun a b => compare a.1 b.1) ((present children).map bound) :=
    List.map_insertionSort _ _ _ _ fun _ _ _ _ => Iff.rfl
  show _ = Except.ok ((sortBy (fun a b => compare (bound a).1 (bound b).1) (present children)).map bound)
  rw [hsorted]
  unfold childOrder
  dsimp only
  rw [hroots, hbounds]
  rfl

theorem entry_snd {i : ItemId} {item : Item ℚ} (hitem : m.items[i]? = some item) : (m.entry q i).2 = dist2 q item.point := by
  unfold entry
  rw [hitem]
  rfl

theorem Inside.lt_length {ids : Multiset ItemId} {center : Point ℚ} {half : ℚ} (h : Inside m ids center half) {i : ItemId}
    (hi : i ∈ ids) : i < m.items.length := by
  obtain ⟨item, hitem, -⟩ := h i hi
  exact (List.getElem?_eq_some_iff.mp hitem).1

/-- A descent has offered every item of its subtree, or pruned it. -/
theorem nnDescend_meets {t : Octree} {center : Point ℚ} {half : ℚ} {fuel : Nat} {heap : KnnSet ℚ}
    {seen : Multiset (ItemId × ℚ)} (h : m.Holds t center half) (hpresent : t ≠ .absent) (hfuel : t.height ≤ fuel)
    (hheap : heap.HoldsNearest k seen) :
    Meets Never (m.nnDescend q fuel t.root heap) fun heap' =>
      heap'.HoldsNearest k (t.items.map (m.entry q) + seen) := by
  induction t generalizing center half fuel heap seen with
  | absent => exact absurd rfl hpresent
  | leaf n bucket =>
    obtain ⟨fuel, rfl⟩ : ∃ f, fuel = f + 1 := ⟨fuel - 1, by simp only [height] at hfuel; omega⟩
    have hn : n < m.nodes.length := h.rep.lt_length rfl
    have hleaf : (OctreeNode.leaf center half n).isLeaf = true :=
      decide_eq_true (Nat.ne_of_lt (hn.trans_le h.fits.ids))
    rw [nnDescend]
    refine meets_bind (index_meets h.rep.1) ?_
    rintro _ rfl
    rw [if_pos hleaf]
    refine meets_bind (index_meets h.rep.2.1) ?_
    rintro _ rfl
    exact offerItems_meets hheap fun i hi => Inside.lt_length h.rep.2.2 hi
  | node id children ih =>
    obtain ⟨fuel, rfl⟩ : ∃ f, fuel = f + 1 := ⟨fuel - 1, by simp only [height] at hfuel; omega⟩
    have hbelow : ∀ o, (children o).height ≤ fuel := by
      intro o
      have hle : (children o).height ≤ Finset.univ.sup fun o => (children o).height :=
        Finset.le_sup (f := fun o => (children o).height) (Finset.mem_univ o)
      simp only [height] at hfuel
      omega
    rw [nnDescend]
    refine meets_bind (index_meets h.rep.1) ?_
    rintro _ rfl
    rw [if_neg (show ¬ (OctreeNode.isLeaf _) = true by simp [OctreeNode.isLeaf])]
    obtain ⟨visit, hvisit, horder⟩ := childOrder_eq (q := q) h
    rw [horder]
    refine meets_bind (P := fun order => order = visit.map fun o =>
      (cubeMinDist2 q (childCenter center half o) (half * (1 / 2)), (children o).root)) rfl ?_
    rintro _ rfl
    rw [List.foldlM_map]
    have hloop : Meets Never (visit.foldlM (fun heap o =>
        if prunes heap (cubeMinDist2 q (childCenter center half o) (half * (1 / 2))) then pure heap
        else m.nnDescend q fuel (children o).root heap) heap) fun heap' =>
          heap'.HoldsNearest k ((visit.map fun o => (children o).items.map (m.entry q)).sum + seen) := by
      refine meets_foldlM (I := fun (done : List (Fin 8)) (heap' : KnnSet ℚ) =>
        heap'.HoldsNearest k ((done.map fun o => (children o).items.map (m.entry q)).sum + seen)) ?_ ?_
      · rw [List.map_nil, List.sum_nil, zero_add]
        exact hheap
      · intro done o heap ho hheap
        rw [List.map_append, List.sum_append, List.map_singleton, List.sum_singleton, add_comm (List.sum _), add_assoc]
        split
        · rename_i hprune
          refine hheap.prune hprune ?_
          intro x hx
          obtain ⟨i, hi, rfl⟩ := Multiset.mem_map.mp hx
          obtain ⟨item, hitem, hcube⟩ := (h.child o).rep.inside i hi
          rw [entry_snd hitem]
          exact cubeMinDist2_le hcube
        · exact ih o (h.child o) (mem_present.mp (hvisit.mem_iff.mp ho)) (hbelow o) hheap
    refine hloop.mono ?_
    intro heap' hheap'
    have hsum : (visit.map fun o => (children o).items.map (m.entry q)).sum = (∑ o, (children o).items).map (m.entry q) := by
      rw [(hvisit.map _).sum_eq, ← sum_present, ← Multiset.coe_mapAddMonoidHom, map_list_sum, List.map_map]
      rfl
    rw [hsum] at hheap'
    exact hheap'

end FractalMemory3D

end Ccos.Octasoma
