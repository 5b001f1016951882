import Ccos.Octasoma.Sketch
import Ccos.Lib.Shortlist

/-!
# Shortlists are not nested

Among equal distances the selection keeps any items, and places them in any order, so a larger shortlist may drop what a
smaller one has, or move it behind items of its score.
-/

namespace Ccos.Octasoma

/-- Exact arithmetic compares as a linear order does. -/
class ExactTotal (F : Type) [Single F] [LinearOrder F] : Prop where
  totalCmp_eq : ∀ a b : F, Single.totalCmp a b = compare a b

instance : ExactTotal ℚ := ⟨fun _ _ => rfl⟩

namespace SketchIndex

open Shortlist

/-! ## Partial selection -/

/-- The selection permutes the candidates: what is before position `i` is no farther than what is at `i`, and what is
after it no nearer. -/
def Conforms (cand : List (Nat × Nat)) (i : Nat) (selected : List (Nat × Nat)) : Prop :=
  selected.Perm cand ∧ ∃ front pivot rest, selected = front ++ pivot :: rest ∧
    front.length = i ∧ (∀ c ∈ front, c.1 ≤ pivot.1) ∧ ∀ c ∈ rest, pivot.1 ≤ c.1

def Selects (select : Select) : Prop := ∀ cand i, i < cand.length → Conforms cand i (select cand i)

section

variable {distance : Nat → Nat} {ids l : List Nat}

/-- The candidates of some distances. -/
def candidates (distance : Nat → Nat) (ids : List Nat) : List (Nat × Nat) := ids.map fun i => (distance i, i)

theorem candidates_append (l l' : List Nat) :
    candidates distance (l ++ l') = candidates distance l ++ candidates distance l' := List.map_append

theorem mem_candidates {c : Nat × Nat} (h : c ∈ candidates distance ids) : c = (distance c.2, c.2) := by
  obtain ⟨i, -, rfl⟩ := List.mem_map.mp h
  rfl

theorem candidates_snd {cand : List (Nat × Nat)} (h : ∀ c ∈ cand, c = (distance c.2, c.2)) :
    candidates distance (cand.map (·.2)) = cand := by
  unfold candidates
  rw [List.map_map]
  exact (List.map_congr_left fun c hc => (h c hc).symm).trans (List.map_id cand)

theorem map_snd_candidates : (candidates distance ids).map (·.2) = ids := by
  unfold candidates
  rw [List.map_map]
  exact List.map_id ids

theorem kept_of_selects {select : Select} (h : Selects select) {m : Nat} (hpos : 0 < m) (hm : m < ids.length) :
    ∃ l, (select (candidates distance ids) (m - 1)).take m = candidates distance l ∧ Kept distance ids l ∧
      l.length = m := by
  have hlen : (candidates distance ids).length = ids.length := List.length_map _
  obtain ⟨hperm, front, pivot, rest, heq, hfront, hle, hge⟩ := h (candidates distance ids) (m - 1) (by omega)
  have hmem : ∀ c ∈ front ++ pivot :: rest, c = (distance c.2, c.2) := fun c hc =>
    mem_candidates (hperm.mem_iff.mp (heq ▸ hc))
  have htake : (front ++ pivot :: rest).take m = front ++ [pivot] := by
    obtain ⟨n, rfl⟩ : ∃ n, m = n + 1 := ⟨m - 1, by omega⟩
    rw [Nat.add_sub_cancel] at hfront
    rw [← hfront, List.take_length_add_append]
    rfl
  have hpivot := hmem pivot (by simp)
  rw [heq, htake]
  refine ⟨(front ++ [pivot]).map (·.2), (candidates_snd fun c hc => hmem c ?_).symm, ?_, ?_⟩
  · rcases List.mem_append.mp hc with hc | hc
    · exact List.mem_append_left _ hc
    · exact List.mem_append_right _ (List.mem_singleton.mp hc ▸ List.mem_cons_self)
  · refine ⟨front.map (·.2), pivot.2, rest.map (·.2), List.map_append, ?_, ?_, ?_⟩
    · rw [← List.map_append, List.append_assoc, List.singleton_append, ← heq]
      exact (hperm.map _).trans (by rw [map_snd_candidates])
    · intro i hi
      obtain ⟨c, hc, rfl⟩ := List.mem_map.mp hi
      have := hle c hc
      rwa [hmem c (List.mem_append_left _ hc), hpivot] at this
    · intro i hi
      obtain ⟨c, hc, rfl⟩ := List.mem_map.mp hi
      have := hge c hc
      rwa [hmem c (List.mem_append_right _ (List.mem_cons_of_mem _ hc)), hpivot] at this
  · rw [List.length_map, List.length_append, hfront, List.length_singleton]
    omega

theorem conforms_sorted {cand : List (Nat × Nat)} {i : Nat} (h : i < cand.length) :
    Conforms cand i (cand.insertionSort fun a b => a.1 ≤ b.1) := by
  have htotal : Std.Total fun a b : Nat × Nat => a.1 ≤ b.1 := ⟨fun a b => Nat.le_total a.1 b.1⟩
  have htrans : IsTrans (Nat × Nat) fun a b => a.1 ≤ b.1 := ⟨fun _ _ _ => Nat.le_trans⟩
  have hperm := List.perm_insertionSort (fun a b : Nat × Nat => a.1 ≤ b.1) cand
  have hi : i < (cand.insertionSort fun a b => a.1 ≤ b.1).length := hperm.length_eq ▸ h
  obtain ⟨hle, hge⟩ := le_getElem Prod.fst (List.pairwise_insertionSort _ cand) hi
  refine ⟨hperm, _, _, _, ?_, ?_, hle, hge⟩
  · rw [List.getElem_cons_drop, List.take_append_drop]
  · rw [List.length_take, Nat.min_eq_left hi.le]

theorem Kept.conforms (h : Kept distance ids l) : ∃ rest, Conforms (candidates distance ids) (l.length - 1)
    (candidates distance l ++ candidates distance rest) := by
  obtain ⟨front, pivot, rest, rfl, hperm, hle, hge⟩ := h
  refine ⟨rest, ?_, candidates distance front, (distance pivot, pivot), candidates distance rest, ?_, ?_, ?_, ?_⟩
  · rw [← candidates_append]
    exact hperm.map _
  · rw [candidates_append, List.append_assoc]
    rfl
  · simp [candidates]
  · intro c hc
    obtain ⟨i, hi, rfl⟩ := List.mem_map.mp hc
    exact hle i hi
  · intro c hc
    obtain ⟨i, hi, rfl⟩ := List.mem_map.mp hc
    exact hge i hi

theorem Kept.length_pos (h : Kept distance ids l) : 0 < l.length := by
  obtain ⟨front, pivot, rest, rfl, -⟩ := h
  simp

theorem Kept.nodup (hids : ids.Nodup) (h : Kept distance ids l) : l.Nodup := by
  obtain ⟨front, pivot, rest, -, hperm, -⟩ := h
  exact (hperm.nodup_iff.mpr hids).sublist (List.sublist_append_left _ _)

/-- One selection may keep `l` of some number of items and `l'` of a greater one. -/
theorem exists_select {l' : List Nat} (hl : Kept distance ids l) (hl' : Kept distance ids l')
    (hlen : l.length < l'.length) :
    ∃ select, Selects select ∧ (select (candidates distance ids) (l.length - 1)).take l.length = candidates distance l ∧
      (select (candidates distance ids) (l'.length - 1)).take l'.length = candidates distance l' := by
  obtain ⟨rest, hrest⟩ := Kept.conforms hl
  obtain ⟨rest', hrest'⟩ := Kept.conforms hl'
  have hpos := Kept.length_pos hl
  have htake : ∀ (l rest : List Nat), (candidates distance l ++ candidates distance rest).take l.length =
      candidates distance l := fun l rest => List.take_left' (List.length_map _)
  refine ⟨fun cand i =>
    if cand = candidates distance ids ∧ i = l.length - 1 then candidates distance l ++ candidates distance rest
    else if cand = candidates distance ids ∧ i = l'.length - 1 then candidates distance l' ++ candidates distance rest'
    else cand.insertionSort fun a b => a.1 ≤ b.1, fun cand i hi => ?_, ?_, ?_⟩
  · dsimp only
    split
    · rename_i h
      exact h.1 ▸ h.2 ▸ hrest
    · split
      · rename_i h
        exact h.1 ▸ h.2 ▸ hrest'
      · exact conforms_sorted hi
  · dsimp only
    rw [if_pos ⟨rfl, rfl⟩, htake]
  · dsimp only
    rw [if_neg (by omega), if_pos ⟨rfl, rfl⟩, htake]

end

/-! ## What is found -/

section

variable {F : Type} [Quantized F] (x : SketchIndex F)

def distance (query : List F) (i : Nat) : Nat := hamming (x.hasher.sketch query) (x.sketchOf i)

theorem shortlisted_eq (select : Select) (query : List F) (m : Nat) :
    x.shortlisted select query m =
      if m < x.len then (select (candidates (x.distance query) (List.range x.len)) (m - 1)).take m
      else candidates (x.distance query) (List.range x.len) := by
  have hlen : ((List.range x.len).map fun i => (x.distance query i, i)).length = x.len := by simp
  show (if m < ((List.range x.len).map fun i => (x.distance query i, i)).length then _ else _) = _
  rw [hlen]
  rfl

theorem shortlisted_cases {select : Select} (h : Selects select) (query : List F) {m : Nat} (hpos : 0 < m)
    (hm : m < x.len) : ∃ l, x.shortlisted select query m = candidates (x.distance query) l ∧
      Kept (x.distance query) (List.range x.len) l ∧ l.length = m := by
  rw [shortlisted_eq, if_pos hm]
  exact kept_of_selects h hpos (by rwa [List.length_range])

variable [LinearOrder F] [ExactTotal F]

omit [Quantized F] in
theorem isLE_compare {a b : F} : (compare a b).isLE = true ↔ a ≤ b := by
  rw [Ordering.isLE_iff_ne_gt]
  exact compare_le_iff_le

theorem isLE_byScore (a b : F × Nat) : (byScore a b).isLE = true ↔ b.1 ≤ a.1 := by
  unfold byScore
  rw [ExactTotal.totalCmp_eq]
  exact isLE_compare

theorem mem_nearestIds {select : Select} {query : List F} (hquery : query.length = x.dim) {k : Nat} (hk : k ≠ 0)
    (hlen : x.len ≠ 0) {s : Nat} {l : List Nat} (hl : l.Nodup)
    (hshort : x.shortlisted select query (min (max s k) x.len) = candidates (x.distance query) l) {a : Nat} :
    a ∈ (x.nearestIds select query k s).map (·.1) ↔ a ∈ l ∧ rank (x.score query) a l < k := by
  unfold nearestIds
  rw [if_neg (by simp [hquery, hk, hlen])]
  dsimp only
  have hscored : (candidates (x.distance query) l).map (fun c => (x.score query c.2, c.2)) =
      l.map fun i => (x.score query i, i) := by
    unfold candidates
    rw [List.map_map]
    rfl
  have hsort : sortBy byScore (l.map fun i => (x.score query i, i)) =
      (l.insertionSort fun i j => x.score query j ≤ x.score query i).map fun i => (x.score query i, i) := by
    unfold sortBy
    exact (List.map_insertionSort _ _ _ l fun i _ j _ =>
      (isLE_byScore (x.score query i, i) (x.score query j, j)).symm).symm
  rw [hshort, hscored, hsort, ← List.map_take, List.map_map, List.map_map]
  refine Iff.trans (by rw [show (((fun s : Nat × F => s.1) ∘ fun s : F × Nat => (s.2, s.1)) ∘
    fun i => (x.score query i, i)) = id from rfl, List.map_id]) ?_
  exact mem_take_sorted hl fun _ _ _ _ => Iff.rfl

/-- Greater scores first, then smaller ids. -/
def idKey (score : Nat → F) (i : Nat) : Lex (F × Natᵒᵈ) := toLex (score i, OrderDual.toDual i)

omit [Quantized F] [ExactTotal F] in
/-- In id order the rank decides between equal scores as the ids do. -/
theorem rank_range (score : Nat → F) {n a : Nat} (ha : a < n) :
    rank (idKey score) a (List.range n) = rank score a (List.range n) := by
  have hn : a < (List.range n).length := by rwa [List.length_range]
  have hsplit : List.range n = List.range a ++ a :: (List.range n).drop (a + 1) := by
    have h := List.take_append_drop a (List.range n)
    rw [List.drop_eq_getElem_cons hn, List.getElem_range, List.take_range, Nat.min_eq_left ha.le] at h
    exact h.symm
  have hbefore : a ∉ List.range a := by simp
  have hafter : ∀ i ∈ (List.range n).drop (a + 1), a < i := by
    intro i hi
    obtain ⟨j, hj, rfl⟩ := List.mem_drop_iff_getElem.mp hi
    rw [List.getElem_range]
    omega
  generalize (List.range n).drop (a + 1) = after at hsplit hafter
  unfold idKey
  rw [hsplit, rank_append hbefore, rank_append hbefore]
  refine congrArg₂ (· + ·) (List.countP_congr fun i hi => ?_) (List.countP_congr fun i hi => ?_)
  · have hi := List.mem_range.mp hi
    simp only [decide_eq_true_eq, Prod.Lex.toLex_le_toLex, OrderDual.toDual_le_toDual, hi.le, and_true]
    exact le_iff_lt_or_eq.symm
  · have hi := hafter i hi
    simp only [decide_eq_true_eq, Prod.Lex.toLex_lt_toLex, OrderDual.toDual_lt_toDual, hi.not_gt, and_false, or_false]

theorem isLE_byScoreThenId (score : Nat → F) (i j : Nat) :
    (byScoreThenId (score i, i) (score j, j)).isLE = true ↔ idKey score j ≤ idKey score i := by
  unfold byScoreThenId idKey
  rw [ExactTotal.totalCmp_eq, Prod.Lex.toLex_le_toLex]
  rcases lt_trichotomy (score j) (score i) with h | h | h
  · simp [compare_lt_iff_lt.mpr h, h]
  · simp [h, isLE_compare]
  · simp [compare_gt_iff_gt.mpr h, h.not_gt, h.ne']

theorem mem_exactTopIds {query : List F} {k a : Nat} :
    a ∈ x.exactTopIds query k ↔ a < x.len ∧ rank (x.score query) a (List.range x.len) < k := by
  have hsort : sortBy byScoreThenId ((List.range x.len).map fun i => (x.score query i, i)) =
      ((List.range x.len).insertionSort fun i j => idKey (x.score query) j ≤ idKey (x.score query) i).map
        fun i => (x.score query i, i) := by
    unfold sortBy
    exact (List.map_insertionSort _ _ _ _ fun i _ j _ => (isLE_byScoreThenId (x.score query) i j).symm).symm
  have htake : ∀ {α : Type} (l : List α), l.length = x.len → l.take (min k x.len) = l.take k := by
    intro α l hl
    apply List.take_eq_take_iff.mpr
    omega
  have hmem : a ∈ ((List.range x.len).insertionSort fun i j =>
      idKey (x.score query) j ≤ idKey (x.score query) i).take k ↔
      a ∈ List.range x.len ∧ rank (idKey (x.score query)) a (List.range x.len) < k :=
    mem_take_sorted List.nodup_range fun _ _ _ _ => Iff.rfl
  unfold exactTopIds
  dsimp only
  rw [hsort, htake _ (by simp), ← List.map_take, List.map_map]
  refine Iff.trans (by rw [show (fun s : F × Nat => s.2) ∘ (fun i => (x.score query i, i)) = id from rfl,
    List.map_id]) ?_
  rw [hmem, List.mem_range]
  exact and_congr_right fun ha => by rw [rank_range _ ha]

/-! ## Nested shortlists -/

/-- What a shortlist finds of the exact best, every larger one finds. -/
def Nested (select : Select) (query : List F) (k : Nat) : Prop :=
  ∀ m m', m ≤ m' → ∀ a ∈ x.exactTopIds query k, a ∈ (x.nearestIds select query k m).map (·.1) →
    a ∈ (x.nearestIds select query k m').map (·.1)

/-- An item of the exact best that some shortlist of `m` items finds is, with all items that are no farther, in every
larger one, and no larger one that leaves items out has `k` items to put before it. -/
def Steady (query : List F) (k : Nat) : Prop :=
  ∀ a < x.len, rank (x.score query) a (List.range x.len) < k → ∀ m, k ≤ m → m + 1 < x.len →
    MayFind (x.distance query) (x.score query) (List.range x.len) k a m →
      within (x.distance query) (List.range x.len) a ≤ m + 1 ∧
        ¬ Crowded (x.distance query) (x.score query) (List.range x.len) k a

variable {x}

omit [LinearOrder F] [ExactTotal F] in
theorem nearestIds_congr {select : Select} {query : List F} {k s s' : Nat}
    (h : min (max s k) x.len = min (max s' k) x.len) :
    x.nearestIds select query k s = x.nearestIds select query k s' := by
  unfold nearestIds
  rw [h]

theorem found_cases {select : Select} (hselect : Selects select) {query : List F} (hquery : query.length = x.dim)
    {k s : Nat} (hk : k ≠ 0) (hlen : x.len ≠ 0) (hs : min (max s k) x.len < x.len) :
    ∃ l, Kept (x.distance query) (List.range x.len) l ∧ l.length = min (max s k) x.len ∧
      ∀ a, a ∈ (x.nearestIds select query k s).map (·.1) ↔ a ∈ l ∧ rank (x.score query) a l < k := by
  obtain ⟨l, hshort, hl, hll⟩ := x.shortlisted_cases hselect query (by omega) hs
  exact ⟨l, hl, hll, fun a => x.mem_nearestIds hquery hk hlen (Kept.nodup List.nodup_range hl) hshort⟩

theorem found_full {select : Select} {query : List F} (hquery : query.length = x.dim) {k s a : Nat}
    (hfull : x.len ≤ min (max s k) x.len) (htop : a ∈ x.exactTopIds query k) :
    a ∈ (x.nearestIds select query k s).map (·.1) := by
  obtain ⟨ha, hrank⟩ := x.mem_exactTopIds.mp htop
  have hshort : x.shortlisted select query (min (max s k) x.len) =
      candidates (x.distance query) (List.range x.len) := by
    rw [shortlisted_eq, if_neg hfull.not_gt]
  exact (x.mem_nearestIds hquery (by omega) (by omega) List.nodup_range hshort).mpr ⟨List.mem_range.mpr ha, hrank⟩

theorem Steady.nested {query : List F} {k : Nat} (hquery : query.length = x.dim) (h : x.Steady query k)
    {select : Select} (hselect : Selects select) : x.Nested select query k := by
  intro m m' hm a htop hfound
  obtain ⟨ha, hrank⟩ := x.mem_exactTopIds.mp htop
  have hk : k ≠ 0 := by omega
  have hlen : x.len ≠ 0 := by omega
  rcases Nat.lt_or_ge (min (max m' k) x.len) x.len with hsmall | hfull
  · rcases Nat.eq_or_lt_of_le (show min (max m k) x.len ≤ min (max m' k) x.len by omega) with heq | hlt
    · rwa [nearestIds_congr heq] at hfound
    · obtain ⟨l, hl, hll, hmem⟩ := found_cases hselect hquery hk hlen (s := m) (by omega)
      obtain ⟨l', hl', hll', hmem'⟩ := found_cases hselect hquery hk hlen hsmall
      obtain ⟨hal, hrankl⟩ := (hmem a).mp hfound
      have hmay := mayFind_of_found List.nodup_range hl hal hrankl
      obtain ⟨hwithin, hcrowd⟩ := h a ha hrank l.length (by omega) (by omega) hmay
      refine (hmem' a).mpr (found_of_not_crowded List.nodup_range (List.mem_range.mpr ha) hl' (by omega) ?_ hcrowd)
      rwa [List.length_range, hll']
  · exact found_full hquery hfull htop

theorem steady_of_nested {query : List F} {k : Nat} (hquery : query.length = x.dim)
    (h : ∀ select, Selects select → x.Nested select query k) : x.Steady query k := by
  intro a ha hrank m hkm hm hmay
  have hk : k ≠ 0 := by omega
  have hlen : x.len ≠ 0 := by omega
  have hmem := List.mem_range.mpr ha
  have hbest : (List.range x.len).countP (fun i => decide (x.score query a < x.score query i)) < k :=
    (Nat.le_add_right _ _).trans_lt hrank
  obtain ⟨l, hl, hll, hal, hrankl⟩ := exists_found List.nodup_range hmem (by simp; omega) hmay hbest
  -- What the small shortlist finds, every larger one has to find.
  have hfound : ∀ l', Kept (x.distance query) (List.range x.len) l' → m < l'.length → l'.length < x.len →
      a ∈ l' ∧ rank (x.score query) a l' < k := by
    intro l' hl' hlt hlt'
    obtain ⟨select, hselect, hs, hs'⟩ := exists_select hl hl' (by omega)
    have hshort : ∀ l : List Nat, k ≤ l.length → l.length < x.len →
        (select (candidates (x.distance query) (List.range x.len)) (l.length - 1)).take l.length =
          candidates (x.distance query) l →
        x.shortlisted select query (min (max l.length k) x.len) = candidates (x.distance query) l := by
      intro l hkl hlx h
      rw [show min (max l.length k) x.len = l.length by omega, shortlisted_eq, if_pos hlx, h]
    have hsmall := x.mem_nearestIds hquery hk hlen (Kept.nodup List.nodup_range hl)
      (hshort l (by omega) (by omega) hs) (a := a)
    have hlarge := x.mem_nearestIds hquery hk hlen (Kept.nodup List.nodup_range hl')
      (hshort l' (by omega) hlt' hs') (a := a)
    exact hlarge.mp (h select hselect l.length l'.length (by omega) a (x.mem_exactTopIds.mpr ⟨ha, hrank⟩)
      (hsmall.mpr ⟨hal, hrankl⟩))
  constructor
  · by_contra hwithin
    obtain ⟨l', hl', hll', hal'⟩ := exists_missed List.nodup_range hmem (Nat.succ_pos m) (not_le.mp hwithin)
    exact hal' (hfound l' hl' (by omega) (by omega)).1
  · intro hcrowd
    obtain ⟨l', hl', hll', hmiss⟩ := exists_crowded List.nodup_range hmem hcrowd
    rw [List.length_range] at hll'
    exact hmiss (hfound l' hl' (by omega) (by omega))

/-! ## Risks -/

variable (x)

/-- What a certificate assumes of the risks: a larger shortlist never has a greater one, and all items have none. -/
def RisksDecrease (select : Select) (queries : List (List F)) (k : Nat) : Prop :=
  k ≠ 0 → x.len ≠ 0 → x.valid queries ≠ [] →
    (x.risks select queries k : List ℚ).Pairwise (fun r s => s ≤ r) ∧
      (x.risks select queries k : List ℚ).getLast? = some 0

variable {x}

omit [LinearOrder F] [ExactTotal F] in
theorem loss_eq (select : Select) (k m : Nat) (query : List F) : (x.loss select k m query : ℚ) =
    1 - (x.exactTopIds query k).countP (fun t => decide (t ∈ (x.nearestIds select query k m).map (·.1))) /
      (x.exactTopIds query k).length := by
  have hany : ∀ t, ((x.nearestIds select query k m).any fun s => s.1 == t) =
      decide (t ∈ (x.nearestIds select query k m).map (·.1)) := by
    intro t
    rw [Bool.eq_iff_iff]
    simp
  unfold loss
  simp only [hany, ← List.countP_eq_length_filter]
  rfl

omit [LinearOrder F] [ExactTotal F] in
theorem Nested.loss_le {select : Select} {query : List F} {k m m' : Nat} (h : x.Nested select query k) (hm : m ≤ m') :
    (x.loss select k m' query : ℚ) ≤ x.loss select k m query := by
  rw [loss_eq, loss_eq]
  have hle : (x.exactTopIds query k).countP (fun t => decide (t ∈ (x.nearestIds select query k m).map (·.1))) ≤
      (x.exactTopIds query k).countP fun t => decide (t ∈ (x.nearestIds select query k m').map (·.1)) :=
    List.countP_mono_left fun t ht hfound => decide_eq_true (h m m' hm t ht (of_decide_eq_true hfound))
  have hdiv := div_le_div_of_nonneg_right (Nat.cast_le (α := ℚ).mpr hle)
    (Nat.cast_nonneg (α := ℚ) (x.exactTopIds query k).length)
  linarith

theorem loss_full {select : Select} {query : List F} (hquery : query.length = x.dim) {k : Nat} (hk : k ≠ 0)
    (hlen : x.len ≠ 0) : (x.loss select k x.len query : ℚ) = 0 := by
  have hall : (x.exactTopIds query k).countP (fun t => decide (t ∈ (x.nearestIds select query k x.len).map (·.1))) =
      (x.exactTopIds query k).length :=
    List.countP_eq_length.mpr fun t ht => decide_eq_true (found_full hquery (by omega) ht)
  have hne : ((x.exactTopIds query k).length : ℚ) ≠ 0 := by
    have hlength : (x.exactTopIds query k).length = min k x.len := by simp [exactTopIds]
    rw [hlength, Nat.cast_ne_zero]
    omega
  rw [loss_eq, hall, div_self hne, sub_self]

theorem foldl_add_le {l l' : List ℚ} (h : List.Forall₂ (· ≤ ·) l l') {a a' : ℚ} (ha : a ≤ a') :
    l.foldl (· + ·) a ≤ l'.foldl (· + ·) a' := by
  induction h generalizing a a' with
  | nil => exact ha
  | cons hle _ ih => exact ih (add_le_add ha hle)

theorem foldl_add_zero {l : List ℚ} (h : ∀ r ∈ l, r = 0) : l.foldl (· + ·) 0 = 0 := by
  induction l with
  | nil => rfl
  | cons r l ih =>
    obtain ⟨rfl, hl⟩ := List.forall_mem_cons.mp h
    rw [List.foldl_cons, add_zero, ih hl]

theorem doublings_sorted (len m : Nat) :
    (doublings len m).Pairwise (· ≤ ·) ∧ ∀ m' ∈ doublings len m, m ≤ m' ∧ m' < len := by
  fun_induction doublings len m with
  | case1 m h ih =>
    refine ⟨List.pairwise_cons.mpr ⟨fun m' hm' => ?_, ih.1⟩,
      List.forall_mem_cons.mpr ⟨⟨le_refl m, h.2⟩, fun m' hm' => ?_⟩⟩
    · have := (ih.2 m' hm').1
      omega
    · have := ih.2 m' hm'
      omega
  | case2 m h => exact ⟨List.Pairwise.nil, by simp⟩

theorem grid_sorted (k len : Nat) : (grid k len).Pairwise (· ≤ ·) := by
  obtain ⟨hsorted, hlt⟩ := doublings_sorted len (max k 1)
  refine List.pairwise_append.mpr ⟨hsorted, List.pairwise_singleton _ _, fun m hm m' hm' => ?_⟩
  rw [List.mem_singleton.mp hm']
  exact (hlt m hm).2.le

theorem risksDecrease_of_nested {select : Select} {queries : List (List F)} {k : Nat}
    (h : ∀ q ∈ queries, x.Nested select q k) : x.RisksDecrease select queries k := by
  intro hk hlen hvalid
  have hmem : ∀ q ∈ x.valid queries, q ∈ queries ∧ q.length = x.dim := by
    unfold valid
    simp
  constructor
  · refine List.pairwise_map.mpr ((grid_sorted k x.len).imp fun hm => ?_)
    refine div_le_div_of_nonneg_right (foldl_add_le ?_ (le_refl _)) (Nat.cast_nonneg _)
    rw [List.forall₂_map_left_iff, List.forall₂_map_right_iff, List.forall₂_same]
    exact fun q hq => (h q (hmem q hq).1).loss_le hm
  · unfold risks grid
    rw [List.map_append, List.map_singleton, List.getLast?_concat]
    refine congrArg some ?_
    have hzero : ((x.valid queries).map fun q => (x.loss select k x.len q : ℚ)).foldl (· + ·) 0 = 0 :=
      foldl_add_zero (List.forall_mem_map.mpr fun q hq => loss_full (hmem q hq).2 hk hlen)
    exact (congrArg (· / _) hzero).trans (zero_div _)

/-- Shortlists are nested for every selection, and the risks that a certificate rests on decrease, exactly when
distances and scores tie nowhere that matters. -/
theorem nested_exactly (x : SketchIndex F) (queries : List (List F)) (k : Nat) :
    (∀ select, Selects select → (∀ q ∈ queries, x.Nested select q k) ∧ x.RisksDecrease select queries k) ↔
      ∀ q ∈ queries, q.length = x.dim → x.Steady q k := by
  constructor
  · intro h q hq hquery
    exact steady_of_nested hquery fun select hselect => (h select hselect).1 q hq
  · intro h select hselect
    have hnested : ∀ q ∈ queries, x.Nested select q k := by
      intro q hq
      by_cases hquery : q.length = x.dim
      · exact (h q hq hquery).nested hquery hselect
      · intro m m' _ a _ hfound
        simp [nearestIds, hquery] at hfound
    exact ⟨hnested, risksDecrease_of_nested hnested⟩

end

namespace Sample

/-- Three items in two dimensions, with one word of sketch. -/
def index (planes : List ℚ) : SketchIndex ℚ :=
  let empty : SketchIndex ℚ := ⟨⟨planes, 2, 64⟩, 2, .f32 [], [], [], []⟩
  (((empty.insert [1, 0] []).1.insert [3 / 5, 4 / 5] []).1.insert [4 / 5, 3 / 5] []).1

/-- All items are on the positive side of all hyperplanes. -/
def alike : SketchIndex ℚ := index (List.replicate 128 1)

/-- The first two hyperplanes tell the items apart. -/
def apart : SketchIndex ℚ := index ([1, -1, 1, -2] ++ List.replicate 124 1)

example : alike.distance [1, 0] 2 = 0 := by decide +kernel

/-- The best item is found alone, and dropped for two others of its sketch. -/
theorem alike_not_nested : ∃ select, Selects select ∧ 0 ∈ alike.exactTopIds [1, 0] 1 ∧
    0 ∈ (alike.nearestIds select [1, 0] 1 1).map (·.1) ∧ 0 ∉ (alike.nearestIds select [1, 0] 1 2).map (·.1) := by
  have hzero : ∀ i ∈ List.range 3, alike.distance [1, 0] i = 0 := by decide +kernel
  have hkept : ∀ l rest : List Nat, (l ++ rest).Perm (List.range 3) → ∀ front pivot, l = front ++ [pivot] →
      Kept (alike.distance [1, 0]) (List.range 3) l := by
    intro l rest hperm front pivot hl
    have hmem : ∀ i ∈ l ++ rest, alike.distance [1, 0] i = 0 := fun i hi => hzero i (hperm.mem_iff.mp hi)
    have hpivot : alike.distance [1, 0] pivot = 0 := hmem pivot (by simp [hl])
    refine ⟨front, pivot, rest, hl, hperm, fun i hi => ?_, fun i hi => ?_⟩
    · rw [hmem i (by simp [hl, hi]), hpivot]
    · rw [hpivot]
      exact Nat.zero_le _
  have hone := hkept [0] [1, 2] (by decide) [] 0 rfl
  have htwo := hkept [1, 2] [0] (by decide) [1] 2 rfl
  obtain ⟨select, hselect, hs, hs'⟩ := exists_select hone htwo (by decide)
  have hlen : alike.len = 3 := by decide
  have hfound : ∀ l : List Nat, l.Nodup → 1 ≤ l.length → l.length < 3 →
      (select (candidates (alike.distance [1, 0]) (List.range 3)) (l.length - 1)).take l.length =
        candidates (alike.distance [1, 0]) l →
      (0 ∈ (alike.nearestIds select [1, 0] 1 l.length).map (·.1) ↔ 0 ∈ l ∧ rank (alike.score [1, 0]) 0 l < 1) := by
    intro l hnodup hpos hlt h
    refine mem_nearestIds alike rfl (by decide) (by rw [hlen]; decide) hnodup ?_
    rw [hlen, show min (max l.length 1) 3 = l.length by omega, shortlisted_eq, hlen, if_pos hlt, h]
  have hsmall := hfound [0] (by decide) (by decide) (by decide) hs
  have hlarge := hfound [1, 2] (by decide) (by decide) (by decide) hs'
  refine ⟨select, hselect, by decide +kernel, hsmall.mpr (by decide +kernel), fun h => ?_⟩
  exact absurd (hlarge.mp h).1 (by decide)

theorem apart_nested : apart.len = 3 ∧ ∀ select, Selects select →
    (∀ q ∈ [[(1 : ℚ), 0]], apart.Nested select q 1) ∧ apart.RisksDecrease select [[1, 0]] 1 := by
  have hlen : apart.len = 3 := by decide
  refine ⟨hlen, (nested_exactly apart [[1, 0]] 1).mpr fun q hq _ a ha hrank m hm hlt _ => ?_⟩
  rw [List.mem_singleton] at hq
  subst hq
  rw [hlen] at ha hrank hlt ⊢
  obtain rfl : a = 0 := by
    have hbest : ∀ a < 3, rank (apart.score [1, 0]) a (List.range 3) < 1 → a = 0 := by decide +kernel
    exact hbest a ha hrank
  obtain rfl : m = 1 := by omega
  refine ⟨by decide +kernel, ?_⟩
  rintro ⟨j, -, l, -, -, -, -, -, hcount⟩
  have hbehind : ∀ i ∈ List.range 3, i ≠ 0 → ¬ apart.score [1, 0] 0 ≤ apart.score [1, 0] i := by decide +kernel
  refine absurd hcount (Nat.not_le.mpr (Nat.lt_one_iff.mpr (List.countP_eq_zero.mpr fun i hi h => ?_)))
  obtain ⟨hne, -, hle, -⟩ := of_decide_eq_true h
  exact hbehind i hi hne hle

end Sample

end SketchIndex

end Ccos.Octasoma
