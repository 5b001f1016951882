import Ccos.Forge.Pareto
import Ccos.Lib.Grid

/-!
# Aligned trajectories

Two score trajectories are aligned by dynamic time warping: a step of one may stand for several of the other. The table
of costs is filled row by row, and the alignment is read off it backwards. The ordered operations of two runs are
compared by their longest common subsequence, over a table of the same shape.
-/

namespace Ccos

/-- What an alignment asks of `f64`: a sum of what is not negative is no less than its parts and keeps their order. -/
class WarpFloat64 (F : Type) [InfFloat64 F] extends PlacedFloat64 F where
  finite_zero : Float64.isFinite (Scalar.lit 0 : F) = true
  place_zero : place (Scalar.lit 0 : F) = some 0
  place_infinity : ∃ x, place (InfFloat64.infinity : F) = some x ∧ 0 ≤ x
  place_dist : ∀ a b : F, Float64.isFinite a = true → Float64.isFinite b = true →
    ∃ x, place (Scalar.abs (a - b)) = some x ∧ 0 ≤ x
  place_add : ∀ (a b c : F) (x y z : ℚ), place a = some x → place b = some y → place c = some z →
    0 ≤ x → 0 ≤ y → y ≤ z → ∃ s t, place (a + b) = some s ∧ place (a + c) = some t ∧ y ≤ s ∧ s ≤ t

instance : WarpFloat64 ℚ where
  finite_zero := rfl
  place_zero := rfl
  place_infinity := ⟨2 ^ 1024, rfl, by positivity⟩
  place_dist a b _ _ := ⟨|a - b|, rfl, abs_nonneg _⟩
  place_add a b c x y z ha hb hc hx _ hyz := by
    obtain rfl := Option.some.inj ha
    obtain rfl := Option.some.inj hb
    obtain rfl := Option.some.inj hc
    exact ⟨a + b, a + c, rfl, rfl, le_add_of_nonneg_left hx, add_le_add_right hyz a⟩

structure Alignment (F : Type) where
  distance : F
  path : List (Nat × Nat)
  divergence : Option Nat
  deriving DecidableEq

namespace Dtw

section

variable {F : Type} [InfFloat64 F]

open Scalar (lit min ge gt)
open InfFloat64 (infinity)

/-- One cell, from the three before it. -/
def cellCost (x y diag up left : F) : F := Scalar.abs (x - y) + min (min diag up) left

/-- Row 0 and column 0 are padded with infinity. -/
def costTable (a b : List F) : List (List F) :=
  Grid.table cellCost infinity b (lit 0 :: List.replicate b.length infinity) a

/-- `cost[i][j]`. -/
def costAt (a b : List F) (i j : Nat) : F := (Grid.cell (costTable a b) i j).getD infinity

/-- `(a[i] - b[j]).abs()`. -/
def localCost (a b : List F) (c : Nat × Nat) : F := Scalar.abs (a[c.1]?.getD (lit 0) - b[c.2]?.getD (lit 0))

/-- From a cell back to the padding, diagonal-first on ties. -/
def traceback (cost : Nat → Nat → F) : Nat → Nat → List (Nat × Nat)
  | i + 1, j + 1 =>
    let diag := cost i j
    let up := cost i (j + 1)
    let left := cost (i + 1) j
    (i, j) ::
      if ge up diag && ge left diag then traceback cost i j
      else if ge left up then traceback cost i (j + 1)
      else traceback cost (i + 1) j
  | _, _ => []
termination_by i j => i + j

def align (a b : List F) (divergenceThreshold : F) : Alignment F :=
  if a.length = 0 ∨ b.length = 0 then
    { distance := if a.length = b.length then lit 0 else infinity, path := [], divergence := none }
  else
    let path := (traceback (costAt a b) a.length b.length).reverse
    { distance := costAt a b a.length b.length
      path
      divergence := path.findIdx? fun c => gt (localCost a b c) divergenceThreshold }

def dtwDistance (a b : List F) : F := (align a b infinity).distance

/-- What an alignment costs along a path, from its start on. -/
def pathCost (a b : List F) (p : List (Nat × Nat)) : F := Grid.cost (fun c cost => localCost a b c + cost) (lit 0) p

end

/-! ## The table is that of the best paths -/

section

variable {F : Type} [InfFloat64 F] {a b : List F}

open Scalar (lit)

theorem costAt_zero_zero : costAt a b 0 0 = lit 0 := by
  rw [costAt, costTable, Grid.cell_zero]
  rfl

theorem costAt_zero_succ (j : Nat) : costAt a b 0 (j + 1) = InfFloat64.infinity := by
  rw [costAt, costTable, Grid.cell_zero, List.getElem?_cons_succ, List.getElem?_replicate]
  split <;> rfl

theorem costAt_succ_zero {i : Nat} (hi : i < a.length) : costAt a b (i + 1) 0 = InfFloat64.infinity := by
  rw [costAt, costTable, Grid.cell_succ_zero hi]
  rfl

theorem costAt_succ_succ {i j : Nat} (hi : i < a.length) (hj : j < b.length) : costAt a b (i + 1) (j + 1) =
    localCost a b (i, j) + Scalar.min (Scalar.min (costAt a b i j) (costAt a b i (j + 1))) (costAt a b (i + 1) j) := by
  have hrow : (lit 0 :: List.replicate b.length (InfFloat64.infinity : F)).length = b.length + 1 := by
    rw [List.length_cons, List.length_replicate]
  obtain ⟨diag, up, left, hdiag, hup, hleft, hcell⟩ := @Grid.cell_succ_succ _ _ _ cellCost InfFloat64.infinity b _ hrow
    a i j _ _ (List.getElem?_eq_getElem hi) (List.getElem?_eq_getElem hj)
  simp only [costAt, costTable, localCost, hdiag, hup, hleft, hcell, List.getElem?_eq_getElem hi,
    List.getElem?_eq_getElem hj, Option.getD_some, cellCost]

end

section

variable {F : Type} [InfFloat64 F] [WarpFloat64 F]

open Scalar PlacedFloat64 WarpFloat64

/-- A number that is not negative, infinity among them. -/
@[ext]
structure Cost (F : Type) [InfFloat64 F] [WarpFloat64 F] where
  number : F
  placed : ∃ q, place number = some q ∧ 0 ≤ q

namespace Cost

def value (c : Cost F) : ℚ := (place c.number).getD 0

instance : Preorder (Cost F) := Preorder.lift value

theorem place_eq (c : Cost F) : place c.number = some c.value := by
  obtain ⟨q, hq, -⟩ := c.placed
  rw [value, hq, Option.getD_some]

theorem value_nonneg (c : Cost F) : 0 ≤ c.value := by
  obtain ⟨q, hq, h0⟩ := c.placed
  rwa [value, hq, Option.getD_some]

theorem value_eq {c : Cost F} {q : ℚ} (h : place c.number = some q) : c.value = q := by rw [value, h, Option.getD_some]

theorem le_iff {c d : Cost F} : c ≤ d ↔ c.value ≤ d.value := Iff.rfl

theorem lt_iff {c d : Cost F} : c < d ↔ c.value < d.value := Iff.rfl

theorem le_total (c d : Cost F) : c ≤ d ∨ d ≤ c := Rat.le_total

def zero : Cost F := ⟨lit 0, 0, place_zero, le_refl 0⟩

def infinity : Cost F := ⟨InfFloat64.infinity, place_infinity⟩

theorem zero_le (c : Cost F) : zero ≤ c := by
  rw [le_iff, value_eq (c := zero) place_zero]
  exact c.value_nonneg

def add (c d : Cost F) : Cost F :=
  ⟨c.number + d.number, by
    obtain ⟨s, -, hs, -, hd, -⟩ := place_add c.number d.number d.number _ _ _ c.place_eq d.place_eq d.place_eq
      c.value_nonneg d.value_nonneg (le_refl _)
    exact ⟨s, hs, d.value_nonneg.trans hd⟩⟩

theorem add_mono (c : Cost F) : Monotone c.add := by
  intro d e hde
  obtain ⟨s, t, hs, ht, -, hst⟩ := place_add c.number d.number e.number _ _ _ c.place_eq d.place_eq e.place_eq
    c.value_nonneg d.value_nonneg hde
  rw [le_iff, value_eq (c := c.add d) hs, value_eq (c := c.add e) ht]
  exact hst

theorem le_add (c d : Cost F) : d ≤ c.add d := by
  obtain ⟨s, -, hs, -, hd, -⟩ := place_add c.number d.number d.number _ _ _ c.place_eq d.place_eq d.place_eq
    c.value_nonneg d.value_nonneg (le_refl _)
  rw [le_iff, value_eq (c := c.add d) hs]
  exact hd

theorem gt_eq (c d : Cost F) : gt c.number d.number = decide (d.value < c.value) := by
  rw [Bool.eq_iff_iff, gt_iff_place, c.place_eq, d.place_eq, decide_eq_true_eq]
  simp

theorem ge_iff (c d : Cost F) : ge c.number d.number = true ↔ d ≤ c := by
  have heq : (partialCmp c.number d.number == some .eq) = true ↔ d.value = c.value := by
    rw [beq_iff_eq, partialCmp_eq, c.place_eq, d.place_eq, Option.bind_some, Option.map_some, Option.some_inj,
      compare_eq_iff_eq, eq_comm]
  rw [ge, Bool.or_eq_true, gt_eq, decide_eq_true_eq, heq, le_iff, le_iff_lt_or_eq]

theorem isNan_eq (c : Cost F) : isNan c.number = false := by
  rw [Bool.eq_false_iff, Ne, isNan_iff_place, c.place_eq]
  exact Option.some_ne_none _

def min (c d : Cost F) : Cost F := if gt c.number d.number then d else c

theorem min_val (c d : Cost F) : Scalar.min c.number d.number = (min c d).number := by
  rw [Scalar.min, if_neg (by rw [isNan_eq]; exact Bool.false_ne_true), min]
  split <;> rfl

theorem min_spec (c d : Cost F) : (min c d = c ∨ min c d = d) ∧ min c d ≤ c ∧ min c d ≤ d := by
  unfold min
  rw [gt_eq]
  by_cases h : d.value < c.value
  · rw [decide_eq_true h, if_pos rfl]
    exact ⟨.inr rfl, h.le, le_refl d⟩
  · rw [decide_eq_false h, if_neg Bool.false_ne_true]
    exact ⟨.inl rfl, le_refl c, not_lt.mp h⟩

end Cost

variable {a b : List F} (ha : ∀ x ∈ a, Float64.isFinite x = true) (hb : ∀ y ∈ b, Float64.isFinite y = true)

include ha hb in
theorem localCost_place (c : Nat × Nat) : ∃ q, place (localCost a b c) = some q ∧ 0 ≤ q := by
  have hget : ∀ (s : List F), (∀ x ∈ s, Float64.isFinite x = true) → ∀ i : Nat,
      Float64.isFinite (s[i]?.getD (lit 0)) = true := by
    intro s hs i
    cases h : s[i]? with
    | none => exact finite_zero
    | some x => exact hs x (List.mem_of_getElem? h)
  exact place_dist _ _ (hget a ha c.1) (hget b hb c.2)

include ha hb in
theorem costAt_place (i j : Nat) : ∃ q, place (costAt a b i j) = some q ∧ 0 ≤ q := by
  rw [costAt]
  cases h : Grid.cell (costTable a b) i j with
  | none => exact place_infinity
  | some c =>
    refine Grid.forall_cell (P := fun c : F => ∃ q, place c = some q ∧ 0 ≤ q) ?_ place_infinity ?_ h
    · intro x hx y hy diag up left hdiag hup hleft
      have hdist := place_dist x y (ha x hx) (hb y hy)
      have hmin : Scalar.min (Scalar.min diag up) left =
          (Cost.min (Cost.min ⟨diag, hdiag⟩ ⟨up, hup⟩) ⟨left, hleft⟩).number := by
        rw [← Cost.min_val, ← Cost.min_val]
      rw [cellCost, hmin]
      exact (Cost.add ⟨_, hdist⟩ _).placed
    · intro c hc
      rcases List.mem_cons.mp hc with rfl | hc
      · exact ⟨0, place_zero, le_refl 0⟩
      · rw [List.eq_of_mem_replicate hc]
        exact place_infinity

def best (i j : Nat) : Cost F := ⟨costAt a b i j, costAt_place ha hb i j⟩

def extend (c : Nat × Nat) : Cost F → Cost F := Cost.add ⟨localCost a b c, localCost_place ha hb c⟩

theorem extend_mono (c : Nat × Nat) : Monotone (extend ha hb c) := Cost.add_mono _

theorem bellman : Grid.Bellman (extend ha hb) Cost.zero a.length b.length (best ha hb) where
  corner := Cost.ext costAt_zero_zero
  cell i j hi hj := by
    let diag := best ha hb i j
    let up := best ha hb i (j + 1)
    let left := best ha hb (i + 1) j
    obtain ⟨hone, hle, hle'⟩ := Cost.min_spec (Cost.min diag up) left
    obtain ⟨hone', hdiag, hup⟩ := Cost.min_spec diag up
    refine ⟨Cost.min (Cost.min diag up) left, Cost.ext ?_, ?_, hle.trans hdiag, hle.trans hup, hle'⟩
    · show costAt a b (i + 1) (j + 1) = _
      rw [costAt_succ_succ hi hj]
      show _ = localCost a b (i, j) + (Cost.min (Cost.min diag up) left).number
      rw [← Cost.min_val, ← Cost.min_val]
      rfl
    · rcases hone with h | h
      · rcases hone' with h' | h'
        · exact .inl (h.trans h')
        · exact .inr (.inl (h.trans h'))
      · exact .inr (.inr h)

theorem cost_val (p : List (Nat × Nat)) : (Grid.cost (extend ha hb) Cost.zero p).number = pathCost a b p := by
  have hfold : ∀ (c : Cost F), (p.foldl (fun c at' => extend ha hb at' c) c).number =
      p.foldl (fun cost c => localCost a b c + cost) c.number := by
    induction p with
    | nil => exact fun _ => rfl
    | cons c p ih => exact fun d => ih (extend ha hb c d)
  exact hfold Cost.zero

/-! ## The path read back -/

/-- What is no more than the three cells before a cell is no more than the cell. -/
theorem le_best {i j : Nat} (hi : i < a.length) (hj : j < b.length) {v : Cost F} (hdiag : v ≤ best ha hb i j)
    (hup : v ≤ best ha hb i (j + 1)) (hleft : v ≤ best ha hb (i + 1) j) : v ≤ best ha hb (i + 1) (j + 1) := by
  obtain ⟨c, hc, hone, -⟩ := (bellman ha hb).cell i j hi hj
  rw [hc]
  refine le_trans ?_ (Cost.le_add _ c)
  rcases hone with rfl | rfl | rfl
  · exact hdiag
  · exact hup
  · exact hleft

theorem best_zero_succ (j : Nat) : best ha hb 0 (j + 1) = Cost.infinity := Cost.ext (costAt_zero_succ j)

theorem best_succ_zero {i : Nat} (hi : i < a.length) : best ha hb (i + 1) 0 = Cost.infinity :=
  Cost.ext (costAt_succ_zero hi)

/-- Below infinity the way back never leaves the table. -/
theorem traceback_traced {i j : Nat} (hi : i < a.length) (hj : j < b.length)
    (hlt : best ha hb (i + 1) (j + 1) < Cost.infinity) :
    Grid.Traced (best ha hb) (traceback (costAt a b) (i + 1) (j + 1)).reverse (i, j) := by
  induction hk : i + j using Nat.strong_induction_on generalizing i j with
  | _ k ih =>
    have hback : ∀ {v : Cost F}, v ≤ best ha hb i j → v ≤ best ha hb i (j + 1) → v ≤ best ha hb (i + 1) j →
        v < Cost.infinity := fun hdiag hup hleft => (le_best ha hb hi hj hdiag hup hleft).trans_lt hlt
    have hge : ∀ {i j i' j' : Nat}, ge (costAt a b i j) (costAt a b i' j') = true ↔ best ha hb i' j' ≤ best ha hb i j :=
      fun {i j i' j'} => Cost.ge_iff (best ha hb i j) (best ha hb i' j')
    rw [traceback, List.reverse_cons]
    by_cases hdiag : best ha hb i j ≤ best ha hb i (j + 1) ∧ best ha hb i j ≤ best ha hb (i + 1) j
    · rw [if_pos (by rw [Bool.and_eq_true, hge, hge]; exact hdiag)]
      have hback := hback (le_refl _) hdiag.1 hdiag.2
      rcases i with - | i
      · rcases j with - | j
        · rw [traceback]
          · exact .corner
          · simp
        · rw [best_zero_succ] at hback
          exact absurd hback (lt_irrefl _)
      · rcases j with - | j
        · rw [best_succ_zero ha hb (Nat.lt_of_succ_lt hi)] at hback
          exact absurd hback (lt_irrefl _)
        · exact .step (ih (i + j) (by omega) (Nat.lt_of_succ_lt hi) (Nat.lt_of_succ_lt hj) hback rfl) (.diag i j)
            (le_refl _) hdiag.1 hdiag.2
    · rw [if_neg (by rw [Bool.and_eq_true, hge, hge]; exact hdiag)]
      by_cases hup : best ha hb i (j + 1) ≤ best ha hb (i + 1) j
      · have hle : best ha hb i (j + 1) ≤ best ha hb i j :=
          (Cost.le_total _ _).resolve_right fun h => hdiag ⟨h, h.trans hup⟩
        have hback := hback hle (le_refl _) hup
        rw [if_pos (hge.mpr hup)]
        rcases i with - | i
        · rw [best_zero_succ] at hback
          exact absurd hback (lt_irrefl _)
        · exact .step (ih (i + j) (by omega) (Nat.lt_of_succ_lt hi) hj hback rfl) (.down i j) hle (le_refl _) hup
      · have hleft : best ha hb (i + 1) j ≤ best ha hb i (j + 1) := (Cost.le_total _ _).resolve_right hup
        have hle : best ha hb (i + 1) j ≤ best ha hb i j :=
          (Cost.le_total _ _).resolve_right fun h => hdiag ⟨h.trans hleft, h⟩
        have hback := hback hle hleft (le_refl _)
        rw [if_neg (fun h => hup (hge.mp h))]
        rcases j with - | j
        · rw [best_succ_zero ha hb hi] at hback
          exact absurd hback (lt_irrefl _)
        · exact .step (ih (i + j) (by omega) hi (Nat.lt_of_succ_lt hj) hback rfl) (.right i j) hle hleft (le_refl _)

include ha hb in
/-- The distance of two trajectories of finite numbers is no more than any warping of one onto the other costs. When it
is below infinity the path is such a warping, from the start of both to their end, and costs the distance. -/
theorem align_optimal (threshold : F) (hna : a ≠ []) (hnb : b ≠ []) :
    ∃ d, place (align a b threshold).distance = some d ∧
      (∀ p, Grid.Path p (a.length - 1, b.length - 1) → ∃ c, place (pathCost a b p) = some c ∧ d ≤ c) ∧
      (gt (InfFloat64.infinity : F) (align a b threshold).distance = true →
        Grid.Path (align a b threshold).path (a.length - 1, b.length - 1) ∧
          place (pathCost a b (align a b threshold).path) = some d) := by
  have hpos : 0 < a.length := List.length_pos_iff.mpr hna
  have hpos' : 0 < b.length := List.length_pos_iff.mpr hnb
  obtain ⟨n, hn⟩ : ∃ n, a.length = n + 1 := ⟨a.length - 1, by omega⟩
  obtain ⟨m, hm⟩ : ∃ m, b.length = m + 1 := ⟨b.length - 1, by omega⟩
  have hi : n < a.length := by omega
  have hj : m < b.length := by omega
  have hdistance : (align a b threshold).distance = (best ha hb (n + 1) (m + 1)).number := by
    rw [align, if_neg (by omega), ← hn, ← hm]
    rfl
  have hpath : (align a b threshold).path = (traceback (costAt a b) (n + 1) (m + 1)).reverse := by
    rw [align, if_neg (by omega), ← hn, ← hm]
  rw [hdistance, hpath, hn, hm, Nat.add_sub_cancel, Nat.add_sub_cancel]
  have hplace : ∀ p, place (pathCost a b p) = some (Grid.cost (extend ha hb) Cost.zero p).value := fun p => by
    rw [← cost_val ha hb, Cost.place_eq]
  refine ⟨_, Cost.place_eq _, fun p hp => ⟨_, hplace p, ?_⟩, fun hlt => ?_⟩
  · have hle := (bellman ha hb).le_cost (extend_mono ha hb) hp hi hj
    exact Cost.le_iff.mp hle
  · have hlt : best ha hb (n + 1) (m + 1) < Cost.infinity := by
      exact Cost.lt_iff.mpr (of_decide_eq_true ((Cost.gt_eq Cost.infinity _).symm.trans hlt))
    have htraced := traceback_traced ha hb hi hj hlt
    have hle := (bellman ha hb).cost_le (extend_mono ha hb) ⟨Cost.zero_le _, Cost.zero_le _⟩ htraced hi hj
    have hge := (bellman ha hb).le_cost (extend_mono ha hb) htraced.path hi hj
    exact ⟨htraced.path, (hplace _).trans (congrArg some (le_antisymm (Cost.le_iff.mp hle) (Cost.le_iff.mp hge)))⟩

end

/-- The same ramp, one step later. -/
theorem align_optimal_ramp : ∃ d, PlacedFloat64.place (align [(0 : ℚ), 1] [0, 0, 1] 0).distance = some d ∧
    (∀ p, Grid.Path p (1, 2) → ∃ c, PlacedFloat64.place (pathCost [(0 : ℚ), 1] [0, 0, 1] p) = some c ∧ d ≤ c) ∧
    (Scalar.gt (InfFloat64.infinity : ℚ) (align [(0 : ℚ), 1] [0, 0, 1] 0).distance = true →
      Grid.Path (align [(0 : ℚ), 1] [0, 0, 1] 0).path (1, 2) ∧
        PlacedFloat64.place (pathCost [(0 : ℚ), 1] [0, 0, 1] (align [(0 : ℚ), 1] [0, 0, 1] 0).path) = some d) :=
  align_optimal (fun _ _ => rfl) (fun _ _ => rfl) 0 (List.cons_ne_nil _ _) (List.cons_ne_nil _ _)

/-! ## Shared operations -/

section

variable {α : Type} [DecidableEq α]

/-- One cell, from the three before it. -/
def lcsCell (x y : α) (diag up left : Nat) : Nat := if x = y then diag + 1 else max up left

def lcsLen (a b : List α) : Nat :=
  if a.length = 0 ∨ b.length = 0 then 0
  else (Grid.cell (Grid.table lcsCell 0 b (List.replicate (b.length + 1) 0) a) a.length b.length).getD 0

/-- The cells of the table, up to the whole of both. -/
theorem cell_longest (a b : List α) (i j : Nat) (hi : i ≤ a.length) (hj : j ≤ b.length) :
    ∃ k, Grid.cell (Grid.table lcsCell 0 b (List.replicate (b.length + 1) 0) a) i j = some k ∧
      Grid.Longest (a.take i) (b.take j) k := by
  have hrow : (List.replicate (b.length + 1) 0).length = b.length + 1 := List.length_replicate
  induction i generalizing j with
  | zero =>
    refine ⟨0, ?_, Grid.longest_nil_left _⟩
    rw [Grid.cell_zero, List.getElem?_replicate, if_pos (by omega)]
  | succ i ih =>
    have hlt : i < a.length := hi
    induction j with
    | zero => exact ⟨0, Grid.cell_succ_zero hlt, Grid.longest_nil_right _⟩
    | succ j ihj =>
      have hlt' : j < b.length := hj
      obtain ⟨diag, up, left, hdiag, hup, hleft, hcell⟩ := @Grid.cell_succ_succ _ _ _ lcsCell 0 b _ hrow a i j _ _
        (List.getElem?_eq_getElem hlt) (List.getElem?_eq_getElem hlt')
      obtain ⟨k, hk, hlongest⟩ := ih j hlt.le hlt'.le
      obtain rfl := Option.some.inj (hdiag.symm.trans hk)
      obtain ⟨k', hk', hlongest'⟩ := ih (j + 1) hlt.le hj
      obtain rfl := Option.some.inj (hup.symm.trans hk')
      obtain ⟨k'', hk'', hlongest''⟩ := ihj hlt'.le
      obtain rfl := Option.some.inj (hleft.symm.trans hk'')
      refine ⟨_, hcell, ?_⟩
      rw [List.take_succ_eq_append_getElem hlt] at hlongest'' ⊢
      rw [List.take_succ_eq_append_getElem hlt'] at hlongest' ⊢
      rw [lcsCell]
      split
      · rename_i heq
        rw [← heq]
        exact hlongest.snoc
      · exact Grid.Longest.snoc_of_ne ‹_› hlongest' hlongest''

/-- No common subsequence of the two is longer, and one is as long. -/
theorem lcsLen_longest (a b : List α) : Grid.Longest a b (lcsLen a b) := by
  rw [lcsLen]
  split
  · rename_i h
    rcases h with h | h
    · rw [List.length_eq_zero_iff.mp h]
      exact Grid.longest_nil_left b
    · rw [List.length_eq_zero_iff.mp h]
      exact Grid.longest_nil_right a
  · obtain ⟨k, hk, hlongest⟩ := cell_longest a b a.length b.length (le_refl _) (le_refl _)
    rw [List.take_length, List.take_length] at hlongest
    rwa [hk]

example : lcsLen ["ingest", "recall", "fail", "recall"] ["ingest", "fail", "recall"] = 3 := by decide +kernel

end

end Dtw

end Ccos
