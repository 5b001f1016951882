import Ccos.Lib.FirstFit
import Ccos.Scalar
import Mathlib.Algebra.BigOperators.Group.List.Basic
import Mathlib.Algebra.Order.BigOperators.Group.List
import Mathlib.Data.List.Perm.Basic

/-!
# The zones of the context

Every node is HOT, WARM or COLD. Two packings and an eviction move nodes between the zones.
-/

open Std

namespace Ccos

/-- `as usize`, which saturates. -/
class UsizeFloat64 (F : Type) extends Float64 F where
  toUsize : F → UInt64

/-- `none` is the panic of a build that checks for overflow; the other builds wrap. -/
def usizeAdd (checked : Bool) (a b : UInt64) : Option UInt64 :=
  if checked && 2 ^ 64 ≤ a.toNat + b.toNat then none else some (a + b)

/-- `.sum()` -/
def usizeSum (checked : Bool) (l : List UInt64) : Option UInt64 := l.foldlM (usizeAdd checked) 0

def saturatingSub (a b : UInt64) : UInt64 := if a ≤ b then 0 else a - b

inductive MemoryZone
  | hot | warm | cold
  deriving DecidableEq, Repr

structure ScheduledNode (F : Type) where
  tokenCost : UInt64
  priorityScore : F
  memoryZone : MemoryZone

structure AllocationStats where
  hot : Nat
  warm : Nat
  cold : Nat
  hotTokens : UInt64
  budget : UInt64

structure ContextScheduler (F : Type) where
  tokenBudget : UInt64
  warmRatio : F
  /-- The entries of the map, in the order in which it iterates. -/
  nodes : List (Str × ScheduledNode F)
  nodup : (nodes.map Prod.fst).Nodup

namespace ContextScheduler

variable {F : Type}

def rezone (zone : MemoryZone) (e : Str × ScheduledNode F) : Str × ScheduledNode F :=
  (e.1, { e.2 with memoryZone := zone })

theorem keys_rezone_at (id : Str) (zone : MemoryZone) (nodes : List (Str × ScheduledNode F)) :
    (nodes.map fun e => if e.1 = id then rezone zone e else e).map Prod.fst = nodes.map Prod.fst := by
  rw [List.map_map]
  refine List.map_congr_left fun e _ => ?_
  dsimp only [Function.comp]
  split <;> rfl

/-- `self.nodes.get_mut(&id).unwrap().memory_zone = zone` -/
def setZone (id : Str) (zone : MemoryZone) (s : ContextScheduler F) : ContextScheduler F where
  tokenBudget := s.tokenBudget
  warmRatio := s.warmRatio
  nodes := s.nodes.map fun e => if e.1 = id then rezone zone e else e
  nodup := (keys_rezone_at id zone s.nodes).symm ▸ s.nodup

/-! ## Packing -/

/-- What a packing has done so far. -/
structure Packing (F : Type) where
  scheduler : ContextScheduler F
  used : UInt64
  stats : AllocationStats

/-- One turn of the loop of a packing. The two differ in whether a WARM node is `charged`. -/
def placeNode (checked charged : Bool) (warmBudget : UInt64) (p : Packing F) (e : Str × ScheduledNode F) :
    Option (Packing F) := do
  let total ← usizeAdd checked p.used e.2.tokenCost
  if total ≤ p.scheduler.tokenBudget then
    some { scheduler := p.scheduler.setZone e.1 .hot, used := total,
           stats := { p.stats with hot := p.stats.hot + 1, hotTokens := total } }
  else if total ≤ warmBudget then
    some { scheduler := p.scheduler.setZone e.1 .warm, used := if charged then total else p.used,
           stats := { p.stats with warm := p.stats.warm + 1 } }
  else
    some { scheduler := p.scheduler.setZone e.1 .cold, used := p.used,
           stats := { p.stats with cold := p.stats.cold + 1 } }

section Passes

variable [UsizeFloat64 F]

/-- The ids with what the map holds for them, highest rank first. -/
def orderedBy (rank : ScheduledNode F → F) (s : ContextScheduler F) : List (Str × ScheduledNode F) :=
  sortBy (fun a b => ((Scalar.partialCmp (rank b.2) (rank a.2)).getD .eq).then (compare a.1 b.1)) s.nodes

def orderedByPriority (s : ContextScheduler F) : List (Str × ScheduledNode F) :=
  s.orderedBy fun n => n.priorityScore

/-- Highest priority per token first. -/
def orderedByDensity (s : ContextScheduler F) : List (Str × ScheduledNode F) :=
  s.orderedBy fun n => n.priorityScore / Scalar.ofNat (max n.tokenCost.toNat 1)

/-- `(self.token_budget as f64 * self.warm_ratio.max(0.0)) as usize` -/
def warmShare (s : ContextScheduler F) : UInt64 :=
  UsizeFloat64.toUsize (Scalar.ofNat s.tokenBudget.toNat * Scalar.max s.warmRatio (Scalar.lit 0))

def packWith (checked charged : Bool) (order : List (Str × ScheduledNode F)) (s : ContextScheduler F) :
    Option (ContextScheduler F × AllocationStats) := do
  let warmBudget ← usizeAdd checked s.tokenBudget s.warmShare
  let p ← order.foldlM (placeNode checked charged warmBudget) ⟨s, 0, ⟨0, 0, 0, 0, s.tokenBudget⟩⟩
  some (p.scheduler, p.stats)

def allocateContext (checked : Bool) (s : ContextScheduler F) : Option (ContextScheduler F × AllocationStats) :=
  packWith checked true s.orderedByPriority s

def optimizeBudget (checked : Bool) (s : ContextScheduler F) : Option (ContextScheduler F × AllocationStats) :=
  packWith checked false s.orderedByDensity s

/-! ## Eviction -/

/-- The loop over the HOT nodes, and how many it demoted. -/
def evictFrom : List (Str × ScheduledNode F) → UInt64 → ContextScheduler F → Nat → ContextScheduler F × Nat
  | [], _, s, evicted => (s, evicted)
  | e :: rest, hotTokens, s, evicted =>
    if hotTokens ≤ s.tokenBudget then (s, evicted)
    else evictFrom rest (saturatingSub hotTokens e.2.tokenCost) (s.setZone e.1 .warm) (evicted + 1)

/-- The HOT nodes, lowest priority first. -/
def hotByPriority (s : ContextScheduler F) : List (Str × ScheduledNode F) :=
  sortBy (fun a b => ((Scalar.partialCmp a.2.priorityScore b.2.priorityScore).getD .eq).then (compare a.1 b.1))
    (s.nodes.filter fun e => e.2.memoryZone = .hot)

def evictContext (checked : Bool) (s : ContextScheduler F) : Option (ContextScheduler F × Nat) := do
  let hotTokens ← usizeSum checked (s.hotByPriority.map fun e => e.2.tokenCost)
  some (evictFrom s.hotByPriority hotTokens s 0)

end Passes

/-- The ids of one zone, sorted. -/
def zone (z : MemoryZone) (s : ContextScheduler F) : List Str :=
  sortBy compare ((s.nodes.filter fun e => e.2.memoryZone = z).map Prod.fst)

/-! ## What is in a zone -/

def costs (l : List (Str × ScheduledNode F)) : List Nat := l.map fun e => e.2.tokenCost.toNat

/-- The nodes of a zone and their costs, which are counted without bound. -/
def tierCount (z : MemoryZone) (l : List (Str × ScheduledNode F)) : Nat := l.countP fun e => e.2.memoryZone = z

def tierCost (z : MemoryZone) (l : List (Str × ScheduledNode F)) : Nat :=
  (costs (l.filter fun e => e.2.memoryZone = z)).sum

/-- What a packing and an eviction leave of a node. -/
def bare (e : Str × ScheduledNode F) : Str × UInt64 × F := (e.1, e.2.tokenCost, e.2.priorityScore)

/-- The zones changed, and nothing else did. -/
structure Rezoned (s s' : ContextScheduler F) : Prop where
  budget : s'.tokenBudget = s.tokenBudget
  ratio : s'.warmRatio = s.warmRatio
  nodes : s'.nodes.map bare = s.nodes.map bare

theorem length_zone (z : MemoryZone) (s : ContextScheduler F) : (s.zone z).length = tierCount z s.nodes := by
  rw [zone, length_sortBy, List.length_map, tierCount, List.countP_eq_length_filter]

theorem tierCost_append (z : MemoryZone) (l l' : List (Str × ScheduledNode F)) :
    tierCost z (l ++ l') = tierCost z l + tierCost z l' := by
  simp [tierCost, costs]

theorem costs_concat (l : List (Str × ScheduledNode F)) (e : Str × ScheduledNode F) :
    costs (l ++ [e]) = costs l ++ [e.2.tokenCost.toNat] := by
  simp [costs]

theorem tierCost_rezone (z z' : MemoryZone) (e : Str × ScheduledNode F) :
    tierCost z [rezone z' e] = if z' = z then e.2.tokenCost.toNat else 0 := by
  by_cases h : z' = z <;> simp [tierCost, costs, rezone, h]

theorem tierCount_rezone (z z' : MemoryZone) (l : List (Str × ScheduledNode F)) (e : Str × ScheduledNode F) :
    tierCount z (l ++ [rezone z' e]) = tierCount z l + if z' = z then 1 else 0 := by
  by_cases h : z' = z <;> simp [tierCount, rezone, h]

theorem tierCost_perm (z : MemoryZone) {l l' : List (Str × ScheduledNode F)} (h : l.Perm l') :
    tierCost z l = tierCost z l' := ((h.filter _).map _).sum_eq

theorem tierCount_perm (z : MemoryZone) {l l' : List (Str × ScheduledNode F)} (h : l.Perm l') :
    tierCount z l = tierCount z l' := h.countP_eq _

/-- Every id is in exactly one of the zones. -/
theorem zone_partition (s : ContextScheduler F) :
    (s.zone .hot ++ s.zone .warm ++ s.zone .cold).Perm (s.nodes.map Prod.fst) := by
  have hzones : (s.zone .hot ++ s.zone .warm ++ s.zone .cold).Perm
      (((s.nodes.filter fun e => e.2.memoryZone = .hot) ++ (s.nodes.filter fun e => e.2.memoryZone = .warm) ++
        s.nodes.filter fun e => e.2.memoryZone = .cold).map Prod.fst) := by
    rw [List.map_append, List.map_append]
    exact ((perm_sortBy _ _).append (perm_sortBy _ _)).append (perm_sortBy _ _)
  refine hzones.trans (List.Perm.map _ ?_)
  induction s.nodes with
  | nil => exact List.Perm.refl _
  | cons e l ih =>
    cases hz : e.2.memoryZone with
    | hot => simpa [hz] using ih
    | warm =>
      simp only [hz, List.filter_cons, reduceCtorEq, decide_false, Bool.false_eq_true, if_false, decide_true, if_true]
      rw [List.append_assoc, List.cons_append]
      rw [List.append_assoc] at ih
      exact List.perm_middle.trans (ih.cons e)
    | cold =>
      simp only [hz, List.filter_cons, reduceCtorEq, decide_false, Bool.false_eq_true, if_false, decide_true, if_true]
      exact List.perm_middle.trans (ih.cons e)

/-! ## One turn of a packing -/

theorem Rezoned.refl (s : ContextScheduler F) : Rezoned s s := ⟨rfl, rfl, rfl⟩

theorem Rezoned.setZone {s s' : ContextScheduler F} (h : Rezoned s s') (id : Str) (z : MemoryZone) :
    Rezoned s (s'.setZone id z) where
  budget := h.budget
  ratio := h.ratio
  nodes := by
    rw [← h.nodes]
    change List.map bare (s'.nodes.map _) = _
    rw [List.map_map]
    refine List.map_congr_left fun e _ => ?_
    dsimp only [Function.comp]
    split <;> rfl

/-- A node that is placed goes from the nodes to come to those that are done. -/
theorem perm_setZone {s : ContextScheduler F} {done todo : List (Str × ScheduledNode F)} {e : Str × ScheduledNode F}
    (h : s.nodes.Perm (done ++ e :: todo)) (z : MemoryZone) :
    (s.setZone e.1 z).nodes.Perm ((done ++ [rezone z e]) ++ todo) := by
  have hkeys : ((done ++ e :: todo).map Prod.fst).Nodup := (h.map Prod.fst).nodup_iff.mp s.nodup
  rw [List.map_append, List.map_cons, List.nodup_middle, List.nodup_cons, List.mem_append, not_or] at hkeys
  have hother : ∀ l : List (Str × ScheduledNode F), e.1 ∉ l.map Prod.fst →
      (l.map fun e' => if e'.1 = e.1 then rezone z e' else e') = l := by
    intro l hl
    conv_rhs => rw [← List.map_id l]
    refine List.map_congr_left fun e' he' => ?_
    have hne : e'.1 ≠ e.1 := fun heq => hl (heq ▸ List.mem_map_of_mem he')
    rw [if_neg hne]
    rfl
  refine (h.map _).trans (List.Perm.of_eq ?_)
  rw [List.map_append, List.map_cons, hother done hkeys.1.1, hother todo hkeys.1.2, if_pos rfl,
    List.append_assoc, List.singleton_append]
theorem usizeAdd_eq_none {checked : Bool} {a b : UInt64} :
    usizeAdd checked a b = none ↔ checked = true ∧ 2 ^ 64 ≤ a.toNat + b.toNat := by
  simp [usizeAdd]

theorem usizeAdd_eq_some {checked : Bool} {a b c : UInt64} (h : usizeAdd checked a b = some c) : c = a + b := by
  unfold usizeAdd at h
  split at h <;> cases h
  rfl

theorem usizeAdd_of_lt {checked : Bool} {a b : UInt64} (h : a.toNat + b.toNat < 2 ^ 64) :
    usizeAdd checked a b = some (a + b) := by
  unfold usizeAdd
  refine if_neg fun hover => ?_
  rw [Bool.and_eq_true, decide_eq_true_eq] at hover
  exact absurd hover.2 (Nat.not_le.mpr h)

theorem toNat_add_of_lt {a b : UInt64} (h : a.toNat + b.toNat < 2 ^ 64) : (a + b).toNat = a.toNat + b.toNat := by
  rw [UInt64.toNat_add, Nat.mod_eq_of_lt h]

theorem toNat_add_of_ge {a b : UInt64} (h : 2 ^ 64 ≤ a.toNat + b.toNat) :
    (a + b).toNat = a.toNat + b.toNat - 2 ^ 64 := by
  have ha := a.toNat_lt
  have hb := b.toNat_lt
  rw [UInt64.toNat_add]
  omega

/-- What one turn does with a node, and on which grounds. -/
inductive Placed (charged : Bool) (warmBudget : UInt64) (p : Packing F) (e : Str × ScheduledNode F) :
    MemoryZone → Packing F → Prop
  | hot (h : p.used + e.2.tokenCost ≤ p.scheduler.tokenBudget) : Placed charged warmBudget p e .hot
      ⟨p.scheduler.setZone e.1 .hot, p.used + e.2.tokenCost,
        { p.stats with hot := p.stats.hot + 1, hotTokens := p.used + e.2.tokenCost }⟩
  | warm (hhot : ¬ p.used + e.2.tokenCost ≤ p.scheduler.tokenBudget) (h : p.used + e.2.tokenCost ≤ warmBudget) :
      Placed charged warmBudget p e .warm ⟨p.scheduler.setZone e.1 .warm,
        if charged then p.used + e.2.tokenCost else p.used, { p.stats with warm := p.stats.warm + 1 }⟩
  | cold (hhot : ¬ p.used + e.2.tokenCost ≤ p.scheduler.tokenBudget) (h : ¬ p.used + e.2.tokenCost ≤ warmBudget) :
      Placed charged warmBudget p e .cold
        ⟨p.scheduler.setZone e.1 .cold, p.used, { p.stats with cold := p.stats.cold + 1 }⟩

theorem placed_of_placeNode {checked charged : Bool} {warmBudget : UInt64} {p p' : Packing F}
    {e : Str × ScheduledNode F} (h : placeNode checked charged warmBudget p e = some p') :
    ∃ z, Placed charged warmBudget p e z p' := by
  unfold placeNode at h
  obtain ⟨total, htotal, h⟩ := Option.bind_eq_some_iff.mp h
  obtain rfl := usizeAdd_eq_some htotal
  split at h
  · cases h
    exact ⟨.hot, .hot ‹_›⟩
  · split at h
    · cases h
      exact ⟨.warm, .warm ‹_› ‹_›⟩
    · cases h
      exact ⟨.cold, .cold ‹_› ‹_›⟩

/-- Without an overflow a turn places its node. -/
theorem exists_placeNode (checked charged : Bool) (warmBudget : UInt64) {p : Packing F} {e : Str × ScheduledNode F}
    (h : p.used.toNat + e.2.tokenCost.toNat < 2 ^ 64) : ∃ p', placeNode checked charged warmBudget p e = some p' := by
  unfold placeNode
  rw [usizeAdd_of_lt h]
  dsimp only [bind, Option.bind]
  split
  · exact ⟨_, rfl⟩
  · split <;> exact ⟨_, rfl⟩

/-! ## The tally of a packing -/

/-- The nodes that are done and those to come, and the original entries of the former. -/
structure Progress (s : ContextScheduler F) (seen done todo : List (Str × ScheduledNode F)) (p : Packing F) : Prop where
  rezoned : Rezoned s p.scheduler
  perm : p.scheduler.nodes.Perm (done ++ todo)
  bare : done.map bare = seen.map bare

theorem Progress.step {s : ContextScheduler F} {charged : Bool} {warmBudget : UInt64}
    {seen done todo : List (Str × ScheduledNode F)} {p p' : Packing F} {e : Str × ScheduledNode F} {z : MemoryZone}
    (h : Progress s seen done (e :: todo) p) (hplaced : Placed charged warmBudget p e z p') :
    Progress s (seen ++ [e]) (done ++ [rezone z e]) todo p' := by
  have hscheduler : p'.scheduler = p.scheduler.setZone e.1 z := by cases hplaced <;> rfl
  refine ⟨?_, ?_, ?_⟩
  · rw [hscheduler]
    exact h.rezoned.setZone e.1 z
  · rw [hscheduler]
    exact perm_setZone h.perm z
  · rw [List.map_append, List.map_append, h.bare]
    rfl

/-- What a packing has counted. -/
structure Counted (done : List (Str × ScheduledNode F)) (stats : AllocationStats) : Prop where
  hot : stats.hot = tierCount .hot done
  warm : stats.warm = tierCount .warm done
  cold : stats.cold = tierCount .cold done

theorem Counted.step {charged : Bool} {warmBudget : UInt64} {done : List (Str × ScheduledNode F)} {p p' : Packing F}
    {e : Str × ScheduledNode F} {z : MemoryZone} (h : Counted done p.stats)
    (hplaced : Placed charged warmBudget p e z p') : Counted (done ++ [rezone z e]) p'.stats := by
  cases hplaced <;> constructor <;> simp only [tierCount_rezone, h.hot, h.warm, h.cold, reduceCtorEq, if_true, if_false,
    Nat.add_zero]

/-- What a packing has spent on the nodes before, `hot` and `warm` of it in the two zones. -/
structure Tally (charged : Bool) (budget warmBudget : Nat) (seen : List Nat) (hot warm : Nat) (p : Packing F) :
    Prop where
  used : p.used.toNat = hot + if charged then warm else 0
  filled : p.used.toNat = filled (if charged then max budget warmBudget else budget) seen
  letIn : charged = false → hot + warm = letIn budget (max budget warmBudget) seen
  hotTokens : p.stats.hotTokens.toNat = hot
  hot_le : hot ≤ budget
  /-- A WARM node that is charged leaves no room for a HOT one. -/
  late : charged = true → warm ≠ 0 → budget < p.used.toNat
  /-- A wrapped budget of the WARM nodes lets none in. -/
  wrapped : warmBudget < budget → warm = 0

/-- The costs of the two zones after a node. -/
def spent (z : MemoryZone) (cost hot warm : Nat) : Nat × Nat :=
  match z with
  | .hot => (hot + cost, warm)
  | .warm => (hot, warm + cost)
  | .cold => (hot, warm)

theorem Tally.step {charged : Bool} {budget warmBudget : UInt64} {seen : List Nat} {hot warm : Nat}
    {p p' : Packing F} {e : Str × ScheduledNode F} {z : MemoryZone}
    (h : Tally charged budget.toNat warmBudget.toNat seen hot warm p) (hbudget : p.scheduler.tokenBudget = budget)
    (hfits : p.used.toNat + e.2.tokenCost.toNat < 2 ^ 64) (hplaced : Placed charged warmBudget p e z p') :
    Tally charged budget.toNat warmBudget.toNat (seen ++ [e.2.tokenCost.toNat])
      (spent z e.2.tokenCost.toNat hot warm).1 (spent z e.2.tokenCost.toNat hot warm).2 p' := by
  have htotal := toNat_add_of_lt hfits
  obtain ⟨hused, hfilled, hlet, htokens, hhot_le, hlate, hwrapped⟩ := h
  cases charged with
  | true =>
    simp only [if_true] at hused hfilled
    have hlate := hlate rfl
    have hfill := filled_concat (max budget.toNat warmBudget.toNat) seen e.2.tokenCost.toNat
    rw [← hfilled] at hfill
    cases hplaced with
    | hot hhot =>
      rw [hbudget, UInt64.le_iff_toNat_le, htotal] at hhot
      have hwarm : warm = 0 := by
        by_contra hne
        have := hlate hne
        omega
      rw [if_pos (by omega)] at hfill
      exact ⟨by simp only [spent, htotal, if_true]; omega, by rw [if_pos rfl, hfill, htotal], nofun,
        by simp only [spent, htotal]; omega, by simp only [spent]; omega, fun _ hne => absurd hwarm hne,
        fun _ => hwarm⟩
    | warm hhot hfits =>
      rw [hbudget, UInt64.le_iff_toNat_le, htotal] at hhot
      rw [UInt64.le_iff_toNat_le, htotal] at hfits
      rw [if_pos (by omega)] at hfill
      exact ⟨by simp only [spent, htotal, if_true]; omega, by simp only [if_true, hfill, htotal], nofun,
        htokens, hhot_le, fun _ _ => by simp only [if_true, htotal]; omega, fun hlt => by omega⟩
    | cold hhot hover =>
      rw [hbudget, UInt64.le_iff_toNat_le, htotal] at hhot
      rw [UInt64.le_iff_toNat_le, htotal] at hover
      rw [if_neg (by omega)] at hfill
      exact ⟨by simpa only [spent, if_true] using hused, by rw [if_pos rfl, hfill], nofun, htokens, hhot_le,
        fun _ => hlate, hwrapped⟩
  | false =>
    simp only [Bool.false_eq_true, if_false, Nat.add_zero] at hused hfilled
    have hlet := hlet rfl
    have hfill := filled_concat budget.toNat seen e.2.tokenCost.toNat
    have hletIn := letIn_concat budget.toNat (max budget.toNat warmBudget.toNat) seen e.2.tokenCost.toNat
    rw [← hfilled] at hfill hletIn
    rw [← hlet] at hletIn
    cases hplaced with
    | hot hhot =>
      rw [hbudget, UInt64.le_iff_toNat_le, htotal] at hhot
      rw [if_pos (by omega)] at hfill hletIn
      exact ⟨by simp only [spent, htotal, Bool.false_eq_true, if_false]; omega,
        by simp only [Bool.false_eq_true, if_false, hfill, htotal], fun _ => by rw [hletIn]; simp only [spent]; omega,
        by simp only [spent, htotal]; omega, by simp only [spent]; omega, nofun, hwrapped⟩
    | warm hhot hfits =>
      rw [hbudget, UInt64.le_iff_toNat_le, htotal] at hhot
      rw [UInt64.le_iff_toNat_le, htotal] at hfits
      rw [if_neg (by omega)] at hfill
      rw [if_pos (by omega)] at hletIn
      refine ⟨hused, ?_, fun _ => ?_, htokens, hhot_le, nofun, fun hlt => by omega⟩
      · simp only [Bool.false_eq_true, if_false, hfill]
      · rw [hletIn]
        simp only [spent]
        omega
    | cold hhot hover =>
      rw [hbudget, UInt64.le_iff_toNat_le, htotal] at hhot
      rw [UInt64.le_iff_toNat_le, htotal] at hover
      rw [if_neg (by omega)] at hfill hletIn
      refine ⟨hused, ?_, fun _ => ?_, htokens, hhot_le, nofun, hwrapped⟩
      · simp only [Bool.false_eq_true, if_false, hfill]
      · rw [hletIn]
        simp only [spent]
        omega

/-! ## A whole packing -/

/-- A packing before the nodes to come. -/
structure Midway (charged : Bool) (warmBudget : UInt64) (s : ContextScheduler F)
    (seen done todo : List (Str × ScheduledNode F)) (p : Packing F) : Prop where
  progress : Progress s seen done todo p
  counted : Counted done p.stats
  tally : Tally charged s.tokenBudget.toNat warmBudget.toNat (costs seen) (tierCost .hot done) (tierCost .warm done) p
  sized : p.stats.budget = s.tokenBudget

variable {checked charged : Bool} {warmBudget : UInt64} {s : ContextScheduler F}

theorem Midway.step {seen done todo : List (Str × ScheduledNode F)} {p p' : Packing F} {e : Str × ScheduledNode F}
    {z : MemoryZone} (h : Midway charged warmBudget s seen done (e :: todo) p)
    (hfits : p.used.toNat + e.2.tokenCost.toNat < 2 ^ 64) (hplaced : Placed charged warmBudget p e z p') :
    Midway charged warmBudget s (seen ++ [e]) (done ++ [rezone z e]) todo p' where
  progress := h.progress.step hplaced
  counted := h.counted.step hplaced
  tally := by
    have htally := h.tally.step h.progress.rezoned.budget hfits hplaced
    have hspent : tierCost .hot (done ++ [rezone z e]) =
          (spent z e.2.tokenCost.toNat (tierCost .hot done) (tierCost .warm done)).1 ∧
        tierCost .warm (done ++ [rezone z e]) =
          (spent z e.2.tokenCost.toNat (tierCost .hot done) (tierCost .warm done)).2 := by
      cases z <;> simp [tierCost_append, tierCost_rezone, spent]
    rw [hspent.1, hspent.2, costs_concat]
    exact htally
  sized := by
    rw [← h.sized]
    cases hplaced <;> rfl

/-- What a packing has charged at most. -/
def chargeLimit (charged : Bool) (budget warmBudget : Nat) : Nat := if charged then max budget warmBudget else budget

/-- No sum of what is charged and the next cost leaves the machine's numbers. -/
def NoOverflow (limit : Nat) (l : List Nat) : Prop :=
  ∀ before c after, l = before ++ c :: after → filled limit before + c < 2 ^ 64

/-- Without an overflow a packing places every node. -/
theorem Midway.run (checked : Bool) {seen done todo : List (Str × ScheduledNode F)} {p : Packing F}
    (h : Midway charged warmBudget s seen done todo p)
    (hfits : NoOverflow (chargeLimit charged s.tokenBudget.toNat warmBudget.toNat) (costs (seen ++ todo))) :
    ∃ done' p', todo.foldlM (placeNode checked charged warmBudget) p = some p' ∧
      Midway charged warmBudget s (seen ++ todo) done' [] p' := by
  induction todo generalizing seen done p with
  | nil => exact ⟨done, p, rfl, by rwa [List.append_nil]⟩
  | cons e todo ih =>
    have hnext : p.used.toNat + e.2.tokenCost.toNat < 2 ^ 64 := by
      rw [h.tally.filled]
      exact hfits (costs seen) _ (costs todo) (by simp [costs])
    obtain ⟨p₁, hplace⟩ := exists_placeNode checked charged warmBudget hnext
    obtain ⟨z, hplaced⟩ := placed_of_placeNode hplace
    rw [List.append_cons] at hfits ⊢
    obtain ⟨done', p', hrun, hmidway⟩ := ih (h.step hnext hplaced) hfits
    refine ⟨done', p', ?_, hmidway⟩
    rw [List.foldlM_cons, hplace]
    exact hrun

/-- What is done stays done. -/
theorem Progress.run {seen done todo : List (Str × ScheduledNode F)} {p p' : Packing F}
    (h : Progress s seen done todo p) (hrun : todo.foldlM (placeNode checked charged warmBudget) p = some p') :
    ∃ more, p'.scheduler.nodes.Perm (done ++ more) := by
  induction todo generalizing seen done p with
  | nil =>
    cases hrun
    exact ⟨[], h.perm⟩
  | cons e todo ih =>
    rw [List.foldlM_cons] at hrun
    obtain ⟨p₁, hplace, hrun⟩ := Option.bind_eq_some_iff.mp hrun
    obtain ⟨z, hplaced⟩ := placed_of_placeNode hplace
    obtain ⟨more, hmore⟩ := ih (h.step hplaced) hrun
    exact ⟨rezone z e :: more, by rwa [List.append_assoc] at hmore⟩

def extendedBudget [UsizeFloat64 F] (s : ContextScheduler F) : Nat := s.tokenBudget.toNat + s.warmShare.toNat

/-- The room of both zones: the extended budget, and none beyond HOT where that wraps. -/
def room [UsizeFloat64 F] (s : ContextScheduler F) : Nat :=
  if s.extendedBudget < 2 ^ 64 then s.extendedBudget else s.tokenBudget.toNat

theorem max_warmBudget [UsizeFloat64 F] (s : ContextScheduler F) :
    max s.tokenBudget.toNat (s.tokenBudget + s.warmShare).toNat = s.room := by
  have hshare := s.warmShare.toNat_lt
  unfold room extendedBudget
  split
  · rename_i hlt
    rw [toNat_add_of_lt hlt]
    exact Nat.max_eq_right (Nat.le_add_right _ _)
  · rename_i hge
    rw [toNat_add_of_ge (Nat.not_lt.mp hge)]
    exact Nat.max_eq_left (by omega)

/-- A sum that wraps puts too much into the zones. -/
theorem Midway.overflow [UsizeFloat64 F] {seen done todo : List (Str × ScheduledNode F)} {p p' : Packing F}
    {e : Str × ScheduledNode F} {z : MemoryZone}
    (h : Midway charged (s.tokenBudget + s.warmShare) s seen done (e :: todo) p)
    (hover : 2 ^ 64 ≤ p.used.toNat + e.2.tokenCost.toNat)
    (hplaced : Placed charged (s.tokenBudget + s.warmShare) p e z p') :
    s.tokenBudget.toNat < tierCost .hot (done ++ [rezone z e]) ∨
      s.extendedBudget < tierCost .hot (done ++ [rezone z e]) + tierCost .warm (done ++ [rezone z e]) := by
  have htotal := toNat_add_of_ge hover
  have hcost := e.2.tokenCost.toNat_lt
  have hbudget := s.tokenBudget.toNat_lt
  have hused := h.tally.used
  have hle : p.used.toNat ≤ chargeLimit charged s.tokenBudget.toNat (s.tokenBudget + s.warmShare).toNat := by
    rw [h.tally.filled]
    exact filled_le _ _
  have hwrapped := h.tally.wrapped
  have hmax := max_warmBudget s
  unfold room at hmax
  rw [tierCost_append, tierCost_append, tierCost_rezone, tierCost_rezone]
  cases charged with
  | true =>
    simp only [chargeLimit, if_true] at hused hle
    -- Either all that was let in is charged, or nothing is WARM.
    have hzone : z = .hot ∨ z = .warm ∧ s.extendedBudget < 2 ^ 64 := by
      cases hplaced with
      | hot _ => exact .inl rfl
      | warm hhot hwarm =>
        refine .inr ⟨rfl, ?_⟩
        rw [h.progress.rezoned.budget, UInt64.le_iff_toNat_le] at hhot
        rw [UInt64.le_iff_toNat_le] at hwarm
        by_contra hwrap
        rw [if_neg hwrap] at hmax
        omega
      | cold hhot hwarm =>
        rw [h.progress.rezoned.budget, UInt64.le_iff_toNat_le] at hhot
        rw [UInt64.le_iff_toNat_le] at hwarm
        omega
    by_cases hextended : s.extendedBudget < 2 ^ 64
    · refine .inr ?_
      rcases hzone with rfl | ⟨rfl, -⟩ <;> simp only [reduceCtorEq, if_true, if_false] <;> omega
    · obtain rfl := hzone.resolve_right fun hwarm => hextended hwarm.2
      rw [if_neg hextended] at hmax
      have hsum := toNat_add_of_ge (Nat.not_lt.mp hextended)
      have hshare := s.warmShare.toNat_lt
      have hwarm := hwrapped (by omega)
      refine .inl ?_
      rw [if_pos rfl]
      omega
  | false =>
    simp only [chargeLimit, Bool.false_eq_true, if_false, Nat.add_zero] at hused hle
    have hhot : z = .hot := by
      cases hplaced with
      | hot _ => rfl
      | warm hhot _ | cold hhot _ =>
        rw [h.progress.rezoned.budget, UInt64.le_iff_toNat_le] at hhot
        omega
    subst hhot
    refine .inl ?_
    rw [if_pos rfl]
    omega

/-- A packing that keeps to the budgets had no overflow. -/
theorem Midway.noOverflow [UsizeFloat64 F] {seen done todo : List (Str × ScheduledNode F)} {p p' : Packing F}
    (h : Midway charged (s.tokenBudget + s.warmShare) s seen done todo p)
    (hrun : todo.foldlM (placeNode checked charged (s.tokenBudget + s.warmShare)) p = some p')
    (hhot : tierCost .hot p'.scheduler.nodes ≤ s.tokenBudget.toNat)
    (hwarm : tierCost .hot p'.scheduler.nodes + tierCost .warm p'.scheduler.nodes ≤ s.extendedBudget)
    {before : List Nat} {c : Nat} {after : List Nat} (heq : costs todo = before ++ c :: after) :
    filled (chargeLimit charged s.tokenBudget.toNat (s.tokenBudget + s.warmShare).toNat) (costs seen ++ before) + c <
      2 ^ 64 := by
  induction todo generalizing seen done p before with
  | nil => exact absurd (congrArg List.length heq) (by simp [costs])
  | cons e todo ih =>
    rw [List.foldlM_cons] at hrun
    obtain ⟨p₁, hplace, hrun⟩ := Option.bind_eq_some_iff.mp hrun
    obtain ⟨z, hplaced⟩ := placed_of_placeNode hplace
    have hnext : p.used.toNat + e.2.tokenCost.toNat < 2 ^ 64 := by
      by_contra hover
      obtain ⟨more, hmore⟩ := (h.progress.step hplaced).run hrun
      rw [tierCost_perm .hot hmore, tierCost_append .hot (done ++ [rezone z e]) more] at hhot hwarm
      rw [tierCost_perm .warm hmore, tierCost_append .warm (done ++ [rezone z e]) more] at hwarm
      rcases h.overflow (Nat.not_lt.mp hover) hplaced with hlt | hlt <;> omega
    cases before with
    | nil =>
      obtain ⟨rfl, -⟩ := List.cons.inj heq
      rw [List.append_nil]
      have hfilled := h.tally.filled
      rw [hfilled] at hnext
      exact hnext
    | cons d before =>
      obtain ⟨rfl, htail⟩ := List.cons.inj heq
      have hrest := ih (h.step hnext hplaced) hrun htail
      rwa [costs_concat, List.append_assoc] at hrest

/-- What a packing is to leave. -/
structure Packed [UsizeFloat64 F] (s s' : ContextScheduler F) (stats : AllocationStats) : Prop where
  rezoned : Rezoned s s'
  partition : (s'.zone .hot ++ s'.zone .warm ++ s'.zone .cold).Perm (s.nodes.map Prod.fst)
  hot : stats.hot = (s'.zone .hot).length
  warm : stats.warm = (s'.zone .warm).length
  cold : stats.cold = (s'.zone .cold).length
  hotTokens : stats.hotTokens.toNat = tierCost .hot s'.nodes
  budget : stats.budget = s.tokenBudget
  hot_le : tierCost .hot s'.nodes ≤ s.tokenBudget.toNat
  both_le : tierCost .hot s'.nodes + tierCost .warm s'.nodes ≤ s.extendedBudget

theorem Rezoned.keys {s s' : ContextScheduler F} (h : Rezoned s s') : s'.nodes.map Prod.fst = s.nodes.map Prod.fst := by
  have hfst := congrArg (List.map Prod.fst) h.nodes
  rw [List.map_map, List.map_map] at hfst
  exact hfst

theorem midway_start (s : ContextScheduler F) {order : List (Str × ScheduledNode F)} (horder : order.Perm s.nodes) :
    Midway charged warmBudget s [] [] order ⟨s, 0, ⟨0, 0, 0, 0, s.tokenBudget⟩⟩ where
  progress := ⟨.refl s, horder.symm, rfl⟩
  counted := ⟨rfl, rfl, rfl⟩
  tally := ⟨by split <;> rfl, rfl, fun _ => rfl, rfl, Nat.zero_le _, fun _ hne => absurd rfl hne, fun _ => rfl⟩
  sized := rfl

theorem Midway.packed [UsizeFloat64 F] {seen done : List (Str × ScheduledNode F)} {p : Packing F}
    (h : Midway charged (s.tokenBudget + s.warmShare) s seen done [] p)
    (hboth : tierCost .hot done + tierCost .warm done ≤ s.extendedBudget) : Packed s p.scheduler p.stats := by
  have hperm := h.progress.perm
  rw [List.append_nil] at hperm
  exact {
    rezoned := h.progress.rezoned
    partition := h.progress.rezoned.keys ▸ zone_partition p.scheduler
    hot := by rw [length_zone, tierCount_perm _ hperm, h.counted.hot]
    warm := by rw [length_zone, tierCount_perm _ hperm, h.counted.warm]
    cold := by rw [length_zone, tierCount_perm _ hperm, h.counted.cold]
    hotTokens := by rw [tierCost_perm _ hperm, h.tally.hotTokens]
    budget := h.sized
    hot_le := by rw [tierCost_perm _ hperm]; exact h.tally.hot_le
    both_le := by rwa [tierCost_perm _ hperm, tierCost_perm _ hperm] }

/-- What both zones hold at the end of a packing that was not cut short. -/
theorem Midway.both [UsizeFloat64 F] {seen done todo : List (Str × ScheduledNode F)} {p : Packing F}
    (h : Midway charged (s.tokenBudget + s.warmShare) s seen done todo p) :
    tierCost .hot done + tierCost .warm done ≤ s.extendedBudget ↔
      (charged = false → Spared s.tokenBudget.toNat s.room (costs seen)) := by
  have hmax := max_warmBudget s
  have hle : s.tokenBudget.toNat ≤ s.extendedBudget := Nat.le_add_right _ _
  have hroom : s.room ≤ s.extendedBudget := by
    unfold room
    split <;> omega
  cases charged with
  | true =>
    have hused := h.tally.used
    have hfilled := h.tally.filled
    have hlimit : filled (max s.tokenBudget.toNat (s.tokenBudget + s.warmShare).toNat) (costs seen) ≤ _ :=
      filled_le _ _
    simp only [if_true] at hused hfilled
    exact iff_of_true (by omega) nofun
  | false =>
    have hlet := h.tally.letIn rfl
    rw [hmax] at hlet
    rw [hlet, spared_iff]
    refine ⟨fun hextended _ => ?_, fun hspared => (hspared rfl).trans hroom⟩
    by_cases hwrap : s.extendedBudget < 2 ^ 64
    · rwa [show s.room = s.extendedBudget from if_pos hwrap] at hextended ⊢
    · have hself : s.room = s.tokenBudget.toNat := if_neg hwrap
      rw [hself, letIn_self]
      exact filled_le _ _

theorem packWith_iff [UsizeFloat64 F] (checked charged : Bool) {order : List (Str × ScheduledNode F)}
    (horder : order.Perm s.nodes) :
    (∃ s' stats, packWith checked charged order s = some (s', stats) ∧ Packed s s' stats) ↔
      (checked = true → s.extendedBudget < 2 ^ 64) ∧
        NoOverflow (if charged then s.room else s.tokenBudget.toNat) (costs order) ∧
        (charged = false → Spared s.tokenBudget.toNat s.room (costs order)) := by
  have hstart : Midway charged (s.tokenBudget + s.warmShare) s [] [] order ⟨s, 0, ⟨0, 0, 0, 0, s.tokenBudget⟩⟩ :=
    midway_start s horder
  have hlimit : chargeLimit charged s.tokenBudget.toNat (s.tokenBudget + s.warmShare).toNat =
      if charged then s.room else s.tokenBudget.toNat := by
    rw [chargeLimit, max_warmBudget]
  unfold packWith
  cases hwarm : usizeAdd checked s.tokenBudget s.warmShare with
  | none =>
    obtain ⟨hchecked, hover⟩ := usizeAdd_eq_none.mp hwarm
    refine iff_of_false (by rintro ⟨_, _, h, -⟩; cases h) fun h => ?_
    exact absurd (h.1 hchecked) (Nat.not_lt.mpr hover)
  | some warmBudget =>
    obtain rfl := usizeAdd_eq_some hwarm
    have hextended : checked = true → s.extendedBudget < 2 ^ 64 := fun hchecked => by
      by_contra hover
      rw [usizeAdd_eq_none.mpr ⟨hchecked, Nat.not_lt.mp hover⟩] at hwarm
      cases hwarm
    constructor
    · rintro ⟨s', stats, hpack, hpacked⟩
      obtain ⟨_, hbudget, hpack⟩ := Option.bind_eq_some_iff.mp hpack
      cases hbudget
      obtain ⟨p, hrun, heq⟩ := Option.bind_eq_some_iff.mp hpack
      cases heq
      have hfits : NoOverflow (if charged then s.room else s.tokenBudget.toNat) (costs order) :=
        fun before c after heq => hlimit ▸ hstart.noOverflow hrun hpacked.hot_le hpacked.both_le heq
      obtain ⟨done, p', hrun', hend⟩ := hstart.run checked (hlimit ▸ hfits)
      obtain rfl := Option.some.inj (hrun.symm.trans hrun')
      have hperm := hend.progress.perm
      rw [List.append_nil] at hperm
      refine ⟨hextended, hfits, hend.both.mp ?_⟩
      rw [← tierCost_perm _ hperm, ← tierCost_perm _ hperm]
      exact hpacked.both_le
    · rintro ⟨-, hfits, hspared⟩
      obtain ⟨done, p, hrun, hend⟩ := hstart.run checked (hlimit ▸ hfits)
      refine ⟨p.scheduler, p.stats, ?_, hend.packed (hend.both.mpr hspared)⟩
      exact Option.bind_eq_some_iff.mpr ⟨_, rfl, Option.bind_eq_some_iff.mpr ⟨p, hrun, rfl⟩⟩

end ContextScheduler

end Ccos
