import Ccos.Text
import Mathlib.Algebra.Order.BigOperators.Group.List
import Mathlib.Tactic.Push

/-!
# The worker pool

A slot for each worker, with the tasks that are active on it. Each method is one step; the counters are
those of `usize`.
-/

namespace Ccos

structure WorkerSlot where
  addr : Str
  activeTasks : UInt64
  totalAssigned : UInt64
  failed : Bool
  deriving DecidableEq, Repr

structure WorkerPool where
  slots : List WorkerSlot
  deriving DecidableEq, Repr

def usizeMax : UInt64 := 18446744073709551615

namespace WorkerPool

def new (addresses : List Str) : WorkerPool := ⟨addresses.map fun addr => ⟨addr, 0, 0, false⟩⟩

def addresses (pool : WorkerPool) : List Str := pool.slots.map WorkerSlot.addr

/-- The loop of `lease` over the slots from `i` on, with the best slot so far. -/
def leastLoaded : List WorkerSlot → Nat → Option Nat → UInt64 → Option Nat
  | [], _, bestIdx, _ => bestIdx
  | slot :: rest, i, bestIdx, bestLoad =>
    if slot.failed then leastLoaded rest (i + 1) bestIdx bestLoad
    else if slot.activeTasks < bestLoad then leastLoaded rest (i + 1) (some i) slot.activeTasks
    else leastLoaded rest (i + 1) bestIdx bestLoad

/-- One more task on slot `i`. -/
def assign (pool : WorkerPool) (i : Nat) : WorkerPool :=
  ⟨pool.slots.modify i fun slot =>
    { slot with activeTasks := slot.activeTasks + 1, totalAssigned := slot.totalAssigned + 1 }⟩

def lease (pool : WorkerPool) : Option (Str × WorkerPool) := do
  let i ← leastLoaded pool.slots 0 none usizeMax
  let slot ← pool.slots[i]?
  return (slot.addr, pool.assign i)

/-- The loop of `release` and `mark_failed`: the first slot with the address changes. -/
def onFirst (addr : Str) (f : WorkerSlot → WorkerSlot) : List WorkerSlot → List WorkerSlot
  | [] => []
  | slot :: rest => if slot.addr = addr then f slot :: rest else slot :: onFirst addr f rest

def release (pool : WorkerPool) (addr : Str) : WorkerPool :=
  ⟨onFirst addr (fun slot =>
    { slot with activeTasks := if slot.activeTasks = 0 then 0 else slot.activeTasks - 1 }) pool.slots⟩

def markFailed (pool : WorkerPool) (addr : Str) : WorkerPool :=
  ⟨onFirst addr (fun slot => { slot with failed := true, activeTasks := 0 }) pool.slots⟩

def resetAll (pool : WorkerPool) : WorkerPool :=
  ⟨pool.slots.map fun slot => { slot with failed := false, activeTasks := 0 }⟩

/-! ## What a lease takes -/

/-- The slot at `i` is the first of the least loaded among the slots that have not failed. -/
structure Least (slots : List WorkerSlot) (i : Nat) (slot : WorkerSlot) : Prop where
  there : slots[i]? = some slot
  healthy : slot.failed = false
  least : ∀ other ∈ slots, other.failed = false → slot.activeTasks ≤ other.activeTasks
  first : ∀ j < i, ∀ other, slots[j]? = some other → other.failed = false → slot.activeTasks < other.activeTasks

theorem Least.cons {head slot : WorkerSlot} {rest : List WorkerSlot} {j : Nat} (h : Least rest j slot)
    (hhead : head.failed = false → slot.activeTasks < head.activeTasks) : Least (head :: rest) (j + 1) slot := by
  refine ⟨h.there, h.healthy, fun other hother hhealthy => ?_, fun k hk other hother hhealthy => ?_⟩
  · rcases List.mem_cons.mp hother with rfl | hother
    · exact UInt64.le_of_lt (hhead hhealthy)
    · exact h.least other hother hhealthy
  · cases k with
    | zero =>
      obtain rfl := Option.some.inj hother
      exact hhead hhealthy
    | succ k => exact h.first k (by omega) other hother hhealthy

/-- The loop keeps its best slot, or finds the first of the least loaded. -/
theorem leastLoaded_cases (slots : List WorkerSlot) (i : Nat) (bestIdx : Option Nat) (bestLoad : UInt64) :
    (leastLoaded slots i bestIdx bestLoad = bestIdx ∧
      ∀ slot ∈ slots, slot.failed = false → bestLoad ≤ slot.activeTasks) ∨
    ∃ j slot, leastLoaded slots i bestIdx bestLoad = some (i + j) ∧ slot.activeTasks < bestLoad ∧
      Least slots j slot := by
  induction slots generalizing i bestIdx bestLoad with
  | nil => exact .inl ⟨rfl, fun _ h => absurd h List.not_mem_nil⟩
  | cons head rest ih =>
    have hshift (j : Nat) : i + 1 + j = i + (j + 1) := by omega
    rw [leastLoaded]
    by_cases hfailed : head.failed = true
    · rw [if_pos hfailed]
      have hhead : ¬ head.failed = false := by simp [hfailed]
      rcases ih (i + 1) bestIdx bestLoad with ⟨hsame, hall⟩ | ⟨j, slot, hfound, hless, hleast⟩
      · exact .inl ⟨hsame, List.forall_mem_cons.mpr ⟨fun h => absurd h hhead, hall⟩⟩
      · exact .inr ⟨j + 1, slot, hshift j ▸ hfound, hless, hleast.cons fun h => absurd h hhead⟩
    · have hhead : head.failed = false := Bool.eq_false_of_not_eq_true hfailed
      rw [if_neg hfailed]
      by_cases hbetter : head.activeTasks < bestLoad
      · rw [if_pos hbetter]
        rcases ih (i + 1) (some i) head.activeTasks with ⟨hsame, hall⟩ | ⟨j, slot, hfound, hless, hleast⟩
        · refine .inr ⟨0, head, hsame, hbetter, rfl, hhead, ?_, fun j hj => absurd hj (Nat.not_lt_zero j)⟩
          exact List.forall_mem_cons.mpr ⟨fun _ => UInt64.le_refl _, hall⟩
        · exact .inr ⟨j + 1, slot, hshift j ▸ hfound, UInt64.lt_trans hless hbetter, hleast.cons fun _ => hless⟩
      · have hworse := UInt64.not_lt.mp hbetter
        rw [if_neg hbetter]
        rcases ih (i + 1) bestIdx bestLoad with ⟨hsame, hall⟩ | ⟨j, slot, hfound, hless, hleast⟩
        · exact .inl ⟨hsame, List.forall_mem_cons.mpr ⟨fun _ => hworse, hall⟩⟩
        · exact .inr ⟨j + 1, slot, hshift j ▸ hfound, hless,
            hleast.cons fun _ => UInt64.lt_of_lt_of_le hless hworse⟩

/-- A lease takes the first of the least loaded slots, unless every counter is at its end. -/
theorem lease_cases (pool : WorkerPool) :
    (pool.lease = none ∧ ∀ slot ∈ pool.slots, slot.failed = false → usizeMax ≤ slot.activeTasks) ∨
    ∃ i slot, pool.lease = some (slot.addr, pool.assign i) ∧ Least pool.slots i slot := by
  unfold lease
  rcases leastLoaded_cases pool.slots 0 none usizeMax with ⟨hnone, hall⟩ | ⟨i, slot, hfound, -, hleast⟩
  · exact .inl ⟨by rw [hnone]; rfl, hall⟩
  · refine .inr ⟨i, slot, ?_, hleast⟩
    rw [hfound, Nat.zero_add, Option.bind_eq_bind, Option.bind_some, hleast.there]
    rfl

/-! ## What the methods change -/

/-- The tasks that are active on the slots. -/
def active (slots : List WorkerSlot) : Nat := (slots.map fun slot => slot.activeTasks.toNat).sum

section Modify

variable {f : WorkerSlot → WorkerSlot} {slots : List WorkerSlot} {i : Nat}

theorem map_addr_modify (hf : ∀ slot, (f slot).addr = slot.addr) (slots : List WorkerSlot) (i : Nat) :
    (slots.modify i f).map WorkerSlot.addr = slots.map WorkerSlot.addr := by
  induction slots generalizing i with
  | nil => simp
  | cons slot rest ih =>
    cases i with
    | zero => simp [hf]
    | succ i => simp [ih]

theorem healthy_modify (hf : ∀ slot, (f slot).failed = slot.failed) (h : ∀ slot ∈ slots, slot.failed = false) (i : Nat) :
    ∀ slot ∈ slots.modify i f, slot.failed = false := by
  induction slots generalizing i with
  | nil => simp
  | cons slot rest ih =>
    obtain ⟨hslot, hrest⟩ := List.forall_mem_cons.mp h
    cases i with
    | zero => exact List.forall_mem_cons.mpr ⟨(hf slot).trans hslot, hrest⟩
    | succ i => exact List.forall_mem_cons.mpr ⟨hslot, ih hrest i⟩

theorem active_modify_le {n : Nat} (hf : ∀ slot, (f slot).activeTasks.toNat ≤ slot.activeTasks.toNat + n)
    (slots : List WorkerSlot) (i : Nat) : active (slots.modify i f) ≤ active slots + n := by
  unfold active
  induction slots generalizing i with
  | nil => simp
  | cons slot rest ih =>
    cases i with
    | zero =>
      have hslot := hf slot
      simp only [List.modify_zero_cons, List.map_cons, List.sum_cons]
      omega
    | succ i =>
      have hrest := ih i
      simp only [List.modify_succ_cons, List.map_cons, List.sum_cons]
      omega

theorem onFirst_eq_modify (addr : Str) (f : WorkerSlot → WorkerSlot) (slots : List WorkerSlot) :
    onFirst addr f slots = slots.modify (slots.findIdx fun slot => slot.addr = addr) f := by
  induction slots with
  | nil => simp [onFirst]
  | cons slot rest ih =>
    by_cases haddr : slot.addr = addr
    · simp [onFirst, haddr, List.findIdx_cons]
    · simp [onFirst, haddr, List.findIdx_cons, ih]

end Modify

@[simp] theorem addresses_assign (pool : WorkerPool) (i : Nat) : (pool.assign i).addresses = pool.addresses := by
  refine map_addr_modify ?_ _ _
  exact fun _ => rfl

@[simp] theorem addresses_release (pool : WorkerPool) (addr : Str) :
    (pool.release addr).addresses = pool.addresses := by
  unfold release addresses
  rw [onFirst_eq_modify]
  refine map_addr_modify ?_ _ _
  exact fun _ => rfl

theorem healthy_assign {pool : WorkerPool} (h : ∀ slot ∈ pool.slots, slot.failed = false) (i : Nat) :
    ∀ slot ∈ (pool.assign i).slots, slot.failed = false := by
  refine healthy_modify ?_ h i
  exact fun _ => rfl

theorem healthy_release {pool : WorkerPool} (h : ∀ slot ∈ pool.slots, slot.failed = false) (addr : Str) :
    ∀ slot ∈ (pool.release addr).slots, slot.failed = false := by
  unfold release
  rw [onFirst_eq_modify]
  refine healthy_modify ?_ h _
  exact fun _ => rfl

theorem active_assign_le (pool : WorkerPool) (i : Nat) : active (pool.assign i).slots ≤ active pool.slots + 1 := by
  refine active_modify_le (fun slot => ?_) _ _
  simp only [UInt64.toNat_add]
  exact Nat.mod_le _ _

theorem active_release_le (pool : WorkerPool) (addr : Str) :
    active (pool.release addr).slots ≤ active pool.slots := by
  unfold release
  rw [onFirst_eq_modify]
  refine active_modify_le (n := 0) (fun slot => ?_) _ _
  dsimp only
  split
  · simp
  · rename_i hbusy
    have hpos : slot.activeTasks.toNat ≠ 0 := fun hzero => hbusy (UInt64.toNat_inj.mp hzero)
    have hone : (1 : UInt64) ≤ slot.activeTasks := UInt64.le_iff_toNat_le.mpr (Nat.pos_of_ne_zero hpos)
    rw [UInt64.toNat_sub_of_le _ _ hone]
    exact Nat.sub_le _ _

/-- Some slot among the first `d` is idle when fewer than `d` tasks are active. -/
theorem exists_idle {slots : List WorkerSlot} {d : Nat} (hd : d ≤ slots.length) (h : active slots < d) :
    ∃ i slot, i < d ∧ slots[i]? = some slot ∧ slot.activeTasks = 0 := by
  by_contra hnone
  push Not at hnone
  have hbusy : ∀ load ∈ (slots.take d).map fun slot => slot.activeTasks.toNat, 1 ≤ load := by
    intro load hload
    obtain ⟨slot, hslot, rfl⟩ := List.mem_map.mp hload
    obtain ⟨i, hi, rfl⟩ := List.mem_take_iff_getElem.mp hslot
    have hne := hnone i slots[i] (by omega) (List.getElem?_eq_getElem _)
    by_contra hzero
    exact hne (UInt64.toNat_inj.mp (by simpa using hzero))
  have hsum := List.length_le_sum_of_one_le _ hbusy
  have hsub : ((slots.take d).map fun slot => slot.activeTasks.toNat).sum ≤ active slots :=
    ((List.take_sublist d slots).map _).sum_le_sum fun _ _ => Nat.zero_le _
  rw [List.length_map, List.length_take_of_le hd] at hsum
  omega

theorem activeTasks_le_active {slots : List WorkerSlot} {slot : WorkerSlot} (h : slot ∈ slots) :
    slot.activeTasks.toNat ≤ active slots := List.le_sum_of_mem (List.mem_map_of_mem h)

/-! ## A pool with its first slots busy -/

/-- The first `k` slots have one task each, the others none. -/
def Loaded (k : Nat) (pool : WorkerPool) : Prop :=
  ∀ i slot, pool.slots[i]? = some slot → slot.failed = false ∧ slot.activeTasks = if i < k then 1 else 0

theorem loaded_resetAll (pool : WorkerPool) : Loaded 0 pool.resetAll := by
  intro i slot hslot
  simp only [resetAll, List.getElem?_map, Option.map_eq_some_iff] at hslot
  obtain ⟨_, -, rfl⟩ := hslot
  exact ⟨rfl, rfl⟩

theorem exists_slot {pool : WorkerPool} {i : Nat} {addr : Str} (h : pool.addresses[i]? = some addr) :
    ∃ slot, pool.slots[i]? = some slot ∧ slot.addr = addr := by
  simpa only [addresses, List.getElem?_map, Option.map_eq_some_iff] using h

/-- The next lease is of the next slot. -/
theorem Loaded.lease {k : Nat} {pool : WorkerPool} (h : Loaded k pool) {addr : Str}
    (haddr : pool.addresses[k]? = some addr) :
    pool.lease = some (addr, pool.assign k) ∧ Loaded (k + 1) (pool.assign k) := by
  obtain ⟨idle, hat, rfl⟩ := exists_slot haddr
  obtain ⟨hhealthy, hidle⟩ := h k idle hat
  rw [if_neg (Nat.lt_irrefl k)] at hidle
  rcases pool.lease_cases with ⟨-, hfull⟩ | ⟨i, slot, hlease, hleast⟩
  · have hload := hfull idle (List.mem_of_getElem? hat) hhealthy
    rw [hidle] at hload
    exact absurd hload (by decide)
  · have hzero : slot.activeTasks = 0 := by
      have hle := hleast.least idle (List.mem_of_getElem? hat) hhealthy
      rw [hidle] at hle
      exact UInt64.le_zero_iff.mp hle
    have hik : i = k := by
      have hslot := (h i slot hleast.there).2
      rcases Nat.lt_trichotomy i k with hlt | heq | hgt
      · rw [if_pos hlt, hzero] at hslot
        exact absurd hslot (by decide)
      · exact heq
      · have hless := hleast.first k hgt idle hat hhealthy
        rw [hidle] at hless
        exact absurd hless UInt64.not_lt_zero
    subst hik
    obtain rfl := Option.some.inj (hat.symm.trans hleast.there)
    refine ⟨hlease, fun j other hother => ?_⟩
    by_cases hj : i = j
    · subst hj
      rw [assign, List.getElem?_modify_eq, hat] at hother
      obtain rfl := Option.some.inj hother
      exact ⟨hhealthy, by simp [hidle]⟩
    · rw [assign, List.getElem?_modify_ne _ _ hj] at hother
      have hlt : j < i + 1 ↔ j < i := by omega
      simpa only [hlt] using h j other hother

/-- Releasing the last busy slot frees it, when no slot before it has the address. -/
theorem Loaded.release {k : Nat} {pool : WorkerPool} (h : Loaded (k + 1) pool) {addr : Str}
    (haddr : pool.addresses[k]? = some addr) (hfirst : ∀ j < k, pool.addresses[j]? ≠ some addr) :
    Loaded k (pool.release addr) := by
  obtain ⟨busy, hat, hbusy⟩ := exists_slot haddr
  obtain ⟨hk, hget⟩ := List.getElem?_eq_some_iff.mp hat
  have hidx : pool.slots.findIdx (fun slot => slot.addr = addr) = k := by
    refine (List.findIdx_eq hk).mpr ⟨by simp [hget, hbusy], fun j hj => ?_⟩
    have hne := hfirst j hj
    rw [addresses, List.getElem?_map, List.getElem?_eq_getElem (hj.trans hk)] at hne
    simpa using hne
  unfold WorkerPool.release
  rw [onFirst_eq_modify, hidx]
  intro j other hother
  by_cases hj : k = j
  · subst hj
    obtain ⟨hhealthy, hload⟩ := h k busy hat
    rw [if_pos (Nat.lt_succ_self k)] at hload
    rw [List.getElem?_modify_eq, hat] at hother
    obtain rfl := Option.some.inj hother
    exact ⟨hhealthy, by simp [hload]⟩
  · rw [List.getElem?_modify_ne _ _ hj] at hother
    have hlt : j < k + 1 ↔ j < k := by omega
    simpa only [hlt] using h j other hother

end WorkerPool

end Ccos
