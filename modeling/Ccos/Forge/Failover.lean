import Ccos.Forge.WorkerPool
import Ccos.Lib.Runs

/-!
# Failover of a population's tasks

The tasks of one generation share the pool. A step of a task is its next lease, dispatch, release or
`mark_failed`; a schedule says whose step comes next.
-/

namespace Ccos

/-- Where a task of `evaluate_distributed_dynamic` stands. Its candidate is not in the cache. -/
inductive TaskPhase
  | leasing (remainingAttempts : Nat)
  | dispatching (remainingAttempts : Nat) (workerAddr : Str)
  | answered (workerAddr : Str)
  | refused (remainingAttempts : Nat) (workerAddr : Str)
  | exhausted (workerAddr : Str)
  | remote (workerAddr : Str)
  | fallback
  deriving DecidableEq, Repr

/-- `tried` are the workers that the task was sent to, in order. -/
structure EvaluationTask where
  phase : TaskPhase
  tried : List Str
  deriving DecidableEq, Repr

structure Evaluation where
  pool : WorkerPool
  tasks : List EvaluationTask
  deriving DecidableEq, Repr

namespace Evaluation

/-- `pool.reset_all()`, and every task before its first lease. -/
def start (pool : WorkerPool) (tasks : Nat) : Evaluation where
  pool := pool.resetAll
  tasks := List.replicate tasks ⟨.leasing (max pool.slots.length 1), []⟩

variable (dead : Str → Bool)

/-- The next step of a task. A dead worker fails, a live one answers. -/
def advance (pool : WorkerPool) (task : EvaluationTask) : WorkerPool × EvaluationTask :=
  match task.phase with
  | .leasing remaining =>
    match pool.lease with
    | some (addr, pool) => (pool, ⟨.dispatching remaining addr, task.tried ++ [addr]⟩)
    | none => (pool, { task with phase := .fallback })
  | .dispatching remaining addr =>
    (pool, { task with phase := if dead addr then .refused remaining addr else .answered addr })
  | .answered addr => (pool.release addr, { task with phase := .remote addr })
  | .refused remaining addr =>
    (pool.release addr,
      { task with phase := if remaining - 1 = 0 then .exhausted addr else .leasing (remaining - 1) })
  | .exhausted addr => (pool.markFailed addr, { task with phase := .fallback })
  | .remote _ => (pool, task)
  | .fallback => (pool, task)

def step (s : Evaluation) (i : Nat) : Evaluation :=
  match s.tasks[i]? with
  | none => s
  | some task =>
    let (pool, task) := advance dead s.pool task
    ⟨pool, s.tasks.set i task⟩

/-- The task has not fallen back, tried no worker twice, and reached a live worker if it is done. -/
structure FailsOver (task : EvaluationTask) : Prop where
  remote : task.phase ≠ .fallback
  anew : task.tried.Nodup
  live : ∀ addr, task.phase = .remote addr → addr ∈ task.tried ∧ dead addr = false

/-- The number of live workers before the first dead one. -/
def leading (pool : WorkerPool) : Nat := (pool.addresses.takeWhile fun addr => !dead addr).length

variable {dead}

/-! ## One lease a task -/

/-- A task that has taken one lease at most, of a live worker. -/
inductive OnLive (dead : Str → Bool) : EvaluationTask → Prop
  | leasing (remaining : Nat) : OnLive dead ⟨.leasing remaining, []⟩
  | dispatching (remaining : Nat) {addr : Str} (live : dead addr = false) : OnLive dead ⟨.dispatching remaining addr, [addr]⟩
  | answered {addr : Str} (live : dead addr = false) : OnLive dead ⟨.answered addr, [addr]⟩
  | remote {addr : Str} (live : dead addr = false) : OnLive dead ⟨.remote addr, [addr]⟩

theorem OnLive.failsOver {task : EvaluationTask} (h : OnLive dead task) : FailsOver dead task := by
  cases h with
  | leasing => exact ⟨nofun, List.nodup_nil, nofun⟩
  | dispatching => exact ⟨nofun, List.nodup_singleton _, nofun⟩
  | answered => exact ⟨nofun, List.nodup_singleton _, nofun⟩
  | remote live =>
    refine ⟨nofun, List.nodup_singleton _, ?_⟩
    rintro _ ⟨⟩
    exact ⟨List.mem_singleton.mpr rfl, live⟩

/-- The tasks that have taken a lease. -/
def leased (tasks : List EvaluationTask) : Nat := tasks.countP fun task => task.tried ≠ []

/-- No worker has failed a task, and the load of the pool comes from the leases taken so far. -/
structure Calm (dead : Str → Bool) (pool : WorkerPool) (n : Nat) (s : Evaluation) : Prop where
  addresses : s.pool.addresses = pool.addresses
  healthy : ∀ slot ∈ s.pool.slots, slot.failed = false
  active : WorkerPool.active s.pool.slots ≤ leased s.tasks
  onLive : ∀ task ∈ s.tasks, OnLive dead task
  count : s.tasks.length = n

theorem calm_start (pool : WorkerPool) (n : Nat) : Calm dead pool n (start pool n) := by
  refine ⟨?_, ?_, ?_, ?_, List.length_replicate⟩
  · simp [start, WorkerPool.resetAll, WorkerPool.addresses]
  · simp [start, WorkerPool.resetAll]
  · simp [start, WorkerPool.resetAll, WorkerPool.active, Function.comp_def]
  · intro task htask
    obtain rfl := List.eq_of_mem_replicate htask
    exact .leasing _

theorem leased_set {tasks : List EvaluationTask} {i : Nat} {task : EvaluationTask} (h : tasks[i]? = some task)
    (task' : EvaluationTask) : leased (tasks.set i task') + (if task.tried ≠ [] then 1 else 0) =
      leased tasks + if task'.tried ≠ [] then 1 else 0 := by
  unfold leased
  induction tasks generalizing i with
  | nil => cases h
  | cons head rest ih =>
    cases i with
    | zero =>
      obtain rfl := Option.some.inj h
      simp only [List.set_cons_zero, List.countP_cons, decide_eq_true_eq]
      omega
    | succ i =>
      have hrest := ih (i := i) h
      simp only [List.set_cons_succ, List.countP_cons]
      omega

theorem leased_set_of_same {tasks : List EvaluationTask} {i : Nat} {task task' : EvaluationTask}
    (h : tasks[i]? = some task) (htried : task'.tried = task.tried) : leased (tasks.set i task') = leased tasks := by
  have hset := leased_set h task'
  rw [htried] at hset
  exact Nat.add_right_cancel hset

theorem leased_set_of_new {tasks : List EvaluationTask} {i : Nat} {task task' : EvaluationTask}
    (h : tasks[i]? = some task) (htried : task.tried = []) (htried' : task'.tried ≠ []) :
    leased (tasks.set i task') = leased tasks + 1 := by
  have hset := leased_set h task'
  rwa [if_neg (not_not.mpr htried), if_pos htried'] at hset

/-- Only live workers are in reach: none of the pool is dead, or the live ones before the first dead
one are as many as the tasks. -/
def Spared (dead : Str → Bool) (pool : WorkerPool) (n : Nat) : Prop :=
  (∀ addr ∈ pool.addresses, dead addr = false) ∨ n ≤ leading dead pool

theorem addresses_getElem? {pool : WorkerPool} {i : Nat} {slot : WorkerSlot} (h : pool.slots[i]? = some slot) :
    pool.addresses[i]? = some slot.addr := by
  rw [WorkerPool.addresses, List.getElem?_map, h]
  rfl

theorem live_of_lt_leading {pool : WorkerPool} {i : Nat} {addr : Str} (hi : i < leading dead pool)
    (h : pool.addresses[i]? = some addr) : dead addr = false := by
  have hprefix := List.takeWhile_prefix (l := pool.addresses) (p := fun addr => !dead addr)
  have haddr := hprefix.getElem hi
  rw [(List.getElem?_eq_some_iff.mp h).2] at haddr
  have hmem := List.getElem_mem hi
  rw [haddr] at hmem
  simpa using List.all_eq_true.mp List.all_takeWhile _ hmem

/-- A lease in a calm pool is of a live worker. -/
theorem lease_live {pool : WorkerPool} {n : Nat} (hspared : Spared dead pool n)
    (hlive : ∃ addr ∈ pool.addresses, dead addr = false) (hsize : n < 2 ^ 63)
    (hhealthy : ∀ slot ∈ pool.slots, slot.failed = false) (hactive : WorkerPool.active pool.slots < n) :
    ∃ i, ∃ slot : WorkerSlot, pool.lease = some (slot.addr, pool.assign i) ∧ dead slot.addr = false := by
  rcases pool.lease_cases with ⟨-, hfull⟩ | ⟨i, slot, hlease, hleast⟩
  · obtain ⟨addr, haddr, -⟩ := hlive
    obtain ⟨slot, hslot, rfl⟩ := List.mem_map.mp haddr
    have hload := WorkerPool.activeTasks_le_active hslot
    have hmax : (18446744073709551615 : Nat) ≤ slot.activeTasks.toNat :=
      UInt64.le_iff_toNat_le.mp (hfull slot hslot (hhealthy slot hslot))
    omega
  · refine ⟨i, slot, hlease, ?_⟩
    rcases hspared with hall | hleading
    · exact hall _ (List.mem_map_of_mem (List.mem_of_getElem? hleast.there))
    · have hbound : leading dead pool ≤ pool.slots.length := by
        have hsub : leading dead pool ≤ pool.addresses.length := (List.takeWhile_sublist _).length_le
        exact hsub.trans_eq (List.length_map _)
      obtain ⟨j, idle, hj, hat, hidle⟩ := WorkerPool.exists_idle hbound (hactive.trans_le hleading)
      have hmem := List.mem_of_getElem? hat
      have hij : i ≤ j := by
        by_contra hlt
        have hless := hleast.first j (by omega) idle hat (hhealthy idle hmem)
        rw [hidle] at hless
        exact absurd hless UInt64.not_lt_zero
      exact live_of_lt_leading (hij.trans_lt hj) (addresses_getElem? hleast.there)

/-- A step of one task keeps the calm when its own part of the state does. -/
theorem Calm.set {pool pool' : WorkerPool} {n : Nat} {s : Evaluation} (h : Calm dead pool n s) {i : Nat}
    {task' : EvaluationTask} (haddresses : pool'.addresses = s.pool.addresses)
    (hhealthy : ∀ slot ∈ pool'.slots, slot.failed = false)
    (hactive : WorkerPool.active pool'.slots ≤ leased (s.tasks.set i task')) (htask : OnLive dead task') :
    Calm dead pool n ⟨pool', s.tasks.set i task'⟩ := by
  refine ⟨haddresses.trans h.addresses, hhealthy, hactive, fun task hmem => ?_, ?_⟩
  · rcases List.mem_or_eq_of_mem_set hmem with hold | rfl
    · exact h.onLive task hold
    · exact htask
  · rw [List.length_set, h.count]

theorem Calm.step {pool : WorkerPool} {n : Nat} {s : Evaluation} (hspared : Spared dead pool n)
    (hlive : ∃ addr ∈ pool.addresses, dead addr = false) (hsize : n < 2 ^ 63) (h : Calm dead pool n s) (i : Nat) :
    Calm dead pool n (step dead s i) := by
  unfold Evaluation.step
  cases hat : s.tasks[i]? with
  | none => exact h
  | some task =>
    cases h.onLive task (List.mem_of_getElem? hat) with
    | leasing remaining =>
      -- The task itself holds no lease yet, so fewer than `n` tasks do.
      have hnew {addr : Str} : leased (s.tasks.set i ⟨.dispatching remaining addr, [addr]⟩) = leased s.tasks + 1 :=
        leased_set_of_new hat rfl (List.cons_ne_nil _ _)
      have hroom : leased s.tasks < n := by
        have hle : leased (s.tasks.set i ⟨.dispatching remaining [], [[]]⟩) ≤ n :=
          List.countP_le_length.trans_eq ((List.length_set ..).trans h.count)
        rw [hnew] at hle
        exact hle
      have hspared' : Spared dead s.pool n := by rwa [Spared, leading, h.addresses]
      obtain ⟨k, slot, hlease, hslot⟩ :=
        lease_live hspared' (h.addresses ▸ hlive) hsize h.healthy (h.active.trans_lt hroom)
      simp only [advance, hlease, List.nil_append]
      refine h.set (s.pool.addresses_assign k) (WorkerPool.healthy_assign h.healthy k) ?_ (.dispatching remaining hslot)
      rw [hnew]
      exact (s.pool.active_assign_le k).trans (Nat.add_le_add_right h.active 1)
    | @dispatching remaining addr live =>
      simp only [advance, live, Bool.false_eq_true, if_false]
      have hsame : leased (s.tasks.set i ⟨.answered addr, [addr]⟩) = leased s.tasks := leased_set_of_same hat rfl
      exact h.set rfl h.healthy (h.active.trans_eq hsame.symm) (.answered live)
    | @answered addr live =>
      have hsame : leased (s.tasks.set i ⟨.remote addr, [addr]⟩) = leased s.tasks := leased_set_of_same hat rfl
      refine h.set (s.pool.addresses_release addr) (WorkerPool.healthy_release h.healthy addr) ?_ (.remote live)
      exact ((s.pool.active_release_le addr).trans h.active).trans_eq hsame.symm
    | @remote addr live =>
      have hsame : leased (s.tasks.set i ⟨.remote addr, [addr]⟩) = leased s.tasks := leased_set_of_same hat rfl
      exact h.set rfl h.healthy (h.active.trans_eq hsame.symm) (.remote live)

theorem Calm.run {pool : WorkerPool} {n : Nat} {s : Evaluation} (hspared : Spared dead pool n)
    (hlive : ∃ addr ∈ pool.addresses, dead addr = false) (hsize : n < 2 ^ 63) (h : Calm dead pool n s)
    (schedule : List Nat) : Calm dead pool n (Runs.run (Evaluation.step dead) s schedule) := by
  induction schedule generalizing s with
  | nil => exact h
  | cons i schedule ih => exact ih (h.step hspared hlive hsize i)

/-! ## A task that never leaves a dead worker -/

theorem step_of_advance {s : Evaluation} {i : Nat} {task task' : EvaluationTask} {pool' : WorkerPool}
    (hat : s.tasks[i]? = some task) (hadvance : advance dead s.pool task = (pool', task')) :
    step dead s i = ⟨pool', s.tasks.set i task'⟩ := by
  simp only [step, hat, hadvance]

theorem getElem?_set_at {tasks : List EvaluationTask} {i : Nat} {task : EvaluationTask}
    (h : tasks[i]? = some task) (task' : EvaluationTask) : (tasks.set i task')[i]? = some task' :=
  List.getElem?_set_self (List.getElem?_eq_some_iff.mp h).1

/-- The first `k` tasks hold the first `k` slots, and the others have not started. -/
structure Claimed (pool : WorkerPool) (n k : Nat) (s : Evaluation) : Prop where
  addresses : s.pool.addresses = pool.addresses
  loaded : s.pool.Loaded k
  waiting : ∀ i, k ≤ i → i < n → s.tasks[i]? = some ⟨.leasing (max pool.slots.length 1), []⟩

theorem claimed_start (pool : WorkerPool) (n : Nat) : Claimed pool n 0 (start pool n) := by
  refine ⟨(@calm_start (fun _ => false) pool n).addresses, pool.loaded_resetAll, fun i _ hi => ?_⟩
  rw [start, List.getElem?_replicate, if_pos hi]

theorem Claimed.step {pool : WorkerPool} {n k : Nat} {s : Evaluation} (h : Claimed pool n k s) (hk : k < n)
    (hslot : k < pool.slots.length) : Claimed pool n (k + 1) (step dead s k) := by
  have haddr : s.pool.addresses[k]? = some pool.slots[k].addr := by
    rw [h.addresses]
    exact addresses_getElem? (List.getElem?_eq_getElem hslot)
  obtain ⟨hlease, hloaded⟩ := h.loaded.lease haddr
  have hat := h.waiting k (Nat.le_refl k) hk
  rw [step_of_advance hat (by simp only [advance, hlease]; rfl)]
  refine ⟨(s.pool.addresses_assign k).trans h.addresses, hloaded, fun i hi hin => ?_⟩
  rw [List.getElem?_set_ne (by omega)]
  exact h.waiting i (by omega) hin

theorem claimed_run (pool : WorkerPool) {n k : Nat} (hk : k ≤ n) (hslots : k ≤ pool.slots.length) :
    Claimed pool n k (Runs.run (step dead) (start pool n) (List.range k)) := by
  induction k with
  | zero => exact claimed_start pool n
  | succ k ih =>
    rw [List.range_succ, Runs.run, List.foldl_append]
    exact (ih (by omega) (by omega)).step hk hslots

/-- The pool is as after `d` leases, and the task `d`, whose slot is of a dead worker, is in this phase. -/
structure Stuck (dead : Str → Bool) (d : Nat) (addr : Str) (phase : TaskPhase) (s : Evaluation) : Prop where
  there : s.pool.addresses[d]? = some addr
  first : ∀ j < d, s.pool.addresses[j]? ≠ some addr
  isDead : dead addr = true
  loaded : s.pool.Loaded d
  task : ∃ tried, s.tasks[d]? = some ⟨phase, tried⟩

/-- An attempt on the dead worker leaves the pool as it was. -/
theorem Stuck.attempt {d remaining : Nat} {addr : Str} {s : Evaluation}
    (h : Stuck dead d addr (.leasing remaining) s) :
    Stuck dead d addr (if remaining - 1 = 0 then .exhausted addr else .leasing (remaining - 1))
      (Runs.run (step dead) s [d, d, d]) := by
  obtain ⟨tried, hat⟩ := h.task
  obtain ⟨hlease, hloaded⟩ := h.loaded.lease h.there
  have haddresses := s.pool.addresses_assign d
  have hleased := @step_of_advance dead _ _ _ _ _ hat (by simp only [advance, hlease]; rfl)
  have hat₁ := getElem?_set_at hat ⟨.dispatching remaining addr, tried ++ [addr]⟩
  have hrefused := @step_of_advance dead ⟨s.pool.assign d, _⟩ _ _ _ _ hat₁
    (by simp only [advance, h.isDead, if_true]; rfl)
  have hat₂ := getElem?_set_at hat₁ ⟨.refused remaining addr, tried ++ [addr]⟩
  have hreleased := @step_of_advance dead ⟨s.pool.assign d, _⟩ _ _ _ _ hat₂ (by simp only [advance]; rfl)
  have hrun : Runs.run (step dead) s [d, d, d] = step dead (step dead (step dead s d) d) d := rfl
  rw [hrun, hleased, hrefused, hreleased]
  refine ⟨?_, ?_, h.isDead, ?_, _, getElem?_set_at hat₂ _⟩
  · rw [WorkerPool.addresses_release, haddresses]
    exact h.there
  · rw [WorkerPool.addresses_release, haddresses]
    exact h.first
  · exact hloaded.release (haddresses ▸ h.there) (haddresses ▸ h.first)

/-- A schedule in which the task uses up its attempts. -/
theorem Stuck.falls_back {d remaining : Nat} {addr : Str} {s : Evaluation}
    (h : Stuck dead d addr (.leasing (remaining + 1)) s) :
    ∃ schedule, ∃ task ∈ (Runs.run (step dead) s schedule).tasks, task.phase = .fallback := by
  induction remaining generalizing s with
  | zero =>
    obtain ⟨tried, hat⟩ := h.attempt.task
    refine ⟨[d, d, d] ++ [d], ⟨.fallback, tried⟩, ?_, rfl⟩
    rw [Runs.run, List.foldl_append]
    change _ ∈ (step dead (Runs.run (step dead) s [d, d, d]) d).tasks
    rw [step_of_advance hat (by simp only [advance]; rfl)]
    exact List.mem_of_getElem? (getElem?_set_at hat _)
  | succ remaining ih =>
    have hnext := h.attempt
    rw [Nat.add_sub_cancel, if_neg (Nat.succ_ne_zero remaining)] at hnext
    obtain ⟨schedule, task, htask, hphase⟩ := ih hnext
    refine ⟨[d, d, d] ++ schedule, task, ?_, hphase⟩
    rwa [Runs.run, List.foldl_append]

/-! ## When failover reaches a live worker -/

theorem getElem?_length_takeWhile {A : Type} {p : A → Bool} {l : List A} (h : ∃ a ∈ l, p a = false) :
    ∃ a, l[(l.takeWhile p).length]? = some a ∧ p a = false := by
  induction l with
  | nil =>
    obtain ⟨_, hmem, -⟩ := h
    cases hmem
  | cons head rest ih =>
    cases hhead : p head with
    | false => exact ⟨head, by rw [List.takeWhile_cons_of_neg (by simp [hhead])]; rfl, hhead⟩
    | true =>
      obtain ⟨a, hmem, ha⟩ := h
      have hrest : a ∈ rest := by
        rcases List.mem_cons.mp hmem with rfl | hrest
        · rw [hhead] at ha
          cases ha
        · exact hrest
      rw [List.takeWhile_cons_of_pos hhead]
      exact ih ⟨a, hrest, ha⟩

/-- When the leading live workers are taken, the next task is stuck. -/
theorem stuck_of_claimed {pool : WorkerPool} {n : Nat} {s : Evaluation} (hdead : ∃ addr ∈ pool.addresses, dead addr = true)
    (hmore : leading dead pool < n) (h : Claimed pool n (leading dead pool) s) :
    ∃ addr, Stuck dead (leading dead pool) addr (.leasing (max pool.slots.length 1)) s := by
  obtain ⟨addr, hat, haddr⟩ := getElem?_length_takeWhile (p := fun addr => !dead addr) (l := pool.addresses)
    (by simpa using hdead)
  have hisDead : dead addr = true := by simpa using haddr
  refine ⟨addr, h.addresses ▸ hat, fun j hj hsame => ?_, hisDead, h.loaded, [], h.waiting _ (Nat.le_refl _) hmore⟩
  rw [h.addresses] at hsame
  rw [live_of_lt_leading hj hsame] at hisDead
  cases hisDead

/-- Every schedule fails over to live workers exactly when only live ones are in reach. -/
theorem fails_over_iff (dead : Str → Bool) (pool : WorkerPool) (n : Nat)
    (hlive : ∃ addr ∈ pool.addresses, dead addr = false) (hsize : n < 2 ^ 63) :
    (∀ schedule, ∀ task ∈ (Runs.run (step dead) (start pool n) schedule).tasks, FailsOver dead task) ↔
      Spared dead pool n := by
  constructor
  · intro h
    by_contra hspared
    rw [Spared, not_or, Nat.not_le] at hspared
    obtain ⟨hdead, hmore⟩ := hspared
    push Not at hdead
    have hdead : ∃ addr ∈ pool.addresses, dead addr = true := by simpa using hdead
    have hslots : leading dead pool ≤ pool.slots.length :=
      (List.takeWhile_sublist _).length_le.trans_eq (List.length_map _)
    obtain ⟨addr, hstuck⟩ := stuck_of_claimed hdead hmore (@claimed_run dead pool _ _ hmore.le hslots)
    obtain ⟨remaining, hremaining⟩ := Nat.exists_eq_add_of_le' (le_max_right pool.slots.length 1)
    rw [hremaining] at hstuck
    obtain ⟨schedule, task, htask, hphase⟩ := hstuck.falls_back
    refine (h (List.range (leading dead pool) ++ schedule) task ?_).remote hphase
    rwa [Runs.run, List.foldl_append]
  · exact fun hspared schedule task htask =>
      (((calm_start pool n).run hspared hlive hsize schedule).onLive task htask).failsOver

namespace Sample

def down : Str → Bool := (· = ['a'])

/-- A live worker before a dead one serves one task. -/
theorem live_worker_first : ¬ ∃ schedule, ∃ task ∈
    (Runs.run (step down) (start (WorkerPool.new [['b'], ['a']]) 1) schedule).tasks, task.phase = .fallback := by
  rintro ⟨schedule, task, htask, hphase⟩
  have hspared : Spared down (WorkerPool.new [['b'], ['a']]) 1 := .inr (by decide)
  exact ((fails_over_iff down _ 1 ⟨['b'], by decide, by decide⟩ (by decide)).mpr hspared schedule task htask).remote hphase

/-- A dead worker before a live one keeps the task until its attempts are used up. -/
theorem dead_worker_first : ¬ ∀ (dead : Str → Bool) (pool : WorkerPool) (n : Nat),
    (∃ addr ∈ pool.addresses, dead addr = false) → n < 2 ^ 63 →
    ∀ schedule, ∀ task ∈ (Runs.run (step dead) (start pool n) schedule).tasks, FailsOver dead task := by
  intro h
  have hstuck : (Runs.run (step down) (start (WorkerPool.new [['a'], ['b']]) 1) (List.replicate 7 0)).tasks =
      [⟨.fallback, [['a'], ['a']]⟩] := by decide
  refine (h down (WorkerPool.new [['a'], ['b']]) 1 ⟨['b'], by decide, by decide⟩ (by decide) (List.replicate 7 0)
    ⟨.fallback, [['a'], ['a']]⟩ ?_).remote rfl
  exact hstuck.symm ▸ List.mem_singleton.mpr rfl

end Sample

end Evaluation

end Ccos
