import Mathlib.Logic.Relation
import Mathlib.Data.List.Chain
import Mathlib.Tactic.Common
import Mathlib.Data.Nat.Find
import Mathlib.Data.Finset.Card
import Mathlib.Tactic.Linarith

/-!
# Walks and distances in a relation

A walk of a relation counts its steps. The distance from one point to another is the length of the
shortest walk.
-/

namespace Walks

variable {α : Type} {R S : α → α → Prop}

/-- `Walk R n a b`: from `a` to `b` in `n` steps. -/
inductive Walk (R : α → α → Prop) : Nat → α → α → Prop
  | nil (a : α) : Walk R 0 a a
  | snoc {n : Nat} {a b c : α} : Walk R n a b → R b c → Walk R (n + 1) a c

namespace Walk

theorem zero_iff {a b : α} : Walk R 0 a b ↔ a = b := by
  constructor
  · rintro ⟨⟩
    rfl
  · rintro rfl
    exact nil a

theorem succ_iff {n : Nat} {a c : α} : Walk R (n + 1) a c ↔ ∃ b, Walk R n a b ∧ R b c := by
  constructor
  · intro h
    cases h with
    | snoc h hstep => exact ⟨_, h, hstep⟩
  · rintro ⟨b, h, hstep⟩
    exact h.snoc hstep

theorem cons {n : Nat} {a b c : α} (hstep : R a b) (h : Walk R n b c) : Walk R (n + 1) a c := by
  induction h with
  | nil b => exact (nil a).snoc hstep
  | snoc _ hlast ih => exact (ih hstep).snoc hlast

theorem head {n : Nat} {a c : α} (h : Walk R (n + 1) a c) : ∃ b, R a b ∧ Walk R n b c := by
  induction n generalizing c with
  | zero =>
    obtain ⟨b, hb, hstep⟩ := succ_iff.mp h
    rw [zero_iff] at hb
    subst hb
    exact ⟨c, hstep, nil c⟩
  | succ n ih =>
    obtain ⟨b, hb, hstep⟩ := succ_iff.mp h
    obtain ⟨b', hfirst, hrest⟩ := ih hb
    exact ⟨b', hfirst, hrest.snoc hstep⟩

theorem mono {n : Nat} {a b : α} (h : Walk R n a b) (hRS : ∀ x y, R x y → S x y) : Walk S n a b := by
  induction h with
  | nil a => exact nil a
  | snoc _ hstep ih => exact ih.snoc (hRS _ _ hstep)

/-- The walk back, against the steps. -/
theorem reverse {n : Nat} {a b : α} (h : Walk R n a b) : Walk (flip R) n b a := by
  induction h with
  | nil a => exact nil a
  | snoc _ hstep ih => exact ih.cons hstep

theorem reverse_iff {n : Nat} {a b : α} : Walk (flip R) n b a ↔ Walk R n a b := ⟨reverse, reverse⟩

theorem reflTransGen {n : Nat} {a b : α} (h : Walk R n a b) : Relation.ReflTransGen R a b := by
  induction h with
  | nil a => exact .refl
  | snoc _ hstep ih => exact ih.tail hstep

/-- A walk to another point need not come back to where it started: what precedes the last visit is cut off. -/
theorem avoid_start {n : Nat} {a b : α} (h : Walk R n a b) (hne : a ≠ b) :
    ∃ k ≤ n, Walk (fun x y => R x y ∧ y ≠ a) k a b := by
  induction h with
  | nil a => exact absurd rfl hne
  | @snoc n a b c _ hstep ih =>
    by_cases hb : a = b
    · subst hb
      exact ⟨1, Nat.succ_le_succ (Nat.zero_le n), (nil a).snoc ⟨hstep, hne.symm⟩⟩
    · obtain ⟨k, hk, hwalk⟩ := ih hb
      exact ⟨k + 1, Nat.succ_le_succ hk, hwalk.snoc ⟨hstep, hne.symm⟩⟩

end Walk

/-! ## Distance -/

/-- The shortest walk from `a` to `b` has `n` steps. -/
def Distance (R : α → α → Prop) (a b : α) (n : Nat) : Prop := Walk R n a b ∧ ∀ k < n, ¬ Walk R k a b

theorem distance_reverse_iff {a b : α} {n : Nat} : Distance (flip R) b a n ↔ Distance R a b n := by
  unfold Distance
  simp only [Walk.reverse_iff]

end Walks

/-!
## Layers of a relation

The distance of a point from a set is the length of a shortest walk from some point of the set. A table of
the distances up to some depth grows by one layer: the points that the last layer steps to and that are not
in the table. Once a layer adds nothing, the table has every point that can be reached.
-/

namespace Walks

variable {α : Type} {R : α → α → Prop} {S : α → Prop}

/-- A walk of `n` steps from the set to `v`. -/
def WalkFrom (R : α → α → Prop) (S : α → Prop) (n : Nat) (v : α) : Prop := ∃ s, S s ∧ Walk R n s v

def DistanceFrom (R : α → α → Prop) (S : α → Prop) (v : α) (n : Nat) : Prop :=
  WalkFrom R S n v ∧ ∀ k < n, ¬ WalkFrom R S k v

def ReachableFrom (R : α → α → Prop) (S : α → Prop) (v : α) : Prop := ∃ s, S s ∧ Relation.ReflTransGen R s v

theorem WalkFrom.snoc {n : Nat} {p v : α} (h : WalkFrom R S n p) (hstep : R p v) : WalkFrom R S (n + 1) v := by
  obtain ⟨s, hs, hwalk⟩ := h
  exact ⟨s, hs, hwalk.snoc hstep⟩

theorem walkFrom_zero_iff {v : α} : WalkFrom R S 0 v ↔ S v := by
  constructor
  · rintro ⟨s, hs, hwalk⟩
    rwa [← Walk.zero_iff.mp hwalk]
  · intro hv
    exact ⟨v, hv, .nil v⟩

theorem distanceFrom_zero_iff {v : α} : DistanceFrom R S v 0 ↔ S v := by
  unfold DistanceFrom
  rw [walkFrom_zero_iff]
  simp

theorem distanceFrom_unique {v : α} {m n : Nat} (hm : DistanceFrom R S v m) (hn : DistanceFrom R S v n) : m = n := by
  rcases Nat.lt_trichotomy m n with hlt | heq | hgt
  · exact absurd hm.1 (hn.2 m hlt)
  · exact heq
  · exact absurd hn.1 (hm.2 n hgt)

theorem WalkFrom.distance {n : Nat} {v : α} (h : WalkFrom R S n v) : ∃ k ≤ n, DistanceFrom R S v k := by
  classical
  have hex : ∃ k, WalkFrom R S k v := ⟨n, h⟩
  exact ⟨Nat.find hex, Nat.find_min' hex h, Nat.find_spec hex, fun k hk => Nat.find_min hex hk⟩

theorem reachableFrom_iff {v : α} : ReachableFrom R S v ↔ ∃ n, DistanceFrom R S v n := by
  constructor
  · rintro ⟨s, hs, hreach⟩
    have hwalk : ∃ n, WalkFrom R S n v := by
      induction hreach with
      | refl => exact ⟨0, s, hs, .nil s⟩
      | tail _ hstep ih =>
        obtain ⟨n, hn⟩ := ih
        exact ⟨n + 1, hn.snoc hstep⟩
    obtain ⟨n, hn⟩ := hwalk
    obtain ⟨k, -, hk⟩ := hn.distance
    exact ⟨k, hk⟩
  · rintro ⟨n, ⟨s, hs, hwalk⟩, -⟩
    exact ⟨s, hs, hwalk.reflTransGen⟩

/-- The points of a layer are stepped to from the layer before. -/
theorem distanceFrom_succ_iff {v : α} {d : Nat} : DistanceFrom R S v (d + 1) ↔
    (∃ p, DistanceFrom R S p d ∧ R p v) ∧ ∀ k ≤ d, ¬ DistanceFrom R S v k := by
  constructor
  · rintro ⟨⟨s, hs, hwalk⟩, hmin⟩
    obtain ⟨p, hp, hstep⟩ := Walk.succ_iff.mp hwalk
    refine ⟨⟨p, ⟨⟨s, hs, hp⟩, fun k hk hshort => ?_⟩, hstep⟩, fun k hk hnear => ?_⟩
    · exact hmin (k + 1) (Nat.succ_lt_succ hk) (hshort.snoc hstep)
    · exact hmin k (Nat.lt_succ_of_le hk) hnear.1
  · rintro ⟨⟨p, hp, hstep⟩, hfar⟩
    refine ⟨hp.1.snoc hstep, fun k hk hshort => ?_⟩
    obtain ⟨j, hj, hnear⟩ := hshort.distance
    exact hfar j (by omega) hnear

/-! ## A table of distances -/

/-- The table has the points within `d`, at their distances. -/
def Layered (R : α → α → Prop) (S : α → Prop) (d : Nat) (table : α → Option Nat) : Prop :=
  ∀ v k, table v = some k ↔ k ≤ d ∧ DistanceFrom R S v k

theorem layered_zero {table : α → Option Nat} (h : ∀ v k, table v = some k ↔ k = 0 ∧ S v) : Layered R S 0 table := by
  intro v k
  rw [h, Nat.le_zero]
  refine and_congr_right ?_
  rintro rfl
  exact distanceFrom_zero_iff.symm

theorem Layered.none_iff {d : Nat} {table : α → Option Nat} (h : Layered R S d table) (v : α) :
    table v = none ↔ ∀ k ≤ d, ¬ DistanceFrom R S v k := by
  rw [Option.eq_none_iff_forall_ne_some]
  constructor
  · exact fun hnone k hk hdist => hnone k ((h v k).mpr ⟨hk, hdist⟩)
  · exact fun hfar k hk => hfar k ((h v k).mp hk).1 ((h v k).mp hk).2

/-- The next layer: what the last one steps to and the table does not have. -/
theorem Layered.succ {d : Nat} {table table' : α → Option Nat} (h : Layered R S d table)
    (hgrow : ∀ v k, table' v = some k ↔
      table v = some k ∨ k = d + 1 ∧ table v = none ∧ ∃ p, table p = some d ∧ R p v) :
    Layered R S (d + 1) table' := by
  have hlast : ∀ p, table p = some d ↔ DistanceFrom R S p d := fun p =>
    (h p d).trans (and_iff_right (Nat.le_refl d))
  intro v k
  rw [hgrow, h, h.none_iff]
  simp only [hlast]
  constructor
  · rintro (⟨hk, hdist⟩ | ⟨rfl, hfar, hstep⟩)
    · exact ⟨Nat.le_succ_of_le hk, hdist⟩
    · exact ⟨Nat.le_refl _, distanceFrom_succ_iff.mpr ⟨hstep, hfar⟩⟩
  · rintro ⟨hk, hdist⟩
    rcases Nat.lt_or_eq_of_le hk with hlt | rfl
    · exact .inl ⟨Nat.le_of_lt_succ hlt, hdist⟩
    · obtain ⟨hstep, hfar⟩ := distanceFrom_succ_iff.mp hdist
      exact .inr ⟨rfl, hfar, hstep⟩

/-- The last layer steps to nothing new exactly when the table has every reachable point. -/
theorem Layered.closed_iff {d : Nat} {table : α → Option Nat} (h : Layered R S d table) :
    (∀ p v, table p = some d → R p v → (table v).isSome) ↔ ∀ v, ReachableFrom R S v → (table v).isSome := by
  constructor
  · intro hclosed v hreach
    obtain ⟨n, hn⟩ := reachableFrom_iff.mp hreach
    have hall : ∀ n v, DistanceFrom R S v n → n ≤ d := by
      intro n
      induction n with
      | zero => exact fun _ _ => Nat.zero_le d
      | succ n ih =>
        intro v hv
        obtain ⟨⟨p, hp, hstep⟩, hfar⟩ := distanceFrom_succ_iff.mp hv
        rcases Nat.lt_or_eq_of_le (ih p hp) with hlt | rfl
        · exact hlt
        · obtain ⟨k, hk⟩ := Option.isSome_iff_exists.mp (hclosed p v ((h p n).mpr ⟨Nat.le_refl n, hp⟩) hstep)
          obtain ⟨hle, hdist⟩ := (h v k).mp hk
          exact absurd hdist (hfar k hle)
    rw [(h v n).mpr ⟨hall n v hn, hn⟩]
    rfl
  · intro hall p v hp hstep
    have hdist := ((h p d).mp hp).2
    obtain ⟨s, hs, hwalk⟩ := hdist.1
    exact hall v ⟨s, hs, (hwalk.snoc hstep).reflTransGen⟩

/-- A table whose last layer is empty holds at every greater depth. -/
theorem Layered.of_empty {d d' : Nat} {table : α → Option Nat} (h : Layered R S d table) (hle : d ≤ d')
    (hempty : ∀ p, table p ≠ some d) : Layered R S d' table := by
  have hclosed := h.closed_iff.mp fun p v hp => absurd hp (hempty p)
  intro v k
  constructor
  · intro hk
    obtain ⟨hkd, hdist⟩ := (h v k).mp hk
    exact ⟨Nat.le_trans hkd hle, hdist⟩
  · rintro ⟨-, hdist⟩
    obtain ⟨j, hj⟩ := Option.isSome_iff_exists.mp (hclosed v (reachableFrom_iff.mpr ⟨k, hdist⟩))
    rw [hj, distanceFrom_unique ((h v j).mp hj).2 hdist]

end Walks

/-!
## Breadth-first search

A queue of nodes with their distances, a set of the nodes seen, and a depth at which nodes are not
expanded any more. The search lists every node within the depth, at its distance.
-/

namespace BreadthFirst

open Walks

variable {α : Type} [DecidableEq α]

structure State (α : Type) where
  visited : Finset α
  queue : List (α × Nat)
  out : List (α × Nat)

/-- Records and enqueues a node seen for the first time. -/
def visit (dist : Nat) (s : State α) (next : α) : State α :=
  if next ∈ s.visited then s
  else { visited := insert next s.visited
         queue := s.queue ++ [(next, dist + 1)]
         out := s.out ++ [(next, dist + 1)] }

/-- One turn of the loop, for the node at the front of the queue. -/
def expand (adj : α → List α) (maxDepth : Nat) (node : α) (dist : Nat) (s : State α) : State α :=
  if maxDepth ≤ dist then s else (adj node).foldl (visit dist) s

/-- `fuel` bounds the turns. -/
def loop (adj : α → List α) (maxDepth : Nat) : Nat → State α → State α
  | 0, s => s
  | fuel + 1, s =>
    match s.queue with
    | [] => s
    | (node, dist) :: rest => loop adj maxDepth fuel (expand adj maxDepth node dist { s with queue := rest })

def start (origin : α) : State α := { visited := {origin}, queue := [(origin, 0)], out := [] }

def search (adj : α → List α) (maxDepth fuel : Nat) (origin : α) : List (α × Nat) :=
  (loop adj maxDepth fuel (start origin)).out

/-! ## The invariant -/

variable {adj : α → List α} {maxDepth : Nat} {origin : α}

/-- The nodes seen, the origin included, with their distances. -/
def recorded (origin : α) (s : State α) : List (α × Nat) := (origin, 0) :: s.out

/-- What every visit keeps. -/
structure Sound (adj : α → List α) (maxDepth : Nat) (origin : α) (s : State α) : Prop where
  visited : ∀ v, v ∈ s.visited ↔ ∃ k, (v, k) ∈ recorded origin s
  nodup : ((recorded origin s).map (·.1)).Nodup
  walks : ∀ v k, (v, k) ∈ recorded origin s → Walk (fun a b => b ∈ adj a) k origin v
  depth : ∀ x ∈ recorded origin s, x.2 ≤ maxDepth
  queued : ∀ x ∈ s.queue, x ∈ recorded origin s
  sorted : s.queue.Pairwise fun x y => x.2 ≤ y.2

/-- The steps out of a node are recorded, no further away than one step. -/
def Settled (adj : α → List α) (maxDepth : Nat) (origin : α) (s : State α) (x : α × Nat) : Prop :=
  x.2 < maxDepth → ∀ w ∈ adj x.1, ∃ j ≤ x.2 + 1, (w, j) ∈ recorded origin s

/-- Between two turns: what left the queue is settled, and the distances seen are at most one above
the front of the queue. -/
structure Inv (adj : α → List α) (maxDepth : Nat) (origin : α) (s : State α) : Prop extends
    Sound adj maxDepth origin s where
  level : ∀ x ∈ s.queue, ∀ y ∈ recorded origin s, y.2 ≤ x.2 + 1
  settled : ∀ x ∈ recorded origin s, x ∉ s.queue → Settled adj maxDepth origin s x

/-- Inside a turn: `front` has left the queue and the steps in `done` are looked at. -/
structure Turn (adj : α → List α) (maxDepth : Nat) (origin : α) (front : α × Nat) (done : List α)
    (s : State α) : Prop extends Sound adj maxDepth origin s where
  front_mem : front ∈ recorded origin s
  low : ∀ x ∈ s.queue, front.2 ≤ x.2
  high : ∀ y ∈ recorded origin s, y.2 ≤ front.2 + 1
  looked : ∀ w ∈ done, ∃ j ≤ front.2 + 1, (w, j) ∈ recorded origin s
  settled : ∀ x ∈ recorded origin s, x ∉ s.queue → x ≠ front → Settled adj maxDepth origin s x

omit [DecidableEq α] in
theorem inv_start : Inv adj maxDepth origin (start origin) where
  visited v := by simp [start, recorded]
  nodup := by simp [start, recorded]
  walks v k h := by
    simp only [recorded, start, List.mem_cons, List.not_mem_nil, or_false, Prod.mk.injEq] at h
    obtain ⟨rfl, rfl⟩ := h
    exact Walk.nil v
  depth := by simp [start, recorded]
  queued := by simp [start, recorded]
  sorted := by simp [start]
  level := by simp [start, recorded]
  settled := by simp [start, recorded]

omit [DecidableEq α] in
theorem turn_of_inv {s : State α} {front : α × Nat} {rest : List (α × Nat)} (h : Inv adj maxDepth origin s)
    (hqueue : s.queue = front :: rest) : Turn adj maxDepth origin front [] { s with queue := rest } := by
  have hsorted := h.sorted
  rw [hqueue, List.pairwise_cons] at hsorted
  have hfront : front ∈ s.queue := hqueue ▸ List.mem_cons_self
  refine ⟨⟨h.visited, h.nodup, h.walks, h.depth, ?_, hsorted.2⟩, h.queued front hfront, hsorted.1,
    h.level front hfront, by simp, ?_⟩
  · exact fun x hx => h.queued x (hqueue ▸ List.mem_cons_of_mem _ hx)
  · intro x hx hout hne
    refine h.settled x hx fun hmem => ?_
    rw [hqueue] at hmem
    rcases List.mem_cons.mp hmem with rfl | hmem
    · exact hne rfl
    · exact hout hmem

/-- The state with a new node at the end of the queue and of the answer. -/
def State.record (s : State α) (x : α × Nat) : State α :=
  { visited := insert x.1 s.visited, queue := s.queue ++ [x], out := s.out ++ [x] }

theorem mem_recorded_record {s : State α} {x y : α × Nat} :
    y ∈ recorded origin (s.record x) ↔ y ∈ recorded origin s ∨ y = x := by
  simp only [recorded, State.record, List.mem_cons, List.mem_append, List.not_mem_nil, or_false, or_assoc]

theorem mem_queue_record {s : State α} {x y : α × Nat} : y ∈ (s.record x).queue ↔ y ∈ s.queue ∨ y = x := by
  simp only [State.record, List.mem_append, List.mem_singleton]

/-- A node is recorded that is new, has a walk to it, and is no nearer than what is in the queue. -/
theorem Sound.record {s : State α} {x : α × Nat} (h : Sound adj maxDepth origin s) (hnew : x.1 ∉ s.visited)
    (hwalk : Walk (fun a b => b ∈ adj a) x.2 origin x.1) (hdepth : x.2 ≤ maxDepth)
    (hlast : ∀ y ∈ s.queue, y.2 ≤ x.2) : Sound adj maxDepth origin (s.record x) := by
  have hfresh : ∀ k, (x.1, k) ∉ recorded origin s := fun k hk => hnew ((h.visited x.1).mpr ⟨k, hk⟩)
  refine ⟨fun v => ?_, ?_, fun v k hk => ?_, fun y hy => ?_, fun y hy => ?_, ?_⟩
  · simp only [State.record, Finset.mem_insert, h.visited]
    constructor
    · rintro (rfl | ⟨k, hk⟩)
      · exact ⟨x.2, mem_recorded_record.mpr (Or.inr rfl)⟩
      · exact ⟨k, mem_recorded_record.mpr (Or.inl hk)⟩
    · rintro ⟨k, hk⟩
      rcases mem_recorded_record.mp hk with hk | rfl
      · exact Or.inr ⟨k, hk⟩
      · exact Or.inl rfl
  · have hnodup := h.nodup
    unfold recorded State.record at *
    rw [← List.cons_append, List.map_append, List.nodup_append]
    refine ⟨hnodup, by simp, ?_⟩
    rintro v hv w hw rfl
    obtain ⟨⟨v, k⟩, hk, rfl⟩ := List.mem_map.mp hv
    simp only [List.map_cons, List.map_nil, List.mem_singleton] at hw
    subst hw
    exact hfresh k hk
  · rcases mem_recorded_record.mp hk with hk | rfl
    · exact h.walks v k hk
    · exact hwalk
  · rcases mem_recorded_record.mp hy with hy | rfl
    · exact h.depth y hy
    · exact hdepth
  · exact mem_recorded_record.mpr ((mem_queue_record.mp hy).imp_left (h.queued y))
  · refine List.pairwise_append.mpr ⟨h.sorted, List.pairwise_singleton _ _, fun y hy z hz => ?_⟩
    rw [List.mem_singleton.mp hz]
    exact hlast y hy

theorem Turn.visit {s : State α} {front : α × Nat} {done : List α} {next : α}
    (h : Turn adj maxDepth origin front done s) (hnext : next ∈ adj front.1) (hdepth : front.2 < maxDepth) :
    Turn adj maxDepth origin front (done ++ [next]) (visit front.2 s next) := by
  unfold BreadthFirst.visit
  split
  · rename_i hseen
    obtain ⟨j, hj⟩ := (h.visited next).mp hseen
    refine ⟨h.toSound, h.front_mem, h.low, h.high, ?_, h.settled⟩
    intro w hw
    rcases List.mem_append.mp hw with hw | hw
    · exact h.looked w hw
    · rw [List.mem_singleton] at hw
      subst hw
      exact ⟨j, h.high _ hj, hj⟩
  · rename_i hnew
    -- The new node goes to the end of the queue, where the distances are the largest.
    have hsound := h.toSound.record (x := (next, front.2 + 1)) hnew ((h.walks _ _ h.front_mem).snoc hnext) hdepth
      fun y hy => h.high y (h.queued y hy)
    refine ⟨hsound, mem_recorded_record.mpr (Or.inl h.front_mem), fun x hx => ?_, fun y hy => ?_, fun w hw => ?_,
      fun x hx hout hne hlt w hw => ?_⟩
    · rcases mem_queue_record.mp hx with hx | rfl
      · exact h.low x hx
      · exact Nat.le_succ _
    · rcases mem_recorded_record.mp hy with hy | rfl
      · exact h.high y hy
      · exact Nat.le_refl _
    · rcases List.mem_append.mp hw with hw | hw
      · obtain ⟨j, hj, hrec⟩ := h.looked w hw
        exact ⟨j, hj, mem_recorded_record.mpr (Or.inl hrec)⟩
      · rw [List.mem_singleton] at hw
        subst hw
        exact ⟨front.2 + 1, Nat.le_refl _, mem_recorded_record.mpr (Or.inr rfl)⟩
    · rcases mem_recorded_record.mp hx with hx | rfl
      · have hqueue : x ∉ s.queue := fun hin => hout (mem_queue_record.mpr (Or.inl hin))
        obtain ⟨j, hj, hrec⟩ := h.settled x hx hqueue hne hlt w hw
        exact ⟨j, hj, mem_recorded_record.mpr (Or.inl hrec)⟩
      · exact absurd (mem_queue_record.mpr (Or.inr rfl)) hout

theorem Turn.visits {s : State α} {front : α × Nat} {done : List α} (nexts : List α)
    (h : Turn adj maxDepth origin front done s) (hnexts : ∀ w ∈ nexts, w ∈ adj front.1)
    (hdepth : front.2 < maxDepth) :
    Turn adj maxDepth origin front (done ++ nexts) (nexts.foldl (BreadthFirst.visit front.2) s) := by
  induction nexts generalizing s done with
  | nil => simpa using h
  | cons next nexts ih =>
    have hvisited := h.visit (hnexts next List.mem_cons_self) hdepth
    have hrest := ih hvisited fun w hw => hnexts w (List.mem_cons_of_mem _ hw)
    rwa [List.append_assoc, List.singleton_append] at hrest

theorem Turn.inv {s : State α} {front : α × Nat} {done : List α} (h : Turn adj maxDepth origin front done s)
    (hfront : Settled adj maxDepth origin s front) : Inv adj maxDepth origin s := by
  refine ⟨h.toSound, ?_, ?_⟩
  · intro x hx y hy
    exact (h.high y hy).trans (Nat.succ_le_succ (h.low x hx))
  · intro x hx hout
    by_cases hne : x = front
    · exact hne ▸ hfront
    · exact h.settled x hx hout hne

theorem inv_expand {s : State α} {front : α × Nat} {rest : List (α × Nat)} (h : Inv adj maxDepth origin s)
    (hqueue : s.queue = front :: rest) :
    Inv adj maxDepth origin (expand adj maxDepth front.1 front.2 { s with queue := rest }) := by
  have hturn := turn_of_inv h hqueue
  unfold expand
  split
  · rename_i hdeep
    exact hturn.inv fun hlt => absurd hlt (Nat.not_lt.mpr hdeep)
  · rename_i hdeep
    have hdone := hturn.visits (adj front.1) (fun w hw => hw) (Nat.lt_of_not_le hdeep)
    exact hdone.inv fun _ => hdone.looked

theorem inv_loop (fuel : Nat) {s : State α} (h : Inv adj maxDepth origin s) :
    Inv adj maxDepth origin (loop adj maxDepth fuel s) := by
  induction fuel generalizing s with
  | zero => exact h
  | succ fuel ih =>
    unfold loop
    split
    · exact h
    · rename_i node dist rest hqueue
      exact ih (inv_expand h hqueue)

/-! ## The fuel -/

/-- A visit adds as many nodes to the queue as to the set. -/
structure Within (U : Finset α) (n : Nat) (s : State α) : Prop where
  inside : s.visited ⊆ U
  queued : s.queue.length + U.card ≤ n + s.visited.card

theorem Within.visits {U : Finset α} {n dist : Nat} (nexts : List α) {s : State α} (h : Within U n s)
    (hU : ∀ w ∈ nexts, w ∈ U) : Within U n (nexts.foldl (visit dist) s) := by
  induction nexts generalizing s with
  | nil => exact h
  | cons next nexts ih =>
    refine ih ?_ fun w hw => hU w (List.mem_cons_of_mem _ hw)
    unfold visit
    split
    · exact h
    · rename_i hnew
      refine ⟨Finset.insert_subset (hU next List.mem_cons_self) h.inside, ?_⟩
      have hqueued := h.queued
      rw [Finset.card_insert_of_notMem hnew, List.length_append, List.length_singleton]
      omega

theorem Within.expand {U : Finset α} {n : Nat} {s : State α} {front : α × Nat} {rest : List (α × Nat)}
    (h : Within U (n + 1) s) (hqueue : s.queue = front :: rest) (hU : ∀ w ∈ adj front.1, w ∈ U) :
    Within U n (expand adj maxDepth front.1 front.2 { s with queue := rest }) := by
  have hrest : Within U n { s with queue := rest } := by
    have hqueued := h.queued
    rw [hqueue, List.length_cons] at hqueued
    exact ⟨h.inside, show rest.length + U.card ≤ n + s.visited.card by omega⟩
  unfold BreadthFirst.expand
  split
  · exact hrest
  · exact hrest.visits _ hU

/-- Every turn takes a node off the queue, and no node enters it twice. -/
theorem queue_loop {U : Finset α} (hU : ∀ v ∈ U, ∀ w ∈ adj v, w ∈ U) (fuel : Nat) {s : State α}
    (hinv : Inv adj maxDepth origin s) (h : Within U fuel s) : (loop adj maxDepth fuel s).queue = [] := by
  induction fuel generalizing s with
  | zero =>
    have hcard := Finset.card_le_card h.inside
    have hqueued := h.queued
    exact List.length_eq_zero_iff.mp (show s.queue.length = 0 by omega)
  | succ fuel ih =>
    unfold loop
    split
    · rename_i hqueue
      exact hqueue
    · rename_i node dist rest hqueue
      have hfront : node ∈ U :=
        h.inside ((hinv.visited node).mpr ⟨dist, hinv.queued _ (hqueue ▸ List.mem_cons_self)⟩)
      exact ih (inv_expand hinv hqueue) (h.expand hqueue (hU node hfront))

/-! ## The search is exact -/

omit [DecidableEq α] in
theorem Inv.reaches {s : State α} (h : Inv adj maxDepth origin s) (hqueue : s.queue = []) {n : Nat} {v : α}
    (hwalk : Walk (fun a b => b ∈ adj a) n origin v) (hn : n ≤ maxDepth) :
    ∃ j ≤ n, (v, j) ∈ recorded origin s := by
  induction n generalizing v with
  | zero =>
    rw [Walk.zero_iff] at hwalk
    subst hwalk
    exact ⟨0, Nat.le_refl 0, List.mem_cons_self⟩
  | succ n ih =>
    obtain ⟨u, hu, hstep⟩ := Walk.succ_iff.mp hwalk
    obtain ⟨j, hj, hrec⟩ := ih hu (by omega)
    have hsettled := h.settled (u, j) hrec (by rw [hqueue]; exact List.not_mem_nil)
    obtain ⟨i, hi, hrec⟩ := hsettled (Nat.lt_of_le_of_lt hj hn) v hstep
    exact ⟨i, hi.trans (Nat.succ_le_succ hj), hrec⟩

/-- Nothing is left in the queue when the fuel is as much as the nodes. -/
theorem queue_search {U : Finset α} (horigin : origin ∈ U) (hU : ∀ v ∈ U, ∀ w ∈ adj v, w ∈ U) {fuel : Nat}
    (hfuel : U.card ≤ fuel) : (loop adj maxDepth fuel (start origin)).queue = [] := by
  have hwithin : Within U fuel (start origin) := by
    refine ⟨Finset.singleton_subset_iff.mpr horigin, ?_⟩
    simp only [start, List.length_singleton, Finset.card_singleton]
    omega
  exact queue_loop hU fuel inv_start hwithin

/-- The nodes listed are those within the depth, each at its distance and once. -/
theorem search_exact {U : Finset α} (horigin : origin ∈ U) (hU : ∀ v ∈ U, ∀ w ∈ adj v, w ∈ U) {fuel : Nat}
    (hfuel : U.card ≤ fuel) :
    ((search adj maxDepth fuel origin).map (·.1)).Nodup ∧ ∀ v k, (v, k) ∈ search adj maxDepth fuel origin ↔
      v ≠ origin ∧ k ≤ maxDepth ∧ Distance (fun a b => b ∈ adj a) origin v k := by
  have hinv : Inv adj maxDepth origin (loop adj maxDepth fuel (start origin)) := inv_loop fuel inv_start
  have hqueue := @queue_search _ _ adj maxDepth origin U horigin hU fuel hfuel
  have hnodup := hinv.nodup
  unfold recorded at hnodup
  rw [List.map_cons, List.nodup_cons] at hnodup
  have honce : ∀ v j k, (v, j) ∈ recorded origin (loop adj maxDepth fuel (start origin)) →
      (v, k) ∈ recorded origin (loop adj maxDepth fuel (start origin)) → j = k := by
    intro v j k hj hk
    have heq := List.inj_on_of_nodup_map hinv.nodup hj hk rfl
    exact (Prod.mk.inj heq).2
  refine ⟨hnodup.2, fun v k => ⟨fun hmem => ?_, ?_⟩⟩
  · have hrec : (v, k) ∈ recorded origin (loop adj maxDepth fuel (start origin)) := List.mem_cons_of_mem _ hmem
    refine ⟨?_, hinv.depth _ hrec, hinv.walks v k hrec, ?_⟩
    · rintro rfl
      exact hnodup.1 (List.mem_map.mpr ⟨_, hmem, rfl⟩)
    · intro j hj hwalk
      have hdepth : k ≤ maxDepth := hinv.depth _ hrec
      obtain ⟨i, hi, hother⟩ := hinv.reaches hqueue hwalk (by omega)
      have := honce v k i hrec hother
      omega
  · rintro ⟨hne, hk, hdist⟩
    obtain ⟨j, hj, hrec⟩ := hinv.reaches hqueue hdist.1 hk
    have hjk : j = k := by
      by_contra hjk
      exact hdist.2 j (Nat.lt_of_le_of_ne hj hjk) (hinv.walks v j hrec)
    subst hjk
    rcases List.mem_cons.mp hrec with heq | hmem
    · exact absurd (Prod.mk.inj heq).1 hne
    · exact hmem

end BreadthFirst
