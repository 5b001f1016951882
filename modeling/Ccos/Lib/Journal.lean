import Mathlib.Data.List.Nodup

/-!
# Journals with an index

Events are only appended, each under a key of its own and after the events it needs. An index that
tells which keys are in the journal lets a writer keep both rules without reading the journal.
-/

namespace Journal

variable {E K : Type} (key : E → K) (needs : E → List K)

/-- Every event is allowed after the events before it. -/
def Guarded (allows : List E → E → Prop) (log : List E) : Prop :=
  ∀ pre e post, log = pre ++ e :: post → allows pre e

/-- Every event comes after the events it needs. -/
def Ordered (log : List E) : Prop := ∀ pre e post, log = pre ++ e :: post → ∀ k ∈ needs e, k ∈ pre.map key

/-- The journal keeps its rules, and `index` holds of the keys in it. -/
structure Indexed (index : K → Prop) (log : List E) : Prop where
  mirrors : ∀ k, index k ↔ k ∈ log.map key
  once : (log.map key).Nodup
  ordered : Ordered key needs log

variable {key needs}

theorem Indexed.nil : Indexed key needs (fun _ => False) [] :=
  ⟨fun _ => by simp, List.nodup_nil, fun pre e post h => by simp at h⟩

theorem guarded_nil {allows : List E → E → Prop} : Guarded allows [] := fun pre e post h => by simp at h

/-- The rule for a write: the log allows the new event. -/
theorem guarded_append_iff {allows : List E → E → Prop} {log : List E} {e : E} :
    Guarded allows (log ++ [e]) ↔ Guarded allows log ∧ allows log e := by
  constructor
  · refine fun h => ⟨fun pre e' post heq => h pre e' (post ++ [e]) ?_, h log e [] rfl⟩
    rw [heq, List.append_assoc, List.cons_append]
  · rintro ⟨h, he⟩ pre e' post heq
    rcases List.eq_nil_or_concat post with rfl | ⟨post, last, rfl⟩
    · obtain ⟨rfl, htail⟩ := List.append_inj' heq rfl
      obtain rfl := (List.cons.inj htail).1
      exact he
    · rw [List.concat_eq_append, ← List.cons_append, ← List.append_assoc] at heq
      exact h pre e' post (List.append_inj' heq rfl).1

theorem Ordered.append {log : List E} (h : Ordered key needs log) {e : E} (he : ∀ k ∈ needs e, k ∈ log.map key) :
    Ordered key needs (log ++ [e]) :=
  (guarded_append_iff : Guarded (fun pre e => ∀ k ∈ needs e, k ∈ pre.map key) _ ↔ _).mpr ⟨h, he⟩

/-- The rule for an indexed write: the key is new to the index, and what the event needs is in it. -/
theorem Indexed.append {index index' : K → Prop} {log : List E} (h : Indexed key needs index log) {e : E}
    (fresh : ¬ index (key e)) (he : ∀ k ∈ needs e, index k) (hindex : ∀ k, index' k ↔ k = key e ∨ index k) :
    Indexed key needs index' (log ++ [e]) := by
  refine ⟨fun k => ?_, ?_, h.ordered.append fun k hk => (h.mirrors k).mp (he k hk)⟩
  · rw [hindex, h.mirrors, List.map_append, List.map_singleton, List.mem_append, List.mem_singleton, or_comm]
  · rw [List.map_append, List.map_singleton]
    refine List.nodup_append.mpr ⟨h.once, List.nodup_singleton _, fun a ha b hb => ?_⟩
    obtain rfl := List.mem_singleton.mp hb
    rintro rfl
    exact fresh ((h.mirrors _).mpr ha)

/-- An event that is needed was written before. -/
theorem Indexed.exists_before {index : K → Prop} {log pre post : List E} {e : E} (h : Indexed key needs index log)
    (heq : log = pre ++ e :: post) {k : K} (hk : k ∈ needs e) : ∃ e' ∈ pre, key e' = k :=
  List.mem_map.mp (h.ordered pre e post heq k hk)

/-! ## Numbered journals -/

section

variable {seq : E → Nat}

/-- The events are numbered one after the other from `n` on. -/
def Numbered (seq : E → Nat) (n : Nat) (log : List E) : Prop := log.map seq = List.range' n log.length

theorem Numbered.nil {n : Nat} : Numbered seq n [] := rfl

theorem numbered_cons {n : Nat} {e : E} {log : List E} :
    Numbered seq n (e :: log) ↔ seq e = n ∧ Numbered seq (n + 1) log := by
  rw [Numbered, List.map_cons, List.length_cons, List.range'_succ, List.cons.injEq, Numbered]

theorem Numbered.drop {n : Nat} {log : List E} (h : Numbered seq n log) (i : Nat) :
    Numbered seq (n + i) (log.drop i) := by
  rw [Numbered, List.map_drop, h, List.drop_range', List.length_drop, Nat.mul_one]

theorem Numbered.take {n : Nat} {log : List E} (h : Numbered seq n log) (i : Nat) : Numbered seq n (log.take i) := by
  rw [Numbered, List.map_take, h, List.length_take]
  rcases Nat.le_total i log.length with hi | hi
  · rw [Nat.min_eq_left hi, List.take_range'_of_length_ge hi]
  · rw [Nat.min_eq_right hi, List.take_range'_of_length_le hi]

/-- Of a numbered journal, the events after number `k` are its rest. -/
theorem Numbered.filter_lt {n : Nat} {log : List E} (h : Numbered seq n log) (k : Nat) :
    log.filter (fun e => k < seq e) = log.drop (k + 1 - n) := by
  induction log generalizing n with
  | nil => simp
  | cons e log ih =>
    obtain ⟨rfl, hrest⟩ := numbered_cons.mp h
    rw [List.filter_cons, ih hrest]
    by_cases hk : k < seq e
    · rw [if_pos (decide_eq_true hk), show k + 1 - (seq e + 1) = 0 by omega, show k + 1 - seq e = 0 by omega,
        List.drop_zero, List.drop_zero]
    · rw [if_neg (by simpa using hk), show k + 1 - seq e = k + 1 - (seq e + 1) + 1 by omega, List.drop_succ_cons]

/-- What follows the first `k` events in a longer prefix. -/
theorem take_append_drop_take (log : List E) (k n : Nat) :
    log.take k ++ (log.take n).drop k = log.take (k + ((log.take n).drop k).length) := by
  have hlength : (log.drop k).take (min (n - k) (log.length - k)) = (log.drop k).take (n - k) := by
    rw [← List.length_drop, ← List.take_eq_take_min]
  rw [List.take_add, List.drop_take, List.length_take, List.length_drop, hlength]

end

end Journal
