import Mathlib.Data.Multiset.Sort
import Mathlib.Algebra.Order.Group.Multiset

/-!
# The nearest of a collection

Which of the items seen so far a bounded search may keep: as many as it has room for, and none farther
than one it has left out.
-/

namespace Nearest

variable {α D : Type} [LinearOrder D] {key : α → D}

/-- `best` holds the `k` nearest of what was seen. -/
structure Holds (key : α → D) (k : Nat) (seen best : Multiset α) : Prop where
  card : best.card = min k seen.card
  nearest : ∃ rest, seen = best + rest ∧ ∀ x ∈ rest, ∀ y ∈ best, key y ≤ key x

namespace Holds

variable {k : Nat} {seen best : Multiset α}

theorem empty (key : α → D) (k : Nat) : Holds key k 0 0 := by
  refine ⟨by simp, 0, rfl, ?_⟩
  intro x hx
  exact absurd hx (Multiset.notMem_zero x)

theorem le (h : Holds key k seen best) : best ≤ seen := by
  obtain ⟨rest, rfl, -⟩ := h.nearest
  exact Multiset.le_add_right best rest

/-- With room left, everything seen is held. -/
theorem eq_of_card_lt (h : Holds key k seen best) (hroom : best.card < k) : best = seen := by
  have hcard := h.card
  apply Multiset.eq_of_le_of_card_le h.le
  omega

theorem push (h : Holds key k seen best) (hroom : best.card < k) (x : α) : Holds key k (x ::ₘ seen) (x ::ₘ best) := by
  obtain rfl := h.eq_of_card_lt hroom
  refine ⟨?_, 0, (add_zero _).symm, ?_⟩
  · rw [Multiset.card_cons, min_eq_right hroom]
  · intro y hy
    exact absurd hy (Multiset.notMem_zero y)

/-- What is no nearer than anything held may be passed over. -/
theorem skip (h : Holds key k seen best) (hfull : k ≤ best.card) {more : Multiset α}
    (hfar : ∀ x ∈ more, ∀ y ∈ best, key y ≤ key x) : Holds key k (more + seen) best := by
  have hcard := h.card
  obtain ⟨rest, rfl, hrest⟩ := h.nearest
  refine ⟨?_, more + rest, by rw [add_left_comm], ?_⟩
  · rw [Multiset.card_add] at hcard ⊢
    rw [Multiset.card_add]
    omega
  · intro x hx
    rcases Multiset.mem_add.mp hx with hx | hx
    · exact hfar x hx
    · exact hrest x hx

/-- A nearer item takes the place of the farthest one. -/
theorem replace {x far : α} (h : Holds key k seen (far ::ₘ best)) (hfull : k ≤ best.card + 1)
    (hmax : ∀ y ∈ best, key y ≤ key far) (hnear : key x < key far) : Holds key k (x ::ₘ seen) (x ::ₘ best) := by
  have hcard := h.card
  obtain ⟨rest, rfl, hrest⟩ := h.nearest
  refine ⟨?_, far ::ₘ rest, ?_, ?_⟩
  · simp only [Multiset.card_cons, Multiset.card_add] at hcard ⊢
    omega
  · rw [Multiset.cons_add, Multiset.cons_add, Multiset.add_cons]
  · have hbelow : ∀ y ∈ x ::ₘ best, key y ≤ key far := by
      intro y hy
      rcases Multiset.mem_cons.mp hy with rfl | hy
      · exact hnear.le
      · exact hmax y hy
    intro z hz y hy
    rcases Multiset.mem_cons.mp hz with rfl | hz
    · exact hbelow y hy
    · exact (hbelow y hy).trans (hrest z hz far (Multiset.mem_cons_self far best))

/-- The distances of what is held are the first `k` distances. -/
theorem sort_map_key (h : Holds key k seen best) :
    (best.map key).sort (· ≤ ·) = ((seen.map key).sort (· ≤ ·)).take k := by
  have hcard := h.card
  obtain ⟨rest, rfl, hrest⟩ := h.nearest
  have hsplit : ((best + rest).map key).sort (· ≤ ·) =
      (best.map key).sort (· ≤ ·) ++ (rest.map key).sort (· ≤ ·) := by
    apply List.Perm.eq_of_pairwise (fun a b _ _ => le_antisymm) (Multiset.pairwise_sort _ _)
    · refine List.pairwise_append.mpr ⟨Multiset.pairwise_sort _ _, Multiset.pairwise_sort _ _, ?_⟩
      intro a ha b hb
      rw [Multiset.mem_sort] at ha hb
      obtain ⟨y, hy, rfl⟩ := Multiset.mem_map.mp ha
      obtain ⟨x, hx, rfl⟩ := Multiset.mem_map.mp hb
      exact hrest x hx y hy
    · rw [← Multiset.coe_eq_coe, ← Multiset.coe_add, Multiset.sort_eq, Multiset.sort_eq, Multiset.sort_eq,
        Multiset.map_add]
  rw [hsplit, List.take_append]
  rw [Multiset.card_add] at hcard
  have hlen : ((best.map key).sort (· ≤ ·)).length = best.card := by
    rw [Multiset.length_sort, Multiset.card_map]
  by_cases hall : rest = 0
  · rw [hall, List.take_of_length_le]
    · simp
    · rw [hlen]
      omega
  · have hpos : 0 < rest.card := Multiset.card_pos.mpr hall
    have hk : best.card = k := by omega
    rw [List.take_of_length_le (by omega), hlen, hk, Nat.sub_self, List.take_zero, List.append_nil]

/-- Two searches over the same items hold the same distances. -/
theorem map_key_eq {best' : Multiset α} (h : Holds key k seen best) (h' : Holds key k seen best') :
    best.map key = best'.map key := by
  have hsort := h.sort_map_key.trans h'.sort_map_key.symm
  rw [← Multiset.sort_eq (best.map key) (· ≤ ·), hsort, Multiset.sort_eq]

end Holds

end Nearest
