import Mathlib.Data.List.Count

/-!
# Depth

The depth of an element is the length of the longest chain above it, for a relation that is a strict order.
-/

namespace Depth

variable {α β : Type}

/-- The longest chain above `a`, of `n` elements at most. -/
def within (dom : α → α → Bool) (l : List α) : Nat → α → Nat
  | 0, _ => 0
  | n + 1, a => ((l.filter (dom · a)).map fun b => within dom l n b + 1).foldr max 0

def depth (dom : α → α → Bool) (l : List α) (a : α) : Nat := within dom l l.length a

/-! ## The greatest of a list -/

theorem le_foldr_max {l : List Nat} {x : Nat} (h : x ∈ l) : x ≤ l.foldr max 0 := by
  induction l with
  | nil => cases h
  | cons y l ih =>
    rcases List.mem_cons.mp h with rfl | h
    · exact Nat.le_max_left _ _
    · exact Nat.le_trans (ih h) (Nat.le_max_right _ _)

theorem mem_of_foldr_max {l : List Nat} {x : Nat} (h : l.foldr max 0 = x + 1) : x + 1 ∈ l := by
  induction l with
  | nil => cases h
  | cons y l ih =>
    rcases Nat.le_total y (l.foldr max 0) with hle | hle
    · exact List.mem_cons_of_mem _ (ih ((Nat.max_eq_right hle).symm.trans h))
    · exact List.mem_cons.mpr (.inl (((Nat.max_eq_left hle).symm.trans h).symm))

theorem foldr_max_le {l : List Nat} {n : Nat} (h : ∀ x ∈ l, x ≤ n) : l.foldr max 0 ≤ n := by
  induction l with
  | nil => exact Nat.zero_le n
  | cons y l ih =>
    obtain ⟨hy, hl⟩ := List.forall_mem_cons.mp h
    exact Nat.max_le.mpr ⟨hy, ih hl⟩

/-! ## Chains -/

section

variable {dom : α → α → Bool} {l : List α}

theorem within_le (n : Nat) (a : α) : within dom l n a ≤ n := by
  induction n generalizing a with
  | zero => exact Nat.le_refl 0
  | succ n ih =>
    refine foldr_max_le fun x hx => ?_
    obtain ⟨b, -, rfl⟩ := List.mem_map.mp hx
    exact Nat.succ_le_succ (ih b)

theorem depth_le (a : α) : depth dom l a ≤ l.length := within_le _ a

variable (hirrefl : ∀ a, dom a a = false) (htrans : ∀ a b c, dom a b = true → dom b c = true → dom a c = true)

include hirrefl htrans

/-- What is above `b` is above `a` too, and so is `b`. -/
theorem countP_above_lt {a b : α} (hb : b ∈ l) (h : dom b a = true) : l.countP (dom · b) < l.countP (dom · a) := by
  have hsplit : l.countP (dom · a) = l.countP (fun c => dom c b) + l.countP fun c => dom c a && !dom c b := by
    rw [List.countP_eq_countP_filter_add l (dom · a) (dom · b), List.countP_filter, List.countP_filter]
    refine congrArg₂ (· + ·) (List.countP_congr fun c _ => ?_) (List.countP_congr fun c _ => ?_)
    · rw [Bool.and_eq_true]
      exact ⟨fun hc => hc.2, fun hc => ⟨htrans c b a hc h, hc⟩⟩
    · simp
  have hself : 0 < l.countP fun c => dom c a && !dom c b :=
    List.countP_pos_iff.mpr ⟨b, hb, by rw [h, hirrefl]; rfl⟩
  omega

theorem within_eq {n m : Nat} {a : α} (hn : l.countP (dom · a) ≤ n) (hm : l.countP (dom · a) ≤ m) :
    within dom l n a = within dom l m a := by
  have hnone : ∀ k a, l.countP (dom · a) = 0 → within dom l k a = 0 := by
    intro k a h
    cases k with
    | zero => rfl
    | succ k =>
      have hnil : l.filter (dom · a) = [] := List.filter_eq_nil_iff.mpr (List.countP_eq_zero.mp h)
      rw [within, hnil]
      rfl
  induction n generalizing m a with
  | zero => rw [hnone 0 a (by omega), hnone m a (by omega)]
  | succ n ih =>
    cases m with
    | zero => rw [hnone (n + 1) a (by omega), hnone 0 a (by omega)]
    | succ m =>
      rw [within, within]
      refine congrArg (List.foldr max 0) (List.map_congr_left fun b hb => ?_)
      obtain ⟨hb, hdom⟩ := List.mem_filter.mp hb
      have hless := countP_above_lt hirrefl htrans hb hdom
      rw [ih (by omega) (by omega : _ ≤ m)]

theorem depth_eq (a : α) :
    depth dom l a = ((l.filter (dom · a)).map fun b => depth dom l b + 1).foldr max 0 :=
  within_eq hirrefl htrans (m := l.length + 1) List.countP_le_length (Nat.le_succ_of_le List.countP_le_length)

theorem depth_lt {a b : α} (hb : b ∈ l) (h : dom b a = true) : depth dom l b < depth dom l a := by
  rw [depth_eq hirrefl htrans a]
  exact le_foldr_max (List.mem_map.mpr ⟨b, List.mem_filter.mpr ⟨hb, h⟩, rfl⟩)

theorem exists_of_depth_succ {a : α} {k : Nat} (h : depth dom l a = k + 1) :
    ∃ b ∈ l, dom b a = true ∧ depth dom l b = k := by
  rw [depth_eq hirrefl htrans a] at h
  obtain ⟨b, hb, hdepth⟩ := List.mem_map.mp (mem_of_foldr_max h)
  obtain ⟨hb, hdom⟩ := List.mem_filter.mp hb
  exact ⟨b, hb, hdom, Nat.succ_inj.mp hdepth⟩

/-- Every depth above that of `a` is the depth of something above `a`. -/
theorem exists_of_lt_depth {a : α} {k : Nat} (h : k < depth dom l a) :
    ∃ b ∈ l, dom b a = true ∧ depth dom l b = k := by
  obtain ⟨d, hd⟩ : ∃ d, depth dom l a = d := ⟨_, rfl⟩
  induction d generalizing a with
  | zero => omega
  | succ d ih =>
    obtain ⟨b, hb, hdom, hdepth⟩ := exists_of_depth_succ hirrefl htrans hd
    rcases Nat.lt_succ_iff_lt_or_eq.mp (hd ▸ h) with hlt | rfl
    · obtain ⟨c, hc, hcb, hk⟩ := ih (hdepth ▸ hlt) hdepth
      exact ⟨c, hc, htrans c b a hcb hdom, hk⟩
    · exact ⟨b, hb, hdom, hdepth⟩

theorem depth_eq_zero_iff {a : α} : depth dom l a = 0 ↔ ∀ b ∈ l, dom b a = false := by
  constructor
  · intro h b hb
    by_contra hdom
    exact absurd (depth_lt hirrefl htrans hb (by simpa using hdom)) (by omega)
  · intro h
    by_contra hpos
    obtain ⟨b, hb, hdom, -⟩ := exists_of_lt_depth hirrefl htrans (Nat.pos_of_ne_zero hpos)
    rw [h b hb] at hdom
    cases hdom

end

/-- Depth is in the values. -/
theorem depth_map (dom : β → β → Bool) (f : α → β) (l : List α) (a : α) :
    depth dom (l.map f) (f a) = depth (fun x y => dom (f x) (f y)) l a := by
  have hwithin : ∀ n a, within dom (l.map f) n (f a) = within (fun x y => dom (f x) (f y)) l n a := by
    intro n
    induction n with
    | zero => intro a; rfl
    | succ n ih =>
      intro a
      rw [within, within, List.filter_map, List.map_map]
      exact congrArg (List.foldr max 0) (List.map_congr_left fun b _ => congrArg (· + 1) (ih b))
  rw [depth, depth, List.length_map, hwithin]

end Depth
