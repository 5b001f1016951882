import Mathlib.Data.List.Basic
import Mathlib.Data.List.Induction
import Mathlib.Data.List.Nodup
import Mathlib.Tactic.Linarith

/-!
# Chains of links and copies of their prefixes

A chain gives every element of a log a link that depends on the link before it and on the position.
A copy of a log grows by grafting slices onto it. Copies of one log that hold a prefix each stay
prefixes.
-/

namespace HashChain

variable {H O : Type} (link : H → Nat → O → H)

/-- The links of consecutive elements, from the link before the first. -/
def linksOf : H → Nat → List O → List H
  | _, _, [] => []
  | prev, seq, op :: ops => link prev seq op :: linksOf (link prev seq op) (seq + 1) ops

/-- The link before the next element. -/
def head (prev : H) (chain : List H) : H := chain.getLast?.getD prev

section

variable {link}

@[simp] theorem linksOf_nil (prev : H) (seq : Nat) : linksOf link prev seq [] = [] := rfl

@[simp] theorem length_linksOf (prev : H) (seq : Nat) (ops : List O) :
    (linksOf link prev seq ops).length = ops.length := by
  induction ops generalizing prev seq with
  | nil => rfl
  | cons op ops ih => simp only [linksOf, List.length_cons, ih]

theorem head_cons (prev l : H) (chain : List H) : head prev (l :: chain) = head l chain := by
  cases chain with
  | nil => rfl
  | cons l' chain => simp only [head, List.getLast?_cons, Option.getD_some]

/-- The head of a chain is that of its rest, from the head of its start. -/
theorem head_head (prev : H) (chain later : List H) :
    head (head prev chain) later = head prev (chain ++ later) := by
  rw [head, head, head, List.getLast?_append]
  cases later.getLast? <;> rfl

theorem linksOf_append (prev : H) (seq : Nat) (ops later : List O) :
    linksOf link prev seq (ops ++ later) =
      linksOf link prev seq ops ++
        linksOf link (head prev (linksOf link prev seq ops)) (seq + ops.length) later := by
  induction ops generalizing prev seq with
  | nil => rfl
  | cons op ops ih =>
    simp only [List.cons_append, linksOf, ih, head_cons, List.length_cons]
    rw [show seq + 1 + ops.length = seq + (ops.length + 1) by omega]

theorem linksOf_snoc (prev : H) (seq : Nat) (ops : List O) (op : O) :
    linksOf link prev seq (ops ++ [op]) = linksOf link prev seq ops ++
      [link (head prev (linksOf link prev seq ops)) (seq + ops.length) op] := by
  rw [linksOf_append]
  rfl

theorem linksOf_prefix {prev : H} {seq : Nat} {ops longer : List O} (h : ops <+: longer) :
    linksOf link prev seq ops <+: linksOf link prev seq longer := by
  obtain ⟨later, rfl⟩ := h
  rw [linksOf_append]
  exact List.prefix_append _ _

/-- The rest of a chain is the chain of the rest, from the last link that was dropped. -/
theorem drop_linksOf (prev : H) (seq : Nat) {n : Nat} (ops : List O) (hn : n ≤ ops.length) :
    (linksOf link prev seq ops).drop n =
      linksOf link (head prev (linksOf link prev seq (ops.take n))) (seq + n) (ops.drop n) := by
  have hlen : (linksOf link prev seq (ops.take n)).length = n := by
    rw [length_linksOf, List.length_take, Nat.min_eq_left hn]
  have hsplit : linksOf link prev seq ops = linksOf link prev seq (ops.take n) ++
      linksOf link (head prev (linksOf link prev seq (ops.take n))) (seq + n) (ops.drop n) := by
    conv_lhs => rw [← List.take_append_drop n ops]
    rw [linksOf_append, List.length_take, Nat.min_eq_left hn]
  rw [hsplit, List.drop_append_of_le_length hlen.ge, List.drop_of_length_le hlen.le, List.nil_append]

/-- The link before step `n` is the one at `n - 1`. -/
theorem head_take (prev : H) (chain : List H) {n : Nat} (hpos : 0 < n) (hn : n ≤ chain.length) :
    some (head prev (chain.take n)) = chain[n - 1]? := by
  have hlt : n - 1 < (chain.take n).length := by
    rw [List.length_take]
    omega
  rw [head, List.getLast?_eq_getElem?, List.length_take, Nat.min_eq_left hn,
    List.getElem?_eq_getElem hlt, Option.getD_some, List.getElem_take, List.getElem?_eq_getElem]

theorem take_linksOf (prev : H) (seq n : Nat) (ops : List O) :
    (linksOf link prev seq ops).take n = linksOf link prev seq (ops.take n) := by
  have hpre : linksOf link prev seq (ops.take n) <+: linksOf link prev seq ops :=
    linksOf_prefix (List.take_prefix n ops)
  rw [List.prefix_iff_eq_take, length_linksOf, List.length_take] at hpre
  rw [hpre]
  by_cases hn : n ≤ ops.length
  · rw [Nat.min_eq_left hn]
  · rw [Nat.min_eq_right (by omega), List.take_of_length_le (by rw [length_linksOf]; omega),
      List.take_of_length_le (by rw [length_linksOf])]

end

/-! ## What a head commits to -/

section

variable {link}

/-- Links of links that satisfy `Good` collide with nothing, and no link is the start of the chain. -/
structure Committing (link : H → Nat → O → H) (Good : H → Prop) (start : H) : Prop where
  good_start : Good start
  good_link : ∀ prev seq op, Good (link prev seq op)
  injective : ∀ {prev prev' seq seq' op op'}, Good prev → Good prev' →
    link prev seq op = link prev' seq' op' → prev = prev' ∧ op = op'
  ne_start : ∀ prev seq op, link prev seq op ≠ start

variable {Good : H → Prop} {start : H}

@[simp] theorem head_nil (prev : H) : head prev [] = prev := rfl

@[simp] theorem head_snoc (prev : H) (chain : List H) (l : H) : head prev (chain ++ [l]) = l := by
  rw [head, List.getLast?_append, List.getLast?_singleton, Option.some_or, Option.getD_some]

theorem Committing.good_head (h : Committing link Good start) (seq : Nat) (ops : List O) :
    Good (head start (linksOf link start seq ops)) := by
  induction ops using List.reverseRecOn with
  | nil => exact h.good_start
  | append_singleton ops op _ =>
    rw [linksOf_snoc, head_snoc]
    exact h.good_link _ _ _

/-- Two logs with one head are one log. The walk goes back from the heads: the links before equal
links are equal, and the start of the chain ends both walks at once. -/
theorem Committing.eq_of_head_eq (h : Committing link Good start) {seq seq' : Nat} {ops ops' : List O}
    (heq : head start (linksOf link start seq ops) = head start (linksOf link start seq' ops')) :
    ops = ops' := by
  induction ops using List.reverseRecOn generalizing ops' with
  | nil =>
    cases ops' using List.reverseRecOn with
    | nil => rfl
    | append_singleton ops' op' =>
      rw [linksOf_snoc, head_snoc] at heq
      exact absurd heq.symm (h.ne_start _ _ _)
  | append_singleton ops op ih =>
    cases ops' using List.reverseRecOn with
    | nil =>
      rw [linksOf_snoc, head_snoc] at heq
      exact absurd heq (h.ne_start _ _ _)
    | append_singleton ops' op' =>
      rw [linksOf_snoc, linksOf_snoc, head_snoc, head_snoc] at heq
      obtain ⟨hprev, rfl⟩ := h.injective (h.good_head seq ops) (h.good_head seq' ops') heq
      rw [ih hprev]

/-- No link occurs twice in a chain. -/
theorem Committing.nodup (h : Committing link Good start) (seq : Nat) (ops : List O) :
    (linksOf link start seq ops).Nodup := by
  rw [List.nodup_iff_getElem?_ne_getElem?]
  intro i j hij hj heq
  rw [length_linksOf] at hj
  have hlen : (linksOf link start seq ops).length = ops.length := length_linksOf start seq ops
  have hi := head_take start (linksOf link start seq ops) (n := i + 1) (by omega) (by omega)
  have hj' := head_take start (linksOf link start seq ops) (n := j + 1) (by omega) (by omega)
  rw [take_linksOf, Nat.add_sub_cancel] at hi hj'
  have hops := h.eq_of_head_eq (Option.some.inj ((hi.trans heq).trans hj'.symm))
  have hcount := congrArg List.length hops
  simp only [List.length_take] at hcount
  omega

end

/-! ## Grafting a slice onto a copy -/

section

variable {α : Type}

theorem getElem?_of_prefix {shorter longer : List α} {i : Nat} {a : α} (h : shorter <+: longer)
    (ha : shorter[i]? = some a) : longer[i]? = some a := by
  obtain ⟨rest, rfl⟩ := h
  obtain ⟨hlt, -⟩ := List.getElem?_eq_some_iff.mp ha
  rw [List.getElem?_append_left hlt, ha]

/-- Appends the part of a slice that starts at `n` and reaches past the copy. -/
def graft (copy slice : List α) (n : Nat) : List α :=
  copy ++ slice.drop (min (copy.length - n) slice.length)

/-- Grafting a slice of one prefix onto another yields the longer one. -/
theorem graft_drop {copy other : List α} {n : Nat} (h : copy <+: other ∨ other <+: copy)
    (hcopy : n ≤ copy.length) (hother : n ≤ other.length) :
    graft copy (other.drop n) n = if copy.length ≤ other.length then other else copy := by
  have hlen : (other.drop n).length = other.length - n := List.length_drop
  by_cases hle : copy.length ≤ other.length
  · have hpre : copy <+: other := by
      rcases h with h | h
      · exact h
      · exact (h.eq_of_length_le hle) ▸ List.prefix_refl _
    obtain ⟨rest, rfl⟩ := hpre
    rw [graft, hlen, Nat.min_eq_left (by omega), List.drop_drop, if_pos hle,
      show n + (copy.length - n) = copy.length by omega, List.drop_left]
  · rw [graft, hlen, Nat.min_eq_right (by omega), if_neg hle,
      List.drop_of_length_le (by rw [hlen]), List.append_nil]

theorem graft_prefix {copy other whole : List α} {n : Nat} (hc : copy <+: whole) (ho : other <+: whole)
    (hcopy : n ≤ copy.length) (hother : n ≤ other.length) :
    graft copy (other.drop n) n <+: whole := by
  rw [graft_drop (List.prefix_or_prefix_of_prefix hc ho) hcopy hother]
  split
  · exact ho
  · exact hc

end

/-- Grafting the links of a slice gives the links of the grafted log. -/
theorem graft_linksOf {copy other : List O} {prev : H} {seq n : Nat} (h : copy <+: other ∨ other <+: copy)
    (hcopy : n ≤ copy.length) (hother : n ≤ other.length) :
    graft (linksOf link prev seq copy) ((linksOf link prev seq other).drop n) n =
      linksOf link prev seq (graft copy (other.drop n) n) := by
  have hchain : linksOf link prev seq copy <+: linksOf link prev seq other ∨
      linksOf link prev seq other <+: linksOf link prev seq copy :=
    h.imp linksOf_prefix linksOf_prefix
  rw [graft_drop hchain (by rwa [length_linksOf]) (by rwa [length_linksOf]), graft_drop h hcopy hother,
    length_linksOf, length_linksOf]
  split <;> rfl

/-- A slice from elsewhere that starts at a link of the copy, and has the copy's links where the two
overlap, extends the chain of the copy. -/
theorem graft_of_agree {start anchor : H} {seq n : Nat} {copy slice : List O} (hn : n ≤ copy.length)
    (hanchor : anchor = head start ((linksOf link start seq copy).take n))
    (hagree : ∀ i, n + i < copy.length → i < slice.length →
      (linksOf link start seq copy)[n + i]? = (linksOf link anchor (seq + n) slice)[i]?) :
    graft (linksOf link start seq copy) (linksOf link anchor (seq + n) slice) n =
      linksOf link start seq (graft copy slice n) := by
  have hlen : (linksOf link start seq copy).length = copy.length := length_linksOf start seq copy
  have hslice : (linksOf link anchor (seq + n) slice).length = slice.length := length_linksOf anchor _ slice
  rw [graft, graft, linksOf_append, hlen, hslice]
  congr 1
  by_cases hle : slice.length ≤ copy.length - n
  · -- Nothing of the slice is new.
    rw [Nat.min_eq_right hle, List.drop_of_length_le hslice.le, List.drop_of_length_le (Nat.le_refl _),
      linksOf_nil]
  · rw [Nat.min_eq_left (by omega), drop_linksOf _ _ _ (by omega), ← take_linksOf,
      show seq + n + (copy.length - n) = seq + copy.length by omega]
    congr 1
    by_cases hfull : copy.length = n
    · rw [hfull, Nat.sub_self, List.take_zero, head_nil, hanchor, List.take_of_length_le (by omega)]
    · have hlast := head_take anchor (linksOf link anchor (seq + n) slice) (n := copy.length - n) (by omega)
        (by omega)
      have hend := head_take start (linksOf link start seq copy) (n := copy.length) (by omega) (by omega)
      rw [List.take_of_length_le hlen.le] at hend
      have hsame := hagree (copy.length - n - 1) (by omega) (by omega)
      rw [show n + (copy.length - n - 1) = copy.length - 1 by omega] at hsame
      exact Option.some.inj ((hlast.trans hsame.symm).trans hend.symm)

end HashChain
