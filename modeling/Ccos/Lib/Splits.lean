import Mathlib.Data.List.Infix
import Ccos.Text
import Ccos.Lib.JsonText
import Mathlib.Tactic.IntervalCases

/-!
# Occurrences of a pattern

Where a pattern stands in a list. A scan that jumps behind every match it finds meets a second one exactly when
there are two occurrences that do not overlap, so it may count one match where there are several occurrences.
-/

namespace Occurrences

variable {α : Type} {p s a b : List α}

/-- The pattern stands behind the first `n` items. -/
def At (p s : List α) (n : Nat) : Prop := ∃ a b, s = a ++ p ++ b ∧ a.length = n

theorem at_length (p a b : List α) : At p (a ++ p ++ b) a.length := ⟨a, b, rfl, rfl⟩

theorem at_append_iff {n : Nat} : At p (a ++ s) (a.length + n) ↔ At p s n := by
  constructor
  · rintro ⟨c, d, h, hlen⟩
    rw [List.append_assoc, List.append_eq_append_iff] at h
    rcases h with ⟨e, rfl, hs⟩ | ⟨e, ha, hrest⟩
    · rw [List.length_append] at hlen
      exact ⟨e, d, by rw [hs, List.append_assoc], by omega⟩
    · have hle : e = [] := by
        have := congrArg List.length ha
        rw [List.length_append] at this
        exact List.eq_nil_of_length_eq_zero (by omega)
      subst hle
      have hlen' := congrArg List.length ha
      rw [List.append_nil] at hlen'
      exact ⟨[], d, by simpa using hrest.symm, by simp; omega⟩
  · rintro ⟨c, d, rfl, rfl⟩
    exact ⟨a ++ c, d, by simp, by simp⟩

/-- The first occurrence, with what stands around it. -/
structure First (p s a b : List α) : Prop where
  eq : s = a ++ p ++ b
  least : ∀ n, At p s n → a.length ≤ n

theorem First.at (h : First p s a b) : At p s a.length := h.eq ▸ at_length p a b

/-- Behind the first occurrence there is another one exactly when two occurrences do not overlap. -/
theorem First.apart_iff (h : First p s a b) :
    (∃ m n, At p s m ∧ At p s n ∧ m + p.length ≤ n) ↔ ∃ n, At p b n := by
  have hrest : ∀ n, At p s (a.length + p.length + n) ↔ At p b n := fun n => by
    rw [h.eq, ← List.length_append]
    exact at_append_iff
  constructor
  · rintro ⟨m, n, hm, hn, hle⟩
    have hfirst := h.least m hm
    refine ⟨n - (a.length + p.length), (hrest _).mp ?_⟩
    rwa [Nat.add_sub_cancel' (by omega)]
  · rintro ⟨n, hn⟩
    exact ⟨a.length, a.length + p.length + n, h.at, (hrest n).mpr hn, by omega⟩

end Occurrences

/-!
## Splitting a text

The text around the first match of a pattern, and around the first or the last place of a character.
-/

open Occurrences

namespace Ccos

/-! ## The first match of a pattern -/

theorem first_splitOnce {p s a b : Str} (h : splitOnce p s = some (a, b)) : First p s a b := by
  induction s generalizing a with
  | nil =>
    rw [splitOnce] at h
    split at h
    · rename_i hp
      obtain ⟨rfl, rfl⟩ := Prod.mk.inj (Option.some.inj h)
      exact ⟨by simp [hp], fun _ _ => Nat.zero_le _⟩
    · cases h
  | cons c s ih =>
    rw [splitOnce] at h
    split at h
    · rename_i rest hstrip
      obtain ⟨rfl, rfl⟩ := Prod.mk.inj (Option.some.inj h)
      exact ⟨(List.isPrefixOf?_eq_some_iff_append_eq.mp hstrip).symm, fun _ _ => Nat.zero_le _⟩
    · rename_i hstrip
      obtain ⟨⟨a', b'⟩, hrest, heq⟩ := Option.map_eq_some_iff.mp h
      obtain ⟨rfl, rfl⟩ := Prod.mk.inj heq
      have hfirst := ih hrest
      refine ⟨by rw [hfirst.eq]; rfl, fun n hn => ?_⟩
      cases n with
      | zero =>
        obtain ⟨x, y, hxy, hlen⟩ := hn
        rw [List.eq_nil_of_length_eq_zero hlen, List.nil_append] at hxy
        have hsome : stripPrefix p (c :: s) = some y := List.isPrefixOf?_eq_some_iff_append_eq.mpr hxy.symm
        rw [hsome] at hstrip
        cases hstrip
      | succ n =>
        have hshift : At p ([c] ++ s) ([c].length + n) := by rwa [List.length_singleton, Nat.add_comm]
        exact Nat.succ_le_succ (hfirst.least n (at_append_iff.mp hshift))

/-! ## Characters -/

section Char

variable {c : Char} {s a b : Str}

theorem stripPrefix_char (d : Char) : stripPrefix [c] (d :: s) = if c = d then some s else none := by
  by_cases h : c = d
  · rw [if_pos h, h]
    exact List.isPrefixOf?_eq_some_iff_append_eq.mpr rfl
  · rw [if_neg h]
    simp [stripPrefix, List.isPrefixOf?, h]

theorem startsWith_char {d : Char} : startsWith [c] (d :: s) = true ↔ c = d := by
  simp [startsWith]

theorem splitOnce_char (h : c ∉ a) (b : Str) : splitOnce [c] (a ++ c :: b) = some (a, b) := by
  induction a with
  | nil => rw [List.nil_append, splitOnce, stripPrefix_char, if_pos rfl]
  | cons d a ih =>
    rw [List.mem_cons, not_or] at h
    rw [List.cons_append, splitOnce, stripPrefix_char, if_neg h.1, ih h.2]
    rfl

theorem splitOnce_char_eq (h : splitOnce [c] s = some (a, b)) : s = a ++ c :: b ∧ c ∉ a := by
  have hfirst := first_splitOnce h
  have hs : s = a ++ c :: b := by rw [hfirst.eq, List.append_assoc, List.singleton_append]
  refine ⟨hs, fun hmem => ?_⟩
  obtain ⟨a₁, a₂, rfl⟩ := List.append_of_mem hmem
  have hle := hfirst.least a₁.length ⟨a₁, a₂ ++ c :: b, by rw [hs]; simp, rfl⟩
  rw [List.length_append, List.length_cons] at hle
  omega

theorem rsplitOnce_char_none (h : rsplitOnce [c] s = none) : c ∉ s := by
  induction s with
  | nil => exact List.not_mem_nil
  | cons d s ih =>
    unfold rsplitOnce at h
    cases hs : rsplitOnce [c] s with
    | some parts => simp [hs] at h
    | none =>
      rw [hs] at h
      refine List.not_mem_cons_of_ne_of_not_mem (fun hc => ?_) (ih hs)
      simp [stripPrefix_char, hc] at h

theorem rsplitOnce_char_eq (h : rsplitOnce [c] s = some (a, b)) : s = a ++ c :: b ∧ c ∉ b := by
  induction s generalizing a with
  | nil => exact absurd h (by simp [rsplitOnce])
  | cons d s ih =>
    unfold rsplitOnce at h
    cases hs : rsplitOnce [c] s with
    | some parts =>
      obtain ⟨a', b'⟩ := parts
      rw [hs] at h
      obtain ⟨rfl, rfl⟩ := Prod.mk.inj (Option.some.inj h)
      obtain ⟨rfl, hb⟩ := ih hs
      exact ⟨rfl, hb⟩
    | none =>
      rw [hs, stripPrefix_char] at h
      by_cases hc : c = d
      · rw [if_pos hc] at h
        obtain ⟨rfl, rfl⟩ := Prod.mk.inj (Option.some.inj h)
        exact ⟨by rw [hc]; rfl, rsplitOnce_char_none hs⟩
      · rw [if_neg hc] at h
        cases h

theorem rsplitOnce_char (a : Str) (h : c ∉ b) : rsplitOnce [c] (a ++ c :: b) = some (a, b) := by
  cases hs : rsplitOnce [c] (a ++ c :: b) with
  | none => exact absurd (List.mem_append_right _ List.mem_cons_self) (rsplitOnce_char_none hs)
  | some parts =>
    obtain ⟨a', b'⟩ := parts
    obtain ⟨heq, hb'⟩ := rsplitOnce_char_eq hs
    have hrev := congrArg List.reverse heq
    simp only [List.reverse_append, List.reverse_cons, List.append_assoc, List.singleton_append] at hrev
    obtain ⟨hback, hfront⟩ :=
      append_sep_inj (fun hmem => h (List.mem_reverse.mp hmem)) (fun hmem => hb' (List.mem_reverse.mp hmem)) hrev
    rw [List.reverse_inj.mp hback, List.reverse_inj.mp hfront]

end Char

end Ccos

/-!
## Decimal numbers

The digits of a number, and which digits are the ones a number is written with.
-/

namespace Ccos

def isAsciiDigit (c : Char) : Bool := '0' ≤ c && c ≤ '9'

theorem isAsciiDigit_of_mem_natStr {n : Nat} {c : Char} (h : c ∈ natStr n) : isAsciiDigit c = true := by
  rw [natStr, Nat.toList_repr] at h
  have hdigit := Nat.isDigit_of_mem_toDigits (by decide) (by decide) h
  simp only [Char.isDigit, Bool.and_eq_true, decide_eq_true_eq] at hdigit
  simp only [isAsciiDigit, Bool.and_eq_true, decide_eq_true_eq]
  exact hdigit

theorem natStr_ne_nil (n : Nat) : natStr n ≠ [] := by
  rw [natStr, Nat.toList_repr]
  exact Nat.toDigits_ne_nil

theorem ofDigitChars_natStr (n : Nat) : Nat.ofDigitChars 10 (natStr n) 0 = n := by
  rw [natStr, Nat.toList_repr, Nat.ofDigitChars_ten_toDigits]

/-- A written number has no sign. -/
theorem natStr_unsigned (n : Nat) : (stripPrefix ['+'] (natStr n)).getD (natStr n) = natStr n := by
  obtain ⟨c, rest, hcons⟩ := List.exists_cons_of_ne_nil (natStr_ne_nil n)
  have hc : '+' ≠ c := by
    rintro rfl
    exact absurd (isAsciiDigit_of_mem_natStr (hcons ▸ List.mem_cons_self : '+' ∈ natStr n)) (by decide)
  rw [hcons, stripPrefix_char, if_neg hc]
  rfl

theorem natStr_leading_zero {n : Nat} {rest : Str} (h : natStr n = '0' :: rest) : rest = [] := by
  rw [natStr, Nat.toList_repr] at h
  exact JsonText.toDigits_leading_zero h

theorem digitChar_sub {c : Char} (h : isAsciiDigit c = true) : (c.toNat - '0'.toNat).digitChar = c := by
  simp only [isAsciiDigit, Bool.and_eq_true, decide_eq_true_eq] at h
  have hlow : 48 ≤ c.toNat := h.1
  have hhigh : c.toNat ≤ 57 := h.2
  have hdigit : ∀ n, 48 ≤ n → n ≤ 57 → (n - 48).digitChar = Char.ofNat n := by
    intro n hn hn'
    interval_cases n <;> rfl
  exact (hdigit c.toNat hlow hhigh).trans (Char.ofNat_toNat c)

/-- Digits without a leading zero are those the number is written with. -/
theorem natStr_ofDigitChars {s : Str} (hne : s ≠ []) (hdigits : ∀ c ∈ s, isAsciiDigit c = true)
    (hzero : ∀ rest, s = '0' :: rest → rest = []) : natStr (Nat.ofDigitChars 10 s 0) = s := by
  induction s using List.reverseRecOn with
  | nil => exact absurd rfl hne
  | append_singleton s c ih =>
    have hc := hdigits c (List.mem_append_right _ List.mem_cons_self)
    have hlt : c.toNat - '0'.toNat < 10 := by
      simp only [isAsciiDigit, Bool.and_eq_true, decide_eq_true_eq] at hc
      have hhigh : c.toNat ≤ 57 := hc.2
      show c.toNat - 48 < 10
      omega
    rw [natStr, Nat.toList_repr, Nat.ofDigitChars_append, Nat.ofDigitChars_cons, Nat.ofDigitChars_nil]
    by_cases hs : s = []
    · subst hs
      rw [Nat.ofDigitChars_nil, Nat.mul_zero, Nat.zero_add, Nat.toDigits_of_lt_base hlt, digitChar_sub hc]
      rfl
    · have hfront := ih hs (fun d hd => hdigits d (List.mem_append_left _ hd)) fun rest hrest => by
        have := hzero (rest ++ [c]) (by rw [hrest]; rfl)
        simp at this
      rw [natStr, Nat.toList_repr] at hfront
      have hpos : 0 < Nat.ofDigitChars 10 s 0 := by
        rcases Nat.eq_zero_or_pos (Nat.ofDigitChars 10 s 0) with h0 | hpos
        · rw [h0, Nat.toDigits_zero] at hfront
          have := hzero [c] (by rw [← hfront]; rfl)
          simp at this
        · exact hpos
      rw [← Nat.toDigits_append_toDigits (by decide) hpos hlt, hfront, Nat.toDigits_of_lt_base hlt, digitChar_sub hc]

end Ccos
