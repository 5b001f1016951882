import Ccos.Lib.Ascii
import Ccos.Lib.Splits

/-!
# Character boundaries

Byte offsets between two characters of a text. A slice between two of them is a text, and a text that is not empty
occurs in the bytes of another one at boundaries only.
-/

open Occurrences

namespace Ccos

@[simp] theorem byteLen_nil : byteLen [] = 0 := rfl

@[simp] theorem byteLen_cons (c : Char) (s : Str) : byteLen (c :: s) = c.utf8Size + byteLen s := rfl

@[simp] theorem byteLen_append (a b : Str) : byteLen (a ++ b) = byteLen a + byteLen b := by
  rw [byteLen, List.map_append, List.sum_append]
  rfl

theorem byteLen_eq_zero {s : Str} (h : byteLen s = 0) : s = [] := by
  cases s with
  | nil => rfl
  | cons c s =>
    have := c.utf8Size_pos
    rw [byteLen_cons] at h
    omega

theorem cutAt_append (a b : Str) : cutAt (byteLen a) (a ++ b) = some (a, b) := by
  induction a with
  | nil => cases b <;> rfl
  | cons c a ih =>
    obtain ⟨n, hn⟩ : ∃ n, byteLen (c :: a) = n + 1 := by
      have := c.utf8Size_pos
      rw [byteLen_cons]
      exact ⟨c.utf8Size + byteLen a - 1, by omega⟩
    have hrest : n + 1 - c.utf8Size = byteLen a := by
      rw [← hn, byteLen_cons]
      omega
    rw [hn, List.cons_append, cutAt, if_pos (by rw [← hn, byteLen_cons]; omega), hrest, ih]
    rfl

theorem cutAt_eq_some {n : Nat} {s a b : Str} (h : cutAt n s = some (a, b)) : s = a ++ b ∧ byteLen a = n := by
  induction s generalizing n a with
  | nil =>
    cases n with
    | zero =>
      cases h
      exact ⟨rfl, rfl⟩
    | succ n => cases h
  | cons c s ih =>
    cases n with
    | zero =>
      cases h
      exact ⟨rfl, rfl⟩
    | succ n =>
      rw [cutAt] at h
      split_ifs at h with hle
      obtain ⟨cut, hcut, heq⟩ := Option.map_eq_some_iff.mp h
      cases heq
      obtain ⟨hs, hlen⟩ := ih hcut
      exact ⟨by rw [List.cons_append, ← hs], by rw [byteLen_cons, hlen]; omega⟩

theorem cutAt_eq_some_iff {n : Nat} {s a b : Str} : cutAt n s = some (a, b) ↔ s = a ++ b ∧ byteLen a = n := by
  constructor
  · exact cutAt_eq_some
  · rintro ⟨rfl, rfl⟩
    exact cutAt_append a b

/-- A cut between two characters is the only one at its offset. -/
theorem append_inj_of_byteLen {a b a' b' : Str} (h : a ++ b = a' ++ b') (hlen : byteLen a = byteLen a') :
    a = a' ∧ b = b' := by
  have hcut := cutAt_append a b
  rw [h, hlen, cutAt_append] at hcut
  cases hcut
  exact ⟨rfl, rfl⟩

theorem slice_append (a b c : Str) : slice (a ++ b ++ c) (byteLen a) (byteLen a + byteLen b) = some b := by
  unfold slice
  rw [List.append_assoc, cutAt_append, Nat.add_sub_cancel_left]
  simp only [Option.bind_eq_bind, Option.bind_some, Option.pure_def]
  rw [cutAt_append]
  rfl

theorem slice_eq_some_iff {s p : Str} {i j : Nat} :
    slice s i j = some p ↔ ∃ a b, s = a ++ (p ++ b) ∧ byteLen a = i ∧ byteLen p = j - i := by
  simp only [slice, Option.bind_eq_bind, Option.bind_eq_some_iff, Option.pure_def, Option.some.injEq, Prod.exists,
    cutAt_eq_some_iff]
  constructor
  · rintro ⟨a, rest, ⟨rfl, ha⟩, _, b, ⟨rfl, hp⟩, rfl⟩
    exact ⟨a, b, rfl, ha, hp⟩
  · rintro ⟨a, b, rfl, ha, hp⟩
    exact ⟨a, p ++ b, ⟨rfl, ha⟩, p, b, ⟨rfl, hp⟩, rfl⟩

/-- `str::is_char_boundary`. -/
def IsCharBoundary (s : Str) (n : Nat) : Prop := ∃ a b, s = a ++ b ∧ byteLen a = n

/-! ## Texts in bytes -/

/-- The first character is read off the first bytes. -/
theorem utf8EncodeChar_append_inj {c d : Char} {a b : List UInt8}
    (h : String.utf8EncodeChar c ++ a = String.utf8EncodeChar d ++ b) : c = d ∧ a = b := by
  have hdecode := congrArg (fun bytes : List UInt8 => bytes.toByteArray.utf8DecodeChar? 0) h
  simp only [List.toByteArray_append, ByteArray.utf8DecodeChar?_utf8EncodeChar_append, Option.some.injEq] at hdecode
  subst hdecode
  exact ⟨rfl, List.append_cancel_left h⟩

theorem eq_append_of_utf8_prefix {p s : Str} {rest : List UInt8} (h : utf8 s = utf8 p ++ rest) :
    ∃ t, s = p ++ t ∧ rest = utf8 t := by
  induction p generalizing s with
  | nil => exact ⟨s, rfl, h.symm⟩
  | cons c p ih =>
    rw [utf8_cons, List.append_assoc] at h
    cases s with
    | nil =>
      have hlen := congrArg List.length h
      have := c.utf8Size_pos
      rw [List.length_append, String.length_utf8EncodeChar, utf8_nil, List.length_nil] at hlen
      omega
    | cons d s =>
      rw [utf8_cons] at h
      obtain ⟨rfl, hrest⟩ := utf8EncodeChar_append_inj h
      obtain ⟨t, rfl, ht⟩ := ih hrest
      exact ⟨t, rfl, ht⟩

/-- No text begins inside a character: the byte there cannot be a first byte. -/
theorem not_at_inside {p s : Str} {c : Char} {n : Nat} (hp : p ≠ []) (hpos : 0 < n) (hlt : n < c.utf8Size) :
    ¬ At (utf8 p) (utf8 (c :: s)) n := by
  rintro ⟨a, b, h, rfl⟩
  obtain ⟨d, q, rfl⟩ := List.exists_cons_of_ne_nil hp
  have hget := congrArg (fun bytes : List UInt8 => bytes[a.length]?) h
  have hinside : a.length < (String.utf8EncodeChar c).length := by rwa [String.length_utf8EncodeChar]
  have hfirst : 0 < (String.utf8EncodeChar d).length := by rw [String.length_utf8EncodeChar]; exact d.utf8Size_pos
  simp only [utf8_cons, List.append_assoc] at hget
  rw [List.getElem?_append_left hinside, List.getElem?_append_right (Nat.le_refl _), Nat.sub_self,
    List.getElem?_append_left hfirst, List.getElem?_eq_getElem hinside, List.getElem?_eq_getElem hfirst] at hget
  have hbyte := Option.some.inj hget
  have hbegin : (String.utf8EncodeChar c)[a.length].IsUTF8FirstByte := by
    rw [hbyte]
    exact UInt8.isUTF8FirstByte_getElem_utf8EncodeChar.mpr rfl
  exact absurd (UInt8.isUTF8FirstByte_getElem_utf8EncodeChar.mp hbegin) (by omega)

/-- The occurrences of a text in bytes are its occurrences in characters. -/
theorem at_utf8_iff {p s : Str} (hp : p ≠ []) {n : Nat} :
    At (utf8 p) (utf8 s) n ↔ ∃ a b, s = a ++ p ++ b ∧ byteLen a = n := by
  constructor
  · intro h
    induction s generalizing n with
    | nil =>
      obtain ⟨a, b, h, -⟩ := h
      have hlen := congrArg List.length h
      rw [List.length_append, List.length_append, length_utf8 p] at hlen
      have hzero : byteLen p = 0 := by simp at hlen; omega
      exact absurd (byteLen_eq_zero hzero) hp
    | cons c s ih =>
      rcases Nat.eq_zero_or_pos n with rfl | hpos
      · obtain ⟨a, b, h, hlen⟩ := h
        rw [List.eq_nil_of_length_eq_zero hlen, List.nil_append] at h
        obtain ⟨t, ht, -⟩ := eq_append_of_utf8_prefix h
        exact ⟨[], t, ht, rfl⟩
      · by_cases hlt : n < c.utf8Size
        · exact absurd h (not_at_inside hp hpos hlt)
        · obtain ⟨m, rfl⟩ := Nat.exists_eq_add_of_le (Nat.le_of_not_lt hlt)
          rw [utf8_cons, ← String.length_utf8EncodeChar c, at_append_iff] at h
          obtain ⟨a, b, rfl, rfl⟩ := ih h
          exact ⟨c :: a, b, rfl, rfl⟩
  · rintro ⟨a, b, rfl, rfl⟩
    rw [utf8_append, utf8_append, ← length_utf8]
    exact at_length _ _ _

end Ccos
