import Ccos.Text

/-!
# ASCII texts

A character below 128 is one byte of UTF-8. Every other one is several bytes, all of them above 127.
-/

namespace Ccos

theorem toNat_ofNat {n : Nat} (h : n < 0xD800) : (Char.ofNat n).toNat = n := by
  have hvalid : n.isValidChar := Or.inl h
  rw [Char.ofNat, dif_pos hvalid]
  rfl

theorem isAlpha_iff (c : Char) :
    c.isAlpha = true ↔ (65 ≤ c.toNat ∧ c.toNat ≤ 90) ∨ (97 ≤ c.toNat ∧ c.toNat ≤ 122) := by
  change (decide (65 ≤ c.val ∧ c.val ≤ 90) || (decide (97 ≤ c.val) && decide (c.val ≤ 122))) = true ↔ _
  rw [Bool.or_eq_true, Bool.and_eq_true, decide_eq_true_eq, decide_eq_true_eq, decide_eq_true_eq]
  rfl

theorem utf8Size_eq_one_iff (c : Char) : c.utf8Size = 1 ↔ c.toNat < 128 := by
  rw [Char.utf8Size_eq_one_iff, UInt32.le_iff_toNat_le]
  change c.toNat ≤ 127 ↔ _
  omega

theorem utf8EncodeChar_of_ascii {c : Char} (h : c.toNat < 128) :
    String.utf8EncodeChar c = [UInt8.ofNat c.toNat] := by
  unfold String.utf8EncodeChar
  exact if_pos (Nat.lt_succ_iff.mp h)

private theorem le_ofNat {n : Nat} (low : 128 ≤ n) (high : n < 256) : (128 : UInt8) ≤ UInt8.ofNat n := by
  rw [UInt8.le_iff_toNat_le, UInt8.toNat_ofNat', Nat.mod_eq_of_lt high]
  exact low

theorem le_of_mem_utf8EncodeChar {c : Char} (h : 128 ≤ c.toNat) {b : UInt8} (hb : b ∈ String.utf8EncodeChar c) :
    128 ≤ b := by
  have hc : c.val.toNat = c.toNat := rfl
  unfold String.utf8EncodeChar at hb
  dsimp only at hb
  rw [hc, if_neg (by omega)] at hb
  split_ifs at hb
  all_goals
    simp only [List.mem_cons, List.not_mem_nil, or_false] at hb
    rcases hb with rfl | rfl | rfl | rfl <;> exact le_ofNat (by omega) (by omega)

/-! ## Whole texts -/

def IsAscii (s : Str) : Prop := ∀ c ∈ s, c.toNat < 128

instance decidableIsAscii (s : Str) : Decidable (IsAscii s) := List.decidableBAll (fun c : Char => c.toNat < 128) s

@[simp] theorem isAscii_cons {c : Char} {s : Str} : IsAscii (c :: s) ↔ c.toNat < 128 ∧ IsAscii s := by
  simp [IsAscii]

@[simp] theorem utf8_nil : utf8 [] = [] := rfl

theorem utf8_cons (c : Char) (s : Str) : utf8 (c :: s) = String.utf8EncodeChar c ++ utf8 s := rfl

theorem utf8_of_ascii {s : Str} (h : IsAscii s) : utf8 s = s.map fun c => UInt8.ofNat c.toNat := by
  induction s with
  | nil => rfl
  | cons c s ih =>
    obtain ⟨hc, hs⟩ := isAscii_cons.mp h
    rw [utf8_cons, utf8EncodeChar_of_ascii hc, ih hs]
    rfl

theorem isAscii_of_utf8 {s : Str} (h : ∀ b ∈ utf8 s, b < 128) : IsAscii s := by
  intro c hc
  by_contra hhigh
  obtain ⟨b, hb⟩ := List.exists_mem_of_ne_nil _ (String.utf8EncodeChar_ne_nil (c := c))
  have hle := le_of_mem_utf8EncodeChar (Nat.le_of_not_lt hhigh) hb
  exact absurd (h b (List.mem_flatMap.mpr ⟨c, hc, hb⟩)) (UInt8.not_lt.mpr hle)

theorem byteLen_of_ascii {s : Str} (h : IsAscii s) : byteLen s = s.length := by
  rw [← length_utf8, utf8_of_ascii h, List.length_map]

/-! ## Slices -/

/-- A text cut at a byte offset; `none` inside a character or past the end. -/
def cutAt : Nat → Str → Option (Str × Str)
  | 0, s => some ([], s)
  | _ + 1, [] => none
  | n + 1, c :: s =>
    if c.utf8Size ≤ n + 1 then (cutAt (n + 1 - c.utf8Size) s).map fun (a, b) => (c :: a, b) else none

/-- `&s[i..j]`; `none` is a panic. -/
def slice (s : Str) (i j : Nat) : Option Str := do
  let (_, rest) ← cutAt i s
  let (piece, _) ← cutAt (j - i) rest
  return piece

theorem cutAt_of_ascii {s : Str} (h : IsAscii s) {n : Nat} (hn : n ≤ s.length) :
    cutAt n s = some (s.take n, s.drop n) := by
  induction s generalizing n with
  | nil =>
    obtain rfl : n = 0 := by simpa using hn
    rfl
  | cons c s ih =>
    obtain ⟨hc, hs⟩ := isAscii_cons.mp h
    cases n with
    | zero => rfl
    | succ n =>
      rw [cutAt, (utf8Size_eq_one_iff c).mpr hc, if_pos (by omega), Nat.add_sub_cancel,
        ih hs (by simpa using hn)]
      rfl

theorem slice_of_ascii {s : Str} (h : IsAscii s) {i j : Nat} (hij : i ≤ j) (hj : j ≤ s.length) :
    slice s i j = some ((s.drop i).take (j - i)) := by
  have hrest : IsAscii (s.drop i) := fun c hc => h c (List.mem_of_mem_drop hc)
  have hlen : j - i ≤ (s.drop i).length := by
    rw [List.length_drop]
    omega
  unfold slice
  rw [cutAt_of_ascii h (by omega)]
  simp only [Option.pure_def, Option.bind_eq_bind, Option.bind_some]
  rw [cutAt_of_ascii hrest hlen]
  rfl

end Ccos
