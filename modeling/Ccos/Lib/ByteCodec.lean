import Mathlib.Data.List.Basic
import Mathlib.Tactic.Ring

/-!
# Byte strings with lengths

Numbers are written little-endian in a fixed width, which drops what does not fit, and a string is
written after its length. A reader takes what it needs from the front, or fails.
-/

namespace ByteCodec

abbrev Bytes := List UInt8

/-! ## Numbers -/

/-- The low `width` bytes of a number. -/
def leOf : Nat → Nat → Bytes
  | 0, _ => []
  | width + 1, n => UInt8.ofNat n :: leOf width (n / 256)

def leTo : Bytes → Nat
  | [] => 0
  | b :: bytes => b.toNat + 256 * leTo bytes

@[simp] theorem length_leOf (width n : Nat) : (leOf width n).length = width := by
  induction width generalizing n with
  | zero => rfl
  | succ width ih => rw [leOf, List.length_cons, ih]

theorem leTo_leOf (width n : Nat) : leTo (leOf width n) = n % 256 ^ width := by
  induction width generalizing n with
  | zero => rw [leOf, leTo, pow_zero, Nat.mod_one]
  | succ width ih =>
    have hbyte : (UInt8.ofNat n).toNat = n % 256 := UInt8.toNat_ofNat'
    rw [leOf, leTo, ih, hbyte, pow_succ', Nat.mod_mul]

theorem leTo_leOf_of_lt {width n : Nat} (h : n < 256 ^ width) : leTo (leOf width n) = n := by
  rw [leTo_leOf, Nat.mod_eq_of_lt h]

/-! ## Readers -/

/-- The first `n` bytes and the rest. -/
def takeExact (n : Nat) (bytes : Bytes) : Option (Bytes × Bytes) :=
  if n ≤ bytes.length then some (bytes.take n, bytes.drop n) else none

def readNat (width : Nat) (bytes : Bytes) : Option (Nat × Bytes) :=
  (takeExact width bytes).map fun (b, rest) => (leTo b, rest)

/-- A string after its length. -/
def putBytes (width : Nat) (b : Bytes) : Bytes := leOf width b.length ++ b

def readBytes (width : Nat) (bytes : Bytes) : Option (Bytes × Bytes) :=
  (readNat width bytes).bind fun (len, rest) => takeExact len rest

theorem takeExact_append (b rest : Bytes) : takeExact b.length (b ++ rest) = some (b, rest) := by
  rw [takeExact, if_pos (by simp), List.take_left, List.drop_left]

theorem readNat_append (width n : Nat) (rest : Bytes) :
    readNat width (leOf width n ++ rest) = some (n % 256 ^ width, rest) := by
  have h := takeExact_append (leOf width n) rest
  rw [length_leOf] at h
  rw [readNat, h, Option.map_some]
  dsimp only
  rw [leTo_leOf]

theorem readBytes_append {width : Nat} {b : Bytes} (h : b.length < 256 ^ width) (rest : Bytes) :
    readBytes width (putBytes width b ++ rest) = some (b, rest) := by
  rw [readBytes, putBytes, List.append_assoc, readNat_append, Nat.mod_eq_of_lt h, Option.bind_some]
  exact takeExact_append b rest

/-- A string that fits its length field is determined by what it starts. -/
theorem putBytes_append_inj {width : Nat} {a b x y : Bytes} (ha : a.length < 256 ^ width)
    (hb : b.length < 256 ^ width) (h : putBytes width a ++ x = putBytes width b ++ y) : a = b ∧ x = y := by
  have hread := congrArg (readBytes width) h
  rw [readBytes_append ha, readBytes_append hb] at hread
  exact Prod.ext_iff.mp (Option.some.inj hread)

/-- A string that is too long for its length field reads back cut short. -/
theorem readBytes_append_mod (width : Nat) (b rest : Bytes) :
    readBytes width (putBytes width b ++ rest) =
      some (b.take (b.length % 256 ^ width), b.drop (b.length % 256 ^ width) ++ rest) := by
  have hle : b.length % 256 ^ width ≤ b.length := Nat.mod_le _ _
  rw [readBytes, putBytes, List.append_assoc, readNat_append, Option.bind_some]
  dsimp only
  rw [takeExact, if_pos (by rw [List.length_append]; omega), List.take_append_of_le_length hle,
    List.drop_append_of_le_length hle]

/-! ## Items of one width -/

section

variable {α : Type} {f : α → Bytes} {width : Nat}

theorem length_flatMap_of_width (hf : ∀ a, (f a).length = width) (l : List α) :
    (l.flatMap f).length = width * l.length := by
  induction l with
  | nil => simp
  | cons a l ih => simp [hf, ih, Nat.mul_add, Nat.add_comm]

theorem drop_flatMap_of_width (hf : ∀ a, (f a).length = width) (l : List α) (n : Nat) :
    (l.flatMap f).drop (width * n) = (l.drop n).flatMap f := by
  induction n generalizing l with
  | zero => simp
  | succ n ih =>
    cases l with
    | nil => simp
    | cons a l =>
      rw [List.flatMap_cons, Nat.mul_succ, Nat.add_comm, ← List.drop_drop, List.drop_left' (hf a), ih]
      rfl

/-- The `n`-th item, read at its place. -/
theorem take_drop_flatMap_of_width (hf : ∀ a, (f a).length = width) {l : List α} {n : Nat}
    (h : n < l.length) : ((l.flatMap f).drop (width * n)).take width = f l[n] := by
  rw [drop_flatMap_of_width hf, List.drop_eq_getElem_cons h, List.flatMap_cons, List.take_left' (hf _)]

end

end ByteCodec

/-!
## Encodings that mark their own end

What follows such an encoding cannot be read as a part of it, so a concatenation of them is read back
field by field. An encoding may forget some of a value: `view` is what it keeps.
-/

namespace ByteCodec

variable {A B : Type}

/-- The bytes of a value, whatever comes after them, determine its view and what comes after. -/
def Delimits (P : A → Prop) (encode : A → Bytes) (view : A → B) : Prop :=
  ∀ ⦃a b : A⦄, P a → P b → ∀ ⦃x y : Bytes⦄, encode a ++ x = encode b ++ y → view a = view b ∧ x = y

theorem Delimits.mono {P Q : A → Prop} {encode : A → Bytes} {view : A → B} (h : Delimits Q encode view)
    (himp : ∀ a, P a → Q a) : Delimits P encode view := fun a b ha hb => h (himp a ha) (himp b hb)

/-- A value or nothing, after a byte that tells which. -/
def putOption (encode : A → Bytes) : Option A → Bytes
  | some a => 1 :: encode a
  | none => [0]

theorem Delimits.option {P : A → Prop} {encode : A → Bytes} {view : A → B} (h : Delimits P encode view) :
    Delimits (fun o => ∀ a ∈ o, P a) (putOption encode) (Option.map view) := by
  intro o o' ho ho' x y heq
  cases o with
  | none =>
    cases o' with
    | none => exact ⟨rfl, (List.cons.inj heq).2⟩
    | some b => exact absurd (List.cons.inj heq).1 (by decide)
  | some a =>
    cases o' with
    | none => exact absurd (List.cons.inj heq).1 (by decide)
    | some b =>
      obtain ⟨hview, hrest⟩ := h (ho a rfl) (ho' b rfl) (List.cons.inj heq).2
      exact ⟨congrArg some hview, hrest⟩

/-- A list after the number of its elements. -/
def putList (width : Nat) (encode : A → Bytes) (l : List A) : Bytes := leOf width l.length ++ l.flatMap encode

theorem leOf_append_inj {width m n : Nat} (hm : m < 256 ^ width) (hn : n < 256 ^ width) {x y : Bytes}
    (h : leOf width m ++ x = leOf width n ++ y) : m = n ∧ x = y := by
  obtain ⟨hbytes, hrest⟩ := List.append_inj h (by rw [length_leOf, length_leOf])
  refine ⟨?_, hrest⟩
  rw [← leTo_leOf_of_lt hm, hbytes, leTo_leOf_of_lt hn]

theorem Delimits.elements {P : A → Prop} {encode : A → Bytes} {view : A → B} (h : Delimits P encode view)
    {l l' : List A} (hlen : l.length = l'.length) (hl : ∀ a ∈ l, P a) (hl' : ∀ a ∈ l', P a) {x y : Bytes}
    (heq : l.flatMap encode ++ x = l'.flatMap encode ++ y) : l.map view = l'.map view ∧ x = y := by
  induction l generalizing l' with
  | nil =>
    obtain rfl := List.length_eq_zero_iff.mp hlen.symm
    exact ⟨rfl, heq⟩
  | cons a l ih =>
    cases l' with
    | nil => cases hlen
    | cons b l' =>
      rw [List.flatMap_cons, List.flatMap_cons, List.append_assoc, List.append_assoc] at heq
      obtain ⟨hview, heq⟩ := h (hl a List.mem_cons_self) (hl' b List.mem_cons_self) heq
      obtain ⟨hviews, hrest⟩ := ih (Nat.succ.inj hlen) (fun c hc => hl c (List.mem_cons_of_mem _ hc))
        (fun c hc => hl' c (List.mem_cons_of_mem _ hc)) heq
      exact ⟨by rw [List.map_cons, List.map_cons, hview, hviews], hrest⟩

theorem Delimits.list {P : A → Prop} {encode : A → Bytes} {view : A → B} (h : Delimits P encode view) (width : Nat) :
    Delimits (fun l => l.length < 256 ^ width ∧ ∀ a ∈ l, P a) (putList width encode) (List.map view) := by
  rintro l l' ⟨hfits, hl⟩ ⟨hfits', hl'⟩ x y heq
  rw [putList, putList, List.append_assoc, List.append_assoc] at heq
  obtain ⟨hlen, heq⟩ := leOf_append_inj hfits hfits' heq
  exact h.elements hlen hl hl' heq

/-- A string after its length. -/
theorem delimits_putBytes (width : Nat) :
    Delimits (fun b : Bytes => b.length < 256 ^ width) (putBytes width) id :=
  fun _ _ ha hb _ _ heq => putBytes_append_inj ha hb heq

end ByteCodec
