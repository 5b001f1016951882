import Ccos.Wire.Decimal
import Ccos.Wire.RoundTrip

/-!
# The parser takes every text of the grammar

What a text of the grammar stands for is read from it, when it nests no deeper than the limit, and so is what the
writer makes of whole numbers, texts, arrays and objects.
-/

open Std JsonText

namespace Ccos

/-! ## What a text stands for -/

/-- The keys in their order, each with its last value. -/
def lastWins {A : Type} (members : List (Str × A)) : List (Str × A) :=
  (sortDedup (members.map (·.1))).filterMap fun key => (members.reverse.lookup key).map fun value => (key, value)

section Denoted

variable {F : Type} [WireFloat64 F]

def denotedNumber (n : Number) : F := if n.negative then -(Scalar.lit n.magnitude) else Scalar.lit n.magnitude

mutual

def denoted : Value → Json F
  | .null => .null
  | .bool b => .bool b
  | .num n => .num (denotedNumber n)
  | .str s => .str s
  | .arr items => .arr (denotedItems items)
  | .obj members => .obj (lastWins (denotedMembers members))

def denotedItems : List Value → List (Json F)
  | [] => []
  | v :: rest => denoted v :: denotedItems rest

def denotedMembers : List (List Char × Value) → List (Str × Json F)
  | [] => []
  | (key, v) :: rest => (key, denoted v) :: denotedMembers rest

end

theorem denotedItems_eq_map (vs : List Value) : (denotedItems vs : List (Json F)) = vs.map denoted := by
  induction vs with
  | nil => rfl
  | cons v vs ih => rw [denotedItems, ih, List.map_cons]

theorem denotedMembers_eq_map (ms : List (List Char × Value)) :
    (denotedMembers ms : List (Str × Json F)) = ms.map fun m => (m.1, denoted m.2) := by
  induction ms with
  | nil => rfl
  | cons m ms ih => rw [denotedMembers, ih, List.map_cons]

end Denoted

/-! ## Maps as sorted entries -/

section Maps

variable {A : Type}

def InOrder (map : List (Str × A)) : Prop := map.Pairwise fun a b => compare a.1 b.1 = .lt

theorem compare_self_ne_lt (key : Str) : compare key key ≠ .lt := by
  simp

theorem lookup_cons_eq (e : Str × A) (map : List (Str × A)) (key : Str) :
    (e :: map).lookup key = if key = e.1 then some e.2 else map.lookup key := by
  rw [List.lookup_cons]
  by_cases hk : key = e.1
  · simp [hk]
  · have hne : (key == e.1) = false := by simpa using hk
    simp [hne, hk]

theorem mem_iff_lookup {map : List (Str × A)} (h : InOrder map) (key : Str) (value : A) :
    (key, value) ∈ map ↔ map.lookup key = some value := by
  induction map with
  | nil => simp
  | cons e map ih =>
    obtain ⟨hfirst, hrest⟩ := List.pairwise_cons.mp h
    rw [List.mem_cons, lookup_cons_eq]
    by_cases heq : key = e.1
    · subst heq
      have hnot : (e.1, value) ∉ map := fun hmem => compare_self_ne_lt e.1 (hfirst (e.1, value) hmem)
      simp [hnot, Prod.ext_iff, eq_comm]
    · rw [if_neg heq, ← ih hrest]
      simp [Prod.ext_iff, heq]

/-- Entries in the order of their keys are determined by what they hold. -/
theorem InOrder.ext {map map' : List (Str × A)} (h : InOrder map) (h' : InOrder map')
    (hmem : ∀ key value, (key, value) ∈ map ↔ (key, value) ∈ map') : map = map' := by
  have hnodup : ∀ {l : List (Str × A)}, InOrder l → l.Nodup := by
    refine fun hl => List.Pairwise.imp (fun {a b} hlt => ?_) hl
    rintro rfl
    exact compare_self_ne_lt a.1 hlt
  have hperm : map.Perm map' := (List.perm_ext_iff_of_nodup (hnodup h) (hnodup h')).mpr fun e => hmem e.1 e.2
  refine hperm.eq_of_pairwise (fun a b _ _ hab hba => ?_) h h'
  exact absurd (TransCmp.lt_trans hab hba) (compare_self_ne_lt a.1)

theorem mem_insertKey {key : Str} {value : A} {map : List (Str × A)} {e : Str × A}
    (h : e ∈ insertKey key value map) : e = (key, value) ∨ e ∈ map := by
  induction map with
  | nil => exact .inl (List.mem_singleton.mp h)
  | cons first map ih =>
    unfold insertKey at h
    split at h
    · exact List.mem_cons.mp h
    · rcases List.mem_cons.mp h with h | h
      · exact .inl h
      · exact .inr (List.mem_cons_of_mem _ h)
    · rcases List.mem_cons.mp h with rfl | h
      · exact .inr List.mem_cons_self
      · exact (ih h).imp id (List.mem_cons_of_mem _)

theorem InOrder.insertKey {map : List (Str × A)} (h : InOrder map) (key : Str) (value : A) :
    InOrder (insertKey key value map) := by
  induction map with
  | nil => exact List.pairwise_singleton _ _
  | cons first map ih =>
    obtain ⟨hfirst, hrest⟩ := List.pairwise_cons.mp h
    unfold Ccos.insertKey
    split
    · next hlt =>
      refine List.pairwise_cons.mpr ⟨fun e he => ?_, h⟩
      rcases List.mem_cons.mp he with rfl | he
      · exact hlt
      · exact TransCmp.lt_trans hlt (hfirst e he)
    · next heq =>
      refine List.pairwise_cons.mpr ⟨fun e he => ?_, hrest⟩
      rw [LawfulEqOrd.compare_eq_iff_eq.mp heq]
      exact hfirst e he
    · next hgt =>
      refine List.pairwise_cons.mpr ⟨fun e he => ?_, ih hrest⟩
      rcases mem_insertKey he with rfl | he
      · exact OrientedCmp.gt_iff_lt.mp hgt
      · exact hfirst e he

theorem lookup_insertKey (key : Str) (value : A) (map : List (Str × A)) (k : Str) :
    (insertKey key value map).lookup k = if k = key then some value else map.lookup k := by
  induction map with
  | nil => rw [insertKey, lookup_cons_eq]
  | cons first map ih =>
    unfold insertKey
    split
    · rw [lookup_cons_eq]
    · next heq =>
      have heq := LawfulEqOrd.compare_eq_iff_eq.mp heq
      rw [lookup_cons_eq, lookup_cons_eq, ← heq]
      split <;> rfl
    · next hgt =>
      rw [lookup_cons_eq, lookup_cons_eq, ih]
      by_cases hk : k = key
      · have hne : key ≠ first.1 := fun heq =>
          compare_self_ne_lt first.1 (OrientedCmp.gt_iff_lt.mp (heq ▸ hgt))
        rw [hk, if_neg hne, if_pos rfl, if_pos rfl]
      · rw [if_neg hk, if_neg hk]

/-- A later member takes the place of an earlier one of its key. -/
theorem foldl_insertKey_spec (members map : List (Str × A)) (h : InOrder map) :
    InOrder (members.foldl (fun map e => insertKey e.1 e.2 map) map) ∧
      ∀ key, (members.foldl (fun map e => insertKey e.1 e.2 map) map).lookup key =
        (members.reverse.lookup key).or (map.lookup key) := by
  induction members generalizing map with
  | nil => exact ⟨h, fun key => by simp⟩
  | cons m members ih =>
    obtain ⟨hsorted, hlookup⟩ := ih (insertKey m.1 m.2 map) (h.insertKey m.1 m.2)
    refine ⟨hsorted, fun key => ?_⟩
    rw [List.foldl_cons, hlookup, lookup_insertKey, List.reverse_cons, List.lookup_append, lookup_cons_eq]
    by_cases hk : key = m.1
    · rw [if_pos hk, if_pos hk, Option.or_assoc, Option.some_or]
    · rw [if_neg hk, if_neg hk, List.lookup_nil, Option.or_none]

theorem lookup_isSome_mem {l : List (Str × A)} {key : Str} {value : A} (h : l.lookup key = some value) :
    key ∈ l.map (·.1) := by
  by_contra hnot
  rw [List.lookup_eq_none_iff.mpr] at h
  · cases h
  · intro e he
    have hne : e.1 ≠ key := fun heq => hnot (heq ▸ List.mem_map_of_mem he)
    simpa using Ne.symm hne

/-- The map of the parser holds the last value of each key. -/
theorem foldl_insertKey_eq (members : List (Str × A)) :
    members.foldl (fun map e => insertKey e.1 e.2 map) [] = lastWins members := by
  obtain ⟨hsorted, hlookup⟩ := foldl_insertKey_spec members [] List.Pairwise.nil
  refine hsorted.ext ?_ fun key value => ?_
  · refine List.Pairwise.filterMap _ (fun a a' hlt b hb b' hb' => ?_) (ascending_sortDedup _)
    obtain ⟨_, -, rfl⟩ := Option.map_eq_some_iff.mp hb
    obtain ⟨_, -, rfl⟩ := Option.map_eq_some_iff.mp hb'
    exact hlt
  · rw [mem_iff_lookup hsorted, hlookup, List.lookup_nil, Option.or_none, lastWins, List.mem_filterMap]
    constructor
    · intro h
      have hkey : key ∈ members.map (·.1) := by
        simpa using lookup_isSome_mem h
      exact ⟨key, mem_sortDedup.mpr hkey, by rw [h]; rfl⟩
    · rintro ⟨k, -, hk⟩
      obtain ⟨v, hv, heq⟩ := Option.map_eq_some_iff.mp hk
      cases heq
      exact hv

end Maps

/-! ## Blanks and characters -/

theorem isWhitespace_of_isBlank {c : Char} (h : isBlank c = true) : isWhitespace c = true := by
  simp only [isBlank, Bool.or_eq_true, beq_iff_eq] at h
  rcases h with ((rfl | rfl) | rfl) | rfl <;> decide

theorem isNumberChar_of_isBlank {c : Char} (h : isBlank c = true) : isNumberChar c = false := by
  simp only [isBlank, Bool.or_eq_true, beq_iff_eq] at h
  rcases h with ((rfl | rfl) | rfl) | rfl <;> decide

/-- A number ends before a blank, or where one is not needed. -/
theorem Ends.blank {ws : Str} (hws : Blank ws) {rest : Str} (h : Ends rest) : Ends (ws ++ rest) := by
  cases ws with
  | nil => exact h
  | cons c ws =>
    rintro d ⟨⟩
    exact isNumberChar_of_isBlank (hws c List.mem_cons_self)

theorem toDigit16_of_hexDigit {c : Char} {v : Nat} (h : HexDigit c v) : toDigit16 c = some v ∧ v < 16 := by
  have hle : ∀ a b : Char, a ≤ b ↔ a.toNat ≤ b.toNat := fun a b => Iff.rfl
  cases h with
  | digit h =>
    refine ⟨if_pos h, ?_⟩
    have hhigh : c.toNat ≤ 57 := h.2
    omega
  | lower h =>
    have hlow : 97 ≤ c.toNat := h.1
    have hhigh : c.toNat ≤ 102 := h.2
    refine ⟨?_, by omega⟩
    have hdigit : ¬ ('0' ≤ c ∧ c ≤ '9') := fun hc => absurd (show c.toNat ≤ 57 from hc.2) (by omega)
    rw [toDigit16, if_neg hdigit, if_pos h]
  | upper h =>
    have hlow : 65 ≤ c.toNat := h.1
    have hhigh : c.toNat ≤ 70 := h.2
    refine ⟨?_, by omega⟩
    have hdigit : ¬ ('0' ≤ c ∧ c ≤ '9') := fun hc => absurd (show c.toNat ≤ 57 from hc.2) (by omega)
    have hlower : ¬ ('a' ≤ c ∧ c ≤ 'f') := fun hc => absurd (show 97 ≤ c.toNat from hc.1) (by omega)
    rw [toDigit16, if_neg hdigit, if_neg hlower, if_pos h]

namespace Parser

theorem skipWs_blank {ws : Str} (hws : Blank ws) {c : Char} (hc : isWhitespace c = false) (rest : Str)
    (pos depth : Nat) : skipWs ⟨ws ++ c :: rest, pos, depth⟩ = ⟨c :: rest, pos + ws.length, depth⟩ := by
  have hblank : ∀ d ∈ ws, isWhitespace d = true := fun d hd => isWhitespace_of_isBlank (hws d hd)
  have hstop : ¬ isWhitespace c = true := by rw [hc]; exact Bool.false_ne_true
  simp only [skipWs, List.dropWhile_append_of_pos hblank, List.takeWhile_append_of_pos hblank,
    List.dropWhile_cons_of_neg hstop, List.takeWhile_cons_of_neg hstop, List.append_nil]

/-! ## Strings -/

theorem readHex4_text {t : Str} {n : Nat} (h : Hex4 t n) (rest : Str) (pos depth : Nat) :
    Yields (readHex4 ⟨t ++ rest, pos, depth⟩) n rest depth := by
  cases h with
  | mk ha hb hc hd =>
    refine ⟨pos + 4, ?_⟩
    simp only [readHex4, readHex, next, List.cons_append, List.nil_append, (toDigit16_of_hexDigit ha).1,
      (toDigit16_of_hexDigit hb).1, (toDigit16_of_hexDigit hc).1, (toDigit16_of_hexDigit hd).1, Nat.zero_mul,
      Nat.zero_add]

theorem hex4_lt {t : Str} {n : Nat} (h : Hex4 t n) : n < 65536 := by
  cases h with
  | mk ha hb hc hd =>
    have := (toDigit16_of_hexDigit ha).2
    have := (toDigit16_of_hexDigit hb).2
    have := (toDigit16_of_hexDigit hc).2
    have := (toDigit16_of_hexDigit hd).2
    omega

theorem unicodeEscape_text {t : Str} {n : Nat} (h : Hex4 t n) (hn : ¬ (0xd800 ≤ n ∧ n ≤ 0xdfff)) (rest : Str)
    (pos depth : Nat) : Yields (unicodeEscape ⟨t ++ rest, pos, depth⟩) (Char.ofNat n) rest depth := by
  obtain ⟨pos', hread⟩ := readHex4_text h rest pos depth
  have hlt := hex4_lt h
  have hvalid : n.isValidChar := by
    simp only [Nat.isValidChar]
    omega
  refine ⟨pos', ?_⟩
  rw [unicodeEscape, hread]
  simp only [bind, Except.bind]
  rw [if_neg (by omega), if_neg (by omega), charOf, if_pos hvalid]

theorem unicodeEscape_pair {t t' : Str} {high low : Nat} (h : Hex4 t high) (h' : Hex4 t' low)
    (hhigh : 0xd800 ≤ high ∧ high ≤ 0xdbff) (hlow : 0xdc00 ≤ low ∧ low ≤ 0xdfff) (rest : Str) (pos depth : Nat) :
    Yields (unicodeEscape ⟨t ++ '\\' :: 'u' :: (t' ++ rest), pos, depth⟩)
      (Char.ofNat (0x10000 + (high - 0xd800) * 1024 + (low - 0xdc00))) rest depth := by
  obtain ⟨pos', hread⟩ := readHex4_text h ('\\' :: 'u' :: (t' ++ rest)) pos depth
  obtain ⟨pos'', hread'⟩ := readHex4_text h' rest (pos' + 1 + 1) depth
  have hvalid : (0x10000 + (high - 0xd800) * 1024 + (low - 0xdc00)).isValidChar := by
    simp only [Nat.isValidChar]
    omega
  refine ⟨pos'', ?_⟩
  rw [unicodeEscape, hread]
  simp only [bind, Except.bind]
  rw [if_pos hhigh]
  simp only [next, ne_eq, not_true_eq_false, or_self, if_false, hread']
  rw [if_neg (not_not_intro hlow), charOf, if_pos hvalid]

/-- One character of a string takes one turn. -/
theorem stringFrom_charText {t : Str} {c : Char} (h : CharText t c) (turns : Nat) (s rest : Str) (pos depth : Nat) :
    ∃ pos', stringFrom (turns + 1) s ⟨t ++ rest, pos, depth⟩ = stringFrom turns (s ++ [c]) ⟨rest, pos', depth⟩ := by
  cases h with
  | plain hcontrol hquote hescape =>
    refine ⟨pos + 1, ?_⟩
    simp only [stringFrom, next, List.cons_append, List.nil_append]
  | short h =>
    refine ⟨pos + 2, ?_⟩
    simp only [shortEscapes, List.mem_cons, Prod.mk.injEq, List.not_mem_nil, or_false] at h
    rcases h with h | h | h | h | h | h | h | h
    all_goals
      obtain ⟨rfl, rfl⟩ := h
      rfl
  | @unicode t n h hn =>
    obtain ⟨pos', hread⟩ := unicodeEscape_text h hn rest (pos + 2) depth
    have hunescape : unescape ⟨'u' :: (t ++ rest), pos + 1, depth⟩ = .ok (Char.ofNat n, ⟨rest, pos', depth⟩) := hread
    refine ⟨pos', ?_⟩
    simp only [stringFrom, next, List.cons_append, hunescape, bind, Except.bind]
  | @pair t t' high low h h' hhigh hlow =>
    obtain ⟨pos', hread⟩ := unicodeEscape_pair h h' hhigh hlow rest (pos + 2) depth
    have hunescape : unescape ⟨'u' :: (t ++ '\\' :: 'u' :: (t' ++ rest)), pos + 1, depth⟩ =
        .ok (Char.ofNat (0x10000 + (high - 0xd800) * 1024 + (low - 0xdc00)), ⟨rest, pos', depth⟩) := hread
    refine ⟨pos', ?_⟩
    simp only [stringFrom, next, List.cons_append, List.append_assoc, hunescape, bind, Except.bind]

theorem stringFrom_chars {body s : Str} (h : Chars body s) (acc : Str) {turns : Nat} (hturns : s.length < turns)
    (rest : Str) (pos depth : Nat) :
    Yields (stringFrom turns acc ⟨body ++ '\x22' :: rest, pos, depth⟩) (acc ++ s) rest depth := by
  induction h generalizing acc turns pos with
  | nil =>
    obtain ⟨turns, rfl⟩ := Nat.exists_eq_succ_of_ne_zero (Nat.ne_of_gt hturns)
    exact ⟨pos + 1, by rw [List.append_nil]; rfl⟩
  | @cons t ts c s h _ ih =>
    obtain ⟨turns, rfl⟩ := Nat.exists_eq_succ_of_ne_zero (Nat.ne_of_gt (Nat.zero_lt_of_lt hturns))
    obtain ⟨pos', hstep⟩ := stringFrom_charText h turns acc (ts ++ '\x22' :: rest) pos depth
    obtain ⟨pos'', hrest⟩ := ih (acc ++ [c]) (Nat.lt_of_succ_lt_succ hturns) pos'
    refine ⟨pos'', ?_⟩
    rw [List.append_assoc, hstep, hrest, List.append_assoc]
    rfl

theorem length_charText {t : Str} {c : Char} (h : CharText t c) : 1 ≤ t.length := by
  cases h <;> simp

theorem length_chars {body s : Str} (h : Chars body s) : s.length ≤ body.length := by
  induction h with
  | nil => exact Nat.le_refl _
  | cons h _ ih =>
    have hchar := length_charText h
    rw [List.length_append, List.length_cons]
    omega

theorem parseString_text {t s : Str} (h : StringText t s) (rest : Str) (pos depth : Nat) :
    Yields (parseString ⟨t ++ rest, pos, depth⟩) s rest depth := by
  obtain ⟨body, hbody, rfl⟩ := h
  have hlen := length_chars hbody
  have hturns : s.length < (body ++ '\x22' :: rest).length + 1 := by
    rw [List.length_append]
    omega
  obtain ⟨pos', h⟩ := stringFrom_chars hbody [] hturns rest (pos + 1) depth
  refine ⟨pos', ?_⟩
  rw [List.cons_append, List.append_assoc, List.singleton_append]
  rw [List.nil_append] at h
  exact h

/-! ## Numbers -/

theorem isAsciiDigit_eq (c : Char) : isAsciiDigit c = c.isDigit := rfl

theorem isNumberChar_of_mem {n : Number} {c : Char} (h : c ∈ n.text) : isNumberChar c = true := by
  unfold isNumberChar
  rcases Number.mem_text h with h | rfl | rfl | rfl | rfl | rfl
  · rw [isAsciiDigit_eq, h]
    rfl
  all_goals decide

section Values

variable {F : Type} [WireFloat64 F]

theorem parse_number_text [DecimalFloat64 F] (n : Number) : WireFloat64.parse n.text = some (denotedNumber n : F) :=
  DecimalFloat64.parse_number n

/-! ## Values -/

/-- What the loops need of a value. -/
def ReadsText (parseValue : Parser → Except JsonError (Json F × Parser)) (depth : Nat) (t : Str) (v : Json F) : Prop :=
  ∀ ws rest pos, Blank ws → Ends rest → Yields (parseValue ⟨ws ++ (t ++ rest), pos, depth⟩) v rest depth

/-- The blanks before a value are passed over first. -/
theorem parseValue_blank {ws : Str} (hws : Blank ws) {c : Char} (hc : isWhitespace c = false) (levels : Nat)
    (rest : Str) (pos depth : Nat) : parseValue (F := F) (levels + 1) ⟨ws ++ c :: rest, pos, depth⟩ =
      parseValue (levels + 1) ⟨c :: rest, pos + ws.length, depth⟩ := by
  rw [parseValue, parseValue, skipWs_blank hws hc, skipWs_cons hc]

theorem ends_bracket (rest : Str) : Ends (']' :: rest) := by rintro c ⟨⟩; decide
theorem ends_brace (rest : Str) : Ends ('\x7d' :: rest) := by rintro c ⟨⟩; decide
theorem ends_comma (rest : Str) : Ends (',' :: rest) := by rintro c ⟨⟩; decide

theorem skipWs_string {ws t s : Str} (hws : Blank ws) (h : StringText t s) (rest : Str) (pos depth : Nat) :
    skipWs ⟨ws ++ (t ++ rest), pos, depth⟩ = ⟨t ++ rest, pos + ws.length, depth⟩ := by
  obtain ⟨body, -, rfl⟩ := h
  exact skipWs_blank hws (by decide) _ pos depth

section Loops

variable {parseValue : Parser → Except JsonError (Json F × Parser)} {depth : Nat}

theorem itemsFrom_text {item : Item} {items : List Item}
    (hread : ∀ i ∈ item :: items, ReadsText parseValue (depth + 1) i.text (denoted i.value)) (acc : List (Json F))
    {turns : Nat} (h : items.length < turns) (rest : Str) (pos : Nat) :
    Yields (itemsFrom parseValue turns acc ⟨commas ((item :: items).map Item.full) ++ ']' :: rest, pos, depth + 1⟩)
      (.arr (acc ++ (item :: items).map fun i => denoted i.value)) rest depth := by
  induction items generalizing item acc turns pos with
  | nil =>
    obtain ⟨turns, rfl⟩ := Nat.exists_eq_succ_of_ne_zero (Nat.ne_of_gt h)
    obtain ⟨pos', hv⟩ := hread item List.mem_cons_self item.before (item.after ++ ']' :: rest) pos item.blank_before
      (.blank item.blank_after (ends_bracket rest))
    refine ⟨pos' + item.after.length + 1, ?_⟩
    rw [itemsFrom, List.map_singleton, commas, Item.full, List.append_assoc, List.append_assoc, hv]
    simp only [bind, Except.bind, skipWs_blank item.blank_after (show isWhitespace ']' = false by decide), next]
    rfl
  | cons next items ih =>
    obtain ⟨turns, rfl⟩ := Nat.exists_eq_succ_of_ne_zero (Nat.ne_of_gt (Nat.zero_lt_of_lt h))
    obtain ⟨hv, hrest⟩ := List.forall_mem_cons.mp hread
    let after := ',' :: (commas ((next :: items).map Item.full) ++ ']' :: rest)
    obtain ⟨pos', hv⟩ := hv item.before (item.after ++ after) pos item.blank_before
      (.blank item.blank_after (ends_comma _))
    obtain ⟨pos'', hloop⟩ := ih hrest (acc ++ [denoted item.value]) (Nat.lt_of_succ_lt_succ h)
      (pos' + item.after.length + 1)
    refine ⟨pos'', ?_⟩
    have htext : commas ((item :: next :: items).map Item.full) ++ ']' :: rest =
        item.before ++ (item.text ++ (item.after ++ after)) := by
      simp only [List.map_cons, commas, Item.full, List.append_assoc, List.cons_append, after]
    rw [itemsFrom, htext, hv]
    simp only [bind, Except.bind, after, skipWs_blank item.blank_after (show isWhitespace ',' = false by decide),
      Parser.next]
    rw [hloop, List.append_assoc, List.singleton_append, List.map_cons]
    rfl

theorem entriesFrom_text {member : Member} {members : List Member}
    (hread : ∀ m ∈ member :: members, ReadsText parseValue (depth + 1) m.item.text (denoted m.item.value))
    (acc : List (Str × Json F)) {turns : Nat} (h : members.length < turns) (rest : Str) (pos : Nat) :
    Yields (entriesFrom parseValue turns acc
        ⟨commas ((member :: members).map Member.full) ++ '\x7d' :: rest, pos, depth + 1⟩)
      (.obj ((member :: members).foldl (fun map m => insertKey m.key (denoted m.item.value) map) acc)) rest depth := by
  induction members generalizing member acc turns pos with
  | nil =>
    obtain ⟨turns, rfl⟩ := Nat.exists_eq_succ_of_ne_zero (Nat.ne_of_gt h)
    let last := member.item.after ++ '\x7d' :: rest
    let value := member.item.before ++ (member.item.text ++ last)
    obtain ⟨pos', hk⟩ := parseString_text member.key_text (member.after ++ ':' :: value) (pos + member.before.length)
      (depth + 1)
    obtain ⟨pos'', hv⟩ := hread member List.mem_cons_self member.item.before last (pos' + member.after.length + 1)
      member.item.blank_before (.blank member.item.blank_after (ends_brace rest))
    refine ⟨pos'' + member.item.after.length + 1, ?_⟩
    have htext : commas ([member].map Member.full) ++ '\x7d' :: rest =
        member.before ++ (member.keyText ++ (member.after ++ ':' :: value)) := by
      simp only [List.map_singleton, commas, Member.full, Item.full, List.append_assoc, List.cons_append, value, last]
    rw [entriesFrom, htext, skipWs_string member.blank_before member.key_text, hk]
    simp only [bind, Except.bind, skipWs_blank member.blank_after (show isWhitespace ':' = false by decide), next,
      value, hv, last, skipWs_blank member.item.blank_after (show isWhitespace '\x7d' = false by decide)]
    rfl
  | cons next members ih =>
    obtain ⟨turns, rfl⟩ := Nat.exists_eq_succ_of_ne_zero (Nat.ne_of_gt (Nat.zero_lt_of_lt h))
    obtain ⟨hv, hrest⟩ := List.forall_mem_cons.mp hread
    let last := member.item.after ++ ',' :: (commas ((next :: members).map Member.full) ++ '\x7d' :: rest)
    let value := member.item.before ++ (member.item.text ++ last)
    obtain ⟨pos', hk⟩ := parseString_text member.key_text (member.after ++ ':' :: value) (pos + member.before.length)
      (depth + 1)
    obtain ⟨pos'', hv⟩ := hv member.item.before last (pos' + member.after.length + 1)
      member.item.blank_before (.blank member.item.blank_after (ends_comma _))
    obtain ⟨pos₃, hloop⟩ := ih hrest (insertKey member.key (denoted member.item.value) acc)
      (Nat.lt_of_succ_lt_succ h) (pos'' + member.item.after.length + 1)
    refine ⟨pos₃, ?_⟩
    have htext : commas ((member :: next :: members).map Member.full) ++ '\x7d' :: rest =
        member.before ++ (member.keyText ++ (member.after ++ ':' :: value)) := by
      simp only [List.map_cons, commas, Member.full, Item.full, List.append_assoc, List.cons_append, value, last]
    rw [entriesFrom, htext, skipWs_string member.blank_before member.key_text, hk]
    simp only [bind, Except.bind, skipWs_blank member.blank_after (show isWhitespace ':' = false by decide),
      Parser.next, value, hv, last, skipWs_blank member.item.blank_after (show isWhitespace ',' = false by decide)]
    rw [hloop]
    rfl

end Loops

/-- The first character of a value decides how it is read. -/
theorem denotes_head {levels : Nat} {t : Str} {v : Value} (h : Denotes levels t v) :
    ∃ c text, t = c :: text ∧ isWhitespace c = false ∧ c ≠ ']' := by
  cases h with
  | null => exact ⟨'n', "ull".toList, rfl, by decide, by decide⟩
  | bool b =>
    cases b
    · exact ⟨'f', "alse".toList, rfl, by decide, by decide⟩
    · exact ⟨'t', "rue".toList, rfl, by decide, by decide⟩
  | num n =>
    obtain ⟨c, text, htext, hc⟩ := n.text_head
    exact ⟨c, text, htext, number_head hc⟩
  | str h =>
    obtain ⟨body, -, rfl⟩ := h
    exact ⟨'\x22', _, rfl, by decide, by decide⟩
  | emptyArr _ => exact ⟨'[', _, rfl, by decide, by decide⟩
  | arr _ => exact ⟨'[', _, rfl, by decide, by decide⟩
  | emptyObj _ => exact ⟨'\x7b', _, rfl, by decide, by decide⟩
  | obj _ => exact ⟨'\x7b', _, rfl, by decide, by decide⟩

/-- A value that reads back at its first character reads back behind blanks. -/
theorem readsText_of_head {levels depth : Nat} {t : Str} {v : Json F}
    (hhead : ∃ c text, t = c :: text ∧ isWhitespace c = false)
    (h : ∀ rest pos, Ends rest → Yields (parseValue (levels + 1) ⟨t ++ rest, pos, depth⟩) v rest depth) :
    ReadsText (parseValue (levels + 1)) depth t v := by
  intro ws rest pos hws hends
  obtain ⟨c, text, rfl, hc⟩ := hhead
  obtain ⟨pos', hread⟩ := h rest (pos + ws.length) hends
  refine ⟨pos', ?_⟩
  rw [List.cons_append, parseValue_blank hws hc]
  exact hread

theorem parseArray_text {levels depth : Nat} {item : Item} {items : List Item}
    (hread : ∀ i ∈ item :: items, ReadsText (parseValue levels) (depth + 1) i.text (denoted i.value : Json F))
    (hhead : ∃ c text, item.text = c :: text ∧ isWhitespace c = false ∧ c ≠ ']')
    (hdepth : depth < maxDepth) (rest : Str) (pos : Nat) :
    Yields (parseValue (levels + 1) ⟨'[' :: (commas ((item :: items).map Item.full) ++ ']' :: rest), pos, depth⟩)
      (.arr ((item :: items).map fun i => (denoted i.value : Json F))) rest depth := by
  obtain ⟨c, text, htext, hwhite, hbracket⟩ := hhead
  let body := commas ((item.strip :: items).map Item.full) ++ ']' :: rest
  have hbefore : commas ((item :: items).map Item.full) ++ ']' :: rest = item.before ++ body := by
    rw [List.map_cons, Item.full, commas_append, List.append_assoc]
    rfl
  obtain ⟨text', hbody⟩ : ∃ text', body = c :: text' := by
    refine ⟨text ++ (commas (item.after :: items.map Item.full) ++ ']' :: rest), ?_⟩
    show commas (([] ++ (item.text ++ item.after)) :: items.map Item.full) ++ ']' :: rest = _
    rw [List.nil_append, commas_append, htext, List.append_assoc, List.cons_append]
  have hskip : skipWs ⟨commas ((item :: items).map Item.full) ++ ']' :: rest, pos + 1, depth + 1⟩ =
      ⟨body, pos + 1 + item.before.length, depth + 1⟩ := by
    rw [hbefore, hbody]
    exact skipWs_blank item.blank_before hwhite text' (pos + 1) (depth + 1)
  have hpeek : peek ⟨body, pos + 1 + item.before.length, depth + 1⟩ ≠ some ']' := by
    rw [hbody]
    exact fun heq => hbracket (Option.some.inj heq)
  have hlen := length_commas item.strip.full (items.map Item.full)
  rw [List.length_map] at hlen
  have hturns : items.length < body.length + 1 := by
    rw [List.length_append, List.map_cons]
    omega
  have hstrip : ∀ i ∈ item.strip :: items,
      ReadsText (parseValue levels) (depth + 1) i.text (denoted i.value : Json F) :=
    List.forall_mem_cons.mpr ⟨hread item List.mem_cons_self, fun i hi => hread i (List.mem_cons_of_mem item hi)⟩
  rw [parseValue_array hdepth hskip, if_neg hpeek]
  exact itemsFrom_text hstrip [] hturns rest _

theorem parseObject_text {levels depth : Nat} {member : Member} {members : List Member}
    (hread : ∀ m ∈ member :: members,
      ReadsText (parseValue levels) (depth + 1) m.item.text (denoted m.item.value : Json F))
    (hdepth : depth < maxDepth) (rest : Str) (pos : Nat) :
    Yields (parseValue (levels + 1)
        ⟨'\x7b' :: (commas ((member :: members).map Member.full) ++ '\x7d' :: rest), pos, depth⟩)
      (.obj (lastWins ((member :: members).map fun m => (m.key, (denoted m.item.value : Json F))))) rest depth := by
  obtain ⟨key, -, hkey⟩ := member.key_text
  let body := commas ((member.strip :: members).map Member.full) ++ '\x7d' :: rest
  have hbefore : commas ((member :: members).map Member.full) ++ '\x7d' :: rest = member.before ++ body := by
    rw [List.map_cons, Member.full, commas_append, List.append_assoc]
    rfl
  obtain ⟨text', hbody⟩ : ∃ text', body = '\x22' :: text' := by
    refine ⟨(key ++ ['\x22']) ++ (commas ((member.after ++ ':' :: member.item.full) :: members.map Member.full) ++
      '\x7d' :: rest), ?_⟩
    show commas (([] ++ (member.keyText ++ (member.after ++ ':' :: member.item.full))) :: members.map Member.full) ++
      '\x7d' :: rest = _
    rw [List.nil_append, commas_append, hkey, List.append_assoc, List.cons_append]
  have hskip : skipWs ⟨commas ((member :: members).map Member.full) ++ '\x7d' :: rest, pos + 1, depth + 1⟩ =
      ⟨body, pos + 1 + member.before.length, depth + 1⟩ := by
    rw [hbefore, hbody]
    exact skipWs_blank member.blank_before (by decide) text' (pos + 1) (depth + 1)
  have hpeek : peek ⟨body, pos + 1 + member.before.length, depth + 1⟩ ≠ some '\x7d' := by
    rw [hbody]
    exact fun heq => absurd (Option.some.inj heq) (by decide)
  have hlen := length_commas member.strip.full (members.map Member.full)
  rw [List.length_map] at hlen
  have hturns : members.length < body.length + 1 := by
    rw [List.length_append, List.map_cons]
    omega
  have hstrip : ∀ m ∈ member.strip :: members,
      ReadsText (parseValue levels) (depth + 1) m.item.text (denoted m.item.value : Json F) :=
    List.forall_mem_cons.mpr ⟨hread member List.mem_cons_self, fun m hm => hread m (List.mem_cons_of_mem member hm)⟩
  rw [parseValue_object hdepth hskip, if_neg hpeek, ← foldl_insertKey_eq, List.foldl_map]
  exact entriesFrom_text hstrip [] hturns rest _

/-- What a text of the grammar stands for is read from it within its levels. -/
theorem parseValue_text [DecimalFloat64 F] {n : Nat} {t : Str} {v : Value} (h : Denotes n t v) :
    ∀ {levels depth : Nat}, n < levels → depth + n ≤ maxDepth →
      ReadsText (parseValue levels) depth t (denoted v : Json F) := by
  have hhead : ∀ {n : Nat} {t : Str} {v : Value}, Denotes n t v → ∃ c text, t = c :: text ∧ isWhitespace c = false := by
    intro n t v h
    obtain ⟨c, text, htext, hc, -⟩ := denotes_head h
    exact ⟨c, text, htext, hc⟩
  induction h with
  | @null n =>
    intro levels depth hlevels _
    obtain ⟨levels, rfl⟩ := Nat.exists_eq_succ_of_ne_zero (Nat.ne_of_gt (Nat.zero_lt_of_lt hlevels))
    exact readsText_of_head (hhead (@Denotes.null n)) fun rest pos _ => ⟨pos + 4, rfl⟩
  | @bool n b =>
    intro levels depth hlevels _
    obtain ⟨levels, rfl⟩ := Nat.exists_eq_succ_of_ne_zero (Nat.ne_of_gt (Nat.zero_lt_of_lt hlevels))
    refine readsText_of_head (hhead (@Denotes.bool n b)) fun rest pos _ => ?_
    cases b
    · exact ⟨pos + 5, rfl⟩
    · exact ⟨pos + 4, rfl⟩
  | @num n x =>
    intro levels depth hlevels _
    obtain ⟨levels, rfl⟩ := Nat.exists_eq_succ_of_ne_zero (Nat.ne_of_gt (Nat.zero_lt_of_lt hlevels))
    refine readsText_of_head (hhead (@Denotes.num n x)) fun rest pos hends => ?_
    obtain ⟨c, text, htext, hc⟩ := x.text_head
    have hne : x.text ≠ [] := htext ▸ List.cons_ne_nil c text
    obtain ⟨pos', hread⟩ :=
      parseNumber_text hne (fun _ => isNumberChar_of_mem) (parse_number_text (F := F) x) hends pos depth
    refine ⟨pos', ?_⟩
    rw [htext, List.cons_append] at hread ⊢
    rw [parseValue_number hc]
    exact hread
  | @str n t s h =>
    intro levels depth hlevels _
    obtain ⟨levels, rfl⟩ := Nat.exists_eq_succ_of_ne_zero (Nat.ne_of_gt (Nat.zero_lt_of_lt hlevels))
    refine readsText_of_head (hhead (@Denotes.str n _ _ h)) fun rest pos _ => ?_
    obtain ⟨pos', hread⟩ := parseString_text h rest pos depth
    have hskip : skipWs ⟨t ++ rest, pos, depth⟩ = ⟨t ++ rest, pos, depth⟩ :=
      @skipWs_string [] _ _ blank_nil h rest pos depth
    have hpeek : peek ⟨t ++ rest, pos, depth⟩ = some '\x22' := by
      obtain ⟨body, -, rfl⟩ := h
      rfl
    refine ⟨pos', ?_⟩
    rw [parseValue, hskip]
    dsimp only
    rw [hpeek, hread]
    rfl
  | @emptyArr n ws hws =>
    intro levels depth hlevels hdepth
    obtain ⟨levels, rfl⟩ := Nat.exists_eq_succ_of_ne_zero (Nat.ne_of_gt (Nat.zero_lt_of_lt hlevels))
    refine readsText_of_head (hhead (@Denotes.emptyArr n _ hws)) fun rest pos _ => ?_
    rw [List.cons_append, List.append_assoc, List.singleton_append,
      parseValue_array (by omega) (skipWs_blank hws (by decide) rest (pos + 1) (depth + 1))]
    exact ⟨_, rfl⟩
  | @arr n item items h ih =>
    intro levels depth hlevels hdepth
    obtain ⟨levels, rfl⟩ := Nat.exists_eq_succ_of_ne_zero (Nat.ne_of_gt (Nat.zero_lt_of_lt hlevels))
    refine readsText_of_head (hhead (.arr h)) fun rest pos _ => ?_
    have hread : ∀ i ∈ item :: items, ReadsText (parseValue levels) (depth + 1) i.text (denoted i.value : Json F) :=
      fun i hi => ih i hi (by omega) (by omega)
    rw [List.cons_append, List.append_assoc, List.singleton_append, denoted, denotedItems_eq_map, List.map_map]
    exact parseArray_text hread (denotes_head (h item List.mem_cons_self)) (by omega) rest pos
  | @emptyObj n ws hws =>
    intro levels depth hlevels hdepth
    obtain ⟨levels, rfl⟩ := Nat.exists_eq_succ_of_ne_zero (Nat.ne_of_gt (Nat.zero_lt_of_lt hlevels))
    refine readsText_of_head (hhead (@Denotes.emptyObj n _ hws)) fun rest pos _ => ?_
    rw [List.cons_append, List.append_assoc, List.singleton_append,
      parseValue_object (by omega) (skipWs_blank hws (by decide) rest (pos + 1) (depth + 1))]
    exact ⟨_, rfl⟩
  | @obj n member members h ih =>
    intro levels depth hlevels hdepth
    obtain ⟨levels, rfl⟩ := Nat.exists_eq_succ_of_ne_zero (Nat.ne_of_gt (Nat.zero_lt_of_lt hlevels))
    refine readsText_of_head (hhead (.obj h)) fun rest pos _ => ?_
    have hread : ∀ m ∈ member :: members,
        ReadsText (parseValue levels) (depth + 1) m.item.text (denoted m.item.value : Json F) :=
      fun m hm => ih m hm (by omega) (by omega)
    rw [List.cons_append, List.append_assoc, List.singleton_append, denoted, denotedMembers_eq_map, List.map_map]
    exact parseObject_text hread (by omega) rest pos

end Values

end Parser

/-! ## The two directions -/

section

variable {F : Type} [WireFloat64 F] [DecimalFloat64 F]

theorem Json.parse_document {n : Nat} {t : Str} {v : Value} (hn : n ≤ maxDepth) (h : Document n t v) :
    Json.parse t = .ok (denoted v : Json F) := by
  obtain ⟨item, h, rfl, rfl⟩ := h
  obtain ⟨c, text, htext, hwhite, -⟩ := Parser.denotes_head h
  have hends : Ends item.after := by
    have hempty : Ends [] := fun c hc => by cases hc
    have hblank := Ends.blank item.blank_after hempty
    rwa [List.append_nil] at hblank
  obtain ⟨pos, hread⟩ := Parser.parseValue_text (F := F) h (Nat.lt_succ_of_le hn) (by omega : 0 + n ≤ maxDepth) []
    item.after item.before.length blank_nil hends
  have hskip : Parser.skipWs ⟨item.full, 0, 0⟩ = ⟨item.text ++ item.after, item.before.length, 0⟩ := by
    rw [Item.full, htext, List.cons_append, Parser.skipWs_blank item.blank_before hwhite, Nat.zero_add]
  have hend : (Parser.skipWs ⟨item.after, pos, 0⟩).rest = [] :=
    List.dropWhile_eq_nil_iff.mpr fun c hc => isWhitespace_of_isBlank (item.blank_after c hc)
  rw [List.nil_append] at hread
  rw [Json.parse, hskip, hread]
  show (if (Parser.skipWs ⟨item.after, pos, 0⟩).rest ≠ [] then _ else _) = _
  rw [hend, if_neg (not_not_intro rfl)]

/-- Built from whole numbers below `1e15`, texts, arrays and objects that nest at most `levels` deep. -/
inductive Json.Plain : Nat → Json F → Prop
  | null {levels : Nat} : Json.Plain levels .null
  | bool {levels : Nat} (b : Bool) : Json.Plain levels (.bool b)
  | num {levels : Nat} (i : Int) (h : i.natAbs < 10 ^ 15) : Json.Plain levels (.num (Scalar.lit i))
  | str {levels : Nat} (s : Str) : Json.Plain levels (.str s)
  | arr {levels : Nat} {items : List (Json F)} (h : ∀ v ∈ items, Json.Plain levels v) :
      Json.Plain (levels + 1) (.arr items)
  | obj {levels : Nat} {entries : List (Str × Json F)} (hkeys : entries.Pairwise fun a b => compare a.1 b.1 = .lt)
      (h : ∀ e ∈ entries, Json.Plain levels e.2) : Json.Plain (levels + 1) (.obj entries)

theorem denotedNumber_ofInt {i : Int} (h : i.natAbs < 10 ^ 15) :
    denotedNumber (Number.ofInt i) = (Scalar.lit i : F) := by
  rw [denotedNumber, Number.ofInt_magnitude]
  by_cases hneg : i < 0
  · have habs : (i.natAbs : ℚ) = -i := by
      rw [← Int.cast_natCast, show (i.natAbs : Int) = -i by omega, Int.cast_neg]
    rw [if_pos (by simpa [Number.ofInt] using hneg), DecimalFloat64.neg_whole _ (by omega) h, habs, neg_neg]
  · have habs : (i.natAbs : ℚ) = i := by rw [← Int.cast_natCast, show (i.natAbs : Int) = i by omega]
    rw [if_neg (by simpa [Number.ofInt] using hneg), habs]

theorem prints_whole {i : Int} (h : i.natAbs < 10 ^ 15) : Prints (Scalar.lit i : F) := by
  have hwrite : Json.writeNum (Scalar.lit i : F) = (Number.ofInt i).text := by
    rw [Json.writeNum, DecimalFloat64.fract_whole i h, DecimalFloat64.abs_whole i h, DecimalFloat64.toI64_whole i h,
      Number.ofInt_text]
    rfl
  constructor
  · rw [hwrite]
    exact (Number.ofInt i).text_head
  · rw [hwrite]
    exact fun c hc => Parser.isNumberChar_of_mem hc
  · rw [hwrite, Parser.parse_number_text, denotedNumber_ofInt h]

theorem Json.Plain.canonical {n : Nat} {v : Json F} (h : Json.Plain n v) : Canonical n v := by
  induction h with
  | null => exact .null
  | bool b => exact .bool b
  | num i h => exact .num (prints_whole h)
  | str s => exact .str s
  | arr _ ih => exact .arr ih
  | obj hkeys _ ih => exact .obj hkeys ih

/-- What is written is read back, and every text of the grammar is read as what it stands for. -/
theorem Json.lossless_and_complete :
    (∀ (n : Nat) (v : Json F), n ≤ maxDepth → Json.Plain n v → Json.parse v.write = .ok v) ∧
      ∀ (n : Nat) (t : Str) (v : Value), n ≤ maxDepth → Document n t v → Json.parse t = .ok (denoted v : Json F) :=
  ⟨fun _ _ hn h => Json.parse_write h.canonical hn, fun _ _ _ hn h => Json.parse_document hn h⟩

end

/-! ## A text of two members -/

namespace Sample

def bare (text : Str) (value : Value) : Item := ⟨[], text, [], value, blank_nil, blank_nil⟩

def padded (text : Str) (value : Value) : Item := ⟨[' '], text, [], value, by decide, blank_nil⟩

/-- `-2.50e+1`. -/
def negative : Number where
  negative := true
  int := ['2']
  frac := ['5', '0']
  exponent := some ⟨'e', ['+'], ['1'], .inl rfl, .inr (.inl rfl), by decide, by decide⟩
  int_ne := by decide
  int_digits := by decide
  leading_zero := fun rest h => absurd (List.cons.inj h).1 (by decide)
  frac_digits := by decide

def face : Str := [Char.ofNat 0xe9, Char.ofNat 0x1f600]

def items : List Item :=
  [bare ['1'] (.num (.ofInt 1)), padded negative.text (.num negative),
    padded "\x22\\u00e9\\ud83d\\uDE00\x22".toList (.str face)]

theorem key_text : StringText "\x22a\x22".toList ['a'] :=
  ⟨['a'], .cons (.plain (by decide) (by decide) (by decide)) .nil, rfl⟩

def first : Member where
  before := []
  keyText := "\x22a\x22".toList
  after := []
  key := ['a']
  item := padded ('[' :: (commas (items.map Item.full) ++ [']'])) (.arr (items.map Item.value))
  blank_before := blank_nil
  blank_after := blank_nil
  key_text := key_text

/-- The same key again. -/
def second : Member where
  before := ['\n']
  keyText := "\x22a\x22".toList
  after := ['\t']
  key := ['a']
  item := bare "true".toList (.bool true)
  blank_before := by decide
  blank_after := by decide
  key_text := key_text

def value : Value := .obj ([first, second].map fun m => (m.key, m.item.value))

def text : Str :=
  " \x7b\x22a\x22: [1, -2.50e+1, \x22\\u00e9\\ud83d\\uDE00\x22],\n\x22a\x22\t:true\x7d".toList

theorem face_text : StringText "\x22\\u00e9\\ud83d\\uDE00\x22".toList face := by
  refine ⟨"\\u00e9\\ud83d\\uDE00".toList, ?_, rfl⟩
  have hlow : Hex4 ['0', '0', 'e', '9'] 0xe9 :=
    .mk (.digit (by decide)) (.digit (by decide)) (.lower (by decide)) (.digit (by decide))
  have hhigh : Hex4 ['d', '8', '3', 'd'] 0xd83d :=
    .mk (.lower (by decide)) (.digit (by decide)) (.digit (by decide)) (.lower (by decide))
  have hlast : Hex4 ['D', 'E', '0', '0'] 0xde00 :=
    .mk (.upper (by decide)) (.upper (by decide)) (.digit (by decide)) (.digit (by decide))
  exact .cons (.unicode hlow (by decide)) (.cons (.pair hhigh hlast (by decide) (by decide)) .nil)

theorem document : Document 2 text value := by
  refine ⟨padded ('\x7b' :: (commas ([first, second].map Member.full) ++ ['\x7d'])) value, ?_, by decide, rfl⟩
  refine .obj (List.forall_mem_cons.mpr ⟨.arr ?_, List.forall_mem_singleton.mpr (.bool true)⟩)
  refine List.forall_mem_cons.mpr ⟨.num (.ofInt 1), List.forall_mem_cons.mpr ⟨.num negative, ?_⟩⟩
  exact List.forall_mem_singleton.mpr (.str face_text)

/-- An object of one key, over an array. -/
def plain : Json ℚ := .obj [(face, .arr [.num (Scalar.lit (-7 : Int)), .str face, .null])]

theorem plain_plain : Json.Plain 2 plain := by
  refine .obj (List.pairwise_singleton _ _) (List.forall_mem_singleton.mpr (.arr ?_))
  refine List.forall_mem_cons.mpr ⟨.num (-7) (by decide), List.forall_mem_cons.mpr ⟨.str face, ?_⟩⟩
  exact List.forall_mem_singleton.mpr .null

theorem text_and_plain_read : Json.parse plain.write = .ok plain ∧
    Json.parse text = .ok (.obj [(['a'], .bool true)] : Json ℚ) :=
  ⟨Json.lossless_and_complete.1 2 plain (by decide) plain_plain,
    Json.lossless_and_complete.2 2 text value (by decide) document⟩

end Sample

end Ccos
