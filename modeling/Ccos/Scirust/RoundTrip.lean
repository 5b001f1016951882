import Ccos.Lib.Ascii
import Ccos.Scirust.Json
import Ccos.Wire.Grammar

/-!
# Both layouts read back

What either layout makes of a value is read back as that value, whatever blanks come before it, and the compact layout
stays on one line.
-/

open JsonText

namespace Ccos.Scirust

/-- What is documented of `f64`: a whole number is finite and is its own integer part. -/
class WholeFloat64 (F : Type) [TruncFloat64 F] : Prop extends DecimalFloat64 F where
  finite_whole : ∀ i : Int, i.natAbs < 10 ^ 15 → Float64.isFinite (Scalar.lit i : F) = true
  trunc_whole : ∀ i : Int, i.natAbs < 10 ^ 15 →
    Scalar.eq (Scalar.lit i : F) (TruncFloat64.trunc (Scalar.lit i)) = true

/-- The value was read, and `rest` is left. -/
def Yields {A : Type} (x : Except JsonError (A × Parser)) (a : A) (rest : List UInt8) (depth : Nat) : Prop :=
  ∃ i, x = .ok (a, ⟨rest, i, depth⟩)

/-! ## Bytes of characters -/

theorem utf8Len_eq (b : UInt8) : utf8Len b =
    if b.toNat < 128 then 1 else if b.toNat / 32 = 6 then 2 else if b.toNat / 16 = 14 then 3
    else if b.toNat / 8 = 30 then 4 else 1 := by
  have hlt : b < 0x80 ↔ b.toNat < 128 := UInt8.lt_iff_toNat_lt
  have h5 : b >>> 5 = 6 ↔ b.toNat / 32 = 6 := by
    rw [← UInt8.toNat_inj, UInt8.toNat_shiftRight, Nat.shiftRight_eq_div_pow]
    rfl
  have h4 : b >>> 4 = 14 ↔ b.toNat / 16 = 14 := by
    rw [← UInt8.toNat_inj, UInt8.toNat_shiftRight, Nat.shiftRight_eq_div_pow]
    rfl
  have h3 : b >>> 3 = 30 ↔ b.toNat / 8 = 30 := by
    rw [← UInt8.toNat_inj, UInt8.toNat_shiftRight, Nat.shiftRight_eq_div_pow]
    rfl
  unfold utf8Len
  simp only [hlt, h5, h4, h3]

/-- The first byte of a character tells how many there are. -/
theorem utf8EncodeChar_head (c : Char) :
    ∃ b tail, String.utf8EncodeChar c = b :: tail ∧ utf8Len b = (String.utf8EncodeChar c).length := by
  have hvalid : c.val.toNat < 0x110000 := by
    have h := c.valid
    simp only [UInt32.isValidChar, Nat.isValidChar] at h
    omega
  unfold String.utf8EncodeChar
  dsimp only
  split_ifs
  · refine ⟨_, _, rfl, ?_⟩
    rw [utf8Len_eq, UInt8.toNat_ofNat', if_pos (by omega)]
    rfl
  · refine ⟨_, _, rfl, ?_⟩
    rw [utf8Len_eq, UInt8.toNat_ofNat', if_neg (by omega), if_pos (by omega)]
    rfl
  · refine ⟨_, _, rfl, ?_⟩
    rw [utf8Len_eq, UInt8.toNat_ofNat', if_neg (by omega), if_neg (by omega), if_pos (by omega)]
    rfl
  · refine ⟨_, _, rfl, ?_⟩
    rw [utf8Len_eq, UInt8.toNat_ofNat', if_neg (by omega), if_neg (by omega), if_neg (by omega), if_pos (by omega)]
    rfl

theorem utf8_singleton (c : Char) : utf8 [c] = String.utf8EncodeChar c := List.append_nil _

theorem byte_eq_iff {c d : Char} (hc : c.toNat < 256) (hd : d.toNat < 256) : byte c = byte d ↔ c = d := by
  rw [byte, byte, ← UInt8.toNat_inj, UInt8.toNat_ofNat', UInt8.toNat_ofNat', Nat.mod_eq_of_lt hc, Nat.mod_eq_of_lt hd]
  exact ⟨Char.toNat_inj.mp, congrArg _⟩

/-- No byte of a character that is not ASCII is an ASCII byte. -/
theorem byte_not_mem {c d : Char} (hd : d.toNat < 128) (h : c ≠ d) : byte d ∉ String.utf8EncodeChar c := by
  intro hmem
  by_cases hc : c.toNat < 128
  · rw [utf8EncodeChar_of_ascii hc, List.mem_singleton] at hmem
    exact h ((byte_eq_iff (by omega) (by omega)).mp hmem).symm
  · have hle := le_of_mem_utf8EncodeChar (Nat.le_of_not_lt hc) hmem
    rw [UInt8.le_iff_toNat_le, byte, UInt8.toNat_ofNat'] at hle
    have hmod : d.toNat % 2 ^ 8 = d.toNat := Nat.mod_eq_of_lt (by omega)
    rw [hmod] at hle
    exact absurd (show 128 ≤ d.toNat from hle) (by omega)

theorem utf8_map_byte {s : Str} (h : IsAscii s) : utf8 s = s.map byte := utf8_of_ascii h

/-! ## Blanks -/

def Blank (ws : List UInt8) : Prop := ∀ b ∈ ws, isWs b = true

theorem blank_newlineIndent (indent : Option Nat) (level : Nat) : Blank (utf8 (newlineIndent indent level)) := by
  intro b hb
  obtain ⟨c, hc, hbyte⟩ := List.mem_flatMap.mp hb
  cases indent with
  | none => exact absurd hc List.not_mem_nil
  | some w =>
    rcases List.mem_cons.mp hc with rfl | hc
    · rw [List.mem_singleton.mp hbyte]
      decide
    · rw [List.eq_of_mem_replicate hc] at hbyte
      rw [List.mem_singleton.mp hbyte]
      decide

namespace Parser

theorem ws_blank {ws : List UInt8} (hws : Blank ws) {b : UInt8} (hb : isWs b = false) (rest : List UInt8)
    (i depth : Nat) : Parser.ws ⟨ws ++ b :: rest, i, depth⟩ = ⟨b :: rest, i + ws.length, depth⟩ := by
  have htake : (ws ++ b :: rest).takeWhile isWs = ws := by
    rw [List.takeWhile_append_of_pos hws, List.takeWhile_cons_of_neg (by rw [hb]; exact Bool.false_ne_true),
      List.append_nil]
  rw [Parser.ws, htake, advance, List.drop_left]

theorem ws_cons {b : UInt8} (hb : isWs b = false) (rest : List UInt8) (i depth : Nat) :
    Parser.ws ⟨b :: rest, i, depth⟩ = ⟨b :: rest, i, depth⟩ := @ws_blank [] nofun b hb rest i depth

/-! ## Strings -/

theorem hexDigit_digitChar {n : Nat} (h : n < 16) : hexDigit (byte n.digitChar) = some n := by
  interval_cases n <;> decide

theorem utf8_hexPad (n : Nat) : utf8 (hexPad 4 n) = [byte (n / 4096 % 16).digitChar, byte (n / 256 % 16).digitChar,
    byte (n / 16 % 16).digitChar, byte (n % 16).digitChar] := by
  have hascii : IsAscii (hexPad 4 n) := by
    intro c hc
    obtain ⟨k, -, rfl⟩ := List.mem_map.mp hc
    have hlt := Nat.mod_lt (n / 16 ^ k) (by decide : 0 < 16)
    interval_cases n / 16 ^ k % 16 <;> decide
  rw [utf8_map_byte hascii, hexPad_four]
  rfl

theorem hex_value {n : Nat} (h : n < 65536) :
    (((0 * 16 + n / 4096 % 16) * 16 + n / 256 % 16) * 16 + n / 16 % 16) * 16 + n % 16 = n := by
  omega

theorem hex4_digits {n v : Nat}
    (h : (((0 * 16 + n / 4096 % 16) * 16 + n / 256 % 16) * 16 + n / 16 % 16) * 16 + n % 16 = v) (rest : List UInt8)
    (i depth : Nat) : Yields (hex4 ⟨utf8 (hexPad 4 n) ++ rest, i, depth⟩) v rest depth := by
  refine ⟨i + 1 + 1 + 1 + 1, ?_⟩
  rw [utf8_hexPad]
  simp only [hex4, hexDigits, peek, List.cons_append, List.nil_append, List.head?_cons, advance, List.drop_succ_cons,
    List.drop_zero, hexDigit_digitChar (Nat.mod_lt _ (by decide : 0 < 16)), h]

theorem unicodeEscape_of_hex4 {p q : Parser} {n : Nat} (hread : p.hex4 = .ok (n, q))
    (hn : ¬ (0xd800 ≤ n ∧ n ≤ 0xdbff)) : unicodeEscape p = match fromU32 n with
      | some c => .ok (c, q)
      | none => refused "invalid code point" := by
  unfold unicodeEscape
  rw [hread]
  exact if_neg hn

theorem unicodeEscape_hexPad {c : Char} (h : c.toNat < 0x20) (rest : List UInt8) (i depth : Nat) :
    Yields (unicodeEscape ⟨utf8 (hexPad 4 c.toNat) ++ rest, i, depth⟩) c rest depth := by
  obtain ⟨i', hread⟩ := hex4_digits (hex_value (Nat.lt_trans h (by decide))) rest i depth
  have hvalid : c.toNat.isValidChar := c.valid
  have hc : fromU32 c.toNat = some c := by rw [fromU32, if_pos hvalid, Char.ofNat_toNat]
  refine ⟨i', ?_⟩
  rw [unicodeEscape_of_hex4 hread (by omega), hc]

/-- A character that needs no escape is read whole. -/
theorem stringFrom_plain {c : Char} (hquote : c ≠ '\x22') (hescape : c ≠ '\\') (turns : Nat) (s : Str)
    (rest : List UInt8) (i depth : Nat) :
    ∃ i', stringFrom (turns + 1) s ⟨String.utf8EncodeChar c ++ rest, i, depth⟩ =
      stringFrom turns (s ++ [c]) ⟨rest, i', depth⟩ := by
  obtain ⟨b, tail, hbytes, hlen⟩ := utf8EncodeChar_head c
  have hb : ∀ d : Char, d.toNat < 128 → c ≠ d → b ≠ byte d := by
    rintro d hd hne rfl
    exact byte_not_mem hd hne (hbytes ▸ List.mem_cons_self)
  have htake : (String.utf8EncodeChar c ++ rest).take (utf8Len b) = utf8 [c] := by
    rw [hlen, List.take_left, utf8_singleton]
  have hroom : ¬ (String.utf8EncodeChar c ++ rest).length < utf8Len b := by
    rw [hlen, List.length_append]
    omega
  have hpeek : peek ⟨String.utf8EncodeChar c ++ rest, i, depth⟩ = some b := by
    rw [peek, hbytes]
    rfl
  refine ⟨i + utf8Len b, ?_⟩
  rw [stringFrom, hpeek]
  dsimp only
  rw [if_neg (hb _ (by decide) hquote), if_neg (hb _ (by decide) hescape), if_neg hroom, htake, decodeUtf8_utf8]
  dsimp only
  rw [advance, hlen, List.drop_left]

/-- One character of a string, escaped or not, takes one turn. -/
theorem stringFrom_escapeChar (turns : Nat) (s : Str) (c : Char) (rest : List UInt8) (i depth : Nat) :
    ∃ i', stringFrom (turns + 1) s ⟨utf8 (escapeChar c) ++ rest, i, depth⟩ =
      stringFrom turns (s ++ [c]) ⟨rest, i', depth⟩ := by
  unfold escapeChar
  split
  · next hc => exact ⟨i + 2, by rw [hc]; rfl⟩
  split
  · next hc => exact ⟨i + 2, by rw [hc]; rfl⟩
  split
  · next hc => exact ⟨i + 2, by rw [hc]; rfl⟩
  split
  · next hc => exact ⟨i + 2, by rw [hc]; rfl⟩
  split
  · next hc => exact ⟨i + 2, by rw [hc]; rfl⟩
  split
  · next hc =>
    obtain ⟨i', hescape⟩ := unicodeEscape_hexPad hc rest (i + 1 + 1) depth
    have hbytes : utf8 ('\\' :: 'u' :: hexPad 4 c.toNat) ++ rest =
        byte '\\' :: byte 'u' :: (utf8 (hexPad 4 c.toNat) ++ rest) := rfl
    have hunescape : unescape ⟨byte 'u' :: (utf8 (hexPad 4 c.toNat) ++ rest), i + 1, depth⟩ =
        .ok (c, ⟨rest, i', depth⟩) := hescape
    refine ⟨i', ?_⟩
    rw [hbytes, stringFrom]
    show (unescape ⟨byte 'u' :: (utf8 (hexPad 4 c.toNat) ++ rest), i + 1, depth⟩ >>= fun r =>
      stringFrom turns (s ++ [r.1]) r.2) = _
    rw [hunescape]
    rfl
  · next hquote hescape _ _ _ _ =>
    rw [utf8_singleton]
    exact stringFrom_plain hquote hescape turns s rest i depth

theorem stringFrom_escaped (s acc : Str) {turns : Nat} (h : s.length < turns) (rest : List UInt8) (i depth : Nat) :
    Yields (stringFrom turns acc ⟨utf8 (s.flatMap escapeChar) ++ byte '\x22' :: rest, i, depth⟩) (acc ++ s) rest
      depth := by
  induction s generalizing acc turns i with
  | nil =>
    obtain ⟨turns, rfl⟩ := Nat.exists_eq_succ_of_ne_zero (Nat.ne_of_gt h)
    exact ⟨i + 1, by rw [List.append_nil]; rfl⟩
  | cons c s ih =>
    obtain ⟨turns, rfl⟩ := Nat.exists_eq_succ_of_ne_zero (Nat.ne_of_gt (Nat.zero_lt_of_lt h))
    obtain ⟨i', hstep⟩ :=
      stringFrom_escapeChar turns acc c (utf8 (s.flatMap escapeChar) ++ byte '\x22' :: rest) i depth
    obtain ⟨i'', hrest⟩ := @ih (acc ++ [c]) turns (Nat.lt_of_succ_lt_succ h) i'
    refine ⟨i'', ?_⟩
    rw [List.flatMap_cons, utf8_append, List.append_assoc, hstep, hrest, List.append_assoc]
    rfl

theorem length_le_utf8 (s : Str) : s.length ≤ (utf8 s).length := by
  induction s with
  | nil => exact Nat.le_refl _
  | cons c s ih =>
    have hpos := c.utf8Size_pos
    rw [utf8_cons, List.length_append, String.length_utf8EncodeChar, List.length_cons]
    omega

theorem utf8_writeEscaped (s : Str) (rest : List UInt8) :
    utf8 (writeEscaped s) ++ rest = byte '\x22' :: (utf8 (s.flatMap escapeChar) ++ byte '\x22' :: rest) := by
  rw [writeEscaped, List.cons_append, utf8_cons, utf8_append, List.append_assoc, List.append_assoc]
  rfl

theorem string_written (s : Str) (rest : List UInt8) (i depth : Nat) :
    Yields (string ⟨utf8 (writeEscaped s) ++ rest, i, depth⟩) s rest depth := by
  have hlen := Ccos.Parser.length_escaped s
  have hbytes := length_le_utf8 (s.flatMap escapeChar)
  have hturns : s.length < (byte '\x22' :: (utf8 (s.flatMap escapeChar) ++ byte '\x22' :: rest)).length + 1 := by
    rw [List.length_cons, List.length_append]
    omega
  obtain ⟨i', h⟩ := stringFrom_escaped s [] hturns rest (i + 1) depth
  refine ⟨i', ?_⟩
  rw [List.nil_append] at h
  rw [utf8_writeEscaped, string]
  exact h

end Parser

/-! ## Numbers -/

theorem isAsciiDigit_byte {c : Char} (h : c.isDigit = true) : isAsciiDigit (byte c) = true := by
  simp only [Char.isDigit, Bool.and_eq_true, decide_eq_true_eq] at h
  have hlow : 48 ≤ c.toNat := h.1
  have hhigh : c.toNat ≤ 57 := h.2
  have hbyte : (byte c).toNat = c.toNat := by rw [byte, UInt8.toNat_ofNat', Nat.mod_eq_of_lt (by omega)]
  simp only [isAsciiDigit, Bool.and_eq_true, decide_eq_true_eq, UInt8.le_iff_toNat_le, hbyte]
  exact ⟨hlow, hhigh⟩

theorem isNumberByte_byte {c : Char} (h : isNumberChar c = true) : c.toNat < 128 ∧ isNumberByte (byte c) = true := by
  simp only [isNumberChar, Bool.or_eq_true, decide_eq_true_eq] at h
  rcases h with ((((hdigit | rfl) | rfl) | rfl) | rfl) | rfl
  · have hhigh : c.toNat ≤ 57 := by
      simp only [Ccos.isAsciiDigit, Bool.and_eq_true, decide_eq_true_eq] at hdigit
      exact hdigit.2
    exact ⟨by omega, by simp [isNumberByte, isAsciiDigit_byte hdigit]⟩
  all_goals exact ⟨by decide, by decide⟩

/-- What may follow a number. -/
def Ends (rest : List UInt8) : Prop := ∀ b ∈ rest.head?, isNumberByte b = false

theorem takeWhile_number {bytes rest : List UInt8} (h : ∀ b ∈ bytes, isNumberByte b = true) (hends : Ends rest) :
    (bytes ++ rest).takeWhile isNumberByte = bytes := by
  rw [List.takeWhile_append_of_pos h]
  cases rest with
  | nil => exact List.append_nil _
  | cons b rest =>
    have hb : isNumberByte b = false := hends b rfl
    rw [List.takeWhile_cons_of_neg (by rw [hb]; exact Bool.false_ne_true), List.append_nil]

namespace Parser

section Values

variable {F : Type} [TruncFloat64 F]

theorem number_text {text : Str} {x : F} (hchars : ∀ c ∈ text, isNumberChar c = true)
    (hparses : WireFloat64.parse text = some x) {rest : List UInt8} (hends : Ends rest) (i depth : Nat) :
    Yields (number ⟨utf8 text ++ rest, i, depth⟩) (.num x) rest depth := by
  have hbytes : ∀ b ∈ utf8 text, isNumberByte b = true := by
    rw [utf8_map_byte fun c hc => (isNumberByte_byte (hchars c hc)).1]
    intro b hb
    obtain ⟨c, hc, rfl⟩ := List.mem_map.mp hb
    exact (isNumberByte_byte (hchars c hc)).2
  -- The sign counts as one of the number bytes, so the slice is all of them.
  have hlen : ∀ sign, sign ≤ (utf8 text).length →
      sign + (((utf8 text ++ rest).drop sign).takeWhile isNumberByte).length = (utf8 text).length := by
    intro sign hsign
    rw [List.drop_append_of_le_length hsign,
      takeWhile_number (fun b hb => hbytes b (List.mem_of_mem_drop hb)) hends, List.length_drop]
    omega
  have hsign : (if peek ⟨utf8 text ++ rest, i, depth⟩ = some (byte '-') then 1 else 0) ≤ (utf8 text).length := by
    split
    · next hpeek =>
      cases hutf8 : utf8 text with
      | nil =>
        rw [hutf8, List.nil_append] at hpeek
        exact absurd (hends _ hpeek) (by decide)
      | cons b bytes => exact Nat.succ_le_succ (Nat.zero_le _)
    · exact Nat.zero_le _
  refine ⟨i + (utf8 text).length, ?_⟩
  rw [number]
  dsimp only
  rw [hlen _ hsign, List.take_left, decodeUtf8_utf8]
  dsimp only
  rw [hparses]
  dsimp only
  rw [advance, List.drop_left]

end Values

end Parser

/-! ## Values -/

section Plain

variable {F : Type} [TruncFloat64 F]

/-- Built from whole numbers below `1e15`, texts, arrays and objects that nest at most `levels` deep. -/
inductive Json.Plain : Nat → Json F → Prop
  | null {levels : Nat} : Json.Plain levels .null
  | bool {levels : Nat} (b : Bool) : Json.Plain levels (.bool b)
  | num {levels : Nat} (i : Int) (h : i.natAbs < 10 ^ 15) : Json.Plain levels (.num (Scalar.lit i))
  | str {levels : Nat} (s : Str) : Json.Plain levels (.str s)
  | arr {levels : Nat} {items : List (Json F)} (h : ∀ v ∈ items, Json.Plain levels v) :
      Json.Plain (levels + 1) (.arr items)
  | obj {levels : Nat} {entries : List (Str × Json F)} (h : ∀ e ∈ entries, Json.Plain levels e.2) :
      Json.Plain (levels + 1) (.obj entries)

theorem writeNum_whole [WholeFloat64 F] {i : Int} (h : i.natAbs < 10 ^ 15) :
    Json.writeNum (Scalar.lit i : F) = (Number.ofInt i).text := by
  rw [Json.writeNum, WholeFloat64.finite_whole i h, WholeFloat64.trunc_whole i h, DecimalFloat64.abs_whole i h,
    DecimalFloat64.toI64_whole i h, Number.ofInt_text]
  rfl

/-- What comes after the first item. -/
def moreItems (indent : Option Nat) (level : Nat) : List (Json F) → Str
  | [] => []
  | v :: vs => ',' :: Json.writeItems indent level (v :: vs)

theorem writeItems_cons (indent : Option Nat) (level : Nat) (v : Json F) (vs : List (Json F)) :
    Json.writeItems indent level (v :: vs) =
      newlineIndent indent (level + 1) ++ (v.write indent (level + 1) ++ moreItems indent level vs) := by
  cases vs with
  | nil => rw [Json.writeItems, moreItems, List.append_nil]
  | cons w vs => rw [Json.writeItems, moreItems, List.append_assoc]

def moreEntries (indent : Option Nat) (level : Nat) : List (Str × Json F) → Str
  | [] => []
  | e :: es => ',' :: Json.writeEntries indent level (e :: es)

theorem writeEntries_cons (indent : Option Nat) (level : Nat) (e : Str × Json F) (es : List (Str × Json F)) :
    Json.writeEntries indent level (e :: es) = newlineIndent indent (level + 1) ++
      (writeEscaped e.1 ++ (colon indent ++ (e.2.write indent (level + 1) ++ moreEntries indent level es))) := by
  cases es with
  | nil => simp only [Json.writeEntries, moreEntries, List.append_nil, List.append_assoc]
  | cons w es => simp only [Json.writeEntries, moreEntries, List.append_assoc]

end Plain

/-! ## Reading a value -/

namespace Parser

theorem nested_yields {A : Type} {f : Parser → Except JsonError (A × Parser)} {bytes rest : List UInt8} {i depth : Nat}
    {a : A} (h : Yields (f ⟨bytes, i, depth + 1⟩) a rest (depth + 1)) :
    Yields (nested f ⟨bytes, i, depth⟩) a rest depth := by
  obtain ⟨i', h⟩ := h
  refine ⟨i', ?_⟩
  show (f ⟨bytes, i, depth + 1⟩ >>= fun r => .ok (r.1, { r.2 with depth := r.2.depth - 1 })) = _
  rw [h]
  rfl

theorem ends_byte {b : UInt8} (hb : isNumberByte b = false) (rest : List UInt8) : Ends (b :: rest) := by
  rintro _ ⟨⟩
  exact hb

theorem isNumberByte_of_isWs {b : UInt8} (h : isWs b = true) : isNumberByte b = false := by
  simp only [isWs, Bool.or_eq_true, decide_eq_true_eq] at h
  rcases h with ((rfl | rfl) | rfl) | rfl <;> decide

theorem ends_blank {ws : List UInt8} (hws : Blank ws) {rest : List UInt8} (h : Ends rest) : Ends (ws ++ rest) := by
  cases ws with
  | nil => exact h
  | cons b ws => exact ends_byte (isNumberByte_of_isWs (hws b List.mem_cons_self)) _

section Values

variable {F : Type} [TruncFloat64 F]

/-- What either layout makes of the value is read back, whatever blanks come first. -/
def ReadsBack (value : Parser → Except JsonError (Json F × Parser)) (depth : Nat) (v : Json F) : Prop :=
  ∀ (indent : Option Nat) (level : Nat) (ws : List UInt8), Blank ws → ∀ rest : List UInt8, Ends rest → ∀ i : Nat,
    Yields (value ⟨ws ++ (utf8 (v.write indent level) ++ rest), i, depth⟩) v rest depth

omit [TruncFloat64 F] in
theorem literal_text (lit : Str) (val : Json F) (rest : List UInt8) (i depth : Nat) :
    Yields (literal lit val ⟨utf8 lit ++ rest, i, depth⟩) val rest depth := by
  refine ⟨i + (utf8 lit).length, ?_⟩
  rw [literal, List.take_left, if_pos rfl, advance, List.drop_left]

section Loops

variable {value : Parser → Except JsonError (Json F × Parser)} {depth : Nat}

omit [TruncFloat64 F] in
theorem itemsFrom_comma {turns : Nat} {acc : List (Json F)} {p : Parser} {v : Json F} {more : List UInt8} {i : Nat}
    (h : value p = .ok (v, ⟨byte ',' :: more, i, depth⟩)) :
    itemsFrom value (turns + 1) acc p = itemsFrom value turns (acc ++ [v]) ⟨more, i + 1, depth⟩ := by
  have hws : Parser.ws ⟨byte ',' :: more, i, depth⟩ = ⟨byte ',' :: more, i, depth⟩ := ws_cons (by decide) _ _ _
  rw [itemsFrom, h]
  simp only [bind, Except.bind, hws]
  exact if_pos rfl

theorem itemsFrom_written {v : Json F} {vs : List (Json F)} (h : ∀ w ∈ v :: vs, ReadsBack value depth w)
    (acc : List (Json F)) {turns : Nat} (hturns : vs.length < turns) (indent : Option Nat) (level : Nat)
    {ws : List UInt8} (hws : Blank ws) (rest : List UInt8) (i : Nat) :
    Yields (itemsFrom value turns acc ⟨ws ++ (utf8 (v.write indent (level + 1)) ++ (utf8 (moreItems indent level vs) ++
      (utf8 (newlineIndent indent level) ++ byte ']' :: rest))), i, depth⟩) (.arr (acc ++ v :: vs)) rest depth := by
  induction vs generalizing v acc turns ws i with
  | nil =>
    obtain ⟨turns, rfl⟩ := Nat.exists_eq_succ_of_ne_zero (Nat.ne_of_gt hturns)
    have hclose : Ends (utf8 (newlineIndent indent level) ++ byte ']' :: rest) :=
      ends_blank (blank_newlineIndent indent level) (ends_byte (by decide) rest)
    obtain ⟨i', hread⟩ := h v List.mem_cons_self indent (level + 1) ws hws _ hclose i
    refine ⟨i' + (utf8 (newlineIndent indent level)).length + 1, ?_⟩
    rw [moreItems, utf8_nil, List.nil_append, itemsFrom, hread]
    simp only [bind, Except.bind, ws_blank (blank_newlineIndent indent level) (by decide : isWs (byte ']') = false)]
    rfl
  | cons w vs ih =>
    obtain ⟨turns, rfl⟩ := Nat.exists_eq_succ_of_ne_zero (Nat.ne_of_gt (Nat.zero_lt_of_lt hturns))
    let more := utf8 (Json.writeItems indent level (w :: vs)) ++ (utf8 (newlineIndent indent level) ++ byte ']' :: rest)
    obtain ⟨i', hread⟩ :=
      h v List.mem_cons_self indent (level + 1) ws hws (byte ',' :: more) (ends_byte (by decide) _) i
    obtain ⟨i'', hrest⟩ := @ih w (fun u hu => h u (List.mem_cons_of_mem v hu)) (acc ++ [v]) turns
      (Nat.lt_of_succ_lt_succ hturns) _ (blank_newlineIndent indent (level + 1)) (i' + 1)
    refine ⟨i'', (itemsFrom_comma hread).trans ?_⟩
    rw [List.append_assoc, List.singleton_append] at hrest
    rw [← hrest]
    simp only [more, writeItems_cons, utf8_append, List.append_assoc]

theorem utf8_colon (indent : Option Nat) : ∃ gap, utf8 (colon indent) = byte ':' :: gap ∧ Blank gap := by
  cases indent with
  | none => exact ⟨[], rfl, nofun⟩
  | some w => exact ⟨[byte ' '], rfl, fun b hb => by rw [List.mem_singleton.mp hb]; decide⟩

/-- What is left of a turn once its key and its value are read. -/
theorem entriesFrom_entry {e : Str × Json F} (h : ReadsBack value depth e.2) (acc : List (Str × Json F)) (turns : Nat)
    (indent : Option Nat) (level : Nat) {ws : List UInt8} (hws : Blank ws) {after : List UInt8} (hends : Ends after)
    (i : Nat) : ∃ i', entriesFrom value (turns + 1) acc ⟨ws ++ (utf8 (writeEscaped e.1) ++ (utf8 (colon indent) ++
      (utf8 (e.2.write indent level) ++ after))), i, depth⟩ =
        (let p := Parser.ws ⟨after, i', depth⟩
         if p.peek = some (byte ',') then entriesFrom value turns (acc ++ [e]) (p.advance 1)
         else if p.peek = some (byte '\x7d') then .ok (.obj (acc ++ [e]), p.advance 1)
         else .error (.message (p.located "expected ',' or '\x7d' at "))) := by
  obtain ⟨gap, hcolon, hgap⟩ := utf8_colon indent
  let value' := gap ++ (utf8 (e.2.write indent level) ++ after)
  obtain ⟨j, hkey⟩ := string_written e.1 (byte ':' :: value') (i + ws.length) depth
  obtain ⟨i', hread⟩ := h indent level gap hgap after hends (j + 1)
  have hquote := utf8_writeEscaped e.1 (byte ':' :: value')
  have hskip := ws_blank hws (by decide : isWs (byte '\x22') = false)
    (utf8 (e.1.flatMap escapeChar) ++ byte '\x22' :: byte ':' :: value') i depth
  have hafter : Parser.ws ⟨byte ':' :: value', j, depth⟩ = ⟨byte ':' :: value', j, depth⟩ := ws_cons (by decide) _ _ _
  have hpeek : ∀ b bytes i, peek ⟨b :: bytes, i, depth⟩ = some b := fun _ _ _ => rfl
  have hadvance : advance ⟨byte ':' :: value', j, depth⟩ 1 = ⟨value', j + 1, depth⟩ := rfl
  refine ⟨i', ?_⟩
  rw [hquote] at hkey
  rw [hcolon, List.cons_append, hquote, entriesFrom, hskip]
  simp only [bind, Except.bind, hpeek, hkey, hafter, hadvance, value', hread, ne_eq, not_true_eq_false, if_false]

theorem entriesFrom_written {e : Str × Json F} {es : List (Str × Json F)}
    (h : ∀ x ∈ e :: es, ReadsBack value depth x.2) (acc : List (Str × Json F)) {turns : Nat}
    (hturns : es.length < turns) (indent : Option Nat) (level : Nat) {ws : List UInt8} (hws : Blank ws)
    (rest : List UInt8) (i : Nat) :
    Yields (entriesFrom value turns acc ⟨ws ++ (utf8 (writeEscaped e.1) ++ (utf8 (colon indent) ++
      (utf8 (e.2.write indent (level + 1)) ++ (utf8 (moreEntries indent level es) ++
        (utf8 (newlineIndent indent level) ++ byte '\x7d' :: rest))))), i, depth⟩) (.obj (acc ++ e :: es)) rest
      depth := by
  induction es generalizing e acc turns ws i with
  | nil =>
    obtain ⟨turns, rfl⟩ := Nat.exists_eq_succ_of_ne_zero (Nat.ne_of_gt hturns)
    have hclose : Ends (utf8 (newlineIndent indent level) ++ byte '\x7d' :: rest) :=
      ends_blank (blank_newlineIndent indent level) (ends_byte (by decide) rest)
    rw [moreEntries, utf8_nil, List.nil_append]
    obtain ⟨i', hturn⟩ := entriesFrom_entry (h e List.mem_cons_self) acc turns indent (level + 1) hws hclose i
    rw [hturn, ws_blank (blank_newlineIndent indent level) (by decide)]
    exact ⟨_, rfl⟩
  | cons w es ih =>
    obtain ⟨turns, rfl⟩ := Nat.exists_eq_succ_of_ne_zero (Nat.ne_of_gt (Nat.zero_lt_of_lt hturns))
    let after := utf8 (Json.writeEntries indent level (w :: es)) ++
      (utf8 (newlineIndent indent level) ++ byte '\x7d' :: rest)
    obtain ⟨i', hturn⟩ := entriesFrom_entry (h e List.mem_cons_self) acc turns indent (level + 1) hws
      (ends_byte (by decide) after : Ends (byte ',' :: after)) i
    obtain ⟨i'', hrest⟩ := @ih w (fun x hx => h x (List.mem_cons_of_mem e hx)) (acc ++ [e]) turns
      (Nat.lt_of_succ_lt_succ hturns) _ (blank_newlineIndent indent (level + 1)) (i' + 1)
    have hstep : entriesFrom value turns (acc ++ [e]) ⟨after, i' + 1, depth⟩ =
        .ok (.obj (acc ++ e :: w :: es), ⟨rest, i'', depth⟩) := by
      rw [List.append_assoc, List.singleton_append] at hrest
      rw [← hrest]
      simp only [after, writeEntries_cons, utf8_append, List.append_assoc]
    refine ⟨i'', hturn.trans ?_⟩
    rw [ws_cons (by decide), ← hstep]
    exact if_pos rfl

end Loops

theorem utf8_cons_ascii {c : Char} (hc : c.toNat < 128) (s : Str) : utf8 (c :: s) = byte c :: utf8 s := by
  rw [utf8_cons, utf8EncodeChar_of_ascii hc]
  rfl

theorem number_head (n : Number) : ∃ b bytes, utf8 n.text = b :: bytes ∧ isWs b = false ∧
    (b = byte '-' ∨ isAsciiDigit b = true) := by
  obtain ⟨c, text, htext, hc⟩ := n.text_head
  have hnumber := isNumberByte_byte (Ccos.Parser.isNumberChar_of_mem (htext ▸ List.mem_cons_self : c ∈ n.text))
  refine ⟨byte c, utf8 text, by rw [htext, utf8_cons_ascii hnumber.1], ?_, hc.imp (congrArg byte) isAsciiDigit_byte⟩
  exact Bool.eq_false_iff.mpr fun hws => absurd hnumber.2 (by rw [isNumberByte_of_isWs hws]; decide)

/-- A written value starts with an ASCII character that is neither a blank nor a closing bracket. -/
theorem write_head [WholeFloat64 F] {levels : Nat} {v : Json F} (h : Json.Plain levels v) (indent : Option Nat)
    (level : Nat) : ∃ b bytes, utf8 (v.write indent level) = b :: bytes ∧ isWs b = false ∧ b ≠ byte ']' := by
  cases h with
  | null => exact ⟨_, _, rfl, by decide, by decide⟩
  | bool b => cases b <;> exact ⟨_, _, rfl, by decide, by decide⟩
  | num i h =>
    obtain ⟨b, bytes, hhead, hb, hfirst⟩ := number_head (Number.ofInt i)
    refine ⟨b, bytes, by rw [Json.write, writeNum_whole h, hhead], hb, ?_⟩
    rintro rfl
    exact absurd hfirst (by decide)
  | str s =>
    have hquote := utf8_writeEscaped s []
    rw [List.append_nil] at hquote
    exact ⟨_, _, hquote, by decide, by decide⟩
  | @arr levels items h =>
    cases items <;> exact ⟨_, _, rfl, by decide, by decide⟩
  | @obj levels entries h =>
    cases entries <;> exact ⟨_, _, rfl, by decide, by decide⟩

theorem value_cons {b : UInt8} (hb : isWs b = false) {levels depth : Nat} (hdepth : depth ≤ maxDepth) {ws : List UInt8}
    (hws : Blank ws) (bytes : List UInt8) (i : Nat) :
    (value (levels + 1) ⟨ws ++ b :: bytes, i, depth⟩ : Except JsonError (Json F × Parser)) =
      (let p : Parser := ⟨b :: bytes, i + ws.length, depth⟩
       if b = byte '\x7b' then nested (object (value levels)) p
       else if b = byte '[' then nested (array (value levels)) p
       else if b = byte '\x22' then do
         let (s, p) ← p.string
         return (.str s, p)
       else if b = byte 't' then literal "true".toList (.bool true) p
       else if b = byte 'f' then literal "false".toList (.bool false) p
       else if b = byte 'n' then literal "null".toList .null p
       else if b = byte '-' || isAsciiDigit b then number p
       else .error (.message ("unexpected byte '".toList ++ Char.ofNat b.toNat :: p.located "' at "))) := by
  rw [value, ws_blank hws hb]
  exact if_neg (Nat.not_lt_of_le hdepth)

theorem dispatch_number {A : Type} {b : UInt8} (hb : b = byte '-' ∨ isAsciiDigit b = true) {x₁ x₂ x₃ x₄ x₅ x₆ x y : A} :
    (if b = byte '\x7b' then x₁ else if b = byte '[' then x₂ else if b = byte '\x22' then x₃
     else if b = byte 't' then x₄ else if b = byte 'f' then x₅ else if b = byte 'n' then x₆
     else if b = byte '-' || isAsciiDigit b then x else y) = x := by
  have hne : ∀ c : Char, byte c ≠ byte '-' → isAsciiDigit (byte c) = false → b ≠ byte c := by
    rintro c hminus hdigit rfl
    exact hb.elim hminus fun h => absurd (h.symm.trans hdigit) (by decide)
  rw [if_neg (hne _ (by decide) (by decide)), if_neg (hne _ (by decide) (by decide)),
    if_neg (hne _ (by decide) (by decide)), if_neg (hne _ (by decide) (by decide)),
    if_neg (hne _ (by decide) (by decide)), if_neg (hne _ (by decide) (by decide)), if_pos]
  exact Bool.or_eq_true _ _ ▸ hb.imp decide_eq_true id

theorem length_moreItems (indent : Option Nat) (level : Nat) (vs : List (Json F)) :
    vs.length ≤ (moreItems indent level vs).length := by
  induction vs with
  | nil => exact Nat.le_refl _
  | cons v vs ih =>
    rw [moreItems, writeItems_cons, List.length_cons, List.length_cons, List.length_append, List.length_append]
    omega

theorem length_moreEntries (indent : Option Nat) (level : Nat) (es : List (Str × Json F)) :
    es.length ≤ (moreEntries indent level es).length := by
  induction es with
  | nil => exact Nat.le_refl _
  | cons e es ih =>
    rw [moreEntries, writeEntries_cons]
    simp only [List.length_cons, List.length_append]
    omega

theorem array_written [WholeFloat64 F] {value : Parser → Except JsonError (Json F × Parser)} {levels depth : Nat}
    {v : Json F} {vs : List (Json F)} (hplain : Json.Plain levels v) (h : ∀ w ∈ v :: vs, ReadsBack value depth w)
    (indent : Option Nat) (level : Nat) (rest : List UInt8) (i : Nat) :
    Yields (array value ⟨utf8 ((Json.arr (v :: vs)).write indent level) ++ rest, i, depth⟩) (.arr (v :: vs)) rest
      depth := by
  obtain ⟨b, bytes, hhead, hb, hne⟩ := write_head hplain indent (level + 1)
  let after := utf8 (moreItems indent level vs) ++ (utf8 (newlineIndent indent level) ++ byte ']' :: rest)
  have hbytes : utf8 ((Json.arr (v :: vs)).write indent level) ++ rest =
      byte '[' :: (utf8 (newlineIndent indent (level + 1)) ++ (utf8 (v.write indent (level + 1)) ++ after)) := by
    have hwrite : (Json.arr (v :: vs)).write indent level =
        '[' :: (Json.writeItems indent level (v :: vs) ++ (newlineIndent indent level ++ [']'])) := by
      rw [Json.write]
      simp only [List.isEmpty_cons, Bool.false_eq_true, if_false, List.cons_append, List.append_assoc]
    simp only [hwrite, utf8_cons_ascii (by decide : '['.toNat < 128), writeItems_cons, utf8_append, List.cons_append,
      List.append_assoc, after]
    rfl
  have hskip := ws_blank (blank_newlineIndent indent (level + 1)) hb (bytes ++ after) (i + 1) depth
  have hlen := length_moreItems indent level vs
  have hbytesLen := length_le_utf8 (moreItems indent level vs)
  have hturns : vs.length < (b :: (bytes ++ after)).length + 1 := by
    simp only [after, List.length_cons, List.length_append]
    omega
  have hread := @itemsFrom_written F _ value depth v vs h [] _ hturns indent level [] nofun rest
    (i + 1 + (utf8 (newlineIndent indent (level + 1))).length)
  rw [List.nil_append, List.nil_append, hhead] at hread
  rw [hbytes, array, advance, List.drop_succ_cons, List.drop_zero, hhead, List.cons_append, hskip]
  have hpeek : peek ⟨b :: (bytes ++ after), i + 1 + (utf8 (newlineIndent indent (level + 1))).length, depth⟩ ≠
      some (byte ']') := fun heq => hne (Option.some.inj heq)
  dsimp only
  rw [if_neg hpeek]
  exact hread

theorem object_written {value : Parser → Except JsonError (Json F × Parser)} {depth : Nat} {e : Str × Json F}
    {es : List (Str × Json F)} (h : ∀ x ∈ e :: es, ReadsBack value depth x.2) (indent : Option Nat) (level : Nat)
    (rest : List UInt8) (i : Nat) :
    Yields (object value ⟨utf8 ((Json.obj (e :: es)).write indent level) ++ rest, i, depth⟩) (.obj (e :: es)) rest
      depth := by
  let after := utf8 (colon indent) ++ (utf8 (e.2.write indent (level + 1)) ++ (utf8 (moreEntries indent level es) ++
    (utf8 (newlineIndent indent level) ++ byte '\x7d' :: rest)))
  have hbytes : utf8 ((Json.obj (e :: es)).write indent level) ++ rest =
      byte '\x7b' :: (utf8 (newlineIndent indent (level + 1)) ++ (utf8 (writeEscaped e.1) ++ after)) := by
    have hwrite : (Json.obj (e :: es)).write indent level =
        '\x7b' :: (Json.writeEntries indent level (e :: es) ++ (newlineIndent indent level ++ ['\x7d'])) := by
      rw [Json.write]
      simp only [List.isEmpty_cons, Bool.false_eq_true, if_false, List.cons_append, List.append_assoc]
    simp only [hwrite, utf8_cons_ascii (by decide : '\x7b'.toNat < 128), writeEntries_cons, utf8_append,
      List.cons_append, List.append_assoc, after]
    rfl
  have hquote := utf8_writeEscaped e.1 after
  have hskip := ws_blank (blank_newlineIndent indent (level + 1)) (by decide : isWs (byte '\x22') = false)
    (utf8 (e.1.flatMap escapeChar) ++ byte '\x22' :: after) (i + 1) depth
  have hlen := length_moreEntries indent level es
  have hbytesLen := length_le_utf8 (moreEntries indent level es)
  have hturns : es.length < (byte '\x22' :: (utf8 (e.1.flatMap escapeChar) ++ byte '\x22' :: after)).length + 1 := by
    simp only [after, List.length_cons, List.length_append]
    omega
  have hread := @entriesFrom_written F _ value depth e es h [] _ hturns indent level [] nofun rest
    (i + 1 + (utf8 (newlineIndent indent (level + 1))).length)
  rw [List.nil_append, List.nil_append, hquote] at hread
  rw [hbytes, object, advance, List.drop_succ_cons, List.drop_zero, hquote, hskip]
  exact hread

/-- Both layouts of a value are read back within its levels. -/
theorem value_written [WholeFloat64 F] {n : Nat} {v : Json F} (h : Json.Plain n v) :
    ∀ {levels depth : Nat}, n < levels → depth + n ≤ maxDepth → ReadsBack (value levels) depth v := by
  induction h with
  | null =>
    intro levels depth hlevels hdepth indent level ws hws rest _ i
    obtain ⟨levels, rfl⟩ := Nat.exists_eq_succ_of_ne_zero (Nat.ne_of_gt (Nat.zero_lt_of_lt hlevels))
    show Yields (value (levels + 1) ⟨ws ++ byte 'n' :: (utf8 "ull".toList ++ rest), i, depth⟩) _ _ _
    rw [value_cons (by decide) (by omega) hws]
    exact literal_text "null".toList .null rest _ depth
  | bool b =>
    intro levels depth hlevels hdepth indent level ws hws rest _ i
    obtain ⟨levels, rfl⟩ := Nat.exists_eq_succ_of_ne_zero (Nat.ne_of_gt (Nat.zero_lt_of_lt hlevels))
    cases b with
    | false =>
      show Yields (value (levels + 1) ⟨ws ++ byte 'f' :: (utf8 "alse".toList ++ rest), i, depth⟩) _ _ _
      rw [value_cons (by decide) (by omega) hws]
      exact literal_text "false".toList (.bool false) rest _ depth
    | true =>
      show Yields (value (levels + 1) ⟨ws ++ byte 't' :: (utf8 "rue".toList ++ rest), i, depth⟩) _ _ _
      rw [value_cons (by decide) (by omega) hws]
      exact literal_text "true".toList (.bool true) rest _ depth
  | num x hx =>
    intro levels depth hlevels hdepth indent level ws hws rest hends i
    obtain ⟨levels, rfl⟩ := Nat.exists_eq_succ_of_ne_zero (Nat.ne_of_gt (Nat.zero_lt_of_lt hlevels))
    have hparses : WireFloat64.parse (Number.ofInt x).text = some (Scalar.lit x : F) := by
      rw [Ccos.Parser.parse_number_text, denotedNumber_ofInt hx]
    obtain ⟨i', hread⟩ :=
      number_text (fun _ => Ccos.Parser.isNumberChar_of_mem) hparses hends (i + ws.length) depth
    obtain ⟨b, bytes, hhead, hb, hfirst⟩ := number_head (Number.ofInt x)
    rw [Json.write, writeNum_whole hx, hhead, List.cons_append, value_cons hb (by omega) hws]
    rw [hhead] at hread
    exact ⟨i', (dispatch_number hfirst).trans hread⟩
  | str s =>
    intro levels depth hlevels hdepth indent level ws hws rest hends i
    obtain ⟨levels, rfl⟩ := Nat.exists_eq_succ_of_ne_zero (Nat.ne_of_gt (Nat.zero_lt_of_lt hlevels))
    obtain ⟨i', hread⟩ := string_written s rest (i + ws.length) depth
    rw [Json.write]
    rw [utf8_writeEscaped] at hread ⊢
    rw [value_cons (by decide) (by omega) hws]
    refine ⟨i', ?_⟩
    show (Parser.string _ >>= fun r => .ok (Json.str r.1, r.2)) = _
    rw [hread]
    rfl
  | @arr n items h ih =>
    intro levels depth hlevels hdepth indent level ws hws rest hends i
    obtain ⟨levels, rfl⟩ := Nat.exists_eq_succ_of_ne_zero (Nat.ne_of_gt (Nat.zero_lt_of_lt hlevels))
    cases items with
    | nil =>
      show Yields (value (levels + 1) ⟨ws ++ byte '[' :: byte ']' :: rest, i, depth⟩) _ _ _
      rw [value_cons (by decide) (by omega) hws]
      exact nested_yields ⟨_, rfl⟩
    | cons v vs =>
      have hread : ∀ w ∈ v :: vs, ReadsBack (value levels) (depth + 1) w :=
        fun w hw => ih w hw (by omega) (by omega)
      have harray := array_written (h v List.mem_cons_self) hread indent level rest (i + ws.length)
      obtain ⟨bytes, hbytes⟩ : ∃ bytes, utf8 (Json.write indent level (.arr (v :: vs))) = byte '[' :: bytes := ⟨_, rfl⟩
      rw [hbytes, List.cons_append] at harray ⊢
      rw [value_cons (by decide) (by omega) hws]
      exact nested_yields harray
  | @obj n entries h ih =>
    intro levels depth hlevels hdepth indent level ws hws rest hends i
    obtain ⟨levels, rfl⟩ := Nat.exists_eq_succ_of_ne_zero (Nat.ne_of_gt (Nat.zero_lt_of_lt hlevels))
    cases entries with
    | nil =>
      show Yields (value (levels + 1) ⟨ws ++ byte '\x7b' :: byte '\x7d' :: rest, i, depth⟩) _ _ _
      rw [value_cons (by decide) (by omega) hws]
      exact nested_yields ⟨_, rfl⟩
    | cons e es =>
      have hread : ∀ x ∈ e :: es, ReadsBack (value levels) (depth + 1) x.2 :=
        fun x hx => ih x hx (by omega) (by omega)
      have hobject := object_written hread indent level rest (i + ws.length)
      obtain ⟨bytes, hbytes⟩ :
        ∃ bytes, utf8 (Json.write indent level (.obj (e :: es))) = byte '\x7b' :: bytes := ⟨_, rfl⟩
      rw [hbytes, List.cons_append] at hobject ⊢
      rw [value_cons (by decide) (by omega) hws]
      exact nested_yields hobject

end Values

end Parser

/-! ## One line -/

section

variable {F : Type} [TruncFloat64 F] [WholeFloat64 F]

theorem newline_not_mem_hexPad (n : Nat) : '\n' ∉ hexPad 4 n := by
  intro hmem
  obtain ⟨k, -, heq⟩ := List.mem_map.mp hmem
  have hlt := Nat.mod_lt (n / 16 ^ k) (by decide : 0 < 16)
  interval_cases n / 16 ^ k % 16 <;> exact absurd heq (by decide)

theorem newline_not_mem_writeEscaped (s : Str) : '\n' ∉ writeEscaped s := by
  have hchar : ∀ c : Char, '\n' ∉ escapeChar c := by
    intro c
    unfold escapeChar
    split_ifs
    any_goals decide
    · exact fun hmem => absurd hmem (by simp [newline_not_mem_hexPad])
    · next hnewline _ _ _ => exact fun hmem => hnewline (List.mem_singleton.mp hmem).symm
  intro hmem
  rw [writeEscaped, List.cons_append, List.mem_cons, List.mem_append, List.mem_singleton, List.mem_flatMap] at hmem
  rcases hmem with heq | ⟨c, -, hc⟩ | heq
  · exact absurd heq (by decide)
  · exact hchar c hc
  · exact absurd heq (by decide)

omit [WholeFloat64 F] in
theorem newline_not_mem_writeItems {v : Json F} {vs : List (Json F)} {level : Nat}
    (h : ∀ w ∈ v :: vs, ∀ level, '\n' ∉ w.write none level) : '\n' ∉ Json.writeItems none level (v :: vs) := by
  induction vs generalizing v with
  | nil =>
    rw [writeItems_cons, moreItems, List.append_nil]
    exact h v List.mem_cons_self _
  | cons w vs ih =>
    rw [writeItems_cons, moreItems]
    simp only [newlineIndent, List.nil_append, List.mem_append, List.mem_cons, not_or]
    exact ⟨h v List.mem_cons_self _, by decide, ih fun u hu => h u (List.mem_cons_of_mem v hu)⟩

omit [WholeFloat64 F] in
theorem newline_not_mem_writeEntries {e : Str × Json F} {es : List (Str × Json F)} {level : Nat}
    (h : ∀ x ∈ e :: es, ∀ level, '\n' ∉ x.2.write none level) : '\n' ∉ Json.writeEntries none level (e :: es) := by
  have hcolon : '\n' ∉ colon none := by decide
  induction es generalizing e with
  | nil =>
    rw [writeEntries_cons, moreEntries, List.append_nil]
    simp only [newlineIndent, List.nil_append, List.mem_append, not_or]
    exact ⟨newline_not_mem_writeEscaped _, hcolon, h e List.mem_cons_self _⟩
  | cons w es ih =>
    rw [writeEntries_cons, moreEntries]
    simp only [newlineIndent, List.nil_append, List.mem_append, List.mem_cons, not_or]
    exact ⟨newline_not_mem_writeEscaped _, hcolon, h e List.mem_cons_self _, by decide,
      ih fun x hx => h x (List.mem_cons_of_mem e hx)⟩

theorem newline_not_mem_write {n : Nat} {v : Json F} (h : Json.Plain n v) (level : Nat) :
    '\n' ∉ v.write none level := by
  induction h generalizing level with
  | null => exact (by decide : '\n' ∉ "null".toList)
  | bool b =>
    cases b
    · exact (by decide : '\n' ∉ "false".toList)
    · exact (by decide : '\n' ∉ "true".toList)
  | num i h =>
    rw [Json.write, writeNum_whole h]
    exact fun hmem => absurd (Ccos.Parser.isNumberChar_of_mem hmem) (by decide)
  | str s => exact newline_not_mem_writeEscaped s
  | @arr n items _ ih =>
    cases items with
    | nil => exact (by decide : '\n' ∉ ['[', ']'])
    | cons v vs =>
      simp only [Json.write, List.isEmpty_cons, Bool.false_eq_true, if_false, newlineIndent, List.append_nil,
        List.cons_append, List.mem_cons, List.mem_append, List.not_mem_nil, or_false, not_or]
      exact ⟨by decide, newline_not_mem_writeItems ih, by decide⟩
  | @obj n entries _ ih =>
    cases entries with
    | nil => exact (by decide : '\n' ∉ ['\x7b', '\x7d'])
    | cons e es =>
      simp only [Json.write, List.isEmpty_cons, Bool.false_eq_true, if_false, newlineIndent, List.append_nil,
        List.cons_append, List.mem_cons, List.mem_append, List.not_mem_nil, or_false, not_or]
      exact ⟨by decide, newline_not_mem_writeEntries ih, by decide⟩

/-! ## Round trips -/

theorem Json.parse_write {n : Nat} {v : Json F} (hn : n ≤ maxDepth) (h : Json.Plain n v) (indent : Option Nat) :
    Json.parse (v.write indent 0) = .ok v := by
  obtain ⟨b, bytes, hhead, hb, -⟩ := Parser.write_head h indent 0
  obtain ⟨i, hread⟩ := Parser.value_written h (Nat.lt_succ_of_le (Nat.le_succ_of_le hn))
    (by omega : 0 + n ≤ maxDepth) indent 0 [] nofun [] nofun 0
  have hskip : Parser.ws ⟨utf8 (v.write indent 0), 0, 0⟩ = ⟨utf8 (v.write indent 0), 0, 0⟩ := by
    rw [hhead]
    exact Parser.ws_cons hb _ _ _
  rw [List.nil_append, List.append_nil] at hread
  rw [Json.parse, hskip, hread]
  rfl

/-- Both layouts read back, and the compact one has no line break. -/
theorem Json.layouts_read_back {n : Nat} {v : Json F} (hn : n ≤ maxDepth) (h : Json.Plain n v) :
    Json.parse v.toCompact = .ok v ∧ Json.parse v.toPretty = .ok v ∧ '\n' ∉ v.toCompact :=
  ⟨Json.parse_write hn h none, Json.parse_write hn h (some 2), newline_not_mem_write h 0⟩

end

instance : TruncFloat64 ℚ where
  trunc x := x.num.tdiv x.den

instance : WholeFloat64 ℚ where
  finite_whole _ _ := rfl
  trunc_whole i _ := by
    have h : TruncFloat64.trunc (Scalar.lit i : ℚ) = Scalar.lit i := by
      show (((i : ℚ).num.tdiv (i : ℚ).den : Int) : ℚ) = i
      simp
    rw [h]
    exact beq_iff_eq.mpr (congrArg some (compare_eq_iff_eq.mpr rfl))

/-- A message with a repeated key and a line break in a text. -/
def message : Json ℚ :=
  .obj [("id".toList, .num (Scalar.lit (-7 : Int))), ("id".toList, .arr [.str ['\n', Char.ofNat 0x1f600], .arr []])]

theorem message_reads_back : Json.parse message.toCompact = .ok message ∧
    Json.parse message.toPretty = .ok message ∧ '\n' ∉ message.toCompact := by
  have hitems : ∀ v ∈ [.str ['\n', Char.ofNat 0x1f600], .arr []], Json.Plain 1 (v : Json ℚ) :=
    List.forall_mem_cons.mpr ⟨.str _, List.forall_mem_singleton.mpr (.arr nofun)⟩
  exact Json.layouts_read_back (n := 3) (by decide)
    (.obj (List.forall_mem_cons.mpr ⟨.num (-7) (by decide), List.forall_mem_singleton.mpr (.arr hitems)⟩))

end Ccos.Scirust
