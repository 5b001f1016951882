import Ccos.Wire.Reading

/-!
# Reading what was written

The parser gives back every value that the writer wrote, whatever follows it.
-/

open Std

namespace Ccos

/-- The value was read, and `rest` is left. -/
def Yields {A : Type} (x : Except JsonError (A × Parser)) (a : A) (rest : Str) (depth : Nat) : Prop :=
  ∃ pos, x = .ok (a, ⟨rest, pos, depth⟩)

/-! ## Escapes -/

theorem toDigit16_digitChar {n : Nat} (h : n < 16) : toDigit16 n.digitChar = some n := by
  interval_cases n <;> decide

theorem hexPad_four (n : Nat) : hexPad 4 n = [(n / 4096 % 16).digitChar, (n / 256 % 16).digitChar,
    (n / 16 % 16).digitChar, (n % 16).digitChar] := by
  simp [hexPad, List.range, List.range.loop]

namespace Parser

theorem readHex4_hexPad {n : Nat} (h : n < 65536) (rest : Str) (pos depth : Nat) :
    Yields (readHex4 ⟨hexPad 4 n ++ rest, pos, depth⟩) n rest depth := by
  refine ⟨pos + 4, ?_⟩
  rw [hexPad_four]
  simp only [readHex4, readHex, next, List.cons_append, List.nil_append,
    toDigit16_digitChar (Nat.mod_lt _ (by decide : 0 < 16))]
  congr 2
  omega

theorem charOf_toNat (c : Char) : charOf c.toNat = c := by
  have hvalid : c.toNat.isValidChar := c.valid
  rw [charOf, if_pos hvalid]
  exact Char.ofNat_toNat c

theorem unicodeEscape_hexPad {c : Char} (h : c.toNat < 0x20) (rest : Str) (pos depth : Nat) :
    Yields (unicodeEscape ⟨hexPad 4 c.toNat ++ rest, pos, depth⟩) c rest depth := by
  obtain ⟨pos', hread⟩ := readHex4_hexPad (n := c.toNat) (by omega) rest pos depth
  refine ⟨pos', ?_⟩
  rw [unicodeEscape, hread]
  simp only [bind, Except.bind]
  rw [if_neg (by omega), if_neg (by omega), charOf_toNat]

/-- One character of a string, escaped or not, takes one turn. -/
theorem stringFrom_escapeChar (turns : Nat) (s : Str) (c : Char) (rest : Str) (pos depth : Nat) :
    ∃ pos', stringFrom (turns + 1) s ⟨escapeChar c ++ rest, pos, depth⟩ =
      stringFrom turns (s ++ [c]) ⟨rest, pos', depth⟩ := by
  unfold escapeChar
  split
  · rename_i hc
    exact ⟨pos + 2, by rw [hc]; rfl⟩
  split
  · rename_i hc
    exact ⟨pos + 2, by rw [hc]; rfl⟩
  split
  · rename_i hc
    exact ⟨pos + 2, by rw [hc]; rfl⟩
  split
  · rename_i hc
    exact ⟨pos + 2, by rw [hc]; rfl⟩
  split
  · rename_i hc
    exact ⟨pos + 2, by rw [hc]; rfl⟩
  split
  · rename_i hc
    obtain ⟨pos', hescape⟩ := unicodeEscape_hexPad hc rest (pos + 2) depth
    refine ⟨pos', ?_⟩
    have hunescape : unescape ⟨'u' :: (hexPad 4 c.toNat ++ rest), pos + 1, depth⟩ = .ok (c, ⟨rest, pos', depth⟩) :=
      hescape
    simp only [stringFrom, next, List.cons_append, hunescape]
    rfl
  · rename_i hquote hbackslash _ _ _ _
    refine ⟨pos + 1, ?_⟩
    simp only [stringFrom, next, List.cons_append, List.nil_append]

theorem stringFrom_escaped (s acc : Str) {turns : Nat} (h : s.length < turns) (rest : Str) (pos depth : Nat) :
    Yields (stringFrom turns acc ⟨s.flatMap escapeChar ++ '\x22' :: rest, pos, depth⟩) (acc ++ s) rest depth := by
  induction s generalizing acc turns pos with
  | nil =>
    obtain ⟨turns, rfl⟩ := Nat.exists_eq_succ_of_ne_zero (Nat.ne_of_gt h)
    exact ⟨pos + 1, by rw [List.append_nil]; rfl⟩
  | cons c s ih =>
    obtain ⟨turns, rfl⟩ := Nat.exists_eq_succ_of_ne_zero (Nat.ne_of_gt (Nat.zero_lt_of_lt h))
    obtain ⟨pos', hstep⟩ := stringFrom_escapeChar turns acc c (s.flatMap escapeChar ++ '\x22' :: rest) pos depth
    obtain ⟨pos'', hrest⟩ := @ih (acc ++ [c]) turns (Nat.lt_of_succ_lt_succ h) pos'
    refine ⟨pos'', ?_⟩
    rw [List.flatMap_cons, List.append_assoc, hstep, hrest, List.append_assoc]
    rfl

theorem length_escaped (s : Str) : s.length ≤ (s.flatMap escapeChar).length := by
  induction s with
  | nil => exact Nat.le_refl _
  | cons c s ih =>
    have hchar : 1 ≤ (escapeChar c).length := by
      unfold escapeChar
      repeat' split
      all_goals simp
    rw [List.flatMap_cons, List.length_append, List.length_cons]
    omega

theorem parseString_written (s rest : Str) (pos depth : Nat) :
    Yields (parseString ⟨writeEscaped s ++ rest, pos, depth⟩) s rest depth := by
  have hlen := length_escaped s
  obtain ⟨pos', h⟩ := @stringFrom_escaped s [] ((s.flatMap escapeChar ++ '\x22' :: rest).length + 1)
    (by rw [List.length_append]; omega) rest (pos + 1) depth
  refine ⟨pos', ?_⟩
  have hwritten : writeEscaped s ++ rest = '\x22' :: (s.flatMap escapeChar ++ '\x22' :: rest) := by
    simp only [writeEscaped, List.cons_append, List.append_assoc, List.nil_append]
  rw [List.nil_append] at h
  rw [hwritten]
  exact h

end Parser

/-! ## Values that read back -/

/-- What may follow a number. -/
def Ends (rest : Str) : Prop := ∀ c ∈ rest.head?, isNumberChar c = false

section Canonical

variable {F : Type} [WireFloat64 F]

/-- The number is written as a number, and this reads back. -/
structure Prints (x : F) : Prop where
  head : ∃ c text, Json.writeNum x = c :: text ∧ (c = '-' ∨ isAsciiDigit c = true)
  chars : ∀ c ∈ Json.writeNum x, isNumberChar c = true
  parses : WireFloat64.parse (Json.writeNum x) = some x

/-- The value nests at most `levels` deep, its objects are in the order of their keys, and its numbers print. -/
inductive Canonical : Nat → Json F → Prop
  | null {levels : Nat} : Canonical levels .null
  | bool {levels : Nat} (b : Bool) : Canonical levels (.bool b)
  | num {levels : Nat} {x : F} (h : Prints x) : Canonical levels (.num x)
  | str {levels : Nat} (s : Str) : Canonical levels (.str s)
  | arr {levels : Nat} {items : List (Json F)} (h : ∀ v ∈ items, Canonical levels v) :
      Canonical (levels + 1) (.arr items)
  | obj {levels : Nat} {entries : List (Str × Json F)} (hkeys : entries.Pairwise fun a b => compare a.1 b.1 = .lt)
      (h : ∀ e ∈ entries, Canonical levels e.2) : Canonical (levels + 1) (.obj entries)

omit [WireFloat64 F] in
theorem number_head {c : Char} (h : c = '-' ∨ isAsciiDigit c = true) : isWhitespace c = false ∧ c ≠ ']' := by
  rcases h with rfl | hdigit
  · decide
  · simp only [isAsciiDigit, Bool.and_eq_true, decide_eq_true_eq] at hdigit
    have hlow : 48 ≤ c.toNat := hdigit.1
    have hhigh : c.toNat ≤ 57 := hdigit.2
    refine ⟨?_, fun hbracket => ?_⟩
    · simp only [isWhitespace, List.mem_cons, List.not_mem_nil, or_false, Bool.or_eq_false_iff,
        Bool.and_eq_false_iff, decide_eq_false_iff_not]
      omega
    · rw [hbracket] at hhigh
      exact absurd hhigh (by decide)

/-- The first character of a value decides how it is read. -/
theorem Canonical.head {levels : Nat} {v : Json F} (h : Canonical levels v) :
    ∃ c text, v.write = c :: text ∧ isWhitespace c = false ∧ c ≠ ']' := by
  cases h with
  | null => exact ⟨'n', "ull".toList, rfl, by decide, by decide⟩
  | bool b =>
    cases b
    · exact ⟨'f', "alse".toList, rfl, by decide, by decide⟩
    · exact ⟨'t', "rue".toList, rfl, by decide, by decide⟩
  | num h =>
    obtain ⟨c, text, hwrite, hc⟩ := h.head
    exact ⟨c, text, hwrite, number_head hc⟩
  | str s => exact ⟨'\x22', _, rfl, by decide, by decide⟩
  | arr _ => exact ⟨'[', _, rfl, by decide, by decide⟩
  | obj _ _ => exact ⟨'\x7b', _, rfl, by decide, by decide⟩

/-! ## Reading values -/

namespace Parser

omit [WireFloat64 F] in
theorem skipWs_cons {c : Char} (h : isWhitespace c = false) (rest : Str) (pos depth : Nat) :
    skipWs ⟨c :: rest, pos, depth⟩ = ⟨c :: rest, pos, depth⟩ := by
  simp [skipWs, h]

omit [WireFloat64 F] in
theorem insertKey_last {map : List (Str × Json F)} {key : Str} {value : Json F}
    (h : ∀ e ∈ map, compare e.1 key = .lt) : insertKey key value map = map ++ [(key, value)] := by
  induction map with
  | nil => rfl
  | cons e map ih =>
    obtain ⟨he, hrest⟩ := List.forall_mem_cons.mp h
    have hgt : compare key e.1 = .gt := OrientedCmp.gt_iff_lt.mpr he
    rw [insertKey, hgt]
    simp only [ih hrest, List.cons_append]

theorem length_writeItems (v : Json F) (vs : List (Json F)) : vs.length ≤
    (Json.writeItems (v :: vs)).length := by
  induction vs generalizing v with
  | nil => exact Nat.zero_le _
  | cons w vs ih =>
    rw [Json.writeItems, List.length_append, List.length_cons, List.length_cons]
    have := ih w
    omega

theorem length_writeEntries (e : Str × Json F) (es : List (Str × Json F)) :
    es.length ≤ (Json.writeEntries (e :: es)).length := by
  induction es generalizing e with
  | nil => exact Nat.zero_le _
  | cons e' es ih =>
    obtain ⟨k, v⟩ := e
    rw [Json.writeEntries]
    have := ih e'
    simp only [List.length_append, List.length_cons]
    omega

section Loops

variable {parseValue : Parser → Except JsonError (Json F × Parser)} {depth : Nat}

/-- What the loops need of the values. -/
def ReadsBack (parseValue : Parser → Except JsonError (Json F × Parser)) (depth : Nat) (v : Json F) : Prop :=
  ∀ rest pos, Ends rest → Yields (parseValue ⟨v.write ++ rest, pos, depth⟩) v rest depth

theorem itemsFrom_written {v : Json F} {vs : List (Json F)}
    (hread : ∀ w ∈ v :: vs, ReadsBack parseValue (depth + 1) w)
    (acc : List (Json F)) {turns : Nat} (h : vs.length < turns) (rest : Str) (pos : Nat) :
    Yields (itemsFrom parseValue turns acc ⟨Json.writeItems (v :: vs) ++ ']' :: rest, pos, depth + 1⟩)
      (.arr (acc ++ v :: vs)) rest depth := by
  induction vs generalizing v acc turns pos with
  | nil =>
    obtain ⟨turns, rfl⟩ := Nat.exists_eq_succ_of_ne_zero (Nat.ne_of_gt h)
    obtain ⟨pos', hv⟩ := hread v List.mem_cons_self (']' :: rest) pos (by rintro c ⟨⟩; decide)
    refine ⟨pos' + 1, ?_⟩
    rw [itemsFrom, Json.writeItems, hv]
    simp only [bind, Except.bind, skipWs_cons (show isWhitespace ']' = false by decide), next]
    rfl
  | cons w vs ih =>
    obtain ⟨turns, rfl⟩ := Nat.exists_eq_succ_of_ne_zero (Nat.ne_of_gt (Nat.zero_lt_of_lt h))
    obtain ⟨hv, hrest⟩ := List.forall_mem_cons.mp hread
    obtain ⟨pos', hv⟩ := hv (',' :: (Json.writeItems (w :: vs) ++ ']' :: rest)) pos (by rintro c ⟨⟩; decide)
    obtain ⟨pos'', hloop⟩ := ih hrest (acc ++ [v]) (Nat.lt_of_succ_lt_succ h) (pos' + 1)
    refine ⟨pos'', ?_⟩
    rw [itemsFrom, Json.writeItems, List.append_assoc, List.cons_append, hv]
    simp only [bind, Except.bind, skipWs_cons (show isWhitespace ',' = false by decide), next]
    rw [hloop, List.append_assoc, List.singleton_append]

theorem entriesFrom_written {e : Str × Json F} {es : List (Str × Json F)}
    (hread : ∀ e' ∈ e :: es, ReadsBack parseValue (depth + 1) e'.2) {acc : List (Str × Json F)}
    (hkeys : (acc ++ e :: es).Pairwise fun a b => compare a.1 b.1 = .lt) {turns : Nat} (h : es.length < turns)
    (rest : Str) (pos : Nat) :
    Yields (entriesFrom parseValue turns acc ⟨Json.writeEntries (e :: es) ++ '\x7d' :: rest, pos, depth + 1⟩)
      (.obj (acc ++ e :: es)) rest depth := by
  induction es generalizing e acc turns pos with
  | nil =>
    obtain ⟨k, v⟩ := e
    obtain ⟨turns, rfl⟩ := Nat.exists_eq_succ_of_ne_zero (Nat.ne_of_gt h)
    have hlast : insertKey k v acc = acc ++ [(k, v)] :=
      insertKey_last fun e he => (List.pairwise_append.mp hkeys).2.2 e he (k, v) List.mem_cons_self
    obtain ⟨pos', hk⟩ := parseString_written k (':' :: (v.write ++ '\x7d' :: rest)) pos (depth + 1)
    obtain ⟨pos'', hv⟩ := hread (k, v) List.mem_cons_self ('\x7d' :: rest) (pos' + 1) (by rintro c ⟨⟩; decide)
    refine ⟨pos'' + 1, ?_⟩
    have hquote : skipWs ⟨writeEscaped k ++ ':' :: (v.write ++ '\x7d' :: rest), pos, depth + 1⟩ =
        ⟨writeEscaped k ++ ':' :: (v.write ++ '\x7d' :: rest), pos, depth + 1⟩ := skipWs_cons (by decide) _ _ _
    rw [entriesFrom, Json.writeEntries, List.append_assoc, List.cons_append, hquote, hk]
    simp only [bind, Except.bind, skipWs_cons (show isWhitespace ':' = false by decide), next, hv, hlast,
      skipWs_cons (show isWhitespace '\x7d' = false by decide)]
    rfl
  | cons e' es ih =>
    obtain ⟨k, v⟩ := e
    obtain ⟨turns, rfl⟩ := Nat.exists_eq_succ_of_ne_zero (Nat.ne_of_gt (Nat.zero_lt_of_lt h))
    have hlast : insertKey k v acc = acc ++ [(k, v)] :=
      insertKey_last fun e he => (List.pairwise_append.mp hkeys).2.2 e he (k, v) List.mem_cons_self
    obtain ⟨hv, hrest⟩ := List.forall_mem_cons.mp hread
    have hkeys' : ((acc ++ [(k, v)]) ++ e' :: es).Pairwise fun a b => compare a.1 b.1 = .lt := by
      rwa [List.append_assoc, List.singleton_append]
    let after := ',' :: (Json.writeEntries (e' :: es) ++ '\x7d' :: rest)
    obtain ⟨pos', hk⟩ := parseString_written k (':' :: (v.write ++ after)) pos (depth + 1)
    obtain ⟨pos'', hv⟩ := hv after (pos' + 1) (by rintro c ⟨⟩; decide)
    obtain ⟨last, hloop⟩ := ih hrest hkeys' (Nat.lt_of_succ_lt_succ h) (pos'' + 1)
    refine ⟨last, ?_⟩
    have hquote : skipWs ⟨writeEscaped k ++ ':' :: (v.write ++ after), pos, depth + 1⟩ =
        ⟨writeEscaped k ++ ':' :: (v.write ++ after), pos, depth + 1⟩ := skipWs_cons (by decide) _ _ _
    rw [entriesFrom, Json.writeEntries, List.append_assoc, List.cons_append, List.append_assoc, List.cons_append]
    rw [show skipWs ⟨writeEscaped k ++ ':' :: (v.write ++ ',' :: (Json.writeEntries (e' :: es) ++ '\x7d' :: rest)), pos,
      depth + 1⟩ = _ from hquote, hk]
    simp only [bind, Except.bind, skipWs_cons (show isWhitespace ':' = false by decide), next, hv, hlast, after,
      skipWs_cons (show isWhitespace ',' = false by decide)]
    rw [hloop, List.append_assoc, List.singleton_append]

end Loops

theorem takeWhile_number {text rest : Str} (h : ∀ c ∈ text, isNumberChar c = true) (hends : Ends rest) :
    (text ++ rest).takeWhile isNumberChar = text ∧ (text ++ rest).dropWhile isNumberChar = rest := by
  rw [List.takeWhile_append_of_pos h, List.dropWhile_append_of_pos h]
  cases rest with
  | nil => exact ⟨List.append_nil _, rfl⟩
  | cons c rest =>
    have hc : isNumberChar c = false := hends c rfl
    rw [List.takeWhile_cons_of_neg (by rw [hc]; decide), List.dropWhile_cons_of_neg (by rw [hc]; decide)]
    exact ⟨List.append_nil _, rfl⟩

/-- A text of number characters is read as one number. -/
theorem parseNumber_text {number : Str} {x : F} (hne : number ≠ []) (hchars : ∀ c ∈ number, isNumberChar c = true)
    (hparses : WireFloat64.parse number = some x) {rest : Str} (hends : Ends rest) (pos depth : Nat) :
    Yields (parseNumber ⟨number ++ rest, pos, depth⟩) (.num x) rest depth := by
  obtain ⟨c, text, rfl⟩ := List.exists_cons_of_ne_nil hne
  obtain ⟨hc, htext⟩ := List.forall_mem_cons.mp hchars
  have htail := takeWhile_number htext hends
  have hwhole := takeWhile_number hchars hends
  rw [parseNumber]
  simp only [peek, List.cons_append, List.head?_cons, Option.some.injEq, next]
  by_cases hminus : c = '-'
  · simp only [if_pos hminus, htail, List.singleton_append]
    rw [← hminus, hparses]
    exact ⟨_, rfl⟩
  · rw [List.cons_append] at hwhole
    simp only [if_neg hminus, hwhole, List.nil_append, hparses]
    exact ⟨_, rfl⟩

theorem parseNumber_written {x : F} (h : Prints x) {rest : Str} (hends : Ends rest) (pos depth : Nat) :
    Yields (parseNumber ⟨Json.writeNum x ++ rest, pos, depth⟩) (.num x) rest depth := by
  obtain ⟨c, text, hwrite, -⟩ := h.head
  exact parseNumber_text (hwrite ▸ List.cons_ne_nil c text) h.chars h.parses hends pos depth

/-- A sign or a digit opens a number. -/
theorem parseValue_number {c : Char} (hc : c = '-' ∨ isAsciiDigit c = true) (levels : Nat) (rest : Str)
    (pos depth : Nat) :
    parseValue (F := F) (levels + 1) ⟨c :: rest, pos, depth⟩ = parseNumber ⟨c :: rest, pos, depth⟩ := by
  have hfalse : ∀ d : Char, d ≠ '-' → isAsciiDigit d = false → c ≠ d := by
    rintro d hminus hdigit rfl
    rcases hc with h | h
    · exact hminus h
    · rw [hdigit] at h
      cases h
  rw [parseValue, skipWs_cons (number_head hc).1]
  dsimp only [peek, List.head?_cons]
  split
  · rename_i heq
    exact absurd (Option.some.inj heq) (hfalse _ (by decide) (by decide))
  · rename_i heq
    exact absurd (Option.some.inj heq) (hfalse _ (by decide) (by decide))
  · rename_i heq
    exact absurd (Option.some.inj heq) (hfalse _ (by decide) (by decide))
  · rename_i heq
    exact absurd (Option.some.inj heq) (hfalse _ (by decide) (by decide))
  · rename_i heq
    exact absurd (Option.some.inj heq) (hfalse _ (by decide) (by decide))
  · rename_i heq
    exact absurd (Option.some.inj heq) (hfalse _ (by decide) (by decide))
  · rename_i heq
    obtain rfl := Option.some.inj heq
    rw [if_pos (by rcases hc with rfl | h <;> simp [*])]
  · rename_i heq
    cases heq

theorem enter_eq {depth : Nat} (h : depth < maxDepth) (rest : Str) (pos : Nat) :
    enter ⟨rest, pos, depth⟩ = .ok ⟨rest, pos, depth + 1⟩ := by
  rw [enter, if_neg (Nat.not_lt.mpr h)]

/-- Behind the bracket that opens an array. -/
theorem parseValue_array {levels depth : Nat} (hdepth : depth < maxDepth) {tail : Str} {pos : Nat}
    {q : Parser}
    (hq : skipWs ⟨tail, pos + 1, depth + 1⟩ = q) :
    parseValue (F := F) (levels + 1) ⟨'[' :: tail, pos, depth⟩ =
      if q.peek = some ']' then .ok (.arr [], q.next.2.leave)
      else itemsFrom (parseValue levels) (q.rest.length + 1) [] q := by
  rw [parseValue, skipWs_cons (by decide)]
  show parseArray (parseValue levels) _ = _
  rw [parseArray, enter_eq hdepth, ← hq]
  rfl

theorem parseValue_object {levels depth : Nat} (hdepth : depth < maxDepth) {tail : Str} {pos : Nat}
    {q : Parser}
    (hq : skipWs ⟨tail, pos + 1, depth + 1⟩ = q) :
    parseValue (F := F) (levels + 1) ⟨'\x7b' :: tail, pos, depth⟩ =
      if q.peek = some '\x7d' then .ok (.obj [], q.next.2.leave)
      else entriesFrom (parseValue levels) (q.rest.length + 1) [] q := by
  rw [parseValue, skipWs_cons (by decide)]
  show parseObject (parseValue levels) _ = _
  rw [parseObject, enter_eq hdepth, ← hq]
  rfl

theorem parseArray_written {levels depth : Nat} {items : List (Json F)}
    (hread : ∀ v ∈ items, ReadsBack (parseValue levels) (depth + 1) v)
    (hhead : ∀ v ∈ items, ∃ c text, v.write = c :: text ∧ isWhitespace c = false ∧ c ≠ ']')
    (hdepth : depth < maxDepth) (rest : Str) (pos : Nat) :
    Yields (parseValue (levels + 1) ⟨'[' :: (Json.writeItems items ++ ']' :: rest), pos, depth⟩) (.arr items)
      rest depth := by
  cases items with
  | nil =>
    rw [Json.writeItems, List.nil_append, parseValue_array hdepth (skipWs_cons rfl _ _ _)]
    exact ⟨pos + 2, rfl⟩
  | cons v vs =>
    obtain ⟨c, text, hwrite, hwhite, hbracket⟩ := hhead v List.mem_cons_self
    obtain ⟨text', hitems⟩ : ∃ text', Json.writeItems (v :: vs) ++ ']' :: rest = c :: text' := by
      cases vs <;> exact ⟨_, by rw [Json.writeItems, hwrite]; rfl⟩
    have hlen := length_writeItems v vs
    have hskip : skipWs ⟨Json.writeItems (v :: vs) ++ ']' :: rest, pos + 1, depth + 1⟩ =
        ⟨Json.writeItems (v :: vs) ++ ']' :: rest, pos + 1, depth + 1⟩ := by
      rw [hitems]
      exact skipWs_cons hwhite _ _ _
    have hpeek : peek ⟨Json.writeItems (v :: vs) ++ ']' :: rest, pos + 1, depth + 1⟩ ≠ some ']' := by
      rw [hitems]
      exact fun heq => hbracket (Option.some.inj heq)
    rw [parseValue_array hdepth hskip, if_neg hpeek]
    exact itemsFrom_written hread [] (by rw [List.length_append]; omega) rest (pos + 1)

theorem parseObject_written {levels depth : Nat} {entries : List (Str × Json F)}
    (hread : ∀ e ∈ entries, ReadsBack (parseValue levels) (depth + 1) e.2)
    (hkeys : entries.Pairwise fun a b => compare a.1 b.1 = .lt) (hdepth : depth < maxDepth) (rest : Str) (pos : Nat) :
    Yields (parseValue (levels + 1) ⟨'\x7b' :: (Json.writeEntries entries ++ '\x7d' :: rest), pos, depth⟩)
      (.obj entries) rest depth := by
  cases entries with
  | nil =>
    rw [Json.writeEntries, List.nil_append, parseValue_object hdepth (skipWs_cons rfl _ _ _)]
    exact ⟨pos + 2, rfl⟩
  | cons e es =>
    obtain ⟨text', hentries⟩ : ∃ text', Json.writeEntries (e :: es) ++ '\x7d' :: rest = '\x22' :: text' := by
      cases es <;> exact ⟨_, by rw [Json.writeEntries]; rfl⟩
    have hlen := length_writeEntries e es
    have hskip : skipWs ⟨Json.writeEntries (e :: es) ++ '\x7d' :: rest, pos + 1, depth + 1⟩ =
        ⟨Json.writeEntries (e :: es) ++ '\x7d' :: rest, pos + 1, depth + 1⟩ := by
      rw [hentries]
      exact skipWs_cons (by decide) _ _ _
    have hpeek : peek ⟨Json.writeEntries (e :: es) ++ '\x7d' :: rest, pos + 1, depth + 1⟩ ≠ some '\x7d' := by
      rw [hentries]
      exact fun heq => absurd (Option.some.inj heq) (by decide)
    rw [parseValue_object hdepth hskip, if_neg hpeek]
    exact entriesFrom_written hread hkeys (by rw [List.length_append]; omega) rest (pos + 1)

/-- A canonical value is read back within its levels. -/
theorem parseValue_written {n : Nat} {v : Json F} (h : Canonical n v) : ∀ {levels depth : Nat}, n < levels →
    depth + n ≤ maxDepth → ReadsBack (parseValue levels) depth v := by
  induction h with
  | null =>
    intro levels depth hlevels _ rest pos _
    obtain ⟨levels, rfl⟩ := Nat.exists_eq_succ_of_ne_zero (Nat.ne_of_gt (Nat.zero_lt_of_lt hlevels))
    exact ⟨pos + 4, rfl⟩
  | bool b =>
    intro levels depth hlevels _ rest pos _
    obtain ⟨levels, rfl⟩ := Nat.exists_eq_succ_of_ne_zero (Nat.ne_of_gt (Nat.zero_lt_of_lt hlevels))
    cases b
    · exact ⟨pos + 5, rfl⟩
    · exact ⟨pos + 4, rfl⟩
  | @num n x h =>
    intro levels depth hlevels _ rest pos hends
    obtain ⟨levels, rfl⟩ := Nat.exists_eq_succ_of_ne_zero (Nat.ne_of_gt (Nat.zero_lt_of_lt hlevels))
    obtain ⟨c, text, hwrite, hc⟩ := h.head
    obtain ⟨pos', hread⟩ := parseNumber_written h hends pos depth
    refine ⟨pos', ?_⟩
    rw [hwrite, List.cons_append] at hread
    rw [Json.write, hwrite, List.cons_append, parseValue_number hc]
    exact hread
  | str s =>
    intro levels depth hlevels _ rest pos _
    obtain ⟨levels, rfl⟩ := Nat.exists_eq_succ_of_ne_zero (Nat.ne_of_gt (Nat.zero_lt_of_lt hlevels))
    obtain ⟨pos', hread⟩ := parseString_written s rest pos depth
    have hskip : skipWs ⟨writeEscaped s ++ rest, pos, depth⟩ = ⟨writeEscaped s ++ rest, pos, depth⟩ :=
      skipWs_cons (by decide) _ _ _
    refine ⟨pos', ?_⟩
    rw [Json.write, parseValue, hskip]
    dsimp only
    rw [show peek ⟨writeEscaped s ++ rest, pos, depth⟩ = some '\x22' from rfl, hread]
    rfl
  | @arr n items hitems ih =>
    intro levels depth hlevels hdepth rest pos _
    obtain ⟨levels, rfl⟩ := Nat.exists_eq_succ_of_ne_zero (Nat.ne_of_gt (Nat.zero_lt_of_lt hlevels))
    have hread : ∀ v ∈ items, ReadsBack (parseValue levels) (depth + 1) v :=
      fun v hv => ih v hv (by omega) (by omega)
    rw [Json.write, List.cons_append, List.cons_append, List.append_assoc, List.singleton_append]
    exact parseArray_written hread (fun v hv => (hitems v hv).head) (by omega) rest pos
  | @obj n entries hkeys _ ih =>
    intro levels depth hlevels hdepth rest pos _
    obtain ⟨levels, rfl⟩ := Nat.exists_eq_succ_of_ne_zero (Nat.ne_of_gt (Nat.zero_lt_of_lt hlevels))
    have hread : ∀ e ∈ entries, ReadsBack (parseValue levels) (depth + 1) e.2 :=
      fun e he => ih e he (by omega) (by omega)
    rw [Json.write, List.cons_append, List.cons_append, List.append_assoc, List.singleton_append]
    exact parseObject_written hread hkeys (by omega) rest pos

end Parser

/-- What is written is read back as it was. -/
theorem Json.parse_write {n : Nat} {v : Json F} (h : Canonical n v) (hn : n ≤ maxDepth) :
    Json.parse v.write = .ok v := by
  obtain ⟨c, text, hwrite, hwhite, -⟩ := h.head
  obtain ⟨pos, hread⟩ := Parser.parseValue_written h (Nat.lt_succ_of_le hn) (by omega : 0 + n ≤ maxDepth) [] 0 nofun
  rw [List.append_nil] at hread
  have hskip : Parser.skipWs ⟨v.write, 0, 0⟩ = ⟨v.write, 0, 0⟩ := by
    rw [hwrite]
    exact Parser.skipWs_cons hwhite _ _ _
  rw [Json.parse, hskip, hread]
  rfl

end Canonical

end Ccos
