import Ccos.Wire.Json

/-!
# The parser comes to an end

Every turn of a loop of the parser reads a character, so it always comes to an end.
-/

open Std

namespace Ccos

/-! ## Every turn reads something -/

/-- No loop is cut short, and on success fewer than `limit` characters are left, as deep as before. -/
def Advances {A : Type} (limit depth : Nat) (x : Except JsonError (A × Parser)) : Prop :=
  x ≠ .error .outOfFuel ∧ ∀ a p, x = .ok (a, p) → p.rest.length < limit ∧ p.depth = depth

namespace Advances

variable {A B : Type} {limit depth : Nat}

theorem message (text : Str) : Advances limit depth
    (.error (.message text) : Except JsonError (A × Parser)) :=
  ⟨nofun, fun _ _ h => nomatch h⟩

theorem ok {a : A} {p : Parser} (h : p.rest.length < limit) (hdepth : p.depth = depth) :
    Advances limit depth (.ok (a, p)) := by
  refine ⟨nofun, fun a' p' heq => ?_⟩
  cases heq
  exact ⟨h, hdepth⟩

theorem bind {limit' depth' : Nat} {x : Except JsonError (A × Parser)}
    {f : A × Parser → Except JsonError (B × Parser)}
    (h : Advances limit depth x)
    (hf : ∀ a p, p.rest.length < limit → p.depth = depth → Advances limit' depth' (f (a, p))) :
    Advances limit' depth' (x >>= f) := by
  cases x with
  | error e => exact ⟨fun heq => h.1 (by cases heq; rfl), fun _ _ heq => nomatch heq⟩
  | ok r => exact hf r.1 r.2 (h.2 r.1 r.2 rfl).1 (h.2 r.1 r.2 rfl).2

theorem mono {limit' : Nat} {x : Except JsonError (A × Parser)} (h : Advances limit depth x)
    (hle : limit ≤ limit') :
    Advances limit' depth x :=
  ⟨h.1, fun a p heq => ⟨Nat.lt_of_lt_of_le (h.2 a p heq).1 hle, (h.2 a p heq).2⟩⟩

end Advances

namespace Parser

variable {F : Type}

theorem length_skipWs (p : Parser) : p.skipWs.rest.length ≤ p.rest.length :=
  (List.dropWhile_sublist isWhitespace).length_le

theorem next_le (p : Parser) : p.next.2.rest.length ≤ p.rest.length ∧ p.next.2.depth = p.depth := by
  obtain ⟨rest, pos, depth⟩ := p
  cases rest with
  | nil => exact ⟨Nat.le_refl _, rfl⟩
  | cons d rest => exact ⟨Nat.le_succ _, rfl⟩

theorem next_of_eq {p q : Parser} {c : Option Char} (h : p.next = (c, q)) :
    q.rest.length ≤ p.rest.length ∧ q.depth = p.depth := by
  have hle := next_le p
  rw [h] at hle
  exact hle

theorem readHex_advances (count code : Nat) (p : Parser) :
    Advances (p.rest.length + 1) p.depth (readHex count code p) := by
  induction count generalizing code p with
  | zero => exact .ok (Nat.lt_succ_self _) rfl
  | succ count ih =>
    obtain ⟨rest, pos, depth⟩ := p
    cases rest with
    | nil => exact .message _
    | cons c rest =>
      simp only [readHex, next]
      split
      · exact .message _
      · exact (ih _ _).mono (by simp)

theorem unicodeEscape_advances (p : Parser) : Advances (p.rest.length + 1) p.depth (unicodeEscape p) := by
  refine (readHex_advances 4 0 p).bind fun code q hlt hdepth => ?_
  dsimp only
  have hfirst := next_le q
  have hsecond := next_le q.next.2
  split
  · split
    · exact .message _
    · refine (readHex_advances 4 0 _).bind fun low q' hlt' hdepth' => ?_
      dsimp only
      split
      · exact .message _
      · exact .ok (by omega) (by rw [hdepth', hsecond.2, hfirst.2, hdepth])
  · split
    · exact .ok hlt hdepth
    · exact .ok hlt hdepth

theorem unescape_advances (p : Parser) : Advances (p.rest.length + 1) p.depth (unescape p) := by
  obtain ⟨rest, pos, depth⟩ := p
  cases rest with
  | nil => exact .message _
  | cons c rest =>
    have hshort : rest.length < (c :: rest).length + 1 := Nat.lt_succ_of_lt (Nat.lt_succ_self _)
    simp only [unescape, next]
    split
    case h_10 =>
      rename_i heq
      cases heq
      exact (unicodeEscape_advances _).mono (Nat.le_succ _)
    all_goals
      first
      | exact .message _
      | rename_i heq
        cases heq
        exact .ok hshort rfl

theorem stringFrom_advances {turns : Nat} (s : Str) {p : Parser} (h : p.rest.length < turns) :
    Advances (p.rest.length + 1) p.depth (stringFrom turns s p) := by
  induction turns generalizing s p with
  | zero => exact absurd h (Nat.not_lt_zero _)
  | succ turns ih =>
    obtain ⟨rest, pos, depth⟩ := p
    cases rest with
    | nil => exact .message _
    | cons c rest =>
      have hrest : rest.length < turns := Nat.lt_of_succ_lt_succ h
      simp only [stringFrom, next]
      split
      · exact .message _
      · rename_i heq
        cases heq
        exact .ok (Nat.lt_succ_of_lt (Nat.lt_succ_self _)) rfl
      · rename_i heq
        cases heq
        refine (unescape_advances _).bind fun c p hlt hdepth => ?_
        dsimp only at hlt hdepth ⊢
        rw [← hdepth]
        exact (ih (s ++ [c]) (by omega)).mono (by rw [List.length_cons]; omega)
      · rename_i heq
        cases heq
        exact (ih _ hrest).mono (Nat.le_succ _)

theorem parseString_advances (p : Parser) : Advances p.rest.length p.depth (parseString p) := by
  obtain ⟨rest, pos, depth⟩ := p
  cases rest with
  | nil => exact .message _
  | cons c rest =>
    simp only [parseString, next]
    split
    · rename_i heq
      cases heq
      exact stringFrom_advances [] (Nat.lt_succ_self _)
    · exact .message _

theorem matchLiteral_advances {lit : Str} {p p' : Parser} (hlit : lit ≠ [])
    (h : p.matchLiteral lit = some p') :
    p'.rest.length < p.rest.length ∧ p'.depth = p.depth := by
  unfold matchLiteral at h
  split at h
  · rename_i htake
    cases h
    have hlen := congrArg List.length htake
    have hpos := List.length_pos_of_ne_nil hlit
    rw [List.length_take] at hlen
    refine ⟨?_, rfl⟩
    dsimp only
    rw [List.length_drop]
    omega
  · cases h

theorem parseBool_advances (p : Parser) : Advances p.rest.length p.depth (parseBool (F := F) p) := by
  unfold parseBool
  split
  · rename_i h
    obtain ⟨hlt, hdepth⟩ := matchLiteral_advances (by decide) h
    exact .ok hlt hdepth
  · split
    · rename_i h
      obtain ⟨hlt, hdepth⟩ := matchLiteral_advances (by decide) h
      exact .ok hlt hdepth
    · exact .message _

theorem parseNull_advances (p : Parser) : Advances p.rest.length p.depth (parseNull (F := F) p) := by
  unfold parseNull
  split
  · rename_i h
    obtain ⟨hlt, hdepth⟩ := matchLiteral_advances (by decide) h
    exact .ok hlt hdepth
  · exact .message _

/-- A number starts with a sign or a digit, which is read. -/
theorem parseNumber_advances [WireFloat64 F] {p : Parser} {c : Char} (hpeek : p.peek = some c)
    (hc : (c = '-' || isAsciiDigit c) = true) :
    Advances p.rest.length p.depth (parseNumber (F := F) p) := by
  obtain ⟨rest, pos, depth⟩ := p
  obtain ⟨rest, rfl⟩ := List.head?_eq_some_iff.mp hpeek
  simp only [parseNumber, peek, next, List.head?_cons, Option.some.injEq]
  split
  · by_cases hminus : c = '-'
    · rw [if_pos hminus]
      exact .ok (Nat.lt_succ_of_le (List.dropWhile_sublist isNumberChar).length_le) rfl
    · rw [if_neg hminus]
      have hdigit : isNumberChar c = true := by
        have hdigit : isAsciiDigit c = true := by simpa [hminus] using hc
        simp [isNumberChar, hdigit]
      refine .ok ?_ rfl
      dsimp only
      rw [List.dropWhile_cons_of_pos hdigit]
      exact Nat.lt_succ_of_le (List.dropWhile_sublist isNumberChar).length_le
  · exact .message _

section Loops

variable {parseValue : Parser → Except JsonError (Json F × Parser)} {depth : Nat}

theorem entriesFrom_advances
    (hvalue : ∀ p, p.depth = depth + 1 → Advances p.rest.length (depth + 1) (parseValue p))
    {turns : Nat} (map : List (Str × Json F)) {p : Parser} (h : p.rest.length < turns) (hdepth : p.depth = depth + 1) :
    Advances p.rest.length depth (entriesFrom parseValue turns map p) := by
  induction turns generalizing map p with
  | zero => exact absurd h (Nat.not_lt_zero _)
  | succ turns ih =>
    rw [entriesFrom]
    have hskip := length_skipWs p
    refine (parseString_advances p.skipWs).bind fun key q hlt hq => ?_
    have hq : q.depth = depth + 1 := hq.trans hdepth
    have hskip' := length_skipWs q
    dsimp only
    split
    · rename_i after heq
      obtain ⟨halen, hadepth⟩ := next_of_eq heq
      refine (hvalue after (hadepth.trans hq)).bind fun val r hlt' hr => ?_
      have hskip'' := length_skipWs r
      dsimp only
      split
      · rename_i last heq'
        obtain ⟨hllen, hldepth⟩ := next_of_eq heq'
        exact (ih _ (by omega) (hldepth.trans hr)).mono (by omega)
      · rename_i last heq'
        obtain ⟨hllen, hldepth⟩ := next_of_eq heq'
        exact .ok (Nat.lt_of_le_of_lt hllen (by omega)) (congrArg (· - 1) (hldepth.trans hr))
      · exact .message _
    · exact .message _

theorem itemsFrom_advances
    (hvalue : ∀ p, p.depth = depth + 1 → Advances p.rest.length (depth + 1) (parseValue p))
    {turns : Nat} (items : List (Json F)) {p : Parser} (h : p.rest.length < turns) (hdepth : p.depth = depth + 1) :
    Advances p.rest.length depth (itemsFrom parseValue turns items p) := by
  induction turns generalizing items p with
  | zero => exact absurd h (Nat.not_lt_zero _)
  | succ turns ih =>
    rw [itemsFrom]
    refine (hvalue p hdepth).bind fun val r hlt hr => ?_
    have hskip := length_skipWs r
    dsimp only
    split
    · rename_i last heq
      obtain ⟨hllen, hldepth⟩ := next_of_eq heq
      exact (ih _ (by omega) (hldepth.trans hr)).mono (by omega)
    · rename_i last heq
      obtain ⟨hllen, hldepth⟩ := next_of_eq heq
      exact .ok (Nat.lt_of_le_of_lt hllen (by omega)) (congrArg (· - 1) (hldepth.trans hr))
    · exact .message _

theorem enter_cases (p : Parser) : (∃ text, p.enter = .error (.message text)) ∨
    p.enter = .ok { p with depth := p.depth + 1 } ∧ p.depth < maxDepth := by
  unfold enter
  split
  · exact .inl ⟨_, rfl⟩
  · exact .inr ⟨rfl, by omega⟩

/-- After the opening bracket, and the blanks behind it. -/
theorem opened {p : Parser} (hp : p.rest ≠ []) :
    ({ p with depth := p.depth + 1 } : Parser).next.2.skipWs.rest.length < p.rest.length ∧
      ({ p with depth := p.depth + 1 } : Parser).next.2.skipWs.depth = p.depth + 1 := by
  obtain ⟨rest, pos, depth⟩ := p
  obtain ⟨c, rest, rfl⟩ := List.exists_cons_of_ne_nil hp
  exact ⟨Nat.lt_succ_of_le (length_skipWs ⟨rest, pos + 1, depth + 1⟩), rfl⟩

theorem parseObject_advances {p : Parser} (hvalue : p.depth < maxDepth → ∀ q : Parser, q.depth = p.depth + 1 →
      Advances q.rest.length (p.depth + 1) (parseValue q)) (hp : p.rest ≠ []) :
    Advances p.rest.length p.depth (parseObject parseValue p) := by
  unfold parseObject
  rcases enter_cases p with ⟨text, herror⟩ | ⟨hok, hlt⟩
  · rw [herror]
    exact .message _
  · rw [hok]
    obtain ⟨hshort, hdepth⟩ := opened hp
    simp only [bind, Except.bind]
    generalize ({ p with depth := p.depth + 1 } : Parser).next.2.skipWs = q at hshort hdepth
    split
    · have hnext := next_le q
      exact .ok (Nat.lt_of_le_of_lt hnext.1 hshort) (congrArg (· - 1) (hnext.2.trans hdepth))
    · exact (entriesFrom_advances (hvalue hlt) [] (Nat.lt_succ_self _) hdepth).mono hshort.le

theorem parseArray_advances {p : Parser} (hvalue : p.depth < maxDepth → ∀ q : Parser, q.depth = p.depth + 1 →
      Advances q.rest.length (p.depth + 1) (parseValue q)) (hp : p.rest ≠ []) :
    Advances p.rest.length p.depth (parseArray parseValue p) := by
  unfold parseArray
  rcases enter_cases p with ⟨text, herror⟩ | ⟨hok, hlt⟩
  · rw [herror]
    exact .message _
  · rw [hok]
    obtain ⟨hshort, hdepth⟩ := opened hp
    simp only [bind, Except.bind]
    generalize ({ p with depth := p.depth + 1 } : Parser).next.2.skipWs = q at hshort hdepth
    split
    · have hnext := next_le q
      exact .ok (Nat.lt_of_le_of_lt hnext.1 hshort) (congrArg (· - 1) (hnext.2.trans hdepth))
    · exact (itemsFrom_advances (hvalue hlt) [] (Nat.lt_succ_self _) hdepth).mono hshort.le

end Loops

theorem peek_ne_nil {p : Parser} {c : Char} (h : p.peek = some c) : p.rest ≠ [] := by
  intro hnil
  rw [peek, hnil] at h
  cases h

/-- The limit on nesting leaves enough levels. -/
theorem parseValue_advances [WireFloat64 F] {levels : Nat} {p : Parser} (hdepth : p.depth ≤ maxDepth)
    (h : maxDepth < p.depth + levels) : Advances p.rest.length p.depth (parseValue (F := F) levels p) := by
  induction levels generalizing p with
  | zero => omega
  | succ levels ih =>
    have hvalue : p.skipWs.depth < maxDepth → ∀ q : Parser, q.depth = p.skipWs.depth + 1 →
        Advances q.rest.length (p.skipWs.depth + 1) (parseValue (F := F) levels q) := by
      intro hlt q hq
      have hlt : p.depth < maxDepth := hlt
      have hq : q.depth = p.depth + 1 := hq
      have := @ih q (by omega) (by omega)
      rwa [hq] at this
    have hskip : Advances p.skipWs.rest.length p.skipWs.depth (parseValue (F := F) (levels + 1) p) := by
      rw [parseValue]
      dsimp only
      split
      · rename_i hpeek
        exact parseObject_advances hvalue (peek_ne_nil hpeek)
      · rename_i hpeek
        exact parseArray_advances hvalue (peek_ne_nil hpeek)
      · exact (parseString_advances p.skipWs).bind fun s q hlt hq => .ok hlt hq
      · exact parseBool_advances p.skipWs
      · exact parseBool_advances p.skipWs
      · exact parseNull_advances p.skipWs
      · rename_i hpeek
        split
        · rename_i hc
          exact parseNumber_advances hpeek hc
        · exact .message _
      · exact .message _
    exact hskip.mono (length_skipWs p)

end Parser

/-- Parsing always ends, with a value or with a message. -/
theorem Json.parse_ends {F : Type} [WireFloat64 F] (input : Str) : Json.parse
    (F := F) input ≠ .error .outOfFuel := by
  have hvalue := @Parser.parseValue_advances F _ (maxDepth + 1) (Parser.skipWs ⟨input, 0, 0⟩) (Nat.zero_le _)
    (Nat.lt_add_left _ (Nat.lt_succ_self maxDepth))
  intro h
  unfold Json.parse at h
  cases hv : Parser.parseValue (F := F) (maxDepth + 1) (Parser.skipWs ⟨input, 0, 0⟩) with
  | error e =>
    rw [hv] at h
    cases h
    exact hvalue.1 hv
  | ok r =>
    rw [hv] at h
    simp only [bind, Except.bind] at h
    split at h
    · cases h
    · cases h

end Ccos
