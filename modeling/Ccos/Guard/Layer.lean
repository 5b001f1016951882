import Ccos.Scalar
import Ccos.Lib.JsonText

/-!
# The output guard

What a model answers is cut to length, stripped of control characters, checked as JSON, measured in its nesting, and
scored. An answer that does not pass is replaced by a fixed one.
-/

namespace Ccos.Guard

/-- `serde_json::from_str::<Value>(..).is_ok()`. -/
class JsonReader where
  accepts : Str → Bool

/-- `format!("{:.2}", ..)`. -/
class FixedText (F : Type) where
  twoDigits : F → Str

structure GuardConfig (F : Type) where
  maxOutputLength : Nat
  requireValidJson : Bool
  reliabilityThreshold : F
  sanitizeControlChars : Bool
  maxNestingDepth : Nat

structure GuardResult (F : Type) where
  passed : Bool
  sanitizedOutput : Str
  reliabilityScore : F
  warnings : List Str
  blockedReason : Option Str

/-! ## Characters -/

/-- `char::is_control`. -/
def isControl (c : Char) : Bool := c.toNat < 32 || (127 ≤ c.toNat && c.toNat < 160)

def sanitizeControlCharacters (input : Str) : Str :=
  input.filter fun c => !isControl c || isWhitespace c || c = '\n' || c = '\t'

/-! ## JSON -/

def isValidJson [JsonReader] (input : Str) : Bool :=
  let trimmed := trim input
  if trimmed = [] then false else JsonReader.accepts trimmed

/-- What the scan of the brackets carries. -/
structure Scan where
  depth : Nat
  deepest : Nat
  inString : Bool
  escaped : Bool
  deriving DecidableEq

def Scan.start : Scan := ⟨0, 0, false, false⟩

def Scan.step (s : Scan) (ch : Char) : Scan :=
  if s.escaped then { s with escaped := false }
  else if ch = '\\' ∧ s.inString then { s with escaped := true }
  else if ch = '\x22' then { s with inString := !s.inString }
  else if (ch = '\x7b' ∨ ch = '[') ∧ ¬ s.inString then
    { s with depth := s.depth + 1, deepest := max s.deepest (s.depth + 1) }
  else if (ch = '\x7d' ∨ ch = ']') ∧ ¬ s.inString then { s with depth := s.depth - 1 }
  else s

def jsonNestingDepth (input : Str) : Nat := (input.foldl Scan.step .start).deepest

/-! ## The guard -/

def fallbackResponse : Str :=
  ("\x7b\x22analysis\x22:\x7b\x22confidence\x22:0.0,\x22dependencies\x22:[],\x22summary\x22:" ++
    "\x22No analysis available due to guard rejection.\x22\x7d," ++
    "\x22message\x22:\x22Guard layer blocked the output. Deterministic fallback response provided.\x22," ++
    "\x22status\x22:\x22fallback\x22\x7d").toList

section

variable {F : Type} [Scalar F]

def computeReliabilityScore (config : GuardConfig F) (output : Str) (isJson : Bool) : F :=
  let score : F := Scalar.lit 0.5
  let score := if isJson then score + Scalar.lit 0.3 else score
  let score := if output ≠ [] ∧ byteLen output > 10 then score + Scalar.lit 0.1 else score
  let score := if byteLen output < config.maxOutputLength then score + Scalar.lit 0.05 else score
  let score := if byteLen output < 20 then score - Scalar.lit 0.15 else score
  let score :=
    if output.count '\x7b' = output.count '\x7d' ∧ output.count '[' = output.count ']' then score + Scalar.lit 0.05
    else score
  Scalar.clamp01 score

def nestingText (depth limit : Nat) : Str :=
  "nesting depth ".toList ++ natStr depth ++ " exceeds limit ".toList ++ natStr limit

variable [JsonReader] [FixedText F]

def validateAndSanitize (config : GuardConfig F) (rawOutput : Str) : GuardResult F :=
  if rawOutput = [] then
    { passed := false
      sanitizedOutput := fallbackResponse
      reliabilityScore := Scalar.lit 0
      warnings := ["empty output".toList]
      blockedReason := some "empty output".toList }
  else
    let tooLong : List Str :=
      if byteLen rawOutput > config.maxOutputLength then
        ["output truncated from ".toList ++ natStr (byteLen rawOutput) ++ " to ".toList ++
          natStr config.maxOutputLength ++ " chars".toList]
      else []
    let truncated := rawOutput.take config.maxOutputLength
    let sanitized := if config.sanitizeControlChars then sanitizeControlCharacters truncated else truncated
    let jsonValid := if config.requireValidJson then isValidJson sanitized else true
    let notJson : List Str := if jsonValid then [] else ["output is not valid JSON".toList]
    let depth := jsonNestingDepth sanitized
    let depthOk := decide (depth ≤ config.maxNestingDepth)
    let tooDeep : List Str := if depthOk then [] else [nestingText depth config.maxNestingDepth]
    let reliability := computeReliabilityScore config sanitized jsonValid
    let passed := Scalar.ge reliability config.reliabilityThreshold && jsonValid && depthOk
    { passed := passed
      sanitizedOutput := if passed then sanitized else fallbackResponse
      reliabilityScore := reliability
      warnings := tooLong ++ notJson ++ tooDeep
      blockedReason :=
        if passed then none
        else if !depthOk then some (nestingText depth config.maxNestingDepth)
        else some ("reliability ".toList ++ FixedText.twoDigits reliability ++ " below threshold ".toList ++
          FixedText.twoDigits config.reliabilityThreshold) }

end

end Ccos.Guard

/-!
## The guard is sound

On every text of the JSON grammar the scan finds the depth of the value, for a string leaves it as it found it.
-/

open JsonText

namespace Ccos.Guard

/-! ## Depth -/

mutual

/-- How deep arrays and objects nest in a value. -/
def nesting : Value → Nat
  | .null => 0
  | .bool _ => 0
  | .num _ => 0
  | .str _ => 0
  | .arr items => nestingItems items + 1
  | .obj members => nestingMembers members + 1

def nestingItems : List Value → Nat
  | [] => 0
  | v :: rest => max (nesting v) (nestingItems rest)

def nestingMembers : List (List Char × Value) → Nat
  | [] => 0
  | (_, v) :: rest => max (nesting v) (nestingMembers rest)

end

/-- The deepest of a list. -/
def deepest {α : Type} (depth : α → Nat) (l : List α) : Nat := (l.map depth).foldr max 0

theorem nestingItems_eq {α : Type} (value : α → Value) (l : List α) :
    nestingItems (l.map value) = deepest (fun a => nesting (value a)) l := by
  induction l with
  | nil => rfl
  | cons a l ih => rw [List.map_cons, nestingItems, ih]; rfl

theorem nestingMembers_eq {α : Type} (member : α → List Char × Value) (l : List α) :
    nestingMembers (l.map member) = deepest (fun a => nesting (member a).2) l := by
  induction l with
  | nil => rfl
  | cons a l ih => rw [List.map_cons, nestingMembers, ih]; rfl

/-! ## The scan -/

def bracket (c : Char) : Bool := c = '\x22' || c = '\x7b' || c = '[' || c = '\x7d' || c = ']'

/-- Outside a string the scan of `t` goes `d` levels down, and comes back. -/
def Nests (t : Str) (d : Nat) : Prop :=
  ∀ depth deepest, depth ≤ deepest →
    t.foldl Scan.step ⟨depth, deepest, false, false⟩ = ⟨depth, max deepest (depth + d), false, false⟩

/-- Inside a string the scan of `t` changes nothing. -/
def InString (t : Str) : Prop :=
  ∀ depth deepest, t.foldl Scan.step ⟨depth, deepest, true, false⟩ = ⟨depth, deepest, true, false⟩

theorem nests_nil : Nests [] 0 := by
  intro depth deepest h
  rw [List.foldl_nil, Nat.add_zero, Nat.max_eq_left h]

theorem Nests.append {t u : Str} {d e : Nat} (ht : Nests t d) (hu : Nests u e) : Nests (t ++ u) (max d e) := by
  intro depth deepest h
  rw [List.foldl_append, ht depth deepest h, hu _ _ (h.trans (Nat.le_max_left _ _)), Nat.max_assoc,
    Nat.add_max_add_left]

theorem step_plain {c : Char} (h : bracket c = false) (depth deepest : Nat) :
    Scan.step ⟨depth, deepest, false, false⟩ c = ⟨depth, deepest, false, false⟩ := by
  simp only [bracket, Bool.or_eq_false_iff, decide_eq_false_iff_not] at h
  simp [Scan.step, h.1.1.1.1, h.1.1.1.2, h.1.1.2, h.1.2, h.2]

theorem nests_plain {t : Str} (h : ∀ c ∈ t, bracket c = false) : Nests t 0 := by
  induction t with
  | nil => exact nests_nil
  | cons c t ih =>
    intro depth deepest hle
    rw [List.foldl_cons, step_plain (h c List.mem_cons_self)]
    exact ih (fun c hc => h c (List.mem_cons_of_mem _ hc)) depth deepest hle

theorem nests_word {t : Str} (h : (t.all fun c => !bracket c) = true) : Nests t 0 :=
  nests_plain fun c hc => (Bool.not_eq_true' _).mp (List.all_eq_true.mp h c hc)

theorem nests_blank {ws : Str} (h : Blank ws) : Nests ws 0 := by
  refine nests_plain fun c hc => ?_
  have hblank := h c hc
  simp only [isBlank, Bool.or_eq_true, beq_iff_eq] at hblank
  rcases hblank with ((rfl | rfl) | rfl) | rfl <;> decide

theorem nests_array {t : Str} {d : Nat} (h : Nests t d) : Nests ('[' :: (t ++ [']'])) (d + 1) := by
  intro depth deepest hle
  have hopen : Scan.step ⟨depth, deepest, false, false⟩ '[' = ⟨depth + 1, max deepest (depth + 1), false, false⟩ := by
    simp [Scan.step]
  have hclose : ∀ n m, Scan.step ⟨n + 1, m, false, false⟩ ']' = ⟨n, m, false, false⟩ := by
    intro n m
    simp [Scan.step]
  rw [List.foldl_cons, hopen, List.foldl_append, h _ _ (Nat.le_max_right _ _), List.foldl_cons, List.foldl_nil, hclose]
  congr 1
  omega

theorem nests_object {t : Str} {d : Nat} (h : Nests t d) : Nests ('\x7b' :: (t ++ ['\x7d'])) (d + 1) := by
  intro depth deepest hle
  have hopen : Scan.step ⟨depth, deepest, false, false⟩ '\x7b' =
      ⟨depth + 1, max deepest (depth + 1), false, false⟩ := by
    simp [Scan.step]
  have hclose : ∀ n m, Scan.step ⟨n + 1, m, false, false⟩ '\x7d' = ⟨n, m, false, false⟩ := by
    intro n m
    simp [Scan.step]
  rw [List.foldl_cons, hopen, List.foldl_append, h _ _ (Nat.le_max_right _ _), List.foldl_cons, List.foldl_nil, hclose]
  congr 1
  omega

/-! ## Strings -/

theorem inString_nil : InString [] := fun _ _ => rfl

theorem InString.append {t u : Str} (ht : InString t) (hu : InString u) : InString (t ++ u) := by
  intro depth deepest
  rw [List.foldl_append, ht, hu]

theorem inString_plain {t : Str} (h : ∀ c ∈ t, c ≠ '\x22' ∧ c ≠ '\\') : InString t := by
  induction t with
  | nil => exact inString_nil
  | cons c t ih =>
    intro depth deepest
    obtain ⟨hquote, hescape⟩ := h c List.mem_cons_self
    have hstep : Scan.step ⟨depth, deepest, true, false⟩ c = ⟨depth, deepest, true, false⟩ := by
      simp [Scan.step, hquote, hescape]
    rw [List.foldl_cons, hstep]
    exact ih (fun c hc => h c (List.mem_cons_of_mem _ hc)) depth deepest

/-- Whatever follows the backslash is passed over. -/
theorem inString_escape (c : Char) : InString ['\\', c] := by
  intro depth deepest
  simp [Scan.step]

theorem hexDigit_plain {c : Char} {n : Nat} (h : HexDigit c n) : c ≠ '\x22' ∧ c ≠ '\\' := by
  constructor
  all_goals
    rintro rfl
    cases h with
    | digit h => exact absurd h (by decide)
    | lower h => exact absurd h (by decide)
    | upper h => exact absurd h (by decide)

theorem inString_hex4 {t : Str} {n : Nat} (h : Hex4 t n) : InString ('\\' :: 'u' :: t) := by
  obtain ⟨ha, hb, hc, hd⟩ := h
  refine (inString_escape 'u').append (inString_plain fun c hmem => ?_)
  simp only [List.mem_cons, List.not_mem_nil, or_false] at hmem
  rcases hmem with rfl | rfl | rfl | rfl
  · exact hexDigit_plain ha
  · exact hexDigit_plain hb
  · exact hexDigit_plain hc
  · exact hexDigit_plain hd

theorem inString_charText {t : Str} {c : Char} (h : CharText t c) : InString t := by
  cases h with
  | plain hcontrol hquote hescape =>
    exact inString_plain fun d hd => by rw [List.mem_singleton.mp hd]; exact ⟨hquote, hescape⟩
  | short h => exact inString_escape _
  | unicode h hn => exact inString_hex4 h
  | pair h h' hhigh hlow => exact (inString_hex4 h).append (inString_hex4 h')

theorem inString_chars {t : Str} {s : List Char} (h : Chars t s) : InString t := by
  induction h with
  | nil => exact inString_nil
  | cons h hs ih => exact (inString_charText h).append ih

theorem nests_string {t : Str} {s : List Char} (h : StringText t s) : Nests t 0 := by
  obtain ⟨body, hbody, rfl⟩ := h
  intro depth deepest hle
  have hquote : ∀ inside, Scan.step ⟨depth, deepest, inside, false⟩ '\x22' = ⟨depth, deepest, !inside, false⟩ := by
    intro inside
    simp [Scan.step]
  rw [List.foldl_cons, hquote, List.foldl_append, Bool.not_false, inString_chars hbody, List.foldl_cons, List.foldl_nil,
    hquote, Nat.add_zero, Nat.max_eq_left hle]
  rfl

/-! ## Values -/

theorem nests_number (n : Number) : Nests n.text 0 := by
  refine nests_plain fun c hc => ?_
  rcases Number.mem_text hc with hdigit | rfl | rfl | rfl | rfl | rfl
  · have hne : ∀ d : Char, d.isDigit = false → c ≠ d := by
      rintro d hd rfl
      rw [hdigit] at hd
      cases hd
    simp [bracket, hne '\x22' (by decide), hne '\x7b' (by decide), hne '[' (by decide), hne '\x7d' (by decide),
      hne ']' (by decide)]
  all_goals decide

theorem nests_commas {α : Type} {text : α → Str} {depth : α → Nat} {l : List α}
    (h : ∀ a ∈ l, Nests (text a) (depth a)) : Nests (commas (l.map text)) (deepest depth l) := by
  induction l with
  | nil => exact nests_nil
  | cons a l ih =>
    have hrest := ih fun b hb => h b (List.mem_cons_of_mem a hb)
    have ha := h a List.mem_cons_self
    cases l with
    | nil =>
      have hone : deepest depth [a] = depth a := Nat.max_zero _
      rw [hone]
      exact ha
    | cons b l =>
      have hcomma : Nests [','] 0 := nests_plain fun c hc => by rw [List.mem_singleton.mp hc]; decide
      have hjoin := ha.append (hcomma.append hrest)
      rw [Nat.zero_max] at hjoin
      exact hjoin

theorem nests_item {i : Item} (h : Nests i.text (nesting i.value)) : Nests i.full (nesting i.value) := by
  have hfull := (nests_blank i.blank_before).append (h.append (nests_blank i.blank_after))
  rwa [Nat.zero_max, Nat.max_zero] at hfull

theorem nests_member {m : Member} (h : Nests m.item.text (nesting m.item.value)) :
    Nests m.full (nesting m.item.value) := by
  have hcolon : Nests [':'] 0 := nests_plain fun c hc => by rw [List.mem_singleton.mp hc]; decide
  have hfull := (nests_blank m.blank_before).append ((nests_string m.key_text).append
    ((nests_blank m.blank_after).append (hcolon.append (nests_item h))))
  rwa [Nat.zero_max, Nat.zero_max, Nat.zero_max, Nat.zero_max] at hfull

/-- The scan agrees with the grammar. -/
theorem nests_of_denotes {n : Nat} {t : Str} {v : Value} (h : Denotes n t v) : Nests t (nesting v) := by
  induction h with
  | null => exact nests_word (by decide)
  | bool b => cases b <;> exact nests_word (by decide)
  | num x => exact nests_number x
  | str h => exact nests_string h
  | emptyArr h => exact nests_array (nests_blank h)
  | @arr n item items h ih =>
    rw [nesting, nestingItems_eq]
    exact nests_array (nests_commas fun i hi => nests_item (ih i hi))
  | emptyObj h => exact nests_object (nests_blank h)
  | @obj n member members h ih =>
    rw [nesting, nestingMembers_eq]
    exact nests_object (nests_commas fun m hm => nests_member (ih m hm))

theorem jsonNestingDepth_eq {t : Str} {d : Nat} (h : Nests t d) : jsonNestingDepth t = d := by
  rw [jsonNestingDepth, Scan.start, h 0 0 (Nat.le_refl 0)]
  simp

theorem nests_document {n : Nat} {t : Str} {v : Value} (h : Document n t v) : Nests t (nesting v) := by
  obtain ⟨i, hi, rfl, rfl⟩ := h
  exact nests_item (nests_of_denotes hi)

/-! ## Trimming -/

theorem trim_split (s : Str) : ∃ a b, s = a ++ (trim s ++ b) ∧ (∀ c ∈ a, isWhitespace c = true) ∧
    ∀ c ∈ b, isWhitespace c = true := by
  let rest := s.dropWhile isWhitespace
  refine ⟨s.takeWhile isWhitespace, (rest.reverse.takeWhile isWhitespace).reverse, ?_, ?_, ?_⟩
  · have hrest : trim s ++ (rest.reverse.takeWhile isWhitespace).reverse = rest := by
      rw [trim, trimEnd, ← List.reverse_append, List.takeWhile_append_dropWhile, List.reverse_reverse]
    rw [hrest, List.takeWhile_append_dropWhile]
  · exact List.all_eq_true.mp List.all_takeWhile
  · exact fun c hc => List.all_eq_true.mp List.all_takeWhile c (List.mem_reverse.mp hc)

theorem bracket_of_whitespace {c : Char} (h : isWhitespace c = true) : bracket c = false := by
  have hne : ∀ d : Char, isWhitespace d = false → c ≠ d := by
    rintro d hd rfl
    rw [h] at hd
    cases hd
  simp [bracket, hne '\x22' (by decide), hne '\x7b' (by decide), hne '[' (by decide), hne '\x7d' (by decide),
    hne ']' (by decide)]

theorem jsonNestingDepth_of_trim {s : Str} {d : Nat} (h : Nests (trim s) d) : jsonNestingDepth s = d := by
  obtain ⟨a, b, hs, ha, hb⟩ := trim_split s
  have hwhole := (nests_plain fun c hc => bracket_of_whitespace (ha c hc)).append
    (h.append (nests_plain fun c hc => bracket_of_whitespace (hb c hc)))
  rw [Nat.zero_max, Nat.max_zero, ← hs] at hwhole
  exact jsonNestingDepth_eq hwhole

/-! ## The guard -/

/-- The reader accepts JSON texts only. -/
class LawfulJsonReader [JsonReader] : Prop where
  document : ∀ s, JsonReader.accepts s = true → ∃ n v, Document n s v

section

variable {F : Type} [Scalar F] [JsonReader] [FixedText F]

theorem fallback_of_not_passed (config : GuardConfig F) {raw : Str}
    (h : (validateAndSanitize config raw).passed = false) :
    (validateAndSanitize config raw).sanitizedOutput = fallbackResponse := by
  unfold validateAndSanitize at h ⊢
  by_cases hraw : raw = []
  · rw [if_pos hraw]
  · rw [if_neg hraw] at h ⊢
    dsimp only at h ⊢
    rw [h]
    exact if_neg Bool.false_ne_true

/-- What passes is the sanitized text, and it passed each check. -/
theorem passed_spec {config : GuardConfig F} (hjson : config.requireValidJson = true)
    (hsanitize : config.sanitizeControlChars = true) {raw : Str}
    (h : (validateAndSanitize config raw).passed = true) :
    (validateAndSanitize config raw).sanitizedOutput =
        sanitizeControlCharacters (raw.take config.maxOutputLength) ∧
      isValidJson (validateAndSanitize config raw).sanitizedOutput = true ∧
      jsonNestingDepth (validateAndSanitize config raw).sanitizedOutput ≤ config.maxNestingDepth := by
  have hraw : raw ≠ [] := by
    rintro rfl
    cases h
  have hout : (validateAndSanitize config raw).sanitizedOutput =
      sanitizeControlCharacters (raw.take config.maxOutputLength) := by
    unfold validateAndSanitize at h ⊢
    rw [if_neg hraw] at h ⊢
    dsimp only at h ⊢
    rw [h, if_pos rfl, if_pos hsanitize]
  rw [hout]
  unfold validateAndSanitize at h
  rw [if_neg hraw] at h
  dsimp only at h
  rw [if_pos hsanitize, if_pos hjson, Bool.and_eq_true, Bool.and_eq_true, decide_eq_true_eq] at h
  exact ⟨rfl, h.1.2, h.2⟩

/-- What passes is JSON that nests no deeper than allowed, is no longer than allowed and has no control characters but
blanks. The scan measures every JSON text rightly, and what does not pass is replaced. -/
theorem guard_sound [LawfulJsonReader] (config : GuardConfig F) (hjson : config.requireValidJson = true)
    (hsanitize : config.sanitizeControlChars = true) (raw : Str) :
    ((validateAndSanitize config raw).passed = true →
      (∃ n v, Document n (trim (validateAndSanitize config raw).sanitizedOutput) v ∧
        nesting v ≤ config.maxNestingDepth) ∧
      (validateAndSanitize config raw).sanitizedOutput.length ≤ config.maxOutputLength ∧
      ∀ c ∈ (validateAndSanitize config raw).sanitizedOutput, isControl c = true → isWhitespace c = true) ∧
    (∀ n t v, Document n t v → jsonNestingDepth t = nesting v) ∧
    ((validateAndSanitize config raw).passed = false →
      (validateAndSanitize config raw).sanitizedOutput = fallbackResponse) := by
  refine ⟨fun h => ?_, fun n t v h => jsonNestingDepth_eq (nests_document h), fallback_of_not_passed config⟩
  obtain ⟨hout, hvalid, hdepth⟩ := passed_spec hjson hsanitize h
  refine ⟨?_, ?_, ?_⟩
  · rw [isValidJson] at hvalid
    split at hvalid
    · cases hvalid
    · obtain ⟨n, v, hdocument⟩ := LawfulJsonReader.document _ hvalid
      rw [jsonNestingDepth_of_trim (nests_document hdocument)] at hdepth
      exact ⟨n, v, hdocument, hdepth⟩
  · rw [hout, sanitizeControlCharacters]
    exact (List.length_filter_le _ _).trans (List.length_take_le _ _)
  · intro c hc hcontrol
    rw [hout, sanitizeControlCharacters, List.mem_filter, hcontrol] at hc
    simp only [Bool.not_true, Bool.false_or, Bool.or_eq_true, decide_eq_true_eq] at hc
    rcases hc.2 with (h | rfl) | rfl
    · exact h
    · decide
    · decide

end

/-! ## An answer that passes -/

namespace Sample

def answer : Str := ['[', '[', ']', ']']

instance : JsonReader := ⟨fun s => decide (s = answer)⟩

instance : FixedText ℚ := ⟨fun _ => []⟩

def inner : Item := ⟨[], ['[', ']'], [], .arr [], blank_nil, blank_nil⟩

instance : LawfulJsonReader where
  document s h := by
    obtain rfl := of_decide_eq_true h
    have hinner : Denotes 1 inner.text inner.value := .emptyArr blank_nil
    have houter : Denotes 2 answer (.arr [.arr []]) :=
      @Denotes.arr 1 inner [] (List.forall_mem_singleton.mpr hinner)
    exact ⟨2, .arr [.arr []], ⟨[], answer, [], .arr [.arr []], blank_nil, blank_nil⟩, houter, rfl, rfl⟩

def config : GuardConfig ℚ := ⟨8192, true, 7 / 10, true, 32⟩

theorem answer_nests_twice :
    (∃ n v, Document n (trim (validateAndSanitize config (answer ++ ['\n'])).sanitizedOutput) v ∧ nesting v ≤ 32) ∧
      (validateAndSanitize config (answer ++ ['\n'])).sanitizedOutput.length ≤ 8192 :=
  have h := (guard_sound config rfl rfl (answer ++ ['\n'])).1 (by decide +kernel)
  ⟨h.1, h.2.1⟩

end Sample

end Ccos.Guard
