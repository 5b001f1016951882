import Ccos.License.Counter
import Ccos.Lib.Ascii

/-!
# The counter for shared hosting

The same protocol in PHP. Its strings are bytes, its integers are signed 64-bit, and its regular
expressions are PCRE without flags.
-/

open Std

namespace Ccos.License.Php

/-! ## Claim codes -/

def separator (b : UInt8) : Bool := b = 45 || b = 32 || b = 95 || b = 9

/-- `strtoupper` on one byte. -/
def upper (b : UInt8) : UInt8 := if 97 ≤ b ∧ b ≤ 122 then b - 32 else b

def foldByte (b : UInt8) : UInt8 :=
  let up := upper b
  if up = 79 then 48 else if up = 73 ∨ up = 76 then 49 else up

/-- What the loop collects; `none` at a byte outside the alphabet. -/
def symbols : List UInt8 → Option (List UInt8)
  | [] => some []
  | b :: rest =>
    if separator b then symbols rest
    else if alphabet.contains (foldByte b) then (symbols rest).map (foldByte b :: ·)
    else none

/-- `substr($symbols, 4)` after `str_starts_with($symbols, 'CC0S')`. -/
def body (symbols : List UInt8) : List UInt8 :=
  if (utf8 codePrefix).isPrefixOf symbols then symbols.drop 4 else symbols

def substr (s : List UInt8) (offset length : Nat) : List UInt8 := (s.drop offset).take length

def canonicalCode (input : List UInt8) : Option (List UInt8) :=
  match symbols input with
  | none => none
  | some symbols =>
    let s := body symbols
    if s.length ≠ 20 then none
    else
      some (utf8 "CCOS-".toList ++ substr s 0 5 ++ 45 :: substr s 5 5 ++ 45 :: substr s 10 5
        ++ 45 :: substr s 15 5)

/-! ## Hashes and seeds -/

/-- `preg_match('/^..{64}$/', $s)`. The end of the pattern also matches before a final newline. -/
def matches64 (digit : UInt8 → Bool) (s : List UInt8) : Bool :=
  (s.length = 64 && s.all digit) ||
    (s.getLast? = some 10 && s.dropLast.length = 64 && s.dropLast.all digit)

def isSha256Hex (s : Str) : Bool := matches64 isLowerHexDigit (utf8 s)

def isHexDigit (b : UInt8) : Bool := (48 ≤ b && b ≤ 57) || (97 ≤ b && b ≤ 102) || (65 ≤ b && b ≤ 70)

/-! ## Numbers and entries -/

/-- A whole number of a document. One that no `int` holds is decoded to a float, and written as one. -/
inductive Number
  | int (n : Nat)
  | float (n : Nat)
  deriving DecidableEq

def Number.ofNat (n : Nat) : Number := if n < 2 ^ 63 then .int n else .float n

/-- An entry as `json_decode` makes an array of it. An absent key and `null` are alike to `??`. -/
structure Record where
  licensee : Str
  label : Option Str
  days : Option Number
  status : Str
  createdUnix : Number
  claimedUnix : Option Number
  expUnix : Option Number
  machine : Option Str
  deriving DecidableEq

def statusName : Status → Str
  | .unclaimed => "unclaimed".toList
  | .claimed => "claimed".toList
  | .revoked => "revoked".toList

def numberOf (n : UInt64) : Number := .ofNat n.toNat

def decode (e : Entry) : Record where
  licensee := e.licensee
  label := e.label
  days := e.days.map numberOf
  status := statusName e.status
  createdUnix := numberOf e.createdUnix
  claimedUnix := e.claimedUnix.map numberOf
  expUnix := e.expUnix.map numberOf
  machine := e.machine

/-! ## Signing -/

/-- `json_encode` without slashes and Unicode escaped. Line and paragraph separators still are. -/
def escapeJson (c : Char) : Str :=
  if c = '\u2028' then "\\u2028".toList
  else if c = '\u2029' then "\\u2029".toList
  else License.escapeJson c

/-- The signed payload. `none` is the type error of a float for an `?int` under strict types. -/
def signedPayload (licensee : Str) (exp : Option Number) (machine : Str) : Option Str :=
  match exp with
  | none => some (payloadJson escapeJson licensee none (some machine))
  | some (.int n) => some (payloadJson escapeJson licensee (some n) (some machine))
  | some (.float _) => none

/-! ## The transaction -/

/-- What the script finds around it. -/
structure Host where
  /-- The trimmed text of the seed file. -/
  seed : Str
  locks : Bool
  /-- The window and the count of the rate file. -/
  rate : Option (Nat × Nat)
  saves : Bool
  /-- What `(int)` makes of a float that no `int` holds. -/
  castFloat : Nat → Nat

inductive ReplyBody
  | error (message : Str)
  /-- The payload that was signed. -/
  | token (payload : Str)
  /-- An uncaught error. -/
  | crash
  deriving DecidableEq

/-- `written` are the entries of the new vault file, `none` when the file was not replaced. -/
structure Reply where
  status : Nat
  body : ReplyBody
  written : Option (BTreeMap Str Record)

def fail (status : Nat) (message : String) : Reply := ⟨status, .error message.toList, none⟩

def rateMaxPerMin : Nat := 30

/-- The requests of this minute, with this one. -/
def Host.count (h : Host) (now : Nat) : Nat :=
  match h.rate with
  | some (window, n) => if window = now / 60 then n + 1 else 1
  | none => 1

/-- `$now + ((int) $e['days']) * 86400`. -/
def Host.expiry (h : Host) (now : Nat) : Number → Number
  | .int d => .ofNat (now + d * 86400)
  | .float d => .ofNat (now + h.castFloat d * 86400)

structure Grant where
  licensee : Str
  exp : Option Number
  entries : BTreeMap Str Record

/-- A refusal is a status and a message. -/
def vaultClaim (h : Host) (entries : BTreeMap Str Record) (codeHash machine : Str) (now : Nat) :
    Except (Nat × String) Grant :=
  match entries[codeHash]? with
  | none => .error (404, "unknown claim code")
  | some e =>
    if e.status = "revoked".toList then .error (410, "this code was revoked by the vendor")
    else if e.status = "claimed".toList then
      if e.machine = some machine then .ok ⟨e.licensee, e.expUnix, entries⟩
      else .error (410,
        "this code was already claimed on another machine (single-seat). Contact the vendor to re-arm it.")
    else if e.status = "unclaimed".toList then
      let exp := e.days.map (h.expiry now)
      -- without an expiry the key is left as it was
      let e' : Record := { e with
        status := "claimed".toList, claimedUnix := some (.int now), expUnix := exp <|> e.expUnix,
        machine := some machine }
      .ok ⟨e.licensee, exp, entries.insert codeHash e'⟩
    else .error (400, "malformed vault entry")

/-- What follows the claim: the save, then the signature. -/
def conclude (h : Host) (machine : Str) : Except (Nat × String) Grant → Reply
  | .error (status, message) => fail status message
  | .ok grant =>
    if !h.saves then fail 500 "persistence failure — nothing was issued"
    else
      match signedPayload grant.licensee grant.exp machine with
      | some payload => ⟨200, .token payload, some grant.entries⟩
      | none => ⟨500, .crash, some grant.entries⟩

def handleClaim (h : Host) (v : Vault) (codeHash machine : Str) (now : Nat) : Reply :=
  if !isSha256Hex codeHash || !isSha256Hex machine then fail 400 "malformed claim request"
  else if !matches64 isHexDigit (utf8 h.seed) then fail 500 "counter misconfigured (signing seed unavailable)"
  else if !h.locks then fail 500 "counter busy — try again"
  else if rateMaxPerMin < h.count now then fail 429 "rate limited — try again shortly"
  else if v.schema ≠ vaultSchema then fail 500 "counter misconfigured (vault unreadable)"
  else conclude h machine (vaultClaim h (v.entries.map fun _ e => decode e) codeHash machine now)

/-- The JSON endpoint, on a document with three strings. -/
def handle (h : Host) (v : Vault) (r : ClaimRequest) (now : Nat) : Reply :=
  if r.schema ≠ claimSchema then fail 400 "malformed claim request"
  else handleClaim h v r.codeHash r.machine now

/-! ## What the Rust counter reads back -/

def Number.toU64 : Number → Option UInt64
  | .int n => some (UInt64.ofNat n)
  | .float _ => none

def statusOf (s : Str) : Option Status :=
  if s = "unclaimed".toList then some .unclaimed
  else if s = "claimed".toList then some .claimed
  else if s = "revoked".toList then some .revoked
  else none

/-- An optional number of a document: absent, or a `u64`. -/
def readNumber : Option Number → Option (Option UInt64)
  | none => some none
  | some n => n.toU64.map some

/-- `none` when the entry no longer deserializes. -/
def readBack (r : Record) : Option Entry := do
  let days ← readNumber r.days
  let status ← statusOf r.status
  let createdUnix ← r.createdUnix.toU64
  let claimedUnix ← readNumber r.claimedUnix
  let expUnix ← readNumber r.expUnix
  return ⟨r.licensee, r.label, days, status, createdUnix, claimedUnix, expUnix, r.machine⟩

end Ccos.License.Php

/-!
## When both counters read the same claim code

The Rust reader looks at the low byte of each code point, the PHP reader at each byte. They part on
texts whose characters only look like the alphabet.
-/

namespace Ccos.License

/-- The characters of a code, folded. -/
def kept (s : Str) : Str := (s.filter fun c => !isSeparator c).map foldSymbol

def AllInAlphabet (s : Str) : Prop := ∀ c ∈ s, inAlphabet c = true

instance decidableAllInAlphabet (s : Str) : Decidable (AllInAlphabet s) :=
  List.decidableBAll (fun c => inAlphabet c = true) s

theorem allInAlphabet_cons {c : Char} {s : Str} :
    AllInAlphabet (c :: s) ↔ inAlphabet c = true ∧ AllInAlphabet s := List.forall_mem_cons

/-- A text beyond ASCII that the Rust reader takes for a code. -/
def LooksLikeCode (s : Str) : Prop :=
  ¬ IsAscii (kept s) ∧ AllInAlphabet (kept s) ∧ byteLen (codeBody (kept s)) = 20

/-- Both readers give the same answer: the same code, or a refusal, and no panic. -/
def SameCode (s : Str) : Prop := (canonicalCode s).map (Option.map utf8) = some (Php.canonicalCode (utf8 s))

theorem kept_cons_separator {c : Char} (h : isSeparator c = true) (s : Str) : kept (c :: s) = kept s := by
  simp [kept, h]

theorem kept_cons_symbol {c : Char} (h : isSeparator c = false) (s : Str) :
    kept (c :: s) = foldSymbol c :: kept s := by
  simp [kept, h]

theorem symbolsOf_eq (s : Str) :
    symbolsOf s = if AllInAlphabet (kept s) then some (kept s) else none := by
  induction s with
  | nil => rfl
  | cons c s ih =>
    rw [symbolsOf]
    cases hsep : isSeparator c with
    | true => rw [if_pos rfl, kept_cons_separator hsep, ih]
    | false =>
      rw [if_neg Bool.false_ne_true, kept_cons_symbol hsep, ih]
      by_cases hc : inAlphabet (foldSymbol c) = true
      · rw [if_pos hc]
        by_cases hs : AllInAlphabet (kept s)
        · rw [if_pos hs, if_pos (allInAlphabet_cons.mpr ⟨hc, hs⟩)]
          rfl
        · rw [if_neg hs, if_neg fun h => hs (allInAlphabet_cons.mp h).2]
          rfl
      · rw [if_neg hc, if_neg fun h => hc (allInAlphabet_cons.mp h).1]

/-! ## The bytes of a code -/

def byteOf (c : Char) : UInt8 := UInt8.ofNat c.toNat

/-- On ASCII the PHP reader works like the Rust one. -/
theorem ascii_byte (n : Fin 128) :
    Php.separator (byteOf (Char.ofNat n)) = isSeparator (Char.ofNat n) ∧
    Php.foldByte (byteOf (Char.ofNat n)) = byteOf (foldSymbol (Char.ofNat n)) ∧
    (foldSymbol (Char.ofNat n)).toNat < 128 := by
  revert n
  decide

theorem utf8_cons_of_ascii {c : Char} (h : c.toNat < 128) (s : Str) : utf8 (c :: s) = byteOf c :: utf8 s := by
  rw [utf8_cons, utf8EncodeChar_of_ascii h]
  rfl

theorem php_of_ascii {c : Char} (h : c.toNat < 128) :
    Php.separator (byteOf c) = isSeparator c ∧ Php.foldByte (byteOf c) = byteOf (foldSymbol c) ∧
      (foldSymbol c).toNat < 128 := by
  have hc := ascii_byte ⟨c.toNat, h⟩
  rwa [Char.ofNat_toNat] at hc

theorem high_byte (n : Fin 128) :
    Php.separator (UInt8.ofNat (n + 128)) = false ∧
    alphabet.contains (Php.foldByte (UInt8.ofNat (n + 128))) = false := by
  revert n
  decide +kernel

theorem php_of_high {b : UInt8} (h : 128 ≤ b) :
    Php.separator b = false ∧ alphabet.contains (Php.foldByte b) = false := by
  have hb := UInt8.toNat_lt b
  rw [UInt8.le_iff_toNat_le] at h
  change 128 ≤ b.toNat at h
  have hn := high_byte ⟨b.toNat - 128, by omega⟩
  dsimp only at hn
  rwa [Nat.sub_add_cancel h, UInt8.ofNat_toNat] at hn

/-- Beyond ASCII nothing is a separator and nothing is folded. -/
theorem rust_of_high {c : Char} (h : 128 ≤ c.toNat) : isSeparator c = false ∧ foldSymbol c = c := by
  have hne : ∀ d : Char, d.toNat < 128 → c ≠ d := by
    rintro d hd rfl
    omega
  have hup : c.toUpper = c := by
    unfold Char.toUpper
    rw [dif_neg]
    rintro ⟨-, hz⟩
    have hle : c.toNat ≤ 'z'.toNat := UInt32.le_iff_toNat_le.mp hz
    have hlit : 'z'.toNat = 122 := rfl
    omega
  constructor
  · simp only [isSeparator, hne '-' (by decide), hne ' ' (by decide), hne '_' (by decide), hne '\t' (by decide),
      decide_false, Bool.or_self]
  · unfold foldSymbol
    simp only [hup, hne 'O' (by decide), hne 'I' (by decide), hne 'L' (by decide), if_false, or_self]

theorem symbols_of_high {s : Str} {c : Char} (h : 128 ≤ c.toNat) : Php.symbols (utf8 (c :: s)) = none := by
  obtain ⟨b, bytes, hbytes⟩ := List.exists_cons_of_ne_nil (String.utf8EncodeChar_ne_nil (c := c))
  have hb : 128 ≤ b := le_of_mem_utf8EncodeChar h (hbytes ▸ List.mem_cons_self)
  obtain ⟨hsep, hout⟩ := php_of_high hb
  rw [utf8_cons, hbytes, List.cons_append, Php.symbols, hsep, if_neg Bool.false_ne_true, hout,
    if_neg Bool.false_ne_true]

/-- What the PHP reader collects. -/
theorem php_symbols_eq (s : Str) :
    Php.symbols (utf8 s) =
      if IsAscii (kept s) ∧ AllInAlphabet (kept s) then some (utf8 (kept s)) else none := by
  induction s with
  | nil => rfl
  | cons c s ih =>
    by_cases hc : c.toNat < 128
    swap
    · have hhigh : 128 ≤ c.toNat := Nat.le_of_not_lt hc
      obtain ⟨hsep, hfold⟩ := rust_of_high hhigh
      rw [symbols_of_high hhigh, kept_cons_symbol hsep, hfold, if_neg]
      exact fun h => hc (isAscii_cons.mp h.1).1
    obtain ⟨hsep, hfold, hlt⟩ := php_of_ascii hc
    rw [utf8_cons_of_ascii hc, Php.symbols, hsep, hfold]
    cases hs : isSeparator c with
    | true => rw [if_pos rfl, kept_cons_separator hs, ih]
    | false =>
      rw [if_neg Bool.false_ne_true, kept_cons_symbol hs, ih]
      change (if inAlphabet (foldSymbol c) = true then _ else _) = _
      by_cases hin : inAlphabet (foldSymbol c) = true
      · rw [if_pos hin]
        by_cases hrest : IsAscii (kept s) ∧ AllInAlphabet (kept s)
        · rw [if_pos hrest, if_pos ⟨isAscii_cons.mpr ⟨hlt, hrest.1⟩, allInAlphabet_cons.mpr ⟨hin, hrest.2⟩⟩,
            utf8_cons_of_ascii hlt]
          rfl
        · rw [if_neg hrest, if_neg]
          · rfl
          · exact fun h => hrest ⟨(isAscii_cons.mp h.1).2, (allInAlphabet_cons.mp h.2).2⟩
      · rw [if_neg hin, if_neg fun h => hin (allInAlphabet_cons.mp h.2).1]

/-! ## The groups of a code -/

theorem utf8_take {s : Str} (h : IsAscii s) (n : Nat) : utf8 (s.take n) = (utf8 s).take n := by
  rw [utf8_of_ascii h, utf8_of_ascii fun c hc => h c (List.mem_of_mem_take hc), List.map_take]

theorem utf8_drop {s : Str} (h : IsAscii s) (n : Nat) : utf8 (s.drop n) = (utf8 s).drop n := by
  rw [utf8_of_ascii h, utf8_of_ascii fun c hc => h c (List.mem_of_mem_drop hc), List.map_drop]

theorem codeBody_eq (s : Str) : codeBody s = if codePrefix.isPrefixOf s then s.drop 4 else s := by
  unfold codeBody stripPrefix
  cases hs : codePrefix.isPrefixOf? s with
  | none =>
    rw [if_neg]
    · rfl
    · intro hprefix
      obtain ⟨t, ht⟩ := List.isPrefixOf_iff_prefix.mp hprefix
      rw [List.isPrefixOf?_eq_some_iff_append_eq.mpr ht] at hs
      cases hs
  | some t =>
    have ht := List.isPrefixOf?_eq_some_iff_append_eq.mp hs
    rw [if_pos (List.isPrefixOf_iff_prefix.mpr ⟨t, ht⟩), ← ht]
    rfl

theorem php_body_eq {s : Str} (h : IsAscii s) : Php.body (utf8 s) = utf8 (codeBody s) := by
  have hiff : (utf8 codePrefix).isPrefixOf (utf8 s) = codePrefix.isPrefixOf s := by
    rw [Bool.eq_iff_iff, List.isPrefixOf_iff_prefix, List.isPrefixOf_iff_prefix]
    constructor
    · intro hprefix
      have htake := List.prefix_iff_eq_take.mp hprefix
      rw [← utf8_take h] at htake
      exact List.prefix_iff_eq_take.mpr (utf8_injective htake)
    · rintro ⟨t, rfl⟩
      exact ⟨utf8 t, (utf8_append _ _).symm⟩
  rw [codeBody_eq, Php.body, hiff]
  split
  · exact (utf8_drop h 4).symm
  · rfl

theorem isAscii_codeBody {s : Str} (h : IsAscii s) : IsAscii (codeBody s) := by
  rw [codeBody_eq]
  split
  · exact fun c hc => h c (List.mem_of_mem_drop hc)
  · exact h

theorem utf8_formatCode (a b c d : Str) :
    utf8 (formatCode a b c d) = utf8 "CCOS-".toList ++ utf8 a ++ 45 :: utf8 b ++ 45 :: utf8 c ++ 45 :: utf8 d := by
  unfold formatCode
  simp only [utf8_append, utf8_cons, List.append_assoc, List.cons_append]
  rfl

theorem canonicalCode_of_ascii {s : Str} (hascii : IsAscii (kept s)) (hin : AllInAlphabet (kept s)) :
    SameCode s := by
  unfold SameCode canonicalCode Php.canonicalCode
  rw [symbolsOf_eq, if_pos hin, php_symbols_eq, if_pos ⟨hascii, hin⟩]
  have hbody := isAscii_codeBody hascii
  simp only [php_body_eq hascii, length_utf8]
  by_cases hlen : byteLen (codeBody (kept s)) = 20
  swap
  · rw [if_pos hlen, if_pos hlen]
    rfl
  rw [if_neg (not_not_intro hlen), if_neg (not_not_intro hlen)]
  rw [byteLen_of_ascii hbody] at hlen
  rw [slice_of_ascii hbody (by omega) (by omega), slice_of_ascii hbody (by omega) (by omega),
    slice_of_ascii hbody (by omega) (by omega), slice_of_ascii hbody (by omega) (by omega)]
  simp only [Option.pure_def, Option.bind_eq_bind, Option.bind_some, Option.map_some, utf8_formatCode, Php.substr,
    utf8_take (fun c hc => hbody c (List.mem_of_mem_drop hc)), utf8_drop hbody]

/-- The readers agree on every text that does not look like a code. -/
theorem sameCode_iff (s : Str) : SameCode s ↔ ¬ LooksLikeCode s := by
  by_cases hin : AllInAlphabet (kept s)
  swap
  · refine iff_of_true ?_ fun h => hin h.2.1
    unfold SameCode canonicalCode Php.canonicalCode
    rw [symbolsOf_eq, if_neg hin, php_symbols_eq, if_neg fun h => hin h.2]
    rfl
  by_cases hascii : IsAscii (kept s)
  · exact iff_of_true (canonicalCode_of_ascii hascii hin) fun h => h.1 hascii
  have hphp : Php.canonicalCode (utf8 s) = none := by
    unfold Php.canonicalCode
    rw [php_symbols_eq, if_neg fun h => hascii h.1]
  unfold SameCode LooksLikeCode
  rw [hphp, and_iff_right hascii, and_iff_right hin]
  unfold canonicalCode
  rw [symbolsOf_eq, if_pos hin]
  dsimp only
  by_cases hlen : byteLen (codeBody (kept s)) = 20
  · refine iff_of_false ?_ (not_not_intro hlen)
    rw [if_neg (not_not_intro hlen)]
    intro h
    obtain ⟨x, hx, hnone⟩ := Option.map_eq_some_iff.mp h
    simp only [Option.bind_eq_bind, Option.bind_eq_some_iff, Option.pure_def, Option.some.injEq] at hx
    obtain ⟨a, -, b, -, c, -, d, -, rfl⟩ := hx
    cases hnone
  · refine iff_of_true ?_ hlen
    rw [if_pos hlen]
    rfl

end Ccos.License
