import Ccos.Lib.Ascii

/-!
# Claim codes and license tokens

What the claim counter and its clients share: the form of a claim code, the shape of a hash, and the
payload of a signed token.
-/

namespace Ccos.License

/-! ## Claim codes -/

def alphabet : List UInt8 :=
  "0123456789ABCDEFGHJKMNPQRSTVWXYZ".toList.map fun c => UInt8.ofNat c.toNat

def isSeparator (c : Char) : Bool := c = '-' || c = ' ' || c = '_' || c = '\t'

/-- `to_ascii_uppercase`, then the confusions of the alphabet. -/
def foldSymbol (c : Char) : Char :=
  let up := c.toUpper
  if up = 'O' then '0' else if up = 'I' ∨ up = 'L' then '1' else up

/-- `ALPHABET.contains(&(c as u8))`. The cast keeps the low byte of the code point. -/
def inAlphabet (c : Char) : Bool := alphabet.contains (UInt8.ofNat c.toNat)

/-- What the loop collects; `none` at a symbol outside the alphabet. -/
def symbolsOf : Str → Option Str
  | [] => some []
  | c :: rest =>
    if isSeparator c then symbolsOf rest
    else if inAlphabet (foldSymbol c) then (symbolsOf rest).map (foldSymbol c :: ·)
    else none

def codePrefix : Str := "CC0S".toList

def codeBody (symbols : Str) : Str := (stripPrefix codePrefix symbols).getD symbols

/-- `format!("CCOS-{}-{}-{}-{}", ..)`. -/
def formatCode (a b c d : Str) : Str := "CCOS-".toList ++ a ++ '-' :: b ++ '-' :: c ++ '-' :: d

/-- `none` is a panic, `some none` a refusal. -/
def canonicalCode (input : Str) : Option (Option Str) :=
  match symbolsOf input with
  | none => some none
  | some symbols =>
    let body := codeBody symbols
    if byteLen body ≠ 20 then some none
    else do
      let a ← slice body 0 5
      let b ← slice body 5 10
      let c ← slice body 10 15
      let d ← slice body 15 20
      return some (formatCode a b c d)

def isLowerHexDigit (b : UInt8) : Bool := (48 ≤ b && b ≤ 57) || (97 ≤ b && b ≤ 102)

def isUpperHexDigit (b : UInt8) : Bool := 65 ≤ b && b ≤ 70

def isAsciiUppercase (b : UInt8) : Bool := 65 ≤ b && b ≤ 90

def isSha256Hex (s : Str) : Bool :=
  byteLen s = 64 && (utf8 s).all fun b => (isLowerHexDigit b || isUpperHexDigit b) && !isAsciiUppercase b

theorem isSha256Hex_iff {s : Str} : isSha256Hex s = true ↔ byteLen s = 64 ∧ ∀ b ∈ utf8 s, isLowerHexDigit b = true := by
  unfold isSha256Hex
  simp only [Bool.and_eq_true, decide_eq_true_eq, List.all_eq_true]
  refine and_congr_right fun _ => forall_congr' fun b => imp_congr_right fun _ => ?_
  unfold isLowerHexDigit isUpperHexDigit isAsciiUppercase
  simp only [Bool.or_eq_true, Bool.and_eq_true, Bool.not_eq_true', Bool.and_eq_false_iff, decide_eq_true_eq,
    decide_eq_false_iff_not, UInt8.le_iff_toNat_le]
  rw [show (48 : UInt8).toNat = 48 from rfl, show (57 : UInt8).toNat = 57 from rfl,
    show (97 : UInt8).toNat = 97 from rfl, show (102 : UInt8).toNat = 102 from rfl,
    show (65 : UInt8).toNat = 65 from rfl, show (70 : UInt8).toNat = 70 from rfl,
    show (90 : UInt8).toNat = 90 from rfl]
  omega

theorem lt_of_isLowerHexDigit {b : UInt8} (h : isLowerHexDigit b = true) : b < 128 := by
  unfold isLowerHexDigit at h
  simp only [Bool.or_eq_true, Bool.and_eq_true, decide_eq_true_eq, UInt8.le_iff_toNat_le] at h
  rw [UInt8.lt_iff_toNat_lt]
  rw [show (57 : UInt8).toNat = 57 from rfl, show (102 : UInt8).toNat = 102 from rfl] at h
  change b.toNat < 128
  omega

theorem isAscii_of_isSha256Hex {s : Str} (h : isSha256Hex s = true) : IsAscii s :=
  isAscii_of_utf8 fun b hb => lt_of_isLowerHexDigit ((isSha256Hex_iff.mp h).2 b hb)

/-! ## Requests -/

def claimPath : Str := "/claim".toList

def claimSchema : Str := "ccos.claim/v1".toList

structure ClaimRequest where
  schema : Str
  codeHash : Str
  machine : Str
  deriving DecidableEq

/-! ## Tokens -/

/-- The hexadecimal digits of a control character in `\u00XX`. -/
def hexOf (n : Nat) : Str :=
  ['0', '0', Nat.digitChar (n / 16), Nat.digitChar (n % 16)]

/-- How `serde_json` writes a character of a string. -/
def escapeJson (c : Char) : Str :=
  if c = '\x22' then ['\\', '\x22']
  else if c = '\\' then ['\\', '\\']
  else if c = '\x08' then ['\\', 'b']
  else if c = '\x0c' then ['\\', 'f']
  else if c = '\n' then ['\\', 'n']
  else if c = '\r' then ['\\', 'r']
  else if c = '\t' then ['\\', 't']
  else if c.toNat < 0x20 then '\\' :: 'u' :: hexOf c.toNat
  else [c]

def quoteWith (escape : Char → Str) (s : Str) : Str := '\x22' :: s.flatMap escape ++ ['\x22']

structure TokenPayload where
  licensee : Str
  exp : Option UInt64
  machine : Option Str
  deriving DecidableEq

/-- `"key":value`, preceded by a comma. -/
def memberJson (key value : Str) : Str := ',' :: '\x22' :: key ++ '\x22' :: ':' :: value

/-- The compact object with the fields in the order of the structure. Absent fields are skipped. -/
def payloadJson (escape : Char → Str) (licensee : Str) (exp : Option Nat) (machine : Option Str) : Str :=
  "\x7b\x22licensee\x22:".toList ++ quoteWith escape licensee
    ++ (exp.map fun n => memberJson "exp".toList (natStr n)).getD []
    ++ (machine.map fun m => memberJson "machine".toList (quoteWith escape m)).getD []
    ++ ['\x7d']

def TokenPayload.toJson (p : TokenPayload) : Str :=
  payloadJson escapeJson p.licensee (p.exp.map UInt64.toNat) p.machine

def base64Digits : Str := "ABCDEFGHIJKLMNOPQRSTUVWXYZabcdefghijklmnopqrstuvwxyz0123456789-_".toList

def sextet (n shift : Nat) : Char := base64Digits.getD (n / 2 ^ shift % 64) 'A'

def b64urlEncode : List UInt8 → Str
  | [] => []
  | [a] =>
    let n := a.toNat * 2 ^ 16
    [sextet n 18, sextet n 12]
  | [a, b] =>
    let n := a.toNat * 2 ^ 16 + b.toNat * 2 ^ 8
    [sextet n 18, sextet n 12, sextet n 6]
  | a :: b :: c :: rest =>
    let n := a.toNat * 2 ^ 16 + b.toNat * 2 ^ 8 + c.toNat
    sextet n 18 :: sextet n 12 :: sextet n 6 :: sextet n 0 :: b64urlEncode rest

/-- `sign` is ed25519 under the seed of the counter. -/
def signTokenBound (sign : List UInt8 → List UInt8) (payload : Str) : Str :=
  let signingInput := b64urlEncode (utf8 payload)
  signingInput ++ '.' :: b64urlEncode (sign (utf8 signingInput))

end Ccos.License

/-!
## The vault of sold seats

The counter keys its entries by the hash of the claim code. Integers are `u64`, and a build either
checks their arithmetic or wraps.
-/

open Std

namespace Ccos.License

def vaultSchema : Str := "ccos.license.vault/v1".toList

inductive Status
  | unclaimed | claimed | revoked
  deriving DecidableEq, Repr

structure Entry where
  licensee : Str
  label : Option Str
  days : Option UInt64
  status : Status
  createdUnix : UInt64
  claimedUnix : Option UInt64
  expUnix : Option UInt64
  machine : Option Str
  deriving DecidableEq

structure Vault where
  schema : Str
  entries : BTreeMap Str Entry

inductive Refusal
  | unknownCode | seatTaken | revoked
  deriving DecidableEq, Repr

/-- The seconds that `now + d * 86_400` stands for. -/
def expirySeconds (now d : UInt64) : Nat := now.toNat + d.toNat * 86400

/-- `now + d * 86_400`. In a checked build `none` is the panic of an overflow. -/
def expiryOf (checked : Bool) (now d : UInt64) : Option UInt64 :=
  if checked && 2 ^ 64 ≤ expirySeconds now d then none else some (now + d * 86400)

/-- The expiry of an entry claimed at `now`. -/
def Entry.expiry (e : Entry) (checked : Bool) (now : UInt64) : Option (Option UInt64) :=
  match e.days with
  | none => some none
  | some d => (expiryOf checked now d).map some

def Entry.claimedBy (e : Entry) (machine : Str) (now : UInt64) (exp : Option UInt64) : Entry :=
  { e with status := .claimed, claimedUnix := some now, expUnix := exp, machine := some machine }

namespace Vault

/-- `none` is a panic. -/
def claim (v : Vault) (checked : Bool) (codeHash machine : Str) (now : UInt64) :
    Option (Except Refusal (Str × Option UInt64) × Vault) :=
  match v.entries[codeHash]? with
  | none => some (.error .unknownCode, v)
  | some entry =>
    match entry.status with
    | .revoked => some (.error .revoked, v)
    | .claimed =>
      if entry.machine = some machine then some (.ok (entry.licensee, entry.expUnix), v)
      else some (.error .seatTaken, v)
    | .unclaimed =>
      (entry.expiry checked now).map fun exp =>
        (.ok (entry.licensee, exp),
          { v with entries := v.entries.insert codeHash (entry.claimedBy machine now exp) })

end Vault

/-! ## Expiry -/

/-- The expiry passes no `u64`. -/
def Fits (now : UInt64) (days : Option UInt64) : Prop := ∀ d, days = some d → expirySeconds now d < 2 ^ 64

/-- The expiry is the claim's time and the days, counted without bound. -/
def ExactExpiry (now : UInt64) (days exp : Option UInt64) : Prop :=
  exp.map UInt64.toNat = days.map (expirySeconds now)

theorem toNat_add_mul (now d : UInt64) : (now + d * 86400).toNat = expirySeconds now d % 2 ^ 64 := by
  rw [UInt64.toNat_add, UInt64.toNat_mul, UInt64.toNat_ofNat, expirySeconds, Nat.add_mod_mod]

/-- The code's expiry is the exact one as long as that fits. -/
theorem Entry.expiry_of_fits {e : Entry} {now : UInt64} (checked : Bool) (h : Fits now e.days) :
    ∃ exp, e.expiry checked now = some exp ∧ ExactExpiry now e.days exp := by
  unfold Entry.expiry ExactExpiry
  cases hd : e.days with
  | none => exact ⟨none, rfl, by rw [Option.map_none, Option.map_none]⟩
  | some d =>
    have hlt := h d hd
    refine ⟨some (now + d * 86400), ?_, ?_⟩
    · simp only [expiryOf, Nat.not_le.mpr hlt, decide_false, Bool.and_false, Bool.false_eq_true, if_false,
        Option.map_some]
    · rw [Option.map_some, Option.map_some, toNat_add_mul, Nat.mod_eq_of_lt hlt]

theorem Entry.expiry_exact_iff {e : Entry} {checked : Bool} {now : UInt64} {exp : Option UInt64}
    (h : e.expiry checked now = some exp) : ExactExpiry now e.days exp ↔ Fits now e.days := by
  constructor
  · intro hexact d hd
    unfold Entry.expiry at h
    rw [hd] at h
    obtain ⟨x, -, rfl⟩ := Option.map_eq_some_iff.mp h
    rw [ExactExpiry, hd, Option.map_some, Option.map_some, Option.some.injEq] at hexact
    exact hexact ▸ x.toNat_lt
  · intro hfits
    obtain ⟨exp', hexp, hexact⟩ := e.expiry_of_fits checked hfits
    obtain rfl : exp' = exp := Option.some.inj (hexp.symm.trans h)
    exact hexact

/-! ## What a claim does to the vault -/

/-- An answered claim: nothing changes, or an unclaimed entry is claimed. -/
theorem Vault.claim_cases {v w : Vault} {checked : Bool} {codeHash machine : Str} {now : UInt64}
    {r : Except Refusal (Str × Option UInt64)} (h : v.claim checked codeHash machine now = some (r, w)) :
    (w = v ∧ ∃ refusal, r = .error refusal) ∨
    (w = v ∧ ∃ e, v.entries[codeHash]? = some e ∧ e.status = .claimed ∧ e.machine = some machine ∧
      r = .ok (e.licensee, e.expUnix)) ∨
    (∃ e exp, v.entries[codeHash]? = some e ∧ e.status = .unclaimed ∧ e.expiry checked now = some exp ∧
      r = .ok (e.licensee, exp) ∧
      w = { v with entries := v.entries.insert codeHash (e.claimedBy machine now exp) }) := by
  unfold Vault.claim at h
  cases he : v.entries[codeHash]? with
  | none =>
    rw [he] at h
    obtain ⟨rfl, rfl⟩ := Prod.mk.inj (Option.some.inj h)
    exact .inl ⟨rfl, _, rfl⟩
  | some e =>
    simp only [he] at h
    cases hs : e.status with
    | revoked =>
      simp only [hs] at h
      obtain ⟨rfl, rfl⟩ := Prod.mk.inj (Option.some.inj h)
      exact .inl ⟨rfl, _, rfl⟩
    | claimed =>
      simp only [hs] at h
      by_cases hm : e.machine = some machine
      · rw [if_pos hm] at h
        obtain ⟨rfl, rfl⟩ := Prod.mk.inj (Option.some.inj h)
        exact .inr (.inl ⟨rfl, e, rfl, hs, hm, rfl⟩)
      · rw [if_neg hm] at h
        obtain ⟨rfl, rfl⟩ := Prod.mk.inj (Option.some.inj h)
        exact .inl ⟨rfl, _, rfl⟩
    | unclaimed =>
      simp only [hs] at h
      obtain ⟨exp, hexp, heq⟩ := Option.map_eq_some_iff.mp h
      obtain ⟨rfl, rfl⟩ := Prod.mk.inj heq
      exact .inr (.inr ⟨e, exp, rfl, hs, hexp, rfl, rfl⟩)

/-- Without checks the arithmetic wraps, and with them it panics only on an expiry that does not fit. -/
theorem Entry.expiry_returns {e : Entry} {checked : Bool} {now : UInt64} (h : checked = true → Fits now e.days) :
    ∃ exp, e.expiry checked now = some exp := by
  cases checked with
  | true =>
    obtain ⟨exp, hexp, -⟩ := e.expiry_of_fits true (h rfl)
    exact ⟨exp, hexp⟩
  | false =>
    unfold Entry.expiry expiryOf
    cases e.days with
    | none => exact ⟨_, rfl⟩
    | some d => exact ⟨_, rfl⟩

theorem Entry.fits_of_expiry {e : Entry} {now : UInt64} {exp : Option UInt64}
    (h : e.expiry true now = some exp) : Fits now e.days := by
  intro d hd
  by_contra hle
  simp only [Entry.expiry, hd, expiryOf, Nat.le_of_not_lt hle, decide_true, Bool.and_true, if_true,
    Option.map_none, reduceCtorEq] at h

/-- A claim panics only on the expiry of an unclaimed entry. -/
theorem Vault.claim_returns {v : Vault} {checked : Bool} {codeHash machine : Str} {now : UInt64}
    (h : ∀ e, v.entries[codeHash]? = some e → e.status = .unclaimed → checked = true → Fits now e.days) :
    ∃ r w, v.claim checked codeHash machine now = some (r, w) := by
  unfold Vault.claim
  cases he : v.entries[codeHash]? with
  | none => exact ⟨_, _, rfl⟩
  | some e =>
    cases hs : e.status with
    | revoked =>
      simp only [hs]
      exact ⟨_, _, rfl⟩
    | claimed =>
      simp only [hs]
      split
      · exact ⟨_, _, rfl⟩
      · exact ⟨_, _, rfl⟩
    | unclaimed =>
      obtain ⟨exp, hexp⟩ := e.expiry_returns (h e he hs)
      simp only [hs, hexp, Option.map_some]
      exact ⟨_, _, rfl⟩

end Ccos.License
