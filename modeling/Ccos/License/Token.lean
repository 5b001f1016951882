import Ccos.License.Vault
import Ccos.Log.EventLog

/-!
# Base64 without padding

The text of a byte string is canonical: the bits that the last group does not need have to be zero.
-/

namespace Ccos.License

/-- The value of a digit, by its byte. -/
def base64Value (c : UInt8) : Option Nat :=
  if 65 ≤ c ∧ c ≤ 90 then some (c.toNat - 65)
  else if 97 ≤ c ∧ c ≤ 122 then some (c.toNat - 97 + 26)
  else if 48 ≤ c ∧ c ≤ 57 then some (c.toNat - 48 + 52)
  else if c = 45 then some 62
  else if c = 95 then some 63
  else none

/-- The groups of four digits. -/
def decodeGroups : List UInt8 → Option (List UInt8)
  | [] => some []
  | [_] => none
  | [c0, c1] => do
    let v0 ← base64Value c0
    let v1 ← base64Value c1
    if v1 &&& 0x0f ≠ 0 then none
    else
      let n := v0 <<< 18 ||| v1 <<< 12
      some [UInt8.ofNat (n >>> 16)]
  | [c0, c1, c2] => do
    let v0 ← base64Value c0
    let v1 ← base64Value c1
    let v2 ← base64Value c2
    if v2 &&& 0x03 ≠ 0 then none
    else
      let n := v0 <<< 18 ||| v1 <<< 12 ||| v2 <<< 6
      some [UInt8.ofNat (n >>> 16), UInt8.ofNat (n >>> 8)]
  | c0 :: c1 :: c2 :: c3 :: rest => do
    let v0 ← base64Value c0
    let v1 ← base64Value c1
    let v2 ← base64Value c2
    let v3 ← base64Value c3
    let n := v0 <<< 18 ||| v1 <<< 12 ||| v2 <<< 6 ||| v3
    let out ← decodeGroups rest
    some (UInt8.ofNat (n >>> 16) :: UInt8.ofNat (n >>> 8) :: UInt8.ofNat n :: out)

def b64urlDecode (s : Str) : Option (List UInt8) := decodeGroups (utf8 s)

/-! ## Digits -/

/-- The byte of a digit. -/
def digitByte (v : Nat) : UInt8 := UInt8.ofNat (base64Digits.getD v 'A').toNat

theorem base64Value_digitByte : ∀ v < 64, base64Value (digitByte v) = some v := by decide +kernel

theorem utf8_digit : ∀ v < 64, String.utf8EncodeChar (base64Digits.getD v 'A') = [digitByte v] := by decide +kernel

theorem digitByte_of_value {c : UInt8} {v : Nat} (h : base64Value c = some v) : v < 64 ∧ c = digitByte v := by
  have hall : ∀ n < 256, ∀ v ∈ base64Value (UInt8.ofNat n), v < 64 ∧ UInt8.ofNat n = digitByte v := by decide +kernel
  have hc := hall c.toNat c.toNat_lt v
  rw [UInt8.ofNat_toNat] at hc
  exact hc h

example : base64Value 61 = none := by decide +kernel

theorem utf8_sextet (n shift : Nat) : String.utf8EncodeChar (sextet n shift) = [digitByte (n / 2 ^ shift % 64)] :=
  utf8_digit _ (Nat.mod_lt _ (by decide))

/-! ## Groups -/

theorem group_bits {v0 v1 v2 v3 : Nat} (h1 : v1 < 64) (h2 : v2 < 64) (h3 : v3 < 64) :
    v0 <<< 18 ||| v1 <<< 12 ||| v2 <<< 6 ||| v3 = 262144 * v0 + (4096 * v1 + (64 * v2 + v3)) := by
  have hlow : v2 <<< 6 ||| v3 = 64 * v2 + v3 := by
    rw [Nat.shiftLeft_eq, Nat.mul_comm]
    exact (Nat.two_pow_add_eq_or_of_lt h3 v2).symm
  have hmid : v1 <<< 12 ||| (64 * v2 + v3) = 4096 * v1 + (64 * v2 + v3) := by
    rw [Nat.shiftLeft_eq, Nat.mul_comm]
    exact (Nat.two_pow_add_eq_or_of_lt (by omega) v1).symm
  rw [Nat.or_assoc, Nat.or_assoc, hlow, hmid, Nat.shiftLeft_eq, Nat.mul_comm]
  exact (Nat.two_pow_add_eq_or_of_lt (by omega) v0).symm

theorem group_bits_two {v0 v1 : Nat} (h1 : v1 < 64) : v0 <<< 18 ||| v1 <<< 12 = 262144 * v0 + 4096 * v1 := by
  have h := @group_bits v0 v1 0 0 h1 (by decide) (by decide)
  rwa [Nat.zero_shiftLeft, Nat.or_zero, Nat.or_zero] at h

theorem group_bits_three {v0 v1 v2 : Nat} (h1 : v1 < 64) (h2 : v2 < 64) :
    v0 <<< 18 ||| v1 <<< 12 ||| v2 <<< 6 = 262144 * v0 + (4096 * v1 + 64 * v2) := by
  have h := @group_bits v0 v1 v2 0 h1 h2 (by decide)
  rwa [Nat.or_zero] at h

theorem and_fifteen (v : Nat) : v &&& 0x0f = v % 16 := Nat.and_two_pow_sub_one_eq_mod v 4

theorem and_three (v : Nat) : v &&& 0x03 = v % 4 := Nat.and_two_pow_sub_one_eq_mod v 2

/-- A byte is read off a number by a shift. -/
theorem ofNat_eq {n : Nat} {b : UInt8} (h : n % 256 = b.toNat) : UInt8.ofNat n = b :=
  UInt8.toNat_inj.mp (by rw [UInt8.toNat_ofNat', h])

theorem toNat_ofNat_byte (n : Nat) : (UInt8.ofNat n).toNat = n % 256 := UInt8.toNat_ofNat'

theorem decodeGroups_two {c0 c1 : UInt8} {v0 v1 : Nat} (h0 : base64Value c0 = some v0) (h1 : base64Value c1 = some v1) :
    decodeGroups [c0, c1] = if v1 % 16 ≠ 0 then none else some [UInt8.ofNat ((v0 <<< 18 ||| v1 <<< 12) >>> 16)] := by
  simp only [decodeGroups, h0, h1, Option.bind_eq_bind, Option.bind_some, and_fifteen]

theorem decodeGroups_three {c0 c1 c2 : UInt8} {v0 v1 v2 : Nat} (h0 : base64Value c0 = some v0)
    (h1 : base64Value c1 = some v1) (h2 : base64Value c2 = some v2) :
    decodeGroups [c0, c1, c2] =
      if v2 % 4 ≠ 0 then none
      else some [UInt8.ofNat ((v0 <<< 18 ||| v1 <<< 12 ||| v2 <<< 6) >>> 16),
        UInt8.ofNat ((v0 <<< 18 ||| v1 <<< 12 ||| v2 <<< 6) >>> 8)] := by
  simp only [decodeGroups, h0, h1, h2, Option.bind_eq_bind, Option.bind_some, and_three]

/-! ## The codec -/

theorem utf8_sextet_cons (n shift : Nat) (s : Str) :
    utf8 (sextet n shift :: s) = digitByte (n / 2 ^ shift % 64) :: utf8 s := by
  rw [utf8_cons, utf8_sextet]
  rfl

theorem b64urlDecode_encode (bytes : List UInt8) : b64urlDecode (b64urlEncode bytes) = some bytes := by
  unfold b64urlDecode
  induction bytes using b64urlEncode.induct with
  | case1 => rfl
  | case2 a =>
    have ha := a.toNat_lt
    have hvalue := fun shift => base64Value_digitByte (a.toNat * 2 ^ 16 / 2 ^ shift % 64) (Nat.mod_lt _ (by decide))
    rw [b64urlEncode]
    simp only [utf8_sextet_cons, utf8_nil]
    rw [decodeGroups_two (hvalue 18) (hvalue 12), if_neg (by omega), group_bits_two (Nat.mod_lt _ (by decide))]
    refine congrArg some (congrArg (· :: []) (ofNat_eq ?_))
    rw [Nat.shiftRight_eq_div_pow]
    omega
  | case3 a b =>
    have ha := a.toNat_lt
    have hb := b.toNat_lt
    have hvalue := fun shift => base64Value_digitByte ((a.toNat * 2 ^ 16 + b.toNat * 2 ^ 8) / 2 ^ shift % 64)
      (Nat.mod_lt _ (by decide))
    rw [b64urlEncode]
    simp only [utf8_sextet_cons, utf8_nil]
    rw [decodeGroups_three (hvalue 18) (hvalue 12) (hvalue 6), if_neg (by omega),
      group_bits_three (Nat.mod_lt _ (by decide)) (Nat.mod_lt _ (by decide))]
    refine congrArg some (congrArg₂ (fun x y => [x, y]) (ofNat_eq ?_) (ofNat_eq ?_))
    · rw [Nat.shiftRight_eq_div_pow]
      omega
    · rw [Nat.shiftRight_eq_div_pow]
      omega
  | case4 a b c rest ih =>
    have ha := a.toNat_lt
    have hb := b.toNat_lt
    have hc := c.toNat_lt
    have hvalue := fun shift => base64Value_digitByte
      ((a.toNat * 2 ^ 16 + b.toNat * 2 ^ 8 + c.toNat) / 2 ^ shift % 64) (Nat.mod_lt _ (by decide))
    rw [b64urlEncode]
    simp only [utf8_sextet_cons, decodeGroups, hvalue, Option.bind_eq_bind, Option.bind_some, ih]
    rw [group_bits (Nat.mod_lt _ (by decide)) (Nat.mod_lt _ (by decide)) (Nat.mod_lt _ (by decide))]
    refine congrArg some ?_
    rw [ofNat_eq (b := a), ofNat_eq (b := b), ofNat_eq (b := c)]
    · omega
    · rw [Nat.shiftRight_eq_div_pow]
      omega
    · rw [Nat.shiftRight_eq_div_pow]
      omega

theorem cons_digit_eq {v w : Nat} {s t : List UInt8} (hv : v = w) (hs : s = t) :
    digitByte v :: s = digitByte w :: t := by
  rw [hv, hs]

theorem utf8_encode_of_decodeGroups {cs bytes : List UInt8} (h : decodeGroups cs = some bytes) :
    cs = utf8 (b64urlEncode bytes) := by
  induction cs using decodeGroups.induct generalizing bytes with
  | case1 =>
    cases h
    rfl
  | case2 => cases h
  | case3 c0 c1 =>
    simp only [decodeGroups, Option.bind_eq_bind, Option.bind_eq_some_iff] at h
    obtain ⟨v0, h0, v1, h1, h⟩ := h
    obtain ⟨hv0, rfl⟩ := digitByte_of_value h0
    obtain ⟨hv1, rfl⟩ := digitByte_of_value h1
    rw [and_fifteen] at h
    split at h
    · cases h
    · rw [group_bits_two hv1, Nat.shiftRight_eq_div_pow] at h
      cases h
      rw [b64urlEncode]
      simp only [utf8_sextet_cons, utf8_nil, toNat_ofNat_byte]
      exact cons_digit_eq (by omega) (cons_digit_eq (by omega) rfl)
  | case4 c0 c1 c2 =>
    simp only [decodeGroups, Option.bind_eq_bind, Option.bind_eq_some_iff] at h
    obtain ⟨v0, h0, v1, h1, v2, h2, h⟩ := h
    obtain ⟨hv0, rfl⟩ := digitByte_of_value h0
    obtain ⟨hv1, rfl⟩ := digitByte_of_value h1
    obtain ⟨hv2, rfl⟩ := digitByte_of_value h2
    rw [and_three] at h
    split at h
    · cases h
    · rw [group_bits_three hv1 hv2, Nat.shiftRight_eq_div_pow, Nat.shiftRight_eq_div_pow] at h
      cases h
      rw [b64urlEncode]
      simp only [utf8_sextet_cons, utf8_nil, toNat_ofNat_byte]
      exact cons_digit_eq (by omega) (cons_digit_eq (by omega) (cons_digit_eq (by omega) rfl))
  | case5 c0 c1 c2 c3 rest ih =>
    simp only [decodeGroups, Option.bind_eq_bind, Option.bind_eq_some_iff] at h
    obtain ⟨v0, h0, v1, h1, v2, h2, v3, h3, out, hout, h⟩ := h
    obtain ⟨hv0, rfl⟩ := digitByte_of_value h0
    obtain ⟨hv1, rfl⟩ := digitByte_of_value h1
    obtain ⟨hv2, rfl⟩ := digitByte_of_value h2
    obtain ⟨hv3, rfl⟩ := digitByte_of_value h3
    rw [group_bits hv1 hv2 hv3, Nat.shiftRight_eq_div_pow, Nat.shiftRight_eq_div_pow] at h
    cases h
    rw [b64urlEncode]
    simp only [utf8_sextet_cons, toNat_ofNat_byte, ← ih hout]
    exact cons_digit_eq (by omega) (cons_digit_eq (by omega) (cons_digit_eq (by omega) (cons_digit_eq (by omega) rfl)))

theorem b64urlDecode_eq_some {s : Str} {bytes : List UInt8} :
    b64urlDecode s = some bytes ↔ s = b64urlEncode bytes := by
  constructor
  · intro h
    exact utf8_injective (utf8_encode_of_decodeGroups h)
  · rintro rfl
    exact b64urlDecode_encode bytes

end Ccos.License

/-!
## Versioned tokens

A versioned token is five pieces between dots. The verifier checks the signature over the first four
and reads the payload; a revocation list names a license by the digest of its token or by its identifier.
-/

namespace Ccos.License

set_option linter.dupNamespace false in
/-- The license a token stands for. -/
structure License where
  licensee : Str
  expiresAt : Option UInt64
  machine : Option Str
  deriving DecidableEq

/-- Verification fails in one way only, with a reason. -/
inductive LicenseError where
  | invalid (why : Str)
  deriving DecidableEq

structure TokenPayloadV1 where
  version : UInt32
  licenseId : Str
  licensee : Str
  exp : Option UInt64
  machine : Option Str
  deriving DecidableEq

structure RevocationEntry where
  licenseId : Option Str
  tokenSha256 : Option Str

structure RevocationList where
  entries : List RevocationEntry

/-- The dependencies: ed25519, SHA-256 and `serde_json`. A payload that does not parse has a message. -/
structure LicenseTools (Key : Type) where
  verifies : Key → List UInt8 → List UInt8 → Bool
  sha256 : List UInt8 → List UInt8
  payload : List UInt8 → Except Str TokenPayload
  payloadV1 : List UInt8 → Except Str TokenPayloadV1

structure Ed25519Verifier (Key : Type) where
  keys : List (Str × Key)
  allowLegacy : Bool

def licenseTokenVersion : UInt32 := 1

def maxLicenseTokenBytes : Nat := 64 * 1024

def maxLicensePayloadBytes : Nat := 8 * 1024

def ed25519Algorithm : Str := "ed25519".toList

def tokenPrefix : Str := "ccoslic1".toList

def invalid {α : Type} (why : String) : Except LicenseError α := .error (.invalid why.toList)

def isIdByte (b : UInt8) : Bool :=
  (48 ≤ b && b ≤ 57) || (65 ≤ b && b ≤ 90) || (97 ≤ b && b ≤ 122) || b = 45 || b = 95 || b = 46

def validId (value : Str) (max : Nat) : Bool :=
  !value.isEmpty && byteLen value ≤ max && (utf8 value).all isIdByte

def validateTokenIdentity (kid licenseId licensee : Str) : Except LicenseError Unit :=
  if !validId kid 64 then invalid "invalid key id"
  else if !validId licenseId 128 then invalid "invalid license id"
  else if (trim licensee).isEmpty || 512 < byteLen licensee then invalid "invalid licensee"
  else .ok ()

section

variable {Key : Type} (t : LicenseTools Key)

/-- The digest of the trimmed text, or of the bytes when they are no text. -/
def tokenSha256 (blob : List UInt8) : Str :=
  let canonical := ((decodeUtf8 blob).map fun text => utf8 (trim text)).getD blob
  lowerHex (t.sha256 canonical)

def tokenLicenseId (blob : List UInt8) : Option Str := do
  let text ← decodeUtf8 blob
  match split ['.'] (trim text) with
  | [p, _algorithm, _kid, payload, _signature] =>
    if p ≠ tokenPrefix then none
    else do
      let json ← b64urlDecode payload
      match t.payloadV1 json with
      | .ok payload => some payload.licenseId
      | .error _ => none
  | _ => none

/-- The test that `revokes` makes of one entry. -/
def RevocationEntry.revokes (e : RevocationEntry) (digest : Str) (licenseId : Option Str) : Bool :=
  e.tokenSha256 = some digest || licenseId.any fun id => e.licenseId = some id

def RevocationList.revokes (list : RevocationList) (blob : List UInt8) (licenseId : Option Str) : Bool :=
  list.entries.any fun e => e.revokes (tokenSha256 t blob) licenseId

namespace Ed25519Verifier

variable (v : Ed25519Verifier Key)

def keyFor (kid : Str) : Option Key := (v.keys.find? fun (candidate, _) => candidate = kid).map (·.2)

/-- `{prefix}.{algorithm}.{kid}.{payload_b64}`. -/
def signingInput (p algorithm kid payloadB64 : Str) : Str :=
  p ++ '.' :: algorithm ++ '.' :: kid ++ '.' :: payloadB64

def verifyV1 (token : Str) : Except LicenseError License :=
  match split ['.'] token with
  | [p, algorithm, kid, payloadB64, sigB64] => do
    if p ≠ tokenPrefix then invalid "unknown token format"
    if algorithm ≠ ed25519Algorithm then
      .error (.invalid ("unknown or cross-scheme algorithm: ".toList ++ algorithm))
    let key ← match v.keyFor kid with
      | some key => .ok key
      | none => .error (.invalid ("unknown key id: ".toList ++ kid))
    let sig ← match (b64urlDecode sigB64).filter fun bytes => bytes.length = 64 with
      | some bytes => .ok bytes
      | none => invalid "signature is not 64 bytes"
    if !t.verifies key (utf8 (signingInput p algorithm kid payloadB64)) sig then invalid "bad signature"
    let json ← match (b64urlDecode payloadB64).filter fun bytes => bytes.length ≤ maxLicensePayloadBytes with
      | some bytes => .ok bytes
      | none => invalid "payload is invalid or oversized"
    let payload ← match t.payloadV1 json with
      | .ok payload => .ok payload
      | .error e => .error (.invalid ("payload JSON: ".toList ++ e))
    if payload.version ≠ licenseTokenVersion then
      .error (.invalid ("unsupported token version: ".toList ++ natStr payload.version.toNat))
    validateTokenIdentity kid payload.licenseId payload.licensee
    return ⟨payload.licensee, payload.exp, payload.machine⟩
  | _ => invalid "token is not ccoslic1.algorithm.kid.payload.signature"

/-- The unversioned format. -/
def verifyLegacy (token : Str) : Except LicenseError License := do
  if !v.allowLegacy then invalid "legacy token format is disabled for embedded keyrings"
  let key ← match v.keys.head? with
    | some (_, key) => .ok key
    | none => invalid "no embedded public key"
  let (input, sigB64) ← match splitOnce ['.'] token with
    | some pieces => .ok pieces
    | none => invalid "token is not payload.signature"
  let sig ← match (b64urlDecode sigB64).filter fun bytes => bytes.length = 64 with
    | some bytes => .ok bytes
    | none => invalid "signature is not 64 base64url bytes"
  if !t.verifies key (utf8 input) sig then invalid "bad signature"
  let json ← match b64urlDecode input with
    | some json => .ok json
    | none => invalid "payload is not base64url"
  let payload ← match t.payload json with
    | .ok payload => .ok payload
    | .error e => .error (.invalid ("payload JSON: ".toList ++ e))
  return ⟨payload.licensee, payload.exp, payload.machine⟩

def verify (blob : List UInt8) : Except LicenseError License := do
  if maxLicenseTokenBytes < blob.length then invalid "token exceeds 64 KiB limit"
  match decodeUtf8 blob with
  | none => invalid "token is not UTF-8"
  | some text =>
    if startsWith (tokenPrefix ++ ['.']) (trim text) then v.verifyV1 t (trim text)
    else v.verifyLegacy t (trim text)

end Ed25519Verifier

end

/-! ## Pieces -/

theorem splitGo_ne_nil (pat : Str) (skip : Nat) (piece s : Str) : splitGo pat skip piece s ≠ [] := by
  fun_induction splitGo pat skip piece s <;> simp_all

theorem joinWith_cons (sep piece : Str) {pieces : List Str} (h : pieces ≠ []) :
    joinWith sep (piece :: pieces) = piece ++ sep ++ joinWith sep pieces := by
  obtain ⟨next, rest, rfl⟩ := List.exists_cons_of_ne_nil h
  simp [joinWith, List.intercalate, List.intersperse]

theorem joinWith_splitGo (c : Char) (piece s : Str) : joinWith [c] (splitGo [c] 0 piece s) = piece ++ s := by
  induction s generalizing piece with
  | nil => simp [splitGo, joinWith, List.intercalate]
  | cons d s ih =>
    rw [splitGo]
    by_cases hc : startsWith [c] (d :: s) = true
    · have hd : c = d := by simpa [startsWith] using hc
      rw [if_pos hc, joinWith_cons _ _ (splitGo_ne_nil _ _ _ _), List.length_singleton, Nat.sub_self, ih, hd]
      simp
    · rw [if_neg hc, ih]
      simp

/-- The pieces between the dots determine the text. -/
theorem joinWith_split (c : Char) (s : Str) : joinWith [c] (split [c] s) = s :=
  joinWith_splitGo c [] s

theorem eq_of_split_eq {c : Char} {s t : Str} (h : split [c] s = split [c] t) : s = t := by
  rw [← joinWith_split c s, h, joinWith_split]

/-! ## One text for one token -/

section

variable {Key : Type} {t : LicenseTools Key} {v : Ed25519Verifier Key}

/-- The token is five pieces, the last two of them the text of the payload and the signature. -/
def Carries (token algorithm kid : Str) (payload sig : List UInt8) : Prop :=
  ∃ p payloadB64 sigB64, split ['.'] token = [p, algorithm, kid, payloadB64, sigB64] ∧
    b64urlDecode payloadB64 = some payload ∧ b64urlDecode sigB64 = some sig

/-- The blob is a text, and behind its blanks is a token that `verify_v1` accepts. -/
def AcceptsV1 (t : LicenseTools Key) (v : Ed25519Verifier Key) (blob : List UInt8) (token : Str) : Prop :=
  ∃ text license, decodeUtf8 blob = some text ∧ trim text = token ∧ v.verifyV1 t token = .ok license

theorem prefix_of_verifyV1 {token p algorithm kid payloadB64 sigB64 : Str} {license : License}
    (hsplit : split ['.'] token = [p, algorithm, kid, payloadB64, sigB64]) (h : v.verifyV1 t token = .ok license) :
    p = tokenPrefix := by
  by_contra hp
  rw [Ed25519Verifier.verifyV1, hsplit] at h
  simp only [if_pos hp] at h
  cases h

theorem token_eq_of_carries {token other algorithm kid : Str} {payload sig : List UInt8} {license license' : License}
    (haccept : v.verifyV1 t token = .ok license) (haccept' : v.verifyV1 t other = .ok license')
    (h : Carries token algorithm kid payload sig) (h' : Carries other algorithm kid payload sig) : token = other := by
  obtain ⟨p, payloadB64, sigB64, hsplit, hpayload, hsig⟩ := h
  obtain ⟨p', payloadB64', sigB64', hsplit', hpayload', hsig'⟩ := h'
  obtain rfl := prefix_of_verifyV1 hsplit haccept
  obtain rfl := prefix_of_verifyV1 hsplit' haccept'
  rw [b64urlDecode_eq_some] at hpayload hsig hpayload' hsig'
  refine eq_of_split_eq (c := '.') ?_
  rw [hsplit, hsplit', hpayload, hsig, hpayload', hsig']

theorem tokenSha256_of_text {blob : List UInt8} {text : Str} (h : decodeUtf8 blob = some text) :
    tokenSha256 t blob = lowerHex (t.sha256 (utf8 (trim text))) := by
  rw [tokenSha256, h]
  rfl

theorem tokenLicenseId_congr {blob other : List UInt8} {text text' : Str} (h : decodeUtf8 blob = some text)
    (h' : decodeUtf8 other = some text') (htrim : trim text = trim text') :
    tokenLicenseId t blob = tokenLicenseId t other := by
  simp only [tokenLicenseId, h, h', Option.bind_eq_bind, Option.bind_some, htrim]

/-- Every text decodes to what encodes to it, so a token cannot be written in two ways, and a revocation
list cannot tell two accepted copies of it apart. -/
theorem token_text_canonical (t : LicenseTools Key) (v : Ed25519Verifier Key) :
    (∀ (s : Str) (bytes : List UInt8), b64urlDecode s = some bytes ↔ s = b64urlEncode bytes) ∧
    ∀ (blob other : List UInt8) (token token' algorithm kid : Str) (payload sig : List UInt8),
      AcceptsV1 t v blob token → AcceptsV1 t v other token' →
      Carries token algorithm kid payload sig → Carries token' algorithm kid payload sig →
        tokenSha256 t blob = tokenSha256 t other ∧
        (∀ e : RevocationEntry, e.revokes (tokenSha256 t blob) (tokenLicenseId t blob) =
          e.revokes (tokenSha256 t other) (tokenLicenseId t other)) ∧
        ∀ list : RevocationList, list.revokes t blob (tokenLicenseId t blob) =
          list.revokes t other (tokenLicenseId t other) := by
  refine ⟨fun _ _ => b64urlDecode_eq_some, ?_⟩
  rintro blob other _ _ algorithm kid payload sig ⟨text, license, htext, rfl, haccept⟩
    ⟨text', license', htext', rfl, haccept'⟩ hcarries hcarries'
  have htoken : trim text = trim text' := token_eq_of_carries haccept haccept' hcarries hcarries'
  have hdigest : tokenSha256 t blob = tokenSha256 t other := by
    rw [tokenSha256_of_text htext, tokenSha256_of_text htext', htoken]
  have hid : tokenLicenseId t blob = tokenLicenseId t other := tokenLicenseId_congr htext htext' htoken
  refine ⟨hdigest, fun e => by rw [hdigest, hid], fun list => ?_⟩
  rw [RevocationList.revokes, RevocationList.revokes, hdigest, hid]

end

/-! ### A token and its copy with a line feed -/

def samplePayload : List UInt8 :=
  utf8 "\x7b\x22version\x22:1,\x22license_id\x22:\x22a\x22,\x22licensee\x22:\x22b\x22\x7d".toList

def sampleInput : Str :=
  Ed25519Verifier.signingInput tokenPrefix ed25519Algorithm ['k'] (b64urlEncode samplePayload)

/-- The ed25519 signature of the input under the seed of 32 sevens. -/
def sampleSignature : List UInt8 :=
  [197, 72, 54, 249, 83, 214, 232, 120, 235, 180, 168, 194, 243, 214, 93, 45, 92, 112, 194, 141, 8, 61, 8, 229, 24, 49,
    107, 60, 221, 146, 62, 218, 224, 82, 249, 117, 239, 90, 113, 88, 65, 196, 123, 104, 151, 92, 148, 108, 94, 139, 71,
    166, 168, 35, 17, 192, 221, 255, 91, 103, 125, 229, 133, 7]

def sampleToken : Str := sampleInput ++ '.' :: b64urlEncode sampleSignature

/-- The dependencies on the sample. -/
def sampleTools : LicenseTools Unit where
  verifies _ message sig := message = utf8 sampleInput && sig = sampleSignature
  sha256 bytes :=
    if bytes = utf8 sampleToken then
      [116, 102, 156, 254, 61, 255, 185, 189, 93, 169, 153, 48, 229, 152, 75, 119, 67, 173, 143, 90, 11, 81, 144, 185,
        132, 37, 37, 25, 37, 125, 150, 183]
    else []
  payload _ := .error "missing field licensee".toList
  payloadV1 bytes :=
    if bytes = samplePayload then .ok ⟨1, ['a'], ['b'], none, none⟩ else .error "expected value".toList

def sampleVerifier : Ed25519Verifier Unit := ⟨[(['k'], ())], false⟩

example : b64urlDecode [] = some [] := by decide +kernel

theorem sampleToken_trailing_newline :
    tokenSha256 sampleTools (utf8 sampleToken) = tokenSha256 sampleTools (utf8 (sampleToken ++ ['\n'])) ∧
    tokenSha256 sampleTools (utf8 sampleToken) =
      "74669cfe3dffb9bd5da99930e5984b7743ad8f5a0b5190b984252519257d96b7".toList := by
  have haccept : sampleVerifier.verifyV1 sampleTools sampleToken = .ok ⟨['b'], none, none⟩ := by decide
  have htrim : trim sampleToken = sampleToken ∧ trim (sampleToken ++ ['\n']) = sampleToken := by decide +kernel
  have hcarries : Carries sampleToken ed25519Algorithm ['k'] samplePayload sampleSignature :=
    ⟨tokenPrefix, b64urlEncode samplePayload, b64urlEncode sampleSignature, by decide,
      b64urlDecode_eq_some.mpr rfl, b64urlDecode_eq_some.mpr rfl⟩
  have hsame := (token_text_canonical sampleTools sampleVerifier).2 _ _ sampleToken sampleToken _ _ _ _
    ⟨_, _, decodeUtf8_utf8 _, htrim.1, haccept⟩ ⟨_, _, decodeUtf8_utf8 _, htrim.2, haccept⟩ hcarries hcarries
  refine ⟨hsame.1, ?_⟩
  rw [tokenSha256_of_text (decodeUtf8_utf8 _), htrim.1]
  decide +kernel

end Ccos.License
