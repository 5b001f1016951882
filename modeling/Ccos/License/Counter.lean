import Ccos.License.Vault
import Ccos.Lib.Runs

/-!
# The claim counter

A claim flips an entry, the vault is saved, and only then is the token disclosed. A save that fails
puts the vault back as it was.
-/

open Std

namespace Ccos.License

/-- A parsed request, with what the token bucket says and whether a save of the vault succeeds. -/
structure Request where
  method : Str
  path : Str
  body : Str
  now : UInt64
  allowed : Bool
  saves : Bool

inductive Body
  | health
  | error (message : Str)
  | token (payload : TokenPayload)
  deriving DecidableEq

/-- `sign` is ed25519 under the seed of the counter. -/
def Body.text (sign : List UInt8 → List UInt8) : Body → Str
  | .health => "\x7b\x22ok\x22:true\x7d".toList
  | .error message => "\x7b\x22error\x22:".toList ++ quoteWith escapeJson message ++ ['\x7d']
  | .token payload =>
    "\x7b\x22token\x22:".toList ++ quoteWith escapeJson (signTokenBound sign payload.toJson) ++ ['\x7d']

structure Answer where
  status : Nat
  body : Body
  deriving DecidableEq

def refuse (status : Nat) (message : String) : Answer := ⟨status, .error message.toList⟩

/-- `saved` is the vault of the last save that succeeded. -/
structure Counter where
  vault : Vault
  saved : Option Vault

def wellFormed (r : ClaimRequest) : Bool :=
  r.schema = claimSchema && isSha256Hex r.codeHash && isSha256Hex r.machine

section

-- `fromJson` is `serde_json::from_str` at the type of requests.
variable (fromJson : Str → Option ClaimRequest) (checked : Bool)

namespace Counter

/-- The answer to a claim of the vault. `c` is the counter before it. -/
def conclude (c : Counter) (q : Request) (r : ClaimRequest) :
    Except Refusal (Str × Option UInt64) × Vault → Answer × Counter
  | (.ok (licensee, exp), vault) =>
    if q.saves then
      (⟨200, .token { licensee, exp, machine := some r.machine }⟩, { vault, saved := some vault })
    else (refuse 500 "persistence failure — nothing was issued", c)
  | (.error .unknownCode, vault) => (refuse 404 "unknown claim code", { c with vault })
  | (.error .seatTaken, vault) =>
    (refuse 410
      "this code was already claimed on another machine (single-seat). Contact the vendor to re-arm it.",
      { c with vault })
  | (.error .revoked, vault) => (refuse 410 "this code was revoked by the vendor", { c with vault })

/-- `none` is a panic: an overflow of a checked build, or a hash too short for the log. -/
def handleClaim (c : Counter) (q : Request) : Option (Answer × Counter) :=
  if !q.allowed then some (refuse 429 "rate limited — try again shortly", c)
  else
    match fromJson q.body with
    | none => some (refuse 400 "malformed claim request", c)
    | some r =>
      if !wellFormed r then some (refuse 400 "malformed claim request", c)
      else do
        let result ← c.vault.claim checked r.codeHash r.machine q.now
        let _ ← slice r.codeHash 0 12
        return c.conclude q r result

def handle (c : Counter) (q : Request) : Option (Answer × Counter) :=
  if q.method = "GET".toList ∧ q.path = "/healthz".toList then some (⟨200, .health⟩, c)
  else if q.method = "POST".toList ∧ q.path = claimPath then c.handleClaim fromJson checked q
  else if q.method = "POST".toList ∨ q.method = "GET".toList then some (refuse 404 "no such endpoint", c)
  else some (refuse 405 "method not allowed", c)

end Counter

/-- The claim that a request makes, once the endpoint has let it through. -/
def asked (q : Request) : Option ClaimRequest :=
  if q.method = "POST".toList ∧ q.path = claimPath ∧ q.allowed = true then (fromJson q.body).filter wellFormed
  else none

variable {fromJson checked}

theorem asked_eq_some {q : Request} {r : ClaimRequest} :
    asked fromJson q = some r ↔ (q.method = "POST".toList ∧ q.path = claimPath ∧ q.allowed = true) ∧
      fromJson q.body = some r ∧ wellFormed r = true := by
  unfold asked
  split
  next h => rw [Option.filter_eq_some_iff, and_iff_right h]
  next h => exact ⟨nofun, fun hroute => absurd hroute.1 h⟩

theorem wellFormed_iff {r : ClaimRequest} : wellFormed r = true ↔
    r.schema = claimSchema ∧ isSha256Hex r.codeHash = true ∧ isSha256Hex r.machine = true := by
  unfold wellFormed
  rw [Bool.and_eq_true, Bool.and_eq_true, decide_eq_true_eq, and_assoc]

theorem slice_of_wellFormed {r : ClaimRequest} (h : wellFormed r = true) :
    slice r.codeHash 0 12 = some (r.codeHash.take 12) := by
  have hhex := (wellFormed_iff.mp h).2.1
  have hascii := isAscii_of_isSha256Hex hhex
  have hlen := (isSha256Hex_iff.mp hhex).1
  rw [byteLen_of_ascii hascii] at hlen
  rw [slice_of_ascii hascii (by omega) (by omega), List.drop_zero]

/-! ## What a request does -/

/-- The token and the counter that a granted claim leaves. -/
structure Granted (checked : Bool) (c : Counter) (q : Request) (r : ClaimRequest) (p : TokenPayload)
    (c' : Counter) : Prop where
  saves : q.saves = true
  machine : p.machine = some r.machine
  saved : c'.saved = some c'.vault
  entry : ∃ e, c.vault.entries[r.codeHash]? = some e ∧
    ((c'.vault = c.vault ∧ e.status = .claimed ∧ e.machine = p.machine ∧ e.expUnix = p.exp) ∨
      (e.status = .unclaimed ∧ e.expiry checked q.now = some p.exp ∧
        c'.vault = { c.vault with
          entries := c.vault.entries.insert r.codeHash (e.claimedBy r.machine q.now p.exp) }))

theorem Counter.conclude_cases {c c' : Counter} {q : Request} {r : ClaimRequest} {a : Answer}
    {result : Except Refusal (Str × Option UInt64) × Vault}
    (hclaim : c.vault.claim checked r.codeHash r.machine q.now = some result)
    (h : c.conclude q r result = (a, c')) :
    (c' = c ∧ ∀ p, a.body ≠ .token p) ∨ ∃ p, a = ⟨200, .token p⟩ ∧ Granted checked c q r p c' := by
  obtain ⟨outcome, vault⟩ := result
  rcases Vault.claim_cases hclaim with ⟨rfl, refusal, rfl⟩ | ⟨rfl, e, he, hs, hm, rfl⟩ |
    ⟨e, exp, he, hs, hexp, rfl, rfl⟩
  · cases refusal <;>
      (obtain ⟨rfl, rfl⟩ := Prod.mk.inj h
       exact .inl ⟨rfl, fun p => Body.noConfusion⟩)
  · simp only [Counter.conclude] at h
    split at h
    next hsaves =>
      obtain ⟨rfl, rfl⟩ := Prod.mk.inj h
      exact .inr ⟨_, rfl, hsaves, rfl, rfl, e, he, .inl ⟨rfl, hs, hm, rfl⟩⟩
    next =>
      obtain ⟨rfl, rfl⟩ := Prod.mk.inj h
      exact .inl ⟨rfl, fun p => Body.noConfusion⟩
  · simp only [Counter.conclude] at h
    split at h
    next hsaves =>
      obtain ⟨rfl, rfl⟩ := Prod.mk.inj h
      exact .inr ⟨_, rfl, hsaves, rfl, rfl, e, he, .inr ⟨hs, hexp, rfl⟩⟩
    next =>
      obtain ⟨rfl, rfl⟩ := Prod.mk.inj h
      exact .inl ⟨rfl, fun p => Body.noConfusion⟩

theorem Counter.handle_of_asked {q : Request} {r : ClaimRequest} (c : Counter) (h : asked fromJson q = some r) :
    c.handle fromJson checked q =
      (c.vault.claim checked r.codeHash r.machine q.now).map (c.conclude q r) := by
  obtain ⟨⟨hmethod, hpath, hallowed⟩, hjson, hwell⟩ := asked_eq_some.mp h
  have hget : ¬ (q.method = "GET".toList ∧ q.path = "/healthz".toList) := by
    rw [hmethod]
    exact fun hroute => absurd hroute.1 (by decide)
  unfold Counter.handle Counter.handleClaim
  rw [if_neg hget, if_pos ⟨hmethod, hpath⟩]
  simp only [hallowed, hjson, hwell, slice_of_wellFormed hwell, Bool.not_true, Bool.false_eq_true, if_false]
  cases c.vault.claim checked r.codeHash r.machine q.now with
  | none => rfl
  | some result => rfl

/-- What makes no claim is answered without one. -/
theorem Counter.handle_of_not_asked {q : Request} (c : Counter) (h : asked fromJson q = none) :
    ∃ a, c.handle fromJson checked q = some (a, c) ∧ ∀ p, a.body ≠ .token p := by
  unfold Counter.handle
  split
  · exact ⟨_, rfl, fun p => Body.noConfusion⟩
  split
  swap
  · split
    · exact ⟨_, rfl, fun p => Body.noConfusion⟩
    · exact ⟨_, rfl, fun p => Body.noConfusion⟩
  next hroute =>
    unfold Counter.handleClaim
    by_cases hallowed : q.allowed = true
    swap
    · rw [Bool.not_eq_true] at hallowed
      simp only [hallowed, Bool.not_false, if_true]
      exact ⟨_, rfl, fun p => Body.noConfusion⟩
    unfold asked at h
    rw [if_pos ⟨hroute.1, hroute.2, hallowed⟩] at h
    simp only [hallowed, Bool.not_true, Bool.false_eq_true, if_false]
    cases hjson : fromJson q.body with
    | none => exact ⟨_, rfl, fun p => Body.noConfusion⟩
    | some r =>
      have hwell : wellFormed r = false := by
        rw [hjson] at h
        exact Bool.not_eq_true _ ▸ Option.filter_eq_none_iff.mp h r rfl
      simp only [hwell, Bool.not_false, if_true]
      exact ⟨_, rfl, fun p => Body.noConfusion⟩

/-- An answer without a token changes nothing; a token is the answer to a granted claim. -/
theorem Counter.handle_cases {c c' : Counter} {q : Request} {a : Answer}
    (h : c.handle fromJson checked q = some (a, c')) :
    (c' = c ∧ ∀ p, a.body ≠ .token p) ∨
    ∃ r p, asked fromJson q = some r ∧ a = ⟨200, .token p⟩ ∧ Granted checked c q r p c' := by
  cases hasked : asked fromJson q with
  | none =>
    obtain ⟨a', ha, hnone⟩ := Counter.handle_of_not_asked c hasked
    obtain ⟨rfl, rfl⟩ := Prod.mk.inj (Option.some.inj (ha.symm.trans h))
    exact .inl ⟨rfl, hnone⟩
  | some r =>
    rw [Counter.handle_of_asked c hasked] at h
    obtain ⟨result, hclaim, hresult⟩ := Option.map_eq_some_iff.mp h
    refine (Counter.conclude_cases hclaim hresult).imp_right ?_
    rintro ⟨p, rfl, hgranted⟩
    exact ⟨r, p, rfl, rfl, hgranted⟩

/-- A request panics only where the vault does. -/
theorem Counter.handle_returns {c : Counter} {q : Request}
    (h : ∀ r, asked fromJson q = some r → ∃ x, c.vault.claim checked r.codeHash r.machine q.now = some x) :
    ∃ a c', c.handle fromJson checked q = some (a, c') := by
  cases hasked : asked fromJson q with
  | none =>
    obtain ⟨a, ha, -⟩ := Counter.handle_of_not_asked c hasked
    exact ⟨a, c, ha⟩
  | some r =>
    obtain ⟨result, hclaim⟩ := h r hasked
    rw [Counter.handle_of_asked c hasked, hclaim]
    exact ⟨_, _, rfl⟩

end

/-! ## A request -/

def someHash : Str := List.replicate 64 'a'

def firstClaim : Request where
  method := "POST".toList
  path := claimPath
  body := []
  now := 1
  allowed := true
  saves := true

/-- A reader for which every body is the same claim. -/
def readsClaim (_ : Str) : Option ClaimRequest := some ⟨claimSchema, someHash, someHash⟩

end Ccos.License
