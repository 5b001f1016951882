import Ccos.License.CodeAgreement

/-!
# When both counters answer a claim alike

The PHP counter accepts a hash with a newline behind it, escapes two separators that the Rust signer
leaves alone, keeps an expiry that a perpetual code should not have, and rewrites numbers beyond 63 bits.
Everywhere else the two agree.
-/

open Std

namespace Ccos.License

/-! ## What is compared -/

/-- The request arrives at the JSON endpoint, within the rate, and the vault can be saved. -/
structure Delivered (fromJson : Str → Option ClaimRequest) (q : Request) (r : ClaimRequest) : Prop where
  method : q.method = "POST".toList
  path : q.path = claimPath
  allowed : q.allowed = true
  saves : q.saves = true
  body : fromJson q.body = some r

structure Php.Host.Ready (h : Php.Host) (now : Nat) : Prop where
  seed : Php.matches64 Php.isHexDigit (utf8 h.seed) = true
  locks : h.locks = true
  rate : h.count now ≤ Php.rateMaxPerMin
  saves : h.saves = true

/-- The vault file of the PHP counter holds the entries; `written` is what it wrote over `v`. -/
def Leaves (v : Vault) (written : Option (BTreeMap Str Php.Record)) (entries : BTreeMap Str Entry) : Prop :=
  match written with
  | none => ∀ code : Str, v.entries[code]? = entries[code]?
  | some records => ∀ code : Str, (records[code]?).map Php.readBack = (entries[code]?).map some

/-- The same status, the same entries, and on 200 the same signed bytes. -/
def Agree (v : Vault) (rust : Option (Answer × Counter)) (php : Php.Reply) : Prop :=
  ∃ a c, rust = some (a, c) ∧ a.status = php.status ∧ Leaves v php.written c.vault.entries ∧
    (a.status = 200 → ∃ p text, a.body = .token p ∧ php.body = .token text ∧ utf8 text = utf8 p.toJson)

/-! ## The condition -/

def Small (n : UInt64) : Prop := n.toNat < 2 ^ 63

def SmallOption (n : Option UInt64) : Prop := ∀ x, n = some x → Small x

theorem smallOption_none : SmallOption none := by simp [SmallOption]

theorem smallOption_some (x : UInt64) : SmallOption (some x) ↔ x.toNat < 2 ^ 63 := by
  simp [SmallOption, Small]

instance decidableSmallOption (n : Option UInt64) : Decidable (SmallOption n) :=
  match n with
  | none => isTrue nofun
  | some x => decidable_of_iff (x.toNat < 2 ^ 63) (smallOption_some x).symm

/-- Every number of the entry is an `int` of PHP. -/
structure Entry.Representable (e : Entry) : Prop where
  days : SmallOption e.days
  createdUnix : Small e.createdUnix
  claimedUnix : SmallOption e.claimedUnix
  expUnix : SmallOption e.expUnix

/-- Neither a line separator nor a paragraph separator. -/
def NoSeparators (s : Str) : Prop := ∀ c ∈ s, c ≠ '\u2028' ∧ c ≠ '\u2029'

/-- What an entry needs for both counters to grant it alike. -/
def Entry.GrantsAlike (e : Entry) (machine : Str) : Prop :=
  (e.status = .claimed → e.machine = some machine → e.Representable ∧ NoSeparators e.licensee) ∧
  (e.status = .unclaimed → Small e.createdUnix ∧ NoSeparators e.licensee ∧ (e.days = none → e.expUnix = none))

def Entry.Grantable (e : Entry) (machine : Str) : Prop :=
  e.status = .unclaimed ∨ (e.status = .claimed ∧ e.machine = some machine)

/-- Hashes are without a newline behind them, the vault has its schema tag, and a granted entry and the
entries that are rewritten with it survive the rewriting. -/
def Alike (v : Vault) (r : ClaimRequest) : Prop :=
  r.schema = claimSchema → Php.isSha256Hex r.codeHash = true → Php.isSha256Hex r.machine = true →
    isSha256Hex r.codeHash = true ∧ isSha256Hex r.machine = true ∧ v.schema = vaultSchema ∧
    ∀ e, v.entries[r.codeHash]? = some e → e.Grantable r.machine → e.GrantsAlike r.machine ∧
      ∀ (code : Str) (other : Entry), code ≠ r.codeHash → v.entries[code]? = some other → other.Representable

/-! ## Hashes -/

theorem php_isSha256Hex_of_hex {s : Str} (h : isSha256Hex s = true) : Php.isSha256Hex s = true := by
  obtain ⟨hlen, hall⟩ := isSha256Hex_iff.mp h
  unfold Php.isSha256Hex Php.matches64
  rw [Bool.or_eq_true, Bool.and_eq_true, decide_eq_true_eq, List.all_eq_true, length_utf8]
  exact .inl ⟨hlen, hall⟩

/-! ## Numbers -/

theorem toU64_numberOf (n : UInt64) : (Php.numberOf n).toU64 = some n ↔ Small n := by
  unfold Php.numberOf Php.Number.ofNat Small
  by_cases h : n.toNat < 2 ^ 63
  · rw [if_pos h]
    exact iff_of_true (congrArg some (UInt64.ofNat_toNat)) h
  · rw [if_neg h]
    exact iff_of_false nofun h

theorem readNumber_numberOf (n : Option UInt64) : Php.readNumber (n.map Php.numberOf) = some n ↔ SmallOption n := by
  cases n with
  | none => exact iff_of_true rfl nofun
  | some n =>
    rw [smallOption_some, ← Small, ← toU64_numberOf, Option.map_some, Php.readNumber]
    cases (Php.numberOf n).toU64 with
    | none => simp
    | some m => simp

theorem statusOf_statusName (s : Status) : Php.statusOf (Php.statusName s) = some s := by
  cases s <;> decide

theorem readBack_eq_some {r : Php.Record} {e : Entry} : Php.readBack r = some e ↔
    Php.readNumber r.days = some e.days ∧ Php.statusOf r.status = some e.status ∧
    r.createdUnix.toU64 = some e.createdUnix ∧ Php.readNumber r.claimedUnix = some e.claimedUnix ∧
    Php.readNumber r.expUnix = some e.expUnix ∧ r.licensee = e.licensee ∧ r.label = e.label ∧
    r.machine = e.machine := by
  unfold Php.readBack
  simp only [Option.bind_eq_bind, Option.bind_eq_some_iff, Option.pure_def, Option.some.injEq]
  constructor
  · rintro ⟨days, hdays, status, hstatus, created, hcreated, claimed, hclaimed, exp, hexp, rfl⟩
    exact ⟨hdays, hstatus, hcreated, hclaimed, hexp, rfl, rfl, rfl⟩
  · rintro ⟨hdays, hstatus, hcreated, hclaimed, hexp, hlicensee, hlabel, hmachine⟩
    refine ⟨_, hdays, _, hstatus, _, hcreated, _, hclaimed, _, hexp, ?_⟩
    rw [hlicensee, hlabel, hmachine]

theorem readBack_decode {e : Entry} : Php.readBack (Php.decode e) = some e ↔ e.Representable := by
  rw [readBack_eq_some]
  unfold Php.decode
  simp only [readNumber_numberOf, statusOf_statusName, toU64_numberOf, true_and, and_true]
  constructor
  · rintro ⟨hdays, hcreated, hclaimed, hexp⟩
    exact ⟨hdays, hcreated, hclaimed, hexp⟩
  · rintro ⟨hdays, hcreated, hclaimed, hexp⟩
    exact ⟨hdays, hcreated, hclaimed, hexp⟩

/-! ## Signed bytes -/

theorem php_escapeJson_of_ne {c : Char} (h : c ≠ '\u2028' ∧ c ≠ '\u2029') : Php.escapeJson c = escapeJson c := by
  unfold Php.escapeJson
  rw [if_neg h.1, if_neg h.2]

theorem length_escapeJson_le (c : Char) : (escapeJson c).length ≤ (Php.escapeJson c).length := by
  by_cases h8 : c = '\u2028'
  · subst h8
    decide
  by_cases h9 : c = '\u2029'
  · subst h9
    decide
  rw [php_escapeJson_of_ne ⟨h8, h9⟩]

theorem length_flatMap_escape_le (s : Str) :
    (s.flatMap escapeJson).length ≤ (s.flatMap Php.escapeJson).length := by
  induction s with
  | nil => exact le_rfl
  | cons c s ih =>
    have hc := length_escapeJson_le c
    simp only [List.flatMap_cons, List.length_append]
    omega

/-- The two escapes tell apart exactly the separators. -/
theorem flatMap_escape_eq_iff (s : Str) :
    s.flatMap Php.escapeJson = s.flatMap escapeJson ↔ NoSeparators s := by
  unfold NoSeparators
  induction s with
  | nil => simp
  | cons c s ih =>
    rw [List.forall_mem_cons, List.flatMap_cons, List.flatMap_cons]
    by_cases hc : c ≠ '\u2028' ∧ c ≠ '\u2029'
    · rw [php_escapeJson_of_ne hc, List.append_cancel_left_eq, ih, and_iff_right hc]
    · refine iff_of_false ?_ fun h => hc h.1
      intro h
      have hlen := congrArg List.length h
      have hrest := length_flatMap_escape_le s
      have hlonger : (escapeJson c).length < (Php.escapeJson c).length := by
        rcases Classical.not_and_iff_not_or_not.mp hc with h8 | h9
        · rw [not_not.mp h8]
          decide
        · rw [not_not.mp h9]
          decide
      simp only [List.length_append] at hlen
      omega

theorem noSeparators_of_ascii {s : Str} (h : IsAscii s) : NoSeparators s := by
  intro c hc
  have hlt := h c hc
  constructor
  · rintro rfl
    exact absurd hlt (by decide)
  · rintro rfl
    exact absurd hlt (by decide)

/-- With a hash for the machine the payloads differ only by the escapes of the licensee. -/
theorem payload_eq_iff {licensee machine : Str} (hmachine : isSha256Hex machine = true) (exp : Option Nat) :
    payloadJson Php.escapeJson licensee exp (some machine) = payloadJson escapeJson licensee exp (some machine) ↔
      NoSeparators licensee := by
  have hquote : quoteWith Php.escapeJson machine = quoteWith escapeJson machine := by
    unfold quoteWith
    rw [(flatMap_escape_eq_iff machine).mpr (noSeparators_of_ascii (isAscii_of_isSha256Hex hmachine))]
  unfold payloadJson
  rw [Option.map_some, Option.map_some, hquote]
  simp only [List.append_cancel_right_eq, List.append_cancel_left_eq]
  rw [← flatMap_escape_eq_iff, quoteWith, quoteWith, List.append_cancel_right_eq, List.cons.injEq]
  exact and_iff_right rfl

/-! ## What the PHP counter answers -/

section

variable {h : Php.Host} {v : Vault} {r : ClaimRequest} {now : Nat}

theorem php_handle_of_bad_schema (hschema : r.schema ≠ claimSchema) :
    Php.handle h v r now = Php.fail 400 "malformed claim request" := if_pos hschema

theorem php_handle_of_bad_hash (hschema : r.schema = claimSchema)
    (hbad : ¬ (Php.isSha256Hex r.codeHash = true ∧ Php.isSha256Hex r.machine = true)) :
    Php.handle h v r now = Php.fail 400 "malformed claim request" := by
  unfold Php.handle Php.handleClaim
  rw [if_neg (not_not_intro hschema), if_pos]
  rw [Bool.or_eq_true, Bool.not_eq_true', Bool.not_eq_true']
  by_cases hcode : Php.isSha256Hex r.codeHash = true
  · exact .inr (Bool.not_eq_true _ ▸ fun hmachine => hbad ⟨hcode, hmachine⟩)
  · exact .inl (Bool.not_eq_true _ ▸ hcode)

/-- Past the checks the answer is up to the vault. -/
theorem php_handle_of_hashes (hready : h.Ready now) (hschema : r.schema = claimSchema)
    (hcode : Php.isSha256Hex r.codeHash = true) (hmachine : Php.isSha256Hex r.machine = true) :
    Php.handle h v r now =
      if v.schema ≠ vaultSchema then Php.fail 500 "counter misconfigured (vault unreadable)"
      else Php.conclude h r.machine
        (Php.vaultClaim h (v.entries.map fun _ e => Php.decode e) r.codeHash r.machine now) := by
  unfold Php.handle Php.handleClaim
  rw [if_neg (not_not_intro hschema), hcode, hmachine, hready.seed, hready.locks]
  simp only [Bool.not_true, Bool.or_self, Bool.false_eq_true, if_false, Nat.not_lt.mpr hready.rate]

/-- The entry that the PHP counter writes for a first claim. -/
def Php.claimedRecord (h : Php.Host) (e : Entry) (machine : Str) (now : Nat) : Php.Record :=
  { Php.decode e with
    status := "claimed".toList, claimedUnix := some (.int now),
    expUnix := (e.days.map fun d => h.expiry now (Php.numberOf d)) <|> e.expUnix.map Php.numberOf,
    machine := some machine }

theorem php_vaultClaim_none {codeHash machine : Str} (he : v.entries[codeHash]? = none) :
    Php.vaultClaim h (v.entries.map fun _ e => Php.decode e) codeHash machine now =
      .error (404, "unknown claim code") := by
  unfold Php.vaultClaim
  rw [ExtTreeMap.getElem?_map, he]
  rfl

theorem php_vaultClaim_some {codeHash machine : Str} {e : Entry} (he : v.entries[codeHash]? = some e) :
    Php.vaultClaim h (v.entries.map fun _ e => Php.decode e) codeHash machine now =
      match e.status with
      | .revoked => .error (410, "this code was revoked by the vendor")
      | .claimed =>
        if e.machine = some machine then
          .ok ⟨e.licensee, e.expUnix.map Php.numberOf, v.entries.map fun _ e => Php.decode e⟩
        else .error (410,
          "this code was already claimed on another machine (single-seat). Contact the vendor to re-arm it.")
      | .unclaimed =>
        .ok ⟨e.licensee, e.days.map fun d => h.expiry now (Php.numberOf d),
          (v.entries.map fun _ e => Php.decode e).insert codeHash (Php.claimedRecord h e machine now)⟩ := by
  unfold Php.vaultClaim
  rw [ExtTreeMap.getElem?_map, he, Option.map_some]
  dsimp only
  have hname : (Php.decode e).status = Php.statusName e.status := rfl
  rw [hname]
  cases e.status with
  | revoked => rw [if_pos (show Php.statusName .revoked = "revoked".toList from rfl)]
  | claimed =>
    rw [if_neg (show Php.statusName .claimed ≠ "revoked".toList by decide),
      if_pos (show Php.statusName .claimed = "claimed".toList from rfl)]
    rfl
  | unclaimed =>
    rw [if_neg (show Php.statusName .unclaimed ≠ "revoked".toList by decide),
      if_neg (show Php.statusName .unclaimed ≠ "claimed".toList by decide),
      if_pos (show Php.statusName .unclaimed = "unclaimed".toList from rfl)]
    dsimp only
    rw [show (Php.decode e).days = e.days.map Php.numberOf from rfl, Option.map_map]
    rfl

theorem php_conclude_ok_ne_400 (machine : Str) (grant : Php.Grant) :
    (Php.conclude h machine (.ok grant)).status ≠ 400 := by
  have h200 : 200 ≠ 400 := by decide
  have h500 : 500 ≠ 400 := by decide
  unfold Php.conclude
  dsimp only
  split
  · exact h500
  · split
    · exact h200
    · exact h500

/-- No claim of a vault is answered with 400. -/
theorem php_conclude_ne_400 (codeHash machine : Str) :
    (Php.conclude h machine
      (Php.vaultClaim h (v.entries.map fun _ e => Php.decode e) codeHash machine now)).status ≠ 400 := by
  have h404 : 404 ≠ 400 := by decide
  have h410 : 410 ≠ 400 := by decide
  cases he : v.entries[codeHash]? with
  | none =>
    rw [php_vaultClaim_none he]
    exact h404
  | some e =>
    rw [php_vaultClaim_some he]
    cases e.status with
    | revoked => exact h410
    | claimed =>
      dsimp only
      split
      · exact php_conclude_ok_ne_400 machine _
      · exact h410
    | unclaimed => exact php_conclude_ok_ne_400 machine _

end

end Ccos.License
