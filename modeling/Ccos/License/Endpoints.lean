import Ccos.License.Agreement

/-!
# The two endpoints

Refusals are alike. A grant is alike when the vault file still says what the vault says, and the signed
bytes are the same.
-/

open Std

namespace Ccos.License

section

variable {fromJson : Str → Option ClaimRequest} {checked : Bool} {h : Php.Host} {v : Vault} {q : Request}
  {r : ClaimRequest} {now : Nat}

/-! ## Refusals -/

theorem Delivered.asked (hdel : Delivered fromJson q r) (hwell : wellFormed r = true) :
    asked fromJson q = some r :=
  asked_eq_some.mpr ⟨⟨hdel.method, hdel.path, hdel.allowed⟩, hdel.body, hwell⟩

theorem Delivered.malformed (hdel : Delivered fromJson q r) (hwell : wellFormed r = false) (c : Counter) :
    c.handle fromJson checked q = some (refuse 400 "malformed claim request", c) := by
  have hget : ¬ (q.method = "GET".toList ∧ q.path = "/healthz".toList) := by
    rw [hdel.method]
    exact fun hroute => absurd hroute.1 (by decide)
  unfold Counter.handle Counter.handleClaim
  rw [if_neg hget, if_pos ⟨hdel.method, hdel.path⟩]
  simp only [hdel.allowed, hdel.body, hwell, Bool.not_true, Bool.not_false, Bool.false_eq_true, if_false, if_true]

theorem agree_of_refusals {status : Nat} (hne : status ≠ 200) (rust php : String) (saved : Option Vault) :
    Agree v (some (refuse status rust, ⟨v, saved⟩)) (Php.fail status php) :=
  ⟨_, _, rfl, rfl, fun _ => rfl, fun h200 => absurd h200 hne⟩

/-- A save that succeeds leaves no reason to answer 500. -/
theorem Counter.conclude_ne_500 {c c' : Counter} {a : Answer} {result : Except Refusal (Str × Option UInt64) × Vault}
    (hsaves : q.saves = true) (hresult : c.conclude q r result = (a, c')) : a.status ≠ 500 := by
  have h200 : 200 ≠ 500 := by decide
  have h404 : 404 ≠ 500 := by decide
  have h410 : 410 ≠ 500 := by decide
  obtain ⟨outcome, vault⟩ := result
  cases outcome with
  | ok grant =>
    rw [Counter.conclude, hsaves, if_pos rfl] at hresult
    obtain ⟨rfl, rfl⟩ := Prod.mk.inj hresult
    exact h200
  | error refusal =>
    cases refusal with
    | unknownCode =>
      obtain ⟨rfl, rfl⟩ := Prod.mk.inj hresult
      exact h404
    | seatTaken =>
      obtain ⟨rfl, rfl⟩ := Prod.mk.inj hresult
      exact h410
    | revoked =>
      obtain ⟨rfl, rfl⟩ := Prod.mk.inj hresult
      exact h410

theorem not_agree_of_status {a : Answer} {c : Counter} {php : Php.Reply} (hne : a.status ≠ php.status) :
    ¬ Agree v (some (a, c)) php := by
  rintro ⟨a', c', heq, hstatus, -⟩
  obtain ⟨rfl, rfl⟩ := Prod.mk.inj (Option.some.inj heq)
  exact hne hstatus

/-! ## Grants -/

theorem php_signedPayload_numberOf (licensee machine : Str) (exp : Option UInt64) :
    Php.signedPayload licensee (exp.map Php.numberOf) machine =
      if SmallOption exp then some (payloadJson Php.escapeJson licensee (exp.map UInt64.toNat) (some machine))
      else none := by
  cases exp with
  | none =>
    rw [if_pos smallOption_none]
    rfl
  | some x =>
    rw [Option.map_some, Php.numberOf, Php.Number.ofNat]
    by_cases hx : x.toNat < 2 ^ 63
    · rw [if_pos hx, if_pos ((smallOption_some x).mpr hx)]
      rfl
    · rw [if_neg hx, if_neg fun hsmall => hx ((smallOption_some x).mp hsmall)]
      rfl

/-- A grant of both counters, compared. -/
theorem agree_granted_iff {licensee machine : Str} {exp : Option UInt64} {w : Vault}
    {records : BTreeMap Str Php.Record} (hsaves : h.saves = true) (hmachine : isSha256Hex machine = true) :
    Agree v (some (⟨200, .token ⟨licensee, exp, some machine⟩⟩, ⟨w, some w⟩))
        (Php.conclude h machine (.ok ⟨licensee, exp.map Php.numberOf, records⟩)) ↔
      SmallOption exp ∧ Leaves v (some records) w.entries ∧ NoSeparators licensee := by
  have hconclude : Php.conclude h machine (.ok ⟨licensee, exp.map Php.numberOf, records⟩) =
      if SmallOption exp then
        ⟨200, .token (payloadJson Php.escapeJson licensee (exp.map UInt64.toNat) (some machine)), some records⟩
      else ⟨500, .crash, some records⟩ := by
    unfold Php.conclude
    dsimp only
    rw [hsaves, php_signedPayload_numberOf]
    by_cases hsmall : SmallOption exp
    · rw [if_pos hsmall, if_pos hsmall]
      rfl
    · rw [if_neg hsmall, if_neg hsmall]
      rfl
  rw [hconclude]
  by_cases hsmall : SmallOption exp
  swap
  · rw [if_neg hsmall]
    exact iff_of_false (not_agree_of_status (show 200 ≠ 500 by decide)) fun hall => hsmall hall.1
  rw [if_pos hsmall, and_iff_right hsmall, ← payload_eq_iff hmachine (exp.map UInt64.toNat)]
  constructor
  · rintro ⟨a, c, heq, -, hleaves, htokens⟩
    obtain ⟨rfl, rfl⟩ := Prod.mk.inj (Option.some.inj heq)
    obtain ⟨p, text, hp, htext, hbytes⟩ := htokens rfl
    obtain rfl := Body.token.inj hp
    obtain rfl := Php.ReplyBody.token.inj htext
    exact ⟨hleaves, utf8_injective hbytes⟩
  · rintro ⟨hleaves, hpayload⟩
    exact ⟨_, _, rfl, rfl, hleaves, fun _ => ⟨_, _, rfl, rfl, congrArg utf8 hpayload⟩⟩

theorem leaves_decoded_iff :
    Leaves v (some (v.entries.map fun _ e => Php.decode e)) v.entries ↔
      ∀ (code : Str) (e : Entry), v.entries[code]? = some e → e.Representable := by
  unfold Leaves
  refine forall_congr' fun code => ?_
  rw [ExtTreeMap.getElem?_map]
  cases v.entries[code]? with
  | none => simp
  | some e => simp [readBack_decode]

/-- The rewriting keeps every other entry as its decoding reads back. -/
theorem leaves_insert_iff {code : Str} {record : Php.Record} {entry : Entry} :
    Leaves v (some ((v.entries.map fun _ e => Php.decode e).insert code record)) (v.entries.insert code entry) ↔
      Php.readBack record = some entry ∧
        ∀ (k : Str) (other : Entry), k ≠ code → v.entries[k]? = some other → other.Representable := by
  unfold Leaves
  dsimp only
  constructor
  · intro hleaves
    constructor
    · have hself := hleaves code
      rw [ExtTreeMap.getElem?_insert_self, ExtTreeMap.getElem?_insert_self, Option.map_some, Option.map_some] at hself
      exact Option.some.inj hself
    · intro k other hk hother
      have hkept := hleaves k
      have hcompare : ¬ compare code k = .eq := fun heq => hk (LawfulEqOrd.eq_of_compare heq).symm
      rw [ExtTreeMap.getElem?_insert, ExtTreeMap.getElem?_insert, if_neg hcompare, if_neg hcompare,
        ExtTreeMap.getElem?_map, hother] at hkept
      exact readBack_decode.mp (Option.some.inj hkept)
  · rintro ⟨hself, hothers⟩ k
    rw [ExtTreeMap.getElem?_insert, ExtTreeMap.getElem?_insert]
    by_cases hcompare : compare code k = .eq
    · rw [if_pos hcompare, if_pos hcompare, Option.map_some, Option.map_some, hself]
    · have hk : k ≠ code := by
        rintro rfl
        exact hcompare ReflOrd.compare_self
      rw [if_neg hcompare, if_neg hcompare, ExtTreeMap.getElem?_map]
      cases hother : v.entries[k]? with
      | none => rfl
      | some other =>
        rw [Option.map_some, Option.map_some, Option.map_some, readBack_decode.mpr (hothers k other hk hother)]

/-! ## First claims -/

theorem php_expiry_eq {t d : UInt64} (hfits : expirySeconds t d < 2 ^ 63) :
    h.expiry t.toNat (Php.numberOf d) = Php.numberOf (t + d * 86400) := by
  have hd : d.toNat < 2 ^ 63 := by
    unfold expirySeconds at hfits
    omega
  unfold Php.numberOf
  rw [toNat_add_mul, Nat.mod_eq_of_lt (by omega), Php.Number.ofNat, if_pos hd]
  rfl

/-- What the Rust counter computes, and that the PHP counter computes it too. -/
theorem expiry_alike {e : Entry} {t : UInt64} (checked : Bool) (h : Php.Host)
    (hfits : ∀ d, e.days = some d → expirySeconds t d < 2 ^ 63) :
    ∃ exp, e.expiry checked t = some exp ∧ SmallOption exp ∧ (exp = none ↔ e.days = none) ∧
      (e.days.map fun d => h.expiry t.toNat (Php.numberOf d)) = exp.map Php.numberOf := by
  have hfits' : Fits t e.days := fun d hd => (hfits d hd).trans (by decide)
  obtain ⟨exp, hexp, hexact⟩ := e.expiry_of_fits checked hfits'
  refine ⟨exp, hexp, ?_⟩
  cases hd : e.days with
  | none =>
    rw [ExactExpiry, hd, Option.map_none, Option.map_eq_none_iff] at hexact
    subst hexact
    exact ⟨smallOption_none, by simp, rfl⟩
  | some d =>
    have hlt := hfits d hd
    rw [ExactExpiry, hd, Option.map_some] at hexact
    obtain ⟨x, rfl, hx⟩ := Option.map_eq_some_iff.mp hexact
    refine ⟨?_, by simp, ?_⟩
    · rw [smallOption_some, hx]
      exact hlt
    · rw [Option.map_some, Option.map_some, php_expiry_eq hlt]
      refine congrArg (fun n => some (Php.numberOf n)) (UInt64.toNat_inj.mp ?_)
      rw [toNat_add_mul, hx, Nat.mod_eq_of_lt (hlt.trans (by decide))]

theorem readBack_claimedRecord {e : Entry} {machine : Str} {t : UInt64} {exp : Option UInt64} (ht : Small t)
    (hdays : SmallOption e.days) (hsmall : SmallOption exp) (hnone : exp = none ↔ e.days = none)
    (hexp : (e.days.map fun d => h.expiry t.toNat (Php.numberOf d)) = exp.map Php.numberOf) :
    Php.readBack (Php.claimedRecord h e machine t.toNat) = some (e.claimedBy machine t exp) ↔
      Small e.createdUnix ∧ (e.days = none → e.expUnix = none) := by
  have hclaimed : Php.readNumber (some (.int t.toNat)) = some (some t) := by
    have hread := (readNumber_numberOf (some t)).mpr ((smallOption_some t).mpr ht)
    rwa [Option.map_some, Php.numberOf, Php.Number.ofNat, if_pos (show t.toNat < 2 ^ 63 from ht)] at hread
  rw [readBack_eq_some]
  unfold Php.claimedRecord Entry.claimedBy
  dsimp only
  rw [hexp, hclaimed]
  have hstatus : Php.statusOf "claimed".toList = some .claimed := by decide
  have hdecoded : Php.readNumber (Php.decode e).days = some e.days := (readNumber_numberOf e.days).mpr hdays
  have hcreated : (Php.decode e).createdUnix.toU64 = some e.createdUnix ↔ Small e.createdUnix :=
    toU64_numberOf e.createdUnix
  rw [hstatus, hdecoded, hcreated, and_iff_right rfl, and_iff_right rfl, and_iff_right rfl]
  refine and_congr_right fun _ => ?_
  have hlabels : (Php.decode e).licensee = e.licensee ∧ (Php.decode e).label = e.label ∧ some machine = some machine :=
    ⟨rfl, rfl, rfl⟩
  rw [and_iff_left hlabels]
  cases exp with
  | some x =>
    have hread := (readNumber_numberOf (some x)).mpr hsmall
    exact iff_of_true hread fun hd => absurd (hnone.mpr hd) nofun
  | none =>
    rw [← hnone, Option.map_none, imp_iff_right rfl]
    change Php.readNumber (e.expUnix.map Php.numberOf) = some none ↔ _
    cases e.expUnix with
    | none => exact iff_of_true rfl rfl
    | some x =>
      refine iff_of_false (fun hread => ?_) nofun
      rw [Option.map_some, Php.readNumber] at hread
      obtain ⟨y, -, hy⟩ := Option.map_eq_some_iff.mp hread
      cases hy

/-! ## Whole requests -/

/-- The expiry of a first claim fits in 63 bits. -/
def FirstExpirySmall (v : Vault) (q : Request) (r : ClaimRequest) : Prop :=
  ∀ e, v.entries[r.codeHash]? = some e → e.status = .unclaimed → ∀ d, e.days = some d → expirySeconds q.now d < 2 ^ 63

theorem alike_of_refused (h : ¬ (Php.isSha256Hex r.codeHash = true ∧ Php.isSha256Hex r.machine = true)) :
    Alike v r := fun _ hcode hmachine => absurd ⟨hcode, hmachine⟩ h

/-- With clean hashes and the schema tag it is the entry that decides. -/
theorem alike_iff (hschema : r.schema = claimSchema) (hcode : isSha256Hex r.codeHash = true)
    (hmachine : isSha256Hex r.machine = true) (hvault : v.schema = vaultSchema) :
    Alike v r ↔ ∀ e, v.entries[r.codeHash]? = some e → e.Grantable r.machine → e.GrantsAlike r.machine ∧
      ∀ (code : Str) (other : Entry), code ≠ r.codeHash → v.entries[code]? = some other → other.Representable := by
  constructor
  · exact fun halike =>
      (halike hschema (php_isSha256Hex_of_hex hcode) (php_isSha256Hex_of_hex hmachine)).2.2.2
  · exact fun hentries _ _ _ => ⟨hcode, hmachine, hvault, hentries⟩

/-- Claims of a vault that reach both vaults. -/
theorem claims_agree_iff {c : Counter} (hdel : Delivered fromJson q r) (hready : h.Ready q.now.toNat)
    (hnow : Small q.now) (hfits : FirstExpirySmall c.vault q r) (hschema : r.schema = claimSchema)
    (hcode : isSha256Hex r.codeHash = true) (hmachine : isSha256Hex r.machine = true)
    (hvault : c.vault.schema = vaultSchema) :
    Agree c.vault (c.handle fromJson checked q) (Php.handle h c.vault r q.now.toNat) ↔ Alike c.vault r := by
  have hasked := hdel.asked (wellFormed_iff.mpr ⟨hschema, hcode, hmachine⟩)
  rw [alike_iff hschema hcode hmachine hvault, Counter.handle_of_asked c hasked,
    php_handle_of_hashes hready hschema (php_isSha256Hex_of_hex hcode) (php_isSha256Hex_of_hex hmachine),
    if_neg (not_not_intro hvault)]
  unfold Vault.claim
  cases he : c.vault.entries[r.codeHash]? with
  | none =>
    rw [php_vaultClaim_none he]
    exact iff_of_true (agree_of_refusals (by decide) _ _ _) nofun
  | some e =>
    rw [php_vaultClaim_some he]
    dsimp only
    cases hs : e.status with
    | revoked =>
      refine iff_of_true (agree_of_refusals (by decide) _ _ _) ?_
      rintro e' ⟨⟩ (hu | ⟨hc, -⟩)
      · rw [hs] at hu
        cases hu
      · rw [hs] at hc
        cases hc
    | claimed =>
      dsimp only
      by_cases hm : e.machine = some r.machine
      swap
      · rw [if_neg hm, if_neg hm]
        refine iff_of_true (agree_of_refusals (by decide) _ _ _) ?_
        rintro e' ⟨⟩ (hu | ⟨-, hm'⟩)
        · rw [hs] at hu
          cases hu
        · exact absurd hm' hm
      rw [if_pos hm, if_pos hm, Option.map_some, Counter.conclude, hdel.saves, if_pos rfl,
        agree_granted_iff hready.saves hmachine, leaves_decoded_iff]
      constructor
      · rintro ⟨-, hall, hclean⟩ e' ⟨⟩ -
        refine ⟨⟨fun _ _ => ⟨hall _ _ he, hclean⟩, fun hu => ?_⟩, fun code other _ => hall code other⟩
        rw [hs] at hu
        cases hu
      · intro hentries
        obtain ⟨⟨hgrant, -⟩, hothers⟩ := hentries e rfl (.inr ⟨hs, hm⟩)
        obtain ⟨hrepr, hclean⟩ := hgrant hs hm
        refine ⟨hrepr.expUnix, fun code other hother => ?_, hclean⟩
        by_cases hk : code = r.codeHash
        · subst hk
          exact Option.some.inj (he.symm.trans hother) ▸ hrepr
        · exact hothers code other hk hother
    | unclaimed =>
      have hfits' := hfits e he hs
      obtain ⟨exp, hexp, hsmall, hnone, hphp⟩ := expiry_alike checked h hfits'
      have hdays : SmallOption e.days := by
        intro d hd
        have hlt := hfits' d hd
        unfold expirySeconds at hlt
        exact show d.toNat < 2 ^ 63 by omega
      dsimp only
      rw [hexp, Option.map_some, Option.map_some, Counter.conclude, hdel.saves, if_pos rfl, hphp,
        agree_granted_iff hready.saves hmachine, leaves_insert_iff,
        readBack_claimedRecord hnow hdays hsmall hnone hphp, and_iff_right hsmall]
      constructor
      · rintro ⟨⟨⟨hcreated, hexpUnix⟩, hothers⟩, hclean⟩ e' ⟨⟩ -
        refine ⟨⟨fun hc => ?_, fun _ => ⟨hcreated, hclean, hexpUnix⟩⟩, hothers⟩
        rw [hs] at hc
        cases hc
      · intro hentries
        obtain ⟨⟨-, hgrant⟩, hothers⟩ := hentries e rfl (.inl hs)
        obtain ⟨hcreated, hclean, hexpUnix⟩ := hgrant hs
        exact ⟨⟨⟨hcreated, hexpUnix⟩, hothers⟩, hclean⟩

theorem endpoints_agree {c : Counter} (hdel : Delivered fromJson q r) (hready : h.Ready q.now.toNat)
    (hnow : Small q.now) (hfits : FirstExpirySmall c.vault q r) :
    Agree c.vault (c.handle fromJson checked q) (Php.handle h c.vault r q.now.toNat) ↔ Alike c.vault r := by
  by_cases hschema : r.schema = claimSchema
  swap
  · have hwell : wellFormed r = false := by
      rw [← Bool.not_eq_true, wellFormed_iff]
      exact fun hall => hschema hall.1
    rw [hdel.malformed hwell, php_handle_of_bad_schema hschema]
    exact iff_of_true (agree_of_refusals (by decide) _ _ _) fun hs => absurd hs hschema
  by_cases hhashes : Php.isSha256Hex r.codeHash = true ∧ Php.isSha256Hex r.machine = true
  swap
  · have hwell : wellFormed r = false := by
      rw [← Bool.not_eq_true, wellFormed_iff]
      exact fun hall => hhashes ⟨php_isSha256Hex_of_hex hall.2.1, php_isSha256Hex_of_hex hall.2.2⟩
    rw [hdel.malformed hwell, php_handle_of_bad_hash hschema hhashes]
    exact iff_of_true (agree_of_refusals (by decide) _ _ _) (alike_of_refused hhashes)
  obtain ⟨hcode, hmachine⟩ := hhashes
  by_cases hclean : isSha256Hex r.codeHash = true ∧ isSha256Hex r.machine = true
  swap
  · -- a newline behind a hash: refused by one counter, looked up by the other
    have hwell : wellFormed r = false := by
      rw [← Bool.not_eq_true, wellFormed_iff]
      exact fun hall => hclean hall.2
    rw [hdel.malformed hwell, php_handle_of_hashes hready hschema hcode hmachine]
    refine iff_of_false (not_agree_of_status fun hstatus => ?_)
      fun halike => hclean ⟨(halike hschema hcode hmachine).1, (halike hschema hcode hmachine).2.1⟩
    split at hstatus
    · exact absurd hstatus (show (400 : Nat) ≠ 500 by decide)
    · exact php_conclude_ne_400 r.codeHash r.machine hstatus.symm
  by_cases hvault : c.vault.schema = vaultSchema
  · exact claims_agree_iff hdel hready hnow hfits hschema hclean.1 hclean.2 hvault
  refine iff_of_false ?_ fun halike => hvault (halike hschema hcode hmachine).2.2.1
  rw [php_handle_of_hashes hready hschema hcode hmachine, if_pos hvault]
  rintro ⟨a, c', hhandle, hstatus, -⟩
  have hasked := hdel.asked (wellFormed_iff.mpr ⟨hschema, hclean.1, hclean.2⟩)
  rw [Counter.handle_of_asked c hasked] at hhandle
  obtain ⟨result, -, hresult⟩ := Option.map_eq_some_iff.mp hhandle
  exact Counter.conclude_ne_500 hdel.saves hresult hstatus

end

/-- The counters answer alike exactly on the requests and vaults of the condition, and they read alike exactly
the texts that do not only look like a code. -/
theorem counters_agree_iff (fromJson : Str → Option ClaimRequest) (checked : Bool) {h : Php.Host} {c : Counter}
    {q : Request} {r : ClaimRequest} (hdel : Delivered fromJson q r) (hready : h.Ready q.now.toNat)
    (hnow : Small q.now) (hfits : FirstExpirySmall c.vault q r) (s : Str) :
    (Agree c.vault (c.handle fromJson checked q) (Php.handle h c.vault r q.now.toNat) ↔ Alike c.vault r) ∧
      (SameCode s ↔ ¬ LooksLikeCode s) :=
  ⟨endpoints_agree hdel hready hnow hfits, sameCode_iff s⟩

/-! ## A sale -/

def saleEntry : Entry where
  licensee := "Acme".toList
  label := none
  days := some 365
  status := .unclaimed
  createdUnix := 0
  claimedUnix := none
  expUnix := none
  machine := none

def saleCounter : Counter := ⟨⟨vaultSchema, (∅ : BTreeMap Str Entry).insert someHash saleEntry⟩, none⟩

def hosting : Php.Host where
  seed := someHash
  locks := true
  rate := none
  saves := true
  castFloat := id

theorem hosting_ready : hosting.Ready firstClaim.now.toNat := ⟨by decide, rfl, by decide, rfl⟩

theorem saleCounter_entry {code : Str} {e : Entry} (he : saleCounter.vault.entries[code]? = some e) :
    e = saleEntry := by
  unfold saleCounter at he
  rw [ExtTreeMap.getElem?_insert] at he
  split at he
  · exact (Option.some.inj he).symm
  · simp at he

theorem sale_expiry_small (r : ClaimRequest) : FirstExpirySmall saleCounter.vault firstClaim r := by
  intro e he _ d hd
  obtain rfl := saleCounter_entry he
  obtain rfl : (365 : UInt64) = d := Option.some.inj hd
  decide

theorem saleEntry_representable : saleEntry.Representable :=
  ⟨(smallOption_some 365).mpr (by decide), show (0 : UInt64).toNat < _ by decide, nofun, nofun⟩

theorem noSeparators_acme : NoSeparators saleEntry.licensee := noSeparators_of_ascii (by decide)

theorem counters_agree_on_a_sale :
    Agree saleCounter.vault (saleCounter.handle readsClaim true firstClaim)
      (Php.handle hosting saleCounter.vault ⟨claimSchema, someHash, someHash⟩ firstClaim.now.toNat) ∧
    SameCode "ccos-j9vkd mm9js-65g2h_ymb96".toList := by
  have hagree := counters_agree_iff readsClaim true ⟨rfl, rfl, rfl, rfl, rfl⟩ hosting_ready
    (show (1 : UInt64).toNat < _ by decide) (sale_expiry_small ⟨claimSchema, someHash, someHash⟩)
    "ccos-j9vkd mm9js-65g2h_ymb96".toList
  refine ⟨hagree.1.mpr fun _ _ _ => ⟨by decide, by decide, rfl, ?_⟩,
    hagree.2.mpr fun hlooks => hlooks.1 (by decide)⟩
  intro e he _
  obtain rfl := saleCounter_entry he
  refine ⟨⟨fun _ _ => ⟨saleEntry_representable, noSeparators_acme⟩, fun _ => ⟨saleEntry_representable.createdUnix,
    noSeparators_acme, nofun⟩⟩, fun code other _ hother => ?_⟩
  obtain rfl := saleCounter_entry hother
  exact saleEntry_representable

/-! ## Where they part -/

def newlineRequest : ClaimRequest := ⟨claimSchema, someHash, someHash ++ ['\n']⟩

/-- Four groups of five bytes, each with a letter whose low byte is a zero. -/
def lookalike : Str := "İ000İ000İ000İ000".toList

/-- A newline behind the machine is claimed by one counter only, and a look-alike is a code to one reader only. -/
theorem counters_part :
    ¬ Agree saleCounter.vault (saleCounter.handle (fun _ => some newlineRequest) true firstClaim)
      (Php.handle hosting saleCounter.vault newlineRequest firstClaim.now.toNat) ∧
    ¬ SameCode lookalike := by
  constructor
  · intro hagree
    have hdel : Delivered (fun _ => some newlineRequest) firstClaim newlineRequest := ⟨rfl, rfl, rfl, rfl, rfl⟩
    have halike := (endpoints_agree hdel hosting_ready (show (1 : UInt64).toNat < _ by decide)
      (sale_expiry_small newlineRequest)).mp hagree
    have hmachine := (halike rfl (by decide) (by decide)).2.1
    exact absurd hmachine (by decide)
  · intro hsame
    have hlooks : LooksLikeCode lookalike := ⟨by decide, by decide, by decide⟩
    exact (sameCode_iff lookalike).mp hsame hlooks

end Ccos.License
