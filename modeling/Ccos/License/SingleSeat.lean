import Ccos.License.Counter

/-!
# One seat for each code

Over any run of the counter the tokens of a code agree, and the vault on disk has recorded the claim.
What can go wrong is the expiry: it is right exactly when it fits the counter's integers.
-/

open Std

namespace Ccos.License

structure Exchange where
  before : Counter
  request : Request
  answer : Answer
  after : Counter

structure Session where
  counter : Counter
  log : List Exchange

section

variable (fromJson : Str → Option ClaimRequest) (checked : Bool)

def Session.step (s : Session) (q : Request) : Option Session :=
  (s.counter.handle fromJson checked q).map fun (answer, after) =>
    ⟨after, s.log ++ [⟨s.counter, q, answer, after⟩]⟩

/-- `none` once a request has panicked. -/
def serve (s : Option Session) (q : Request) : Option Session := s.bind fun s => s.step fromJson checked q

def Session.start (c : Counter) : Option Session := some ⟨c, []⟩

/-- The exchange hands out a token for the code. -/
def Exchange.Grants (x : Exchange) (code : Str) (p : TokenPayload) : Prop :=
  x.answer.body = .token p ∧ (fromJson x.request.body).map ClaimRequest.codeHash = some code

def Exchange.grantedCode (x : Exchange) : Option Str :=
  match x.answer.body with
  | .token _ => (fromJson x.request.body).map ClaimRequest.codeHash
  | _ => none

/-- When the first token for the code was handed out. -/
def firstGrant (log : List Exchange) (code : Str) : Option UInt64 :=
  (log.find? fun x => x.grantedCode fromJson = some code).map fun x => x.request.now

/-- The time of the first claim: before the run for a code that was claimed then. -/
def claimTime (start : Vault) (log : List Exchange) (code : Str) : Option UInt64 :=
  match start.entries[code]? with
  | some e => if e.status = .claimed then e.claimedUnix else firstGrant fromJson log code
  | none => firstGrant fromJson log code

/-- What a log of exchanges promises about the codes of the vault it started from. -/
structure SingleSeat (start : Vault) (log : List Exchange) : Prop where
  oneSeat : ∀ x ∈ log, ∀ y ∈ log, ∀ code p q, x.Grants fromJson code p → y.Grants fromJson code q →
    p.machine = q.machine ∧ p.exp = q.exp
  expiry : ∀ x ∈ log, ∀ code p, x.Grants fromJson code p → ∃ e first, start.entries[code]? = some e ∧
    claimTime fromJson start log code = some first ∧ ExactExpiry first e.days p.exp
  recorded : ∀ x ∈ log, ∀ code p, x.Grants fromJson code p → ∃ v e, x.after.saved = some v ∧
    v.entries[code]? = some e ∧ e.status = .claimed ∧ e.machine = p.machine ∧ e.expUnix = p.exp
  revoked : ∀ x ∈ log, ∀ code p, x.Grants fromJson code p → ∀ e, x.before.vault.entries[code]? = some e →
    e.status ≠ .revoked
  refused : ∀ x ∈ log, x.answer.status ≠ 200 → x.after.vault = x.before.vault

/-- No request has panicked, and the log keeps its promises. -/
def Holds (start : Vault) (s : Option Session) : Prop := ∃ t, s = some t ∧ SingleSeat fromJson start t.log

/-- The entry records the expiry that follows from its claim. -/
def Entry.Settled (e : Entry) : Prop := ∃ first, e.claimedUnix = some first ∧ ExactExpiry first e.days e.expUnix

/-- A claim of the request fits: a first claim in its expiry, a repeated one in what the vault has stored.
When the save fails, only a checked build can tell. -/
def Permits (v : Vault) (q : Request) : Prop :=
  ∀ r e, asked fromJson q = some r → v.entries[r.codeHash]? = some e →
    (e.status = .unclaimed → checked = true ∨ q.saves = true → Fits q.now e.days) ∧
    (e.status = .claimed → e.machine = some r.machine → q.saves = true → e.Settled)

def Allows (s : Option Session) (q : Request) : Prop :=
  ∀ t, s = some t → Permits fromJson checked t.counter.vault q

/-- An entry of the vault, against the vault at the start and the log since. -/
structure Tracked (start : Vault) (log : List Exchange) (code : Str) (e : Entry) : Prop where
  origin : ∃ e₀, start.entries[code]? = some e₀ ∧ e.days = e₀.days ∧ (e.status ≠ .claimed → e = e₀)
  time : e.status = .claimed → e.claimedUnix = claimTime fromJson start log code ∧
    ((∃ e₀, start.entries[code]? = some e₀ ∧ e₀.status = .claimed) ∨ (firstGrant fromJson log code).isSome)
  granted : ∀ x ∈ log, ∀ p, x.Grants fromJson code p →
    e.status = .claimed ∧ p.machine = e.machine ∧ p.exp = e.expUnix

/-- What is promised of an exchange by itself. -/
structure Exchange.Sound (x : Exchange) : Prop where
  recorded : ∀ code p, x.Grants fromJson code p → ∃ v e, x.after.saved = some v ∧
    v.entries[code]? = some e ∧ e.status = .claimed ∧ e.machine = p.machine ∧ e.expUnix = p.exp
  revoked : ∀ code p, x.Grants fromJson code p → ∀ e, x.before.vault.entries[code]? = some e →
    e.status ≠ .revoked
  refused : x.answer.status ≠ 200 → x.after.vault = x.before.vault

/-- The entries are tracked, a granted code has one, and each exchange is sound. -/
structure Tracks (start : Vault) (s : Session) : Prop where
  entries : ∀ code e, s.counter.vault.entries[code]? = some e →
    Tracked fromJson start s.log code e
  known : ∀ x ∈ s.log, ∀ code p, x.Grants fromJson code p → ∃ e, s.counter.vault.entries[code]? = some e
  sound : ∀ x ∈ s.log, x.Sound fromJson

/-- The granted codes are settled. -/
def Settles (s : Session) : Prop :=
  ∀ code e, s.counter.vault.entries[code]? = some e → (∃ x ∈ s.log, ∃ p, x.Grants fromJson code p) → e.Settled

end

variable {fromJson : Str → Option ClaimRequest} {checked : Bool}

/-! ## Grants in a log that grows -/

theorem Exchange.grantedCode_eq_some {x : Exchange} {code : Str} :
    x.grantedCode fromJson = some code ↔ ∃ p, x.Grants fromJson code p := by
  unfold Exchange.grantedCode Exchange.Grants
  cases hbody : x.answer.body with
  | token p => simp
  | health => simp
  | error message => simp

theorem firstGrant_snoc (log : List Exchange) (x : Exchange) (code : Str) :
    firstGrant fromJson (log ++ [x]) code =
      (firstGrant fromJson log code).or
        (if x.grantedCode fromJson = some code then some x.request.now else none) := by
  unfold firstGrant
  rw [List.find?_append, List.find?_singleton]
  cases log.find? fun x => x.grantedCode fromJson = some code with
  | some y => rfl
  | none =>
    rw [Option.none_or, Option.map_none, Option.none_or]
    by_cases hx : x.grantedCode fromJson = some code
    · simp [hx]
    · simp [hx]

theorem firstGrant_eq_none {log : List Exchange} {code : Str}
    (h : ∀ x ∈ log, ∀ p, ¬ x.Grants fromJson code p) : firstGrant fromJson log code = none := by
  unfold firstGrant
  rw [Option.map_eq_none_iff, List.find?_eq_none]
  intro x hx
  rw [decide_eq_true_eq, Exchange.grantedCode_eq_some]
  rintro ⟨p, hp⟩
  exact h x hx p hp

/-- A code that is claimed already, or that was granted already, keeps its time. -/
theorem claimTime_snoc_of_claimed {start : Vault} {log : List Exchange} {x : Exchange} {code : Str}
    (h : (∃ e, start.entries[code]? = some e ∧ e.status = .claimed) ∨ (firstGrant fromJson log code).isSome) :
    claimTime fromJson start (log ++ [x]) code = claimTime fromJson start log code := by
  unfold claimTime
  rcases h with ⟨e, he, hs⟩ | hfirst
  · simp only [he, hs, if_true]
  · obtain ⟨first, hfirst⟩ := Option.isSome_iff_exists.mp hfirst
    rw [firstGrant_snoc, hfirst, Option.some_or]

theorem claimTime_snoc_of_other {start : Vault} {log : List Exchange} {x : Exchange} {code : Str}
    (h : ∀ p, ¬ x.Grants fromJson code p) :
    claimTime fromJson start (log ++ [x]) code = claimTime fromJson start log code := by
  have hx : x.grantedCode fromJson ≠ some code := fun heq =>
    (Exchange.grantedCode_eq_some.mp heq).elim h
  unfold claimTime
  rw [firstGrant_snoc, if_neg hx, Option.or_none]

/-! ## What any run keeps -/

theorem grants_iff {c c' : Counter} {q : Request} {r : ClaimRequest} {p p' : TokenPayload} {code : Str}
    (h : asked fromJson q = some r) :
    (⟨c, q, ⟨200, .token p⟩, c'⟩ : Exchange).Grants fromJson code p' ↔ code = r.codeHash ∧ p' = p := by
  unfold Exchange.Grants
  rw [(asked_eq_some.mp h).2.1]
  simp only [Body.token.injEq, Option.map_some, Option.some.injEq]
  constructor
  · rintro ⟨rfl, rfl⟩
    exact ⟨rfl, rfl⟩
  · rintro ⟨rfl, rfl⟩
    exact ⟨rfl, rfl⟩

theorem Tracked.snoc_other {start : Vault} {log : List Exchange} {code : Str} {e : Entry} {x : Exchange}
    (h : Tracked fromJson start log code e) (hx : ∀ p, ¬ x.Grants fromJson code p) :
    Tracked fromJson start (log ++ [x]) code e := by
  refine ⟨h.origin, fun hs => ?_, fun y hy p hp => ?_⟩
  · obtain ⟨htime, hsince⟩ := h.time hs
    rw [claimTime_snoc_of_other hx]
    refine ⟨htime, hsince.imp_right fun hfirst => ?_⟩
    obtain ⟨first, hfirst⟩ := Option.isSome_iff_exists.mp hfirst
    rw [firstGrant_snoc, hfirst, Option.some_or]
    rfl
  · rcases List.mem_append.mp hy with hy | hy
    · exact h.granted y hy p hp
    · obtain rfl := List.mem_singleton.mp hy
      exact absurd hp (hx p)

/-- A repeated claim hands out what the entry has stored. -/
theorem Tracked.snoc_repeated {start : Vault} {log : List Exchange} {code : Str} {e : Entry} {x : Exchange}
    (h : Tracked fromJson start log code e) (hs : e.status = .claimed)
    (hx : ∀ p, x.Grants fromJson code p → p.machine = e.machine ∧ p.exp = e.expUnix) :
    Tracked fromJson start (log ++ [x]) code e := by
  obtain ⟨htime, hsince⟩ := h.time hs
  refine ⟨h.origin, fun _ => ?_, fun y hy p hp => ?_⟩
  · rw [claimTime_snoc_of_claimed hsince]
    refine ⟨htime, hsince.imp_right fun hfirst => ?_⟩
    obtain ⟨first, hfirst⟩ := Option.isSome_iff_exists.mp hfirst
    rw [firstGrant_snoc, hfirst, Option.some_or]
    rfl
  · rcases List.mem_append.mp hy with hy | hy
    · exact h.granted y hy p hp
    · obtain rfl := List.mem_singleton.mp hy
      exact ⟨hs, hx p hp⟩

theorem Tracked.not_granted {start : Vault} {log : List Exchange} {code : Str} {e : Entry}
    (h : Tracked fromJson start log code e) (hs : e.status = .unclaimed) :
    ∀ x ∈ log, ∀ p, ¬ x.Grants fromJson code p := by
  intro x hx p hp
  have hclaimed := (h.granted x hx p hp).1
  rw [hs] at hclaimed
  cases hclaimed

/-- At a first claim the clock of the request becomes the code's time. -/
theorem claimTime_snoc_first {start : Vault} {log : List Exchange} {code : Str} {e : Entry} {x : Exchange}
    (h : Tracked fromJson start log code e) (hs : e.status = .unclaimed)
    (hx : x.grantedCode fromJson = some code) :
    firstGrant fromJson (log ++ [x]) code = some x.request.now ∧
      claimTime fromJson start (log ++ [x]) code = some x.request.now := by
  have hfirst : firstGrant fromJson (log ++ [x]) code = some x.request.now := by
    rw [firstGrant_snoc, firstGrant_eq_none (h.not_granted hs), Option.none_or, if_pos hx]
  refine ⟨hfirst, ?_⟩
  obtain ⟨e₀, he₀, -, horigin⟩ := h.origin
  have hne : e.status ≠ .claimed := by
    rw [hs]
    exact Status.noConfusion
  have he : e₀.status ≠ .claimed := horigin hne ▸ hne
  unfold claimTime
  simp only [he₀, if_neg he, hfirst]

theorem Tracked.snoc_first {start : Vault} {log : List Exchange} {code machine : Str} {e : Entry} {x : Exchange}
    {exp : Option UInt64} (h : Tracked fromJson start log code e) (hs : e.status = .unclaimed)
    (hgrants : ∃ p, x.Grants fromJson code p)
    (hx : ∀ p, x.Grants fromJson code p → p.machine = some machine ∧ p.exp = exp) :
    Tracked fromJson start (log ++ [x]) code (e.claimedBy machine x.request.now exp) := by
  obtain ⟨hfirst, htime⟩ := claimTime_snoc_first h hs (Exchange.grantedCode_eq_some.mpr hgrants)
  obtain ⟨e₀, he₀, hdays, -⟩ := h.origin
  refine ⟨⟨e₀, he₀, hdays, fun hne => absurd rfl hne⟩, fun _ => ⟨htime.symm, .inr ?_⟩, fun y hy p hp => ?_⟩
  · rw [hfirst]
    rfl
  · rcases List.mem_append.mp hy with hy | hy
    · exact absurd hp (h.not_granted hs y hy p)
    · obtain rfl := List.mem_singleton.mp hy
      exact ⟨rfl, hx p hp⟩

/-- The exchange that a step appends. -/
theorem Session.step_cases {s t : Session} {q : Request} (h : s.step fromJson checked q = some t) :
    (∃ a, t = ⟨s.counter, s.log ++ [⟨s.counter, q, a, s.counter⟩]⟩ ∧ ∀ p, a.body ≠ .token p) ∨
    ∃ r p c', asked fromJson q = some r ∧ Granted checked s.counter q r p c' ∧
      t = ⟨c', s.log ++ [⟨s.counter, q, ⟨200, .token p⟩, c'⟩]⟩ := by
  unfold Session.step at h
  obtain ⟨⟨a, c'⟩, hhandle, rfl⟩ := Option.map_eq_some_iff.mp h
  rcases Counter.handle_cases hhandle with ⟨rfl, hnone⟩ | ⟨r, p, hasked, rfl, hgranted⟩
  · exact .inl ⟨a, rfl, hnone⟩
  · exact .inr ⟨r, p, c', hasked, hgranted, rfl⟩

/-- A granted claim leaves the entry as the token says. -/
theorem Granted.entry_after {c c' : Counter} {q : Request} {r : ClaimRequest} {p : TokenPayload}
    (h : Granted checked c q r p c') : ∃ e, c'.vault.entries[r.codeHash]? = some e ∧ e.status = .claimed ∧
      e.machine = p.machine ∧ e.expUnix = p.exp := by
  obtain ⟨e, he, ⟨hsame, hs, hm, hexp⟩ | ⟨hs, hexp, hnew⟩⟩ := h.entry
  · exact ⟨e, hsame ▸ he, hs, hm, hexp⟩
  · refine ⟨e.claimedBy r.machine q.now p.exp, ?_, rfl, h.machine.symm, rfl⟩
    rw [hnew]
    exact ExtTreeMap.getElem?_insert_self

theorem Granted.entry_other {c c' : Counter} {q : Request} {r : ClaimRequest} {p : TokenPayload}
    (h : Granted checked c q r p c') {code : Str} (hcode : code ≠ r.codeHash) :
    c'.vault.entries[code]? = c.vault.entries[code]? := by
  obtain ⟨e, -, ⟨hsame, -⟩ | ⟨-, -, hnew⟩⟩ := h.entry
  · rw [hsame]
  · rw [hnew]
    dsimp only
    rw [ExtTreeMap.getElem?_insert, if_neg]
    exact fun heq => hcode (LawfulEqOrd.eq_of_compare heq).symm

theorem Granted.sound {c c' : Counter} {q : Request} {r : ClaimRequest} {p : TokenPayload}
    (h : Granted checked c q r p c') (hasked : asked fromJson q = some r) :
    (⟨c, q, ⟨200, .token p⟩, c'⟩ : Exchange).Sound fromJson := by
  refine ⟨fun code p' hp => ?_, fun code p' hp e' he' => ?_, fun hstatus => absurd rfl hstatus⟩
  · obtain ⟨rfl, rfl⟩ := (grants_iff hasked).mp hp
    obtain ⟨e, he⟩ := h.entry_after
    exact ⟨c'.vault, e, h.saved, he⟩
  · obtain ⟨rfl, rfl⟩ := (grants_iff hasked).mp hp
    obtain ⟨e, he, hcases⟩ := h.entry
    obtain rfl : e = e' := Option.some.inj (he.symm.trans he')
    rcases hcases with ⟨-, hs, -⟩ | ⟨hs, -⟩
    · rw [hs]
      exact Status.noConfusion
    · rw [hs]
      exact Status.noConfusion

theorem Tracks.step {start : Vault} {s t : Session} {q : Request} (h : Tracks fromJson start s)
    (hstep : s.step fromJson checked q = some t) : Tracks fromJson start t := by
  rcases Session.step_cases hstep with ⟨a, rfl, hnone⟩ | ⟨r, p, c', hasked, hgranted, rfl⟩
  · -- No seat is granted: the vault stays, and the log grows by a refusal.
    have hx : ∀ code p, ¬ (⟨s.counter, q, a, s.counter⟩ : Exchange).Grants fromJson code p :=
      fun code p hp => hnone p hp.1
    refine ⟨fun code e he => (h.entries code e he).snoc_other (hx code), fun y hy code p hp => ?_, fun y hy => ?_⟩
    · rcases List.mem_append.mp hy with hy | hy
      · exact h.known y hy code p hp
      · obtain rfl := List.mem_singleton.mp hy
        exact absurd hp (hx code p)
    · rcases List.mem_append.mp hy with hy | hy
      · exact h.sound y hy
      · obtain rfl := List.mem_singleton.mp hy
        exact ⟨fun code p hp => absurd hp (hx code p), fun code p hp => absurd hp (hx code p), fun _ => rfl⟩
  · -- A seat of `r.codeHash` is granted: the entries of the other codes stay.
    have hgrants : ∀ code p', (⟨s.counter, q, ⟨200, .token p⟩, c'⟩ : Exchange).Grants fromJson code p' →
        code = r.codeHash ∧ p' = p := fun code p' => (grants_iff hasked).mp
    have hself : (⟨s.counter, q, ⟨200, .token p⟩, c'⟩ : Exchange).Grants fromJson r.codeHash p :=
      (grants_iff hasked).mpr ⟨rfl, rfl⟩
    obtain ⟨old, hold, hcases⟩ := hgranted.entry
    refine ⟨fun code e he => ?_, fun y hy code p' hp => ?_, fun y hy => ?_⟩
    · by_cases hcode : code = r.codeHash
      · subst hcode
        rcases hcases with ⟨hsame, hs, hm, hexp⟩ | ⟨hs, hexp, hnew⟩
        · rw [hsame] at he
          obtain rfl : old = e := Option.some.inj (hold.symm.trans he)
          refine (h.entries _ _ he).snoc_repeated hs fun p' hp => ?_
          obtain ⟨-, rfl⟩ := hgrants _ _ hp
          exact ⟨hm.symm, hexp.symm⟩
        · rw [hnew] at he
          obtain rfl := Option.some.inj (ExtTreeMap.getElem?_insert_self.symm.trans he)
          refine (h.entries _ _ hold).snoc_first hs ⟨p, hself⟩ fun p' hp => ?_
          obtain ⟨-, rfl⟩ := hgrants _ _ hp
          exact ⟨hgranted.machine, rfl⟩
      · have he' := (hgranted.entry_other hcode).symm.trans he
        exact (h.entries code e he').snoc_other fun p' hp => hcode (hgrants code p' hp).1
    · have hkept : ∀ code : Str, (∃ e, s.counter.vault.entries[code]? = some e) →
          ∃ e, c'.vault.entries[code]? = some e := by
        rintro code ⟨e, he⟩
        rcases hcases with ⟨hsame, -⟩ | ⟨-, -, hnew⟩
        · exact ⟨e, hsame ▸ he⟩
        · rw [hnew, ExtTreeMap.getElem?_insert]
          split
          · exact ⟨_, rfl⟩
          · exact ⟨e, he⟩
      rcases List.mem_append.mp hy with hy | hy
      · exact hkept code (h.known y hy code p' hp)
      · obtain rfl := List.mem_singleton.mp hy
        obtain ⟨rfl, -⟩ := hgrants _ _ hp
        exact hkept _ ⟨old, hold⟩
    · rcases List.mem_append.mp hy with hy | hy
      · exact h.sound y hy
      · obtain rfl := List.mem_singleton.mp hy
        exact hgranted.sound hasked

/-! ## What a run keeps that permits its claims -/

theorem SingleSeat.of_tracks {start : Vault} {s : Session} (h : Tracks fromJson start s)
    (hsettles : Settles fromJson s) : SingleSeat fromJson start s.log := by
  refine ⟨fun x hx y hy code p q hp hq => ?_, fun x hx code p hp => ?_, fun x (hx : x ∈ s.log) => (h.sound x hx).recorded,
    fun x hx => (h.sound x hx).revoked, fun x hx => (h.sound x hx).refused⟩
  · obtain ⟨e, he⟩ := h.known x hx code p hp
    obtain ⟨-, hpm, hpe⟩ := (h.entries code e he).granted x hx p hp
    obtain ⟨-, hqm, hqe⟩ := (h.entries code e he).granted y hy q hq
    exact ⟨hpm.trans hqm.symm, hpe.trans hqe.symm⟩
  · obtain ⟨e, he⟩ := h.known x hx code p hp
    have htracked := h.entries code e he
    obtain ⟨hs, -, hexp⟩ := htracked.granted x hx p hp
    obtain ⟨first, hfirst, hexact⟩ := hsettles code e he ⟨x, hx, p, hp⟩
    obtain ⟨e₀, he₀, hdays, -⟩ := htracked.origin
    exact ⟨e₀, first, he₀, (htracked.time hs).1.symm.trans hfirst, hdays ▸ hexp ▸ hexact⟩

theorem Settles.step {s t : Session} {q : Request} (h : Settles fromJson s)
    (hpermits : Permits fromJson checked s.counter.vault q) (hstep : s.step fromJson checked q = some t) :
    Settles fromJson t := by
  rcases Session.step_cases hstep with ⟨a, rfl, hnone⟩ | ⟨r, p, c', hasked, hgranted, rfl⟩
  · rintro code e he ⟨x, hx, p, hp⟩
    rcases List.mem_append.mp hx with hx | hx
    · exact h code e he ⟨x, hx, p, hp⟩
    · obtain rfl := List.mem_singleton.mp hx
      exact absurd hp.1 (hnone p)
  · obtain ⟨old, hold, hcases⟩ := hgranted.entry
    obtain ⟨hfirst, hrepeated⟩ := hpermits r old hasked hold
    rintro code e he ⟨x, hx, p', hp⟩
    by_cases hcode : code = r.codeHash
    · subst hcode
      rcases hcases with ⟨hsame, hs, hm, hexp⟩ | ⟨hs, hexp, hnew⟩
      · dsimp only at he
        rw [hsame, hold] at he
        exact Option.some.inj he ▸ hrepeated hs (hm.trans hgranted.machine) hgranted.saves
      · dsimp only at he
        rw [hnew] at he
        obtain rfl := Option.some.inj (ExtTreeMap.getElem?_insert_self.symm.trans he)
        exact ⟨q.now, rfl, (Entry.expiry_exact_iff hexp).mpr (hfirst hs (.inr hgranted.saves))⟩
    · have hx' : x ∈ s.log := by
        rcases List.mem_append.mp hx with hx | hx
        · exact hx
        · obtain rfl := List.mem_singleton.mp hx
          exact absurd ((grants_iff hasked).mp hp).1 hcode
      exact h code e ((hgranted.entry_other hcode).symm.trans he) ⟨x, hx', p', hp⟩

/-- A request that its vault permits is answered. -/
theorem Session.step_returns {s : Session} {q : Request} (h : Permits fromJson checked s.counter.vault q) :
    ∃ t, s.step fromJson checked q = some t := by
  obtain ⟨a, c', hhandle⟩ : ∃ a c', s.counter.handle fromJson checked q = some (a, c') := by
    refine Counter.handle_returns fun r hasked => ?_
    obtain ⟨x, w, hclaim⟩ := Vault.claim_returns fun e he hs hchecked => (h r e hasked he).1 hs (.inl hchecked)
    exact ⟨(x, w), hclaim⟩
  exact ⟨_, by rw [Session.step, hhandle, Option.map_some]⟩

/-! ## When the promises hold -/

theorem Tracks.fresh (c : Counter) : Tracks fromJson c.vault ⟨c, []⟩ := by
  refine ⟨fun code e he => ⟨⟨e, he, rfl, fun _ => rfl⟩, fun hs => ⟨?_, .inl ⟨e, he, hs⟩⟩, nofun⟩, nofun, nofun⟩
  unfold claimTime
  simp only [he, hs, if_true]

theorem Settles.fresh (c : Counter) : Settles fromJson ⟨c, []⟩ := by
  rintro code e - ⟨x, hx, -⟩
  exact absurd hx List.not_mem_nil

/-- What the promises say of a claim that was just granted. -/
theorem exact_of_holds {start : Vault} {s : Session} {q : Request} {r : ClaimRequest} {licensee : Str}
    {exp : Option UInt64} {v : Vault} (hasked : asked fromJson q = some r)
    (hclaim : s.counter.vault.claim checked r.codeHash r.machine q.now = some (.ok (licensee, exp), v))
    (hsaves : q.saves = true) (hafter : Holds fromJson start (s.step fromJson checked q)) :
    ∃ x e first, x.request = q ∧ x.grantedCode fromJson = some r.codeHash ∧ start.entries[r.codeHash]? = some e ∧
      claimTime fromJson start (s.log ++ [x]) r.codeHash = some first ∧ ExactExpiry first e.days exp := by
  obtain ⟨t, hstep, hseat⟩ := hafter
  unfold Session.step at hstep
  rw [Counter.handle_of_asked s.counter hasked, hclaim] at hstep
  simp only [Option.map_some, Counter.conclude, hsaves, if_true, Option.some.injEq] at hstep
  subst hstep
  have hgrants : (⟨s.counter, q, ⟨200, .token ⟨licensee, exp, some r.machine⟩⟩, ⟨v, some v⟩⟩ : Exchange).Grants
      fromJson r.codeHash ⟨licensee, exp, some r.machine⟩ := (grants_iff hasked).mpr ⟨rfl, rfl⟩
  obtain ⟨e, first, he, hfirst, hexact⟩ :=
    hseat.expiry _ (List.mem_append_right _ (List.mem_singleton_self _)) _ _ hgrants
  exact ⟨_, e, first, rfl, Exchange.grantedCode_eq_some.mpr ⟨_, hgrants⟩, he, hfirst, hexact⟩

/-- A claim that does not fit breaks a promise at once. -/
theorem permits_of_holds {start : Vault} {s : Session} {q : Request} (htracks : Tracks fromJson start s)
    (hafter : Holds fromJson start (s.step fromJson checked q)) :
    Permits fromJson checked s.counter.vault q := by
  intro r e hasked he
  have htracked := htracks.entries r.codeHash e he
  obtain ⟨e₀, he₀, hdays, horigin⟩ := htracked.origin
  constructor
  · intro hs hshown
    have hclaim : s.counter.vault.claim checked r.codeHash r.machine q.now =
        (e.expiry checked q.now).map fun exp => (.ok (e.licensee, exp),
          { s.counter.vault with
            entries := s.counter.vault.entries.insert r.codeHash (e.claimedBy r.machine q.now exp) }) := by
      unfold Vault.claim
      simp only [he, hs]
    cases hexp : e.expiry checked q.now with
    | none =>
      obtain ⟨t, hstep, -⟩ := hafter
      unfold Session.step at hstep
      rw [Counter.handle_of_asked s.counter hasked, hclaim, hexp] at hstep
      cases hstep
    | some exp =>
      rcases hshown with rfl | hsaves
      · exact Entry.fits_of_expiry hexp
      rw [hexp, Option.map_some] at hclaim
      obtain ⟨x, e₁, first, rfl, hcode, he₁, hfirst, hexact⟩ := exact_of_holds hasked hclaim hsaves hafter
      obtain rfl : e₀ = e₁ := Option.some.inj (he₀.symm.trans he₁)
      rw [(claimTime_snoc_first htracked hs hcode).2] at hfirst
      obtain rfl := Option.some.inj hfirst
      exact (Entry.expiry_exact_iff hexp).mp (hdays ▸ hexact)
  · intro hs hm hsaves
    have hclaim : s.counter.vault.claim checked r.codeHash r.machine q.now =
        some (.ok (e.licensee, e.expUnix), s.counter.vault) := by
      unfold Vault.claim
      simp only [he, hs, if_pos hm]
    obtain ⟨x, e₁, first, rfl, hcode, he₁, hfirst, hexact⟩ := exact_of_holds hasked hclaim hsaves hafter
    obtain rfl : e₀ = e₁ := Option.some.inj (he₀.symm.trans he₁)
    obtain ⟨htime, hsince⟩ := htracked.time hs
    rw [claimTime_snoc_of_claimed hsince] at hfirst
    exact ⟨first, htime.trans hfirst, hdays ▸ hexact⟩

/-- No request panics and every promise holds throughout a run exactly when every claim of the run fits. -/
theorem single_seat_iff (fromJson : Str → Option ClaimRequest) (checked : Bool) (c : Counter) (qs : List Request) :
    Runs.Throughout (serve fromJson checked) (Holds fromJson c.vault) (Session.start c) qs ↔
      Runs.EachStep (serve fromJson checked) (Allows fromJson checked) (Session.start c) qs := by
  have hkeep : ∀ s q, (∃ t, s = some t ∧ Tracks fromJson c.vault t ∧ Settles fromJson t) → Allows fromJson checked s q →
      ∃ u, serve fromJson checked s q = some u ∧ Tracks fromJson c.vault u ∧ Settles fromJson u := by
    rintro s q ⟨t, rfl, htracks, hsettles⟩ hallows
    obtain ⟨u, hstep⟩ := Session.step_returns (hallows t rfl)
    exact ⟨u, hstep, htracks.step hstep, hsettles.step (hallows t rfl) hstep⟩
  have hstart : ∃ t, Session.start c = some t ∧ Tracks fromJson c.vault t ∧ Settles fromJson t :=
    ⟨_, rfl, Tracks.fresh c, Settles.fresh c⟩
  have hholds : ∀ s, (∃ t, s = some t ∧ Tracks fromJson c.vault t ∧ Settles fromJson t) → Holds fromJson c.vault s := by
    rintro s ⟨t, rfl, htracks, hsettles⟩
    exact ⟨t, rfl, .of_tracks htracks hsettles⟩
  refine Runs.throughout_iff_eachStep hstart (hholds _ hstart) hkeep fun s q hs _ => ?_
  refine ⟨fun hafter => ?_, fun hallows => hholds _ (hkeep s q hs hallows)⟩
  rintro t rfl
  obtain ⟨_, heq, htracks, -⟩ := hs
  cases heq
  exact permits_of_holds htracks hafter

/-! ## A code that outlasts the clock -/

/-- Sold for more days than the clock can count. -/
def endlessEntry : Entry where
  licensee := "Acme".toList
  label := none
  days := some 18446744073709551615
  status := .unclaimed
  createdUnix := 0
  claimedUnix := none
  expUnix := none
  machine := none

def endlessCounter : Counter := ⟨⟨vaultSchema, (∅ : BTreeMap Str Entry).insert someHash endlessEntry⟩, none⟩

theorem endless_run_breaks (checked : Bool) :
    ¬ Runs.Throughout (serve readsClaim checked) (Holds readsClaim endlessCounter.vault)
      (Session.start endlessCounter) [firstClaim] := by
  intro h
  have hafter : Holds readsClaim endlessCounter.vault (Session.step readsClaim checked ⟨endlessCounter, []⟩ firstClaim) :=
    h.2
  have hasked : asked readsClaim firstClaim = readsClaim [] := by decide
  have hentry : endlessCounter.vault.entries[someHash]? = some endlessEntry := ExtTreeMap.getElem?_insert_self
  have hfits := (permits_of_holds (Tracks.fresh endlessCounter) hafter _ _ hasked hentry).1 rfl (.inr rfl)
  exact absurd (hfits _ rfl) (by decide)

/-- In a checked build the request panics, in the other the token's expiry has wrapped. -/
theorem endless_code_breaks_its_promise :
    ¬ Runs.Throughout (serve readsClaim true) (Holds readsClaim endlessCounter.vault)
        (Session.start endlessCounter) [firstClaim] ∧
      ¬ Runs.Throughout (serve readsClaim false) (Holds readsClaim endlessCounter.vault)
        (Session.start endlessCounter) [firstClaim] :=
  ⟨endless_run_breaks true, endless_run_breaks false⟩

end Ccos.License
