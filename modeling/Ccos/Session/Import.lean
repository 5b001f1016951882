import Ccos.Session.Workspace
import Ccos.Memory.Facts

/-!
# Imports of arbitrary bundles

Nothing is assumed of a bundle here: its fields are what an attacker chose. An import either refuses
and leaves the session as it was, or extends the one log it is about.
-/

open Std

namespace Ccos.AgentSession

variable {F : Type}

/-! ## The import in place -/

/-- The writes of an import that has passed every check, in the order of the source. -/
def appendBundle (s : AgentSession F) (b : SyncBundle F) (pin : Option Str) : Nat × AgentSession F :=
  let knownLen := ((s.foreign[b.agent]?).map (·.ops.length)).getD 0
  let s := { s with foreign := insertFirst s.foreign b.agent { ops := [], chain := [] } }
  let overlap := min (knownLen - b.firstSeq) b.ops.length
  let s := { s with foreign := s.foreign.modify b.agent fun log =>
    { log with ops := log.ops ++ b.ops.drop overlap } }
  let s := { s with foreign := s.foreign.modify b.agent fun log =>
    { log with chain := log.chain ++ b.chain.drop overlap } }
  let s := match pin with
    | some pubkey => { s with knownKeys := s.knownKeys.insert b.agent pubkey }
    | none => s
  (b.ops.length - overlap, s)

/-- `import_bundle` with the session it leaves, refusals included. Steps do not wrap around at
`usize::MAX` here: a bundle that starts that far is refused in any case. -/
def importInPlace (t : SyncTools F) (s : AgentSession F) (b : SyncBundle F) :
    Except SyncError Nat × AgentSession F :=
  if b.agent = [] then (.error (.tampered "bundle has no agent id".toList), s)
  else if b.agent = s.agent then (.error .selfImport, s)
  else
    match s.checkAuthenticity t b with
    | .error err => (.error err, s)
    | .ok pin =>
      if b.ops.length ≠ b.chain.length then
        (.error (.tampered (natStr b.ops.length ++ " op(s) but ".toList ++ natStr b.chain.length
          ++ " chain link(s)".toList)), s)
      else if b.firstSeq = 0 ∧ b.anchor ≠ genesis then
        (.error (.tampered "a genesis bundle must anchor at GENESIS".toList), s)
      else
        match brokenLink t.toSessionTools b.anchor b.firstSeq b.ops b.chain with
        | some seq =>
          (.error (.tampered ("link t=".toList ++ natStr (seq + 1) ++ " does not verify".toList)), s)
        | none =>
          match checkContinuity b s.foreign[b.agent]? with
          | some err => (.error err, s)
          | none =>
            let (added, s) := s.appendBundle b pin
            (.ok added, s)

/-- The log that is known of an agent; an empty one when nothing is. -/
def knownLog (s : AgentSession F) (agent : Str) : ForeignLog F :=
  s.foreign[agent]?.getD { ops := [], chain := [] }

theorem appendBundle_eq (s : AgentSession F) (b : SyncBundle F) (pin : Option Str) :
    s.appendBundle b pin = ((extendLog b s.foreign[b.agent]?).2, { s with
      foreign := s.foreign.insert b.agent (extendLog b s.foreign[b.agent]?).1
      knownKeys := match pin with
        | some pubkey => s.knownKeys.insert b.agent pubkey
        | none => s.knownKeys }) := by
  have hlen : ((s.foreign[b.agent]?).map (·.ops.length)).getD 0 = (s.knownLog b.agent).ops.length := by
    unfold knownLog
    cases s.foreign[b.agent]? <;> rfl
  have hforeign : (((insertFirst s.foreign b.agent { ops := [], chain := [] }).modify b.agent fun log =>
        { log with ops := log.ops ++ b.ops.drop (min ((s.knownLog b.agent).ops.length - b.firstSeq) b.ops.length) }).modify
        b.agent fun log => { log with
          chain := log.chain ++ b.chain.drop (min ((s.knownLog b.agent).ops.length - b.firstSeq) b.ops.length) }) =
      s.foreign.insert b.agent (extendLog b s.foreign[b.agent]?).1 := by
    apply ExtTreeMap.ext_getElem?
    intro agent
    simp only [getElem?_modify_eq, getElem?_insertFirst_eq, getElem?_insert_eq]
    by_cases hagent : agent = b.agent
    · simp only [hagent, if_true, Option.map_some]
      rfl
    · simp only [if_neg hagent]
  simp only [appendBundle, hlen, hforeign]
  cases pin <;> rfl

/-- In place or not, an import computes the same. -/
theorem importInPlace_eq (t : SyncTools F) (s : AgentSession F) (b : SyncBundle F) :
    s.importInPlace t b =
      match s.importBundle t b with
      | .error err => (.error err, s)
      | .ok (s', added) => (.ok added, s') := by
  unfold importInPlace importBundle
  split
  · rfl
  split
  · rfl
  cases s.checkAuthenticity t b with
  | error err => rfl
  | ok pin =>
    dsimp only
    split
    · rfl
    split
    · rfl
    cases brokenLink t.toSessionTools b.anchor b.firstSeq b.ops b.chain with
    | some seq => rfl
    | none =>
      cases checkContinuity b s.foreign[b.agent]? with
      | some err => rfl
      | none =>
        have happend := appendBundle_eq s b pin
        cases pin <;> simp only [happend]

/-! ## What the checks establish -/

theorem brokenLink_eq_none {t : SessionTools F} {prev : Hash} {seq : Nat} {ops : List (Op F)}
    {chain : List Hash} (hlen : ops.length = chain.length) (h : brokenLink t prev seq ops chain = none) :
    chain = HashChain.linksOf (opLinkHash t) prev seq ops := by
  induction ops generalizing prev seq chain with
  | nil => exact List.length_eq_zero_iff.mp hlen.symm
  | cons op ops ih =>
    cases chain with
    | nil => simp at hlen
    | cons link chain =>
      simp only [brokenLink] at h
      split at h
      · cases h
      · rename_i hlink
        obtain rfl := not_not.mp hlink
        rw [HashChain.linksOf, ← ih (by simpa using hlen) h]

theorem disagreement_eq_none {known links : List Hash} {seq : Nat} (h : disagreement known seq links = none)
    {i : Nat} (hknown : seq + i < known.length) (hi : i < links.length) : known[seq + i]? = links[i]? := by
  induction links generalizing seq i with
  | nil => simp at hi
  | cons link links ih =>
    simp only [disagreement] at h
    split at h
    · rename_i hnone
      rw [List.getElem?_eq_none_iff] at hnone
      omega
    · rename_i existing hexisting
      split at h
      · cases h
      · rename_i hsame
        cases i with
        | zero =>
          rw [Nat.add_zero, hexisting, List.getElem?_cons_zero, not_not.mp hsame]
        | succ i =>
          have := ih h (i := i) (by omega) (by simpa using hi)
          rwa [Nat.add_right_comm, Nat.add_assoc] at this

/-- What an accepted continuation says about the log it continues. -/
theorem checkContinuity_eq_none {b : SyncBundle F} {log : ForeignLog F} {known : Option (ForeignLog F)}
    (hlog : log = known.getD { ops := [], chain := [] }) (h : checkContinuity b known = none) :
    b.firstSeq ≤ log.ops.length ∧
      (0 < b.firstSeq → log.chain[b.firstSeq - 1]? = some b.anchor) ∧
      ∀ i, b.firstSeq + i < log.chain.length → i < b.chain.length →
        log.chain[b.firstSeq + i]? = b.chain[i]? := by
  subst hlog
  unfold checkContinuity at h
  cases known with
  | none =>
    simp only [Option.map_none, Option.getD_none, ite_eq_right_iff, reduceCtorEq, imp_false] at h
    refine ⟨Nat.le_of_not_lt h, fun hpos => absurd hpos h, ?_⟩
    intro i hi
    exact absurd hi (Nat.not_lt_zero _)
  | some log =>
    simp only [Option.map_some, Option.getD_some] at h
    split at h
    · cases h
    · rename_i hreach
      split at h
      · cases h
      · rename_i hanchor
        rw [Option.map_eq_none_iff] at h
        refine ⟨Nat.le_of_not_lt hreach, ?_, fun i hi hi' => disagreement_eq_none h hi hi'⟩
        intro hpos
        by_contra hne
        exact hanchor ⟨hpos, hne⟩

/-- A bundle that continues a chained log leaves a chained log. -/
theorem extendLog_chained {t : SessionTools F} {b : SyncBundle F} {known : Option (ForeignLog F)}
    (hknown : ∀ log, known = some log → log.chain = chainOver t genesis 0 log.ops)
    (hgenesis : ¬ (b.firstSeq = 0 ∧ b.anchor ≠ genesis))
    (hlinks : b.chain = HashChain.linksOf (opLinkHash t) b.anchor b.firstSeq b.ops)
    (hcont : checkContinuity b known = none) :
    (extendLog b known).1.chain = chainOver t genesis 0 (extendLog b known).1.ops := by
  obtain ⟨hreach, hanchored, hagree⟩ := checkContinuity_eq_none rfl hcont
  have hlog : (known.getD { ops := [], chain := [] }).chain =
      HashChain.linksOf (opLinkHash t) genesis 0 (known.getD { ops := [], chain := [] }).ops := by
    cases known with
    | none => rfl
    | some log => exact hknown log rfl
  unfold extendLog chainOver
  generalize known.getD { ops := [], chain := [] } = log at hreach hanchored hagree hlog
  have hlen : log.chain.length = log.ops.length := by rw [hlog, HashChain.length_linksOf]
  have hblen : b.chain.length = b.ops.length := by rw [hlinks, HashChain.length_linksOf]
  have hanchor : b.anchor = HashChain.head genesis (log.chain.take b.firstSeq) := by
    by_cases hz : b.firstSeq = 0
    · rw [hz, List.take_zero, HashChain.head_nil]
      exact not_not.mp fun hne => hgenesis ⟨hz, hne⟩
    · have hlink := HashChain.head_take genesis log.chain (n := b.firstSeq) (by omega) (by omega)
      rw [hanchored (by omega)] at hlink
      exact (Option.some.inj hlink).symm
  have hgraft : HashChain.graft (HashChain.linksOf (opLinkHash t) genesis 0 log.ops)
        (HashChain.linksOf (opLinkHash t) b.anchor (0 + b.firstSeq) b.ops) b.firstSeq =
      HashChain.linksOf (opLinkHash t) genesis 0 (HashChain.graft log.ops b.ops b.firstSeq) := by
    refine HashChain.graft_of_agree _ hreach (by rw [← hlog]; exact hanchor) fun i hi hi' => ?_
    rw [← hlog, Nat.zero_add, ← hlinks]
    exact hagree i (by omega) (by omega)
  rw [Nat.zero_add, ← hlinks, ← hlog, HashChain.graft, HashChain.graft, hlen, hblen] at hgraft
  exact hgraft

/-! ## Imports are atomic and only grow -/

theorem checkAuthenticity_some {t : SyncTools F} {s : AgentSession F} {b : SyncBundle F} {pubkey : Str}
    (h : s.checkAuthenticity t b = .ok (some pubkey)) : s.knownKeys[b.agent]? = none := by
  unfold checkAuthenticity at h
  split at h
  · split at h
    · cases h
    · split at h
      · split at h <;> cases h
      · assumption
  · split at h <;> cases h
  · cases h

/-- What an accepted import has checked, and what it leaves. -/
theorem importBundle_ok {t : SyncTools F} {s s' : AgentSession F} {b : SyncBundle F} {added : Nat}
    (h : s.importBundle t b = .ok (s', added)) :
    ∃ pin, s.checkAuthenticity t b = .ok pin ∧
      ¬ (b.firstSeq = 0 ∧ b.anchor ≠ genesis) ∧
      b.chain = HashChain.linksOf (opLinkHash t.toSessionTools) b.anchor b.firstSeq b.ops ∧
      checkContinuity b s.foreign[b.agent]? = none ∧
      added = (extendLog b s.foreign[b.agent]?).2 ∧
      s' = { s with
        foreign := s.foreign.insert b.agent (extendLog b s.foreign[b.agent]?).1
        knownKeys := match pin with
          | some pubkey => s.knownKeys.insert b.agent pubkey
          | none => s.knownKeys } := by
  unfold importBundle at h
  split at h
  · cases h
  split at h
  · cases h
  split at h
  · cases h
  rename_i pin hpin
  split at h
  · cases h
  rename_i hlen
  split at h
  · cases h
  rename_i hgenesis
  split at h
  · cases h
  rename_i hunbroken
  split at h
  · cases h
  rename_i hcont
  simp only [Except.ok.injEq, Prod.mk.injEq] at h
  obtain ⟨rfl, rfl⟩ := h
  exact ⟨pin, hpin, hgenesis, brokenLink_eq_none (not_not.mp hlen) hunbroken, hcont, rfl, rfl⟩

theorem length_extendLog (b : SyncBundle F) (known : Option (ForeignLog F)) :
    (extendLog b known).1.ops.length =
      (known.getD { ops := [], chain := [] }).ops.length + (extendLog b known).2 := by
  simp only [extendLog, List.length_append, List.length_drop]

/-- Every foreign log of a session is chained from genesis. -/
def ForeignChained (t : SessionTools F) (s : AgentSession F) : Prop :=
  ∀ (agent : Str) (log : ForeignLog F), s.foreign[agent]? = some log →
    log.chain = chainOver t genesis 0 log.ops

/-- An import of any bundle leaves the session as it was, or extends the one log it is about by
chained operations; keys stay pinned. -/
theorem import_atomic_and_grow_only (t : SyncTools F) (s : AgentSession F)
    (hforeign : s.ForeignChained t.toSessionTools) (b : SyncBundle F) :
    (∀ err s', s.importInPlace t b = (.error err, s') → s' = s) ∧
    ∀ (n : Nat) (s' : AgentSession F), s.importInPlace t b = (.ok n, s') →
      s' = { s with foreign := s'.foreign, knownKeys := s'.knownKeys } ∧
      (∀ agent : Str, agent ≠ b.agent → s'.foreign[agent]? = s.foreign[agent]?) ∧
      s'.foreign[b.agent]? = some (s'.knownLog b.agent) ∧
      (s.knownLog b.agent).ops <+: (s'.knownLog b.agent).ops ∧
      (s.knownLog b.agent).chain <+: (s'.knownLog b.agent).chain ∧
      (s'.knownLog b.agent).ops.length = (s.knownLog b.agent).ops.length + n ∧
      s'.ForeignChained t.toSessionTools ∧
      ∀ (agent : Str) (key : Str), s.knownKeys[agent]? = some key → s'.knownKeys[agent]? = some key := by
  rw [importInPlace_eq]
  cases himport : s.importBundle t b with
  | error err =>
    refine ⟨fun _ _ h => (Prod.mk.inj h).2.symm, fun _ _ h => ?_⟩
    cases (Prod.mk.inj h).1
  | ok result =>
    obtain ⟨s'', added⟩ := result
    refine ⟨fun _ _ h => (by cases (Prod.mk.inj h).1), fun n s' h => ?_⟩
    obtain ⟨hn, rfl⟩ := Prod.mk.inj h
    obtain rfl := Except.ok.inj hn
    obtain ⟨pin, hpin, hgenesis, hlinks, hcont, rfl, rfl⟩ := importBundle_ok himport
    have hlog : ∀ keys, knownLog { s with
        foreign := s.foreign.insert b.agent (extendLog b s.foreign[b.agent]?).1, knownKeys := keys } b.agent =
        (extendLog b s.foreign[b.agent]?).1 := by
      intro keys
      simp only [knownLog, ExtTreeMap.getElem?_insert_self, Option.getD_some]
    refine ⟨rfl, ?_, ?_, ?_, ?_, ?_, ?_, ?_⟩
    · intro agent hagent
      rw [getElem?_insert_eq, if_neg hagent]
    · rw [hlog, ExtTreeMap.getElem?_insert_self]
    · rw [hlog]
      exact List.prefix_append _ _
    · rw [hlog]
      exact List.prefix_append _ _
    · rw [hlog]
      exact length_extendLog b _
    · intro agent log hheld
      rw [getElem?_insert_eq] at hheld
      split at hheld
      · rw [← Option.some.inj hheld]
        exact extendLog_chained (hforeign b.agent) hgenesis hlinks hcont
      · exact hforeign agent log hheld
    · intro agent key hkey
      cases pin with
      | none => exact hkey
      | some pubkey =>
        have hfree := checkAuthenticity_some hpin
        dsimp only
        rw [getElem?_insert_eq, if_neg, hkey]
        rintro rfl
        rw [hfree] at hkey
        cases hkey

/-- A bundle with one operation, from an agent that nothing is known of. -/
def firstBundle : SyncBundle ℚ where
  version := 1
  agent := "peer".toList
  firstSeq := 0
  anchor := genesis
  ops := [.ingest "a.rs".toList "fn a() {}".toList]
  chain := [opLinkHash (SessionTools.plain fun _ _ => .empty) genesis 0 (.ingest "a.rs".toList "fn a() {}".toList)]
  pubkey := none
  sig := none

theorem firstBundle_grows_a_log :
    ∃ s', (new : AgentSession ℚ).importInPlace (.plain fun _ _ => .empty) firstBundle = (.ok 1, s') ∧
      (s'.knownLog "peer".toList).ops.length = 1 ∧
      s'.ForeignChained (.plain fun _ _ => .empty) := by
  have hok : ((new : AgentSession ℚ).importInPlace (.plain fun _ _ => .empty) firstBundle).1 = .ok 1 := by
    decide
  have hnone : (new : AgentSession ℚ).ForeignChained (.plain fun _ _ => .empty) := by
    intro agent log h
    simp [new] at h
  have hgrow := (import_atomic_and_grow_only (.plain fun _ _ => .empty) new hnone firstBundle).2 1 _
    (Prod.ext hok rfl)
  exact ⟨_, Prod.ext hok rfl, hgrow.2.2.2.2.2.1, hgrow.2.2.2.2.2.2.1⟩

end Ccos.AgentSession
