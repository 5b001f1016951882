import Ccos.Session.Workspace
import Ccos.Session.Timeline
import Ccos.Session.Import
import Ccos.Lib.Runs

/-!
# Sessions out of workspaces

Whatever the files hold, a session that opens has the chain of its own operations.
-/

open Std

set_option linter.unusedSectionVars false

namespace Ccos

/-! ## What a verification establishes -/

section Verify

variable {F : Type} {t : SessionTools F}

theorem verifyOps_linksOf (prev : Hash) (seq : Nat) (ops : List (Op F)) :
    verifyOps t prev seq ops (HashChain.linksOf (opLinkHash t) prev seq ops) = (ops.length, []) := by
  induction ops generalizing prev seq with
  | nil => rfl
  | cons op ops ih => simp only [HashChain.linksOf, verifyOps, ih, if_true, List.length_cons]

theorem linksOf_of_verifyOps {prev : Hash} {seq : Nat} {ops : List (Op F)} {chain : List Hash}
    (hlen : chain.length = ops.length) (h : (verifyOps t prev seq ops chain).2 = []) :
    chain = HashChain.linksOf (opLinkHash t) prev seq ops := by
  induction ops generalizing prev seq chain with
  | nil => exact List.length_eq_zero_iff.mp hlen
  | cons op ops ih =>
    cases chain with
    | nil => simp at hlen
    | cons link chain =>
      simp only [verifyOps] at h
      split at h
      · rename_i hlink
        subst hlink
        rw [HashChain.linksOf, ← ih (by simpa using hlen) h]
      · cases h

theorem verifyTimelineParts_of_chained {anchor : Hash} {folded : Nat} {ops : List (Op F)} {chain : List Hash}
    {baseline : Option Str} {baselineHash : Hash} (hchain : chain = chainOver t anchor folded ops)
    (hcommitted : baselineHash = baselineCommitment t baseline) :
    verifyTimelineParts t anchor folded ops chain baseline baselineHash =
      { valid := true, verifiedEvents := ops.length, errors := [] } := by
  have hlen : chain.length = ops.length := by rw [hchain, chainOver, HashChain.length_linksOf]
  unfold verifyTimelineParts
  split
  · rename_i hlegacy
    rw [hlegacy.1] at hlen
    rw [← hlen, List.length_nil]
  · have hops : verifyOps t anchor folded ops chain = (ops.length, []) := by
      rw [hchain]
      exact verifyOps_linksOf _ _ _
    simp only [hops, hcommitted, hlen, ne_eq, not_true_eq_false, if_false, List.append_nil, List.isEmpty_nil]

/-- A timeline with a chain that verifies has the chain of its operations. -/
theorem chained_of_valid {anchor : Hash} {folded : Nat} {ops : List (Op F)} {chain : List Hash}
    {baseline : Option Str} {baselineHash : Hash} (hnew : ¬ (chain = [] ∧ anchor = [] ∧ baselineHash = []))
    (hvalid : (verifyTimelineParts t anchor folded ops chain baseline baselineHash).valid = true) :
    chain = chainOver t anchor folded ops ∧ baselineHash = baselineCommitment t baseline := by
  unfold verifyTimelineParts at hvalid
  rw [if_neg hnew] at hvalid
  simp only [List.isEmpty_iff, List.append_eq_nil_iff, ite_eq_right_iff, reduceCtorEq, imp_false, not_not] at hvalid
  obtain ⟨⟨hcommitted, hlen⟩, hops⟩ := hvalid
  exact ⟨linksOf_of_verifyOps hlen hops, hcommitted.symm⟩

end Verify

namespace AgentSession

variable {F : Type} [Scalar F]

/-! ## What opening leaves -/

theorem trustTimeline_ok {t : SessionTools F} {tl trusted : PersistedTimeline F}
    (h : trustTimeline t tl = .ok trusted) :
    trusted.ops = tl.ops ∧ trusted.baseline = tl.baseline ∧ trusted.folded = tl.folded ∧
      trusted.foreign = tl.foreign ∧ trusted.chain = chainOver t trusted.anchor trusted.folded trusted.ops ∧
      trusted.baselineHash = baselineCommitment t trusted.baseline := by
  unfold trustTimeline at h
  split at h
  · obtain rfl := Except.ok.inj h
    exact ⟨rfl, rfl, rfl, rfl, rfl, rfl⟩
  · rename_i hnew
    dsimp only at h
    split at h
    · rename_i hvalid
      obtain rfl := Except.ok.inj h
      exact ⟨rfl, rfl, rfl, rfl, chained_of_valid hnew hvalid⟩
    · cases h

theorem restartTimeline_ok {t : SessionTools F} {s s' : AgentSession F} (h : s.restartTimeline t = .ok s') :
    ∃ persisted, s.live.toJson = some persisted ∧
      s' = { s with
        baseline := some (t.persistedJson persisted)
        ops := []
        folded := 0
        chain := []
        anchor := genesis
        baselineHash := baselineCommitment t (some (t.persistedJson persisted)) } := by
  unfold restartTimeline at h
  split at h
  · cases h
  · rename_i persisted hjson
    exact ⟨persisted, hjson, (Except.ok.inj h).symm⟩

/-- Opening keeps a trusted timeline, or starts one over at the snapshot. -/
theorem openWorkspace_ok {t : WorkspaceTools F} {ws : Workspace} {s : AgentSession F}
    (h : openWorkspace t ws = .ok s) :
    ∃ live, openMemory t.toSessionTools ws.snapshot = .ok live ∧
      match restored t ws with
      | none => restartTimeline t.toSessionTools { new with live } = .ok s
      | some tl => ∃ trusted, trustTimeline t.toSessionTools tl = .ok trusted ∧
          guardTimeline t.toSessionTools (ofTimeline live trusted) = .ok s := by
  unfold openWorkspace at h
  obtain ⟨live, hlive, h⟩ := bind_eq_ok.mp h
  refine ⟨live, hlive, ?_⟩
  cases hrestored : restored t ws with
  | none =>
    simp only [hrestored] at h
    obtain ⟨session, hstart, h⟩ := bind_eq_ok.mp h
    obtain ⟨persisted, -, rfl⟩ := restartTimeline_ok hstart
    -- There is nothing to compare for an empty timeline.
    rw [← Except.ok.inj h]
    exact hstart
  | some tl =>
    simp only [hrestored] at h
    obtain ⟨session, htrust, h⟩ := bind_eq_ok.mp h
    cases htrusted : trustTimeline t.toSessionTools tl with
    | error err =>
      rw [htrusted] at htrust
      cases htrust
    | ok trusted =>
      rw [htrusted] at htrust
      obtain rfl := Except.ok.inj htrust
      exact ⟨trusted, htrusted, h⟩

theorem sealed_of_restart {t : SessionTools F} {s s' : AgentSession F} (h : s.restartTimeline t = .ok s') :
    Sealed t s' := by
  obtain ⟨persisted, -, rfl⟩ := restartTimeline_ok h
  exact ⟨rfl, rfl⟩

theorem sealed_of_trust {t : SessionTools F} {tl trusted : PersistedTimeline F} (live : CcosMemory F)
    (h : trustTimeline t tl = .ok trusted) : Sealed t (ofTimeline live trusted) := by
  obtain ⟨-, -, -, -, hchain, hcommitted⟩ := trustTimeline_ok h
  exact ⟨hchain, hcommitted⟩

theorem sealed_of_open {t : WorkspaceTools F} {ws : Workspace} {s : AgentSession F}
    (h : openWorkspace t ws = .ok s) : Sealed t.toSessionTools s := by
  obtain ⟨live, -, hopen⟩ := openWorkspace_ok h
  cases hrestored : restored t ws with
  | none =>
    rw [hrestored] at hopen
    exact sealed_of_restart hopen
  | some tl =>
    rw [hrestored] at hopen
    obtain ⟨trusted, htrust, hguard⟩ := hopen
    unfold guardTimeline at hguard
    split at hguard
    · exact sealed_of_restart hguard
    · rw [← Except.ok.inj hguard]
      exact sealed_of_trust live htrust

/-! ## Forks and round trips -/

theorem Sealed.forkAt {t : SessionTools F} {s : AgentSession F} (hs : Sealed t s) (step : Nat) :
    Sealed t (s.forkAt t step) where
  chained := by
    change s.chain.take _ = chainOver t s.anchor s.folded (s.ops.take _)
    have hchain : s.chain = HashChain.linksOf (opLinkHash t) s.anchor s.folded s.ops := hs.chained
    rw [hchain, HashChain.take_linksOf, chainOver]
  committed := hs.committed

theorem Sealed.compactIfNeeded {t : SessionTools F} {s : AgentSession F} (hs : Sealed t s) (max keep : Nat) :
    Sealed t (s.compactIfNeeded t max keep) := by
  unfold AgentSession.compactIfNeeded
  split
  · exact hs.compact keep
  · exact hs

theorem checkpoint_session (t : WorkspaceTools F) (s : AgentSession F) (max keep : Nat) :
    (s.checkpoint t max keep).2 = s.compactIfNeeded t.toSessionTools max keep := by
  unfold checkpoint
  dsimp only
  cases (s.compactIfNeeded t.toSessionTools max keep).live.toJson <;> rfl

/-- A checkpoint and the session that opens from it. One that cannot be written, or does not open,
leaves the session there was. -/
def reopen (t : WorkspaceTools F) (s : AgentSession F) (max keep : Nat) : AgentSession F :=
  match s.checkpoint t max keep with
  | (.ok ws, s') =>
    match openWorkspace t ws with
    | .ok opened => opened
    | .error _ => s'
  | (.error _, s') => s'

theorem Sealed.reopen {t : WorkspaceTools F} {s : AgentSession F} (hs : Sealed t.toSessionTools s)
    (max keep : Nat) : Sealed t.toSessionTools (s.reopen t max keep) := by
  have hkept := hs.compactIfNeeded max keep
  rw [← checkpoint_session] at hkept
  unfold AgentSession.reopen
  split
  · rename_i ws s' hwrite
    rw [hwrite] at hkept
    split
    · rename_i opened hopen
      exact sealed_of_open hopen
    · exact hkept
  · rename_i s' hwrite
    rw [hwrite] at hkept
    exact hkept

end AgentSession

/-! ## Runs -/

/-- What can happen to the timeline of a session. -/
inductive TimelineOp (F : Type)
  | act (op : LocalOp F)
  | setAgent (id : Str)
  | importBundle (b : SyncBundle F)
  | compact (keep : Nat)
  | forkAt (step : Nat)
  | reopen (max keep : Nat)

namespace AgentSession

variable {F : Type} [Scalar F]

def timelineStep (t : WorkspaceTools F) (s : AgentSession F) : TimelineOp F → AgentSession F
  | .act op => s.act t.toSessionTools op
  | .setAgent id => s.setAgent id
  | .importBundle b => (s.importInPlace t.toSyncTools b).2
  | .compact keep => s.compact t.toSessionTools keep
  | .forkAt step => s.forkAt t.toSessionTools step
  | .reopen max keep => s.reopen t max keep

/-- An import leaves the own timeline alone. -/
theorem importInPlace_own (t : SyncTools F) (s : AgentSession F) (b : SyncBundle F) :
    ∃ foreign knownKeys, (s.importInPlace t b).2 = { s with foreign, knownKeys } := by
  rw [importInPlace_eq]
  cases himport : s.importBundle t b with
  | error err => exact ⟨s.foreign, s.knownKeys, rfl⟩
  | ok result =>
    obtain ⟨s', added⟩ := result
    obtain ⟨pin, -, -, -, -, -, rfl⟩ := importBundle_ok himport
    exact ⟨_, _, rfl⟩

theorem Sealed.timelineStep {t : WorkspaceTools F} {s : AgentSession F} (hs : Sealed t.toSessionTools s)
    (op : TimelineOp F) : Sealed t.toSessionTools (s.timelineStep t op) := by
  cases op with
  | act op => exact hs.extend (Extends.act s op)
  | setAgent id => exact ⟨hs.chained, hs.committed⟩
  | importBundle b =>
    obtain ⟨foreign, knownKeys, h⟩ := importInPlace_own t.toSyncTools s b
    simp only [AgentSession.timelineStep, h]
    exact ⟨hs.chained, hs.committed⟩
  | compact keep => exact hs.compact keep
  | forkAt step => exact hs.forkAt step
  | reopen max keep => exact hs.reopen max keep

theorem sealed_run (t : WorkspaceTools F) (ops : List (TimelineOp F)) :
    Sealed t.toSessionTools (Runs.run (timelineStep t) new ops) := by
  have hallowed : Runs.EachStep (timelineStep t) (fun _ _ => True) new ops := by
    generalize (new : AgentSession F) = s
    induction ops generalizing s with
    | nil => trivial
    | cons op ops ih => exact ⟨trivial, ih _⟩
  exact (Runs.throughout_of_step sealed_new (fun s op hs _ => Sealed.timelineStep hs op) hallowed).finish

/-- The timeline of every session verifies in full. Compaction moves neither its head nor its length,
and a fork has a prefix of its chain. -/
theorem timeline_verifies (t : WorkspaceTools F) (ops : List (TimelineOp F)) :
    let s := Runs.run (timelineStep t) new ops
    s.verifyTimeline t.toSessionTools = { valid := true, verifiedEvents := s.ops.length, errors := [] } ∧
      s.chain.length = s.ops.length ∧
      (∀ keep, (s.compact t.toSessionTools keep).timelineHead = s.timelineHead ∧
        (s.compact t.toSessionTools keep).len = s.len) ∧
      ∀ step, (s.forkAt t.toSessionTools step).chain <+: s.chain := by
  have hs := sealed_run t ops
  exact ⟨verifyTimelineParts_of_chained hs.chained hs.committed, hs.chained.length_chain,
    fun keep => ⟨hs.chained.head_compact keep, len_compact _ keep⟩, fun step => List.take_prefix _ _⟩

end AgentSession

end Ccos
