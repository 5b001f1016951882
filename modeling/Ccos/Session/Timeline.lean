import Ccos.Session.Agent

/-!
# The own timeline of a session

Recorded operations extend the chain of a session, and compaction cuts it at its start.
-/

open Std

set_option linter.unusedSectionVars false

namespace Ccos

/-! ## What an operation does to the own log -/

namespace AgentSession

variable {F : Type} [Scalar F]

/-- The links are those of the retained operations. -/
def Chained (t : SessionTools F) (s : AgentSession F) : Prop :=
  s.chain = chainOver t s.anchor s.folded s.ops

/-- The log grows at its end, and what came from elsewhere stays. -/
structure Extends (t : SessionTools F) (s s' : AgentSession F) : Prop where
  agent : s'.agent = s.agent
  folded : s'.folded = s.folded
  anchor : s'.anchor = s.anchor
  baseline : s'.baseline = s.baseline
  baselineHash : s'.baselineHash = s.baselineHash
  foreign : s'.foreign = s.foreign
  knownKeys : s'.knownKeys = s.knownKeys
  ops : s.ops <+: s'.ops
  chained : Chained t s → Chained t s'

namespace Extends

variable {t : SessionTools F}

theorem refl (s : AgentSession F) : Extends t s s :=
  ⟨rfl, rfl, rfl, rfl, rfl, rfl, rfl, List.prefix_refl _, id⟩

theorem trans {a b c : AgentSession F} (hab : Extends t a b) (hbc : Extends t b c) : Extends t a c where
  agent := hbc.agent.trans hab.agent
  folded := hbc.folded.trans hab.folded
  anchor := hbc.anchor.trans hab.anchor
  baseline := hbc.baseline.trans hab.baseline
  baselineHash := hbc.baselineHash.trans hab.baselineHash
  foreign := hbc.foreign.trans hab.foreign
  knownKeys := hbc.knownKeys.trans hab.knownKeys
  ops := hab.ops.trans hbc.ops
  chained := fun h => hbc.chained (hab.chained h)

theorem onLive (s : AgentSession F) (f : CcosMemory F → CcosMemory F) : Extends t s (s.onLive f) :=
  ⟨rfl, rfl, rfl, rfl, rfl, rfl, rfl, List.prefix_refl _, id⟩

theorem record (s : AgentSession F) (op : Op F) : Extends t s (s.record t op) where
  agent := rfl
  folded := rfl
  anchor := rfl
  baseline := rfl
  baselineHash := rfl
  foreign := rfl
  knownKeys := rfl
  ops := List.prefix_append _ _
  chained h := by
    unfold Chained chainOver at *
    simp only [AgentSession.record]
    rw [HashChain.linksOf_snoc, ← h]

theorem ingestBatch (s : AgentSession F) (files : List (Str × Str)) :
    Extends t s (s.ingestBatch t files) := by
  unfold AgentSession.ingestBatch
  refine Extends.trans ?_ (onLive _ _)
  refine List.foldlRecOn files _ (motive := Extends t s) (refl s) fun s' hs f _ => ?_
  exact hs.trans ((record s' _).trans (onLive _ _))

theorem ingest (s : AgentSession F) (uri source : Str) : Extends t s (s.ingest t uri source) := by
  unfold AgentSession.ingest
  exact (record s _).trans (onLive _ _)

theorem recallLive (s : AgentSession F) (mode : RecallMode) (how : Recall F) (budget : Nat) :
    Extends t s (s.recallLive t mode how budget) := by
  unfold AgentSession.recallLive
  exact onLive _ _

theorem sync (s : AgentSession F) (uri source : Str) : Extends t s (s.sync t uri source) := by
  unfold AgentSession.sync
  split
  · exact refl s
  · exact ingest s uri source

theorem assertEvidence (s : AgentSession F) (evidence claim : Str) (supports : Bool) (weight : F) :
    Extends t s (s.assertEvidence t evidence claim supports weight) := by
  unfold AgentSession.assertEvidence
  exact (record s _).trans (onLive _ _)

theorem signalFailure (s : AgentSession F) (node : Str) (depth : Nat) :
    Extends t s (s.signalFailure t node depth) := by
  unfold AgentSession.signalFailure
  exact (record s _).trans (onLive _ _)

theorem recallWindow (s : AgentSession F) (mode : RecallMode) (how : Recall F) (budget : Nat) :
    Extends t s (s.recallWindow t mode how budget) := by
  unfold AgentSession.recallWindow
  refine Extends.trans ?_ (record _ _)
  refine Extends.trans ?_ (recallLive _ _ _ _)
  split
  · exact onLive _ _
  · exact refl s

theorem pageFault (s : AgentSession F) (compilerOutput : Str) (budget : Nat) :
    Extends t s (s.pageFault t compilerOutput budget) := by
  unfold AgentSession.pageFault
  refine Extends.trans ?_ (record _ _)
  exact (onLive _ _).trans (recallLive _ _ _ _)

theorem adoptTunedRecallWeights (s : AgentSession F) (tuned : ScoringWeights F) (better : Bool) :
    Extends t s (s.adoptTunedRecallWeights t tuned better) := by
  unfold AgentSession.adoptTunedRecallWeights
  split
  · exact (onLive _ _).trans (record _ _)
  · exact refl s

theorem act (s : AgentSession F) (op : LocalOp F) : Extends t s (s.act t op) := by
  cases op with
  | ingest uri source => exact ingest s uri source
  | ingestBatch files => exact ingestBatch s files
  | sync uri source => exact sync s uri source
  | assertEvidence evidence claim supports weight => exact assertEvidence s evidence claim supports weight
  | signalFailure node depth => exact signalFailure s node depth
  | recallWindow mode how budget => exact recallWindow s mode how budget
  | pageFault output budget => exact pageFault s output budget
  | adoptTunedRecallWeights tuned better => exact adoptTunedRecallWeights s tuned better
  | setCustomAuthorities map => exact ⟨rfl, rfl, rfl, rfl, rfl, rfl, rfl, List.prefix_refl _, id⟩

end Extends

/-! ## What compaction does to it -/

variable {t : SessionTools F}

/-- The links are those of the retained operations, and the baseline is the committed one. -/
structure Sealed (t : SessionTools F) (s : AgentSession F) : Prop where
  chained : Chained t s
  committed : s.baselineHash = baselineCommitment t s.baseline

theorem sealed_new : Sealed t (new : AgentSession F) := ⟨rfl, rfl⟩

theorem Sealed.extend {s s' : AgentSession F} (hs : Sealed t s) (h : Extends t s s') : Sealed t s' where
  chained := h.chained hs.chained
  committed := by rw [h.baselineHash, h.baseline, hs.committed]

theorem Chained.length_chain {s : AgentSession F} (hs : Chained t s) : s.chain.length = s.ops.length := by
  rw [hs, chainOver, HashChain.length_linksOf]

/-- Compaction keeps the session, or folds its first `n` operations. -/
theorem compact_cases (t : SessionTools F) (s : AgentSession F) (keep : Nat) :
    s.compact t keep = s ∨
    ∃ n baseline, 0 < n ∧ n ≤ s.ops.length ∧
      s.compact t keep = { s with
        anchor := s.chain[n - 1]?.getD s.anchor
        chain := s.chain.drop n
        baselineHash := baselineCommitment t baseline
        baseline := baseline
        ops := s.ops.drop n
        folded := s.folded + n } := by
  unfold compact
  split
  · exact Or.inl rfl
  · rename_i hkeep
    dsimp only
    split
    · exact Or.inl rfl
    · exact Or.inr ⟨s.ops.length - keep, _, by omega, by omega, rfl⟩

/-- The anchor after a fold is the head of what was folded. -/
theorem Chained.anchor_fold {s : AgentSession F} (hs : Chained t s) {n : Nat} (hpos : 0 < n)
    (hn : n ≤ s.ops.length) :
    s.chain[n - 1]?.getD s.anchor = HashChain.head s.anchor (s.chain.take n) := by
  rw [← HashChain.head_take s.anchor s.chain hpos (by rwa [hs.length_chain]), Option.getD_some]

theorem Sealed.compact {s : AgentSession F} (hs : Sealed t s) (keep : Nat) : Sealed t (s.compact t keep) := by
  rcases compact_cases t s keep with h | ⟨n, baseline, hpos, hn, h⟩
  · rw [h]
    exact hs
  · rw [h]
    refine ⟨?_, rfl⟩
    change s.chain.drop n = chainOver t (s.chain[n - 1]?.getD s.anchor) (s.folded + n) (s.ops.drop n)
    have hchain : s.chain = HashChain.linksOf (opLinkHash t) s.anchor s.folded s.ops := hs.chained
    rw [hs.chained.anchor_fold hpos hn, chainOver, hchain, HashChain.drop_linksOf _ _ _ hn,
      HashChain.take_linksOf]

theorem len_compact (s : AgentSession F) (keep : Nat) : (s.compact t keep).len = s.len := by
  rcases compact_cases t s keep with h | ⟨n, baseline, -, hn, h⟩
  · rw [h]
  · rw [h]
    simp only [len, List.length_drop]
    omega

/-- The head moves into the anchor when everything is folded. -/
theorem Chained.head_compact {s : AgentSession F} (hs : Chained t s) (keep : Nat) :
    HashChain.head (s.compact t keep).anchor (s.compact t keep).chain = HashChain.head s.anchor s.chain := by
  rcases compact_cases t s keep with h | ⟨n, baseline, hpos, hn, h⟩
  · rw [h]
  · rw [h]
    dsimp only
    rw [hs.anchor_fold hpos hn, HashChain.head_head, List.take_append_drop]

end AgentSession

end Ccos
