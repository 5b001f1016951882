import Ccos.Lib.CharBoundary

/-!
# The memory kernel

The recalled memories become one context block for a prompt, cut at a number of bytes. The cut panics inside a character.
-/

namespace Ccos.Octasoma

structure KernelConfig where
  topK : Nat
  contextHeader : Str
  bullet : Str
  minObservationChars : Nat
  maxContextChars : Nat
  autosavePath : Option Str
  autosaveEvery : Nat

def KernelConfig.default : KernelConfig where
  topK := 5
  contextHeader := "## Relevant memories".toList
  bullet := "- ".toList
  minObservationChars := 8
  maxContextChars := 2000
  autosavePath := none
  autosaveEvery := 0

/-- `String::truncate`; `none` is the panic of a cut inside a character. -/
def truncate (n : Nat) (s : Str) : Option Str := if n ≤ byteLen s then (cutAt n s).map (·.1) else some s

namespace KernelConfig

variable (config : KernelConfig)

def bulletLine (m : Str) : Str := config.bullet ++ m.map (fun c => if c = '\n' then ' ' else c) ++ ['\n']

/-- The lines after `out`, up to the first that reaches the cap. -/
def appendLines : Str → List Str → Str
  | out, [] => out
  | out, m :: rest =>
    let out := out ++ config.bulletLine m
    if config.maxContextChars ≤ byteLen out then out else appendLines out rest

def formatContext (memories : List Str) : Option Str :=
  if memories = [] then some []
  else
    let out := config.appendLines (config.contextHeader ++ ['\n']) memories
    if config.maxContextChars < byteLen out then truncate config.maxContextChars out else some out

end KernelConfig

/-! ## The kernel -/

/-- What the kernel asks of its agent. -/
structure AgentOps (A F E : Type) where
  recallScored : A → Str → Nat → Except E (List (Str × F))
  perceive : A → Str → Except E A

inductive KernelError (E : Type)
  | embed (e : E)
  | panic

structure MemoryKernel (A F : Type) where
  agent : A
  config : KernelConfig
  pendingSinceSave : Nat
  lastRecall : Option (Str × List (Str × F))

structure MemoryStep where
  context : Str
  retrieved : List Str
  storedInput : Bool

namespace MemoryKernel

variable {A F E : Type} (ops : AgentOps A F E) (k : MemoryKernel A F)

/-- The save itself is best effort. -/
def maybeAutosave : MemoryKernel A F :=
  if k.config.autosaveEvery = 0 ∨ k.pendingSinceSave < k.config.autosaveEvery then k
  else if k.config.autosavePath.isSome then { k with pendingSinceSave := 0 } else k

/-- Observations that are too short are not stored. -/
def observe (text : Str) : Except (KernelError E) (Bool × MemoryKernel A F) :=
  if (trim text).length < k.config.minObservationChars then return (false, k)
  else do
    let agent ← (ops.perceive k.agent text).mapError .embed
    return (true, maybeAutosave { k with agent, pendingSinceSave := k.pendingSinceSave + 1 })

/-- The memories for a query, and the kernel that remembers having served them. -/
def recalled (query : Str) : Except (KernelError E) (List Str × MemoryKernel A F) := do
  let scored ← (ops.recallScored k.agent query k.config.topK).mapError .embed
  return (scored.map (·.1), { k with lastRecall := some (query, scored) })

def formatted (memories : List Str) : Except (KernelError E) Str :=
  match k.config.formatContext memories with
  | some context => .ok context
  | none => .error .panic

def recallContext (query : Str) : Except (KernelError E) (Str × MemoryKernel A F) := do
  let (memories, k) ← k.recalled ops query
  return (← k.formatted memories, k)

def step (input : Str) (rememberInput : Bool) : Except (KernelError E) (MemoryStep × MemoryKernel A F) := do
  let (retrieved, k) ← k.recalled ops input
  let context ← k.formatted retrieved
  let (storedInput, k) ← if rememberInput then k.observe ops input else pure (false, k)
  return (⟨context, retrieved, storedInput⟩, k)

end MemoryKernel

/-! ## The cut -/

/-- `n` falls inside no character. -/
theorem truncate_isSome_iff {n : Nat} {s : Str} (h : n ≤ byteLen s) :
    (∃ out, truncate n s = some out) ↔ IsCharBoundary s n := by
  unfold truncate IsCharBoundary
  rw [if_pos h]
  constructor
  · rintro ⟨out, hout⟩
    obtain ⟨⟨a, b⟩, hcut, -⟩ := Option.map_eq_some_iff.mp hout
    exact ⟨a, b, cutAt_eq_some hcut⟩
  · rintro ⟨a, b, rfl, rfl⟩
    exact ⟨a, by rw [cutAt_append]; rfl⟩

namespace KernelConfig

variable {config : KernelConfig}

/-- The whole block; nothing recalled gives none. -/
def block (config : KernelConfig) (memories : List Str) : Str :=
  if memories = [] then [] else config.contextHeader ++ ['\n'] ++ memories.flatMap config.bulletLine

/-- The lines stop early only at the cap. -/
theorem appendLines_spec (out : Str) (memories : List Str) :
    ∃ rest, out ++ memories.flatMap config.bulletLine = config.appendLines out memories ++ rest ∧
      (rest = [] ∨ config.maxContextChars ≤ byteLen (config.appendLines out memories)) := by
  induction memories generalizing out with
  | nil => exact ⟨[], by simp [appendLines], .inl rfl⟩
  | cons m rest ih =>
    rw [appendLines, List.flatMap_cons, ← List.append_assoc]
    split
    · rename_i hcap
      exact ⟨rest.flatMap config.bulletLine, rfl, .inr hcap⟩
    · exact ih (out ++ config.bulletLine m)

/-- The context is a beginning of the block within the cap, and all of a block that fits. -/
def WellCut (config : KernelConfig) (memories : List Str) : Prop :=
  ∃ out, config.formatContext memories = some out ∧ out <+: config.block memories ∧
    byteLen out ≤ config.maxContextChars ∧
    (byteLen (config.block memories) ≤ config.maxContextChars → out = config.block memories)

theorem eq_of_prefix_of_byteLen {a s : Str} (h : a <+: s) (hlen : byteLen s ≤ byteLen a) : a = s := by
  obtain ⟨b, rfl⟩ := h
  rw [byteLen_append] at hlen
  rw [byteLen_eq_zero (s := b) (by omega), List.append_nil]

theorem isCharBoundary_append {out rest : Str} {n : Nat} (h : n ≤ byteLen out) :
    IsCharBoundary (out ++ rest) n ↔ IsCharBoundary out n := by
  constructor
  · rintro ⟨a, b, heq, rfl⟩
    rcases List.append_eq_append_iff.mp heq with ⟨c, rfl, -⟩ | ⟨c, rfl, -⟩
    · rw [byteLen_append] at h
      rw [byteLen_eq_zero (s := c) (by omega), List.append_nil]
      exact ⟨out, [], (List.append_nil out).symm, rfl⟩
    · exact ⟨a, c, rfl, rfl⟩
  · rintro ⟨a, b, rfl, rfl⟩
    exact ⟨a, b ++ rest, List.append_assoc a b rest, rfl⟩

theorem block_nil : config.block [] = [] := if_pos rfl

/-- Contexts are well cut exactly when the block fits or the cap is between two of its characters. -/
theorem well_cut_iff (config : KernelConfig) (memories : List Str) :
    config.WellCut memories ↔ byteLen (config.block memories) ≤ config.maxContextChars ∨
      IsCharBoundary (config.block memories) config.maxContextChars := by
  unfold WellCut formatContext
  by_cases hnone : memories = []
  · subst hnone
    rw [if_pos rfl, block_nil]
    simp
  obtain ⟨rest, hblock, hrest⟩ := config.appendLines_spec (config.contextHeader ++ ['\n']) memories
  rw [if_neg hnone, block, if_neg hnone, hblock]
  dsimp only
  generalize config.appendLines (config.contextHeader ++ ['\n']) memories = out at hrest ⊢
  by_cases hover : config.maxContextChars < byteLen out
  · -- The lines are over the cap, so all depends on the cut.
    rw [if_pos hover, isCharBoundary_append hover.le, ← truncate_isSome_iff hover.le, byteLen_append]
    have hlong : ¬ byteLen out + byteLen rest ≤ config.maxContextChars := by omega
    constructor
    · rintro ⟨cut, hcut, -⟩
      exact .inr ⟨cut, hcut⟩
    · rintro (hfits | ⟨cut, hcut⟩)
      · exact absurd hfits hlong
      · unfold truncate at hcut
        rw [if_pos hover.le] at hcut
        obtain ⟨⟨a, b⟩, hab, rfl⟩ := Option.map_eq_some_iff.mp hcut
        obtain ⟨rfl, hlen⟩ := cutAt_eq_some hab
        refine ⟨a, ?_, ⟨b ++ rest, by simp⟩, hlen.le, fun hfits => absurd hfits hlong⟩
        unfold truncate
        rw [if_pos hover.le, hab]
        rfl
  · -- The lines are within the cap: they are the block, or end at the cap.
    rw [if_neg hover]
    have hle := not_lt.mp hover
    constructor
    · intro _
      rcases hrest with rfl | hcap
      · exact .inl (by rwa [List.append_nil])
      · exact .inr ⟨out, rest, rfl, Nat.le_antisymm hle hcap⟩
    · intro _
      exact ⟨out, rfl, List.prefix_append out rest, hle, fun hfits => by
        rcases hrest with rfl | hcap
        · exact (List.append_nil out).symm
        · exact eq_of_prefix_of_byteLen (List.prefix_append out rest) (hfits.trans hcap)⟩

/-- A cap inside the `é` of the only memory. -/
theorem cut_inside_a_character :
    { KernelConfig.default with maxContextChars := 24 }.formatContext ["é".toList] = none ∧
      ¬ { KernelConfig.default with maxContextChars := 24 }.WellCut ["é".toList] := by
  have hpanic : { KernelConfig.default with maxContextChars := 24 }.formatContext ["é".toList] = none := by decide
  refine ⟨hpanic, ?_⟩
  rintro ⟨out, hout, -⟩
  rw [hpanic] at hout
  cases hout

end KernelConfig

/-! ## What the kernel returns -/

namespace MemoryKernel

variable {A F E : Type} {ops : AgentOps A F E} {k k' : MemoryKernel A F}

end MemoryKernel

end Ccos.Octasoma
