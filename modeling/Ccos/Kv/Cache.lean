import Ccos.Kv.EventLog
import Ccos.Text

/-!
# The elastic cache

An arena of tiles that are HOT, WARM or COLD. `none` is a panic: a slot out of range, the sequence
counter at its end, or a sort that gave up on an order that is not total.
-/

namespace Ccos.Kv

inductive TileState where
  | hot
  | warm
  | cold
deriving DecidableEq

inductive PageOutPolicy where
  | lowestImpactFirst
  | oldestFirst
deriving DecidableEq

inductive EvictionPolicy where
  | causal
  | importance (sinkWindow : Nat)
deriving DecidableEq

def hotBytes : Nat := 128
def warmBytes : Nat := hotBytes - residualWords * 8

/-- What the arena's vectors hold at one index. -/
structure Slot where
  tile : SciRustSlhaTile
  state : TileState
  seq : UInt64
  importance : F32
deriving DecidableEq

namespace Slot

def Live (s : Slot) : Prop := s.state ≠ .cold

instance : DecidablePred Live := fun s => inferInstanceAs (Decidable (s.state ≠ .cold))

def base (s : Slot) : Nat :=
  match s.state with
  | .hot => hotBytes
  | .warm => warmBytes
  | .cold => 0

def reclaimed (s : Slot) : Nat := if s.tile.isTq3Nocorr then s.tile.separableCorrBytes else 0

def footprint (s : Slot) : Nat :=
  match s.state with
  | .cold => 0
  | _ => s.base - s.reclaimed

end Slot

/-- `slice::sort_by` on slots. An order that is not total leaves the result open, or panics. -/
structure SlotSort where
  sortBy : (Nat → Nat → Ordering) → List Nat → Option (List Nat)
  perm {cmp : Nat → Nat → Ordering} {l sorted : List Nat} : sortBy cmp l = some sorted → sorted.Perm l
  sorted {cmp : Nat → Nat → Ordering} (l : List Nat) : Std.TransCmp cmp →
    ∃ sorted, sortBy cmp l = some sorted ∧ sorted.Pairwise fun a b => (cmp a b).isLE

/-- The free list's head is the slot pushed last. -/
structure ElasticKvCache where
  slots : List Slot
  free : List Nat
  budgetBytes : Nat
  policy : PageOutPolicy
  eviction : EvictionPolicy
  nextSeq : UInt64
  eventLog : Option EventLog
  logErrors : Nat

namespace ElasticKvCache

def new (budgetBytes : Nat) (policy : PageOutPolicy) (eviction : EvictionPolicy) : ElasticKvCache :=
  ⟨[], [], budgetBytes, policy, eviction, 0, none, 0⟩

def attachEventLog (c : ElasticKvCache) (log : EventLog) : ElasticKvCache :=
  { c with eventLog := some log }

/-! ## Slots -/

def admitSlot (c : ElasticKvCache) (tile : SciRustSlhaTile) : Slot := ⟨tile, .hot, c.nextSeq, F32.zero⟩

/-- The slot id and the cache with the tile in it. -/
def insert (c : ElasticKvCache) (tile : SciRustSlhaTile) : Option (Nat × ElasticKvCache) :=
  if c.nextSeq.toNat + 1 < 2 ^ 64 then
    match c.free with
    | s :: free =>
      if s < c.slots.length then
        some (s, { c with slots := c.slots.set s (c.admitSlot tile), free, nextSeq := c.nextSeq + 1 })
      else none
    | [] => some (c.slots.length, { c with slots := c.slots ++ [c.admitSlot tile], nextSeq := c.nextSeq + 1 })
  else none

def pageOut (c : ElasticKvCache) (s : Nat) : Option ElasticKvCache :=
  c.slots[s]?.map fun slot =>
    if slot.state = .hot then
      { c with slots := c.slots.set s { slot with tile := slot.tile.warmed, state := .warm } }
    else c

/-- Whether bytes were given back is the source's result; no caller reads it. -/
def dropCorrection (c : ElasticKvCache) (s : Nat) : Option ElasticKvCache :=
  c.slots[s]?.map fun slot =>
    if slot.state = .cold ∨ slot.tile.separableCorrBytes = 0 ∨ slot.tile.isTq3Nocorr then c
    else { c with slots := c.slots.set s { slot with tile := slot.tile.withoutCorrection } }

/-- The tile goes to the log before its slot is marked COLD. A failed append is only counted. -/
def snapshot (c : ElasticKvCache) (s : Nat) (slot : Slot) : ElasticKvCache :=
  match c.eventLog with
  | none => c
  | some log =>
    let (ok, log) := log.append slot.seq (UInt32.ofNat s) slot.tile
    { c with eventLog := some log, logErrors := if ok then c.logErrors else c.logErrors + 1 }

def evict (c : ElasticKvCache) (s : Nat) : Option ElasticKvCache :=
  c.slots[s]?.map fun slot =>
    if slot.state = .cold then c
    else
      let c := c.snapshot s slot
      { c with slots := c.slots.set s { slot with state := .cold }, free := s :: c.free }

/-- The restored tile's slot, with the cache after it. -/
def rehydrate (c : ElasticKvCache) (seq : UInt64) :
    Option (Except String (Option Nat) × ElasticKvCache) :=
  match c.eventLog with
  | none => some (.ok none, c)
  | some log =>
    match log.fetchBySeq seq with
    | .error e => some (.error e, c)
    | .ok none => some (.ok none, c)
    | .ok (some rec) => (c.insert rec.tile).map fun (s, c) => (.ok (some s), c)

def liveBytes (c : ElasticKvCache) : Nat := (c.slots.map Slot.footprint).sum

/-! ## The budget -/

def slotsWhere (c : ElasticKvCache) (p : Slot → Bool) : List Nat :=
  (List.range c.slots.length).filter fun s => c.slots[s]?.any p

def sigmaAt (c : ElasticKvCache) (s : Nat) : F32 := (c.slots[s]?.map (·.tile.residualSigma)).getD F32.zero
def seqAt (c : ElasticKvCache) (s : Nat) : UInt64 := (c.slots[s]?.map (·.seq)).getD 0
def positionAt (c : ElasticKvCache) (s : Nat) : UInt32 := (c.slots[s]?.map (·.tile.position)).getD 0
def importanceAt (c : ElasticKvCache) (s : Nat) : F32 := (c.slots[s]?.map (·.importance)).getD F32.zero

def pagingCmp (c : ElasticKvCache) (a b : Nat) : Ordering :=
  match c.policy with
  | .lowestImpactFirst => ((c.sigmaAt a).partialCmp (c.sigmaAt b)).getD .eq
  | .oldestFirst => compare (c.seqAt a) (c.seqAt b)

def slotsInPagingOrder (sorter : SlotSort) (c : ElasticKvCache) (state : TileState) : Option (List Nat) :=
  sorter.sortBy c.pagingCmp (c.slotsWhere (·.state = state))

/-- Sinks last, then the lowest importance, then the oldest. The window is cast to 32 bits. -/
def evictionCmp (c : ElasticKvCache) (a b : Nat) : Ordering :=
  match c.eviction with
  | .causal => compare (c.seqAt a) (c.seqAt b)
  | .importance sinkWindow =>
    let sw := UInt32.ofNat sinkWindow
    ((compare (decide (c.positionAt a < sw)) (decide (c.positionAt b < sw))).then
      (((c.importanceAt a).partialCmp (c.importanceAt b)).getD .eq)).then
        (compare (c.seqAt a) (c.seqAt b))

/-- One phase: `step` on slot after slot. The flag says that the budget was met before the end. -/
def phase (step : ElasticKvCache → Nat → Option ElasticKvCache) :
    ElasticKvCache → List Nat → Option (Bool × ElasticKvCache)
  | c, [] => some (false, c)
  | c, s :: rest =>
    if c.liveBytes ≤ c.budgetBytes then some (true, c)
    else (step c s).bind fun c => phase step c rest

/-- What follows a phase, unless it met the budget. -/
def orElse (done : Bool × ElasticKvCache) (next : ElasticKvCache → Option ElasticKvCache) :
    Option ElasticKvCache :=
  if done.1 then some done.2 else next done.2

def evictPhase (sorter : SlotSort) (c : ElasticKvCache) : Option ElasticKvCache := do
  let live ← sorter.sortBy c.evictionCmp (c.slotsWhere fun slot => decide slot.Live)
  let done ← phase evict c live
  return done.2

def enforceBudget (sorter : SlotSort) (c : ElasticKvCache) : Option ElasticKvCache :=
  if c.liveBytes ≤ c.budgetBytes then some c
  else do
    let done ← phase dropCorrection c (← c.slotsInPagingOrder sorter .hot)
    orElse done fun c => do
      let done ← phase pageOut c (← c.slotsInPagingOrder sorter .hot)
      orElse done fun c => do
        let done ← phase dropCorrection c (← c.slotsInPagingOrder sorter .warm)
        orElse done (evictPhase sorter)

/-! ## Runs -/

inductive Op where
  | insert (tile : SciRustSlhaTile)
  | pageOut (slot : Nat)
  | dropCorrection (slot : Nat)
  | evict (slot : Nat)
  | rehydrate (seq : UInt64)
  | enforceBudget

def step (sorter : SlotSort) (c : ElasticKvCache) : Op → Option ElasticKvCache
  | .insert tile => (c.insert tile).map Prod.snd
  | .pageOut s => c.pageOut s
  | .dropCorrection s => c.dropCorrection s
  | .evict s => c.evict s
  | .rehydrate seq => (c.rehydrate seq).map Prod.snd
  | .enforceBudget => c.enforceBudget sorter

def run (sorter : SlotSort) (c : ElasticKvCache) (ops : List Op) : Option ElasticKvCache :=
  ops.foldlM (step sorter) c

end ElasticKvCache

end Ccos.Kv
