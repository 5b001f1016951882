import Ccos.Lib.Journal
import Ccos.Log.EventLog
import Ccos.Rsi.Expr
import Ccos.Swarm.Protocol

/-!
# The audits of the swarm

Two audits read the journal of the swarm, each into a hash chain of its own: one beside the swarm, and one into the
event log of the host. An audit takes the events after the last one it has.
-/

open Std HashChain Journal

namespace Ccos

/-- `format!("{:.9}")`: a sign, digits and a point, or the name of what is no number. -/
class Fixed9 (F : Type) where
  fixed9 : F → Str
  clean : ∀ x, ';' ∉ fixed9 x

export Fixed9 (fixed9)

/-! ## The chain beside the swarm -/

namespace Rsi

structure TraceEvent where
  sequenceNumber : Nat
  prevHash : Hash
  hash : Hash
  eventType : Str
  payload : Str
  deriving DecidableEq

abbrev HashChainLog := List TraceEvent

namespace HashChainLog

def linkHash (sha256 : Str → Hash) (prev : Hash) (seq : Nat) (eventType payload : Str) : Hash :=
  sha256 (prev ++ '|' :: natStr seq ++ '|' :: eventType ++ '|' :: payload)

def chainHead (log : HashChainLog) : Hash := (log.getLast?.map (·.hash)).getD genesis

def recordCustom (sha256 : Str → Hash) (log : HashChainLog) (eventType payload : Str) : HashChainLog :=
  let prev := log.chainHead
  log ++ [{ sequenceNumber := log.length, prevHash := prev, hash := linkHash sha256 prev log.length eventType payload
            eventType, payload }]

def verifyFrom (sha256 : Str → Hash) : Hash → HashChainLog → Bool
  | _, [] => true
  | prev, e :: rest =>
    if e.prevHash ≠ prev then false
    else if linkHash sha256 e.prevHash e.sequenceNumber e.eventType e.payload ≠ e.hash then false
    else verifyFrom sha256 e.hash rest

def verify (sha256 : Str → Hash) (log : HashChainLog) : Bool := verifyFrom sha256 genesis log

end HashChainLog

end Rsi

/-! ## The texts of the events -/

def RejectionReason.name : RejectionReason → Str
  | .insufficientSafeGain => "insufficient_safe_gain".toList
  | .sourceTooRisky => "source_too_risky".toList
  | .incompatibleStrategy => "incompatible_strategy".toList
  | .noProjectedGain => "no_projected_gain".toList

def canonicalSwarmPayload {F : Type} [Fixed9 F] (event : SwarmEvent F) : Str :=
  let body := match event.message with
    | .health sender t siGlobal siSafe riskGlobal maxRpn =>
      "kind=health;from=".toList ++ natStr sender.toNat ++ ";t=".toList ++ natStr t ++
        ";si=".toList ++ fixed9 siGlobal ++ ";safe=".toList ++ fixed9 siSafe ++
        ";risk=".toList ++ fixed9 riskGlobal ++ ";rpn=".toList ++ fixed9 maxRpn
    | .strategyOffer sender strategyDigest siSafe =>
      "kind=offer;from=".toList ++ natStr sender.toNat ++ ";strategy=".toList ++ natStr strategyDigest.toNat ++
        ";safe=".toList ++ fixed9 siSafe
    | .strategyAdopted unit sender strategyDigest =>
      "kind=adopted;by=".toList ++ natStr unit.toNat ++ ";from=".toList ++ natStr sender.toNat ++
        ";strategy=".toList ++ natStr strategyDigest.toNat
    | .strategyRejected unit sender reason =>
      "kind=rejected;by=".toList ++ natStr unit.toNat ++ ";from=".toList ++ natStr sender.toNat ++
        ";reason=".toList ++ reason.name
    | .shutdown unit => "kind=shutdown;unit=".toList ++ natStr unit.toNat
  "seq=".toList ++ natStr event.seq.toNat ++ ';' :: body

/-- A message with its numbers rewritten. -/
def SwarmMessage.map {F G : Type} (f : F → G) : SwarmMessage F → SwarmMessage G
  | .health sender t siGlobal siSafe riskGlobal maxRpn =>
    .health sender t (f siGlobal) (f siSafe) (f riskGlobal) (f maxRpn)
  | .strategyOffer sender strategyDigest siSafe => .strategyOffer sender strategyDigest (f siSafe)
  | .strategyAdopted unit sender strategyDigest => .strategyAdopted unit sender strategyDigest
  | .strategyRejected unit sender reason => .strategyRejected unit sender reason
  | .shutdown unit => .shutdown unit

/-- An event to nine decimals. -/
def SwarmEvent.shown {F : Type} [Fixed9 F] (event : SwarmEvent F) : SwarmEvent Str :=
  { seq := event.seq, message := event.message.map fixed9 }

/-! ## The audits -/

structure SequenceGap where
  expected : UInt64
  got : UInt64
  deriving DecidableEq, Repr

/-- A log of the events up to `lastSeq`. -/
structure SwarmMirror (L : Type) where
  log : L
  lastSeq : UInt64
  deriving DecidableEq

namespace SwarmMirror

variable {L F : Type}

def saturatingSucc (n : UInt64) : UInt64 := if n.toNat + 1 < 2 ^ 64 then n + 1 else n

/-- The unseen events are numbered one after the other. -/
def checkSequence : UInt64 → List (SwarmEvent F) → Except SequenceGap Unit
  | _, [] => .ok ()
  | expected, event :: rest =>
    if event.seq ≠ expected then .error { expected, got := event.seq } else checkSequence (saturatingSucc expected) rest

/-- What both audits do with a batch; they differ in what they record. -/
def ingest (record : L → SwarmEvent F → L) (m : SwarmMirror L) (events : List (SwarmEvent F)) :
    Except SequenceGap Nat × SwarmMirror L :=
  let pending := events.filter (m.lastSeq < ·.seq)
  match checkSequence (saturatingSucc m.lastSeq) pending with
  | .error gap => (.error gap, m)
  | .ok () =>
    (.ok pending.length,
      { log := pending.foldl record m.log, lastSeq := (pending.getLast?.map (·.seq)).getD m.lastSeq })

end SwarmMirror

abbrev SwarmAuditLog := SwarmMirror Rsi.HashChainLog

namespace SwarmAuditLog

variable {A F : Type} [Fixed9 F]

def new : SwarmAuditLog := { log := [], lastSeq := 0 }

def record (sha256 : Str → Hash) (log : Rsi.HashChainLog) (event : SwarmEvent F) : Rsi.HashChainLog :=
  log.recordCustom sha256 "rsi_swarm".toList (canonicalSwarmPayload event)

def ingest (sha256 : Str → Hash) (m : SwarmAuditLog) (events : List (SwarmEvent F)) :
    Except SequenceGap Nat × SwarmAuditLog := SwarmMirror.ingest (record sha256) m events

def sync (sha256 : Str → Hash) (m : SwarmAuditLog) (o : CervoOrchestrator A F) :
    Except SequenceGap Nat × SwarmAuditLog := ingest sha256 m o.events

end SwarmAuditLog

abbrev CcosSwarmAudit (F : Type) := SwarmMirror (EventLog F)

namespace CcosSwarmAudit

variable {A F : Type} [Fixed9 F]

def new : CcosSwarmAudit F := { log := [], lastSeq := 0 }

def record (t : LogTools F) (log : EventLog F) (event : SwarmEvent F) : EventLog F :=
  log.append t .agentAction (.custom "rsi_swarm".toList (canonicalSwarmPayload event))

def ingest (t : LogTools F) (m : CcosSwarmAudit F) (events : List (SwarmEvent F)) :
    Except SequenceGap Nat × CcosSwarmAudit F := SwarmMirror.ingest (record t) m events

def sync (t : LogTools F) (m : CcosSwarmAudit F) (o : CervoOrchestrator A F) :
    Except SequenceGap Nat × CcosSwarmAudit F := ingest t m o.events

end CcosSwarmAudit

/-! ## A swarm with its audits -/

inductive SwarmSink
  | rsi | ccos

/-- What a host does with a swarm and its audits. An audit is handed any stretch of the journal, or all of it. -/
inductive SwarmAuditOp (A : Type)
  | swarm (op : SwarmOp A)
  | ingest (sink : SwarmSink) (start stop : Nat)
  | sync (sink : SwarmSink)

structure AuditedSwarm (A F : Type) where
  orchestrator : CervoOrchestrator A F
  rsi : SwarmAuditLog
  ccos : CcosSwarmAudit F

namespace AuditedSwarm

variable {A F : Type} [Float64 F] [RSIAgent A F] [Fixed9 F]

def start (o : CervoOrchestrator A F) : AuditedSwarm A F := { orchestrator := o, rsi := .new, ccos := .new }

def deliver (t : LogTools F) (s : AuditedSwarm A F) (events : List (SwarmEvent F)) : SwarmSink → AuditedSwarm A F
  | .rsi => { s with rsi := (s.rsi.ingest t.sha256 events).2 }
  | .ccos => { s with ccos := (s.ccos.ingest t events).2 }

def step (t : LogTools F) (s : AuditedSwarm A F) : SwarmAuditOp A → Option (AuditedSwarm A F)
  | .swarm op => (s.orchestrator.step op).map fun o => { s with orchestrator := o }
  | .ingest sink start stop => some (s.deliver t ((s.orchestrator.events.take stop).drop start) sink)
  | .sync sink => some (s.deliver t s.orchestrator.events sink)

/-- A run that returns. -/
def run (t : LogTools F) (s : AuditedSwarm A F) (ops : List (SwarmAuditOp A)) : Option (AuditedSwarm A F) :=
  ops.foldlM (step t) s

end AuditedSwarm

/-! ## A payload shows its event -/

/-- The fields of a shown event. -/
def swarmFields (event : SwarmEvent Str) : List Str :=
  ("seq=".toList ++ natStr event.seq.toNat) :: match event.message with
  | .health sender t siGlobal siSafe riskGlobal maxRpn =>
    ["kind=health".toList, "from=".toList ++ natStr sender.toNat, "t=".toList ++ natStr t, "si=".toList ++ siGlobal,
      "safe=".toList ++ siSafe, "risk=".toList ++ riskGlobal, "rpn=".toList ++ maxRpn]
  | .strategyOffer sender strategyDigest siSafe =>
    ["kind=offer".toList, "from=".toList ++ natStr sender.toNat, "strategy=".toList ++ natStr strategyDigest.toNat,
      "safe=".toList ++ siSafe]
  | .strategyAdopted unit sender strategyDigest =>
    ["kind=adopted".toList, "by=".toList ++ natStr unit.toNat, "from=".toList ++ natStr sender.toNat,
      "strategy=".toList ++ natStr strategyDigest.toNat]
  | .strategyRejected unit sender reason =>
    ["kind=rejected".toList, "by=".toList ++ natStr unit.toNat, "from=".toList ++ natStr sender.toNat,
      "reason=".toList ++ reason.name]
  | .shutdown unit => ["kind=shutdown".toList, "unit=".toList ++ natStr unit.toNat]

theorem semicolon_not_mem_natStr (n : Nat) : ';' ∉ natStr n := by
  intro h
  rw [natStr, Nat.toList_repr] at h
  have := Nat.isDigit_of_mem_toDigits (by decide) (by decide) h
  revert this
  decide

theorem semicolon_not_mem_name (reason : RejectionReason) : ';' ∉ reason.name := by
  cases reason <;> decide

theorem name_injective : Function.Injective RejectionReason.name := by
  intro a b h
  revert h
  cases a <;> cases b <;> decide

theorem swarmFields_injective : Function.Injective swarmFields := by
  rintro ⟨seq, message⟩ ⟨seq', message'⟩ h
  obtain ⟨hseq, hfields⟩ := List.cons.inj h
  obtain rfl := UInt64.toNat_inj.mp (natStr_injective (List.append_cancel_left hseq))
  congr 1
  cases message <;> cases message' <;>
    simp_all [natStr_injective.eq_iff, UInt64.toNat_inj, name_injective.eq_iff]

section

variable {F : Type} [Fixed9 F]

theorem canonicalSwarmPayload_eq (event : SwarmEvent F) :
    canonicalSwarmPayload event = List.intercalate [';'] (swarmFields event.shown) := by
  obtain ⟨seq, message⟩ := event
  cases message <;> simp [canonicalSwarmPayload, swarmFields, SwarmEvent.shown, SwarmMessage.map]

theorem semicolon_not_mem_swarmFields (event : SwarmEvent F) : ∀ field ∈ swarmFields event.shown, ';' ∉ field := by
  obtain ⟨seq, message⟩ := event
  cases message <;>
    simp [swarmFields, SwarmEvent.shown, SwarmMessage.map, semicolon_not_mem_natStr, semicolon_not_mem_name,
      Fixed9.clean]

/-- A payload shows the number and the message of its event, to nine decimals, and nothing else. -/
theorem canonicalSwarmPayload_inj {event event' : SwarmEvent F} :
    canonicalSwarmPayload event = canonicalSwarmPayload event' ↔ event.shown = event'.shown := by
  rw [canonicalSwarmPayload_eq, canonicalSwarmPayload_eq]
  refine ⟨fun h => swarmFields_injective ?_, fun h => by rw [h]⟩
  have hsplit : ∀ e : SwarmEvent F,
      (List.intercalate [';'] (swarmFields e.shown)).splitOn ';' = swarmFields e.shown :=
    fun e => List.splitOn_intercalate ';' (semicolon_not_mem_swarmFields e) (List.cons_ne_nil _ _)
  rw [← hsplit event, h, hsplit]

theorem map_payload_eq {events events' : List (SwarmEvent F)} :
    events.map canonicalSwarmPayload = events'.map canonicalSwarmPayload ↔
      events.map (·.shown) = events'.map (·.shown) := by
  induction events generalizing events' with
  | nil => simp
  | cons event events ih =>
    cases events' with
    | nil => simp
    | cons event' events' =>
      simp only [List.map_cons, List.cons.injEq, ih, canonicalSwarmPayload_inj]

end

/-! ## An audit follows the journal -/

namespace SwarmMirror

variable {L F : Type} {record : L → SwarmEvent F → L} {journal : List (SwarmEvent F)} {m : SwarmMirror L}

/-- The log holds the events of the journal up to `lastSeq`, each once and in order. -/
structure Follows (record : L → SwarmEvent F → L) (empty : L) (journal : List (SwarmEvent F))
    (m : SwarmMirror L) : Prop where
  held : m.lastSeq.toNat ≤ journal.length
  log_eq : m.log = (journal.take m.lastSeq.toNat).foldl record empty

/-- A stretch of the journal that starts no later than the log ends takes the log to its end. A later one is refused,
and nothing of it is recorded. -/
def Takes (record : L → SwarmEvent F → L) (journal : List (SwarmEvent F)) (m : SwarmMirror L) : Prop :=
  ∀ start stop,
    (start ≤ m.lastSeq.toNat →
      (m.ingest record ((journal.take stop).drop start)).1 = .ok (min stop journal.length - m.lastSeq.toNat) ∧
        (m.ingest record ((journal.take stop).drop start)).2.lastSeq.toNat =
          max m.lastSeq.toNat (min stop journal.length)) ∧
      (m.lastSeq.toNat < start → start < min stop journal.length →
        m.ingest record ((journal.take stop).drop start) =
          (.error { expected := m.lastSeq + 1, got := UInt64.ofNat (start + 1) }, m))

theorem toNat_saturatingSucc {n : UInt64} (h : n.toNat + 1 < 2 ^ 64) : (saturatingSucc n).toNat = n.toNat + 1 := by
  rw [saturatingSucc, if_pos h, UInt64.toNat_add]
  exact Nat.mod_eq_of_lt h

theorem checkSequence_numbered {n : UInt64} {events : List (SwarmEvent F)}
    (h : Numbered (·.seq.toNat) n.toNat events) (hroom : n.toNat + events.length ≤ 2 ^ 64) :
    checkSequence n events = .ok () := by
  induction events generalizing n with
  | nil => rfl
  | cons event events ih =>
    obtain ⟨hseq, hrest⟩ := numbered_cons.mp h
    rw [checkSequence, if_neg (not_not.mpr (UInt64.toNat_inj.mp hseq))]
    cases events with
    | nil => rfl
    | cons next events =>
      simp only [List.length_cons] at hroom
      have hsucc := toNat_saturatingSucc (n := n) (by omega)
      refine ih (hsucc ▸ hrest) ?_
      simp only [hsucc, List.length_cons]
      omega

/-- The number of the last event of a numbered stretch. -/
theorem toNat_last_numbered {n : UInt64} {events : List (SwarmEvent F)}
    (h : Numbered (·.seq.toNat) (n.toNat + 1) events) :
    ((events.getLast?.map (·.seq)).getD n).toNat = n.toNat + events.length := by
  induction events generalizing n with
  | nil => rfl
  | cons event events ih =>
    obtain ⟨hseq, hrest⟩ := numbered_cons.mp h
    have hlast := ih (n := event.seq) (hseq ▸ hrest)
    rw [List.getLast?_cons, Option.map_some, Option.getD_some, List.length_cons]
    cases hevents : events.getLast? with
    | none =>
      rw [List.getLast?_eq_none_iff.mp hevents]
      exact hseq
    | some last =>
      rw [hevents, Option.map_some, Option.getD_some] at hlast
      rw [Option.getD_some, hlast, hseq]
      omega

theorem ingest_numbered {events pending : List (SwarmEvent F)} (hpending : events.filter (m.lastSeq < ·.seq) = pending)
    (h : Numbered (·.seq.toNat) (m.lastSeq.toNat + 1) pending)
    (hroom : m.lastSeq.toNat + 1 + pending.length < 2 ^ 64) :
    (m.ingest record events).1 = .ok pending.length ∧
      (m.ingest record events).2.log = pending.foldl record m.log ∧
      (m.ingest record events).2.lastSeq.toNat = m.lastSeq.toNat + pending.length := by
  have hsucc := toNat_saturatingSucc (n := m.lastSeq) (by omega)
  have hcheck := checkSequence_numbered (hsucc ▸ h) (by omega)
  simp only [ingest, hpending, hcheck, true_and]
  exact toNat_last_numbered h

section

variable (hjournal : Numbered (·.seq.toNat) 1 journal) (hroom : journal.length ≤ maxEvents)
include hjournal

/-- The unseen events of a stretch of the journal. -/
theorem pending_stretch (start stop : Nat) :
    ((journal.take stop).drop start).filter (m.lastSeq < ·.seq) =
      ((journal.take stop).drop start).drop (m.lastSeq.toNat - start) := by
  have hfilter := ((hjournal.take stop).drop start).filter_lt m.lastSeq.toNat
  rw [show m.lastSeq.toNat + 1 - (1 + start) = m.lastSeq.toNat - start by omega] at hfilter
  exact hfilter

include hroom

variable (record) in
theorem ingest_joined {start : Nat} (stop : Nat) (hstart : start ≤ m.lastSeq.toNat)
    (hheld : m.lastSeq.toNat ≤ journal.length) :
    (m.ingest record ((journal.take stop).drop start)).1 = .ok ((journal.take stop).drop m.lastSeq.toNat).length ∧
      (m.ingest record ((journal.take stop).drop start)).2.log =
        ((journal.take stop).drop m.lastSeq.toNat).foldl record m.log ∧
      (m.ingest record ((journal.take stop).drop start)).2.lastSeq.toNat =
        m.lastSeq.toNat + ((journal.take stop).drop m.lastSeq.toNat).length := by
  have hpending := pending_stretch (m := m) hjournal start stop
  rw [List.drop_drop, show start + (m.lastSeq.toNat - start) = m.lastSeq.toNat by omega] at hpending
  refine ingest_numbered hpending ?_ ?_
  · rw [Nat.add_comm]
    exact (hjournal.take stop).drop m.lastSeq.toNat
  · rw [List.length_drop, List.length_take]
    unfold maxEvents at hroom
    omega

variable (record) in
theorem ingest_gap {start : Nat} (stop : Nat) (hstart : m.lastSeq.toNat < start)
    (hheld : m.lastSeq.toNat ≤ journal.length) :
    (m.ingest record ((journal.take stop).drop start)).2 = m ∧
      (start < min stop journal.length →
        (m.ingest record ((journal.take stop).drop start)).1 =
          .error { expected := m.lastSeq + 1, got := UInt64.ofNat (start + 1) }) := by
  have hpending := pending_stretch (m := m) hjournal start stop
  rw [show m.lastSeq.toNat - start = 0 by omega, List.drop_zero] at hpending
  have hnumbered := (hjournal.take stop).drop start
  have hlength : ((journal.take stop).drop start).length = min stop journal.length - start := by
    rw [List.length_drop, List.length_take]
  have hsucc : saturatingSucc m.lastSeq = m.lastSeq + 1 := by
    unfold maxEvents at hroom
    exact if_pos (by omega)
  have hsuccNat : (m.lastSeq + 1).toNat = m.lastSeq.toNat + 1 := by
    unfold maxEvents at hroom
    exact hsucc ▸ toNat_saturatingSucc (by omega)
  simp only [ingest, hpending, hsucc]
  generalize (journal.take stop).drop start = stretch at hnumbered hlength
  cases stretch with
  | nil =>
    refine ⟨rfl, fun hlt => ?_⟩
    rw [List.length_nil] at hlength
    omega
  | cons event rest =>
    obtain ⟨hseq, -⟩ := numbered_cons.mp hnumbered
    have hne : event.seq ≠ m.lastSeq + 1 := by
      intro heq
      rw [heq, hsuccNat] at hseq
      omega
    have hgot : event.seq = UInt64.ofNat (start + 1) := by
      rw [Nat.add_comm, ← hseq, UInt64.ofNat_toNat]
    have hcheck : checkSequence (m.lastSeq + 1) (event :: rest) =
        .error { expected := m.lastSeq + 1, got := UInt64.ofNat (start + 1) } := by
      rw [checkSequence, if_pos hne, hgot]
    simp only [hcheck, implies_true, and_self]

variable {empty : L}

/-- Whatever stretch it is handed, an audit goes on following the journal. -/
theorem Follows.ingest (h : Follows record empty journal m) (start stop : Nat) :
    Follows record empty journal (m.ingest record ((journal.take stop).drop start)).2 := by
  rcases Nat.lt_or_ge m.lastSeq.toNat start with hlt | hle
  · rw [(ingest_gap record hjournal hroom stop hlt h.held).1]
    exact h
  · obtain ⟨-, hlog, hseq⟩ := ingest_joined record hjournal hroom stop hle h.held
    constructor
    · rw [hseq, List.length_drop, List.length_take]
      have hheld := h.held
      omega
    · rw [hlog, hseq, h.log_eq, ← List.foldl_append, take_append_drop_take]

theorem Follows.takes (h : Follows record empty journal m) : Takes record journal m := by
  have hheld := h.held
  intro start stop
  constructor
  · intro hle
    obtain ⟨hanswer, -, hseq⟩ := ingest_joined record hjournal hroom stop hle hheld
    rw [hanswer, hseq, List.length_drop, List.length_take]
    exact ⟨rfl, by omega⟩
  · intro hlt hlen
    obtain ⟨hsame, hanswer⟩ := ingest_gap record hjournal hroom stop hlt hheld
    exact Prod.ext (hanswer hlen) hsame

end

/-- The journal grows only at its end. -/
theorem Follows.grow {empty : L} (h : Follows record empty journal m) (later : List (SwarmEvent F)) :
    Follows record empty (journal ++ later) m where
  held := by
    rw [List.length_append]
    exact Nat.le_add_right_of_le h.held
  log_eq := by rw [List.take_append_of_le_length h.held, h.log_eq]

end SwarmMirror

/-! ## What the logs hold -/

namespace Rsi.HashChainLog

variable {sha256 : Str → Hash}

theorem chainHead_eq (log : HashChainLog) : log.chainHead = head genesis (log.map (·.hash)) := by
  rw [chainHead, head, List.getLast?_map]

theorem verifyFrom_recordCustom {prev : Hash} {log : HashChainLog} (h : verifyFrom sha256 prev log = true) (seq : Nat)
    (eventType payload : Str) :
    verifyFrom sha256 prev (log ++ [{
      sequenceNumber := seq, prevHash := head prev (log.map (·.hash))
      hash := linkHash sha256 (head prev (log.map (·.hash))) seq eventType payload, eventType, payload }]) = true := by
  induction log generalizing prev with
  | nil => simp [verifyFrom]
  | cons e rest ih =>
    rw [verifyFrom] at h
    split at h
    · cases h
    · next hprev =>
      split at h
      · cases h
      · next hhash =>
        rw [List.cons_append, verifyFrom, if_neg hprev, if_neg hhash, List.map_cons, head_cons]
        exact ih h

theorem verify_recordCustom {log : HashChainLog} (h : log.verify sha256 = true) (eventType payload : Str) :
    (log.recordCustom sha256 eventType payload).verify sha256 = true := by
  rw [recordCustom, chainHead_eq]
  exact verifyFrom_recordCustom h log.length eventType payload

end Rsi.HashChainLog

namespace SwarmAuditLog

variable {F : Type} [Fixed9 F] (sha256 : Str → Hash) (events : List (SwarmEvent F))

theorem map_payload_foldl (log : Rsi.HashChainLog) :
    (events.foldl (record sha256) log).map (fun e => (e.eventType, e.payload)) =
      log.map (fun e => (e.eventType, e.payload)) ++
        events.map fun e => ("rsi_swarm".toList, canonicalSwarmPayload e) := by
  induction events generalizing log with
  | nil => simp
  | cons event events ih =>
    rw [List.foldl_cons, ih, record, Rsi.HashChainLog.recordCustom, List.map_append, List.append_assoc]
    rfl

theorem verify_foldl {log : Rsi.HashChainLog} (h : log.verify sha256 = true) :
    (events.foldl (record sha256) log).verify sha256 = true := by
  induction events generalizing log with
  | nil => exact h
  | cons event events ih => exact ih (Rsi.HashChainLog.verify_recordCustom h _ _)

end SwarmAuditLog

namespace CcosSwarmAudit

variable {F : Type} [Fixed9 F] (t : LogTools F) (events : List (SwarmEvent F))

theorem map_payload_foldl (log : EventLog F) :
    (events.foldl (record t) log).map (fun e => (e.eventType, e.payload)) =
      log.map (fun e => (e.eventType, e.payload)) ++
        events.map fun e => (.agentAction, .custom "rsi_swarm".toList (canonicalSwarmPayload e)) := by
  induction events generalizing log with
  | nil => simp
  | cons event events ih =>
    rw [List.foldl_cons, ih, record, EventLog.append, List.map_append, List.append_assoc]
    rfl

theorem valid_foldl {log : EventLog F} (h : (log.verifyIntegrity t).valid = true) :
    ((events.foldl (record t) log).verifyIntegrity t).valid = true := by
  induction events generalizing log with
  | nil => exact h
  | cons event events ih => exact ih (EventLog.append_valid h _ _)

end CcosSwarmAudit

/-! ## What the heads commit to -/

section

variable {F : Type} [Fixed9 F] {digest : List UInt8 → List UInt8} {json : EventPayload F → Str}

/-- The link over one payload of the swarm. -/
def swarmLink (sha256 : Str → Hash) (prev : Hash) (seq : Nat) (payload : Str) : Hash :=
  Rsi.HashChainLog.linkHash sha256 prev seq "rsi_swarm".toList payload

theorem committing_swarmLink (hinj : Function.Injective (sha256Hex digest)) :
    Committing (swarmLink (sha256Hex digest)) (fun prev => '|' ∉ prev) genesis where
  good_start := by decide
  good_link _ _ _ := bar_not_mem_lowerHex _
  injective := by
    intro prev prev' seq seq' payload payload' hprev hprev' h
    have htext := hinj h
    simp only [List.append_assoc, List.cons_append] at htext
    obtain ⟨rfl, hrest⟩ := append_sep_inj hprev hprev' htext
    obtain ⟨-, hrest⟩ := append_sep_inj (bar_not_mem_natStr _) (bar_not_mem_natStr _) hrest
    exact ⟨rfl, (List.cons.inj (List.append_cancel_left hrest)).2⟩
  ne_start _ _ _ := lowerHex_ne_genesis _

theorem SwarmAuditLog.hashes_foldl (sha256 : Str → Hash) (events : List (SwarmEvent F)) :
    (events.foldl (record sha256) []).map (·.hash) =
      linksOf (swarmLink sha256) genesis 0 (events.map canonicalSwarmPayload) := by
  induction events using List.reverseRecOn with
  | nil => rfl
  | append_singleton events event ih =>
    have hlength := congrArg List.length (map_payload_foldl sha256 events [])
    rw [List.length_map, List.map_nil, List.nil_append, List.length_map] at hlength
    rw [List.foldl_append, List.map_append, List.map_singleton, linksOf_snoc, ← ih, List.length_map, Nat.zero_add,
      List.foldl_cons, List.foldl_nil, record, Rsi.HashChainLog.recordCustom, Rsi.HashChainLog.chainHead_eq,
      List.map_append, hlength]
    rfl

/-- The head of the chain beside the swarm shows the events to nine decimals. -/
theorem SwarmAuditLog.chainHead_foldl (hinj : Function.Injective (sha256Hex digest))
    {events events' : List (SwarmEvent F)} :
    (events.foldl (record (sha256Hex digest)) []).chainHead = (events'.foldl (record (sha256Hex digest)) []).chainHead ↔
      events.map (·.shown) = events'.map (·.shown) := by
  rw [Rsi.HashChainLog.chainHead_eq, Rsi.HashChainLog.chainHead_eq, hashes_foldl, hashes_foldl, ← map_payload_eq]
  exact ⟨(committing_swarmLink hinj).eq_of_head_eq, fun h => by rw [h]⟩

/-- So does the head of the event log, whose payloads print as different JSON when they differ. -/
theorem CcosSwarmAudit.chainHead_foldl (hinj : Function.Injective (sha256Hex digest))
    (hjson : ∀ key, Function.Injective fun value => json (.custom key value)) {events events' : List (SwarmEvent F)} :
    (events.foldl (record (.ofDigest digest json)) []).chainHead =
        (events'.foldl (record (.ofDigest digest json)) []).chainHead ↔
      events.map (·.shown) = events'.map (·.shown) := by
  rw [← map_payload_eq]
  constructor
  · intro hhead
    have hlinked : ∀ l : List (SwarmEvent F), EventLog.Linked (.ofDigest digest json) genesis
        (l.foldl (record (.ofDigest digest json)) []) :=
      fun l => (EventLog.verifyIntegrity_valid _ _).mp (valid_foldl _ l rfl)
    have hentries := (EventLog.entries_eq_of_head_eq hinj (hlinked events') (hlinked events) hhead).1
    have hpayload : ∀ l : List (SwarmEvent F),
        ((l.foldl (record (.ofDigest digest json)) []).map (EventLog.entry (.ofDigest digest json))).map (·.2.2) =
          (l.map canonicalSwarmPayload).map fun value => json (.custom "rsi_swarm".toList value) := by
      intro l
      have h := congrArg (List.map fun p : EventType × EventPayload F => json p.2)
        (map_payload_foldl (.ofDigest digest json) l [])
      simpa [List.map_map, Function.comp_def, EventLog.entry, LogTools.ofDigest] using h
    have h := congrArg (List.map (·.2.2)) hentries
    rw [hpayload, hpayload] at h
    exact List.map_injective_iff.mpr (hjson _) h
  · intro h
    have hfold : ∀ l : List (SwarmEvent F), l.foldl (record (.ofDigest digest json)) [] =
        (l.map canonicalSwarmPayload).foldl
          (fun log payload => EventLog.append (.ofDigest digest json) log .agentAction
            (.custom "rsi_swarm".toList payload)) [] := by
      intro l
      rw [List.foldl_map]
      rfl
    rw [hfold, hfold, h]

end

/-! ## Runs -/

namespace CervoOrchestrator

variable {A F : Type}

/-- The numbers and the messages determine the events. -/
theorem events_eq {l l' : List (SwarmEvent F)} (hseq : l.map (·.seq.toNat) = l'.map (·.seq.toNat))
    (hmessage : l.map (·.message) = l'.map (·.message)) : l = l' := by
  induction l generalizing l' with
  | nil => exact (List.map_eq_nil_iff.mp hseq.symm).symm
  | cons e l ih =>
    cases l' with
    | nil => cases hseq
    | cons e' l' =>
      simp only [List.map_cons, List.cons.injEq] at hseq hmessage
      have he : e = e' := by
        cases e
        cases e'
        exact congrArg₂ SwarmEvent.mk (UInt64.toNat_inj.mp hseq.1) hmessage.1
      rw [he, ih hseq.2 hmessage.2]

/-- What has been published stays as it is. -/
theorem prefix_of_messages {o o' : CervoOrchestrator A F} (ho : o.Counted []) (ho' : o'.Counted [])
    {segment : List (SwarmMessage F)} (h : o'.messages = o.messages ++ segment) : o.events <+: o'.events := by
  have hlength : o.messages.length = o.events.length := List.length_map _
  have hlength' : o'.messages.length = o'.events.length := List.length_map _
  have hle : o.events.length ≤ o'.events.length := by
    rw [← hlength, ← hlength', h, List.length_append]
    exact Nat.le_add_right _ _
  have htake : o'.events.take o.events.length = o.events := by
    apply events_eq
    · have hnumbered : Numbered (·.seq.toNat) 1 (o'.events.take o.events.length) := Numbered.take ho'.seqs _
      rw [Numbered, List.length_take, Nat.min_eq_left hle, ← ho.seqs] at hnumbered
      exact hnumbered
    · have hprefix : o'.messages.take o.events.length = o.messages := by
        rw [h, ← hlength, List.take_left]
      rwa [messages, ← List.map_take] at hprefix
  exact htake ▸ List.take_prefix _ _

end CervoOrchestrator

namespace AuditedSwarm

variable {A F : Type} [Fixed9 F]

/-- The journal is numbered, and both audits follow it. -/
structure Audited (t : LogTools F) (s : AuditedSwarm A F) : Prop where
  counted : s.orchestrator.Counted []
  rsi : s.rsi.Follows (SwarmAuditLog.record t.sha256) [] s.orchestrator.events
  ccos : s.ccos.Follows (CcosSwarmAudit.record t) [] s.orchestrator.events

variable {t : LogTools F} {s s' : AuditedSwarm A F}

theorem Audited.deliver (h : s.Audited t) (first last : Nat) (sink : SwarmSink) :
    (s.deliver t ((s.orchestrator.events.take last).drop first) sink).Audited t := by
  cases sink with
  | rsi => exact ⟨h.counted, h.rsi.ingest h.counted.seqs h.counted.room first last, h.ccos⟩
  | ccos => exact ⟨h.counted, h.rsi, h.ccos.ingest h.counted.seqs h.counted.room first last⟩

variable [Float64 F] [RSIAgent A F] [TransCmp (Float64.totalCmp : F → F → Ordering)]

theorem audited_start (config : OrchestratorConfig F) :
    (start (.ofConfig config) : AuditedSwarm A F).Audited t where
  counted := CervoOrchestrator.counted_ofConfig config
  rsi := ⟨Nat.zero_le _, rfl⟩
  ccos := ⟨Nat.zero_le _, rfl⟩

theorem Audited.step (h : s.Audited t) {op : SwarmAuditOp A} (hstep : s.step t op = some s') : s'.Audited t := by
  cases op with
  | swarm op =>
    obtain ⟨o, ho, rfl⟩ := Option.map_eq_some_iff.mp hstep
    obtain ⟨segment, -, hmessages, -, hcounted⟩ := CervoOrchestrator.step_spec ho
    have ho := hcounted h.counted
    obtain ⟨later, hlater⟩ := CervoOrchestrator.prefix_of_messages h.counted ho hmessages
    exact ⟨ho, hlater ▸ h.rsi.grow later, hlater ▸ h.ccos.grow later⟩
  | ingest sink first last =>
    obtain rfl := Option.some.inj hstep
    exact h.deliver first last sink
  | sync sink =>
    obtain rfl := Option.some.inj hstep
    have hall := h.deliver 0 s.orchestrator.events.length sink
    rwa [List.drop_zero, List.take_length] at hall

theorem Audited.run (h : s.Audited t) {ops : List (SwarmAuditOp A)} (hrun : s.run t ops = some s') : s'.Audited t := by
  induction ops generalizing s with
  | nil =>
    obtain rfl := Option.some.inj hrun
    exact h
  | cons op ops ih =>
    obtain ⟨mid, hmid, hrest⟩ := Option.bind_eq_some_iff.mp (List.foldlM_cons.symm.trans hrun)
    exact ih (h.step hmid) hrest

/-- In every run, whatever the order in which the swarm moves and the audits are handed stretches of its journal: each
log holds the canonical payloads of a prefix of the journal and verifies, and depends on nothing but the length of
that prefix. -/
theorem audits_follow_journal {config : OrchestratorConfig F} {o : CervoOrchestrator A F}
    (hnew : CervoOrchestrator.new config = .ok o) {ops : List (SwarmAuditOp A)} (hrun : (start o).run t ops = some s) :
    let journal := s.orchestrator.events
    (s.rsi.Follows (SwarmAuditLog.record t.sha256) [] journal ∧ s.ccos.Follows (CcosSwarmAudit.record t) [] journal) ∧
      (s.rsi.log.map (fun e => (e.eventType, e.payload)) =
          (journal.take s.rsi.lastSeq.toNat).map (fun e => ("rsi_swarm".toList, canonicalSwarmPayload e)) ∧
        s.ccos.log.map (fun e => (e.eventType, e.payload)) = (journal.take s.ccos.lastSeq.toNat).map
          (fun e => (.agentAction, .custom "rsi_swarm".toList (canonicalSwarmPayload e)))) ∧
      (s.rsi.log.verify t.sha256 = true ∧ (s.ccos.log.verifyIntegrity t).valid = true) ∧
      s.rsi.Takes (SwarmAuditLog.record t.sha256) journal ∧ s.ccos.Takes (CcosSwarmAudit.record t) journal := by
  intro journal
  obtain rfl := CervoOrchestrator.new_eq hnew
  have h := (audited_start config).run hrun
  refine ⟨⟨h.rsi, h.ccos⟩, ⟨?_, ?_⟩, ⟨?_, ?_⟩, ?_, ?_⟩
  · rw [h.rsi.log_eq, SwarmAuditLog.map_payload_foldl, List.map_nil, List.nil_append]
  · rw [h.ccos.log_eq, CcosSwarmAudit.map_payload_foldl, List.map_nil, List.nil_append]
  · rw [h.rsi.log_eq]
    exact SwarmAuditLog.verify_foldl t.sha256 _ rfl
  · rw [h.ccos.log_eq]
    exact CcosSwarmAudit.valid_foldl t _ rfl
  · exact h.rsi.takes h.counted.seqs h.counted.room
  · exact h.ccos.takes h.counted.seqs h.counted.room

def nineDigits (m : Nat) : Str := (List.range 9).map fun i => (m / 10 ^ (8 - i) % 10).digitChar

theorem semicolon_not_mem_nineDigits (m : Nat) : ';' ∉ nineDigits m := by
  intro h
  obtain ⟨i, -, hi⟩ := List.mem_map.mp h
  have hlt : m / 10 ^ (8 - i) % 10 < 10 := Nat.mod_lt _ (by decide)
  generalize m / 10 ^ (8 - i) % 10 = d at hi hlt
  revert hi
  interval_cases d <;> decide

instance : Fixed9 ℚ where
  fixed9 c :=
    (if c < 0 then ['-'] else []) ++ natStr (Rsi.roundHalfEven (|c| * 10 ^ 9) / 10 ^ 9) ++
      '.' :: nineDigits (Rsi.roundHalfEven (|c| * 10 ^ 9))
  clean c := by
    have hsign : ';' ∉ if c < 0 then ['-'] else [] := by split <;> decide
    simp [hsign, semicolon_not_mem_natStr, semicolon_not_mem_nineDigits]

def customJson : EventPayload ℚ → Str
  | .custom key value => natStr key.length ++ ':' :: key ++ value
  | _ => []

def auditOps : List (SwarmAuditOp StillAgent) :=
  [.swarm (.spawn 20 (.ofScore 1)), .swarm (.spawn 10 (.ofScore 3)), .swarm .stepRound, .sync .rsi, .ingest .ccos 1 3,
    .ingest .ccos 0 2, .swarm (.kill 10), .ingest .rsi 0 3, .sync .ccos]

def ofAudited : Option (AuditedSwarm StillAgent ℚ) :=
  (start (.ofConfig .default)).run (.ofDigest id customJson) auditOps

theorem ofAudited_isSome : ofAudited.isSome = true := by decide +kernel

/-- Two units, a stretch that comes too early and a late copy. -/
theorem audits_follow_two :
    let s := ofAudited.get ofAudited_isSome
    let t : LogTools ℚ := .ofDigest id customJson
    let journal := s.orchestrator.events
    (s.rsi.Follows (SwarmAuditLog.record t.sha256) [] journal ∧ s.ccos.Follows (CcosSwarmAudit.record t) [] journal) ∧
      (s.rsi.log.map (fun e => (e.eventType, e.payload)) =
          (journal.take s.rsi.lastSeq.toNat).map (fun e => ("rsi_swarm".toList, canonicalSwarmPayload e)) ∧
        s.ccos.log.map (fun e => (e.eventType, e.payload)) = (journal.take s.ccos.lastSeq.toNat).map
          (fun e => (.agentAction, .custom "rsi_swarm".toList (canonicalSwarmPayload e)))) ∧
      (s.rsi.log.verify t.sha256 = true ∧ (s.ccos.log.verifyIntegrity t).valid = true) ∧
      s.rsi.Takes (SwarmAuditLog.record t.sha256) journal ∧ s.ccos.Takes (CcosSwarmAudit.record t) journal :=
  audits_follow_journal CervoOrchestrator.new_default (Option.some_get ofAudited_isSome).symm

/-- Two runs, of other agents, under another configuration, synchronised at other moments: the heads of their audits
agree exactly when the audits hold the same events, to nine decimals. -/
theorem heads_show_journals {B : Type} [RSIAgent B F] {digest : List UInt8 → List UInt8} {json : EventPayload F → Str}
    (hinj : Function.Injective (sha256Hex digest))
    (hjson : ∀ key, Function.Injective fun value => json (.custom key value))
    {config config' : OrchestratorConfig F} {o : CervoOrchestrator A F} {o' : CervoOrchestrator B F}
    (hnew : CervoOrchestrator.new config = .ok o) (hnew' : CervoOrchestrator.new config' = .ok o')
    {ops : List (SwarmAuditOp A)} {ops' : List (SwarmAuditOp B)} {s : AuditedSwarm A F} {s' : AuditedSwarm B F}
    (hrun : (start o).run (.ofDigest digest json) ops = some s)
    (hrun' : (start o').run (.ofDigest digest json) ops' = some s') :
    let shownTo (journal : List (SwarmEvent F)) (last : UInt64) := (journal.take last.toNat).map (·.shown)
    (s.rsi.log.chainHead = s'.rsi.log.chainHead ↔
        shownTo s.orchestrator.events s.rsi.lastSeq = shownTo s'.orchestrator.events s'.rsi.lastSeq) ∧
      (s.ccos.log.chainHead = s'.ccos.log.chainHead ↔
        shownTo s.orchestrator.events s.ccos.lastSeq = shownTo s'.orchestrator.events s'.ccos.lastSeq) := by
  intro shownTo
  obtain rfl := CervoOrchestrator.new_eq hnew
  obtain rfl := CervoOrchestrator.new_eq hnew'
  have h := (audited_start config).run hrun
  have h' := (audited_start config').run hrun'
  rw [h.rsi.log_eq, h'.rsi.log_eq, h.ccos.log_eq, h'.ccos.log_eq]
  exact ⟨SwarmAuditLog.chainHead_foldl hinj, CcosSwarmAudit.chainHead_foldl hinj hjson⟩

theorem customJson_injective (key : Str) : Function.Injective fun value => customJson (.custom key value) := by
  intro a b h
  exact List.append_cancel_left h

/-- The same swarm, with one late sync of each audit. -/
def lateOps : List (SwarmAuditOp StillAgent) :=
  [.swarm (.spawn 10 (.ofScore 3)), .swarm (.spawn 20 (.ofScore 1)), .swarm .stepRound, .swarm (.kill 10), .sync .ccos,
    .sync .rsi]

def ofLate : Option (AuditedSwarm StillAgent ℚ) := (start (.ofConfig .default)).run (.ofDigest id customJson) lateOps

theorem ofLate_isSome : ofLate.isSome = true := by decide +kernel

theorem heads_show_two :
    let s := ofAudited.get ofAudited_isSome
    let s' := ofLate.get ofLate_isSome
    let shownTo (journal : List (SwarmEvent ℚ)) (last : UInt64) := (journal.take last.toNat).map (·.shown)
    (s.rsi.log.chainHead = s'.rsi.log.chainHead ↔
        shownTo s.orchestrator.events s.rsi.lastSeq = shownTo s'.orchestrator.events s'.rsi.lastSeq) ∧
      (s.ccos.log.chainHead = s'.ccos.log.chainHead ↔
        shownTo s.orchestrator.events s.ccos.lastSeq = shownTo s'.orchestrator.events s'.ccos.lastSeq) :=
  heads_show_journals (sha256Hex_injective Function.injective_id) customJson_injective CervoOrchestrator.new_default
    CervoOrchestrator.new_default (Option.some_get ofAudited_isSome).symm (Option.some_get ofLate_isSome).symm

end AuditedSwarm

end Ccos
