import Ccos.Lib.Durable
import Ccos.Log.Distributed
import Ccos.Log.EventLog
import Ccos.Memory.Graph

/-!
# The persistent runtime

The state of a session is kept in three files, each an envelope around the JSON of one part. A save replaces them one
after the other; a restore reads all three and verifies what it read. Ids and the version string are left out.
-/

open ByteCodec Durable

namespace Ccos

structure RuntimeState (F : Type) where
  graph : MemoryGraph F
  eventLog : EventLog F
  distLog : DistributedEventLog

inductive StateFile
  | graph | events | memory
  deriving DecidableEq

inductive PersistenceError
  | io (e : Str)
  | serde (e : Str)
  | integrity (e : Str)
  deriving DecidableEq

/-- `serde_json` at one type. -/
structure SerdeJson (T : Type) where
  toVec : T → Except Str Bytes
  fromSlice : Bytes → Except Str T

/-- What the runtime takes from its surroundings: the hash functions, the JSON of the parts, and what the system says of
a file that is there and of one that is not. -/
structure StateHost (F : Type) where
  sha256Bytes : Str → Vector UInt8 32
  distSha256 : List UInt8 → Hash
  tools : LogTools F
  graphJson : SerdeJson (MemoryGraph F)
  eventsJson : SerdeJson (EventLog F)
  memoryJson : SerdeJson DistributedEventLog
  alreadyExists : Str
  notFound : Str

def persistMagic : Bytes := utf8 "CCPS".toList

def persistVersion : Nat := 1

def maxPersistPayload : Nat := 64 * 1024 * 1024

namespace StateHost

variable {F T : Type} (h : StateHost F)

/-- `sha256_bytes(from_utf8(payload).unwrap_or_default())`. -/
def payloadDigest (payload : Bytes) : Bytes := (h.sha256Bytes ((decodeUtf8 payload).getD [])).toList

def envelope (json : SerdeJson T) (value : T) : Except PersistenceError Bytes := do
  let payload ← (json.toVec value).mapError .serde
  if maxPersistPayload < payload.length then
    throw (.serde "persistence payload exceeds limit".toList)
  return persistMagic ++ (leOf 2 persistVersion ++ (leOf 8 payload.length ++ (h.payloadDigest payload ++ payload)))

def writeJson (pid : Nat) (file : StateFile) (json : SerdeJson T) (value : T) :
    Prog StateFile PersistenceError Unit :=
  match h.envelope json value with
  | .error e => fail e
  | .ok bytes => replace (.io h.alreadyExists) pid file bytes

def readJson (json : SerdeJson T) : Option Bytes → Except PersistenceError T
  | none => .error (.io h.notFound)
  | some data => do
    if 46 ≤ data.length ∧ data.take 4 = persistMagic then
      let version := leTo ((data.drop 4).take 2)
      if version ≠ persistVersion then
        throw (.serde ("unsupported persistence version ".toList ++ natStr version))
      let len := leTo ((data.drop 6).take 8)
      if maxPersistPayload < len ∨ data.length ≠ 46 + len then
        throw (.integrity "invalid persistence payload length".toList)
      let payload := data.drop 46
      if h.payloadDigest payload ≠ (data.drop 14).take 32 then
        throw (.integrity "persistence payload hash mismatch".toList)
      (json.fromSlice payload).mapError .serde
    else if maxPersistPayload < data.length then
      throw (.serde "legacy persistence payload exceeds limit".toList)
    else (json.fromSlice data).mapError .serde

def saveState (pid : Nat) (state : RuntimeState F) : Prog StateFile PersistenceError Unit := do
  h.writeJson pid .graph h.graphJson state.graph
  h.writeJson pid .events h.eventsJson state.eventLog
  h.writeJson pid .memory h.memoryJson state.distLog

def loadState (d : Disk StateFile) : Except PersistenceError (RuntimeState F) := do
  let graph ← h.readJson h.graphJson (files d .graph)
  let eventLog ← h.readJson h.eventsJson (files d .events)
  let distLog ← h.readJson h.memoryJson (files d .memory)
  return { graph, eventLog, distLog }

def verifyIntegrity (state : RuntimeState F) : Except Str Unit :=
  let dist := state.distLog.verifyIntegrity h.distSha256
  if !dist.valid then
    .error ("distributed-log chain invalid: ".toList ++ natStr dist.errors.length ++ " error(s)".toList)
  else
    let primary := state.eventLog.verifyIntegrity h.tools
    if !primary.valid then
      .error ("event-log chain invalid: ".toList ++ natStr primary.errors.length ++ " error(s)".toList)
    else
      let dangling := state.graph.danglingEdgeCount
      if dangling ≠ 0 then .error (natStr dangling ++ " dangling edge(s) in graph".toList) else .ok ()

/-- Verifies what was loaded. -/
def verified (loaded : Except PersistenceError (RuntimeState F)) : Except PersistenceError (RuntimeState F) := do
  let state ← loaded
  (h.verifyIntegrity state).mapError .integrity
  return state

def restoreRuntime (d : Disk StateFile) : Except PersistenceError (RuntimeState F) := h.verified (h.loadState d)

/-! ## Histories of saves -/

end StateHost

/-- A save by one process, which the machine stops after so many actions. -/
structure SaveAttempt (F : Type) where
  pid : Nat
  state : RuntimeState F
  budget : Nat

namespace StateHost

variable {F T : Type} (h : StateHost F)

def attempt (d : Disk StateFile) (a : SaveAttempt F) : Except (Fault PersistenceError) Unit × Machine StateFile :=
  h.saveState a.pid a.state { disk := d, budget := a.budget }

/-- The disk after the attempts, from an empty directory. -/
def saves (attempts : List (SaveAttempt F)) : Disk StateFile :=
  attempts.foldl (fun d a => (h.attempt d a).2.disk) fun _ => none

/-- What JSON gives back for a part that was saved. -/
def back (json : SerdeJson T) : Option T → Except PersistenceError T
  | none => .error (.io h.notFound)
  | some value => (json.toVec value >>= json.fromSlice).mapError .serde

/-! ## The envelope -/

variable {h} {json : SerdeJson T} {value : T} {bytes : Bytes}

theorem length_payloadDigest (payload : Bytes) : (h.payloadDigest payload).length = 32 := by
  rw [payloadDigest, Vector.length_toList]

theorem envelope_eq (henv : h.envelope json value = .ok bytes) :
    ∃ payload, json.toVec value = .ok payload ∧ payload.length ≤ maxPersistPayload ∧
      bytes = persistMagic ++
        (leOf 2 persistVersion ++ (leOf 8 payload.length ++ (h.payloadDigest payload ++ payload))) := by
  unfold envelope at henv
  cases hvec : json.toVec value with
  | error e =>
    rw [hvec] at henv
    cases henv
  | ok payload =>
    rw [hvec] at henv
    by_cases hlen : maxPersistPayload < payload.length
    · simp [Except.mapError, hlen, bind, Except.bind, throw, throwThe, MonadExceptOf.throw] at henv
    · simp [Except.mapError, hlen, bind, Except.bind, pure, Except.pure] at henv
      exact ⟨payload, rfl, Nat.not_lt.mp hlen, henv.symm⟩

/-- The fields of a file that starts like an envelope. -/
theorem envelope_fields {len : Nat} {digest : Bytes} (payload : Bytes) (hlen : len < 2 ^ 64)
    (hdigest : digest.length = 32) :
    let data := persistMagic ++ (leOf 2 persistVersion ++ (leOf 8 len ++ (digest ++ payload)))
    data.length = 46 + payload.length ∧ data.take 4 = persistMagic ∧ leTo ((data.drop 4).take 2) = persistVersion ∧
      leTo ((data.drop 6).take 8) = len ∧ (data.drop 14).take 32 = digest ∧ data.drop 46 = payload := by
  have hmagic : persistMagic.length = 4 := by decide
  have hversion : (leOf 2 persistVersion).length = 2 := length_leOf _ _
  have hwidth : (leOf 8 len).length = 8 := length_leOf _ _
  intro data
  have hdrop4 : data.drop 4 = leOf 2 persistVersion ++ (leOf 8 len ++ (digest ++ payload)) := List.drop_left' hmagic
  have hdrop6 : data.drop 6 = leOf 8 len ++ (digest ++ payload) := by
    rw [show 6 = 4 + 2 from rfl, ← List.drop_drop, hdrop4, List.drop_left' hversion]
  have hdrop14 : data.drop 14 = digest ++ payload := by
    rw [show 14 = 6 + 8 from rfl, ← List.drop_drop, hdrop6, List.drop_left' hwidth]
  refine ⟨?_, List.take_left' hmagic, ?_, ?_, ?_, ?_⟩
  · simp only [data, List.length_append, hmagic, hversion, hwidth, hdigest]
    omega
  · rw [hdrop4, List.take_left' hversion]
    rfl
  · rw [hdrop6, List.take_left' hwidth, leTo_leOf_of_lt hlen]
  · rw [hdrop14, List.take_left' hdigest]
  · rw [show 46 = 14 + 32 from rfl, ← List.drop_drop, hdrop14, List.drop_left' hdigest]

/-- A file that starts like an envelope reads when its length and its digest are those of the payload. -/
theorem readJson_envelope {len : Nat} {digest payload : Bytes} (hlen : len < 2 ^ 64) (hdigest : digest.length = 32) :
    h.readJson json (some (persistMagic ++ (leOf 2 persistVersion ++ (leOf 8 len ++ (digest ++ payload))))) =
      if maxPersistPayload < len ∨ payload.length ≠ len then
        .error (.integrity "invalid persistence payload length".toList)
      else if h.payloadDigest payload ≠ digest then
        .error (.integrity "persistence payload hash mismatch".toList)
      else (json.fromSlice payload).mapError .serde := by
  obtain ⟨hlength, hmagic, hversion, hfield, hsum, hrest⟩ := envelope_fields payload hlen hdigest
  generalize persistMagic ++ (leOf 2 persistVersion ++ (leOf 8 len ++ (digest ++ payload))) = data at *
  have hlong : 46 ≤ data.length ∧ data.take 4 = persistMagic := ⟨by omega, hmagic⟩
  have hwrong : data.length ≠ 46 + len ↔ payload.length ≠ len := by omega
  simp only [readJson, if_pos hlong, hversion, hfield, hsum, hrest, hwrong]
  rw [if_neg (not_not.mpr rfl)]
  rfl

/-- What was written reads back as `serde_json` reads its payload back. -/
theorem readJson_of_envelope (henv : h.envelope json value = .ok bytes) :
    h.readJson json (some bytes) = h.back json (some value) := by
  obtain ⟨payload, hvec, hle, rfl⟩ := envelope_eq henv
  have hlen : payload.length < 2 ^ 64 := lt_of_le_of_lt hle (by decide)
  rw [readJson_envelope hlen (length_payloadDigest payload), if_neg (by omega), if_neg (not_not.mpr rfl), back, hvec]
  rfl

/-! ## Saves that stop -/

/-- What a file holds of a part: its envelope, or nothing when the part was never saved. -/
def Written (h : StateHost F) (json : SerdeJson T) (part : Option T) (content : Option Bytes) : Prop :=
  match part with
  | none => content = none
  | some value => ∃ bytes, h.envelope json value = .ok bytes ∧ content = some bytes

theorem Written.readJson {part : Option T} {content : Option Bytes} (hw : h.Written json part content) :
    h.readJson json content = h.back json part := by
  cases part with
  | none =>
    obtain rfl := hw
    rfl
  | some value =>
    obtain ⟨bytes, henv, rfl⟩ := hw
    exact readJson_of_envelope henv

theorem writeJson_spec {pid : Nat} {file : StateFile} {P Q : (StateFile → Option Bytes) → Prop}
    (step : ∀ content bytes, h.envelope json value = .ok bytes → P content →
      Q (Function.update content file (some bytes))) :
    Spec (fun d => P (files d)) (h.writeJson pid file json value) (fun _ d => Q (files d)) (fun d => P (files d)) := by
  refine Spec.of_files fun kept hkept => ?_
  unfold writeJson
  cases henv : h.envelope json value with
  | error e => exact Spec.fail fun d hd => hd ▸ hkept
  | ok bytes =>
    exact (replace_spec _ bytes).mono (fun _ d hd => hd ▸ step kept bytes henv hkept) fun d hd => hd ▸ hkept

/-- Each file holds its part of one of the saves, counted from one; those that are written first hold later saves. -/
structure Mixed (h : StateHost F) (saved : Nat → Option (RuntimeState F)) (last : Nat)
    (content : StateFile → Option Bytes) (g e m : Nat) : Prop where
  memory_le : m ≤ e
  events_le : e ≤ g
  graph_le : g ≤ last
  graph_written : h.Written h.graphJson ((saved g).map (·.graph)) (content .graph)
  events_written : h.Written h.eventsJson ((saved e).map (·.eventLog)) (content .events)
  memory_written : h.Written h.memoryJson ((saved m).map (·.distLog)) (content .memory)

section

variable {saved : Nat → Option (RuntimeState F)} {last g e m : Nat} {state : RuntimeState F}
  {content : StateFile → Option Bytes} (hnext : saved (last + 1) = some state)
include hnext

theorem Mixed.graph (hm : h.Mixed saved last content g e m)
    (henv : h.envelope h.graphJson state.graph = .ok bytes) :
    h.Mixed saved (last + 1) (Function.update content .graph (some bytes)) (last + 1) e m := by
  refine ⟨hm.memory_le, hm.events_le.trans (Nat.le_succ_of_le hm.graph_le), le_rfl, ?_, ?_, ?_⟩
  · rw [hnext]
    exact ⟨bytes, henv, Function.update_self ..⟩
  · rw [Function.update_of_ne (by decide)]
    exact hm.events_written
  · rw [Function.update_of_ne (by decide)]
    exact hm.memory_written

theorem Mixed.events (hm : h.Mixed saved (last + 1) content (last + 1) e m)
    (henv : h.envelope h.eventsJson state.eventLog = .ok bytes) :
    h.Mixed saved (last + 1) (Function.update content .events (some bytes)) (last + 1) (last + 1) m := by
  refine ⟨hm.memory_le.trans hm.events_le, le_rfl, le_rfl, ?_, ?_, ?_⟩
  · rw [Function.update_of_ne (by decide)]
    exact hm.graph_written
  · rw [hnext]
    exact ⟨bytes, henv, Function.update_self ..⟩
  · rw [Function.update_of_ne (by decide)]
    exact hm.memory_written

theorem Mixed.memory (hm : h.Mixed saved (last + 1) content (last + 1) (last + 1) m)
    (henv : h.envelope h.memoryJson state.distLog = .ok bytes) :
    h.Mixed saved (last + 1) (Function.update content .memory (some bytes)) (last + 1) (last + 1) (last + 1) := by
  refine ⟨le_rfl, le_rfl, le_rfl, ?_, ?_, ?_⟩
  · rw [Function.update_of_ne (by decide)]
    exact hm.graph_written
  · rw [Function.update_of_ne (by decide)]
    exact hm.events_written
  · rw [hnext]
    exact ⟨bytes, henv, Function.update_self ..⟩

/-- A save replaces the files in order, and may stop between any two of them. -/
theorem saveState_spec {pid : Nat} :
    Spec (fun d => h.Mixed saved last (files d) g e m) (h.saveState pid state)
      (fun _ d => h.Mixed saved (last + 1) (files d) (last + 1) (last + 1) (last + 1))
      (fun d => ∃ g' e' m', m ≤ m' ∧ h.Mixed saved (last + 1) (files d) g' e' m') := by
  have hgraph : Spec _ (h.writeJson pid .graph h.graphJson state.graph) _ _ :=
    writeJson_spec (P := fun content => h.Mixed saved last content g e m)
      (Q := fun content => h.Mixed saved (last + 1) content (last + 1) e m)
      fun _ _ henv hm => hm.graph hnext henv
  have hevents : Spec _ (h.writeJson pid .events h.eventsJson state.eventLog) _ _ :=
    writeJson_spec (P := fun content => h.Mixed saved (last + 1) content (last + 1) e m)
      (Q := fun content => h.Mixed saved (last + 1) content (last + 1) (last + 1) m)
      fun _ _ henv hm => hm.events hnext henv
  have hmemory : Spec _ (h.writeJson pid .memory h.memoryJson state.distLog) _ _ :=
    writeJson_spec (P := fun content => h.Mixed saved (last + 1) content (last + 1) (last + 1) m)
      (Q := fun content => h.Mixed saved (last + 1) content (last + 1) (last + 1) (last + 1))
      fun _ _ henv hm => hm.memory hnext henv
  have hsame : ∀ d, h.Mixed saved last (files d) g e m →
      ∃ g' e' m', m ≤ m' ∧ h.Mixed saved (last + 1) (files d) g' e' m' :=
    fun d hm => ⟨g, e, m, le_rfl, { hm with graph_le := Nat.le_succ_of_le hm.graph_le }⟩
  refine (hgraph.mono (fun _ _ hm => hm) hsame).bind fun _ =>
    (hevents.mono (fun _ _ hm => hm) fun d hm => ⟨_, _, _, le_rfl, hm⟩).bind fun _ =>
      hmemory.mono (fun _ _ hm => hm) fun d hm => ⟨_, _, _, le_rfl, hm⟩

end

/-! ## What a restore finds -/

/-- The state of the `n`-th save, counted from one; none before the first. -/
def savedAt (attempts : List (SaveAttempt F)) (n : Nat) : Option (RuntimeState F) :=
  (none :: attempts.map fun a => some a.state)[n]?.join

theorem savedAt_append {attempts : List (SaveAttempt F)} {a : SaveAttempt F} {n : Nat} (hn : n ≤ attempts.length) :
    savedAt (attempts ++ [a]) n = savedAt attempts n := by
  unfold savedAt
  rw [List.map_append, ← List.cons_append, List.getElem?_append_left]
  rw [List.length_cons, List.length_map]
  omega

theorem savedAt_last (attempts : List (SaveAttempt F)) (a : SaveAttempt F) :
    savedAt (attempts ++ [a]) (attempts.length + 1) = some a.state := by
  unfold savedAt
  rw [List.map_append, List.getElem?_cons_succ, List.getElem?_append_right (by rw [List.length_map])]
  simp

theorem saves_append (attempts : List (SaveAttempt F)) (a : SaveAttempt F) :
    h.saves (attempts ++ [a]) = (h.attempt (h.saves attempts) a).2.disk := by
  unfold saves
  rw [List.foldl_append]
  rfl

/-- A save that reports success, as the `n`-th from zero. -/
def Completed (h : StateHost F) (attempts : List (SaveAttempt F)) (n : Nat) : Prop :=
  ∃ a, attempts[n]? = some a ∧ (h.attempt (h.saves (attempts.take n)) a).1 = .ok ()

theorem Mixed.congr {saved saved' : Nat → Option (RuntimeState F)} {last g e m : Nat}
    {content : StateFile → Option Bytes} (hm : h.Mixed saved last content g e m)
    (heq : ∀ n ≤ last, saved' n = saved n) : h.Mixed saved' last content g e m where
  memory_le := hm.memory_le
  events_le := hm.events_le
  graph_le := hm.graph_le
  graph_written := by
    rw [heq g hm.graph_le]
    exact hm.graph_written
  events_written := by
    rw [heq e (hm.events_le.trans hm.graph_le)]
    exact hm.events_written
  memory_written := by
    rw [heq m (hm.memory_le.trans (hm.events_le.trans hm.graph_le))]
    exact hm.memory_written

theorem completed_append {attempts : List (SaveAttempt F)} {a : SaveAttempt F} {n : Nat}
    (hc : h.Completed (attempts ++ [a]) n) :
    h.Completed attempts n ∨ n = attempts.length ∧ (h.attempt (h.saves attempts) a).1 = .ok () := by
  obtain ⟨b, hb, hok⟩ := hc
  rcases Nat.lt_trichotomy n attempts.length with hlt | rfl | hlt
  · rw [List.getElem?_append_left hlt] at hb
    rw [List.take_append_of_le_length hlt.le] at hok
    exact .inl ⟨b, hb, hok⟩
  · rw [List.getElem?_append_right le_rfl, Nat.sub_self] at hb
    obtain rfl := Option.some.inj hb
    rw [List.take_left] at hok
    exact .inr ⟨rfl, hok⟩
  · rw [List.getElem?_eq_none (by rw [List.length_append, List.length_singleton]; omega)] at hb
    cases hb

/-- Whatever the attempts and wherever each of them stopped. -/
theorem saves_mixed (attempts : List (SaveAttempt F)) :
    ∃ g e m, h.Mixed (savedAt attempts) attempts.length (files (h.saves attempts)) g e m ∧
      ∀ n, h.Completed attempts n → n < m := by
  induction attempts using List.reverseRecOn with
  | nil =>
    refine ⟨0, 0, 0, ⟨le_rfl, le_rfl, le_rfl, rfl, rfl, rfl⟩, fun n hc => ?_⟩
    obtain ⟨a, ha, -⟩ := hc
    cases ha
  | append_singleton attempts a ih =>
    obtain ⟨g, e, m, hmixed, hcompleted⟩ := ih
    have hstart := hmixed.congr fun n hn => savedAt_append (a := a) hn
    have hspec : Spec _ (h.saveState a.pid a.state) _ _ :=
      saveState_spec (g := g) (e := e) (m := m) (savedAt_last attempts a)
    have hle : m ≤ attempts.length := hmixed.memory_le.trans (hmixed.events_le.trans hmixed.graph_le)
    rw [saves_append, List.length_append, List.length_singleton]
    cases hresult : (h.attempt (h.saves attempts) a).1 with
    | ok u =>
      refine ⟨_, _, _, hspec.of_ok hstart hresult, fun n hc => ?_⟩
      rcases completed_append hc with hc | ⟨rfl, -⟩
      · exact (hcompleted n hc).trans_le (Nat.le_succ_of_le hle)
      · exact Nat.lt_succ_self _
    | error fault =>
      obtain ⟨g', e', m', hle', hm⟩ := hspec.of_error hstart hresult
      refine ⟨g', e', m', hm, fun n hc => ?_⟩
      rcases completed_append hc with hc | ⟨-, hok⟩
      · exact (hcompleted n hc).trans_le hle'
      · rw [hresult] at hok
        cases hok

/-- Saves by any processes, each stopped anywhere: a restore reads the graph, the events and the memory of one save
each, in this order no later, none before a completed save, and answers with what JSON gives back for them when it
verifies. -/
theorem restore_after_saves (attempts : List (SaveAttempt F)) :
    ∃ g e m, m ≤ e ∧ e ≤ g ∧ g ≤ attempts.length ∧ (∀ n, h.Completed attempts n → n < m) ∧
      h.restoreRuntime (h.saves attempts) = h.verified (do
        let graph ← h.back h.graphJson ((savedAt attempts g).map (·.graph))
        let eventLog ← h.back h.eventsJson ((savedAt attempts e).map (·.eventLog))
        let distLog ← h.back h.memoryJson ((savedAt attempts m).map (·.distLog))
        return { graph, eventLog, distLog }) := by
  obtain ⟨g, e, m, hmixed, hcompleted⟩ := h.saves_mixed attempts
  refine ⟨g, e, m, hmixed.memory_le, hmixed.events_le, hmixed.graph_le, hcompleted, ?_⟩
  rw [restoreRuntime, loadState, hmixed.graph_written.readJson, hmixed.events_written.readJson,
    hmixed.memory_written.readJson]

/-! ## When a save completes -/

theorem writeJson_eq_ok {pid : Nat} {file : StateFile} {s s' : Machine StateFile} :
    h.writeJson pid file json value s = (.ok (), s') ↔ ∃ bytes, h.envelope json value = .ok bytes ∧
      s.disk (.temp file pid) = none ∧ bytes.length + 2 ≤ s.budget ∧
      s' = { disk := Function.update s.disk (.file file) (some bytes), budget := s.budget - (bytes.length + 2) } := by
  unfold writeJson
  cases h.envelope json value with
  | error e => simp [fail]
  | ok bytes => simp [replace_eq_ok]

theorem attempt_eq_ok {d : Disk StateFile} {a : SaveAttempt F} {s' : Machine StateFile} :
    h.attempt d a = (.ok (), s') ↔ ∃ graph events memory, h.envelope h.graphJson a.state.graph = .ok graph ∧
      h.envelope h.eventsJson a.state.eventLog = .ok events ∧ h.envelope h.memoryJson a.state.distLog = .ok memory ∧
      (∀ file, d (.temp file a.pid) = none) ∧ graph.length + events.length + memory.length + 6 ≤ a.budget ∧
      s' = {
        disk := Function.update (Function.update (Function.update d (.file .graph) (some graph))
          (.file .events) (some events)) (.file .memory) (some memory)
        budget := a.budget - (graph.length + events.length + memory.length + 6) } := by
  have hother : ∀ (d : Disk StateFile) (content : Option Bytes) (file other : StateFile),
      Function.update d (.file file) content (.temp other a.pid) = d (.temp other a.pid) :=
    fun d content file other => Function.update_of_ne (by simp) _ _
  unfold attempt saveState
  constructor
  · intro hrun
    obtain ⟨⟨⟩, s₁, hfirst, hrest⟩ := Prog.bind_eq_ok.mp hrun
    obtain ⟨⟨⟩, s₂, hsecond, hthird⟩ := Prog.bind_eq_ok.mp hrest
    obtain ⟨graph, hgraph, hfree, hlast, rfl⟩ := writeJson_eq_ok.mp hfirst
    obtain ⟨events, hevents, hfree', hlast', rfl⟩ := writeJson_eq_ok.mp hsecond
    obtain ⟨memory, hmemory, hfree'', hlast'', rfl⟩ := writeJson_eq_ok.mp hthird
    simp only [hother] at hfree hfree' hfree''
    dsimp only at hlast hlast' hlast''
    refine ⟨graph, events, memory, hgraph, hevents, hmemory, fun file => ?_, by omega, ?_⟩
    · cases file
      · exact hfree
      · exact hfree'
      · exact hfree''
    · rw [show a.budget - (graph.length + events.length + memory.length + 6) =
        a.budget - (graph.length + 2) - (events.length + 2) - (memory.length + 2) by omega]
  · rintro ⟨graph, events, memory, hgraph, hevents, hmemory, hfree, hlast, rfl⟩
    refine Prog.bind_eq_ok.mpr ⟨(), _, writeJson_eq_ok.mpr ⟨graph, hgraph, hfree _, ?_, rfl⟩, ?_⟩
    · dsimp only
      omega
    refine Prog.bind_eq_ok.mpr ⟨(), _, writeJson_eq_ok.mpr ⟨events, hevents, ?_, ?_, rfl⟩, ?_⟩
    · simp only [hother, hfree]
    · dsimp only
      omega
    refine writeJson_eq_ok.mpr ⟨memory, hmemory, ?_, ?_, ?_⟩
    · simp only [hother, hfree]
    · dsimp only
      omega
    · rw [show a.budget - (graph.length + events.length + memory.length + 6) =
        a.budget - (graph.length + 2) - (events.length + 2) - (memory.length + 2) by omega]

/-- A save completes exactly when all three parts have an envelope, nothing of its process is left beside the files, and
the machine lasts for every byte. A restore then finds what was saved, whatever was there before. -/
theorem save_completes_iff (d : Disk StateFile) (a : SaveAttempt F) :
    ((h.attempt d a).1 = .ok () ↔ ∃ graph events memory, h.envelope h.graphJson a.state.graph = .ok graph ∧
        h.envelope h.eventsJson a.state.eventLog = .ok events ∧ h.envelope h.memoryJson a.state.distLog = .ok memory ∧
        (∀ file, d (.temp file a.pid) = none) ∧ graph.length + events.length + memory.length + 6 ≤ a.budget) ∧
      ((h.attempt d a).1 = .ok () → h.restoreRuntime (h.attempt d a).2.disk = h.verified (do
        let graph ← h.back h.graphJson (some a.state.graph)
        let eventLog ← h.back h.eventsJson (some a.state.eventLog)
        let distLog ← h.back h.memoryJson (some a.state.distLog)
        return { graph, eventLog, distLog })) := by
  have hpair : ∀ r : Except (Fault PersistenceError) Unit × Machine StateFile, r.1 = .ok () → r = (.ok (), r.2) :=
    fun r hr => Prod.ext hr rfl
  refine ⟨⟨fun hok => ?_, ?_⟩, fun hok => ?_⟩
  · obtain ⟨graph, events, memory, hgraph, hevents, hmemory, hfree, hlast, -⟩ := attempt_eq_ok.mp (hpair _ hok)
    exact ⟨graph, events, memory, hgraph, hevents, hmemory, hfree, hlast⟩
  · rintro ⟨graph, events, memory, hgraph, hevents, hmemory, hfree, hlast⟩
    rw [attempt_eq_ok.mpr ⟨graph, events, memory, hgraph, hevents, hmemory, hfree, hlast, rfl⟩]
  · obtain ⟨graph, events, memory, hgraph, hevents, hmemory, -, -, heq⟩ := attempt_eq_ok.mp (hpair _ hok)
    rw [heq, restoreRuntime, loadState, files_update_file, files_update_file, files_update_file]
    rw [Function.update_of_ne (by decide), Function.update_of_ne (by decide), Function.update_self,
      Function.update_of_ne (by decide), Function.update_self, Function.update_self,
      readJson_of_envelope hgraph, readJson_of_envelope hevents, readJson_of_envelope hmemory]

end StateHost

end Ccos
