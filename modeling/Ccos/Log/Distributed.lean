import Ccos.Log.EventLog
import Ccos.Lib.HashChain

/-!
# The distributed event log

Events and hash links run side by side. A link covers the id and the payload of its event and the
link before it. The wall-clock time of an event is left out: no hash covers it.
-/

namespace Ccos

structure DistEvent where
  id : UInt64
  payload : Str
  source : Str
  deriving DecidableEq

/-- The part of an event that its link covers. -/
def DistEvent.covered (event : DistEvent) : UInt64 × Str := (event.id, event.payload)

structure HashChainLink where
  eventId : UInt64
  hash : Hash
  previousHash : Hash
  deriving DecidableEq

structure DistributedEventLog where
  events : List DistEvent
  hashChain : List HashChainLink
  nextId : UInt64
  deriving DecidableEq

structure IntegrityReport where
  valid : Bool
  totalEvents : Nat
  verifiedEvents : Nat
  errors : List Str
  deriving DecidableEq

namespace DistributedEventLog

def new : DistributedEventLog := { events := [], hashChain := [], nextId := 0 }

def computeLinkHash (sha256Bytes : List UInt8 → Hash) (id : UInt64) (payload : Str) (previous : Hash) : Hash :=
  sha256Bytes (leBytes id ++ utf8 payload ++ utf8 previous)

def append (sha256Bytes : List UInt8 → Hash) (log : DistributedEventLog) (payload source : Str) :
    DistributedEventLog :=
  let id := log.nextId
  let previous := (log.hashChain.getLast?.map (·.hash)).getD genesis
  { events := log.events ++ [{ id, payload, source }]
    hashChain := log.hashChain ++
      [{ eventId := id, hash := computeLinkHash sha256Bytes id payload previous, previousHash := previous }]
    nextId := id + 1 }

/-- The last link; empty for an empty log. -/
def head (log : DistributedEventLog) : Hash := (log.hashChain.getLast?.map (·.hash)).getD []

/-- The links from index `i` on, against the link before them: how many have an event, and what is
wrong. -/
def verifyLinks (sha256Bytes : List UInt8 → Hash) (events : List DistEvent) :
    Nat → Hash → List HashChainLink → Nat × List Str
  | _, _, [] => (0, [])
  | i, expectedPrev, link :: rest =>
    let (verified, errors) := verifyLinks sha256Bytes events (i + 1) link.hash rest
    let linkId := natStr link.eventId.toNat
    match events[i]? with
    | none =>
      (verified, ("Event index ".toList ++ natStr i ++ " not found for hash chain link ".toList ++ linkId) :: errors)
    | some event =>
      let broken :=
        if link.previousHash ≠ expectedPrev then
          ["Chain broken at event ".toList ++ linkId ++ ": expected prev_hash ".toList ++ expectedPrev
            ++ ", got ".toList ++ link.previousHash]
        else []
      let recomputed := computeLinkHash sha256Bytes event.id event.payload link.previousHash
      let mismatch :=
        if recomputed ≠ link.hash then
          ["Hash mismatch at event ".toList ++ linkId ++ ": stored ".toList ++ link.hash
            ++ ", computed ".toList ++ recomputed]
        else []
      (verified + 1, broken ++ mismatch ++ errors)

def verifyIntegrity (sha256Bytes : List UInt8 → Hash) (log : DistributedEventLog) : IntegrityReport :=
  if log.hashChain.isEmpty then { valid := true, totalEvents := 0, verifiedEvents := 0, errors := [] }
  else
    let (verifiedEvents, errors) := verifyLinks sha256Bytes log.events 0 genesis log.hashChain
    { valid := errors.isEmpty, totalEvents := log.events.length, verifiedEvents, errors }

/-! ## What verification checks -/

variable {sha256Bytes : List UInt8 → Hash}

/-- Every link follows the one before it and covers the event at its index. -/
def Covered (sha256Bytes : List UInt8 → Hash) (events : List DistEvent) : Nat → Hash → List HashChainLink → Prop
  | _, _, [] => True
  | i, expectedPrev, link :: rest =>
    (∃ event, events[i]? = some event ∧ link.previousHash = expectedPrev ∧
      link.hash = computeLinkHash sha256Bytes event.id event.payload link.previousHash) ∧
      Covered sha256Bytes events (i + 1) link.hash rest

theorem verifyLinks_errors (events : List DistEvent) (i : Nat) (prev : Hash) (chain : List HashChainLink) :
    (verifyLinks sha256Bytes events i prev chain).2 = [] ↔ Covered sha256Bytes events i prev chain := by
  induction chain generalizing i prev with
  | nil => exact ⟨fun _ => trivial, fun _ => rfl⟩
  | cons link rest ih =>
    rw [verifyLinks, Covered, ← ih]
    cases events[i]? with
    | none => simp only [reduceCtorEq, false_and, exists_false]
    | some event =>
      simp only [List.append_eq_nil_iff, Option.some.injEq, exists_eq_left']
      refine and_congr (and_congr ?_ ?_) Iff.rfl
      · split <;> simp_all
      · rw [eq_comm (a := link.hash)]
        split <;> simp_all

theorem verifyIntegrity_valid (log : DistributedEventLog) :
    (log.verifyIntegrity sha256Bytes).valid = true ↔ Covered sha256Bytes log.events 0 genesis log.hashChain := by
  rw [← verifyLinks_errors, verifyIntegrity]
  split
  · rename_i hempty
    rw [List.isEmpty_iff.mp hempty]
    exact ⟨fun _ => rfl, fun _ => rfl⟩
  · exact List.isEmpty_iff

theorem Covered.append {events : List DistEvent} {i : Nat} {prev : Hash} {chain : List HashChainLink}
    (h : Covered sha256Bytes events i prev chain) (hlen : events.length = i + chain.length)
    (eventId : UInt64) (event : DistEvent) :
    let previous := HashChain.head prev (chain.map (·.hash))
    Covered sha256Bytes (events ++ [event]) i prev (chain ++ [{
      eventId, hash := computeLinkHash sha256Bytes event.id event.payload previous, previousHash := previous }]) := by
  induction chain generalizing i prev with
  | nil =>
    refine ⟨⟨event, ?_, rfl, rfl⟩, trivial⟩
    rw [List.length_nil, Nat.add_zero] at hlen
    rw [← hlen, List.getElem?_concat_length]
  | cons link rest ih =>
    obtain ⟨⟨e, he, hprev, hhash⟩, hrest⟩ := h
    rw [List.length_cons] at hlen
    rw [List.map_cons, HashChain.head_cons]
    refine ⟨⟨e, ?_, hprev, hhash⟩, ih hrest (by omega)⟩
    rw [List.getElem?_append_left (List.getElem?_eq_some_iff.mp he).1, he]

/-- An append keeps a log verified that has an event for every link. -/
theorem append_valid {log : DistributedEventLog} (h : (log.verifyIntegrity sha256Bytes).valid = true)
    (hlen : log.events.length = log.hashChain.length) (payload source : Str) :
    ((log.append sha256Bytes payload source).verifyIntegrity sha256Bytes).valid = true := by
  rw [verifyIntegrity_valid] at h ⊢
  have happ := h.append (by omega) log.nextId { id := log.nextId, payload, source }
  rw [HashChain.head, List.getLast?_map] at happ
  exact happ

/-! ## Alterations of the events -/

theorem computeLinkHash_injective (hinj : Function.Injective sha256Bytes) {id id' : UInt64}
    {payload payload' : Str} {previous : Hash}
    (h : computeLinkHash sha256Bytes id payload previous = computeLinkHash sha256Bytes id' payload' previous) :
    (id, payload) = (id', payload') := by
  have hbytes := List.append_cancel_right (hinj h)
  obtain ⟨hid, hpayload⟩ := List.append_inj hbytes (by rw [length_leBytes, length_leBytes])
  rw [leBytes_injective hid, utf8_injective hpayload]

/-- Under one chain, the events of two verified logs agree in what the links cover. -/
theorem Covered.covered_iff (hinj : Function.Injective sha256Bytes) {events : List DistEvent}
    (events' : List DistEvent) {i : Nat} {prev : Hash} {chain : List HashChainLink} (h : Covered sha256Bytes events i prev chain) :
    Covered sha256Bytes events' i prev chain ↔
      ∀ j < chain.length, (events'[i + j]?).map (·.covered) = (events[i + j]?).map (·.covered) := by
  induction chain generalizing i prev with
  | nil => exact ⟨fun _ j hj => absurd hj (Nat.not_lt_zero j), fun _ => trivial⟩
  | cons link rest ih =>
    obtain ⟨⟨event, hevent, hprev, hhash⟩, hrest⟩ := h
    constructor
    · rintro ⟨⟨event', hevent', -, hhash'⟩, hrest'⟩ j hj
      cases j with
      | zero =>
        rw [Nat.add_zero, hevent, hevent', Option.map_some, Option.map_some]
        exact congrArg some (computeLinkHash_injective hinj (hhash'.symm.trans hhash))
      | succ j =>
        have := (ih hrest).mp hrest' j (by simpa using hj)
        rwa [Nat.add_right_comm] at this
    · intro hall
      refine ⟨?_, (ih hrest).mpr fun j hj => ?_⟩
      · have hat := hall 0 (by simp)
        rw [Nat.add_zero, hevent, Option.map_some, Option.map_eq_some_iff] at hat
        obtain ⟨event', hevent', hcovered⟩ := hat
        simp only [DistEvent.covered, Prod.mk.injEq] at hcovered
        exact ⟨event', hevent', hprev, by rw [hhash, hcovered.1, hcovered.2]⟩
      · have := hall (j + 1) (by simpa using hj)
        rwa [← Nat.add_assoc, Nat.add_right_comm] at this

/-- Altered events verify exactly when every linked position still holds what its link covers. -/
theorem altered_valid_iff (hinj : Function.Injective sha256Bytes) {log : DistributedEventLog}
    (h : (log.verifyIntegrity sha256Bytes).valid = true) (events' : List DistEvent) :
    ({ log with events := events' }.verifyIntegrity sha256Bytes).valid = true ↔
      ∀ i < log.hashChain.length, (events'[i]?).map (·.covered) = (log.events[i]?).map (·.covered) := by
  rw [verifyIntegrity_valid] at h ⊢
  simpa using h.covered_iff hinj events'

theorem Covered.link_at {events : List DistEvent} {i : Nat} {prev : Hash} {chain : List HashChainLink}
    (h : Covered sha256Bytes events i prev chain) {j : Nat} {link : HashChainLink}
    (hlink : chain[j]? = some link) :
    link.previousHash = HashChain.head prev ((chain.take j).map (·.hash)) ∧
      ∃ event, events[i + j]? = some event ∧
        link.hash = computeLinkHash sha256Bytes event.id event.payload link.previousHash := by
  induction chain generalizing i prev j with
  | nil => simp at hlink
  | cons first rest ih =>
    obtain ⟨⟨event, hevent, hprev, hhash⟩, hrest⟩ := h
    cases j with
    | zero =>
      obtain rfl : first = link := by simpa using hlink
      exact ⟨hprev, event, hevent, hhash⟩
    | succ j =>
      obtain ⟨hp, e, he, hh⟩ := ih hrest (by simpa using hlink)
      rw [List.take_succ_cons, List.map_cons, HashChain.head_cons]
      exact ⟨hp, e, by rwa [Nat.add_right_comm] at he, hh⟩

theorem exists_covered_of_valid {log : DistributedEventLog}
    (h : (log.verifyIntegrity sha256Bytes).valid = true) {i : Nat} (hi : i < log.hashChain.length) :
    ∃ event, log.events[i]? = some event := by
  rw [verifyIntegrity_valid] at h
  obtain ⟨-, event, hevent, -⟩ := h.link_at (List.getElem?_eq_getElem hi)
  exact ⟨event, by rwa [Nat.zero_add] at hevent⟩

/-- In a verified log every link follows the one before it and covers the id and the payload of the
event at its index. At linked positions, no edit of an id or payload, no swap with an event of
another id or payload and no insertion of such an event passes, and no deletion in a log with as
many events as links. -/
theorem links_cover_events (hinj : Function.Injective sha256Bytes) (log : DistributedEventLog)
    (hvalid : (log.verifyIntegrity sha256Bytes).valid = true) :
    let linked := log.hashChain.length
    let Passes (events' : List DistEvent) : Prop :=
      ({ log with events := events' }.verifyIntegrity sha256Bytes).valid = true
    (∀ i link, log.hashChain[i]? = some link →
      link.previousHash = HashChain.head genesis ((log.hashChain.take i).map (·.hash)) ∧
        ∃ event, log.events[i]? = some event ∧
          link.hash = computeLinkHash sha256Bytes event.id event.payload link.previousHash) ∧
      (∀ i event event', i < linked → log.events[i]? = some event → event'.covered ≠ event.covered →
        ¬ Passes (log.events.set i event')) ∧
      (∀ i j event event', i < linked → log.events[i]? = some event → log.events[j]? = some event' →
        event'.covered ≠ event.covered → ¬ Passes ((log.events.set i event').set j event)) ∧
      (∀ i event event', i < linked → log.events[i]? = some event → event'.covered ≠ event.covered →
        ¬ Passes (log.events.insertIdx i event')) ∧
      (∀ i, log.events.length = linked → i < linked → ¬ Passes (log.events.eraseIdx i)) := by
  have hiff := altered_valid_iff hinj hvalid
  refine ⟨fun i link hlink => ?_, ?_, ?_, ?_, ?_⟩
  · have := ((verifyIntegrity_valid log).mp hvalid).link_at hlink
    rwa [Nat.zero_add] at this
  · intro i event event' hi hevent hne hpass
    have hlt := (List.getElem?_eq_some_iff.mp hevent).1
    have hat := (hiff _).mp hpass i hi
    rw [List.getElem?_set_self hlt, hevent] at hat
    exact hne (Option.some.inj hat)
  · intro i j event event' hi hevent hevent' hne hpass
    have hlt := (List.getElem?_eq_some_iff.mp hevent).1
    have hij : j ≠ i := by
      rintro rfl
      rw [hevent] at hevent'
      exact hne (congrArg DistEvent.covered (Option.some.inj hevent').symm)
    have hat := (hiff _).mp hpass i hi
    rw [List.getElem?_set_ne hij, List.getElem?_set_self hlt, hevent] at hat
    exact hne (Option.some.inj hat)
  · intro i event event' hi hevent hne hpass
    have hlt := (List.getElem?_eq_some_iff.mp hevent).1
    have hat := (hiff _).mp hpass i hi
    rw [List.getElem?_insertIdx_self, if_pos hlt.le, hevent] at hat
    exact hne (Option.some.inj hat)
  · intro i hlen hi hpass
    have hlast := (hiff _).mp hpass (log.hashChain.length - 1) (by omega)
    obtain ⟨event, hevent⟩ := exists_covered_of_valid hvalid (i := log.hashChain.length - 1) (by omega)
    have hgone : (log.events.eraseIdx i)[log.hashChain.length - 1]? = none := by
      rw [List.getElem?_eq_none_iff, List.length_eraseIdx_of_lt (by omega)]
      omega
    rw [hgone, hevent] at hlast
    simp at hlast

/-- Two recorded file hashes. -/
def twoFiles : DistributedEventLog :=
  (new.append lowerHex "a1".toList "external-memory".toList).append lowerHex "b2".toList
    "external-memory".toList

theorem twoFiles_valid : (twoFiles.verifyIntegrity lowerHex).valid = true := by
  have hone : ((new.append lowerHex "a1".toList "external-memory".toList).verifyIntegrity lowerHex).valid = true :=
    append_valid ((verifyIntegrity_valid new).mpr trivial) rfl _ _
  exact append_valid hone rfl _ _

theorem twoFiles_detects_a_deletion :
    ¬ ({ twoFiles with events := twoFiles.events.eraseIdx 0 }.verifyIntegrity lowerHex).valid = true :=
  (links_cover_events lowerHex_injective twoFiles twoFiles_valid).2.2.2.2 0 rfl (by decide)

/-- The source of an event is not covered: rewriting it passes. -/
theorem source_edit_passes :
    Function.Injective lowerHex ∧ (twoFiles.verifyIntegrity lowerHex).valid = true ∧
      ({ twoFiles with
        events := twoFiles.events.set 0 { id := 0, payload := "a1".toList, source := "forged".toList } }.verifyIntegrity
          lowerHex).valid = true ∧
      twoFiles.events[0]? ≠ some { id := 0, payload := "a1".toList, source := "forged".toList } := by
  refine ⟨lowerHex_injective, twoFiles_valid, ?_, by decide⟩
  rw [altered_valid_iff lowerHex_injective twoFiles_valid]
  decide

end DistributedEventLog

end Ccos
