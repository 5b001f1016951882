import Mathlib.Tactic.IntervalCases
import Ccos.Memory.Types
import Ccos.Scalar
import Ccos.Lib.HashChain

/-!
# Digests and the texts they cover

SHA-256 itself is left open, as a function from bytes to bytes.
-/

namespace Ccos

def genesis : Hash := "GENESIS".toList

/-- `u64::to_le_bytes`. -/
def leBytes (n : UInt64) : List UInt8 := (List.range 8).map fun i => UInt8.ofNat (n.toNat / 256 ^ i)

/-- `format!("{:x}")` of a digest: two digits for each byte. -/
def lowerHex (bytes : List UInt8) : Hash :=
  bytes.flatMap fun b => [Nat.digitChar (b.toNat / 16), Nat.digitChar (b.toNat % 16)]

def sha256Hex (digest : List UInt8 → List UInt8) (input : Str) : Hash := lowerHex (digest (utf8 input))

/-! ## Nothing is lost -/

@[simp] theorem length_leBytes (n : UInt64) : (leBytes n).length = 8 := by
  simp only [leBytes, List.length_map, List.length_range]

theorem leBytes_injective : Function.Injective leBytes := by
  intro a b h
  have hdigit : ∀ i < 8, a.toNat / 256 ^ i % 256 = b.toNat / 256 ^ i % 256 := by
    intro i hi
    have hi' : i < (List.range 8).length := by rwa [List.length_range]
    have hbyte := congrArg (fun l : List UInt8 => l[i]?.map UInt8.toNat) h
    simpa [leBytes, List.getElem?_eq_getElem hi', hi] using hbyte
  have ha := a.toNat_lt
  have hb := b.toNat_lt
  have h0 := hdigit 0 (by decide)
  have h1 := hdigit 1 (by decide)
  have h2 := hdigit 2 (by decide)
  have h3 := hdigit 3 (by decide)
  have h4 := hdigit 4 (by decide)
  have h5 := hdigit 5 (by decide)
  have h6 := hdigit 6 (by decide)
  have h7 := hdigit 7 (by decide)
  apply UInt64.toNat_inj.mp
  norm_num at *
  omega

theorem digitChar_injective {m n : Nat} (hm : m < 16) (hn : n < 16) (h : m.digitChar = n.digitChar) :
    m = n := by
  revert h
  interval_cases m <;> interval_cases n <;> decide

theorem lowerHex_injective : Function.Injective lowerHex := by
  intro a
  induction a with
  | nil =>
    intro b h
    cases b with
    | nil => rfl
    | cons y b => simp [lowerHex] at h
  | cons x a ih =>
    intro b h
    cases b with
    | nil => simp [lowerHex] at h
    | cons y b =>
      simp only [lowerHex, List.flatMap_cons, List.cons_append, List.nil_append, List.cons.injEq] at h
      obtain ⟨hhigh, hlow, hrest⟩ := h
      have hx := x.toNat_lt
      have hy := y.toNat_lt
      have hdiv := digitChar_injective (by omega) (by omega) hhigh
      have hmod := digitChar_injective (by omega) (by omega) hlow
      rw [ih hrest, UInt8.toNat_inj.mp (show x.toNat = y.toNat by omega)]

theorem sha256Hex_injective {digest : List UInt8 → List UInt8} (h : Function.Injective digest) :
    Function.Injective (sha256Hex digest) :=
  lowerHex_injective.comp (h.comp utf8_injective)

/-! ## What a digest cannot look like -/

theorem mem_lowerHex {bytes : List UInt8} {c : Char} (hc : c ∈ lowerHex bytes) :
    ∃ n < 16, c = Nat.digitChar n := by
  obtain ⟨b, -, hc⟩ := List.mem_flatMap.mp hc
  have := b.toNat_lt
  simp only [List.mem_cons, List.not_mem_nil, or_false] at hc
  rcases hc with rfl | rfl
  · exact ⟨_, by omega, rfl⟩
  · exact ⟨_, by omega, rfl⟩

theorem bar_not_mem_lowerHex (bytes : List UInt8) : '|' ∉ lowerHex bytes := by
  intro hc
  obtain ⟨n, hn, hc⟩ := mem_lowerHex hc
  revert hc
  interval_cases n <;> decide

theorem lowerHex_ne_genesis (bytes : List UInt8) : lowerHex bytes ≠ genesis := by
  intro h
  have hg : 'G' ∈ lowerHex bytes := h ▸ by decide
  obtain ⟨n, hn, hc⟩ := mem_lowerHex hg
  revert hc
  interval_cases n <;> decide

/-! ## Decimals and bars -/

theorem natStr_injective : Function.Injective natStr := by
  intro a b h
  simp only [natStr, Nat.toList_repr] at h
  rw [← Nat.ofDigitChars_ten_toDigits (n := a), h, Nat.ofDigitChars_ten_toDigits]

theorem bar_not_mem_natStr (n : Nat) : '|' ∉ natStr n := by
  intro h
  rw [natStr, Nat.toList_repr] at h
  have := Nat.isDigit_of_mem_toDigits (by decide) (by decide) h
  revert this
  decide

end Ccos

/-!
## The event log

Every event carries the hash of the one before it and a hash over its own content. Ids and wall-clock
times are left out: no hash covers them, and nothing reads them back.
-/

namespace Ccos

inductive EventType
  | llmCall | llmResponse | parsing | graphMutation | failureDetection | failurePropagation | guardCheck
  | cycleStart | cycleEnd | replayStart | replayEnd | snapshot | agentAction | selfModify | regionCreated
  | regionActivated | regionMerged | regionEvicted | contextWindowGenerated
  deriving DecidableEq, Repr

/-- `format!("{:?}")`. -/
def EventType.debug : EventType → Str
  | .llmCall => "LlmCall".toList
  | .llmResponse => "LlmResponse".toList
  | .parsing => "Parsing".toList
  | .graphMutation => "GraphMutation".toList
  | .failureDetection => "FailureDetection".toList
  | .failurePropagation => "FailurePropagation".toList
  | .guardCheck => "GuardCheck".toList
  | .cycleStart => "CycleStart".toList
  | .cycleEnd => "CycleEnd".toList
  | .replayStart => "ReplayStart".toList
  | .replayEnd => "ReplayEnd".toList
  | .snapshot => "Snapshot".toList
  | .agentAction => "AgentAction".toList
  | .selfModify => "SelfModify".toList
  | .regionCreated => "RegionCreated".toList
  | .regionActivated => "RegionActivated".toList
  | .regionMerged => "RegionMerged".toList
  | .regionEvicted => "RegionEvicted".toList
  | .contextWindowGenerated => "ContextWindowGenerated".toList

/-- What an event records. The source keeps some of the numbers in `f32`. -/
inductive EventPayload (F : Type)
  | llmCallRequest (model promptHash : Str) (inputTokens : Nat)
  | llmCallResponse (model responseHash : Str) (outputTokens latencyMs : Nat) (guardPassed : Bool)
      (reliabilityScore : F)
  | parsing (filePath : Str) (fileHash : Hash) (modulesFound usesFound symbolsFound : Nat)
  | graphMutation (nodeId operation : Str) (nodesBefore nodesAfter edgesBefore edgesAfter : Nat)
  | failureDetection (nodeId failureType : Str) (severity : F)
  | failurePropagation (originNodeId : Str) (affectedNodes : List Str) (depth : Nat)
  | guardCheck (inputHash : Hash) (passed : Bool) (score : F) (warnings : List Str)
  | cycleEvent (cycleNumber : Nat) (action : Str)
  | replayEvent (originalEventId : Str) (replayedAt : Nat)
  | snapshot (nodesCount edgesCount totalEvents : Nat)
  | nodeUpserted (id label content : Str) (nodeType : NodeType)
  | edgeAdded (source target : Str) (weight : F) (edgeType : EdgeType)
  | regionCreated (regionId center : Str) (memberCount : Nat) (temperature causalDensity : F)
  | regionActivated (regionId : Str) (tick : Nat) (temperature : F) (activationCount : Nat) (reason : Str)
  | regionMerged (intoRegion fromRegion : Str) (memberCount : Nat)
  | regionEvicted (regionId : Str) (temperature : F) (reason : Str)
  | contextWindowGenerated (regionId : Str) (fileCount tokensEstimated : Nat) (regionScore : F) (reason : Str)
  | custom (key value : Str)
  | rsiMutation (variantId parentId patchTarget : Str) (patchFindHash patchReplaceHash : Hash)
      (compiles : Bool) (testsPassed testsFailed : Nat) (score : F) (accepted promoted : Bool)
  deriving DecidableEq

/-- What JSON gives back for a payload. -/
def EventPayload.reparse {F : Type} [Scalar F] : EventPayload F → Option (EventPayload F)
  | .llmCallResponse model hash tokens latency passed score =>
    (Scalar.reparse score).map fun score => .llmCallResponse model hash tokens latency passed score
  | .failureDetection node kind severity =>
    (Scalar.reparse severity).map fun severity => .failureDetection node kind severity
  | .guardCheck hash passed score warnings =>
    (Scalar.reparse score).map fun score => .guardCheck hash passed score warnings
  | .edgeAdded source target weight edgeType =>
    (Scalar.reparse weight).map fun weight => .edgeAdded source target weight edgeType
  | .regionCreated region center count temperature density => do
    let temperature ← Scalar.reparse temperature
    let density ← Scalar.reparse density
    some (.regionCreated region center count temperature density)
  | .regionActivated region tick temperature count reason =>
    (Scalar.reparse temperature).map fun temperature => .regionActivated region tick temperature count reason
  | .regionEvicted region temperature reason =>
    (Scalar.reparse temperature).map fun temperature => .regionEvicted region temperature reason
  | .contextWindowGenerated region files tokens score reason =>
    (Scalar.reparse score).map fun score => .contextWindowGenerated region files tokens score reason
  | .rsiMutation variant parent target find replaced compiles passed failed score accepted promoted =>
    (Scalar.reparse score).map fun score =>
      .rsiMutation variant parent target find replaced compiles passed failed score accepted promoted
  | payload => some payload

structure TraceEvent (F : Type) where
  eventType : EventType
  payload : EventPayload F
  sequenceNumber : Nat
  prevHash : Hash
  hash : Hash
  deriving DecidableEq

abbrev EventLog (F : Type) := List (TraceEvent F)

def EventLog.reparse {F : Type} [Scalar F] (log : EventLog F) : Option (EventLog F) :=
  log.mapM fun event => event.payload.reparse.map fun payload => { event with payload }

/-- What a verification reports. -/
structure LogIntegrity where
  valid : Bool
  verifiedEvents : Nat
  errors : List Str
  deriving DecidableEq

/-- The hash of a text, and the JSON of a payload. -/
structure LogTools (F : Type) where
  sha256 : Str → Hash
  payloadJson : EventPayload F → Str

namespace EventLog

variable {F : Type}

def chainHead (log : EventLog F) : Hash := (log.getLast?.map (·.hash)).getD genesis

def linkHash (t : LogTools F) (prev : Hash) (seq : Nat) (eventType : EventType)
    (payload : EventPayload F) : Hash :=
  t.sha256 (prev ++ '|' :: natStr seq ++ '|' :: eventType.debug ++ '|' :: t.payloadJson payload)

def append (t : LogTools F) (log : EventLog F) (eventType : EventType) (payload : EventPayload F) :
    EventLog F :=
  let prev := log.chainHead
  log ++ [{ eventType, payload, sequenceNumber := log.length, prevHash := prev
            hash := linkHash t prev log.length eventType payload }]

/-- The events from index `i` on, against the hash before them: how many hashes verify, and what is
wrong. -/
def verifyFrom (t : LogTools F) : Nat → Hash → EventLog F → Nat × List Str
  | _, _, [] => (0, [])
  | i, prev, event :: rest =>
    let place := "event ".toList ++ natStr i ++ " (seq ".toList ++ natStr event.sequenceNumber
    let broken :=
      if event.prevHash ≠ prev then
        [place ++ "): broken link — prev_hash does not match the chain".toList]
      else []
    let expected := linkHash t prev event.sequenceNumber event.eventType event.payload
    let tampered :=
      if event.hash = expected then [] else [place ++ "): content tampered — hash mismatch".toList]
    let (verified, errors) := verifyFrom t (i + 1) event.hash rest
    ((if event.hash = expected then verified + 1 else verified), broken ++ tampered ++ errors)

def verifyIntegrity (t : LogTools F) (log : EventLog F) : LogIntegrity :=
  let (verifiedEvents, errors) := verifyFrom t 0 genesis log
  { valid := errors.isEmpty, verifiedEvents, errors }

/-! ## What verification checks -/

/-- Every event links to the one before it, and its hash covers its content. -/
def Linked (t : LogTools F) : Hash → EventLog F → Prop
  | _, [] => True
  | prev, event :: rest =>
    event.prevHash = prev ∧
      event.hash = linkHash t prev event.sequenceNumber event.eventType event.payload ∧
      Linked t event.hash rest

theorem verifyFrom_errors (t : LogTools F) (i : Nat) (prev : Hash) (log : EventLog F) :
    (verifyFrom t i prev log).2 = [] ↔ Linked t prev log := by
  induction log generalizing i prev with
  | nil => exact ⟨fun _ => trivial, fun _ => rfl⟩
  | cons event rest ih =>
    simp only [verifyFrom, Linked, List.append_eq_nil_iff, ih]
    rw [and_assoc]
    refine and_congr ?_ (and_congr ?_ Iff.rfl)
    · split <;> simp_all
    · split <;> simp_all

theorem verifyIntegrity_valid (t : LogTools F) (log : EventLog F) :
    (log.verifyIntegrity t).valid = true ↔ Linked t genesis log := by
  rw [← verifyFrom_errors t 0]
  exact List.isEmpty_iff

theorem Linked.append {t : LogTools F} {log : EventLog F} {prev : Hash} (h : Linked t prev log)
    (eventType : EventType) (payload : EventPayload F) (seq : Nat) :
    Linked t prev (log ++ [{
      eventType, payload, sequenceNumber := seq
      prevHash := HashChain.head prev (log.map (·.hash))
      hash := linkHash t (HashChain.head prev (log.map (·.hash))) seq eventType payload }]) := by
  induction log generalizing prev with
  | nil => exact ⟨rfl, rfl, trivial⟩
  | cons event rest ih =>
    obtain ⟨hprev, hhash, hrest⟩ := h
    rw [List.map_cons, HashChain.head_cons]
    exact ⟨hprev, hhash, ih hrest⟩

theorem chainHead_eq (log : EventLog F) : log.chainHead = HashChain.head genesis (log.map (·.hash)) := by
  rw [chainHead, HashChain.head, List.getLast?_map]

/-- An append keeps a log verified. -/
theorem append_valid {t : LogTools F} {log : EventLog F} (h : (log.verifyIntegrity t).valid = true)
    (eventType : EventType) (payload : EventPayload F) :
    ((log.append t eventType payload).verifyIntegrity t).valid = true := by
  rw [verifyIntegrity_valid] at h ⊢
  rw [append, chainHead_eq]
  exact h.append eventType payload log.length

/-! ## The chain head commits to the log -/

/-- The content of an event that its hash covers. -/
def entry (t : LogTools F) (event : TraceEvent F) : Nat × EventType × Str :=
  (event.sequenceNumber, event.eventType, t.payloadJson event.payload)

def entryLink (t : LogTools F) (prev : Hash) (_ : Nat) : Nat × EventType × Str → Hash
  | (seq, eventType, json) =>
    t.sha256 (prev ++ '|' :: natStr seq ++ '|' :: eventType.debug ++ '|' :: json)

/-- The hashes of a linked log are the chain over its entries. -/
theorem Linked.hashes {t : LogTools F} {prev : Hash} {log : EventLog F} (h : Linked t prev log) (n : Nat) :
    log.map (·.hash) = HashChain.linksOf (entryLink t) prev n (log.map (entry t)) := by
  induction log generalizing prev n with
  | nil => rfl
  | cons event rest ih =>
    obtain ⟨-, hhash, hrest⟩ := h
    rw [List.map_cons, List.map_cons, HashChain.linksOf, ih hrest (n + 1), hhash]
    rfl

theorem bar_not_mem_debug (eventType : EventType) : '|' ∉ eventType.debug := by
  cases eventType <;> decide

theorem debug_injective : Function.Injective EventType.debug := by
  intro a b h
  revert h
  cases a <;> cases b <;> decide

/-- The framing of the hashed text is unambiguous: only the payload may hold a bar. -/
theorem framing_injective {prev prev' json json' : Str} {seq seq' : Nat} {ty ty' : EventType}
    (hprev : '|' ∉ prev) (hprev' : '|' ∉ prev')
    (h : prev ++ '|' :: natStr seq ++ '|' :: ty.debug ++ '|' :: json =
      prev' ++ '|' :: natStr seq' ++ '|' :: ty'.debug ++ '|' :: json') :
    prev = prev' ∧ seq = seq' ∧ ty = ty' ∧ json = json' := by
  simp only [List.append_assoc, List.cons_append] at h
  obtain ⟨hprevs, hafter⟩ := append_sep_inj hprev hprev' h
  obtain ⟨hseq, hrest⟩ := append_sep_inj (bar_not_mem_natStr _) (bar_not_mem_natStr _) hafter
  obtain ⟨hty, hjson⟩ := append_sep_inj (bar_not_mem_debug _) (bar_not_mem_debug _) hrest
  exact ⟨hprevs, natStr_injective hseq, debug_injective hty, hjson⟩

end EventLog

/-- The tools of the source over a digest function. -/
def LogTools.ofDigest {F : Type} (digest : List UInt8 → List UInt8) (payloadJson : EventPayload F → Str) :
    LogTools F where
  sha256 := sha256Hex digest
  payloadJson := payloadJson

namespace EventLog

variable {F : Type} {digest : List UInt8 → List UInt8} {json : EventPayload F → Str}

theorem committing (hinj : Function.Injective (sha256Hex digest)) :
    HashChain.Committing (entryLink (LogTools.ofDigest digest json)) (fun prev => '|' ∉ prev) genesis where
  good_start := by decide
  good_link _ _ _ := bar_not_mem_lowerHex _
  injective := by
    intro prev prev' n n' ⟨seq, ty, text⟩ ⟨seq', ty', text'⟩ hprev hprev' h
    obtain ⟨rfl, rfl, rfl, rfl⟩ := framing_injective hprev hprev' (hinj h)
    exact ⟨rfl, rfl⟩
  ne_start _ _ _ := lowerHex_ne_genesis _

/-- Verified logs with one head have the same hashes over the same entries. -/
theorem entries_eq_of_head_eq (hinj : Function.Injective (sha256Hex digest)) {log other : EventLog F}
    (hlog : Linked (.ofDigest digest json) genesis log)
    (hother : Linked (.ofDigest digest json) genesis other) (hhead : other.chainHead = log.chainHead) :
    other.map (entry (.ofDigest digest json)) = log.map (entry (.ofDigest digest json)) ∧
      other.map (·.hash) = log.map (·.hash) := by
  rw [chainHead_eq, chainHead_eq, hlog.hashes 0, hother.hashes 0] at hhead
  have hentries := (committing hinj).eq_of_head_eq hhead
  exact ⟨hentries, by rw [hother.hashes 0, hlog.hashes 0, hentries]⟩

theorem eq_of_perm (hinj : Function.Injective (sha256Hex digest)) {log other : EventLog F}
    (hlog : Linked (.ofDigest digest json) genesis log)
    (hother : Linked (.ofDigest digest json) genesis other) (hhead : other.chainHead = log.chainHead)
    (hperm : other.Perm log) : other = log := by
  obtain ⟨-, hhashes⟩ := entries_eq_of_head_eq hinj hlog hother hhead
  have hnodup : (log.map (·.hash)).Nodup := by
    rw [hlog.hashes 0]
    exact (committing hinj).nodup 0 _
  have hinjOn := List.inj_on_of_nodup_map hnodup
  apply List.ext_getElem hperm.length_eq
  intro i hi hi'
  apply hinjOn (hperm.mem_iff.mp (List.getElem_mem hi)) (List.getElem_mem hi')
  have hat := congrArg (·[i]?) hhashes
  simpa [List.getElem?_eq_getElem hi, List.getElem?_eq_getElem hi'] using hat

/-- A verified log and its head determine the content of every event. So no edit of a payload, no
reordering, and no insertion or deletion keeps both the verification and the head. -/
theorem head_commits_to_log (hinj : Function.Injective (sha256Hex digest)) (log : EventLog F)
    (hvalid : (log.verifyIntegrity (.ofDigest digest json)).valid = true) :
    let t : LogTools F := .ofDigest digest json
    let Passes (other : EventLog F) : Prop :=
      (other.verifyIntegrity t).valid = true ∧ other.chainHead = log.chainHead
    (∀ other, Passes other → other.length = log.length ∧ other.map (entry t) = log.map (entry t)) ∧
      (∀ i event event', log[i]? = some event → json event'.payload ≠ json event.payload →
        ¬ Passes (log.set i event')) ∧
      (∀ other, other.Perm log → other ≠ log → ¬ Passes other) ∧
      (∀ i event, i ≤ log.length → ¬ Passes (log.insertIdx i event)) ∧
      (∀ i, i < log.length → ¬ Passes (log.eraseIdx i)) := by
  have hlog := (verifyIntegrity_valid _ _).mp hvalid
  have hmain : ∀ other : EventLog F, (other.verifyIntegrity (.ofDigest digest json)).valid = true →
      other.chainHead = log.chainHead →
      other.map (entry (.ofDigest digest json)) = log.map (entry (.ofDigest digest json)) :=
    fun other hother hhead =>
      (entries_eq_of_head_eq hinj hlog ((verifyIntegrity_valid _ _).mp hother) hhead).1
  have hlength : ∀ other : EventLog F, (other.verifyIntegrity (.ofDigest digest json)).valid = true →
      other.chainHead = log.chainHead → other.length = log.length := by
    intro other hother hhead
    simpa using congrArg List.length (hmain other hother hhead)
  refine ⟨fun other h => ⟨hlength other h.1 h.2, hmain other h.1 h.2⟩, ?_, ?_, ?_, ?_⟩
  · intro i event event' hi hne ⟨hother, hhead⟩
    have hlt : i < log.length := (List.getElem?_eq_some_iff.mp hi).1
    have hat := congrArg (·[i]?) (hmain _ hother hhead)
    simp only [List.getElem?_map, List.getElem?_set_self hlt, hi, Option.map_some, Option.some.injEq,
      entry, Prod.mk.injEq] at hat
    exact hne hat.2.2
  · intro other hperm hne ⟨hother, hhead⟩
    exact hne (eq_of_perm hinj hlog ((verifyIntegrity_valid _ _).mp hother) hhead hperm)
  · intro i event hi ⟨hother, hhead⟩
    have hlen := hlength _ hother hhead
    rw [List.length_insertIdx_of_le_length hi] at hlen
    omega
  · intro i hi ⟨hother, hhead⟩
    have hlen := hlength _ hother hhead
    rw [List.length_eraseIdx_of_lt hi] at hlen
    omega

/-- Two recorded cycles: no other verified log of another length has their head. -/
theorem head_of_two_cycles_commits :
    let json : EventPayload ℚ → Str := fun
      | .cycleEvent n action => natStr n ++ action
      | _ => []
    let t : LogTools ℚ := .ofDigest id json
    let log : EventLog ℚ := (EventLog.append t [] .cycleStart (.cycleEvent 1 "plan".toList)).append t .cycleEnd
      (.cycleEvent 1 "done".toList)
    ∀ other : EventLog ℚ, (other.verifyIntegrity t).valid = true → other.chainHead = log.chainHead →
      other.length = 2 := by
  intro json t log other hother hhead
  have hlog : (log.verifyIntegrity t).valid = true :=
    append_valid (append_valid ((verifyIntegrity_valid t []).mpr trivial) _ _) _ _
  exact ((head_commits_to_log (sha256Hex_injective Function.injective_id) log hlog).1 other ⟨hother, hhead⟩).1

end EventLog

end Ccos
