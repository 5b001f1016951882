import Ccos.Forge.Pareto
import Ccos.Forge.Registry
import Ccos.Lib.Frames
import Ccos.Lib.Runs
import Ccos.Log.Persistence

/-!
# An evaluation at a worker

The master sends the payload as one frame and waits for one frame back; the worker reads, evaluates in a thread of its
own and writes. The bytes travel in pieces, the two sides move in any order, and either may fail at any moment. What the
worker logs of its own errors is left out.
-/

open ByteCodec Frames Runs

namespace Ccos.Forge

def maxFrameBytes : Nat := 16 * 1024 * 1024

structure EvaluationPayload where
  candidateId : UInt64
  sourceCode : Str
  seed : UInt64
  generation : UInt64

structure EvaluationResult (F : Type) where
  candidateId : UInt64
  isValid : Bool
  objectives : List F
  errorMessage : Option Str

/-- What the two sides take from their surroundings: the JSON of their messages, and the domain of the worker on a
source and its id. -/
structure WorkerHost (F : Type) where
  payloadJson : SerdeJson EvaluationPayload
  resultJson : SerdeJson (EvaluationResult F)
  parseAddr : Str → Except Str Unit
  verify : Str → UInt64 → Trial → Except Str Bool
  measure : Str → UInt64 → Trial → Except Str (List F)

/-- `dispatch_evaluation_to_worker` on its way. -/
inductive MasterPhase (F : Type)
  | connecting
  | writing
  | reading
  | returned (result : Except ForgeError (EvaluationResult F))

/-- `handle_connection` on its way; when it has ended the connection is closed. -/
inductive WorkerPhase
  | reading
  | evaluating (payload : EvaluationPayload)
  | writing
  | ended

/-- A call and the connection that serves it, with the payloads that the worker has begun to evaluate. -/
structure Exchange (F : Type) where
  master : MasterPhase F
  worker : WorkerPhase
  request : Pipe
  response : Pipe
  evaluated : List EvaluationPayload

inductive Party
  | master | worker

inductive Move
  | connect
  | send (party : Party) (n : Nat)
  | receive (party : Party) (n : Nat)
  | evaluate
  | fault (party : Party) (e : Str)

def Move.isFault : Move → Bool
  | .fault _ _ => true
  | _ => false

/-- What a read reports at the end of the stream. -/
def endOfStream : Str := "failed to fill whole buffer".toList

namespace WorkerHost

variable {F : Type} (h : WorkerHost F)

/-- The bytes of a frame. -/
def writeJsonFrame {T : Type} (json : SerdeJson T) (value : T) : Except ForgeError Bytes := do
  let payload ← (json.toVec value).mapError fun e => ⟨"Échec sérialisation JSON: ".toList ++ e⟩
  if maxFrameBytes < payload.length then
    throw ⟨"Trame Forge trop grande: ".toList ++ natStr payload.length ++ " octets (max ".toList ++
      natStr maxFrameBytes ++ ")".toList⟩
  pure (frame payload)

/-- The last step of `read_json_frame`. -/
def parseJson {T : Type} (json : SerdeJson T) (payload : Bytes) : Except ForgeError T :=
  (json.fromSlice payload).mapError fun e => ⟨"Payload JSON corrompu: ".toList ++ e⟩

def evaluateCandidate (verified : Except Str Bool) (measured : Except Str (List F)) : Bool × List F × Option Str :=
  match verified with
  | .ok true =>
    match measured with
    | .ok objectives => (true, objectives, none)
    | .error e => (false, [], some ("Échec mesure: ".toList ++ e))
  | .ok false =>
    (false, [], some "Porte de vérification rejetée — échec compilation ou assertion mathématique".toList)
  | .error e => (false, [], some ("Erreur critique d'évaluation: ".toList ++ e))

/-- What the worker answers to a payload. -/
def handle (payload : EvaluationPayload) : EvaluationResult F :=
  let trial := { generation := payload.generation, seed := payload.seed }
  let (isValid, objectives, errorMessage) := evaluateCandidate (h.verify payload.sourceCode payload.candidateId trial)
    (h.measure payload.sourceCode payload.candidateId trial)
  { candidateId := payload.candidateId, isValid, objectives, errorMessage }

/-- A payload of `write_frame`, unless it is too long. -/
def fits (payload : Bytes) : Option Bytes := if maxFrameBytes < payload.length then none else some payload

/-! ## The moves of the two sides -/

/-- A call, and the worker that waits for it. -/
def dispatchEvaluationToWorker : Exchange F where
  master := .connecting
  worker := .reading
  request := .start []
  response := .start []
  evaluated := []

/-- The words for an I/O error of the master, by what it was doing. -/
def ioWords (addr : Str) (s : Exchange F) : Str :=
  match s.master with
  | .connecting => "Connexion worker perdue (".toList ++ addr ++ "): ".toList
  | .writing =>
    if s.request.received.length + s.request.inFlight.length < 4 then "Échec écriture longueur de trame: ".toList
    else "Échec écriture payload: ".toList
  | .reading =>
    if s.response.received.length < 4 then "Échec lecture longueur de trame: ".toList
    else "Trame Forge tronquée: ".toList
  | .returned _ => []

/-- The frame that the master writes once it is connected. -/
def openRequest (addr : Str) (payload : EvaluationPayload) : Except ForgeError Bytes := do
  (h.parseAddr addr).mapError fun e => ⟨"Adresse worker invalide '".toList ++ addr ++ "': ".toList ++ e⟩
  writeJsonFrame h.payloadJson payload

def connect (addr : Str) (payload : EvaluationPayload) (s : Exchange F) : Exchange F :=
  match s.master with
  | .connecting =>
    match h.openRequest addr payload with
    | .error e => { s with master := .returned (.error e) }
    | .ok bytes => { s with master := .writing, request := .start bytes }
  | _ => s

def masterSends (n : Nat) (s : Exchange F) : Exchange F :=
  match s.master with
  | .writing =>
    let request := s.request.send n
    { s with request, master := if request.unsent = [] then .reading else .writing }
  | _ => s

def workerSends (n : Nat) (s : Exchange F) : Exchange F :=
  match s.worker with
  | .writing =>
    let response := s.response.send n
    { s with response, worker := if response.unsent = [] then .ended else .writing }
  | _ => s

/-- Where the master stands with what it has read. -/
def masterAfter (got : Bytes) : MasterPhase F :=
  match progress maxFrameBytes got with
  | .wants _ => .reading
  | .tooLong len =>
    .returned (.error ⟨"Trame Forge annoncée trop grande: ".toList ++ natStr len ++ " octets (max ".toList ++
      natStr maxFrameBytes ++ ")".toList⟩)
  | .complete payload => .returned (parseJson h.resultJson payload)

def masterReceives (addr : Str) (n : Nat) (s : Exchange F) : Exchange F :=
  match s.master, progress maxFrameBytes s.response.received, s.response.inFlight, s.worker with
  | .reading, .wants _, [], .ended => { s with master := .returned (.error ⟨ioWords addr s ++ endOfStream⟩) }
  | .reading, .wants _, [], _ => s
  | .reading, .wants k, _ :: _, _ =>
    let response := s.response.receive (min n k)
    { s with response, master := h.masterAfter response.received }
  | _, _, _, _ => s

/-- Where the worker stands with what it has read, and whether it evaluates. -/
def workerAfter (got : Bytes) : WorkerPhase × List EvaluationPayload :=
  match progress maxFrameBytes got with
  | .wants _ => (.reading, [])
  | .tooLong _ => (.ended, [])
  | .complete bytes =>
    match h.payloadJson.fromSlice bytes with
    | .error _ => (.ended, [])
    | .ok payload => (.evaluating payload, [payload])

def workerReceives (n : Nat) (s : Exchange F) : Exchange F :=
  match s.worker, progress maxFrameBytes s.request.received, s.request.inFlight, s.master with
  | .reading, .wants _, [], .returned _ => { s with worker := .ended }
  | .reading, .wants _, [], _ => s
  | .reading, .wants k, _ :: _, _ =>
    let request := s.request.receive (min n k)
    let (worker, begun) := h.workerAfter request.received
    { s with request, worker, evaluated := s.evaluated ++ begun }
  | _, _, _, _ => s

/-- The thread of the evaluation ends, and the worker has its answer. -/
def evaluates (s : Exchange F) : Exchange F :=
  match s.worker with
  | .evaluating payload =>
    match (h.resultJson.toVec (h.handle payload)).toOption.bind fits with
    | none => { s with worker := .ended }
    | some bytes => { s with worker := .writing, response := .start (frame bytes) }
  | _ => s

/-- The connection is lost, times out, or the process goes down. -/
def fails (addr : Str) (party : Party) (e : Str) (s : Exchange F) : Exchange F :=
  match party, s.master with
  | .master, .returned _ => s
  | .master, _ => { s with master := .returned (.error ⟨ioWords addr s ++ e⟩) }
  | .worker, _ => { s with worker := .ended }

def step (addr : Str) (payload : EvaluationPayload) (s : Exchange F) : Move → Exchange F
  | .connect => h.connect addr payload s
  | .send .master n => masterSends n s
  | .send .worker n => workerSends n s
  | .receive .master n => h.masterReceives addr n s
  | .receive .worker n => h.workerReceives n s
  | .evaluate => h.evaluates s
  | .fault party e => fails addr party e s

/-! ## What a call is for -/

/-- The payload of the request frame. -/
def requestOf (payload : EvaluationPayload) : Option Bytes := (h.payloadJson.toVec payload).toOption.bind fits

/-- What the worker makes of the request. -/
def parsedOf (payload : EvaluationPayload) : Option EvaluationPayload :=
  (h.requestOf payload).bind fun bytes => (h.payloadJson.fromSlice bytes).toOption

/-- The payload of the response frame. -/
def responseOf (payload : EvaluationPayload) : Option Bytes :=
  (h.parsedOf payload).bind fun parsed => (h.resultJson.toVec (h.handle parsed)).toOption.bind fits

/-- The result of a call when nothing fails on the way. -/
def exchange (addr : Str) (payload : EvaluationPayload) : Except ForgeError (EvaluationResult F) :=
  match h.openRequest addr payload with
  | .error e => .error e
  | .ok _ =>
    match h.responseOf payload with
    | none => .error ⟨"Échec lecture longueur de trame: ".toList ++ endOfStream⟩
    | some bytes => parseJson h.resultJson bytes

theorem fits_eq_some {b b' : Bytes} (hfits : fits b = some b') : b = b' ∧ b.length ≤ maxFrameBytes := by
  unfold fits at hfits
  split at hfits
  · cases hfits
  · next hle => exact ⟨Option.some.inj hfits, Nat.le_of_not_lt hle⟩

variable {h} {addr : Str} {payload : EvaluationPayload}

theorem requestOf_le {r : Bytes} (hr : h.requestOf payload = some r) : r.length ≤ maxFrameBytes := by
  obtain ⟨b, -, hfits⟩ := Option.bind_eq_some_iff.mp hr
  obtain ⟨rfl, hle⟩ := fits_eq_some hfits
  exact hle

theorem responseOf_le {b : Bytes} (hb : h.responseOf payload = some b) : b.length ≤ maxFrameBytes := by
  obtain ⟨parsed, -, hvec⟩ := Option.bind_eq_some_iff.mp hb
  obtain ⟨b', -, hfits⟩ := Option.bind_eq_some_iff.mp hvec
  obtain ⟨rfl, hle⟩ := fits_eq_some hfits
  exact hle

/-- The frame that is written is that of the request. -/
theorem openRequest_eq_ok {bytes : Bytes} (hopen : h.openRequest addr payload = .ok bytes) :
    ∃ r, h.requestOf payload = some r ∧ bytes = frame r := by
  obtain ⟨⟨⟩, -, hwrite⟩ := bind_eq_ok.mp hopen
  obtain ⟨r, hvec, hrest⟩ := bind_eq_ok.mp hwrite
  cases hjson : h.payloadJson.toVec payload with
  | error e =>
    rw [hjson] at hvec
    cases hvec
  | ok b =>
    rw [hjson] at hvec
    obtain rfl := Except.ok.inj hvec
    split at hrest
    · cases hrest
    · next hle =>
      refine ⟨b, ?_, (Except.ok.inj hrest).symm⟩
      rw [requestOf, hjson]
      exact if_neg hle

theorem exchange_of_response {bytes b : Bytes} (hopen : h.openRequest addr payload = .ok bytes)
    (hb : h.responseOf payload = some b) : h.exchange addr payload = parseJson h.resultJson b := by
  rw [exchange, hopen, hb]

theorem exchange_of_none {bytes : Bytes} (hopen : h.openRequest addr payload = .ok bytes)
    (hb : h.responseOf payload = none) :
    h.exchange addr payload = .error ⟨"Échec lecture longueur de trame: ".toList ++ endOfStream⟩ := by
  rw [exchange, hopen, hb]

/-! ## Where the two sides stand -/

def Wanting (got : Bytes) : Prop := ∃ n, progress maxFrameBytes got = .wants n

/-- Nothing has been put on the pipe, or the frame of what there is to say. -/
def Carries (content : Option Bytes) (p : Pipe) : Prop := p = .start [] ∨ ∃ b, content = some b ∧ p.whole = frame b

variable (h) (addr) (payload)

/-- The call, when nothing has failed as long as `calm`. -/
def MasterHolds (calm : Prop) (s : Exchange F) : Prop :=
  match s.master with
  | .connecting => s.request = .start [] ∧ Wanting s.response.received
  | .writing =>
    ∃ r, h.openRequest addr payload = .ok (frame r) ∧ s.request.whole = frame r ∧ s.request.unsent ≠ [] ∧
      Wanting s.response.received
  | .reading =>
    ∃ r, h.openRequest addr payload = .ok (frame r) ∧ s.request.whole = frame r ∧ s.request.unsent = [] ∧
      Wanting s.response.received
  | .returned x => (calm → x = h.exchange addr payload) ∧ ∀ result, x = .ok result → x = h.exchange addr payload

/-- The worker has begun to evaluate the payload as it arrived. -/
def Begun (s : Exchange F) : Prop := ∃ parsed, h.parsedOf payload = some parsed ∧ s.evaluated = [parsed]

def WorkerHolds (calm : Prop) (s : Exchange F) : Prop :=
  match s.worker with
  | .reading => s.response = .start [] ∧ s.evaluated = [] ∧ Wanting s.request.received
  | .evaluating parsed => s.response = .start [] ∧ s.evaluated = [parsed] ∧ h.parsedOf payload = some parsed
  | .writing => s.response.unsent ≠ [] ∧ h.Begun payload s
  | .ended =>
    (s.evaluated = [] ∨ h.Begun payload s) ∧
      (calm → s.response = .start [] ∧ h.responseOf payload = none ∨
        s.response.unsent = [] ∧ s.response.whole ≠ [] ∨ ∃ x, s.master = .returned x)

structure Holds (calm : Prop) (s : Exchange F) : Prop where
  master : h.MasterHolds addr payload calm s
  worker : h.WorkerHolds payload calm s
  request : Carries (h.requestOf payload) s.request
  response : Carries (h.responseOf payload) s.response

variable {h} {addr} {payload} {calm : Prop} {s : Exchange F}

theorem wanting_nil : Wanting [] := ⟨4, rfl⟩

theorem maxFrameBytes_lt : maxFrameBytes < 2 ^ 32 := by decide

theorem holds_start : h.Holds addr payload calm dispatchEvaluationToWorker where
  master := ⟨rfl, wanting_nil⟩
  worker := ⟨rfl, rfl, wanting_nil⟩
  request := .inl rfl
  response := .inl rfl

theorem Carries.send {content : Option Bytes} {p : Pipe} (hp : Carries content p) (n : Nat) :
    Carries content (p.send n) := by
  rcases hp with rfl | ⟨b, hb, hwhole⟩
  · refine .inl ?_
    simp [Pipe.send, Pipe.start]
  · exact .inr ⟨b, hb, by rw [Pipe.whole_send, hwhole]⟩

theorem Carries.receive {content : Option Bytes} {p : Pipe} (hp : Carries content p) (n : Nat) :
    Carries content (p.receive n) := by
  rcases hp with rfl | ⟨b, hb, hwhole⟩
  · refine .inl ?_
    simp [Pipe.receive, Pipe.start]
  · exact .inr ⟨b, hb, by rw [Pipe.whole_receive, hwhole]⟩

/-- A pipe with bytes on their way carries the frame. -/
theorem Carries.of_inFlight {content : Option Bytes} {p : Pipe} (hp : Carries content p) (hne : p.inFlight ≠ []) :
    ∃ b, content = some b ∧ p.whole = frame b := by
  rcases hp with rfl | h
  · exact absurd rfl hne
  · exact h

/-- A reader of a frame that carries all its bytes has read it. -/
theorem not_wanting {p : Pipe} {b : Bytes} (hle : b.length ≤ maxFrameBytes) (hwhole : p.whole = frame b)
    (hunsent : p.unsent = []) (hflight : p.inFlight = []) : ¬ Wanting p.received := by
  rintro ⟨n, hn⟩
  rw [Pipe.whole, hunsent, hflight, List.append_nil, List.append_nil] at hwhole
  rw [hwhole, progress_frame maxFrameBytes_lt hle] at hn
  cases hn

/-- A move of the master leaves the worker where it was. -/
theorem WorkerHolds.keep {s' : Exchange F} (hs : h.WorkerHolds payload calm s) (worker : s'.worker = s.worker)
    (evaluated : s'.evaluated = s.evaluated) (received : s'.request.received = s.request.received)
    (start : s.response = .start [] → s'.response = .start []) (whole : s'.response.whole = s.response.whole)
    (unsent : s'.response.unsent = s.response.unsent)
    (returned : ∀ x, s.master = .returned x → ∃ x, s'.master = .returned x) : h.WorkerHolds payload calm s' := by
  unfold WorkerHolds at hs ⊢
  unfold Begun at hs ⊢
  rw [worker, evaluated, received, whole, unsent]
  split at hs
  · exact ⟨start hs.1, hs.2⟩
  · exact ⟨start hs.1, hs.2⟩
  · exact hs
  · refine ⟨hs.1, fun hcalm => ?_⟩
    rcases hs.2 hcalm with ⟨hstart, hnone⟩ | hsent | ⟨x, hx⟩
    · exact .inl ⟨start hstart, hnone⟩
    · exact .inr (.inl hsent)
    · exact .inr (.inr (returned x hx))

/-- A move of the worker leaves the master where it was. -/
theorem MasterHolds.keep {s' : Exchange F} (hs : h.MasterHolds addr payload calm s) (master : s'.master = s.master)
    (received : s'.response.received = s.response.received)
    (start : s.request = .start [] → s'.request = .start []) (whole : s'.request.whole = s.request.whole)
    (unsent : s'.request.unsent = s.request.unsent) : h.MasterHolds addr payload calm s' := by
  unfold MasterHolds at hs ⊢
  rw [master, received, whole, unsent]
  split at hs
  · exact ⟨start hs.1, hs.2⟩
  · exact hs
  · exact hs
  · exact hs

theorem Holds.connect (hs : h.Holds addr payload calm s) : h.Holds addr payload calm (h.connect addr payload s) := by
  unfold WorkerHost.connect
  split
  · next hm =>
    obtain ⟨hrequest, hwanting⟩ : s.request = .start [] ∧ Wanting s.response.received := by
      simpa only [MasterHolds, hm] using hs.master
    cases hopen : h.openRequest addr payload with
    | error e =>
      refine ⟨⟨fun _ => by rw [exchange, hopen], nofun⟩, ?_, hs.request, hs.response⟩
      exact hs.worker.keep rfl rfl rfl id rfl rfl fun x hx => ⟨_, rfl⟩
    | ok bytes =>
      obtain ⟨r, hr, rfl⟩ := openRequest_eq_ok hopen
      refine ⟨⟨r, hopen, rfl, frame_ne_nil r, hwanting⟩, ?_, .inr ⟨r, hr, rfl⟩, hs.response⟩
      refine hs.worker.keep rfl rfl ?_ id rfl rfl fun x hx => ?_
      · rw [hrequest]
        rfl
      · rw [hm] at hx
        cases hx
  · exact hs

theorem Holds.masterSends (hs : h.Holds addr payload calm s) (n : Nat) :
    h.Holds addr payload calm (masterSends n s) := by
  unfold WorkerHost.masterSends
  split
  · next hm =>
    obtain ⟨r, hopen, hwhole, -, hwanting⟩ :
        ∃ r, h.openRequest addr payload = .ok (frame r) ∧ s.request.whole = frame r ∧ s.request.unsent ≠ [] ∧
          Wanting s.response.received := by
      simpa only [MasterHolds, hm] using hs.master
    refine ⟨?_, ?_, hs.request.send n, hs.response⟩
    · dsimp only
      split
      · next hsent => exact ⟨r, hopen, by rw [Pipe.whole_send, hwhole], hsent, hwanting⟩
      · next hsent => exact ⟨r, hopen, by rw [Pipe.whole_send, hwhole], hsent, hwanting⟩
    · refine hs.worker.keep rfl rfl rfl id rfl rfl fun x hx => ?_
      rw [hm] at hx
      cases hx
  · exact hs

theorem Holds.workerSends (hs : h.Holds addr payload calm s) (n : Nat) :
    h.Holds addr payload calm (workerSends n s) := by
  unfold WorkerHost.workerSends
  split
  · next hw =>
    obtain ⟨hunsent, hbegun⟩ : s.response.unsent ≠ [] ∧ h.Begun payload s := by
      simpa only [WorkerHolds, hw] using hs.worker
    refine ⟨hs.master.keep rfl rfl id rfl rfl, ?_, hs.request, hs.response.send n⟩
    dsimp only
    split
    · next hsent =>
      refine ⟨.inr hbegun, fun _ => .inr (.inl ⟨hsent, ?_⟩)⟩
      rw [Pipe.whole_send, Pipe.whole]
      simp [hunsent]
    · next hsent => exact ⟨hsent, hbegun⟩
  · exact hs

theorem Holds.evaluates (hs : h.Holds addr payload calm s) : h.Holds addr payload calm (h.evaluates s) := by
  unfold WorkerHost.evaluates
  split
  · next parsed hw =>
    obtain ⟨hstart, hevaluated, hparsed⟩ :
        s.response = .start [] ∧ s.evaluated = [parsed] ∧ h.parsedOf payload = some parsed := by
      simpa only [WorkerHolds, hw] using hs.worker
    have hresponse : h.responseOf payload = (h.resultJson.toVec (h.handle parsed)).toOption.bind fits := by
      rw [responseOf, hparsed, Option.bind_some]
    split
    · next hnone =>
      refine ⟨hs.master.keep rfl rfl id rfl rfl, ⟨.inr ⟨parsed, hparsed, hevaluated⟩, fun _ => ?_⟩, hs.request,
        hs.response⟩
      exact .inl ⟨hstart, hresponse.trans hnone⟩
    · next b hsome =>
      refine ⟨hs.master.keep rfl ?_ id rfl rfl, ⟨frame_ne_nil b, parsed, hparsed, hevaluated⟩, hs.request,
        .inr ⟨b, hresponse.trans hsome, rfl⟩⟩
      rw [hstart]
      rfl
  · exact hs

/-- Once something has failed, only an answer has to be the right one. -/
theorem Holds.fails (hs : h.Holds addr payload calm s) (party : Party) (e : Str) :
    h.Holds addr payload False (fails addr party e s) := by
  have hmaster : h.MasterHolds addr payload False s := by
    have hm := hs.master
    unfold MasterHolds at hm ⊢
    split at hm
    · exact hm
    · exact hm
    · exact hm
    · exact ⟨False.elim, hm.2⟩
  have hworker : h.WorkerHolds payload False s := by
    have hw := hs.worker
    unfold WorkerHolds at hw ⊢
    split at hw
    · exact hw
    · exact hw
    · exact hw
    · exact ⟨hw.1, False.elim⟩
  unfold WorkerHost.fails
  split
  · exact ⟨hmaster, hworker, hs.request, hs.response⟩
  · refine ⟨⟨False.elim, nofun⟩, ?_, hs.request, hs.response⟩
    exact hworker.keep rfl rfl rfl id rfl rfl fun x hx => ⟨_, rfl⟩
  · refine ⟨hmaster.keep rfl rfl id rfl rfl, ⟨?_, False.elim⟩, hs.request, hs.response⟩
    unfold WorkerHolds at hworker
    split at hworker
    · exact .inl hworker.2.1
    · exact .inr ⟨_, hworker.2.2, hworker.2.1⟩
    · exact .inr hworker.2
    · exact hworker.1

theorem start_receive {p : Pipe} (n : Nat) (hp : p = .start []) : p.receive n = .start [] := by
  simp [hp, Pipe.receive, Pipe.start]

/-- What has been read of a frame, once some of it that was on its way has arrived. -/
theorem received_cases {content : Option Bytes} {p : Pipe} (hp : Carries content p) (hne : p.inFlight ≠ [])
    (hle : ∀ b, content = some b → b.length ≤ maxFrameBytes) (n : Nat) :
    (∃ b, content = some b ∧ progress maxFrameBytes (p.receive n).received = .complete b) ∨
      Wanting (p.receive n).received := by
  obtain ⟨b, hb, hwhole⟩ := hp.of_inFlight hne
  have hparts := (Pipe.whole_receive n p).trans hwhole
  rw [Pipe.whole] at hparts
  rcases progress_cases maxFrameBytes_lt (hle b hb) hparts with ⟨hcomplete, -⟩ | ⟨k, hk, -, -⟩
  · exact .inl ⟨b, hb, hcomplete⟩
  · exact .inr ⟨k, hk⟩

theorem masterAfter_wanting {got : Bytes} (hgot : Wanting got) : h.masterAfter got = .reading := by
  obtain ⟨n, hn⟩ := hgot
  rw [masterAfter, hn]

theorem workerAfter_wanting {got : Bytes} (hgot : Wanting got) : h.workerAfter got = (.reading, []) := by
  obtain ⟨n, hn⟩ := hgot
  rw [workerAfter, hn]

/-- At the end of the stream a calm worker had nothing to answer. -/
theorem Holds.endOfStream (hs : h.Holds addr payload calm s) (hm : s.master = .reading) (hw : s.worker = .ended)
    (hflight : s.response.inFlight = []) (hcalm : calm) :
    .error ⟨ioWords addr s ++ endOfStream⟩ = h.exchange addr payload := by
  obtain ⟨r, hopen, -, -, hwanting⟩ : ∃ r, h.openRequest addr payload = .ok (frame r) ∧ s.request.whole = frame r ∧
      s.request.unsent = [] ∧ Wanting s.response.received := by
    simpa only [MasterHolds, hm] using hs.master
  have hended := hs.worker
  simp only [WorkerHolds, hw] at hended
  rcases hended.2 hcalm with ⟨hstart, hnone⟩ | ⟨hsent, hne⟩ | ⟨x, hx⟩
  · rw [exchange_of_none hopen hnone, ioWords, hm, hstart]
    rfl
  · rcases hs.response with hstart | ⟨b, hb, hwhole⟩
    · exact absurd (congrArg Pipe.whole hstart) hne
    · exact absurd hwanting (not_wanting (responseOf_le hb) hwhole hsent hflight)
  · rw [hm] at hx
    cases hx

/-- What a read of the master can do. -/
theorem masterReceives_cases (s : Exchange F) (n : Nat) :
    h.masterReceives addr n s = s ∨
      (s.master = .reading ∧ s.worker = .ended ∧ s.response.inFlight = [] ∧
        h.masterReceives addr n s = { s with master := .returned (.error ⟨ioWords addr s ++ endOfStream⟩) }) ∨
      ∃ k, s.master = .reading ∧ progress maxFrameBytes s.response.received = .wants k ∧ s.response.inFlight ≠ [] ∧
        h.masterReceives addr n s = { s with
          response := s.response.receive (min n k)
          master := h.masterAfter (s.response.receive (min n k)).received } := by
  unfold WorkerHost.masterReceives
  split
  · next hm hprogress hflight hw => exact .inr (.inl ⟨hm, hw, hflight, rfl⟩)
  · exact .inl rfl
  · next k byte rest hm hprogress hflight =>
    exact .inr (.inr ⟨k, hm, hprogress, by simp [hflight], rfl⟩)
  · exact .inl rfl

/-- What a read of the worker can do. -/
theorem workerReceives_cases (s : Exchange F) (n : Nat) :
    h.workerReceives n s = s ∨
      (s.worker = .reading ∧ (∃ x, s.master = .returned x) ∧ h.workerReceives n s = { s with worker := .ended }) ∨
      ∃ k, s.worker = .reading ∧ progress maxFrameBytes s.request.received = .wants k ∧ s.request.inFlight ≠ [] ∧
        h.workerReceives n s = { s with
          request := s.request.receive (min n k)
          worker := (h.workerAfter (s.request.receive (min n k)).received).1
          evaluated := s.evaluated ++ (h.workerAfter (s.request.receive (min n k)).received).2 } := by
  unfold WorkerHost.workerReceives
  split
  · next x hw hprogress hflight hm => exact .inr (.inl ⟨hw, ⟨x, hm⟩, rfl⟩)
  · exact .inl rfl
  · next k byte rest hw hprogress hflight =>
    exact .inr (.inr ⟨k, hw, hprogress, by simp [hflight], rfl⟩)
  · exact .inl rfl

theorem Holds.masterReceives (hs : h.Holds addr payload calm s) (n : Nat) :
    h.Holds addr payload calm (h.masterReceives addr n s) := by
  rcases h.masterReceives_cases s n with heq | ⟨hm, hw, hflight, heq⟩ | ⟨k, hm, hprogress, hne, heq⟩
  · rw [heq]
    exact hs
  · rw [heq]
    refine ⟨⟨hs.endOfStream hm hw hflight, nofun⟩, ?_, hs.request, hs.response⟩
    exact hs.worker.keep rfl rfl rfl id rfl rfl fun x hx => ⟨_, rfl⟩
  · obtain ⟨r, hopen, hwhole, hunsent, -⟩ : ∃ r, h.openRequest addr payload = .ok (frame r) ∧
        s.request.whole = frame r ∧ s.request.unsent = [] ∧ Wanting s.response.received := by
      simpa only [MasterHolds, hm] using hs.master
    rw [heq]
    refine ⟨?_, ?_, hs.request, hs.response.receive _⟩
    · rcases received_cases hs.response hne (fun b => responseOf_le) (min n k) with ⟨b, hb, hcomplete⟩ | hwanting
      · have hresult : parseJson h.resultJson b = h.exchange addr payload := (exchange_of_response hopen hb).symm
        simp only [masterAfter, hcomplete]
        exact ⟨fun _ => hresult, fun _ _ => hresult⟩
      · rw [masterAfter_wanting hwanting]
        exact ⟨r, hopen, hwhole, hunsent, hwanting⟩
    · refine hs.worker.keep rfl rfl rfl (start_receive _) (Pipe.whole_receive _ _) rfl fun x hx => ?_
      rw [hm] at hx
      cases hx

theorem Holds.workerReceives (hs : h.Holds addr payload calm s) (n : Nat) :
    h.Holds addr payload calm (h.workerReceives n s) := by
  have hworker := hs.worker
  rcases h.workerReceives_cases s n with heq | ⟨hw, hreturned, heq⟩ | ⟨k, hw, hprogress, hne, heq⟩
  · rw [heq]
    exact hs
  · simp only [WorkerHolds, hw] at hworker
    rw [heq]
    refine ⟨hs.master.keep rfl rfl id rfl rfl, ⟨.inl hworker.2.1, fun _ => .inr (.inr hreturned)⟩, hs.request,
      hs.response⟩
  · simp only [WorkerHolds, hw] at hworker
    obtain ⟨hstart, hevaluated, -⟩ := hworker
    rw [heq]
    refine ⟨hs.master.keep rfl rfl (start_receive _) (Pipe.whole_receive _ _) rfl, ?_, hs.request.receive _,
      hs.response⟩
    rcases received_cases hs.request hne (fun b => requestOf_le) (min n k) with ⟨r, hr, hcomplete⟩ | hwanting
    · have hparsed : h.parsedOf payload = (h.payloadJson.fromSlice r).toOption := by
        rw [parsedOf, hr, Option.bind_some]
      cases hjson : h.payloadJson.fromSlice r with
      | error e =>
        rw [hjson] at hparsed
        simp only [workerAfter, hcomplete, hjson, List.append_nil]
        refine ⟨.inl hevaluated, fun _ => .inl ⟨hstart, ?_⟩⟩
        rw [responseOf, hparsed]
        rfl
      | ok parsed =>
        rw [hjson] at hparsed
        simp only [workerAfter, hcomplete, hjson, hevaluated]
        exact ⟨hstart, rfl, hparsed⟩
    · rw [workerAfter_wanting hwanting, List.append_nil]
      exact ⟨hstart, hevaluated, hwanting⟩

theorem Holds.mono {calm' : Prop} (hs : h.Holds addr payload calm s) (himp : calm' → calm) :
    h.Holds addr payload calm' s := by
  refine ⟨?_, ?_, hs.request, hs.response⟩
  · have hm := hs.master
    unfold MasterHolds at hm ⊢
    split at hm
    · exact hm
    · exact hm
    · exact hm
    · exact ⟨fun hcalm => hm.1 (himp hcalm), hm.2⟩
  · have hw := hs.worker
    unfold WorkerHolds at hw ⊢
    split at hw
    · exact hw
    · exact hw
    · exact hw
    · exact ⟨hw.1, fun hcalm => hw.2 (himp hcalm)⟩

/-- Every move keeps what holds; after a fault it is no longer calm. -/
theorem Holds.step (hs : h.Holds addr payload calm s) (m : Move) :
    h.Holds addr payload (calm ∧ m.isFault = false) (h.step addr payload s m) := by
  cases m with
  | connect => exact hs.connect.mono And.left
  | send party n =>
    cases party with
    | master => exact (hs.masterSends n).mono And.left
    | worker => exact (hs.workerSends n).mono And.left
  | receive party n =>
    cases party with
    | master => exact (hs.masterReceives n).mono And.left
    | worker => exact (hs.workerReceives n).mono And.left
  | evaluate => exact hs.evaluates.mono And.left
  | fault party e => exact (hs.fails party e).mono fun hcalm => nomatch hcalm.2

theorem Holds.run (hs : h.Holds addr payload calm s) (moves : List Move) :
    h.Holds addr payload (calm ∧ ∀ m ∈ moves, m.isFault = false) (run (h.step addr payload) s moves) := by
  induction moves generalizing s calm with
  | nil => exact hs.mono And.left
  | cons m moves ih =>
    refine (ih (hs.step m)).mono fun ⟨hcalm, hall⟩ => ⟨⟨hcalm, hall m List.mem_cons_self⟩, fun m' hm' => ?_⟩
    exact hall m' (List.mem_cons_of_mem m hm')

/-! ## A calm call returns -/

theorem masterSends_request (hm : s.master = .writing) (n : Nat) :
    (masterSends n s).request = s.request.send n := by
  rw [masterSends, hm]

theorem workerSends_response (hw : s.worker = .writing) (n : Nat) :
    (workerSends n s).response = s.response.send n := by
  rw [workerSends, hw]

theorem masterReceives_response {k : Nat} (hm : s.master = .reading)
    (hk : progress maxFrameBytes s.response.received = .wants k) (hne : s.response.inFlight ≠ []) (n : Nat) :
    (h.masterReceives addr n s).response = s.response.receive (min n k) := by
  obtain ⟨byte, rest, hflight⟩ := List.exists_cons_of_ne_nil hne
  rw [masterReceives, hm, hk, hflight]

theorem masterReceives_end {k : Nat} (hm : s.master = .reading)
    (hk : progress maxFrameBytes s.response.received = .wants k) (hflight : s.response.inFlight = [])
    (hw : s.worker = .ended) : ∃ x, (h.masterReceives addr 0 s).master = .returned x := by
  rw [masterReceives, hm, hk, hflight, hw]
  exact ⟨_, rfl⟩

theorem workerReceives_request {k : Nat} (hw : s.worker = .reading)
    (hk : progress maxFrameBytes s.request.received = .wants k) (hne : s.request.inFlight ≠ []) (n : Nat) :
    (h.workerReceives n s).request = s.request.receive (min n k) := by
  obtain ⟨byte, rest, hflight⟩ := List.exists_cons_of_ne_nil hne
  rw [workerReceives, hw, hk, hflight]

theorem evaluates_worker {parsed : EvaluationPayload} (hw : s.worker = .evaluating parsed) :
    (h.evaluates s).worker ≠ .evaluating parsed := by
  rw [WorkerHost.evaluates, hw]
  dsimp only
  split <;> exact nofun

/-- A reader that wants bytes of a frame that has been sent has some on their way. -/
theorem inFlight_of_wanting {p : Pipe} {b : Bytes} (hle : b.length ≤ maxFrameBytes) (hwhole : p.whole = frame b)
    (hunsent : p.unsent = []) (hwanting : Wanting p.received) : p.inFlight ≠ [] :=
  fun hflight => not_wanting hle hwhole hunsent hflight hwanting

theorem wants_pos {got : Bytes} {k : Nat} (hk : progress maxFrameBytes got = .wants k) : 0 < k := by
  unfold progress at hk
  split at hk
  · cases hk
    omega
  · dsimp only at hk
    split at hk
    · cases hk
    · split at hk
      · cases hk
        omega
      · cases hk

/-- While the call has not returned, some side can move. -/
theorem Holds.returned_of_quiet (hs : h.Holds addr payload True s)
    (hquiet : ∀ m, m.isFault = false → h.step addr payload s m = s) : ∃ x, s.master = .returned x := by
  have hmaster := hs.master
  have hworker := hs.worker
  cases hm : s.master with
  | returned x => exact ⟨x, rfl⟩
  | connecting =>
    have hmove := congrArg Exchange.master (hquiet .connect rfl)
    rw [hm] at hmove
    unfold WorkerHost.step WorkerHost.connect at hmove
    cases hopen : h.openRequest addr payload <;> simp [hm, hopen] at hmove
  | writing =>
    simp only [MasterHolds, hm] at hmaster
    obtain ⟨r, -, -, hunsent, -⟩ := hmaster
    have hmove := congrArg Exchange.request (hquiet (.send .master 1) rfl)
    exact absurd ((masterSends_request hm 1).symm.trans hmove) (Pipe.send_ne hunsent Nat.one_pos)
  | reading =>
    simp only [MasterHolds, hm] at hmaster
    obtain ⟨r, hopen, hwhole, hunsent, k, hk⟩ := hmaster
    have hreceive : s.response.inFlight = [] := by
      by_contra hne
      have hmove := congrArg Exchange.response (hquiet (.receive .master 1) rfl)
      refine Pipe.receive_ne hne (n := min 1 k) ?_ ((masterReceives_response hm hk hne 1).symm.trans hmove)
      have hpos := wants_pos hk
      omega
    cases hw : s.worker with
    | reading =>
      simp only [WorkerHolds, hw] at hworker
      obtain ⟨-, -, k', hk'⟩ := hworker
      obtain ⟨r', hr', hframe⟩ := openRequest_eq_ok hopen
      rw [hframe] at hwhole
      have hne := inFlight_of_wanting (requestOf_le hr') hwhole hunsent ⟨k', hk'⟩
      have hmove := congrArg Exchange.request (hquiet (.receive .worker 1) rfl)
      refine absurd ((workerReceives_request hw hk' hne 1).symm.trans hmove) (Pipe.receive_ne hne ?_)
      have hpos := wants_pos hk'
      omega
    | evaluating parsed =>
      have hmove := congrArg Exchange.worker (hquiet .evaluate rfl)
      exact absurd (hmove.trans hw) (evaluates_worker hw)
    | writing =>
      simp only [WorkerHolds, hw] at hworker
      have hmove := congrArg Exchange.response (hquiet (.send .worker 1) rfl)
      exact absurd ((workerSends_response hw 1).symm.trans hmove) (Pipe.send_ne hworker.1 Nat.one_pos)
    | ended =>
      have hend : ∃ x, (h.masterReceives addr 0 s).master = .returned x := masterReceives_end hm hk hreceive hw
      obtain ⟨x, hx⟩ := hend
      have hmove := congrArg Exchange.master (hquiet (.receive .master 0) rfl)
      rw [hm] at hmove
      exact absurd (hmove.symm.trans hx) nofun

/-! ## How long a call takes -/

variable (h) (payload)

def frameLoad (content : Option Bytes) : Nat := content.elim 0 fun b => 2 * (frame b).length

def masterAhead : MasterPhase F → Nat
  | .connecting => 3 + frameLoad (h.requestOf payload)
  | .writing => 2
  | .reading => 1
  | .returned _ => 0

def workerAhead : WorkerPhase → Nat
  | .reading => 3 + frameLoad (h.responseOf payload)
  | .evaluating _ => 2 + frameLoad (h.responseOf payload)
  | .writing => 1
  | .ended => 0

/-- The moves that are still ahead, at most. -/
def pending (s : Exchange F) : Nat :=
  h.masterAhead payload s.master + h.workerAhead payload s.worker + s.request.load + s.response.load

variable {h} {payload}

theorem pending_connect (hne : h.connect addr payload s ≠ s) :
    h.pending payload (h.connect addr payload s) < h.pending payload s := by
  unfold WorkerHost.connect at hne ⊢
  cases hm : s.master with
  | connecting =>
    cases hopen : h.openRequest addr payload with
    | error e =>
      simp only [pending, masterAhead, hm]
      omega
    | ok bytes =>
      obtain ⟨r, hr, rfl⟩ := openRequest_eq_ok hopen
      have hload : (Pipe.start (frame r)).load = frameLoad (h.requestOf payload) := by
        rw [hr]
        rfl
      simp only [pending, masterAhead, hm, hload]
      omega
  | _ => simp [hm] at hne

theorem pending_masterSends (hs : h.Holds addr payload calm s) {n : Nat} (hne : masterSends n s ≠ s) :
    h.pending payload (masterSends n s) < h.pending payload s := by
  unfold WorkerHost.masterSends at hne ⊢
  cases hm : s.master with
  | writing =>
    simp only [hm] at hne ⊢
    have hmaster := hs.master
    simp only [MasterHolds, hm] at hmaster
    obtain ⟨r, -, -, hunsent, -⟩ := hmaster
    have hload : (s.request.send n).load < s.request.load := by
      refine Pipe.load_send fun hsame => hne ?_
      rw [hsame, if_neg hunsent, ← hm]
    split <;> simp only [pending, masterAhead, hm] <;> omega
  | _ => simp [hm] at hne

theorem pending_workerSends (hs : h.Holds addr payload calm s) {n : Nat} (hne : workerSends n s ≠ s) :
    h.pending payload (workerSends n s) < h.pending payload s := by
  unfold WorkerHost.workerSends at hne ⊢
  cases hw : s.worker with
  | writing =>
    simp only [hw] at hne ⊢
    have hworker := hs.worker
    simp only [WorkerHolds, hw] at hworker
    have hload : (s.response.send n).load < s.response.load := by
      refine Pipe.load_send fun hsame => hne ?_
      rw [hsame, if_neg hworker.1, ← hw]
    split <;> simp only [pending, workerAhead, hw] <;> omega
  | _ => simp [hw] at hne

theorem pending_evaluates (hs : h.Holds addr payload calm s) (hne : h.evaluates s ≠ s) :
    h.pending payload (h.evaluates s) < h.pending payload s := by
  unfold WorkerHost.evaluates at hne ⊢
  cases hw : s.worker with
  | evaluating parsed =>
    have hworker := hs.worker
    simp only [WorkerHolds, hw] at hworker
    obtain ⟨hstart, -, hparsed⟩ := hworker
    have hresponse : h.responseOf payload = (h.resultJson.toVec (h.handle parsed)).toOption.bind fits := by
      rw [responseOf, hparsed, Option.bind_some]
    simp only
    split
    · simp only [pending, workerAhead, hw]
      omega
    · next b hsome =>
      have hload : (Pipe.start (frame b)).load = frameLoad (h.responseOf payload) := by
        rw [hresponse, hsome]
        rfl
      simp only [pending, workerAhead, hw, hload]
      omega
  | _ => simp [hw] at hne

theorem masterAhead_masterAfter (got : Bytes) : h.masterAhead payload (h.masterAfter got) ≤ 1 := by
  unfold masterAfter
  split
  · exact le_refl 1
  · exact Nat.zero_le 1
  · exact Nat.zero_le 1

theorem workerAhead_workerAfter (got : Bytes) :
    h.workerAhead payload (h.workerAfter got).1 ≤ 3 + frameLoad (h.responseOf payload) := by
  unfold workerAfter
  split
  · exact le_refl _
  · exact Nat.zero_le _
  · split
    · exact Nat.zero_le _
    · exact Nat.add_le_add_right (by decide) _

theorem pending_masterReceives {n : Nat} (hne : h.masterReceives addr n s ≠ s) :
    h.pending payload (h.masterReceives addr n s) < h.pending payload s := by
  rcases h.masterReceives_cases s n with heq | ⟨hm, -, -, heq⟩ | ⟨k, hm, hprogress, -, heq⟩
  · exact absurd heq hne
  · rw [heq]
    simp only [pending, masterAhead, hm]
    omega
  · have hload : (s.response.receive (min n k)).load < s.response.load := by
      refine Pipe.load_receive fun hsame => hne ?_
      rw [heq, hsame, masterAfter_wanting ⟨k, hprogress⟩, ← hm]
    have hahead : h.masterAhead payload (h.masterAfter (s.response.receive (min n k)).received) ≤
        h.masterAhead payload s.master := by
      rw [hm]
      exact masterAhead_masterAfter _
    rw [heq]
    simp only [pending]
    omega

theorem pending_workerReceives {n : Nat} (hne : h.workerReceives n s ≠ s) :
    h.pending payload (h.workerReceives n s) < h.pending payload s := by
  rcases h.workerReceives_cases s n with heq | ⟨hw, -, heq⟩ | ⟨k, hw, hprogress, -, heq⟩
  · exact absurd heq hne
  · rw [heq]
    simp only [pending, workerAhead, hw]
    omega
  · have hload : (s.request.receive (min n k)).load < s.request.load := by
      refine Pipe.load_receive fun hsame => hne ?_
      rw [heq, hsame, workerAfter_wanting ⟨k, hprogress⟩, ← hw, List.append_nil]
    have hahead : h.workerAhead payload (h.workerAfter (s.request.receive (min n k)).received).1 ≤
        h.workerAhead payload s.worker := by
      rw [hw]
      exact workerAhead_workerAfter _
    rw [heq]
    simp only [pending]
    omega

theorem pending_fails {party : Party} {e : Str} (hne : fails addr party e s ≠ s) :
    h.pending payload (fails addr party e s) < h.pending payload s := by
  unfold WorkerHost.fails at hne ⊢
  cases party with
  | master =>
    cases hm : s.master with
    | returned x => simp [hm] at hne
    | _ =>
      simp only [pending, masterAhead, hm]
      omega
  | worker =>
    cases hw : s.worker with
    | ended => exact absurd (by rw [← hw]) hne
    | _ =>
      simp only [pending, workerAhead, hw]
      omega

/-- A move that changes anything brings the call closer to its end. -/
theorem pending_step (hs : h.Holds addr payload calm s) {m : Move} (hne : h.step addr payload s m ≠ s) :
    h.pending payload (h.step addr payload s m) < h.pending payload s := by
  cases m with
  | connect => exact pending_connect hne
  | send party n =>
    cases party with
    | master => exact pending_masterSends hs hne
    | worker => exact pending_workerSends hs hne
  | receive party n =>
    cases party with
    | master => exact pending_masterReceives hne
    | worker => exact pending_workerReceives hne
  | evaluate => exact pending_evaluates hs hne
  | fault party e => exact pending_fails hne

variable (h) (addr) (payload)

/-- The exchange after the moves. -/
def after (moves : List Move) : Exchange F := run (h.step addr payload) dispatchEvaluationToWorker moves

/-- However the two sides and the network interleave and whatever fails: the worker evaluates once at most, and only the
payload as it arrived; a result that the call returns is that of the exchange. Without faults the call returns the
outcome of the exchange and nothing else, it cannot get stuck before, and it moves no more often than the bytes of the
two frames need. -/
theorem dispatch_exchanges (moves : List Move) :
    ((h.after addr payload moves).evaluated = [] ∨ h.Begun payload (h.after addr payload moves)) ∧
      (∀ result, (h.after addr payload moves).master = .returned (.ok result) →
        h.exchange addr payload = .ok result) ∧
      ((∀ m ∈ moves, m.isFault = false) →
        (∀ x, (h.after addr payload moves).master = .returned x → x = h.exchange addr payload) ∧
        ((∀ m, m.isFault = false → h.step addr payload (h.after addr payload moves) m = h.after addr payload moves) →
          ∃ x, (h.after addr payload moves).master = .returned x)) ∧
      (EachStep (h.step addr payload) (fun s m => h.step addr payload s m ≠ s) dispatchEvaluationToWorker moves →
        moves.length ≤ 6 + frameLoad (h.requestOf payload) + frameLoad (h.responseOf payload)) := by
  have hbegin : h.Holds addr payload True dispatchEvaluationToWorker := holds_start
  have hholds := hbegin.run moves
  rw [← after] at hholds
  have hmaster := hholds.master
  refine ⟨?_, fun result hm => ?_, fun hcalm => ⟨fun x hm => ?_, fun hquiet => ?_⟩, fun heffective => ?_⟩
  · have hworker := hholds.worker
    unfold WorkerHolds at hworker
    split at hworker
    · exact .inl hworker.2.1
    · exact .inr ⟨_, hworker.2.2, hworker.2.1⟩
    · exact .inr hworker.2
    · exact hworker.1
  · simp only [MasterHolds, hm] at hmaster
    exact (hmaster.2 result rfl).symm
  · simp only [MasterHolds, hm] at hmaster
    exact hmaster.1 ⟨trivial, hcalm⟩
  · exact (hholds.mono fun _ => ⟨trivial, hcalm⟩).returned_of_quiet hquiet
  · have hbound := length_le_of_lowers (P := h.Holds addr payload False) (h.pending payload) holds_start
      (fun s m hs => (hs.step m).mono False.elim) (fun s m hs hne => pending_step hs hne) heffective
    have hstart : h.pending payload dispatchEvaluationToWorker =
        6 + frameLoad (h.requestOf payload) + frameLoad (h.responseOf payload) := by
      simp only [pending, masterAhead, workerAhead, dispatchEvaluationToWorker, Pipe.load_start, List.length_nil]
      omega
    omega

end WorkerHost

end Ccos.Forge
