import Ccos.Swarm.Orchestrator

/-!
# What a swarm publishes

The trace of a run is made of what each operation publishes: a death, or a round of health messages and one pass of
the transfer protocol.
-/

open Std

set_option linter.unusedSectionVars false

namespace Ccos

variable {A F : Type}

namespace SwarmMessage

def isHealth : SwarmMessage F → Bool
  | .health .. => true
  | _ => false

def isAdopted : SwarmMessage F → Bool
  | .strategyAdopted .. => true
  | _ => false

/-- A message is the answer of `target` to the offer of `source`. -/
inductive Answers (source : UnitId) (digest : UInt64) (target : UnitId) : SwarmMessage F → Prop
  | adopted : Answers source digest target (.strategyAdopted target source digest)
  | rejected (reason : RejectionReason) : Answers source digest target (.strategyRejected target source reason)

end SwarmMessage

/-- The units that live after an operation, when those of `live` lived before. -/
def SwarmOp.Lives (live : UnitId → Prop) : SwarmOp A → UnitId → Prop
  | .spawn new _, id => id = new ∨ live id
  | .kill dead, id => id ≠ dead ∧ live id
  | .stepRound, id => live id

section

variable [Float64 F] [RSIAgent A F]

/-- The report of the unit in this round. -/
def UnitRuntime.report (unit : UnitRuntime A F) : StepReport F := (RSIAgent.step unit.agent).2

/-- The strategy of the unit after its step of this round. -/
def UnitRuntime.strategy (unit : UnitRuntime A F) : MetaStrategy F := RSIAgent.strategy (RSIAgent.step unit.agent).1

/-- The unit after its step. -/
def UnitRuntime.stepped (unit : UnitRuntime A F) : UnitRuntime A F :=
  { unit with agent := (RSIAgent.step unit.agent).1, last := some unit.report }

namespace CervoOrchestrator

abbrev Units (A F : Type) := BTreeMap UnitId (UnitRuntime A F)

/-- No live unit has a greater score in this round, and none of the same score has a smaller id. -/
def Leads (units : Units A F) (source : UnitId) (r : StepReport F) : Prop :=
  ∀ id unit, units[id]? = some unit →
    Float64.totalCmp unit.report.siSafe r.siSafe = .lt ∨
      Float64.totalCmp unit.report.siSafe r.siSafe = .eq ∧ source ≤ id

/-- One pass of the transfer protocol. -/
inductive Pass (units : Units A F) : List (SwarmMessage F) → Prop
  | idle (dead : ∀ id, id ∉ units) : Pass units []
  | offer {source : UnitId} {unit : UnitRuntime A F} {answers : List (SwarmMessage F)}
      (live : units[source]? = some unit) (leads : Leads units source unit.report)
      (answered : List.Forall₂ (SwarmMessage.Answers source (strategyDigest unit.strategy))
        (units.keys.filter (· ≠ source)) answers) :
      Pass units (.strategyOffer source (strategyDigest unit.strategy) unit.report.siSafe :: answers)

/-- What an operation publishes. -/
inductive Published (units : Units A F) : SwarmOp A → List (SwarmMessage F) → Prop
  | spawn (id : UnitId) (agent : A) : Published units (.spawn id agent) []
  | kill {id : UnitId} (live : id ∈ units) : Published units (.kill id) [.shutdown id]
  | spare {id : UnitId} (dead : id ∉ units) : Published units (.kill id) []
  | round {pass : List (SwarmMessage F)} (h : Pass units pass) :
      Published units .stepRound (units.toList.map (fun p => p.2.report.health p.1) ++ pass)

/-- What the operations publish, one after the other. -/
inductive Trace : CervoOrchestrator A F → List (SwarmOp A) → List (SwarmMessage F) → Prop
  | nil (s : CervoOrchestrator A F) : Trace s [] []
  | cons {s s' : CervoOrchestrator A F} {op : SwarmOp A} {ops : List (SwarmOp A)}
      {segment rest : List (SwarmMessage F)} (step : s.step op = some s')
      (live : ∀ id, id ∈ s'.units ↔ op.Lives (· ∈ s.units) id) (published : Published s.units op segment)
      (trace : Trace s' ops rest) : Trace s (op :: ops) (segment ++ rest)

def messages (s : CervoOrchestrator A F) : List (SwarmMessage F) := s.events.map (·.message)

/-- The sequence numbers and the counters agree with the events, when the messages of `owed` are counted but not
published yet. -/
structure Counted (s : CervoOrchestrator A F) (owed : List (SwarmMessage F)) : Prop where
  room : s.events.length ≤ maxEvents
  seqs : s.events.map (·.seq.toNat) = List.range' 1 s.events.length
  next : s.nextSeq.toNat = s.events.length + 1
  steps : s.totalSteps = UInt64.ofNat ((s.messages ++ owed).countP SwarmMessage.isHealth)
  adoptions : s.totalAdoptions = UInt64.ofNat ((s.messages ++ owed).countP SwarmMessage.isAdopted)

/-- What publishing `segment` leaves as it is. -/
structure Publishes (s s' : CervoOrchestrator A F) (segment : List (SwarmMessage F)) : Prop where
  messages : s'.messages = s.messages ++ segment
  live : ∀ id, id ∈ s'.units ↔ id ∈ s.units

/-! ## Publishing -/

theorem Publishes.refl {s : CervoOrchestrator A F} : Publishes s s [] :=
  ⟨(List.append_nil _).symm, fun _ => Iff.rfl⟩

theorem Publishes.trans {s s' s'' : CervoOrchestrator A F} {a b : List (SwarmMessage F)} (h : Publishes s s' a)
    (h' : Publishes s' s'' b) : Publishes s s'' (a ++ b) where
  messages := by rw [h'.messages, h.messages, List.append_assoc]
  live id := (h'.live id).trans (h.live id)

theorem emit_cases {s s' : CervoOrchestrator A F} {m : SwarmMessage F} (h : s.emit m = some s') :
    s.events.length < maxEvents ∧ s' = { s with
      events := s.events ++ [{ seq := s.nextSeq, message := m }]
      nextSeq := if s.nextSeq.toNat + 1 < 2 ^ 64 then s.nextSeq + 1 else s.nextSeq } := by
  unfold emit at h
  split at h
  · next hroom => exact ⟨hroom, (Option.some.inj h).symm⟩
  · cases h

theorem publishes_emit {s s' : CervoOrchestrator A F} {m : SwarmMessage F} (h : s.emit m = some s') :
    Publishes s s' [m] ∧ s'.units = s.units := by
  obtain ⟨-, rfl⟩ := emit_cases h
  exact ⟨⟨by simp [messages], fun _ => Iff.rfl⟩, rfl⟩

/-- Publishing pays what is owed. -/
theorem Counted.emit {s s' : CervoOrchestrator A F} {m : SwarmMessage F} {owed : List (SwarmMessage F)}
    (hs : s.Counted (m :: owed)) (h : s.emit m = some s') : s'.Counted owed := by
  have hmessages := (publishes_emit h).1.messages
  obtain ⟨hroom, rfl⟩ := emit_cases h
  have hnext := hs.next
  -- The capacity of the vector keeps the sequence numbers far below their limit.
  have hlt : s.nextSeq.toNat + 1 < 2 ^ 64 := by
    unfold maxEvents at hroom
    omega
  have hlength : (s.events ++ [(⟨s.nextSeq, m⟩ : SwarmEvent F)]).length = s.events.length + 1 := by simp
  constructor
  · exact hlength ▸ hroom
  · dsimp only
    rw [hlength, List.map_append, hs.seqs, List.range'_concat, List.map_singleton, hnext]
    simp [Nat.add_comm]
  · dsimp only
    rw [if_pos hlt, hlength, UInt64.toNat_add, hnext]
    rw [hnext] at hlt
    exact Nat.mod_eq_of_lt hlt
  · rw [hmessages, List.append_assoc, List.singleton_append]
    exact hs.steps
  · rw [hmessages, List.append_assoc, List.singleton_append]
    exact hs.adoptions

/-- The units and the round number play no part. -/
theorem Counted.of_eq {s s' : CervoOrchestrator A F} {owed : List (SwarmMessage F)} (hs : s.Counted owed)
    (hevents : s'.events = s.events) (hseq : s'.nextSeq = s.nextSeq) (hsteps : s'.totalSteps = s.totalSteps)
    (hadoptions : s'.totalAdoptions = s.totalAdoptions) : s'.Counted owed where
  room := hevents ▸ hs.room
  seqs := hevents ▸ hs.seqs
  next := by rw [hseq, hevents, hs.next]
  steps := by rw [hsteps, hs.steps, messages, messages, hevents]
  adoptions := by rw [hadoptions, hs.adoptions, messages, messages, hevents]

/-- What no counter counts may be owed at any time. -/
theorem Counted.owe {s : CervoOrchestrator A F} {m : SwarmMessage F} (hs : s.Counted []) (hhealth : m.isHealth = false)
    (hadopted : m.isAdopted = false) : s.Counted [m] where
  room := hs.room
  seqs := hs.seqs
  next := hs.next
  steps := by simpa [List.countP_append, hhealth] using hs.steps
  adoptions := by simpa [List.countP_append, hadopted] using hs.adoptions

theorem emitAll_spec {messages : List (SwarmMessage F)} {s s' : CervoOrchestrator A F}
    (h : s.emitAll messages = some s') :
    Publishes s s' messages ∧ s'.units = s.units ∧ (s.Counted messages → s'.Counted []) := by
  induction messages generalizing s with
  | nil =>
    obtain rfl := Option.some.inj h
    exact ⟨.refl, rfl, id⟩
  | cons m messages ih =>
    obtain ⟨mid, hmid, hrest⟩ := Option.bind_eq_some_iff.mp (List.foldlM_cons.symm.trans h)
    obtain ⟨hpub, hunits⟩ := publishes_emit hmid
    obtain ⟨hpub', hunits', hcounted⟩ := ih hrest
    exact ⟨hpub.trans hpub', hunits'.trans hunits, fun hs => hcounted (hs.emit hmid)⟩

/-! ## The steps of a round -/

/-- The units of `l` are stepped, and nothing is published. -/
structure StepsUnits (s s' : CervoOrchestrator A F) (l : List (UnitId × UnitRuntime A F)) : Prop where
  events : s'.events = s.events
  nextSeq : s'.nextSeq = s.nextSeq
  adoptions : s'.totalAdoptions = s.totalAdoptions
  steps : s'.totalSteps = s.totalSteps + UInt64.ofNat l.length
  stepped : ∀ p ∈ l, s'.units[p.1]? = some p.2.stepped
  others : ∀ id, id ∉ l.map (·.1) → s'.units[id]? = s.units[id]?

theorem stepUnits_spec (l : List (UnitId × UnitRuntime A F)) {s : CervoOrchestrator A F}
    (hl : ∀ p ∈ l, s.units[p.1]? = some p.2) (hnd : (l.map (·.1)).Nodup) :
    ∃ s', s.stepUnits (l.map (·.1)) = some (s', l.map fun p => p.2.report.health p.1) ∧ StepsUnits s s' l := by
  induction l generalizing s with
  | nil => exact ⟨s, rfl, rfl, rfl, rfl, by simp, fun _ h => absurd h List.not_mem_nil, fun _ _ => rfl⟩
  | cons p l ih =>
    obtain ⟨hid, hnd⟩ := List.nodup_cons.mp hnd
    have hunit := hl p List.mem_cons_self
    have hne : ∀ q ∈ l, q.1 ≠ p.1 := fun q hq heq => hid (List.mem_map.mpr ⟨q, hq, heq⟩)
    obtain ⟨s', hrun, hs'⟩ :=
      ih (s := { s with units := s.units.insert p.1 p.2.stepped, totalSteps := s.totalSteps + 1 })
        (fun q hq => by rw [getElem?_insert_eq, if_neg (hne q hq), hl q (List.mem_cons_of_mem _ hq)]) hnd
    refine ⟨s', ?_, hs'.events, hs'.nextSeq, hs'.adoptions, ?_, ?_, ?_⟩
    · simp only [List.map_cons, stepUnits, hunit, Option.bind_eq_bind, Option.bind_some]
      exact congrArg (Option.bind · _) hrun
    · rw [hs'.steps, List.length_cons, UInt64.add_assoc, UInt64.add_comm 1, ← UInt64.ofNat_one, ← UInt64.ofNat_add]
    · intro q hq
      rcases List.mem_cons.mp hq with rfl | hq
      · rw [hs'.others _ hid, getElem?_insert_eq, if_pos rfl]
      · exact hs'.stepped q hq
    · intro id hnot
      rw [List.map_cons, List.mem_cons, not_or] at hnot
      rw [hs'.others id hnot.2, getElem?_insert_eq, if_neg hnot.1]

theorem stepUnits_keys (s : CervoOrchestrator A F) :
    ∃ s', s.stepUnits s.units.keys = some (s', s.units.toList.map fun p => p.2.report.health p.1) ∧
      StepsUnits s s' s.units.toList := by
  have hkeys : s.units.toList.map (·.1) = s.units.keys := ExtTreeMap.map_fst_toList_eq_keys
  rw [← hkeys]
  refine stepUnits_spec _ (fun p hp => ?_) (hkeys ▸ ExtTreeMap.nodup_keys)
  exact ExtTreeMap.mem_toList_iff_getElem?_eq_some.mp hp

theorem StepsUnits.getElem? {s s' : CervoOrchestrator A F} (h : StepsUnits s s' s.units.toList) (id : UnitId) :
    s'.units[id]? = s.units[id]?.map UnitRuntime.stepped := by
  cases hid : s.units[id]? with
  | some unit => exact h.stepped (id, unit) (ExtTreeMap.mem_toList_iff_getElem?_eq_some.mpr hid)
  | none =>
    rw [h.others id, hid, Option.map_none]
    rw [ExtTreeMap.map_fst_toList_eq_keys, ExtTreeMap.mem_keys]
    exact not_mem_of_getElem?_eq_none hid

theorem StepsUnits.live {s s' : CervoOrchestrator A F} (h : StepsUnits s s' s.units.toList) (id : UnitId) :
    id ∈ s'.units ↔ id ∈ s.units := by
  rw [ExtTreeMap.mem_iff_isSome_getElem?, ExtTreeMap.mem_iff_isSome_getElem?, h.getElem?, Option.isSome_map]

/-- The steps of a round are counted before their health is published. -/
theorem StepsUnits.counted {s s' : CervoOrchestrator A F} {l : List (UnitId × UnitRuntime A F)}
    (h : StepsUnits s s' l) (hs : s.Counted []) : s'.Counted (l.map fun p => p.2.report.health p.1) := by
  have hmessages : s'.messages = s.messages := congrArg (List.map _) h.events
  have hhealth : (l.map fun p => p.2.report.health p.1).countP SwarmMessage.isHealth = l.length := by
    rw [List.countP_map]
    exact List.countP_eq_length.mpr fun _ _ => rfl
  have hadopted : (l.map fun p => p.2.report.health p.1).countP SwarmMessage.isAdopted = 0 := by
    rw [List.countP_map]
    exact List.countP_eq_zero.mpr fun _ _ => Bool.false_ne_true
  constructor
  · exact h.events ▸ hs.room
  · exact h.events ▸ hs.seqs
  · rw [h.nextSeq, h.events, hs.next]
  · rw [h.steps, hs.steps, hmessages, List.append_nil, List.countP_append, hhealth, ← UInt64.ofNat_add]
  · rw [h.adoptions, hs.adoptions, hmessages, List.append_nil, List.countP_append, hadopted, Nat.add_zero]

/-! ## The transfer -/

theorem adopt_spec {s : CervoOrchestrator A F} {target : UnitId} (h : target ∈ s.units) (strategy : MetaStrategy F)
    {source : UnitId} {digest : UInt64} :
    Publishes s (s.adopt target strategy) [] ∧
      (s.Counted [] → (s.adopt target strategy).Counted [.strategyAdopted target source digest]) := by
  obtain ⟨unit, hunit⟩ := exists_getElem?_of_mem h
  have hadopt : s.adopt target strategy = { s with
      units := s.units.insert target
        { unit with agent := RSIAgent.setStrategy unit.agent strategy, adopted := unit.adopted + 1 }
      totalAdoptions := s.totalAdoptions + 1 } := by rw [adopt, hunit]
  rw [hadopt]
  refine ⟨⟨(List.append_nil _).symm, fun id => ?_⟩, fun hs => ⟨hs.room, hs.seqs, hs.next, ?_, ?_⟩⟩
  · rw [mem_insert_iff]
    exact ⟨fun hid => hid.elim (fun heq => heq ▸ h) fun hid => hid, .inr⟩
  · have hsteps := hs.steps
    simpa [List.countP_append, messages, SwarmMessage.isHealth] using hsteps
  · have hadoptions := hs.adoptions
    simp only [List.append_nil] at hadoptions
    simp [List.countP_append, messages, SwarmMessage.isAdopted, hadoptions, UInt64.ofNat_add]

theorem mem_of_adoptionDecision {s : CervoOrchestrator A F} {target : UnitId} {strategy : MetaStrategy F}
    {r : StepReport F} (h : s.adoptionDecision target strategy r = .ok ()) : target ∈ s.units := by
  unfold adoptionDecision at h
  split at h
  · cases h
  · next hunit => exact mem_of_getElem?_eq_some hunit

theorem answer_spec {s s' : CervoOrchestrator A F} {source target : UnitId} {strategy : MetaStrategy F}
    {r : StepReport F} (h : answer source strategy r s target = some s') :
    ∃ m, SwarmMessage.Answers source (strategyDigest strategy) target m ∧ Publishes s s' [m] ∧
      (s.Counted [] → s'.Counted []) := by
  unfold answer at h
  split at h
  · next hdecision =>
    obtain ⟨hpub, hcounted⟩ := adopt_spec (mem_of_adoptionDecision hdecision) strategy
    exact ⟨_, .adopted, hpub.trans (publishes_emit h).1, fun hs => (hcounted hs).emit h⟩
  · next reason hdecision =>
    exact ⟨_, .rejected reason, (publishes_emit h).1, fun hs => (hs.owe rfl rfl).emit h⟩

theorem answers_spec {source : UnitId} {strategy : MetaStrategy F} {r : StepReport F} {targets : List UnitId}
    {s s' : CervoOrchestrator A F} (h : targets.foldlM (answer source strategy r) s = some s') :
    ∃ answers, List.Forall₂ (SwarmMessage.Answers source (strategyDigest strategy)) targets answers ∧
      Publishes s s' answers ∧ (s.Counted [] → s'.Counted []) := by
  induction targets generalizing s with
  | nil =>
    obtain rfl := Option.some.inj h
    exact ⟨[], .nil, .refl, id⟩
  | cons target targets ih =>
    obtain ⟨mid, hmid, hrest⟩ := Option.bind_eq_some_iff.mp (List.foldlM_cons.symm.trans h)
    obtain ⟨m, hm, hpub, hcounted⟩ := answer_spec hmid
    obtain ⟨answers, hanswers, hpub', hcounted'⟩ := ih hrest
    exact ⟨m :: answers, .cons hm hanswers, hpub.trans hpub', hcounted' ∘ hcounted⟩

/-! ## The best unit -/

section

variable [TransCmp (Float64.totalCmp : F → F → Ordering)]

instance transCmpScoreOrder : TransCmp (scoreOrder : UnitId × F → UnitId × F → Ordering) where
  eq_swap {a b} := by
    unfold scoreOrder
    rw [Ordering.swap_then, ← OrientedCmp.eq_swap, ← OrientedCmp.eq_swap]
  isLE_trans {a b c} hab hbc := by
    unfold scoreOrder at *
    rw [Ordering.isLE_then_iff_and] at *
    refine ⟨TransCmp.isLE_trans hab.1 hbc.1, ?_⟩
    rcases hab.2 with hlt | hle
    · exact .inl (TransCmp.lt_of_lt_of_isLE hlt hbc.1)
    · rcases hbc.2 with hlt | hle'
      · exact .inl (TransCmp.lt_of_isLE_of_lt hab.1 hlt)
      · exact .inr (TransCmp.isLE_trans hle' hle)

theorem isLE_scoreOrder {id source : UnitId} {x y : F} (h : (scoreOrder (id, x) (source, y)).isLE) :
    Float64.totalCmp x y = .lt ∨ Float64.totalCmp x y = .eq ∧ source ≤ id := by
  unfold scoreOrder at h
  cases hxy : Float64.totalCmp x y with
  | lt => exact .inl rfl
  | eq =>
    rw [hxy, Ordering.eq_then] at h
    exact .inr ⟨rfl, Std.isLE_compare.mp h⟩
  | gt =>
    rw [hxy] at h
    cases h

end

theorem mem_scores {s : CervoOrchestrator A F} {id : UnitId} {x : F} :
    (id, x) ∈ s.scores ↔ ∃ unit r, s.units[id]? = some unit ∧ unit.last = some r ∧ r.siSafe = x := by
  unfold scores
  rw [List.mem_filterMap]
  constructor
  · rintro ⟨⟨id', unit⟩, hmem, hlast⟩
    obtain ⟨r, hr, heq⟩ := Option.map_eq_some_iff.mp hlast
    cases heq
    exact ⟨unit, r, ExtTreeMap.mem_toList_iff_getElem?_eq_some.mp hmem, hr, rfl⟩
  · rintro ⟨unit, r, hunit, hr, rfl⟩
    refine ⟨(id, unit), ExtTreeMap.mem_toList_iff_getElem?_eq_some.mpr hunit, ?_⟩
    exact Option.map_eq_some_iff.mpr ⟨r, hr, rfl⟩

theorem bestUnit_none {s : CervoOrchestrator A F} (h : s.bestUnit = none) : s.scores = [] := by
  unfold bestUnit at h
  split at h
  · next hnil => exact hnil
  · cases h

theorem bestUnit_some [TransCmp (Float64.totalCmp : F → F → Ordering)] {s : CervoOrchestrator A F} {source : UnitId}
    (h : s.bestUnit = some source) :
    ∃ x, (source, x) ∈ s.scores ∧ ∀ id y, (id, y) ∈ s.scores → (scoreOrder (id, y) (source, x)).isLE := by
  unfold bestUnit at h
  split at h
  · cases h
  · next a rest hscores =>
    obtain rfl := Option.some.inj h
    rw [hscores]
    exact ⟨_, Ranked.choose_mem a rest, fun id y hy => Ranked.isLE_choose a rest (id, y) hy⟩

/-! ## Rounds and runs -/

section

variable [TransCmp (Float64.totalCmp : F → F → Ordering)]

/-- The pass of a round, after the units of `units` have been stepped. -/
theorem pass_spec {units : Units A F} {s s' : CervoOrchestrator A F}
    (hunits : ∀ id : UnitId, s.units[id]? = units[id]?.map UnitRuntime.stepped)
    (h : s.synchronize s.bestUnit = some s') :
    ∃ pass, Pass units pass ∧ Publishes s s' pass ∧ (s.Counted [] → s'.Counted []) := by
  have hscores : ∀ (id : UnitId) (unit : UnitRuntime A F), units[id]? = some unit →
      (id, unit.report.siSafe) ∈ s.scores := by
    intro id unit hunit
    exact mem_scores.mpr ⟨unit.stepped, unit.report, by rw [hunits, hunit, Option.map_some], rfl, rfl⟩
  cases hbest : s.bestUnit with
  | some source =>
    rw [hbest, synchronize] at h
    obtain ⟨x, hx, hmax⟩ := bestUnit_some hbest
    obtain ⟨stepped, r, hstepped, hr, rfl⟩ := mem_scores.mp hx
    obtain ⟨unit, hunit, rfl⟩ := Option.map_eq_some_iff.mp ((hunits source).symm.trans hstepped)
    obtain rfl := Option.some.inj hr
    have hkeys : s.units.keys = units.keys := keys_eq_of_mem_iff fun id => by
      rw [ExtTreeMap.mem_iff_isSome_getElem?, ExtTreeMap.mem_iff_isSome_getElem?, hunits, Option.isSome_map]
    simp only [broadcastBestStrategy, hstepped, hr] at h
    obtain ⟨mid, hoffer, hanswers⟩ := Option.bind_eq_some_iff.mp h
    obtain ⟨hpub, hmid⟩ := publishes_emit hoffer
    obtain ⟨answers, hanswered, hpub', hcounted⟩ := answers_spec hanswers
    rw [hmid, hkeys] at hanswered
    refine ⟨_, .offer hunit ?_ hanswered, hpub.trans hpub', fun hs => hcounted ((hs.owe rfl rfl).emit hoffer)⟩
    intro id other hother
    exact isLE_scoreOrder (hmax id _ (hscores id other hother))
  | none =>
    rw [hbest] at h
    obtain rfl := Option.some.inj h
    refine ⟨[], .idle fun id hid => ?_, .refl, fun hs => hs⟩
    obtain ⟨unit, hunit⟩ := exists_getElem?_of_mem hid
    have hmem := hscores id unit hunit
    rw [bestUnit_none hbest] at hmem
    exact List.not_mem_nil hmem

theorem stepRound_spec {s s' : CervoOrchestrator A F} {report : RoundReport F}
    (h : s.stepRound = some (s', report)) :
    ∃ segment, Published s.units .stepRound segment ∧ Publishes s s' segment ∧ (s.Counted [] → s'.Counted []) := by
  obtain ⟨stepped, hrun, hstepped⟩ := stepUnits_keys { s with round := s.round + 1 }
  unfold stepRound at h
  simp only [hrun, Option.bind_eq_bind, Option.bind_some] at h
  obtain ⟨mid, hhealth, hrest⟩ := Option.bind_eq_some_iff.mp h
  obtain ⟨last, hpass, hlast⟩ := Option.bind_eq_some_iff.mp hrest
  obtain rfl := (Prod.mk.inj (Option.some.inj hlast)).1
  obtain ⟨hpub, hunits, hpaid⟩ := emitAll_spec hhealth
  obtain ⟨pass, hprotocol, hpub', hcounted⟩ := pass_spec (fun id => hunits ▸ hstepped.getElem? id) hpass
  have hstart : Publishes s stepped [] :=
    ⟨by rw [List.append_nil]; exact congrArg (List.map _) hstepped.events, hstepped.live⟩
  refine ⟨_, .round hprotocol, hstart.trans (hpub.trans hpub'), fun hs => hcounted (hpaid (hstepped.counted ?_))⟩
  exact hs.of_eq rfl rfl rfl rfl

/-- One operation: what it publishes, which units it leaves alive, and that the counters keep up. -/
theorem step_spec {s s' : CervoOrchestrator A F} {op : SwarmOp A} (h : s.step op = some s') :
    ∃ segment, Published s.units op segment ∧ s'.messages = s.messages ++ segment ∧
      (∀ id, id ∈ s'.units ↔ op.Lives (· ∈ s.units) id) ∧ (s.Counted [] → s'.Counted []) := by
  cases op with
  | spawn new agent =>
    obtain rfl := Option.some.inj h
    refine ⟨[], .spawn new agent, ?_⟩
    unfold spawn
    split
    · next hold =>
      refine ⟨(List.append_nil _).symm, fun id => ⟨.inr, ?_⟩, fun hs => hs⟩
      rintro (rfl | hid)
      · exact hold
      · exact hid
    · exact ⟨(List.append_nil _).symm, fun id => mem_insert_iff, fun hs => hs.of_eq rfl rfl rfl rfl⟩
  | kill dead =>
    obtain ⟨⟨last, killed⟩, hkill, rfl⟩ := Option.map_eq_some_iff.mp h
    unfold kill at hkill
    split at hkill
    · next hlive =>
      obtain ⟨mid, hmid, hlast⟩ := Option.bind_eq_some_iff.mp hkill
      obtain rfl := (Prod.mk.inj (Option.some.inj hlast)).1
      obtain ⟨hpub, hunits⟩ := publishes_emit hmid
      refine ⟨_, .kill hlive, hpub.messages, fun id => ?_, fun hs => Counted.emit (Counted.owe ?_ rfl rfl) hmid⟩
      · rw [hunits]
        exact mem_erase_iff
      · exact hs.of_eq rfl rfl rfl rfl
    · next hdead =>
      obtain rfl := (Prod.mk.inj (Option.some.inj hkill)).1
      refine ⟨[], .spare hdead, (List.append_nil _).symm, fun id => ⟨fun hid => ⟨?_, hid⟩, fun hid => hid.2⟩, ?_⟩
      · rintro rfl
        exact hdead hid
      · exact fun hs => hs
  | stepRound =>
    obtain ⟨⟨last, report⟩, hround, rfl⟩ := Option.map_eq_some_iff.mp h
    obtain ⟨segment, hpub, hext, hcounted⟩ := stepRound_spec hround
    exact ⟨segment, hpub, hext.messages, hext.live, hcounted⟩

theorem run_spec {ops : List (SwarmOp A)} {s s' : CervoOrchestrator A F} (h : s.run ops = some s') :
    ∃ trace, Trace s ops trace ∧ s'.messages = s.messages ++ trace ∧ (s.Counted [] → s'.Counted []) := by
  induction ops generalizing s with
  | nil =>
    obtain rfl := Option.some.inj h
    exact ⟨[], .nil s, (List.append_nil _).symm, fun hs => hs⟩
  | cons op ops ih =>
    obtain ⟨mid, hmid, hrest⟩ := Option.bind_eq_some_iff.mp (List.foldlM_cons.symm.trans h)
    obtain ⟨segment, hpub, hmessages, hlive, hcounted⟩ := step_spec hmid
    obtain ⟨trace, htrace, hmessages', hcounted'⟩ := ih hrest
    refine ⟨segment ++ trace, .cons hmid hlive hpub htrace, ?_, hcounted' ∘ hcounted⟩
    rw [hmessages', hmessages, List.append_assoc]

theorem counted_ofConfig (config : OrchestratorConfig F) : (ofConfig config : CervoOrchestrator A F).Counted [] :=
  ⟨Nat.zero_le _, rfl, rfl, rfl, rfl⟩

theorem new_eq {config : OrchestratorConfig F} {s : CervoOrchestrator A F} (h : new config = .ok s) :
    s = ofConfig config := by
  unfold new at h
  cases hvalid : config.validate with
  | error e =>
    rw [hvalid] at h
    cases h
  | ok u =>
    rw [hvalid] at h
    cases h
    rfl

/-- The events of a run are numbered without a gap, the counters count them, and the trace keeps to the transfer
protocol. Scores compare by `total_cmp`, which is a total order of all `f64`. -/
theorem run_accounts {config : OrchestratorConfig F} {s₀ s : CervoOrchestrator A F} {ops : List (SwarmOp A)}
    (hnew : new config = .ok s₀) (hrun : s₀.run ops = some s) :
    s.events.map (·.seq.toNat) = List.range' 1 s.events.length ∧
      s.totalSteps.toNat = s.messages.countP SwarmMessage.isHealth ∧
      s.totalAdoptions.toNat = s.messages.countP SwarmMessage.isAdopted ∧
      Trace s₀ ops s.messages := by
  obtain rfl := new_eq hnew
  obtain ⟨trace, htrace, hmessages, hcounted⟩ := run_spec hrun
  have hs := hcounted (counted_ofConfig config)
  have hcount : ∀ p : SwarmMessage F → Bool, s.messages.countP p < 2 ^ 64 := by
    intro p
    have hle : s.messages.countP p ≤ s.messages.length := List.countP_le_length
    have hlength : s.messages.length = s.events.length := List.length_map _
    have hroom := hs.room
    unfold maxEvents at hroom
    omega
  refine ⟨hs.seqs, ?_, ?_, ?_⟩
  · rw [hs.steps, List.append_nil, UInt64.toNat_ofNat', Nat.mod_eq_of_lt (hcount _)]
  · rw [hs.adoptions, List.append_nil, UInt64.toNat_ofNat', Nat.mod_eq_of_lt (hcount _)]
  · exact hmessages ▸ htrace

end

end CervoOrchestrator

end

/-! ## A swarm of three -/

/-- An agent that never moves. -/
structure StillAgent where
  score : ℚ
  strategy : MetaStrategy ℚ

instance : RSIAgent StillAgent ℚ where
  step a := (a, ⟨1, a.score, a.score, 0, 0⟩)
  strategy := StillAgent.strategy
  setStrategy a strategy := { a with strategy }
  substrateLen _ := 0
  siGlobal := StillAgent.score
  projectedSi strategy _ := strategy.gain

def StillAgent.ofScore (score : ℚ) : StillAgent := ⟨score, ⟨Vector.replicate 6 0, [], score⟩⟩

instance transCmpRat : TransCmp (Float64.totalCmp : ℚ → ℚ → Ordering) :=
  inferInstanceAs (TransCmp (compare : ℚ → ℚ → Ordering))

namespace CervoOrchestrator

def threeOps : List (SwarmOp StillAgent) :=
  [.spawn 20 (.ofScore 1), .spawn 10 (.ofScore 3), .spawn 15 (.ofScore 3), .stepRound, .kill 10, .stepRound]

def ofThree : Option (CervoOrchestrator StillAgent ℚ) := (ofConfig .default).run threeOps

theorem ofThree_isSome : ofThree.isSome = true := by decide +kernel

theorem new_default :
    (new .default : Except Str (CervoOrchestrator StillAgent ℚ)) = .ok (ofConfig .default) := by
  have hvalid : (OrchestratorConfig.default : OrchestratorConfig ℚ).validate = .ok () := by decide +kernel
  rw [new, hvalid]
  rfl

theorem ofThree_accounts :
    (ofThree.get ofThree_isSome).events.map (·.seq.toNat) =
        List.range' 1 (ofThree.get ofThree_isSome).events.length ∧
      (ofThree.get ofThree_isSome).totalSteps.toNat =
        (ofThree.get ofThree_isSome).messages.countP SwarmMessage.isHealth ∧
      (ofThree.get ofThree_isSome).totalAdoptions.toNat =
        (ofThree.get ofThree_isSome).messages.countP SwarmMessage.isAdopted ∧
      Trace (ofConfig .default) threeOps (ofThree.get ofThree_isSome).messages :=
  run_accounts new_default (Option.some_get ofThree_isSome).symm

end CervoOrchestrator

end Ccos
