import Ccos.Region.Engine
import Ccos.Memory.Facts
import Ccos.Lib.Runs

/-!
# Replay against the live engine

Activations and evictions are logged, coolings are not. A replay therefore follows the live engine
for as long as no cooling moves a temperature that stays.
-/

open Std

namespace Ccos

namespace ContextRegionEngine

variable {F : Type} [Scalar F]

open Scalar

/-! ## Runs -/

inductive RegionOp (F : Type)
  | activate (query : RegionQuery) (policy : ContextPolicy F)
  | cooldown (decay evictBelow : F)

def stepOp (t : LogTools F) (g : MemoryGraph F) (s : ContextRegionEngine F × EventLog F) :
    RegionOp F → ContextRegionEngine F × EventLog F
  | .activate query policy => (s.1.activateRegion t g query policy s.2).2
  | .cooldown decay evictBelow => (s.1.tickCooldown t decay evictBelow s.2).2

/-- The fields of a region that calls change, and its members. -/
def liveFields (r : ContextRegion F) : List Str × F × Nat × Nat :=
  (r.members, r.temperature, r.activationCount, r.lastActivation)

structure Matches (a b : ContextRegionEngine F) : Prop where
  regions : ∀ id : Str, (a.regions[id]?).map liveFields = (b.regions[id]?).map liveFields
  clock : a.clock = b.clock

def Replays (g : MemoryGraph F) (s : ContextRegionEngine F × EventLog F) : Prop :=
  ∃ e, replayFrom g s.2 = some e ∧ e.Matches s.1

/-- A cooling leaves the temperature of every region that it does not evict. -/
def CoolsNothing (s : ContextRegionEngine F × EventLog F) : RegionOp F → Prop
  | .activate _ _ => True
  | .cooldown decay evictBelow => ∀ (id : Str) (r : ContextRegion F), s.1.regions[id]? = some r →
      lt (r.cool decay).temperature evictBelow = false → (r.cool decay).temperature = r.temperature

/-! ## The replay of one call -/

def replayEvents (e : ContextRegionEngine F) (events : EventLog F) : ContextRegionEngine F :=
  events.foldl (fun e event => e.replayEvent event.payload) e

theorem replayFrom_append (g : MemoryGraph F) (log events : EventLog F) :
    replayFrom g (log ++ events) = (replayFrom g log).map fun e => e.replayEvents events := by
  unfold replayFrom replayEvents
  rw [Option.map_map]
  congr 1
  funext e
  simp only [Function.comp, List.foldl_append]

/-- Regions are stored under their own ids. -/
def Keyed (e : ContextRegionEngine F) : Prop :=
  ∀ (id : Str) (r : ContextRegion F), e.regions[id]? = some r → r.id = id

omit [Scalar F] in
theorem exists_append (t : LogTools F) (log : EventLog F) (eventType : EventType)
    (payload : EventPayload F) :
    ∃ event, log.append t eventType payload = log ++ [event] ∧ event.payload = payload :=
  ⟨_, rfl, rfl⟩

omit [Scalar F] in
theorem insert_eq_modify {m : BTreeMap Str (ContextRegion F)} {id : Str} {r : ContextRegion F}
    (h : m[id]? = some r) (f : ContextRegion F → ContextRegion F) : m.insert id (f r) = m.modify id f := by
  apply ExtTreeMap.ext_getElem?
  intro a
  rw [getElem?_insert_eq, getElem?_modify_eq]
  split
  · next ha => rw [ha, h, Option.map_some]
  · rfl

/-- An activation that finds its region logs what its replay needs. -/
theorem activateRegion_spec (t : LogTools F) (g : MemoryGraph F) (e : ContextRegionEngine F)
    (query : RegionQuery) (policy : ContextPolicy F) (log : EventLog F) (hk : e.Keyed) :
    ∃ events, (e.activateRegion t g query policy log).2 = (e.replayEvents events, log ++ events) := by
  unfold activateRegion
  split
  · exact ⟨[], by simp [replayEvents]⟩
  next targetId _ =>
  dsimp only
  split
  · exact ⟨[], by simp [replayEvents]⟩
  next region hregion =>
  obtain ⟨first, hfirst, hp⟩ := exists_append t log .regionActivated
    (.regionActivated (region.activate e.clock).id e.clock (region.activate e.clock).temperature
      (region.activate e.clock).activationCount (e.activationReason g targetId))
  obtain ⟨second, hsecond, hq⟩ := exists_append t (log ++ [first]) .contextWindowGenerated
    (.contextWindowGenerated (region.activate e.clock).id
      (distinctFiles (region.activate e.clock).members).length
      (ContextPolicy.estimateTokens (region.activate e.clock))
      (policy.calculateAdmissionScore (region.activate e.clock)) (e.activationReason g targetId))
  refine ⟨[first, second], ?_⟩
  rw [hfirst, hsecond, List.append_assoc]
  have hid : (region.activate e.clock).id = targetId := hk targetId region hregion
  have hclock : Nat.max e.clock (e.clock + 1) = e.clock + 1 := Nat.max_eq_right (Nat.le_succ _)
  simp only [replayEvents, List.foldl_cons, List.foldl_nil, hp, hq, replayEvent, hid, hclock,
    insert_eq_modify hregion (·.activate e.clock)]
  rfl

theorem evictions_spec (t : LogTools F) (ids : List Str) (e : ContextRegionEngine F) (log : EventLog F) :
    ∃ events, ids.foldl (evictRegion t) (e, log) =
        ({ e with regions := ids.foldl (fun m id => m.erase id) e.regions }, log ++ events) ∧
      ∀ x : ContextRegionEngine F,
        x.replayEvents events = { x with regions := ids.foldl (fun m id => m.erase id) x.regions } := by
  induction ids generalizing e log with
  | nil => exact ⟨[], by simp, fun x => rfl⟩
  | cons id ids ih =>
    obtain ⟨event, happend, hp⟩ := exists_append t log .regionEvicted
      (.regionEvicted id (((e.regions[id]?).map (·.temperature)).getD (lit 0))
        "temperature below eviction floor".toList)
    obtain ⟨events, hfold, hreplay⟩ := ih { e with regions := e.regions.erase id } (log ++ [event])
    refine ⟨event :: events, ?_, fun x => ?_⟩
    · simp only [List.foldl_cons, evictRegion, happend]
      rw [hfold]
      simp
    · have hcons : x.replayEvents (event :: events) = (x.replayEvent event.payload).replayEvents events := rfl
      rw [hcons, hreplay, hp]
      rfl

omit [Scalar F] in
theorem getElem?_foldl_erase (ids : List Str) (m : BTreeMap Str (ContextRegion F)) (a : Str) :
    (ids.foldl (fun m id => m.erase id) m)[a]? = if a ∈ ids then none else m[a]? := by
  induction ids generalizing m with
  | nil => simp
  | cons id ids ih =>
    rw [List.foldl_cons, ih, getElem?_erase_eq]
    by_cases ha : a = id <;> by_cases hi : a ∈ ids <;> simp [ha, hi]

theorem mem_coldIds {e : ContextRegionEngine F} {evictBelow : F} {id : Str} :
    id ∈ e.coldIds evictBelow ↔ ∃ r, e.regions[id]? = some r ∧ lt r.temperature evictBelow = true := by
  unfold coldIds
  simp only [List.mem_map, List.mem_filter, Prod.exists, exists_and_right, exists_eq_right,
    ExtTreeMap.mem_toList_iff_getElem?_eq_some]

def cooled (e : ContextRegionEngine F) (decay : F) : ContextRegionEngine F :=
  { e with regions := e.regions.map fun _ r => r.cool decay }

theorem getElem?_cooled (e : ContextRegionEngine F) (decay : F) (id : Str) :
    (e.cooled decay).regions[id]? = (e.regions[id]?).map (·.cool decay) := ExtTreeMap.getElem?_map

/-- The live engine after a cooling, and what a replay makes of the events it logged. -/
theorem tickCooldown_spec (t : LogTools F) (e : ContextRegionEngine F) (decay evictBelow : F)
    (log : EventLog F) :
    ∃ events, (e.tickCooldown t decay evictBelow log).2.2 = log ++ events ∧
      (e.tickCooldown t decay evictBelow log).2.1.clock = e.clock ∧
      (∀ id : Str, (e.tickCooldown t decay evictBelow log).2.1.regions[id]? =
        ((e.regions[id]?).map (·.cool decay)).filter fun r => !lt r.temperature evictBelow) ∧
      (e.replayEvents events).clock = e.clock ∧
      ∀ id : Str, (e.replayEvents events).regions[id]? =
        (e.regions[id]?).filter fun r => !lt (r.cool decay).temperature evictBelow := by
  obtain ⟨events, hfold, hreplay⟩ := evictions_spec t ((e.cooled decay).coldIds evictBelow) (e.cooled decay) log
  have hlive : (e.tickCooldown t decay evictBelow log).2 = _ := hfold
  have hmem : ∀ {id : Str} {r : ContextRegion F}, e.regions[id]? = some r →
      (id ∈ (e.cooled decay).coldIds evictBelow ↔ lt (r.cool decay).temperature evictBelow = true) := by
    intro id r hr
    simp [mem_coldIds, getElem?_cooled, hr]
  refine ⟨events, by rw [hlive], by rw [hlive]; rfl, fun id => ?_, by rw [hreplay], fun id => ?_⟩
  · rw [hlive]
    dsimp only
    rw [getElem?_foldl_erase, getElem?_cooled]
    cases hr : e.regions[id]? with
    | none => simp
    | some r =>
      simp only [hmem hr, Option.map_some, Option.filter_some]
      cases lt (r.cool decay).temperature evictBelow <;> rfl
  · rw [hreplay, getElem?_foldl_erase]
    cases hr : e.regions[id]? with
    | none => simp
    | some r =>
      simp only [hmem hr, Option.filter_some]
      cases lt (r.cool decay).temperature evictBelow <;> rfl

/-! ## One call -/

/-- A replay gives exactly the live engine. -/
def Synced (g : MemoryGraph F) (s : ContextRegionEngine F × EventLog F) : Prop :=
  replayFrom g s.2 = some s.1 ∧ s.1.Keyed

theorem Synced.replays {g : MemoryGraph F} {s : ContextRegionEngine F × EventLog F} (h : Synced g s) :
    Replays g s := ⟨s.1, h.1, fun _ => rfl, rfl⟩

omit [Scalar F] in
theorem keyed_of_getElem?_eq {e e' : ContextRegionEngine F} (h : e.Keyed)
    (hsub : ∀ (id : Str) (r : ContextRegion F), e'.regions[id]? = some r →
      ∃ q, e.regions[id]? = some q ∧ r.id = q.id) : e'.Keyed := by
  intro id r hr
  obtain ⟨q, hq, heq⟩ := hsub id r hr
  exact heq.trans (h id q hq)

theorem keyed_replayEvent {e : ContextRegionEngine F} (h : e.Keyed) (payload : EventPayload F) :
    (e.replayEvent payload).Keyed := by
  unfold replayEvent
  split
  · next regionId tick _ _ _ =>
    refine keyed_of_getElem?_eq h fun id r hr => ?_
    dsimp only at hr
    rw [getElem?_modify_eq] at hr
    split at hr
    · obtain ⟨q, hq, rfl⟩ := Option.map_eq_some_iff.mp hr
      exact ⟨q, hq, rfl⟩
    · exact ⟨r, hr, rfl⟩
  · next regionId _ _ =>
    refine keyed_of_getElem?_eq h fun id r hr => ?_
    dsimp only at hr
    rw [getElem?_erase_eq] at hr
    split at hr
    · cases hr
    · exact ⟨r, hr, rfl⟩
  · exact h

theorem keyed_replayEvents {e : ContextRegionEngine F} (h : e.Keyed) (events : EventLog F) :
    (e.replayEvents events).Keyed := by
  induction events generalizing e with
  | nil => exact h
  | cons event events ih => exact ih (keyed_replayEvent h event.payload)

theorem synced_activate (t : LogTools F) {g : MemoryGraph F} {s : ContextRegionEngine F × EventLog F}
    (h : Synced g s) (query : RegionQuery) (policy : ContextPolicy F) :
    Synced g (stepOp t g s (.activate query policy)) := by
  obtain ⟨events, hspec⟩ := activateRegion_spec t g s.1 query policy s.2 h.2
  have hstep : stepOp t g s (.activate query policy) = _ := hspec
  rw [hstep]
  refine ⟨?_, keyed_replayEvents h.2 events⟩
  rw [replayFrom_append, h.1]
  rfl

theorem cool_eq_self {r : ContextRegion F} {decay : F} (h : (r.cool decay).temperature = r.temperature) :
    r.cool decay = r := by
  unfold ContextRegion.cool at h ⊢
  dsimp only at h
  rw [h]

theorem synced_cooldown (t : LogTools F) {g : MemoryGraph F} {s : ContextRegionEngine F × EventLog F}
    (h : Synced g s) {decay evictBelow : F} (hcool : CoolsNothing s (.cooldown decay evictBelow)) :
    Synced g (stepOp t g s (.cooldown decay evictBelow)) := by
  obtain ⟨events, hlog, hclock, hlive, hrclock, hreplay⟩ := tickCooldown_spec t s.1 decay evictBelow s.2
  have heq : s.1.replayEvents events = (s.1.tickCooldown t decay evictBelow s.2).2.1 := by
    have hregions : (s.1.replayEvents events).regions =
        (s.1.tickCooldown t decay evictBelow s.2).2.1.regions := by
      apply ExtTreeMap.ext_getElem?
      intro id
      rw [hreplay, hlive]
      cases hr : s.1.regions[id]? with
      | none => rfl
      | some r =>
        rw [Option.map_some, Option.filter_some, Option.filter_some]
        cases hlt : lt (r.cool decay).temperature evictBelow with
        | true => rfl
        | false => rw [cool_eq_self (hcool id r hr hlt)]
    rw [ContextRegionEngine.mk.injEq]
    exact ⟨hregions, hrclock.trans hclock.symm⟩
  refine ⟨?_, ?_⟩
  · unfold stepOp
    dsimp only
    rw [hlog, replayFrom_append, h.1, Option.map_some, heq]
  · unfold stepOp
    dsimp only
    rw [← heq]
    exact keyed_replayEvents h.2 events

/-- A cooling that moved a temperature shows in the replay. -/
theorem coolsNothing_of_replays (t : LogTools F) {g : MemoryGraph F}
    {s : ContextRegionEngine F × EventLog F} (h : Synced g s) {op : RegionOp F}
    (hnext : Replays g (stepOp t g s op)) : CoolsNothing s op := by
  cases op with
  | activate query policy => trivial
  | cooldown decay evictBelow =>
    obtain ⟨events, hlog, -, hlive, -, hreplay⟩ := tickCooldown_spec t s.1 decay evictBelow s.2
    intro id r hr hkept
    obtain ⟨e, he, hmatch⟩ := hnext
    unfold stepOp at he hmatch
    dsimp only at he hmatch
    rw [hlog, replayFrom_append, h.1, Option.map_some] at he
    obtain rfl := Option.some.inj he
    have hid := hmatch.regions id
    rw [hreplay, hlive, hr] at hid
    simp only [Option.filter_some, Option.map_some, hkept, Bool.not_false, if_true, Option.some.injEq,
      liveFields, Prod.mk.injEq] at hid
    exact hid.2.1.symm

/-! ## Every run -/

theorem keyed_clusterAndBuild {g : MemoryGraph F} {e b : ContextRegionEngine F}
    (h : e.clusterAndBuild g = some b) : b.Keyed := by
  obtain ⟨clusters, -, rfl⟩ := Option.map_eq_some_iff.mp h
  intro id r hr
  dsimp only at hr
  rw [ExtTreeMap.getElem?_map] at hr
  obtain ⟨members, -, rfl⟩ := Option.map_eq_some_iff.mp hr
  rfl

/-- The events of the initialization change nothing in a replay. -/
theorem replayEvents_logRegion (t : LogTools F) (regions : List (ContextRegion F)) (log : EventLog F) :
    ∃ events, regions.foldl (logRegion t) log = log ++ events ∧
      ∀ x : ContextRegionEngine F, x.replayEvents events = x := by
  induction regions generalizing log with
  | nil => exact ⟨[], by simp, fun x => rfl⟩
  | cons r regions ih =>
    have hone : ∃ events, logRegion t log r = log ++ events ∧
        ∀ x : ContextRegionEngine F, x.replayEvents events = x := by
      unfold logRegion
      dsimp only
      split
      · exact ⟨_, (List.append_assoc _ _ _).trans rfl, fun x => rfl⟩
      · exact ⟨_, rfl, fun x => rfl⟩
    obtain ⟨first, hfirst, hquiet⟩ := hone
    obtain ⟨rest, hrest, hquiet'⟩ := ih (log ++ first)
    refine ⟨first ++ rest, ?_, fun x => ?_⟩
    · rw [List.foldl_cons, hfirst, hrest, List.append_assoc]
    · have happend : x.replayEvents (first ++ rest) = (x.replayEvents first).replayEvents rest :=
        List.foldl_append
      rw [happend, hquiet, hquiet']

theorem synced_initializeRegions {t : LogTools F} {g : MemoryGraph F}
    {s : ContextRegionEngine F × EventLog F} (h : new.initializeRegions t g [] = some s) : Synced g s := by
  obtain ⟨e, he, rfl⟩ := Option.map_eq_some_iff.mp h
  obtain ⟨events, hlog, hquiet⟩ := replayEvents_logRegion t e.regions.values []
  refine ⟨?_, keyed_clusterAndBuild he⟩
  have hempty : replayFrom g [] = some e := by
    unfold replayFrom
    rw [he]
    rfl
  rw [hlog, replayFrom_append, hempty, Option.map_some, hquiet]

/-- The replay follows the live engine through a run exactly when no cooling of the run moves the
temperature of a region that stays. -/
theorem replays_throughout_iff (t : LogTools F) (g : MemoryGraph F) (ops : List (RegionOp F))
    (s : ContextRegionEngine F × EventLog F) (h : new.initializeRegions t g [] = some s) :
    Runs.Throughout (stepOp t g) (Replays g) s ops ↔ Runs.EachStep (stepOp t g) CoolsNothing s ops := by
  have hstart := synced_initializeRegions h
  have hstep : ∀ s op, Synced g s → CoolsNothing s op → Synced g (stepOp t g s op) := by
    intro s op hs hcool
    cases op with
    | activate query policy => exact synced_activate t hs query policy
    | cooldown decay evictBelow => exact synced_cooldown t hs hcool
  refine Runs.throughout_iff_eachStep hstart hstart.replays hstep fun s op hs _ => ?_
  exact ⟨coolsNothing_of_replays t hs, fun hcool => (hstep s op hs hcool).replays⟩

/-! ## One file -/

def oneFile : GraphNode ℚ :=
  ⟨"file:a".toList, [], [], .module, 1, 0, 1, 1, 0, 0, .stable, 1⟩

def oneFileGraph : MemoryGraph ℚ :=
  { MemoryGraph.new (1 / 5) 10 with nodes := (∅ : BTreeMap NodeId (GraphNode ℚ)).insert oneFile.id oneFile }

def plainTools : LogTools ℚ := ⟨id, fun _ => []⟩

def oneRegion : Str := "region:a".toList

theorem activations_replay :
    ∃ s, new.initializeRegions plainTools oneFileGraph [] = some s ∧
      Runs.Throughout (stepOp plainTools oneFileGraph) (Replays oneFileGraph) s
        [.activate .hottest ⟨1⟩, .activate (.node oneFile.id) ⟨0⟩] := by
  obtain ⟨s, hs⟩ := Option.isSome_iff_exists.mp
    (show (new.initializeRegions plainTools oneFileGraph []).isSome = true by decide)
  refine ⟨s, hs, (replays_throughout_iff plainTools oneFileGraph _ s hs).mpr ?_⟩
  exact ⟨trivial, trivial, trivial⟩

/-- Half the heat is gone from the live region and still in the replayed one. -/
theorem cooling_is_not_replayed :
    ∃ s, new.initializeRegions plainTools oneFileGraph [] = some s ∧
      ¬ Replays oneFileGraph (stepOp plainTools oneFileGraph s (.cooldown (1 / 2) 0)) := by
  obtain ⟨s, hs⟩ := Option.isSome_iff_exists.mp
    (show (new.initializeRegions plainTools oneFileGraph []).isSome = true by decide)
  refine ⟨s, hs, ?_⟩
  rintro ⟨e, he, hmatch⟩
  have hdiffer : (new.initializeRegions plainTools oneFileGraph []).all (fun s =>
      let s := stepOp plainTools oneFileGraph s (.cooldown (1 / 2) 0)
      (replayFrom oneFileGraph s.2).all fun e =>
        ((e.regions[oneRegion]?).map liveFields != (s.1.regions[oneRegion]?).map liveFields)) = true := by
    decide +kernel
  rw [hs, Option.all_some] at hdiffer
  dsimp only at hdiffer
  rw [he, Option.all_some, bne_iff_ne] at hdiffer
  exact hdiffer (hmatch.regions oneRegion)

end ContextRegionEngine

end Ccos
