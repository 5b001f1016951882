import Ccos.Kv.Cache
import Ccos.Lib.Runs

/-!
# The cache stays consistent and within its budget

The soft phases only degrade slots in place. Evictions then go down one sorted list, which carries
the guarantee about sinks.
-/

open Std

namespace Ccos.Kv

/-! ## Degrading a slot -/

/-- What no soft phase touches, and which way the rest may go. -/
structure Slot.Degrades (x y : Slot) : Prop where
  live : y.Live ↔ x.Live
  hot : y.state = .hot → x.state = .hot
  stripped : x.tile.Stripped → y.tile.Stripped
  position : y.tile.position = x.tile.position
  sigma : y.tile.residualSigma = x.tile.residualSigma
  seq : y.seq = x.seq
  importance : y.importance = x.importance

theorem Slot.Degrades.refl (x : Slot) : x.Degrades x := ⟨Iff.rfl, id, id, rfl, rfl, rfl, rfl⟩

theorem Slot.Degrades.trans {x y z : Slot} (h : x.Degrades y) (h' : y.Degrades z) : x.Degrades z :=
  ⟨h'.live.trans h.live, h.hot ∘ h'.hot, h'.stripped ∘ h.stripped, h'.position.trans h.position,
    h'.sigma.trans h.sigma, h'.seq.trans h.seq, h'.importance.trans h.importance⟩

namespace ElasticKvCache

/-- `d` is `c` with slots degraded in place. -/
structure Softened (c d : ElasticKvCache) : Prop where
  length : d.slots.length = c.slots.length
  slots : ∀ {s : Nat} {x y : Slot}, c.slots[s]? = some x → d.slots[s]? = some y → x.Degrades y
  free : d.free = c.free
  nextSeq : d.nextSeq = c.nextSeq
  budgetBytes : d.budgetBytes = c.budgetBytes
  policy : d.policy = c.policy
  eviction : d.eviction = c.eviction
  eventLog : d.eventLog = c.eventLog

namespace Softened

variable {c d e : ElasticKvCache} {s : Nat} {x y : Slot}

theorem refl (c : ElasticKvCache) : Softened c c := by
  refine ⟨rfl, fun hx hy => ?_, rfl, rfl, rfl, rfl, rfl, rfl⟩
  rw [hx] at hy
  exact Option.some.inj hy ▸ .refl _

theorem exists_before (h : Softened c d) (hy : d.slots[s]? = some y) :
    ∃ x, c.slots[s]? = some x ∧ x.Degrades y := by
  have hlt : s < c.slots.length := h.length ▸ (List.getElem?_eq_some_iff.mp hy).1
  exact ⟨_, List.getElem?_eq_getElem hlt, h.slots (List.getElem?_eq_getElem hlt) hy⟩

theorem exists_after (h : Softened c d) (hx : c.slots[s]? = some x) :
    ∃ y, d.slots[s]? = some y ∧ x.Degrades y := by
  have hlt : s < d.slots.length := h.length.symm ▸ (List.getElem?_eq_some_iff.mp hx).1
  exact ⟨_, List.getElem?_eq_getElem hlt, h.slots hx (List.getElem?_eq_getElem hlt)⟩

theorem trans (h : Softened c d) (h' : Softened d e) : Softened c e := by
  refine ⟨h'.length.trans h.length, fun hx hz => ?_, h'.free.trans h.free, h'.nextSeq.trans h.nextSeq,
    h'.budgetBytes.trans h.budgetBytes, h'.policy.trans h.policy, h'.eviction.trans h.eviction, h'.eventLog.trans h.eventLog⟩
  obtain ⟨y, hy, hxy⟩ := h.exists_after hx
  exact hxy.trans (h'.slots hy hz)

end Softened

/-- One slot degraded. -/
theorem softened_set {c : ElasticKvCache} {s : Nat} {x y : Slot} (hx : c.slots[s]? = some x)
    (h : x.Degrades y) : Softened c { c with slots := c.slots.set s y } := by
  refine ⟨List.length_set, fun {t a b} ha hb => ?_, rfl, rfl, rfl, rfl, rfl, rfl⟩
  rw [List.getElem?_set] at hb
  split at hb
  · next hst =>
    subst hst
    rw [hx] at ha
    obtain rfl := Option.some.inj ha
    split at hb
    · exact Option.some.inj hb ▸ h
    · cases hb
  · rw [ha] at hb
    exact Option.some.inj hb ▸ .refl a

theorem softened_pageOut {c d : ElasticKvCache} {s : Nat} (h : c.pageOut s = some d) : Softened c d := by
  unfold pageOut at h
  obtain ⟨x, hx, rfl⟩ := Option.map_eq_some_iff.mp h
  split
  · next hhot =>
    refine softened_set hx ⟨?_, ?_, .warmed, rfl, rfl, rfl, rfl⟩
    · simp [Slot.Live, hhot]
    · intro h'; cases h'
  · exact .refl c

theorem softened_dropCorrection {c d : ElasticKvCache} {s : Nat} (h : c.dropCorrection s = some d) :
    Softened c d := by
  unfold dropCorrection at h
  obtain ⟨x, hx, rfl⟩ := Option.map_eq_some_iff.mp h
  split
  · exact .refl c
  · have hdeg : x.Degrades { x with tile := x.tile.withoutCorrection } :=
      ⟨by simp only [Slot.Live], by simp only [imp_self], fun _ => x.tile.stripped_withoutCorrection,
        x.tile.position_withoutCorrection, x.tile.residualSigma_withoutCorrection, rfl, rfl⟩
    exact softened_set hx hdeg

/-- After paging a slot out it is not HOT. -/
theorem not_hot_of_pageOut {c d : ElasticKvCache} {s : Nat} {y : Slot} (h : c.pageOut s = some d)
    (hy : d.slots[s]? = some y) : y.state ≠ .hot := by
  unfold pageOut at h
  obtain ⟨x, hx, rfl⟩ := Option.map_eq_some_iff.mp h
  split at hy
  · rw [List.getElem?_set_self' , hx] at hy
    obtain rfl := Option.some.inj hy
    simp
  · next hhot =>
    rw [hx] at hy
    exact Option.some.inj hy ▸ hhot

theorem stripped_of_dropCorrection {c d : ElasticKvCache} {s : Nat} {y : Slot}
    (h : c.dropCorrection s = some d) (hy : d.slots[s]? = some y) (hlive : y.Live) : y.tile.Stripped := by
  unfold dropCorrection at h
  obtain ⟨x, hx, rfl⟩ := Option.map_eq_some_iff.mp h
  split at hy
  · next hkeep =>
    rw [hx] at hy
    obtain rfl := Option.some.inj hy
    rcases hkeep with hcold | hstripped
    · exact absurd hcold hlive
    · exact hstripped
  · rw [List.getElem?_set_self', hx] at hy
    obtain rfl := Option.some.inj hy
    exact x.tile.stripped_withoutCorrection

/-! ## Going through a phase -/

/-- The slots a phase handled, and whether it stopped early. -/
theorem phase_eq_some {step : ElasticKvCache → Nat → Option ElasticKvCache} {c : ElasticKvCache}
    {l : List Nat} {done : Bool × ElasticKvCache} (h : phase step c l = some done) :
    ∃ gone rest, l = gone ++ rest ∧ gone.foldlM step c = some done.2 ∧
      (done.1 = true → done.2.liveBytes ≤ done.2.budgetBytes) ∧ (done.1 = false → rest = []) ∧
      ∀ before s after d, gone = before ++ s :: after → before.foldlM step c = some d →
        d.budgetBytes < d.liveBytes := by
  induction l generalizing c with
  | nil =>
    obtain rfl := Option.some.inj h
    exact ⟨[], [], rfl, rfl, by simp, by simp, by simp⟩
  | cons s l ih =>
    unfold phase at h
    split at h
    · next hle =>
      obtain rfl := Option.some.inj h
      exact ⟨[], s :: l, rfl, rfl, fun _ => hle, by simp, by simp⟩
    · next hover =>
      obtain ⟨d, hd, hrest⟩ := Option.bind_eq_some_iff.mp h
      obtain ⟨gone, rest, rfl, hfold, hmet, hend, hbusy⟩ := ih hrest
      refine ⟨s :: gone, rest, rfl, ?_, hmet, hend, ?_⟩
      · rw [List.foldlM_cons, hd]
        exact hfold
      · rintro (_ | ⟨b, before⟩) t after e hsplit he
        · obtain rfl := Option.some.inj he
          omega
        · obtain ⟨rfl, rfl⟩ := List.cons.inj hsplit
          rw [List.foldlM_cons, hd] at he
          exact hbusy before t after e rfl he

theorem softened_foldlM {step : ElasticKvCache → Nat → Option ElasticKvCache}
    (hsoft : ∀ {c d s}, step c s = some d → Softened c d) {c d : ElasticKvCache} {l : List Nat}
    (h : l.foldlM step c = some d) : Softened c d :=
  Runs.foldlM_keeps (P := Softened c) (fun _ _ _ hc hstep => hc.trans (hsoft hstep)) (.refl c) h

/-- A phase that went through handled each of its slots. -/
theorem handled_foldlM {step : ElasticKvCache → Nat → Option ElasticKvCache} {P : Slot → Prop}
    (hsoft : ∀ {c d s}, step c s = some d → Softened c d)
    (hpost : ∀ {c d s y}, step c s = some d → d.slots[s]? = some y → P y)
    (hmono : ∀ {x y}, x.Degrades y → P x → P y) {c d : ElasticKvCache} {l : List Nat}
    (h : l.foldlM step c = some d) {s : Nat} (hs : s ∈ l) {y : Slot} (hy : d.slots[s]? = some y) : P y := by
  obtain ⟨before, after, rfl⟩ := List.append_of_mem hs
  obtain ⟨d₁, _, hrest⟩ := Runs.foldlM_append_eq_some.mp h
  rw [List.foldlM_cons] at hrest
  obtain ⟨d₂, hstep, hafter⟩ := Option.bind_eq_some_iff.mp hrest
  obtain ⟨x, hx, hdeg⟩ := (softened_foldlM hsoft hafter).exists_before hy
  exact hmono hdeg (hpost hstep hx)

theorem mem_slotsWhere {c : ElasticKvCache} {p : Slot → Bool} {s : Nat} :
    s ∈ c.slotsWhere p ↔ ∃ x, c.slots[s]? = some x ∧ p x = true := by
  unfold slotsWhere
  rw [List.mem_filter, List.mem_range, Option.any_eq_true]
  constructor
  · exact fun h => h.2
  · rintro ⟨x, hx, hp⟩
    exact ⟨(List.getElem?_eq_some_iff.mp hx).1, x, hx, hp⟩

theorem mem_slotsInPagingOrder {sorter : SlotSort} {c : ElasticKvCache} {state : TileState} {l : List Nat}
    (h : c.slotsInPagingOrder sorter state = some l) {s : Nat} {x : Slot} (hx : c.slots[s]? = some x)
    (hstate : x.state = state) : s ∈ l := by
  rw [(sorter.perm h).mem_iff, mem_slotsWhere]
  exact ⟨x, hx, by simpa using hstate⟩

/-! ## The soft phases -/

/-- Nothing is left to degrade: the live tiles are WARM, without their correction planes. -/
def Spent (c : ElasticKvCache) : Prop :=
  ∀ (s : Nat) (x : Slot), c.slots[s]? = some x → x.Live → x.state = .warm ∧ x.tile.Stripped

/-- A phase that did not meet the budget went through its whole list. -/
theorem phase_through {step : ElasticKvCache → Nat → Option ElasticKvCache} {c : ElasticKvCache}
    {l : List Nat} {done : Bool × ElasticKvCache} (h : phase step c l = some done) :
    if done.1 then done.2.liveBytes ≤ done.2.budgetBytes else l.foldlM step c = some done.2 := by
  obtain ⟨gone, rest, rfl, hfold, hmet, hend, -⟩ := phase_eq_some h
  cases hflag : done.1 with
  | true => exact hmet hflag
  | false => simpa [hend hflag] using hfold

theorem softened_phase {step : ElasticKvCache → Nat → Option ElasticKvCache}
    (hsoft : ∀ {c d s}, step c s = some d → Softened c d) {c : ElasticKvCache} {l : List Nat}
    {done : Bool × ElasticKvCache} (h : phase step c l = some done) : Softened c done.2 := by
  obtain ⟨gone, rest, rfl, hfold, -⟩ := phase_eq_some h
  exact softened_foldlM hsoft hfold

/-- The last two phases alone degrade everything. The first one only saves residuals. -/
theorem spent_of_phases {sorter : SlotSort} {c₁ c₂ c₃ : ElasticKvCache} {l₂ l₃ : List Nat}
    (h₂ : c₁.slotsInPagingOrder sorter .hot = some l₂) (hc₂ : l₂.foldlM pageOut c₁ = some c₂)
    (h₃ : c₂.slotsInPagingOrder sorter .warm = some l₃) (hc₃ : l₃.foldlM dropCorrection c₂ = some c₃) :
    c₃.Spent := by
  have hs₂ := softened_foldlM softened_pageOut hc₂
  have hs₃ := softened_foldlM softened_dropCorrection hc₃
  intro s z hz hlive
  obtain ⟨y, hy, hyz⟩ := hs₃.exists_before hz
  obtain ⟨x, hx, hxy⟩ := hs₂.exists_before hy
  -- Whatever was HOT before the second phase was on its list.
  have hcool : y.state ≠ .hot := by
    intro hhot
    have hmem := mem_slotsInPagingOrder h₂ hx (hxy.hot hhot)
    exact handled_foldlM (P := fun y => y.state ≠ .hot) softened_pageOut not_hot_of_pageOut
      (fun hdeg hne hhot => hne (hdeg.hot hhot)) hc₂ hmem hy hhot
  have hwarm : y.state = .warm := by
    have hylive : y.state ≠ .cold := hyz.live.mp hlive
    cases hy : y.state <;> simp_all
  have hmem := mem_slotsInPagingOrder h₃ hy hwarm
  refine ⟨?_, handled_foldlM (P := fun z => z.Live → z.tile.Stripped) softened_dropCorrection
    stripped_of_dropCorrection (fun hdeg h hl => hdeg.stripped (h (hdeg.live.mp hl))) hc₃ hmem hz hlive⟩
  have hnot : z.state ≠ .hot := fun hhot => hcool (hyz.hot hhot)
  have hnotCold : z.state ≠ .cold := hlive
  cases hz : z.state <;> simp_all

/-- The budget is met by degrading slots, or everything is degraded before the first eviction. -/
theorem enforceBudget_cases {sorter : SlotSort} {c d : ElasticKvCache}
    (h : c.enforceBudget sorter = some d) :
    ∃ soft, Softened c soft ∧ ((d = soft ∧ soft.liveBytes ≤ soft.budgetBytes) ∨
      (soft.Spent ∧ soft.evictPhase sorter = some d)) := by
  unfold enforceBudget at h
  split at h
  · next hle =>
    obtain rfl := Option.some.inj h
    exact ⟨c, .refl c, .inl ⟨rfl, hle⟩⟩
  obtain ⟨l₁, h₁, h⟩ := Option.bind_eq_some_iff.mp h
  obtain ⟨⟨met₁, c₁⟩, hp₁, h⟩ := Option.bind_eq_some_iff.mp h
  have hs₁ := softened_phase softened_dropCorrection hp₁
  have ht₁ := phase_through hp₁
  unfold orElse at h
  cases met₁ with
  | true => exact ⟨c₁, hs₁, .inl ⟨(Option.some.inj h).symm, ht₁⟩⟩
  | false =>
    obtain ⟨l₂, h₂, h⟩ := Option.bind_eq_some_iff.mp h
    obtain ⟨⟨met₂, c₂⟩, hp₂, h⟩ := Option.bind_eq_some_iff.mp h
    have hs₂ := softened_phase softened_pageOut hp₂
    have ht₂ := phase_through hp₂
    cases met₂ with
    | true => exact ⟨c₂, hs₁.trans hs₂, .inl ⟨(Option.some.inj h).symm, ht₂⟩⟩
    | false =>
      obtain ⟨l₃, h₃, h⟩ := Option.bind_eq_some_iff.mp h
      obtain ⟨⟨met₃, c₃⟩, hp₃, h⟩ := Option.bind_eq_some_iff.mp h
      have hs₃ := softened_phase softened_dropCorrection hp₃
      have ht₃ := phase_through hp₃
      cases met₃ with
      | true => exact ⟨c₃, (hs₁.trans hs₂).trans hs₃, .inl ⟨(Option.some.inj h).symm, ht₃⟩⟩
      | false => exact ⟨c₃, (hs₁.trans hs₂).trans hs₃, .inr ⟨spent_of_phases h₂ ht₂ h₃ ht₃, h⟩⟩

/-! ## Evictions -/

end ElasticKvCache

def Slot.cooled (x : Slot) : Slot := { x with state := .cold }

@[simp] theorem Slot.cooled_not_live (x : Slot) : ¬ x.cooled.Live := by simp [Slot.Live, Slot.cooled]

theorem Slot.cooled_of_not_live {x : Slot} (h : ¬ x.Live) : x.cooled = x := by
  unfold Slot.Live at h
  rw [not_not] at h
  unfold Slot.cooled
  rw [← h]

namespace ElasticKvCache

theorem snapshot_fields (c : ElasticKvCache) (s : Nat) (x : Slot) :
    (c.snapshot s x).slots = c.slots ∧ (c.snapshot s x).free = c.free ∧
      (c.snapshot s x).nextSeq = c.nextSeq ∧ (c.snapshot s x).budgetBytes = c.budgetBytes ∧
      (c.snapshot s x).eviction = c.eviction ∧ (c.snapshot s x).eventLog =
        c.eventLog.map fun log => (log.append x.seq (UInt32.ofNat s) x.tile).2 := by
  unfold snapshot
  split
  · next hlog => exact ⟨rfl, rfl, rfl, rfl, rfl, by rw [hlog]; rfl⟩
  · next hlog => exact ⟨rfl, rfl, rfl, rfl, rfl, by rw [hlog]; rfl⟩

/-- What an eviction of a live slot does. -/
structure Evicted (c : ElasticKvCache) (s : Nat) (x : Slot) (d : ElasticKvCache) : Prop where
  slots : d.slots = c.slots.set s x.cooled
  free : d.free = s :: c.free
  nextSeq : d.nextSeq = c.nextSeq
  budgetBytes : d.budgetBytes = c.budgetBytes
  eviction : d.eviction = c.eviction
  eventLog : d.eventLog = c.eventLog.map fun log => (log.append x.seq (UInt32.ofNat s) x.tile).2

theorem evict_cases {c d : ElasticKvCache} {s : Nat} (h : c.evict s = some d) :
    ∃ x, c.slots[s]? = some x ∧ (¬ x.Live ∧ d = c ∨ x.Live ∧ c.Evicted s x d) := by
  unfold evict at h
  obtain ⟨x, hx, rfl⟩ := Option.map_eq_some_iff.mp h
  refine ⟨x, hx, ?_⟩
  obtain ⟨hslots, hfree, hseq, hbudget, hevict, hlog⟩ := c.snapshot_fields s x
  split
  · next hcold => exact .inl ⟨fun hlive => hlive hcold, rfl⟩
  · next hlive =>
    refine .inr ⟨hlive, ?_, ?_, hseq, hbudget, hevict, hlog⟩
    · dsimp only
      rw [hslots]
      rfl
    · dsimp only
      rw [hfree]

theorem getElem?_of_evict {c d : ElasticKvCache} {s : Nat} (h : c.evict s = some d) (t : Nat) :
    d.slots[t]? = c.slots[t]?.map fun x => if t = s then x.cooled else x := by
  obtain ⟨x, hx, ⟨hdead, rfl⟩ | ⟨-, hev⟩⟩ := evict_cases h
  · by_cases hts : t = s
    · subst hts
      simp [hx, Slot.cooled_of_not_live hdead]
    · simp [hts]
  · rw [hev.slots, List.getElem?_set]
    by_cases hts : s = t
    · subst hts
      have hlt := (List.getElem?_eq_some_iff.mp hx).1
      rw [if_pos rfl, if_pos hlt, hx]
      simp
    · simp [hts, Ne.symm hts]

/-- Evicting slot after slot cools these, and touches no other. -/
theorem getElem?_of_evictions {c d : ElasticKvCache} {gone : List Nat} (h : gone.foldlM evict c = some d)
    (t : Nat) : d.slots[t]? = c.slots[t]?.map fun x => if t ∈ gone then x.cooled else x := by
  induction gone generalizing c with
  | nil =>
    obtain rfl := Option.some.inj h
    simp
  | cons s gone ih =>
    rw [List.foldlM_cons] at h
    obtain ⟨e, he, hrest⟩ := Option.bind_eq_some_iff.mp h
    rw [ih hrest, getElem?_of_evict he, Option.map_map]
    congr 1
    funext x
    by_cases hts : t = s <;> by_cases htg : t ∈ gone <;> simp [hts, htg, Slot.cooled]

theorem frame_of_evictions {c d : ElasticKvCache} {gone : List Nat} (h : gone.foldlM evict c = some d) :
    d.budgetBytes = c.budgetBytes ∧ d.eviction = c.eviction := by
  refine Runs.foldlM_keeps (P := fun d => d.budgetBytes = c.budgetBytes ∧ d.eviction = c.eviction) ?_
    ⟨rfl, rfl⟩ h
  intro a s b ⟨hbudget, hevict⟩ hstep
  obtain ⟨x, -, ⟨-, rfl⟩ | ⟨-, hev⟩⟩ := evict_cases hstep
  · exact ⟨hbudget, hevict⟩
  · exact ⟨hev.budgetBytes.trans hbudget, hev.eviction.trans hevict⟩

/-! ## Consistency -/

end ElasticKvCache

/-- The free list is the COLD slots, and the live tiles have sequence numbers of their own. -/
structure ElasticKvCache.Consistent (c : ElasticKvCache) : Prop where
  free_nodup : c.free.Nodup
  mem_free : ∀ s, s ∈ c.free ↔ ∃ x, c.slots[s]? = some x ∧ ¬ x.Live
  seq_inj : ∀ (s t : Nat) (x y : Slot), c.slots[s]? = some x → c.slots[t]? = some y → x.Live → y.Live →
    x.seq = y.seq → s = t
  seq_lt : ∀ (s : Nat) (x : Slot), c.slots[s]? = some x → x.seq < c.nextSeq
  importance : ∀ (s : Nat) (x : Slot), c.slots[s]? = some x → x.importance = F32.zero

namespace ElasticKvCache

theorem consistent_empty {c : ElasticKvCache} (hslots : c.slots = []) (hfree : c.free = []) :
    c.Consistent := by
  refine ⟨by rw [hfree]; exact List.nodup_nil, fun s => ?_, ?_, ?_, ?_⟩
  · simp [hfree, hslots]
  all_goals
    intros
    simp_all

theorem Consistent.softened {c d : ElasticKvCache} (h : c.Consistent) (hs : Softened c d) :
    d.Consistent := by
  refine ⟨hs.free ▸ h.free_nodup, fun s => ?_, ?_, ?_, ?_⟩
  · rw [hs.free, h.mem_free]
    constructor
    · rintro ⟨x, hx, hdead⟩
      obtain ⟨y, hy, hdeg⟩ := hs.exists_after hx
      exact ⟨y, hy, fun hl => hdead (hdeg.live.mp hl)⟩
    · rintro ⟨y, hy, hdead⟩
      obtain ⟨x, hx, hdeg⟩ := hs.exists_before hy
      exact ⟨x, hx, fun hl => hdead (hdeg.live.mpr hl)⟩
  · intro s t y y' hy hy' hl hl' hseq
    obtain ⟨x, hx, hdeg⟩ := hs.exists_before hy
    obtain ⟨x', hx', hdeg'⟩ := hs.exists_before hy'
    exact h.seq_inj s t x x' hx hx' (hdeg.live.mp hl) (hdeg'.live.mp hl') (hdeg.seq ▸ hdeg'.seq ▸ hseq)
  · intro s y hy
    obtain ⟨x, hx, hdeg⟩ := hs.exists_before hy
    rw [hdeg.seq, hs.nextSeq]
    exact h.seq_lt s x hx
  · intro s y hy
    obtain ⟨x, hx, hdeg⟩ := hs.exists_before hy
    rw [hdeg.importance]
    exact h.importance s x hx

theorem Consistent.evict {c d : ElasticKvCache} {s : Nat} (h : c.Consistent) (he : c.evict s = some d) :
    d.Consistent := by
  have hget := getElem?_of_evict he
  obtain ⟨x, hx, ⟨-, rfl⟩ | ⟨hlive, hev⟩⟩ := evict_cases he
  · exact h
  -- What is live afterwards was live before, at another slot.
  have hback : ∀ {t : Nat} {y : Slot}, d.slots[t]? = some y → ∃ z, c.slots[t]? = some z ∧ y.seq = z.seq ∧
      y.importance = z.importance ∧ (y.Live → z.Live) := by
    intro t y hy
    rw [hget t] at hy
    obtain ⟨z, hz, rfl⟩ := Option.map_eq_some_iff.mp hy
    refine ⟨z, hz, ?_⟩
    split
    · exact ⟨rfl, rfl, fun hl => absurd hl z.cooled_not_live⟩
    · exact ⟨rfl, rfl, id⟩
  have hnot : s ∉ c.free := fun hmem => by
    obtain ⟨y, hy, hdead⟩ := (h.mem_free s).mp hmem
    rw [hx] at hy
    exact hdead (Option.some.inj hy ▸ hlive)
  refine ⟨?_, fun t => ?_, ?_, ?_, ?_⟩
  · rw [hev.free]
    exact List.nodup_cons.mpr ⟨hnot, h.free_nodup⟩
  · rw [hev.free, List.mem_cons, h.mem_free, hget t]
    by_cases hts : t = s
    · subst hts
      simp [hx]
    · simp [hts]
  · intro a b y y' hy hy' hl hl' hseq
    obtain ⟨z, hz, hzseq, -, hzl⟩ := hback hy
    obtain ⟨z', hz', hzseq', -, hzl'⟩ := hback hy'
    exact h.seq_inj a b z z' hz hz' (hzl hl) (hzl' hl') (hzseq ▸ hzseq' ▸ hseq)
  · intro t y hy
    obtain ⟨z, hz, hzseq, -⟩ := hback hy
    rw [hzseq, hev.nextSeq]
    exact h.seq_lt t z hz
  · intro t y hy
    obtain ⟨z, hz, -, hzimp, -⟩ := hback hy
    exact hzimp.trans (h.importance t z hz)

/-! ## Inserting -/

/-- The slot an insert takes is new or COLD, and everything else stays. -/
structure Inserted (c : ElasticKvCache) (tile : SciRustSlhaTile) (s : Nat) (d : ElasticKvCache) : Prop where
  slot : d.slots[s]? = some (c.admitSlot tile)
  others : ∀ t, t ≠ s → d.slots[t]? = c.slots[t]?
  spare : ∀ x, c.slots[s]? = some x → ¬ x.Live
  free_nodup : d.free.Nodup
  mem_free : ∀ t, t ∈ d.free ↔ t ≠ s ∧ t ∈ c.free
  nextSeq : d.nextSeq.toNat = c.nextSeq.toNat + 1
  eventLog : d.eventLog = c.eventLog

theorem Consistent.inserted {c d : ElasticKvCache} {tile : SciRustSlhaTile} {s : Nat} (h : c.Consistent)
    (hi : c.insert tile = some (s, d)) : c.Inserted tile s d := by
  unfold insert at hi
  split at hi
  · next hroom =>
    have hseq : (c.nextSeq + 1).toNat = c.nextSeq.toNat + 1 := by
      rw [UInt64.toNat_add]
      exact Nat.mod_eq_of_lt hroom
    split at hi
    · next a free hfree =>
      split at hi
      · next hlt =>
        obtain ⟨rfl, rfl⟩ := Prod.mk.inj (Option.some.inj hi)
        have hnodup := hfree ▸ h.free_nodup
        have hfresh : a ∉ free := (List.nodup_cons.mp hnodup).1
        refine ⟨?_, fun t ht => ?_, fun x hx => ?_, (List.nodup_cons.mp hnodup).2, fun t => ?_, hseq, rfl⟩
        · simp [hlt]
        · simp [Ne.symm ht]
        · obtain ⟨y, hy, hdead⟩ := (h.mem_free a).mp (hfree ▸ List.mem_cons_self)
          rw [hx] at hy
          exact Option.some.inj hy ▸ hdead
        · rw [hfree, List.mem_cons]
          constructor
          · exact fun ht => ⟨fun hta => hfresh (hta ▸ ht), .inr ht⟩
          · rintro ⟨hne, hta | ht⟩
            · exact absurd hta hne
            · exact ht
      · cases hi
    · next hfree =>
      obtain ⟨rfl, rfl⟩ := Prod.mk.inj (Option.some.inj hi)
      refine ⟨?_, fun t ht => ?_, fun x hx => ?_, ?_, fun t => ?_, hseq, rfl⟩
      · simp
      · dsimp only
        rw [List.getElem?_append]
        split
        · rfl
        · next hge => rw [List.getElem?_eq_none (by simp; omega), List.getElem?_eq_none (by omega)]
      · rw [List.getElem?_eq_none (Nat.le_refl _)] at hx
        cases hx
      · rw [hfree]
        exact List.nodup_nil
      · simp [hfree]
  · cases hi

theorem Consistent.insert {c d : ElasticKvCache} {tile : SciRustSlhaTile} {s : Nat} (h : c.Consistent)
    (hi : c.insert tile = some (s, d)) : d.Consistent := by
  have hins := h.inserted hi
  have hnext : ∀ (t : Nat) (x : Slot), c.slots[t]? = some x → x.seq < c.nextSeq := h.seq_lt
  have hadmitted : ∀ {y : Slot}, d.slots[s]? = some y → y = c.admitSlot tile := fun hy => by
    rw [hins.slot] at hy
    exact (Option.some.inj hy).symm
  -- The new number is above all the old ones.
  have hnew : ∀ {t : Nat} {y : Slot}, t ≠ s → d.slots[t]? = some y → y.seq ≠ c.nextSeq := fun hts hy hseq => by
    have hlt := hnext _ _ (hins.others _ hts ▸ hy)
    rw [hseq] at hlt
    exact UInt64.lt_irrefl _ hlt
  refine ⟨hins.free_nodup, fun t => ?_, ?_, ?_, ?_⟩
  · rw [hins.mem_free, h.mem_free]
    by_cases hts : t = s
    · subst hts
      rw [hins.slot]
      simp [admitSlot, Slot.Live]
    · rw [hins.others t hts]
      simp [hts]
  · intro a b x y hx hy hxl hyl hseq
    by_cases ha : a = s <;> by_cases hb : b = s
    · rw [ha, hb]
    · subst ha
      rw [hadmitted hx] at hseq
      exact absurd hseq.symm (hnew hb hy)
    · subst hb
      rw [hadmitted hy] at hseq
      exact absurd hseq (hnew ha hx)
    · exact h.seq_inj a b x y (hins.others a ha ▸ hx) (hins.others b hb ▸ hy) hxl hyl hseq
  · intro t x hx
    rw [UInt64.lt_iff_toNat_lt, hins.nextSeq]
    by_cases hts : t = s
    · subst hts
      rw [hadmitted hx]
      exact Nat.lt_succ_self _
    · have hlt := UInt64.lt_iff_toNat_lt.mp (hnext t x (hins.others t hts ▸ hx))
      omega
  · intro t x hx
    by_cases hts : t = s
    · subst hts
      rw [hadmitted hx]
      rfl
    · exact h.importance t x (hins.others t hts ▸ hx)

theorem rehydrate_cases {c d : ElasticKvCache} {seq : UInt64} {r : Except String (Option Nat)}
    (h : c.rehydrate seq = some (r, d)) :
    d = c ∨ ∃ log rec s, c.eventLog = some log ∧ log.fetchBySeq seq = .ok (some rec) ∧
      r = .ok (some s) ∧ c.insert rec.tile = some (s, d) := by
  unfold rehydrate at h
  split at h
  · exact .inl (Prod.mk.inj (Option.some.inj h)).2.symm
  · next log hlog =>
    split at h
    · exact .inl (Prod.mk.inj (Option.some.inj h)).2.symm
    · exact .inl (Prod.mk.inj (Option.some.inj h)).2.symm
    · next rec hrec =>
      obtain ⟨⟨s, e⟩, hins, heq⟩ := Option.map_eq_some_iff.mp h
      obtain ⟨rfl, rfl⟩ := Prod.mk.inj heq
      exact .inr ⟨log, rec, s, hlog, hrec, rfl, hins⟩

/-! ## The eviction phase -/

theorem evictionCmp_importance {c : ElasticKvCache} (h : c.Consistent) {w : Nat}
    (hw : c.eviction = .importance w) :
    c.evictionCmp = compareLex (compareOn fun s => decide (c.positionAt s < UInt32.ofNat w))
      (compareOn c.seqAt) := by
  have hzero : ∀ s, c.importanceAt s = F32.zero := fun s => by
    unfold importanceAt
    cases hs : c.slots[s]? with
    | none => rfl
    | some x => exact h.importance s x hs
  funext a b
  simp only [evictionCmp, hw, hzero]
  rw [show F32.zero.partialCmp F32.zero = some .eq by decide, Option.getD_some, Ordering.then_eq]
  rfl

theorem transCmp_evictionCmp {c : ElasticKvCache} (h : c.Consistent) : TransCmp c.evictionCmp := by
  cases hev : c.eviction with
  | causal =>
    have heq : c.evictionCmp = compareOn c.seqAt := by
      funext a b
      simp only [evictionCmp, hev]
      rfl
    rw [heq]
    infer_instance
  | importance w =>
    rw [evictionCmp_importance h hev]
    infer_instance

/-- Among sorted slots a sink comes before sinks only. -/
theorem sink_of_isLE {c : ElasticKvCache} (h : c.Consistent) {w : Nat} (hw : c.eviction = .importance w)
    {s t : Nat} (hle : (c.evictionCmp s t).isLE) (hs : c.positionAt s < UInt32.ofNat w) :
    c.positionAt t < UInt32.ofNat w := by
  rw [evictionCmp_importance h hw] at hle
  by_contra ht
  simp only [compareLex, compareOn, hs, ht, decide_true, decide_false] at hle
  exact Bool.noConfusion hle

/-- The evictions of one call, in order: what holds each time one is made. -/
structure EvictedInOrder (soft : ElasticKvCache) (gone : List Nat) (d : ElasticKvCache) : Prop where
  run : gone.foldlM ElasticKvCache.evict soft = some d
  was_live : ∀ s ∈ gone, ∃ x, soft.slots[s]? = some x ∧ x.Live
  over_budget : ∀ before s after c, gone = before ++ s :: after →
    before.foldlM ElasticKvCache.evict soft = some c → c.budgetBytes < c.liveBytes
  spent : ∀ before s after c, gone = before ++ s :: after →
    before.foldlM ElasticKvCache.evict soft = some c → c.Spent
  sinks_last : ∀ before s after c, gone = before ++ s :: after →
    before.foldlM ElasticKvCache.evict soft = some c → ∀ w, c.eviction = .importance w →
    (c.positionAt s).toNat < w → ∀ (t : Nat) (x : Slot), c.slots[t]? = some x → x.Live →
      x.tile.position.toNat < w

theorem evictedInOrder_nil (soft : ElasticKvCache) : EvictedInOrder soft [] soft :=
  ⟨rfl, by simp, by simp, by simp, by simp⟩

/-- The cast of the window to 32 bits does not move it, except above every position. -/
theorem position_lt_of_cast {p q : UInt32} {w : Nat} (hp : p.toNat < w)
    (h : p < UInt32.ofNat w → q < UInt32.ofNat w) : q.toNat < w := by
  by_cases hw : w < 2 ^ 32
  · have hcast : (UInt32.ofNat w).toNat = w := by
      rw [UInt32.toNat_ofNat']
      exact Nat.mod_eq_of_lt hw
    simp only [UInt32.lt_iff_toNat_lt, hcast] at h
    exact h hp
  · have hq := q.toNat_lt
    omega

theorem spent_of_evictions {c d : ElasticKvCache} {gone : List Nat} (h : c.Spent)
    (hd : gone.foldlM ElasticKvCache.evict c = some d) : d.Spent := by
  intro t y hy hlive
  rw [getElem?_of_evictions hd] at hy
  obtain ⟨x, hx, rfl⟩ := Option.map_eq_some_iff.mp hy
  split at hlive
  · exact absurd hlive x.cooled_not_live
  · next hgone =>
    rw [if_neg hgone]
    exact h t x hx hlive

theorem positionAt_of_evictions {c d : ElasticKvCache} {gone : List Nat}
    (hd : gone.foldlM ElasticKvCache.evict c = some d) (s : Nat) : d.positionAt s = c.positionAt s := by
  unfold positionAt
  rw [getElem?_of_evictions hd]
  cases c.slots[s]? with
  | none => rfl
  | some x =>
    simp only [Option.map_some, Option.getD_some]
    split <;> rfl

theorem evictPhase_spec {sorter : SlotSort} {soft d : ElasticKvCache} (hc : soft.Consistent)
    (hspent : soft.Spent) (h : soft.evictPhase sorter = some d) :
    d.liveBytes ≤ d.budgetBytes ∧ ∃ gone, EvictedInOrder soft gone d := by
  obtain ⟨live, hsort, h⟩ := Option.bind_eq_some_iff.mp h
  obtain ⟨⟨met, e⟩, hphase, h⟩ := Option.bind_eq_some_iff.mp h
  obtain rfl := Option.some.inj h
  obtain ⟨sorted, hsorted, hpair⟩ := sorter.sorted (soft.slotsWhere fun slot => decide slot.Live)
    (transCmp_evictionCmp hc)
  rw [hsort] at hsorted
  obtain rfl := Option.some.inj hsorted
  have hmem : ∀ s, s ∈ live ↔ ∃ x, soft.slots[s]? = some x ∧ x.Live := fun s => by
    rw [(sorter.perm hsort).mem_iff, mem_slotsWhere]
    simp only [decide_eq_true_eq]
  obtain ⟨gone, rest, rfl, hrun, hmet, hend, hover⟩ := phase_eq_some hphase
  refine ⟨?_, gone, hrun, fun s hs => (hmem s).mp (List.mem_append_left _ hs), hover,
    fun before s after c _ hb => spent_of_evictions hspent hb, ?_⟩
  · cases met with
    | true => exact hmet rfl
    | false =>
      -- Everything that was live is gone.
      have hzero : e.liveBytes = 0 := by
        unfold liveBytes
        rw [List.sum_eq_zero_iff_forall_eq_nat]
        intro n hn
        obtain ⟨y, hy, rfl⟩ := List.mem_map.mp hn
        obtain ⟨t, ht⟩ := List.getElem?_of_mem hy
        rw [getElem?_of_evictions hrun] at ht
        obtain ⟨x, hx, rfl⟩ := Option.map_eq_some_iff.mp ht
        have hdead : ¬ (if t ∈ gone then x.cooled else x).Live := by
          split
          · exact x.cooled_not_live
          · next hgone =>
            intro hl
            have hin := (hmem t).mpr ⟨x, hx, hl⟩
            rw [hend rfl, List.append_nil] at hin
            exact hgone hin
        unfold Slot.Live at hdead
        rw [not_not] at hdead
        simp only [Slot.footprint, hdead]
      change e.liveBytes ≤ e.budgetBytes
      omega
  · intro before s after c hsplit hb w hw hsink t x hx hlive
    have hsoft : soft.eviction = .importance w := (frame_of_evictions hb).2 ▸ hw
    rw [positionAt_of_evictions hb] at hsink
    have hxpos : c.positionAt t = x.tile.position := by simp [positionAt, hx]
    rw [getElem?_of_evictions hb] at hx
    obtain ⟨z, hz, rfl⟩ := Option.map_eq_some_iff.mp hx
    have hleft : t ∉ before := fun hin => by
      rw [if_pos hin] at hlive
      exact z.cooled_not_live hlive
    rw [if_neg hleft] at hlive
    have hin := (hmem t).mpr ⟨z, hz, hlive⟩
    rw [← hxpos, positionAt_of_evictions hb]
    refine position_lt_of_cast hsink fun hs => ?_
    rw [hsplit, List.append_assoc] at hin hpair
    rcases List.mem_append.mp hin with hin | hin
    · exact absurd hin hleft
    · rcases List.mem_cons.mp hin with rfl | hin
      · exact hs
      · have hcons := (List.pairwise_append.mp hpair).2.1
        exact sink_of_isLE hc hsoft ((List.pairwise_cons.mp hcons).1 t hin) hs

/-! ## The call returns -/

/-- No two residual energies that the paging order cannot compare. -/
def Comparable (c : ElasticKvCache) : Prop :=
  c.policy = .oldestFirst ∨
    ∀ (s : Nat) (x : Slot), c.slots[s]? = some x → x.tile.residualSigma.isNaN = false

theorem Comparable.softened {c d : ElasticKvCache} (h : c.Comparable) (hs : Softened c d) :
    d.Comparable := by
  rcases h with h | h
  · exact .inl (hs.policy.trans h)
  · refine .inr fun s y hy => ?_
    obtain ⟨x, hx, hdeg⟩ := hs.exists_before hy
    rw [hdeg.sigma]
    exact h s x hx

theorem transCmp_pagingCmp {c : ElasticKvCache} (h : c.Comparable) : TransCmp c.pagingCmp := by
  cases hpol : c.policy with
  | oldestFirst =>
    have heq : c.pagingCmp = compareOn c.seqAt := by
      funext a b
      simp only [pagingCmp, hpol]
      rfl
    rw [heq]
    infer_instance
  | lowestImpactFirst =>
    have hnan : ∀ s, (c.sigmaAt s).isNaN = false := fun s => by
      unfold sigmaAt
      cases hs : c.slots[s]? with
      | none => rfl
      | some x =>
        rcases h with h | h
        · rw [hpol] at h
          cases h
        · exact h s x hs
    have heq : c.pagingCmp = compareOn fun s => (c.sigmaAt s).key := by
      funext a b
      simp only [pagingCmp, hpol, F32.partialCmp, hnan]
      rfl
    rw [heq]
    infer_instance

theorem isSome_slotsInPagingOrder (sorter : SlotSort) {c : ElasticKvCache} (h : c.Comparable)
    (state : TileState) : ∃ l, c.slotsInPagingOrder sorter state = some l ∧ ∀ s ∈ l, s < c.slots.length := by
  obtain ⟨l, hl, -⟩ := sorter.sorted (c.slotsWhere (·.state = state)) (transCmp_pagingCmp h)
  refine ⟨l, hl, fun s hs => ?_⟩
  obtain ⟨x, hx, -⟩ := mem_slotsWhere.mp ((sorter.perm hl).mem_iff.mp hs)
  exact (List.getElem?_eq_some_iff.mp hx).1

/-- A phase over slots in range does not panic. -/
theorem exists_phase {step : ElasticKvCache → Nat → Option ElasticKvCache}
    (hstep : ∀ (c : ElasticKvCache) (s : Nat), s < c.slots.length →
      ∃ d, step c s = some d ∧ d.slots.length = c.slots.length)
    {c : ElasticKvCache} {l : List Nat} (hl : ∀ s ∈ l, s < c.slots.length) :
    ∃ done, phase step c l = some done := by
  induction l generalizing c with
  | nil => exact ⟨_, rfl⟩
  | cons s l ih =>
    unfold phase
    split
    · exact ⟨_, rfl⟩
    · obtain ⟨d, hd, hlen⟩ := hstep c s (hl s List.mem_cons_self)
      rw [hd, Option.bind_some]
      exact ih fun t ht => hlen ▸ hl t (List.mem_cons_of_mem _ ht)

theorem exists_pageOut (c : ElasticKvCache) (s : Nat) (h : s < c.slots.length) :
    ∃ d, c.pageOut s = some d ∧ d.slots.length = c.slots.length := by
  obtain ⟨d, hd⟩ : ∃ d, c.pageOut s = some d := Option.isSome_iff_exists.mp (by simp [pageOut, h])
  exact ⟨_, hd, (softened_pageOut hd).length⟩

theorem exists_dropCorrection (c : ElasticKvCache) (s : Nat) (h : s < c.slots.length) :
    ∃ d, c.dropCorrection s = some d ∧ d.slots.length = c.slots.length := by
  obtain ⟨d, hd⟩ : ∃ d, c.dropCorrection s = some d := Option.isSome_iff_exists.mp (by simp [dropCorrection, h])
  exact ⟨_, hd, (softened_dropCorrection hd).length⟩

theorem exists_evict (c : ElasticKvCache) (s : Nat) (h : s < c.slots.length) :
    ∃ d, c.evict s = some d ∧ d.slots.length = c.slots.length := by
  obtain ⟨d, hd⟩ : ∃ d, c.evict s = some d := Option.isSome_iff_exists.mp (by simp [evict, h])
  obtain ⟨x, -, ⟨-, heq⟩ | ⟨-, hev⟩⟩ := evict_cases hd
  · exact ⟨_, hd, by rw [heq]⟩
  · exact ⟨_, hd, by rw [hev.slots, List.length_set]⟩

theorem exists_evictPhase (sorter : SlotSort) {c : ElasticKvCache} (hc : c.Consistent) :
    ∃ d, c.evictPhase sorter = some d := by
  obtain ⟨live, hlive, -⟩ := sorter.sorted (c.slotsWhere fun slot => decide slot.Live)
    (transCmp_evictionCmp hc)
  obtain ⟨done, hdone⟩ := exists_phase exists_evict (c := c) (l := live) fun s hs => by
    obtain ⟨x, hx, -⟩ := mem_slotsWhere.mp ((sorter.perm hlive).mem_iff.mp hs)
    exact (List.getElem?_eq_some_iff.mp hx).1
  refine ⟨done.2, ?_⟩
  exact Option.bind_eq_some_iff.mpr ⟨live, hlive, Option.bind_eq_some_iff.mpr ⟨done, hdone, rfl⟩⟩

/-- A soft phase runs, and what follows it starts from a softened cache. -/
theorem exists_softPhase {sorter : SlotSort} {step : ElasticKvCache → Nat → Option ElasticKvCache}
    {state : TileState} {next : ElasticKvCache → Option ElasticKvCache}
    (hstep : ∀ (c : ElasticKvCache) (s : Nat), s < c.slots.length →
      ∃ d, step c s = some d ∧ d.slots.length = c.slots.length)
    (hsoft : ∀ {c d s}, step c s = some d → Softened c d) {c : ElasticKvCache} (hcmp : c.Comparable)
    (hnext : ∀ d, Softened c d → ∃ e, next d = some e) :
    ∃ e, ((c.slotsInPagingOrder sorter state).bind fun l =>
      (phase step c l).bind fun done => orElse done next) = some e := by
  obtain ⟨l, hl, hrange⟩ := isSome_slotsInPagingOrder sorter hcmp state
  obtain ⟨done, hdone⟩ := exists_phase hstep hrange
  rw [hl, Option.bind_some, hdone, Option.bind_some]
  unfold orElse
  split
  · exact ⟨_, rfl⟩
  · exact hnext _ (softened_phase hsoft hdone)

theorem exists_enforceBudget (sorter : SlotSort) {c : ElasticKvCache} (hc : c.Consistent)
    (hcmp : c.Comparable) : ∃ d, c.enforceBudget sorter = some d := by
  unfold enforceBudget
  split
  · exact ⟨c, rfl⟩
  refine exists_softPhase exists_dropCorrection softened_dropCorrection hcmp fun c₁ h₁ => ?_
  refine exists_softPhase exists_pageOut softened_pageOut (hcmp.softened h₁) fun c₂ h₂ => ?_
  refine exists_softPhase exists_dropCorrection softened_dropCorrection
    (hcmp.softened (h₁.trans h₂)) fun c₃ h₃ => ?_
  exact exists_evictPhase sorter (hc.softened ((h₁.trans h₂).trans h₃))

/-! ## Every run -/

theorem Consistent.enforceBudget {sorter : SlotSort} {c d : ElasticKvCache} (h : c.Consistent)
    (hd : c.enforceBudget sorter = some d) : d.Consistent := by
  obtain ⟨soft, hsoft, ⟨rfl, -⟩ | ⟨hspent, hphase⟩⟩ := enforceBudget_cases hd
  · exact h.softened hsoft
  · obtain ⟨-, gone, hgone⟩ := evictPhase_spec (h.softened hsoft) hspent hphase
    exact Runs.foldlM_keeps (fun _ _ _ hc he => hc.evict he) (h.softened hsoft) hgone.run

theorem Consistent.step {sorter : SlotSort} {c d : ElasticKvCache} {op : Op} (h : c.Consistent)
    (hd : c.step sorter op = some d) : d.Consistent := by
  cases op with
  | insert tile =>
    obtain ⟨⟨s, e⟩, hins, rfl⟩ := Option.map_eq_some_iff.mp hd
    exact h.insert hins
  | pageOut s => exact h.softened (softened_pageOut hd)
  | dropCorrection s => exact h.softened (softened_dropCorrection hd)
  | evict s => exact h.evict hd
  | rehydrate seq =>
    obtain ⟨⟨r, e⟩, hr, rfl⟩ := Option.map_eq_some_iff.mp hd
    rcases rehydrate_cases hr with rfl | ⟨log, rec, s, -, -, -, hins⟩
    · exact h
    · exact h.insert hins
  | enforceBudget => exact h.enforceBudget hd

theorem Consistent.run {sorter : SlotSort} {c d : ElasticKvCache} {ops : List Op} (h : c.Consistent)
    (hd : c.run sorter ops = some d) : d.Consistent :=
  Runs.foldlM_keeps (fun _ _ _ hc hstep => hc.step hstep) h hd

theorem reclaimed_le_base {x : Slot} (h : x.Live) : x.reclaimed ≤ x.base := by
  have hle := x.tile.separableCorrBytes_le
  unfold Slot.reclaimed Slot.base hotBytes warmBytes hotBytes residualWords
  cases hs : x.state with
  | cold => exact absurd hs h
  | hot => split <;> simp only <;> omega
  | warm => split <;> simp only <;> omega

/-- What holds of the cache in a state, and of the next insert or budget check made in it. -/
structure Sound (sorter : SlotSort) (c : ElasticKvCache) : Prop where
  consistent : c.Consistent
  no_underflow : ∀ (s : Nat) (x : Slot), c.slots[s]? = some x → x.Live → x.reclaimed ≤ x.base
  insert_spares : ∀ tile s d, c.insert tile = some (s, d) →
    (∀ x, c.slots[s]? = some x → ¬ x.Live) ∧ ∀ t, t ≠ s → d.slots[t]? = c.slots[t]?
  returns : c.Comparable → ∃ d, c.enforceBudget sorter = some d
  enforced : ∀ d, c.enforceBudget sorter = some d → d.budgetBytes = c.budgetBytes ∧
    d.liveBytes ≤ d.budgetBytes ∧ ∃ soft gone, Softened c soft ∧ EvictedInOrder soft gone d

/-- Whatever the calls, the tiles, the policies and the log the cache starts with. -/
theorem sound_after_run (sorter : SlotSort) (budgetBytes : Nat) (policy : PageOutPolicy)
    (eviction : EvictionPolicy) (eventLog : Option EventLog) (ops : List Op) (c : ElasticKvCache)
    (h : run sorter { new budgetBytes policy eviction with eventLog } ops = some c) : Sound sorter c := by
  have hc : c.Consistent := (consistent_empty rfl rfl : Consistent _).run h
  refine ⟨hc, fun s x _ hlive => reclaimed_le_base hlive, fun tile s d hins => ?_,
    exists_enforceBudget sorter hc, fun d hd => ?_⟩
  · exact ⟨(hc.inserted hins).spare, (hc.inserted hins).others⟩
  · obtain ⟨soft, hsoft, ⟨rfl, hmet⟩ | ⟨hspent, hphase⟩⟩ := enforceBudget_cases hd
    · exact ⟨hsoft.budgetBytes, hmet, d, [], hsoft, evictedInOrder_nil d⟩
    · obtain ⟨hmet, gone, hgone⟩ := evictPhase_spec (hc.softened hsoft) hspent hphase
      exact ⟨(frame_of_evictions hgone.run).1.trans hsoft.budgetBytes, hmet, soft, gone, hsoft, hgone⟩

/-- Every order sorted by insertion, total or not. -/
def stableSort : SlotSort where
  sortBy cmp l := some (Ccos.sortBy cmp l)
  perm h := Option.some.inj h ▸ perm_sortBy _ _
  sorted {cmp} l h := ⟨_, rfl, @pairwise_sortBy Nat Nat ⟨cmp⟩ h id l⟩

def blankTile (position : UInt32) (flags : UInt16) : SciRustSlhaTile :=
  ⟨Vector.replicate latentBytes 0, Vector.replicate residualWords 0, F32.zero, F32.zero, F32.zero, 0,
    position, 0, flags, Vector.replicate nGroups 0⟩

def pressingOps : List Op :=
  [.insert (blankTile 0 flagTq3), .insert (blankTile 1 flagMix3), .insert (blankTile 2 flagTq3),
    .enforceBudget, .insert (blankTile 3 0), .pageOut 0, .enforceBudget]

theorem sound_under_pressure :
    ∃ c, run stableSort { new 200 .lowestImpactFirst (.importance 1) with eventLog := none } pressingOps =
      some c ∧ Sound stableSort c := by
  obtain ⟨c, hc⟩ := Option.isSome_iff_exists.mp
    (show (run stableSort { new 200 .lowestImpactFirst (.importance 1) with eventLog := none }
      pressingOps).isSome = true by decide)
  exact ⟨c, hc, sound_after_run stableSort 200 .lowestImpactFirst (.importance 1) none pressingOps c hc⟩

end ElasticKvCache

end Ccos.Kv
