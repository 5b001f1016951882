import Ccos.Lib.StableSort
import Ccos.Scheduler.Zones

/-!
# The budgets of the zones

When the packings and the eviction keep HOT within the token budget, and both zones within the extended one.
-/

namespace Ccos

namespace ContextScheduler

variable {F : Type}

/-! ## Sums -/

theorem toNat_saturatingSub (a b : UInt64) : (saturatingSub a b).toNat = a.toNat - b.toNat := by
  unfold saturatingSub
  split
  · rename_i h
    rw [UInt64.le_iff_toNat_le] at h
    rw [Nat.sub_eq_zero_of_le h]
    rfl
  · rename_i h
    rw [UInt64.le_iff_toNat_le] at h
    exact UInt64.toNat_sub_of_le _ _ (UInt64.le_iff_toNat_le.mpr (by omega))

theorem usizeSum_from {checked : Bool} {l : List UInt64} {acc total : UInt64}
    (h : l.foldlM (usizeAdd checked) acc = some total) :
    total.toNat = (acc.toNat + (l.map UInt64.toNat).sum) % 2 ^ 64 ∧
      (checked = true → acc.toNat + (l.map UInt64.toNat).sum < 2 ^ 64) := by
  induction l generalizing acc with
  | nil =>
    cases h
    have hlt := total.toNat_lt
    rw [List.map_nil, List.sum_nil, Nat.add_zero]
    exact ⟨(Nat.mod_eq_of_lt hlt).symm, fun _ => hlt⟩
  | cons c l ih =>
    rw [List.foldlM_cons] at h
    obtain ⟨next, hnext, h⟩ := Option.bind_eq_some_iff.mp h
    obtain ⟨htotal, hfits⟩ := ih h
    obtain rfl := usizeAdd_eq_some hnext
    rw [List.map_cons, List.sum_cons, ← Nat.add_assoc]
    rw [UInt64.toNat_add] at htotal hfits
    refine ⟨by rw [htotal, Nat.mod_add_mod], fun hchecked => ?_⟩
    have hsmall : acc.toNat + c.toNat < 2 ^ 64 := by
      by_contra hover
      rw [usizeAdd_eq_none.mpr ⟨hchecked, Nat.not_lt.mp hover⟩] at hnext
      cases hnext
    have hrest := hfits hchecked
    rwa [Nat.mod_eq_of_lt hsmall] at hrest

theorem exists_usizeSum_from (checked : Bool) {l : List UInt64} {acc : UInt64}
    (h : acc.toNat + (l.map UInt64.toNat).sum < 2 ^ 64) : ∃ total, l.foldlM (usizeAdd checked) acc = some total := by
  induction l generalizing acc with
  | nil => exact ⟨acc, rfl⟩
  | cons c l ih =>
    rw [List.map_cons, List.sum_cons, ← Nat.add_assoc] at h
    have hsmall : acc.toNat + c.toNat < 2 ^ 64 := by omega
    rw [List.foldlM_cons, usizeAdd_of_lt hsmall]
    exact ih (by rwa [toNat_add_of_lt hsmall])

/-! ## What an eviction demotes -/

/-- The first nodes of the list go, and the last of them went because the count was still too high. -/
theorem evictFrom_eq (l : List (Str × ScheduledNode F)) (hotTokens : UInt64) (s : ContextScheduler F) (evicted : Nat) :
    ∃ out kept, l = out ++ kept ∧
      evictFrom l hotTokens s evicted =
        (out.foldl (fun s e => s.setZone e.1 .warm) s, evicted + out.length) ∧
      (kept = [] ∨ hotTokens.toNat - (costs out).sum ≤ s.tokenBudget.toNat) ∧
      ∀ before e, out = before ++ [e] → s.tokenBudget.toNat < hotTokens.toNat - (costs before).sum := by
  induction l generalizing hotTokens s evicted with
  | nil => exact ⟨[], [], rfl, rfl, .inl rfl, fun before e h => absurd h.symm (by simp)⟩
  | cons e rest ih =>
    rw [evictFrom]
    split
    · rename_i hle
      rw [UInt64.le_iff_toNat_le] at hle
      exact ⟨[], e :: rest, rfl, rfl, .inr hle, fun before e h => absurd h.symm (by simp)⟩
    · rename_i hlt
      rw [UInt64.le_iff_toNat_le, Nat.not_le] at hlt
      obtain ⟨out, kept, hl, hrun, hkept, hlast⟩ :=
        ih (saturatingSub hotTokens e.2.tokenCost) (s.setZone e.1 .warm) (evicted + 1)
      rw [toNat_saturatingSub] at hkept hlast
      refine ⟨e :: out, kept, by rw [hl, List.cons_append], ?_, ?_, ?_⟩
      · rw [hrun, List.foldl_cons, List.length_cons, Nat.add_assoc, Nat.add_comm 1]
      · refine hkept.imp_right fun hle => ?_
        rw [costs, List.map_cons, List.sum_cons, ← Nat.sub_sub]
        exact hle
      · intro before d heq
        cases before with
        | nil => exact hlt
        | cons d' before =>
          obtain ⟨rfl, htail⟩ := List.cons.inj heq
          rw [costs, List.map_cons, List.sum_cons, ← Nat.sub_sub]
          exact hlast before d htail

theorem nodes_demoted (out : List (Str × ScheduledNode F)) (s : ContextScheduler F) :
    (out.foldl (fun s e => s.setZone e.1 .warm) s).nodes =
      s.nodes.map fun e => if e.1 ∈ out.map Prod.fst then rezone .warm e else e := by
  induction out generalizing s with
  | nil =>
    conv_lhs => rw [List.foldl_nil, ← List.map_id s.nodes]
    exact List.map_congr_left fun e _ => (if_neg List.not_mem_nil).symm
  | cons d out ih =>
    rw [List.foldl_cons, ih]
    change (s.nodes.map _).map _ = _
    rw [List.map_map]
    refine List.map_congr_left fun e _ => ?_
    dsimp only [Function.comp]
    by_cases hd : e.1 = d.1
    · simp only [hd, if_true, List.map_cons, List.mem_cons, true_or]
      split <;> rfl
    · simp only [hd, if_false, List.map_cons, List.mem_cons, false_or]

theorem frame_demoted (out : List (Str × ScheduledNode F)) (s : ContextScheduler F) :
    (out.foldl (fun s e => s.setZone e.1 .warm) s).tokenBudget = s.tokenBudget ∧
      (out.foldl (fun s e => s.setZone e.1 .warm) s).warmRatio = s.warmRatio := by
  induction out generalizing s with
  | nil => exact ⟨rfl, rfl⟩
  | cons d out ih => exact ih (s.setZone d.1 .warm)

theorem perm_demoted (out : List (Str × ScheduledNode F)) {s : ContextScheduler F}
    {done kept : List (Str × ScheduledNode F)} (h : s.nodes.Perm (done ++ (out ++ kept))) :
    (out.foldl (fun s e => s.setZone e.1 .warm) s).nodes.Perm ((done ++ out.map (rezone .warm)) ++ kept) := by
  induction out generalizing s done with
  | nil => simpa using h
  | cons e out ih =>
    have hnext := ih (perm_setZone h .warm)
    rwa [List.append_assoc done, List.singleton_append, ← List.map_cons] at hnext
/-- The HOT nodes of a list that holds no other. -/
theorem tierCost_of_forall {z z' : MemoryZone} {l : List (Str × ScheduledNode F)}
    (h : ∀ e ∈ l, e.2.memoryZone = z') : tierCost z l = if z' = z then (costs l).sum else 0 := by
  unfold tierCost
  split
  · rename_i heq
    rw [List.filter_eq_self.mpr fun e he => by simp [h e he, heq]]
  · rename_i hne
    rw [List.filter_eq_nil_iff.mpr fun e he => by simp [h e he, hne]]
    rfl

section Claim

variable [UsizeFloat64 F]

theorem perm_hotByPriority (s : ContextScheduler F) :
    s.hotByPriority.Perm (s.nodes.filter fun e => e.2.memoryZone = .hot) := perm_sortBy _ _

theorem hot_of_mem {s : ContextScheduler F} {e : Str × ScheduledNode F} (h : e ∈ s.hotByPriority) :
    e ∈ s.nodes ∧ e.2.memoryZone = .hot := by
  simpa using s.perm_hotByPriority.mem_iff.mp h

/-- What an eviction is to leave, when it demotes the nodes of the ids. -/
structure Demoted (s s' : ContextScheduler F) (ids : List Str) : Prop where
  budget : s'.tokenBudget = s.tokenBudget
  ratio : s'.warmRatio = s.warmRatio
  nodes : s'.nodes = s.nodes.map fun e => if e.1 ∈ ids then rezone .warm e else e
  distinct : ids.Nodup
  hot : ∀ id ∈ ids, id ∈ s.zone .hot
  lowest : ∀ d ∈ s.nodes, d.1 ∈ ids → ∀ k ∈ s'.nodes, k.2.memoryZone = .hot →
    Scalar.gt d.2.priorityScore k.2.priorityScore = false
  fits : tierCost .hot s'.nodes ≤ s.tokenBudget.toNat

/-- No priority is NaN. -/
def Ranked (s : ContextScheduler F) : Prop := ∀ e ∈ s.nodes, Scalar.isNan e.2.priorityScore = false

theorem hotByPriority_pairwise [PlacedFloat64 F] {s : ContextScheduler F} (hs : s.Ranked) :
    s.hotByPriority.Pairwise fun a b => Scalar.gt a.2.priorityScore b.2.priorityScore = false := by
  have hplace : ∀ e ∈ s.nodes.filter fun e => e.2.memoryZone = .hot,
      ∃ x, PlacedFloat64.place e.2.priorityScore = some x := by
    intro e he
    refine Option.ne_none_iff_exists'.mp fun hnone => ?_
    have hnan := hs e (List.mem_of_mem_filter he)
    rw [(isNan_iff_place _).mpr hnone] at hnan
    cases hnan
  have hkeys : s.hotByPriority.Pairwise fun a b =>
      (PlacedFloat64.place a.2.priorityScore).getD 0 ≤ (PlacedFloat64.place b.2.priorityScore).getD 0 := by
    refine pairwise_sortBy_of (fun a ha b hb hle => ?_) fun a ha b hb hgt => ?_
    · obtain ⟨x, hx⟩ := hplace a ha
      obtain ⟨y, hy⟩ := hplace b hb
      simp only [PlacedFloat64.partialCmp_eq, hx, hy, Option.bind_some, Option.map_some, Option.getD_some] at hle ⊢
      by_contra hlt
      rw [compare_gt_iff_gt.mpr (not_le.mp hlt)] at hle
      cases hle
    · obtain ⟨x, hx⟩ := hplace a ha
      obtain ⟨y, hy⟩ := hplace b hb
      simp only [PlacedFloat64.partialCmp_eq, hx, hy, Option.bind_some, Option.map_some, Option.getD_some] at hgt ⊢
      by_contra hlt
      rw [compare_lt_iff_lt.mpr (not_le.mp hlt)] at hgt
      cases hgt
  refine hkeys.imp_of_mem fun {a b} ha hb hle => ?_
  obtain ⟨x, hx⟩ := hplace a (s.perm_hotByPriority.mem_iff.mp ha)
  obtain ⟨y, hy⟩ := hplace b (s.perm_hotByPriority.mem_iff.mp hb)
  rw [hx, hy, Option.getD_some, Option.getD_some] at hle
  by_contra hgt
  obtain ⟨x', y', hx', hy', hlt⟩ := (gt_iff_place _ _).mp (by simpa using hgt)
  rw [hx] at hx'
  rw [hy] at hy'
  cases hx'
  cases hy'
  exact absurd hle (not_le.mpr hlt)

/-- The zones after the nodes at the front of the list went. -/
theorem zones_demoted {s : ContextScheduler F} {out kept : List (Str × ScheduledNode F)}
    (hsplit : s.hotByPriority = out ++ kept) :
    (∀ k ∈ (out.foldl (fun s e => s.setZone e.1 .warm) s).nodes, k.2.memoryZone = .hot → k ∈ kept) ∧
      tierCost .hot (out.foldl (fun s e => s.setZone e.1 .warm) s).nodes = (costs kept).sum := by
  let others := s.nodes.filter fun e => !decide (e.2.memoryZone = .hot)
  have hothers : ∀ e ∈ others, e.2.memoryZone ≠ .hot := fun e he => by simpa [others] using (List.mem_filter.mp he).2
  have hkept : ∀ e ∈ kept, e.2.memoryZone = .hot := fun e he =>
    (hot_of_mem (hsplit ▸ List.mem_append_right out he)).2
  have hnodes : s.nodes.Perm (others ++ (out ++ kept)) := by
    rw [← hsplit]
    refine (List.filter_append_perm (fun e => decide (e.2.memoryZone = .hot)) s.nodes).symm.trans ?_
    exact List.perm_append_comm.trans (s.perm_hotByPriority.symm.append_left others)
  have hperm := perm_demoted out hnodes
  constructor
  · intro k hk hhot
    rcases List.mem_append.mp (hperm.mem_iff.mp hk) with hk | hk
    · rcases List.mem_append.mp hk with hk | hk
      · exact absurd hhot (hothers k hk)
      · obtain ⟨e, -, rfl⟩ := List.mem_map.mp hk
        cases hhot
    · exact hk
  · have hnone : tierCost .hot others = 0 := by
      rw [tierCost, List.filter_eq_nil_iff.mpr fun e he => by simpa using hothers e he]
      rfl
    have hrezoned : ∀ e ∈ out.map (rezone .warm), e.2.memoryZone = .warm := fun e he => by
      obtain ⟨d, -, rfl⟩ := List.mem_map.mp he
      rfl
    have hwarm : tierCost .hot (out.map (rezone .warm)) = 0 := by
      rw [tierCost_of_forall hrezoned, if_neg (by decide)]
    rw [tierCost_perm _ hperm, tierCost_append, tierCost_append, hnone, hwarm, tierCost_of_forall hkept, if_pos rfl,
      Nat.zero_add]

theorem demoted_iff [PlacedFloat64 F] {s : ContextScheduler F} (hs : s.Ranked) {out kept : List (Str × ScheduledNode F)}
    (hsplit : s.hotByPriority = out ++ kept) :
    Demoted s (out.foldl (fun s e => s.setZone e.1 .warm) s) (out.map Prod.fst) ↔
      (costs kept).sum ≤ s.tokenBudget.toNat := by
  obtain ⟨hhot, hcost⟩ := zones_demoted hsplit
  refine ⟨fun h => hcost ▸ h.fits, fun hle => ?_⟩
  have hkeys : (s.hotByPriority.map Prod.fst).Nodup := by
    rw [(s.perm_hotByPriority.map Prod.fst).nodup_iff]
    exact s.nodup.sublist (List.filter_sublist.map Prod.fst)
  have hout : ∀ e ∈ out, e ∈ s.nodes ∧ e.2.memoryZone = .hot := fun e he =>
    hot_of_mem (hsplit ▸ List.mem_append_left kept he)
  exact {
    budget := (frame_demoted out s).1
    ratio := (frame_demoted out s).2
    nodes := nodes_demoted out s
    distinct := by
      rw [hsplit, List.map_append] at hkeys
      exact (List.nodup_append.mp hkeys).1
    hot := by
      intro id hid
      obtain ⟨e, he, rfl⟩ := List.mem_map.mp hid
      rw [zone, mem_sortBy]
      exact List.mem_map_of_mem (List.mem_filter.mpr ⟨(hout e he).1, by simpa using (hout e he).2⟩)
    lowest := by
      intro d hd hid k hk hzone
      obtain ⟨e, he, heq⟩ := List.mem_map.mp hid
      obtain rfl := List.inj_on_of_nodup_map s.nodup (hout e he).1 hd heq
      have hpairs := hotByPriority_pairwise hs
      rw [hsplit] at hpairs
      exact (List.pairwise_append.mp hpairs).2.2 e he k (hhot k hk hzone)
    fits := hcost ▸ hle }

theorem evictContext_iff [PlacedFloat64 F] (checked : Bool) {s : ContextScheduler F} (hs : s.Ranked) :
    (∃ s' ids, s.evictContext checked = some (s', ids.length) ∧ Demoted s s' ids) ↔
      tierCost .hot s.nodes < 2 ^ 64 := by
  have hsum : ((s.hotByPriority.map fun e => e.2.tokenCost).map UInt64.toNat).sum = tierCost .hot s.nodes := by
    rw [List.map_map]
    exact (s.perm_hotByPriority.map _).sum_eq
  have hcosts : tierCost .hot s.nodes = (costs s.hotByPriority).sum := (s.perm_hotByPriority.map _).sum_eq.symm
  have hlength : ∀ out : List (Str × ScheduledNode F), 0 + out.length = (out.map Prod.fst).length := fun out => by
    rw [Nat.zero_add, List.length_map]
  have hbudget := s.tokenBudget.toNat_lt
  constructor
  · rintro ⟨s', ids, hevict, hdemoted⟩
    obtain ⟨hotTokens, htotal, heq⟩ := Option.bind_eq_some_iff.mp hevict
    obtain ⟨hmod, -⟩ := usizeSum_from htotal
    rw [hsum, UInt64.toNat_zero, Nat.zero_add] at hmod
    obtain ⟨out, kept, hsplit, hrun, -, hlast⟩ := evictFrom_eq s.hotByPriority hotTokens s 0
    rw [hrun] at heq
    obtain ⟨rfl, -⟩ := Prod.mk.inj (Option.some.inj heq)
    have hkept := hdemoted.fits
    rw [(zones_demoted hsplit).2] at hkept
    rw [hsplit, costs, List.map_append, List.sum_append] at hcosts
    by_contra hover
    -- The count is short of the costs by at least the numbers of the machine, and no last node makes up for that.
    rcases List.eq_nil_or_concat' out with rfl | ⟨before, e, rfl⟩
    · simp only [List.map_nil, List.sum_nil, Nat.zero_add] at hcosts
      have hle : tierCost .hot s.nodes ≤ s.tokenBudget.toNat := hcosts ▸ hkept
      omega
    · have hbefore := hlast before e rfl
      have hcost := e.2.tokenCost.toNat_lt
      have hsplitSum : ((before ++ [e]).map fun e => e.2.tokenCost.toNat).sum =
          (costs before).sum + e.2.tokenCost.toNat := by
        simp [costs]
      have hkeptSum : (kept.map fun e => e.2.tokenCost.toNat).sum ≤ s.tokenBudget.toNat := hkept
      omega
  · intro hfits
    obtain ⟨hotTokens, htotal⟩ : ∃ total, usizeSum checked (s.hotByPriority.map fun e => e.2.tokenCost) = some total :=
      exists_usizeSum_from checked (by rwa [hsum, UInt64.toNat_zero, Nat.zero_add])
    obtain ⟨hmod, -⟩ := usizeSum_from htotal
    rw [hsum, UInt64.toNat_zero, Nat.zero_add, Nat.mod_eq_of_lt hfits] at hmod
    obtain ⟨out, kept, hsplit, hrun, hkept, -⟩ := evictFrom_eq s.hotByPriority hotTokens s 0
    refine ⟨_, out.map Prod.fst, ?_, (demoted_iff hs hsplit).mpr ?_⟩
    · exact Option.bind_eq_some_iff.mpr ⟨hotTokens, htotal, by rw [hrun, hlength]⟩
    · rw [hsplit, costs, List.map_append, List.sum_append] at hcosts
      rcases hkept with rfl | hle
      · exact Nat.zero_le _
      · have hsame : (costs kept).sum = hotTokens.toNat - (costs out).sum := by
          rw [hmod, hcosts]
          exact (Nat.add_sub_cancel_left _ _).symm
        rwa [hsame]

/-! ## Both budgets -/

/-- Each packing and the eviction return, and leave the zones within the budgets. -/
structure KeepsBudgets (checked : Bool) (s : ContextScheduler F) : Prop where
  allocate : ∃ s' stats, s.allocateContext checked = some (s', stats) ∧ Packed s s' stats
  optimize : ∃ s' stats, s.optimizeBudget checked = some (s', stats) ∧ Packed s s' stats
  evict : ∃ s' ids, s.evictContext checked = some (s', ids.length) ∧ Demoted s s' ids

theorem keepsBudgets_iff [PlacedFloat64 F] (checked : Bool) (s : ContextScheduler F) (hs : s.Ranked) :
    KeepsBudgets checked s ↔
      (checked = true → s.extendedBudget < 2 ^ 64) ∧
        NoOverflow s.room (costs s.orderedByPriority) ∧
        NoOverflow s.tokenBudget.toNat (costs s.orderedByDensity) ∧
        tierCost .hot s.nodes < 2 ^ 64 ∧
        Spared s.tokenBudget.toNat s.room (costs s.orderedByDensity) := by
  have hallocate := packWith_iff checked true (perm_sortBy _ _ : s.orderedByPriority.Perm s.nodes)
  have hoptimize := packWith_iff checked false (perm_sortBy _ _ : s.orderedByDensity.Perm s.nodes)
  have hevict := evictContext_iff checked hs
  constructor
  · rintro ⟨hall, hopt, hev⟩
    obtain ⟨hextended, hpriority, -⟩ := hallocate.mp hall
    obtain ⟨-, hdensity, hspared⟩ := hoptimize.mp hopt
    exact ⟨hextended, hpriority, hdensity, hevict.mp hev, hspared rfl⟩
  · rintro ⟨hextended, hpriority, hdensity, hhot, hspared⟩
    exact ⟨hallocate.mpr ⟨hextended, hpriority, nofun⟩, hoptimize.mpr ⟨hextended, hdensity, fun _ => hspared⟩,
      hevict.mpr hhot⟩

end Claim

instance : UsizeFloat64 ℚ where
  toUsize q := UInt64.ofNat (min q.floor.toNat (2 ^ 64 - 1))

def coldNode (cost : UInt64) (priority : ℚ) : ScheduledNode ℚ := ⟨cost, priority, .cold⟩

/-- A HOT node, a WARM one that is not charged, and a HOT one after it. -/
def unchargedWarm : ContextScheduler ℚ where
  tokenBudget := 10
  warmRatio := 1 / 2
  nodes := [("a".toList, coldNode 6 18), ("b".toList, coldNode 9 18), ("c".toList, coldNode 4 4)]
  nodup := by decide

theorem unchargedWarm_passes : ¬ KeepsBudgets true unchargedWarm := by
  rintro ⟨-, ⟨s', stats, hrun, hpacked⟩, -⟩
  have hspent : (unchargedWarm.optimizeBudget true).map (fun r => tierCost .hot r.1.nodes + tierCost .warm r.1.nodes) =
      some 19 := by
    decide +kernel
  have hextended : unchargedWarm.extendedBudget = 15 := by decide +kernel
  rw [hrun] at hspent
  have hboth := hpacked.both_le
  have hsum : tierCost .hot s'.nodes + tierCost .warm s'.nodes = 19 := Option.some.inj hspent
  omega

def twoNodes : ContextScheduler ℚ where
  tokenBudget := 10
  warmRatio := 1 / 2
  nodes := [("a".toList, coldNode 6 18), ("b".toList, coldNode 9 18)]
  nodup := by decide

theorem noOverflow_of_small {limit : Nat} {l : List Nat} (h : ∀ c ∈ l, limit + c < 2 ^ 64) : NoOverflow limit l := by
  rintro before c after rfl
  have hle := filled_le limit before
  have hc := h c (List.mem_append_right _ List.mem_cons_self)
  omega

theorem twoNodes_keepsBudgets : KeepsBudgets true twoNodes :=
  (keepsBudgets_iff true twoNodes (by unfold Ranked; decide +kernel)).mpr ⟨fun _ => by decide +kernel,
    noOverflow_of_small (by decide +kernel), noOverflow_of_small (by decide +kernel), by decide +kernel,
    (spared_iff _ _ _).mpr (by decide +kernel)⟩

end ContextScheduler

end Ccos
