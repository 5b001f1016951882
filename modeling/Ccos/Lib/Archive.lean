import Mathlib.Logic.Function.Basic
import Mathlib.Data.List.Nodup
import Mathlib.Data.List.Perm.Basic
import Mathlib.Tactic.Linarith

/-!
# Vertices that leave with their links

A vertex that leaves takes the links it touches to its own shelf. When it comes back, the links of
its shelf join again whose two ends are there, unless a link of that key is there already. A link
between two absent vertices lies on the shelf of the one that left first, so what comes back depends
on the order.
-/

set_option linter.unusedSectionVars false

namespace Archive

/-- How links attach: two ends, and a key that fixes them. -/
structure Shape (V E K : Type) where
  src : E → V
  tgt : E → V
  key : E → K
  src_of_key : ∀ e e', key e = key e' → src e = src e'
  tgt_of_key : ∀ e e', key e = key e' → tgt e = tgt e'

/-- The vertices that are there with their payload, the links, and the shelves. -/
structure State (V E P : Type) where
  present : V → Option P
  links : List E
  shelf : V → Option (P × List E)

variable {V E K P : Type} [DecidableEq V] [DecidableEq K] (S : Shape V E K)

namespace Shape

def touches (e : E) (v : V) : Bool := S.src e == v || S.tgt e == v

/-- The other end of a link that touches `v`. -/
def other (e : E) (v : V) : V := if S.src e = v then S.tgt e else S.src e

variable {S}

theorem touches_iff {e : E} {v : V} : S.touches e v ↔ S.src e = v ∨ S.tgt e = v := by
  simp [touches]

theorem touches_of_key {e e' : E} (h : S.key e = S.key e') (v : V) : S.touches e v = S.touches e' v := by
  rw [touches, touches, S.src_of_key e e' h, S.tgt_of_key e e' h]

theorem other_of_key {e e' : E} (h : S.key e = S.key e') (v : V) : S.other e v = S.other e' v := by
  rw [other, other, S.src_of_key e e' h, S.tgt_of_key e e' h]

/-- A vertex that a link touches is one of any two that name its ends. -/
theorem eq_or_eq_other {e : E} {v u : V} (hv : S.touches e v) (hu : S.touches e u) :
    u = v ∨ u = S.other e v := by
  rw [touches_iff] at hv hu
  unfold other
  split
  · rename_i hs
    rcases hu with hu | hu
    · exact Or.inl (hu.symm.trans hs)
    · exact Or.inr hu.symm
  · rename_i hs
    rcases hu with hu | hu
    · exact Or.inr hu.symm
    · exact Or.inl (hu.symm.trans (hv.resolve_left hs))

end Shape

namespace State

/-- Both ends of a link are there. -/
def joins (present : V → Option P) (e : E) : Bool :=
  (present (S.src e)).isSome && (present (S.tgt e)).isSome

def evict (s : State V E P) (v : V) : State V E P :=
  match s.present v with
  | none => s
  | some p =>
    { present := Function.update s.present v none
      links := s.links.filter (!S.touches · v)
      shelf := Function.update s.shelf v (some (p, s.links.filter (S.touches · v))) }

def relink (present : V → Option P) (links shelved : List E) : List E :=
  shelved.foldl
    (fun links e =>
      if joins S present e && !links.any (fun x => decide (S.key x = S.key e)) then links ++ [e] else links)
    links

def restore (s : State V E P) (v : V) : State V E P :=
  match s.shelf v with
  | none => s
  | some (p, shelved) =>
    { present := Function.update s.present v (some p)
      links := relink S (Function.update s.present v (some p)) s.links shelved
      shelf := Function.update s.shelf v none }

/-- Every link joins vertices that are there. -/
def Joined (s : State V E P) : Prop := ∀ e ∈ s.links, joins S s.present e

/-- The links on the shelf of `v`. -/
def shelved (s : State V E P) (v : V) : List E := ((s.shelf v).map (·.2)).getD []

variable {S}

theorem joins_iff {present : V → Option P} {e : E} :
    joins S present e ↔ (present (S.src e)).isSome ∧ (present (S.tgt e)).isSome := by
  simp [joins]

/-! ## Joining shelved links again -/

theorem relink_cons (present : V → Option P) (links : List E) (e : E) (shelved : List E) :
    relink S present links (e :: shelved) = relink S present
      (if joins S present e && !links.any (fun x => decide (S.key x = S.key e)) then links ++ [e]
        else links) shelved := rfl

theorem mem_of_mem_relink {present : V → Option P} {links shelved : List E} {e : E}
    (he : e ∈ relink S present links shelved) : e ∈ links ∨ (e ∈ shelved ∧ joins S present e) := by
  induction shelved generalizing links with
  | nil => exact Or.inl he
  | cons a shelved ih =>
    rw [relink_cons] at he
    rcases ih he with hmem | ⟨hmem, hjoins⟩
    · split at hmem
      · rename_i hcond
        rw [List.mem_append, List.mem_singleton] at hmem
        rcases hmem with hmem | rfl
        · exact Or.inl hmem
        · rw [Bool.and_eq_true] at hcond
          exact Or.inr ⟨List.mem_cons_self, hcond.1⟩
      · exact Or.inl hmem
    · exact Or.inr ⟨List.mem_cons_of_mem a hmem, hjoins⟩

theorem mem_relink_of_mem {present : V → Option P} {links : List E} (shelved : List E) {e : E}
    (he : e ∈ links) : e ∈ relink S present links shelved := by
  induction shelved generalizing links with
  | nil => exact he
  | cons a shelved ih =>
    rw [relink_cons]
    refine ih ?_
    split
    · exact List.mem_append_left _ he
    · exact he

/-- A shelved link whose ends are there is back, or another one of its key is there. -/
theorem exists_key_relink {present : V → Option P} (links : List E) {shelved : List E} {e : E}
    (he : e ∈ shelved) (hjoins : joins S present e) :
    ∃ e' ∈ relink S present links shelved, S.key e' = S.key e := by
  induction shelved generalizing links with
  | nil => cases he
  | cons a shelved ih =>
    rw [relink_cons]
    rcases List.mem_cons.mp he with rfl | he
    · by_cases hany : links.any (fun x => decide (S.key x = S.key e))
      · obtain ⟨e', he', hkey⟩ := List.any_eq_true.mp hany
        refine ⟨e', mem_relink_of_mem _ ?_, by simpa using hkey⟩
        simp [hany, he']
      · refine ⟨e, mem_relink_of_mem _ ?_, rfl⟩
        simp [hjoins, hany]
    · exact ih _ he

/-- Joining again never doubles a key. -/
theorem key_unique_relink {present : V → Option P} {links shelved : List E} {v : V}
    (hunique : ∀ e ∈ links, ∀ e' ∈ links, S.key e = S.key e' → S.touches e v → e = e') :
    ∀ e ∈ relink S present links shelved, ∀ e' ∈ relink S present links shelved,
      S.key e = S.key e' → S.touches e v → e = e' := by
  induction shelved generalizing links with
  | nil => exact hunique
  | cons a shelved ih =>
    rw [relink_cons]
    refine ih ?_
    split
    · rename_i hcond
      have hnew : ∀ x ∈ links, S.key x ≠ S.key a := by
        intro x hx hkey
        simp only [Bool.and_eq_true, Bool.not_eq_true', List.any_eq_false, decide_eq_true_eq] at hcond
        exact hcond.2 x hx hkey
      intro e he e' he' hkey htouch
      rw [List.mem_append, List.mem_singleton] at he he'
      rcases he with he | rfl <;> rcases he' with he' | rfl
      · exact hunique e he e' he' hkey htouch
      · exact absurd hkey (hnew e he)
      · exact absurd hkey.symm (hnew e' he')
      · rfl
    · exact hunique

/-! ## Leaving -/

/-- What holds after the vertices `gone` have left the state `start`. -/
structure Evicted (S : Shape V E K) (start : State V E P) (gone : List V) (s : State V E P) : Prop where
  joined : s.Joined S
  absent : ∀ v ∈ gone, s.present v = none
  others : ∀ v, v ∉ gone → s.present v = start.present v
  payload : ∀ v ∈ gone, (s.shelf v).map (·.1) = start.present v
  links : ∀ e ∈ s.links, e ∈ start.links
  taken : ∀ v ∈ gone, ∀ e ∈ s.shelved v, e ∈ start.links ∧ S.touches e v
  covered : ∀ e ∈ start.links, e ∈ s.links ∨ ∃ v ∈ gone, e ∈ s.shelved v
  /-- A link that leads to a vertex that left later is not on the shelf of that one. -/
  later : ∀ v ∈ gone, ∀ e ∈ s.shelved v, S.other e v ≠ v → S.other e v ∈ gone →
    ∀ e' ∈ s.shelved (S.other e v), ¬ S.touches e' v

theorem touches_of_joined {s : State V E P} (hj : s.Joined S) {v : V} (hv : s.present v = none) {e : E}
    (he : e ∈ s.links) : ¬ S.touches e v := by
  intro htouch
  have hjoins := joins_iff.mp (hj e he)
  rw [Shape.touches_iff] at htouch
  rcases htouch with rfl | rfl
  · simp [hv] at hjoins
  · simp [hv] at hjoins

theorem touches_other (e : E) (v : V) : S.touches e (S.other e v) := by
  rw [Shape.touches_iff]
  unfold Shape.other
  split
  · exact Or.inr rfl
  · exact Or.inl rfl

theorem evicted_start {s : State V E P} (hj : s.Joined S) : Evicted S s [] s where
  joined := hj
  absent := by simp
  others := fun _ _ => rfl
  payload := by simp
  links := fun _ he => he
  taken := by simp
  covered := fun _ he => Or.inl he
  later := by simp

theorem Evicted.evict {start s : State V E P} {gone : List V} (h : Evicted S start gone s) {v : V}
    (hv : v ∉ gone) (hpres : (start.present v).isSome) : Evicted S start (v :: gone) (s.evict S v) := by
  obtain ⟨p, hp⟩ := Option.isSome_iff_exists.mp hpres
  have hsp : s.present v = some p := (h.others v hv).trans hp
  have hpresent : (s.evict S v).present = Function.update s.present v none := by simp only [State.evict, hsp]
  have hlinks : (s.evict S v).links = s.links.filter (!S.touches · v) := by simp only [State.evict, hsp]
  have hself : (s.evict S v).shelf v = some (p, s.links.filter (S.touches · v)) := by
    simp only [State.evict, hsp, Function.update_self]
  have hshelf : ∀ u, u ≠ v → (s.evict S v).shelf u = s.shelf u := by
    intro u hu
    simp only [State.evict, hsp, Function.update_of_ne hu]
  have hownShelf : (s.evict S v).shelved v = s.links.filter (S.touches · v) := by simp [shelved, hself]
  have hshelved : ∀ u, u ≠ v → (s.evict S v).shelved u = s.shelved u := by
    intro u hu
    rw [shelved, shelved, hshelf u hu]
  have hne : ∀ u ∈ gone, u ≠ v := by
    rintro u hu rfl
    exact hv hu
  refine ⟨?_, ?_, ?_, ?_, ?_, ?_, ?_, ?_⟩
  · intro e he
    rw [hlinks, List.mem_filter, Bool.not_eq_true'] at he
    have hjoins := joins_iff.mp (h.joined e he.1)
    have hout : ¬ S.touches e v := by simp [he.2]
    rw [Shape.touches_iff, not_or] at hout
    rw [hpresent, joins_iff, Function.update_of_ne hout.1, Function.update_of_ne hout.2]
    exact hjoins
  · intro u hu
    rw [hpresent]
    rcases List.mem_cons.mp hu with rfl | hu
    · exact Function.update_self ..
    · rw [Function.update_of_ne (hne u hu)]
      exact h.absent u hu
  · intro u hu
    rw [List.mem_cons, not_or] at hu
    rw [hpresent, Function.update_of_ne hu.1]
    exact h.others u hu.2
  · intro u hu
    rcases List.mem_cons.mp hu with rfl | hu
    · rw [hself, hp, Option.map_some]
    · rw [hshelf u (hne u hu)]
      exact h.payload u hu
  · intro e he
    rw [hlinks, List.mem_filter] at he
    exact h.links e he.1
  · intro u hu e he
    rcases List.mem_cons.mp hu with rfl | hu
    · rw [hownShelf, List.mem_filter] at he
      exact ⟨h.links e he.1, he.2⟩
    · rw [hshelved u (hne u hu)] at he
      exact h.taken u hu e he
  · intro e he
    rcases h.covered e he with hmem | ⟨u, hu, hmem⟩
    · by_cases htouch : S.touches e v
      · refine Or.inr ⟨v, List.mem_cons_self, ?_⟩
        rw [hownShelf]
        exact List.mem_filter.mpr ⟨hmem, htouch⟩
      · refine Or.inl ?_
        rw [hlinks, List.mem_filter]
        exact ⟨hmem, by simpa using htouch⟩
    · refine Or.inr ⟨u, List.mem_cons_of_mem v hu, ?_⟩
      rwa [hshelved u (hne u hu)]
  · intro u hu e he hother hmem e' he'
    rcases List.mem_cons.mp hu with rfl | hu
    · -- The other end is still there, so it has not left.
      rw [hownShelf, List.mem_filter] at he
      have hin := (List.mem_cons.mp hmem).resolve_left hother
      exact absurd (touches_other e u) (touches_of_joined h.joined (h.absent _ hin) he.1)
    · rw [hshelved u (hne u hu)] at he
      by_cases hov : S.other e u = v
      · -- The shelf of `v` is made of links that join vertices still there, and `u` has left.
        rw [hov, hownShelf, List.mem_filter] at he'
        exact touches_of_joined h.joined (h.absent u hu) he'.1
      · rw [hshelved _ hov] at he'
        exact h.later u hu e he hother ((List.mem_cons.mp hmem).resolve_left hov) e' he'

theorem evicted_foldl {start s : State V E P} {gone : List V} (h : Evicted S start gone s)
    (vs : List V) (hnd : vs.Nodup) (hnew : ∀ v ∈ vs, v ∉ gone)
    (hpres : ∀ v ∈ vs, (start.present v).isSome) :
    ∃ all : List V, (∀ v, v ∈ all ↔ v ∈ gone ∨ v ∈ vs) ∧ Evicted S start all (vs.foldl (evict S) s) := by
  induction vs generalizing s gone with
  | nil => exact ⟨gone, by simp, h⟩
  | cons v vs ih =>
    rw [List.nodup_cons] at hnd
    rw [List.forall_mem_cons] at hnew hpres
    have hnew' : ∀ u ∈ vs, u ∉ v :: gone := by
      intro u hu hmem
      rcases List.mem_cons.mp hmem with rfl | hmem
      · exact hnd.1 hu
      · exact hnew.2 u hu hmem
    obtain ⟨all, hall, hev⟩ := ih (h.evict hnew.1 hpres.1) hnd.2 hnew' hpres.2
    refine ⟨all, fun u => ?_, hev⟩
    rw [hall, List.mem_cons, List.mem_cons]
    tauto

/-! ## Coming back -/

theorem restore_of_shelf {s : State V E P} {v : V} {p : P} {es : List E} (h : s.shelf v = some (p, es)) :
    s.restore S v =
      { present := Function.update s.present v (some p)
        links := relink S (Function.update s.present v (some p)) s.links es
        shelf := Function.update s.shelf v none } := by
  simp only [restore, h]

theorem restore_shelf_of_ne (s : State V E P) {v u : V} (h : u ≠ v) :
    (s.restore S v).shelf u = s.shelf u := by
  unfold restore
  split
  · rfl
  · exact Function.update_of_ne h _ _

theorem restore_present_of_ne (s : State V E P) {v u : V} (h : u ≠ v) :
    (s.restore S v).present u = s.present u := by
  unfold restore
  split
  · rfl
  · exact Function.update_of_ne h _ _

theorem mem_restore_links {s : State V E P} (v : V) {e : E} (he : e ∈ s.links) :
    e ∈ (s.restore S v).links := by
  unfold restore
  split
  · exact he
  · exact mem_relink_of_mem _ he

theorem foldl_restore_shelf {order : List V} {v : V} (h : v ∉ order) (s : State V E P) :
    (order.foldl (restore S) s).shelf v = s.shelf v := by
  induction order generalizing s with
  | nil => rfl
  | cons u order ih =>
    rw [List.mem_cons, not_or] at h
    rw [List.foldl_cons, ih h.2, restore_shelf_of_ne s h.1]

theorem foldl_restore_present {order : List V} {v : V} (h : v ∉ order) (s : State V E P) :
    (order.foldl (restore S) s).present v = s.present v := by
  induction order generalizing s with
  | nil => rfl
  | cons u order ih =>
    rw [List.mem_cons, not_or] at h
    rw [List.foldl_cons, ih h.2, restore_present_of_ne s h.1]

/-- A vertex that comes back has the payload of its shelf. -/
theorem foldl_restore_present_of_mem {order : List V} (hnd : order.Nodup) {v : V} (hv : v ∈ order)
    {s : State V E P} {p : P} {es : List E} (hs : s.shelf v = some (p, es)) :
    (order.foldl (restore S) s).present v = some p := by
  induction order generalizing s with
  | nil => cases hv
  | cons u order ih =>
    rw [List.nodup_cons] at hnd
    rw [List.foldl_cons]
    rcases List.mem_cons.mp hv with rfl | hv
    · rw [foldl_restore_present hnd.1, restore_of_shelf hs]
      exact Function.update_self ..
    · have hne : v ≠ u := fun heq => hnd.1 (heq ▸ hv)
      exact ih hnd.2 hv ((restore_shelf_of_ne s hne).trans hs)

theorem mem_foldl_restore_links {s : State V E P} (order : List V) {e : E} (he : e ∈ s.links) :
    e ∈ (order.foldl (restore S) s).links := by
  induction order generalizing s with
  | nil => exact he
  | cons u order ih => exact ih (mem_restore_links u he)

omit [DecidableEq V] in
theorem nodup_middle {before after : List V} {v : V} (hnd : (before ++ v :: after).Nodup) :
    v ∉ before ∧ v ∉ after ∧ ∀ w ∈ after, w ∉ before := by
  rw [List.nodup_append, List.nodup_cons] at hnd
  refine ⟨fun hv => hnd.2.2 v hv v List.mem_cons_self rfl, hnd.2.1.1, fun w hw hb => ?_⟩
  exact hnd.2.2 w hb w (List.mem_cons_of_mem v hw) rfl

/-- A link after a restoration was there before, or came from a shelf, and then none of its ends was
still to come. -/
theorem mem_links_of_mem_foldl_restore {s : State V E P} {order : List V} (hnd : order.Nodup) {e : E}
    (he : e ∈ (order.foldl (restore S) s).links) :
    e ∈ s.links ∨ ∃ before v after, order = before ++ v :: after ∧ e ∈ s.shelved v ∧
      ∀ w ∈ after, S.touches e w → (s.present w).isSome := by
  induction order generalizing s with
  | nil => exact Or.inl he
  | cons u order ih =>
    rw [List.nodup_cons] at hnd
    rw [List.foldl_cons] at he
    rcases ih hnd.2 he with hmem | ⟨before, v, after, rfl, hmem, hlate⟩
    · cases hs : s.shelf u with
      | none =>
        simp only [restore, hs] at hmem
        exact Or.inl hmem
      | some pe =>
        obtain ⟨p, es⟩ := pe
        rw [restore_of_shelf hs] at hmem
        refine (mem_of_mem_relink hmem).imp_right ?_
        rintro ⟨hmem, hjoins⟩
        refine ⟨[], u, order, rfl, by simp [shelved, hs, hmem], ?_⟩
        intro w hw htouch
        have hne : w ≠ u := by
          rintro rfl
          exact hnd.1 hw
        rw [joins_iff] at hjoins
        rw [Shape.touches_iff] at htouch
        rcases htouch with rfl | rfl
        · simpa [Function.update_of_ne hne] using hjoins.1
        · simpa [Function.update_of_ne hne] using hjoins.2
    · rw [List.mem_append, List.mem_cons, not_or, not_or] at hnd
      refine Or.inr ⟨u :: before, v, after, rfl, ?_, ?_⟩
      · rwa [shelved, restore_shelf_of_ne s (Ne.symm hnd.1.2.1), ← shelved] at hmem
      · intro w hw htouch
        have hne : w ≠ u := by
          rintro rfl
          exact hnd.1.2.2 hw
        rw [← restore_present_of_ne (S := S) s hne]
        exact hlate w hw htouch

/-- A shelved link comes back with its vertex when its other end is there by then. -/
theorem exists_key_foldl_restore {s : State V E P} {before after : List V} {v : V} {p : P}
    (hnd : (before ++ v :: after).Nodup) (hv : ∀ u ∈ before, (s.shelf u).isSome) {es : List E}
    (hs : s.shelf v = some (p, es)) {e : E} (he : e ∈ es)
    (hends : ∀ w, S.touches e w → w = v ∨ w ∈ before ∨ (w ∉ before ∧ (s.present w).isSome)) :
    ∃ e' ∈ ((before ++ v :: after).foldl (restore S) s).links, S.key e' = S.key e := by
  have hbefore : before.Nodup := (List.nodup_append.mp hnd).1
  obtain ⟨hvb, -, -⟩ := nodup_middle hnd
  have hshelf : (before.foldl (restore S) s).shelf v = some (p, es) := (foldl_restore_shelf hvb s).trans hs
  have hpresent : ∀ w, S.touches e w →
      (Function.update (before.foldl (restore S) s).present v (some p) w).isSome := by
    intro w hw
    by_cases hwv : w = v
    · rw [hwv, Function.update_self]
      rfl
    · rw [Function.update_of_ne hwv]
      rcases (hends w hw).resolve_left hwv with hb | ⟨hb, hw⟩
      · obtain ⟨⟨q, qs⟩, hq⟩ := Option.isSome_iff_exists.mp (hv w hb)
        rw [foldl_restore_present_of_mem hbefore hb hq]
        rfl
      · rw [foldl_restore_present hb]
        exact hw
  have hjoins : joins S (Function.update (before.foldl (restore S) s).present v (some p)) e :=
    joins_iff.mpr ⟨hpresent _ (Shape.touches_iff.mpr (Or.inl rfl)),
      hpresent _ (Shape.touches_iff.mpr (Or.inr rfl))⟩
  rw [List.foldl_append, List.foldl_cons, restore_of_shelf hshelf]
  obtain ⟨e', he', hkey⟩ := exists_key_relink (before.foldl (restore S) s).links he hjoins
  exact ⟨e', mem_foldl_restore_links after he', hkey⟩

theorem key_unique_foldl_restore {s : State V E P} (order : List V) {v : V}
    (hunique : ∀ e ∈ s.links, ∀ e' ∈ s.links, S.key e = S.key e' → S.touches e v → e = e') :
    ∀ e ∈ (order.foldl (restore S) s).links, ∀ e' ∈ (order.foldl (restore S) s).links,
      S.key e = S.key e' → S.touches e v → e = e' := by
  induction order generalizing s with
  | nil => exact hunique
  | cons u order ih =>
    refine ih ?_
    unfold restore
    split
    · exact hunique
    · exact key_unique_relink hunique

/-! ## Out and back -/

/-- No vertex comes back before one that its shelved links lead to. -/
def InOrder (S : Shape V E K) (s : State V E P) (order : List V) : Prop :=
  ∀ before v after, order = before ++ v :: after → ∀ e ∈ s.shelved v, S.other e v ∉ after

/-- Links of one key that touch `gone` carry one mark. -/
def NoTwins {Q : Type} (S : Shape V E K) (s : State V E P) (gone : List V) (mark : E → Q) : Prop :=
  ∀ e ∈ s.links, ∀ e' ∈ s.links, S.key e = S.key e' → (∃ v ∈ gone, S.touches e v) → mark e = mark e'

section OutAndBack

variable {Q : Type} {start s : State V E P} {gone order : List V}

theorem Evicted.shelf_eq (h : Evicted S start gone s) (hpres : ∀ v ∈ gone, (start.present v).isSome)
    {v : V} (hv : v ∈ gone) : ∃ p, s.shelf v = some (p, s.shelved v) ∧ start.present v = some p := by
  have hpay := h.payload v hv
  obtain ⟨p, hp⟩ := Option.isSome_iff_exists.mp (hpres v hv)
  rw [hp, Option.map_eq_some_iff] at hpay
  obtain ⟨⟨q, es⟩, hs, rfl⟩ := hpay
  exact ⟨q, by rw [hs, shelved, hs]; rfl, hp⟩

theorem present_out_and_back (h : Evicted S start gone s) (hpres : ∀ v ∈ gone, (start.present v).isSome)
    (hnd : order.Nodup) (hmem : ∀ v, v ∈ order ↔ v ∈ gone) :
    (order.foldl (restore S) s).present = start.present := by
  funext v
  by_cases hv : v ∈ gone
  · obtain ⟨p, hs, hp⟩ := h.shelf_eq hpres hv
    rw [foldl_restore_present_of_mem hnd ((hmem v).mpr hv) hs, hp]
  · rw [foldl_restore_present (mt (hmem v).mp hv), h.others v hv]

theorem mem_start_of_out_and_back (h : Evicted S start gone s) (hnd : order.Nodup)
    (hmem : ∀ v, v ∈ order ↔ v ∈ gone) {e : E} (he : e ∈ (order.foldl (restore S) s).links) :
    e ∈ start.links := by
  rcases mem_links_of_mem_foldl_restore hnd he with hlink | ⟨before, v, after, rfl, hlink, -⟩
  · exact h.links e hlink
  · exact (h.taken v ((hmem v).mp (by simp)) e hlink).1

/-- Every link finds its way back when the order is right. -/
theorem exists_key_out_and_back (h : Evicted S start gone s)
    (hpres : ∀ v ∈ gone, (start.present v).isSome) (hjoined : start.Joined S) (hnd : order.Nodup)
    (hmem : ∀ v, v ∈ order ↔ v ∈ gone) (hord : InOrder S s order) {e : E} (he : e ∈ start.links) :
    ∃ e' ∈ (order.foldl (restore S) s).links, S.key e' = S.key e := by
  rcases h.covered e he with hlink | ⟨v, hv, hlink⟩
  · exact ⟨e, mem_foldl_restore_links order hlink, rfl⟩
  · obtain ⟨before, after, rfl⟩ := List.append_of_mem ((hmem v).mpr hv)
    obtain ⟨p, hs, -⟩ := h.shelf_eq hpres hv
    have htouch := (h.taken v hv e hlink).2
    have hshelves : ∀ u ∈ before, (s.shelf u).isSome := by
      intro u hu
      obtain ⟨q, hq, -⟩ := h.shelf_eq hpres ((hmem u).mp (List.mem_append_left _ hu))
      rw [hq]
      rfl
    refine exists_key_foldl_restore hnd hshelves hs hlink fun w hw => ?_
    rcases Shape.eq_or_eq_other htouch hw with rfl | rfl
    · exact Or.inl rfl
    · by_cases hgone : S.other e v ∈ gone
      · have horder := (hmem _).mpr hgone
        rw [List.mem_append, List.mem_cons] at horder
        have hlate := hord before v after rfl e hlink
        tauto
      · have hout : S.other e v ∉ before := fun hb =>
          hgone ((hmem _).mp (List.mem_append_left _ hb))
        refine Or.inr (Or.inr ⟨hout, ?_⟩)
        rw [h.others _ hgone]
        have hjoins := joins_iff.mp (hjoined e he)
        rcases Shape.touches_iff.mp hw with hw | hw
        · exact hw ▸ hjoins.1
        · exact hw ▸ hjoins.2

/-- A link whose vertex comes back before its other end is lost. -/
theorem lost_out_of_order (h : Evicted S start gone s) (hnd : order.Nodup)
    (hmem : ∀ v, v ∈ order ↔ v ∈ gone) {before after : List V} {v : V}
    (hsplit : order = before ++ v :: after) {e : E} (he : e ∈ s.shelved v)
    (hlate : S.other e v ∈ after) :
    ∀ e' ∈ (order.foldl (restore S) s).links, S.key e' ≠ S.key e := by
  intro e' he' hkey
  have hv : v ∈ gone := (hmem v).mp (by simp [hsplit])
  have htouch := (h.taken v hv e he).2
  have htouch' : S.touches e' v := by rwa [Shape.touches_of_key hkey]
  have hother : S.other e' v = S.other e v := Shape.other_of_key hkey v
  have hotherGone : S.other e v ∈ gone := (hmem _).mp (by simp [hsplit, hlate])
  have hne : S.other e v ≠ v := by
    intro heq
    rw [hsplit] at hnd
    exact (nodup_middle hnd).2.1 (heq ▸ hlate)
  rcases mem_links_of_mem_foldl_restore hnd he' with hlink | ⟨before', u, after', hsplit', hlink, hends⟩
  · exact touches_of_joined h.joined (h.absent v hv) hlink htouch'
  · have hu : u ∈ gone := (hmem u).mp (by simp [hsplit'])
    have htouchu := (h.taken u hu e' hlink).2
    rcases Shape.eq_or_eq_other htouch' htouchu with rfl | rfl
    · -- Its own vertex brings it back, but the other end is still to come.
      have hafter : after' = after := by
        have hsame := hsplit.symm.trans hsplit'
        rw [hsplit] at hnd
        obtain ⟨hbefore, hafter, -⟩ := nodup_middle hnd
        exact ((List.append_cons_inj_of_notMem hbefore hafter).mp hsame).2.2.symm
      have hsome := hends (S.other e u) (hafter ▸ hlate) (hother ▸ touches_other e' u)
      rw [h.absent _ hotherGone] at hsome
      cases hsome
    · rw [hother] at hlink
      exact h.later v hv e he hne hotherGone e' hlink htouch'

/-- What comes back is what left exactly when no vertex precedes one that its shelf leads to, and no
two links of one key differ in what is compared. -/
theorem lossless_iff (mark : E → Q) (h : Evicted S start gone s) (hpres : ∀ v ∈ gone, (start.present v).isSome)
    (hjoined : start.Joined S) (hnd : order.Nodup) (hmem : ∀ v, v ∈ order ↔ v ∈ gone)
    (hmark : ∀ e e', mark e = mark e' → S.key e = S.key e') :
    (∀ q, (∃ e ∈ (order.foldl (restore S) s).links, mark e = q) ↔ ∃ e ∈ start.links, mark e = q) ↔
      InOrder S s order ∧ NoTwins S start gone mark := by
  constructor
  · intro hsame
    have hback : ∀ e ∈ start.links, ∃ e' ∈ (order.foldl (restore S) s).links, mark e' = mark e :=
      fun e he => (hsame (mark e)).mpr ⟨e, he, rfl⟩
    constructor
    · intro before v after hsplit e he hlate
      have hv : v ∈ gone := (hmem v).mp (by simp [hsplit])
      obtain ⟨e', he', heq⟩ := hback e (h.taken v hv e he).1
      exact lost_out_of_order h hnd hmem hsplit he hlate e' he' (hmark _ _ heq)
    · rintro e he e' he' hkey ⟨v, hv, htouch⟩
      obtain ⟨b, hb, hbe⟩ := hback e he
      obtain ⟨b', hb', hbe'⟩ := hback e' he'
      have hnone : ∀ x ∈ s.links, ∀ y ∈ s.links, S.key x = S.key y → S.touches x v → x = y :=
        fun x hx _ _ _ ht => absurd ht (touches_of_joined h.joined (h.absent v hv) hx)
      have hkeys : S.key b = S.key b' := by rw [hmark _ _ hbe, hkey, hmark _ _ hbe']
      have htouchb : S.touches b v := by rwa [Shape.touches_of_key (hmark _ _ hbe)]
      have heq := key_unique_foldl_restore order hnone b hb b' hb' hkeys htouchb
      rw [← hbe, ← hbe', heq]
  · rintro ⟨hord, htwins⟩ q
    constructor
    · rintro ⟨e, he, rfl⟩
      exact ⟨e, mem_start_of_out_and_back h hnd hmem he, rfl⟩
    · rintro ⟨e, he, rfl⟩
      rcases h.covered e he with hlink | ⟨v, hv, hlink⟩
      · exact ⟨e, mem_foldl_restore_links order hlink, rfl⟩
      · obtain ⟨e', he', hkey⟩ := exists_key_out_and_back h hpres hjoined hnd hmem hord he
        have hstart := mem_start_of_out_and_back h hnd hmem he'
        exact ⟨e', he', (htwins e he e' hstart hkey.symm ⟨v, hv, (h.taken v hv e hlink).2⟩).symm⟩

end OutAndBack

end State

end Archive
