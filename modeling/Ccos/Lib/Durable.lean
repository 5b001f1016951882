import Ccos.Lib.ByteCodec
import Mathlib.Data.List.Induction
import Mathlib.Logic.Function.Basic

/-!
# Files that are replaced whole

A program changes a disk one action at a time and may stop before any of them. A specification says what holds of the
disk when the program is through, and what holds wherever it stops. A file that is written beside its target and
renamed onto it is the old one or the new one.
-/

namespace Durable

open ByteCodec

variable {T E A B : Type}

/-- A file, and what a process writes beside it. -/
inductive DiskPath (T : Type)
  | file (t : T)
  | temp (t : T) (pid : Nat)
  deriving DecidableEq

abbrev Disk (T : Type) := DiskPath T → Option Bytes

/-- The files under their names. -/
def files (d : Disk T) (t : T) : Option Bytes := d (.file t)

/-- How a program stops before its end. -/
inductive Fault (E : Type)
  | crash
  | error (e : E)
  deriving DecidableEq

/-- The disk, and the number of actions before the machine stops. -/
structure Machine (T : Type) where
  disk : Disk T
  budget : Nat

/-- A program that changes the disk. -/
def Prog (T E A : Type) := Machine T → Except (Fault E) A × Machine T

instance : Monad (Prog T E) where
  pure a s := (.ok a, s)
  bind p f s :=
    match p s with
    | (.ok a, s') => f a s'
    | (.error fault, s') => (.error fault, s')

/-- An error that the program reports. -/
def fail (e : E) : Prog T E A := fun s => (.error (.error e), s)

/-- One action, which happens at once or not at all. -/
def act (change : Disk T → Except E (Disk T)) : Prog T E Unit := fun s =>
  match s.budget with
  | 0 => (.error .crash, s)
  | budget + 1 =>
    match change s.disk with
    | .ok disk => (.ok (), { disk, budget })
    | .error e => (.error (.error e), { s with budget })

section

variable [DecidableEq T]

/-- A new file, or the error when there is one. -/
def createNew (taken : E) (path : DiskPath T) : Prog T E Unit :=
  act fun d => if (d path).isSome then .error taken else .ok (Function.update d path (some []))

def append (path : DiskPath T) (byte : UInt8) : Prog T E Unit :=
  act fun d => .ok (Function.update d path ((d path).map (· ++ [byte])))

def rename (source target : DiskPath T) : Prog T E Unit :=
  act fun d => .ok (Function.update (Function.update d target (d source)) source none)

def writeAll (path : DiskPath T) : Bytes → Prog T E Unit
  | [] => pure ()
  | byte :: bytes => do
    append path byte
    writeAll path bytes

/-- An empty file, whatever was there. -/
def truncate (path : DiskPath T) : Prog T E Unit := act fun d => .ok (Function.update d path (some []))

/-- Writes beside the file, over what an earlier attempt may have left there, then replaces it. -/
def overwrite (pid : Nat) (t : T) (bytes : Bytes) : Prog T E Unit := do
  truncate (.temp t pid)
  writeAll (.temp t pid) bytes
  rename (.temp t pid) (.file t)

/-- Writes beside the file, unless something is there, then replaces it. -/
def replace (taken : E) (pid : Nat) (t : T) (bytes : Bytes) : Prog T E Unit := do
  createNew taken (.temp t pid)
  writeAll (.temp t pid) bytes
  rename (.temp t pid) (.file t)

end

/-! ## Specifications -/

/-- From a disk with `P`, the program ends on one with `Q`, or stops on one with `C`. -/
def Spec (P : Disk T → Prop) (p : Prog T E A) (Q : A → Disk T → Prop) (C : Disk T → Prop) : Prop :=
  ∀ s : Machine T, P s.disk →
    match (p s).1 with
    | .ok a => Q a (p s).2.disk
    | .error _ => C (p s).2.disk

variable {P C : Disk T → Prop} {Q : A → Disk T → Prop} {R : B → Disk T → Prop}

theorem Spec.of_ok {p : Prog T E A} {s : Machine T} {a : A} (h : Spec P p Q C) (hs : P s.disk) (hp : (p s).1 = .ok a) :
    Q a (p s).2.disk := by
  have hspec := h s hs
  rwa [hp] at hspec

theorem Spec.of_error {p : Prog T E A} {s : Machine T} {fault : Fault E} (h : Spec P p Q C) (hs : P s.disk)
    (hp : (p s).1 = .error fault) : C (p s).2.disk := by
  have hspec := h s hs
  rwa [hp] at hspec

theorem Spec.pure {a : A} (h : ∀ d, P d → Q a d) : Spec P (Pure.pure a : Prog T E A) Q C :=
  fun s hs => h s.disk hs

theorem Spec.fail {e : E} (h : ∀ d, P d → C d) : Spec P (Durable.fail e : Prog T E A) Q C :=
  fun s hs => h s.disk hs

theorem Spec.mono {p : Prog T E A} {Q' : A → Disk T → Prop} {C' : Disk T → Prop} (h : Spec P p Q C)
    (post : ∀ a d, Q a d → Q' a d) (stop : ∀ d, C d → C' d) : Spec P p Q' C' := by
  intro s hs
  have hp := h s hs
  split at hp
  · exact post _ _ hp
  · exact stop _ hp

theorem Spec.of_files {P : (T → Option Bytes) → Prop} {p : Prog T E A}
    (h : ∀ kept, P kept → Spec (fun d => files d = kept) p Q C) : Spec (fun d => P (files d)) p Q C :=
  fun s hs => h (files s.disk) hs s rfl

/-- What the first program leaves is what the second one starts from. -/
theorem Spec.bind {p : Prog T E A} {f : A → Prog T E B} (hp : Spec P p Q C) (hf : ∀ a, Spec (Q a) (f a) R C) :
    Spec P (p >>= f) R C := by
  intro s hs
  have hfirst := hp s hs
  simp only [Bind.bind]
  rcases hr : p s with ⟨fault | a, s'⟩
  · rw [hr] at hfirst
    exact hfirst
  · rw [hr] at hfirst
    exact hf a s' hfirst

theorem Prog.bind_eq_ok {p : Prog T E A} {f : A → Prog T E B} {s s' : Machine T} {b : B} :
    (p >>= f) s = (.ok b, s') ↔ ∃ a mid, p s = (.ok a, mid) ∧ f a mid = (.ok b, s') := by
  simp only [Bind.bind]
  rcases p s with ⟨fault | a, mid⟩ <;> simp

/-- An action stops before it, or has happened. -/
theorem Spec.act {change : Disk T → Except E (Disk T)} {Q : Unit → Disk T → Prop} (stop : ∀ d, P d → C d)
    (step : ∀ d d', P d → change d = .ok d' → Q () d') : Spec P (Durable.act change) Q C := by
  rintro ⟨d, budget⟩ hd
  cases budget with
  | zero => exact stop d hd
  | succ budget =>
    unfold Durable.act
    dsimp only
    cases hchange : change d with
    | ok d' => exact step d d' hd hchange
    | error e => exact stop d hd

/-! ## Replacing a file -/

section

variable [DecidableEq T] {kept : T → Option Bytes} {path : DiskPath T} {pid : Nat} {t : T}

/-- What a process writes beside the files is none of them. -/
theorem files_update_temp (d : Disk T) (content : Option Bytes) :
    files (Function.update d (.temp t pid) content) = files d := by
  funext u
  rw [files, Function.update_of_ne (by simp), files]

theorem files_update_file (d : Disk T) (content : Option Bytes) :
    files (Function.update d (.file t) content) = Function.update (files d) t content := by
  funext u
  by_cases hu : u = t
  · subst hu
    rw [Function.update_self, files, Function.update_self]
  · rw [Function.update_of_ne hu, files, Function.update_of_ne fun heq => hu (DiskPath.file.inj heq), files]

theorem createNew_spec (taken : E) :
    Spec (fun d => files d = kept) (createNew taken (.temp t pid))
      (fun _ d => files d = kept ∧ d (.temp t pid) = some []) (fun d => files d = kept) := by
  refine Spec.act (fun d hd => hd) fun d d' hd h => ?_
  split at h
  · cases h
  · obtain rfl := Except.ok.inj h
    exact ⟨(files_update_temp d _).trans hd, Function.update_self ..⟩

theorem writeAll_spec (bytes done : Bytes) :
    Spec (fun d => files d = kept ∧ d (.temp t pid) = some done) (writeAll (.temp t pid) bytes : Prog T E Unit)
      (fun _ d => files d = kept ∧ d (.temp t pid) = some (done ++ bytes)) (fun d => files d = kept) := by
  induction bytes generalizing done with
  | nil => exact Spec.pure fun d hd => by rwa [List.append_nil]
  | cons byte bytes ih =>
    rw [writeAll, show done ++ byte :: bytes = done ++ [byte] ++ bytes by simp]
    refine Spec.bind (Q := fun _ d => files d = kept ∧ d (.temp t pid) = some (done ++ [byte]))
      (Spec.act (fun d hd => hd.1) fun d d' hd h => ?_) fun _ => ih (done ++ [byte])
    obtain rfl := Except.ok.inj h
    exact ⟨(files_update_temp d _).trans hd.1, by rw [Function.update_self, hd.2]; rfl⟩

theorem truncate_spec :
    Spec (fun d => files d = kept) (truncate (.temp t pid) : Prog T E Unit)
      (fun _ d => files d = kept ∧ d (.temp t pid) = some []) (fun d => files d = kept) := by
  refine Spec.act (fun d hd => hd) fun d d' hd h => ?_
  obtain rfl := Except.ok.inj h
  exact ⟨(files_update_temp d _).trans hd, Function.update_self ..⟩

/-- Writing the bytes and renaming, from an empty file beside the target. -/
theorem writeRename_spec (bytes : Bytes) :
    Spec (fun d => files d = kept ∧ d (.temp t pid) = some [])
      (do writeAll (.temp t pid) bytes; rename (.temp t pid) (.file t) : Prog T E Unit)
      (fun _ d => files d = Function.update kept t (some bytes)) (fun d => files d = kept) := by
  refine Spec.bind (writeAll_spec bytes []) fun _ => Spec.act (fun d hd => hd.1) fun d d' hd h => ?_
  obtain rfl := Except.ok.inj h
  rw [files_update_temp, files_update_file, hd.1, hd.2, List.nil_append]

/-- A file is replaced whole or not at all. -/
theorem replace_spec (taken : E) (bytes : Bytes) :
    Spec (fun d => files d = kept) (replace taken pid t bytes)
      (fun _ d => files d = Function.update kept t (some bytes)) (fun d => files d = kept) :=
  Spec.bind (createNew_spec taken) fun _ => writeRename_spec bytes

theorem overwrite_spec (bytes : Bytes) :
    Spec (fun d => files d = kept) (overwrite pid t bytes : Prog T E Unit)
      (fun _ d => files d = Function.update kept t (some bytes)) (fun d => files d = kept) :=
  Spec.bind truncate_spec fun _ => writeRename_spec bytes

/-! ## When a file is replaced -/

theorem writeAll_eq (path : DiskPath T) (bytes : Bytes) (s : Machine T) :
    (writeAll path bytes : Prog T E Unit) s =
      if bytes.length ≤ s.budget then
        (.ok (), {
          disk := Function.update s.disk path ((s.disk path).map (· ++ bytes))
          budget := s.budget - bytes.length })
      else
        (.error .crash, {
          disk := Function.update s.disk path ((s.disk path).map (· ++ bytes.take s.budget))
          budget := 0 }) := by
  obtain ⟨d, budget⟩ := s
  induction bytes generalizing d budget with
  | nil => simp [writeAll, Pure.pure]
  | cons byte bytes ih =>
    cases budget with
    | zero => simp [writeAll, Bind.bind, append, act]
    | succ budget =>
      simp only [writeAll, Bind.bind, append, act, ih, Function.update_self, Function.update_idem, Option.map_map,
        Function.comp_def, List.append_assoc, List.singleton_append, List.length_cons, List.take_succ_cons,
        Nat.add_le_add_iff_right, Nat.add_sub_add_right]

/-- A file is replaced when nothing is left beside it and the machine lasts. -/
theorem replace_ok {taken : E} {bytes : Bytes} {s : Machine T} (hfree : s.disk (.temp t pid) = none)
    (hlast : bytes.length + 2 ≤ s.budget) :
    replace taken pid t bytes s = (.ok (),
      { disk := Function.update s.disk (.file t) (some bytes), budget := s.budget - (bytes.length + 2) }) := by
  obtain ⟨d, budget⟩ := s
  obtain ⟨more, rfl⟩ := Nat.exists_eq_add_of_le hlast
  dsimp only at hfree
  have hne : DiskPath.temp t pid ≠ DiskPath.file t := by simp
  have hcreated : (createNew taken (.temp t pid) : Prog T E Unit) { disk := d, budget := bytes.length + 2 + more } =
      (.ok (), { disk := Function.update d (.temp t pid) (some []), budget := bytes.length + (more + 1) }) := by
    rw [show bytes.length + 2 + more = bytes.length + (more + 1) + 1 by omega]
    simp [createNew, act, hfree]
  have hwritten := writeAll_eq (E := E) (.temp t pid) bytes
    { disk := Function.update d (.temp t pid) (some []), budget := bytes.length + (more + 1) }
  rw [if_pos (by simp)] at hwritten
  simp only [replace, Bind.bind, hcreated, hwritten]
  simp [rename, act, Function.update_comm hne, hfree]

/-- Otherwise the program stops. -/
theorem replace_stops {taken : E} {bytes : Bytes} {s : Machine T}
    (h : s.disk (.temp t pid) ≠ none ∨ s.budget < bytes.length + 2) :
    ∃ fault, (replace taken pid t bytes s).1 = .error fault := by
  obtain ⟨d, budget⟩ := s
  dsimp only at h
  cases budget with
  | zero => exact ⟨.crash, rfl⟩
  | succ budget =>
    by_cases hfree : d (.temp t pid) = none
    · have hcreated : (createNew taken (.temp t pid) : Prog T E Unit) { disk := d, budget := budget + 1 } =
          (.ok (), { disk := Function.update d (.temp t pid) (some []), budget }) := by
        simp [createNew, act, hfree]
      have hwritten := writeAll_eq (E := E) (.temp t pid) bytes
        { disk := Function.update d (.temp t pid) (some []), budget }
      have hshort : budget < bytes.length + 1 := by
        rcases h with h | h
        · exact absurd hfree h
        · omega
      by_cases hle : bytes.length ≤ budget
      · rw [if_pos hle, show budget - bytes.length = 0 by omega] at hwritten
        exact ⟨.crash, by simp only [replace, Bind.bind, hcreated, hwritten, rename, act]⟩
      · rw [if_neg hle] at hwritten
        exact ⟨.crash, by simp only [replace, Bind.bind, hcreated, hwritten]⟩
    · refine ⟨.error taken, ?_⟩
      simp [replace, Bind.bind, createNew, act, Option.isSome_iff_ne_none.mpr hfree]

theorem replace_eq_ok {taken : E} {bytes : Bytes} {s s' : Machine T} :
    replace taken pid t bytes s = (.ok (), s') ↔ s.disk (.temp t pid) = none ∧ bytes.length + 2 ≤ s.budget ∧
      s' = { disk := Function.update s.disk (.file t) (some bytes), budget := s.budget - (bytes.length + 2) } := by
  constructor
  · intro h
    by_cases hgood : s.disk (.temp t pid) = none ∧ bytes.length + 2 ≤ s.budget
    · rw [replace_ok hgood.1 hgood.2] at h
      exact ⟨hgood.1, hgood.2, (Prod.mk.inj h).2.symm⟩
    · obtain ⟨fault, hfault⟩ : ∃ fault, (replace taken pid t bytes s).1 = .error fault :=
        replace_stops ((not_and_or.mp hgood).imp_right Nat.lt_of_not_le)
      rw [h] at hfault
      cases hfault
  · rintro ⟨hfree, hlast, rfl⟩
    exact replace_ok hfree hlast

end

/-! ## Histories of writes -/

/-- A program that writes a file, if it has something to write, and the number of actions it may take. -/
structure Write (T E : Type) where
  prog : Prog T E Unit
  target : T
  bytes : Option Bytes
  budget : Nat

namespace Write

/-- The disk after the writes, from an empty one. -/
def runs (ws : List (Write T E)) : Disk T :=
  ws.foldl (fun d w => (w.prog { disk := d, budget := w.budget }).2.disk) fun _ => none

/-- The `j`-th write reports that it is through. -/
def Completed (ws : List (Write T E)) (j : Nat) (w : Write T E) : Prop :=
  ws[j]? = some w ∧ (w.prog { disk := runs (ws.take j), budget := w.budget }).1 = .ok ()

/-- A file holds what the `i`-th write gave it, and no write to it was completed after that; or it was never written,
and no write to it was completed. -/
inductive Stands (ws : List (Write T E)) (t : T) : Option Bytes → Prop
  | absent (none_completed : ∀ j w, Completed ws j w → w.bytes.isSome → w.target ≠ t) : Stands ws t none
  | written {i : Nat} {w : Write T E} {b : Bytes} (at_i : ws[i]? = some w) (target : w.target = t)
      (bytes : w.bytes = some b)
      (last : ∀ j w', Completed ws j w' → w'.bytes.isSome → w'.target = t → j ≤ i) : Stands ws t (some b)

theorem runs_append (ws : List (Write T E)) (w : Write T E) :
    runs (ws ++ [w]) = (w.prog { disk := runs ws, budget := w.budget }).2.disk := by
  unfold runs
  rw [List.foldl_append]
  rfl

theorem completed_append {ws : List (Write T E)} {w w' : Write T E} {j : Nat} (h : Completed (ws ++ [w]) j w') :
    Completed ws j w' ∨ j = ws.length ∧ w' = w ∧ (w.prog { disk := runs ws, budget := w.budget }).1 = .ok () := by
  obtain ⟨hj, hok⟩ := h
  rcases Nat.lt_trichotomy j ws.length with hlt | rfl | hlt
  · rw [List.getElem?_append_left hlt] at hj
    rw [List.take_append_of_le_length hlt.le] at hok
    exact .inl ⟨hj, hok⟩
  · rw [List.getElem?_append_right le_rfl, Nat.sub_self] at hj
    obtain rfl := Option.some.inj hj
    rw [List.take_left] at hok
    exact .inr ⟨rfl, rfl, hok⟩
  · rw [List.getElem?_eq_none (by rw [List.length_append, List.length_singleton]; omega)] at hj
    cases hj

/-- A write that left the file alone is not a completed write to it. -/
theorem Stands.keep {ws : List (Write T E)} {w : Write T E} {t : T} {content : Option Bytes} (h : Stands ws t content)
    (hw : (w.prog { disk := runs ws, budget := w.budget }).1 = .ok () → w.bytes.isSome → w.target ≠ t) :
    Stands (ws ++ [w]) t content := by
  cases h with
  | absent none_completed =>
    refine .absent fun j w' hc hbytes => ?_
    rcases completed_append hc with hc | ⟨-, rfl, hok⟩
    · exact none_completed j w' hc hbytes
    · exact hw hok hbytes
  | @written i w₀ b at_i target bytes last =>
    have hi : i < ws.length := (List.getElem?_eq_some_iff.mp at_i).1
    refine .written (by rw [List.getElem?_append_left hi]; exact at_i) target bytes fun j w' hc hbytes htarget => ?_
    rcases completed_append hc with hc | ⟨-, rfl, hok⟩
    · exact last j w' hc hbytes htarget
    · exact absurd htarget (hw hok hbytes)

variable [DecidableEq T]

/-- The files after the write. -/
def effect (w : Write T E) (kept : T → Option Bytes) : T → Option Bytes :=
  match w.bytes with
  | none => kept
  | some b => Function.update kept w.target (some b)

theorem effect_of_none {w : Write T E} (h : w.bytes = none) (kept : T → Option Bytes) : w.effect kept = kept := by
  rw [effect, h]

theorem effect_of_some {w : Write T E} {b : Bytes} (h : w.bytes = some b) (kept : T → Option Bytes) :
    w.effect kept = Function.update kept w.target (some b) := by
  rw [effect, h]

/-- When the program ends the write has happened; when it stops the write has happened or has not. -/
def Replaces (w : Write T E) : Prop :=
  ∀ kept, Spec (fun d => files d = kept) w.prog (fun _ d => files d = w.effect kept)
    (fun d => files d = kept ∨ files d = w.effect kept)

/-- Whatever the writes and wherever each of them stopped. -/
theorem stands_runs {ws : List (Write T E)} (hws : ∀ w ∈ ws, w.Replaces) (t : T) : Stands ws t (files (runs ws) t) := by
  induction ws using List.reverseRecOn with
  | nil => exact .absent fun j w hc => by cases hc.1
  | append_singleton ws w ih =>
    have hstands := ih fun w' hw' => hws w' (List.mem_append_left _ hw')
    have hspec := hws w (List.mem_append_right _ List.mem_cons_self) (files (runs ws))
    have hnew : files (runs (ws ++ [w])) = w.effect (files (runs ws)) →
        Stands (ws ++ [w]) t (files (runs (ws ++ [w])) t) := by
      intro heffect
      rw [heffect]
      cases hbytes : w.bytes with
      | none =>
        rw [effect_of_none hbytes]
        exact hstands.keep fun _ hsome => by rw [hbytes] at hsome; cases hsome
      | some b =>
        rw [effect_of_some hbytes]
        by_cases ht : t = w.target
        · subst ht
          rw [Function.update_self]
          refine .written (i := ws.length) (w := w) (by simp) rfl hbytes fun j w' hc _ _ => ?_
          rcases completed_append hc with hc | ⟨rfl, -, -⟩
          · exact (List.getElem?_eq_some_iff.mp hc.1).1.le
          · exact le_rfl
        · rw [Function.update_of_ne ht]
          exact hstands.keep fun _ _ heq => ht heq.symm
    cases hresult : (w.prog { disk := runs ws, budget := w.budget }).1 with
    | ok u =>
      refine hnew ?_
      rw [runs_append]
      exact hspec.of_ok rfl hresult
    | error fault =>
      have hstop := hspec.of_error rfl hresult
      rw [← runs_append] at hstop
      rcases hstop with hkept | heffect
      · rw [hkept]
        exact hstands.keep fun hok => by rw [hresult] at hok; cases hok
      · exact hnew heffect

end Write

end Durable
