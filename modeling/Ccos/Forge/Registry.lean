import Ccos.Lib.Durable
import Ccos.Text
import Ccos.Wire.Json

/-!
# The registry of candidates

A directory with one file for each candidate and one for each raw key. A commit writes beside the file and renames; the
lock lets one commit of a process run at a time. Walking the registry goes through the names in order.
-/

open ByteCodec Durable

namespace Ccos.Forge

structure GenerationRecord (F : Type) where
  candidateId : UInt64
  sourceCode : Str
  objectives : List F
  generation : UInt64
  parentIds : List UInt64

/-- What the registry takes from its surroundings: the JSON of a record, and how a path is shown. -/
structure RegistryHost (F : Type) where
  toVec : GenerationRecord F → Except Str Bytes
  fromSlice : Bytes → Except Str (GenerationRecord F)
  display : Str → Str

/-- `ForgeError::Evaluation`. -/
structure ForgeError where
  evaluation : Str
  deriving DecidableEq

inductive RegistryFile
  | candidate (id : UInt64)
  | raw (key : Bytes)
  deriving DecidableEq

def hexEncode (bytes : Bytes) : Str :=
  bytes.flatMap fun byte => [Nat.digitChar (byte.toNat / 16), Nat.digitChar (byte.toNat % 16)]

def RegistryFile.name : RegistryFile → Str
  | .candidate id => "candidate-".toList ++ hexPad 16 id.toNat ++ ".json".toList
  | .raw key => "raw-".toList ++ hexEncode key ++ ".bin".toList

def pathName : DiskPath RegistryFile → Str
  | .file f => f.name
  | .temp f pid => '.' :: f.name ++ ".tmp-".toList ++ natStr pid

def isCandidatePath (name : Str) : Bool :=
  startsWith "candidate-".toList name && ".json".toList.isSuffixOf name

abbrev RegistryDisk := Disk RegistryFile

namespace RegistryHost

variable {F : Type} (h : RegistryHost F)

/-- `sync_directory` after the file is in its place. -/
def atomicWrite (pid : Nat) (destination : RegistryFile) (payload : Bytes) : Prog RegistryFile ForgeError Unit := do
  overwrite pid destination payload
  act fun d => .ok d

def commitCandidate (pid : Nat) (record : GenerationRecord F) : Prog RegistryFile ForgeError Unit :=
  match h.toVec record with
  | .error e => fail ⟨"Erreur de sérialisation du registre: ".toList ++ e⟩
  | .ok payload => atomicWrite pid (.candidate record.candidateId) payload

def commitRaw (pid : Nat) (key payload : Bytes) : Prog RegistryFile ForgeError Unit :=
  atomicWrite pid (.raw key) payload

def getCandidateRecord (d : RegistryDisk) (id : UInt64) : Except ForgeError (Option (GenerationRecord F)) :=
  match files d (.candidate id) with
  | none => .ok none
  | some bytes => ((h.fromSlice bytes).mapError fun e => ⟨"Données de registre corrompues: ".toList ++ e⟩).map some

def getRaw (d : RegistryDisk) (key : Bytes) : Option Bytes := files d (.raw key)

/-- The records behind a listing of the directory, by name. -/
def iter (d : RegistryDisk) (listing : List (DiskPath RegistryFile)) : List (Except ForgeError (GenerationRecord F)) :=
  let paths := sortBy (fun p q => compare (pathName p) (pathName q)) (listing.filter (isCandidatePath ∘ pathName))
  paths.map fun path =>
    match d path with
    | none => .error ⟨"Lecture registre ".toList ++ h.display (pathName path)⟩
    | some bytes =>
      (h.fromSlice bytes).mapError fun e =>
        ⟨"Désérialisation ".toList ++ h.display (pathName path) ++ ": ".toList ++ e⟩

end RegistryHost

/-! ## The names of the files -/

/-- The candidate that a file of the directory is about. -/
def candidateOf : DiskPath RegistryFile → Option UInt64
  | .file (.candidate id) => some id
  | _ => none

theorem isCandidatePath_pathName (p : DiskPath RegistryFile) :
    isCandidatePath (pathName p) = (candidateOf p).isSome := by
  cases p with
  | temp f pid => rfl
  | file f =>
    cases f with
    | raw key => rfl
    | candidate id =>
      have hends : ".json".toList.isSuffixOf (RegistryFile.candidate id).name = true :=
        List.isSuffixOf_iff_suffix.mpr ⟨_, rfl⟩
      rw [isCandidatePath, pathName, hends]
      rfl

theorem filter_candidates (listing : List (DiskPath RegistryFile)) :
    listing.filter (isCandidatePath ∘ pathName) =
      (listing.filterMap candidateOf).map fun id => .file (.candidate id) := by
  induction listing with
  | nil => rfl
  | cons p listing ih =>
    rw [List.filter_cons, Function.comp_apply, isCandidatePath_pathName, ih]
    rcases p with (_ | _) | _ <;> rfl

theorem compare_cons (c d : Char) (x y : Str) : compare (c :: x) (d :: y) = (compare c d).then (compare x y) :=
  List.compareLex_cons_cons

theorem compare_append (p x y : Str) : compare (p ++ x) (p ++ y) = compare x y := by
  induction p with
  | nil => rfl
  | cons c p ih =>
    have hc : compare c c = .eq := Std.LawfulEqOrd.compare_eq_iff_eq.mpr rfl
    rw [List.cons_append, List.cons_append, compare_cons, hc, Ordering.eq_then, ih]

theorem compare_digitChar {m n : Nat} (hm : m < 16) (hn : n < 16) :
    compare m.digitChar n.digitChar = compare m n := by
  interval_cases m <;> interval_cases n <;> decide

/-- Two-place numbers compare by the high place first. -/
theorem compare_places {m r s : Nat} (hr : r < m) (hs : s < m) (p q : Nat) :
    compare (r + m * p) (s + m * q) = (compare p q).then (compare r s) := by
  rcases Nat.lt_trichotomy p q with h | rfl | h
  · have hmul : m * (p + 1) ≤ m * q := Nat.mul_le_mul_left m h
    rw [Nat.compare_eq_lt.mpr h, Ordering.lt_then, Nat.compare_eq_lt]
    rw [Nat.mul_succ] at hmul
    omega
  · rw [Nat.compare_eq_eq.mpr rfl, Ordering.eq_then]
    rcases Nat.lt_trichotomy r s with h | rfl | h
    · rw [Nat.compare_eq_lt.mpr h, Nat.compare_eq_lt]
      omega
    · rw [Nat.compare_eq_eq.mpr rfl, Nat.compare_eq_eq.mpr rfl]
    · rw [Nat.compare_eq_gt.mpr h, Nat.compare_eq_gt]
      omega
  · have hmul : m * (q + 1) ≤ m * p := Nat.mul_le_mul_left m h
    rw [Nat.compare_eq_gt.mpr h, Ordering.gt_then, Nat.compare_eq_gt]
    rw [Nat.mul_succ] at hmul
    omega

/-- Numbers of one width compare like their digits. -/
theorem compare_hexPad (width a b : Nat) (x : Str) :
    compare (hexPad width a ++ x) (hexPad width b ++ x) = compare (a % 16 ^ width) (b % 16 ^ width) := by
  induction width with
  | zero => simp [hexPad, Nat.mod_one]
  | succ width ih =>
    have hcons : ∀ n, hexPad (width + 1) n = (n / 16 ^ width % 16).digitChar :: hexPad width n :=
      fun n => by simp [hexPad, List.range_succ]
    have hpos : 0 < 16 ^ width := Nat.pow_pos (by decide)
    rw [hcons, hcons, List.cons_append, List.cons_append, compare_cons,
      compare_digitChar (Nat.mod_lt _ (by decide)) (Nat.mod_lt _ (by decide)), ih, Nat.pow_succ, Nat.mod_mul,
      Nat.mod_mul, compare_places (Nat.mod_lt _ hpos) (Nat.mod_lt _ hpos)]

theorem name_candidate (id : UInt64) :
    (RegistryFile.candidate id).name = "candidate-".toList ++ hexPad 16 id.toNat ++ ".json".toList := rfl

theorem compare_pathName (a b : UInt64) :
    compare (pathName (.file (.candidate a))) (pathName (.file (.candidate b))) = compare a.toNat b.toNat := by
  have ha : a.toNat < 16 ^ 16 := a.toNat_lt
  have hb : b.toNat < 16 ^ 16 := b.toNat_lt
  show compare (RegistryFile.candidate a).name (RegistryFile.candidate b).name = _
  rw [name_candidate, name_candidate, List.append_assoc, List.append_assoc, compare_append, compare_hexPad,
    Nat.mod_eq_of_lt ha, Nat.mod_eq_of_lt hb]

/-- Sorted by name, the candidates stand in the order of their ids. -/
theorem sort_candidates (ids : List UInt64) :
    sortBy (fun p q => compare (pathName p) (pathName q)) (ids.map fun id => .file (.candidate id)) =
      (sortBy (fun a b => compare a.toNat b.toNat) ids).map fun id => .file (.candidate id) := by
  unfold sortBy
  refine (List.map_insertionSort _ _ _ _ fun a _ b _ => ?_).symm
  dsimp only
  rw [compare_pathName]

/-! ## Histories of commits -/

/-- A commit by one process, which the machine stops after so many actions. -/
inductive Commit (F : Type)
  | candidate (pid : Nat) (record : GenerationRecord F) (budget : Nat)
  | raw (pid : Nat) (key payload : Bytes) (budget : Nat)

namespace RegistryHost

variable {F : Type} (h : RegistryHost F)

def write : Commit F → Write RegistryFile ForgeError
  | .candidate pid record budget =>
    { prog := h.commitCandidate pid record, target := .candidate record.candidateId
      bytes := (h.toVec record).toOption, budget }
  | .raw pid key payload budget =>
    { prog := commitRaw pid key payload, target := .raw key, bytes := some payload, budget }

/-- The directory after the commits. -/
def commitAll (commits : List (Commit F)) : RegistryDisk := Write.runs (commits.map h.write)

/-- The `j`-th commit reports success. -/
def Completed (commits : List (Commit F)) (j : Nat) : Prop := ∃ w, Write.Completed (commits.map h.write) j w

/-- A record that was committed, with no completed commit of its candidate after it. -/
def Current (commits : List (Commit F)) (r : GenerationRecord F) : Prop :=
  ∃ i pid budget, commits[i]? = some (.candidate pid r budget) ∧
    ∀ j pid' r' budget', commits[j]? = some (.candidate pid' r' budget') → r'.candidateId = r.candidateId →
      h.Completed commits j → j ≤ i

/-- What JSON gives back for a record, under the words of an error. -/
def back (words : Str) (r : GenerationRecord F) : Except ForgeError (GenerationRecord F) :=
  (h.toVec r >>= h.fromSlice).mapError fun e => ⟨words ++ e⟩

/-- What a lookup answers when `r` is the record of the candidate. -/
def answer : Option (GenerationRecord F) → Except ForgeError (Option (GenerationRecord F))
  | none => .ok none
  | some r => (h.back "Données de registre corrompues: ".toList r).map some

theorem atomicWrite_spec {pid : Nat} {f : RegistryFile} {payload : Bytes} {kept : RegistryFile → Option Bytes} :
    Spec (fun d => files d = kept) (atomicWrite pid f payload)
      (fun _ d => files d = Function.update kept f (some payload))
      (fun d => files d = kept ∨ files d = Function.update kept f (some payload)) := by
  refine Spec.bind ((overwrite_spec payload).mono (fun _ _ hd => hd) fun _ hd => .inl hd) fun _ =>
    Spec.act (fun _ hd => .inr hd) fun d d' hd h => ?_
  obtain rfl := Except.ok.inj h
  exact hd

theorem replaces_write (c : Commit F) : (h.write c).Replaces := by
  intro kept
  cases c with
  | raw pid key payload budget => exact atomicWrite_spec
  | candidate pid record budget =>
    cases hvec : h.toVec record with
    | error e =>
      have heffect : (h.write (.candidate pid record budget)).effect kept = kept :=
        Write.effect_of_none (by rw [write, hvec]; rfl) kept
      rw [heffect]
      show Spec _ (h.commitCandidate pid record) _ _
      rw [commitCandidate, hvec]
      exact Spec.fail fun _ hd => .inl hd
    | ok payload =>
      have heffect : (h.write (.candidate pid record budget)).effect kept =
          Function.update kept (.candidate record.candidateId) (some payload) :=
        Write.effect_of_some (by rw [write, hvec]; rfl) kept
      rw [heffect]
      show Spec _ (h.commitCandidate pid record) _ _
      rw [commitCandidate, hvec]
      exact atomicWrite_spec

theorem stands (commits : List (Commit F)) (f : RegistryFile) :
    Write.Stands (commits.map h.write) f (files (h.commitAll commits) f) := by
  refine Write.stands_runs (fun w hw => ?_) f
  obtain ⟨c, -, rfl⟩ := List.mem_map.mp hw
  exact h.replaces_write c

theorem getElem?_write {commits : List (Commit F)} {j : Nat} {w : Write RegistryFile ForgeError}
    (hw : (commits.map h.write)[j]? = some w) : ∃ c, commits[j]? = some c ∧ w = h.write c := by
  rw [List.getElem?_map, Option.map_eq_some_iff] at hw
  obtain ⟨c, hc, rfl⟩ := hw
  exact ⟨c, hc, rfl⟩

/-- A completed commit of a record wrote its JSON. -/
theorem completed_candidate {commits : List (Commit F)} {j pid budget : Nat} {r : GenerationRecord F}
    (hj : commits[j]? = some (.candidate pid r budget)) (hc : h.Completed commits j) :
    Write.Completed (commits.map h.write) j (h.write (.candidate pid r budget)) ∧
      (h.write (.candidate pid r budget)).bytes.isSome := by
  obtain ⟨w, hw⟩ := hc
  obtain ⟨c, hget, rfl⟩ := h.getElem?_write hw.1
  obtain rfl := Option.some.inj (hj.symm.trans hget)
  refine ⟨hw, ?_⟩
  have hok := hw.2
  cases hvec : h.toVec r with
  | ok payload => rw [write, hvec]; rfl
  | error e =>
    have hprog : (h.write (.candidate pid r budget)).prog = h.commitCandidate pid r := rfl
    rw [hprog, commitCandidate, hvec] at hok
    cases hok

/-- A candidate has no file and no completed commit, or its file is the JSON of a current record. -/
theorem candidate_cases (commits : List (Commit F)) (id : UInt64) :
    (files (h.commitAll commits) (.candidate id) = none ∧
        ∀ j pid r budget, commits[j]? = some (.candidate pid r budget) → h.Completed commits j → r.candidateId ≠ id) ∨
      ∃ r payload, r.candidateId = id ∧ h.Current commits r ∧ h.toVec r = .ok payload ∧
        files (h.commitAll commits) (.candidate id) = some payload := by
  have hstands := h.stands commits (.candidate id)
  generalize files (h.commitAll commits) (.candidate id) = content at hstands
  cases hstands with
  | absent none_completed =>
    refine .inl ⟨rfl, fun j pid r budget hj hc hid => ?_⟩
    obtain ⟨hw, hbytes⟩ := h.completed_candidate hj hc
    exact none_completed j _ hw hbytes (congrArg RegistryFile.candidate hid)
  | @written i w b at_i target bytes last =>
    obtain ⟨c, hget, rfl⟩ := h.getElem?_write at_i
    cases c with
    | raw pid key payload budget => cases target
    | candidate pid r budget =>
      have hid : r.candidateId = id := RegistryFile.candidate.inj target
      have hvec : h.toVec r = .ok b := by
        have hbytes : (h.toVec r).toOption = some b := bytes
        cases hr : h.toVec r with
        | error e => rw [hr] at hbytes; cases hbytes
        | ok payload => rw [hr] at hbytes; rw [Option.some.inj hbytes]
      refine .inr ⟨r, b, hid, ⟨i, pid, budget, hget, fun j pid' r' budget' hj hsame hc => ?_⟩, hvec, rfl⟩
      obtain ⟨hw, hsome⟩ := h.completed_candidate hj hc
      exact last j _ hw hsome (congrArg RegistryFile.candidate (hsame.trans hid))

/-- A raw key reads as the payload of a commit to it that no completed one came after, or as nothing when none was
completed. -/
inductive ReadsRaw (commits : List (Commit F)) (key : Bytes) : Option Bytes → Prop
  | absent (none_completed : ∀ j pid payload budget, commits[j]? = some (.raw pid key payload budget) →
      ¬ h.Completed commits j) : ReadsRaw commits key none
  | written {i pid : Nat} {payload : Bytes} {budget : Nat} (at_i : commits[i]? = some (.raw pid key payload budget))
      (last : ∀ j pid' payload' budget', commits[j]? = some (.raw pid' key payload' budget') →
        h.Completed commits j → j ≤ i) : ReadsRaw commits key (some payload)

theorem readsRaw_getRaw (commits : List (Commit F)) (key : Bytes) :
    h.ReadsRaw commits key (getRaw (h.commitAll commits) key) := by
  have hcompleted : ∀ {j pid payload budget}, commits[j]? = some (.raw pid key payload budget) →
      h.Completed commits j → Write.Completed (commits.map h.write) j (h.write (.raw pid key payload budget)) := by
    rintro j pid payload budget hj ⟨w, hw⟩
    obtain ⟨c, hget, rfl⟩ := h.getElem?_write hw.1
    obtain rfl := Option.some.inj (hj.symm.trans hget)
    exact hw
  have hstands := h.stands commits (.raw key)
  rw [getRaw]
  generalize files (h.commitAll commits) (.raw key) = content at hstands
  cases hstands with
  | absent none_completed =>
    exact .absent fun j pid payload budget hj hc => none_completed j _ (hcompleted hj hc) rfl rfl
  | @written i w b at_i target bytes last =>
    obtain ⟨c, hget, rfl⟩ := h.getElem?_write at_i
    cases c with
    | candidate pid r budget => cases target
    | raw pid key' payload budget =>
      obtain rfl := RegistryFile.raw.inj target
      obtain rfl := Option.some.inj bytes
      exact .written hget fun j _ _ _ hj hc => last j _ (hcompleted hj hc) rfl rfl

/-- A listing of the directory: each file of it once, in any order. -/
structure Lists (d : RegistryDisk) (listing : List (DiskPath RegistryFile)) : Prop where
  nodup : listing.Nodup
  mem_iff : ∀ p, p ∈ listing ↔ (d p).isSome

theorem Lists.mem_candidates {d : RegistryDisk} {listing : List (DiskPath RegistryFile)} (hlist : Lists d listing)
    (id : UInt64) : id ∈ listing.filterMap candidateOf ↔ (files d (.candidate id)).isSome := by
  rw [List.mem_filterMap]
  constructor
  · rintro ⟨p, hp, hid⟩
    rcases p with (_ | _) | _
    · obtain rfl := Option.some.inj hid
      exact (hlist.mem_iff _).mp hp
    · cases hid
    · cases hid
  · exact fun hsome => ⟨.file (.candidate id), (hlist.mem_iff _).mpr hsome, rfl⟩

theorem Lists.ascending {d : RegistryDisk} {listing : List (DiskPath RegistryFile)} (hlist : Lists d listing) :
    (sortBy (fun a b => compare a.toNat b.toNat) (listing.filterMap candidateOf)).Pairwise (· < ·) := by
  have hnodup : (listing.filterMap candidateOf).Nodup := by
    refine hlist.nodup.filterMap fun p q id hp hq => ?_
    rcases p with (_ | _) | _ <;> rcases q with (_ | _) | _ <;> cases hp <;> cases hq
    rfl
  have hsorted := pairwise_sortBy UInt64.toNat (listing.filterMap candidateOf)
  have hdistinct := (perm_sortBy (fun a b => compare a.toNat b.toNat) _).nodup_iff.mpr hnodup
  refine (hsorted.and hdistinct).imp fun {a b} hab => ?_
  have hle : a.toNat ≤ b.toNat := Nat.isLE_compare.mp hab.1
  exact UInt64.lt_iff_toNat_lt.mpr (lt_of_le_of_ne hle fun heq => hab.2 (UInt64.toNat_inj.mp heq))

/-- After commits by any processes, each stopped anywhere, the registry walks through the ids in ascending order, one
record for each, which is one that no completed commit of its candidate came after; no completed commit is left out, and
the raw keys are kept likewise. -/
theorem registry_survives {commits : List (Commit F)} {listing : List (DiskPath RegistryFile)}
    (hlist : Lists (h.commitAll commits) listing) :
    ∃ records : List (GenerationRecord F), records.Pairwise (fun r s => r.candidateId < s.candidateId) ∧
      (∀ r ∈ records, h.Current commits r) ∧
      (∀ j pid r budget, commits[j]? = some (.candidate pid r budget) → h.Completed commits j →
        ∃ s ∈ records, s.candidateId = r.candidateId) ∧
      h.iter (h.commitAll commits) listing = records.map (fun r => h.back ("Désérialisation ".toList ++
        h.display (RegistryFile.candidate r.candidateId).name ++ ": ".toList) r) ∧
      (∀ id, h.getCandidateRecord (h.commitAll commits) id = h.answer (records.find? (·.candidateId = id))) ∧
      ∀ key, h.ReadsRaw commits key (getRaw (h.commitAll commits) key) := by
  have hnonempty : Nonempty (GenerationRecord F) := ⟨⟨0, [], [], 0, []⟩⟩
  have hsome : ∀ id, (files (h.commitAll commits) (.candidate id)).isSome → ∃ r, r.candidateId = id ∧
      h.Current commits r ∧ ∃ payload, h.toVec r = .ok payload ∧
      files (h.commitAll commits) (.candidate id) = some payload := by
    intro id hid
    rcases h.candidate_cases commits id with ⟨hnone, -⟩ | ⟨r, payload, hr, hcurrent, hvec, hfile⟩
    · rw [hnone] at hid
      cases hid
    · exact ⟨r, hr, hcurrent, payload, hvec, hfile⟩
  choose! record hrecord using hsome
  have hmem : ∀ id, id ∈ sortBy (fun a b => compare a.toNat b.toNat) (listing.filterMap candidateOf) ↔
      (files (h.commitAll commits) (.candidate id)).isSome :=
    fun id => (mem_sortBy _ _ id).trans (hlist.mem_candidates id)
  have hascending := hlist.ascending
  generalize hids : sortBy (fun a b => compare a.toNat b.toNat) (listing.filterMap candidateOf) = ids at hmem hascending
  refine ⟨ids.map record, ?_, ?_, ?_, ?_, ?_, h.readsRaw_getRaw commits⟩
  · refine List.pairwise_map.mpr (hascending.imp_of_mem fun ha hb hlt => ?_)
    rwa [(hrecord _ ((hmem _).mp ha)).1, (hrecord _ ((hmem _).mp hb)).1]
  · intro r hr
    obtain ⟨id, hid, rfl⟩ := List.mem_map.mp hr
    exact (hrecord id ((hmem id).mp hid)).2.1
  · intro j pid r budget hj hc
    rcases h.candidate_cases commits r.candidateId with ⟨-, hnone⟩ | ⟨s, payload, -, -, -, hfile⟩
    · exact absurd rfl (hnone j pid r budget hj hc)
    · have hid : (files (h.commitAll commits) (.candidate r.candidateId)).isSome := by rw [hfile]; rfl
      exact ⟨_, List.mem_map_of_mem ((hmem _).mpr hid), (hrecord _ hid).1⟩
  · simp only [iter]
    rw [filter_candidates, sort_candidates, hids, List.map_map, List.map_map]
    refine List.map_congr_left fun id hid => ?_
    obtain ⟨hsame, -, payload, hvec, hfile⟩ := hrecord id ((hmem id).mp hid)
    have hcontent : h.commitAll commits (.file (.candidate id)) = some payload := hfile
    simp only [Function.comp_apply, hcontent, hsame, back, hvec]
    rfl
  · intro id
    cases hfind : (ids.map record).find? (·.candidateId = id) with
    | none =>
      have hnot : files (h.commitAll commits) (.candidate id) = none := by
        rw [← Option.not_isSome_iff_eq_none]
        intro hid
        have hne := List.find?_eq_none.mp hfind (record id) (List.mem_map_of_mem ((hmem id).mpr hid))
        exact hne (decide_eq_true (hrecord id hid).1)
      rw [getCandidateRecord, hnot, answer]
    | some r =>
      obtain ⟨id', hid', rfl⟩ := List.mem_map.mp (List.mem_of_find?_eq_some hfind)
      obtain ⟨hsame, -, payload, hvec, hfile⟩ := hrecord id' ((hmem id').mp hid')
      have hid : (record id').candidateId = id := by simpa using List.find?_some hfind
      obtain rfl : id' = id := hsame.symm.trans hid
      rw [getCandidateRecord, hfile, answer, back, hvec]
      rfl

def shortHost : RegistryHost ℚ where
  toVec r := .ok (leOf 8 r.candidateId.toNat)
  fromSlice bytes := .ok ⟨UInt64.ofNat (leTo bytes), [], [], 0, []⟩
  display name := name

def twoCommits : List (Commit ℚ) :=
  [.candidate 1 ⟨9, "x".toList, [1], 0, []⟩ 20, .candidate 2 ⟨4, "y".toList, [], 1, [9]⟩ 3]

theorem lists_twoCommits : Lists (shortHost.commitAll twoCommits) [.file (.candidate 9), .temp (.candidate 4) 2] where
  nodup := by decide
  mem_iff p := by
    simp [commitAll, twoCommits, Write.runs, write, commitCandidate, shortHost, atomicWrite, overwrite, truncate,
      writeAll, rename, act, Bind.bind, Pure.pure, leOf, append, Function.update]
    split_ifs <;> simp_all

theorem registry_survives_two : ∃ records : List (GenerationRecord ℚ), ∃ path : RegistryDisk,
    path = shortHost.commitAll twoCommits ∧ (∀ r ∈ records, shortHost.Current twoCommits r) ∧
      shortHost.iter path [.file (.candidate 9), .temp (.candidate 4) 2] =
        records.map (fun r => shortHost.back ("Désérialisation ".toList ++
          shortHost.display (RegistryFile.candidate r.candidateId).name ++ ": ".toList) r) := by
  obtain ⟨records, -, hcurrent, -, hiter, -⟩ := shortHost.registry_survives lists_twoCommits
  exact ⟨records, _, rfl, hcurrent, hiter⟩

end RegistryHost

end Ccos.Forge
