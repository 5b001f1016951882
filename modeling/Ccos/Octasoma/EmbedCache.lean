import Ccos.Lib.Durable
import Ccos.Lib.Runs
import Ccos.Memory.Types

/-!
# The embedding cache

An embedder that may answer differently each time is asked once for each content: its answers are kept by the hash of
the text, and a file carries them from one process to the next.
-/

open Durable Runs

namespace Ccos

inductive EmbedCacheError
  | io (e : Str)
  | format (why : Str)
  | mismatch (expectedLabel foundLabel : Str) (expectedDim foundDim : Nat)

structure CacheFile (F : Type) where
  version : Nat
  label : Str
  dim : Nat
  entries : BTreeMap Hash (List F)

structure CachedEmbedder (F : Type) where
  cache : BTreeMap Hash (List F)
  hits : Nat
  misses : Nat

/-- The embedder that is wrapped answers its `n`-th question with `inner n`; its errors are an `E`. -/
structure EmbedHost (F E : Type) where
  inner : Nat → Str → Except E (List F)
  dim : Nat
  label : Str
  sha256Hex : Str → Hash
  toJson : CacheFile F → Except Str Str
  fromJson : Str → Except Str (CacheFile F)
  notFound : Str
  invalidUtf8 : Str
  alreadyExists : Str

def cacheFileVersion : Nat := 1

/-- A workspace with one cache file, the process that serves it, unless its load was refused, and the number of
questions that the wrapped embedder has been asked. -/
structure EmbedWorkspace (F : Type) where
  disk : Disk Unit
  session : Option (CachedEmbedder F)
  asked : Nat

/-- A save that the machine stops after so many actions; `restart` ends the process and loads in another. -/
inductive EmbedOp
  | embed (text : Str)
  | save (pid budget : Nat)
  | restart

namespace EmbedHost

variable {F E : Type} (h : EmbedHost F E)

def empty : CachedEmbedder F := { cache := ∅, hits := 0, misses := 0 }

/-- The checks of a file that has been read. -/
def accept (label : Str) (dim : Nat) (file : CacheFile F) : Except EmbedCacheError (CachedEmbedder F) :=
  if file.version ≠ cacheFileVersion then
    .error (.format ("unsupported cache version ".toList ++ natStr file.version ++ " (this build reads ".toList ++
      natStr cacheFileVersion ++ ")".toList))
  else if file.label ≠ label ∨ file.dim ≠ dim then .error (.mismatch label file.label dim file.dim)
  else
    match file.entries.toList.find? fun entry => entry.2.length ≠ file.dim with
    | some (k, v) =>
      .error (.format ("entry ".toList ++ k ++ " has ".toList ++ natStr v.length ++ " components, expected ".toList ++
        natStr file.dim))
    | none => .ok { cache := file.entries, hits := 0, misses := 0 }

def load (label : Str) (dim : Nat) (d : Disk Unit) : Except EmbedCacheError (CachedEmbedder F) :=
  match files d () with
  | none => .error (.io h.notFound)
  | some raw =>
    match decodeUtf8 raw with
    | none => .error (.io h.invalidUtf8)
    | some text =>
      match h.fromJson text with
      | .error e => .error (.format ("not a cache file: ".toList ++ e))
      | .ok file => accept label dim file

def fileOf (c : CachedEmbedder F) : CacheFile F where
  version := cacheFileVersion
  label := h.label
  dim := h.dim
  entries := c.cache

def save (pid : Nat) (c : CachedEmbedder F) : Prog Unit EmbedCacheError Unit :=
  match h.toJson (h.fileOf c) with
  | .error e => fail (.format ("serialise: ".toList ++ e))
  | .ok json => replace (.io h.alreadyExists) pid () (utf8 json)

/-- The answer, the cache after it, and the questions asked so far. -/
def embed (text : Str) (c : CachedEmbedder F) (asked : Nat) : Except E (List F) × CachedEmbedder F × Nat :=
  let key := h.sha256Hex text
  match c.cache[key]? with
  | some v => (.ok v, { c with hits := c.hits + 1 }, asked)
  | none =>
    match h.inner asked text with
    | .error e => (.error e, c, asked + 1)
    | .ok v => (.ok v, { c with misses := c.misses + 1, cache := c.cache.insert key v }, asked + 1)

def start : EmbedWorkspace F where
  disk := fun _ => none
  session := some empty
  asked := 0

def step (s : EmbedWorkspace F) : EmbedOp → EmbedWorkspace F
  | .embed text =>
    match s.session with
    | none => s
    | some c => { s with session := some (h.embed text c s.asked).2.1, asked := (h.embed text c s.asked).2.2 }
  | .save pid budget =>
    match s.session with
    | none => s
    | some c => { s with disk := (h.save pid c { disk := s.disk, budget }).2.disk }
  | .restart => { s with session := (h.load h.label h.dim s.disk).toOption }

def after (ops : List EmbedOp) : EmbedWorkspace F := run h.step start ops

/-- What the workspace answers to a text, if it has a session. -/
def answer (s : EmbedWorkspace F) (text : Str) : Option (Except E (List F)) :=
  s.session.map fun c => (h.embed text c s.asked).1

/-- What reads back from a file is what was written: a number that does not survive JSON fails to read. -/
def Faithful : Prop := ∀ file json file', h.toJson file = .ok json → h.fromJson json = .ok file' → file' = file

/-- The file is that of a cache with `P`. -/
def Saved (P : CachedEmbedder F → Prop) (d : Disk Unit) : Prop :=
  ∃ c json, h.toJson (h.fileOf c) = .ok json ∧ files d () = some (utf8 json) ∧ P c

/-- Every entry is an answer that the wrapped embedder has given to a text of that hash. -/
def Given (asked : Nat) (c : CachedEmbedder F) : Prop :=
  ∀ key v, c.cache[key]? = some v → ∃ n text, n < asked ∧ h.inner n text = .ok v ∧ h.sha256Hex text = key

structure Honest (s : EmbedWorkspace F) : Prop where
  session : ∀ c, s.session = some c → h.Given s.asked c
  file : files s.disk () = none ∨ h.Saved (h.Given s.asked) s.disk

def Cached (key : Hash) (v : List F) (s : EmbedWorkspace F) : Prop := ∀ c, s.session = some c → c.cache[key]? = some v

/-- The entry is in the session and in the file. -/
structure Stored (key : Hash) (v : List F) (s : EmbedWorkspace F) : Prop where
  session : Cached key v s
  file : h.Saved (fun c => c.cache[key]? = some v) s.disk

variable {h}

/-! ## Saves and loads -/

theorem save_spec (pid : Nat) (c : CachedEmbedder F) (kept : Unit → Option ByteCodec.Bytes) :
    Spec (fun d => files d = kept) (h.save pid c)
      (fun _ d => ∃ json, h.toJson (h.fileOf c) = .ok json ∧ files d = Function.update kept () (some (utf8 json)))
      (fun d => files d = kept) := by
  unfold save
  cases hjson : h.toJson (h.fileOf c) with
  | error e => exact Spec.fail fun _ hd => hd
  | ok json =>
    apply (replace_spec _ _).mono
    · exact fun _ d hd => ⟨json, rfl, hd⟩
    · exact fun _ hd => hd

theorem saved_of_ok (pid budget : Nat) {c : CachedEmbedder F} {d : Disk Unit} {P : CachedEmbedder F → Prop}
    (hP : P c) (hok : (h.save pid c { disk := d, budget }).1 = .ok ()) :
    h.Saved P (h.save pid c { disk := d, budget }).2.disk := by
  obtain ⟨json, hjson, hfiles⟩ := (save_spec pid c (files d)).of_ok rfl hok
  refine ⟨c, json, hjson, ?_, hP⟩
  rw [hfiles, Function.update_self]

theorem saved_or_kept (pid budget : Nat) {c : CachedEmbedder F} {d : Disk Unit} {P : CachedEmbedder F → Prop}
    (hP : P c) : h.Saved P (h.save pid c { disk := d, budget }).2.disk ∨
      files (h.save pid c { disk := d, budget }).2.disk = files d := by
  cases hresult : (h.save pid c { disk := d, budget }).1 with
  | ok u => exact .inl (saved_of_ok pid budget hP hresult)
  | error fault => exact .inr ((save_spec pid c (files d)).of_error rfl hresult)

theorem accept_eq_ok {label : Str} {dim : Nat} {file : CacheFile F} {c : CachedEmbedder F}
    (haccept : accept label dim file = .ok c) :
    file.label = label ∧ file.dim = dim ∧ c.cache = file.entries := by
  unfold accept at haccept
  split at haccept
  · cases haccept
  · split at haccept
    · cases haccept
    · next hsame =>
      split at haccept
      · cases haccept
      · cases haccept
        tauto

/-- What loads from a saved file is the cache that was saved, and only under its own label and dimension. -/
theorem load_of_saved (hfaithful : h.Faithful) {P : CachedEmbedder F → Prop} {d : Disk Unit}
    (hsaved : h.Saved P d) {label : Str} {dim : Nat} {c : CachedEmbedder F} (hload : h.load label dim d = .ok c) :
    h.label = label ∧ h.dim = dim ∧ ∃ saved, P saved ∧ c.cache = saved.cache := by
  obtain ⟨saved, json, hjson, hfile, hP⟩ := hsaved
  unfold load at hload
  simp only [hfile, decodeUtf8_utf8] at hload
  cases hfrom : h.fromJson json with
  | error e => simp [hfrom] at hload
  | ok file =>
    obtain rfl := hfaithful _ _ _ hjson hfrom
    simp only [hfrom] at hload
    obtain ⟨hlabel, hdim, hcache⟩ := accept_eq_ok hload
    exact ⟨hlabel, hdim, saved, hP, hcache⟩

/-! ## What an embedding does to the cache -/

theorem embed_cases (text : Str) (c : CachedEmbedder F) (asked : Nat) :
    (∃ v, c.cache[h.sha256Hex text]? = some v ∧
        h.embed text c asked = (.ok v, { c with hits := c.hits + 1 }, asked)) ∨
      (∃ e, c.cache[h.sha256Hex text]? = none ∧ h.embed text c asked = (.error e, c, asked + 1)) ∨
      ∃ v, c.cache[h.sha256Hex text]? = none ∧ h.inner asked text = .ok v ∧
        h.embed text c asked = (.ok v,
          { c with misses := c.misses + 1, cache := c.cache.insert (h.sha256Hex text) v }, asked + 1) := by
  cases hkey : c.cache[h.sha256Hex text]? with
  | some v => exact .inl ⟨v, rfl, by simp [embed, hkey]⟩
  | none =>
    cases hinner : h.inner asked text with
    | error e => exact .inr (.inl ⟨e, rfl, by simp [embed, hkey, hinner]⟩)
    | ok v => exact .inr (.inr ⟨v, rfl, rfl, by simp [embed, hkey, hinner]⟩)

theorem embed_of_cached {text : Str} {c : CachedEmbedder F} {v : List F} (hv : c.cache[h.sha256Hex text]? = some v)
    (asked : Nat) : (h.embed text c asked).1 = .ok v := by
  unfold embed
  simp [hv]

/-- An entry that is there stays as it is. -/
theorem embed_keeps {key : Hash} {v : List F} {c : CachedEmbedder F} (hv : c.cache[key]? = some v) (text : Str)
    (asked : Nat) : (h.embed text c asked).2.1.cache[key]? = some v := by
  rcases h.embed_cases text c asked with ⟨v', -, heq⟩ | ⟨e, -, heq⟩ | ⟨v', hnone, -, heq⟩
  · rw [heq]
    exact hv
  · rw [heq]
    exact hv
  · have hne : h.sha256Hex text ≠ key := by
      rintro rfl
      rw [hnone] at hv
      cases hv
    rw [heq]
    simpa [Std.ExtTreeMap.getElem?_insert, hne] using hv

/-- What was answered is there afterwards. -/
theorem embed_files {text : Str} {c : CachedEmbedder F} {v : List F} {asked : Nat}
    (hok : (h.embed text c asked).1 = .ok v) : (h.embed text c asked).2.1.cache[h.sha256Hex text]? = some v := by
  rcases h.embed_cases text c asked with ⟨v', hv, heq⟩ | ⟨e, -, heq⟩ | ⟨v', -, -, heq⟩
  · rw [heq] at hok ⊢
    rw [← Except.ok.inj hok]
    exact hv
  · rw [heq] at hok
    cases hok
  · rw [heq] at hok ⊢
    rw [← Except.ok.inj hok]
    simp

/-! ## Entries stand -/

theorem Given.mono {asked asked' : Nat} {c : CachedEmbedder F} (hc : h.Given asked c) (hle : asked ≤ asked') :
    h.Given asked' c := by
  intro key v hv
  obtain ⟨n, text, hn, hinner, hkey⟩ := hc key v hv
  exact ⟨n, text, by omega, hinner, hkey⟩

theorem Saved.mono {P Q : CachedEmbedder F → Prop} {d : Disk Unit} (hd : h.Saved P d) (himp : ∀ c, P c → Q c) :
    h.Saved Q d := by
  obtain ⟨c, json, hjson, hfile, hP⟩ := hd
  exact ⟨c, json, hjson, hfile, himp c hP⟩

theorem Saved.of_files {P : CachedEmbedder F → Prop} {d d' : Disk Unit} (hd : h.Saved P d)
    (hfiles : files d' = files d) : h.Saved P d' := by
  obtain ⟨c, json, hjson, hfile, hP⟩ := hd
  exact ⟨c, json, hjson, by rw [hfiles, hfile], hP⟩

theorem Given.embed {asked : Nat} {c : CachedEmbedder F} (hc : h.Given asked c) (text : Str) :
    h.Given (h.embed text c asked).2.2 (h.embed text c asked).2.1 ∧ asked ≤ (h.embed text c asked).2.2 := by
  rcases h.embed_cases text c asked with ⟨v, -, heq⟩ | ⟨e, -, heq⟩ | ⟨v, -, hinner, heq⟩
  · rw [heq]
    exact ⟨hc, le_refl _⟩
  · rw [heq]
    exact ⟨hc.mono (Nat.le_succ _), Nat.le_succ _⟩
  · rw [heq]
    refine ⟨fun key v' hv' => ?_, Nat.le_succ _⟩
    by_cases hkey : h.sha256Hex text = key
    · obtain rfl : v = v' := by simpa [Std.ExtTreeMap.getElem?_insert, hkey] using hv'
      exact ⟨asked, text, Nat.lt_succ_self _, hinner, hkey⟩
    · have hold : c.cache[key]? = some v' := by simpa [Std.ExtTreeMap.getElem?_insert, hkey] using hv'
      exact hc.mono (Nat.le_succ _) key v' hold

theorem Honest.step (hfaithful : h.Faithful) {s : EmbedWorkspace F} (hs : h.Honest s) (op : EmbedOp) :
    h.Honest (h.step s op) := by
  cases op with
  | embed text =>
    cases hsession : s.session with
    | none => simpa [EmbedHost.step, hsession] using hs
    | some c =>
      obtain ⟨hgiven, hle⟩ := (hs.session c hsession).embed text
      simp only [EmbedHost.step, hsession]
      refine ⟨fun c' hc' => ?_, hs.file.imp_right fun hd => hd.mono fun _ hc' => hc'.mono hle⟩
      cases hc'
      exact hgiven
  | save pid budget =>
    cases hsession : s.session with
    | none => simpa [EmbedHost.step, hsession] using hs
    | some c =>
      have hgiven := hs.session c hsession
      simp only [EmbedHost.step, hsession]
      refine ⟨fun c' hc' => ?_, ?_⟩
      · cases hc'
        exact hgiven
      · rcases saved_or_kept pid budget (d := s.disk) hgiven with hsaved | hkept
        · exact .inr hsaved
        · exact hs.file.imp (fun hnone => by rw [hkept, hnone]) fun hd => hd.of_files hkept
  | restart =>
    simp only [EmbedHost.step]
    refine ⟨fun c hc => ?_, hs.file⟩
    cases hload : h.load h.label h.dim s.disk with
    | error e => simp [hload, Except.toOption] at hc
    | ok c' =>
      obtain rfl : c' = c := by simpa [hload, Except.toOption] using hc
      rcases hs.file with hnone | hsaved
      · simp [load, hnone] at hload
      · obtain ⟨-, -, saved, hgiven, hcache⟩ := load_of_saved hfaithful hsaved hload
        unfold Given at hgiven ⊢
        rwa [hcache]

theorem Cached.step {key : Hash} {v : List F} {s : EmbedWorkspace F} (hs : Cached key v s) {op : EmbedOp}
    (hop : op ≠ .restart) : Cached key v (h.step s op) := by
  cases op with
  | restart => exact absurd rfl hop
  | embed text =>
    cases hsession : s.session with
    | none => simpa [EmbedHost.step, hsession] using hs
    | some c =>
      simp only [EmbedHost.step, hsession]
      intro c' hc'
      cases hc'
      exact embed_keeps (hs c hsession) text s.asked
  | save pid budget =>
    cases hsession : s.session with
    | none => simpa [EmbedHost.step, hsession] using hs
    | some c => simpa [EmbedHost.step, hsession, Cached] using hs c hsession

theorem Stored.step (hfaithful : h.Faithful) {key : Hash} {v : List F} {s : EmbedWorkspace F}
    (hs : h.Stored key v s) (op : EmbedOp) : h.Stored key v (h.step s op) := by
  cases op with
  | embed text =>
    refine ⟨hs.session.step (by simp), ?_⟩
    cases hsession : s.session <;> simpa [EmbedHost.step, hsession] using hs.file
  | save pid budget =>
    refine ⟨hs.session.step (by simp), ?_⟩
    cases hsession : s.session with
    | none => simpa [EmbedHost.step, hsession] using hs.file
    | some c =>
      simp only [EmbedHost.step, hsession]
      rcases saved_or_kept pid budget (d := s.disk)
        (P := fun c => c.cache[key]? = some v) (hs.session c hsession) with hsaved | hkept
      · exact hsaved
      · exact hs.file.of_files hkept
  | restart =>
    refine ⟨fun c hc => ?_, hs.file⟩
    simp only [EmbedHost.step] at hc
    cases hload : h.load h.label h.dim s.disk with
    | error e => simp [hload, Except.toOption] at hc
    | ok c' =>
      obtain rfl : c' = c := by simpa [hload, Except.toOption] using hc
      obtain ⟨-, -, saved, hv, hcache⟩ := load_of_saved hfaithful hs.file hload
      rwa [hcache]

/-! ## Runs -/

variable (h) in
/-- A save by the session that reports success. -/
def Completes (s : EmbedWorkspace F) (pid budget : Nat) : Prop :=
  ∃ c, s.session = some c ∧ (h.save pid c { disk := s.disk, budget }).1 = .ok ()

theorem after_append (ops later : List EmbedOp) : h.after (ops ++ later) = run h.step (h.after ops) later :=
  List.foldl_append

theorem honest_after (hfaithful : h.Faithful) (ops : List EmbedOp) : h.Honest (h.after ops) := by
  apply run_keeps
  · refine ⟨fun c hc => ?_, .inl rfl⟩
    cases hc
    intro key v hv
    simp [empty] at hv
  · exact fun s op hs => hs.step hfaithful op

theorem Cached.run {key : Hash} {v : List F} {s : EmbedWorkspace F} (hs : Cached key v s) {ops : List EmbedOp}
    (hops : .restart ∉ ops) : Cached key v (run h.step s ops) := by
  induction ops generalizing s with
  | nil => exact hs
  | cons op ops ih =>
    rw [List.mem_cons, not_or] at hops
    exact ih (hs.step (Ne.symm hops.1)) hops.2

theorem Stored.run (hfaithful : h.Faithful) {key : Hash} {v : List F} {s : EmbedWorkspace F} (hs : h.Stored key v s)
    (ops : List EmbedOp) : h.Stored key v (run h.step s ops) :=
  run_keeps hs fun _ op hs => hs.step hfaithful op

/-- Without a restart the session goes on. -/
theorem session_run {s : EmbedWorkspace F} (hs : s.session.isSome) {ops : List EmbedOp} (hops : .restart ∉ ops) :
    (run h.step s ops).session.isSome := by
  induction ops generalizing s with
  | nil => exact hs
  | cons op ops ih =>
    rw [List.mem_cons, not_or] at hops
    apply ih _ hops.2
    obtain ⟨c, hc⟩ := Option.isSome_iff_exists.mp hs
    cases op with
    | restart => exact absurd rfl hops.1
    | embed text => simp [EmbedHost.step, hc]
    | save pid budget => simp [EmbedHost.step, hc]

theorem answer_of_cached {text : Str} {v : List F} {s : EmbedWorkspace F} (hs : Cached (h.sha256Hex text) v s) :
    h.answer s text = none ∨ h.answer s text = some (.ok v) := by
  cases hsession : s.session with
  | none => exact .inl (by simp [answer, hsession])
  | some c => exact .inr (by simp [answer, hsession, embed_of_cached (hs c hsession)])

/-- Once it is answered, a text is cached. -/
theorem cached_of_answer {s : EmbedWorkspace F} {text : Str} {v : List F} (hv : h.answer s text = some (.ok v)) :
    Cached (h.sha256Hex text) v (h.step s (.embed text)) ∧ (h.step s (.embed text)).session.isSome := by
  cases hsession : s.session with
  | none => simp [answer, hsession] at hv
  | some c =>
    have hok : (h.embed text c s.asked).1 = .ok v := by simpa [answer, hsession] using hv
    simp only [EmbedHost.step, hsession]
    refine ⟨fun c' hc' => ?_, rfl⟩
    cases hc'
    exact embed_files hok

def oneEntry : CacheFile ℚ where
  version := 1
  label := "e".toList
  dim := 1
  entries := (∅ : BTreeMap Hash (List ℚ)).insert "a".toList [0]

def drifting : EmbedHost ℚ Unit where
  inner n _ := .ok [(n : ℚ)]
  dim := 1
  label := "e".toList
  sha256Hex text := text
  toJson file :=
    if file.version = 1 ∧ file.label = "e".toList ∧ file.dim = 1 ∧ file.entries.toList = oneEntry.entries.toList then
      .ok "1".toList
    else .error []
  fromJson json := if json = "1".toList then .ok oneEntry else .error []
  notFound := []
  invalidUtf8 := []
  alreadyExists := []

theorem faithful_drifting : drifting.Faithful := by
  rintro ⟨version, label, dim, entries⟩ json file' hwrite hread
  simp only [drifting] at hwrite hread
  split at hwrite
  · next hsame =>
    obtain ⟨rfl, rfl, rfl, hentries⟩ := hsame
    obtain rfl := Std.ExtTreeMap.toList_inj.mp hentries
    rw [← Except.ok.inj hwrite, if_pos rfl] at hread
    exact (Except.ok.inj hread).symm
  · cases hwrite

end EmbedHost

end Ccos
