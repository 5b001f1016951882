import Ccos.Session.Workspace
import Ccos.Session.Timeline
import Ccos.Memory.Facts
import Ccos.Lib.Runs

/-!
# A federation of agents

Agents act on their own sessions, export slices of their timelines and import what was exported
earlier. A bundle that was sent may arrive late, twice, out of order or never.
-/

open Std

set_option linter.unusedSectionVars false

namespace Ccos

/-! ## The system -/

/-- The sessions, and every bundle sent so far. -/
structure Federation (ι F : Type) where
  sessions : ι → AgentSession F
  sent : List (SyncBundle F)

inductive FedOp (ι F : Type)
  | act (i : ι) (op : LocalOp F)
  | exportFrom (i : ι) (since : Nat)
  /-- Agent `i` imports the `n`-th bundle sent. -/
  | deliver (i : ι) (n : Nat)

namespace Federation

variable {ι F : Type} [DecidableEq ι] [Scalar F]

/-- New sessions under the given names. -/
def start (names : ι → Str) : Federation ι F where
  sessions i := AgentSession.new.setAgent (names i)
  sent := []

def update (f : Federation ι F) (i : ι) (s : AgentSession F) : Federation ι F :=
  { f with sessions := fun j => if j = i then s else f.sessions j }

/-- A refused import changes nothing. -/
def importAt (t : SyncTools F) (f : Federation ι F) (i : ι) (b : SyncBundle F) : Federation ι F :=
  match (f.sessions i).importBundle t b with
  | .ok (s, _) => f.update i s
  | .error _ => f

def step (t : SyncTools F) (f : Federation ι F) : FedOp ι F → Federation ι F
  | .act i op => f.update i ((f.sessions i).act t.toSessionTools op)
  | .exportFrom i since =>
    if since ≤ (f.sessions i).len then
      match (f.sessions i).exportBundle since with
      | .ok b => { f with sent := f.sent ++ [b] }
      | .error _ => f
    else f
  | .deliver i n =>
    match f.sent[n]? with
    | some b => f.importAt t i b
    | none => f

def run (t : SyncTools F) (f : Federation ι F) (ops : List (FedOp ι F)) : Federation ι F :=
  Runs.run (step t) f ops

/-! ## What honest agents hold -/

/-- A slice of a log, as its author exported it at some time. -/
def IsSlice (t : SessionTools F) (b : SyncBundle F) (log : List (Op F)) : Prop :=
  ∃ told : List (Op F), told <+: log ∧ b.firstSeq ≤ told.length ∧
    b.ops = told.drop b.firstSeq ∧
    b.anchor = HashChain.head genesis (chainOver t genesis 0 (told.take b.firstSeq)) ∧
    b.chain = (chainOver t genesis 0 told).drop b.firstSeq ∧ b.pubkey = none ∧ b.sig = none

/-- A prefix of a log with its links. -/
def IsCopy (t : SessionTools F) (copy : ForeignLog F) (log : List (Op F)) : Prop :=
  copy.ops <+: log ∧ copy.chain = chainOver t genesis 0 copy.ops

/-- A session that has only its own log, under its name, from the start. -/
structure OwnLog (t : SyncTools F) (name : Str) (s : AgentSession F) : Prop where
  agent : s.agent = name
  folded : s.folded = 0
  anchor : s.anchor = genesis
  chained : s.Chained t.toSessionTools
  unpinned : s.knownKeys = ∅

structure Honest (t : SyncTools F) (names : ι → Str) (f : Federation ι F) : Prop where
  own : ∀ i, OwnLog t (names i) (f.sessions i)
  copies : ∀ i id copy, (f.sessions i).foreign[id]? = some copy →
    ∃ j, j ≠ i ∧ names j = id ∧ IsCopy t.toSessionTools copy (f.sessions j).ops
  slices : ∀ b ∈ f.sent, ∃ j, names j = b.agent ∧ IsSlice t.toSessionTools b (f.sessions j).ops

variable {t : SyncTools F} {names : ι → Str}

theorem honest_start : Honest t names (start (F := F) names) where
  own _ := ⟨rfl, rfl, rfl, rfl, rfl⟩
  copies i id copy h := by simp [start, AgentSession.new, AgentSession.setAgent] at h
  slices b hb := by simp [start] at hb

theorem OwnLog.extend {name : Str} {s s' : AgentSession F} (hs : OwnLog t name s)
    (h : AgentSession.Extends t.toSessionTools s s') : OwnLog t name s' :=
  ⟨h.agent.trans hs.agent, h.folded.trans hs.folded, h.anchor.trans hs.anchor, h.chained hs.chained,
    h.knownKeys.trans hs.unpinned⟩

theorem IsSlice.grow {b : SyncBundle F} {log longer : List (Op F)} (h : log <+: longer)
    (hb : IsSlice t.toSessionTools b log) : IsSlice t.toSessionTools b longer := by
  obtain ⟨told, htold, rest⟩ := hb
  exact ⟨told, htold.trans h, rest⟩

theorem IsCopy.grow {copy : ForeignLog F} {log longer : List (Op F)} (h : log <+: longer)
    (hc : IsCopy t.toSessionTools copy log) : IsCopy t.toSessionTools copy longer :=
  ⟨hc.1.trans h, hc.2⟩

theorem update_sessions (f : Federation ι F) (i j : ι) (s : AgentSession F) :
    (f.update i s).sessions j = if j = i then s else f.sessions j := rfl

/-- One agent changes: its own log grows, and what it holds are copies. -/
theorem Honest.update {f : Federation ι F} (hf : Honest t names f) {i : ι} {s : AgentSession F}
    (hown : OwnLog t (names i) s) (hgrow : (f.sessions i).ops <+: s.ops)
    (hcopies : ∀ id copy, s.foreign[id]? = some copy →
      ∃ j, j ≠ i ∧ names j = id ∧ IsCopy t.toSessionTools copy (f.sessions j).ops) :
    Honest t names (f.update i s) := by
  have hops : ∀ j, (f.sessions j).ops <+: ((f.update i s).sessions j).ops := by
    intro j
    rw [update_sessions]
    split
    · rename_i hj
      exact hj ▸ hgrow
    · exact List.prefix_refl _
  refine ⟨?_, ?_, ?_⟩
  · intro j
    rw [update_sessions]
    split
    · rename_i hj
      exact hj ▸ hown
    · exact hf.own j
  · intro j id copy hheld
    have : ∃ k, k ≠ j ∧ names k = id ∧ IsCopy t.toSessionTools copy (f.sessions k).ops := by
      rw [update_sessions] at hheld
      split at hheld
      · rename_i hj
        exact hj ▸ hcopies id copy hheld
      · exact hf.copies j id copy hheld
    obtain ⟨k, hk, hname, hcopy⟩ := this
    exact ⟨k, hk, hname, hcopy.grow (hops k)⟩
  · intro b hb
    obtain ⟨j, hname, hslice⟩ := hf.slices b hb
    exact ⟨j, hname, hslice.grow (hops j)⟩

/-! ## Exports are slices -/

theorem exportBundle_slice {s : AgentSession F} (hfolded : s.folded = 0) (hanchor : s.anchor = genesis)
    (hchain : s.Chained t.toSessionTools) {since : Nat} (hsince : since ≤ s.len) {b : SyncBundle F}
    (h : s.exportBundle since = .ok b) :
    b.agent = s.agent ∧ IsSlice t.toSessionTools b s.ops := by
  have hlen : since ≤ s.ops.length := by simpa only [AgentSession.len, hfolded, Nat.zero_add] using hsince
  have hchain' : s.chain = chainOver t.toSessionTools genesis 0 s.ops := by
    rw [hchain, hfolded, hanchor]
  unfold AgentSession.exportBundle at h
  simp only [hfolded, Nat.not_lt_zero, if_false, Nat.sub_zero, Nat.min_eq_left hlen] at h
  split at h
  · cases h
  · simp only [Except.ok.injEq] at h
    subst h
    refine ⟨rfl, s.ops, List.prefix_refl _, hlen, rfl, ?_, by rw [← hchain'], rfl, rfl⟩
    change (if since = 0 then s.anchor else s.chain[since - 1]?.getD []) =
      HashChain.head genesis (chainOver _ genesis 0 (s.ops.take since))
    by_cases hz : since = 0
    · subst hz
      rw [if_pos rfl, hanchor, List.take_zero]
      rfl
    · rw [if_neg hz, hchain', chainOver, chainOver, ← HashChain.take_linksOf,
        ← HashChain.head_take genesis _ (by omega) (by rwa [HashChain.length_linksOf]), Option.getD_some]

/-! ## Imports of slices -/

theorem brokenLink_over (t : SessionTools F) (prev : Hash) (seq : Nat) (ops : List (Op F)) :
    AgentSession.brokenLink t prev seq ops (HashChain.linksOf (opLinkHash t) prev seq ops) = none := by
  induction ops generalizing prev seq with
  | nil => rfl
  | cons op ops ih =>
    simp only [HashChain.linksOf, AgentSession.brokenLink, ne_eq, not_true_eq_false, if_false]
    exact ih _ _

theorem disagreement_drop {known links : List Hash} (h : known <+: links ∨ links <+: known) (seq : Nat) :
    AgentSession.disagreement known seq (links.drop seq) = none := by
  generalize hrest : links.drop seq = rest
  induction rest generalizing seq with
  | nil => rfl
  | cons link rest ih =>
    have hlink : links[seq]? = some link := by
      have := congrArg (·[0]?) hrest
      simpa using this
    have hnext : links.drop (seq + 1) = rest := by
      rw [← List.drop_drop, hrest]
      rfl
    simp only [AgentSession.disagreement]
    cases hk : known[seq]? with
    | none => rfl
    | some existing =>
      have hsame : existing = link := by
        rcases h with h | h
        · have := HashChain.getElem?_of_prefix h hk
          rw [hlink] at this
          exact (Option.some.inj this).symm
        · have := HashChain.getElem?_of_prefix h hlink
          rw [hk] at this
          exact Option.some.inj this
      simp only [hsame, ne_eq, not_true_eq_false, if_false]
      exact ih (seq + 1) hnext

/-- What is known of an agent: how many of its operations. -/
def known (s : AgentSession F) (id : Str) : Nat := ((s.foreign[id]?).map (·.ops.length)).getD 0

/-- A slice of a log continues every copy of that log that reaches its start. -/
theorem checkContinuity_slice {b : SyncBundle F} {log : List (Op F)}
    (hb : IsSlice t.toSessionTools b log) {copy : Option (ForeignLog F)}
    (hcopy : ∀ c, copy = some c → IsCopy t.toSessionTools c log) :
    AgentSession.checkContinuity b copy =
      if b.firstSeq > (copy.map (·.ops.length)).getD 0 then
        some (.gap ((copy.map (·.ops.length)).getD 0) b.firstSeq)
      else none := by
  cases copy with
  | none => rfl
  | some c =>
    obtain ⟨hpre, hchain⟩ := hcopy c rfl
    obtain ⟨told, htold, hfirst, hops, hanchor, hlinks, -⟩ := hb
    have hboth := List.prefix_or_prefix_of_prefix hpre htold
    have hchains : c.chain <+: chainOver t.toSessionTools genesis 0 told ∨
        chainOver t.toSessionTools genesis 0 told <+: c.chain := by
      rw [hchain]
      exact hboth.imp HashChain.linksOf_prefix HashChain.linksOf_prefix
    simp only [AgentSession.checkContinuity, Option.map_some, Option.getD_some]
    split
    · rfl
    · rename_i hreach
      have hanchored : ¬ (b.firstSeq > 0 ∧ c.chain[b.firstSeq - 1]? ≠ some b.anchor) := by
        rintro ⟨hpos, hne⟩
        refine hne ?_
        have htaken : told.take b.firstSeq = c.ops.take b.firstSeq := by
          rcases hboth with h | h <;> obtain ⟨rest, heq⟩ := h <;> rw [← heq]
          · exact List.take_append_of_le_length (by omega)
          · exact (List.take_append_of_le_length hfirst).symm
        have hlen : b.firstSeq ≤ c.chain.length := by
          rw [hchain, chainOver, HashChain.length_linksOf]
          omega
        rw [hanchor, htaken, chainOver, ← HashChain.take_linksOf, ← chainOver, ← hchain,
          HashChain.head_take genesis _ hpos hlen]
      rw [if_neg hanchored, hlinks, disagreement_drop hchains, Option.map_none]

theorem extendLog_slice {b : SyncBundle F} {log : List (Op F)} (hb : IsSlice t.toSessionTools b log)
    {copy : Option (ForeignLog F)} (hcopy : ∀ c, copy = some c → IsCopy t.toSessionTools c log)
    (hreach : b.firstSeq ≤ (copy.map (·.ops.length)).getD 0) :
    IsCopy t.toSessionTools (AgentSession.extendLog b copy).1 log := by
  obtain ⟨told, htold, hfirst, hops, -, hlinks, -⟩ := hb
  -- Without a copy the graft starts from the empty one.
  have hheld : IsCopy t.toSessionTools (copy.getD { ops := [], chain := [] }) log := by
    cases copy with
    | none => exact ⟨List.nil_prefix, rfl⟩
    | some c => exact hcopy c rfl
  have hreach' : b.firstSeq ≤ (copy.getD { ops := [], chain := [] }).ops.length := by
    cases copy <;> simpa using hreach
  generalize hc : copy.getD { ops := [], chain := [] } = c at hheld hreach'
  obtain ⟨hpre, hchain⟩ := hheld
  have hboth := List.prefix_or_prefix_of_prefix hpre htold
  have hgraft : (AgentSession.extendLog b copy).1.ops =
      HashChain.graft c.ops (told.drop b.firstSeq) b.firstSeq := by
    simp only [AgentSession.extendLog, hc, hops, HashChain.graft]
  have hgraftChain : (AgentSession.extendLog b copy).1.chain =
      HashChain.graft c.chain ((chainOver t.toSessionTools genesis 0 told).drop b.firstSeq) b.firstSeq := by
    simp only [AgentSession.extendLog, hc, hops, hlinks, HashChain.graft, List.length_drop, hchain,
      chainOver, HashChain.length_linksOf]
  refine ⟨?_, ?_⟩
  · rw [hgraft]
    exact HashChain.graft_prefix hpre htold hreach' hfirst
  · rw [hgraftChain, hgraft, hchain]
    exact HashChain.graft_linksOf _ hboth hreach' hfirst

/-- How an honest session answers a slice of an honest log. -/
theorem importBundle_slice {s : AgentSession F} {b : SyncBundle F} {log : List (Op F)}
    (hnamed : b.agent ≠ []) (hkeys : s.knownKeys = ∅) (hb : IsSlice t.toSessionTools b log)
    (hcopy : ∀ c, s.foreign[b.agent]? = some c → IsCopy t.toSessionTools c log) :
    s.importBundle t b =
      if b.agent = s.agent then .error .selfImport
      else if b.firstSeq > known s b.agent then .error (.gap (known s b.agent) b.firstSeq)
      else
        let extended := AgentSession.extendLog b s.foreign[b.agent]?
        .ok ({ s with foreign := s.foreign.insert b.agent extended.1 }, extended.2) := by
  have hcont : AgentSession.checkContinuity b s.foreign[b.agent]? =
      if b.firstSeq > known s b.agent then some (.gap (known s b.agent) b.firstSeq) else none :=
    checkContinuity_slice hb hcopy
  obtain ⟨told, htold, hfirst, hops, hanchor, hlinks, hpub, hsig⟩ := hb
  have hauth : s.checkAuthenticity t b = .ok none := by
    simp [AgentSession.checkAuthenticity, hpub, hsig, hkeys]
  have hlen : b.ops.length = b.chain.length := by
    rw [hops, hlinks, List.length_drop, List.length_drop, chainOver, HashChain.length_linksOf]
  have hgen : ¬ (b.firstSeq = 0 ∧ b.anchor ≠ genesis) := by
    rintro ⟨hz, hne⟩
    rw [hanchor, hz, List.take_zero] at hne
    exact hne rfl
  have hunbroken : AgentSession.brokenLink t.toSessionTools b.anchor b.firstSeq b.ops b.chain = none := by
    rw [hlinks, chainOver, HashChain.drop_linksOf _ _ _ hfirst, hops, hanchor, Nat.zero_add]
    exact brokenLink_over _ _ _ _
  unfold AgentSession.importBundle
  rw [if_neg hnamed, hauth]
  dsimp only
  rw [if_neg (not_not.mpr hlen), if_neg hgen, hunbroken, hcont]
  by_cases hgap : b.firstSeq > known s b.agent
  · rw [if_pos hgap, if_pos hgap]
  · rw [if_neg hgap, if_neg hgap]

/-! ## Every step keeps everybody honest -/

theorem Honest.act {f : Federation ι F} (hf : Honest t names f) (i : ι) (op : LocalOp F) :
    Honest t names (f.update i ((f.sessions i).act t.toSessionTools op)) := by
  have hext := AgentSession.Extends.act (t := t.toSessionTools) (f.sessions i) op
  refine hf.update ((hf.own i).extend hext) hext.ops ?_
  rw [hext.foreign]
  exact hf.copies i

/-- What agent `i` answers to a bundle that was sent. -/
theorem Honest.answer {f : Federation ι F} (hnamed : ∀ i, names i ≠ [])
    (hinj : Function.Injective names) (hf : Honest t names f) (i : ι) {b : SyncBundle F}
    (hb : b ∈ f.sent) :
    (f.sessions i).importBundle t b = .error .selfImport ∨
    (f.sessions i).importBundle t b = .error (.gap (known (f.sessions i) b.agent) b.firstSeq) ∨
    ∃ j, j ≠ i ∧ names j = b.agent ∧ ∃ copy added, IsCopy t.toSessionTools copy (f.sessions j).ops ∧
      (f.sessions i).importBundle t b =
        .ok ({ f.sessions i with foreign := (f.sessions i).foreign.insert b.agent copy }, added) := by
  obtain ⟨j, hname, hslice⟩ := hf.slices b hb
  have hcopy : ∀ c, (f.sessions i).foreign[b.agent]? = some c →
      IsCopy t.toSessionTools c (f.sessions j).ops := by
    intro c hc
    obtain ⟨k, -, hk, hcopy⟩ := hf.copies i b.agent c hc
    rwa [hinj (hk.trans hname.symm)] at hcopy
  rw [importBundle_slice (hname ▸ hnamed j) (hf.own i).unpinned hslice hcopy]
  by_cases hself : b.agent = (f.sessions i).agent
  · exact Or.inl (if_pos hself)
  · rw [if_neg hself]
    by_cases hgap : b.firstSeq > known (f.sessions i) b.agent
    · exact Or.inr (Or.inl (if_pos hgap))
    · rw [if_neg hgap]
      refine Or.inr (Or.inr ⟨j, ?_, hname, _, _, extendLog_slice hslice hcopy (Nat.le_of_not_lt hgap), rfl⟩)
      rintro rfl
      exact hself (hname.symm.trans (hf.own j).agent.symm)

theorem Honest.importAt {f : Federation ι F} (hnamed : ∀ i, names i ≠ [])
    (hinj : Function.Injective names) (hf : Honest t names f) (i : ι) {b : SyncBundle F}
    (hb : b ∈ f.sent) : Honest t names (f.importAt t i b) := by
  unfold Federation.importAt
  rcases hf.answer hnamed hinj i hb with h | h | ⟨j, hji, hname, copy, added, hcopy, h⟩ <;> rw [h]
  · exact hf
  · exact hf
  · obtain ⟨hagent, hfolded, hanchor, hchained, hkeys⟩ := hf.own i
    refine hf.update ⟨hagent, hfolded, hanchor, hchained, hkeys⟩ (List.prefix_refl _) ?_
    intro id held hheld
    rw [getElem?_insert_eq] at hheld
    split at hheld
    · rename_i hid
      simp only [Option.some.injEq] at hheld
      exact ⟨j, hji, hid ▸ hname, hheld ▸ hcopy⟩
    · exact hf.copies i id held hheld

theorem Honest.step {f : Federation ι F} (hnamed : ∀ i, names i ≠ [])
    (hinj : Function.Injective names) (hf : Honest t names f) (op : FedOp ι F) :
    Honest t names (f.step t op) := by
  cases op with
  | act i op => exact hf.act i op
  | exportFrom i since =>
    simp only [Federation.step]
    split
    · rename_i hsince
      split
      · rename_i b hexport
        refine ⟨hf.own, hf.copies, ?_⟩
        intro b' hb'
        rcases List.mem_append.mp hb' with hb' | hb'
        · exact hf.slices b' hb'
        · rw [List.mem_singleton] at hb'
          subst hb'
          obtain ⟨hagent, hslice⟩ := exportBundle_slice (hf.own i).folded (hf.own i).anchor
            (hf.own i).chained hsince hexport
          exact ⟨i, (hagent.trans (hf.own i).agent).symm, hslice⟩
      · exact hf
    · exact hf
  | deliver i n =>
    simp only [Federation.step]
    split
    · rename_i b hb
      exact hf.importAt hnamed hinj i (List.mem_of_getElem? hb)
    · exact hf

theorem Honest.run {f : Federation ι F} (hnamed : ∀ i, names i ≠ [])
    (hinj : Function.Injective names) (ops : List (FedOp ι F)) (hf : Honest t names f) :
    Honest t names (f.run t ops) := by
  induction ops generalizing f with
  | nil => exact hf
  | cons op ops ih => exact ih (hf.step hnamed hinj op)

/-! ## Convergence -/

/-- How many operations of an agent a session knows, its own included. -/
def knows (s : AgentSession F) (id : Str) : Nat :=
  if id = s.agent then s.ops.length else known s id

theorem getElem?_streams {s : AgentSession F} (hnamed : s.agent ≠ []) (id : Str) :
    s.streams[id]? =
      ((s.foreign[id]?).map (·.ops)).orElse fun _ => if id = s.agent then some s.ops else none := by
  unfold AgentSession.streams
  have h := getElem?_foldl_insert_toList (fun log : ForeignLog F => log.ops) s.foreign
    ((∅ : BTreeMap Str (List (Op F))).insert s.agent s.ops) id
  rw [if_neg hnamed]
  refine h.trans ?_
  rw [getElem?_insert_eq, ExtTreeMap.getElem?_empty]

/-- A stream is the part of an agent's log that is known. -/
theorem Honest.stream {f : Federation ι F} (hnamed : ∀ i, names i ≠ [])
    (hinj : Function.Injective names) (hf : Honest t names f) (i k : ι) :
    ((f.sessions i).streams[names k]?).getD [] =
      (f.sessions k).ops.take (knows (f.sessions i) (names k)) := by
  have hagent := (hf.own i).agent
  rw [getElem?_streams (hagent ▸ hnamed i), knows, known, hagent]
  cases hheld : (f.sessions i).foreign[names k]? with
  | some copy =>
    obtain ⟨j, hji, hname, hpre, -⟩ := hf.copies i (names k) copy hheld
    obtain rfl := hinj hname
    have hne : names j ≠ names i := fun h => hji (hinj h)
    simpa [hne] using List.prefix_iff_eq_take.mp hpre
  | none =>
    by_cases hki : names k = names i
    · obtain rfl := hinj hki
      simp
    · simp [hki]

theorem Honest.stream_of_stranger {f : Federation ι F} (hnamed : ∀ i, names i ≠ [])
    (hf : Honest t names f) (i : ι) {id : Str} (hid : ∀ k, names k ≠ id) :
    ((f.sessions i).streams[id]?).getD [] = [] := by
  have hagent := (hf.own i).agent
  rw [getElem?_streams (hagent ▸ hnamed i), hagent]
  cases hheld : (f.sessions i).foreign[id]? with
  | some copy =>
    obtain ⟨k, -, hk, -⟩ := hf.copies i id copy hheld
    exact absurd hk (hid k)
  | none =>
    simp [(hid i).symm]

theorem Honest.mergedView_eq {f : Federation ι F} (hnamed : ∀ i, names i ≠ [])
    (hinj : Function.Injective names) (hf : Honest t names f) {i j : ι}
    (hsame : ∀ k, knows (f.sessions i) (names k) = knows (f.sessions j) (names k)) :
    (f.sessions i).mergedView t.toSessionTools = (f.sessions j).mergedView t.toSessionTools := by
  have hstreams : ∀ id : Str, ((f.sessions i).streams[id]?).getD [] = ((f.sessions j).streams[id]?).getD [] := by
    intro id
    by_cases hid : ∃ k, names k = id
    · obtain ⟨k, rfl⟩ := hid
      rw [hf.stream hnamed hinj, hf.stream hnamed hinj, hsame]
    · have hstranger := fun k hk => hid ⟨k, hk⟩
      rw [hf.stream_of_stranger hnamed i hstranger, hf.stream_of_stranger hnamed j hstranger]
  unfold AgentSession.mergedView
  rw [flatMap_toList_eq hstreams]

/-- Whatever the agents do and however the bundles travel: an import is never called tampered with or
diverged, every foreign log is a prefix of its author's, and equal knowledge gives equal views. -/
theorem sync_safe_and_convergent (t : SyncTools F) (names : ι → Str) (hnamed : ∀ i, names i ≠ [])
    (hinj : Function.Injective names) (ops : List (FedOp ι F)) :
    let f := (start names).run t ops
    (∀ i, ∀ b ∈ f.sent, ∀ err, (f.sessions i).importBundle t b = .error err →
      (∀ detail, err ≠ .tampered detail) ∧ ∀ step, err ≠ .diverged step) ∧
    (∀ i id copy, (f.sessions i).foreign[id]? = some copy →
      ∃ j, names j = id ∧ copy.ops <+: (f.sessions j).ops) ∧
    (∀ i j, (∀ k, knows (f.sessions i) (names k) = knows (f.sessions j) (names k)) →
      (f.sessions i).mergedView t.toSessionTools = (f.sessions j).mergedView t.toSessionTools) := by
  intro f
  have hf : Honest t names f := honest_start.run hnamed hinj ops
  refine ⟨?_, ?_, ?_⟩
  · intro i b hb err herr
    rcases hf.answer hnamed hinj i hb with h | h | ⟨j, -, -, copy, added, -, h⟩ <;> rw [h] at herr
    · cases herr
      exact ⟨fun _ h => (nomatch h), fun _ h => (nomatch h)⟩
    · cases herr
      exact ⟨fun _ h => (nomatch h), fun _ h => (nomatch h)⟩
    · cases herr
  · intro i id copy hheld
    obtain ⟨j, -, hname, hpre, -⟩ := hf.copies i id copy hheld
    exact ⟨j, hname, hpre⟩
  · intro i j hsame
    exact hf.mergedView_eq hnamed hinj hsame

def twoNames : Bool → Str
  | true => "left".toList
  | false => "right".toList

/-- One assertion, exported once and delivered to the other agent twice and to its author. -/
def exchange : List (FedOp Bool ℚ) :=
  [.act true (.assertEvidence "log".toList "cause".toList true 1), .exportFrom true 0,
    .deliver false 0, .deliver false 0, .deliver true 0]

theorem views_agree_after_an_exchange :
    let f := (start twoNames).run (SyncTools.plain fun _ _ => Extracted.empty) exchange
    knows (f.sessions false) (twoNames true) = 1 ∧
      (f.sessions false).mergedView (SessionTools.plain fun _ _ => Extracted.empty) =
        (f.sessions true).mergedView (SessionTools.plain fun _ _ => Extracted.empty) :=
  ⟨by decide,
    (sync_safe_and_convergent (SyncTools.plain fun _ _ => Extracted.empty) twoNames (by decide)
      (by decide) exchange).2.2 false true (by decide)⟩

end Federation

end Ccos
