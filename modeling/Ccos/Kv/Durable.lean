import Ccos.Kv.Consistent

/-!
# When the tile log is durable

A torn write shifts every record after it. The log keeps its records exactly when each append that
failed had written nothing.
-/

namespace Ccos.Kv

open ByteCodec

/-! ## What was asked of the disk -/

def succeeded (history : List Attempt) : List LogRecord :=
  (history.filter fun a => a.outcome.isNone).map Attempt.record

def Attempt.torn (a : Attempt) : Nat := a.outcome.elim 0 Fin.val

/-- No failed write has left bytes. -/
def Clean (history : List Attempt) : Prop := ∀ a ∈ history, a.torn = 0

def tornBytes (history : List Attempt) : Nat := (history.map Attempt.torn).sum

theorem tornBytes_eq_zero_iff (history : List Attempt) : tornBytes history = 0 ↔ Clean history := by
  unfold tornBytes Clean
  rw [List.sum_eq_zero_iff_forall_eq_nat]
  simp

theorem written_of_succeeded {a : Attempt} (h : a.outcome = none) : a.written = a.record.toBytes := by
  simp [Attempt.written, h]

theorem length_written_of_failed {a : Attempt} {k : Fin recordBytes} (h : a.outcome = some k) :
    a.written.length = k := by
  have hk := k.isLt
  simp only [Attempt.written, h, List.length_take, LogRecord.length_toBytes]
  omega

theorem length_flatMap_written (history : List Attempt) :
    (history.flatMap Attempt.written).length =
      recordBytes * (succeeded history).length + tornBytes history := by
  induction history with
  | nil => simp [succeeded, tornBytes]
  | cons a history ih =>
    rw [List.flatMap_cons, List.length_append, ih]
    cases ho : a.outcome with
    | none =>
      rw [written_of_succeeded ho, LogRecord.length_toBytes]
      simp [succeeded, tornBytes, Attempt.torn, ho, Nat.mul_add]
      omega
    | some k =>
      rw [length_written_of_failed ho]
      simp [succeeded, tornBytes, Attempt.torn, ho]
      omega

theorem flatMap_written_of_clean {history : List Attempt} (h : Clean history) :
    history.flatMap Attempt.written = (succeeded history).flatMap LogRecord.toBytes := by
  induction history with
  | nil => rfl
  | cons a history ih =>
    have ha := h a List.mem_cons_self
    rw [List.flatMap_cons, ih fun b hb => h b (List.mem_cons_of_mem a hb)]
    cases ho : a.outcome with
    | none => simp [succeeded, ho, written_of_succeeded ho]
    | some k =>
      have hlen := length_written_of_failed ho
      rw [Attempt.torn, ho, Option.elim_some] at ha
      rw [List.eq_nil_of_length_eq_zero (hlen.trans ha)]
      simp [succeeded, ho]

/-! ## Reading records -/

namespace EventLog

theorem length_header : header.length = headerBytes := by
  simp only [header, List.length_append, length_leOf, headerBytes]

theorem readRecords_flatMap (l : List LogRecord) :
    readRecords l.length (l.flatMap LogRecord.toBytes) = .ok l := by
  induction l with
  | nil => rfl
  | cons r l ih =>
    have htake := takeExact_append r.toBytes (l.flatMap LogRecord.toBytes)
    rw [LogRecord.length_toBytes] at htake
    rw [List.length_cons, List.flatMap_cons, readRecords, htake]
    dsimp only
    rw [ih, LogRecord.fromBytes_toBytes]
    rfl

theorem length_of_readRecords {n : Nat} {bytes : Bytes} {l : List LogRecord}
    (h : readRecords n bytes = .ok l) : l.length = n := by
  induction n generalizing bytes l with
  | zero =>
    obtain rfl := Except.ok.inj h
    rfl
  | succ n ih =>
    unfold readRecords at h
    split at h
    · cases h
    · next rec rest _ =>
      cases hrest : readRecords n rest with
      | error e => rw [hrest] at h; cases h
      | ok more =>
        rw [hrest] at h
        obtain rfl := Except.ok.inj h
        rw [List.length_cons, ih hrest]

/-! ## Durability -/

/-- The file is the header and what the writes left; the count is of those that succeeded. -/
structure FromHeader (log : EventLog) : Prop where
  file : log.file = header ++ log.disk.history.flatMap Attempt.written
  records : log.records = (succeeded log.disk.history).length

/-- The log reads back what succeeded, and so does a log opened on its file. -/
structure Durable (log : EventLog) : Prop where
  readAll : log.readAll = .ok (succeeded log.disk.history)
  reopened : ∃ again, openFile log.disk log.file = .ok again ∧
    again.readAll = .ok (succeeded log.disk.history)

theorem fromHeader_create (plan : Nat → Outcome) : (create plan).FromHeader :=
  ⟨by simp [create], rfl⟩

theorem history_append (log : EventLog) (seq : UInt64) (slot : UInt32) (tile : SciRustSlhaTile) :
    (log.append seq slot tile).2.disk = log.disk.write ⟨seq, slot, tile⟩ := by
  unfold append
  split <;> rfl

theorem FromHeader.append {log : EventLog} (h : log.FromHeader) (seq : UInt64) (slot : UInt32)
    (tile : SciRustSlhaTile) : (log.append seq slot tile).2.FromHeader := by
  refine ⟨?_, ?_⟩
  · rw [history_append]
    unfold Disk.write
    rw [List.flatMap_append, ← List.append_assoc, ← h.file]
    unfold EventLog.append
    split <;> simp
  · rw [history_append]
    have hrec := h.records
    unfold EventLog.append Disk.write succeeded
    split
    · next ho => simp [ho, hrec, succeeded]
    · next ho => simp [ho, hrec, succeeded]

theorem drop_header {log : EventLog} (h : log.FromHeader) :
    log.file.drop headerBytes = log.disk.history.flatMap Attempt.written := by
  rw [h.file, ← length_header, List.drop_left]

/-- The header is in order, so that opening turns on the length alone. -/
theorem openFile_eq {log : EventLog} (h : log.FromHeader) :
    openFile log.disk log.file =
      if (log.disk.history.flatMap Attempt.written).length % recordBytes ≠ 0 then
        .error "EventLog: truncated record"
      else .ok ⟨log.file, (log.disk.history.flatMap Attempt.written).length / recordBytes, log.disk⟩ := by
  have hlen : log.file.length = headerBytes + (log.disk.history.flatMap Attempt.written).length := by
    rw [h.file, List.length_append, length_header]
  have hmagic : log.file.take 4 = leOf 4 magic := by
    rw [h.file, header]
    simp only [List.append_assoc]
    exact List.take_left' (length_leOf 4 _)
  have hversion : (log.file.drop 4).take 4 = leOf 4 version := by
    rw [h.file, header]
    simp only [List.append_assoc]
    rw [List.drop_left' (length_leOf 4 _), List.take_left' (length_leOf 4 _)]
  have hsize : (log.file.drop 8).take 4 = leOf 4 tileBytes := by
    rw [h.file, header, List.append_assoc, List.append_assoc, List.drop_left' (by simp),
      List.take_left' (length_leOf 4 _)]
  unfold openFile
  rw [if_neg (by omega), hmagic, if_neg (by decide), hversion, if_neg (by decide), hsize,
    if_neg (by decide), hlen, Nat.add_sub_cancel_left]

theorem durable_of_clean {log : EventLog} (h : log.FromHeader) (hclean : Clean log.disk.history) :
    log.Durable := by
  have hflat := flatMap_written_of_clean hclean
  have hread : log.readAll = .ok (succeeded log.disk.history) := by
    unfold readAll
    rw [drop_header h, hflat, h.records]
    exact readRecords_flatMap _
  have hlen : (log.disk.history.flatMap Attempt.written).length = recordBytes * log.records := by
    rw [hflat, length_flatMap_of_width LogRecord.length_toBytes, h.records]
  have hpos : 0 < recordBytes := by decide
  refine ⟨hread, ⟨log.file, log.records, log.disk⟩, ?_, hread⟩
  rw [openFile_eq h, hlen, Nat.mul_mod_right, if_neg (by simp), Nat.mul_div_cancel_left _ hpos]

theorem clean_of_durable {log : EventLog} (h : log.FromHeader) (hd : log.Durable) :
    Clean log.disk.history := by
  obtain ⟨again, hopen, hread⟩ := hd.reopened
  rw [openFile_eq h] at hopen
  split at hopen
  · cases hopen
  · next hwhole =>
    obtain rfl := Except.ok.inj hopen
    have hcount := length_of_readRecords hread
    dsimp only at hcount
    rw [length_flatMap_written] at hcount hwhole
    have hpos : 0 < recordBytes := by decide
    rw [Nat.mul_add_div hpos] at hcount
    rw [Nat.mul_add_mod, not_not] at hwhole
    rw [← tornBytes_eq_zero_iff]
    have hdiv := Nat.div_add_mod (tornBytes log.disk.history) recordBytes
    rw [hwhole, show tornBytes log.disk.history / recordBytes = 0 by omega] at hdiv
    simpa using hdiv.symm

theorem durable_iff_clean {log : EventLog} (h : log.FromHeader) :
    log.Durable ↔ Clean log.disk.history :=
  ⟨clean_of_durable h, durable_of_clean h⟩

/-! ## Sequences of appends -/

def attempts (plan : Nat → Outcome) (records : List LogRecord) : List Attempt :=
  records.mapIdx fun i r => ⟨r, plan i⟩

def appendAll (log : EventLog) (records : List LogRecord) : EventLog :=
  records.foldl (fun log r => (log.append r.seq r.slot r.tile).2) log

theorem appendAll_create (plan : Nat → Outcome) (records : List LogRecord) :
    ((create plan).appendAll records).FromHeader ∧
      ((create plan).appendAll records).disk = ⟨plan, attempts plan records⟩ := by
  induction records using List.reverseRecOn with
  | nil => exact ⟨fromHeader_create plan, rfl⟩
  | append_singleton records r ih =>
    unfold appendAll at ih ⊢
    rw [List.foldl_concat]
    refine ⟨ih.1.append r.seq r.slot r.tile, ?_⟩
    rw [history_append, ih.2]
    simp [Disk.write, Disk.next, attempts]

/-- The latest record of a number that only one record has. -/
theorem fetchBySeq_of_readAll {log : EventLog} {l : List LogRecord} (h : log.readAll = .ok l)
    (hnodup : (l.map LogRecord.seq).Nodup) {r : LogRecord} (hr : r ∈ l) :
    log.fetchBySeq r.seq = .ok (some r) := by
  unfold fetchBySeq
  rw [h]
  have hfound : ∃ b, l.reverse.find? (fun b => b.seq == r.seq) = some b := by
    rw [← Option.isSome_iff_exists, List.find?_isSome]
    exact ⟨r, List.mem_reverse.mpr hr, by simp⟩
  obtain ⟨b, hb⟩ := hfound
  have hseq : b.seq = r.seq := by simpa using List.find?_some hb
  have hmem : b ∈ l := List.mem_reverse.mp (List.mem_of_find?_eq_some hb)
  have hbr : b = r := List.inj_on_of_nodup_map hnodup hmem hr hseq
  change Except.ok (l.reverse.find? fun b => b.seq == r.seq) = _
  rw [hb, hbr]

end EventLog

/-! ## The cache over its log -/

namespace ElasticKvCache

/-- The log knows each sequence number at most once, and none of a live tile. -/
structure Logged (c : ElasticKvCache) (log : EventLog) : Prop where
  attached : c.eventLog = some log
  fromHeader : log.FromHeader
  nodup : (log.disk.history.map fun a => a.record.seq).Nodup
  below : ∀ a ∈ log.disk.history, a.record.seq < c.nextSeq
  retired : ∀ a ∈ log.disk.history, ∀ (s : Nat) (x : Slot), c.slots[s]? = some x → x.Live →
    x.seq ≠ a.record.seq

theorem Logged.softened {c d : ElasticKvCache} {log : EventLog} (h : c.Logged log) (hs : Softened c d) :
    d.Logged log := by
  refine ⟨hs.eventLog.trans h.attached, h.fromHeader, h.nodup, ?_, ?_⟩
  · rw [hs.nextSeq]
    exact h.below
  · intro a ha s y hy hlive
    obtain ⟨x, hx, hdeg⟩ := hs.exists_before hy
    rw [hdeg.seq]
    exact h.retired a ha s x hx (hdeg.live.mp hlive)

theorem Logged.evict {c d : ElasticKvCache} {log : EventLog} {s : Nat} (h : c.Logged log)
    (hc : c.Consistent) (he : c.evict s = some d) : ∃ log', d.Logged log' := by
  have hget := getElem?_of_evict he
  obtain ⟨x, hx, ⟨-, rfl⟩ | ⟨hlive, hev⟩⟩ := evict_cases he
  · exact ⟨log, h⟩
  have hfresh : ∀ a ∈ log.disk.history, a.record.seq ≠ x.seq := fun a ha heq =>
    h.retired a ha s x hx hlive heq.symm
  have hdisk := log.history_append x.seq (UInt32.ofNat s) x.tile
  refine ⟨_, ?_, h.fromHeader.append x.seq (UInt32.ofNat s) x.tile, ?_, ?_, ?_⟩
  · rw [hev.eventLog, h.attached]
    rfl
  · rw [hdisk]
    simp only [Disk.write, List.map_append, List.map_cons, List.map_nil]
    refine List.nodup_append.mpr ⟨h.nodup, List.nodup_singleton _, ?_⟩
    intro q hq r hr
    obtain ⟨a, ha, rfl⟩ := List.mem_map.mp hq
    rw [List.mem_singleton.mp hr]
    exact hfresh a ha
  · rw [hdisk, hev.nextSeq]
    intro a ha
    rcases List.mem_append.mp ha with ha | ha
    · exact h.below a ha
    · rw [List.mem_singleton.mp ha]
      exact hc.seq_lt s x hx
  · rw [hdisk]
    intro a ha t y hy hylive
    rw [hget t] at hy
    obtain ⟨z, hz, rfl⟩ := Option.map_eq_some_iff.mp hy
    split at hylive
    · exact absurd hylive z.cooled_not_live
    next hts =>
    rw [if_neg hts]
    rcases List.mem_append.mp ha with ha | ha
    · exact h.retired a ha t z hz hylive
    · rw [List.mem_singleton.mp ha]
      exact fun heq => hts (hc.seq_inj t s z x hz hx hylive hlive heq)

theorem Logged.insert {c d : ElasticKvCache} {log : EventLog} {tile : SciRustSlhaTile} {s : Nat}
    (h : c.Logged log) (hc : c.Consistent) (hi : c.insert tile = some (s, d)) : d.Logged log := by
  have hins := hc.inserted hi
  refine ⟨hins.eventLog.trans h.attached, h.fromHeader, h.nodup, fun a ha => ?_, ?_⟩
  · have hlt := UInt64.lt_iff_toNat_lt.mp (h.below a ha)
    rw [UInt64.lt_iff_toNat_lt, hins.nextSeq]
    omega
  · intro a ha t y hy hlive
    by_cases hts : t = s
    · subst hts
      rw [hins.slot] at hy
      obtain rfl := Option.some.inj hy
      intro heq
      have hlt := h.below a ha
      rw [← heq] at hlt
      exact UInt64.lt_irrefl _ hlt
    · exact h.retired a ha t y (hins.others t hts ▸ hy) hlive

theorem Logged.enforceBudget {sorter : SlotSort} {c d : ElasticKvCache} {log : EventLog}
    (h : c.Logged log) (hc : c.Consistent) (hd : c.enforceBudget sorter = some d) :
    ∃ log', d.Logged log' := by
  obtain ⟨soft, hsoft, ⟨rfl, -⟩ | ⟨hspent, hphase⟩⟩ := enforceBudget_cases hd
  · exact ⟨log, h.softened hsoft⟩
  · obtain ⟨-, gone, hgone⟩ := evictPhase_spec (hc.softened hsoft) hspent hphase
    have hboth := Runs.foldlM_keeps (P := fun c => c.Consistent ∧ ∃ log, c.Logged log)
      (fun _ _ _ hboth he => ⟨hboth.1.evict he, hboth.2.choose_spec.evict hboth.1 he⟩)
      ⟨hc.softened hsoft, log, h.softened hsoft⟩ hgone.run
    exact hboth.2

theorem Logged.step {sorter : SlotSort} {c d : ElasticKvCache} {op : Op} {log : EventLog}
    (h : c.Logged log) (hc : c.Consistent) (hd : c.step sorter op = some d) : ∃ log', d.Logged log' := by
  cases op with
  | insert tile =>
    obtain ⟨⟨s, e⟩, hins, rfl⟩ := Option.map_eq_some_iff.mp hd
    exact ⟨log, h.insert hc hins⟩
  | pageOut s => exact ⟨log, h.softened (softened_pageOut hd)⟩
  | dropCorrection s => exact ⟨log, h.softened (softened_dropCorrection hd)⟩
  | evict s => exact h.evict hc hd
  | rehydrate seq =>
    obtain ⟨⟨r, e⟩, hr, rfl⟩ := Option.map_eq_some_iff.mp hd
    rcases rehydrate_cases hr with rfl | ⟨log', rec, s, -, -, -, hins⟩
    · exact ⟨log, h⟩
    · exact ⟨log, h.insert hc hins⟩
  | enforceBudget => exact h.enforceBudget hc hd

theorem logged_after_run {sorter : SlotSort} {c d : ElasticKvCache} {ops : List Op} {log : EventLog}
    (h : c.Logged log) (hc : c.Consistent) (hd : c.run sorter ops = some d) :
    ∃ log', d.Logged log' := by
  have hboth := Runs.foldlM_keeps (P := fun c => c.Consistent ∧ ∃ log, c.Logged log)
    (fun _ _ _ hboth hs => ⟨hboth.1.step hs, hboth.2.choose_spec.step hboth.1 hs⟩) ⟨hc, log, h⟩ hd
  exact hboth.2

/-- A tile whose append succeeded comes back as it was evicted, while the counter has room. -/
def Restores (c : ElasticKvCache) (log : EventLog) : Prop :=
  ∀ a ∈ log.disk.history, a.outcome = none → c.nextSeq.toNat + 1 < 2 ^ 64 →
    ∃ s d, c.rehydrate a.record.seq = some (.ok (some s), d) ∧
      d.slots[s]?.map Slot.tile = some a.record.tile

theorem exists_insert {c : ElasticKvCache} (h : c.Consistent) (hroom : c.nextSeq.toNat + 1 < 2 ^ 64)
    (tile : SciRustSlhaTile) : ∃ s d, c.insert tile = some (s, d) := by
  unfold insert
  rw [if_pos hroom]
  split
  · next s free hfree =>
    obtain ⟨x, hx, -⟩ := (h.mem_free s).mp (hfree ▸ List.mem_cons_self)
    rw [if_pos (List.getElem?_eq_some_iff.mp hx).1]
    exact ⟨_, _, rfl⟩
  · exact ⟨_, _, rfl⟩

theorem restores_of_durable {c : ElasticKvCache} {log : EventLog} (hc : c.Consistent) (h : c.Logged log)
    (hd : log.Durable) : c.Restores log := by
  intro a ha hok hroom
  have hin : a.record ∈ succeeded log.disk.history := by
    refine List.mem_map.mpr ⟨a, List.mem_filter.mpr ⟨ha, ?_⟩, rfl⟩
    rw [hok]
    rfl
  have hnodup : ((succeeded log.disk.history).map LogRecord.seq).Nodup := by
    unfold succeeded
    rw [List.map_map]
    exact h.nodup.sublist (List.Sublist.map _ List.filter_sublist)
  have hfetch := EventLog.fetchBySeq_of_readAll hd.readAll hnodup hin
  obtain ⟨s, d, hins⟩ := exists_insert hc hroom a.record.tile
  refine ⟨s, d, ?_, ?_⟩
  · unfold rehydrate
    rw [h.attached]
    dsimp only
    rw [hfetch]
    dsimp only
    rw [hins]
    rfl
  · rw [(hc.inserted hins).slot]
    rfl

/-- Of every sequence of appends, and of every run of a cache over a fresh log. -/
theorem durable_iff_no_torn_write (sorter : SlotSort) (plan : Nat → Outcome) :
    (∀ records, ((EventLog.create plan).appendAll records).disk.history =
        EventLog.attempts plan records ∧
      (((EventLog.create plan).appendAll records).Durable ↔ Clean (EventLog.attempts plan records))) ∧
    ∀ budgetBytes policy eviction ops c,
      run sorter ((new budgetBytes policy eviction).attachEventLog (.create plan)) ops = some c →
      ∃ log, c.eventLog = some log ∧ (log.Durable ∧ c.Restores log ↔ Clean log.disk.history) := by
  refine ⟨fun records => ?_, fun budgetBytes policy eviction ops c hrun => ?_⟩
  · obtain ⟨hheader, hdisk⟩ := EventLog.appendAll_create plan records
    have hiff := EventLog.durable_iff_clean hheader
    rw [hdisk] at hiff
    exact ⟨by rw [hdisk], hiff⟩
  · have hempty : ((new budgetBytes policy eviction).attachEventLog (.create plan)).Consistent :=
      consistent_empty rfl rfl
    have hstart : ((new budgetBytes policy eviction).attachEventLog (.create plan)).Logged
        (.create plan) :=
      ⟨rfl, EventLog.fromHeader_create plan, List.nodup_nil, by simp [EventLog.create],
        by simp [EventLog.create]⟩
    obtain ⟨log, hlog⟩ := logged_after_run hstart hempty hrun
    have hiff := EventLog.durable_iff_clean hlog.fromHeader
    refine ⟨log, hlog.attached, fun h => hiff.mp h.1, fun hclean => ?_⟩
    exact ⟨hiff.mpr hclean, restores_of_durable (hempty.run hrun) hlog (hiff.mpr hclean)⟩

/-- The first write fails after `k` bytes. -/
def firstWriteFails (k : Nat) : Nat → Outcome
  | 0 => if h : k < recordBytes then some ⟨k, h⟩ else none
  | _ + 1 => none

def twoEvictions : List Op :=
  [.insert (blankTile 0 0), .insert (blankTile 1 0), .evict 0, .evict 1]

theorem durable_over_a_failed_write :
    ∃ c log, run stableSort ((new 0 .oldestFirst .causal).attachEventLog (.create (firstWriteFails 0)))
      twoEvictions = some c ∧ c.eventLog = some log ∧ log.Durable ∧ c.Restores log := by
  obtain ⟨c, hc⟩ := Option.isSome_iff_exists.mp
    (show (run stableSort ((new 0 .oldestFirst .causal).attachEventLog (.create (firstWriteFails 0)))
      twoEvictions).isSome = true by decide)
  obtain ⟨log, hlog, hiff⟩ := (durable_iff_no_torn_write stableSort (firstWriteFails 0)).2
    0 .oldestFirst .causal twoEvictions c hc
  have hclean : (run stableSort ((new 0 .oldestFirst .causal).attachEventLog
      (.create (firstWriteFails 0))) twoEvictions).all (fun c => c.eventLog.all fun log =>
        log.disk.history.all fun a => a.torn == 0) = true := by decide
  rw [hc, Option.all_some, hlog, Option.all_some] at hclean
  refine ⟨c, log, hc, hlog, hiff.mpr fun a ha => ?_⟩
  exact eq_of_beq (List.all_eq_true.mp hclean a ha)

/-- One byte of the first record stays on disk, and the second tile cannot be found. -/
theorem torn_write_loses_the_next_tile :
    ∃ c log, run stableSort ((new 0 .oldestFirst .causal).attachEventLog (.create (firstWriteFails 1)))
      twoEvictions = some c ∧ c.eventLog = some log ∧
      (EventLog.openFile log.disk log.file).toOption.isNone ∧ ¬ log.Durable ∧ ¬ c.Restores log := by
  obtain ⟨c, hc⟩ := Option.isSome_iff_exists.mp
    (show (run stableSort ((new 0 .oldestFirst .causal).attachEventLog (.create (firstWriteFails 1)))
      twoEvictions).isSome = true by decide)
  have hopen : (run stableSort ((new 0 .oldestFirst .causal).attachEventLog
      (.create (firstWriteFails 1))) twoEvictions).all (fun c => c.eventLog.any fun log =>
        (EventLog.openFile log.disk log.file).toOption.isNone &&
          (log.disk.history[1]?.map fun a => (a.record.seq, a.outcome)) == some (1, none)) = true := by
    decide +kernel
  have hlost : (run stableSort ((new 0 .oldestFirst .causal).attachEventLog
      (.create (firstWriteFails 1))) twoEvictions).all (fun c => c.nextSeq == 2 &&
        ((c.rehydrate 1).map fun r => r.1.toOption) == some (some none)) = true := by decide +kernel
  rw [hc, Option.all_some] at hopen hlost
  rw [Bool.and_eq_true, beq_iff_eq, beq_iff_eq] at hlost
  obtain ⟨log, hlog, hopen⟩ := (Option.any_eq_true _ _).mp hopen
  rw [Bool.and_eq_true, beq_iff_eq] at hopen
  refine ⟨c, log, hc, hlog, hopen.1, fun hd => ?_, fun hr => ?_⟩
  · obtain ⟨again, hagain, -⟩ := hd.reopened
    rw [hagain] at hopen
    cases hopen.1
  · obtain ⟨a, ha, heq⟩ := Option.map_eq_some_iff.mp hopen.2
    obtain ⟨hseq, hok⟩ := Prod.mk.inj heq
    obtain ⟨s, d, hre, -⟩ := hr a (List.mem_of_getElem? ha) hok (by rw [hlost.1]; decide)
    rw [hseq] at hre
    rw [hre] at hlost
    cases hlost.2

end ElasticKvCache

end Ccos.Kv
