import Ccos.ColdIndex.Records
import Ccos.Lib.ByteCodec
import Mathlib.Data.List.TakeWhile

/-!
# Segment files

A segment file is its records in ascending key order, a sparse index over them, and a footer that finds
the index. A key or value that is too long for its 32-bit length field is written all the same, and so is
an index with too many entries.
-/

open Std ByteCodec

namespace Ccos.SegmentFile

def magic : Nat := 0xC01D1DEC00000001

def stride : Nat := 64

/-! ## Writing -/

def encodeRecord (r : Str × Bytes) : Bytes := putBytes 4 (utf8 r.1) ++ putBytes 4 r.2

def sparseBytes (sparse : List (Str × Nat)) : Bytes :=
  sparse.flatMap fun e => putBytes 4 (utf8 e.1) ++ leOf 8 e.2

/-- Appends the records from index `i` on. -/
def writeRecords : Nat → Bytes → List (Str × Nat) → List (Str × Bytes) → Bytes × List (Str × Nat)
  | _, buf, sparse, [] => (buf, sparse)
  | i, buf, sparse, r :: records =>
    let sparse := if i % stride = 0 then sparse ++ [(r.1, buf.length)] else sparse
    writeRecords (i + 1) (buf ++ encodeRecord r) sparse records

/-- `none` when the keys are not strictly ascending. -/
def writeSegment (records : List (Str × Bytes)) : Option Bytes :=
  if (records.zip records.tail).all fun w => compare w.1.1 w.2.1 == .lt then
    let (buf, sparse) := writeRecords 0 [] [] records
    some (buf ++ (leOf 4 sparse.length ++ sparseBytes sparse) ++ (leOf 8 buf.length ++ leOf 8 magic))
  else none

/-! ## Reading -/

/-- An open segment file: its number, and the sparse index in memory. -/
structure Handle where
  seq : Nat
  sparse : List (Str × Nat)
  recordsEnd : Nat
  deriving DecidableEq

def readString (bytes : Bytes) : Option (Str × Bytes) :=
  (readBytes 4 bytes).bind fun (b, rest) => (decodeUtf8 b).map fun s => (s, rest)

def readSparse : Nat → Bytes → Option (List (Str × Nat))
  | 0, _ => some []
  | count + 1, bytes =>
    (readString bytes).bind fun (key, bytes) =>
      (readNat 8 bytes).bind fun (offset, bytes) =>
        (readSparse count bytes).map fun sparse => (key, offset) :: sparse

/-- `Segment::open`; `none` when the file is corrupt. -/
def openFile (seq : Nat) (file : Bytes) : Option Handle :=
  if file.length < 16 then none
  else
    (readNat 8 (file.drop (file.length - 16))).bind fun (sparseOffset, footer) =>
      (readNat 8 footer).bind fun (found, _) =>
        if found ≠ magic then none
        else if sparseOffset > file.length - 16 then none
        else
          (readNat 4 (file.drop sparseOffset)).bind fun (count, bytes) =>
            (readSparse count bytes).map fun sparse => { seq, sparse, recordsEnd := sparseOffset }

/-- Reads records up to `recordsEnd`. The visitor says when to stop. `fuel` bounds the records. -/
def scan {A : Type} (visit : A → Str → Bytes → A × Bool) (recordsEnd : Nat) :
    Nat → Nat → Bytes → A → Option A
  | 0, _, _, acc => some acc
  | fuel + 1, pos, bytes, acc =>
    if pos < recordsEnd then
      (readString bytes).bind fun (key, bytes) =>
        (readBytes 4 bytes).bind fun (value, bytes) =>
          match visit acc key value with
          | (acc, true) => some acc
          | (acc, false) => scan visit recordsEnd fuel (pos + (8 + byteLen key + value.length)) bytes acc
    else some acc

/-- The position of a key in ascending entries, or the one it would be inserted at. -/
def binarySearch (sparse : List (Str × Nat)) (key : Str) : Except Nat Nat :=
  let i := (sparse.takeWhile fun e => compare e.1 key == .lt).length
  if (sparse[i]?.map (·.1)) = some key then .ok i else .error i

def offsetAt (sparse : List (Str × Nat)) (i : Nat) : Nat := ((sparse[i]?).map (·.2)).getD 0

/-- Stops at the key, or where it would have been. -/
def visitGet (key : Str) (_ : Option Bytes) (k : Str) (v : Bytes) : Option Bytes × Bool :=
  match compare k key with
  | .eq => (some v, true)
  | .gt => (none, true)
  | .lt => (none, false)

def readAt (file : Bytes) (h : Handle) (start : Nat) (key : Str) : Option (Option Bytes) :=
  scan (visitGet key) h.recordsEnd (file.length + 1) start (file.drop start) none

/-- `Segment::get`. The outer `none` is an error. -/
def get (file : Bytes) (h : Handle) (key : Str) : Option (Option Bytes) :=
  if h.sparse.isEmpty then some none
  else
    match binarySearch h.sparse key with
    | .ok i => readAt file h (offsetAt h.sparse i) key
    | .error 0 => some none
    | .error (i + 1) => readAt file h (offsetAt h.sparse i) key

def records (file : Bytes) (h : Handle) : Option (List (Str × Bytes)) :=
  scan (fun out k v => (out ++ [(k, v)], false)) h.recordsEnd (file.length + 1) 0 file []

/-- Skips to the prefix, and stops behind it. -/
def visitPrefix (pre : Str) (out : List (Str × Bytes)) (k : Str) (v : Bytes) :
    List (Str × Bytes) × Bool :=
  if compare k pre = .lt then (out, false)
  else if startsWith pre k then (out ++ [(k, v)], false)
  else (out, true)

def scanPrefix (file : Bytes) (h : Handle) (pre : Str) : Option (List (Str × Bytes)) :=
  if h.sparse.isEmpty then some []
  else
    let start := match binarySearch h.sparse pre with
      | .ok i => offsetAt h.sparse i
      | .error 0 => 0
      | .error (i + 1) => offsetAt h.sparse i
    scan (visitPrefix pre) h.recordsEnd (file.length + 1) start (file.drop start) []

/-! ## What is in a file -/

def encodeAll (rs : List (Str × Bytes)) : Bytes := rs.flatMap encodeRecord

/-- The sparse index of the records from index `i` on, the first of them at `offset`. -/
def sparseOf : Nat → Nat → List (Str × Bytes) → List (Str × Nat)
  | _, _, [] => []
  | i, offset, r :: rs =>
    let later := sparseOf (i + 1) (offset + (encodeRecord r).length) rs
    if i % stride = 0 then (r.1, offset) :: later else later

theorem writeRecords_eq (i : Nat) (buf : Bytes) (sparse : List (Str × Nat)) (rs : List (Str × Bytes)) :
    writeRecords i buf sparse rs = (buf ++ encodeAll rs, sparse ++ sparseOf i buf.length rs) := by
  induction rs generalizing i buf sparse with
  | nil => simp [writeRecords, encodeAll, sparseOf]
  | cons r rs ih =>
    simp only [writeRecords, ih, sparseOf, encodeAll, List.flatMap_cons, List.append_assoc, List.length_append]
    split <;> simp

/-- The file of ascending records. -/
def fileOf (rs : List (Str × Bytes)) : Bytes :=
  encodeAll rs ++ (leOf 4 (sparseOf 0 0 rs).length ++ sparseBytes (sparseOf 0 0 rs))
    ++ (leOf 8 (encodeAll rs).length ++ leOf 8 magic)

def Ascending (rs : List (Str × Bytes)) : Prop := rs.Pairwise fun a b => compare a.1 b.1 = .lt

theorem writeSegment_of_ascending {rs : List (Str × Bytes)} (h : Ascending rs) :
    writeSegment rs = some (fileOf rs) := by
  have hwindows : (rs.zip rs.tail).all (fun w => compare w.1.1 w.2.1 == .lt) = true := by
    rw [List.all_eq_true]
    induction rs with
    | nil => simp
    | cons r rs ih =>
      cases rs with
      | nil => simp
      | cons r' rs =>
        rintro w hw
        simp only [List.tail_cons, List.zip_cons_cons, List.mem_cons] at hw
        rcases hw with rfl | hw
        · rw [beq_iff_eq]
          exact List.rel_of_pairwise_cons h List.mem_cons_self
        · exact ih h.of_cons w (by simpa using hw)
  unfold writeSegment
  rw [if_pos hwindows, writeRecords_eq]
  rfl

/-- Every sparse entry names a record and the offset where it starts. -/
theorem mem_sparseOf {i offset : Nat} {rs : List (Str × Bytes)} {e : Str × Nat}
    (h : e ∈ sparseOf i offset rs) :
    ∃ before v after, rs = before ++ (e.1, v) :: after ∧ e.2 = offset + (encodeAll before).length := by
  induction rs generalizing i offset with
  | nil => cases h
  | cons r rs ih =>
    have hlater : e ∈ sparseOf (i + 1) (offset + (encodeRecord r).length) rs →
        ∃ before v after, r :: rs = before ++ (e.1, v) :: after ∧
          e.2 = offset + (encodeAll before).length := by
      intro h
      obtain ⟨before, v, after, rfl, hoffset⟩ := ih h
      refine ⟨r :: before, v, after, rfl, ?_⟩
      rw [hoffset, encodeAll, encodeAll, List.flatMap_cons, List.length_append]
      omega
    rw [sparseOf] at h
    split at h
    · rcases List.mem_cons.mp h with rfl | h
      · exact ⟨[], r.2, rs, rfl, rfl⟩
      · exact hlater h
    · exact hlater h

theorem length_sparseOf (i offset : Nat) (rs : List (Str × Bytes)) :
    (sparseOf i offset rs).length + (i + 63) / 64 = (i + rs.length + 63) / 64 := by
  induction rs generalizing i offset with
  | nil => simp [sparseOf]
  | cons r rs ih =>
    have ih := ih (i + 1) (offset + (encodeRecord r).length)
    rw [sparseOf, List.length_cons, stride]
    by_cases hi : i % 64 = 0
    · rw [if_pos hi, List.length_cons]
      omega
    · rw [if_neg hi]
      omega

/-! ## Opening a written file -/

theorem readString_append {s : Str} (h : byteLen s < 2 ^ 32) (rest : Bytes) :
    readString (putBytes 4 (utf8 s) ++ rest) = some (s, rest) := by
  rw [readString, readBytes_append (by rw [length_utf8]; omega), Option.bind_some]
  simp only [decodeUtf8_utf8, Option.map_some]

/-- The records fit the index of their file. -/
structure FitsIndex (rs : List (Str × Bytes)) : Prop where
  keys : ∀ r ∈ rs, byteLen r.1 < 2 ^ 32
  /-- The 32-bit count of the index is not zero by overflow. -/
  counted : rs ≠ [] → (rs.length + 63) / 64 % 2 ^ 32 ≠ 0
  size : (encodeAll rs).length < 2 ^ 64

theorem readSparse_append {sparse : List (Str × Nat)} (hkeys : ∀ e ∈ sparse, byteLen e.1 < 2 ^ 32)
    (hoffsets : ∀ e ∈ sparse, e.2 < 2 ^ 64) {count : Nat} (hcount : count ≤ sparse.length) (rest : Bytes) :
    readSparse count (sparseBytes sparse ++ rest) = some (sparse.take count) := by
  induction sparse generalizing count with
  | nil =>
    obtain rfl := Nat.le_zero.mp hcount
    rfl
  | cons e sparse ih =>
    cases count with
    | zero => rfl
    | succ count =>
      have hlt : e.2 % 256 ^ 8 = e.2 := Nat.mod_eq_of_lt (hoffsets e List.mem_cons_self)
      have ih := ih (fun e' h => hkeys e' (List.mem_cons_of_mem _ h))
        (fun e' h => hoffsets e' (List.mem_cons_of_mem _ h)) (Nat.le_of_succ_le_succ hcount)
      rw [sparseBytes] at ih
      rw [sparseBytes, List.flatMap_cons, List.append_assoc, List.append_assoc, readSparse,
        readString_append (hkeys e List.mem_cons_self), Option.bind_some]
      dsimp only
      rw [readNat_append, hlt, Option.bind_some]
      dsimp only
      rw [ih]
      rfl

/-- The handle of a written file. The index is cut to its 32-bit count. -/
def handleOf (seq : Nat) (rs : List (Str × Bytes)) : Handle where
  seq := seq
  sparse := (sparseOf 0 0 rs).take ((sparseOf 0 0 rs).length % 2 ^ 32)
  recordsEnd := (encodeAll rs).length

/-- An index with too many entries opens too. -/
theorem openFile_of_size (seq : Nat) {rs : List (Str × Bytes)} (hshort : ∀ r ∈ rs, byteLen r.1 < 2 ^ 32)
    (hsmall : (encodeAll rs).length < 2 ^ 64) : openFile seq (fileOf rs) = some (handleOf seq rs) := by
  have hkeys : ∀ e ∈ sparseOf 0 0 rs, byteLen e.1 < 2 ^ 32 := by
    intro e he
    obtain ⟨before, v, after, hsplit, -⟩ := mem_sparseOf he
    exact hshort (e.1, v) (by simp [hsplit])
  have hoffsets : ∀ e ∈ sparseOf 0 0 rs, e.2 < 2 ^ 64 := by
    intro e he
    obtain ⟨before, v, after, hsplit, hoffset⟩ := mem_sparseOf he
    rw [hsplit, encodeAll, List.flatMap_append, List.length_append] at hsmall
    rw [hoffset, encodeAll]
    omega
  have hsize : (encodeAll rs).length % 256 ^ 8 = (encodeAll rs).length := Nat.mod_eq_of_lt hsmall
  have hmagic : magic % 256 ^ 8 = magic := rfl
  have hlen : (fileOf rs).length - 16 =
      (encodeAll rs ++ (leOf 4 (sparseOf 0 0 rs).length ++ sparseBytes (sparseOf 0 0 rs))).length := by
    simp only [fileOf, List.length_append, length_leOf]
    omega
  have hfooter : (fileOf rs).drop ((fileOf rs).length - 16) =
      leOf 8 (encodeAll rs).length ++ (leOf 8 magic ++ []) := by
    rw [hlen, fileOf, List.drop_left, List.append_nil]
  have hindex : (fileOf rs).drop (encodeAll rs).length =
      leOf 4 (sparseOf 0 0 rs).length ++ (sparseBytes (sparseOf 0 0 rs) ++ (leOf 8 (encodeAll rs).length ++ leOf 8 magic)) := by
    rw [fileOf, List.append_assoc, List.drop_left, List.append_assoc]
  unfold openFile
  rw [if_neg (by simp only [fileOf, List.length_append, length_leOf]; omega), hfooter, readNat_append, hsize,
    Option.bind_some]
  dsimp only
  rw [readNat_append, hmagic, Option.bind_some]
  dsimp only
  rw [if_neg (not_not.mpr rfl), if_neg (by rw [hlen, List.length_append]; omega), hindex, readNat_append,
    Option.bind_some]
  dsimp only
  rw [readSparse_append hkeys hoffsets (Nat.mod_le _ _)]
  rfl

theorem openFile_fileOf (seq : Nat) {rs : List (Str × Bytes)} (h : FitsIndex rs) :
    openFile seq (fileOf rs) = some (handleOf seq rs) :=
  openFile_of_size seq h.keys h.size

/-! ## Scanning a written file -/

/-- What a scan makes of a list of records. -/
def visitAll {A : Type} (visit : A → Str → Bytes → A × Bool) : A → List (Str × Bytes) → A
  | acc, [] => acc
  | acc, r :: rs =>
    match visit acc r.1 r.2 with
    | (acc, true) => acc
    | (acc, false) => visitAll visit acc rs

/-- The records fit their file. -/
structure Fits (rs : List (Str × Bytes)) : Prop extends FitsIndex rs where
  values : ∀ r ∈ rs, r.2.length < 2 ^ 32

theorem length_encodeRecord (r : Str × Bytes) : (encodeRecord r).length = 8 + byteLen r.1 + r.2.length := by
  simp only [encodeRecord, putBytes, List.length_append, length_leOf, length_utf8]
  omega

theorem scan_encodeAll {A : Type} (visit : A → Str → Bytes → A × Bool) {rs : List (Str × Bytes)}
    (hkeys : ∀ r ∈ rs, byteLen r.1 < 2 ^ 32) (hvalues : ∀ r ∈ rs, r.2.length < 2 ^ 32) {recordsEnd fuel pos : Nat}
    (hend : pos + (encodeAll rs).length = recordsEnd) (hfuel : rs.length < fuel) (tail : Bytes) (acc : A) :
    scan visit recordsEnd fuel pos (encodeAll rs ++ tail) acc = some (visitAll visit acc rs) := by
  induction rs generalizing fuel pos acc with
  | nil =>
    cases fuel with
    | zero => rfl
    | succ fuel =>
      rw [scan, if_neg (by simp [encodeAll] at hend; omega)]
      rfl
  | cons r rs ih =>
    cases fuel with
    | zero => cases hfuel
    | succ fuel =>
      have hsplit : encodeAll (r :: rs) ++ tail =
          putBytes 4 (utf8 r.1) ++ (putBytes 4 r.2 ++ (encodeAll rs ++ tail)) := by
        rw [encodeAll, List.flatMap_cons, encodeRecord]
        simp only [List.append_assoc]
        rfl
      have hlen : (encodeAll (r :: rs)).length = 8 + byteLen r.1 + r.2.length + (encodeAll rs).length := by
        rw [encodeAll, List.flatMap_cons, List.length_append, length_encodeRecord]
        rfl
      rw [scan, if_pos (by omega), hsplit, readString_append (hkeys r List.mem_cons_self), Option.bind_some]
      dsimp only
      rw [readBytes_append (hvalues r List.mem_cons_self), Option.bind_some, visitAll]
      dsimp only
      cases visit acc r.1 r.2 with
      | mk acc' stop =>
        cases stop with
        | true => rfl
        | false =>
          exact ih (fun r' h => hkeys r' (List.mem_cons_of_mem _ h)) (fun r' h => hvalues r' (List.mem_cons_of_mem _ h))
            (by omega) (by simpa using hfuel) acc'

theorem length_le_encodeAll (rs : List (Str × Bytes)) : rs.length ≤ (encodeAll rs).length := by
  induction rs with
  | nil => exact Nat.le_refl _
  | cons r rs ih =>
    rw [encodeAll] at ih ⊢
    rw [List.flatMap_cons, List.length_append, length_encodeRecord, List.length_cons]
    omega

/-- A scan of a written file from the start of a record. -/
theorem scan_fileOf {A : Type} (visit : A → Str → Bytes → A × Bool) (before : List (Str × Bytes))
    {rs : List (Str × Bytes)} (h : Fits (before ++ rs)) (acc : A) :
    scan visit (encodeAll (before ++ rs)).length ((fileOf (before ++ rs)).length + 1) (encodeAll before).length
      ((fileOf (before ++ rs)).drop (encodeAll before).length) acc = some (visitAll visit acc rs) := by
  have hall : encodeAll (before ++ rs) = encodeAll before ++ encodeAll rs := by
    rw [encodeAll, List.flatMap_append]
    rfl
  have hfile : ∃ tail, fileOf (before ++ rs) = encodeAll before ++ (encodeAll rs ++ tail) := by
    refine ⟨leOf 4 (sparseOf 0 0 (before ++ rs)).length ++ sparseBytes (sparseOf 0 0 (before ++ rs)) ++
      (leOf 8 (encodeAll (before ++ rs)).length ++ leOf 8 magic), ?_⟩
    rw [fileOf, hall]
    simp only [List.append_assoc]
  obtain ⟨tail, hfile⟩ := hfile
  rw [hfile, List.drop_left]
  refine scan_encodeAll visit (fun r hr => h.keys r (List.mem_append_right _ hr))
    (fun r hr => h.values r (List.mem_append_right _ hr)) ?_ ?_ tail acc
  · rw [hall, List.length_append]
  · have := length_le_encodeAll rs
    simp only [List.length_append]
    omega

/-! ## Prefixes in the order of texts -/

theorem ne_of_compare_lt {a b : Str} (h : compare a b = .lt) : a ≠ b := by
  intro heq
  rw [LawfulEqOrd.compare_eq_iff_eq.mpr heq] at h
  cases h

theorem not_lt_of_startsWith {pre k : Str} (h : startsWith pre k = true) : compare k pre ≠ .lt := by
  induction pre generalizing k with
  | nil =>
    cases k with
    | nil => simp
    | cons c k => simp [List.compare_cons_nil]
  | cons c pre ih =>
    cases k with
    | nil => simp [startsWith] at h
    | cons d k =>
      simp only [startsWith, List.isPrefixOf, Bool.and_eq_true, beq_iff_eq] at h
      obtain ⟨rfl, h⟩ := h
      rw [List.compare_cons_cons, LawfulEqOrd.compare_eq_iff_eq.mpr rfl]
      exact ih h

/-- A text between a prefix and a text that has it has it too. -/
theorem startsWith_of_between {pre k k' : Str} (hpre : compare k pre ≠ .lt) (hlt : compare k k' = .lt)
    (h : startsWith pre k' = true) : startsWith pre k = true := by
  induction pre generalizing k k' with
  | nil => rfl
  | cons c pre ih =>
    cases k' with
    | nil => simp [startsWith] at h
    | cons d k' =>
      simp only [startsWith, List.isPrefixOf, Bool.and_eq_true, beq_iff_eq] at h
      obtain ⟨rfl, h⟩ := h
      cases k with
      | nil => simp [List.compare_nil_cons] at hpre
      | cons b k =>
        rw [List.compare_cons_cons] at hpre hlt
        cases hb : compare b c with
        | lt => simp [hb] at hpre
        | gt => simp [hb] at hlt
        | eq =>
          obtain rfl := LawfulEqOrd.compare_eq_iff_eq.mp hb
          simp only [ReflCmp.compare_self, Ordering.eq_then] at hpre hlt
          simp only [startsWith, List.isPrefixOf, beq_self_eq_true, Bool.true_and]
          exact ih hpre hlt h

/-! ## What the visitors see -/

theorem visitAll_get {rs : List (Str × Bytes)} (h : Ascending rs) (key : Str) :
    visitAll (visitGet key) none rs = rs.lookup key := by
  induction rs with
  | nil => rfl
  | cons r rs ih =>
    obtain ⟨k, v⟩ := r
    rw [visitAll, visitGet, List.lookup_cons]
    dsimp only
    cases hk : compare k key with
    | eq =>
      obtain rfl := LawfulEqOrd.compare_eq_iff_eq.mp hk
      simp
    | lt =>
      rw [beq_eq_false_iff_ne.mpr (ne_of_compare_lt hk).symm]
      exact ih h.of_cons
    | gt =>
      have hlt : compare key k = .lt := OrientedCmp.gt_iff_lt.mp hk
      rw [beq_eq_false_iff_ne.mpr (ne_of_compare_lt hlt)]
      symm
      apply LayeredMap.lookup_of_not_mem
      rw [List.mem_map]
      rintro ⟨r, hr, rfl⟩
      exact ne_of_compare_lt (TransCmp.lt_trans hlt (List.rel_of_pairwise_cons h hr)) rfl

theorem visitAll_records (out rs : List (Str × Bytes)) :
    visitAll (fun out k v => (out ++ [(k, v)], false)) out rs = out ++ rs := by
  induction rs generalizing out with
  | nil => simp [visitAll]
  | cons r rs ih =>
    rw [visitAll]
    dsimp only
    rw [ih, List.append_assoc, List.singleton_append]

theorem visitAll_startsWith {rs : List (Str × Bytes)} (h : Ascending rs) (pre : Str) (out : List (Str × Bytes)) :
    visitAll (visitPrefix pre) out rs = out ++ rs.filter (startsWith pre ·.1) := by
  induction rs generalizing out with
  | nil => simp [visitAll]
  | cons r rs ih =>
    rw [visitAll, visitPrefix]
    by_cases hlt : compare r.1 pre = .lt
    · have hno : startsWith pre r.1 = false := by
        rw [← Bool.not_eq_true]
        exact fun hyes => not_lt_of_startsWith hyes hlt
      rw [if_pos hlt, List.filter_cons, hno]
      exact ih h.of_cons out
    · rw [if_neg hlt]
      by_cases hyes : startsWith pre r.1 = true
      · rw [if_pos hyes]
        dsimp only
        rw [ih h.of_cons, List.filter_cons, if_pos hyes, List.append_assoc, List.singleton_append]
      · rw [if_neg hyes]
        have hnone : (r :: rs).filter (startsWith pre ·.1) = [] := by
          rw [List.filter_eq_nil_iff]
          intro r' hr' hyes'
          rcases List.mem_cons.mp hr' with rfl | hr'
          · exact hyes hyes'
          · exact hyes (startsWith_of_between hlt (List.rel_of_pairwise_cons h hr') hyes')
        rw [hnone, List.append_nil]

/-! ## Where a search starts -/

theorem binarySearch_ok {sparse : List (Str × Nat)} {key : Str} {i : Nat}
    (h : binarySearch sparse key = .ok i) : ∃ e, sparse[i]? = some e ∧ e.1 = key := by
  unfold binarySearch at h
  dsimp only at h
  split at h
  · rename_i hfound
    obtain rfl := Except.ok.inj h
    simpa using hfound
  · cases h

theorem binarySearch_error_succ {sparse : List (Str × Nat)} {key : Str} {i : Nat}
    (h : binarySearch sparse key = .error (i + 1)) : ∃ e, sparse[i]? = some e ∧ compare e.1 key = .lt := by
  unfold binarySearch at h
  dsimp only at h
  split at h
  · cases h
  · have hlen := Except.error.inj h
    have hlt : i < (sparse.takeWhile fun e => compare e.1 key == .lt).length := by omega
    have hbelow := List.mem_takeWhile_imp (p := fun e : Str × Nat => compare e.1 key == .lt) (List.getElem_mem hlt)
    refine ⟨_, ?_, beq_iff_eq.mp hbelow⟩
    have hpre := List.takeWhile_prefix (l := sparse) fun e => compare e.1 key == .lt
    rw [hpre.getElem hlt]
    exact List.getElem?_eq_getElem _

theorem binarySearch_error_zero {e : Str × Nat} {sparse : List (Str × Nat)} {key : Str}
    (h : binarySearch (e :: sparse) key = .error 0) : compare key e.1 = .lt := by
  unfold binarySearch at h
  dsimp only at h
  split at h
  · cases h
  · rename_i hne
    have hlen := Except.error.inj h
    rw [hlen] at hne
    simp only [List.getElem?_cons_zero, Option.map_some, Option.some.injEq] at hne
    cases hcmp : compare e.1 key with
    | lt => simp [hcmp] at hlen
    | eq => exact absurd (LawfulEqOrd.compare_eq_iff_eq.mp hcmp) hne
    | gt => exact OrientedCmp.gt_iff_lt.mp hcmp

theorem sparse_ne_nil (seq : Nat) {rs : List (Str × Bytes)} (h : FitsIndex rs) (hne : rs ≠ []) :
    ∃ r rest later, rs = r :: rest ∧ (handleOf seq rs).sparse = (r.1, 0) :: later := by
  have hlen := length_sparseOf 0 0 rs
  have hcounted := h.counted hne
  rw [Nat.zero_add, Nat.zero_add, Nat.add_zero] at hlen
  obtain ⟨r, rest, rfl⟩ := List.exists_cons_of_ne_nil hne
  obtain ⟨count, hcount⟩ := Nat.exists_eq_succ_of_ne_zero (hlen ▸ hcounted)
  refine ⟨r, rest, (sparseOf 1 (0 + (encodeRecord r).length) rest).take count, rfl, ?_⟩
  rw [handleOf, hcount]
  rfl

/-- An entry of the index splits the records where it points. -/
theorem split_at_entry {seq : Nat} {rs : List (Str × Bytes)} {i : Nat} {e : Str × Nat}
    (h : (handleOf seq rs).sparse[i]? = some e) :
    ∃ before v after, rs = before ++ (e.1, v) :: after ∧
      offsetAt (handleOf seq rs).sparse i = (encodeAll before).length := by
  have hmem : e ∈ sparseOf 0 0 rs := List.mem_of_mem_take (List.mem_of_getElem? h)
  obtain ⟨before, v, after, hsplit, hoffset⟩ := mem_sparseOf hmem
  refine ⟨before, v, after, hsplit, ?_⟩
  rw [offsetAt, h, Option.map_some, Option.getD_some, hoffset, Nat.zero_add]

/-- The keys before the split are below the key that is searched. -/
theorem below_of_split {before after : List (Str × Bytes)} {k key : Str} {v : Bytes}
    (h : Ascending (before ++ (k, v) :: after)) (hle : compare k key ≠ .gt) {r : Str × Bytes} (hr : r ∈ before) :
    compare r.1 key = .lt := by
  have hlt := (List.pairwise_append.mp h).2.2 r hr _ List.mem_cons_self
  cases hcmp : compare k key with
  | lt => exact TransCmp.lt_trans hlt hcmp
  | eq =>
    rw [← LawfulEqOrd.compare_eq_iff_eq.mp hcmp]
    exact hlt
  | gt => exact absurd hcmp hle

/-! ## Reading back -/

theorem get_from_split {seq : Nat} {rs : List (Str × Bytes)} (hfits : Fits rs) (hasc : Ascending rs) {i : Nat}
    {e : Str × Nat} {key : Str} (hentry : (handleOf seq rs).sparse[i]? = some e) (hle : compare e.1 key ≠ .gt) :
    readAt (fileOf rs) (handleOf seq rs) (offsetAt (handleOf seq rs).sparse i) key = some (rs.lookup key) := by
  obtain ⟨before, v, after, rfl, hoffset⟩ := split_at_entry hentry
  have hskip : before.lookup key = none := by
    apply LayeredMap.lookup_of_not_mem
    rw [List.mem_map]
    rintro ⟨r, hr, rfl⟩
    exact ne_of_compare_lt (below_of_split hasc hle hr) rfl
  rw [readAt, hoffset]
  refine (scan_fileOf (visitGet key) before hfits none).trans ?_
  rw [visitAll_get (List.pairwise_append.mp hasc).2.1, List.lookup_append, hskip, Option.none_or]

theorem get_fileOf {seq : Nat} {rs : List (Str × Bytes)} (hfits : Fits rs) (hasc : Ascending rs) (key : Str) :
    get (fileOf rs) (handleOf seq rs) key = some (rs.lookup key) := by
  by_cases hne : rs = []
  · subst hne
    rfl
  · obtain ⟨r, rest, later, hcons, hsparse⟩ := sparse_ne_nil seq hfits.toFitsIndex hne
    rw [get, if_neg (by rw [hsparse]; simp)]
    split
    · rename_i i hsearch
      obtain ⟨e, hentry, rfl⟩ := binarySearch_ok hsearch
      exact get_from_split hfits hasc hentry (by simp)
    · rename_i hsearch
      rw [hsparse] at hsearch
      have hlt := binarySearch_error_zero hsearch
      rw [LayeredMap.lookup_of_not_mem]
      rw [hcons, List.mem_map]
      rintro ⟨r', hr', rfl⟩
      rcases List.mem_cons.mp hr' with rfl | hr'
      · exact ne_of_compare_lt hlt rfl
      · rw [hcons] at hasc
        exact ne_of_compare_lt (TransCmp.lt_trans hlt (List.rel_of_pairwise_cons hasc hr')) rfl
    · rename_i i hsearch
      obtain ⟨e, hentry, hlt⟩ := binarySearch_error_succ hsearch
      exact get_from_split hfits hasc hentry (by simp [hlt])

theorem records_fileOf {seq : Nat} {rs : List (Str × Bytes)} (hfits : Fits rs) :
    records (fileOf rs) (handleOf seq rs) = some rs := by
  have h := scan_fileOf (fun out k v => (out ++ [(k, v)], false)) [] hfits []
  rw [visitAll_records] at h
  exact h

theorem scanPrefix_from_split {seq : Nat} (before : List (Str × Bytes)) {rest : List (Str × Bytes)} {pre : Str}
    (hfits : Fits (before ++ rest)) (hasc : Ascending (before ++ rest))
    (hbelow : ∀ r ∈ before, compare r.1 pre = .lt) :
    scan (visitPrefix pre) (handleOf seq (before ++ rest)).recordsEnd ((fileOf (before ++ rest)).length + 1)
      (encodeAll before).length ((fileOf (before ++ rest)).drop (encodeAll before).length) [] =
        some ((before ++ rest).filter (startsWith pre ·.1)) := by
  refine (scan_fileOf (visitPrefix pre) before hfits []).trans ?_
  have hskip : before.filter (startsWith pre ·.1) = [] := by
    rw [List.filter_eq_nil_iff]
    intro r hr hyes
    exact not_lt_of_startsWith hyes (hbelow r hr)
  rw [visitAll_startsWith (List.pairwise_append.mp hasc).2.1, List.filter_append, hskip]

theorem scanPrefix_fileOf {seq : Nat} {rs : List (Str × Bytes)} (hfits : Fits rs) (hasc : Ascending rs) (pre : Str) :
    scanPrefix (fileOf rs) (handleOf seq rs) pre = some (rs.filter (startsWith pre ·.1)) := by
  by_cases hne : rs = []
  · subst hne
    rfl
  · obtain ⟨r, rest, later, hcons, hsparse⟩ := sparse_ne_nil seq hfits.toFitsIndex hne
    have hstart : ∀ {i : Nat} {e : Str × Nat}, (handleOf seq rs).sparse[i]? = some e → compare e.1 pre ≠ .gt →
        scan (visitPrefix pre) (handleOf seq rs).recordsEnd ((fileOf rs).length + 1)
          (offsetAt (handleOf seq rs).sparse i) ((fileOf rs).drop (offsetAt (handleOf seq rs).sparse i)) [] =
            some (rs.filter (startsWith pre ·.1)) := by
      intro i e hentry hle
      obtain ⟨before, v, after, hsplit, hoffset⟩ := split_at_entry hentry
      rw [hoffset]
      subst hsplit
      exact scanPrefix_from_split before hfits hasc fun r hr => below_of_split hasc hle hr
    rw [scanPrefix, if_neg (by rw [hsparse]; simp)]
    cases hsearch : binarySearch (handleOf seq rs).sparse pre with
    | ok i =>
      obtain ⟨e, hentry, rfl⟩ := binarySearch_ok hsearch
      exact hstart hentry (by simp)
    | error i =>
      cases i with
      | zero => exact scanPrefix_from_split [] hfits hasc fun r hr => by cases hr
      | succ i =>
        obtain ⟨e, hentry, hlt⟩ := binarySearch_error_succ hsearch
        exact hstart hentry (by simp [hlt])

end Ccos.SegmentFile
