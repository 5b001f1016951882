import Ccos.ColdIndex.SegmentFile
import Ccos.Lib.Ascii

/-!
# When a segment file gives its records back

The footer keeps the size of the records in 64 bits, and the index keeps the number of its entries in 32.
A file is read back as it was written exactly when both fields hold what they should.
-/

open Std ByteCodec

namespace Ccos.SegmentFile

/-- What is written is opened, and every reader of it agrees with the records. -/
def RoundTrips (rs : List (Str × Bytes)) : Prop :=
  ∃ file, writeSegment rs = some file ∧ ∀ seq, ∃ h, openFile seq file = some h ∧
    records file h = some rs ∧ (∀ key, get file h key = some (rs.lookup key)) ∧
    ∀ pre, scanPrefix file h pre = some (rs.filter (startsWith pre ·.1))

/-! ## Records past the 64-bit size -/

theorem recordsEnd_openFile {seq : Nat} {rs : List (Str × Bytes)} {h : Handle}
    (hopen : openFile seq (fileOf rs) = some h) : h.recordsEnd = (encodeAll rs).length % 2 ^ 64 := by
  have hlen : (fileOf rs).length - 16 =
      (encodeAll rs ++ (leOf 4 (sparseOf 0 0 rs).length ++ sparseBytes (sparseOf 0 0 rs))).length := by
    simp only [fileOf, List.length_append, length_leOf]
    omega
  have hfooter : (fileOf rs).drop ((fileOf rs).length - 16) =
      leOf 8 (encodeAll rs).length ++ (leOf 8 magic ++ []) := by
    rw [hlen, fileOf, List.drop_left, List.append_nil]
  unfold openFile at hopen
  rw [if_neg (by simp only [fileOf, List.length_append, length_leOf]; omega), hfooter, readNat_append,
    Option.bind_some] at hopen
  dsimp only at hopen
  rw [readNat_append, Option.bind_some] at hopen
  dsimp only at hopen
  split at hopen
  · cases hopen
  · split at hopen
    · cases hopen
    · obtain ⟨_, _, hindex⟩ := Option.bind_eq_some_iff.mp hopen
      obtain ⟨_, _, rfl⟩ := Option.map_eq_some_iff.mp hindex
      rfl

/-- A scan whose end is not behind the records reads no more than them. -/
theorem length_scan_le {rs : List (Str × Bytes)} (hkeys : ∀ r ∈ rs, byteLen r.1 < 2 ^ 32)
    (hvalues : ∀ r ∈ rs, r.2.length < 2 ^ 32) {recordsEnd fuel pos : Nat}
    (hend : recordsEnd ≤ pos + (encodeAll rs).length) {tail : Bytes} {acc out : List (Str × Bytes)}
    (h : scan (fun out k v => (out ++ [(k, v)], false)) recordsEnd fuel pos (encodeAll rs ++ tail) acc = some out) :
    out.length ≤ acc.length + rs.length := by
  induction rs generalizing fuel pos acc with
  | nil =>
    cases fuel with
    | zero =>
      obtain rfl := Option.some.inj h
      omega
    | succ fuel =>
      rw [scan, if_neg (by simp [encodeAll] at hend; omega)] at h
      obtain rfl := Option.some.inj h
      omega
  | cons r rs ih =>
    cases fuel with
    | zero =>
      obtain rfl := Option.some.inj h
      omega
    | succ fuel =>
      have hsplit : encodeAll (r :: rs) ++ tail =
          putBytes 4 (utf8 r.1) ++ (putBytes 4 r.2 ++ (encodeAll rs ++ tail)) := by
        rw [encodeAll, List.flatMap_cons, encodeRecord]
        simp only [List.append_assoc]
        rfl
      have hlen : (encodeAll (r :: rs)).length = 8 + byteLen r.1 + r.2.length + (encodeAll rs).length := by
        rw [encodeAll, List.flatMap_cons, List.length_append, length_encodeRecord]
        rfl
      rw [scan] at h
      split at h
      · rw [hsplit, readString_append (hkeys r List.mem_cons_self), Option.bind_some] at h
        dsimp only at h
        rw [readBytes_append (hvalues r List.mem_cons_self), Option.bind_some] at h
        have hlater : recordsEnd ≤ pos + (8 + byteLen r.1 + r.2.length) + (encodeAll rs).length := by omega
        have ih := ih (fun r' h => hkeys r' (List.mem_cons_of_mem _ h))
          (fun r' h => hvalues r' (List.mem_cons_of_mem _ h)) hlater h
        rw [List.length_append, List.length_singleton] at ih
        rw [List.length_cons]
        omega
      · obtain rfl := Option.some.inj h
        omega

/-- A size that overflows its field ends the records before the last of them. -/
theorem size_of_records {seq : Nat} {rs : List (Str × Bytes)} {h : Handle}
    (hkeys : ∀ r ∈ rs, byteLen r.1 < 2 ^ 32) (hvalues : ∀ r ∈ rs, r.2.length < 2 ^ 32)
    (hopen : openFile seq (fileOf rs) = some h) (hback : records (fileOf rs) h = some rs) :
    (encodeAll rs).length < 2 ^ 64 := by
  by_contra hbig
  rcases List.eq_nil_or_concat rs with rfl | ⟨before, last, rfl⟩
  · simp [encodeAll] at hbig
  · have hend := recordsEnd_openFile hopen
    rw [List.concat_eq_append] at *
    have hlast := length_encodeRecord last
    have hkey := hkeys last (by simp)
    have hvalue := hvalues last (by simp)
    have hall : encodeAll (before ++ [last]) = encodeAll before ++ encodeRecord last := by
      simp [encodeAll, List.flatMap_append]
    rw [hall, List.length_append] at hbig hend
    have hfile : ∃ tail, fileOf (before ++ [last]) = encodeAll before ++ tail := by
      rw [fileOf, hall]
      exact ⟨_, by simp only [List.append_assoc]; rfl⟩
    obtain ⟨tail, hfile⟩ := hfile
    rw [records, hfile] at hback
    have hle := length_scan_le (fun r hr => hkeys r (List.mem_append_left _ hr))
      (fun r hr => hvalues r (List.mem_append_left _ hr)) (by omega) hback
    simp at hle

/-! ## More entries than the 32-bit count -/

/-- An index that counts no entry answers every search with nothing. -/
theorem counted_of_get {seq : Nat} {rs : List (Str × Bytes)}
    (hget : ∀ key, get (fileOf rs) (handleOf seq rs) key = some (rs.lookup key)) (hne : rs ≠ []) :
    (rs.length + 63) / 64 % 2 ^ 32 ≠ 0 := by
  intro hzero
  have hlen := length_sparseOf 0 0 rs
  rw [Nat.zero_add, Nat.zero_add, Nat.add_zero] at hlen
  have hempty : (handleOf seq rs).sparse = [] := by
    rw [handleOf]
    dsimp only
    rw [hlen, hzero, List.take_zero]
  obtain ⟨r, rest, rfl⟩ := List.exists_cons_of_ne_nil hne
  have hfirst := hget r.1
  rw [SegmentFile.get, hempty, List.isEmpty_nil, if_pos rfl, List.lookup_cons, beq_self_eq_true] at hfirst
  cases hfirst

/-! ## The condition -/

theorem counters_of_roundTrips {rs : List (Str × Bytes)} (hasc : Ascending rs)
    (hkeys : ∀ r ∈ rs, byteLen r.1 < 2 ^ 32) (hvalues : ∀ r ∈ rs, r.2.length < 2 ^ 32) (hback : RoundTrips rs) :
    (encodeAll rs).length < 2 ^ 64 ∧ (rs ≠ [] → (rs.length + 63) / 64 % 2 ^ 32 ≠ 0) := by
  obtain ⟨file, hfile, h⟩ := hback
  rw [writeSegment_of_ascending hasc] at hfile
  obtain rfl := Option.some.inj hfile
  obtain ⟨h, hopen, hrecords, hget, -⟩ := h 0
  have hsize := size_of_records hkeys hvalues hopen hrecords
  rw [openFile_of_size 0 hkeys hsize] at hopen
  obtain rfl := Option.some.inj hopen
  exact ⟨hsize, counted_of_get hget⟩

/-- A file is read back as it was written exactly when its two counters hold. -/
theorem roundTrips_iff (rs : List (Str × Bytes)) (hasc : Ascending rs) (hkeys : ∀ r ∈ rs, byteLen r.1 < 2 ^ 32)
    (hvalues : ∀ r ∈ rs, r.2.length < 2 ^ 32) :
    RoundTrips rs ↔ (encodeAll rs).length < 2 ^ 64 ∧ (rs ≠ [] → (rs.length + 63) / 64 % 2 ^ 32 ≠ 0) := by
  constructor
  · exact counters_of_roundTrips hasc hkeys hvalues
  · rintro ⟨hsize, hcounted⟩
    have hfits : Fits rs := { keys := hkeys, counted := hcounted, size := hsize, values := hvalues }
    refine ⟨fileOf rs, writeSegment_of_ascending hasc, fun seq => ⟨handleOf seq rs, ?_, ?_, ?_, ?_⟩⟩
    · exact openFile_fileOf seq hfits.toFitsIndex
    · exact records_fileOf hfits
    · exact get_fileOf hfits hasc
    · exact scanPrefix_fileOf hfits hasc

theorem roundTrips_two_records : RoundTrips [("a".toList, [1, 2]), ("ab".toList, [])] :=
  (roundTrips_iff _ (by unfold Ascending; decide) (by decide) (by decide)).mpr ⟨by decide, fun _ => by decide⟩

/-! ## The first file whose index counts nothing -/

theorem compare_ofNat {m n : Nat} (hlt : m < n) (h : n < 0xD800) : compare (Char.ofNat m) (Char.ofNat n) = .lt := by
  have hlt : Char.ofNat m < Char.ofNat n := by
    change (Char.ofNat m).toNat < (Char.ofNat n).toNat
    rw [toNat_ofNat (by omega), toNat_ofNat h]
    exact hlt
  exact if_pos hlt

/-- The number as three characters, in base 8192. -/
def keyAt (i : Nat) : Str := [Char.ofNat (i / 8192 / 8192), Char.ofNat (i / 8192 % 8192), Char.ofNat (i % 8192)]

theorem compare_keyAt {i j : Nat} (hlt : i < j) (h : j < 8192 * 8192 * 8192) :
    compare (keyAt i) (keyAt j) = .lt := by
  rw [keyAt, keyAt, List.compare_cons_cons, List.compare_cons_cons, List.compare_cons_cons]
  rcases Nat.lt_or_eq_of_le (Nat.div_le_div_right (c := 8192) (Nat.div_le_div_right (c := 8192) hlt.le)) with hhigh | hhigh
  · rw [compare_ofNat hhigh (by omega)]
    rfl
  · simp only [hhigh, ReflCmp.compare_self, Ordering.eq_then]
    rcases Nat.lt_or_eq_of_le (show i / 8192 % 8192 ≤ j / 8192 % 8192 by omega) with hmid | hmid
    · rw [compare_ofNat hmid (by omega)]
      rfl
    · simp only [hmid, ReflCmp.compare_self, Ordering.eq_then]
      rw [compare_ofNat (by omega) (by omega)]
      rfl

theorem byteLen_keyAt_lt (i : Nat) : byteLen (keyAt i) < 2 ^ 32 := by
  have hsize : ∀ c : Char, c.utf8Size ≤ 4 := Char.utf8Size_le_four
  have h₁ := hsize (Char.ofNat (i / 8192 / 8192))
  have h₂ := hsize (Char.ofNat (i / 8192 % 8192))
  have h₃ := hsize (Char.ofNat (i % 8192))
  simp only [byteLen, keyAt, List.map_cons, List.map_nil, List.sum_cons, List.sum_nil]
  omega

/-- `n` records without values. -/
def emptyRecords (n : Nat) : List (Str × Bytes) := (List.range n).map fun i => (keyAt i, [])

theorem ascending_emptyRecords {n : Nat} (h : n ≤ 8192 * 8192 * 8192) : Ascending (emptyRecords n) := by
  rw [Ascending, emptyRecords, List.pairwise_map]
  refine List.Pairwise.imp_of_mem ?_ List.pairwise_lt_range
  intro i j _ hj hlt
  exact compare_keyAt hlt (Nat.lt_of_lt_of_le (List.mem_range.mp hj) h)

/-- With 2^32 entries the index counts zero, and no key is found. -/
theorem index_counts_zero : Ascending (emptyRecords (2 ^ 38)) ∧
    (∀ r ∈ emptyRecords (2 ^ 38), byteLen r.1 < 2 ^ 32 ∧ r.2.length < 2 ^ 32) ∧
    ¬ RoundTrips (emptyRecords (2 ^ 38)) := by
  have hasc : Ascending (emptyRecords (2 ^ 38)) := ascending_emptyRecords (by norm_num)
  have hshort : ∀ r ∈ emptyRecords (2 ^ 38), byteLen r.1 < 2 ^ 32 ∧ r.2.length < 2 ^ 32 := by
    intro r hr
    rw [emptyRecords, List.mem_map] at hr
    obtain ⟨i, -, rfl⟩ := hr
    exact ⟨byteLen_keyAt_lt i, by norm_num⟩
  have hlen : (emptyRecords (2 ^ 38)).length = 2 ^ 38 := by rw [emptyRecords, List.length_map, List.length_range]
  refine ⟨hasc, hshort, fun hback => ?_⟩
  have hne : emptyRecords (2 ^ 38) ≠ [] := by
    intro hnil
    rw [hnil] at hlen
    norm_num at hlen
  have hcounted := (counters_of_roundTrips hasc (fun r hr => (hshort r hr).1) (fun r hr => (hshort r hr).2) hback).2 hne
  rw [hlen] at hcounted
  norm_num at hcounted

end Ccos.SegmentFile
