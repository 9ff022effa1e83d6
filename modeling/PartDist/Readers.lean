import PartDist.Verify

/-!
# The three readers of a partition directory

`count_parwal_records` adds up file lengths, `read_all_headers` passes over records that
are not valid, `verify_partition_wal` stops at the first one.

* `verify_inOrder_iff`: verification succeeds when every record is valid and they are
  numbered from 1 on.
* `verify_agrees`: with fewer than 2^63 records, when the `partition_lsn` column is
  1, 2, ..., n for the count n.
-/

namespace PartDist

open Bytes PartWALHeader ExchangeSort

/-- `total` is an `int64`; nothing but the length of a file counts. -/
def countParwalRecords (sc : ScanIO) (d : Dir) : Int64 :=
  (sc.readdir.order d.names).foldl
    (fun total s =>
      if sc.opens s then
        if 0 < (d.content s).length then total + Int64.ofNat ((d.content s).length / headerSize) else total
      else total)
    0

/-- The column of `read_all_headers`, a `BIGINT`. -/
def partitionLsnColumn (sc : ScanIO) (pid : Oid) (d : Dir) : List Int64 :=
  (readAllHeaders sc pid d).map fun r => r.1.toInt64

/-- 1, 2, ..., n. -/
def upTo (n : Int64) : List Int64 := (List.range' 1 n.toNatClampNeg).map Int64.ofNat

/-- The records of the files a scan reads, file after file. -/
def Dir.inOrder (rd : Readdir) (d : Dir) : List PartWALHeader :=
  (exchangeSort (fun t s => decide (t < s)) (d.listed rd)).flatMap d.headers

section
variable {rd rd' : Readdir} {pid : Oid} {d : Dir} {hs : List PartWALHeader}

/-- With at most 256 files the order of `readdir` does not matter. -/
theorem inOrder_readdir (rd rd' : Readdir) (hfew : d.names.card ≤ maxScanFiles) :
    d.inOrder rd = d.inOrder rd' := by
  have hperm : (exchangeSort (fun t s => decide (t < s)) (d.listed rd)).Perm
      (exchangeSort (fun t s => decide (t < s)) (d.listed rd')) :=
    calc (exchangeSort (fun t s => decide (t < s)) (d.listed rd)).Perm (d.listed rd) := exchangeSort_perm _ _
      _ |>.Perm (d.listed rd') := (List.perm_ext_iff_of_nodup (d.nodup_listed rd) (d.nodup_listed rd')).mpr fun s =>
        (Dir.mem_listed hfew).trans (Dir.mem_listed hfew).symm
      _ |>.Perm (exchangeSort (fun t s => decide (t < s)) (d.listed rd')) := (exchangeSort_perm _ _).symm
  have hsame := hperm.eq_of_pairwise (fun a b _ _ h h' => absurd (Nat.lt_trans h h') (Nat.lt_irrefl _))
    (sorted_ascending (d.nodup_listed rd)) (sorted_ascending (d.nodup_listed rd'))
  rw [Dir.inOrder, hsame, Dir.inOrder]

/-- All records of the directory are read. -/
theorem inOrder_records (rd : Readdir) (hfew : d.names.card ≤ maxScanFiles) :
    (d.inOrder rd : Multiset PartWALHeader) = d.records := by
  have hset : (d.listed rd).toFinset = d.names := by
    ext s
    rw [List.mem_toFinset, Dir.mem_listed hfew]
  have hflat : ∀ l : List Nat, ((l.flatMap d.headers : List PartWALHeader) : Multiset PartWALHeader) =
      (l.map fun s => (d.headers s : Multiset PartWALHeader)).sum := by
    intro l
    induction l with
    | nil => rfl
    | cons s l ih => rw [List.flatMap_cons, ← Multiset.coe_add, ih, List.map_cons, List.sum_cons]
  rw [Dir.inOrder, hflat, Dir.records, ← hset, List.sum_toFinset _ (d.nodup_listed rd)]
  exact ((exchangeSort_perm _ _).map _).sum_eq

theorem verify_inOrder (rd : Readdir) (pid : Oid) (d : Dir) :
    verifyPartitionWAL rd pid d = (verifyFile pid (d.inOrder rd) 1).isSome := by
  rw [verifyPartitionWAL_eq, List.filter_eq_self.mpr fun _ _ => rfl, Dir.inOrder]

theorem readAllHeaders_inOrder (rd : Readdir) (pid : Oid) (d : Dir) :
    readAllHeaders rd pid d = ((d.inOrder rd).filter (validFor pid)).map row := by
  simp only [readAllHeaders, Dir.inOrder, if_true, List.filter_flatMap, List.map_flatMap]

theorem valid_of_verifyFile {e : UInt64} (h : (verifyFile pid hs e).isSome = true) :
    ∀ a ∈ hs, a.validFor pid := by
  induction hs generalizing e with
  | nil => exact fun a ha => absurd ha List.not_mem_nil
  | cons b hs ih =>
    unfold verifyFile at h
    split at h
    · cases h
    · next hb =>
      split at h
      · cases h
      · intro a ha
        rcases List.mem_cons.mp ha with rfl | ha
        · exact not_not.mp hb
        · exact ih h a ha

/-- It succeeds on valid records numbered from 1 on. -/
theorem verify_inOrder_iff (hlen : (d.inOrder rd).length < 2 ^ 64) :
    verifyPartitionWAL rd pid d = true ↔ (∀ a ∈ d.inOrder rd, a.validFor pid) ∧ Numbered (d.inOrder rd) := by
  rw [verify_inOrder]
  constructor
  · intro h
    have hv := valid_of_verifyFile h
    exact ⟨hv, (verifyFile_isSome (n := 1) hv (by omega)).mp h⟩
  · rintro ⟨hv, hn⟩
    exact (verifyFile_isSome (n := 1) hv (by omega)).mpr hn

theorem card_records (rd : Readdir) (d : Dir) :
    d.records.card = ((rd.order d.names).map fun s => (d.headers s).length).sum := by
  rw [Dir.records, Multiset.card_sum, ← List.sum_toFinset _ (rd.nodup _), rd.toFinset_order]
  rfl

/-- One round of the count: the whole records of a file are added, as an `int64`. -/
theorem addSize_eq (f : Bytes) (n : Nat) :
    (if 0 < f.length then Int64.ofNat n + Int64.ofNat (f.length / headerSize) else Int64.ofNat n) =
      Int64.ofNat (n + (readHeaders f).length) := by
  rw [length_readHeaders, Int64.ofNat_add]
  split
  · rfl
  · next h0 =>
    rw [Nat.eq_zero_of_not_pos h0, Nat.zero_div]
    exact (Int64.add_zero _).symm

/-- The count, up to what an `int64` holds. -/
theorem countParwalRecords_eq (rd : Readdir) (d : Dir) :
    countParwalRecords rd d = Int64.ofNat d.records.card := by
  have key : ∀ (l : List Nat) (n : Nat),
      l.foldl (fun total s => if 0 < (d.content s).length then
        total + Int64.ofNat ((d.content s).length / headerSize) else total) (Int64.ofNat n) =
        Int64.ofNat (n + (l.map fun s => (d.headers s).length).sum) := by
    intro l
    induction l with
    | nil => exact fun n => rfl
    | cons s l ih =>
      intro n
      rw [List.foldl_cons, addSize_eq, ih, List.map_cons, List.sum_cons, Nat.add_assoc]
      rfl
  rw [card_records rd, ← Nat.zero_add (List.sum _), ← key]
  rfl

/-- Two columns are the same when the numbers are. -/
theorem column_eq_upTo (hs : List PartWALHeader) {n : Nat} (hn : n < 2 ^ 63) :
    hs.map (fun h => h.partitionLsn.toInt64) = (List.range' 1 n).map Int64.ofNat ↔
      hs.map lsn = List.range' 1 n := by
  have hwords : ((List.range' 1 n).map UInt64.ofNat).map UInt64.toNat = List.range' 1 n := by
    rw [List.map_map]
    refine (List.map_congr_left fun i hi => ?_).trans (List.map_id _)
    have := List.mem_range'_1.mp hi
    exact UInt64.toNat_ofNat_of_lt' (by simp only [UInt64.size]; omega)
  calc hs.map (fun h => h.partitionLsn.toInt64) = (List.range' 1 n).map Int64.ofNat
    _ ↔ (hs.map partitionLsn).map UInt64.toInt64 =
        ((List.range' 1 n).map UInt64.ofNat).map UInt64.toInt64 := by rw [List.map_map, List.map_map]; rfl
    _ ↔ hs.map partitionLsn = (List.range' 1 n).map UInt64.ofNat :=
        List.map_inj_right fun _ _ h => congrArg Int64.toUInt64 h
    _ ↔ (hs.map partitionLsn).map UInt64.toNat = ((List.range' 1 n).map UInt64.ofNat).map UInt64.toNat :=
        (List.map_inj_right fun _ _ h => UInt64.toNat_inj.mp h).symm
    _ ↔ hs.map lsn = List.range' 1 n := by rw [hwords, List.map_map]; rfl

end

/-- **The verifier and the readers.** In a directory of at most 256 files with fewer than
2^63 whole records, `verify_partition_wal` returns true if and only if the `partition_lsn`
column of `read_all_headers` is 1, 2, ..., n for the n that `count_parwal_records` returns. -/
theorem verify_agrees (pid : Oid) (d : Dir) (rd rd' rd'' : Readdir) (hfew : d.names.card ≤ maxScanFiles)
    (hcount : d.records.card < 2 ^ 63) :
    verifyPartitionWAL rd pid d = true ↔
      partitionLsnColumn rd' pid d = upTo (countParwalRecords rd'' d) := by
  have hlen : (d.inOrder rd).length = d.records.card := by
    rw [← inOrder_records rd hfew, Multiset.coe_card]
  have hupTo : upTo (countParwalRecords rd'' d) = (List.range' 1 (d.inOrder rd).length).map Int64.ofNat := by
    rw [upTo, countParwalRecords_eq, Int64.toNatClampNeg_ofNat_of_lt hcount, hlen]
  rw [verify_inOrder_iff (by omega), hupTo, partitionLsnColumn, readAllHeaders_inOrder,
    inOrder_readdir rd' rd hfew, List.map_map]
  generalize d.inOrder rd = hs at hlen
  have hcolumn := column_eq_upTo (hs.filter (validFor pid)) (n := hs.length) (by omega)
  refine Iff.trans ?_ hcolumn.symm
  constructor
  · rintro ⟨hv, hn⟩
    rw [List.filter_eq_self.mpr hv]
    exact hn
  · -- a column of that length leaves no record out
    intro h
    have hall := congrArg List.length h
    rw [List.length_map, List.length_range', List.length_filter_eq_length_iff] at hall
    rw [List.filter_eq_self.mpr hall] at h
    exact ⟨hall, h⟩

/-- Partition 7 with records 1 and 2 in different files, the second one torn. -/
def tornSecond : Dir :=
  (Dir.empty.append 3 ((buildHeader 7 1 (3 * 2 ^ 24) 2).encode ++ [0, 0, 0])).append 1 (buildHeader 7 1 0 1).encode

theorem verify_agrees_torn :
    verifyPartitionWAL Readdir.ascending 7 tornSecond = true :=
  (verify_agrees 7 tornSecond Readdir.ascending Readdir.ascending Readdir.ascending (by decide +kernel)
    (by decide +kernel)).mpr (by decide +kernel)

/-! ## Above 2^63 records -/

/-- `n` files of zero bytes. -/
def zeroFiles (bytes n : Nat) : Dir := Dir.filled (fun _ => List.replicate bytes 0) n

theorem card_zeroFiles (bytes n : Nat) : (zeroFiles bytes n).records.card = n * (bytes / headerSize) := by
  have hfile : ∀ s ∈ (zeroFiles bytes n).names,
      ((zeroFiles bytes n).headers s : Multiset PartWALHeader).card = bytes / headerSize := fun s hs => by
    rw [Multiset.coe_card, Dir.headers, zeroFiles, Dir.content_filled hs, length_readHeaders, List.length_replicate]
  rw [Dir.records, Multiset.card_sum, Finset.sum_congr rfl hfile, zeroFiles, Dir.names_filled, Finset.sum_const,
    Nat.card_Icc, Nat.add_sub_cancel, nsmul_eq_mul, Nat.cast_id]

/-- A record of zero bytes has no magic. -/
theorem not_valid_zeros {bytes : Nat} {pid : Oid} {h : PartWALHeader}
    (hh : h ∈ readHeaders (List.replicate bytes 0)) : h.validFor pid = false := by
  obtain ⟨b, hb, rfl⟩ := List.mem_map.mp hh
  have hzero : ∀ x ∈ b, x = 0 := fun x hx => by
    have hmem : x ∈ List.replicate bytes (0 : UInt8) := by
      rw [← flatten_blocks_append_tail headerSize_pos (List.replicate bytes 0)]
      exact List.mem_append_left _ (List.mem_flatten_of_mem hb hx)
    exact List.eq_of_mem_replicate hmem
  rw [List.eq_replicate_of_mem hzero, length_of_mem_blocks headerSize_pos hb]
  have hmagic : (decode (List.replicate headerSize 0)).magic = 0 := by decide +kernel
  simp [validFor, hmagic, partwalMagic]

/-- Without a valid record the column is empty, and verification fails if there is any. -/
theorem verify_invalid {rd : Readdir} {pid : Oid} {d : Dir} (hfew : d.names.card ≤ maxScanFiles)
    (hne : d.records.card ≠ 0) (hinvalid : ∀ h ∈ d.inOrder rd, h.validFor pid = false) :
    partitionLsnColumn rd pid d = [] ∧ verifyPartitionWAL rd pid d = false := by
  constructor
  · have hnone : (d.inOrder rd).filter (validFor pid) = [] :=
      List.filter_eq_nil_iff.mpr fun h hh => by rw [hinvalid h hh]; decide
    rw [partitionLsnColumn, readAllHeaders_inOrder, hnone]
    rfl
  · rw [verify_inOrder, ← Bool.not_eq_true]
    intro hsome
    rw [← inOrder_records rd hfew, Multiset.coe_card] at hne
    obtain ⟨h, hh⟩ := List.exists_mem_of_ne_nil _ fun hnil => hne (List.length_eq_zero_iff.mpr hnil)
    have hv := valid_of_verifyFile hsome h hh
    rw [hinvalid h hh] at hv
    cases hv

theorem inOrder_zeroFiles (pid : Oid) {bytes n : Nat} {rd : Readdir} {h : PartWALHeader}
    (hh : h ∈ (zeroFiles bytes n).inOrder rd) : h.validFor pid = false := by
  obtain ⟨s, hs, hh⟩ := List.mem_flatMap.mp hh
  rw [Dir.headers, zeroFiles, Dir.content_filled (Dir.mem_names_of_listed ((mem_exchangeSort _).mp hs))] at hh
  exact not_valid_zeros hh

/-- 2^64 records of zero bytes: the count wraps around to 0, as many as there are valid
records, and verification fails on the first one. -/
theorem count_wraps :
    (zeroFiles (2 ^ 62) 128).names.card ≤ maxScanFiles ∧
      partitionLsnColumn Readdir.ascending 7 (zeroFiles (2 ^ 62) 128) =
        upTo (countParwalRecords Readdir.ascending (zeroFiles (2 ^ 62) 128)) ∧
      verifyPartitionWAL Readdir.ascending 7 (zeroFiles (2 ^ 62) 128) = false := by
  have hfew : (zeroFiles (2 ^ 62) 128).names.card ≤ maxScanFiles := by
    rw [zeroFiles, Dir.names_filled, Nat.card_Icc]
    decide
  have hcard : (zeroFiles (2 ^ 62) 128).records.card = 2 ^ 64 := by
    rw [card_zeroFiles, headerSize]
    norm_num
  have hne : (zeroFiles (2 ^ 62) 128).records.card ≠ 0 := by
    rw [hcard]
    norm_num
  obtain ⟨hcolumn, hverify⟩ := verify_invalid hfew hne fun _ hh => inOrder_zeroFiles 7 hh
  refine ⟨hfew, ?_, hverify⟩
  rw [hcolumn, countParwalRecords_eq, hcard]
  rfl

end PartDist
