import PartDist.LastWritten
import PartDist.Readers
import PartDist.SegmentNames

/-!
# Counting and listing records

`count_parwal_records` (demux_worker.c) and `check_partition_wal` (partition_wal.c) on a
directory as `readdir` gives it: names of any form and the bytes of each file.  The first
adds up sizes file by file, the second collects names, sorts them and reads the records.

* `collectNames_eq`: the second stops collecting after 256 segment files.
* `count_rows_iff`: the two agree if and only if the files behind those hold no record, up
  to what an `int64` holds.
* `checkPartitionWAL_ofDir`, `countParwalRecords_ofDir`: in a directory of segment files on
  timeline 1 they are the scans of the other readers.
-/

namespace PartDist

open Bytes PartWALHeader ExchangeSort

/-- The entries of a directory in the order of `readdir`, with the bytes of the files. -/
structure Listing where
  entries : List (CString × Bytes)
  nodup : (entries.map Prod.fst).Nodup

def partwalFlagSkip : UInt8 := 0x02

def partwalFlagCheckpoint : UInt8 := 0x04

/-- A row of `check_partition_wal`. -/
structure CheckRow where
  partitionLsn : Int64
  origNodeLsn : XLogRecPtr
  flags : Int32
  isValid : Bool
deriving DecidableEq

/-! ## Algorithm -/

/-- The loop of `count_parwal_records`. -/
def addSizes (entries : List (CString × Bytes)) (total : Int64) : Int64 :=
  entries.foldl
    (fun total e =>
      if isXLogFileName e.1 then
        if 0 < e.2.length then total + Int64.ofNat (e.2.length / headerSize) else total
      else total)
    total

/-- `none` when there is no directory. -/
def countParwalRecordsIn : Option Listing → Int64
  | none => 0
  | some dir => addSizes dir.entries 0

/-- `while ((de = readdir(dir)) != NULL && nfiles < 256)`. -/
def collectNames : List CString → List SegFile → List SegFile
  | [], segfiles => segfiles
  | name :: names, segfiles =>
    if segfiles.length < maxScanFiles then
      collectNames names (if isXLogFileName name then segfiles ++ [copyName name] else segfiles)
    else segfiles

/-- `open` by name; every file can be opened. -/
def Listing.open (dir : Listing) (name : CString) : Option Bytes := dir.entries.lookup name

def checkRow (pid : Oid) (h : PartWALHeader) : CheckRow where
  partitionLsn := h.partitionLsn.toInt64
  origNodeLsn := h.origNodeLsn
  flags := Int32.ofNat h.flags.toNat
  isValid := h.validFor pid &&
    (h.flags == partwalFlagData || h.flags == partwalFlagSkip || h.flags == partwalFlagCheckpoint)

def readFile (pid : Oid) (dir : Listing) (f : SegFile) : List CheckRow :=
  match dir.open f.name with
  | some bytes => (readHeaders bytes).map (checkRow pid)
  | none => []

/-- Nothing if the sort leaves its array. -/
def checkPartitionWAL (pid : Oid) : Option Listing → Option (List CheckRow)
  | none => some []
  | some dir => do
    let segfiles ← sortAscending (collectNames (dir.entries.map Prod.fst) [])
    return segfiles.flatMap (readFile pid dir)

/-! ## What is collected -/

/-- The segment files, whatever else lies in the directory. -/
def Listing.segments (dir : Listing) : List (CString × Bytes) := dir.entries.filter fun e => isXLogFileName e.1

/-- Whole records. -/
def recordsIn (entries : List (CString × Bytes)) : Nat := (entries.map fun e => (readHeaders e.2).length).sum

/-- The first 256 segment files, and the others; without a directory there are none. -/
def listedRecords (dir : Option Listing) : Nat :=
  dir.elim 0 fun dir => recordsIn (dir.segments.take maxScanFiles)

def unlistedRecords (dir : Option Listing) : Nat :=
  dir.elim 0 fun dir => recordsIn (dir.segments.drop maxScanFiles)

section
variable {dir : Listing} {pid : Oid}

theorem collectNames_eq (names : List CString) (segfiles : List SegFile) :
    collectNames names segfiles =
      segfiles ++ ((names.filter isXLogFileName).take (maxScanFiles - segfiles.length)).map copyName := by
  induction names generalizing segfiles with
  | nil => simp [collectNames]
  | cons name names ih =>
    rw [collectNames]
    by_cases hroom : segfiles.length < maxScanFiles
    · rw [if_pos hroom, ih]
      by_cases hname : isXLogFileName name = true
      · have hcount : maxScanFiles - segfiles.length = maxScanFiles - (segfiles ++ [copyName name]).length + 1 := by
          rw [List.length_append, List.length_singleton]
          omega
        rw [if_pos hname, List.filter_cons_of_pos hname, hcount, List.take_succ_cons, List.map_cons,
          List.append_assoc, List.singleton_append]
      · rw [if_neg hname, List.filter_cons_of_neg hname]
    · rw [if_neg hroom, Nat.sub_eq_zero_of_le (Nat.not_lt.mp hroom), List.take_zero, List.map_nil, List.append_nil]

theorem addSizes_eq (entries : List (CString × Bytes)) (n : Nat) :
    addSizes entries (Int64.ofNat n) =
      Int64.ofNat (n + recordsIn (entries.filter fun e => isXLogFileName e.1)) := by
  induction entries generalizing n with
  | nil => rfl
  | cons e entries ih =>
    by_cases hname : isXLogFileName e.1 = true
    · have hstep := ih (n + (readHeaders e.2).length)
      rw [addSizes] at hstep ⊢
      rw [List.foldl_cons, if_pos hname, addSize_eq, hstep, List.filter_cons_of_pos (by exact hname), recordsIn,
        recordsIn, List.map_cons, List.sum_cons, Nat.add_assoc]
    · have hstep := ih n
      rw [addSizes] at hstep ⊢
      rw [List.foldl_cons, if_neg hname, hstep, List.filter_cons_of_neg (by exact hname)]

theorem lookup_of_mem {entries : List (CString × Bytes)} (hnodup : (entries.map Prod.fst).Nodup)
    {e : CString × Bytes} (he : e ∈ entries) : entries.lookup e.1 = some e.2 := by
  induction entries with
  | nil => cases he
  | cons a as ih =>
    rw [List.map_cons, List.nodup_cons] at hnodup
    rcases List.mem_cons.mp he with rfl | hmem
    · exact List.lookup_cons_self
    · have hne : (e.1 == a.1) = false := by
        rw [beq_eq_false_iff_ne]
        intro h
        exact hnodup.1 (h ▸ List.mem_map_of_mem hmem)
      rw [List.lookup_cons, hne]
      exact ih hnodup.2 hmem

/-- A segment file's name fits the array. -/
theorem copyName_segment {name : CString} (h : isXLogFileName name = true) : (copyName name).name = name := by
  rw [isXLogFileName, Bool.and_eq_true, decide_eq_true_eq] at h
  exact CString.truncate_eq (by rw [h.1]; decide)

theorem length_readFile {e : CString × Bytes} (he : e ∈ dir.segments) :
    (readFile pid dir (copyName e.1)).length = (readHeaders e.2).length := by
  obtain ⟨hmem, hname⟩ := List.mem_filter.mp he
  rw [readFile, copyName_segment hname, Listing.open, lookup_of_mem dir.nodup hmem]
  exact List.length_map _

theorem collectNames_segments (dir : Listing) :
    collectNames (dir.entries.map Prod.fst) [] = (dir.segments.take maxScanFiles).map fun e => copyName e.1 := by
  rw [collectNames_eq, List.nil_append, List.length_nil, Nat.sub_zero, List.filter_map, ← List.map_take,
    List.map_map]
  rfl

theorem checkPartitionWAL_eq (pid : Oid) (dir : Listing) :
    checkPartitionWAL pid (some dir) =
      some ((exchangeSort comesBefore ((dir.segments.take maxScanFiles).map fun e => copyName e.1)).flatMap
        (readFile pid dir)) := by
  rw [checkPartitionWAL, collectNames_segments, sortAscending_eq]
  rfl

/-- It returns the whole records of the first 256 segment files. -/
theorem length_checkPartitionWAL (pid : Oid) (dir : Option Listing) :
    ∃ rows, checkPartitionWAL pid dir = some rows ∧ rows.length = listedRecords dir := by
  cases dir with
  | none => exact ⟨[], rfl, rfl⟩
  | some dir =>
    refine ⟨_, checkPartitionWAL_eq pid dir, ?_⟩
    have hperm := (exchangeSort_perm comesBefore
      ((dir.segments.take maxScanFiles).map fun e => copyName e.1)).flatMap_right (readFile pid dir)
    have hlen : ∀ entries : List (CString × Bytes), (∀ e ∈ entries, e ∈ dir.segments) →
        ((entries.map fun e => copyName e.1).flatMap (readFile pid dir)).length = recordsIn entries := by
      intro entries hmem
      induction entries with
      | nil => rfl
      | cons e entries ih =>
        have htail := ih fun a ha => hmem a (List.mem_cons_of_mem e ha)
        rw [recordsIn] at htail ⊢
        rw [List.map_cons, List.flatMap_cons, List.length_append, htail, List.map_cons, List.sum_cons,
          length_readFile (hmem e List.mem_cons_self)]
    exact hperm.length_eq.trans (hlen _ fun e he => List.mem_of_mem_take he)

/-- The count is of all segment files, as an `int64`. -/
theorem countParwalRecordsIn_eq (dir : Option Listing) :
    countParwalRecordsIn dir = Int64.ofNat (listedRecords dir + unlistedRecords dir) := by
  cases dir with
  | none => rfl
  | some dir =>
    have hsplit : recordsIn dir.segments = listedRecords (some dir) + unlistedRecords (some dir) := by
      conv_lhs => rw [← List.take_append_drop maxScanFiles dir.segments]
      rw [recordsIn, List.map_append, List.sum_append]
      rfl
    rw [← hsplit, countParwalRecordsIn]
    have h := addSizes_eq dir.entries 0
    rw [Nat.zero_add] at h
    exact h

end

/-- **Counting and listing.** `count_parwal_records` is the number of rows that
`check_partition_wal` returns if and only if the segment files that `readdir` lists after
the first 256 hold no whole record (or a multiple of 2^64), the others fewer than 2^63. -/
theorem count_rows_iff (pid : Oid) (dir : Option Listing) :
    ∃ rows, checkPartitionWAL pid dir = some rows ∧
      ((countParwalRecordsIn dir).toInt = rows.length ↔
        2 ^ 64 ∣ unlistedRecords dir ∧ listedRecords dir < 2 ^ 63) := by
  obtain ⟨rows, hrows, hlen⟩ := length_checkPartitionWAL pid dir
  refine ⟨rows, hrows, ?_⟩
  rw [countParwalRecordsIn_eq, Int64.toInt_ofNat', hlen, Int.bmod_def]
  simp only [Int64.size]
  push_cast
  split
  · omega
  · omega

/-! ## Directories of segment files -/

/-- Partition directory `d` as `readdir` lists it. -/
def Listing.ofDir (segsz : WalSegSize) (rd : Readdir) (d : Dir)
    (hd : ∀ s ∈ d.names, s / segsz.perXLogId < 2 ^ 32) : Listing where
  entries := (rd.order d.names).map fun s => (xlogFileName 1 s segsz, d.content s)
  nodup := by
    rw [List.map_map]
    refine (List.nodup_map_iff_inj_on (rd.nodup d.names)).mpr fun s hs t ht h => ?_
    exact xlogFileName_inj 1 (hd s ((rd.mem_order _ s).mp hs)) (hd t ((rd.mem_order _ t).mp ht)) h

section
variable {segsz : WalSegSize} {rd : Readdir} {d : Dir} {hd : ∀ s ∈ d.names, s / segsz.perXLogId < 2 ^ 32}

theorem segments_ofDir : (Listing.ofDir segsz rd d hd).segments = (Listing.ofDir segsz rd d hd).entries := by
  apply List.filter_eq_self.mpr
  intro e he
  obtain ⟨s, hs, rfl⟩ := List.mem_map.mp he
  exact isXLogFileName_xlogFileName 1 (hd s ((rd.mem_order _ s).mp hs))

/-- The names a scan collects. -/
theorem names_ofDir : ((Listing.ofDir segsz rd d hd).segments.take maxScanFiles).map (fun e => copyName e.1) =
    (d.listed rd).map (segFile segsz) := by
  rw [segments_ofDir, Listing.ofDir, ← List.map_take, List.map_map]
  rfl

theorem countParwalRecords_ofDir :
    countParwalRecordsIn (some (Listing.ofDir segsz rd d hd)) = countParwalRecords rd d := by
  have h := addSizes_eq (Listing.ofDir segsz rd d hd).entries 0
  rw [Nat.zero_add] at h
  rw [countParwalRecords_eq, countParwalRecordsIn]
  refine h.trans (congrArg Int64.ofNat ?_)
  rw [← Listing.segments, segments_ofDir, recordsIn, Listing.ofDir, List.map_map, card_records rd]
  rfl

theorem open_ofDir {s : Nat} (hs : s ∈ d.listed rd) :
    (Listing.ofDir segsz rd d hd).open (segFile segsz s).name = some (d.content s) := by
  have hmem : (xlogFileName 1 s segsz, d.content s) ∈ (Listing.ofDir segsz rd d hd).entries :=
    List.mem_map_of_mem (List.mem_of_mem_take hs)
  rw [segFile_name (hd s (Dir.mem_names_of_listed hs)), Listing.open, lookup_of_mem (Listing.nodup _) hmem]

/-- The rows are the records in the order of the other scans. -/
theorem checkPartitionWAL_ofDir (pid : Oid) :
    checkPartitionWAL pid (some (Listing.ofDir segsz rd d hd)) = some ((d.inOrder rd).map (checkRow pid)) := by
  have hlisted : ∀ s ∈ d.listed rd, s / segsz.perXLogId < 2 ^ 32 := fun s hs => hd s (Dir.mem_names_of_listed hs)
  have hread : ∀ s ∈ d.listed rd, readFile pid (Listing.ofDir segsz rd d hd) (segFile segsz s) =
      (d.headers s).map (checkRow pid) := by
    intro s hs
    rw [readFile, open_ofDir hs]
    rfl
  have hsort := sortAscending_segFile hlisted
  rw [sortAscending_eq] at hsort
  rw [checkPartitionWAL_eq, names_ofDir, Option.some.inj hsort, List.flatMap_map, Dir.inOrder, List.map_flatMap]
  congr 1
  exact List.flatMap_congr fun s hs => hread s ((mem_exchangeSort _).mp hs)

end

/-! ## More than 256 files -/

theorem names_oneEach_lt {tail : Bytes} {n : Nat} (hn : n < 2 ^ 32) :
    ∀ s ∈ (oneEach tail n).names, s / WalSegSize.default.perXLogId < 2 ^ 32 := by
  intro s hs
  rw [oneEach, Dir.names_filled, Finset.mem_Icc] at hs
  have := Nat.div_le_self s WalSegSize.default.perXLogId
  omega

theorem length_headers_oneEach {tail : Bytes} {n s : Nat} (htail : tail.length < headerSize)
    (hs : s ∈ (oneEach tail n).names) : ((oneEach tail n).headers s).length = 1 := by
  rw [headers_oneEach htail hs, List.length_singleton]

theorem card_oneEach {tail : Bytes} (htail : tail.length < headerSize) (n : Nat) :
    (oneEach tail n).records.card = n := by
  simp only [Dir.records, Multiset.card_sum, Multiset.coe_card]
  rw [Finset.sum_congr rfl fun s hs => length_headers_oneEach htail hs, oneEach, Dir.names_filled, Finset.sum_const,
    Nat.card_Icc, Nat.add_sub_cancel, nsmul_eq_mul, Nat.cast_id, Nat.mul_one]

/-- A scan reads as many records as it lists files. -/
theorem length_inOrder_oneEach {tail : Bytes} (htail : tail.length < headerSize) (rd : Readdir) (n : Nat) :
    ((oneEach tail n).inOrder rd).length = ((oneEach tail n).listed rd).length := by
  have hones : ((oneEach tail n).listed rd).map (fun s => ((oneEach tail n).headers s).length) =
      ((oneEach tail n).listed rd).map fun _ => 1 :=
    List.map_congr_left fun s hs => length_headers_oneEach htail (Dir.mem_names_of_listed hs)
  rw [Dir.inOrder, ((exchangeSort_perm _ _).flatMap_right _).length_eq, List.length_flatMap, hones, List.map_const',
    List.sum_replicate, nsmul_eq_mul, Nat.cast_id, Nat.mul_one]

/-- 257 segment files, a record each. -/
def manyFiles : Listing :=
  Listing.ofDir .default Readdir.ascending (oneEach [] 257) (names_oneEach_lt (by decide))

/-- One row is missing. -/
theorem rows_missing :
    countParwalRecordsIn (some manyFiles) = 257 ∧
      ∃ rows, checkPartitionWAL 7 (some manyFiles) = some rows ∧ rows.length = 256 := by
  constructor
  · rw [manyFiles, countParwalRecords_ofDir, countParwalRecords_eq, card_oneEach (by decide)]
    rfl
  · refine ⟨_, checkPartitionWAL_ofDir 7, ?_⟩
    rw [List.length_map, length_inOrder_oneEach (by decide), Dir.listed, oneEach, Dir.names_filled]
    decide +kernel

end PartDist
