import PartDist.Grown
import PartDist.Lib.HighWater

/-!
# Crash recovery

`partdist_wal_redo` and `WriteHeaderToFile` (partition_wal.c), over the records of
a stretch of pg_wal.

Replay appends to each directory the records above the watermark it started with
(`redo_grown`).  Doing it again changes nothing exactly when the last record
appended lies in the highest segment (`redo_twice_iff`).
-/

namespace PartDist

open Bytes PartWALHeader HighWater

/-! ## Algorithm -/

/-- The file is opened with `O_CREAT | O_APPEND` and the header written to it. -/
def writeHeaderToFile (segsz : WalSegSize) (h : PartWALHeader) (d : Dir) : Dir :=
  (d.openCreate (segnoOf segsz h)).append (segnoOf segsz h) h.encode

/-- `data` is the data of the pg_wal record. -/
def partdistWalRedo (segsz : WalSegSize) (rd : Readdir) (data : Bytes) (pw : Parwal) : Parwal :=
  if data.length < headerSize then pw
  else if (decode data).magic ≠ partwalMagic then pw
  else
    let h := decode data
    if h.partitionLsn ≤ getLastWrittenPartitionLSN rd h.partitionId (pw h.partitionId) then pw
    else Function.update pw h.partitionId (writeHeaderToFile segsz h (pw h.partitionId))

/-- Replay hands our resource manager its own records, whatever their info bits. -/
def redoRecord (segsz : WalSegSize) (rd : Readdir) (pw : Parwal) (r : XLogRecord) : Parwal :=
  if r.rmid = rmExperimentalId then partdistWalRedo segsz rd r.data pw else pw

def redoAll (segsz : WalSegSize) (rd : Readdir) (wal : List XLogRecord) (pw : Parwal) : Parwal :=
  wal.foldl (redoRecord segsz rd) pw

/-! ## One partition -/

/-- The header redo acts on, if there is one. -/
def XLogRecord.redoHeader (r : XLogRecord) : Option PartWALHeader :=
  if r.rmid = rmExperimentalId ∧ headerSize ≤ r.data.length ∧ (decode r.data).magic = partwalMagic then
    some (decode r.data)
  else none

/-- The records of `pid` that redo acts on. -/
def redoHeaders (pid : Oid) (wal : List XLogRecord) : List PartWALHeader :=
  (wal.filterMap XLogRecord.redoHeader).filter fun h => h.partitionId = pid

def redoDir (segsz : WalSegSize) (rd : Readdir) (pid : Oid) (d : Dir) (h : PartWALHeader) : Dir :=
  if h.partitionLsn ≤ getLastWrittenPartitionLSN rd pid d then d else writeHeaderToFile segsz h d

theorem writeHeaderToFile_eq (segsz : WalSegSize) (h : PartWALHeader) (d : Dir) :
    writeHeaderToFile segsz h d = d.append (segnoOf segsz h) h.encode := Dir.openCreate_append _ _ _

theorem validFor_of_mem_redoHeaders {pid : Oid} {wal : List XLogRecord} {h : PartWALHeader}
    (hh : h ∈ redoHeaders pid wal) : h.validFor pid = true := by
  obtain ⟨hm, hp⟩ := List.mem_filter.mp hh
  obtain ⟨r, -, hr⟩ := List.mem_filterMap.mp hm
  unfold XLogRecord.redoHeader at hr
  split at hr
  · next hc =>
    obtain rfl := Option.some.inj hr
    exact validFor_iff.mpr ⟨hc.2.2, by simpa using hp⟩
  · cases hr

theorem redoRecord_eq (segsz : WalSegSize) (rd : Readdir) (pw : Parwal) (r : XLogRecord) (pid : Oid) :
    redoRecord segsz rd pw r pid =
      ((r.redoHeader.toList).filter fun h => h.partitionId = pid).foldl (redoDir segsz rd pid) (pw pid) := by
  unfold redoRecord partdistWalRedo XLogRecord.redoHeader
  by_cases hr : r.rmid = rmExperimentalId
  · by_cases hlen : r.data.length < headerSize
    · simp [hr, hlen, Nat.not_le.mpr hlen]
    · by_cases hm : (decode r.data).magic = partwalMagic
      · simp only [hr, hlen, hm, if_true, if_false, not_true, ne_eq, Nat.le_of_not_lt hlen, and_self,
          Option.toList_some]
        by_cases hp : (decode r.data).partitionId = pid
        · subst hp
          rw [List.filter_cons_of_pos (by simp), List.filter_nil, List.foldl_cons, List.foldl_nil, redoDir]
          split
          · rfl
          · rw [Function.update_self]
        · rw [List.filter_cons_of_neg (by simpa using hp), List.filter_nil, List.foldl_nil]
          split
          · rfl
          · rw [Function.update_of_ne fun h => hp h.symm]
      · simp [hr, hlen, hm]
  · simp [hr]

/-- Each directory is replayed on its own. -/
theorem redoAll_eq (segsz : WalSegSize) (rd : Readdir) (wal : List XLogRecord) (pw : Parwal) (pid : Oid) :
    redoAll segsz rd wal pw pid = (redoHeaders pid wal).foldl (redoDir segsz rd pid) (pw pid) := by
  induction wal generalizing pw with
  | nil => rfl
  | cons r wal ih =>
    have hsplit : redoHeaders pid (r :: wal) =
        ((r.redoHeader.toList).filter fun h => h.partitionId = pid) ++ redoHeaders pid wal := by
      rw [redoHeaders, redoHeaders, ← List.filter_append]
      congr 1
      cases hr : r.redoHeader <;> simp [hr]
    rw [redoAll, List.foldl_cons, hsplit, List.foldl_append, ← redoRecord_eq]
    exact ih _

/-! ## Replay -/

/-- The records of `hs` above the watermark of `d`. -/
def aboveMark (rd : Readdir) (pid : Oid) (d : Dir) (hs : List PartWALHeader) : List PartWALHeader :=
  hs.filter fun h => decide (getLastWrittenPartitionLSN rd pid d < h.partitionLsn)

section
variable {segsz : WalSegSize} {rd : Readdir} {pid : Oid} {base : Dir} {hs : List PartWALHeader}

theorem mem_aboveMark {d : Dir} {h : PartWALHeader} :
    h ∈ aboveMark rd pid d hs ↔ h ∈ hs ∧ getLastWrittenPartitionLSN rd pid d < h.partitionLsn := by
  simp [aboveMark]

theorem aboveMark_valid (rd : Readdir) {d : Dir} (hv : ∀ h ∈ hs, h.validFor pid = true) :
    ∀ h ∈ aboveMark rd pid d hs, h.validFor pid ∧ h.partitionLsn ≠ 0 := by
  intro h hh
  obtain ⟨hm, hlt⟩ := mem_aboveMark.mp hh
  refine ⟨hv h hm, fun h0 => ?_⟩
  rw [h0] at hlt
  exact absurd hlt UInt64.not_lt_zero

theorem segnos_mono {acc acc' : List PartWALHeader} (h : acc ⊆ acc') :
    segnos segsz acc ⊆ segnos segsz acc' := by
  intro s hs
  simp only [segnos, List.mem_toFinset, List.mem_map] at hs ⊢
  obtain ⟨a, ha, rfl⟩ := hs
  exact ⟨a, h ha, rfl⟩

/-- Replaying records in order grows the directory by those above its watermark:
what redo finds on the way is that watermark or a record it has just written. -/
theorem redo_grown_above (hb : base.Whole) (hv : ∀ h ∈ hs, h.validFor pid = true) (hinc : Increasing lsn hs)
    (hfiles : (base.names ∪ segnos segsz (aboveMark rd pid base hs)).card ≤ maxScanFiles) :
    Dir.Grown segsz base (aboveMark rd pid base hs) (hs.foldl (redoDir segsz rd pid) base) := by
  induction hs using List.reverseRecOn with
  | nil => exact Dir.grown_refl segsz base
  | append_singleton hs h ih =>
    obtain ⟨hinc, -, hlt⟩ := List.pairwise_append.mp hinc
    have hsplit : aboveMark rd pid base (hs ++ [h]) =
        aboveMark rd pid base hs ++ aboveMark rd pid base [h] := List.filter_append ..
    rw [hsplit, segnos_append_list, ← Finset.union_assoc] at hfiles
    have hfiles' := (Finset.card_le_card Finset.subset_union_left).trans hfiles
    have hg := ih (fun a ha => hv a (List.mem_append_left _ ha)) hinc hfiles'
    have hacc := aboveMark_valid rd (d := base) fun a ha => hv a (List.mem_append_left _ ha)
    have hscan := hg.scan_cases rd hb hacc (by rw [hg.names]; exact hfiles')
    rw [List.foldl_append, List.foldl_cons, List.foldl_nil]
    generalize hs.foldl (redoDir segsz rd pid) base = d at *
    by_cases hm : getLastWrittenPartitionLSN rd pid base < h.partitionLsn
    · have hone : aboveMark rd pid base [h] = [h] := by simp [aboveMark, hm]
      have hd : getLastWrittenPartitionLSN rd pid d < h.partitionLsn := by
        rcases hscan with he | ⟨s, l, a, hs', he, -⟩
        · rw [he]; exact hm
        · have ha : a ∈ inSegment segsz s (aboveMark rd pid base hs) := by rw [hs']; simp
          have ha := (mem_aboveMark.mp (List.mem_of_mem_filter ha)).1
          rw [he]
          exact UInt64.lt_iff_toNat_lt.mpr (hlt a ha h List.mem_cons_self)
      rw [redoDir, if_neg (UInt64.not_le.mpr hd), writeHeaderToFile_eq, hsplit, hone]
      exact hg.trans (Dir.grown_append d h)
    · have hnil : aboveMark rd pid base hs = [] := by
        apply List.eq_nil_iff_forall_not_mem.mpr
        intro a ha
        obtain ⟨ha, ham⟩ := mem_aboveMark.mp ha
        exact hm (UInt64.lt_trans ham (UInt64.lt_iff_toNat_lt.mpr (hlt a ha h List.mem_cons_self)))
      have hone : aboveMark rd pid base [h] = [] := by simp [aboveMark, hm]
      rw [hnil] at hg hsplit
      rw [hsplit, hone, hg.eq_of_nil, redoDir, if_pos (UInt64.not_lt.mp hm)]
      exact Dir.grown_refl segsz base

/-- The segments it writes to are among those of the records. -/
theorem files_aboveMark (d : Dir) (hfiles : (base.names ∪ segnos segsz hs).card ≤ maxScanFiles) :
    (base.names ∪ segnos segsz (aboveMark rd pid d hs)).card ≤ maxScanFiles :=
  (Finset.card_le_card (Finset.union_subset_union_right
    (segnos_mono (List.filter_subset_self _)))).trans hfiles

theorem redo_grown (rd : Readdir) (hb : base.Whole) (hv : ∀ h ∈ hs, h.validFor pid = true) (hinc : Increasing lsn hs)
    (hfiles : (base.names ∪ segnos segsz hs).card ≤ maxScanFiles) :
    Dir.Grown segsz base (aboveMark rd pid base hs) (hs.foldl (redoDir segsz rd pid) base) :=
  redo_grown_above hb hv hinc (files_aboveMark base hfiles)

/-- After a replay the watermark is not below the one before. -/
theorem aboveMark_redo (hb : base.Whole) (hv : ∀ h ∈ hs, h.validFor pid = true) (hinc : Increasing lsn hs)
    (hfiles : (base.names ∪ segnos segsz (aboveMark rd pid base hs)).card ≤ maxScanFiles) :
    aboveMark rd pid (hs.foldl (redoDir segsz rd pid) base) hs ⊆ aboveMark rd pid base hs := by
  have hg := redo_grown_above hb hv hinc hfiles
  rcases hg.scan_cases rd hb (aboveMark_valid rd hv) (by rw [hg.names]; exact hfiles) with he | ⟨s, l, a, hs', he, -⟩
  · rw [aboveMark, aboveMark, he]
    exact List.Subset.refl _
  · have ha : a ∈ inSegment segsz s (aboveMark rd pid base hs) := by rw [hs']; simp
    have ha := (mem_aboveMark.mp (List.mem_of_mem_filter ha)).2
    intro h hh
    obtain ⟨hm, hlt⟩ := mem_aboveMark.mp hh
    rw [he] at hlt
    exact mem_aboveMark.mpr ⟨hm, UInt64.lt_trans ha hlt⟩

/-- Records at or below the watermark are not written. -/
theorem redo_nothing {d : Dir} (h : aboveMark rd pid d hs = []) : hs.foldl (redoDir segsz rd pid) d = d := by
  induction hs with
  | nil => rfl
  | cons a hs ih =>
    rw [aboveMark, List.filter_cons] at h
    split at h
    · cases h
    · next ha =>
      have hskip : redoDir segsz rd pid d a = d := if_pos (UInt64.not_lt.mp (by simpa using ha))
      rw [List.foldl_cons, hskip]
      exact ih h

/-- Replaying again, for one directory. -/
theorem redo_again_iff (hb : base.Whole) (hv : ∀ h ∈ hs, h.validFor pid = true) (hinc : Increasing lsn hs)
    (hfiles : (base.names ∪ segnos segsz (aboveMark rd pid base hs)).card ≤ maxScanFiles) :
    hs.foldl (redoDir segsz rd pid) (hs.foldl (redoDir segsz rd pid) base) =
        hs.foldl (redoDir segsz rd pid) base ↔
      ∀ a, (aboveMark rd pid base hs).getLast? = some a →
        Dir.Newest segsz pid base (aboveMark rd pid base hs) a := by
  have hg := redo_grown_above hb hv hinc hfiles
  have hacc := aboveMark_valid rd (d := base) hv
  have hcard : (hs.foldl (redoDir segsz rd pid) base).names.card ≤ maxScanFiles := by
    rw [hg.names]
    exact hfiles
  have habove := aboveMark_redo hb hv hinc hfiles
  generalize hd : hs.foldl (redoDir segsz rd pid) base = d at *
  have hfiles' : (d.names ∪ segnos segsz (aboveMark rd pid d hs)).card ≤ maxScanFiles := by
    rw [Finset.union_eq_left.mpr]
    · exact hcard
    · rw [hg.names]
      exact (segnos_mono habove).trans Finset.subset_union_right
  have hg' := redo_grown_above (hg.whole hb) hv hinc hfiles'
  have hsame : hs.foldl (redoDir segsz rd pid) d = d ↔ aboveMark rd pid d hs = [] := by
    constructor
    · intro he
      rw [he] at hg'
      exact hg'.nil_of_eq
    · intro hnil
      rw [hnil] at hg'
      exact hg'.eq_of_nil
  rw [hsame]
  rcases List.eq_nil_or_concat (aboveMark rd pid base hs) with hnil | ⟨acc, a, hl⟩
  · have hbase : d = base := by
      rw [hnil] at hg
      exact hg.eq_of_nil
    rw [hbase, hnil]
    simp
  · rw [List.concat_eq_append] at hl
    rw [hl] at hg hacc ⊢
    rw [List.getLast?_append, List.getLast?_singleton, Option.some_or]
    have hincacc : ∀ b ∈ acc, b.partitionLsn < a.partitionLsn := by
      have : Increasing lsn (acc ++ [a]) := hl ▸ hinc.filter _
      intro b hbm
      exact UInt64.lt_iff_toNat_lt.mpr ((List.pairwise_append.mp this).2.2 b hbm a List.mem_cons_self)
    have ha : a ∈ aboveMark rd pid base hs := by rw [hl]; simp
    obtain ⟨ham, habove⟩ := mem_aboveMark.mp ha
    constructor
    · intro hnil b hbeq
      obtain rfl := Option.some.inj hbeq
      by_contra hn
      have hlt := hg.scan_lt rd hb hacc hincacc habove hcard hn
      have : a ∈ aboveMark rd pid d hs := mem_aboveMark.mpr ⟨ham, hlt⟩
      rw [hnil] at this
      cases this
    · intro hn
      have hscan := hg.scan_last rd hb (hacc a (by simp)) hcard (hn a rfl)
      apply List.eq_nil_iff_forall_not_mem.mpr
      intro h hh
      obtain ⟨hm, hlt⟩ := mem_aboveMark.mp hh
      rw [hscan] at hlt
      by_cases hab : getLastWrittenPartitionLSN rd pid base < h.partitionLsn
      · have : h ∈ acc ++ [a] := by rw [← hl]; exact mem_aboveMark.mpr ⟨hm, hab⟩
        rcases List.mem_append.mp this with hin | hin
        · exact absurd (UInt64.lt_trans hlt (hincacc h hin)) (UInt64.lt_irrefl _)
        · obtain rfl := List.mem_singleton.mp hin
          exact absurd hlt (UInt64.lt_irrefl _)
      · exact hab (UInt64.lt_trans habove hlt)

end

/-- **Idempotence of redo.** On records in `partition_lsn` order, replaying twice
leaves the files of replaying once exactly when, in every partition, the last
record above the initial watermark lies in the highest segment. -/
theorem redo_twice_iff (segsz : WalSegSize) (rd : Readdir) (wal : List XLogRecord) (pw : Parwal)
    (hinc : ∀ pid, Increasing lsn (redoHeaders pid wal)) (hwhole : ∀ pid, (pw pid).Whole)
    (hfiles : ∀ pid, aboveMark rd pid (pw pid) (redoHeaders pid wal) ≠ [] → ((pw pid).names ∪
      segnos segsz (aboveMark rd pid (pw pid) (redoHeaders pid wal))).card ≤ maxScanFiles) :
    redoAll segsz rd wal (redoAll segsz rd wal pw) = redoAll segsz rd wal pw ↔
      ∀ pid a, (aboveMark rd pid (pw pid) (redoHeaders pid wal)).getLast? = some a →
        Dir.Newest segsz pid (pw pid) (aboveMark rd pid (pw pid) (redoHeaders pid wal)) a := by
  rw [funext_iff]
  refine forall_congr' fun pid => ?_
  rw [redoAll_eq, redoAll_eq]
  by_cases hnone : aboveMark rd pid (pw pid) (redoHeaders pid wal) = []
  · rw [redo_nothing hnone, redo_nothing hnone, hnone]
    simp
  · exact redo_again_iff (hwhole pid) (fun _ hh => validFor_of_mem_redoHeaders hh) (hinc pid) (hfiles pid hnone)

theorem redoHeader_insertedRecord_build (pid : Oid) (flags : UInt8) (origLsn : XLogRecPtr)
    (lsn : UInt64) : (insertedRecord (buildHeader pid flags origLsn lsn)).redoHeader =
      some (buildHeader pid flags origLsn lsn) := by
  simp [XLogRecord.redoHeader, insertedRecord, decode_encode]

/-- Two records of partition 7, the first in segment `s`, the second in segment 1. -/
def redoSample (s : UInt64) : List XLogRecord :=
  [insertedRecord (buildHeader 7 1 (s * 2 ^ 24) 1), insertedRecord (buildHeader 7 1 (2 ^ 24) 2)]

theorem redoHeaders_redoSample (s : UInt64) (pid : Oid) : redoHeaders pid (redoSample s) =
    if pid = 7 then [buildHeader 7 1 (s * 2 ^ 24) 1, buildHeader 7 1 (2 ^ 24) 2] else [] := by
  by_cases hp : pid = 7
  · simp [redoHeaders, redoSample, redoHeader_insertedRecord_build, hp]
  · have hne : ¬ (7 : Oid) = pid := fun h => hp h.symm
    simp [redoHeaders, redoSample, redoHeader_insertedRecord_build, hp, hne]

theorem increasing_redoSample (s : UInt64) (pid : Oid) :
    Increasing lsn (redoHeaders pid (redoSample s)) := by
  rw [redoHeaders_redoSample]
  split <;> simp [Increasing]

theorem card_redoSample (s : UInt64) (rd : Readdir) (pid : Oid) :
    (Dir.empty.names ∪ segnos .default (aboveMark rd pid Dir.empty (redoHeaders pid (redoSample s)))).card ≤
      maxScanFiles := by
  have hlen : (aboveMark rd pid Dir.empty (redoHeaders pid (redoSample s))).length ≤ 2 := by
    refine (List.length_filter_le _ _).trans ?_
    rw [redoHeaders_redoSample]
    split <;> simp
  rw [Dir.names_empty, Finset.empty_union, segnos, maxScanFiles]
  refine (List.toFinset_card_le _).trans ?_
  rw [List.length_map]
  omega

theorem aboveMark_redoSample (s : UInt64) (rd : Readdir) :
    aboveMark rd 7 Dir.empty (redoHeaders 7 (redoSample s)) =
      [buildHeader 7 1 (s * 2 ^ 24) 1, buildHeader 7 1 (2 ^ 24) 2] := by
  rw [aboveMark, getLast_empty _ Dir.names_empty, redoHeaders_redoSample, if_pos rfl]
  rfl

/-- Both records in segment 1. -/
theorem redo_twice_iff_same_segment :
    redoAll .default .ascending (redoSample 1)
        (redoAll .default .ascending (redoSample 1) fun _ => Dir.empty) =
      redoAll .default .ascending (redoSample 1) fun _ => Dir.empty := by
  refine (redo_twice_iff .default .ascending (redoSample 1) (fun _ => Dir.empty)
    (increasing_redoSample 1) (fun _ _ => ⟨0, rfl⟩) (fun pid _ => card_redoSample 1 .ascending pid)).mpr ?_
  intro pid a ha
  by_cases hp : pid = 7
  · subst hp
    rw [aboveMark_redoSample] at ha ⊢
    obtain rfl := Option.some.inj ha
    refine ⟨?_, fun s b hb => nomatch hb⟩
    decide
  · rw [aboveMark, redoHeaders_redoSample, if_neg hp] at ha
    cases ha

/-- The first record in segment 5: what the second replay reads is the first
record, and it appends the second one again. -/
theorem redo_twice_differs :
    (∀ pid, Increasing lsn (redoHeaders pid (redoSample 5))) ∧
      redoAll .default .ascending (redoSample 5)
          (redoAll .default .ascending (redoSample 5) fun _ => Dir.empty) ≠
        redoAll .default .ascending (redoSample 5) fun _ => Dir.empty := by
  refine ⟨increasing_redoSample 5, fun hsame => ?_⟩
  have h7 := congrFun hsame 7
  rw [redoAll_eq, redoAll_eq] at h7
  have hnew := (redo_again_iff (fun _ => ⟨0, rfl⟩) (fun _ hh => validFor_of_mem_redoHeaders hh)
    (increasing_redoSample 5 7) (card_redoSample 5 .ascending 7)).mp h7
  rw [aboveMark_redoSample] at hnew
  have hle := (hnew _ rfl).1 (buildHeader 7 1 (5 * 2 ^ 24) 1) (by simp)
  exact absurd hle (by decide)

end PartDist
