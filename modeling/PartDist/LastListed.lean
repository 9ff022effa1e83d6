import PartDist.CountRecords

/-!
# The highest LSN of a listing

`GetLastWrittenPartitionLSN` (partition_wal_writer.c) on a directory as `readdir` gives it,
with names of any form.  It keeps 256 of them, sorts those with `strcmp` and stops at the
first file that holds a record; the last record is in the file of the last segment.

* `scan_cases`: the holding file with the greatest name decides.
* `getLast_highest_iff`: the result is the highest LSN if and only if that file is the last
  by segment number.
* `lastListed_of_few`: so it is with at most 256 files of one timeline.
* `getLastWrittenPartitionLSNIn_ofDir`: in a directory of segment files on timeline 1 it is
  the scan of the other modules.
-/

namespace PartDist

open Bytes PartWALHeader HighWater ExchangeSort

/-! ## Algorithm -/

/-- One round of the loop over files; a file that cannot be opened is passed over. -/
def segmentLsn (opens : CString → Bool) (pid : Oid) (dir : Listing) (f : SegFile) : UInt64 :=
  if opens f.name then
    match dir.open f.name with
    | some bytes => fileLsn pid bytes
    | none => 0
  else 0

/-- `none` when there is no directory; no result if the sort leaves its array. -/
def getLastWrittenPartitionLSNIn (opens : CString → Bool) (pid : Oid) : Option Listing → Option UInt64
  | none => some 0
  | some dir =>
    let segfiles := collectNames (dir.entries.map Prod.fst) []
    if segfiles.length = 0 then some 0
    else do
      let sorted ← sortDescending segfiles
      return sorted.foldl (fun maxLsn f => if maxLsn = 0 then segmentLsn opens pid dir f else maxLsn) 0

/-! ## The last file -/

namespace Listing

/-- The segment number a name stands for. -/
def segno (segsz : WalSegSize) (e : CString × Bytes) : Nat := (xlogFromFileName e.1 segsz).2

/-- The valid records carry strictly increasing LSNs in the order of segment and offset;
files of one segment on different timelines are not compared. -/
structure Ascending (segsz : WalSegSize) (pid : Oid) (dir : Listing) : Prop where
  within : ∀ e ∈ dir.segments, Increasing lsn ((readHeaders e.2).filter (validFor pid))
  across : ∀ e ∈ dir.segments, ∀ e' ∈ dir.segments, segno segsz e < segno segsz e' →
    ∀ a ∈ readHeaders e.2, ∀ b ∈ readHeaders e'.2, a.validFor pid → b.validFor pid → a.lsn < b.lsn

instance (segsz : WalSegSize) (pid : Oid) (dir : Listing) : Decidable (dir.Ascending segsz pid) :=
  decidable_of_iff
    ((∀ e ∈ dir.segments, ((readHeaders e.2).filter (validFor pid)).Pairwise fun a b : PartWALHeader =>
        a.lsn < b.lsn) ∧
      ∀ e ∈ dir.segments, ∀ e' ∈ dir.segments, segno segsz e < segno segsz e' →
        ∀ a ∈ readHeaders e.2, ∀ b ∈ readHeaders e'.2, a.validFor pid → b.validFor pid → a.lsn < b.lsn)
    ⟨fun h => ⟨h.1, h.2⟩, fun h => ⟨h.within, h.across⟩⟩

/-- The largest `partition_lsn` of a valid record in a segment file; 0 when there is none. -/
def highestLsn (pid : Oid) (dir : Listing) : Nat :=
  (((dir.segments.flatMap fun e => readHeaders e.2).filter (validFor pid)).map lsn : Multiset Nat).sup

/-- The last segment file that holds a record: the others that do have lower segment
numbers, or the same one and no LSN above. -/
structure Last (segsz : WalSegSize) (pid : Oid) (dir : Listing) (e : CString × Bytes) : Prop where
  holds : HoldsRecord pid e.2
  last : ∀ e' ∈ dir.segments, HoldsRecord pid e'.2 → segno segsz e' < segno segsz e ∨
    segno segsz e' = segno segsz e ∧ ∀ a ∈ readHeaders e'.2, a.validFor pid →
      ∃ b ∈ readHeaders e.2, b.validFor pid ∧ a.lsn ≤ b.lsn

/-- The segment files the scan reads. -/
def scanned (opens : CString → Bool) (dir : Listing) : List (CString × Bytes) :=
  (dir.segments.take maxScanFiles).filter fun e => opens e.1

/-- If a segment file holds a record, then the last one is read, and those read that `strcmp`
puts behind it hold none. -/
def LastListed (segsz : WalSegSize) (opens : CString → Bool) (pid : Oid) (dir : Listing) : Prop :=
  (∃ e ∈ dir.segments, HoldsRecord pid e.2) →
    ∃ e ∈ dir.scanned opens, dir.Last segsz pid e ∧
      ∀ e' ∈ dir.scanned opens, e.1.chars < e'.1.chars → ¬ HoldsRecord pid e'.2

end Listing

/-! ## What the scan finds -/

/-- The first value that is not 0. -/
theorem foldl_first {α : Type} (f : α → UInt64) (l : List α) :
    ((∀ a ∈ l, f a = 0) ∧ l.foldl (fun maxLsn a => if maxLsn = 0 then f a else maxLsn) 0 = 0) ∨
      ∃ l₁ a l₂, l = l₁ ++ a :: l₂ ∧ (∀ b ∈ l₁, f b = 0) ∧ f a ≠ 0 ∧
        l.foldl (fun maxLsn a => if maxLsn = 0 then f a else maxLsn) 0 = f a := by
  induction l with
  | nil => exact Or.inl ⟨(fun a ha => absurd ha List.not_mem_nil), rfl⟩
  | cons a l ih =>
    rw [List.foldl_cons, if_pos rfl]
    by_cases h0 : f a = 0
    · rw [h0]
      rcases ih with ⟨hall, hzero⟩ | ⟨l₁, b, l₂, hsplit, hbefore, hb, hfold⟩
      · exact Or.inl ⟨List.forall_mem_cons.mpr ⟨h0, hall⟩, hzero⟩
      · exact Or.inr ⟨a :: l₁, b, l₂, by rw [hsplit, List.cons_append], List.forall_mem_cons.mpr ⟨h0, hbefore⟩, hb,
          hfold⟩
    · refine Or.inr ⟨[], a, l, rfl, (fun b hb => absurd hb List.not_mem_nil), h0, ?_⟩
      exact foldl_of_ne_zero f l h0

section
variable {segsz : WalSegSize} {opens : CString → Bool} {pid : Oid} {dir : Listing} {e e' : CString × Bytes}

theorem Listing.mem_scanned : e ∈ dir.scanned opens ↔ e ∈ dir.segments.take maxScanFiles ∧ opens e.1 = true :=
  List.mem_filter

theorem Listing.mem_segments_of_scanned (he : e ∈ dir.scanned opens) : e ∈ dir.segments :=
  List.mem_of_mem_take (Listing.mem_scanned.mp he).1

theorem Listing.eq_of_name (he : e ∈ dir.segments) (he' : e' ∈ dir.segments) (h : e.1 = e'.1) : e = e' :=
  List.inj_on_of_nodup_map dir.nodup (List.mem_of_mem_filter he) (List.mem_of_mem_filter he') h

theorem segmentLsn_copyName (he : e ∈ dir.segments) :
    segmentLsn opens pid dir (copyName e.1) = if opens e.1 then fileLsn pid e.2 else 0 := by
  obtain ⟨hmem, hname⟩ := List.mem_filter.mp he
  rw [segmentLsn, copyName_segment hname, Listing.open, lookup_of_mem dir.nodup hmem]

theorem getLastWrittenPartitionLSNIn_eq (opens : CString → Bool) (pid : Oid) (dir : Listing) :
    getLastWrittenPartitionLSNIn opens pid (some dir) =
      some ((exchangeSort comesAfter ((dir.segments.take maxScanFiles).map fun e => copyName e.1)).foldl
        (fun maxLsn f => if maxLsn = 0 then segmentLsn opens pid dir f else maxLsn) 0) := by
  rw [getLastWrittenPartitionLSNIn, collectNames_segments]
  split
  · next h0 =>
    rw [List.eq_nil_of_length_eq_zero h0]
    rfl
  · rw [sortDescending_eq]
    rfl

theorem sorted_comesAfter (segfiles : List SegFile) :
    (exchangeSort comesAfter segfiles).Pairwise fun f g => g.name.chars ≤ f.name.chars := by
  have hsorted := exchangeSort_sorted comesAfter
    (fun f g h => comesAfter_eq_false.mpr (le_of_lt (comesAfter_iff.mp h)))
    (fun f g h h₁ h₂ => comesAfter_eq_false.mpr
      (le_trans (comesAfter_eq_false.mp h₂) (comesAfter_eq_false.mp h₁))) segfiles
  exact hsorted.imp fun h => comesAfter_eq_false.mp h

/-- Of the files read that hold a record, the one with the greatest name decides. -/
theorem scan_cases (opens : CString → Bool) (pid : Oid) (dir : Listing) :
    ((∀ e ∈ dir.scanned opens, ¬ HoldsRecord pid e.2) ∧
        getLastWrittenPartitionLSNIn opens pid (some dir) = some 0) ∨
      ∃ e ∈ dir.scanned opens, HoldsRecord pid e.2 ∧
        (∀ e' ∈ dir.scanned opens, HoldsRecord pid e'.2 → e'.1.chars ≤ e.1.chars) ∧
        getLastWrittenPartitionLSNIn opens pid (some dir) = some (fileLsn pid e.2) := by
  have hmem : ∀ f, f ∈ exchangeSort comesAfter ((dir.segments.take maxScanFiles).map fun e => copyName e.1) ↔
      ∃ e ∈ dir.segments.take maxScanFiles, copyName e.1 = f := fun f => by
    rw [mem_exchangeSort, List.mem_map]
  have hread : ∀ e ∈ dir.scanned opens, segmentLsn opens pid dir (copyName e.1) = fileLsn pid e.2 := by
    intro e he
    rw [segmentLsn_copyName (Listing.mem_segments_of_scanned he), if_pos (Listing.mem_scanned.mp he).2]
  rw [getLastWrittenPartitionLSNIn_eq]
  have hsorted := sorted_comesAfter ((dir.segments.take maxScanFiles).map fun e => copyName e.1)
  rcases foldl_first (segmentLsn opens pid dir)
      (exchangeSort comesAfter ((dir.segments.take maxScanFiles).map fun e => copyName e.1)) with
    ⟨hall, hzero⟩ | ⟨l₁, f, l₂, hsplit, hbefore, hf, hfold⟩
  · refine Or.inl ⟨fun e he hholds => ?_, congrArg some hzero⟩
    exact holdsRecord_iff.mp hholds
      ((hread e he).symm.trans (hall _ ((hmem _).mpr ⟨e, (Listing.mem_scanned.mp he).1, rfl⟩)))
  · -- `f` is the copy of a name
    obtain ⟨e, he, rfl⟩ := (hmem f).mp (by rw [hsplit]; exact List.mem_append_right _ List.mem_cons_self)
    have hseg : e ∈ dir.segments := List.mem_of_mem_take he
    have hopen : opens e.1 = true := by
      by_contra hno
      rw [segmentLsn_copyName hseg, if_neg hno] at hf
      exact hf rfl
    have hscanned : e ∈ dir.scanned opens := Listing.mem_scanned.mpr ⟨he, hopen⟩
    refine Or.inr ⟨e, hscanned, holdsRecord_iff.mpr (hread e hscanned ▸ hf), fun e' he' hholds => ?_, ?_⟩
    · have hseg' := Listing.mem_segments_of_scanned he'
      have hin := (hmem (copyName e'.1)).mpr ⟨e', (Listing.mem_scanned.mp he').1, rfl⟩
      rw [hsplit] at hin hsorted
      have hname : ∀ {a : CString × Bytes}, a ∈ dir.segments → (copyName a.1).name = a.1 := fun ha =>
        copyName_segment (List.mem_filter.mp ha).2
      rcases List.mem_append.mp hin with hin | hin
      · exact absurd ((hread e' he').symm.trans (hbefore _ hin)) (holdsRecord_iff.mp hholds)
      · rcases List.mem_cons.mp hin with heq | hin
        · rw [← hname hseg', heq, hname hseg]
        · have hle := (List.pairwise_cons.mp (List.pairwise_append.mp hsorted).2.1).1 _ hin
          rwa [hname hseg', hname hseg] at hle
    · rw [hfold, hread e hscanned]

/-! ## The highest LSN -/

theorem Listing.le_highestLsn {h : PartWALHeader} (he : e ∈ dir.segments) (hh : h ∈ readHeaders e.2)
    (hv : h.validFor pid) : h.lsn ≤ dir.highestLsn pid := by
  refine Multiset.le_sup (Multiset.mem_coe.mpr (List.mem_map_of_mem (List.mem_filter.mpr ⟨?_, hv⟩)))
  exact List.mem_flatMap.mpr ⟨e, he, hh⟩

theorem Listing.highestLsn_le {n : Nat}
    (hle : ∀ e ∈ dir.segments, ∀ h ∈ readHeaders e.2, h.validFor pid → h.lsn ≤ n) : dir.highestLsn pid ≤ n := by
  refine Multiset.sup_le.mpr fun m hm => ?_
  obtain ⟨h, hh, rfl⟩ := List.mem_map.mp (Multiset.mem_coe.mp hm)
  obtain ⟨hh, hv⟩ := List.mem_filter.mp hh
  obtain ⟨e, he, hh⟩ := List.mem_flatMap.mp hh
  exact hle e he h hh hv

theorem Listing.highestLsn_eq_zero : dir.highestLsn pid = 0 ↔ ∀ e ∈ dir.segments, ¬ HoldsRecord pid e.2 := by
  constructor
  · rintro hzero e he ⟨h, hh, hv, h0⟩
    have hle : h.lsn ≤ 0 := hzero ▸ Listing.le_highestLsn he hh hv
    exact h0 (UInt64.toNat_inj.mp (Nat.eq_zero_of_le_zero hle))
  · intro hnone
    refine Nat.eq_zero_of_le_zero (Listing.highestLsn_le fun e he h hh hv => ?_)
    by_contra hpos
    refine hnone e he ⟨h, hh, hv, fun h0 => hpos ?_⟩
    rw [lsn, h0]
    exact Nat.le_refl _

/-- A file that holds a record shows its highest LSN. -/
theorem Listing.highestLsn_eq_iff (hasc : dir.Ascending segsz pid) (he : e ∈ dir.segments)
    (hholds : HoldsRecord pid e.2) : (fileLsn pid e.2).toNat = dir.highestLsn pid ↔ dir.Last segsz pid e := by
  obtain ⟨top, htop, htv, hlsn⟩ := fileLsn_mem (holdsRecord_iff.mp hholds)
  constructor
  · intro heq
    refine ⟨hholds, fun e' he' ⟨b, hb, hbv, _⟩ => ?_⟩
    rcases Nat.lt_trichotomy (segno segsz e') (segno segsz e) with hlt | hsame | hgt
    · exact Or.inl hlt
    · refine Or.inr ⟨hsame, fun a ha hav => ⟨top, htop, htv, ?_⟩⟩
      calc a.lsn ≤ dir.highestLsn pid := Listing.le_highestLsn he' ha hav
        _ = top.lsn := by rw [← heq, hlsn]; rfl
    · have hlt : top.lsn < b.lsn := hasc.across e he e' he' hgt top htop b hb htv hbv
      have hle : b.lsn ≤ top.lsn := by
        calc b.lsn ≤ dir.highestLsn pid := Listing.le_highestLsn he' hb hbv
          _ = top.lsn := by rw [← heq, hlsn]; rfl
      exact absurd hlt (Nat.not_lt.mpr hle)
  · intro hlast
    refine Nat.le_antisymm (hlsn ▸ Listing.le_highestLsn he htop htv) (Listing.highestLsn_le fun e' he' a ha hav => ?_)
    by_cases h0 : a.partitionLsn = 0
    · rw [lsn, h0]
      exact Nat.zero_le _
    · rcases hlast.last e' he' ⟨a, ha, hav, h0⟩ with hlt | ⟨-, hle⟩
      · rw [hlsn]
        exact Nat.le_of_lt (hasc.across e' he' e he hlt a ha top htop hav htv)
      · obtain ⟨b, hb, hbv, hab⟩ := hle a ha hav
        exact Nat.le_trans hab (fileLsn_le (hasc.within e he) hb hbv)

end

/-- **The high-water mark.** Where the valid records of the segment files carry increasing
LSNs, `GetLastWrittenPartitionLSN` returns the highest one if and only if the last file that
holds one is read and no file read that comes behind it in the order of names holds one. -/
theorem getLast_highest_iff (segsz : WalSegSize) (opens : CString → Bool) (pid : Oid) (dir : Option Listing)
    (hasc : ∀ d ∈ dir, d.Ascending segsz pid) :
    ∃ lsn, getLastWrittenPartitionLSNIn opens pid dir = some lsn ∧
      (lsn.toNat = dir.elim 0 (Listing.highestLsn pid) ↔ ∀ d ∈ dir, d.LastListed segsz opens pid) := by
  cases dir with
  | none => exact ⟨0, rfl, (fun _ d hd => absurd hd (Option.not_mem_none d)), fun _ => rfl⟩
  | some dir =>
    simp only [Option.mem_some, forall_eq', Option.elim_some] at hasc ⊢
    rcases scan_cases opens pid dir with ⟨hnone, hscan⟩ | ⟨e, he, hholds, htop, hscan⟩
    · -- no file that is read holds a record
      refine ⟨0, hscan, ?_⟩
      rw [UInt64.toNat_zero, eq_comm, Listing.highestLsn_eq_zero]
      constructor
      · rintro hall ⟨e, he, hholds⟩
        exact absurd hholds (hall e he)
      · intro hlisted e he hholds
        obtain ⟨e', he', hlast, -⟩ := hlisted ⟨e, he, hholds⟩
        exact hnone e' he' hlast.holds
    · refine ⟨_, hscan, ?_⟩
      have hseg := Listing.mem_segments_of_scanned he
      rw [Listing.highestLsn_eq_iff hasc hseg hholds]
      constructor
      · intro hlast _
        refine ⟨e, he, hlast, fun e' he' hlt hholds' => ?_⟩
        exact absurd hlt (not_lt.mpr (htop e' he' hholds'))
      · intro hlisted
        obtain ⟨e', he', hlast, hbehind⟩ := hlisted ⟨e, hseg, hholds⟩
        have hle : e'.1.chars ≤ e.1.chars := htop e' he' hlast.holds
        have hge : e.1.chars ≤ e'.1.chars := not_lt.mp fun hlt => hbehind e he hlt hholds
        have hname : e'.1 = e.1 := CString.ext_chars (le_antisymm hle hge)
        exact Listing.eq_of_name (Listing.mem_segments_of_scanned he') hseg hname ▸ hlast

/-- Up to 256 segment files, all of one timeline, that can be opened: the names come in the
order of the segment numbers, and none is left out. -/
theorem lastListed_of_few {segsz : WalSegSize} {opens : CString → Bool} {pid : Oid} {dir : Listing}
    (tli : TimeLineID) (hfew : dir.segments.length ≤ maxScanFiles) (hopens : ∀ e ∈ dir.segments, opens e.1 = true)
    (htli : ∀ e ∈ dir.segments, ∃ s, s / segsz.perXLogId < 2 ^ 32 ∧ e.1 = xlogFileName tli s segsz) :
    dir.LastListed segsz opens pid := by
  have hall : ∀ e ∈ dir.segments, e ∈ dir.scanned opens := fun e he =>
    Listing.mem_scanned.mpr ⟨by rwa [List.take_of_length_le hfew], hopens e he⟩
  rintro ⟨a, ha, hholds⟩
  rcases scan_cases opens pid dir with ⟨hnone, -⟩ | ⟨e, he, hlast, htop, -⟩
  · exact absurd hholds (hnone a (hall a ha))
  · refine ⟨e, he, ⟨hlast, fun e' he' hholds' => ?_⟩, fun e' he' hlt hholds' => ?_⟩
    · have hseg := Listing.mem_segments_of_scanned he
      obtain ⟨s, hs, hname⟩ := htli e hseg
      obtain ⟨s', hs', hname'⟩ := htli e' he'
      have hsegno : Listing.segno segsz e = s := by rw [Listing.segno, hname, xlogFromFileName_xlogFileName tli hs]
      have hsegno' : Listing.segno segsz e' = s' := by
        rw [Listing.segno, hname', xlogFromFileName_xlogFileName tli hs']
      have hle := htop e' (hall e' he') hholds'
      rw [hname, hname', ← not_lt, xlogFileName_lt_iff tli hs hs', Nat.not_lt] at hle
      rw [hsegno, hsegno']
      rcases Nat.lt_or_eq_of_le hle with hlt | rfl
      · exact Or.inl hlt
      · obtain rfl := Listing.eq_of_name he' hseg (hname'.trans hname.symm)
        exact Or.inr ⟨rfl, fun b hb hv => ⟨b, hb, hv, Nat.le_refl _⟩⟩
    · exact absurd hlt (not_lt.mpr (htop e' he' hholds'))

/-! ## Directories of segment files -/

section
variable {segsz : WalSegSize} {rd : Readdir} {pid : Oid} {d : Dir}
  {hd : ∀ s ∈ d.names, s / segsz.perXLogId < 2 ^ 32}

theorem mem_segments_ofDir {e : CString × Bytes} : e ∈ (Listing.ofDir segsz rd d hd).segments ↔
    ∃ s ∈ d.names, e = (xlogFileName 1 s segsz, d.content s) := by
  rw [segments_ofDir, Listing.ofDir, List.mem_map]
  simp only [rd.mem_order, eq_comm]

theorem segno_xlogFileName {s : Nat} {f : Bytes} (hs : s / segsz.perXLogId < 2 ^ 32) :
    Listing.segno segsz (xlogFileName 1 s segsz, f) = s := by
  rw [Listing.segno, xlogFromFileName_xlogFileName 1 hs]

theorem getLastWrittenPartitionLSNIn_ofDir (sc : ScanIO) :
    getLastWrittenPartitionLSNIn (fun name => sc.opens (xlogFromFileName name segsz).2) pid
      (some (Listing.ofDir segsz sc.readdir d hd)) = some (getLastWrittenPartitionLSN sc pid d) := by
  have hlisted : ∀ s ∈ d.listed sc.readdir, s / segsz.perXLogId < 2 ^ 32 := fun s hs =>
    hd s (Dir.mem_names_of_listed hs)
  have hsort := sortDescending_segFile hlisted
  rw [sortDescending_eq] at hsort
  rw [getLastWrittenPartitionLSNIn_eq, names_ofDir, Option.some.inj hsort, List.foldl_map,
    getLastWrittenPartitionLSN]
  refine congrArg some (List.foldl_ext _ _ _ fun m s hs => ?_)
  have hs := (mem_exchangeSort _).mp hs
  rw [segmentLsn, open_ofDir hs, segFile_name (hlisted s hs), xlogFromFileName_xlogFileName 1 (hlisted s hs)]

theorem ascending_ofDir (hasc : d.Ascending pid) : (Listing.ofDir segsz rd d hd).Ascending segsz pid := by
  constructor
  · intro e he
    obtain ⟨s, -, rfl⟩ := mem_segments_ofDir.mp he
    exact hasc.within s
  · intro e he e' he' hlt
    obtain ⟨s, hs, rfl⟩ := mem_segments_ofDir.mp he
    obtain ⟨s', hs', rfl⟩ := mem_segments_ofDir.mp he'
    rw [segno_xlogFileName (hd s hs), segno_xlogFileName (hd s' hs')] at hlt
    exact hasc.across s s' hlt

theorem highestLsn_ofDir : (Listing.ofDir segsz rd d hd).highestLsn pid = d.highestLsn pid := by
  refine Nat.le_antisymm (Listing.highestLsn_le fun e he h hh hv => ?_) (highest_le fun s h hh hv => ?_)
  · obtain ⟨s, -, rfl⟩ := mem_segments_ofDir.mp he
    exact le_highest hh hv
  · exact Listing.le_highestLsn (mem_segments_ofDir.mpr ⟨s, Dir.mem_names_of_headers hh, rfl⟩) hh hv

end

/-! ## Runs -/

/-- A record of partition 7. -/
def recordOf (lsn : UInt64) : Bytes := (buildHeader 7 1 (lsn * 0x1000000) lsn).encode

/-- Two segment files with torn tails, and a file of another name. -/
def tornListing : Listing where
  entries := [(xlogFileName 1 2 .default, recordOf 3 ++ [0, 0, 0]), (.ofString "00000001.tmp", recordOf 9),
    (xlogFileName 1 1 .default, recordOf 1 ++ recordOf 2 ++ [7])]
  nodup := by decide +kernel

theorem getLast_highest_iff_torn :
    ∃ lsn, getLastWrittenPartitionLSNIn (fun _ => true) 7 (some tornListing) = some lsn ∧
      lsn.toNat = tornListing.highestLsn 7 := by
  obtain ⟨lsn, hscan, hiff⟩ := getLast_highest_iff .default (fun _ => true) 7 (some tornListing) (by
    simp only [Option.mem_some, forall_eq']
    decide +kernel)
  refine ⟨lsn, hscan, hiff.mpr ?_⟩
  simp only [Option.mem_some, forall_eq']
  have hsegments : tornListing.segments = [(xlogFileName 1 2 .default, recordOf 3 ++ [0, 0, 0]),
      (xlogFileName 1 1 .default, recordOf 1 ++ recordOf 2 ++ [7])] := by decide +kernel
  refine lastListed_of_few 1 (by rw [hsegments]; decide) (fun _ _ => rfl) fun e he => ?_
  rw [hsegments, List.mem_pair] at he
  rcases he with rfl | rfl
  · exact ⟨2, by decide, rfl⟩
  · exact ⟨1, by decide, rfl⟩

/-- Segment 2 on timeline 1 and segment 1 on timeline 2. -/
def twoTimelines : Listing where
  entries := [(xlogFileName 1 2 .default, recordOf 4 ++ recordOf 5), (xlogFileName 2 1 .default, recordOf 3)]
  nodup := by decide +kernel

/-- Of 257 files listed in ascending order the last one is never read; and a file that comes
last by its timeline hides the last segment. -/
theorem last_file_unlisted :
    (manyFiles.Ascending .default 7 ∧ manyFiles.highestLsn 7 = 257 ∧
        getLastWrittenPartitionLSNIn (fun _ => true) 7 (some manyFiles) = some 256) ∧
      twoTimelines.Ascending .default 7 ∧ twoTimelines.highestLsn 7 = 5 ∧
        getLastWrittenPartitionLSNIn (fun _ => true) 7 (some twoTimelines) = some 3 := by
  constructor
  · obtain ⟨hasc, hhigh, hscan⟩ := oneEach_unlisted
    refine ⟨ascending_ofDir hasc, highestLsn_ofDir.trans hhigh, ?_⟩
    exact (getLastWrittenPartitionLSNIn_ofDir Readdir.ascending).trans
      (congrArg some (UInt64.toNat_inj.mp hscan))
  · decide +kernel

end PartDist
