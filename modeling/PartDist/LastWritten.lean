import PartDist.Scan
import PartDist.Lib.HighWater
import Mathlib.Data.Multiset.Lattice
import Mathlib.Order.Lattice.Nat

/-!
# The highest LSN on disk

In a directory whose valid records come with increasing `partition_lsn`, the last file
that holds one with a nonzero LSN holds the highest (`highest_of_top`).
What one file contributes is its highest LSN, torn tail or not (`fileLsn_le`).
-/

namespace PartDist

open Bytes PartWALHeader HighWater

/-- A file with a valid record whose LSN is not 0. -/
def HoldsRecord (pid : Oid) (f : Bytes) : Prop := ∃ h ∈ readHeaders f, h.validFor pid ∧ h.partitionLsn ≠ 0

namespace Dir

/-- Segment file `s` holds a valid record with a nonzero LSN. -/
def Holds (pid : Oid) (d : Dir) (s : Nat) : Prop :=
  ∃ h ∈ d.headers s, h.validFor pid ∧ h.partitionLsn ≠ 0

/-- The largest `partition_lsn` of a valid record; 0 when there is none. -/
def highestLsn (pid : Oid) (d : Dir) : Nat :=
  ((d.records.filter fun h => h.validFor pid).map lsn).sup

/-- The valid records carry strictly increasing LSNs in the order of segment and offset. -/
structure Ascending (pid : Oid) (d : Dir) : Prop where
  within : ∀ s, Increasing lsn ((d.headers s).filter (validFor pid))
  across : ∀ s t, s < t → ∀ a ∈ d.headers s, ∀ b ∈ d.headers t, a.validFor pid → b.validFor pid →
    a.lsn < b.lsn

end Dir

section
variable {rd : Readdir} {pid : Oid} {d : Dir} {f : Bytes} {h : PartWALHeader} {s : Nat}

/-- No valid record of a file is above what the file contributes. -/
theorem fileLsn_le (hinc : Increasing lsn ((readHeaders f).filter (validFor pid)))
    (hh : h ∈ readHeaders f) (hv : h.validFor pid) : h.lsn ≤ (fileLsn pid f).toNat := by
  unfold fileLsn
  split
  · next hlen =>
    rw [readHeaders, blocks_short hlen] at hh
    cases hh
  · split
    · exact UInt64.le_iff_toNat_le.mp (le_scanHighestLsn hh hv)
    · next hlast =>
      unfold lastRecordLsn at hlast ⊢
      cases hr : readAt f (lastRecordOffset f.length) with
      | none =>
        rw [hr] at hlast
        exact absurd rfl hlast
      | some last =>
        simp only [hr] at hlast ⊢
        have hlv : last.validFor pid := by
          by_contra hlv
          exact hlast (if_neg hlv)
        rw [if_pos hlv]
        obtain ⟨hs, hsplit⟩ := lastRecord_eq hr
        rw [hsplit, List.filter_append, List.filter_singleton, hlv] at hinc
        rw [hsplit, List.mem_append, List.mem_singleton] at hh
        rcases hh with hh | rfl
        · exact Nat.le_of_lt ((List.pairwise_append.mp hinc).2.2 h (List.mem_filter.mpr ⟨hh, hv⟩) last
            List.mem_cons_self)
        · exact Nat.le_refl _

theorem holdsRecord_iff : HoldsRecord pid f ↔ fileLsn pid f ≠ 0 := by
  rw [Ne, fileLsn_eq_zero_iff]
  constructor
  · rintro ⟨h, hh, hv, h0⟩ hall
    exact h0 (hall h hh hv)
  · intro hne
    by_contra hnone
    refine hne fun h hh hv => ?_
    by_contra h0
    exact hnone ⟨h, hh, hv, h0⟩

theorem holds_iff : d.Holds pid s ↔ fileLsn pid (d.content s) ≠ 0 := holdsRecord_iff

theorem Dir.Holds.mem_names (hs : d.Holds pid s) : s ∈ d.names := by
  obtain ⟨h, hh, -⟩ := hs
  exact Dir.mem_names_of_headers hh

theorem mem_records : h ∈ d.records ↔ ∃ s, h ∈ d.headers s := by
  rw [Dir.records, Multiset.mem_sum]
  constructor
  · rintro ⟨s, -, hh⟩
    exact ⟨s, hh⟩
  · rintro ⟨s, hh⟩
    exact ⟨s, Dir.mem_names_of_headers hh, hh⟩

theorem highest_le {n : Nat} (hle : ∀ s, ∀ h ∈ d.headers s, h.validFor pid → h.lsn ≤ n) :
    d.highestLsn pid ≤ n := by
  refine Multiset.sup_le.mpr fun m hm => ?_
  obtain ⟨h, hh, rfl⟩ := Multiset.mem_map.mp hm
  obtain ⟨hh, hv⟩ := Multiset.mem_filter.mp hh
  obtain ⟨s, hh⟩ := mem_records.mp hh
  exact hle s h hh hv

theorem le_highest (hh : h ∈ d.headers s) (hv : h.validFor pid) : h.lsn ≤ d.highestLsn pid :=
  Multiset.le_sup (Multiset.mem_map_of_mem _ (Multiset.mem_filter.mpr ⟨mem_records.mpr ⟨s, hh⟩, hv⟩))

theorem highest_of_none (hnone : ∀ s, ¬ d.Holds pid s) : d.highestLsn pid = 0 := by
  refine Nat.eq_zero_of_le_zero (highest_le fun s h hh hv => ?_)
  by_contra hpos
  exact hnone s ⟨h, hh, hv, fun h0 => hpos (by rw [lsn, h0]; exact Nat.le_refl _)⟩

/-- The last file with a nonzero LSN holds the highest one. -/
theorem highest_of_top (hasc : d.Ascending pid) (hs : d.Holds pid s) (htop : ∀ t, d.Holds pid t → t ≤ s) :
    d.highestLsn pid = (fileLsn pid (d.content s)).toNat := by
  obtain ⟨last, hlast, hlv, he⟩ := fileLsn_mem (holds_iff.mp hs)
  refine Nat.le_antisymm (highest_le fun t h hh hv => ?_) (he ▸ le_highest hlast hlv)
  by_cases h0 : h.partitionLsn = 0
  · rw [lsn, h0]
    exact Nat.zero_le _
  · rcases Nat.lt_or_eq_of_le (htop t ⟨h, hh, hv, h0⟩) with hlt | rfl
    · rw [he]
      exact Nat.le_of_lt (hasc.across t s hlt h hh last hlast hv hlv)
    · exact fileLsn_le (hasc.within t) hh hv

end

/-! ## One record a segment -/

/-- Segment files 1 to `n` of partition 7, each with the record of that LSN and a torn tail. -/
def oneEach (tail : Bytes) (n : Nat) : Dir :=
  Dir.filled (fun s => (buildHeader 7 1 (UInt64.ofNat (s * 2 ^ 24)) (UInt64.ofNat s)).encode ++ tail) n

section
variable {tail : Bytes} {n s : Nat} {h : PartWALHeader}

theorem headers_oneEach (htail : tail.length < headerSize) (hs : s ∈ (oneEach tail n).names) :
    (oneEach tail n).headers s = [buildHeader 7 1 (UInt64.ofNat (s * 2 ^ 24)) (UInt64.ofNat s)] := by
  rw [Dir.headers, oneEach, Dir.content_filled hs, readHeaders_append (by rw [length_encode]),
    readHeaders_encode, readHeaders, blocks_short htail, List.map_nil, List.append_nil]

theorem lsn_oneEach (htail : tail.length < headerSize) (hn : n < 2 ^ 64) (hh : h ∈ (oneEach tail n).headers s) :
    1 ≤ s ∧ s ≤ n ∧ h.lsn = s := by
  have hs := Dir.mem_names_of_headers hh
  have hle : 1 ≤ s ∧ s ≤ n := Finset.mem_Icc.mp (Dir.names_filled _ _ ▸ hs)
  rw [headers_oneEach htail hs, List.mem_singleton] at hh
  subst hh
  exact ⟨hle.1, hle.2, UInt64.toNat_ofNat_of_lt' (by simp only [UInt64.size]; omega)⟩

theorem ascending_oneEach (htail : tail.length < headerSize) (hn : n < 2 ^ 64) :
    (oneEach tail n).Ascending 7 := by
  constructor
  · intro s
    by_cases hs : s ∈ (oneEach tail n).names
    · rw [headers_oneEach htail hs]
      exact (List.pairwise_singleton _ _).filter _
    · rw [Dir.headers_of_notMem hs]
      exact List.Pairwise.nil
  · intro s t hlt a ha b hb _ _
    obtain ⟨-, -, ha⟩ := lsn_oneEach htail hn ha
    obtain ⟨-, -, hb⟩ := lsn_oneEach htail hn hb
    omega

theorem holds_oneEach (htail : tail.length < headerSize) (hs : 1 ≤ s ∧ s ≤ n) (hn : n < 2 ^ 64) :
    (oneEach tail n).Holds 7 s ∧ (fileLsn 7 ((oneEach tail n).content s)).toNat = s := by
  have hmem : s ∈ (oneEach tail n).names := by
    rw [oneEach, Dir.names_filled]
    exact Finset.mem_Icc.mpr hs
  have hholds : (oneEach tail n).Holds 7 s := by
    have hh : buildHeader 7 1 (UInt64.ofNat (s * 2 ^ 24)) (UInt64.ofNat s) ∈ (oneEach tail n).headers s := by
      rw [headers_oneEach htail hmem]
      exact List.mem_cons_self
    refine ⟨_, hh, by simp [validFor], fun h0 => ?_⟩
    have hlsn := (lsn_oneEach htail hn hh).2.2
    rw [lsn, h0] at hlsn
    exact absurd hlsn.symm (Nat.ne_of_gt hs.1)
  obtain ⟨h, hh, -, he⟩ := fileLsn_mem (holds_iff.mp hholds)
  rw [he]
  exact ⟨hholds, (lsn_oneEach htail hn hh).2.2⟩

end

/-- With 257 files, listed in ascending order, the last one is never read. -/
theorem oneEach_unlisted :
    (oneEach [] 257).Ascending 7 ∧ (oneEach [] 257).highestLsn 7 = 257 ∧
      (getLastWrittenPartitionLSN Readdir.ascending 7 (oneEach [] 257)).toNat = 256 := by
  have hasc : (oneEach [] 257).Ascending 7 := ascending_oneEach (by decide) (by decide)
  have hlisted : (oneEach [] 257).listed Readdir.ascending = List.range' 1 256 := by
    rw [Dir.listed, oneEach, Dir.names_filled]
    decide +kernel
  have htop : ∀ t, (oneEach [] 257).Holds 7 t → t ≤ 257 := fun t ⟨h, hh, _⟩ =>
    (lsn_oneEach (by decide) (by decide) hh).2.1
  obtain ⟨hlast, hlsn⟩ := holds_oneEach (n := 257) (s := 257) (show [].length < headerSize by decide)
    (by decide) (by decide)
  obtain ⟨hread, hlsn'⟩ := holds_oneEach (n := 257) (s := 256) (show [].length < headerSize by decide)
    (by decide) (by decide)
  refine ⟨hasc, (highest_of_top hasc hlast htop).trans hlsn, ?_⟩
  rw [getLast_of_top (s := 256) (by rw [hlisted]; decide) (holds_iff.mp hread), hlsn']
  intro t ht hlt
  rw [hlisted, List.mem_range'_1] at ht
  omega

end PartDist
