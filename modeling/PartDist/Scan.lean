import PartDist.Directory
import PartDist.Lib.ExchangeSort
import Mathlib.Data.Finset.Max

/-!
# Directory scanners

`getLastWrittenPartitionLSN` (partition_wal_writer.c) finds the last
`partition_lsn` on disk for redo, LSN allocation and the Demux; `readAllHeaders`
(demux_worker.c) returns every record.  Both take the first 256 names `readdir`
lists, sort them with an exchange sort and read the files in that order.

The first listed file, from the highest segment down, that holds a record with a
nonzero `partition_lsn` decides (`getLast_of_top`).
-/

namespace PartDist

open Bytes PartWALHeader ExchangeSort

/-! ## Algorithm -/

/-- `lseek` to `off` and one `read` of a header; a short read gives nothing. -/
def readAt (f : Bytes) (off : Nat) : Option PartWALHeader :=
  if ((f.drop off).take headerSize).length = headerSize then
    some (decode ((f.drop off).take headerSize))
  else none

/-- Where the scan looks for the last record of a file of `sz` bytes: one record
before the end, or at the torn tail when there is one. -/
def lastRecordOffset (sz : Nat) : Nat :=
  sz - if sz % headerSize = 0 then headerSize else sz % headerSize

def lastRecordLsn (pid : Oid) (f : Bytes) : UInt64 :=
  match readAt f (lastRecordOffset f.length) with
  | some h => if h.validFor pid then h.partitionLsn else 0
  | none => 0

/-- The fallback: the highest `partition_lsn` of the valid records of a file. -/
def scanHighestLsn (pid : Oid) (f : Bytes) : UInt64 :=
  (readHeaders f).foldl
    (fun maxLsn h => if h.validFor pid && decide (maxLsn < h.partitionLsn) then h.partitionLsn else maxLsn) 0

/-- One round of the scan's loop over files. -/
def fileLsn (pid : Oid) (f : Bytes) : UInt64 :=
  if f.length < headerSize then 0
  else if lastRecordLsn pid f = 0 then scanHighestLsn pid f
  else lastRecordLsn pid f

/-- The names in descending order; the loop goes on while `max_lsn == 0`, also
past a file it cannot open. -/
def getLastWrittenPartitionLSN (sc : ScanIO) (pid : Oid) (d : Dir) : UInt64 :=
  (exchangeSort (fun t s => decide (s < t)) (d.listed sc.readdir)).foldl
    (fun maxLsn s =>
      if maxLsn = 0 then if sc.opens s then fileLsn pid (d.content s) else 0 else maxLsn) 0

/-- The row `read_all_headers` returns for a record. -/
def PartWALHeader.row (h : PartWALHeader) : UInt64 × XLogRecPtr := (h.partitionLsn, h.origNodeLsn)

/-- The rows of `read_all_headers`: the valid records, files in ascending order. -/
def readAllHeaders (sc : ScanIO) (pid : Oid) (d : Dir) : List (UInt64 × XLogRecPtr) :=
  (exchangeSort (fun t s => decide (t < s)) (d.listed sc.readdir)).flatMap fun s =>
    if sc.opens s then ((d.headers s).filter (validFor pid)).map row else []

/-! ## One file -/

theorem fileLsn_nil (pid : Oid) : fileLsn pid [] = 0 := rfl

/-- The record the scan reads at the end of a file is the last one in it. -/
theorem lastRecord_eq {f : Bytes} {h : PartWALHeader}
    (hr : readAt f (lastRecordOffset f.length) = some h) :
    ∃ hs, readHeaders f = hs ++ [h] := by
  by_cases hmod : f.length % headerSize = 0
  · rw [lastRecordOffset, if_pos hmod] at hr
    unfold readAt at hr
    split at hr
    · next hlen =>
      have hle : headerSize ≤ f.length := by
        simp only [List.length_take, List.length_drop, headerSize] at hlen ⊢
        omega
      have hdvd : headerSize ∣ (f.take (f.length - headerSize)).length := by
        rw [List.length_take, Nat.min_eq_left (Nat.sub_le _ _)]
        exact Nat.dvd_sub (Nat.dvd_of_mod_eq_zero hmod) (Nat.dvd_refl _)
      have htail : (f.drop (f.length - headerSize)).take headerSize = f.drop (f.length - headerSize) :=
        List.take_of_length_le (by rw [List.length_drop]; omega)
      rw [htail] at hr hlen
      obtain rfl := Option.some.inj hr
      refine ⟨readHeaders (f.take (f.length - headerSize)), ?_⟩
      rw [← encode_decode hlen, decode_encode, ← readHeaders_append_encode hdvd, encode_decode hlen,
        List.take_append_drop]
    · cases hr
  · -- at a torn tail the read is short
    rw [lastRecordOffset, if_neg hmod, readAt, if_neg] at hr
    · cases hr
    · simp only [List.length_take, List.length_drop, headerSize] at hmod ⊢
      omega

theorem lastRecord_mem {f : Bytes} {h : PartWALHeader}
    (hr : readAt f (lastRecordOffset f.length) = some h) : h ∈ readHeaders f := by
  obtain ⟨hs, hsplit⟩ := lastRecord_eq hr
  rw [hsplit]
  exact List.mem_append_right hs List.mem_cons_self

theorem scanHighest_foldl (pid : Oid) (hs : List PartWALHeader) (m : UInt64) :
    (∀ h ∈ hs, h.validFor pid → h.partitionLsn ≤ hs.foldl (fun maxLsn h =>
        if h.validFor pid && decide (maxLsn < h.partitionLsn) then h.partitionLsn else maxLsn) m) ∧
      m ≤ hs.foldl (fun maxLsn h =>
        if h.validFor pid && decide (maxLsn < h.partitionLsn) then h.partitionLsn else maxLsn) m ∧
      (hs.foldl (fun maxLsn h =>
        if h.validFor pid && decide (maxLsn < h.partitionLsn) then h.partitionLsn else maxLsn) m = m ∨
        ∃ h ∈ hs, h.validFor pid ∧ hs.foldl (fun maxLsn h =>
          if h.validFor pid && decide (maxLsn < h.partitionLsn) then h.partitionLsn else maxLsn) m =
            h.partitionLsn) := by
  induction hs generalizing m with
  | nil => exact ⟨(fun h hh => nomatch hh), UInt64.le_refl m, Or.inl rfl⟩
  | cons a as ih =>
    simp only [List.foldl_cons]
    split
    · next hc =>
      simp only [Bool.and_eq_true, decide_eq_true_eq] at hc
      obtain ⟨hall, hge, hwit⟩ := ih a.partitionLsn
      refine ⟨fun h hh hv => ?_, UInt64.le_trans (UInt64.le_of_lt hc.2) hge, Or.inr ?_⟩
      · rcases List.mem_cons.mp hh with rfl | hh
        · exact hge
        · exact hall h hh hv
      · rcases hwit with hwit | ⟨h, hh, hv, he⟩
        · exact ⟨a, List.mem_cons_self, hc.1, hwit⟩
        · exact ⟨h, List.mem_cons_of_mem a hh, hv, he⟩
    · next hc =>
      simp only [Bool.and_eq_true, decide_eq_true_eq, not_and, UInt64.not_lt] at hc
      obtain ⟨hall, hge, hwit⟩ := ih m
      refine ⟨fun h hh hv => ?_, hge, ?_⟩
      · rcases List.mem_cons.mp hh with rfl | hh
        · exact UInt64.le_trans (hc hv) hge
        · exact hall h hh hv
      · rcases hwit with hwit | ⟨h, hh, hv, he⟩
        · exact Or.inl hwit
        · exact Or.inr ⟨h, List.mem_cons_of_mem a hh, hv, he⟩

theorem le_scanHighestLsn {pid : Oid} {f : Bytes} {h : PartWALHeader} (hh : h ∈ readHeaders f)
    (hv : h.validFor pid) : h.partitionLsn ≤ scanHighestLsn pid f :=
  (scanHighest_foldl pid (readHeaders f) 0).1 h hh hv

theorem scanHighestLsn_mem {pid : Oid} {f : Bytes} (h0 : scanHighestLsn pid f ≠ 0) :
    ∃ h ∈ readHeaders f, h.validFor pid ∧ scanHighestLsn pid f = h.partitionLsn := by
  rcases (scanHighest_foldl pid (readHeaders f) 0).2.2 with h | h
  · exact absurd h h0
  · exact h

/-- What a file contributes is the `partition_lsn` of one of its valid records. -/
theorem fileLsn_mem {pid : Oid} {f : Bytes} (h0 : fileLsn pid f ≠ 0) :
    ∃ h ∈ readHeaders f, h.validFor pid ∧ fileLsn pid f = h.partitionLsn := by
  unfold fileLsn at h0 ⊢
  split at h0
  · exact absurd rfl h0
  · next hlen =>
    rw [if_neg hlen]
    split at h0
    · next hlast => rw [if_pos hlast]; exact scanHighestLsn_mem h0
    · next hlast =>
      rw [if_neg hlast]
      unfold lastRecordLsn at hlast ⊢
      cases hr : readAt f (lastRecordOffset f.length) with
      | none => rw [hr] at hlast; exact absurd rfl hlast
      | some h =>
        rw [hr] at hlast
        by_cases hv : h.validFor pid
        · exact ⟨h, lastRecord_mem hr, hv, by simp [hv]⟩
        · simp [hv] at hlast

/-- A file contributes nothing exactly when no valid record of it has a
nonzero `partition_lsn`. -/
theorem fileLsn_eq_zero_iff {pid : Oid} {f : Bytes} :
    fileLsn pid f = 0 ↔ ∀ h ∈ readHeaders f, h.validFor pid → h.partitionLsn = 0 := by
  constructor
  · intro h0 h hh hv
    unfold fileLsn at h0
    split at h0
    · next hlen =>
      rw [readHeaders, blocks_short hlen] at hh
      cases hh
    · split at h0
      · have hle := le_scanHighestLsn hh hv
        rw [h0] at hle
        exact UInt64.le_antisymm hle UInt64.zero_le
      · next hlast => exact absurd h0 hlast
  · intro hall
    by_contra h0
    obtain ⟨h, hh, hv, he⟩ := fileLsn_mem h0
    exact h0 (he.trans (hall h hh hv))

/-- A valid record at the end of a file of whole records decides for the file. -/
theorem fileLsn_append_encode {pid : Oid} {f : Bytes} (hf : headerSize ∣ f.length)
    {h : PartWALHeader} (hv : h.validFor pid) (h0 : h.partitionLsn ≠ 0) :
    fileLsn pid (f ++ h.encode) = h.partitionLsn := by
  have hlen : (f ++ h.encode).length = f.length + headerSize := by simp
  have hmod : (f ++ h.encode).length % headerSize = 0 := by
    rw [hlen, Nat.add_mod_right]; exact Nat.mod_eq_zero_of_dvd hf
  have hoff : lastRecordOffset (f ++ h.encode).length = f.length := by
    rw [lastRecordOffset, if_pos hmod, hlen, Nat.add_sub_cancel]
  have hread : readAt (f ++ h.encode) f.length = some h := by
    have htake : h.encode.take headerSize = h.encode :=
      List.take_of_length_le (Nat.le_of_eq (length_encode h))
    rw [readAt, List.drop_left, htake, if_pos (length_encode h), decode_encode]
  have hlast : lastRecordLsn pid (f ++ h.encode) = h.partitionLsn := by
    rw [lastRecordLsn, hoff, hread]; simp [hv]
  rw [fileLsn, if_neg (by rw [hlen]; omega), hlast, if_neg h0]

/-! ## The whole directory -/

theorem foldl_of_ne_zero {α : Type} (f : α → UInt64) (l : List α) {m : UInt64} (hm : m ≠ 0) :
    l.foldl (fun maxLsn s => if maxLsn = 0 then f s else maxLsn) m = m := by
  induction l with
  | nil => rfl
  | cons s l ih => rw [List.foldl_cons, if_neg hm]; exact ih

theorem foldl_of_top (f : Nat → UInt64) {l : List Nat}
    (hl : l.Pairwise fun s t => t ≤ s) {s : Nat} (hs : s ∈ l) (h0 : f s ≠ 0)
    (htop : ∀ t ∈ l, s < t → f t = 0) :
    l.foldl (fun maxLsn s => if maxLsn = 0 then f s else maxLsn) 0 = f s := by
  induction l with
  | nil => cases hs
  | cons t l ih =>
    obtain ⟨hle, hl⟩ := List.pairwise_cons.mp hl
    rw [List.foldl_cons, if_pos rfl]
    by_cases hts : t = s
    · subst hts; exact foldl_of_ne_zero f l h0
    · have hs : s ∈ l := by
        rcases List.mem_cons.mp hs with h | h
        · exact absurd h.symm hts
        · exact h
      have hlt : s < t := Nat.lt_of_le_of_ne (hle s hs) fun h => hts h.symm
      rw [htop t List.mem_cons_self hlt]
      exact ih hl hs fun u hu => htop u (List.mem_cons_of_mem t hu)

theorem foldl_eq_zero (f : Nat → UInt64) {l : List Nat} (h : ∀ s ∈ l, f s = 0) :
    l.foldl (fun maxLsn s => if maxLsn = 0 then f s else maxLsn) 0 = 0 := by
  induction l with
  | nil => rfl
  | cons s l ih =>
    rw [List.foldl_cons, if_pos rfl, h s List.mem_cons_self]
    exact ih fun t ht => h t (List.mem_cons_of_mem s ht)

section
variable {rd : Readdir} {pid : Oid} {d : Dir}

theorem sorted_descending (l : List Nat) :
    (exchangeSort (fun t s => decide (s < t)) l).Pairwise fun s t => t ≤ s := by
  have h := exchangeSort_sorted (fun t s : Nat => decide (s < t))
    (fun a b h => by simp only [decide_eq_true_eq, decide_eq_false_iff_not] at *; omega)
    (fun a b c h h' => by simp only [decide_eq_false_iff_not] at *; omega) l
  exact h.imp fun hst => by simpa using hst

theorem sorted_ascending {l : List Nat} (hl : l.Nodup) :
    (exchangeSort (fun t s => decide (t < s)) l).Pairwise (· < ·) := by
  have h := exchangeSort_sorted (fun t s : Nat => decide (t < s))
    (fun a b h => by simp only [decide_eq_true_eq, decide_eq_false_iff_not] at *; omega)
    (fun a b c h h' => by simp only [decide_eq_false_iff_not] at *; omega) l
  have hn : (exchangeSort (fun t s => decide (t < s)) l).Nodup := (exchangeSort_perm _ l).nodup_iff.mpr hl
  refine (h.and hn).imp ?_
  rintro a b ⟨hab, hne⟩
  simp only [decide_eq_false_iff_not] at hab
  omega

/-- The highest listed file that contributes and can be opened decides. -/
theorem scan_of_top (sc : ScanIO) {s : Nat} (hs : s ∈ d.listed sc.readdir) (ho : sc.opens s = true)
    (h0 : fileLsn pid (d.content s) ≠ 0)
    (htop : ∀ t ∈ d.listed sc.readdir, s < t → sc.opens t = true → fileLsn pid (d.content t) = 0) :
    getLastWrittenPartitionLSN sc pid d = fileLsn pid (d.content s) := by
  have hopen := foldl_of_top (fun s => if sc.opens s then fileLsn pid (d.content s) else 0)
    (sorted_descending _) ((mem_exchangeSort _).mpr hs) (by rwa [if_pos ho]) fun t ht hlt => by
      split
      · next hot => exact htop t ((mem_exchangeSort _).mp ht) hlt hot
      · rfl
  rw [getLastWrittenPartitionLSN, hopen, if_pos ho]

theorem getLast_of_top {s : Nat} (hs : s ∈ d.listed rd)
    (h0 : fileLsn pid (d.content s) ≠ 0)
    (htop : ∀ t ∈ d.listed rd, s < t → fileLsn pid (d.content t) = 0) :
    getLastWrittenPartitionLSN rd pid d = fileLsn pid (d.content s) :=
  scan_of_top rd hs rfl h0 fun t ht hlt _ => htop t ht hlt

theorem getLast_eq_zero (h : ∀ s ∈ d.listed rd, fileLsn pid (d.content s) = 0) :
    getLastWrittenPartitionLSN rd pid d = 0 :=
  foldl_eq_zero (fun s => fileLsn pid (d.content s)) fun s hs => h s ((mem_exchangeSort _).mp hs)

theorem exists_top (f : Nat → UInt64) (l : List Nat) :
    (∀ s ∈ l, f s = 0) ∨ ∃ s ∈ l, f s ≠ 0 ∧ ∀ t ∈ l, s < t → f t = 0 := by
  by_cases hnone : ∀ s ∈ l, f s = 0
  · exact Or.inl hnone
  · obtain ⟨t, hnone⟩ := not_forall.mp hnone
    obtain ⟨ht, h0⟩ := Classical.not_imp.mp hnone
    have hne : (l.toFinset.filter fun s => f s ≠ 0).Nonempty :=
      ⟨t, Finset.mem_filter.mpr ⟨List.mem_toFinset.mpr ht, h0⟩⟩
    obtain ⟨s, hs, htop⟩ := Finset.exists_max_image _ id hne
    obtain ⟨hs, h0⟩ := Finset.mem_filter.mp hs
    refine Or.inr ⟨s, List.mem_toFinset.mp hs, h0, fun u hu hlt => ?_⟩
    by_contra hu0
    exact absurd (htop u (Finset.mem_filter.mpr ⟨List.mem_toFinset.mpr hu, hu0⟩)) (Nat.not_le_of_lt hlt)

/-- Either no listed file contributes and the scan gives 0, or the highest one
that does decides. -/
theorem getLast_cases (rd : Readdir) (pid : Oid) (d : Dir) :
    ((∀ s ∈ d.listed rd, fileLsn pid (d.content s) = 0) ∧ getLastWrittenPartitionLSN rd pid d = 0) ∨
      ∃ s ∈ d.listed rd, fileLsn pid (d.content s) ≠ 0 ∧
        (∀ t ∈ d.listed rd, s < t → fileLsn pid (d.content t) = 0) ∧
        getLastWrittenPartitionLSN rd pid d = fileLsn pid (d.content s) := by
  rcases exists_top (fun s => fileLsn pid (d.content s)) (d.listed rd) with h | ⟨s, hs, h0, htop⟩
  · exact Or.inl ⟨h, getLast_eq_zero h⟩
  · exact Or.inr ⟨s, hs, h0, htop, getLast_of_top hs h0 htop⟩

/-- With at most 256 files the order of `readdir` does not matter. -/
theorem getLast_readdir (rd rd' : Readdir) (pid : Oid) {d : Dir} (h : d.names.card ≤ maxScanFiles) :
    getLastWrittenPartitionLSN rd pid d = getLastWrittenPartitionLSN rd' pid d := by
  rcases getLast_cases rd pid d with ⟨hall, hz⟩ | ⟨s, hs, h0, htop, he⟩
  · rw [hz, getLast_eq_zero fun s hs => hall s ((Dir.mem_listed h).mpr ((Dir.mem_listed h).mp hs))]
  · rw [he, getLast_of_top ((Dir.mem_listed h).mpr ((Dir.mem_listed h).mp hs)) h0 fun t ht =>
      htop t ((Dir.mem_listed h).mpr ((Dir.mem_listed h).mp ht))]

/-- The scan finds nothing in an empty directory. -/
theorem getLast_empty (sc : ScanIO) (h : d.names = ∅) : getLastWrittenPartitionLSN sc pid d = 0 := by
  apply foldl_eq_zero fun s => if sc.opens s then fileLsn pid (d.content s) else 0
  intro s hs
  have := Dir.mem_names_of_listed ((mem_exchangeSort _).mp hs)
  rw [h] at this
  exact absurd this (Finset.notMem_empty s)

end

/-! ## Directories the Demux leaves -/

/-- Every file holds whole records, at least one, all of the partition and with a
nonzero `partition_lsn`. -/
structure Dir.Solid (pid : Oid) (d : Dir) : Prop where
  whole : d.Whole
  nonempty : ∀ s ∈ d.names, d.headers s ≠ []
  valid : ∀ s, ∀ h ∈ d.headers s, h.validFor pid ∧ h.partitionLsn ≠ 0

theorem solid_empty (pid : Oid) : Dir.empty.Solid pid :=
  ⟨fun _ => ⟨0, rfl⟩, (fun s hs => absurd hs (Finset.notMem_empty s)), (fun _ _ hh => nomatch hh)⟩

theorem Dir.Solid.fileLsn_ne_zero {pid : Oid} {d : Dir} (hd : d.Solid pid) {s : Nat}
    (hs : s ∈ d.names) : fileLsn pid (d.content s) ≠ 0 := by
  intro h0
  obtain ⟨h, hh⟩ := List.exists_mem_of_ne_nil _ (hd.nonempty s hs)
  obtain ⟨hv, hne⟩ := hd.valid s h hh
  exact hne (fileLsn_eq_zero_iff.mp h0 h hh hv)

/-- The scan finds a record as soon as there is a file, whichever 256 it reads. -/
theorem Dir.Solid.scan_ne_zero {pid : Oid} {d : Dir} (hd : d.Solid pid) (hne : d.names.Nonempty)
    (rd : Readdir) : getLastWrittenPartitionLSN rd pid d ≠ 0 := by
  rcases getLast_cases rd pid d with ⟨hall, -⟩ | ⟨s, -, h0, -, he⟩
  · obtain ⟨s, hs⟩ := List.exists_mem_of_ne_nil _ (Dir.listed_ne_nil rd hne)
    exact absurd (hall s hs) (hd.fileLsn_ne_zero (Dir.mem_names_of_listed hs))
  · rw [he]
    exact h0

end PartDist
