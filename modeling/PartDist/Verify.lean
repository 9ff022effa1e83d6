import PartDist.DemuxOrdered
import PartDist.Lib.Buckets

/-!
# `verify_partition_wal`

`pg_partdist_verify_partition_wal` (partition_wal.c) reads a partition's segment files in
the order of their names and expects `partition_lsn` 1, 2, 3, ... in that order.  The
Demux puts each record into the file of its `orig_node_lsn`.

* `verify_true_iff`: of records with `partition_lsn` 1, 2, 3, ... in WAL order, all
  written by the Demux into an empty directory, it returns true exactly when whatever is
  in a file it reads comes after nothing in a file it does not read, and after nothing in
  a higher segment.
* `inFileOrder_iff_of_few`: with at most 256 files, when the segments never step back.
-/

namespace PartDist

open Bytes PartWALHeader HighWater ExchangeSort

/-! ## The function -/

/-- The records of one file, from `expected_lsn` on: the value it has after them; none at
the first one that is not in order. -/
def verifyFile (pid : Oid) : List PartWALHeader → UInt64 → Option UInt64
  | [], expectedLsn => some expectedLsn
  | h :: hs, expectedLsn =>
    if ¬ h.validFor pid then none
    else if h.partitionLsn ≠ expectedLsn then none
    else verifyFile pid hs (expectedLsn + 1)

/-- The files in ascending order; one that cannot be opened is passed over. -/
def verifyPartitionWAL (sc : ScanIO) (pid : Oid) (d : Dir) : Bool :=
  ((exchangeSort (fun t s => decide (t < s)) (d.listed sc.readdir)).foldl
    (fun expectedLsn s =>
      if sc.opens s then expectedLsn.bind (verifyFile pid (d.headers s)) else expectedLsn)
    (some 1)).isSome

/-! ## The condition -/

/-- The file of segment `s`, of those of `names`, is among the first 256 that `readdir`
lists and can be opened. -/
def ScanIO.Sees (sc : ScanIO) (names : Finset Nat) (s : Nat) : Prop :=
  s ∈ (sc.readdir.order names).take maxScanFiles ∧ sc.opens s = true

instance (sc : ScanIO) (names : Finset Nat) (s : Nat) : Decidable (sc.Sees names s) :=
  inferInstanceAs (Decidable (_ ∧ _))

/-- What lies in a file that is seen comes after nothing in a file that is not, and
after nothing in a higher segment. -/
def InFileOrder (segsz : WalSegSize) (sc : ScanIO) (hs : List PartWALHeader) : Prop :=
  hs.Pairwise fun a b => sc.Sees (segnos segsz hs) (segnoOf segsz b) →
    sc.Sees (segnos segsz hs) (segnoOf segsz a) ∧ segnoOf segsz a ≤ segnoOf segsz b

instance (segsz : WalSegSize) (sc : ScanIO) (hs : List PartWALHeader) : Decidable (InFileOrder segsz sc hs) :=
  inferInstanceAs (Decidable (hs.Pairwise _))

/-- `partition_lsn` 1, 2, 3, ... -/
def Numbered (hs : List PartWALHeader) : Prop := hs.map lsn = List.range' 1 hs.length

instance (hs : List PartWALHeader) : Decidable (Numbered hs) := inferInstanceAs (Decidable (_ = _))

/-! ## What it reads -/

section
variable {segsz : WalSegSize} {sc : ScanIO} {pid : Oid} {hs : List PartWALHeader} {d : Dir}

theorem verifyFile_append (l l' : List PartWALHeader) (e : UInt64) :
    verifyFile pid (l ++ l') e = (verifyFile pid l e).bind (verifyFile pid l') := by
  induction l generalizing e with
  | nil => rfl
  | cons h l ih =>
    simp only [List.cons_append, verifyFile]
    split
    · rfl
    · split
      · rfl
      · exact ih _

/-- Valid records pass when they are numbered from `n` on. -/
theorem verifyFile_isSome {n : Nat} (hv : ∀ h ∈ hs, h.validFor pid) (hn : n + hs.length ≤ 2 ^ 64) :
    (verifyFile pid hs (UInt64.ofNat n)).isSome = true ↔ hs.map lsn = List.range' n hs.length := by
  induction hs generalizing n with
  | nil => simp [verifyFile]
  | cons h hs ih =>
    rw [List.length_cons] at hn
    have hnext : UInt64.ofNat n + 1 = UInt64.ofNat (n + 1) := (UInt64.ofNat_add n 1).symm
    have hlsn : h.partitionLsn = UInt64.ofNat n ↔ h.lsn = n := by
      rw [← UInt64.toNat_inj, UInt64.toNat_ofNat_of_lt' (by simp only [UInt64.size]; omega)]
      rfl
    have htail := ih (n := n + 1) (fun a ha => hv a (List.mem_cons_of_mem h ha)) (by omega)
    rw [verifyFile, if_neg (not_not_intro (hv h List.mem_cons_self)), hnext, List.map_cons, List.length_cons,
      List.range'_succ, List.cons.injEq, ← hlsn, ← htail]
    split
    · next hne => simp [hne]
    · next heq => simp [not_not.mp heq]

/-- The loop over files is one pass over all their records. -/
theorem verifyPartitionWAL_eq (sc : ScanIO) (pid : Oid) (d : Dir) :
    verifyPartitionWAL sc pid d =
      (verifyFile pid (((exchangeSort (fun t s => decide (t < s)) (d.listed sc.readdir)).filter
        sc.opens).flatMap d.headers) 1).isSome := by
  have key : ∀ (S : List Nat) (e : Option UInt64),
      S.foldl (fun e s => if sc.opens s then e.bind (verifyFile pid (d.headers s)) else e) e =
        e.bind (verifyFile pid ((S.filter sc.opens).flatMap d.headers)) := by
    intro S
    induction S with
    | nil => intro e; cases e <;> rfl
    | cons s S ih =>
      intro e
      rw [List.foldl_cons, ih]
      by_cases ho : sc.opens s = true
      · rw [if_pos ho, List.filter_cons_of_pos ho, List.flatMap_cons, Option.bind_assoc]
        exact congrArg e.bind (funext fun x => (verifyFile_append _ _ x).symm)
      · rw [if_neg ho, List.filter_cons_of_neg ho]
  rw [verifyPartitionWAL, key]
  rfl

/-- Records numbered from 1 on are told apart by their LSN. -/
theorem Numbered.prefix_iff (hn : Numbered hs) {q : List PartWALHeader} (hsub : ∀ a ∈ q, a ∈ hs)
    (hlen : q.length ≤ hs.length) : q <+: hs ↔ q.map lsn = List.range' 1 q.length := by
  have hnodup : (hs.map lsn).Nodup := hn ▸ List.nodup_range'
  have htake : (hs.take q.length).map lsn = List.range' 1 q.length := by
    rw [List.map_take, hn, List.take_range'_of_length_ge hlen]
  rw [List.prefix_iff_eq_take]
  constructor
  · intro h
    rw [← htake, ← h]
  · intro h
    rw [← htake] at h
    refine List.ext_getElem (by rw [List.length_take]; omega) fun i hi hi' => ?_
    have hget : (q.map lsn)[i]? = ((hs.take q.length).map lsn)[i]? := by rw [h]
    rw [List.getElem?_map, List.getElem?_map, List.getElem?_eq_getElem hi, List.getElem?_eq_getElem hi'] at hget
    have hget := Option.some.inj hget
    exact List.inj_on_of_nodup_map hnodup (hsub _ (List.getElem_mem hi))
      (List.mem_of_mem_take (List.getElem_mem hi')) hget

/-- There are less than 2^64. -/
theorem Numbered.length_lt (hn : Numbered hs) : hs.length < 2 ^ 64 := by
  rcases List.eq_nil_or_concat hs with rfl | ⟨l, a, rfl⟩
  · exact Nat.two_pow_pos 64
  · rw [List.concat_eq_append] at *
    have hmem : (l ++ [a]).length ∈ (l ++ [a]).map lsn := by
      rw [hn, List.mem_range'_1]
      simp
    obtain ⟨b, -, hb⟩ := List.mem_map.mp hmem
    rw [← hb]
    exact b.partitionLsn.toNat_lt

theorem Numbered.increasing (hn : Numbered hs) : Increasing lsn hs := by
  have hrange : (hs.map lsn).Pairwise (· < ·) := hn ▸ List.pairwise_lt_range'
  exact List.pairwise_map.mp hrange

/-- On a directory that holds the records `hs`, each in the file of its segment. -/
theorem verify_grown {base : Dir} (hempty : base.names = ∅) (hg : Dir.Grown segsz base hs d)
    (hv : ∀ h ∈ hs, h.validFor pid) (hn : Numbered hs) :
    verifyPartitionWAL sc pid d = true ↔ InFileOrder segsz sc hs := by
  have hnames : d.names = segnos segsz hs := by rw [hg.names, hempty, Finset.empty_union]
  have hwhole : base.Whole := fun s => by
    rw [Dir.content_of_notMem (by simp [hempty])]
    exact ⟨0, rfl⟩
  have hheaders : ∀ s, d.headers s = inSegment segsz s hs := fun s => by
    rw [hg.headers hwhole, Dir.headers_of_notMem (by simp [hempty])]
    rfl
  generalize hS : (exchangeSort (fun t s => decide (t < s)) (d.listed sc.readdir)).filter sc.opens = S
  have hsorted : S.Pairwise (· < ·) := by
    rw [← hS]
    exact (sorted_ascending (d.nodup_listed sc.readdir)).filter _
  have hsees : ∀ s, s ∈ S ↔ sc.Sees (segnos segsz hs) s := fun s => by
    rw [← hS, List.mem_filter, mem_exchangeSort, ScanIO.Sees, ← hnames]
    rfl
  have hread : S.flatMap d.headers = Buckets.gather (segnoOf segsz) S hs :=
    List.flatMap_congr fun s _ => hheaders s
  have hsub : ∀ a ∈ Buckets.gather (segnoOf segsz) S hs, a ∈ hs := fun a ha => (Buckets.mem_gather.mp ha).1
  have hlen : (Buckets.gather (segnoOf segsz) S hs).length ≤ hs.length := by
    rw [(Buckets.gather_perm (hsorted.imp Nat.ne_of_lt) hs).length_eq]
    exact List.length_filter_le _ _
  have hpass := verifyFile_isSome (n := 1) (fun a ha => hv a (hsub a ha))
    (by have := hn.length_lt; omega)
  rw [verifyPartitionWAL_eq, hS, hread]
  refine hpass.trans ((hn.prefix_iff hsub hlen).symm.trans ((Buckets.gather_prefix_iff hsorted).trans ?_))
  simp only [hsees]
  rfl

/-- With at most 256 files that can be opened: the segments never step back. -/
theorem inFileOrder_iff_of_few (hfew : (segnos segsz hs).card ≤ maxScanFiles) (hsc : sc.Ok) :
    InFileOrder segsz sc hs ↔ hs.Pairwise fun a b => segnoOf segsz a ≤ segnoOf segsz b := by
  have hsees : ∀ a ∈ hs, sc.Sees (segnos segsz hs) (segnoOf segsz a) := fun a ha => by
    refine ⟨?_, hsc _⟩
    have hmem : segnoOf segsz a ∈ segnos segsz hs := List.mem_toFinset.mpr (List.mem_map_of_mem ha)
    rw [List.take_of_length_le]
    · exact (sc.readdir.mem_order _ _).mpr hmem
    · rw [← List.toFinset_card_of_nodup (sc.readdir.nodup _)]
      refine (Finset.card_le_card fun s hs => ?_).trans hfew
      exact (sc.readdir.mem_order _ _).mp (List.mem_toFinset.mp hs)
  constructor
  · exact fun h => h.imp_of_mem fun _ hb hab => (hab (hsees _ hb)).2
  · exact fun h => h.imp_of_mem fun ha _ hab _ => ⟨hsees _ ha, hab⟩

end

/-- **False alarms.** Of records numbered 1, 2, 3, ... in WAL order, all written by the
Demux without failure into an empty directory, `verify_partition_wal` returns true if and
only if they are in the order of the files it reads. -/
theorem verify_true_iff (segsz : WalSegSize) (pid : Oid) (parwal : Parwal) (es : List LoopEvent)
    (hempty : (parwal pid).names = ∅) (hn : Numbered (partHeaders pid (walOf es))) (hio : ∀ e ∈ es, e.Ok)
    (hall : ((demuxRun segsz (Demux.fresh parwal) es).parwal pid).records =
      (partHeaders pid (walOf es) : Multiset PartWALHeader)) (sc : ScanIO) :
    verifyPartitionWAL sc pid ((demuxRun segsz (Demux.fresh parwal) es).parwal pid) = true ↔
      InFileOrder segsz sc (partHeaders pid (walOf es)) := by
  have hzero : ∀ s, (parwal pid).content s = [] := fun s => Dir.content_of_notMem (by simp [hempty])
  have hwhole : (parwal pid).Whole := fun s => ⟨0, by rw [hzero]; rfl⟩
  have hsolid : (parwal pid).Solid pid := by
    have hnone : ∀ s, s ∉ (parwal pid).names := fun s => by simp [hempty]
    exact ⟨hwhole, fun s hs => absurd hs (hnone s), fun s h hh => absurd (Dir.mem_names_of_headers hh) (hnone s)⟩
  obtain ⟨done, hpre, hshare, -⟩ := share_or_shutOut segsz (fits_fresh parwal) pid es
  have hfind : ScansFind pid (parwal pid) 0 done := fun _ _ _ =>
    ⟨getLast_empty _ hempty, getLast_empty _ hempty⟩
  have hclean := clean_run_solid segsz hsolid (fun e he => hio e (hpre.subset he)) hfind
  rw [share_fresh] at hshare
  rw [← hshare] at hclean
  have hgrown : Dir.Grown segsz (parwal pid) (accepted lsn 0 (partHeaders pid (walOf done)))
      ((demuxRun segsz (Demux.fresh parwal) es).parwal pid) := hclean.grown
  -- what it accepted is all of them, in the same order
  have hperm : (accepted lsn 0 (partHeaders pid (walOf done))).Perm (partHeaders pid (walOf es)) := by
    have hrecords := hgrown.records hwhole
    rw [hall, Dir.records, hempty, Finset.sum_empty, zero_add, Multiset.coe_eq_coe] at hrecords
    exact hrecords.symm
  have hsame : accepted lsn 0 (partHeaders pid (walOf done)) = partHeaders pid (walOf es) :=
    hperm.eq_of_pairwise (fun a b _ _ h h' => absurd (Nat.lt_trans h h') (Nat.lt_irrefl _))
      (accepted_increasing lsn 0 _).2 hn.increasing
  rw [hsame] at hgrown
  exact verify_grown hempty hgrown (fun h hh => partHeaders_of_mem hh) hn

/-- Two records of partition 7, with `partition_lsn` 1 and 2, captured at the given
positions. -/
def twoCaptured (orig orig' : XLogRecPtr) : List LoopEvent :=
  [.record (insertedRecord (buildHeader 7 1 orig 1)) (.succeeding .ascending),
    .record (insertedRecord (buildHeader 7 1 orig' 2)) (.succeeding .ascending)]

theorem ok_twoCaptured {orig orig' : XLogRecPtr} {e : LoopEvent} (he : e ∈ twoCaptured orig orig') : e.Ok := by
  simp only [twoCaptured, List.mem_cons, List.not_mem_nil, or_false] at he
  rcases he with rfl | rfl
  · exact RecordIO.ok_succeeding _
  · exact RecordIO.ok_succeeding _

/-- In segments 1 and 2. -/
theorem verify_true_iff_forward :
    verifyPartitionWAL Readdir.ascending 7
      ((demuxRun .default (Demux.fresh fun _ => Dir.empty) (twoCaptured (2 ^ 24) (2 ^ 25))).parwal 7) = true :=
  (verify_true_iff .default 7 (fun _ => Dir.empty) (twoCaptured (2 ^ 24) (2 ^ 25)) rfl (by decide +kernel)
    (fun _ he => ok_twoCaptured he) (by decide +kernel) Readdir.ascending).mpr (by decide +kernel)

/-- In segments 2 and 1: the first call captured its position after the second one did. -/
theorem stepped_back_alarms :
    let es := twoCaptured (2 ^ 25) (2 ^ 24)
    let d := (demuxRun .default (Demux.fresh fun _ => Dir.empty) es).parwal 7
    Numbered (partHeaders 7 (walOf es)) ∧ (∀ e ∈ es, e.Ok) ∧
      d.records = (partHeaders 7 (walOf es) : Multiset PartWALHeader) ∧
      verifyPartitionWAL Readdir.ascending 7 d = false := by
  refine ⟨?_, fun _ he => ok_twoCaptured he, ?_, ?_⟩ <;> decide +kernel

end PartDist
