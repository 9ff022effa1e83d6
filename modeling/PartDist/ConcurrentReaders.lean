import PartDist.Watched
import PartDist.CleanupVerify
import PartDist.Readers
import PartDist.Lib.SegmentLog

/-!
# Readers beside the worker

What `read_all_headers` and `verify_partition_wal` return when the worker appends to the
directory they read.

* `read_beside_server`: the rows lie between those of the directory when it was listed
  and those of the directory now.
* `verify_beside_demux`: while the worker appends to the last file only, verification
  raises no false alarm.
-/

namespace PartDist

open Bytes PartWALHeader ExchangeSort HighWater SegmentLog

/-! ## Reading all headers -/

/-- The order in which `readdir` lists the directory, what was there then, and how far the
scan is. -/
structure DirScan where
  readdir : Readdir
  listed : Dir
  reader : Reader

/-- The files a scan reads, in its order. -/
def Dir.log (rd : Readdir) (d : Dir) : Log := ⟨exchangeSort (fun t s => decide (t < s)) (d.listed rd), d.content⟩

/-- `read_all_headers` and `verify_partition_wal` up to their records. -/
def headerScanner : Scanner DirScan where
  start rd d := ⟨rd, d, Reader.start (d.log rd).segs⟩
  next d sc := { sc with reader := sc.reader.step headerSize d.content }

/-- The records a scan has read. -/
def DirScan.headers (sc : DirScan) : List PartWALHeader := sc.reader.got.map decode

/-- What `read_all_headers` returns for them. -/
def DirScan.rows (pid : Oid) (sc : DirScan) : List (UInt64 × XLogRecPtr) := (sc.headers.filter (validFor pid)).map row

/-- What `verify_partition_wal` returns for them.  It stops at the first record that is not
as expected; those behind it do not count. -/
def DirScan.verified (pid : Oid) (sc : DirScan) : Bool := (verifyFile pid sc.headers 1).isSome

section
variable {rd rd' : Readdir} {d d' : Dir} {s : Nat}

theorem log_inOrder (rd : Readdir) (d : Dir) : ((d.log rd).blocks headerSize).map decode = d.inOrder rd := by
  rw [Log.blocks, List.map_flatMap]
  rfl

theorem mem_log_segs (hfew : d.names.card ≤ maxScanFiles) : s ∈ (d.log rd).segs ↔ s ∈ d.names := by
  rw [Dir.log, mem_exchangeSort, Dir.mem_listed hfew]

theorem log_segs_sorted (rd : Readdir) (d : Dir) : (d.log rd).segs.Pairwise (· < ·) :=
  sorted_ascending (d.nodup_listed rd)

theorem log_segs_sublist (rd rd' : Readdir) (h : Dir.Grows d d') (hfew : d'.names.card ≤ maxScanFiles) :
    ((d.log rd).segs).Sublist (d'.log rd').segs := by
  have hsub : (d.log rd).segs.Subperm (d'.log rd').segs := by
    refine (log_segs_sorted rd d).nodup.subperm fun s hs => (mem_log_segs hfew).mpr (h.names s trivial ?_)
    exact Dir.mem_names_of_listed ((mem_exchangeSort _).mp hs)
  exact List.sublist_of_subperm_of_pairwise hsub (log_segs_sorted rd d) (log_segs_sorted rd' d')

end

/-- A scan of a directory that has only grown since it was listed. -/
structure Scanning (sc : DirScan) (d : Dir) : Prop where
  grows : Dir.Grows sc.listed d
  stands : Reader.At headerSize (sc.listed.log sc.readdir) (d.log sc.readdir) sc.reader

section
variable {sc : DirScan} {pid : Oid} {d d' : Dir}

theorem scanning_tracks : Tracks Dir.Grows headerScanner Scanning where
  refl d := Dir.Keeps.refl _ d
  towards _ _ s n h := h.towards s n
  start rd d := ⟨Dir.Keeps.refl _ d, Reader.at_start headerSize (d.log rd)⟩
  grow _ _ _ h hd := ⟨h.grows.trans hd, h.stands.grow headerSize_pos fun s => hd.content s trivial⟩
  next _ _ h := ⟨h.grows, h.stands.step headerSize_pos fun s => h.grows.content s trivial⟩

/-- A scan that is through has read no less than was there and no more than is there. -/
theorem Scanning.rows (h : Scanning sc d) (hdone : sc.reader.Done) (rd : Readdir)
    (hfew : d.names.card ≤ maxScanFiles) :
    (readAllHeaders sc.readdir pid sc.listed).Sublist (sc.rows pid) ∧
      (sc.rows pid).Sublist (readAllHeaders rd pid d) := by
  obtain ⟨hlow, hup⟩ := h.stands.sublist hdone (log_segs_sublist sc.readdir sc.readdir h.grows hfew)
  have hlow := hlow.map decode
  have hup := hup.map decode
  rw [log_inOrder] at hlow hup
  rw [readAllHeaders_inOrder, readAllHeaders_inOrder, inOrder_readdir rd sc.readdir hfew]
  exact ⟨(hlow.filter _).map row, (hup.filter _).map row⟩

end

/-- **Reading beside the worker.** In every order of the server's steps, of the system calls
they make on a partition directory and of those of a scan of it, while no cleanup of the
partition runs: a scan that is through returns no fewer rows than were there when it listed
the directory, no more than are there now, and nothing out of order. -/
theorem read_beside_server (segsz : WalSegSize) (pid : Oid) (s : Server) (ls : List (Watched.Label Label))
    (rd : Readdir) (hls : ∀ p keepPtr rd unlinkOk, .cleanup p keepPtr rd unlinkOk ∈ roundsOf ls → p ≠ pid)
    {w : Watched Server DirScan}
    (hw : w = watchedRun (serverStep segsz) (fun s => s.demux.parwal pid) headerScanner s ls)
    {sc : DirScan} (hsc : sc ∈ w.scan) (hdone : sc.reader.Done) (hfew : w.seen.names.card ≤ maxScanFiles) :
    (readAllHeaders sc.readdir pid sc.listed).Sublist (sc.rows pid) ∧
      (sc.rows pid).Sublist (readAllHeaders rd pid w.seen) := by
  have hinv := Watched.inv_run (serverStep segsz) (fun s => s.demux.parwal pid) scanning_tracks s ls fun done l hpre =>
    keeps_spared hls hpre
  rw [← hw] at hinv
  exact (hinv.scans sc hsc).rows hdone rd hfew

/-- Record 1 is on disk, record 2 is read from pg_wal and written in two pieces while a scan
is between the two; it reads both. -/
def halfWritten : List (Watched.Label Label) :=
  [.round (.demux (.record (.succeeding .ascending) true)), .list .ascending, .read, .read, .call 1 20, .call 1 12,
    .read, .read]

def halfWrittenRun : Watched Server DirScan :=
  watchedRun (serverStep .default) (fun s => s.demux.parwal 7) headerScanner secondRecord halfWritten

theorem halfWrittenRun_scan : halfWrittenRun.scan.isSome := by decide +kernel

theorem read_beside_server_half :
    ((halfWrittenRun.scan.get halfWrittenRun_scan).rows 7).length = 2 ∧
      ((halfWrittenRun.scan.get halfWrittenRun_scan).rows 7).Sublist
        (readAllHeaders Readdir.ascending 7 halfWrittenRun.seen) := by
  refine ⟨by decide +kernel, ?_⟩
  refine (read_beside_server .default 7 secondRecord halfWritten .ascending ?_ rfl (Option.get_mem halfWrittenRun_scan)
    (by decide +kernel) (by decide +kernel)).2
  simp [halfWritten, roundsOf, Watched.Label.round?]

/-! ## Appending to the last file -/

/-- One file, none lies above it, has got more bytes or is there now. -/
def Dir.AppendsTop (d d' : Dir) : Prop :=
  ∃ s, (∀ t ∈ d.names, t ≤ s) ∧ d'.names ⊆ insert s d.names ∧ ∀ t, t ≠ s → d'.content t = d.content t

/-- New files come behind the others; those with one behind them are closed. -/
structure Dir.GrowsTop (d d' : Dir) : Prop where
  grows : Dir.Grows d d'
  above : ∀ s ∈ d'.names, s ∉ d.names → ∀ t ∈ d.names, t < s
  closed : ∀ s ∈ d.names, ∀ t ∈ d.names, s < t → d'.content s = d.content s

section
variable {rd rd' : Readdir} {pid : Oid} {d d' d'' : Dir} {s n : Nat}

theorem Dir.GrowsTop.refl (d : Dir) : Dir.GrowsTop d d :=
  ⟨Dir.Keeps.refl _ d, fun _ hs hn => absurd hs hn, fun _ _ _ _ _ => rfl⟩

theorem Dir.GrowsTop.trans (h : Dir.GrowsTop d d') (h' : Dir.GrowsTop d' d'') : Dir.GrowsTop d d'' := by
  refine ⟨h.grows.trans h'.grows, fun s hs hn t ht => ?_, fun s hs t ht hlt => ?_⟩
  · by_cases hs' : s ∈ d'.names
    · exact h.above s hs' hn t ht
    · exact h'.above s hs hs' t (h.grows.names t trivial ht)
  · rw [h'.closed s (h.grows.names s trivial hs) t (h.grows.names t trivial ht) hlt, h.closed s hs t ht hlt]

theorem Dir.AppendsTop.growsTop (h : Dir.AppendsTop d d') (hg : Dir.Grows d d') : Dir.GrowsTop d d' := by
  obtain ⟨s, htop, hnames, hsame⟩ := h
  refine ⟨hg, fun u hu hn t ht => ?_, fun t ht u hu hlt => ?_⟩
  · have hus : u = s := (Finset.mem_insert.mp (hnames hu)).resolve_right hn
    have := htop t ht
    have hne : t ≠ u := fun he => hn (he ▸ ht)
    omega
  · have := htop u hu
    exact hsame t (by omega)

/-- A call of a round that appends to the last file. -/
theorem Dir.AppendsTop.towards (h : Dir.AppendsTop d d') (s n : Nat) :
    Dir.AppendsTop d (d.towards d' s n) ∧ Dir.AppendsTop (d.towards d' s n) d' := by
  obtain ⟨u, htop, hnames, hsame⟩ := h
  unfold Dir.towards
  split
  · next hs =>
    by_cases hsu : s = u
    · subst hsu
      refine ⟨⟨s, htop, by simp, fun t ht => ?_⟩, s, fun t ht => ?_, ?_, fun t ht => ?_⟩
      · rw [Dir.content_append, Dir.content_openCreate, if_neg ht, List.append_nil]
      · simp only [Dir.names_append, Dir.names_openCreate, Finset.mem_insert] at ht
        rcases ht with rfl | rfl | ht
        · exact Nat.le_refl _
        · exact Nat.le_refl _
        · exact htop t ht
      · rw [Dir.names_append, Dir.names_openCreate, Finset.insert_idem, Finset.insert_idem]
        exact hnames
      · rw [Dir.content_append, Dir.content_openCreate, if_neg ht, List.append_nil]
        exact hsame t ht
    · -- nothing is missing in another file
      have hmem : s ∈ d.names := (Finset.mem_insert.mp (hnames hs)).resolve_left hsu
      have hopen : d.openCreate s = d := if_pos (Dir.mem_names.mp hmem)
      rw [hsame s hsu, List.drop_length, List.take_nil, hopen, Dir.append_nil_of_mem hmem]
      exact ⟨⟨u, htop, Finset.subset_insert _ _, fun _ _ => rfl⟩, u, htop, hnames, hsame⟩
  · exact ⟨⟨u, htop, Finset.subset_insert _ _, fun _ _ => rfl⟩, u, htop, hnames, hsame⟩

/-- The files of a directory come first among those it has later, -/
theorem log_segs_first (rd : Readdir) (h : Dir.GrowsTop d d') (hfew : d'.names.card ≤ maxScanFiles) :
    (d.log rd).segs <+: (d'.log rd).segs := by
  have hfew₀ : d.names.card ≤ maxScanFiles :=
    (Finset.card_le_card fun t ht => h.grows.names t trivial ht).trans hfew
  let new := (d'.log rd).segs.filter fun s => s ∉ d.names
  have hsorted : ((d.log rd).segs ++ new).Pairwise (· < ·) := by
    refine List.pairwise_append.mpr ⟨log_segs_sorted rd d, (log_segs_sorted rd d').filter _, fun t ht s hs => ?_⟩
    obtain ⟨hs, hn⟩ := List.mem_filter.mp hs
    exact h.above s ((mem_log_segs hfew).mp hs) (by simpa using hn) t ((mem_log_segs hfew₀).mp ht)
  have hperm : ((d.log rd).segs ++ new).Perm (d'.log rd).segs := by
    refine (List.perm_ext_iff_of_nodup hsorted.nodup (log_segs_sorted rd d').nodup).mpr fun s => ?_
    rw [List.mem_append, List.mem_filter, mem_log_segs hfew₀, mem_log_segs hfew]
    constructor
    · rintro (hs | ⟨hs, -⟩)
      · exact h.grows.names s trivial hs
      · exact hs
    · intro hs
      by_cases hs₀ : s ∈ d.names
      · exact Or.inl hs₀
      · exact Or.inr ⟨hs, by simpa using hs₀⟩
  have heq := hperm.eq_of_pairwise (fun a b _ _ h h' => absurd (Nat.lt_trans h h') (Nat.lt_irrefl _)) hsorted
    (log_segs_sorted rd d')
  exact ⟨new, heq⟩

/-- and those before its last one are closed. -/
theorem log_closed (rd : Readdir) (h : Dir.GrowsTop d d') (hs : s ∈ (d.log rd).segs.dropLast) :
    d'.content s = d.content s := by
  have hnames : ∀ t ∈ (d.log rd).segs, t ∈ d.names := fun t ht =>
    Dir.mem_names_of_listed ((mem_exchangeSort _).mp ht)
  rcases List.eq_nil_or_concat (d.log rd).segs with hnil | ⟨init, last, hsegs⟩
  · rw [hnil] at hs
    exact absurd hs List.not_mem_nil
  · rw [List.concat_eq_append] at hsegs
    have hsorted := log_segs_sorted rd d
    rw [hsegs] at hsorted hnames hs
    rw [List.dropLast_concat] at hs
    have hlt := (List.pairwise_append.mp hsorted).2.2 s hs last List.mem_cons_self
    exact h.closed s (hnames s (List.mem_append_left _ hs)) last (hnames last (by simp)) hlt

/-- A scan that is through has read a first part of the records that are there, with all
that were there when it took the names. -/
theorem Scanning.inOrder_first {sc : DirScan} (h : Scanning sc d) (htop : Dir.GrowsTop sc.listed d)
    (hdone : sc.reader.Done) (rd : Readdir) (hfew : d.names.card ≤ maxScanFiles) :
    sc.listed.inOrder sc.readdir <+: sc.headers ∧ sc.headers <+: d.inOrder rd := by
  obtain ⟨hlow, hup⟩ := h.stands.first hdone (log_segs_first sc.readdir htop hfew) fun s hs =>
    log_closed sc.readdir htop hs
  rw [inOrder_readdir rd sc.readdir hfew, ← log_inOrder, ← log_inOrder]
  exact ⟨hlow.map decode, hup.map decode⟩

end

theorem Dir.appendsTop_refl (d : Dir) : Dir.AppendsTop d d :=
  ⟨d.names.sup id, fun _ ht => Finset.le_sup (f := id) ht, Finset.subset_insert _ _, fun _ _ => rfl⟩

/-- Rounds that append to the last file. -/
theorem scanningTop_tracks : Tracks (fun d d' => Dir.Grows d d' ∧ Dir.AppendsTop d d') headerScanner
    (fun sc d => Scanning sc d ∧ Dir.GrowsTop sc.listed d) where
  refl d := ⟨Dir.Keeps.refl _ d, Dir.appendsTop_refl d⟩
  towards _ _ s n h := ⟨⟨(h.1.towards s n).1, (h.2.towards s n).1⟩, (h.1.towards s n).2, (h.2.towards s n).2⟩
  start rd d := ⟨scanning_tracks.start rd d, Dir.GrowsTop.refl d⟩
  grow sc d d' h hd := ⟨scanning_tracks.grow sc d d' h.1 hd.1, h.2.trans (hd.2.growsTop hd.1)⟩
  next sc d h := ⟨scanning_tracks.next sc d h.1, h.2⟩

/-! ## Records in segment order -/

/-- Records whose segments never step back, none of them before a file of `base`. -/
def InSegmentOrder (segsz : WalSegSize) (base : Dir) (hs : List PartWALHeader) : Prop :=
  (hs.map (segnoOf segsz)).Pairwise (· ≤ ·) ∧ ∀ h ∈ hs, ∀ s ∈ base.names, s ≤ segnoOf segsz h

instance (segsz : WalSegSize) (base : Dir) (hs : List PartWALHeader) : Decidable (InSegmentOrder segsz base hs) :=
  inferInstanceAs (Decidable (_ ∧ _))

section
variable {segsz : WalSegSize} {pid : Oid} {base d d' : Dir} {acc new hs hs' : List PartWALHeader}

theorem InSegmentOrder.sublist (h : InSegmentOrder segsz base hs) (hsub : hs'.Sublist hs) :
    InSegmentOrder segsz base hs' :=
  ⟨h.1.sublist (hsub.map _), fun a ha => h.2 a (hsub.subset ha)⟩

/-- A round stores at most one record, in the last file. -/
theorem appendsTop_grown (h : Dir.Grown segsz base acc d) (h' : Dir.Grown segsz base (acc ++ new) d')
    (hone : new.length ≤ 1) (hseg : InSegmentOrder segsz base (acc ++ new)) :
    Dir.AppendsTop d d' := by
  match new, hone with
  | [], _ =>
    rw [List.append_nil] at h'
    rw [h.unique h']
    exact Dir.appendsTop_refl d'
  | [a], _ =>
    have hle := List.pairwise_append.mp (by simpa using hseg.1 :
      ((acc.map (segnoOf segsz)) ++ [segnoOf segsz a]).Pairwise (· ≤ ·))
    refine ⟨segnoOf segsz a, fun t ht => ?_, ?_, fun t ht => ?_⟩
    · rw [h.names, Finset.mem_union] at ht
      rcases ht with ht | ht
      · exact hseg.2 a (by simp) t ht
      · exact hle.2.2 t (List.mem_toFinset.mp ht) _ List.mem_cons_self
    · rw [h'.names, h.names, segnos_append, Finset.union_insert]
    · rw [h'.content, h.content, inSegment_append, inSegment_singleton, if_neg ht, List.append_nil]

theorem partHeaders_mono {es es' : List LoopEvent} (h : es' <+: es) (pid : Oid) :
    partHeaders pid (walOf es') <+: partHeaders pid (walOf es) :=
  ((h.filterMap _).filterMap _).filter _

theorem namedPartitions_mono {es es' : List LoopEvent} (h : es' <+: es) :
    namedPartitions (walOf es') ⊆ namedPartitions (walOf es) := by
  intro p hp
  rw [namedPartitions, List.mem_toFinset] at hp ⊢
  exact (((h.filterMap _).filterMap _).map _).subset hp

/-- What a worker that meets no I/O failure has made of the directory. -/
theorem grown_demux (segsz : WalSegSize) (pid : Oid) {parwal : Parwal} {es : List LoopEvent} (rd : Readdir)
    (hio : ∀ e ∈ es, e.Ok) (hinc : Increasing lsn (partHeaders pid (walOf es)))
    (hparts : (namedPartitions (walOf es)).card ≤ demuxMaxPartitions)
    (hfiles : (parwal pid).names.card ≤ maxScanFiles) :
    Dir.Grown segsz (parwal pid)
      (accepted lsn (getLastWrittenPartitionLSN rd pid (parwal pid)).toNat (partHeaders pid (walOf es)))
      ((demuxRun segsz (Demux.fresh parwal) es).parwal pid) := by
  have hrun := (clean_run_increasing segsz hio (scansFind_of_le hio hfiles rd) hinc).grown
  rw [← share_of_fresh _ hparts parwal pid] at hrun
  exact hrun

/-- One of its rounds. -/
theorem appendsTop_demux {parwal : Parwal} {es done : List LoopEvent} {e : LoopEvent}
    (hio : ∀ e ∈ es, e.Ok) (hinc : Increasing lsn (partHeaders pid (walOf es)))
    (hparts : (namedPartitions (walOf es)).card ≤ demuxMaxPartitions)
    (hfiles : (parwal pid).names.card ≤ maxScanFiles)
    (hseg : InSegmentOrder segsz (parwal pid) (partHeaders pid (walOf es))) (hpre : done ++ [e] <+: es) :
    Dir.AppendsTop ((demuxRun segsz (Demux.fresh parwal) done).parwal pid)
      ((demuxRun segsz (Demux.fresh parwal) (done ++ [e])).parwal pid) := by
  have grown : ∀ es', es' <+: es → _ := fun es' h =>
    grown_demux segsz pid Readdir.ascending (fun e' he' => hio e' (h.subset he'))
      (hinc.sublist (partHeaders_mono h pid).sublist)
      ((Finset.card_le_card (namedPartitions_mono h)).trans hparts) hfiles
  have hbefore := grown done ((List.prefix_append done [e]).trans hpre)
  have hafter := grown (done ++ [e]) hpre
  have hlen : (partHeaders pid (walOf [e])).length ≤ 1 := by
    cases e with
    | caughtUp io => exact Nat.zero_le 1
    | record r io =>
      rw [partHeaders_record]
      refine (List.length_filter_le _ _).trans ?_
      cases r.dataHeader <;> simp
  have hacc := (accepted_sublist lsn (getLastWrittenPartitionLSN Readdir.ascending pid (parwal pid)).toNat
    (partHeaders pid (walOf (done ++ [e])))).trans (partHeaders_mono hpre pid).sublist
  rw [partHeaders_snoc, accepted_append] at hafter hacc
  exact appendsTop_grown hbefore hafter (((accepted_sublist lsn _ _).length_le).trans hlen) (hseg.sublist hacc)

end

/-- **No false alarm.** While a worker that meets no I/O failure appends a partition's
records in order, of `partition_lsn` and of their segments, a scan beside it reads a first
part of the records, with all that were there when it listed the directory.  So if the
directory verifies now, the verification beside the worker succeeded. -/
theorem verify_beside_demux (segsz : WalSegSize) (parwal : Parwal) (pid : Oid)
    (ls : List (Watched.Label LoopEvent)) (rd : Readdir) (hio : ∀ e ∈ roundsOf ls, e.Ok)
    (hinc : Increasing lsn (partHeaders pid (walOf (roundsOf ls))))
    (hparts : (namedPartitions (walOf (roundsOf ls))).card ≤ demuxMaxPartitions)
    (hfiles : (parwal pid).names.card ≤ maxScanFiles)
    (hseg : InSegmentOrder segsz (parwal pid) (partHeaders pid (walOf (roundsOf ls))))
    {w : Watched Demux DirScan}
    (hw : w = watchedRun (demuxStep segsz) (fun dm => dm.parwal pid) headerScanner (Demux.fresh parwal) ls)
    {sc : DirScan} (hsc : sc ∈ w.scan) (hdone : sc.reader.Done) (hfew : w.seen.names.card ≤ maxScanFiles) :
    readAllHeaders sc.readdir pid sc.listed <+: sc.rows pid ∧
      sc.rows pid <+: readAllHeaders rd pid w.seen ∧
      (verifyPartitionWAL rd pid w.seen = true → sc.verified pid = true) := by
  have hinv := Watched.inv_run (demuxStep segsz) (fun dm => dm.parwal pid) scanningTop_tracks
    (Demux.fresh parwal) ls fun done e hpre => by
      have hround := appendsTop_demux hio hinc hparts hfiles hseg hpre
      rw [demuxRun, demuxRun, List.foldl_append] at hround
      exact ⟨keeps_demuxStep (Dir.Keeps.refl _ _) segsz e, hround⟩
  rw [← hw] at hinv
  obtain ⟨hscan, htop⟩ := hinv.scans sc hsc
  obtain ⟨hlow, hup⟩ := hscan.inOrder_first htop hdone rd hfew
  refine ⟨?_, ?_, fun hverify => ?_⟩
  · rw [readAllHeaders_inOrder]
    exact (hlow.filter _).map row
  · rw [readAllHeaders_inOrder]
    exact (hup.filter _).map row
  · -- what is behind the part it read does not count
    rw [verify_inOrder] at hverify
    obtain ⟨new, hnew⟩ := hup
    rw [← hnew] at hverify
    exact (passes_append.mp hverify).1

/-- Verification beside the same two writes. -/
def halfVerified : List (Watched.Label LoopEvent) :=
  [.round (.record (insertedRecord (buildHeader 7 1 0 2)) (.succeeding .ascending)), .list .ascending, .read, .read,
    .call 1 20, .read, .call 1 12]

def halfVerifiedRun : Watched Demux DirScan :=
  watchedRun (demuxStep .default) (fun dm => dm.parwal 7) headerScanner
    (Demux.fresh fun _ => Dir.empty.append 1 (buildHeader 7 1 0 1).encode) halfVerified

theorem halfVerifiedRun_scan : halfVerifiedRun.scan.isSome := by decide +kernel

theorem verify_beside_demux_half :
    ((halfVerifiedRun.scan.get halfVerifiedRun_scan).rows 7).length = 1 ∧
      (halfVerifiedRun.scan.get halfVerifiedRun_scan).verified 7 = true := by
  refine ⟨by decide +kernel, ?_⟩
  refine (verify_beside_demux .default (fun _ => Dir.empty.append 1 (buildHeader 7 1 0 1).encode) 7 halfVerified
    .ascending ?_ (by unfold Increasing; decide +kernel) (by decide +kernel) (by decide +kernel) (by decide +kernel) rfl
    (Option.get_mem halfVerifiedRun_scan) (by decide +kernel) (by decide +kernel)).2.2 (by decide +kernel)
  simp [halfVerified, roundsOf, Watched.Label.round?, LoopEvent.Ok, RecordIO.ok_succeeding]

end PartDist
