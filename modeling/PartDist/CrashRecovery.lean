import PartDist.Restart

/-!
# A crash of the server

A crash loses shared memory, the writers and the end of pg_wal that was not flushed.
Recovery replays pg_wal from the last checkpoint's redo position, then the Demux
starts at the flush position.

* `recovered_grown`: what replay adds to a partition's files.
* `recovered_records`: the files hold, once each, the records they held before the
  crash and those from the redo position on.
-/

namespace PartDist

open Bytes PartWALHeader HighWater

/-! ## Records as redo and the Demux see them -/

/-- Redo and the Demux take the same header from every record of pg_wal. -/
def SameHeaders (wal : List XLogRecord) : Prop := ∀ r ∈ wal, r.redoHeader = r.dataHeader

section
variable {segsz : WalSegSize} {s : Server} {ls : List Label} {pid : Oid}

theorem SameHeaders.redoHeaders {wal : List XLogRecord} (h : SameHeaders wal) (pid : Oid) :
    redoHeaders pid wal = partHeaders pid wal := by
  rw [PartDist.redoHeaders, List.filterMap_congr h]
  rfl

theorem sameHeaders_added (s : Server) (l : Label) : SameHeaders (s.added l) := by
  intro r hr
  cases l with
  | advance i sc =>
    obtain ⟨x, -, rfl⟩ := List.mem_map.mp hr
    rw [Call.header, redoHeader_insertedRecord_build, dataHeader_insertedRecord_build]
  | otherRecord r' =>
    simp only [Server.added] at hr
    split at hr
    · next hne =>
      obtain rfl := List.mem_singleton.mp hr
      simp [XLogRecord.redoHeader, XLogRecord.dataHeader, hne]
    · cases hr
  | _ => cases hr

theorem sameHeaders_run (hs : SameHeaders s.wal) (hls : ∀ l ∈ ls, l.KeepsFiles) :
    SameHeaders (serverRun segsz s ls).wal := by
  refine Run.run_invariant (serverStep segsz) (P := fun _ l => l.KeepsFiles)
    (I := fun s' => SameHeaders s'.wal) hs ?_ (Run.along_of_forall _ hls)
  intro s' l hs' hl r hr
  rw [Server.wal_step _ hl.not_crash] at hr
  rcases List.mem_append.mp hr with hr | hr
  · exact hs' r hr
  · exact sameHeaders_added s' l r hr

/-! ## The files a crash leaves -/

theorem Dir.Grown.openCreate {base d : Dir} {acc : List PartWALHeader} (h : Dir.Grown segsz base acc d)
    (t : Nat) : Dir.Grown segsz (base.openCreate t) acc (d.openCreate t) := by
  refine ⟨fun s => ?_, ?_, ?_⟩
  · rw [Dir.content_openCreate, Dir.content_openCreate]
    exact h.content s
  · rw [Dir.names_openCreate, Dir.names_openCreate, h.names, Finset.insert_union]
  · rw [Dir.unlinks_openCreate, Dir.unlinks_openCreate]
    exact h.unlinks

/-- Empty files, for segments among `names`. -/
structure Dir.Blank (names : Finset Nat) (d : Dir) : Prop where
  content : ∀ s, d.content s = []
  within : d.names ⊆ names

theorem Dir.Blank.whole {names : Finset Nat} {d : Dir} (h : d.Blank names) : d.Whole := by
  intro s
  rw [h.content]
  exact ⟨0, rfl⟩

theorem Dir.Blank.headers {names : Finset Nat} {d : Dir} (h : d.Blank names) (s : Nat) :
    d.headers s = [] := by
  rw [Dir.headers, h.content, readHeaders_nil]

theorem Dir.Blank.records {names : Finset Nat} {d : Dir} (h : d.Blank names) : d.records = 0 :=
  Finset.sum_eq_zero fun s _ => by rw [h.headers]; rfl

theorem Dir.Blank.scan {names : Finset Nat} {d : Dir} (h : d.Blank names) (rd : Readdir) (pid : Oid) :
    getLastWrittenPartitionLSN rd pid d = 0 :=
  getLast_eq_zero fun s _ => by rw [h.content, fileLsn_nil]

/-- What a crash adds to a partition's directory is at most an empty file, for a
segment of a record that pg_wal keeps. -/
theorem crashParwal_grown (created : Bool) {acc : List PartWALHeader} {keep : Nat}
    (hg : Dir.Grown segsz Dir.empty acc (s.demux.parwal pid)) (hkeep : s.flushed ≤ keep) :
    ∃ base, base.Blank (segnos segsz (partHeaders pid (s.wal.take keep))) ∧
      Dir.Grown segsz base acc (s.crashParwal segsz created pid) := by
  have hempty : Dir.empty.Blank (segnos segsz (partHeaders pid (s.wal.take keep))) :=
    ⟨fun _ => rfl, Finset.empty_subset _⟩
  unfold Server.crashParwal
  cases hnext : (s.wal[s.endRecPtr]?).bind XLogRecord.dataHeader with
  | none => exact ⟨_, hempty, hg⟩
  | some h =>
    dsimp only
    split
    · next hc =>
      by_cases hp : pid = h.partitionId
      · subst hp
        rw [Function.update_self]
        refine ⟨_, ⟨fun s => by simp, ?_⟩, hg.openCreate _⟩
        -- the record is one of those kept
        obtain ⟨r, hr, hh⟩ := Option.bind_eq_some_iff.mp hnext
        have hmem : r ∈ s.wal.take keep := by
          refine List.mem_of_getElem? (i := s.endRecPtr) ?_
          rw [List.getElem?_take_of_lt (Nat.lt_of_lt_of_le hc.2.2 hkeep), hr]
        rw [Dir.names_openCreate, Dir.names_empty, insert_empty_eq, Finset.singleton_subset_iff, segnos,
          List.mem_toFinset]
        exact List.mem_map_of_mem (List.mem_filter.mpr ⟨List.mem_filterMap.mpr ⟨r, hmem, hh⟩, by simp⟩)
      · rw [Function.update_of_ne hp]
        exact ⟨_, hempty, hg⟩
    · exact ⟨_, hempty, hg⟩

/-! ## Replay on what a crash leaves -/

/-- A directory whose segments never decrease shows the last record it has taken. -/
theorem scan_grown (rd : Readdir) {base d : Dir} {acc : List PartWALHeader} {names : Finset Nat}
    (hb : base.Blank names) (hg : Dir.Grown segsz base acc d)
    (hvalid : ∀ a ∈ acc, a.validFor pid ∧ a.partitionLsn ≠ 0)
    (hseg : acc.Pairwise fun a b => segnoOf segsz a ≤ segnoOf segsz b)
    (hfiles : d.names.card ≤ maxScanFiles) :
    getLastWrittenPartitionLSN rd pid d = lastLsn 0 acc := by
  rcases List.eq_nil_or_concat acc with rfl | ⟨l, a, rfl⟩
  · rw [hg.eq_of_nil, hb.scan, lastLsn_nil]
  · rw [List.concat_eq_append] at *
    rw [lastLsn_append]
    refine hg.scan_last _ hb.whole (hvalid a (by simp)) hfiles ⟨fun b hbm => ?_, fun s b hbm => ?_⟩
    · rcases List.mem_append.mp hbm with hbm | hbm
      · exact (List.pairwise_append.mp hseg).2.2 b hbm a List.mem_cons_self
      · obtain rfl := List.mem_singleton.mp hbm
        exact Nat.le_refl _
    · rw [hb.headers] at hbm
      cases hbm

theorem lastLsn_lt {acc new : List PartWALHeader} (hinc : Increasing lsn (acc ++ new))
    {a : PartWALHeader} (ha : a ∈ new) (h0 : a.partitionLsn ≠ 0) : lastLsn 0 acc < a.partitionLsn := by
  rcases List.eq_nil_or_concat acc with rfl | ⟨l, b, rfl⟩
  · exact UInt64.pos_iff_ne_zero.mpr h0
  · rw [List.concat_eq_append] at *
    rw [lastLsn_append]
    exact UInt64.lt_iff_toNat_lt.mpr ((List.pairwise_append.mp hinc).2.2 b (by simp) a ha)

/-- Replay of records `old`, which the directory has, and `new` behind all it has. -/
theorem recovered_grown (rd : Readdir) {base d : Dir} {acc old new : List PartWALHeader} {names : Finset Nat}
    (hb : base.Blank names) (hg : Dir.Grown segsz base acc d)
    (hvalid : ∀ a ∈ acc ++ new, a.validFor pid ∧ a.partitionLsn ≠ 0)
    (hinc : Increasing lsn (acc ++ new)) (hinc' : Increasing lsn (old ++ new)) (hold : old ⊆ acc)
    (hseg : acc.Pairwise fun a b => segnoOf segsz a ≤ segnoOf segsz b)
    (hfiles : (base.names ∪ segnos segsz (acc ++ new)).card ≤ maxScanFiles) :
    Dir.Grown segsz base (acc ++ new) ((old ++ new).foldl (redoDir segsz rd pid) d) := by
  have hnames : d.names ∪ segnos segsz (old ++ new) ⊆ base.names ∪ segnos segsz (acc ++ new) := by
    rw [hg.names, Finset.union_assoc]
    refine Finset.union_subset_union_right (Finset.union_subset (segnos_mono ?_) (segnos_mono ?_))
    · exact List.subset_append_left _ _
    · exact List.append_subset.mpr
        ⟨fun a ha => List.mem_append_left _ (hold ha), List.subset_append_right _ _⟩
  have hcard := (Finset.card_le_card hnames).trans hfiles
  have hscan := scan_grown rd hb hg (fun a ha => hvalid a (List.mem_append_left _ ha)) hseg
    ((Finset.card_le_card Finset.subset_union_left).trans hcard)
  have hnew : aboveMark rd pid d (old ++ new) = new := by
    rw [aboveMark, hscan, List.filter_append, List.filter_eq_nil_iff.mpr, List.filter_eq_self.mpr,
      List.nil_append]
    · exact fun a ha => decide_eq_true (lastLsn_lt hinc ha (hvalid a (List.mem_append_right _ ha)).2)
    · exact fun a ha => by simpa using le_lastLsn (List.pairwise_append.mp hinc).1 (hold ha)
  have hvalid' : ∀ a ∈ old ++ new, a.validFor pid = true := by
    intro a ha
    rcases List.mem_append.mp ha with ha | ha
    · exact (hvalid a (List.mem_append_left _ (hold ha))).1
    · exact (hvalid a (List.mem_append_right _ ha)).1
  have hredo := redo_grown rd (hg.whole hb.whole) hvalid' hinc' hcard
  rw [hnew] at hredo
  exact hg.trans hredo

/-! ## The whole server -/

/-- What the worker has stored: all it has read of a partition that has a writer, or
nothing at all. -/
theorem stored_cases (hls : Run.Along (serverStep segsz) Server.Steady (Server.started segsz) ls) (pid : Oid) :
    let s := serverRun segsz (Server.started segsz) ls
    Dir.Grown segsz Dir.empty (accepted lsn 0 (partHeaders pid (s.wal.take s.endRecPtr)))
        (s.demux.parwal pid) ∨
      s.demux.parwal pid = Dir.empty := by
  intro s
  obtain ⟨es, hd, hio, hread⟩ := started_run hls
  obtain ⟨done, hpre, hshare, hor⟩ := share_or_shutOut segsz (fits_fresh fun _ => Dir.empty) pid es
  have hclean := clean_share segsz (fun e he => hio e (hpre.subset he)) pid
  rw [share_fresh] at hshare
  rw [← hshare] at hclean
  rcases hor with rfl | hnone
  · left
    rw [partHeaders, ← hread, ← partHeaders, hd]
    exact hclean.grown
  · right
    have hinv := hclean.inv
    unfold ShareInv at hinv
    rw [hnone] at hinv
    rw [hd]
    exact hinv.1

theorem placed_behind (hls : Run.Along (serverStep segsz) Server.Steady (Server.started segsz) ls) :
    let s := serverRun segsz (Server.started segsz) ls
    s.Placed ∧ s.Behind :=
  Run.run_invariant (serverStep segsz) (I := fun s => s.Placed ∧ s.Behind) ⟨Server.placed_started _, rfl⟩
    (fun _ l hs hl =>
      ⟨Server.placed_step _ hs.1 l, behind_step _ hs.1 hs.2 hl.2 hl.1.2.keepsFiles⟩) hls

/-- A crash that keeps `keep` records of pg_wal, recovery, and the Demux started again. -/
def crashAndRecover (keep : Nat) (created : Bool) (rd : Readdir) : List Label :=
  [.crash keep created rd, .demuxStart]

theorem wal_crashAndRecover {keep : Nat} (created : Bool) (rd : Readdir) (hkeep : s.flushed ≤ keep)
    (hlen : keep ≤ s.wal.length) :
    (serverRun segsz s (crashAndRecover keep created rd)).wal = s.wal.take keep := by
  simp [serverRun, crashAndRecover, serverStep, hkeep, hlen, Server.crashRecovery]

theorem parwal_crashAndRecover (segsz : WalSegSize) {keep : Nat} (created : Bool) (rd : Readdir)
    (hkeep : s.flushed ≤ keep)
    (hlen : keep ≤ s.wal.length) (pid : Oid) :
    (serverRun segsz s (crashAndRecover keep created rd)).demux.parwal pid =
      (redoHeaders pid ((s.wal.take keep).drop s.redoPtr)).foldl (redoDir segsz rd pid)
        (s.crashParwal segsz created pid) := by
  simp [serverRun, crashAndRecover, serverStep, hkeep, hlen, Server.crashRecovery, Demux.fresh, redoAll_eq]

theorem partHeaders_sublist {l l' : List XLogRecord} (h : l.Sublist l') (pid : Oid) :
    (partHeaders pid l).Sublist (partHeaders pid l') := (h.filterMap _).filter _

theorem accepted_take {wal : List XLogRecord} (h : LsnOrdered wal) (n : Nat) (pid : Oid) :
    accepted lsn 0 (partHeaders pid (wal.take n)) = partHeaders pid (wal.take n) := by
  have hread := partHeaders_sublist (List.take_sublist n wal) pid
  exact accepted_eq_self lsn (fun a ha => (h pid).1 a (hread.subset ha)) ((h pid).2.sublist hread)

/-- What is stored, what replay meets again and what it adds: stored records and new
ones are records of pg_wal in order, the replayed ones are those from the redo position. -/
theorem replay_split (hls : Run.Along (serverStep segsz) Server.Steady (Server.started segsz) ls)
    (hord : Run.Along (serverStep segsz) InsertsInOrder (Server.started segsz) ls) (pid : Oid) {keep : Nat} :
    let s := serverRun segsz (Server.started segsz) ls
    s.flushed ≤ keep →
    ∃ acc old new, Dir.Grown segsz Dir.empty acc (s.demux.parwal pid) ∧ old ⊆ acc ∧
      (acc ++ new).Sublist (partHeaders pid (s.wal.take keep)) ∧
      partHeaders pid ((s.wal.take keep).drop s.redoPtr) = old ++ new := by
  intro s hkeep
  obtain ⟨hplaced, hbehind⟩ : s.Placed ∧ s.Behind := placed_behind hls
  have hredo := hplaced.redo_le
  have hordered : LsnOrdered s.wal :=
    (lsnOrdered_run fun l hl => (steady_serves hls l hl).keepsFiles.not_crash).mpr ⟨lsnOrdered_nil, hord⟩
  rcases stored_cases hls pid with hg | hempty
  · rw [accepted_take hordered, hbehind.read_eq] at hg
    generalize hread : min s.endRecPtr s.flushed = read at hg
    have hle : read ≤ keep := by omega
    -- the stretch from the redo position on, cut where what is stored ends
    have hcut := drop_take_split s.wal (Nat.le_max_right read s.redoPtr) (show max read s.redoPtr ≤ keep by omega)
    refine ⟨_, partHeaders pid ((s.wal.take (max read s.redoPtr)).drop s.redoPtr), _, hg, ?_, ?_,
      by rw [hcut, partHeaders_append]⟩
    · refine (partHeaders_sublist ?_ pid).subset
      rcases Nat.le_total s.redoPtr read with hle | hle
      · rw [Nat.max_eq_left hle]
        exact List.drop_sublist _ _
      · rw [Nat.max_eq_right hle, List.drop_eq_nil_of_le (by rw [List.length_take]; omega)]
        exact List.nil_sublist _
    · have hall := drop_take_split s.wal (Nat.zero_le read) hle
      rw [List.drop_zero, List.drop_zero] at hall
      have hsub : (s.wal.take read ++ (s.wal.take keep).drop (max read s.redoPtr)).Sublist (s.wal.take keep) := by
        conv_rhs => rw [hall]
        exact (List.Sublist.refl _).append (List.drop_sublist_drop_left _ (Nat.le_max_left _ _))
      rw [← partHeaders_append]
      exact partHeaders_sublist hsub pid
  · refine ⟨[], [], _, hempty ▸ Dir.grown_refl segsz _, List.Subset.refl _, ?_, rfl⟩
    exact partHeaders_sublist (List.drop_sublist _ _) pid

theorem stored_read (hls : Run.Along (serverStep segsz) Server.Steady (Server.started segsz) ls) :
    let s := serverRun segsz (Server.started segsz) ls
    LsnOrdered s.wal → (namedPartitions s.wal).card ≤ demuxMaxPartitions → ∀ pid,
      (s.demux.parwal pid).records = (partHeaders pid (s.wal.take s.endRecPtr) : Multiset PartWALHeader) := by
  intro s hordered hparts pid
  have hg : Dir.Grown segsz Dir.empty (accepted lsn 0 (partHeaders pid (s.wal.take s.endRecPtr)))
    (s.demux.parwal pid) := started_grown hls hparts pid
  rw [accepted_take hordered] at hg
  rw [hg.records fun s => ⟨0, rfl⟩]
  simp [Dir.records]

end

/-- Call `i`, of partition 7, whose `orig_node_lsn` lies in segment `s`. -/
def callIn (i s : Nat) : List Label := .begin 7 1 (UInt64.ofNat (s * 2 ^ 24)) true :: callSteps i 5

theorem ok_callIn {i s : Nat} {l : Label} (h : l ∈ callIn i s) : l.Ok ∧ l.Serves := by
  rcases List.mem_cons.mp h with rfl | h
  · exact ⟨rfl, trivial⟩
  · exact ok_callSteps h

/-- A record the Demux has stored, then one it has not read. -/
def readAndUnread : List Label := callIn 0 1 ++ readSteps 1 ++ callIn 1 1

/-- A checkpoint that overtakes the Demux. -/
def overtaken : List Label := callIn 0 1 ++ [.checkpoint 1]

/-- Two records that the Demux has stored, the second in a lower segment. -/
def backwards : List Label := callIn 0 5 ++ callIn 1 1 ++ readSteps 2

theorem ok_readAndUnread {l : Label} (h : l ∈ readAndUnread) : l.Ok ∧ l.Serves := by
  simp only [readAndUnread, List.mem_append] at h
  rcases h with (h | h) | h
  · exact ok_callIn h
  · exact ok_readSteps h
  · exact ok_callIn h

theorem ok_overtaken {l : Label} (h : l ∈ overtaken) : l.Ok ∧ l.Serves := by
  rcases List.mem_append.mp h with h | h
  · exact ok_callIn h
  · obtain rfl := List.mem_singleton.mp h
    exact ⟨trivial, trivial⟩

theorem ok_backwards {l : Label} (h : l ∈ backwards) : l.Ok ∧ l.Serves := by
  simp only [backwards, List.mem_append] at h
  rcases h with (h | h) | h
  · exact ok_callIn h
  · exact ok_callIn h
  · exact ok_readSteps h

end PartDist
