import PartDist.CrashRecovery

/-!
# Any number of crashes and restarts

The run of a server is cut by stops, restarts and crashes, each at any point.

`recoveries_lose_nothing`: the files hold every record before the reader exactly once, over
any number of these, as long as no DATA record is passed over, a worker starts where the last
one ended, every record read lies above its writer's watermark, and a crash finds the
checkpoint's redo position among the records the worker has read and the records in segment
order.
-/

namespace PartDist

open Bytes PartWALHeader HighWater

/-- The records of a partition that a replay can take up: in `partition_lsn` order from 1
on, never in a segment before the last one's, in at most 256 segments. -/
def Replayable (segsz : WalSegSize) (hs : List PartWALHeader) : Prop :=
  ((∀ a ∈ hs, 0 < a.lsn) ∧ hs.Pairwise fun a b => a.lsn < b.lsn) ∧
    (hs.Pairwise fun a b => segnoOf segsz a ≤ segnoOf segsz b) ∧ (segnos segsz hs).card ≤ maxScanFiles

instance (segsz : WalSegSize) (hs : List PartWALHeader) : Decidable (Replayable segsz hs) :=
  inferInstanceAs (Decidable ((_ ∧ _) ∧ _ ∧ _))

/-- A crash finds the redo position at or before the reader, and the records that pg_wal
keeps in order. -/
def CrashCovered (segsz : WalSegSize) (s : Server) : Label → Prop
  | .crash keep _ _ => s.redoPtr ≤ s.endRecPtr ∧
      ∀ pid ∈ namedPartitions s.wal, Replayable segsz (partHeaders pid (s.wal.take keep))
  | _ => True

instance (segsz : WalSegSize) (s : Server) : (l : Label) → Decidable (CrashCovered segsz s l)
  -- over the partitions named, not over all of `Oid`
  | .crash _ _ _ => @instDecidableAnd _ _ inferInstance Finset.decidableDforallFinset
  | .begin .. | .advance .. | .otherRecord _ | .walFlush _ | .checkpoint _ | .demuxStart | .demux _
  | .demuxStop .. | .flushBegin | .flushPoll _ | .restart | .cleanup .. => isTrue trivial

/-- Steps that remove no file. -/
def Label.Collects : Label → Prop
  | .cleanup .. => True
  | _ => False

theorem Label.KeepsFiles.not_collects {l : Label} (h : l.KeepsFiles) : ¬ l.Collects := by
  cases l with
  | cleanup => exact fun _ => h
  | _ => exact id

/-- A step without failure or cleanup after which nothing is missing. -/
def Recovers (segsz : WalSegSize) (s : Server) (l : Label) : Prop :=
  (l.Ok ∧ ¬ l.Collects) ∧ s.SkipsNothing l ∧ StartsWhereItEnded s l ∧ (∀ e ∈ s.event l, Admits s.demux e) ∧
    CrashCovered segsz s l

section
variable {segsz : WalSegSize} {s : Server} {l : Label} {pid : Oid}

/-- The directory holds the records `acc`, behind at most empty files of segments that
pg_wal has on disk. -/
def Server.Holds (segsz : WalSegSize) (s : Server) (pid : Oid) (acc : List PartWALHeader) (d : Dir) : Prop :=
  ∃ base, base.Blank (segnos segsz (partHeaders pid (s.wal.take s.flushed))) ∧ Dir.Grown segsz base acc d

/-- The invariant: between workers the files hold what has been read; a running worker
started on such files. -/
structure Server.Durable (segsz : WalSegSize) (s : Server) : Prop where
  placed : s.Placed
  behind : s.Behind
  same : SameHeaders s.wal
  stopped : s.running = false → ∀ pid, s.Holds segsz pid (partHeaders pid (s.wal.take s.endRecPtr)) (s.demux.parwal pid)
  running : s.running = true → ∃ base es,
    s.Follows segsz (fun dm e => e.Ok ∧ Admits dm e) base es ∧
      ∀ pid, s.Holds segsz pid (partHeaders pid (s.wal.take s.startPos)) (base pid)

theorem Server.Durable.holds (hs : s.Durable segsz) (pid : Oid) :
    s.Holds segsz pid (partHeaders pid (s.wal.take s.endRecPtr)) (s.demux.parwal pid) := by
  cases hrun : s.running with
  | false => exact hs.stopped hrun pid
  | true =>
    obtain ⟨base, es, hf, hbase⟩ := hs.running hrun
    obtain ⟨blank, hblank, hstart⟩ := hbase pid
    obtain ⟨-, mark, hclean⟩ := (lossless_share hf.along).1 pid
    have hgrown := hstart.trans hclean.grown
    have hread : partHeaders pid (walOf es) = partHeaders pid ((s.wal.take s.endRecPtr).drop s.startPos) := by
      rw [partHeaders, hf.read, partHeaders]
    have hsplit := drop_take_split s.wal (Nat.zero_le s.startPos) hs.placed.start_le
    rw [List.drop_zero, List.drop_zero] at hsplit
    rw [hread, ← partHeaders_append, ← hsplit, ← hf.demux] at hgrown
    exact ⟨blank, hblank, hgrown⟩

theorem durable_boot (segsz : WalSegSize) : (Server.boot [] fun _ => Dir.empty).Durable segsz :=
  ⟨Server.placed_boot _ _, rfl, fun _ hr => absurd hr List.not_mem_nil,
    fun _ _ => ⟨_, ⟨fun _ => rfl, Finset.empty_subset _⟩, Dir.grown_refl segsz _⟩, fun h => by cases h⟩

/-- More of pg_wal gets on disk. -/
theorem Server.Holds.mono {s' : Server} {acc : List PartWALHeader} {d : Dir} (h : s.Holds segsz pid acc d)
    (hwal : s.wal.take s.flushed <+: s'.wal.take s'.flushed) : s'.Holds segsz pid acc d := by
  obtain ⟨base, hblank, hg⟩ := h
  exact ⟨base, ⟨hblank.content, hblank.within.trans (segnos_mono (partHeaders_sublist hwal.sublist pid).subset)⟩, hg⟩

/-! ## A crash -/

/-- What a crash leaves of a directory: what was there, or an empty file more, for a record
that pg_wal keeps. -/
theorem crashParwal_cases (segsz : WalSegSize) (created : Bool) (s : Server) (pid : Oid) :
    s.crashParwal segsz created pid = s.demux.parwal pid ∨
      ∃ t ∈ segnos segsz (partHeaders pid (s.wal.take s.flushed)),
        s.crashParwal segsz created pid = (s.demux.parwal pid).openCreate t := by
  unfold Server.crashParwal
  cases hnext : (s.wal[s.endRecPtr]?).bind XLogRecord.dataHeader with
  | none => exact Or.inl rfl
  | some h =>
    dsimp only
    split
    · next hc =>
      by_cases hp : pid = h.partitionId
      · subst hp
        refine Or.inr ⟨segnoOf segsz h, ?_, Function.update_self ..⟩
        obtain ⟨r, hr, hh⟩ := Option.bind_eq_some_iff.mp hnext
        have hmem : r ∈ s.wal.take s.flushed := by
          refine List.mem_of_getElem? (i := s.endRecPtr) ?_
          rw [List.getElem?_take_of_lt hc.2.2, hr]
        rw [segnos, List.mem_toFinset]
        exact List.mem_map_of_mem (List.mem_filter.mpr ⟨List.mem_filterMap.mpr ⟨r, hmem, hh⟩, by simp⟩)
      · exact Or.inl (Function.update_of_ne hp _ _)
    · exact Or.inl rfl

theorem crashParwal_holds (created : Bool) {acc : List PartWALHeader} (h : s.Holds segsz pid acc (s.demux.parwal pid)) :
    s.Holds segsz pid acc (s.crashParwal segsz created pid) := by
  obtain ⟨base, hblank, hg⟩ := h
  rcases crashParwal_cases segsz created s pid with heq | ⟨t, ht, heq⟩
  · rw [heq]
    exact ⟨base, hblank, hg⟩
  · rw [heq]
    refine ⟨base.openCreate t, ⟨fun u => ?_, ?_⟩, hg.openCreate t⟩
    · rw [Dir.content_openCreate, hblank.content]
    · rw [Dir.names_openCreate]
      exact Finset.insert_subset ht hblank.within

/-- A partition of which pg_wal has no record. -/
theorem partHeaders_of_not_named {wal : List XLogRecord} (h : pid ∉ namedPartitions wal) : partHeaders pid wal = [] := by
  refine List.filter_eq_nil_iff.mpr fun a ha => ?_
  rw [decide_eq_true_eq]
  rintro rfl
  exact h (List.mem_toFinset.mpr (List.mem_map_of_mem ha))

/-- Replay adds what the files lack of the records that pg_wal keeps. -/
theorem crashRecovery_holds (hs : s.Durable segsz) {keep : Nat} (created : Bool) (rd : Readdir)
    (hflushed : s.flushed ≤ keep) (hredo : s.redoPtr ≤ s.endRecPtr)
    (hordered : Replayable segsz (partHeaders pid (s.wal.take keep))) :
    (s.crashRecovery segsz keep created rd).Holds segsz pid (partHeaders pid (s.wal.take keep))
      ((s.crashRecovery segsz keep created rd).demux.parwal pid) := by
  obtain ⟨base, hblank, hg⟩ := crashParwal_holds created (hs.holds pid)
  rw [hs.behind.read_eq] at hg
  generalize hread : min s.endRecPtr s.flushed = read at hg
  have hredo : s.redoPtr ≤ read := hread ▸ Nat.le_min.mpr ⟨hredo, hs.placed.redo_le⟩
  have hle : read ≤ keep := by omega
  -- the records read, those of them that are replayed, and those that are new
  have hall := drop_take_split s.wal (Nat.zero_le read) hle
  have hreplay := drop_take_split s.wal hredo hle
  rw [List.drop_zero, List.drop_zero] at hall
  have hold : partHeaders pid ((s.wal.take read).drop s.redoPtr) ⊆ partHeaders pid (s.wal.take read) :=
    (partHeaders_sublist (List.drop_sublist _ _) pid).subset
  have hacc := partHeaders_append pid (s.wal.take read) ((s.wal.take keep).drop read)
  rw [← hall] at hacc
  have hsub : (partHeaders pid ((s.wal.take read).drop s.redoPtr) ++
      partHeaders pid ((s.wal.take keep).drop read)).Sublist (partHeaders pid (s.wal.take keep)) := by
    rw [← partHeaders_append, ← hreplay]
    exact partHeaders_sublist (List.drop_sublist _ _) pid
  have hflush : segnos segsz (partHeaders pid (s.wal.take s.flushed)) ⊆ segnos segsz (partHeaders pid (s.wal.take keep)) :=
    segnos_mono (partHeaders_sublist (List.take_sublist_take_left hflushed) pid).subset
  obtain ⟨⟨hpos, hinc⟩, hseg, hcard⟩ := hordered
  have hvalid : ∀ a ∈ partHeaders pid (s.wal.take keep), a.validFor pid ∧ a.partitionLsn ≠ 0 := fun a ha =>
    ⟨partHeaders_of_mem ha, fun h0 => absurd (hpos a ha) (by rw [lsn, h0]; exact Nat.lt_irrefl 0)⟩
  rw [hacc] at hvalid hinc hseg
  have hfiles : (base.names ∪ segnos segsz (partHeaders pid (s.wal.take keep))).card ≤ maxScanFiles :=
    (Finset.card_le_card (Finset.union_subset (hblank.within.trans hflush) (Finset.Subset.refl _))).trans hcard
  have hgrown := recovered_grown rd hblank hg hvalid hinc (by rw [← hacc] at hinc; exact hinc.sublist hsub) hold
    (hseg.sublist (List.sublist_append_left _ _)) (by rw [← hacc]; exact hfiles)
  have hredone : redoHeaders pid ((s.wal.take keep).drop s.redoPtr) =
      partHeaders pid ((s.wal.take read).drop s.redoPtr) ++ partHeaders pid ((s.wal.take keep).drop read) := by
    rw [SameHeaders.redoHeaders (fun r hr => hs.same r (List.mem_of_mem_take (List.mem_of_mem_drop hr))), hreplay,
      partHeaders_append]
  rw [← hacc, ← hredone, ← redoAll_eq] at hgrown
  refine ⟨base, ⟨hblank.content, ?_⟩, hgrown⟩
  show base.names ⊆ segnos segsz (partHeaders pid ((s.wal.take keep).take keep))
  rw [List.take_take, Nat.min_self]
  exact hblank.within.trans hflush

/-! ## A step -/

/-- Steps other than crashes keep what pg_wal has on disk. -/
theorem flushed_step (segsz : WalSegSize) (hs : s.Placed) (hcrash : ∀ keep created rd, l ≠ .crash keep created rd) :
    s.wal.take s.flushed <+: (serverStep segsz s l).wal.take (serverStep segsz s l).flushed := by
  have hle : s.flushed ≤ (serverStep segsz s l).flushed := by
    have hbackend : l.Backend → s.flushed ≤ (serverStep segsz s l).flushed := fun hl =>
      (s.sameWorker_backend segsz hl).flushed
    cases l with
    | demuxStart => simp only [serverStep]; split <;> exact Nat.le_refl _
    | demux round => simp only [serverStep]; split; rw [Server.demuxIteration_eq]; exact Nat.le_refl _
    | demuxStop io destroyIo saveOk =>
      simp only [serverStep]
      split
      · rw [Server.demuxShutdown, Server.saveDemuxProgress_eq]
      · exact Nat.le_refl _
    | restart =>
      simp only [serverStep]
      split
      · exact Nat.le_refl _
      · exact hs.flushed_le
    | cleanup => exact Nat.le_refl _
    | crash keep created rd => exact absurd rfl (hcrash keep created rd)
    | _ => exact hbackend trivial
  rw [Server.wal_step _ hcrash, ← List.take_append_of_le_length hs.flushed_le]
  exact List.take_prefix_take_left hle

theorem sameHeaders_step (segsz : WalSegSize) (hs : SameHeaders s.wal) (l : Label) :
    SameHeaders (serverStep segsz s l).wal := by
  by_cases hcrash : ∀ keep created rd, l ≠ .crash keep created rd
  · intro r hr
    rw [Server.wal_step _ hcrash] at hr
    rcases List.mem_append.mp hr with hr | hr
    · exact hs r hr
    · exact sameHeaders_added s l r hr
  · simp only [not_forall, not_not] at hcrash
    obtain ⟨keep, created, rd, rfl⟩ := hcrash
    simp only [serverStep]
    split
    · exact fun r hr => hs r (List.mem_of_mem_take hr)
    · exact hs

/-- A step of or beside a running worker. -/
theorem Server.Durable.step_running (hs : s.Durable segsz) (hrun : s.running = true) (hl : Recovers segsz s l)
    (hfiles : l.KeepsFiles) : (serverStep segsz s l).Durable segsz := by
  obtain ⟨⟨hok, -⟩, hskip, -, hadmits, -⟩ := hl
  have hplaced := Server.placed_step segsz hs.placed l
  have hbehind := behind_step segsz hs.placed hs.behind hskip hfiles
  have hsame := sameHeaders_step segsz hs.same l
  have hflushed := flushed_step segsz hs.placed hfiles.not_crash
  obtain ⟨base, es, hf, hbase⟩ := hs.running hrun
  by_cases hserves : l.Serves
  · obtain ⟨hf', hrun', hst⟩ := hf.step hs.placed hrun hserves hskip fun e he => ⟨hok.event e he, hadmits e he⟩
    refine ⟨hplaced, hbehind, hsame, (fun h => by cases hrun'.symm.trans h), fun _ => ⟨base, _, hf', fun pid => ?_⟩⟩
    rw [hst, take_wal_step hfiles (hs.placed.start_le.trans hs.placed.end_le)]
    exact (hbase pid).mono hflushed
  · cases l with
    | demuxStop io destroyIo saveOk =>
      -- nothing is buffered, so the files stay as they are
      have hclean : ∀ pid, ∃ mark acc, CleanInv segsz pid (base pid) mark acc (s.demux.share pid) := by
        intro pid
        obtain ⟨-, mark, hclean⟩ := (lossless_share hf.along).1 pid
        rw [← hf.demux] at hclean
        exact ⟨mark, _, hclean⟩
      have hfits : s.demux.Fits := hf.demux ▸ (lossless_share hf.along).2
      refine ⟨hplaced, hbehind, hsame, fun _ pid => ?_, fun h => ?_⟩
      · have hholds := (hs.holds pid).mono hflushed
        simp only [serverStep, hrun, if_true] at hholds ⊢
        rw [Server.demuxShutdown, Server.saveDemuxProgress_eq] at hholds ⊢
        simp only [Demux.fresh, demuxStep, stopped_parwal hfits hclean]
        exact hholds
      · simp only [serverStep, hrun, if_true] at h
        cases h
    | restart =>
      simp only [serverStep, hrun, if_true]
      exact hs
    | cleanup => exact absurd hfiles id
    | crash => exact absurd hfiles id
    | _ => exact absurd trivial hserves

/-- A step while no worker runs. -/
theorem Server.Durable.step_stopped (hs : s.Durable segsz) (hrun : s.running = false) (hl : Recovers segsz s l)
    (hfiles : l.KeepsFiles) : (serverStep segsz s l).Durable segsz := by
  obtain ⟨-, hskip, hstart, -, -⟩ := hl
  have hplaced := Server.placed_step segsz hs.placed l
  have hbehind := behind_step segsz hs.placed hs.behind hskip hfiles
  have hsame := sameHeaders_step segsz hs.same l
  have hflushed := flushed_step segsz hs.placed hfiles.not_crash
  have hholds := hs.stopped hrun
  by_cases hdemux : l = .demuxStart
  · subst hdemux
    have hf := Server.follows_start segsz (P := fun dm e => e.Ok ∧ Admits dm e) hrun
    refine ⟨hplaced, hbehind, hsame, fun h => ?_, fun _ => ⟨_, [], hf, fun pid => ?_⟩⟩
    · simp [serverStep, hrun] at h
    · have hread := partHeaders_take_eq hs.behind (hstart rfl hrun) pid
      have hkept := (hholds pid).mono hflushed
      simp only [serverStep, hrun, Bool.false_eq_true, if_false] at hkept ⊢
      rw [hread]
      exact hkept
  · obtain ⟨hrun', hd, hend, -⟩ := Server.stopped_step segsz hrun hfiles hdemux
    refine ⟨hplaced, hbehind, hsame, fun _ pid => ?_, (fun h => by cases hrun'.symm.trans h)⟩
    rw [hd, hend, take_wal_step hfiles hs.placed.end_le]
    exact (hholds pid).mono hflushed

/-- A crash, of a running worker or between two. -/
theorem Server.Durable.step_crash (hs : s.Durable segsz) {keep : Nat} {created : Bool} {rd : Readdir}
    (hl : CrashCovered segsz s (.crash keep created rd)) : (serverStep segsz s (.crash keep created rd)).Durable segsz := by
  have hplaced := Server.placed_step segsz hs.placed (.crash keep created rd)
  have hsame := sameHeaders_step segsz hs.same (.crash keep created rd)
  simp only [serverStep] at hplaced hsame ⊢
  split
  · next hk =>
    rw [if_pos hk] at hplaced hsame
    refine ⟨hplaced, behind_of_le (Nat.le_refl _), hsame, fun _ pid => ?_, fun h => by cases h⟩
    have hordered : Replayable segsz (partHeaders pid (s.wal.take keep)) := by
      by_cases hp : pid ∈ namedPartitions s.wal
      · exact hl.2 pid hp
      · have hnil : partHeaders pid (s.wal.take keep) = [] :=
          List.sublist_nil.mp (partHeaders_of_not_named hp ▸ partHeaders_sublist (List.take_sublist keep s.wal) pid)
        rw [hnil]
        exact ⟨⟨fun _ ha => absurd ha List.not_mem_nil, List.Pairwise.nil⟩, List.Pairwise.nil, Nat.zero_le _⟩
    have hholds := crashRecovery_holds hs created rd hk.1 hl.1 hordered
    show Server.Holds segsz _ pid (partHeaders pid ((s.wal.take keep).take keep)) _
    rw [List.take_take, Nat.min_self]
    exact hholds
  · exact hs

theorem Server.Durable.step (hs : s.Durable segsz) (hl : Recovers segsz s l) : (serverStep segsz s l).Durable segsz := by
  by_cases hfiles : l.KeepsFiles
  · cases hrun : s.running with
    | true => exact hs.step_running hrun hl hfiles
    | false => exact hs.step_stopped hrun hl hfiles
  · cases l with
    | cleanup => exact absurd trivial hl.1.2
    | crash keep created rd => exact hs.step_crash hl.2.2.2.2
    | _ => exact absurd trivial hfiles

end

/-- **Any number of crashes.** In every state of every run of stops, restarts and crashes
whose steps all recover, the files hold each record the reader has come past exactly once. -/
theorem recoveries_lose_nothing (segsz : WalSegSize) (ls : List Label)
    (hls : Run.Along (serverStep segsz) (Recovers segsz) (Server.boot [] fun _ => Dir.empty) ls) (pid : Oid) :
    let s := serverRun segsz (Server.boot [] fun _ => Dir.empty) ls
    (s.demux.parwal pid).records = (partHeaders pid (s.wal.take s.endRecPtr) : Multiset PartWALHeader) := by
  intro s
  have hdurable : s.Durable segsz :=
    Run.run_invariant (serverStep segsz) (durable_boot segsz) (fun _ _ hs hl => hs.step hl) hls
  obtain ⟨base, hblank, hg⟩ := hdurable.holds pid
  rw [hg.records hblank.whole, hblank.records, zero_add]

/-- A record is copied before a crash, another one is not before the next. -/
def twoCrashes : List Label :=
  .demuxStart :: wholeCall ++ readSteps 1 ++ [.crash 1 true .ascending, .demuxStart] ++ wholeCall ++
    [.crash 2 true .ascending]

theorem recoveries_lose_nothing_two :
    ((serverRun .default (Server.boot [] fun _ => Dir.empty) twoCrashes).demux.parwal 7).records =
      {buildHeader 7 1 0 1, buildHeader 7 1 0 2} := by
  have hok : ∀ l ∈ twoCrashes, l.Ok ∧ ¬ l.Collects := by
    intro l hl
    simp only [twoCrashes, List.cons_append, List.nil_append, List.append_assoc, List.mem_cons, List.mem_append, List.not_mem_nil,
      or_false] at hl
    rcases hl with rfl | hl | hl | rfl | rfl | hl | rfl
    · exact ⟨trivial, id⟩
    · exact ⟨(ok_wholeCall hl).1, fun hc => (ok_wholeCall hl).2.keepsFiles.not_collects hc⟩
    · exact ⟨(ok_readSteps hl).1, fun hc => (ok_readSteps hl).2.keepsFiles.not_collects hc⟩
    · exact ⟨trivial, id⟩
    · exact ⟨trivial, id⟩
    · exact ⟨(ok_wholeCall hl).1, fun hc => (ok_wholeCall hl).2.keepsFiles.not_collects hc⟩
    · exact ⟨trivial, id⟩
  have hrun := recoveries_lose_nothing .default twoCrashes (Run.along_and _ (Run.along_of_forall _ hok)
    (Run.along_and _ (by decide +kernel) (Run.along_and _ (by decide +kernel)
      (Run.along_and _ (by decide +kernel) (by decide +kernel))))) 7
  exact hrun.trans (by decide +kernel)

end PartDist
