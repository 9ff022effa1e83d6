import PartDist.DemuxOrdered
import PartDist.Redo

/-!
# Recovery and the Demux agree

Crash recovery replays records with `partdist_wal_redo`, which scans the directory
for every record; the Demux keeps its watermark in memory and buffers.  On records
in `partition_lsn` order, and without I/O failure, both leave the same files
(`redo_eq_demux`).
-/

namespace PartDist

open Bytes PartWALHeader HighWater

/-- Redo acts on every DATA record. -/
theorem redoHeader_of_dataHeader {r : XLogRecord} {h : PartWALHeader} (hr : r.dataHeader = some h) :
    r.redoHeader = some h := by
  unfold XLogRecord.dataHeader at hr
  unfold XLogRecord.redoHeader
  split at hr
  · next hrm =>
    split at hr
    · next hlen =>
      split at hr
      · next hm =>
        rw [if_pos ⟨hrm, hlen.2, hm⟩]
        exact hr
      · cases hr
    · cases hr
  · cases hr

theorem redoHeaders_eq_partHeaders {wal : List XLogRecord} (hdata : ∀ r ∈ wal, r.dataHeader ≠ none)
    (pid : Oid) : redoHeaders pid wal = partHeaders pid wal := by
  unfold redoHeaders partHeaders dataHeaders
  congr 1
  apply List.filterMap_congr
  intro r hr
  obtain ⟨h, hh⟩ := Option.ne_none_iff_exists'.mp (hdata r hr)
  rw [hh, redoHeader_of_dataHeader hh]

/-- **Recovery path and normal path agree.** `es` is a run of a fresh worker that
reads the records `wal`, with any number of caught-up rounds in between. -/
theorem redo_eq_demux (segsz : WalSegSize) (rd : Readdir) (parwal : Parwal) (wal : List XLogRecord)
    (es : List LoopEvent) (hes : walOf es = wal) (hdata : ∀ r ∈ wal, r.dataHeader ≠ none)
    (hinc : ∀ pid, Increasing lsn (partHeaders pid wal))
    (hparts : (namedPartitions wal).card ≤ demuxMaxPartitions) (hwhole : ∀ pid, (parwal pid).Whole)
    (hfiles : ∀ pid, (parwal pid).names.card ≤ maxScanFiles)
    (hfiles' : ∀ pid, ((demuxRun segsz (Demux.fresh parwal) es).parwal pid).names.card ≤ maxScanFiles)
    (hio : ∀ e ∈ es, e.Ok) :
    redoAll segsz rd wal parwal = (demuxRun segsz (Demux.fresh parwal) es).parwal := by
  subst hes
  funext pid
  have hdemux : Dir.Grown segsz (parwal pid) (aboveMark rd pid (parwal pid) (partHeaders pid (walOf es)))
      ((demuxRun segsz (Demux.fresh parwal) es).parwal pid) := by
    have hrun := clean_run_increasing segsz hio (scansFind_of_le hio (hfiles pid) rd) (hinc pid)
    rw [accepted_eq_filter (hinc pid), ← share_of_fresh _ hparts parwal pid] at hrun
    exact hrun.grown
  have hcard := hfiles' pid
  rw [hdemux.names] at hcard
  rw [redoAll_eq, redoHeaders_eq_partHeaders hdata]
  exact (redo_grown_above (hwhole pid) (fun h hh => partHeaders_of_mem hh) (hinc pid) hcard).unique hdemux

/-- Two records whose `orig_node_lsn` moves back across segments, on empty directories. -/
def backwardRecords : List XLogRecord :=
  [insertedRecord (buildHeader 7 1 (2 ^ 26) 1), insertedRecord (buildHeader 7 1 0 2)]

theorem redo_eq_demux_backward :
    redoAll .default .ascending backwardRecords (fun _ => Dir.empty) =
      (demuxRun .default (Demux.fresh fun _ => Dir.empty)
        (backwardRecords.map fun r => .record r (.succeeding .ascending))).parwal := by
  have hpart : ∀ pid, partHeaders pid backwardRecords =
      if pid = 7 then [buildHeader 7 1 (2 ^ 26) 1, buildHeader 7 1 0 2] else [] := by
    intro pid
    by_cases hp : pid = 7
    · simp [partHeaders, dataHeaders, backwardRecords, hp]
    · have hne : ¬ (7 : Oid) = pid := fun h => hp h.symm
      simp [partHeaders, dataHeaders, backwardRecords, hp, hne]
  have hparts : (namedPartitions backwardRecords).card ≤ demuxMaxPartitions := by
    simp [namedPartitions, dataHeaders, backwardRecords, demuxMaxPartitions]
  refine redo_eq_demux .default .ascending (fun _ => Dir.empty) backwardRecords _ rfl ?_ (fun pid => ?_) hparts
    (fun _ _ => ⟨0, rfl⟩) (fun _ => Nat.zero_le _) (fun pid => ?_) ?_
  · simp [backwardRecords]
  · rw [hpart]
    split
    · simp [Increasing]
    · exact List.Pairwise.nil
  · by_cases hp : pid = 7
    · subst hp
      decide +kernel
    · have hnone : partHeaders pid (walOf (backwardRecords.map fun r => .record r (.succeeding .ascending))) = [] :=
        (hpart pid).trans (if_neg hp)
      have hdir := parwal_of_unread .default (fun _ => Dir.empty) hnone
      exact Nat.le_trans (Nat.le_of_eq (congrArg (fun d : Dir => d.names.card) hdir)) (Nat.zero_le _)
  · simp [backwardRecords, LoopEvent.Ok, RecordIO.ok_succeeding]

end PartDist
