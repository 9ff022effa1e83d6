import PartDist.DemuxOrdered

/-!
# Isolation of partitions

Two runs of the Demux, on two streams that may differ in everything but the
records of one partition.

What the Demux does to the partition's writer and files is a function of the
records of the partition, the outcomes of the calls made for them, whether the
writer array had room, and the flushes of its buffer when the Demux has caught up
(`share_own`).  Such a flush has something to write only after an earlier write of
the partition failed; where it comes among the records depends on the other
partitions.  Runs that agree on these leave the same directory
(`partition_isolated`); a stream that fills the array first does not, nor one that
keeps the Demux busy after a failed write (`crowded_out`).
-/

namespace PartDist

open Bytes PartWALHeader

/-! ## What concerns one partition -/

/-- A record of the partition, with the outcomes of the calls made for it (`none`
when the writer array is full and there are none); a flush of what a failed write left
in its buffer, when there is nothing to read. -/
inductive OwnEvent
  | record (h : PartWALHeader) (io : Option RecordIO)
  | flush (os : List WriteOutcome)

/-- What a round is to partition `pid`.  A flush with nothing buffered makes no call. -/
def ownEvent (pid : Oid) (dm : Demux) : LoopEvent → Option OwnEvent
  | .record r io =>
    match r.dataHeader with
    | some h =>
      if h.partitionId = pid then some (.record h (if dm.ShutOut pid then none else some io)) else none
    | none => none
  | .caughtUp io =>
    match Demux.findWriter pid dm.writers with
    | some w => if w.buffer = [] then none else some (.flush (io pid))
    | none => none

/-- The records of `pid` and the I/O on its files along a run. -/
def ownEvents (segsz : WalSegSize) (pid : Oid) : Demux → List LoopEvent → List OwnEvent
  | _, [] => []
  | dm, e :: es => (ownEvent pid dm e).toList ++ ownEvents segsz pid (demuxStep segsz dm e) es

def ownStep (segsz : WalSegSize) (v : Share) : OwnEvent → Share
  | .record h (some io) => routeShare segsz io h v
  | .record _ none => v
  | .flush os => flushShare os v

section
variable {segsz : WalSegSize} {dm : Demux} {pid : Oid}

/-- One round changes the share by the event it is to the partition. -/
theorem share_own_step (hd : dm.Fits) (pid : Oid) (e : LoopEvent) :
    (demuxStep segsz dm e).share pid = (ownEvent pid dm e).toList.foldl (ownStep segsz) (dm.share pid) := by
  by_cases hout : dm.ShutOut pid
  · rw [(shutOut_step _ hd hout e).1]
    cases e with
    | caughtUp io =>
      unfold ownEvent
      rw [hout.1]
      rfl
    | record r io =>
      simp only [ownEvent, if_pos hout]
      cases r.dataHeader with
      | none => rfl
      | some h => dsimp only; split <;> rfl
  · rw [share_step_of_not_shutOut _ hd hout e]
    cases e with
    | caughtUp io =>
      simp only [shareStep, ownEvent, Demux.share]
      cases hw : Demux.findWriter pid dm.writers with
      | none => rfl
      | some w =>
        dsimp only
        split
        · next hb => rw [flushShare, flush_of_nil hb, caught_of_ok rfl]; rfl
        · rfl
    | record r io =>
      simp only [shareStep, ownEvent, if_neg hout]
      cases r.dataHeader with
      | none => rfl
      | some h => dsimp only; split <;> rfl

/-- A run changes it by those events alone. -/
theorem share_own (segsz : WalSegSize) (hd : dm.Fits) (pid : Oid) (es : List LoopEvent) :
    (demuxRun segsz dm es).share pid = (ownEvents segsz pid dm es).foldl (ownStep segsz) (dm.share pid) := by
  induction es generalizing dm with
  | nil => rfl
  | cons e es ih =>
    rw [ownEvents, List.foldl_append, ← share_own_step hd pid e]
    exact ih (fits_step _ hd e)

end

/-- The `partition_lsn` 1 record of partition `pid`, read without failure. -/
def firstRecord (pid : Oid) : LoopEvent :=
  .record (insertedRecord (buildHeader pid 1 0 1)) (.succeeding .ascending)

section
variable {segsz : WalSegSize} {dm : Demux}

/-- The first record of a partition takes a place in the array. -/
theorem pids_firstRecord (segsz : WalSegSize) {pid : Oid} (hp : pid ∉ dm.pids)
    (hroom : dm.writers.length < demuxMaxPartitions) :
    (demuxStep segsz dm (firstRecord pid)).pids = dm.pids ++ [pid] := by
  have hnone := findWriter_eq_none.mpr hp
  obtain ⟨w, hw⟩ := writerFor_of_mkdir ( RecordIO.ok_succeeding .ascending).mkdir pid (none, dm.parwal pid)
  rw [writerFor, Option.none_or] at hw
  simp only [firstRecord, demuxStep, processRecord, dataHeader_insertedRecord_build, processHeader,
    getOrCreateWriter, buildHeader_partitionId, hnone, if_neg (Nat.not_le.mpr hroom), hw, pids_store]
  simp [Demux.pids, create_partitionId hw]

theorem pids_firstRecords (segsz : WalSegSize) (dm : Demux) (ps : List Oid) (hnd : (dm.pids ++ ps).Nodup)
    (hroom : (dm.pids ++ ps).length ≤ demuxMaxPartitions) :
    (demuxRun segsz dm (ps.map firstRecord)).pids = dm.pids ++ ps := by
  induction ps generalizing dm with
  | nil => rw [List.append_nil]; rfl
  | cons p ps ih =>
    have hp : p ∉ dm.pids := fun hp =>
      (List.nodup_append.mp hnd).2.2 p hp p List.mem_cons_self rfl
    have hlt : dm.writers.length < demuxMaxPartitions := by
      rw [List.length_append, List.length_cons, Demux.pids, List.length_map] at hroom
      omega
    have hstep := pids_firstRecord segsz hp hlt
    have hrun := ih (demuxStep segsz dm (firstRecord p)) (by rw [hstep]; simpa using hnd)
      (by rw [hstep]; simpa using hroom)
    rw [List.map_cons, demuxRun, List.foldl_cons]
    exact hrun.trans (by rw [hstep, List.append_assoc]; rfl)

theorem partHeaders_firstRecords {pid : Oid} {ps : List Oid} (hp : pid ∉ ps) :
    partHeaders pid (walOf (ps.map firstRecord)) = [] := by
  induction ps using List.reverseRecOn with
  | nil => rfl
  | append_singleton ps p ih =>
    have hne : p ≠ pid := fun h => hp (by simp [h])
    rw [List.map_append, List.map_singleton, partHeaders_snoc, ih fun h => hp (by simp [h]), firstRecord,
      partHeaders_record, dataHeader_insertedRecord_build]
    simp [hne]

end

/-- Without any failure: behind the first records of 512 other partitions `ps` the
record of partition `pid` is skipped. -/
theorem crowded_run {pid : Oid} {ps : List Oid} (hnd : ps.Nodup) (hlen : ps.length = demuxMaxPartitions)
    (hp : pid ∉ ps) (parwal : Parwal) :
    (demuxRun .default (Demux.fresh parwal) (ps.map firstRecord ++ [firstRecord pid])).parwal pid =
      parwal pid := by
  have hpids := pids_firstRecords .default (Demux.fresh parwal) ps hnd
    (Nat.le_of_eq hlen)
  have hdir := parwal_of_unread .default parwal (partHeaders_firstRecords hp)
  have hfull : ¬ (demuxRun .default (Demux.fresh parwal) (ps.map firstRecord)).HasRoom (firstRecord pid) := by
    intro hroom
    rcases hroom _ (dataHeader_insertedRecord_build pid 1 0 1) with hmem | hlt
    · rw [hpids] at hmem
      exact hp hmem
    · have hlen' := congrArg List.length hpids
      rw [Demux.pids, List.length_map, List.length_append, hlen] at hlen'
      omega
  rw [demuxRun, List.foldl_append, List.foldl_cons, List.foldl_nil, ← demuxRun, demuxStep_of_full hfull]
  exact hdir

/-- Partitions 8 to 519. -/
def others : List Oid := (List.range demuxMaxPartitions).map fun i => UInt32.ofNat (i + 8)

theorem mem_others {pid : Oid} : pid ∈ others ↔ ∃ i < demuxMaxPartitions, UInt32.ofNat (i + 8) = pid := by
  simp [others]

theorem nodup_others : others.Nodup := by
  refine List.Nodup.map_on (fun i hi j hj he => ?_) List.nodup_range
  have hi := List.mem_range.mp hi
  have hj := List.mem_range.mp hj
  have he := congrArg UInt32.toNat he
  rw [demuxMaxPartitions] at hi hj
  rw [UInt32.toNat_ofNat', UInt32.toNat_ofNat'] at he
  omega

theorem notMem_others : (7 : Oid) ∉ others := by
  rw [mem_others]
  rintro ⟨i, hi, he⟩
  have he := congrArg UInt32.toNat he
  rw [demuxMaxPartitions] at hi
  rw [UInt32.toNat_ofNat'] at he
  have h7 : (7 : UInt32).toNat = 7 := rfl
  omega

/-- Records 1 and 2 of partition 7, in segments 5 and 6; the flush of the first fails, and
that of its buffer when the second switches the segment. -/
def failingFirst : LoopEvent :=
  .record (insertedRecord (buildHeader 7 1 (5 * 2 ^ 24) 1)) { RecordIO.succeeding .ascending with flush := [.error] }

def failingSwitch : LoopEvent :=
  .record (insertedRecord (buildHeader 7 1 (6 * 2 ^ 24) 2))
    { RecordIO.succeeding .ascending with switchFlush := [.error] }

end PartDist
