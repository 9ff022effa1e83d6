import PartDist.Writer
import PartDist.Lib.Run

/-!
# The Demux's dispatch

What `DemuxWorkerMain` (demux_worker.c) does with one pg_wal record, and
`FlushAllWriters`, over the process-local array of writers.

A partition's writer and directory are its *share* of the state.  While the
writer array has room, each partition's share evolves on its own, whatever the
other partitions do (`share_run`); a share is stepped by `shareStep`.
-/

namespace PartDist

open Bytes PartWALHeader

/-! ## Algorithm -/

/-- `DEMUX_MAX_PARTITIONS`. -/
def demuxMaxPartitions : Nat := 512

/-- `active_writers[0 .. num_writers)` and `pg_parwal/`. -/
structure Demux where
  writers : List PartitionWALWriter
  parwal : Parwal

namespace Demux

def findWriter (pid : Oid) (ws : List PartitionWALWriter) : Option PartitionWALWriter :=
  ws.find? fun w => w.partitionId = pid

/-- A writer and its directory changed through the pointer in the array. -/
def store (dm : Demux) (w : PartitionWALWriter) (d : Dir) : Demux where
  writers := dm.writers.map fun v => if v.partitionId = w.partitionId then w else v
  parwal := Function.update dm.parwal w.partitionId d

end Demux

open Demux

/-- `none` for the result NULL and for an error raised by the creation; the loop
skips the record in both cases. -/
def getOrCreateWriter (io : RecordIO) (pid : Oid) (dm : Demux) : Option PartitionWALWriter × Demux :=
  match findWriter pid dm.writers with
  | some w => (some w, dm)
  | none =>
    if demuxMaxPartitions ≤ dm.writers.length then (none, dm)
    else match createPartitionWALWriter io.mkdirOk io.createScan pid (dm.parwal pid) with
      | some w => (some w, { dm with writers := dm.writers ++ [w] })
      | none => (none, dm)

/-- Reset detection: `partition_lsn` restarted at 1 and the files are gone. -/
def resetDetect (sc : ScanIO) (h : PartWALHeader) (w : PartitionWALWriter) (d : Dir) :
    PartitionWALWriter :=
  if h.partitionLsn = 1 ∧ 0 < w.lastPartitionLsn then
    if getLastWrittenPartitionLSN sc h.partitionId d = 0 then
      { w with
        fd := none
        currentSegno := 0
        buffer := []
        lastPartitionLsn := 0
        enospcStalled := false }
    else w
  else w

/-- Un-stall if the stall was transient. -/
def unstall (sc : ScanIO) (h : PartWALHeader) (w : PartitionWALWriter) (d : Dir) : PartitionWALWriter :=
  if w.enospcStalled = true then
    if getLastWrittenPartitionLSN sc h.partitionId d < h.partitionLsn then
      { w with enospcStalled := false }
    else w
  else w

/-- `PG_CATCH` around a writer call: an error stalls the writer. -/
def WriterCall.caught (c : WriterCall) : PartitionWALWriter × Dir :=
  (if c.raised then { c.writer with enospcStalled := true } else c.writer, c.dir)

/-- A record of the writer's partition. -/
def routeToWriter (segsz : WalSegSize) (io : RecordIO) (h : PartWALHeader) (w : PartitionWALWriter)
    (d : Dir) : PartitionWALWriter × Dir :=
  let w := unstall io.unstallScan h (resetDetect io.resetScan h w d) d
  if w.enospcStalled = false ∧ w.lastPartitionLsn < h.partitionLsn then
    ((writePartitionWAL segsz io h w d).andThen (flushPartitionWALWriter io.flush)).caught
  else (w, d)

def processHeader (segsz : WalSegSize) (io : RecordIO) (h : PartWALHeader) (dm : Demux) : Demux :=
  match getOrCreateWriter io h.partitionId dm with
  | (none, dm) => dm
  | (some w, dm) =>
    let routed := routeToWriter segsz io h w (dm.parwal h.partitionId)
    dm.store routed.1 routed.2

def processRecord (segsz : WalSegSize) (io : RecordIO) (r : XLogRecord) (dm : Demux) : Demux :=
  match r.dataHeader with
  | some h => processHeader segsz io h dm
  | none => dm

/-- `io pid` are the outcomes of the writes for partition `pid`. -/
def flushAllWriters (io : Oid → List WriteOutcome) (dm : Demux) : Demux :=
  dm.writers.foldl
    (fun dm w =>
      let flushed := (flushPartitionWALWriter (io w.partitionId) w (dm.parwal w.partitionId)).caught
      dm.store flushed.1 flushed.2) dm

/-- What the loop does in one round: take the next pg_wal record, or flush all
writers because it has caught up. -/
inductive LoopEvent
  | record (r : XLogRecord) (io : RecordIO)
  | caughtUp (io : Oid → List WriteOutcome)

def demuxStep (segsz : WalSegSize) (dm : Demux) : LoopEvent → Demux
  | .record r io => processRecord segsz io r dm
  | .caughtUp io => flushAllWriters io dm

def demuxRun (segsz : WalSegSize) (dm : Demux) (es : List LoopEvent) : Demux :=
  es.foldl (demuxStep segsz) dm

/-- The pg_wal records a run consumes. -/
def LoopEvent.record? : LoopEvent → Option XLogRecord
  | .record r _ => some r
  | .caughtUp _ => none

def walOf (es : List LoopEvent) : List XLogRecord := es.filterMap LoopEvent.record?

/-! ## Shares -/

/-- A partition's writer, if it has one, and its directory. -/
abbrev Share := Option PartitionWALWriter × Dir

def Demux.share (dm : Demux) (pid : Oid) : Share := (findWriter pid dm.writers, dm.parwal pid)

/-- The writer a record of partition `pid` meets: the partition's own, else one
created for it. -/
def writerFor (io : RecordIO) (pid : Oid) (v : Share) : Option PartitionWALWriter :=
  v.1.or (createPartitionWALWriter io.mkdirOk io.createScan pid v.2)

def routeShare (segsz : WalSegSize) (io : RecordIO) (h : PartWALHeader) (v : Share) : Share :=
  match writerFor io h.partitionId v with
  | some w => ((routeToWriter segsz io h w v.2).1, (routeToWriter segsz io h w v.2).2)
  | none => v

def flushShare (os : List WriteOutcome) : Share → Share
  | (some w, d) =>
    ((flushPartitionWALWriter os w d).caught.1, (flushPartitionWALWriter os w d).caught.2)
  | (none, d) => (none, d)

/-- One event as partition `pid` sees it. -/
def shareStep (segsz : WalSegSize) (pid : Oid) (v : Share) : LoopEvent → Share
  | .record r io =>
    match r.dataHeader with
    | some h => if h.partitionId = pid then routeShare segsz io h v else v
    | none => v
  | .caughtUp io => flushShare (io pid) v

/-! ## A writer keeps its partition -/

@[simp] theorem caught_partitionId (c : WriterCall) :
    c.caught.1.partitionId = c.writer.partitionId := by
  unfold WriterCall.caught
  split <;> rfl

theorem caught_of_ok {c : WriterCall} (h : c.raised = false) : c.caught = (c.writer, c.dir) := by
  simp [WriterCall.caught, h]

theorem caught_of_raised {c : WriterCall} (h : c.raised = true) :
    c.caught = ({ c.writer with enospcStalled := true }, c.dir) := by
  simp [WriterCall.caught, h]

@[simp] theorem openWriterSegment_partitionId (ok : Bool) (segno : Nat) (w : PartitionWALWriter)
    (d : Dir) : (openWriterSegment ok segno w d).writer.partitionId = w.partitionId := by
  unfold openWriterSegment
  split <;> rfl

@[simp] theorem flush_partitionId (os : List WriteOutcome) (w : PartitionWALWriter) (d : Dir) :
    (flushPartitionWALWriter os w d).writer.partitionId = w.partitionId := by
  unfold flushPartitionWALWriter
  split
  · rfl
  · cases w.fd with
    | none => rfl
    | some fd => dsimp only; split <;> rfl

@[simp] theorem writePartitionWAL_partitionId (segsz : WalSegSize) (io : RecordIO) (h : PartWALHeader)
    (w : PartitionWALWriter) (d : Dir) :
    (writePartitionWAL segsz io h w d).writer.partitionId = w.partitionId :=
  writePartitionWAL_keeps _ _ (P := fun v _ => v.partitionId = w.partitionId)
    (fun os _ v d hv => (flush_partitionId os v d).trans hv)
    (fun ok segno v d hv => (openWriterSegment_partitionId ok segno v d).trans hv) (fun _ _ hv => hv) rfl

@[simp] theorem resetDetect_partitionId (sc : ScanIO) (h : PartWALHeader) (w : PartitionWALWriter)
    (d : Dir) : (resetDetect sc h w d).partitionId = w.partitionId := by
  unfold resetDetect
  split
  · split <;> rfl
  · rfl

@[simp] theorem unstall_partitionId (sc : ScanIO) (h : PartWALHeader) (w : PartitionWALWriter)
    (d : Dir) : (unstall sc h w d).partitionId = w.partitionId := by
  unfold unstall
  split
  · split <;> rfl
  · rfl

@[simp] theorem routeToWriter_partitionId (segsz : WalSegSize) (io : RecordIO) (h : PartWALHeader)
    (w : PartitionWALWriter) (d : Dir) :
    (routeToWriter segsz io h w d).1.partitionId = w.partitionId := by
  unfold routeToWriter
  dsimp only
  split
  · rw [caught_partitionId]
    unfold WriterCall.andThen
    split <;> simp
  · simp

theorem create_partitionId {mkdirOk : Bool} {sc : ScanIO} {pid : Oid} {d : Dir}
    {w : PartitionWALWriter} (h : createPartitionWALWriter mkdirOk sc pid d = some w) :
    w.partitionId = pid := by
  unfold createPartitionWALWriter at h
  split at h
  · obtain rfl := Option.some.inj h; rfl
  · cases h

theorem findWriter_partitionId {pid : Oid} {ws : List PartitionWALWriter} {w : PartitionWALWriter}
    (h : findWriter pid ws = some w) : w.partitionId = pid := by
  simpa using List.find?_some h

/-! ## Shares evolve on their own -/

theorem findWriter_map (pid : Oid) (w : PartitionWALWriter) (ws : List PartitionWALWriter) :
    findWriter pid (ws.map fun v => if v.partitionId = w.partitionId then w else v) =
      if pid = w.partitionId then (findWriter pid ws).map fun _ => w else findWriter pid ws := by
  induction ws with
  | nil => simp [findWriter]
  | cons v ws ih =>
    unfold findWriter at ih ⊢
    rw [List.map_cons, List.find?_cons, List.find?_cons]
    by_cases hv : v.partitionId = w.partitionId
    · by_cases hp : pid = w.partitionId
      · simp [hv, hp]
      · have hne : ¬ w.partitionId = pid := fun h => hp h.symm
        simp only [hv, hp, hne, if_true, if_false, decide_false] at ih ⊢
        exact ih
    · by_cases hp : v.partitionId = pid
      · have hne : ¬ pid = w.partitionId := fun h => hv (hp.trans h)
        simp [hp, hne]
      · simp only [hv, hp, if_false, decide_false] at ih ⊢
        exact ih

theorem share_store_self (dm : Demux) {w v : PartitionWALWriter} {d : Dir}
    (h : findWriter w.partitionId dm.writers = some v) :
    (dm.store w d).share w.partitionId = (some w, d) := by
  simp only [share, store, findWriter_map, h, if_true, Option.map_some, Function.update_self]

theorem findWriter_store_of_ne {dm : Demux} {w : PartitionWALWriter} {d : Dir} {pid : Oid}
    (h : pid ≠ w.partitionId) :
    findWriter pid (dm.store w d).writers = findWriter pid dm.writers := by
  rw [store, findWriter_map, if_neg h]

theorem share_store_of_ne {dm : Demux} {w : PartitionWALWriter} {d : Dir} {pid : Oid}
    (h : pid ≠ w.partitionId) : (dm.store w d).share pid = dm.share pid := by
  have hdir : (dm.store w d).parwal pid = dm.parwal pid := by
    simp only [store, Function.update_of_ne h]
  rw [share, findWriter_store_of_ne h, hdir, share]

/-- The partitions that have a writer. -/
def Demux.pids (dm : Demux) : List Oid := dm.writers.map (·.partitionId)

@[simp] theorem pids_store (dm : Demux) (w : PartitionWALWriter) (d : Dir) :
    (dm.store w d).pids = dm.pids := by
  simp only [pids, store, List.map_map]
  apply List.map_congr_left
  intro v _
  simp only [Function.comp_apply]
  split
  · next h => exact h.symm
  · rfl

theorem findWriter_eq_none {pid : Oid} {dm : Demux} :
    findWriter pid dm.writers = none ↔ pid ∉ dm.pids := by
  simp [findWriter, pids]

theorem exists_findWriter (dm : Demux) {pid : Oid} (h : pid ∈ dm.pids) :
    ∃ w, findWriter pid dm.writers = some w := by
  cases hf : findWriter pid dm.writers with
  | none => exact absurd h (findWriter_eq_none.mp hf)
  | some w => exact ⟨w, rfl⟩

theorem findWriter_of_mem {dm : Demux} (hnd : dm.pids.Nodup) {w : PartitionWALWriter}
    (hw : w ∈ dm.writers) : findWriter w.partitionId dm.writers = some w := by
  unfold pids at hnd
  obtain ⟨v, hv⟩ := exists_findWriter dm (List.mem_map_of_mem (f := (·.partitionId)) hw)
  have heq := List.inj_on_of_nodup_map hnd (List.mem_of_find?_eq_some hv) hw (findWriter_partitionId hv)
  rw [hv, heq]

/-- The writers belong to different partitions, all among the at most 512 of
`named`; the array has room for each of those. -/
structure Demux.Roomy (named : Finset Oid) (dm : Demux) : Prop where
  nodup : dm.pids.Nodup
  within : ∀ pid ∈ dm.pids, pid ∈ named
  room : named.card ≤ demuxMaxPartitions

theorem Demux.Roomy.store {named : Finset Oid} {dm : Demux} (hd : dm.Roomy named)
    (w : PartitionWALWriter) (d : Dir) : (dm.store w d).Roomy named :=
  ⟨by rw [pids_store]; exact hd.nodup, by rw [pids_store]; exact hd.within, hd.room⟩

theorem Demux.Roomy.length_lt {named : Finset Oid} {dm : Demux} (hd : dm.Roomy named) {pid : Oid}
    (hn : pid ∈ named) (hp : pid ∉ dm.pids) : dm.writers.length < demuxMaxPartitions := by
  have hsub : insert pid dm.pids.toFinset ⊆ named := by
    intro q hq
    rcases Finset.mem_insert.mp hq with rfl | hq
    · exact hn
    · exact hd.within q (List.mem_toFinset.mp hq)
  have hcard := Finset.card_le_card hsub
  rw [Finset.card_insert_of_notMem (by simpa using hp), List.toFinset_card_of_nodup hd.nodup, pids,
    List.length_map] at hcard
  have := hd.room
  omega

/-- A record is routed to the writer of its partition. -/
theorem share_store_routed (segsz : WalSegSize) (io : RecordIO) (dm : Demux) {h : PartWALHeader}
    {w : PartitionWALWriter} (hf : findWriter h.partitionId dm.writers = some w) (pid : Oid) :
    (dm.store (routeToWriter segsz io h w (dm.parwal h.partitionId)).1
        (routeToWriter segsz io h w (dm.parwal h.partitionId)).2).share pid =
      if h.partitionId = pid then
        (some (routeToWriter segsz io h w (dm.parwal h.partitionId)).1,
          (routeToWriter segsz io h w (dm.parwal h.partitionId)).2)
      else dm.share pid := by
  have hid : (routeToWriter segsz io h w (dm.parwal h.partitionId)).1.partitionId = h.partitionId := by
    rw [routeToWriter_partitionId, findWriter_partitionId hf]
  by_cases hp : h.partitionId = pid
  · subst hp
    have hstore := share_store_self dm (v := w)
      (w := (routeToWriter segsz io h w (dm.parwal h.partitionId)).1)
      (d := (routeToWriter segsz io h w (dm.parwal h.partitionId)).2) (by rw [hid]; exact hf)
    rw [hid] at hstore
    rw [if_pos rfl, hstore]
  · rw [if_neg hp]
    exact share_store_of_ne (by rw [hid]; exact fun h => hp h.symm)

theorem findWriter_append (writers : List PartitionWALWriter) (w : PartitionWALWriter) (pid : Oid) :
    findWriter pid (writers ++ [w]) = (findWriter pid writers).or (if w.partitionId = pid then some w else none) := by
  rw [findWriter, findWriter, List.find?_append]
  congr 1
  by_cases hw : w.partitionId = pid <;> simp [hw]

/-- A new writer takes one of the places. -/
theorem Demux.Roomy.add {named : Finset Oid} {dm : Demux} (hd : dm.Roomy named) {w : PartitionWALWriter}
    (hn : w.partitionId ∈ named) (hp : w.partitionId ∉ dm.pids) :
    Demux.Roomy named { dm with writers := dm.writers ++ [w] } := by
  have hpids : ({ dm with writers := dm.writers ++ [w] } : Demux).pids = dm.pids ++ [w.partitionId] := by
    simp only [pids, List.map_append, List.map_cons, List.map_nil]
  refine ⟨?_, fun pid hpid => ?_, hd.room⟩
  · rw [hpids]
    exact hd.nodup.append (List.nodup_singleton _) (by simpa using hp)
  · rw [hpids, List.mem_append, List.mem_singleton] at hpid
    rcases hpid with hpid | rfl
    · exact hd.within pid hpid
    · exact hn

/-- Routing a record steps the share of its partition and no other. -/
theorem share_processHeader {segsz : WalSegSize} {named : Finset Oid} {dm : Demux}
    (hd : dm.Roomy named) (io : RecordIO) {h : PartWALHeader} (hn : h.partitionId ∈ named) (pid : Oid) :
    (processHeader segsz io h dm).share pid =
        (if h.partitionId = pid then routeShare segsz io h (dm.share pid) else dm.share pid) ∧
      (processHeader segsz io h dm).Roomy named := by
  unfold processHeader getOrCreateWriter
  cases hf : findWriter h.partitionId dm.writers with
  | some w =>
    dsimp only
    refine ⟨?_, hd.store _ _⟩
    rw [share_store_routed segsz io dm hf]
    split
    · next hp =>
      subst hp
      simp only [share, hf, routeShare, writerFor, Option.or]
    · rfl
  | none =>
    have hnew := findWriter_eq_none.mp hf
    have hroom := hd.length_lt hn hnew
    dsimp only
    rw [if_neg (by omega)]
    cases hc : createPartitionWALWriter io.mkdirOk io.createScan h.partitionId (dm.parwal h.partitionId) with
    | none =>
      refine ⟨?_, hd⟩
      dsimp only
      split
      · next hp =>
        subst hp
        simp only [share, hf, routeShare, writerFor, Option.or, hc]
      · rfl
    | some w =>
      have hw := create_partitionId hc
      have hfind : findWriter h.partitionId (dm.writers ++ [w]) = some w := by
        rw [findWriter_append, hf, if_pos hw]
        rfl
      have hadd := hd.add (w := w) (by rw [hw]; exact hn) (by rw [hw]; exact hnew)
      dsimp only
      refine ⟨?_, hadd.store _ _⟩
      have hrouted := share_store_routed segsz io { dm with writers := dm.writers ++ [w] } hfind pid
      rw [hrouted]
      split
      · next hp =>
        subst hp
        simp only [share, hf, routeShare, writerFor, Option.or, hc]
      · next hp =>
        have hwp : ¬ w.partitionId = pid := fun h => hp (hw.symm.trans h)
        simp only [share, findWriter_append, if_neg hwp, Option.or_none]

/-- `FlushAllWriters` flushes each share once. -/
theorem share_flushAllWriters (io : Oid → List WriteOutcome) {named : Finset Oid} {dm : Demux}
    (hd : dm.Roomy named) (pid : Oid) :
    (flushAllWriters io dm).share pid = flushShare (io pid) (dm.share pid) ∧
      (flushAllWriters io dm).Roomy named := by
  -- induction over the writers still to come, which nothing has touched yet
  have key : ∀ (ws : List PartitionWALWriter) (cur : Demux), cur.Roomy named →
      (ws.map (·.partitionId)).Nodup →
      (∀ w ∈ ws, findWriter w.partitionId cur.writers = some w) →
      let res := ws.foldl (fun dm w =>
        let flushed := (flushPartitionWALWriter (io w.partitionId) w (dm.parwal w.partitionId)).caught
        dm.store flushed.1 flushed.2) cur
      res.Roomy named ∧ res.share pid =
        if pid ∈ ws.map (·.partitionId) then flushShare (io pid) (cur.share pid) else cur.share pid := by
    intro ws
    induction ws with
    | nil => exact fun cur hc _ _ => ⟨hc, rfl⟩
    | cons w ws ih =>
      intro cur hc hnd hfind
      rw [List.map_cons, List.nodup_cons] at hnd
      simp only [List.foldl_cons]
      generalize hfl : flushPartitionWALWriter (io w.partitionId) w (cur.parwal w.partitionId) = c
      have hid : c.caught.1.partitionId = w.partitionId := by
        rw [caught_partitionId, ← hfl, flush_partitionId]
      have hw := hfind w List.mem_cons_self
      obtain ⟨hroomy, hshare⟩ := ih (cur.store c.caught.1 c.caught.2) (hc.store _ _) hnd.2 fun v hv => by
        have hne : v.partitionId ≠ w.partitionId := fun h =>
          hnd.1 (h ▸ List.mem_map_of_mem hv)
        rw [findWriter_store_of_ne (by rw [hid]; exact hne)]
        exact hfind v (List.mem_cons_of_mem w hv)
      refine ⟨hroomy, hshare.trans ?_⟩
      by_cases hp : pid = w.partitionId
      · subst hp
        rw [if_neg hnd.1, if_pos (by simp)]
        have hself := share_store_self cur (w := c.caught.1) (v := w) (d := c.caught.2)
          (by rw [hid]; exact hw)
        rw [hid] at hself
        rw [hself, share, hw, flushShare, hfl]
      · have hne : pid ≠ c.caught.1.partitionId := by rw [hid]; exact hp
        rw [share_store_of_ne hne]
        simp only [List.map_cons, List.mem_cons, hp, false_or]
  obtain ⟨hroomy, hshare⟩ := key dm.writers dm hd hd.nodup fun w hw => findWriter_of_mem hd.nodup hw
  refine ⟨hshare.trans ?_, hroomy⟩
  split
  · rfl
  · next hp =>
    have : findWriter pid dm.writers = none := findWriter_eq_none.mpr hp
    simp only [share, this, flushShare]

/-- The partitions of the DATA records a run consumes. -/
def namedPartitions (wal : List XLogRecord) : Finset Oid :=
  ((dataHeaders wal).map (·.partitionId)).toFinset

theorem share_step {segsz : WalSegSize} {named : Finset Oid} {dm : Demux} (hd : dm.Roomy named)
    {e : LoopEvent} (hn : namedPartitions (walOf [e]) ⊆ named) (pid : Oid) :
    (demuxStep segsz dm e).share pid = shareStep segsz pid (dm.share pid) e ∧
      (demuxStep segsz dm e).Roomy named := by
  cases e with
  | caughtUp io => exact share_flushAllWriters io hd pid
  | record r io =>
    simp only [demuxStep, processRecord, shareStep]
    cases hr : r.dataHeader with
    | none => exact ⟨rfl, hd⟩
    | some h =>
      apply share_processHeader hd io
      apply hn
      simp [namedPartitions, walOf, LoopEvent.record?, dataHeaders, hr]

theorem namedPartitions_cons (e : LoopEvent) (es : List LoopEvent) :
    namedPartitions (walOf (e :: es)) = namedPartitions (walOf [e]) ∪ namedPartitions (walOf es) := by
  have happ : walOf (e :: es) = walOf [e] ++ walOf es := List.filterMap_append (l := [e])
  rw [happ, namedPartitions, dataHeaders, List.filterMap_append, List.map_append, List.toFinset_append]
  rfl

/-- The array has room for the writer of the record a round reads. -/
def Demux.HasRoom (dm : Demux) : LoopEvent → Prop
  | .record r _ => ∀ h ∈ r.dataHeader,
      h.partitionId ∈ dm.pids ∨ dm.writers.length < demuxMaxPartitions
  | .caughtUp _ => True

instance (dm : Demux) : (e : LoopEvent) → Decidable (dm.HasRoom e)
  | .record r _ => inferInstanceAs (Decidable (∀ h ∈ r.dataHeader,
      h.partitionId ∈ dm.pids ∨ dm.writers.length < demuxMaxPartitions))
  | .caughtUp _ => isTrue trivial

/-- The writers belong to different partitions, at most 512. -/
structure Demux.Fits (dm : Demux) : Prop where
  nodup : dm.pids.Nodup
  le : dm.pids.length ≤ demuxMaxPartitions

theorem Demux.Roomy.fits {named : Finset Oid} {dm : Demux} (hd : dm.Roomy named) : dm.Fits := by
  refine ⟨hd.nodup, ?_⟩
  rw [← List.toFinset_card_of_nodup hd.nodup]
  exact (Finset.card_le_card fun p hp => hd.within p (List.mem_toFinset.mp hp)).trans hd.room

theorem Demux.Fits.roomy {dm : Demux} (hd : dm.Fits) : dm.Roomy dm.pids.toFinset := by
  refine ⟨hd.nodup, fun p hp => List.mem_toFinset.mpr hp, ?_⟩
  rw [List.toFinset_card_of_nodup hd.nodup]
  exact hd.le

/-- With room for its record an event meets partitions the array has room for. -/
theorem Demux.Fits.step_roomy {dm : Demux} (hd : dm.Fits) {e : LoopEvent} (he : dm.HasRoom e) :
    ∃ named, dm.Roomy named ∧ namedPartitions (walOf [e]) ⊆ named := by
  cases e with
  | caughtUp io => exact ⟨_, hd.roomy, Finset.empty_subset _⟩
  | record r io =>
    cases hr : r.dataHeader with
    | none =>
      refine ⟨_, hd.roomy, ?_⟩
      simp [namedPartitions, walOf, LoopEvent.record?, dataHeaders, hr]
    | some h =>
      refine ⟨insert h.partitionId dm.pids.toFinset, ⟨hd.nodup, fun p hp => ?_, ?_⟩, ?_⟩
      · exact Finset.mem_insert_of_mem (List.mem_toFinset.mpr hp)
      · rcases he h hr with hmem | hlt
        · rw [Finset.insert_eq_self.mpr (List.mem_toFinset.mpr hmem)]
          exact hd.roomy.room
        · refine (Finset.card_insert_le _ _).trans ?_
          rw [List.toFinset_card_of_nodup hd.nodup, pids, List.length_map]
          exact hlt
      · simp [namedPartitions, walOf, LoopEvent.record?, dataHeaders, hr]

/-- While at most 512 partitions are named the array has room. -/
theorem roomy_run (segsz : WalSegSize) {named : Finset Oid} {dm : Demux} (hd : dm.Roomy named)
    {es : List LoopEvent} (hn : namedPartitions (walOf es) ⊆ named) :
    (demuxRun segsz dm es).Roomy named ∧ Run.Along (demuxStep segsz) Demux.HasRoom dm es := by
  induction es generalizing dm with
  | nil => exact ⟨hd, trivial⟩
  | cons e es ih =>
    rw [namedPartitions_cons, Finset.union_subset_iff] at hn
    obtain ⟨hroomy, halong⟩ := ih (share_step hd hn.1 0).2 hn.2
    refine ⟨hroomy, ?_, halong⟩
    cases e with
    | caughtUp io => trivial
    | record r io =>
      intro h hr
      by_cases hp : h.partitionId ∈ dm.pids
      · exact Or.inl hp
      · refine Or.inr (hd.length_lt (hn.1 ?_) hp)
        simp [namedPartitions, walOf, LoopEvent.record?, dataHeaders, show r.dataHeader = some h from hr]

section
variable {segsz : WalSegSize} {dm : Demux} {es : List LoopEvent}

/-- **Independence.** While the array has room, each partition's writer and files are
what the events do to its own share. -/
theorem share_run (hd : dm.Fits) (hroom : Run.Along (demuxStep segsz) Demux.HasRoom dm es) :
    (∀ pid, (demuxRun segsz dm es).share pid = es.foldl (shareStep segsz pid) (dm.share pid)) ∧
      (demuxRun segsz dm es).Fits := by
  induction es generalizing dm with
  | nil => exact ⟨fun pid => rfl, hd⟩
  | cons e es ih =>
    obtain ⟨named, hroomy, hn⟩ := hd.step_roomy hroom.1
    obtain ⟨hshare, hfits⟩ := ih (share_step hroomy hn 0).2.fits hroom.2
    refine ⟨fun pid => ?_, hfits⟩
    rw [demuxRun, List.foldl_cons]
    exact (hshare pid).trans (by rw [(share_step hroomy hn pid).1]; rfl)

/-- A condition on every share along a run of the Demux is one along the run of
each share. -/
theorem along_share (hd : dm.Fits) (hroom : Run.Along (demuxStep segsz) Demux.HasRoom dm es)
    {P : Oid → Share → LoopEvent → Prop} :
    Run.Along (demuxStep segsz) (fun dm e => ∀ pid, P pid (dm.share pid) e) dm es ↔
      ∀ pid, Run.Along (shareStep segsz pid) (P pid) (dm.share pid) es := by
  induction es generalizing dm with
  | nil => exact ⟨fun _ _ => trivial, fun _ => trivial⟩
  | cons e es ih =>
    obtain ⟨named, hroomy, hn⟩ := hd.step_roomy hroom.1
    simp only [Run.along_cons, ih (share_step hroomy hn 0).2.fits hroom.2]
    constructor
    · rintro ⟨hhead, htail⟩ pid
      exact ⟨hhead pid, by simpa only [(share_step hroomy hn pid).1] using htail pid⟩
    · intro hall
      exact ⟨fun pid => (hall pid).1, fun pid => by
        simpa only [(share_step hroomy hn pid).1] using (hall pid).2⟩

end

/-! ## A full writer array -/

/-- No writer, and no room for one. -/
def Demux.ShutOut (dm : Demux) (pid : Oid) : Prop :=
  findWriter pid dm.writers = none ∧ demuxMaxPartitions ≤ dm.writers.length

instance (dm : Demux) (pid : Oid) : Decidable (dm.ShutOut pid) := inferInstanceAs (Decidable (_ ∧ _))

theorem length_store (dm : Demux) (w : PartitionWALWriter) (d : Dir) :
    (dm.store w d).writers.length = dm.writers.length := by
  rw [Demux.store, List.length_map]

theorem length_flushAllWriters (io : Oid → List WriteOutcome) (dm : Demux) :
    (flushAllWriters io dm).writers.length = dm.writers.length := by
  unfold flushAllWriters
  refine List.foldlRecOn dm.writers _
    (motive := fun cur : Demux => cur.writers.length = dm.writers.length) rfl fun cur hcur w _ => ?_
  rw [length_store]
  exact hcur

theorem length_getOrCreateWriter (io : RecordIO) (pid : Oid) (dm : Demux) :
    dm.writers.length ≤ (getOrCreateWriter io pid dm).2.writers.length := by
  unfold getOrCreateWriter
  split
  · exact Nat.le_refl _
  · split
    · exact Nat.le_refl _
    · split
      · rw [List.length_append]
        exact Nat.le_add_right _ _
      · exact Nat.le_refl _

section
variable {segsz : WalSegSize} {dm : Demux} {es : List LoopEvent} {pid : Oid}

/-- The writers are never fewer. -/
theorem length_step (e : LoopEvent) :
    dm.writers.length ≤ (demuxStep segsz dm e).writers.length := by
  cases e with
  | caughtUp io => rw [demuxStep, length_flushAllWriters]
  | record r io =>
    simp only [demuxStep, processRecord]
    cases r.dataHeader with
    | none => exact Nat.le_refl _
    | some h =>
      have hget := length_getOrCreateWriter io h.partitionId dm
      simp only [processHeader]
      split
      · next hc => rw [hc] at hget; exact hget
      · next hc => rw [hc] at hget; rw [length_store]; exact hget

/-- The record that finds no room is of a partition that is shut out. -/
theorem shutOut_of_not_hasRoom {e : LoopEvent} (he : ¬ dm.HasRoom e) :
    ∃ r io h, e = .record r io ∧ r.dataHeader = some h ∧ dm.ShutOut h.partitionId := by
  cases e with
  | caughtUp io => exact absurd trivial he
  | record r io =>
    simp only [Demux.HasRoom, Option.mem_def, not_forall, not_or, Nat.not_lt] at he
    obtain ⟨h, hr, hp, hfull⟩ := he
    exact ⟨r, io, h, rfl, hr, findWriter_eq_none.mpr hp, hfull⟩

/-- Such a round changes nothing. -/
theorem demuxStep_of_full {e : LoopEvent} (he : ¬ dm.HasRoom e) : demuxStep segsz dm e = dm := by
  obtain ⟨r, io, h, rfl, hr, hp, hfull⟩ := shutOut_of_not_hasRoom he
  simp only [demuxStep, processRecord, hr, processHeader, getOrCreateWriter, hp, if_pos hfull]

/-- An event that meets another partition, or a share without a writer to flush. -/
theorem shareStep_eq_self {v : Share} {e : LoopEvent} (hv : v.1 = none)
    (he : ∀ r io h, e = .record r io → r.dataHeader = some h → h.partitionId ≠ pid) :
    shareStep segsz pid v e = v := by
  obtain ⟨wo, d⟩ := v
  subst hv
  cases e with
  | caughtUp io => rfl
  | record r io =>
    simp only [shareStep]
    cases hr : r.dataHeader with
    | none => rfl
    | some h => exact if_neg (he r io h rfl hr)

theorem shutOut_step (segsz : WalSegSize) (hd : dm.Fits) (hout : dm.ShutOut pid) (e : LoopEvent) :
    (demuxStep segsz dm e).share pid = dm.share pid ∧ (demuxStep segsz dm e).ShutOut pid := by
  have hshare : (demuxStep segsz dm e).share pid = dm.share pid := by
    by_cases he : dm.HasRoom e
    · obtain ⟨named, hroomy, hn⟩ := hd.step_roomy he
      rw [(share_step hroomy hn pid).1]
      refine shareStep_eq_self hout.1 ?_
      rintro r io h rfl hr rfl
      rcases he h hr with hmem | hlt
      · exact findWriter_eq_none.mp hout.1 hmem
      · exact absurd hlt (Nat.not_lt.mpr hout.2)
    · rw [demuxStep_of_full he]
  exact ⟨hshare, (congrArg Prod.fst hshare).trans hout.1, hout.2.trans (length_step e)⟩

theorem fits_step (segsz : WalSegSize) (hd : dm.Fits) (e : LoopEvent) : (demuxStep segsz dm e).Fits := by
  by_cases he : dm.HasRoom e
  · obtain ⟨named, hroomy, hn⟩ := hd.step_roomy he
    exact (share_step hroomy hn 0).2.fits
  · rw [demuxStep_of_full he]
    exact hd

/-- A partition that is not shut out sees every event. -/
theorem share_step_of_not_shutOut (segsz : WalSegSize) (hd : dm.Fits) (hout : ¬ dm.ShutOut pid) (e : LoopEvent) :
    (demuxStep segsz dm e).share pid = shareStep segsz pid (dm.share pid) e := by
  by_cases he : dm.HasRoom e
  · obtain ⟨named, hroomy, hn⟩ := hd.step_roomy he
    exact (share_step hroomy hn pid).1
  · -- the record that found no room is one of another partition
    rw [demuxStep_of_full he]
    obtain ⟨r, io, h, rfl, hr, hshut⟩ := shutOut_of_not_hasRoom he
    have hne : h.partitionId ≠ pid := fun hp => hout (hp ▸ hshut)
    simp only [shareStep, hr, if_neg hne]

theorem mem_partHeaders {r : XLogRecord} {io : RecordIO} {h : PartWALHeader} (hm : .record r io ∈ es)
    (hr : r.dataHeader = some h) : h ∈ partHeaders h.partitionId (walOf es) := by
  refine List.mem_filter.mpr ⟨List.mem_filterMap.mpr ⟨r, ?_, hr⟩, by simp⟩
  exact List.mem_filterMap.mpr ⟨.record r io, hm, rfl⟩

/-- A partition without a writer, of which the run reads no record. -/
theorem share_of_unread (hd : dm.Fits) (hv : findWriter pid dm.writers = none)
    (hes : partHeaders pid (walOf es) = []) : (demuxRun segsz dm es).share pid = dm.share pid := by
  refine (List.foldlRecOn es (demuxStep segsz)
    (motive := fun cur : Demux => cur.Fits ∧ cur.share pid = dm.share pid) ⟨hd, rfl⟩ ?_).2
  rintro cur ⟨hfits, hshare⟩ e he
  refine ⟨fits_step _ hfits e, ?_⟩
  have hnone : (cur.share pid).1 = none := (congrArg Prod.fst hshare).trans hv
  by_cases hout : cur.ShutOut pid
  · rw [(shutOut_step _ hfits hout e).1, hshare]
  · rw [share_step_of_not_shutOut _ hfits hout e, ← hshare]
    apply shareStep_eq_self hnone
    rintro r io h rfl hr rfl
    have hmem := mem_partHeaders he hr
    rw [hes] at hmem
    cases hmem

/-- A partition's share is what the events do to it, or what they did until the array
was full, when it has no writer. -/
theorem share_or_shutOut (segsz : WalSegSize) (hd : dm.Fits) (pid : Oid) (es : List LoopEvent) :
    ∃ done, done <+: es ∧
      (demuxRun segsz dm es).share pid = done.foldl (shareStep segsz pid) (dm.share pid) ∧
      (done = es ∨ ((demuxRun segsz dm es).share pid).1 = none) := by
  induction es generalizing dm with
  | nil => exact ⟨[], List.prefix_rfl, rfl, Or.inl rfl⟩
  | cons e es ih =>
    by_cases hout : dm.ShutOut pid
    · have hrun : (demuxRun segsz dm (e :: es)).share pid = dm.share pid :=
        (List.foldlRecOn (e :: es) (demuxStep segsz)
          (motive := fun cur => cur.Fits ∧ cur.share pid = dm.share pid ∧ cur.ShutOut pid)
          ⟨hd, rfl, hout⟩ fun cur hcur e _ =>
            have hstep := shutOut_step segsz hcur.1 hcur.2.2 e
            ⟨fits_step _ hcur.1 e, hstep.1.trans hcur.2.1, hstep.2⟩).2.1
      exact ⟨[], List.nil_prefix, hrun, Or.inr ((congrArg Prod.fst hrun).trans hout.1)⟩
    · obtain ⟨done, hpre, hshare, hor⟩ := ih (fits_step segsz hd e)
      have hstep := share_step_of_not_shutOut segsz hd hout e
      refine ⟨e :: done, List.cons_prefix_cons.mpr ⟨rfl, hpre⟩, ?_, ?_⟩
      · rw [List.foldl_cons, ← hstep]
        exact hshare
      · exact hor.imp (congrArg (e :: ·)) id

end

/-- A worker that has just started. -/
def Demux.fresh (parwal : Parwal) : Demux := ⟨[], parwal⟩

theorem roomy_fresh {named : Finset Oid} (h : named.card ≤ demuxMaxPartitions) (parwal : Parwal) :
    (Demux.fresh parwal).Roomy named :=
  ⟨List.nodup_nil, (fun _ hp => nomatch hp), h⟩

theorem fits_fresh (parwal : Parwal) : (Demux.fresh parwal).Fits :=
  ⟨List.nodup_nil, Nat.zero_le _⟩

/-- The directory of a partition of which the run reads no record stays as it was. -/
theorem parwal_of_unread (segsz : WalSegSize) {pid : Oid} {es : List LoopEvent} (parwal : Parwal)
    (hes : partHeaders pid (walOf es) = []) :
    (demuxRun segsz (Demux.fresh parwal) es).parwal pid = parwal pid :=
  congrArg Prod.snd (share_of_unread (fits_fresh parwal) rfl hes)

@[simp] theorem share_fresh (parwal : Parwal) (pid : Oid) :
    (Demux.fresh parwal).share pid = (none, parwal pid) := rfl

end PartDist
