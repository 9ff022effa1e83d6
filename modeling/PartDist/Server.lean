import PartDist.Redo
import PartDist.Routing

/-!
# A running server

The parties that share pg_wal, the LSN table and pg_parwal: backends in
`WritePartitionWALRecord` (partition_wal.c), the Demux worker and `demux_flush`
callers (demux_worker.c), `CleanupPartitionWAL`, checkpoints, restarts and
crashes.  A step is one critical section of a backend, one iteration of the
Demux loop, or one of the other events; `serverStep` takes them in any order,
and a step that is not possible in a state changes nothing.

WAL positions count the whole records before them.  Bytes of a record that is only
partly flushed are not told apart, so that the end of the record just read never lies
beyond the flush position: the loop clamps the position it saves, but stores the other
one as it is in `last_processed_lsn`.

* `Follows.step`: while a worker runs, its writers and files are those of a run
  of the Demux (`demuxRun`) on the records it has read.
-/

namespace PartDist

open Bytes PartWALHeader

/-! ## Calls of `WritePartitionWALRecord` -/

/-- `PARTDIST_PARTITION_MAX_ENTRIES`. -/
def partdistPartitionMaxEntries : Nat := 1024

/-- `PartWALLSNHash`: `next_lsn` of each partition. -/
abbrev PartWALLSNHash := Finmap fun _ : Oid => UInt64

/-- Where a call stands: before its probe under the shared lock, before the scan
of the files, before the exclusive lock, before `XLogInsert`, before `XLogFlush`;
or it has returned, or ended in an error. -/
inductive CallState
  | probing
  | scanning
  | entering (initLsn : UInt64)
  | inserting (lsn : UInt64)
  | flushing (customLsn : Nat)
  | returned (customLsn : Nat)
  | failed
deriving DecidableEq

def CallState.finished : CallState → Bool
  | .returned _ => true
  | .failed => true
  | _ => false

structure Call where
  partitionId : Oid
  flags : UInt8
  origLsn : XLogRecPtr
  state : CallState
deriving DecidableEq

def Call.header (c : Call) (lsn : UInt64) : PartWALHeader :=
  buildHeader c.partitionId c.flags c.origLsn lsn

/-- The value a new entry starts from, given the last one on disk. -/
def initLsn (last : UInt64) : UInt64 := if 0 < last then last + 1 else 1

/-- `HASH_ENTER` and `next_lsn++` under the exclusive lock: the LSN handed out.
The table has a fixed size; `HASH_ENTER` raises when it is full. -/
def allocEnter (pid : Oid) (init : UInt64) (hash : PartWALLSNHash) : Option (UInt64 × PartWALLSNHash) :=
  match hash.lookup pid with
  | some next => some (next, hash.insert pid (next + 1))
  | none =>
    if hash.keys.card < partdistPartitionMaxEntries then some (init, hash.insert pid (init + 1))
    else none

/-! ## `demux_flush` -/

inductive FlushState
  | waiting (waitedMs : Nat)
  | returned
  | timedOut
deriving DecidableEq

structure FlushCall where
  target : Nat
  state : FlushState
deriving DecidableEq

def flushMaxWaitMs : Nat := 30000

/-- One round of the loop: sample `last_processed_lsn`, else sleep 20 ms. -/
def FlushCall.poll (lastProcessed : Option Nat) (f : FlushCall) : FlushCall :=
  match f.state with
  | .waiting waitedMs =>
    if f.target ≤ lastProcessed.getD 0 ∧ lastProcessed ≠ none then { f with state := .returned }
    else if flushMaxWaitMs ≤ waitedMs + 20 then { f with state := .timedOut }
    else { f with state := .waiting (waitedMs + 20) }
  | _ => f

/-! ## The end of a worker -/

/-- `DestroyAllWriters` flushes each writer once more; outside of `PG_TRY` an error
ends the process. -/
def destroyAllWriters (io : Oid → List WriteOutcome) (dm : Demux) : Parwal :=
  (dm.writers.foldl
    (fun (left : Parwal × Bool) w =>
      if left.2 then left
      else
        let c := flushPartitionWALWriter (io w.partitionId) w (left.1 w.partitionId)
        (Function.update left.1 w.partitionId c.dir, c.raised)) (dm.parwal, false)).1

theorem destroyAllWriters_clean (io : Oid → List WriteOutcome) {dm : Demux}
    (hclean : ∀ w ∈ dm.writers, w.buffer = []) : destroyAllWriters io dm = dm.parwal := by
  obtain ⟨ws, parwal⟩ := dm
  unfold destroyAllWriters
  dsimp only at hclean ⊢
  induction ws with
  | nil => rfl
  | cons w ws ih =>
    rw [List.foldl_cons, if_neg (by simp), flush_of_nil (hclean w List.mem_cons_self)]
    dsimp only
    rw [Function.update_eq_self]
    exact ih fun v hv => hclean v (List.mem_cons_of_mem w hv)

/-! ## The server -/

/-- `lastProcessed` is `last_processed_lsn`, `progressFile` the content of
`.demux_progress`; in both `none` is no position.  `running` says that a worker is
in its loop, `startPos` is where it started to read, `endRecPtr` where its reader
stands; they keep their values when it is stopped.  `assigned` records the LSNs
handed out, oldest first. -/
structure Server where
  wal : List XLogRecord
  flushed : Nat
  redoPtr : Nat
  lsnHash : PartWALLSNHash
  calls : List Call
  assigned : List (Oid × UInt64)
  demux : Demux
  running : Bool
  startPos : Nat
  endRecPtr : Nat
  nullStreak : Nat
  saveCounter : Nat
  lastProcessed : Option Nat
  progressFile : Option Nat
  flushes : List FlushCall

/-- One iteration of the loop: caught up; a record read; `XLogReadRecord` gives
NULL, and after four times in a row `XLogFindNextRecord` finds `next`; a segment of
pg_wal cannot be opened and the variable `record`, which is then not assigned, reads
as NULL. -/
inductive Round
  | caughtUp (io : Oid → List WriteOutcome)
  | record (io : RecordIO) (saveOk : Bool)
  | null (next : Option Nat)
  | unavailable (next : Option Nat)

inductive Label
  | begin (pid : Oid) (flags : UInt8) (origLsn : XLogRecPtr) (mkdirOk : Bool)
  | advance (i : Nat) (sc : ScanIO)
  | otherRecord (r : XLogRecord)
  | walFlush (n : Nat)
  | checkpoint (redo : Nat)
  | demuxStart
  | demux (round : Round)
  | demuxStop (io destroyIo : Oid → List WriteOutcome) (saveOk : Bool)
  | flushBegin
  | flushPoll (i : Nat)
  | cleanup (pid : Oid) (keepPtr : XLogRecPtr) (rd : Readdir) (unlinkOk : Nat → Bool)
  | restart
  | crash (keep : Nat) (created : Bool) (rd : Readdir)

/-- A server whose pg_wal and pg_parwal are there, before anything runs. -/
def Server.boot (wal : List XLogRecord) (parwal : Parwal) : Server where
  wal := wal
  flushed := wal.length
  redoPtr := wal.length
  lsnHash := ∅
  calls := []
  assigned := []
  demux := Demux.fresh parwal
  running := false
  startPos := wal.length
  endRecPtr := wal.length
  nullStreak := 0
  saveCounter := 0
  lastProcessed := none
  progressFile := none
  flushes := []

namespace Server

def setCall (s : Server) (i : Nat) (c : Call) (state : CallState) : Server :=
  { s with calls := s.calls.set i { c with state := state } }

/-- The next step of call `c`, which is call number `i`. -/
def callStep (sc : ScanIO) (i : Nat) (c : Call) (s : Server) : Server :=
  match c.state with
  | .probing => s.setCall i c (if c.partitionId ∈ s.lsnHash then .entering 1 else .scanning)
  | .scanning =>
    s.setCall i c (.entering (initLsn
      (getLastWrittenPartitionLSN sc c.partitionId (s.demux.parwal c.partitionId))))
  | .entering init =>
    match allocEnter c.partitionId init s.lsnHash with
    | some (lsn, hash) =>
      { s.setCall i c (.inserting lsn) with
        lsnHash := hash
        assigned := s.assigned ++ [(c.partitionId, lsn)] }
    | none => s.setCall i c .failed
  | .inserting lsn =>
    { s.setCall i c (.flushing (s.wal.length + 1)) with
      wal := s.wal ++ [insertedRecord (c.header lsn)] }
  | .flushing customLsn =>
    { s.setCall i c (.returned customLsn) with flushed := max s.flushed customLsn }
  | .returned _ => s
  | .failed => s

/-- `SaveDemuxProgress`, best effort, clamped to the flush position. -/
def saveDemuxProgress (ok : Bool) (s : Server) : Server :=
  if ok then { s with progressFile := some (min s.endRecPtr s.flushed) } else s

/-- After a record: `last_processed_lsn`, and the progress file every 16 records. -/
def advanceProgress (saveOk : Bool) (s : Server) : Server :=
  let s := { s with lastProcessed := some s.endRecPtr, saveCounter := s.saveCounter + 1 }
  if 16 ≤ s.saveCounter then { s.saveDemuxProgress saveOk with saveCounter := 0 } else s

/-- `record == NULL` with the reader at `pos`: the fourth time in a row it goes on at
the next valid record, if there is one. -/
def nullPos (s : Server) (pos : Nat) (next : Option Nat) : Nat :=
  if 3 < s.nullStreak + 1 then max pos (min (next.getD pos) s.wal.length) else pos

/-- Where an iteration that reads no record leaves the reader.  When a segment cannot
be opened it is first put at the flush position. -/
def skipTo (s : Server) : Label → Nat
  | .demux (.null next) => s.nullPos s.endRecPtr next
  | .demux (.unavailable next) => s.nullPos s.flushed next
  | _ => s.endRecPtr

/-- `null_streak` after it. -/
def nextStreak (s : Server) : Nat := if 3 < s.nullStreak + 1 then 0 else s.nullStreak + 1

/-- An iteration while the reader stands before the flush position. -/
def readRound (segsz : WalSegSize) (round : Round) (s : Server) : Server :=
  match round with
  | .record io saveOk =>
    match s.wal[s.endRecPtr]? with
    | some r =>
      advanceProgress saveOk { s with
        demux := demuxStep segsz s.demux (.record r io)
        endRecPtr := s.endRecPtr + 1
        nullStreak := 0 }
    | none => s
  | .null next =>
    { s with
      endRecPtr := s.skipTo (.demux (.null next))
      nullStreak := s.nextStreak }
  | .unavailable next =>
    -- the `continue` in PG_CATCH only leaves the `do` of PG_TRY
    { s with
      endRecPtr := s.skipTo (.demux (.unavailable next))
      nullStreak := s.nextStreak }
  | .caughtUp _ => s

/-- Caught up at `flushLsn`: `last_processed_lsn` is raised to it. -/
def raiseProcessed (flushLsn : Nat) : Option Nat → Option Nat
  | none => some flushLsn
  | some last => if last < flushLsn then some flushLsn else some last

/-- An iteration while it does not. -/
def idleRound (segsz : WalSegSize) (round : Round) (s : Server) : Server :=
  match round with
  | .caughtUp io =>
    { s with
      demux := demuxStep segsz s.demux (.caughtUp io)
      lastProcessed := raiseProcessed s.flushed s.lastProcessed }
  | _ => s

def demuxIteration (segsz : WalSegSize) (round : Round) (s : Server) : Server :=
  if s.flushed ≤ s.endRecPtr then s.idleRound segsz round else s.readRound segsz round

/-- The way out of the loop after SIGTERM: flush, save the progress, destroy the
writers. -/
def demuxShutdown (segsz : WalSegSize) (io destroyIo : Oid → List WriteOutcome) (saveOk : Bool)
    (s : Server) : Server :=
  { (s.saveDemuxProgress saveOk) with
    demux := Demux.fresh (destroyAllWriters destroyIo (demuxStep segsz s.demux (.caughtUp io)))
    running := false }

end Server

/-- `XLogSegNoOffsetToRecPtr(segno + 1, 0)`. -/
def segEnd (segsz : WalSegSize) (segno : Nat) : XLogRecPtr := UInt64.ofNat ((segno + 1) * segsz.bytes)

/-- Unlinks the listed segments that end at or before `keepPtr`; an `unlink` that
fails is warned about. -/
def cleanupPartitionWAL (segsz : WalSegSize) (keepPtr : XLogRecPtr) (rd : Readdir) (unlinkOk : Nat → Bool)
    (d : Dir) : Dir :=
  (rd.order d.names).foldl
    (fun d s => if segEnd segsz s ≤ keepPtr ∧ unlinkOk s = true then d.unlink s else d) d

namespace Server

/-- What a crash of the server leaves of pg_parwal: the bytes it has written, for the page
cache is kept, also where a flush failed; `created` if the Demux had only created the
segment file of the next record. -/
def crashParwal (segsz : WalSegSize) (created : Bool) (s : Server) : Parwal :=
  match (s.wal[s.endRecPtr]?).bind XLogRecord.dataHeader with
  | some h =>
    if created = true ∧ s.running = true ∧ s.endRecPtr < s.flushed then
      Function.update s.demux.parwal h.partitionId
        ((s.demux.parwal h.partitionId).openCreate (segnoOf segsz h))
    else s.demux.parwal
  | none => s.demux.parwal

/-- A crash that keeps `keep` records of pg_wal, and recovery: the records from the
redo position on are replayed. -/
def crashRecovery (segsz : WalSegSize) (keep : Nat) (created : Bool) (rd : Readdir) (s : Server) :
    Server :=
  { s with
    wal := s.wal.take keep
    flushed := keep
    redoPtr := keep
    lsnHash := ∅
    calls := []
    demux := Demux.fresh (redoAll segsz rd ((s.wal.take keep).drop s.redoPtr) (s.crashParwal segsz created))
    running := false
    startPos := keep
    endRecPtr := keep
    lastProcessed := none
    flushes := [] }

end Server

open Server

def serverStep (segsz : WalSegSize) (s : Server) : Label → Server
  | .begin pid flags origLsn mkdirOk =>
    { s with calls := s.calls ++ [⟨pid, flags, origLsn, if mkdirOk then .probing else .failed⟩] }
  | .advance i sc =>
    match s.calls[i]? with
    | some c => callStep sc i c s
    | none => s
  | .otherRecord r => if r.rmid ≠ rmExperimentalId then { s with wal := s.wal ++ [r] } else s
  | .walFlush n => { s with flushed := max s.flushed (min n s.wal.length) }
  | .checkpoint redo => if s.redoPtr ≤ redo ∧ redo ≤ s.flushed then { s with redoPtr := redo } else s
  | .demuxStart =>
    if s.running then s
    else
      { s with
        demux := Demux.fresh s.demux.parwal
        running := true
        startPos := s.flushed
        endRecPtr := s.flushed
        nullStreak := 0
        saveCounter := 0 }
  | .demux round => if s.running then s.demuxIteration segsz round else s
  | .demuxStop io destroyIo saveOk =>
    if s.running then s.demuxShutdown segsz io destroyIo saveOk else s
  | .flushBegin => { s with flushes := s.flushes ++ [⟨s.flushed, .waiting 0⟩] }
  | .flushPoll i =>
    match s.flushes[i]? with
    | some f => { s with flushes := s.flushes.set i (f.poll s.lastProcessed) }
    | none => s
  | .cleanup pid keepPtr rd unlinkOk =>
    { s with
      demux := { s.demux with
        parwal := Function.update s.demux.parwal pid
          (cleanupPartitionWAL segsz keepPtr rd unlinkOk (s.demux.parwal pid)) } }
  | .restart =>
    if s.running then s
    else
      { s with
        flushed := s.wal.length
        redoPtr := s.wal.length
        lsnHash := ∅
        calls := []
        lastProcessed := none
        flushes := [] }
  | .crash keep created rd =>
    if s.flushed ≤ keep ∧ keep ≤ s.wal.length then s.crashRecovery segsz keep created rd else s

def serverRun (segsz : WalSegSize) (s : Server) (ls : List Label) : Server := ls.foldl (serverStep segsz) s

/-! ## What the steps do -/

/-- Steps of backends, of the checkpointer and of `demux_flush`. -/
def Label.Backend : Label → Prop
  | .begin .. => True
  | .advance .. => True
  | .otherRecord _ => True
  | .walFlush _ => True
  | .checkpoint _ => True
  | .flushBegin => True
  | .flushPoll _ => True
  | _ => False

/-- What belongs to the worker stays as it is, and the flush position does not go back. -/
structure Server.SameWorker (s s' : Server) : Prop where
  demux : s'.demux = s.demux
  running : s'.running = s.running
  startPos : s'.startPos = s.startPos
  endRecPtr : s'.endRecPtr = s.endRecPtr
  lastProcessed : s'.lastProcessed = s.lastProcessed
  flushed : s.flushed ≤ s'.flushed

namespace Server

section
variable {segsz : WalSegSize} {s : Server}

/-- A step of a call touches pg_wal, the LSN table and the calls. -/
theorem callStep_eq (sc : ScanIO) (i : Nat) (c : Call) (s : Server) :
    callStep sc i c s = { s with
      wal := (callStep sc i c s).wal
      flushed := (callStep sc i c s).flushed
      lsnHash := (callStep sc i c s).lsnHash
      calls := (callStep sc i c s).calls
      assigned := (callStep sc i c s).assigned } := by
  unfold callStep setCall
  split
  · rfl
  · rfl
  · split <;> rfl
  · rfl
  · rfl
  · rfl
  · rfl

theorem flushed_callStep {sc : ScanIO} {i start : Nat} {c : Call} (h : start ≤ s.flushed) :
    start ≤ (callStep sc i c s).flushed := by
  unfold callStep setCall
  split
  · exact h
  · exact h
  · split <;> exact h
  · exact h
  · exact Nat.le_trans h (Nat.le_max_left _ _)
  · exact h
  · exact h

theorem sameWorker_backend (s : Server) (segsz : WalSegSize) {l : Label} (hl : l.Backend) :
    s.SameWorker (serverStep segsz s l) := by
  have hsame : s.SameWorker s := ⟨rfl, rfl, rfl, rfl, rfl, Nat.le_refl _⟩
  cases l with
  | begin pid flags origLsn mkdirOk => exact ⟨rfl, rfl, rfl, rfl, rfl, Nat.le_refl _⟩
  | advance i sc =>
    simp only [serverStep]
    split
    · next c _ =>
      have hflushed : s.flushed ≤ (callStep sc i c s).flushed := flushed_callStep (Nat.le_refl _)
      rw [callStep_eq]
      exact ⟨rfl, rfl, rfl, rfl, rfl, hflushed⟩
    · exact hsame
  | otherRecord r =>
    simp only [serverStep]
    split
    · exact ⟨rfl, rfl, rfl, rfl, rfl, Nat.le_refl _⟩
    · exact hsame
  | walFlush n => exact ⟨rfl, rfl, rfl, rfl, rfl, Nat.le_max_left _ _⟩
  | checkpoint redo =>
    simp only [serverStep]
    split
    · exact ⟨rfl, rfl, rfl, rfl, rfl, Nat.le_refl _⟩
    · exact hsame
  | flushBegin => exact ⟨rfl, rfl, rfl, rfl, rfl, Nat.le_refl _⟩
  | flushPoll i =>
    simp only [serverStep]
    split
    · exact ⟨rfl, rfl, rfl, rfl, rfl, Nat.le_refl _⟩
    · exact hsame
  | _ => exact absurd hl id

theorem saveDemuxProgress_eq (ok : Bool) (s : Server) :
    s.saveDemuxProgress ok = { s with progressFile := (s.saveDemuxProgress ok).progressFile } := by
  unfold saveDemuxProgress
  split <;> rfl

theorem advanceProgress_eq (ok : Bool) (s : Server) :
    s.advanceProgress ok = { s with
      lastProcessed := some s.endRecPtr
      saveCounter := (s.advanceProgress ok).saveCounter
      progressFile := (s.advanceProgress ok).progressFile } := by
  unfold advanceProgress
  dsimp only
  split
  · rw [saveDemuxProgress_eq]
  · rfl

/-- An iteration touches the worker and its progress. -/
theorem demuxIteration_eq (segsz : WalSegSize) (round : Round) (s : Server) :
    s.demuxIteration segsz round = { s with
      demux := (s.demuxIteration segsz round).demux
      endRecPtr := (s.demuxIteration segsz round).endRecPtr
      nullStreak := (s.demuxIteration segsz round).nullStreak
      saveCounter := (s.demuxIteration segsz round).saveCounter
      lastProcessed := (s.demuxIteration segsz round).lastProcessed
      progressFile := (s.demuxIteration segsz round).progressFile } := by
  unfold demuxIteration
  split
  · cases round <;> rfl
  · cases round with
    | record io saveOk =>
      simp only [readRound]
      split
      · rw [advanceProgress_eq]
      · rfl
    | _ => rfl

theorem le_nullPos (s : Server) (pos : Nat) (next : Option Nat) : pos ≤ s.nullPos pos next := by
  unfold nullPos
  split <;> omega

theorem nullPos_le {pos : Nat} (next : Option Nat) (h : pos ≤ s.wal.length) :
    s.nullPos pos next ≤ s.wal.length := by
  unfold nullPos
  split <;> omega

/-- What an iteration of the loop does: it flushes all writers, processes the
record at the reader's position, moves the reader without reading, or nothing. -/
theorem demuxIteration_cases (segsz : WalSegSize) (round : Round) (hs : s.flushed ≤ s.wal.length) :
    (∃ io, round = .caughtUp io ∧ s.flushed ≤ s.endRecPtr ∧
      s.demuxIteration segsz round = { s with
        demux := flushAllWriters io s.demux
        lastProcessed := raiseProcessed s.flushed s.lastProcessed }) ∨
    (∃ io saveOk r, round = .record io saveOk ∧ s.endRecPtr < s.flushed ∧
      s.wal[s.endRecPtr]? = some r ∧
      s.demuxIteration segsz round = { s with
        demux := processRecord segsz io r s.demux
        endRecPtr := s.endRecPtr + 1
        nullStreak := 0
        lastProcessed := some (s.endRecPtr + 1)
        saveCounter := (s.demuxIteration segsz round).saveCounter
        progressFile := (s.demuxIteration segsz round).progressFile }) ∨
    (s.endRecPtr < s.flushed ∧ s.endRecPtr ≤ s.skipTo (.demux round) ∧
      s.skipTo (.demux round) ≤ s.wal.length ∧
      ((∃ next, round = .null next) ∨ ∃ next, round = .unavailable next) ∧
      s.demuxIteration segsz round = { s with
        endRecPtr := s.skipTo (.demux round)
        nullStreak := (s.demuxIteration segsz round).nullStreak }) ∨
    (((∀ io, round ≠ .caughtUp io) ∧ s.flushed ≤ s.endRecPtr ∨
        (∃ io, round = .caughtUp io) ∧ s.endRecPtr < s.flushed) ∧
      s.demuxIteration segsz round = s) := by
  unfold demuxIteration
  split
  · next hidle =>
    cases round with
    | caughtUp io => exact Or.inl ⟨io, rfl, hidle, rfl⟩
    | _ => exact Or.inr (Or.inr (Or.inr ⟨Or.inl ⟨(fun io he => nomatch he), hidle⟩, rfl⟩))
  · next hlt =>
    rw [Nat.not_le] at hlt
    cases round with
    | caughtUp io => exact Or.inr (Or.inr (Or.inr ⟨Or.inr ⟨⟨io, rfl⟩, hlt⟩, rfl⟩))
    | record io saveOk =>
      have hlen : s.endRecPtr < s.wal.length := by omega
      have hr : s.wal[s.endRecPtr]? = some s.wal[s.endRecPtr] := List.getElem?_eq_getElem hlen
      refine Or.inr (Or.inl ⟨io, saveOk, _, rfl, hlt, hr, ?_⟩)
      simp only [readRound, hr]
      rw [advanceProgress_eq]
      rfl
    | null next =>
      refine Or.inr (Or.inr (Or.inl ⟨hlt, ?_, ?_, Or.inl ⟨next, rfl⟩, rfl⟩))
      · exact s.le_nullPos _ next
      · exact nullPos_le next (by omega)
    | unavailable next =>
      refine Or.inr (Or.inr (Or.inl ⟨hlt, ?_, ?_, Or.inr ⟨next, rfl⟩, rfl⟩))
      · exact (Nat.le_of_lt hlt).trans (s.le_nullPos _ next)
      · exact nullPos_le next hs

/-- The call that a step takes through `XLogInsert`, and its LSN. -/
def inserts (s : Server) : Label → Option (Call × UInt64)
  | .advance i _ => (s.calls[i]?).bind fun c =>
    match c.state with
    | .inserting lsn => some (c, lsn)
    | _ => none
  | _ => none

/-- The records a step adds to pg_wal. -/
def added (s : Server) : Label → List XLogRecord
  | .advance i sc => (s.inserts (.advance i sc)).toList.map fun x => insertedRecord (x.1.header x.2)
  | .otherRecord r => if r.rmid ≠ rmExperimentalId then [r] else []
  | _ => []

theorem callStep_wal (sc : ScanIO) {i : Nat} {c : Call} (hc : s.calls[i]? = some c) :
    (callStep sc i c s).wal = s.wal ++ s.added (.advance i sc) := by
  simp only [callStep, added, inserts, setCall, hc, Option.bind_some]
  cases c.state with
  | inserting lsn => rfl
  | entering init => dsimp only; split <;> simp
  | _ => simp

/-- pg_wal only grows, except in a crash. -/
theorem wal_step (segsz : WalSegSize) {l : Label} (hl : ∀ keep created rd, l ≠ .crash keep created rd) :
    (serverStep segsz s l).wal = s.wal ++ s.added l := by
  cases l with
  | advance i sc =>
    simp only [serverStep]
    cases hc : s.calls[i]? with
    | some c => exact callStep_wal sc hc
    | none => simp [added, inserts, hc]
  | otherRecord r => simp only [serverStep, added]; split <;> simp
  | crash keep created rd => exact absurd rfl (hl keep created rd)
  | demux round =>
    simp only [serverStep, added, List.append_nil]
    split
    · rw [demuxIteration_eq]
    · rfl
  | demuxStop io destroyIo saveOk =>
    simp only [serverStep, added, List.append_nil]
    split
    · rw [demuxShutdown, saveDemuxProgress_eq]
    · rfl
  | checkpoint redo => simp only [serverStep, added, List.append_nil]; split <;> rfl
  | demuxStart => simp only [serverStep, added, List.append_nil]; split <;> rfl
  | restart => simp only [serverStep, added, List.append_nil]; split <;> rfl
  | flushPoll i => simp only [serverStep, added, List.append_nil]; split <;> rfl
  | _ => simp [serverStep, added]

/-- The positions lie within pg_wal. -/
structure Placed (s : Server) : Prop where
  flushed_le : s.flushed ≤ s.wal.length
  redo_le : s.redoPtr ≤ s.flushed
  custom_le : ∀ c ∈ s.calls, ∀ n, c.state = .flushing n → n ≤ s.wal.length
  start_le : s.startPos ≤ s.endRecPtr
  end_le : s.endRecPtr ≤ s.wal.length

theorem placed_boot (wal : List XLogRecord) (parwal : Parwal) : (boot wal parwal).Placed :=
  ⟨Nat.le_refl _, Nat.le_refl _, (fun _ hc => nomatch hc), Nat.le_refl _, Nat.le_refl _⟩

theorem custom_setCall {i : Nat} {c : Call} {state : CallState} {m : Nat}
    (hs : ∀ c ∈ s.calls, ∀ n, c.state = .flushing n → n ≤ m) (hst : ∀ n, state = .flushing n → n ≤ m) :
    ∀ c' ∈ (s.setCall i c state).calls, ∀ n, c'.state = .flushing n → n ≤ m := by
  intro c' hc' n hn
  rcases List.mem_or_eq_of_mem_set hc' with hc' | rfl
  · exact hs c' hc' n hn
  · exact hst n hn

theorem placed_callStep (hs : s.Placed) (sc : ScanIO) {i : Nat} {c : Call} (hc : s.calls[i]? = some c) :
    (callStep sc i c s).Placed := by
  obtain ⟨hfl, hredo, hcust, hstart, hend⟩ := hs
  have hquiet : ∀ state, (∀ n, state = .flushing n → n ≤ s.wal.length) → (s.setCall i c state).Placed :=
    fun state hst => ⟨hfl, hredo, custom_setCall hcust hst, hstart, hend⟩
  unfold callStep
  split
  · exact hquiet _ fun n hn => by split at hn <;> cases hn
  · exact hquiet _ fun n hn => nomatch hn
  · split
    · obtain ⟨hfl, hredo, hcust, hstart, hend⟩ := hquiet (.inserting _) fun n hn => nomatch hn
      exact ⟨hfl, hredo, hcust, hstart, hend⟩
    · exact hquiet _ fun n hn => nomatch hn
  · refine ⟨?_, hredo, ?_, hstart, ?_⟩
    · simp only [List.length_append, List.length_cons, List.length_nil]
      show s.flushed ≤ _
      omega
    · simp only [List.length_append, List.length_cons, List.length_nil]
      refine custom_setCall (fun c' hc' n hn => ?_) fun n hn => ?_
      · have := hcust c' hc' n hn; omega
      · obtain rfl := CallState.flushing.inj hn; omega
    · simp only [List.length_append, List.length_cons, List.length_nil]
      show s.endRecPtr ≤ _
      omega
  · next n hn =>
    have hn := hcust c (List.mem_of_getElem? hc) n hn
    refine ⟨?_, ?_, custom_setCall hcust (fun n hn => nomatch hn), hstart, hend⟩
    · exact Nat.max_le.mpr ⟨hfl, hn⟩
    · show s.redoPtr ≤ max s.flushed n
      omega
  · exact ⟨hfl, hredo, hcust, hstart, hend⟩
  · exact ⟨hfl, hredo, hcust, hstart, hend⟩

theorem placed_step (segsz : WalSegSize) (hs : s.Placed) (l : Label) : (serverStep segsz s l).Placed := by
  obtain ⟨hfl, hredo, hcust, hstart, hend⟩ := hs
  cases l with
  | begin pid flags origLsn mkdirOk =>
    refine ⟨hfl, hredo, fun c hc n hn => ?_, hstart, hend⟩
    rcases List.mem_append.mp hc with hc | hc
    · exact hcust c hc n hn
    · obtain rfl := List.mem_singleton.mp hc
      dsimp only at hn
      split at hn <;> cases hn
  | advance i sc =>
    simp only [serverStep]
    cases hc : s.calls[i]? with
    | some c => exact placed_callStep ⟨hfl, hredo, hcust, hstart, hend⟩ sc hc
    | none => exact ⟨hfl, hredo, hcust, hstart, hend⟩
  | otherRecord r =>
    simp only [serverStep]
    split
    · refine ⟨?_, hredo, fun c hc n hn => ?_, hstart, ?_⟩
      · simp only [List.length_append, List.length_cons, List.length_nil]; omega
      · have := hcust c hc n hn
        simp only [List.length_append, List.length_cons, List.length_nil]; omega
      · simp only [List.length_append, List.length_cons, List.length_nil]; omega
    · exact ⟨hfl, hredo, hcust, hstart, hend⟩
  | walFlush n =>
    refine ⟨?_, ?_, hcust, hstart, hend⟩
    · simp only [serverStep]; omega
    · simp only [serverStep]; omega
  | checkpoint redo =>
    simp only [serverStep]
    split
    · next h => exact ⟨hfl, h.2, hcust, hstart, hend⟩
    · exact ⟨hfl, hredo, hcust, hstart, hend⟩
  | demuxStart =>
    simp only [serverStep]
    split
    · exact ⟨hfl, hredo, hcust, hstart, hend⟩
    · exact ⟨hfl, hredo, hcust, Nat.le_refl _, hfl⟩
  | demux round =>
    simp only [serverStep]
    split
    · rcases demuxIteration_cases segsz round hfl with
        ⟨io, -, -, he⟩ | ⟨io, saveOk, r, -, hlt, -, he⟩ | ⟨-, hle, hpos, -, he⟩ | ⟨-, he⟩
      · rw [he]; exact ⟨hfl, hredo, hcust, hstart, hend⟩
      · rw [he]; exact ⟨hfl, hredo, hcust, Nat.le_succ_of_le hstart, Nat.le_trans hlt hfl⟩
      · rw [he]; exact ⟨hfl, hredo, hcust, Nat.le_trans hstart hle, hpos⟩
      · rw [he]; exact ⟨hfl, hredo, hcust, hstart, hend⟩
    · exact ⟨hfl, hredo, hcust, hstart, hend⟩
  | demuxStop io destroyIo saveOk =>
    simp only [serverStep]
    split
    · rw [demuxShutdown, saveDemuxProgress_eq]
      exact ⟨hfl, hredo, hcust, hstart, hend⟩
    · exact ⟨hfl, hredo, hcust, hstart, hend⟩
  | flushBegin => exact ⟨hfl, hredo, hcust, hstart, hend⟩
  | flushPoll i =>
    simp only [serverStep]
    split <;> exact ⟨hfl, hredo, hcust, hstart, hend⟩
  | cleanup pid keepPtr rd unlinkOk => exact ⟨hfl, hredo, hcust, hstart, hend⟩
  | restart =>
    simp only [serverStep]
    split
    · exact ⟨hfl, hredo, hcust, hstart, hend⟩
    · exact ⟨Nat.le_refl _, Nat.le_refl _, (fun _ hc => nomatch hc), hstart, hend⟩
  | crash keep created rd =>
    simp only [serverStep]
    split
    · next h =>
      have hlen : (s.wal.take keep).length = keep := by rw [List.length_take]; omega
      refine ⟨?_, Nat.le_refl _, (fun _ hc => nomatch hc), Nat.le_refl _, ?_⟩
      · rw [crashRecovery, hlen]
      · rw [crashRecovery, hlen]
    · exact ⟨hfl, hredo, hcust, hstart, hend⟩

/-- But for a crash neither the flush position nor the reader goes back behind `start`. -/
theorem start_le_step (segsz : WalSegSize) (hs : s.Placed) {l : Label}
    (hcrash : ∀ keep created rd, l ≠ .crash keep created rd) {start : Nat} (hflushed : start ≤ s.flushed)
    (hreader : start ≤ s.endRecPtr) :
    start ≤ (serverStep segsz s l).flushed ∧ start ≤ (serverStep segsz s l).endRecPtr := by
  have hbackend : l.Backend →
      start ≤ (serverStep segsz s l).flushed ∧ start ≤ (serverStep segsz s l).endRecPtr := fun hl => by
    have hsame := s.sameWorker_backend segsz hl
    exact ⟨hflushed.trans hsame.flushed, hsame.endRecPtr ▸ hreader⟩
  cases l with
  | demuxStart =>
    simp only [serverStep]
    split
    · exact ⟨hflushed, hreader⟩
    · exact ⟨hflushed, hflushed⟩
  | demux round =>
    simp only [serverStep]
    split
    · rcases demuxIteration_cases segsz round hs.flushed_le with
        ⟨io, -, -, he⟩ | ⟨io, saveOk, r, -, -, -, he⟩ | ⟨-, hle, -, -, he⟩ | ⟨-, he⟩
      · rw [he]; exact ⟨hflushed, hreader⟩
      · rw [he]; exact ⟨hflushed, Nat.le_succ_of_le hreader⟩
      · rw [he]; exact ⟨hflushed, hreader.trans hle⟩
      · rw [he]; exact ⟨hflushed, hreader⟩
    · exact ⟨hflushed, hreader⟩
  | demuxStop io destroyIo saveOk =>
    simp only [serverStep]
    split
    · rw [demuxShutdown, saveDemuxProgress_eq]
      exact ⟨hflushed, hreader⟩
    · exact ⟨hflushed, hreader⟩
  | cleanup => exact ⟨hflushed, hreader⟩
  | restart =>
    simp only [serverStep]
    split
    · exact ⟨hflushed, hreader⟩
    · exact ⟨hflushed.trans hs.flushed_le, hreader⟩
  | crash keep created rd => exact absurd rfl (hcrash keep created rd)
  | _ => exact hbackend trivial

/-! ## The worker is a run of the Demux -/

/-- The event of the Demux that a step is. -/
def event (s : Server) : Label → Option LoopEvent
  | .demux (.caughtUp io) =>
    if s.running = true ∧ s.flushed ≤ s.endRecPtr then some (.caughtUp io) else none
  | .demux (.record io _) =>
    if s.running = true ∧ s.endRecPtr < s.flushed then (s.wal[s.endRecPtr]?).map fun r => .record r io
    else none
  | _ => none

/-- The reader passes over no DATA record. -/
def SkipsNothing (s : Server) (l : Label) : Prop :=
  s.running = true → s.endRecPtr < s.flushed →
    dataHeaders ((s.wal.take (s.skipTo l)).drop s.endRecPtr) = []

instance (s : Server) (l : Label) : Decidable (s.SkipsNothing l) :=
  inferInstanceAs (Decidable (_ → _ → _ = _))

end

end Server

/-- Steps that neither end a worker nor touch the files behind its back. -/
def Label.Serves : Label → Prop
  | .demuxStop .. => False
  | .cleanup .. => False
  | .restart => False
  | .crash .. => False
  | _ => True

/-- Steps that touch the files only through a worker. -/
def Label.KeepsFiles : Label → Prop
  | .cleanup .. => False
  | .crash .. => False
  | _ => True

theorem Label.Serves.keepsFiles {l : Label} (h : l.Serves) : l.KeepsFiles := by
  cases l with
  | cleanup => exact absurd h id
  | crash => exact absurd h id
  | _ => trivial

theorem Label.KeepsFiles.not_crash {l : Label} (h : l.KeepsFiles) (keep : Nat) (created : Bool)
    (rd : Readdir) : l ≠ .crash keep created rd := by
  rintro rfl
  exact h

/-- The worker, started on the files `base`, has done what the events `es` do; each
of them met `P`; they are the DATA records between its start and its position. -/
structure Server.Follows (segsz : WalSegSize) (P : Demux → LoopEvent → Prop) (base : Parwal)
    (es : List LoopEvent) (s : Server) : Prop where
  demux : s.demux = demuxRun segsz (Demux.fresh base) es
  along : Run.Along (demuxStep segsz) P (Demux.fresh base) es
  read : dataHeaders (walOf es) = dataHeaders ((s.wal.take s.endRecPtr).drop s.startPos)

section
variable {segsz : WalSegSize} {P : Demux → LoopEvent → Prop} {base : Parwal} {es : List LoopEvent}
  {s : Server}

theorem dataHeaders_append (l l' : List XLogRecord) :
    dataHeaders (l ++ l') = dataHeaders l ++ dataHeaders l' := List.filterMap_append

theorem walOf_append (es es' : List LoopEvent) : walOf (es ++ es') = walOf es ++ walOf es' :=
  List.filterMap_append

/-- A stretch of pg_wal in two parts. -/
theorem drop_take_split (wal : List XLogRecord) {a b c : Nat} (hab : a ≤ b) (hbc : b ≤ c) :
    (wal.take c).drop a = (wal.take b).drop a ++ (wal.take c).drop b := by
  have hfirst : (wal.take b).drop a = ((wal.take c).drop a).take (b - a) := by
    rw [← List.drop_take, List.take_take, Nat.min_eq_left hbc]
  have hsecond : (wal.take c).drop b = ((wal.take c).drop a).drop (b - a) := by
    rw [List.drop_drop, Nat.add_sub_cancel' hab]
  rw [hfirst, hsecond, List.take_append_drop]

theorem mem_drop_of_getElem? {wal : List XLogRecord} {start n : Nat} {r : XLogRecord} (hr : wal[n]? = some r)
    (hle : start ≤ n) : r ∈ wal.drop start := by
  apply List.mem_of_getElem? (i := n - start)
  rw [List.getElem?_drop, Nat.add_sub_cancel' hle]
  exact hr

theorem drop_take_singleton {wal : List XLogRecord} {a : Nat} {r : XLogRecord} (hr : wal[a]? = some r) :
    (wal.take (a + 1)).drop a = [r] := by
  obtain ⟨hlt, rfl⟩ := List.getElem?_eq_some_iff.mp hr
  rw [List.take_succ_eq_append_getElem hlt, List.drop_left' (by rw [List.length_take]; omega)]

theorem Server.follows_start (segsz : WalSegSize) (hs : s.running = false) :
    (serverStep segsz s .demuxStart).Follows segsz P s.demux.parwal [] := by
  simp only [serverStep, hs, Bool.false_eq_true, if_false]
  refine ⟨rfl, trivial, ?_⟩
  have hnil : (s.wal.take s.flushed).drop s.flushed = [] := by simp
  rw [hnil]
  rfl

/-- While no worker runs the files stay as they are. -/
theorem Server.stopped_step (segsz : WalSegSize) {l : Label} (hrun : s.running = false) (hl : l.KeepsFiles)
    (hstart : l ≠ .demuxStart) :
    (serverStep segsz s l).running = false ∧ (serverStep segsz s l).demux = s.demux ∧
      (serverStep segsz s l).endRecPtr = s.endRecPtr ∧
      ((serverStep segsz s l).lastProcessed = s.lastProcessed ∨
        (serverStep segsz s l).lastProcessed = none) := by
  have hbackend : l.Backend →
      (serverStep segsz s l).running = false ∧ (serverStep segsz s l).demux = s.demux ∧
        (serverStep segsz s l).endRecPtr = s.endRecPtr ∧
        ((serverStep segsz s l).lastProcessed = s.lastProcessed ∨
          (serverStep segsz s l).lastProcessed = none) := fun hl' => by
    have hsame := s.sameWorker_backend segsz hl'
    exact ⟨hsame.running.trans hrun, hsame.demux, hsame.endRecPtr, Or.inl hsame.lastProcessed⟩
  cases l with
  | demux round =>
    simp only [serverStep, hrun, Bool.false_eq_true, if_false]
    exact ⟨trivial, trivial, trivial, Or.inl trivial⟩
  | demuxStop io destroyIo saveOk =>
    simp only [serverStep, hrun, Bool.false_eq_true, if_false]
    exact ⟨trivial, trivial, trivial, Or.inl trivial⟩
  | restart =>
    simp only [serverStep, hrun, Bool.false_eq_true, if_false]
    exact ⟨trivial, trivial, trivial, Or.inr trivial⟩
  | demuxStart => exact absurd rfl hstart
  | cleanup => exact absurd hl id
  | crash => exact absurd hl id
  | _ => exact hbackend trivial

/-- A step of someone else, which can only append to pg_wal. -/
theorem Server.Follows.other {s' : Server} (hf : s.Follows segsz P base es) (hs : s.Placed)
    (hsame : s.SameWorker s') (hwal : ∃ new, s'.wal = s.wal ++ new) : s'.Follows segsz P base es := by
  obtain ⟨new, hwal⟩ := hwal
  refine ⟨hsame.demux.trans hf.demux, hf.along, ?_⟩
  rw [hwal, hsame.startPos, hsame.endRecPtr, List.take_append_of_le_length hs.end_le]
  exact hf.read

/-- One step of the server is one step of the Demux, or none. -/
theorem Server.Follows.step {l : Label} (hf : s.Follows segsz P base es) (hs : s.Placed)
    (hrun : s.running = true) (hl : l.Serves) (hskip : s.SkipsNothing l)
    (hP : ∀ e ∈ s.event l, P s.demux e) :
    (serverStep segsz s l).Follows segsz P base (es ++ (s.event l).toList) ∧
      (serverStep segsz s l).running = true ∧ (serverStep segsz s l).startPos = s.startPos := by
  have hwal : ∃ new, (serverStep segsz s l).wal = s.wal ++ new :=
    ⟨_, wal_step _ hl.keepsFiles.not_crash⟩
  -- the event appended to those done
  have hsnoc : ∀ e, s.event l = some e → ∀ s' : Server,
      s'.demux = demuxStep segsz s.demux e → s'.wal = s.wal → s'.startPos = s.startPos →
      dataHeaders (walOf [e]) = dataHeaders ((s.wal.take s'.endRecPtr).drop s.endRecPtr) →
      s.endRecPtr ≤ s'.endRecPtr → s'.Follows segsz P base (es ++ [e]) := by
    intro e he s' hd hw hst hread hle
    have hP := hP e he
    refine ⟨?_, ?_, ?_⟩
    · rw [hd, hf.demux, demuxRun, demuxRun, List.foldl_append]
      rfl
    · rw [Run.along_snoc]
      exact ⟨hf.along, by rw [← demuxRun, ← hf.demux]; exact hP⟩
    · rw [hw, hst, drop_take_split s.wal hs.start_le hle, walOf_append, dataHeaders_append,
        dataHeaders_append, hf.read, hread]
  have hbackend : l.Backend → s.event l = none →
      (serverStep segsz s l).Follows segsz P base (es ++ (s.event l).toList) ∧
        (serverStep segsz s l).running = true ∧ (serverStep segsz s l).startPos = s.startPos := by
    intro hl' hev
    have hsame := s.sameWorker_backend segsz hl'
    rw [hev, Option.toList_none, List.append_nil]
    exact ⟨hf.other hs hsame hwal, hsame.running.trans hrun, hsame.startPos⟩
  cases l with
  | demux round =>
    simp only [serverStep, hrun, if_true] at hwal ⊢
    rcases demuxIteration_cases segsz round hs.flushed_le with
      ⟨io, rfl, hle, he⟩ | ⟨io, saveOk, r, rfl, hlt, hr, he⟩ | ⟨hlt, hle, hpos, hround, he⟩ | ⟨hround, he⟩
    · have hev : s.event (.demux (.caughtUp io)) = some (.caughtUp io) := if_pos ⟨hrun, hle⟩
      rw [he, hev]
      refine ⟨hsnoc _ hev _ rfl rfl rfl ?_ (Nat.le_refl _), hrun, rfl⟩
      simp [dataHeaders, walOf, LoopEvent.record?]
    · have hev : s.event (.demux (.record io saveOk)) = some (.record r io) := by
        simp only [event, hrun, hlt, and_self, if_true, hr, Option.map_some]
      rw [he, hev]
      refine ⟨hsnoc _ hev _ rfl rfl rfl ?_ (Nat.le_succ _), hrun, rfl⟩
      rw [drop_take_singleton hr]
      rfl
    · have hev : s.event (.demux round) = none := by
        rcases hround with ⟨next, rfl⟩ | ⟨next, rfl⟩ <;> rfl
      rw [he, hev]
      refine ⟨⟨?_, ?_, ?_⟩, hrun, rfl⟩
      · rw [Option.toList_none, List.append_nil]; exact hf.demux
      · rw [Option.toList_none, List.append_nil]; exact hf.along
      · rw [Option.toList_none, List.append_nil, hf.read]
        dsimp only
        rw [drop_take_split s.wal hs.start_le hle, dataHeaders_append, hskip hrun hlt, List.append_nil]
    · have hev : s.event (.demux round) = none := by
        rcases hround with ⟨hne, hle⟩ | ⟨⟨io, rfl⟩, hlt⟩
        · cases round with
          | caughtUp io => exact absurd rfl (hne io)
          | record io saveOk => exact if_neg fun h => absurd h.2 (Nat.not_lt.mpr hle)
          | _ => rfl
        · exact if_neg fun h => absurd h.2 (Nat.not_le.mpr hlt)
      rw [he, hev, Option.toList_none, List.append_nil]
      exact ⟨hf, hrun, rfl⟩
  | demuxStart =>
    simp only [event, Option.toList_none, List.append_nil, serverStep, hrun, if_true]
    exact ⟨hf, trivial, trivial⟩
  | demuxStop => exact absurd hl id
  | cleanup => exact absurd hl id
  | restart => exact absurd hl id
  | crash => exact absurd hl id
  | _ => exact hbackend trivial rfl

/-- The step of the run lemmas below: it serves, skips nothing, and its event meets `P`. -/
def Server.Reads (P : Demux → LoopEvent → Prop) (s : Server) (l : Label) : Prop :=
  l.Serves ∧ s.SkipsNothing l ∧ ∀ e ∈ s.event l, P s.demux e

/-- A run of the server is a run of its worker. -/
theorem Server.Follows.run (hf : s.Follows segsz P base es) (hs : s.Placed) (hrun : s.running = true)
    {ls : List Label} (hls : Run.Along (serverStep segsz) (Server.Reads P) s ls) :
    (∃ es', (serverRun segsz s ls).Follows segsz P base es') ∧ (serverRun segsz s ls).Placed ∧
      (serverRun segsz s ls).running = true ∧ (serverRun segsz s ls).startPos = s.startPos := by
  refine Run.run_invariant (serverStep segsz) (P := Server.Reads P)
    (I := fun s' => (∃ es', s'.Follows segsz P base es') ∧ s'.Placed ∧ s'.running = true ∧
      s'.startPos = s.startPos) ⟨⟨es, hf⟩, hs, hrun, rfl⟩ ?_ hls
  rintro s' l ⟨⟨es', hf⟩, hs, hrun, hstart⟩ ⟨hl, hskip, hP⟩
  obtain ⟨hf', hrun', hstart'⟩ := hf.step hs hrun hl hskip hP
  exact ⟨⟨_, hf'⟩, placed_step _ hs l, hrun', hstart'.trans hstart⟩

end

end PartDist
