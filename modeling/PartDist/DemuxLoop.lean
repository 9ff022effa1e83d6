import PartDist.Lib.Flow
import PartDist.Server

/-!
# One iteration of the Demux loop

The body of `while (!got_sigterm)` in `DemuxWorkerMain` (demux_worker.c), statement
by statement, with the jumps of `PG_TRY` and `PG_CATCH` and the variable `record`,
which has no initialiser.  The calls on the writers and the progress are those of
`Server.demuxIteration`.

* `loopRun_server`: as long as an iteration whose read raises finds NULL in `record`,
  the loop is the one of the server.
* `reads_safely_iff`: the iterations use the reader only for a record that was read,
  and otherwise start over at the flush position, exactly as long as they find NULL
  there and the search for the next record stays.
-/

namespace PartDist

open Flow

/-! ## Algorithm -/

/-- What `XLogReadRecord` ends in. -/
inductive ReadResult
  | record
  | null
  | error
deriving DecidableEq

/-- What `XLogFindNextRecord` ends in, and where it leaves the reader. -/
inductive FindResult
  | valid (next : Nat)
  | invalid (endRecPtr : Nat)
  | error (endRecPtr : Nat)

def FindResult.endRecPtr : FindResult → Nat
  | .valid next => next
  | .invalid endRecPtr => endRecPtr
  | .error endRecPtr => endRecPtr

def FindResult.next? : FindResult → Option Nat
  | .valid next => some next
  | _ => none

/-- What an iteration meets; `slot` is what `record` holds before it is assigned. -/
structure IterationIO where
  slot : Option XLogRecord
  read : ReadResult
  find : FindResult
  flush : Oid → List WriteOutcome
  record : RecordIO
  saveOk : Bool

/-- `current` is the record of the reader, which `XLogRecGetRmid`, `XLogRecGetInfo` and
`XLogRecGetData` read.  `record` and `nextValid` are local variables.  `inspected` says
that this iteration has used `current`. -/
structure DemuxLoop where
  server : Server
  current : Option XLogRecord
  record : Option XLogRecord
  nextValid : Option Nat
  inspected : Bool

def xlogBeginRead (pos : Nat) : Stmt DemuxLoop Unit :=
  modify fun s => { s with server.endRecPtr := pos, current := none }

def xlogReadRecord (read : ReadResult) : Stmt DemuxLoop (Option XLogRecord) := fun s =>
  match read with
  | .record =>
    match s.server.wal[s.server.endRecPtr]? with
    | some r => .ok (some r) { s with server.endRecPtr := s.server.endRecPtr + 1, current := some r }
    | none => .ok none { s with current := none }
  | .null => .ok none { s with current := none }
  | .error => .error .raises { s with current := none }

def xlogFindNextRecord (find : FindResult) : Stmt DemuxLoop (Option Nat) := do
  xlogBeginRead find.endRecPtr
  match find with
  | .valid next => return some next
  | .invalid _ => return none
  | .error _ => throw .raises

/-- The pointer `reader->record`, which is read whether or not there is a record. -/
def readerRecord : Stmt DemuxLoop XLogRecord := fun s =>
  match s.current with
  | some r => .ok r { s with inspected := true }
  | none => .error .faults { s with inspected := true }

/-- `XLogRecord *record;` -/
def declareRecord (slot : Option XLogRecord) : Stmt DemuxLoop Unit :=
  modify fun s => { s with record := slot, inspected := false }

def waitIfCaughtUp (segsz : WalSegSize) (io : IterationIO) : Stmt DemuxLoop Unit := do
  let s ← get
  if s.server.flushed ≤ s.server.endRecPtr then
    set { s with server := s.server.idleRound segsz (.caughtUp io.flush) }
    throw .continues

def assignRecord (read : ReadResult) : Stmt DemuxLoop Unit := do
  let r ← xlogReadRecord read
  modify fun s => { s with record := r }

/-- The PG_CATCH of the read: skip to the flush position. -/
def skipToFlush : Stmt DemuxLoop Unit := do
  xlogBeginRead (← get).server.flushed
  throw .continues

def findNextValid (find : FindResult) : Stmt DemuxLoop Unit := do
  let next ← xlogFindNextRecord find
  modify fun s => { s with nextValid := next }

def forgetNextValid : Stmt DemuxLoop Unit := modify fun s => { s with nextValid := none }

def continueIfNull (find : FindResult) : Stmt DemuxLoop Unit := do
  if (← get).record.isNone then
    modify fun s => { s with server.nullStreak := s.server.nullStreak + 1 }
    if 3 < (← get).server.nullStreak then
      forgetNextValid
      pgTry (findNextValid find) forgetNextValid
      modify fun s => { s with server.nullStreak := 0 }
      if (← get).nextValid.isSome then throw .continues
    throw .continues

/-- What is done with the record, and the progress. -/
def DemuxLoop.process (segsz : WalSegSize) (io : IterationIO) (r : XLogRecord) (s : DemuxLoop) : DemuxLoop :=
  let s := { s with server.demux := demuxStep segsz s.server.demux (.record r io.record) }
  { s with server := s.server.advanceProgress io.saveOk }

def useRecord (segsz : WalSegSize) (io : IterationIO) : Stmt DemuxLoop Unit := do
  modify fun s => { s with server.nullStreak := 0 }
  let r ← readerRecord
  modify (DemuxLoop.process segsz io r)

def loopBody (segsz : WalSegSize) (io : IterationIO) : Stmt DemuxLoop Unit := do
  declareRecord io.slot
  waitIfCaughtUp segsz io
  pgTry (assignRecord io.read) skipToFlush
  continueIfNull io.find
  useRecord segsz io

/-- A fault, or an error without a handler, ends the worker. -/
def iterate (segsz : WalSegSize) (io : IterationIO) (s : DemuxLoop) : DemuxLoop :=
  match turnOf (loopBody segsz io) s with
  | (s', true) => s'
  | (s', false) => { s' with server.running := false }

/-- An iteration of the loop, or a step of the server that is none. -/
inductive LoopLabel
  | iterate (io : IterationIO)
  | other (l : Label)

def loopStep (segsz : WalSegSize) (s : DemuxLoop) : LoopLabel → DemuxLoop
  | .iterate io => if s.server.running then iterate segsz io s else s
  | .other (.demux _) => s
  | .other l => { s with server := serverStep segsz s.server l }

def loopRun (segsz : WalSegSize) (s : DemuxLoop) (ls : List LoopLabel) : DemuxLoop :=
  ls.foldl (loopStep segsz) s

/-! ## The statements -/

namespace DemuxLoop

section
variable {segsz : WalSegSize} {io : IterationIO} {s : DemuxLoop}

/-- After the declarations. -/
def entered (s : DemuxLoop) (io : IterationIO) : DemuxLoop :=
  { s with record := io.slot, inspected := false }

/-- After the PG_CATCH of the read. -/
def repositioned (s : DemuxLoop) : DemuxLoop :=
  { s with server.endRecPtr := s.server.flushed, current := none }

/-- The record that `XLogReadRecord` returns. -/
def returned (s : DemuxLoop) (io : IterationIO) : Option XLogRecord :=
  match io.read with
  | .record => s.server.wal[s.server.endRecPtr]?
  | _ => none

/-- After an iteration that goes on without a record. -/
def skipped (find : FindResult) (s : DemuxLoop) : DemuxLoop :=
  if 3 < s.server.nullStreak + 1 then
    { s with
      server.nullStreak := 0
      server.endRecPtr := find.endRecPtr
      current := none
      nextValid := find.next? }
  else { s with server.nullStreak := s.server.nullStreak + 1 }

theorem skipped_late {find : FindResult} (h : 3 ≤ s.server.nullStreak) :
    s.skipped find = { s with
      server.nullStreak := 0
      server.endRecPtr := find.endRecPtr
      current := none
      nextValid := find.next? } := if_pos (Nat.lt_succ_of_le h)

theorem skipped_early {find : FindResult} (h : s.server.nullStreak < 3) :
    s.skipped find = { s with server.nullStreak := s.server.nullStreak + 1 } := if_neg (by omega)

theorem declareRecord_run (io : IterationIO) (s : DemuxLoop) :
    (declareRecord io.slot).run s = .ok () (s.entered io) := rfl

theorem waitIfCaughtUp_idle (h : s.server.flushed ≤ s.server.endRecPtr) :
    (waitIfCaughtUp segsz io).run s =
      .error .continues { s with server := s.server.idleRound segsz (.caughtUp io.flush) } := by
  have hget : (get : Stmt DemuxLoop DemuxLoop).run s = .ok s s := rfl
  rw [waitIfCaughtUp, bind_ok hget, if_pos h]
  rfl

theorem waitIfCaughtUp_reads (h : s.server.endRecPtr < s.server.flushed) :
    (waitIfCaughtUp segsz io).run s = .ok () s := by
  have hget : (get : Stmt DemuxLoop DemuxLoop).run s = .ok s s := rfl
  rw [waitIfCaughtUp, bind_ok hget, if_neg (Nat.not_le.mpr h)]
  rfl

theorem continueIfNull_some {r : XLogRecord} (h : s.record = some r) (find : FindResult) :
    (continueIfNull find).run s = .ok () s := by
  have hget : (get : Stmt DemuxLoop DemuxLoop).run s = .ok s s := rfl
  rw [continueIfNull, bind_ok hget, h]
  rfl

theorem continueIfNull_none (h : s.record = none) (find : FindResult) :
    (continueIfNull find).run s = .error .continues (s.skipped find) := by
  let counted := { s with server.nullStreak := s.server.nullStreak + 1 }
  have hget : (get : Stmt DemuxLoop DemuxLoop).run s = .ok s s := rfl
  have hcount : (modify fun s => { s with server.nullStreak := s.server.nullStreak + 1 } :
      Stmt DemuxLoop Unit).run s = .ok () counted := rfl
  have hget' : (get : Stmt DemuxLoop DemuxLoop).run counted = .ok counted counted := rfl
  rw [continueIfNull, bind_ok hget, h, Option.isNone_none, if_pos rfl, bind_ok hcount, bind_ok hget']
  by_cases hstreak : 3 < s.server.nullStreak + 1
  · rw [if_pos hstreak, skipped, if_pos hstreak]
    -- an error of the search is caught, and with or without a record the iteration ends
    cases find with
    | valid next => rfl
    | invalid pos => rfl
    | error pos => rfl
  · rw [if_neg hstreak, skipped, if_neg hstreak]
    rfl

theorem assignRecord_some {r : XLogRecord} (h : s.returned io = some r) :
    (pgTry (assignRecord io.read) skipToFlush).run s =
      .ok () { s with
        server.endRecPtr := s.server.endRecPtr + 1
        current := some r
        record := some r } := by
  apply pgTry_ok
  unfold returned at h
  cases hread : io.read with
  | record =>
    rw [hread] at h
    show (assignRecord .record) s = _
    unfold assignRecord xlogReadRecord
    simp only [bind, EStateM.bind, h]
    rfl
  | null => rw [hread] at h; cases h
  | error => rw [hread] at h; cases h

theorem assignRecord_none (hread : io.read ≠ .error) (h : s.returned io = none) :
    (pgTry (assignRecord io.read) skipToFlush).run s =
      .ok () { s with current := none, record := none } := by
  apply pgTry_ok
  unfold returned at h
  cases hr : io.read with
  | record =>
    rw [hr] at h
    show (assignRecord .record) s = _
    unfold assignRecord xlogReadRecord
    simp only [bind, EStateM.bind, h]
    rfl
  | null => rfl
  | error => exact absurd hr hread

/-- The `continue` of the handler leads to the statement behind `PG_END_TRY`, with
`record` still unassigned. -/
theorem assignRecord_error (hread : io.read = .error) :
    (pgTry (assignRecord io.read) skipToFlush).run s = .ok () s.repositioned := by
  have hraise : (assignRecord .error).run s = .error .raises { s with current := none } := rfl
  rw [hread]
  exact pgTry_caught hraise (Or.inr rfl)

theorem useRecord_some {r : XLogRecord} (h : s.current = some r) :
    (useRecord segsz io).run s =
      .ok () ({ s with server.nullStreak := 0, inspected := true }.process segsz io r) := by
  have hstreak : (modify fun s => { s with server.nullStreak := 0 } : Stmt DemuxLoop Unit).run s =
      .ok () { s with server.nullStreak := 0 } := rfl
  have hread : readerRecord.run { s with server.nullStreak := 0 } =
      .ok r { s with server.nullStreak := 0, inspected := true } := by
    rw [EStateM.run, readerRecord, h]
  rw [useRecord, bind_ok hstreak, bind_ok hread]
  rfl

theorem useRecord_none (h : s.current = none) :
    (useRecord segsz io).run s = .error .faults { s with server.nullStreak := 0, inspected := true } := by
  have hstreak : (modify fun s => { s with server.nullStreak := 0 } : Stmt DemuxLoop Unit).run s =
      .ok () { s with server.nullStreak := 0 } := rfl
  have hread : readerRecord.run { s with server.nullStreak := 0 } =
      .error .faults { s with server.nullStreak := 0, inspected := true } := by
    rw [EStateM.run, readerRecord, h]
  rw [useRecord, bind_ok hstreak, bind_error hread]

/-! ## An iteration -/

/-- Caught up. -/
theorem iterate_idle (h : s.server.flushed ≤ s.server.endRecPtr) :
    iterate segsz io s = { s.entered io with server := s.server.idleRound segsz (.caughtUp io.flush) } := by
  have hbody : loopBody segsz io s = .error .continues
      { s.entered io with server := s.server.idleRound segsz (.caughtUp io.flush) } := by
    show (loopBody segsz io).run s = _
    unfold loopBody
    rw [bind_ok (declareRecord_run io s), bind_error (waitIfCaughtUp_idle (s := s.entered io) h)]
    rfl
  simp only [iterate, turnOf, hbody]

/-- A record was read. -/
theorem iterate_record (hlt : s.server.endRecPtr < s.server.flushed) {r : XLogRecord}
    (h : s.returned io = some r) :
    iterate segsz io s = { s with
      server.endRecPtr := s.server.endRecPtr + 1
      server.nullStreak := 0
      current := some r
      record := some r
      inspected := true }.process segsz io r := by
  have hbody : loopBody segsz io s = .ok () ({ s with
      server.endRecPtr := s.server.endRecPtr + 1
      server.nullStreak := 0
      current := some r
      record := some r
      inspected := true }.process segsz io r) := by
    show (loopBody segsz io).run s = _
    unfold loopBody
    rw [bind_ok (declareRecord_run io s), bind_ok (waitIfCaughtUp_reads (s := s.entered io) hlt),
      bind_ok (assignRecord_some (s := s.entered io) h), bind_ok (continueIfNull_some rfl io.find),
      useRecord_some rfl]
    rfl
  simp only [iterate, turnOf, hbody]

/-- `XLogReadRecord` gave NULL. -/
theorem iterate_null (hlt : s.server.endRecPtr < s.server.flushed) (hread : io.read ≠ .error)
    (h : s.returned io = none) :
    iterate segsz io s = { s.entered io with current := none, record := none }.skipped io.find := by
  have hbody : loopBody segsz io s = .error .continues
      ({ s.entered io with current := none, record := none }.skipped io.find) := by
    show (loopBody segsz io).run s = _
    unfold loopBody
    rw [bind_ok (declareRecord_run io s), bind_ok (waitIfCaughtUp_reads (s := s.entered io) hlt),
      bind_ok (assignRecord_none (s := s.entered io) hread h),
      bind_error (continueIfNull_none rfl io.find)]
  simp only [iterate, turnOf, hbody]

/-- It raised, and `record` happens to hold NULL. -/
theorem iterate_error_null (hlt : s.server.endRecPtr < s.server.flushed) (hread : io.read = .error)
    (hslot : io.slot = none) :
    iterate segsz io s = (s.entered io).repositioned.skipped io.find := by
  have hbody : loopBody segsz io s = .error .continues ((s.entered io).repositioned.skipped io.find) := by
    show (loopBody segsz io).run s = _
    unfold loopBody
    rw [bind_ok (declareRecord_run io s), bind_ok (waitIfCaughtUp_reads (s := s.entered io) hlt),
      bind_ok (assignRecord_error (s := s.entered io) hread),
      bind_error (continueIfNull_none (by exact hslot) io.find)]
  simp only [iterate, turnOf, hbody]

/-- It raised, and `record` holds anything else: `reader->record` is NULL. -/
theorem iterate_error_fault (hlt : s.server.endRecPtr < s.server.flushed) (hread : io.read = .error)
    {r : XLogRecord} (hslot : io.slot = some r) :
    iterate segsz io s = { (s.entered io).repositioned with
      server.nullStreak := 0
      server.running := false
      inspected := true } := by
  have hbody : loopBody segsz io s = .error .faults { (s.entered io).repositioned with
      server.nullStreak := 0
      inspected := true } := by
    show (loopBody segsz io).run s = _
    unfold loopBody
    rw [bind_ok (declareRecord_run io s), bind_ok (waitIfCaughtUp_reads (s := s.entered io) hlt),
      bind_ok (assignRecord_error (s := s.entered io) hread),
      bind_ok (continueIfNull_some (r := r) (by exact hslot) io.find), useRecord_none rfl]
  simp only [iterate, turnOf, hbody]

end

end DemuxLoop

/-! ## The loop is the one of the server -/

def IterationIO.round (io : IterationIO) (s : Server) : Round :=
  if s.flushed ≤ s.endRecPtr then .caughtUp io.flush
  else match io.read with
    | .record => .record io.record io.saveOk
    | .null => .null io.find.next?
    | .error => .unavailable io.find.next?

/-- A search from `pos` finds a record behind it, or leaves the reader where it was. -/
def FindResult.From (pos len : Nat) : FindResult → Prop
  | .valid next => pos ≤ next ∧ next ≤ len
  | .invalid endRecPtr => endRecPtr = pos
  | .error endRecPtr => endRecPtr = pos

/-- Where an iteration without a record starts to search. -/
def IterationIO.searchPos (io : IterationIO) (s : Server) : Nat :=
  match io.read with
  | .error => s.flushed
  | _ => s.endRecPtr

namespace DemuxLoop

/-- `record` reads as NULL when it is not assigned, and a search goes as documented. -/
def AsServer (s : DemuxLoop) : LoopLabel → Prop
  | .iterate io =>
    (io.read = .error → io.slot = none) ∧ io.find.From (io.searchPos s.server) s.server.wal.length
  | .other _ => True

section
variable {segsz : WalSegSize} {s : DemuxLoop}

theorem skipped_server {find : FindResult} {pos : Nat} (hend : s.server.endRecPtr = pos)
    (hfind : find.From pos s.server.wal.length) :
    (s.skipped find).server =
      { s.server with
        endRecPtr := s.server.nullPos pos find.next?
        nullStreak := s.server.nextStreak } := by
  unfold skipped Server.nullPos Server.nextStreak
  split
  · have hpos : find.endRecPtr = max pos (min (find.next?.getD pos) s.server.wal.length) := by
      cases find with
      | valid next =>
        obtain ⟨hle, hlen⟩ := hfind
        show next = max pos (min next s.server.wal.length)
        omega
      | invalid endRecPtr =>
        have hfind : endRecPtr = pos := hfind
        show endRecPtr = max pos (min pos s.server.wal.length)
        omega
      | error endRecPtr =>
        have hfind : endRecPtr = pos := hfind
        show endRecPtr = max pos (min pos s.server.wal.length)
        omega
    dsimp only
    rw [hpos]
  · rw [← hend]

theorem server_iterate (hs : s.server.Placed) {io : IterationIO} (h : s.AsServer (.iterate io)) :
    (iterate segsz io s).server = s.server.demuxIteration segsz (io.round s.server) := by
  obtain ⟨hslot, hfind⟩ := h
  unfold IterationIO.round Server.demuxIteration
  by_cases hidle : s.server.flushed ≤ s.server.endRecPtr
  · rw [if_pos hidle, if_pos hidle, iterate_idle hidle]
  · have hlt := Nat.lt_of_not_le hidle
    rw [if_neg hidle, if_neg hidle]
    cases hread : io.read with
    | record =>
      have hlen : s.server.endRecPtr < s.server.wal.length := by
        have := hs.flushed_le
        omega
      have hr := List.getElem?_eq_getElem hlen
      have hret : s.returned io = some s.server.wal[s.server.endRecPtr] := by
        rw [returned, hread]
        exact hr
      rw [iterate_record hlt hret, Server.readRound, hr]
      rfl
    | null =>
      simp only [ IterationIO.searchPos, hread] at hfind
      rw [iterate_null hlt (by rw [hread]; decide) (by rw [returned, hread])]
      exact skipped_server (s := { s.entered io with current := none, record := none }) rfl hfind
    | error =>
      simp only [ IterationIO.searchPos, hread] at hfind
      rw [iterate_error_null hlt hread (hslot hread)]
      exact skipped_server (s := (s.entered io).repositioned) rfl hfind

theorem loopStep_other {lab : Label} (h : ∀ round, lab ≠ .demux round) :
    loopStep segsz s (.other lab) = { s with server := serverStep segsz s.server lab } := by
  cases lab with
  | demux round => exact absurd rfl (h round)
  | _ => rfl

/-- **Refinement.** A run of the loop is a run of the server. -/
theorem loopRun_server (hs : s.server.Placed) {ls : List LoopLabel}
    (hls : Run.Along (loopStep segsz) AsServer s ls) :
    ∃ ls', (loopRun segsz s ls).server = serverRun segsz s.server ls' := by
  refine (Run.run_invariant (loopStep segsz) (P := AsServer)
    (I := fun s' : DemuxLoop => (∃ ls', s'.server = serverRun segsz s.server ls') ∧ s'.server.Placed)
    ⟨⟨[], rfl⟩, hs⟩ ?_ hls).1
  rintro s' l ⟨⟨ls', hrun⟩, hplaced⟩ hl
  -- a step of the server appended to those done
  have hsnoc : ∀ lab, (∃ ls', serverStep segsz s'.server lab = serverRun segsz s.server ls') ∧
      (serverStep segsz s'.server lab).Placed := by
    intro lab
    refine ⟨⟨ls' ++ [lab], ?_⟩, Server.placed_step segsz hplaced lab⟩
    rw [hrun, serverRun, serverRun, List.foldl_append]
    rfl
  cases l with
  | iterate io =>
    simp only [loopStep]
    split
    · next hrunning =>
      have hstep := hsnoc (.demux (io.round s'.server))
      simp only [serverStep, hrunning, if_true] at hstep
      rw [server_iterate hplaced hl]
      exact hstep
    · exact ⟨⟨ls', hrun⟩, hplaced⟩
  | other lab =>
    by_cases hround : ∃ round, lab = .demux round
    · obtain ⟨round, rfl⟩ := hround
      exact ⟨⟨ls', hrun⟩, hplaced⟩
    · rw [loopStep_other fun round he => hround ⟨round, he⟩]
      exact hsnoc lab

end

/-! ## The reader is used for a record only -/

/-- Only with a record returned is one inspected or a writer changed; after an error
the reader stands at the flush position, and nothing else has happened. -/
structure IterationSafe (segsz : WalSegSize) (s : DemuxLoop) (io : IterationIO) : Prop where
  inspected : (iterate segsz io s).inspected = true → (s.returned io).isSome = true
  demux : (iterate segsz io s).server.demux ≠ s.server.demux → (s.returned io).isSome = true
  error : io.read = .error →
    (iterate segsz io s).inspected = false ∧
    (iterate segsz io s).server = { s.server with
      endRecPtr := s.server.flushed
      nullStreak := (iterate segsz io s).server.nullStreak }

/-- Of the iterations that call `XLogReadRecord`. -/
def ReadsSafely (segsz : WalSegSize) (s : DemuxLoop) : LoopLabel → Prop
  | .iterate io => s.server.running = true → s.server.endRecPtr < s.server.flushed → IterationSafe segsz s io
  | .other _ => True

/-- A read that raises finds NULL in `record`, and the search that follows the fourth
iteration without a record leaves the reader at the flush position. -/
def RaisesHarmlessly (s : DemuxLoop) : LoopLabel → Prop
  | .iterate io => s.server.running = true → s.server.endRecPtr < s.server.flushed → io.read = .error →
      io.slot = none ∧ (3 ≤ s.server.nullStreak → io.find.endRecPtr = s.server.flushed)
  | .other _ => True

section
variable {segsz : WalSegSize} {s : DemuxLoop}

theorem iterationSafe_of_read {io : IterationIO} (hlt : s.server.endRecPtr < s.server.flushed)
    (hread : io.read ≠ .error) : IterationSafe segsz s io := by
  refine ⟨fun hins => ?_, fun hdm => ?_, fun he => absurd he hread⟩
  · cases hret : s.returned io with
    | some r => rfl
    | none =>
      rw [iterate_null hlt hread hret, skipped] at hins
      split at hins <;> cases hins
  · cases hret : s.returned io with
    | some r => rfl
    | none =>
      rw [iterate_null hlt hread hret, skipped] at hdm
      split at hdm <;> exact absurd rfl hdm

theorem iterationSafe_error_iff {io : IterationIO}
    (hlt : s.server.endRecPtr < s.server.flushed) (hread : io.read = .error) :
    IterationSafe segsz s io ↔
      io.slot = none ∧ (3 ≤ s.server.nullStreak → io.find.endRecPtr = s.server.flushed) := by
  cases hslot : io.slot with
  | some r =>
    -- the record of a reader that has none
    refine ⟨fun h => ?_, fun h => nomatch h.1⟩
    have hins := (h.error hread).1
    rw [iterate_error_fault hlt hread hslot] at hins
    cases hins
  | none =>
    have hit : iterate segsz io s = _ := iterate_error_null hlt hread hslot
    constructor
    · refine fun h => ⟨rfl, fun hstreak => ?_⟩
      have hend := congrArg Server.endRecPtr (h.error hread).2
      rw [hit, skipped_late (s := (s.entered io).repositioned) hstreak] at hend
      exact hend
    · rintro ⟨-, hfind⟩
      have hserver : (iterate segsz io s).server = { s.server with
          endRecPtr := s.server.flushed
          nullStreak := (iterate segsz io s).server.nullStreak } := by
        rw [hit]
        by_cases hstreak : 3 ≤ s.server.nullStreak
        · rw [skipped_late (s := (s.entered io).repositioned) hstreak, hfind hstreak]
          rfl
        · rw [skipped_early (s := (s.entered io).repositioned) (Nat.lt_of_not_le hstreak)]
          rfl
      have hins : (iterate segsz io s).inspected = false := by
        rw [hit, skipped]
        split <;> rfl
      refine ⟨fun h => ?_, fun h => ?_, fun _ => ⟨hins, hserver⟩⟩
      · rw [hins] at h
        cases h
      · rw [hserver] at h
        exact absurd rfl h

theorem readsSafely_iff {l : LoopLabel} : s.ReadsSafely segsz l ↔ s.RaisesHarmlessly l := by
  cases l with
  | other lab => exact Iff.rfl
  | iterate io =>
    refine forall_congr' fun _ => forall_congr' fun hlt => ?_
    by_cases hread : io.read = .error
    · rw [iterationSafe_error_iff hlt hread]
      exact ⟨fun h _ => h, fun h => h hread⟩
    · exact iff_of_true (iterationSafe_of_read hlt hread) fun he => absurd he hread

end

end DemuxLoop

/-- A loop about to start. -/
def DemuxLoop.boot (wal : List XLogRecord) (parwal : Parwal) : DemuxLoop where
  server := Server.boot wal parwal
  current := none
  record := none
  nextValid := none
  inspected := false

/-- **Read errors.** In every run of the loop, from any state, the iterations use the
reader for a record only, and start over after an error, if and only if `record` holds
NULL whenever a read raises and no search moves the reader then. -/
theorem reads_safely_iff (segsz : WalSegSize) (s : DemuxLoop) (ls : List LoopLabel) :
    Run.Along (loopStep segsz) (DemuxLoop.ReadsSafely segsz) s ls ↔
      Run.Along (loopStep segsz) DemuxLoop.RaisesHarmlessly s ls :=
  Run.along_iff (loopStep segsz) (I := fun _ => True) trivial
    (fun _ _ _ => DemuxLoop.readsSafely_iff) fun _ _ _ _ => trivial

/-- A record of PostgreSQL's own. -/
def heapRecord : XLogRecord := ⟨10, 0, []⟩

/-- One record is read; then the segment of the next one is gone, while `record` still
holds the pointer of the iteration before. -/
def segmentGone : List LoopLabel :=
  let io : IterationIO := ⟨none, .record, .invalid 0, fun _ => [], .succeeding .ascending, true⟩
  [.other .demuxStart, .other (.otherRecord heapRecord), .other (.otherRecord heapRecord), .other (.walFlush 2),
    .iterate io, .iterate { io with slot := some heapRecord, read := .error }]

/-- The worker reads the record of a reader that has none, and dies. -/
theorem unassigned_record_faults :
    let s := loopRun .default (DemuxLoop.boot [] fun _ => Dir.empty) segmentGone
    s.inspected = true ∧ s.current = none ∧ s.server.running = false ∧
      ¬ Run.Along (loopStep .default) (DemuxLoop.ReadsSafely .default) (DemuxLoop.boot [] fun _ => Dir.empty)
        segmentGone := by
  refine ⟨rfl, rfl, rfl, fun h => ?_⟩
  obtain ⟨-, -, -, -, -, hlast, -⟩ := h
  have hsafe := hlast rfl (by decide)
  cases (hsafe.error rfl).1

end PartDist
