import PartDist.ShouldWrite

/-!
# Capture at the end of a statement

`pg_partdist_executor_finish` (partition_wal.c) in a session whose statements nest: a
statement that a trigger runs starts and finishes before the hook of the statement
that fired the trigger.

* `shouldWrite_stable`: asking for one relation changes no answer for another.
* `capture_complete`: in every history of a session, a statement with result relations
  logs one record for each that is captured, and no other, if and only if it is an
  INSERT, UPDATE or DELETE or none of them is captured.

A MERGE is not captured (`merge_not_captured`).
-/

namespace PartDist

open EStateM

/-! ## Sessions -/

/-- The arguments of `WritePartitionWALRecord`. -/
structure LogCall where
  partitionId : Oid
  flags : UInt8
  origLsn : XLogRecPtr
deriving DecidableEq

/-- Backend number `me` of the node, with the statements that have started, the innermost
first, and the records it has logged. -/
structure Session where
  node : Node
  me : Nat
  running : List QueryDesc
  inPartwalFinish : Bool
  logged : List LogCall

/-- What the hook reads of the rest of the server, how the catalog scans go, and which of
the records can be logged, by the position of the relation. -/
structure FinishIO where
  xlogInsertAllowed : Bool
  partwalShmem : Bool
  xactLastRecEnd : XLogRecPtr
  insertRecPtr : XLogRecPtr
  scans : ScanCatalogs
  writeOk : Nat → Bool

/-- An ON CONFLICT DO NOTHING writes no heap WAL. -/
def FinishIO.origLsn (io : FinishIO) : XLogRecPtr :=
  if io.xactLastRecEnd = invalidXLogRecPtr then io.insertRecPtr else io.xactLastRecEnd

def Session.shouldWrite (s : Session) (scans : ScanCatalogs) (rte : RangeTblEntry) : Bool :=
  (shouldWritePartWAL scans s.node.cache s.node.catalogs rte.relid rte.aliasname (s.node.backends s.me)).1

/-! ## Algorithm -/

def askShouldWrite (scans : ScanCatalogs) (rte : RangeTblEntry) : EStateM Raised Session Bool := fun s =>
  .ok (s.shouldWrite scans rte) { s with node := nodeStep s.node (.call s.me scans rte.relid rte.aliasname) }

def writePartitionWALRecord (ok : Bool) (call : LogCall) : EStateM Raised Session Unit := fun s =>
  if ok then .ok () { s with logged := s.logged ++ [call] } else .error .callee s

/-- The body of the loop over `resultRelations`. -/
def captureRelation (io : FinishIO) (i : Nat) (rte : RangeTblEntry) : EStateM Raised Session Unit := do
  if ← askShouldWrite io.scans rte then
    writePartitionWALRecord (io.writeOk i) ⟨rte.relid, partwalFlagData, io.origLsn⟩

/-- The body of the loop over `rtable`. -/
def captureEntry (io : FinishIO) (i : Nat) (rte : RangeTblEntry) : EStateM Raised Session Unit := do
  if rte.rtekind ≠ .relation ∨ rte.relid = 0 then return
  captureRelation io i rte

def pgPartdistExecutorFinish (io : FinishIO) (queryDesc : QueryDesc) : EStateM Raised Session Unit := do
  let s ← get
  if s.inPartwalFinish then return
  if ¬ queryDesc.operation.dml then return
  if ¬ io.xlogInsertAllowed then return
  if ¬ io.partwalShmem then return
  match queryDesc.plannedstmt with
  | none => return
  | some pstmt =>
    set { s with inPartwalFinish := true }
    finallyDo
      (if pstmt.resultRelations ≠ [] then forEach (captureRelation io) 0 pstmt.resultEntries
        else forEach (captureEntry io) 0 pstmt.rtable)
      fun s => { s with inPartwalFinish := false }

/-- A statement starts; the innermost one finishes, after the statements of its triggers;
anything else happens at the node. -/
inductive SessionLabel
  | start (queryDesc : QueryDesc)
  | finish (io : FinishIO)
  | node (l : NodeLabel)

/-- An error ends every statement that is running. -/
def sessionStep (s : Session) : SessionLabel → Session
  | .start queryDesc => { s with running := queryDesc :: s.running }
  | .finish io =>
    match s.running with
    | [] => s
    | queryDesc :: rest =>
      match (pgPartdistExecutorFinish io queryDesc).run { s with running := rest } with
      | .ok _ s' => s'
      | .error _ s' => { s' with running := [] }
  | .node l => { s with node := nodeStep s.node l }

/-! ## Stable answers -/

section
variable (io : ScanCatalogs) (cat : Catalogs) (b : Backend)

theorem groupId_backend : (getLocalCitusGroupId io cat b).2 =
    { b with cachedGroupId := (getLocalCitusGroupId io cat b).1 } := by
  unfold getLocalCitusGroupId
  split
  · rfl
  · rfl

theorem distTableStatus_eq (relid : Oid) : (getCitusDistTableStatus io cat relid b).1 =
    (b.distTableCache relid).getD (io.partitionOk && cat.distributed relid) := by
  unfold getCitusDistTableStatus
  split
  · next h => rw [h, Option.getD_some]
  · next h => rw [h, Option.getD_none]

theorem distTableStatus_backend (relid : Oid) : (getCitusDistTableStatus io cat relid b).2 =
    { b with
      distTableCache :=
        Function.update b.distTableCache relid (some (getCitusDistTableStatus io cat relid b).1) } := by
  rw [distTableStatus_eq]
  unfold getCitusDistTableStatus
  split
  · next h => rw [h, Option.getD_some, ← h, Function.update_eq_self]
  · next h => rw [h, Option.getD_none]

theorem groupId_again : (getLocalCitusGroupId io cat (getLocalCitusGroupId io cat b).2).1 =
    (getLocalCitusGroupId io cat b).1 := by
  by_cases hq : b.cachedGroupId = -2
  · simp only [getLocalCitusGroupId, hq, ne_eq, not_true_eq_false, if_false, ite_not]
    split
    · rw [ite_self]
    · rfl
  · simp [getLocalCitusGroupId, hq]

theorem groupId_status (relid : Oid) :
    (getLocalCitusGroupId io cat (getCitusDistTableStatus io cat relid b).2).1 =
      (getLocalCitusGroupId io cat b).1 := by
  rw [distTableStatus_backend]
  unfold getLocalCitusGroupId
  split
  · rfl
  · rfl

theorem status_groupId (relid : Oid) :
    (getCitusDistTableStatus io cat relid (getLocalCitusGroupId io cat b).2).1 =
      (getCitusDistTableStatus io cat relid b).1 := by
  rw [groupId_backend, distTableStatus_eq, distTableStatus_eq]

theorem status_again (relid relid' : Oid) :
    (getCitusDistTableStatus io cat relid' (getCitusDistTableStatus io cat relid b).2).1 =
      (getCitusDistTableStatus io cat relid' b).1 := by
  rw [distTableStatus_backend, distTableStatus_eq]
  show (Function.update b.distTableCache relid _ relid').getD _ = _
  by_cases heq : relid' = relid
  · subst heq
    rw [Function.update_self, Option.getD_some]
  · rw [Function.update_of_ne heq, distTableStatus_eq]

theorem shouldWrite_keeps (cache : MetadataCache) (relid : Oid) (relAlias : Option RelName) :
    let b' := (shouldWritePartWAL io cache cat relid relAlias b).2
    (getLocalCitusGroupId io cat b').1 = (getLocalCitusGroupId io cat b).1 ∧
      ∀ relid', (getCitusDistTableStatus io cat relid' b').1 = (getCitusDistTableStatus io cat relid' b).1 := by
  unfold shouldWritePartWAL
  split
  · exact ⟨rfl, fun _ => rfl⟩
  · split
    · exact ⟨rfl, fun _ => rfl⟩
    · split
      · exact ⟨rfl, fun _ => rfl⟩
      · simp only
        split
        · refine ⟨?_, fun relid' => ?_⟩
          · rw [groupId_status, groupId_again]
          · rw [status_again, status_groupId]
        · exact ⟨groupId_again io cat b, status_groupId io cat b⟩

/-- Asking for one relation changes no answer for another. -/
theorem shouldWrite_stable (cache : MetadataCache) (relid relid' : Oid) (relAlias relAlias' : Option RelName) :
    (shouldWritePartWAL io cache cat relid' relAlias' (shouldWritePartWAL io cache cat relid relAlias b).2).1 =
      (shouldWritePartWAL io cache cat relid' relAlias' b).1 := by
  obtain ⟨hgroup, hstatus⟩ := shouldWrite_keeps io cat b cache relid relAlias
  by_cases hname : cat.ShardNamed relid' relAlias'
  · rw [shouldWrite_named hname, shouldWrite_named hname]
  · rw [Bool.eq_iff_iff, shouldWrite_unnamed hname, shouldWrite_unnamed hname, status_groupId, status_groupId,
      hgroup, hstatus]

end

/-! ## Completeness -/

/-- The records of the captured relations. -/
def Session.due (s : Session) (io : FinishIO) (entries : List RangeTblEntry) : List LogCall :=
  (entries.filter (s.shouldWrite io.scans)).map fun rte => ⟨rte.relid, partwalFlagData, io.origLsn⟩

/-- The hook may write WAL and no call that logs a record fails. -/
def LoggingWorks (_ : Session) : SessionLabel → Prop
  | .finish io => io.xlogInsertAllowed = true ∧ io.partwalShmem = true ∧ ∀ i, io.writeOk i = true
  | _ => True

/-- The plan of the statement that finishes, if it has result relations. -/
def Session.finishing (s : Session) : Option (CmdType × PlannedStmt) :=
  s.running.head?.bind fun queryDesc =>
    (queryDesc.plannedstmt.filter fun pstmt => !pstmt.resultRelations.isEmpty).map fun pstmt =>
      (queryDesc.operation, pstmt)

/-- The finishing statement logs one record for each captured result relation, and no other. -/
def CapturesAll (s : Session) (l : SessionLabel) : Prop :=
  match l with
  | .finish io => ∀ q ∈ s.finishing, (sessionStep s l).logged = s.logged ++ s.due io q.2.resultEntries
  | _ => True

instance (s : Session) : (l : SessionLabel) → Decidable (CapturesAll s l)
  | .start _ => isTrue trivial
  | .node _ => isTrue trivial
  | .finish io => inferInstanceAs (Decidable (∀ q ∈ s.finishing, _ = s.logged ++ s.due io q.2.resultEntries))

/-- It is an INSERT, UPDATE or DELETE, or none of its result relations is captured. -/
def DmlOrNoneCaptured (s : Session) : SessionLabel → Prop
  | .finish io => ∀ q ∈ s.finishing, (q.1 = .insert ∨ q.1 = .update ∨ q.1 = .delete) ∨
      ∀ rte ∈ q.2.resultEntries, s.shouldWrite io.scans rte = false
  | _ => True

section
variable {s : Session} {io : FinishIO}

/-- The session after the question has been asked. -/
def Session.asked (s : Session) (scans : ScanCatalogs) (rte : RangeTblEntry) : Session :=
  { s with node := nodeStep s.node (.call s.me scans rte.relid rte.aliasname) }

theorem shouldWrite_asked (scans : ScanCatalogs) (rte : RangeTblEntry) :
    (s.asked scans rte).shouldWrite scans = s.shouldWrite scans := by
  funext rte'
  unfold Session.shouldWrite Session.asked nodeStep
  simp only [Function.update_self]
  exact shouldWrite_stable ..

theorem captureRelation_run {i : Nat} (hok : io.writeOk i = true) (rte : RangeTblEntry) :
    (captureRelation io i rte).run s = .ok () { s.asked io.scans rte with
      logged := s.logged ++ s.due io [rte] } := by
  unfold captureRelation
  rw [run_bind]
  show (if s.shouldWrite io.scans rte = true then _ else _ : EStateM Raised Session Unit).run
    (s.asked io.scans rte) = _
  rw [Session.due]
  cases hrte : s.shouldWrite io.scans rte with
  | true =>
    simp [hrte, writePartitionWALRecord, EStateM.run, hok, Session.asked]
  | false =>
    simp [hrte, EStateM.run, Session.asked]
    rfl

/-- The loop over the result relations logs the records that are due at its start. -/
theorem captureRelations_run (hok : ∀ i, io.writeOk i = true) (n : Nat) (entries : List RangeTblEntry) :
    ((forEach (captureRelation io) n entries).run s).value? = some () ∧
      ((forEach (captureRelation io) n entries).run s).state.logged = s.logged ++ s.due io entries := by
  induction entries generalizing n s with
  | nil => exact ⟨rfl, (List.append_nil _).symm⟩
  | cons rte entries ih =>
    rw [forEach_cons_ok (captureRelation_run (hok n) rte)]
    obtain ⟨hval, hlog⟩ := ih (s := { s.asked io.scans rte with logged := s.logged ++ s.due io [rte] }) (n + 1)
    refine ⟨hval, hlog.trans ?_⟩
    have hdue : Session.due { s.asked io.scans rte with logged := s.logged ++ s.due io [rte] } io entries =
        s.due io entries := by
      show List.map _ (entries.filter ((s.asked io.scans rte).shouldWrite io.scans)) = _
      rw [shouldWrite_asked, Session.due]
    rw [hdue, List.append_assoc, Session.due, Session.due, Session.due, ← List.map_append, ← List.filter_append]
    rfl

theorem finishing_some {operation : CmdType} {pstmt : PlannedStmt} (h : s.finishing = some (operation, pstmt)) :
    ∃ queryDesc rest, s.running = queryDesc :: rest ∧ queryDesc.operation = operation ∧
      queryDesc.plannedstmt = some pstmt ∧ pstmt.resultRelations ≠ [] := by
  obtain ⟨queryDesc, hq, h⟩ := Option.bind_eq_some_iff.mp h
  obtain ⟨pstmt', hp, h⟩ := Option.map_eq_some_iff.mp h
  obtain ⟨hplan, hrels⟩ := Option.filter_eq_some_iff.mp hp
  obtain ⟨rfl, rfl⟩ := Prod.mk.inj h
  obtain ⟨rest, hrest⟩ : ∃ rest, s.running = queryDesc :: rest := by
    cases hr : s.running with
    | nil => rw [hr] at hq; cases hq
    | cons q rest => rw [hr] at hq; exact ⟨rest, by rw [Option.some.inj hq]⟩
  refine ⟨queryDesc, rest, hrest, rfl, hplan, ?_⟩
  intro hnil
  rw [hnil] at hrels
  cases hrels

/-- The hook of an INSERT, UPDATE or DELETE with result relations. -/
theorem executorFinish_run {queryDesc : QueryDesc} {pstmt : PlannedStmt} (hflag : s.inPartwalFinish = false)
    (hio : LoggingWorks s (.finish io)) (hdml : queryDesc.operation.dml = true)
    (hplan : queryDesc.plannedstmt = some pstmt) (hrels : pstmt.resultRelations ≠ []) :
    (pgPartdistExecutorFinish io queryDesc).run s =
      (finallyDo (forEach (captureRelation io) 0 pstmt.resultEntries)
        fun s => { s with inPartwalFinish := false }).run { s with inPartwalFinish := true } := by
  obtain ⟨hinsert, hshmem, -⟩ := hio
  unfold pgPartdistExecutorFinish
  simp [hflag, hdml, hinsert, hshmem, hplan, hrels]

/-- What a statement with result relations logs. -/
theorem finish_logged (hflag : s.inPartwalFinish = false) (hio : LoggingWorks s (.finish io))
    {operation : CmdType} {pstmt : PlannedStmt} (h : s.finishing = some (operation, pstmt)) :
    (sessionStep s (.finish io)).logged =
      s.logged ++ if operation.dml = true then s.due io pstmt.resultEntries else [] := by
  obtain ⟨queryDesc, rest, hrun, rfl, hplan, hrels⟩ := finishing_some h
  by_cases hdml : queryDesc.operation.dml = true
  · have hhook := executorFinish_run (s := { s with running := rest }) hflag hio hdml hplan hrels
    obtain ⟨hval, hlog⟩ := captureRelations_run (s := { s with running := rest, inPartwalFinish := true })
      hio.2.2 0 pstmt.resultEntries
    rw [← finallyDo_value _ (fun s => { s with inPartwalFinish := false }), ← hhook] at hval
    have hok := Result.eq_ok hval
    simp only [sessionStep, hrun]
    rw [hok, hhook, finallyDo_state, if_pos hdml]
    exact hlog
  · have hhook : (pgPartdistExecutorFinish io queryDesc).run { s with running := rest } =
        .ok () { s with running := rest } := by
      unfold pgPartdistExecutorFinish
      simp [hflag, hdml]
    simp only [sessionStep, hrun]
    rw [hhook, if_neg hdml, List.append_nil]

theorem executorFinish_flag (io : FinishIO) (hflag : s.inPartwalFinish = false) (queryDesc : QueryDesc) :
    ((pgPartdistExecutorFinish io queryDesc).run s).state.inPartwalFinish = false := by
  unfold pgPartdistExecutorFinish
  by_cases hdml : queryDesc.operation.dml = true
  · by_cases hinsert : io.xlogInsertAllowed = true
    · by_cases hshmem : io.partwalShmem = true
      · cases hplan : queryDesc.plannedstmt with
        | none => simp [hflag, hdml, hinsert, hshmem]
        | some pstmt => simp [hflag, hdml, hinsert, hshmem]
      · simp [hflag, hdml, hinsert, hshmem]
    · simp [hflag, hdml, hinsert]
  · simp [hflag, hdml]

/-- The flag is down whenever no hook runs. -/
theorem flag_step (hflag : s.inPartwalFinish = false) (l : SessionLabel) :
    (sessionStep s l).inPartwalFinish = false := by
  cases l with
  | start queryDesc => exact hflag
  | node l => exact hflag
  | finish io =>
    simp only [sessionStep]
    split
    · exact hflag
    · next queryDesc rest hrun =>
      have hhook := executorFinish_flag (s := { s with running := rest }) io hflag queryDesc
      split
      · next h => rwa [h] at hhook
      · next h => rwa [h] at hhook

theorem due_eq_nil {entries : List RangeTblEntry} :
    s.due io entries = [] ↔ ∀ rte ∈ entries, s.shouldWrite io.scans rte = false := by
  rw [Session.due, List.map_eq_nil_iff, List.filter_eq_nil_iff]
  simp only [Bool.not_eq_true]

theorem capturesAll_iff {l : SessionLabel} (hflag : s.inPartwalFinish = false) (hio : LoggingWorks s l) :
    CapturesAll s l ↔ DmlOrNoneCaptured s l := by
  cases l with
  | start queryDesc => exact Iff.rfl
  | node l => exact Iff.rfl
  | finish io =>
    refine forall₂_congr fun q hq => ?_
    rw [finish_logged hflag hio hq, List.append_cancel_left_eq, ← CmdType.dml_iff, ← due_eq_nil]
    by_cases hdml : q.1.dml = true
    · simp [hdml]
    · rw [if_neg hdml]
      exact ⟨fun h => Or.inr h.symm, fun h => (h.resolve_left hdml).symm⟩

end

/-- **Capture completeness.** In every history of a session in which every record can be
logged, a statement that finishes logs one record for each captured result relation, and
no other, if and only if it is an INSERT, UPDATE or DELETE or none of them is captured. -/
theorem capture_complete (s : Session) (hflag : s.inPartwalFinish = false) (ls : List SessionLabel)
    (hls : Run.Along sessionStep LoggingWorks s ls) :
    Run.Along sessionStep (fun s l => CapturesAll s l ↔ DmlOrNoneCaptured s l) s ls :=
  Run.along_of_history sessionStep (I := fun _ s => s.inPartwalFinish = false) hflag
    (fun _ _ l hflag _ => flag_step hflag l) (fun _ _ _ hflag hio => capturesAll_iff hflag hio) hls

/-- A statement that modifies one shard. -/
def modifiesShard (operation : CmdType) : QueryDesc :=
  ⟨operation, some ⟨[⟨.relation, 600, some "orders_102177".toList⟩], [0]⟩⟩

def Session.start : Session := ⟨Node.boot, 0, [], false, []⟩

def loggingIO : FinishIO := ⟨true, true, 40, 48, ⟨true, true⟩, fun _ => true⟩

/-- A trigger of an INSERT runs an UPDATE. -/
theorem capture_complete_nested :
    Run.Along sessionStep (fun s l => CapturesAll s l ↔ DmlOrNoneCaptured s l) Session.start
      [.start (modifiesShard .insert), .start (modifiesShard .update), .finish loggingIO, .finish loggingIO] :=
  capture_complete Session.start rfl _
    ⟨trivial, trivial, ⟨rfl, rfl, fun _ => rfl⟩, ⟨rfl, rfl, fun _ => rfl⟩, trivial⟩

/-- A MERGE into a shard logs nothing. -/
theorem merge_not_captured :
    let s := sessionStep Session.start (.start (modifiesShard .merge))
    (sessionStep s (.finish loggingIO)).logged = [] ∧
      ¬ Run.Along sessionStep CapturesAll Session.start
        [.start (modifiesShard .merge), .finish loggingIO] := by
  decide +kernel

-- Nor does a SELECT with a data-modifying CTE.
example : (sessionStep (sessionStep Session.start (.start (modifiesShard .select)))
    (.finish loggingIO)).logged = [] := by
  decide +kernel

end PartDist
