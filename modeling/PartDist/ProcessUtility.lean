import PartDist.ExecutorFinish

/-!
# The statements of a backend

`pg_partdist_process_utility` (partition_wal.c), which captures COPY FROM, and the two
wrappers of pg_partdist.c: a hook runs after the statement has been executed without an
error, and asks for one relation after the other whether to log a record.

`statement_done`: a statement that has been executed returns if and only if a record can
be logged for each relation that is captured, and has logged one for each of them then.
-/

namespace PartDist

open EStateM

/-! ## Algorithm -/

/-- `relation` is the name in the RangeVar; it is NULL for COPY of a query. -/
structure CopyStmt where
  isFrom : Bool
  relation : Option RelName
deriving DecidableEq

inductive UtilityStmt
  | copy (stmt : CopyStmt)
  | other
deriving DecidableEq

/-- Also what `RangeVarGetRelid` finds, 0 if there is no such relation. -/
structure HookIO extends FinishIO where
  rangeVarGetRelid : Oid

structure Hooks extends Session where
  inPartwalUtility : Bool

def onSession {α : Type} (x : EStateM Raised Session α) : EStateM Raised Hooks α := fun s =>
  match x s.toSession with
  | .ok a s' => .ok a { s with toSession := s' }
  | .error e s' => .error e { s with toSession := s' }

def pgPartdistProcessUtility (io : HookIO) (parsetree : UtilityStmt) : EStateM Raised Hooks Unit := do
  let s ← get
  if s.inPartwalUtility then return
  if ¬ io.xlogInsertAllowed then return
  if ¬ io.partwalShmem then return
  match parsetree with
  | .other => return
  | .copy copyStmt =>
    match copyStmt.relation with
    | none => return
    | some relname =>
      if ¬ copyStmt.isFrom then return
      if io.rangeVarGetRelid = 0 then return
      set { s with inPartwalUtility := true }
      finallyDo (onSession (captureRelation io.toFinishIO 0 ⟨.relation, io.rangeVarGetRelid, some relname⟩))
        fun s => { s with inPartwalUtility := false }

/-- What a backend runs: a plan, or a utility statement. -/
inductive Statement
  | plan (queryDesc : QueryDesc)
  | utility (parsetree : UtilityStmt)

/-- `partdist_executor_finish` and `partdist_process_utility`; `executed` is false when the
statement itself raises an error. -/
def runStatement (executed : Bool) (io : HookIO) (stmt : Statement) : EStateM Raised Hooks Unit := do
  if ¬ executed then throw .callee
  match stmt with
  | .plan queryDesc => onSession (pgPartdistExecutorFinish io.toFinishIO queryDesc)
  | .utility parsetree => pgPartdistProcessUtility io parsetree

/-! ## What is captured -/

/-- The entries the hook goes through. -/
def Statement.entries (io : HookIO) : Statement → List RangeTblEntry
  | .plan queryDesc =>
    match queryDesc.plannedstmt with
    | none => []
    | some pstmt =>
      if queryDesc.operation.dml then
        if pstmt.resultRelations ≠ [] then pstmt.resultEntries else pstmt.rtable
      else []
  | .utility .other => []
  | .utility (.copy copyStmt) =>
    match copyStmt.relation with
    | none => []
    | some relname =>
      if copyStmt.isFrom = true ∧ io.rangeVarGetRelid ≠ 0 then [⟨.relation, io.rangeVarGetRelid, some relname⟩]
      else []

/-- Whether it asks for the entry: without result relations the whole range table is gone
through, and entries that are no relation are passed over. -/
def Statement.asks : Statement → RangeTblEntry → Bool
  | .plan queryDesc => fun rte =>
    (queryDesc.plannedstmt.any fun pstmt => pstmt.resultRelations ≠ []) ||
      (decide (rte.rtekind = .relation) && decide (rte.relid ≠ 0))
  | .utility _ => fun _ => true

/-- Whether it logs a record for the entry. -/
def Session.captures (s : Session) (io : HookIO) (stmt : Statement) (rte : RangeTblEntry) : Bool :=
  io.xlogInsertAllowed && io.partwalShmem && (stmt.asks rte && s.shouldWrite io.scans rte)

def Session.captured (s : Session) (io : HookIO) (stmt : Statement) : List RangeTblEntry :=
  (stmt.entries io).filter (s.captures io stmt)

/-- The record for an entry. -/
def FinishIO.logCall (io : FinishIO) (rte : RangeTblEntry) : LogCall := ⟨rte.relid, partwalFlagData, io.origLsn⟩

/-- No record that is due fails to be logged. -/
def Session.WritesOk (s : Session) (io : HookIO) (stmt : Statement) : Prop :=
  ∀ i rte, (stmt.entries io)[i]? = some rte → s.captures io stmt rte = true → io.writeOk i = true

/-- A hook that returns has logged the records that are due, and it returns if they all can be
logged. -/
def Session.HookDone (s : Session) (io : HookIO) (stmt : Statement) (returns : Bool) (logged : List LogCall) : Prop :=
  (returns = true ↔ s.WritesOk io stmt) ∧
    (returns = true → logged = s.logged ++ (s.captured io stmt).map io.logCall)

/-! ## The loops -/

/-- A loop over entries some of which are passed over. -/
def captureIf (asks : RangeTblEntry → Bool) (io : FinishIO) (i : Nat) (rte : RangeTblEntry) :
    EStateM Raised Session Unit :=
  if asks rte then captureRelation io i rte else pure ()

theorem captureEntry_eq (io : FinishIO) :
    captureEntry io = captureIf (fun rte => decide (rte.rtekind = .relation) && decide (rte.relid ≠ 0)) io := by
  funext i rte
  unfold captureEntry captureIf
  by_cases hkind : rte.rtekind = .relation
  · by_cases hrelid : rte.relid = 0
    · simp [hkind, hrelid]
    · simp [hkind, hrelid]
  · simp [hkind]

theorem captureIf_true (io : FinishIO) : captureRelation io = captureIf (fun _ => true) io := rfl

section
variable {asks : RangeTblEntry → Bool} {io : FinishIO} {s : Session} {rte : RangeTblEntry} {i : Nat}

/-- What the loop body does to an entry. -/
theorem captureIf_run : (captureIf asks io i rte).run s =
    if asks rte = true then
      if s.shouldWrite io.scans rte = true then
        if io.writeOk i = true then .ok () { s.asked io.scans rte with logged := s.logged ++ [io.logCall rte] }
        else .error .callee (s.asked io.scans rte)
      else .ok () (s.asked io.scans rte)
    else .ok () s := by
  unfold captureIf
  by_cases hasks : asks rte = true
  · rw [if_pos hasks, if_pos hasks]
    unfold captureRelation
    rw [run_bind]
    show (if s.shouldWrite io.scans rte = true then _ else _ : EStateM Raised Session Unit).run
      (s.asked io.scans rte) = _
    by_cases hwrite : s.shouldWrite io.scans rte = true
    · rw [if_pos hwrite, if_pos hwrite]
      rfl
    · rw [if_neg hwrite, if_neg hwrite]
      rfl
  · rw [if_neg hasks, if_neg hasks]
    rfl

theorem captureIf_returns : ((captureIf asks io i rte).run s).value?.isSome = true ↔
    (asks rte = true → s.shouldWrite io.scans rte = true → io.writeOk i = true) := by
  rw [captureIf_run]
  by_cases hasks : asks rte = true
  · by_cases hwrite : s.shouldWrite io.scans rte = true
    · by_cases hok : io.writeOk i = true
      · simp [hasks, hwrite, hok]
      · simp [hasks, hwrite, hok]
    · simp [hasks, hwrite]
  · simp [hasks]

/-- The answers stay as they are. -/
theorem captureIf_shouldWrite :
    ((captureIf asks io i rte).run s).state.shouldWrite io.scans = s.shouldWrite io.scans := by
  have hasked := shouldWrite_asked (s := s) io.scans rte
  rw [captureIf_run]
  split
  · split
    · split
      · exact hasked
      · exact hasked
    · exact hasked
  · rfl

/-- A loop returns if and only if no record that is due fails to be logged. -/
theorem capture_returns (entries : List RangeTblEntry) :
    ((forEach (captureIf asks io) 0 entries).run s).value?.isSome = true ↔
      ∀ i rte, entries[i]? = some rte → (asks rte && s.shouldWrite io.scans rte) = true → io.writeOk i = true := by
  rw [forEach_returns]
  refine forall₃_congr fun i rte _ => ?_
  have hturn : (turn (captureIf asks io) 0 entries s i).shouldWrite io.scans = s.shouldWrite io.scans :=
    turn_keeps (P := fun s' : Session => s'.shouldWrite io.scans = s.shouldWrite io.scans)
      (fun _ _ _ h => captureIf_shouldWrite.trans h) rfl i
  rw [captureIf_returns, hturn, Nat.zero_add, Bool.and_eq_true, and_imp]

theorem captureIf_logged (h : ((captureIf asks io i rte).run s).value?.isSome = true) :
    ((captureIf asks io i rte).run s).state.logged =
      s.logged ++ ([rte].filter fun rte => asks rte && s.shouldWrite io.scans rte).map io.logCall := by
  have hok := captureIf_returns.mp h
  rw [captureIf_run]
  by_cases hasks : asks rte = true
  · by_cases hwrite : s.shouldWrite io.scans rte = true
    · simp [hasks, hwrite, hok hasks hwrite]
    · simp [hasks, hwrite, Session.asked]
  · simp [hasks]

/-- What a loop that returns has logged. -/
theorem capture_logged (entries : List RangeTblEntry) (n : Nat)
    (h : ((forEach (captureIf asks io) n entries).run s).value?.isSome = true) :
    ((forEach (captureIf asks io) n entries).run s).state.logged =
      s.logged ++ (entries.filter fun rte => asks rte && s.shouldWrite io.scans rte).map io.logCall := by
  induction entries generalizing n s with
  | nil => exact (List.append_nil _).symm
  | cons rte entries ih =>
    have hstate : ((captureIf asks io n rte).run s).state.shouldWrite io.scans = s.shouldWrite io.scans :=
      captureIf_shouldWrite
    have hlog : ((captureIf asks io n rte).run s).value?.isSome = true →
        ((captureIf asks io n rte).run s).state.logged =
          s.logged ++ ([rte].filter fun rte => asks rte && s.shouldWrite io.scans rte).map io.logCall :=
        captureIf_logged
    cases hbody : (captureIf asks io n rte).run s with
    | error e s' =>
      rw [forEach_cons_error hbody] at h
      cases h
    | ok u s' =>
      rw [hbody] at hstate hlog
      rw [forEach_cons_ok hbody] at h ⊢
      have hstate : s'.shouldWrite io.scans = s.shouldWrite io.scans := hstate
      have hlog : s'.logged = _ := hlog rfl
      rw [ih (n + 1) h, hlog, hstate, List.append_assoc, ← List.map_append, ← List.filter_append,
        List.singleton_append]

end

/-! ## One statement -/

section
variable {s : Hooks} {io : HookIO} {stmt : Statement}

theorem onSession_value {α : Type} (x : EStateM Raised Session α) :
    ((onSession x).run s).value? = (x.run s.toSession).value? := by
  unfold EStateM.run onSession
  split
  · next h => rw [h]; rfl
  · next h => rw [h]; rfl

theorem onSession_state {α : Type} (x : EStateM Raised Session α) :
    ((onSession x).run s).state.toSession = (x.run s.toSession).state := by
  unfold EStateM.run onSession
  split
  · next h => rw [h]; rfl
  · next h => rw [h]; rfl

theorem hookDone_idle {s : Session} (hnone : ∀ rte ∈ stmt.entries io, s.captures io stmt rte = false) :
    s.HookDone io stmt true s.logged := by
  have hnil : s.captured io stmt = [] := by
    rw [Session.captured, List.filter_eq_nil_iff]
    intro rte hrte
    rw [hnone rte hrte]
    exact Bool.false_ne_true
  refine ⟨⟨fun _ i rte hi hcap => ?_, fun _ => rfl⟩, fun _ => ?_⟩
  · rw [hnone rte (List.mem_of_getElem? hi)] at hcap
    cases hcap
  · rw [hnil]
    exact (List.append_nil _).symm

theorem captures_of_not_allowed {s : Session} (h : ¬ (io.xlogInsertAllowed = true ∧ io.partwalShmem = true))
    (rte : RangeTblEntry) : s.captures io stmt rte = false := by
  rw [Session.captures, ← Bool.not_eq_true, Bool.and_eq_true, Bool.and_eq_true]
  exact fun hcap => h hcap.1

theorem hookDone_loop {s : Session} (hinsert : io.xlogInsertAllowed = true) (hshmem : io.partwalShmem = true) :
    let r := (forEach (captureIf stmt.asks io.toFinishIO) 0 (stmt.entries io)).run s
    s.HookDone io stmt r.value?.isSome r.state.logged := by
  have hcaptures : s.captures io stmt = fun rte => stmt.asks rte && s.shouldWrite io.scans rte := by
    funext rte
    rw [Session.captures, hinsert, hshmem, Bool.true_and, Bool.true_and]
  rw [Session.HookDone, capture_returns, Session.WritesOk, Session.captured, hcaptures]
  exact ⟨Iff.rfl, fun h => capture_logged _ 0 ((capture_returns _).mpr h)⟩

/-- The hook of a plan, when no other is running in the backend. -/
theorem executorFinish_done {s : Session} (hflag : s.inPartwalFinish = false) (queryDesc : QueryDesc) :
    let r := (pgPartdistExecutorFinish io.toFinishIO queryDesc).run s
    s.HookDone io (.plan queryDesc) r.value?.isSome r.state.logged := by
  intro r
  have hidle : r = .ok () s → (∀ rte ∈ Statement.entries io (.plan queryDesc),
      s.captures io (.plan queryDesc) rte = false) →
      s.HookDone io (.plan queryDesc) r.value?.isSome r.state.logged := by
    intro hr hnone
    rw [hr]
    exact hookDone_idle hnone
  by_cases hdml : queryDesc.operation.dml = true
  · by_cases hallowed : io.xlogInsertAllowed = true ∧ io.partwalShmem = true
    · obtain ⟨hinsert, hshmem⟩ := hallowed
      cases hplan : queryDesc.plannedstmt with
      | none =>
        refine hidle ?_ (by simp [Statement.entries, hplan])
        simp [r, pgPartdistExecutorFinish, hdml, hinsert, hshmem, hplan]
      | some pstmt =>
        have hloop : r = (finallyDo (forEach (captureIf (Statement.asks (.plan queryDesc)) io.toFinishIO) 0
            (Statement.entries io (.plan queryDesc))) fun s => { s with inPartwalFinish := false }).run
              { s with inPartwalFinish := true } := by
          by_cases hrels : pstmt.resultRelations = []
          · simp [r, pgPartdistExecutorFinish, hflag, hdml, hinsert, hshmem, hplan, hrels, Statement.entries,
              Statement.asks, captureEntry_eq]
          · simp [r, pgPartdistExecutorFinish, hflag, hdml, hinsert, hshmem, hplan, hrels, Statement.entries,
              Statement.asks, captureIf_true]
        rw [hloop, finallyDo_value, finallyDo_state]
        exact hookDone_loop (s := { s with inPartwalFinish := true }) hinsert hshmem
    · refine hidle ?_ fun rte _ => captures_of_not_allowed hallowed rte
      by_cases hinsert : io.xlogInsertAllowed = true
      · have hshmem : ¬ io.partwalShmem = true := fun h => hallowed ⟨hinsert, h⟩
        simp [r, pgPartdistExecutorFinish, hdml, hinsert, hshmem]
      · simp [r, pgPartdistExecutorFinish, hdml, hinsert]
  · refine hidle (by simp [r, pgPartdistExecutorFinish, hdml]) ?_
    cases hplan : queryDesc.plannedstmt with
    | none => simp [Statement.entries, hplan]
    | some pstmt => simp [Statement.entries, hplan, hdml]

theorem processUtility_done (hflag : s.inPartwalUtility = false) (parsetree : UtilityStmt) :
    let r := (pgPartdistProcessUtility io parsetree).run s
    s.HookDone io (.utility parsetree) r.value?.isSome r.state.logged := by
  intro r
  have hidle : r = .ok () s → (∀ rte ∈ Statement.entries io (.utility parsetree),
      s.captures io (.utility parsetree) rte = false) →
      s.HookDone io (.utility parsetree) r.value?.isSome r.state.logged := by
    intro hr hnone
    rw [hr]
    exact hookDone_idle hnone
  by_cases hallowed : io.xlogInsertAllowed = true ∧ io.partwalShmem = true
  · obtain ⟨hinsert, hshmem⟩ := hallowed
    cases parsetree with
    | other => exact hidle (by simp [r, pgPartdistProcessUtility, hinsert, hshmem]) (by simp [Statement.entries])
    | copy copyStmt =>
      cases hrel : copyStmt.relation with
      | none =>
        exact hidle (by simp [r, pgPartdistProcessUtility, hinsert, hshmem, hrel])
          (by simp [Statement.entries, hrel])
      | some relname =>
        by_cases hfrom : copyStmt.isFrom = true ∧ io.rangeVarGetRelid ≠ 0
        · have hentries : Statement.entries io (.utility (.copy copyStmt)) =
              [⟨.relation, io.rangeVarGetRelid, some relname⟩] := by simp [Statement.entries, hrel, hfrom]
          have hloop : r = (finallyDo (onSession (forEach (captureIf (Statement.asks (.utility (.copy copyStmt)))
              io.toFinishIO) 0 (Statement.entries io (.utility (.copy copyStmt)))))
              fun s => { s with inPartwalUtility := false }).run { s with inPartwalUtility := true } := by
            rw [hentries, forEach_singleton]
            simp [r, pgPartdistProcessUtility, hflag, hinsert, hshmem, hrel, hfrom.1, hfrom.2, Statement.asks,
              captureIf_true]
          rw [hloop, finallyDo_value, finallyDo_state, onSession_value]
          show s.HookDone io _ _ ((onSession _).run _).state.toSession.logged
          rw [onSession_state]
          exact hookDone_loop (s := s.toSession) hinsert hshmem
        · refine hidle ?_ (by simp [Statement.entries, hrel, hfrom])
          rw [not_and_or] at hfrom
          rcases hfrom with hfrom | hrelid
          · simp [r, pgPartdistProcessUtility, hinsert, hshmem, hrel, hfrom]
          · simp [r, pgPartdistProcessUtility, hinsert, hshmem, hrel, not_not.mp hrelid]
  · refine hidle ?_ fun rte _ => captures_of_not_allowed hallowed rte
    by_cases hinsert : io.xlogInsertAllowed = true
    · have hshmem : ¬ io.partwalShmem = true := fun h => hallowed ⟨hinsert, h⟩
      simp [r, pgPartdistProcessUtility, hinsert, hshmem]
    · simp [r, pgPartdistProcessUtility, hinsert]

/-- **Capture by the statements of a backend**, between which no hook of it is running. -/
theorem statement_done (hfinish : s.inPartwalFinish = false) (hutility : s.inPartwalUtility = false)
    (stmt : Statement) :
    let r := (runStatement true io stmt).run s
    s.HookDone io stmt r.value?.isSome r.state.logged := by
  intro r
  cases stmt with
  | plan queryDesc =>
    have hr : r = (onSession (pgPartdistExecutorFinish io.toFinishIO queryDesc)).run s := by
      simp [r, runStatement]
    have hdone : s.HookDone io (.plan queryDesc) _ _ := executorFinish_done hfinish queryDesc
    rwa [← onSession_value, ← onSession_state, ← hr] at hdone
  | utility parsetree =>
    have hr : r = (pgPartdistProcessUtility io parsetree).run s := by simp [r, runStatement]
    rw [hr]
    exact processUtility_done hutility parsetree

end

end PartDist
