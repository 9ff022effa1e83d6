import PartDist.ProcessUtility
import PartDist.Provenance

/-!
# Transactions

Any number of transactions, each a sequence of statements ended by a commit or a
rollback, beside the Demux and whatever else runs while the server is up.  The hook of a
statement logs its records one by one (`WritePartitionWALRecord`, partition_wal.c); the
Demux copies them without looking at how the transaction ends.

* `Database.Inv.step`: in pg_parwal there are only records that a transaction has logged.
* `only_committed_recorded`: as long as no transaction that has logged a record is
  rolled back, they belong to transactions that have committed or have not ended.
-/

namespace PartDist

open Bytes PartWALHeader EStateM

/-! ## Transactions -/

abbrev Xid := Nat

inductive XactStatus
  | inProgress
  | committed
  | rolledBack
deriving DecidableEq

/-- `pending` are the records that the hook of its statement still has to log; `call` is
the number of its last call of `WritePartitionWALRecord`. -/
structure Xact where
  status : XactStatus
  pending : List LogCall
  call : Option Nat

/-- `owner` has the transaction of each call of the server, and `logged` the DATA records
inserted into pg_wal with theirs; both are not part of the code's state. -/
structure Database where
  server : Server
  node : Node
  xacts : Xid → Xact
  owner : List Xid
  logged : List (Xid × PartWALHeader)

/-- Steps of transaction `xid`: a statement, which raises an error itself unless it is
`executed`; the next record of its hook; its end, where a rollback may also follow from
an error of the hook.  The other steps are those of the catalogs and of the server. -/
inductive XactLabel
  | statement (xid : Xid) (me : Nat) (executed : Bool) (io : HookIO) (stmt : Statement)
  | logNext (xid : Xid) (mkdirOk : Bool)
  | commit (xid : Xid)
  | rollback (xid : Xid)
  | node (l : NodeLabel)
  | server (l : Label)

/-- Steps of the server while it stays up, other than the start of a call. -/
def Label.WhileUp : Label → Prop
  | .begin .. => False
  | .restart => False
  | .crash .. => False
  | _ => True

instance : DecidablePred Label.WhileUp := fun l => by unfold Label.WhileUp; split <;> infer_instance

def CallState.done : CallState → Bool
  | .returned _ => true
  | _ => false

namespace Database

def lastCall (s : Database) (xid : Xid) : Option CallState :=
  (s.xacts xid).call.bind fun i => (s.server.calls[i]?).map Call.state

/-- It runs, and its last record has been logged. -/
def Ready (s : Database) (xid : Xid) : Prop :=
  (s.xacts xid).status = .inProgress ∧ ∀ st ∈ s.lastCall xid, st.done = true

/-- It runs, and is not about to log a record. -/
def Interruptible (s : Database) (xid : Xid) : Prop :=
  (s.xacts xid).status = .inProgress ∧ ∀ st ∈ s.lastCall xid, st.finished = true

instance (s : Database) (xid : Xid) : Decidable (s.Ready xid) :=
  @instDecidableAnd _ _ _ (Option.decidableForallMem _)

instance (s : Database) (xid : Xid) : Decidable (s.Interruptible xid) :=
  @instDecidableAnd _ _ _ (Option.decidableForallMem _)

def setXact (s : Database) (xid : Xid) (x : Xact) : Database := { s with xacts := Function.update s.xacts xid x }

/-- Backend `me` with no hook running. -/
def hooks (s : Database) (me : Nat) : Hooks := ⟨⟨s.node, me, [], false, []⟩, false⟩

/-- The hook of a statement: what it is to log, in its order. -/
def runHook (s : Database) (me : Nat) (executed : Bool) (io : HookIO) (stmt : Statement) : Result Raised Hooks Unit :=
  (runStatement executed { io with writeOk := fun _ => true } stmt).run (s.hooks me)

/-- The DATA records that a step of the server inserts, with their transaction. -/
def newlyLogged (s : Database) : Label → List (Xid × PartWALHeader)
  | .advance i sc =>
    match s.owner[i]? with
    | some xid => (dataHeaders (s.server.added (.advance i sc))).map (xid, ·)
    | none => []
  | _ => []

def boot (wal : List XLogRecord) (parwal : Parwal) (node : Node) : Database where
  server := Server.boot wal parwal
  node := node
  xacts := fun _ => ⟨.inProgress, [], none⟩
  owner := []
  logged := []

end Database

/-- An error of a statement rolls the transaction back. -/
def xactStep (segsz : WalSegSize) (s : Database) : XactLabel → Database
  | .statement xid me executed io stmt =>
    if s.Ready xid ∧ (s.xacts xid).pending = [] then
      let x := s.xacts xid
      match s.runHook me executed io stmt with
      | .ok _ s' => { s.setXact xid { x with pending := s'.logged } with node := s'.node }
      | .error _ s' => { s.setXact xid { x with status := .rolledBack } with node := s'.node }
    else s
  | .logNext xid mkdirOk =>
    if s.Ready xid then
      match (s.xacts xid).pending with
      | c :: rest =>
        { s.setXact xid { s.xacts xid with pending := rest, call := some s.server.calls.length } with
          server := serverStep segsz s.server (.begin c.partitionId c.flags c.origLsn mkdirOk)
          owner := s.owner ++ [xid] }
      | [] => s
    else s
  | .commit xid =>
    if s.Ready xid ∧ (s.xacts xid).pending = [] then s.setXact xid { s.xacts xid with status := .committed }
    else s
  | .rollback xid =>
    if s.Interruptible xid then s.setXact xid { s.xacts xid with status := .rolledBack, pending := [] } else s
  | .node l => { s with node := nodeStep s.node l }
  | .server l =>
    if l.WhileUp then
      { s with server := serverStep segsz s.server l, logged := s.logged ++ s.newlyLogged l }
    else s

def xactRun (segsz : WalSegSize) (s : Database) (ls : List XactLabel) : Database := ls.foldl (xactStep segsz) s

namespace Database

/-- The transaction that a step rolls back. -/
def rollsBack (s : Database) : XactLabel → Option Xid
  | .statement xid _ executed _ _ =>
    if s.Ready xid ∧ (s.xacts xid).pending = [] ∧ executed = false then some xid else none
  | .rollback xid => if s.Interruptible xid then some xid else none
  | _ => none

/-- It has logged nothing. -/
def SparesLogged (s : Database) (l : XactLabel) : Prop := ∀ xid ∈ s.rollsBack l, ∀ p ∈ s.logged, p.1 ≠ xid

instance (s : Database) (l : XactLabel) : Decidable (s.SparesLogged l) := Option.decidableForallMem _

/-- Logged by a statement of a transaction that has committed or not ended. -/
def Stands (s : Database) (h : PartWALHeader) : Prop :=
  ∃ xid, (xid, h) ∈ s.logged ∧ ((s.xacts xid).status = .committed ∨ (s.xacts xid).status = .inProgress)

/-- What has come into pg_parwal since the files were `base` belongs to such transactions,
and none of it to one that was rolled back.  `C` says what is written of records. -/
structure OnlyCommitted (C : (PartWALHeader → Prop) → Bytes → Prop) (base : Parwal) (s : Database) : Prop where
  stands : ∀ pid, DirFrom (C s.Stands) (base pid) (s.server.demux.parwal pid)
  rolledBack : ∀ xid h, (xid, h) ∈ s.logged → (s.xacts xid).status = .rolledBack →
    ∀ pid seg, h ∉ (s.server.demux.parwal pid).headers seg

/-- Logged by any. -/
def Logged (s : Database) (h : PartWALHeader) : Prop := ∃ xid, (xid, h) ∈ s.logged

/-- The call in which a transaction is; what is in pg_wal behind its first `start` records and
in pg_parwal was logged by one, none of which was rolled back. -/
structure Inv (C : (PartWALHeader → Prop) → Bytes → Prop) (start : Nat) (base : Parwal) (s : Database) : Prop where
  placed : s.server.Placed
  flushed : start ≤ s.server.flushed
  reader : start ≤ s.server.endRecPtr
  owners : s.owner.length = s.server.calls.length
  running : ∀ i c, s.server.calls[i]? = some c → c.state.finished = false →
    ∃ xid, s.owner[i]? = some xid ∧ (s.xacts xid).call = some i ∧ (s.xacts xid).status = .inProgress
  wal : ∀ h ∈ dataHeaders (s.server.wal.drop start), s.Logged h
  spared : ∀ p ∈ s.logged, (s.xacts p.1).status ≠ .rolledBack
  files : s.server.demux.From (C s.Logged) s.Logged base

end Database

/-! ## What a step of the server does -/

theorem Label.WhileUp.not_crash {l : Label} (h : l.WhileUp) (keep : Nat) (created : Bool) (rd : Readdir) :
    l ≠ .crash keep created rd := by
  rintro rfl
  exact h

namespace Server

section
variable {segsz : WalSegSize} {s : Server} {l : Label}

theorem callStep_calls (sc : ScanIO) (i : Nat) (c : Call) (s : Server) : (callStep sc i c s).calls = s.calls ∨
    (c.state.finished = false ∧ ∃ st, (callStep sc i c s).calls = s.calls.set i { c with state := st }) := by
  unfold callStep setCall
  split
  · next h => exact Or.inr ⟨by rw [h]; rfl, _, rfl⟩
  · next h => exact Or.inr ⟨by rw [h]; rfl, _, rfl⟩
  · next h =>
    refine Or.inr ⟨by rw [h]; rfl, ?_⟩
    split
    · exact ⟨_, rfl⟩
    · exact ⟨_, rfl⟩
  · next h => exact Or.inr ⟨by rw [h]; rfl, _, rfl⟩
  · next h => exact Or.inr ⟨by rw [h]; rfl, _, rfl⟩
  · exact Or.inl rfl
  · exact Or.inl rfl

/-- The calls are the same, or one that had not finished has taken a step. -/
theorem calls_step (segsz : WalSegSize) (s : Server) (hl : l.WhileUp) : (serverStep segsz s l).calls = s.calls ∨
    ∃ i c st, s.calls[i]? = some c ∧ c.state.finished = false ∧
      (serverStep segsz s l).calls = s.calls.set i { c with state := st } := by
  cases l with
  | begin => exact absurd hl id
  | restart => exact absurd hl id
  | crash => exact absurd hl id
  | advance i sc =>
    simp only [serverStep]
    cases hc : s.calls[i]? with
    | none => exact Or.inl rfl
    | some c =>
      rcases callStep_calls sc i c s with h | ⟨hfin, st, h⟩
      · exact Or.inl h
      · exact Or.inr ⟨i, c, st, hc, hfin, h⟩
  | otherRecord r => simp only [serverStep]; split <;> exact Or.inl rfl
  | checkpoint redo => simp only [serverStep]; split <;> exact Or.inl rfl
  | demuxStart => simp only [serverStep]; split <;> exact Or.inl rfl
  | demux round =>
    simp only [serverStep]
    split
    · rw [demuxIteration_eq]
      exact Or.inl rfl
    · exact Or.inl rfl
  | demuxStop io destroyIo saveOk =>
    simp only [serverStep]
    split
    · rw [demuxShutdown, saveDemuxProgress_eq]
      exact Or.inl rfl
    · exact Or.inl rfl
  | flushPoll i => simp only [serverStep]; split <;> exact Or.inl rfl
  | _ => exact Or.inl rfl

/-- Only a call that has not finished inserts a DATA record. -/
theorem added_cases {h : PartWALHeader} (hh : h ∈ dataHeaders (s.added l)) :
    ∃ i sc c, l = .advance i sc ∧ s.calls[i]? = some c ∧ c.state.finished = false := by
  cases l with
  | advance i sc =>
    cases hc : s.calls[i]? with
    | none => simp [added, inserts, hc, dataHeaders] at hh
    | some c =>
      refine ⟨i, sc, c, rfl, hc, ?_⟩
      cases hst : c.state with
      | inserting lsn => rfl
      | _ => simp [added, inserts, hc, hst, dataHeaders] at hh
  | otherRecord r =>
    simp only [added] at hh
    split at hh
    · next hr => simp [dataHeaders, XLogRecord.dataHeader, hr] at hh
    · simp [dataHeaders] at hh
  | _ => simp [added, dataHeaders] at hh

end

end Server

/-! ## The invariant -/

namespace Database

section
variable {C : (PartWALHeader → Prop) → Bytes → Prop} {start : Nat} {base : Parwal} {s : Database} {segsz : WalSegSize}
  {xid : Xid}

theorem setXact_self (s : Database) (xid : Xid) (x : Xact) : (s.setXact xid x).xacts xid = x := by
  simp only [setXact, Function.update_self]

theorem setXact_of_ne (s : Database) {xid xid' : Xid} (h : xid' ≠ xid) (x : Xact) :
    (s.setXact xid x).xacts xid' = s.xacts xid' := by
  simp only [setXact, Function.update_of_ne h]

theorem inv_boot (wal : List XLogRecord) (parwal : Parwal) (node : Node) :
    (boot wal parwal node).Inv C wal.length parwal where
  placed := Server.placed_boot wal parwal
  flushed := Nat.le_refl _
  reader := Nat.le_refl _
  owners := rfl
  running := by
    intro i c hc
    cases hc
  wal := by
    intro h hh
    have hnil : (Server.boot wal parwal).wal.drop wal.length = [] := List.drop_length
    rw [boot, hnil] at hh
    cases hh
  spared := by
    intro p hp
    cases hp
  files := .fresh fun pid => dirFrom_refl _

/-- The calls of a transaction that is about to log a record, or is to end, have finished. -/
theorem Inv.finished (hs : s.Inv C start base) (hx : s.Interruptible xid) {i : Nat} {c : Call}
    (hc : s.server.calls[i]? = some c) (hfin : c.state.finished = false) : s.owner[i]? ≠ some xid := by
  intro howner
  obtain ⟨xid', howner', hcall, -⟩ := hs.running i c hc hfin
  rw [howner] at howner'
  obtain rfl := Option.some.inj howner'
  have hlast : s.lastCall xid = some c.state := by
    rw [lastCall, hcall, Option.bind_some, hc, Option.map_some]
  have := hx.2 c.state hlast
  rw [hfin] at this
  cases this

theorem Ready.interruptible (hx : s.Ready xid) : s.Interruptible xid := by
  refine ⟨hx.1, fun st hst => ?_⟩
  have hdone := hx.2 st hst
  cases st with
  | returned customLsn => rfl
  | _ => cases hdone

/-- A step of one transaction, with none of its calls unfinished. -/
theorem Inv.setXact (hs : s.Inv C start base) (hx : s.Interruptible xid) {x : Xact}
    (hspared : x.status = .rolledBack → ∀ p ∈ s.logged, p.1 ≠ xid) : (s.setXact xid x).Inv C start base := by
  refine ⟨hs.placed, hs.flushed, hs.reader, hs.owners, fun i c hc hfin => ?_, hs.wal, fun p hp => ?_, hs.files⟩
  · obtain ⟨xid', howner, hrun⟩ := hs.running i c hc hfin
    have hne : xid' ≠ xid := by
      rintro rfl
      exact hs.finished hx hc hfin howner
    refine ⟨xid', howner, ?_⟩
    rw [s.setXact_of_ne hne]
    exact hrun
  · by_cases hne : p.1 = xid
    · rw [hne, s.setXact_self]
      exact fun hst => hspared hst p hp hne
    · rw [s.setXact_of_ne hne]
      exact hs.spared p hp

theorem Inv.node (hs : s.Inv C start base) (node : Node) : Inv C start base { s with node := node } :=
  ⟨hs.placed, hs.flushed, hs.reader, hs.owners, hs.running, hs.wal, hs.spared, hs.files⟩

/-- The next record of a hook. -/
theorem Inv.logNext (hs : s.Inv C start base) (hx : s.Ready xid) (segsz : WalSegSize) (mkdirOk : Bool) (c : LogCall)
    (rest : List LogCall) :
    Inv C start base { s.setXact xid { s.xacts xid with pending := rest, call := some s.server.calls.length } with
      server := serverStep segsz s.server (.begin c.partitionId c.flags c.origLsn mkdirOk)
      owner := s.owner ++ [xid] } := by
  have hset := hs.setXact hx.interruptible
    (x := { s.xacts xid with pending := rest, call := some s.server.calls.length })
    fun hst => by
      rw [hx.1] at hst
      cases hst
  refine ⟨Server.placed_step segsz hs.placed (.begin c.partitionId c.flags c.origLsn mkdirOk), hs.flushed,
    hs.reader, ?_, fun i c' hc hfin => ?_, hset.wal, hset.spared, hset.files⟩
  · show (s.owner ++ [xid]).length = (s.server.calls ++ [_]).length
    rw [List.length_append, List.length_append, hs.owners]
    rfl
  · have hc : (s.server.calls ++ [_])[i]? = some c' := hc
    by_cases hi : i < s.server.calls.length
    · rw [List.getElem?_append_left hi] at hc
      obtain ⟨xid', howner, hrun⟩ := hset.running i c' hc hfin
      refine ⟨xid', ?_, hrun⟩
      rw [List.getElem?_append_left (by rw [hs.owners]; exact hi)]
      exact howner
    · have hi : i = s.server.calls.length := by
        have := (List.getElem?_eq_some_iff.mp hc).1
        rw [List.length_append, List.length_singleton] at this
        omega
      subst hi
      refine ⟨xid, ?_, ?_⟩
      · rw [← hs.owners, List.getElem?_concat_length]
      · dsimp only
        rw [s.setXact_self]
        exact ⟨rfl, hx.1⟩

theorem mem_newlyLogged (hs : s.Inv C start base) {l : Label} {h : PartWALHeader}
    (hh : h ∈ dataHeaders (s.server.added l)) : ∃ xid, (xid, h) ∈ s.newlyLogged l := by
  obtain ⟨i, sc, c, rfl, hc, hfin⟩ := Server.added_cases hh
  obtain ⟨xid, howner, -⟩ := hs.running i c hc hfin
  refine ⟨xid, ?_⟩
  simp only [newlyLogged, howner]
  exact List.mem_map_of_mem hh

theorem newlyLogged_running (hs : s.Inv C start base) {l : Label} {p : Xid × PartWALHeader}
    (hp : p ∈ s.newlyLogged l) : (s.xacts p.1).status = .inProgress := by
  cases l with
  | advance i sc =>
    simp only [newlyLogged] at hp
    cases howner : s.owner[i]? with
    | none =>
      rw [howner] at hp
      cases hp
    | some xid =>
      rw [howner] at hp
      obtain ⟨h, hh, rfl⟩ := List.mem_map.mp hp
      obtain ⟨j, sc', c, heq, hc, hfin⟩ := Server.added_cases hh
      obtain ⟨rfl, rfl⟩ := Label.advance.inj heq
      obtain ⟨xid', howner', -, hst⟩ := hs.running i c hc hfin
      rw [howner] at howner'
      obtain rfl := Option.some.inj howner'
      exact hst
  | _ => cases hp

/-- A step of the server, in which a running transaction may log a record. -/
theorem Inv.server (hC : ∀ P P' : PartWALHeader → Prop, (∀ h, P h → P' h) → ∀ bs, C P bs → C P' bs)
    (hs : s.Inv C start base) {l : Label} (hup : l.WhileUp) (hl : ∀ P, l.Leaves (C P) P) :
    Inv C start base { s with
      server := serverStep segsz s.server l
      logged := s.logged ++ s.newlyLogged l } := by
  obtain ⟨hflushed, hreader⟩ := Server.start_le_step segsz hs.placed hup.not_crash hs.flushed hs.reader
  have hcalls := Server.calls_step segsz s.server hup
  have hmono : ∀ h, s.Logged h → ∃ xid, (xid, h) ∈ s.logged ++ s.newlyLogged l := by
    rintro h ⟨xid, hx⟩
    exact ⟨xid, List.mem_append_left _ hx⟩
  refine ⟨Server.placed_step segsz hs.placed l, hflushed, hreader, ?_, fun i c' hc' hfin => ?_, fun h hh => ?_,
    fun p hp => ?_, ?_⟩
  · dsimp only
    rcases hcalls with h | ⟨i, c, st, -, -, h⟩
    · rw [h, hs.owners]
    · rw [h, List.length_set, hs.owners]
  · dsimp only at hc'
    rcases hcalls with h | ⟨j, c, st, hc, hcfin, h⟩
    · rw [h] at hc'
      exact hs.running i c' hc' hfin
    · rw [h] at hc'
      by_cases hij : j = i
      · subst hij
        exact hs.running j c hc hcfin
      · rw [List.getElem?_set_ne hij] at hc'
        exact hs.running i c' hc' hfin
  · dsimp only at hh
    have hlen : start ≤ s.server.wal.length := hs.flushed.trans hs.placed.flushed_le
    rw [Server.wal_step segsz hup.not_crash, List.drop_append_of_le_length hlen, dataHeaders_append] at hh
    rcases List.mem_append.mp hh with hh | hh
    · exact hmono h (hs.wal h hh)
    · obtain ⟨xid, hx⟩ := mem_newlyLogged hs hh
      exact ⟨xid, List.mem_append_right _ hx⟩
  · rcases List.mem_append.mp hp with hp | hp
    · exact hs.spared p hp
    · dsimp only
      rw [newlyLogged_running hs hp]
      decide
  · refine (hs.files.mono (hC _ _ hmono) hmono).server hs.placed (hl _) hup.not_crash fun r hr h hh => ?_
    exact hmono h (hs.wal h (List.mem_filterMap.mpr ⟨r, mem_drop_of_getElem? hr hs.reader, hh⟩))

/-- The hook of a statement that has been executed raises no error but those of
`WritePartitionWALRecord`. -/
theorem runHook_ok (s : Database) (me : Nat) (io : HookIO) (stmt : Statement) :
    ∃ s', s.runHook me true io stmt = .ok () s' := by
  have hdone : (s.hooks me).HookDone { io with writeOk := fun _ => true } stmt
      (s.runHook me true io stmt).value?.isSome (s.runHook me true io stmt).state.logged := statement_done rfl rfl stmt
  have hsome := hdone.1.mpr fun _ _ _ _ => rfl
  obtain ⟨u, hu⟩ := Option.isSome_iff_exists.mp hsome
  exact ⟨_, Result.eq_ok hu⟩

end

end Database

/-- What the writes of a step leave. -/
def XactLabel.Leaves (C : (PartWALHeader → Prop) → Bytes → Prop) : XactLabel → Prop
  | .server l => ∀ P, l.Leaves (C P) P
  | _ => True

namespace Database

section
variable {C : (PartWALHeader → Prop) → Bytes → Prop} {start : Nat} {base : Parwal} {s : Database} {segsz : WalSegSize}

theorem Inv.step (hC : ∀ P P' : PartWALHeader → Prop, (∀ h, P h → P' h) → ∀ bs, C P bs → C P' bs)
    (hs : s.Inv C start base) {l : XactLabel} (hspares : s.SparesLogged l) (hl : l.Leaves C) :
    (xactStep segsz s l).Inv C start base := by
  cases l with
  | statement xid me executed io stmt =>
    simp only [xactStep]
    split
    · next hx =>
      have hrun : (s.xacts xid).status ≠ .rolledBack := by
        rw [hx.1.1]
        decide
      split
      · next s' _ =>
        exact (hs.setXact hx.1.interruptible (x := { s.xacts xid with pending := s'.logged })
          fun hst => absurd hst hrun).node _
      · next hraised =>
        refine (hs.setXact hx.1.interruptible fun _ => ?_).node _
        cases executed with
        | true =>
          obtain ⟨s', hok⟩ := s.runHook_ok me io stmt
          rw [hok] at hraised
          cases hraised
        | false => exact hspares xid (if_pos ⟨hx.1, hx.2, rfl⟩)
    · exact hs
  | logNext xid mkdirOk =>
    simp only [xactStep]
    split
    · next hx =>
      split
      · exact hs.logNext hx segsz mkdirOk _ _
      · exact hs
    · exact hs
  | commit xid =>
    simp only [xactStep]
    split
    · next hx => exact hs.setXact hx.1.interruptible fun hst => by cases hst
    · exact hs
  | rollback xid =>
    simp only [xactStep]
    split
    · next hx => exact hs.setXact hx fun _ => hspares xid (if_pos hx)
    · exact hs
  | node l => exact hs.node _
  | server l =>
    simp only [xactStep]
    split
    · next hup => exact hs.server hC hup hl
    · exact hs

theorem Inv.onlyCommitted (hC : ∀ P P' : PartWALHeader → Prop, (∀ h, P h → P' h) → ∀ bs, C P bs → C P' bs)
    (hs : s.Inv C start base) : s.OnlyCommitted C base := by
  have hstands : ∀ h, s.Logged h → s.Stands h := by
    rintro h ⟨xid, hx⟩
    refine ⟨xid, hx, ?_⟩
    cases hst : (s.xacts xid).status with
    | inProgress => exact Or.inr rfl
    | committed => exact Or.inl rfl
    | rolledBack => exact absurd hst (hs.spared (xid, h) hx)
  exact ⟨fun pid => (hs.files.files pid).mono (hC _ _ hstands), fun xid h hx hst => absurd hst (hs.spared (xid, h) hx)⟩

theorem onlyCommitted_run (hC : ∀ P P' : PartWALHeader → Prop, (∀ h, P h → P' h) → ∀ bs, C P bs → C P' bs)
    (wal : List XLogRecord) (parwal : Parwal) (node : Node) {ls : List XactLabel}
    (hspares : Run.Along (xactStep segsz) SparesLogged (boot wal parwal node) ls) (hl : ∀ l ∈ ls, l.Leaves C) :
    (xactRun segsz (boot wal parwal node) ls).OnlyCommitted C parwal :=
  (Run.run_invariant (xactStep segsz) (I := Inv C wal.length parwal) (inv_boot wal parwal node)
    (fun _ _ hs hstep => hs.step hC hstep.1 hstep.2)
    (Run.along_and _ hspares (Run.along_of_forall _ hl))).onlyCommitted hC

end

end Database

/-- No write of the Demux fails. -/
def XactLabel.WritesOk : XactLabel → Prop
  | .server l => l.WritesOk
  | _ => True

/-- **Committed changes.** In every run in which no transaction that has logged a record
is rolled back, what comes into pg_parwal belongs to transactions that have committed or
not ended; if no write fails, these are whole records. -/
theorem only_committed_recorded (segsz : WalSegSize) (wal : List XLogRecord) (parwal : Parwal) (node : Node)
    (ls : List XactLabel)
    (hspares : Run.Along (xactStep segsz) Database.SparesLogged (Database.boot wal parwal node) ls) :
    let s := xactRun segsz (Database.boot wal parwal node) ls
    s.OnlyCommitted TornRecords parwal ∧
      ((∀ l ∈ ls, l.WritesOk) → (∀ pid, (parwal pid).Whole) →
        ∀ pid seg, ∀ h ∈ (s.server.demux.parwal pid).headers seg, h ∈ (parwal pid).headers seg ∨ s.Stands h) := by
  intro s
  constructor
  · refine Database.onlyCommitted_run (C := TornRecords) (fun _ _ hP _ => TornRecords.mono hP) wal parwal node hspares
      fun l _ => ?_
    cases l with
    | server l => exact fun P => l.leaves_torn P
    | _ => trivial
  · intro hok hbase pid seg h hh
    have hwhole : s.OnlyCommitted WholeRecords parwal := by
      refine Database.onlyCommitted_run (C := WholeRecords) (fun _ _ hP _ => WholeRecords.mono hP) wal parwal node
        hspares fun l hl => ?_
      have hl := hok l hl
      cases l with
      | server l => exact fun P => hl.leaves P
      | _ => trivial
    exact (hwhole.stands pid).mem_headers (hbase pid) hh

/-- A COPY FROM into a shard, its record logged and copied by the Demux, and the end of its
transaction. -/
def copyInto (ends : XactLabel) : List XactLabel :=
  [.server .demuxStart,
    .statement 1 0 true ⟨ loggingIO, 16384⟩ (.utility (.copy ⟨true, some "orders_102177".toList⟩)), .logNext 1 true] ++
  List.replicate 5 (.server (.advance 0 Readdir.ascending)) ++
  [.server (.demux (.record (.succeeding .ascending) true)), ends]

/-- It commits. -/
theorem only_committed_recorded_commit :
    (xactRun .default (Database.boot [] (fun _ => Dir.empty) Node.boot) (copyInto (.commit 1))).OnlyCommitted
      TornRecords fun _ => Dir.empty :=
  (only_committed_recorded .default [] (fun _ => Dir.empty) Node.boot (copyInto (.commit 1)) (by decide +kernel)).1

/-- It rolls back, and its record stays in pg_parwal. -/
theorem rolled_back_recorded :
    let s := xactRun .default (Database.boot [] (fun _ => Dir.empty) Node.boot) (copyInto (.rollback 1))
    s.logged = [(1, buildHeader 16384 1 40 1)] ∧ (s.xacts 1).status = .rolledBack ∧
      (s.server.demux.parwal 16384).headers 1 = [buildHeader 16384 1 40 1] ∧
      ¬ s.OnlyCommitted TornRecords fun _ => Dir.empty := by
  intro s
  have hlogged : s.logged = [(1, buildHeader 16384 1 40 1)] := by decide +kernel
  have hstatus : (s.xacts 1).status = .rolledBack := by decide +kernel
  have hheaders : (s.server.demux.parwal 16384).headers 1 = [buildHeader 16384 1 40 1] := by decide +kernel
  refine ⟨hlogged, hstatus, hheaders, fun h => ?_⟩
  refine h.rolledBack 1 (buildHeader 16384 1 40 1) ?_ hstatus 16384 1 ?_
  · rw [hlogged]
    exact List.mem_singleton_self _
  · rw [hheaders]
    exact List.mem_singleton_self _

end PartDist
