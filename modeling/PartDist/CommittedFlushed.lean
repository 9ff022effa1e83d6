import PartDist.Progress
import PartDist.Restart
import PartDist.Transactions

/-!
# Committed and flushed

From the statements of a transaction to the files of its partitions.

`committed_flushed`: when a transaction has committed and a `demux_flush` begun after that
has returned without a warning, each record its statements were due to log is in pg_parwal,
as often as it was due, whatever other transactions, worker stops and restarts went on
beside it, as long as nothing failed and no record came in out of order or was passed over.
-/

namespace PartDist

open Bytes PartWALHeader

def Call.logCall (c : Call) : LogCall := ⟨c.partitionId, c.flags, c.origLsn⟩

def PartWALHeader.logCall (h : PartWALHeader) : LogCall := ⟨h.partitionId, h.flags, h.origNodeLsn⟩

/-- The end of the call's record, once it is in pg_wal. -/
def CallState.customLsn : CallState → Option Nat
  | .flushing n => some n
  | .returned n => some n
  | _ => none

def Call.customLsn (c : Call) : Option Nat := c.state.customLsn

/-- Where the records of the calls are. -/
structure Server.Recorded (s : Server) : Prop where
  record : ∀ c ∈ s.calls, ∀ n, c.customLsn = some n → 0 < n ∧ n ≤ s.wal.length ∧
    ∃ lsn, s.wal[n - 1]? = some (insertedRecord (c.header lsn))
  flushed : ∀ c ∈ s.calls, ∀ n, c.state = .returned n → n ≤ s.flushed
  once : (s.calls.filterMap Call.customLsn).Nodup

/-- The reader has come to the target of every `demux_flush` that has returned. -/
def Server.Reached (s : Server) : Prop :=
  ∀ f ∈ s.flushes, f.state = .returned → f.target ≤ s.flushed ∧ f.target ≤ s.endRecPtr

section
variable {segsz : WalSegSize} {s : Server} {l : Label}

/-! ## The records of the calls -/

theorem Server.Recorded.grow {s' : Server} (hs : s.Recorded) (hcalls : s'.calls = s.calls)
    (hwal : ∃ new, s'.wal = s.wal ++ new) (hflushed : s.flushed ≤ s'.flushed) : s'.Recorded := by
  obtain ⟨new, hwal⟩ := hwal
  refine ⟨fun c hc n hn => ?_, fun c hc n hn => ?_, ?_⟩
  · rw [hcalls] at hc
    obtain ⟨hpos, hle, lsn, hrec⟩ := hs.record c hc n hn
    refine ⟨hpos, ?_, lsn, ?_⟩
    · rw [hwal, List.length_append]
      omega
    · rw [hwal, List.getElem?_append_left (by omega)]
      exact hrec
  · rw [hcalls] at hc
    exact (hs.flushed c hc n hn).trans hflushed
  · rw [hcalls]
    exact hs.once

/-- A call goes on to a state in which its record is where it was. -/
theorem Server.Recorded.setCall (hs : s.Recorded) {i : Nat} {c : Call} {st : CallState} (hc : s.calls[i]? = some c)
    (hst : st.customLsn = c.state.customLsn) (hret : ∀ n, st = .returned n → n ≤ s.flushed) :
    (s.setCall i c st).Recorded := by
  have hmem := List.mem_of_getElem? hc
  obtain ⟨hlt, hget⟩ := List.getElem?_eq_some_iff.mp hc
  refine ⟨fun c' hc' n hn => ?_, fun c' hc' n hn => ?_, ?_⟩
  · rcases List.mem_or_eq_of_mem_set hc' with hc' | rfl
    · exact hs.record c' hc' n hn
    · exact hs.record c hmem n (hst.symm.trans hn)
  · rcases List.mem_or_eq_of_mem_set hc' with hc' | rfl
    · exact hs.flushed c' hc' n hn
    · exact hret n hn
  · have hsame : (s.calls.set i { c with state := st }).map Call.customLsn = s.calls.map Call.customLsn := by
      have hst : Call.customLsn { c with state := st } = c.customLsn := hst
      rw [List.map_set, hst, ← hget, ← List.map_set, List.set_getElem_self]
    have hfilter : ∀ cs : List Call, cs.filterMap Call.customLsn = (cs.map Call.customLsn).filterMap id := fun cs => by
      rw [List.filterMap_map]
      rfl
    show ((s.calls.set i { c with state := st }).filterMap Call.customLsn).Nodup
    rw [hfilter, hsame, ← hfilter]
    exact hs.once

/-- The record of a call is inserted. -/
theorem Server.Recorded.insert (hs : s.Recorded) {i : Nat} {c : Call} {lsn : UInt64} (hc : s.calls[i]? = some c)
    (hst : c.customLsn = none) :
    Server.Recorded { s.setCall i c (.flushing (s.wal.length + 1)) with
      wal := s.wal ++ [insertedRecord (c.header lsn)] } := by
  obtain ⟨hlt, hget⟩ := List.getElem?_eq_some_iff.mp hc
  refine ⟨fun c' hc' n hn => ?_, fun c' hc' n hn => ?_, ?_⟩
  · dsimp only
    rw [List.length_append, List.length_singleton]
    rcases List.mem_or_eq_of_mem_set hc' with hc' | rfl
    · obtain ⟨hpos, hle, lsn', hrec⟩ := hs.record c' hc' n hn
      refine ⟨hpos, by omega, lsn', ?_⟩
      rw [List.getElem?_append_left (by omega)]
      exact hrec
    · obtain rfl := Option.some.inj hn
      exact ⟨by omega, Nat.le_refl _, lsn, List.getElem?_concat_length⟩
  · rcases List.mem_or_eq_of_mem_set hc' with hc' | rfl
    · exact hs.flushed c' hc' n hn
    · cases hn
  · have hold : ∀ n ∈ s.calls.filterMap Call.customLsn, n ≤ s.wal.length := fun n hn => by
      obtain ⟨c', hc', hn⟩ := List.mem_filterMap.mp hn
      exact (hs.record c' hc' n hn).2.1
    have honce := hs.once
    have hsplit : s.calls = s.calls.take i ++ c :: s.calls.drop (i + 1) := by
      rw [← hget, List.getElem_cons_drop, List.take_append_drop]
    rw [hsplit, List.filterMap_append, List.filterMap_cons_none hst] at honce hold
    show ((s.calls.set i { c with state := .flushing (s.wal.length + 1) }).filterMap Call.customLsn).Nodup
    rw [List.set_eq_take_append_cons_drop, if_pos hlt, List.filterMap_append,
      List.filterMap_cons_some (f := Call.customLsn) (b := s.wal.length + 1) rfl]
    refine List.nodup_middle.mpr (List.nodup_cons.mpr ⟨fun hmem => ?_, honce⟩)
    have := hold _ hmem
    omega

theorem recorded_callStep (hs : s.Recorded) (sc : ScanIO) {i : Nat} {c : Call} (hc : s.calls[i]? = some c) :
    (Server.callStep sc i c s).Recorded := by
  unfold Server.callStep
  split
  · next hst =>
    refine hs.setCall hc ?_ fun n hn => ?_
    · rw [hst]
      split <;> rfl
    · split at hn <;> cases hn
  · next hst => exact hs.setCall hc (by rw [hst]; rfl) fun n hn => by cases hn
  · next hst =>
    split
    · next lsn hash _ =>
      have hset : (s.setCall i c (.inserting lsn)).Recorded :=
        hs.setCall hc (by rw [hst]; rfl) fun n hn => by cases hn
      exact ⟨hset.record, hset.flushed, hset.once⟩
    · exact hs.setCall hc (by rw [hst]; rfl) fun n hn => by cases hn
  · next hst => exact hs.insert hc (by rw [Call.customLsn, hst]; rfl)
  · next n hst =>
    have hgrown : Server.Recorded { s with flushed := max s.flushed n } :=
      hs.grow rfl ⟨[], (List.append_nil _).symm⟩ (Nat.le_max_left _ _)
    refine hgrown.setCall hc (by rw [hst]; rfl) fun m hm => ?_
    obtain rfl := CallState.returned.inj hm
    exact Nat.le_max_right _ _
  · exact hs
  · exact hs

theorem recorded_step (hs : s.Recorded) (l : Label) (hl : l.StaysUp) : (serverStep segsz s l).Recorded := by
  have haside : l.Aside → (serverStep segsz s l).Recorded := fun ha => by
    obtain ⟨hcalls, hflushed, -⟩ := aside_step segsz s ha
    refine hs.grow hcalls ⟨_, Server.wal_step segsz fun keep created rd he => ?_⟩ hflushed
    rw [he] at ha
    exact ha
  cases l with
  | begin pid flags origLsn mkdirOk =>
    have hnone : (if mkdirOk = true then CallState.probing else .failed).customLsn = none := by
      split <;> rfl
    refine ⟨fun c hc n hn => ?_, fun c hc n hn => ?_, ?_⟩
    · rcases List.mem_append.mp hc with hc | hc
      · exact hs.record c hc n hn
      · rw [List.mem_singleton.mp hc, Call.customLsn, hnone] at hn
        cases hn
    · rcases List.mem_append.mp hc with hc | hc
      · exact hs.flushed c hc n hn
      · rw [List.mem_singleton.mp hc] at hn
        have hn : (if mkdirOk = true then CallState.probing else .failed) = .returned n := hn
        rw [hn] at hnone
        cases hnone
    · show ((s.calls ++ [_]).filterMap Call.customLsn).Nodup
      have hnone : Call.customLsn ⟨pid, flags, origLsn, if mkdirOk then .probing else .failed⟩ = none := hnone
      rw [List.filterMap_append, List.filterMap_cons_none hnone, List.filterMap_nil, List.append_nil]
      exact hs.once
  | advance i sc =>
    simp only [serverStep]
    cases hc : s.calls[i]? with
    | some c => exact recorded_callStep hs sc hc
    | none => exact hs
  | demux round =>
    simp only [serverStep]
    split
    · rw [Server.demuxIteration_eq]
      exact hs.grow rfl ⟨[], (List.append_nil _).symm⟩ (Nat.le_refl _)
    · exact hs
  | flushBegin => exact hs.grow rfl ⟨[], (List.append_nil _).symm⟩ (Nat.le_refl _)
  | flushPoll i =>
    simp only [serverStep]
    split
    · exact hs.grow rfl ⟨[], (List.append_nil _).symm⟩ (Nat.le_refl _)
    · exact hs
  | restart => exact absurd hl id
  | crash => exact absurd hl id
  | _ => exact haside trivial

/-! ## The reader and those who wait for it -/

theorem Server.Reached.later {s' : Server} (hs : s.Reached) (hflushes : s'.flushes = s.flushes)
    (hkeeps : ∀ n ≤ s.flushed, n ≤ s.endRecPtr → n ≤ s'.flushed ∧ n ≤ s'.endRecPtr) : s'.Reached := by
  intro f hf hret
  rw [hflushes] at hf
  obtain ⟨hflushed, hend⟩ := hs f hf hret
  exact hkeeps f.target hflushed hend

theorem reached_step (hs : s.Reached) (hp : s.Placed) (hm : s.Marked) (l : Label) (hl : l.StaysUp) :
    (serverStep segsz s l).Reached := by
  have hkeeps : (∀ keep created rd, l ≠ .crash keep created rd) → ∀ n ≤ s.flushed, n ≤ s.endRecPtr →
      n ≤ (serverStep segsz s l).flushed ∧ n ≤ (serverStep segsz s l).endRecPtr :=
    fun h n => Server.start_le_step segsz hp h
  have haside : l.Aside → (serverStep segsz s l).Reached := fun ha => by
    obtain ⟨-, -, hflushes, -⟩ := aside_step segsz s ha
    refine hs.later hflushes (hkeeps fun keep created rd he => ?_)
    rw [he] at ha
    exact ha
  cases l with
  | begin pid flags origLsn mkdirOk => exact hs.later rfl fun n hf he => ⟨hf, he⟩
  | advance i sc =>
    simp only [serverStep]
    split
    · rw [Server.callStep_eq]
      exact hs.later rfl fun n hf he => ⟨Server.flushed_callStep hf, he⟩
    · exact hs
  | demux round =>
    have hkeeps := hkeeps fun _ _ _ h => by cases h
    simp only [serverStep] at hkeeps ⊢
    split
    · next hrun =>
      rw [if_pos hrun] at hkeeps
      rw [Server.demuxIteration_eq] at hkeeps ⊢
      exact hs.later rfl hkeeps
    · exact hs
  | flushBegin =>
    intro f hf hret
    rcases List.mem_append.mp hf with hf | hf
    · exact hs f hf hret
    · rw [List.mem_singleton.mp hf] at hret
      cases hret
  | flushPoll i =>
    cases hi : s.flushes[i]? with
    | some f =>
      rw [step_flushPoll hi]
      intro f' hf hret
      rcases List.mem_or_eq_of_mem_set hf with hf | rfl
      · exact hs f' hf hret
      · rw [poll_target]
        rcases poll_returned hret with hret | ⟨p, hp, hle⟩
        · exact hs f (List.mem_of_getElem? hi) hret
        · exact ⟨hle.trans (hm.processed p hp).2, hle.trans (hm.processed p hp).1⟩
    | none =>
      simp only [serverStep, hi]
      exact hs
  | restart => exact absurd hl id
  | crash => exact absurd hl id
  | _ => exact haside trivial

/-- Every `demux_flush` from number `n` on has a target of `m` or more. -/
structure Server.Begun (n m : Nat) (s : Server) : Prop where
  count : n ≤ s.flushes.length
  flushed : m ≤ s.flushed
  target : ∀ i f, n ≤ i → s.flushes[i]? = some f → m ≤ f.target

theorem begun_start (s : Server) : s.Begun s.flushes.length s.flushed :=
  ⟨Nat.le_refl _, Nat.le_refl _, fun i f hi hf => by
    have := (List.getElem?_eq_some_iff.mp hf).1
    omega⟩

theorem Server.Begun.later {n m : Nat} {s' : Server} (hs : s.Begun n m) (hflushes : s'.flushes = s.flushes)
    (hflushed : s.flushed ≤ s'.flushed) : s'.Begun n m :=
  ⟨hflushes ▸ hs.count, hs.flushed.trans hflushed, hflushes ▸ hs.target⟩

theorem begun_step {n m : Nat} (hs : s.Begun n m) (l : Label) (hl : l.StaysUp) : (serverStep segsz s l).Begun n m := by
  have haside : l.Aside → (serverStep segsz s l).Begun n m := fun ha => by
    obtain ⟨-, hflushed, hflushes, -⟩ := aside_step segsz s ha
    exact hs.later hflushes hflushed
  cases l with
  | begin pid flags origLsn mkdirOk => exact hs.later rfl (Nat.le_refl _)
  | advance i sc =>
    simp only [serverStep]
    split
    · next c _ =>
      have hflushed : s.flushed ≤ (Server.callStep sc i c s).flushed := Server.flushed_callStep (Nat.le_refl _)
      rw [Server.callStep_eq]
      exact hs.later rfl hflushed
    · exact hs
  | demux round =>
    simp only [serverStep]
    split
    · rw [Server.demuxIteration_eq]
      exact hs.later rfl (Nat.le_refl _)
    · exact hs
  | flushBegin =>
    have hcount := hs.count
    refine ⟨?_, hs.flushed, fun i f hi hf => ?_⟩
    · show n ≤ (s.flushes ++ [_]).length
      rw [List.length_append]
      omega
    · have hf : (s.flushes ++ [⟨s.flushed, .waiting 0⟩])[i]? = some f := hf
      by_cases hlt : i < s.flushes.length
      · rw [List.getElem?_append_left hlt] at hf
        exact hs.target i f hi hf
      · rw [List.getElem?_append_right (Nat.not_lt.mp hlt), List.getElem?_singleton] at hf
        split at hf
        · obtain rfl := Option.some.inj hf
          exact hs.flushed
        · cases hf
  | flushPoll i =>
    cases hi : s.flushes[i]? with
    | some f =>
      rw [step_flushPoll hi]
      refine ⟨?_, hs.flushed, fun j f' hj hf => ?_⟩
      · dsimp only
        rw [List.length_set]
        exact hs.count
      · dsimp only at hf
        by_cases hij : i = j
        · subst hij
          rw [List.getElem?_set_self (List.getElem?_eq_some_iff.mp hi).1] at hf
          obtain rfl := Option.some.inj hf
          rw [poll_target]
          exact hs.target i f hj hi
        · rw [List.getElem?_set_ne hij] at hf
          exact hs.target j f' hj hf
    | none =>
      simp only [serverStep, hi]
      exact hs
  | restart => exact absurd hl id
  | crash => exact absurd hl id
  | _ => exact haside trivial

/-- The invariant of the server. -/
structure Server.Sound (segsz : WalSegSize) (s : Server) : Prop where
  kept : s.Kept segsz
  marked : s.Marked
  recorded : s.Recorded
  reached : s.Reached

theorem sound_boot (segsz : WalSegSize) : (Server.boot [] fun _ => Dir.empty).Sound segsz :=
  ⟨kept_boot segsz, marked_boot _ _,
    ⟨fun _ hc => absurd hc List.not_mem_nil, fun _ hc => absurd hc List.not_mem_nil, List.nodup_nil⟩,
    fun _ hf => absurd hf List.not_mem_nil⟩

theorem Server.Sound.step (hs : s.Sound segsz) (hl : l.StaysUp) (hres : Resumes s l) :
    (serverStep segsz s l).Sound segsz :=
  ⟨kept_step hs.kept hres, (progresses_step segsz hs.marked hs.kept.placed l).marked, recorded_step hs.recorded l hl,
    reached_step hs.reached hs.kept.placed hs.marked l hl⟩

/-! ## Places in pg_wal -/

/-- The header of the DATA record at a place. -/
def headerAt (wal : List XLogRecord) (k : Nat) : Option PartWALHeader := wal[k]?.bind XLogRecord.dataHeader

/-- The records of calls, from their places. -/
theorem logCalls_at {wal : List XLogRecord} {calls : List Call} (h : ∀ c ∈ calls, ∃ n lsn, c.customLsn = some n ∧
    wal[n - 1]? = some (insertedRecord (c.header lsn))) :
    (((calls.filterMap Call.customLsn).map (· - 1)).filterMap (headerAt wal)).map
      PartWALHeader.logCall = calls.map Call.logCall := by
  induction calls with
  | nil => rfl
  | cons c calls ih =>
    obtain ⟨n, lsn, hn, hr⟩ := h c List.mem_cons_self
    have hd : headerAt wal (n - 1) = some (c.header lsn) := by
      rw [headerAt, hr, Option.bind_some, Call.header, dataHeader_insertedRecord_build]
    rw [List.filterMap_cons_some hn, List.map_cons, List.filterMap_cons_some hd, List.map_cons, List.map_cons,
      ih fun c hc => h c (List.mem_cons_of_mem _ hc)]
    rfl

theorem take_eq_filterMap {α : Type} (l : List α) (n : Nat) : l.take n = (List.range n).filterMap fun k => l[k]? := by
  induction n with
  | zero => rfl
  | succ n ih =>
    rw [List.take_add_one, ih, List.range_succ, List.filterMap_append]
    cases h : l[n]? with
    | none => rw [List.filterMap_cons_none (f := fun k => l[k]?) h]; rfl
    | some a => rw [List.filterMap_cons_some (f := fun k => l[k]?) h]; rfl

/-- Records at different places before `n` are among those before `n`. -/
theorem places_le {wal : List XLogRecord} {places : List Nat} {n : Nat} (hnodup : places.Nodup)
    (hlt : ∀ k ∈ places, k < n) (pid : Oid) :
    (((places.filterMap (headerAt wal)).filter fun h => h.partitionId = pid :
      List PartWALHeader) : Multiset PartWALHeader) ≤ (partHeaders pid (wal.take n) : Multiset PartWALHeader) := by
  have hsub : (places : Multiset Nat) ≤ (List.range n : Multiset Nat) :=
    Multiset.coe_le.mpr (List.subperm_of_subset hnodup fun k hk => List.mem_range.mpr (hlt k hk))
  have hread : partHeaders pid (wal.take n) =
      ((List.range n).filterMap (headerAt wal)).filter fun h => h.partitionId = pid := by
    rw [partHeaders, dataHeaders, take_eq_filterMap, List.filterMap_filterMap]
    rfl
  rw [hread]
  exact Multiset.filter_le_filter _ (Multiset.filterMap_le_filterMap _ hsub)

end

/-! ## Transactions -/

namespace Database

/-- The step that the server takes. -/
def serverLabel (s : Database) : XactLabel → Option Label
  | .logNext xid mkdirOk =>
    if s.Ready xid then
      (s.xacts xid).pending.head?.map fun c => .begin c.partitionId c.flags c.origLsn mkdirOk
    else none
  | .server l => if l.WhileUp then some l else none
  | _ => none

/-- What the hook of the statement is to log for `xid`, if the statement is one of `xid`. -/
def newlyDue (xid : Xid) (s : Database) : XactLabel → List LogCall
  | .statement xid' me executed io stmt =>
    if xid' = xid ∧ s.Ready xid' ∧ (s.xacts xid').pending = [] then
      match s.runHook me executed io stmt with
      | .ok _ s' => s'.logged
      | .error _ _ => []
    else []
  | _ => []

/-- What the statements of `xid` were due to log in a run. -/
def due (segsz : WalSegSize) (s : Database) (ls : List XactLabel) (xid : Xid) : List LogCall :=
  (Run.outputs (xactStep segsz) (newlyDue xid) s ls).flatten

/-- The calls of `xid`, in its order. -/
def callsOf (s : Database) (xid : Xid) : List Call :=
  ((s.owner.zip s.server.calls).filter fun x => x.1 = xid).map Prod.snd

/-- `due xid` has been logged, or is about to be; only the last call of a transaction is on
its way, and none of one that has committed. -/
structure Accounted (due : Xid → List LogCall) (s : Database) : Prop where
  owners : s.owner.length = s.server.calls.length
  all : ∀ xid, (s.xacts xid).status ≠ .rolledBack →
    (s.callsOf xid).map Call.logCall ++ (s.xacts xid).pending = due xid
  last : ∀ i xid c, s.owner[i]? = some xid → s.server.calls[i]? = some c →
    c.state.done = true ∨ ((s.xacts xid).call = some i ∧ (s.xacts xid).status ≠ .committed)
  ended : ∀ xid, (s.xacts xid).status = .committed → (s.xacts xid).pending = []

end Database

/-- No system call of the step fails, and no file is removed. -/
def XactLabel.Ok : XactLabel → Prop
  | .server l => l.Ok ∧ l.KeepsFiles
  | .logNext _ mkdirOk => mkdirOk = true
  | _ => True

/-- The worker misses no record. -/
def Database.MissesNone (s : Database) (l : XactLabel) : Prop :=
  ∀ l' ∈ s.serverLabel l, s.server.SkipsNothing l' ∧ StartsWhereItEnded s.server l' ∧
    ∀ e ∈ s.server.event l', Admits s.server.demux e

instance (s : Database) (l : XactLabel) : Decidable (s.MissesNone l) := Option.decidableForallMem _

/-- A step without failure or cleanup after which nothing is missing. -/
def Database.Resumes (s : Database) (l : XactLabel) : Prop :=
  l.Ok ∧ s.MissesNone l

namespace Database

section
variable {segsz : WalSegSize} {s : Database} {l : XactLabel} {due : Xid → List LogCall}

theorem server_step (segsz : WalSegSize) (s : Database) (l : XactLabel) :
    (xactStep segsz s l).server = (s.serverLabel l).elim s.server (serverStep segsz s.server) := by
  cases l with
  | statement xid me executed io stmt =>
    simp only [xactStep]
    split
    · split <;> rfl
    · rfl
  | logNext xid mkdirOk =>
    simp only [xactStep, serverLabel]
    split
    · cases (s.xacts xid).pending with
      | nil => rfl
      | cons c rest => rfl
    · rfl
  | server l =>
    simp only [xactStep, serverLabel]
    split <;> rfl
  | commit xid =>
    simp only [xactStep]
    split <;> rfl
  | rollback xid =>
    simp only [xactStep]
    split <;> rfl
  | node l => rfl

/-- The step is one of the server that stays up. -/
theorem serverLabel_up {l' : Label} (h : l' ∈ s.serverLabel l) : l'.StaysUp := by
  cases l with
  | logNext xid mkdirOk =>
    simp only [serverLabel] at h
    split at h
    · obtain ⟨c, -, rfl⟩ := Option.map_eq_some_iff.mp h
      trivial
    · cases h
  | server l =>
    simp only [serverLabel] at h
    split at h
    · next hup =>
      obtain rfl := Option.some.inj h
      cases l with
      | restart => exact hup
      | crash => exact hup
      | _ => trivial
    · cases h
  | _ => cases h

theorem Resumes.server (h : s.Resumes l) {l' : Label} (hl' : l' ∈ s.serverLabel l) : PartDist.Resumes s.server l' := by
  obtain ⟨hok, hres⟩ := h
  refine ⟨?_, hres l' hl'⟩
  cases l with
  | logNext xid mkdirOk =>
    simp only [serverLabel] at hl'
    split at hl'
    · obtain ⟨c, -, rfl⟩ := Option.map_eq_some_iff.mp hl'
      exact ⟨hok, trivial⟩
    · cases hl'
  | server l =>
    simp only [serverLabel] at hl'
    split at hl'
    · obtain rfl := Option.some.inj hl'
      exact hok
    · cases hl'
  | _ => cases hl'

theorem sound_step (hs : s.server.Sound segsz) (hres : s.Resumes l) : (xactStep segsz s l).server.Sound segsz := by
  rw [server_step]
  cases hl : s.serverLabel l with
  | none => exact hs
  | some l' => exact hs.step (serverLabel_up hl) (hres.server hl)

/-! ### What is due -/

theorem callsOf_logCalls (s : Database) (xid : Xid) : (s.callsOf xid).map Call.logCall =
    ((s.owner.zip (s.server.calls.map Call.logCall)).filter fun x => x.1 = xid).map Prod.snd := by
  rw [callsOf, List.zip_map_right, List.filter_map, List.map_map, List.map_map]
  rfl

theorem callsOf_snoc (hs : s.owner.length = s.server.calls.length) (s' : Database) {xid : Xid} {c : Call}
    (howner : s'.owner = s.owner ++ [xid]) (hcalls : s'.server.calls = s.server.calls ++ [c]) (xid' : Xid) :
    s'.callsOf xid' = s.callsOf xid' ++ if xid = xid' then [c] else [] := by
  rw [callsOf, howner, hcalls, List.zip_append hs, List.filter_append, List.map_append, callsOf]
  congr 1
  split
  · next h => simp [h]
  · next h => simp [h]

/-- A transaction that can go on has no call on its way. -/
theorem Accounted.done (hs : s.Accounted due) {xid : Xid} (hx : s.Ready xid) {i : Nat} {c : Call}
    (howner : s.owner[i]? = some xid) (hc : s.server.calls[i]? = some c) : c.state.done = true := by
  rcases hs.last i xid c howner hc with h | ⟨hcall, -⟩
  · exact h
  · refine hx.2 c.state ?_
    rw [lastCall, hcall, Option.bind_some, hc]
    rfl

/-- One transaction changes its state. -/
theorem Accounted.setXact (hs : s.Accounted due) {due' : Xid → List LogCall} {xid : Xid} {x : Xact}
    (hother : ∀ xid', xid' ≠ xid → due' xid' = due xid')
    (hall : x.status ≠ .rolledBack → (s.callsOf xid).map Call.logCall ++ x.pending = due' xid)
    (hlast : ∀ i c, s.owner[i]? = some xid → s.server.calls[i]? = some c →
      c.state.done = true ∨ (x.call = some i ∧ x.status ≠ .committed))
    (hended : x.status = .committed → x.pending = []) : (s.setXact xid x).Accounted due' := by
  refine ⟨hs.owners, fun xid' hst => ?_, fun i xid' c howner hc => ?_, fun xid' hst => ?_⟩
  · by_cases hne : xid' = xid
    · subst hne
      rw [s.setXact_self] at hst ⊢
      exact hall hst
    · rw [s.setXact_of_ne hne] at hst ⊢
      rw [hother xid' hne]
      exact hs.all xid' hst
  · by_cases hne : xid' = xid
    · subst hne
      rw [s.setXact_self]
      exact hlast i c howner hc
    · rw [s.setXact_of_ne hne]
      exact hs.last i xid' c howner hc
  · by_cases hne : xid' = xid
    · subst hne
      rw [s.setXact_self] at hst ⊢
      exact hended hst
    · rw [s.setXact_of_ne hne] at hst ⊢
      exact hs.ended xid' hst

theorem Accounted.node (hs : s.Accounted due) (node : Node) : Accounted due { s with node := node } :=
  ⟨hs.owners, hs.all, hs.last, hs.ended⟩

/-- The first pending record becomes a call. -/
theorem Accounted.logNext (hs : s.Accounted due) {xid : Xid} (hx : s.Ready xid) (segsz : WalSegSize) (mkdirOk : Bool)
    {c : LogCall} {rest : List LogCall} (hpending : (s.xacts xid).pending = c :: rest) :
    Accounted due { s.setXact xid { s.xacts xid with pending := rest, call := some s.server.calls.length } with
      server := serverStep segsz s.server (.begin c.partitionId c.flags c.origLsn mkdirOk)
      owner := s.owner ++ [xid] } := by
  have hsnoc := callsOf_snoc hs.owners
    { s.setXact xid { s.xacts xid with pending := rest, call := some s.server.calls.length } with
      server := serverStep segsz s.server (.begin c.partitionId c.flags c.origLsn mkdirOk)
      owner := s.owner ++ [xid] } rfl rfl
  refine ⟨?_, fun xid' hst => ?_, fun i xid' c' howner hc => ?_, fun xid' hst => ?_⟩
  · show (s.owner ++ [xid]).length = (s.server.calls ++ [_]).length
    rw [List.length_append, List.length_append, hs.owners]
    rfl
  · rw [hsnoc]
    dsimp only at hst ⊢
    by_cases hne : xid' = xid
    · subst hne
      rw [s.setXact_self] at hst ⊢
      have hall := hs.all xid' hst
      rw [hpending] at hall
      rw [if_pos rfl, List.map_append, List.append_assoc]
      exact hall
    · rw [s.setXact_of_ne hne] at hst ⊢
      rw [if_neg fun h => hne h.symm, List.append_nil]
      exact hs.all xid' hst
  · dsimp only at howner ⊢
    change (s.server.calls ++ [_])[i]? = some c' at hc
    by_cases hi : i < s.server.calls.length
    · rw [List.getElem?_append_left (by rw [hs.owners]; exact hi)] at howner
      rw [List.getElem?_append_left hi] at hc
      by_cases hne : xid' = xid
      · subst hne
        exact Or.inl (hs.done hx howner hc)
      · rw [s.setXact_of_ne hne]
        exact hs.last i xid' c' howner hc
    · have hlen := (List.getElem?_eq_some_iff.mp hc).1
      rw [List.length_append, List.length_singleton] at hlen
      obtain rfl : i = s.owner.length := by
        rw [hs.owners]
        omega
      rw [List.getElem?_concat_length] at howner
      obtain rfl := Option.some.inj howner
      rw [s.setXact_self]
      refine Or.inr ⟨congrArg some hs.owners.symm, ?_⟩
      show (s.xacts xid).status ≠ .committed
      rw [hx.1]
      exact XactStatus.noConfusion
  · dsimp only at hst ⊢
    by_cases hne : xid' = xid
    · subst hne
      rw [s.setXact_self] at hst
      have hst : (s.xacts xid').status = .committed := hst
      rw [hx.1] at hst
      cases hst
    · rw [s.setXact_of_ne hne] at hst ⊢
      exact hs.ended xid' hst

theorem Accounted.server (hs : s.Accounted due) {l : Label} (hup : l.WhileUp) (logged : List (Xid × PartWALHeader)) :
    Accounted due { s with server := serverStep segsz s.server l, logged := logged } := by
  rcases Server.calls_step segsz s.server hup with hcalls | ⟨i, c, st, hc, hfin, hcalls⟩
  · refine ⟨?_, fun xid hst => ?_, fun i xid c howner hc => ?_, hs.ended⟩
    · dsimp only
      rw [hcalls]
      exact hs.owners
    · rw [callsOf_logCalls]
      dsimp only
      rw [hcalls, ← callsOf_logCalls]
      exact hs.all xid hst
    · dsimp only at howner hc ⊢
      rw [hcalls] at hc
      exact hs.last i xid c howner hc
  · obtain ⟨hlt, hget⟩ := List.getElem?_eq_some_iff.mp hc
    refine ⟨?_, fun xid hst => ?_, fun j xid c' howner hc' => ?_, hs.ended⟩
    · dsimp only
      rw [hcalls, List.length_set]
      exact hs.owners
    · rw [callsOf_logCalls]
      dsimp only
      rw [hcalls, List.map_set, show Call.logCall { c with state := st } = c.logCall from rfl, ← hget, ← List.map_set,
        List.set_getElem_self, ← callsOf_logCalls]
      exact hs.all xid hst
    · dsimp only at howner hc' ⊢
      rw [hcalls] at hc'
      by_cases hij : i = j
      · subst hij
        -- a call on its way is the last one of its transaction
        rcases hs.last i xid c howner hc with hdone | hlast
        · rw [CallState.done.eq_def] at hdone
          split at hdone
          · next h =>
            rw [h] at hfin
            cases hfin
          · cases hdone
        · exact Or.inr hlast
      · rw [List.getElem?_set_ne hij] at hc'
        exact hs.last j xid c' howner hc'

theorem Accounted.step (hs : s.Accounted due) (segsz : WalSegSize) (l : XactLabel) :
    (xactStep segsz s l).Accounted fun xid => due xid ++ newlyDue xid s l := by
  have hquiet : (∀ xid, newlyDue xid s l = []) → (fun xid => due xid ++ newlyDue xid s l) = due := fun h => by
    funext xid
    rw [h, List.append_nil]
  cases l with
  | statement xid me executed io stmt =>
    simp only [xactStep]
    split
    · next hx =>
      have hother : ∀ xid', xid' ≠ xid → newlyDue xid' s (.statement xid me executed io stmt) = [] :=
        fun xid' hne => if_neg fun h => hne h.1.symm
      have hown : newlyDue xid s (.statement xid me executed io stmt) =
          match s.runHook me executed io stmt with
          | .ok _ s' => s'.logged
          | .error _ _ => [] := if_pos ⟨rfl, hx⟩
      cases hrun : s.runHook me executed io stmt with
      | ok u s' =>
        rw [hrun] at hown
        dsimp only at hown ⊢
        refine (hs.setXact (fun xid' hne => ?_) (fun hst => ?_) (fun i c howner hc => Or.inl (hs.done hx.1 howner hc))
          fun hst => ?_).node _
        · rw [hother xid' hne, List.append_nil]
        · rw [hown, ← hs.all xid hst, hx.2, List.append_nil]
        · rw [hx.1.1] at hst
          cases hst
      | error e s' =>
        dsimp only
        refine (hs.setXact (fun xid' hne => ?_) (fun hst => absurd rfl hst)
          (fun i c howner hc => Or.inl (hs.done hx.1 howner hc)) fun hst => by cases hst).node _
        rw [hother xid' hne, List.append_nil]
    · next hx =>
      rw [hquiet fun xid' => if_neg fun h => hx h.2]
      exact hs
  | logNext xid mkdirOk =>
    rw [hquiet fun _ => rfl]
    simp only [xactStep]
    split
    · next hx =>
      split
      · next hpending => exact hs.logNext hx segsz mkdirOk hpending
      · exact hs
    · exact hs
  | commit xid =>
    rw [hquiet fun _ => rfl]
    simp only [xactStep]
    split
    · next hx =>
      refine hs.setXact (fun _ _ => rfl) (fun _ => ?_) (fun i c howner hc => Or.inl (hs.done hx.1 howner hc)) fun _ => hx.2
      exact hs.all xid (by rw [hx.1.1]; exact XactStatus.noConfusion)
    · exact hs
  | rollback xid =>
    rw [hquiet fun _ => rfl]
    simp only [xactStep]
    split
    · refine hs.setXact (fun _ _ => rfl) (fun hst => absurd rfl hst) (fun i c howner hc => ?_) fun hst => by cases hst
      exact (hs.last i xid c howner hc).imp id fun h => ⟨h.1, XactStatus.noConfusion⟩
    · exact hs
  | node l =>
    rw [hquiet fun _ => rfl]
    exact hs.node _
  | server l =>
    rw [hquiet fun _ => rfl]
    simp only [xactStep]
    split
    · next hup => exact hs.server hup _
    · exact hs

/-! ### Runs -/

theorem due_snoc (segsz : WalSegSize) (s : Database) (ls : List XactLabel) (l : XactLabel) :
    Database.due segsz s (ls ++ [l]) = fun xid => Database.due segsz s ls xid ++ newlyDue xid (xactRun segsz s ls) l := by
  funext xid
  rw [Database.due, Run.outputs_append, List.flatten_append]
  simp [Run.outputs, Database.due, xactRun]

theorem accounted_run (segsz : WalSegSize) (node : Node) (ls : List XactLabel) :
    (xactRun segsz (boot [] (fun _ => Dir.empty) node) ls).Accounted
      (Database.due segsz (boot [] (fun _ => Dir.empty) node) ls) := by
  induction ls using List.reverseRecOn with
  | nil => exact ⟨rfl, fun _ _ => rfl, fun i _ _ howner _ => absurd howner (by simp [xactRun, boot]), fun _ _ => rfl⟩
  | append_singleton ls l ih =>
    have hlast : xactRun segsz (boot [] (fun _ => Dir.empty) node) (ls ++ [l]) =
        xactStep segsz (xactRun segsz (boot [] (fun _ => Dir.empty) node) ls) l := List.foldl_concat ..
    rw [due_snoc, hlast]
    exact ih.step segsz l

/-- The records of a committed transaction are among those on disk, each at a place of its own. -/
theorem Accounted.places (hs : s.Accounted due) (hrec : s.server.Recorded) {xid : Xid}
    (hst : (s.xacts xid).status = .committed) : ∃ places : List Nat, places.Nodup ∧
      (∀ k ∈ places, k < s.server.flushed) ∧
      (places.filterMap (headerAt s.server.wal)).map PartWALHeader.logCall = due xid := by
  have hreturned : ∀ c ∈ s.callsOf xid, ∃ n, c.state = .returned n := by
    intro c hc
    obtain ⟨⟨xid', c'⟩, hx, rfl⟩ := List.mem_map.mp hc
    obtain ⟨hzip, hxid⟩ := List.mem_filter.mp hx
    have hxid : xid' = xid := by simpa using hxid
    obtain ⟨i, hi⟩ := List.mem_iff_getElem?.mp hzip
    obtain ⟨howner, hcall⟩ := List.getElem?_zip_eq_some.mp hi
    rw [hxid] at howner
    rcases hs.last i xid c' howner hcall with hdone | ⟨-, hne⟩
    · rw [CallState.done.eq_def] at hdone
      split at hdone
      · next n h => exact ⟨n, h⟩
      · cases hdone
    · exact absurd hst hne
  have hsub : (s.callsOf xid).Sublist s.server.calls := by
    have hall := (List.filter_sublist (p := fun x : Xid × Call => x.1 = xid)
      (l := s.owner.zip s.server.calls)).map Prod.snd
    rwa [List.map_snd_zip (Nat.le_of_eq hs.owners.symm)] at hall
  have hnodup := (hsub.filterMap Call.customLsn).nodup hrec.once
  have hplace : ∀ n ∈ (s.callsOf xid).filterMap Call.customLsn, 0 < n ∧ n ≤ s.server.flushed := by
    intro n hn
    obtain ⟨c, hc, hcn⟩ := List.mem_filterMap.mp hn
    obtain ⟨m, hm⟩ := hreturned c hc
    rw [Call.customLsn, hm] at hcn
    obtain rfl := Option.some.inj hcn
    have hc := hsub.subset hc
    exact ⟨(hrec.record c hc m (by rw [Call.customLsn, hm]; rfl)).1, hrec.flushed c hc m hm⟩
  refine ⟨((s.callsOf xid).filterMap Call.customLsn).map (· - 1), ?_, fun k hk => ?_, ?_⟩
  · refine hnodup.map_on fun m hm n hn heq => ?_
    have := (hplace m hm).1
    have := (hplace n hn).1
    omega
  · obtain ⟨n, hn, rfl⟩ := List.mem_map.mp hk
    have := hplace n hn
    omega
  · have hall := hs.all xid (by rw [hst]; exact XactStatus.noConfusion)
    rw [hs.ended xid hst, List.append_nil] at hall
    rw [← hall]
    refine logCalls_at fun c hc => ?_
    obtain ⟨n, hn⟩ := hreturned c hc
    have hcust : c.customLsn = some n := by rw [Call.customLsn, hn]; rfl
    obtain ⟨-, -, lsn, hr⟩ := hrec.record c (hsub.subset hc) n hcust
    exact ⟨n, lsn, hcust, hr⟩

/-- What the server keeps from some point on: what is in pg_wal, and the targets of the
`demux_flush` calls that begin. -/
def Since (segsz : WalSegSize) (s₁ s : Database) : Prop :=
  s.server.Sound segsz ∧ s.server.Begun s₁.server.flushes.length s₁.server.flushed ∧ s₁.server.wal <+: s.server.wal

theorem since_step {s₁ : Database} (hs : Since segsz s₁ s) (hres : s.Resumes l) :
    Since segsz s₁ (xactStep segsz s l) := by
  obtain ⟨hsound, hbegun, hwal⟩ := hs
  refine ⟨sound_step hsound hres, ?_⟩
  rw [server_step]
  cases hl : s.serverLabel l with
  | none => exact ⟨hbegun, hwal⟩
  | some l' =>
    have hup := serverLabel_up hl
    refine ⟨begun_step hbegun l' hup, hwal.trans ⟨_, (Server.wal_step segsz fun keep created rd he => ?_).symm⟩⟩
    rw [he] at hup
    exact hup

end

end Database

open Database in
/-- **From a statement to its files.** In every run in which nothing fails, comes in out of
order or is passed over: once a transaction has committed, a `demux_flush` that begins later and returns
without a warning finds in pg_parwal the records that the hooks of its statements were due
to log, each as often as it was due. -/
theorem committed_flushed (segsz : WalSegSize) (node : Node) (ls₁ ls₂ : List XactLabel)
    (hls : Run.Along (xactStep segsz) Database.Resumes (boot [] (fun _ => Dir.empty) node) (ls₁ ++ ls₂))
    {s₁ s₂ : Database} (hs₁ : s₁ = xactRun segsz (boot [] (fun _ => Dir.empty) node) ls₁)
    (hs₂ : s₂ = xactRun segsz s₁ ls₂) (xid : Xid) (hcommit : (s₁.xacts xid).status = .committed)
    {i : Nat} {f : FlushCall} (hi : s₁.server.flushes.length ≤ i) (hf : s₂.server.flushes[i]? = some f)
    (hret : f.state = .returned) :
    ∃ hs : List PartWALHeader, hs.map PartWALHeader.logCall = due segsz (boot [] (fun _ => Dir.empty) node) ls₁ xid ∧
      ∀ pid, ((hs.filter fun h => h.partitionId = pid : List PartWALHeader) : Multiset PartWALHeader) ≤
        (s₂.server.demux.parwal pid).records := by
  obtain ⟨hls₁, hls₂⟩ := (Run.along_append (xactStep segsz)).mp hls
  have hsound : s₁.server.Sound segsz := by
    rw [hs₁]
    exact Run.run_invariant (xactStep segsz) (I := fun s => s.server.Sound segsz) (sound_boot segsz)
      (fun s l hs hres => sound_step hs hres) hls₁
  have hsince : Since segsz s₁ s₂ := by
    rw [hs₂]
    refine Run.run_invariant (xactStep segsz) (I := Since segsz s₁)
      ⟨hsound, begun_start s₁.server, List.prefix_rfl⟩ (fun s l hs hres => since_step hs hres) ?_
    rw [hs₁]
    exact hls₂
  obtain ⟨hsound₂, hbegun, hwal⟩ := hsince
  have hacc := accounted_run segsz node ls₁
  rw [← hs₁] at hacc
  obtain ⟨places, hnodup, hlt, hdue⟩ := hacc.places hsound.recorded hcommit
  -- the reader has come past the flush position that the commit left
  have htarget := (hbegun.target i f hi hf).trans (hsound₂.reached f (List.mem_of_getElem? hf) hret).2
  refine ⟨places.filterMap (headerAt s₁.server.wal), hdue, fun pid => ?_⟩
  have hgrown := (hsound₂.kept.holdsRead pid).records fun s => ⟨0, rfl⟩
  have hrecords : (s₂.server.demux.parwal pid).records =
      (partHeaders pid (s₂.server.wal.take s₂.server.endRecPtr) : Multiset PartWALHeader) := by
    rw [hgrown]
    simp [Dir.records]
  have hsame : places.filterMap (headerAt s₁.server.wal) = places.filterMap (headerAt s₂.server.wal) := by
    refine List.filterMap_congr fun k hk => ?_
    have hk := (hlt k hk).trans_le hsound.kept.placed.flushed_le
    obtain ⟨new, hnew⟩ := hwal
    rw [headerAt, headerAt, ← hnew, List.getElem?_append_left hk]
  rw [hrecords, hsame]
  exact places_le hnodup (fun k hk => (hlt k hk).trans_le htarget) pid

/-- A COPY FROM into a shard is logged and commits; then a `demux_flush` begins, the worker reads
the record, and `demux_flush` looks again. -/
def copyCommits : List XactLabel :=
  [.server .demuxStart,
    .statement 1 0 true ⟨ loggingIO, 16384⟩ (.utility (.copy ⟨true, some "orders_102177".toList⟩)), .logNext 1 true] ++
  List.replicate 5 (.server (.advance 0 Readdir.ascending)) ++ [.commit 1]

def flushAfterCommit : List XactLabel :=
  [.server .flushBegin, .server (.flushPoll 0), .server (.demux (.record (.succeeding .ascending) true)),
    .server (.flushPoll 0)]

theorem ok_copyAndFlush {l : XactLabel} (h : l ∈ copyCommits ++ flushAfterCommit) : l.Ok := by
  simp only [copyCommits, flushAfterCommit, List.mem_append, List.mem_cons, List.mem_replicate, List.not_mem_nil,
    or_false] at h
  rcases h with (((rfl | rfl | rfl) | ⟨-, rfl⟩) | rfl) | rfl | rfl | rfl | rfl
  · exact ⟨trivial, trivial⟩
  · exact trivial
  · exact rfl
  · exact ⟨fun _ => rfl, trivial⟩
  · exact trivial
  · exact ⟨trivial, trivial⟩
  · exact ⟨trivial, trivial⟩
  · exact ⟨⟨ RecordIO.ok_succeeding _, rfl⟩, trivial⟩
  · exact ⟨trivial, trivial⟩

theorem committed_flushed_copy :
    ∃ hs : List PartWALHeader, hs.map PartWALHeader.logCall = [⟨16384, 1, 40⟩] ∧
      ∀ pid, ((hs.filter fun h => h.partitionId = pid : List PartWALHeader) : Multiset PartWALHeader) ≤
        ((xactRun .default (Database.boot [] (fun _ => Dir.empty) Node.boot)
          (copyCommits ++ flushAfterCommit)).server.demux.parwal pid).records := by
  obtain ⟨hs, hdue, hrec⟩ := committed_flushed .default Node.boot copyCommits flushAfterCommit
    (Run.along_and _ (Run.along_of_forall _ fun _ hl => ok_copyAndFlush hl) (by decide +kernel)) rfl rfl 1
    (by decide +kernel) (i := 0) (f := ⟨1, .returned⟩) (by decide +kernel) (by decide +kernel) rfl
  exact ⟨hs, hdue.trans (by decide +kernel), fun pid => by
    rw [xactRun, List.foldl_append]
    exact hrec pid⟩

end PartDist
