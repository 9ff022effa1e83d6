import PartDist.DemuxOrdered
import PartDist.Server

/-!
# Allocation order and WAL order

`AllocPartitionLSN` and `XLogInsert` are separate critical sections of a
`WritePartitionWALRecord` call, and the Demux drops what is not above its
watermark.

* `started_grown`: without failure a worker has stored the records the high-water
  mark lets through.
* `all_stored_iff`: those are all records exactly when every call inserted above
  the records of its partition that pg_wal already had.
-/

namespace PartDist

open Bytes PartWALHeader HighWater

/-! ## Steps without failure -/

/-- No system call of the step fails.  A round of the Demux that finds no record, or cannot
open its segment of pg_wal, goes on with the next one. -/
def Label.Ok : Label → Prop
  | .begin _ _ _ mkdirOk => mkdirOk = true
  | .advance _ sc => sc.Ok
  | .demux (.caughtUp io) => (LoopEvent.caughtUp io).Ok
  | .demux (.record io saveOk) => io.Ok ∧ saveOk = true
  | .demuxStop io destroyIo saveOk =>
    (∀ pid, NoWriteError (io pid)) ∧ (∀ pid, NoWriteError (destroyIo pid)) ∧ saveOk = true
  | .cleanup _ _ _ unlinkOk => ∀ s, unlinkOk s = true
  | _ => True

/-- A step of a worker or beside it that does not fail and passes over no DATA record. -/
def Server.Steady (s : Server) (l : Label) : Prop := (l.Ok ∧ l.Serves) ∧ s.SkipsNothing l

/-- What a step without failure does to the writers is without failure. -/
theorem Label.Ok.event {s : Server} {l : Label} (h : l.Ok) : ∀ e ∈ s.event l, e.Ok := by
  intro e he
  cases l with
  | demux round =>
    cases round with
    | caughtUp io =>
      simp only [Server.event] at he
      split at he
      · obtain rfl := Option.some.inj he
        exact h
      · cases he
    | record io saveOk =>
      simp only [Server.event] at he
      split at he
      · obtain ⟨r, -, rfl⟩ := Option.map_eq_some_iff.mp he
        exact h.1
      · cases he
    | _ => cases he
  | _ => cases he

theorem Server.Steady.reads {s : Server} {l : Label} (h : s.Steady l) : s.Reads (fun _ e => e.Ok) l :=
  ⟨h.1.2, h.2, h.1.1.event⟩

/-! ## Insertion order -/

/-- A call inserts above every record of its partition that pg_wal has. -/
def InsertsInOrder (s : Server) (l : Label) : Prop :=
  ∀ x ∈ s.inserts l, 0 < x.2.toNat ∧ ∀ a ∈ partHeaders x.1.partitionId s.wal, a.lsn < x.2.toNat

instance (s : Server) (l : Label) : Decidable (InsertsInOrder s l) :=
  inferInstanceAs (Decidable (∀ x ∈ s.inserts l, _))

/-- Each partition's records come in `partition_lsn` order, from 1 on. -/
def LsnOrdered (wal : List XLogRecord) : Prop :=
  ∀ pid, (∀ a ∈ partHeaders pid wal, 0 < a.lsn) ∧ Increasing lsn (partHeaders pid wal)

section
variable {segsz : WalSegSize} {s : Server} {ls : List Label}

theorem lsnOrdered_nil : LsnOrdered [] := fun _ => ⟨(fun _ ha => nomatch ha), List.Pairwise.nil⟩

theorem partHeaders_append (pid : Oid) (l l' : List XLogRecord) :
    partHeaders pid (l ++ l') = partHeaders pid l ++ partHeaders pid l' := by
  rw [partHeaders, dataHeaders_append, List.filter_append]
  rfl

theorem partHeaders_insertedRecord (pid : Oid) (c : Call) (lsn : UInt64) :
    partHeaders pid [insertedRecord (c.header lsn)] =
      if c.partitionId = pid then [c.header lsn] else [] := by
  by_cases hp : c.partitionId = pid
  · simp [partHeaders, dataHeaders, Call.header, hp]
  · simp [partHeaders, dataHeaders, Call.header, hp]

theorem lsnOrdered_insert (wal : List XLogRecord) (c : Call) (lsn : UInt64) :
    LsnOrdered (wal ++ [insertedRecord (c.header lsn)]) ↔
      LsnOrdered wal ∧ 0 < lsn.toNat ∧ ∀ a ∈ partHeaders c.partitionId wal, a.lsn < lsn.toNat := by
  have hother : ∀ pid, c.partitionId ≠ pid →
      partHeaders pid (wal ++ [insertedRecord (c.header lsn)]) = partHeaders pid wal := by
    intro pid hp
    rw [partHeaders_append, partHeaders_insertedRecord, if_neg hp, List.append_nil]
  have hown : partHeaders c.partitionId (wal ++ [insertedRecord (c.header lsn)]) =
      partHeaders c.partitionId wal ++ [c.header lsn] := by
    rw [partHeaders_append, partHeaders_insertedRecord, if_pos rfl]
  constructor
  · intro h
    have hc := h c.partitionId
    rw [hown] at hc
    obtain ⟨hinc, -, hlt⟩ := List.pairwise_append.mp hc.2
    refine ⟨fun pid => ?_, hc.1 (c.header lsn) (by simp), fun a ha => hlt a ha _ List.mem_cons_self⟩
    by_cases hp : c.partitionId = pid
    · subst hp
      exact ⟨fun a ha => hc.1 a (List.mem_append_left _ ha), hinc⟩
    · rw [← hother pid hp]
      exact h pid
  · rintro ⟨h, hpos, hlt⟩ pid
    by_cases hp : c.partitionId = pid
    · subst hp
      rw [hown]
      refine ⟨fun a ha => ?_, List.pairwise_append.mpr ⟨(h _).2, List.pairwise_singleton _ _, ?_⟩⟩
      · rcases List.mem_append.mp ha with ha | ha
        · exact (h _).1 a ha
        · obtain rfl := List.mem_singleton.mp ha
          exact hpos
      · intro a ha b hb
        obtain rfl := List.mem_singleton.mp hb
        exact hlt a ha
    · rw [hother pid hp]
      exact h pid

theorem lsnOrdered_added (s : Server) (l : Label) :
    LsnOrdered (s.wal ++ s.added l) ↔ LsnOrdered s.wal ∧ InsertsInOrder s l := by
  have hquiet : ∀ new, dataHeaders new = [] → (LsnOrdered (s.wal ++ new) ↔ LsnOrdered s.wal) := by
    intro new hnew
    have hsame : ∀ pid, partHeaders pid (s.wal ++ new) = partHeaders pid s.wal := by
      intro pid
      rw [partHeaders_append, partHeaders, partHeaders, hnew, List.filter_nil, List.append_nil]
    simp only [LsnOrdered, hsame]
  cases l with
  | advance i sc =>
    unfold Server.added InsertsInOrder
    cases hx : s.inserts (.advance i sc) with
    | none => simp [hx]
    | some x => simpa [hx] using lsnOrdered_insert s.wal x.1 x.2
  | otherRecord r =>
    have hins : InsertsInOrder s (.otherRecord r) := fun x hx => by cases hx
    simp only [Server.added, hins, and_true]
    split
    · next hr => exact hquiet [r] (by simp [dataHeaders, XLogRecord.dataHeader, hr])
    · exact hquiet [] rfl
  | _ => simp [Server.added, InsertsInOrder, Server.inserts]

/-- pg_wal is ordered after a run exactly when it was before and every insertion on
the way was in order. -/
theorem lsnOrdered_run (hls : ∀ l ∈ ls, ∀ keep created rd, l ≠ .crash keep created rd) :
    LsnOrdered (serverRun segsz s ls).wal ↔
      LsnOrdered s.wal ∧ Run.Along (serverStep segsz) InsertsInOrder s ls := by
  induction ls generalizing s with
  | nil => simp [serverRun]
  | cons l ls ih =>
    rw [serverRun, List.foldl_cons, ← serverRun, ih fun l' hl' => hls l' (List.mem_cons_of_mem l hl'),
      Run.along_cons, Server.wal_step _ (hls l List.mem_cons_self), lsnOrdered_added, and_assoc]

/-! ## A worker on empty files -/

/-- A worker started at the beginning of pg_wal, with nothing in pg_parwal. -/
def Server.started (segsz : WalSegSize) : Server :=
  serverStep segsz (Server.boot [] fun _ => Dir.empty) .demuxStart

theorem Server.placed_started (segsz : WalSegSize) : (Server.started segsz).Placed :=
  Server.placed_step _ (Server.placed_boot _ _) _

theorem namedPartitions_sublist {l l' : List XLogRecord}
    (h : (dataHeaders l).Sublist (dataHeaders l')) : namedPartitions l ⊆ namedPartitions l' :=
  fun _ hp => List.mem_toFinset.mpr ((h.map _).subset (List.mem_toFinset.mp hp))

theorem steady_serves {s : Server} (hls : Run.Along (serverStep segsz) Server.Steady s ls) :
    ∀ l ∈ ls, l.Serves :=
  Run.forall_of_along (serverStep segsz) (Run.along_mono (serverStep segsz) (fun _ _ h => h.1.2) hls)

/-- What the worker does is a run of the Demux on what it has read. -/
theorem started_run (hls : Run.Along (serverStep segsz) Server.Steady (Server.started segsz) ls) :
    let s := serverRun segsz (Server.started segsz) ls
    ∃ es, s.demux = demuxRun segsz (Demux.fresh fun _ => Dir.empty) es ∧ (∀ e ∈ es, e.Ok) ∧
      dataHeaders (walOf es) = dataHeaders (s.wal.take s.endRecPtr) := by
  intro s
  have hfollows : (Server.started segsz).Follows segsz (fun _ e => e.Ok) (fun _ => Dir.empty) [] :=
    Server.follows_start _ (s := Server.boot [] fun _ => Dir.empty) rfl
  obtain ⟨⟨es, hf⟩, -, -, hstart⟩ := hfollows.run (Server.placed_started _) rfl
    (Run.along_mono (serverStep segsz) (fun s l h => h.reads) hls)
  refine ⟨es, hf.demux, Run.forall_of_along _ hf.along, ?_⟩
  rw [hf.read, hstart]
  rfl

/-- A share of a worker on empty files. -/
theorem clean_share (segsz : WalSegSize) {es : List LoopEvent} (hio : ∀ e ∈ es, e.Ok) (pid : Oid) :
    CleanInv segsz pid Dir.empty 0 (accepted lsn 0 (partHeaders pid (walOf es)))
      (es.foldl (shareStep segsz pid) (none, Dir.empty)) :=
  clean_run_solid _ (solid_empty pid) hio fun _ _ _ => ⟨getLast_empty _ rfl, getLast_empty _ rfl⟩

/-- What the worker has read so far, the high-water mark's selection of it stored. -/
theorem started_grown (hls : Run.Along (serverStep segsz) Server.Steady (Server.started segsz) ls)
    (hparts : (namedPartitions (serverRun segsz (Server.started segsz) ls).wal).card ≤ demuxMaxPartitions)
    (pid : Oid) :
    let s := serverRun segsz (Server.started segsz) ls
    Dir.Grown segsz Dir.empty (accepted lsn 0 (partHeaders pid (s.wal.take s.endRecPtr)))
      (s.demux.parwal pid) := by
  intro s
  obtain ⟨es, hd, hio, hread⟩ := started_run hls
  have hnamed : namedPartitions (walOf es) ⊆ namedPartitions s.wal :=
    namedPartitions_sublist (hread ▸ (List.take_sublist _ _).filterMap _)
  have hshare := share_of_fresh segsz ((Finset.card_le_card hnamed).trans hparts) (fun _ => Dir.empty) pid
  have hclean := clean_share segsz hio pid
  rw [← hshare, ← hd] at hclean
  rw [partHeaders, ← hread, ← partHeaders]
  exact hclean.grown

/-- **What concurrent calls lose.** Without failure, once the worker has read the whole
of pg_wal and passed over nothing, every record is stored exactly once if and only if every
call inserted its record above the ones of its partition that pg_wal already had. -/
theorem all_stored_iff (segsz : WalSegSize) (ls : List Label)
    (hls : Run.Along (serverStep segsz) Server.Steady (Server.started segsz) ls) :
    let s := serverRun segsz (Server.started segsz) ls
    s.endRecPtr = s.wal.length → (namedPartitions s.wal).card ≤ demuxMaxPartitions →
    ((∀ pid, (s.demux.parwal pid).records = (partHeaders pid s.wal : Multiset PartWALHeader)) ↔
      Run.Along (serverStep segsz) InsertsInOrder (Server.started segsz) ls) := by
  intro s hread hparts
  have hstored : ∀ pid, (s.demux.parwal pid).records =
      (accepted lsn 0 (partHeaders pid s.wal) : Multiset PartWALHeader) := by
    intro pid
    have hg := started_grown hls hparts pid
    dsimp only at hg
    rw [hread, List.take_length] at hg
    rw [hg.records fun s => ⟨0, rfl⟩]
    simp [Dir.records]
  have hordered : LsnOrdered s.wal ↔ LsnOrdered [] ∧
      Run.Along (serverStep segsz) InsertsInOrder (Server.started segsz) ls :=
    lsnOrdered_run fun l hl => (steady_serves hls l hl).keepsFiles.not_crash
  refine Iff.trans ?_ (hordered.trans (and_iff_right lsnOrdered_nil))
  refine forall_congr' fun pid => ?_
  rw [hstored, Multiset.coe_eq_coe, ← accepted_eq_self_iff]
  constructor
  · intro hperm
    exact (accepted_sublist lsn 0 _).eq_of_length hperm.length_eq
  · intro heq
    rw [heq]

end

/-- `n` steps of call `i`. -/
def callSteps (i n : Nat) : List Label := List.replicate n (.advance i Readdir.ascending)

/-- `n` rounds of the worker that read a record. -/
def readSteps (n : Nat) : List Label := List.replicate n (.demux (.record (.succeeding .ascending) true))

theorem ok_callSteps {i n : Nat} {l : Label} (h : l ∈ callSteps i n) : l.Ok ∧ l.Serves := by
  obtain ⟨-, rfl⟩ := List.mem_replicate.mp h
  exact ⟨fun _ => rfl, trivial⟩

theorem ok_readSteps {n : Nat} {l : Label} (h : l ∈ readSteps n) : l.Ok ∧ l.Serves := by
  obtain ⟨-, rfl⟩ := List.mem_replicate.mp h
  exact ⟨⟨ RecordIO.ok_succeeding _, rfl⟩, trivial⟩

/-- Two calls of partition 7, given LSNs 1 and 2; the first inserts after `n` steps of
the second. -/
def twoInserts (n : Nat) : List Label :=
  [.begin 7 1 0 true, .begin 7 1 0 true] ++ callSteps 0 3 ++ callSteps 1 n ++ callSteps 0 2 ++
    callSteps 1 (4 - n) ++ readSteps 2

theorem ok_twoInserts {n : Nat} {l : Label} (h : l ∈ twoInserts n) : l.Ok ∧ l.Serves := by
  simp only [twoInserts, List.mem_append] at h
  rcases h with ((((h | h) | h) | h) | h) | h
  · rcases List.mem_cons.mp h with rfl | h
    · exact ⟨rfl, trivial⟩
    · obtain rfl := List.mem_singleton.mp h
      exact ⟨rfl, trivial⟩
  · exact ok_callSteps h
  · exact ok_callSteps h
  · exact ok_callSteps h
  · exact ok_callSteps h
  · exact ok_readSteps h

theorem steady_of_ok {segsz : WalSegSize} {s : Server} {ls : List Label} (hok : ∀ l ∈ ls, l.Ok ∧ l.Serves)
    (hskip : Run.Along (serverStep segsz) Server.SkipsNothing s ls) :
    Run.Along (serverStep segsz) Server.Steady s ls :=
  Run.along_and _ (Run.along_of_forall _ hok) hskip

/-- The second call inserts after the first. -/
theorem all_stored_iff_in_order :
    ((serverRun .default (Server.started .default) (twoInserts 2)).demux.parwal 7).records =
      (partHeaders 7 (serverRun .default (Server.started .default) (twoInserts 2)).wal :
        Multiset PartWALHeader) :=
  (all_stored_iff .default (twoInserts 2) (steady_of_ok (fun _ h => ok_twoInserts h) (by decide +kernel))
    (by decide +kernel) (by decide +kernel)).mpr (by decide +kernel) 7

/-- The second call inserts before the first, whose record the Demux then drops. -/
theorem reordered_inserts_lose :
    let s := serverRun .default (Server.started .default) (twoInserts 4)
    Run.Along (serverStep .default) Server.Steady (Server.started .default) (twoInserts 4) ∧
      (∀ c ∈ s.calls, c.state.finished = true) ∧
      s.endRecPtr = s.wal.length ∧ (namedPartitions s.wal).card ≤ demuxMaxPartitions ∧
      ¬ ∀ pid, (s.demux.parwal pid).records = (partHeaders pid s.wal : Multiset PartWALHeader) := by
  intro s
  refine ⟨steady_of_ok (fun _ h => ok_twoInserts h) (by decide +kernel), by decide +kernel, by decide +kernel,
    by decide +kernel, fun h => ?_⟩
  have hstored : (s.demux.parwal 7).records ≠ (partHeaders 7 s.wal : Multiset PartWALHeader) := by
    decide +kernel
  exact hstored (h 7)

end PartDist
