import PartDist.LsnReuse

/-!
# Races between first allocations

`AllocPartitionLSN` probes the LSN table, scans the files without a lock and only
then makes the entry; other calls and the Demux go on in between.

`assigned_consecutive`: whatever the schedule, the LSNs of a partition are handed
out consecutively from the watermark its files had at the start.  While a
partition has no entry nobody writes its files (`Allocating.unread`), so a scan that
will be used still finds that watermark.
-/

namespace PartDist

open Bytes PartWALHeader

/-- No cleanup, restart or crash; workers may come and go. -/
def Label.KeepsTable : Label → Prop
  | .cleanup .. => False
  | .restart => False
  | .crash .. => False
  | _ => True

/-- A scan for a partition without an entry finds `w` in the files of the start. -/
def FindsWatermark (parwal : Parwal) (w : Oid → UInt64) (s : Server) (l : Label) : Prop :=
  ∀ x ∈ s.scans l, getLastWrittenPartitionLSN x.1 x.2 (parwal x.2) = w x.2

instance (parwal : Parwal) (w : Oid → UInt64) (s : Server) (l : Label) :
    Decidable (FindsWatermark parwal w s l) := inferInstanceAs (Decidable (∀ x ∈ s.scans l, _))

/-- The `n` LSNs after `w`. -/
def consecutive (w : UInt64) (n : Nat) : List UInt64 := (List.range n).map fun k => w + 1 + UInt64.ofNat k

theorem consecutive_succ (w : UInt64) (n : Nat) :
    consecutive w (n + 1) = consecutive w n ++ [w + 1 + UInt64.ofNat n] := by
  rw [consecutive, List.range_succ, List.map_append]
  rfl

@[simp] theorem length_consecutive (w : UInt64) (n : Nat) : (consecutive w n).length = n := by
  simp [consecutive]

theorem initLsn_eq (last : UInt64) : initLsn last = last + 1 := by
  unfold initLsn
  split
  · rfl
  · next h =>
    rw [UInt64.pos_iff_ne_zero, ne_eq, not_not] at h
    rw [h]
    rfl

/-! ## The invariant -/

/-- The table: `n pid` LSNs of `pid` are out, the entry holds the next one, a call that
would make the entry carries the first one. -/
structure Server.Counting (w : Oid → UInt64) (s : Server) : Prop where
  values : ∀ pid, ∃ n, s.assignedTo pid = consecutive (w pid) n ∧
    ∀ next, s.lsnHash.lookup pid = some next → next = w pid + 1 + UInt64.ofNat n
  fresh : ∀ pid, pid ∉ s.lsnHash → s.assignedTo pid = []
  entering : ∀ c ∈ s.calls, ∀ init, c.state = .entering init → c.partitionId ∉ s.lsnHash →
    init = w c.partitionId + 1
  inserting : ∀ c ∈ s.calls, ∀ lsn, c.state = .inserting lsn → c.partitionId ∈ s.lsnHash

/-- The files: from position `start` on pg_wal has only records of partitions with an
entry, and the others' files are those of the start. -/
structure Server.Untouched (start : Nat) (parwal : Parwal) (s : Server) : Prop where
  placed : s.Placed
  flushed : start ≤ s.flushed
  reads : start ≤ s.endRecPtr
  wal : ∀ h ∈ dataHeaders (s.wal.drop start), h.partitionId ∈ s.lsnHash
  fits : s.demux.Fits
  unread : ∀ pid, pid ∉ s.lsnHash → s.demux.share pid = (none, parwal pid)

section
variable {segsz : WalSegSize} {s : Server} {w : Oid → UInt64} {parwal : Parwal} {start : Nat}

theorem counting_boot (wal : List XLogRecord) (w : Oid → UInt64) (parwal : Parwal) :
    (Server.boot wal parwal).Counting w :=
  ⟨fun _ => ⟨0, rfl, (fun _ h => nomatch h)⟩, fun _ _ => rfl, (fun _ hc => nomatch hc), (fun _ hc => nomatch hc)⟩

theorem untouched_boot (wal : List XLogRecord) (parwal : Parwal) :
    (Server.boot wal parwal).Untouched wal.length parwal := by
  refine ⟨Server.placed_boot wal parwal, Nat.le_refl _, Nat.le_refl _, fun h hh => ?_, fits_fresh parwal,
    fun _ _ => rfl⟩
  simp [Server.boot, dataHeaders] at hh

/-! ## The table -/

theorem Server.Counting.same {s' : Server} (hs : s.Counting w) (hassigned : s'.assigned = s.assigned)
    (hhash : s'.lsnHash = s.lsnHash) (hcalls : s'.calls = s.calls) : s'.Counting w := by
  have hto : ∀ pid, s'.assignedTo pid = s.assignedTo pid := fun pid => by
    rw [Server.assignedTo, hassigned, Server.assignedTo]
  refine ⟨fun pid => ?_, fun pid hp => ?_, ?_, ?_⟩
  · rw [hto, hhash]
    exact hs.values pid
  · rw [hto]
    exact hs.fresh pid (hhash ▸ hp)
  · rw [hcalls, hhash]
    exact hs.entering
  · rw [hcalls, hhash]
    exact hs.inserting

theorem Server.Counting.setCall (hs : s.Counting w) {i : Nat} {c : Call} {t : CallState}
    (hent : ∀ init, t = .entering init → c.partitionId ∉ s.lsnHash → init = w c.partitionId + 1)
    (hins : ∀ lsn, t = .inserting lsn → c.partitionId ∈ s.lsnHash) : (s.setCall i c t).Counting w := by
  refine ⟨hs.values, hs.fresh, fun c' hc' init hst hn => ?_, fun c' hc' lsn hst => ?_⟩
  · rcases List.mem_or_eq_of_mem_set hc' with hc' | rfl
    · exact hs.entering c' hc' init hst hn
    · exact hent init hst hn
  · rcases List.mem_or_eq_of_mem_set hc' with hc' | rfl
    · exact hs.inserting c' hc' lsn hst
    · exact hins lsn hst

/-- The next LSN of a partition is handed out. -/
theorem Server.Counting.handOut (hs : s.Counting w) {i : Nat} {c : Call} {lsn : UInt64}
    (hnext : ∀ n, s.assignedTo c.partitionId = consecutive (w c.partitionId) n →
      lsn = w c.partitionId + 1 + UInt64.ofNat n) :
    Server.Counting w { s.setCall i c (.inserting lsn) with
      lsnHash := s.lsnHash.insert c.partitionId (lsn + 1)
      assigned := s.assigned ++ [(c.partitionId, lsn)] } := by
  refine ⟨fun pid => ?_, fun pid hp => ?_, fun c' hc' init hst hn => ?_, fun c' hc' lsn' hst => ?_⟩
  · rw [assignedTo_snoc rfl]
    obtain ⟨n, hval, hent⟩ := hs.values pid
    by_cases hp : c.partitionId = pid
    · subst hp
      obtain rfl := hnext n hval
      refine ⟨n + 1, by rw [if_pos rfl, hval, consecutive_succ], fun next hl => ?_⟩
      rw [Finmap.lookup_insert] at hl
      obtain rfl := Option.some.inj hl
      rw [UInt64.ofNat_add, UInt64.add_assoc (w c.partitionId + 1)]
      rfl
    · refine ⟨n, by rw [if_neg hp, List.append_nil, hval], fun next hl => ?_⟩
      rw [Finmap.lookup_insert_of_ne _ fun h => hp h.symm] at hl
      exact hent next hl
  · rw [Finmap.mem_insert, not_or] at hp
    rw [assignedTo_snoc rfl, if_neg fun h => hp.1 h.symm, List.append_nil]
    exact hs.fresh pid hp.2
  · rw [Finmap.mem_insert, not_or] at hn
    rcases List.mem_or_eq_of_mem_set hc' with hc' | rfl
    · exact hs.entering c' hc' init hst hn.2
    · exact absurd rfl hn.1
  · rw [Finmap.mem_insert]
    rcases List.mem_or_eq_of_mem_set hc' with hc' | rfl
    · exact Or.inr (hs.inserting c' hc' lsn' hst)
    · exact Or.inl rfl

theorem counting_advance (hs : s.Counting w) (hu : s.Untouched start parwal) {i : Nat} {sc : ScanIO} {c : Call}
    (hc : s.calls[i]? = some c) (hfind : FindsWatermark parwal w s (.advance i sc)) :
    (Server.callStep sc i c s).Counting w := by
  have hmem := List.mem_of_getElem? hc
  unfold Server.callStep
  split
  · refine hs.setCall (fun init hst hn => ?_) fun lsn hst => ?_
    · split at hst
      · next hm => exact absurd hm hn
      · cases hst
    · split at hst <;> cases hst
  · next hst =>
    refine hs.setCall (fun init hst' hn => ?_) fun lsn hst' => by cases hst'
    obtain rfl := CallState.entering.inj hst'
    have hscan : s.scans (.advance i sc) = some (sc, c.partitionId) := by
      simp only [Server.scans, hc, Option.bind_some, hst, hn, not_false_iff, and_self, if_true]
    have hdir : s.demux.parwal c.partitionId = parwal c.partitionId :=
      congrArg Prod.snd (hu.unread c.partitionId hn)
    rw [initLsn_eq, hdir]
    exact congrArg (· + 1) (hfind _ hscan)
  · next init hst =>
    unfold allocEnter
    split
    · next lsn hash halloc =>
      split at halloc
      · next next hlook =>
        obtain ⟨rfl, rfl⟩ := Prod.mk.inj (Option.some.inj halloc)
        refine hs.handOut fun n hn => ?_
        obtain ⟨m, hval, hent⟩ := hs.values c.partitionId
        have hlen := congrArg List.length (hn.symm.trans hval)
        rw [length_consecutive, length_consecutive] at hlen
        rw [hlen]
        exact hent _ hlook
      · next hlook =>
        split at halloc
        · obtain ⟨rfl, rfl⟩ := Prod.mk.inj (Option.some.inj halloc)
          have hnot := Finmap.lookup_eq_none.mp hlook
          refine hs.handOut fun n hn => ?_
          have hlen := congrArg List.length (hn.symm.trans (hs.fresh _ hnot))
          rw [length_consecutive, List.length_nil] at hlen
          rw [hlen, hs.entering c hmem init hst hnot]
          exact (UInt64.add_zero _).symm
        · cases halloc
    · exact hs.setCall (fun init hst' => by cases hst') fun lsn hst' => by cases hst'
  · have hset := hs.setCall (i := i) (c := c) (t := .flushing (s.wal.length + 1))
      (fun _ h => by cases h) fun _ h => by cases h
    exact hset.same rfl rfl rfl
  · next n _ =>
    have hset := hs.setCall (i := i) (c := c) (t := .returned n) (fun _ h => by cases h) fun _ h => by cases h
    exact hset.same rfl rfl rfl
  · exact hs
  · exact hs

theorem counting_step {l : Label} (hs : s.Counting w) (hu : s.Untouched start parwal) (hl : l.KeepsTable)
    (hfind : FindsWatermark parwal w s l) : (serverStep segsz s l).Counting w := by
  cases ht : l.touchesTable with
  | false =>
    obtain ⟨hassigned, hhash, hcalls⟩ := table_step segsz (s := s) ht
    exact hs.same hassigned hhash hcalls
  | true =>
    cases l with
    | begin pid flags origLsn mkdirOk =>
      refine ⟨hs.values, hs.fresh, fun c hc init hst hn => ?_, fun c hc lsn hst => ?_⟩
      · rcases List.mem_append.mp hc with hc | hc
        · exact hs.entering c hc init hst hn
        · obtain rfl := List.mem_singleton.mp hc
          dsimp only at hst
          split at hst <;> cases hst
      · rcases List.mem_append.mp hc with hc | hc
        · exact hs.inserting c hc lsn hst
        · obtain rfl := List.mem_singleton.mp hc
          dsimp only at hst
          split at hst <;> cases hst
    | advance i sc =>
      simp only [serverStep]
      split
      · next c hc => exact counting_advance hs hu hc hfind
      · exact hs
    | restart => exact absurd hl id
    | crash => exact absurd hl id
    | _ => cases ht

/-! ## The files -/

/-- The entries stay. -/
theorem lsnHash_step {l : Label} (hl : l.KeepsTable) {pid : Oid} (hp : pid ∈ s.lsnHash) :
    pid ∈ (serverStep segsz s l).lsnHash := by
  cases ht : l.touchesTable with
  | false => rw [(table_step segsz (s := s) ht).2.1]; exact hp
  | true =>
    cases l with
    | begin => exact hp
    | advance i sc =>
      simp only [serverStep]
      split
      · unfold Server.callStep allocEnter Server.setCall
        split
        · exact hp
        · exact hp
        · split
          · next halloc =>
            split at halloc
            · obtain ⟨-, rfl⟩ := Prod.mk.inj (Option.some.inj halloc)
              exact Finmap.mem_insert.mpr (Or.inr hp)
            · split at halloc
              · obtain ⟨-, rfl⟩ := Prod.mk.inj (Option.some.inj halloc)
                exact Finmap.mem_insert.mpr (Or.inr hp)
              · cases halloc
          · exact hp
        · exact hp
        · exact hp
        · exact hp
        · exact hp
      · exact hp
    | restart => exact absurd hl id
    | crash => exact absurd hl id
    | _ => cases ht

/-- What is added to pg_wal belongs to partitions with an entry. -/
theorem Server.Counting.added (hs : s.Counting w) (l : Label) :
    ∀ h ∈ dataHeaders (s.added l), h.partitionId ∈ s.lsnHash := by
  cases l with
  | advance i sc =>
    cases hc : s.calls[i]? with
    | none => simp [Server.added, Server.inserts, hc, dataHeaders]
    | some c =>
      cases hst : c.state with
      | inserting lsn =>
        have hin := hs.inserting c (List.mem_of_getElem? hc) lsn hst
        simpa [Server.added, Server.inserts, hc, hst, dataHeaders, Call.header] using hin
      | _ => simp [Server.added, Server.inserts, hc, hst, dataHeaders]
  | otherRecord r =>
    simp only [Server.added]
    split
    · next hr => simp [dataHeaders, XLogRecord.dataHeader, hr]
    · simp [dataHeaders]
  | _ => simp [Server.added, dataHeaders]

/-- `DestroyAllWriters` leaves the directories without a writer alone. -/
theorem destroyAllWriters_other (io : Oid → List WriteOutcome) (dm : Demux) {pid : Oid} (hp : pid ∉ dm.pids) :
    destroyAllWriters io dm pid = dm.parwal pid := by
  unfold destroyAllWriters
  refine List.foldlRecOn dm.writers _ (motive := fun left : Parwal × Bool => left.1 pid = dm.parwal pid) rfl ?_
  intro left hleft v hv
  split
  · exact hleft
  · have hne : pid ≠ v.partitionId := fun h => hp (h ▸ List.mem_map_of_mem hv)
    dsimp only
    rw [Function.update_of_ne hne]
    exact hleft

/-- A round of the Demux that reads no record of a partition without an entry. -/
theorem Server.Untouched.demuxStep (segsz : WalSegSize) (hu : s.Untouched start parwal) {e : LoopEvent}
    (he : ∀ h ∈ dataHeaders (walOf [e]), h.partitionId ∈ s.lsnHash) {pid : Oid} (hp : pid ∉ s.lsnHash) :
    (PartDist.demuxStep segsz s.demux e).share pid = (none, parwal pid) := by
  have hnone : partHeaders pid (walOf [e]) = [] := by
    apply List.eq_nil_iff_forall_not_mem.mpr
    intro h hh
    obtain ⟨hm, hpid⟩ := List.mem_filter.mp hh
    have hpid : h.partitionId = pid := by simpa using hpid
    exact hp (hpid ▸ he h hm)
  have hshare := hu.unread pid hp
  rw [← hshare]
  exact share_of_unread hu.fits (congrArg Prod.fst hshare) hnone

theorem untouched_step {l : Label} (hs : s.Counting w) (hu : s.Untouched start parwal) (hl : l.KeepsTable) :
    (serverStep segsz s l).Untouched start parwal := by
  have hplaced := Server.placed_step segsz hu.placed l
  have hstart : start ≤ s.wal.length := Nat.le_trans hu.flushed hu.placed.flushed_le
  have hcrash : ∀ keep created rd, l ≠ .crash keep created rd := by
    rintro keep created rd rfl
    exact hl
  have hwal : ∀ h ∈ dataHeaders ((serverStep segsz s l).wal.drop start),
      h.partitionId ∈ (serverStep segsz s l).lsnHash := by
    intro h hh
    rw [Server.wal_step _ hcrash, List.drop_append_of_le_length hstart, dataHeaders_append] at hh
    apply lsnHash_step hl
    rcases List.mem_append.mp hh with hh | hh
    · exact hu.wal h hh
    · exact hs.added l h hh
  have hhash : ∀ pid, pid ∉ (serverStep segsz s l).lsnHash → pid ∉ s.lsnHash := fun pid hp hm =>
    hp (lsnHash_step hl hm)
  obtain ⟨hflushed, hreads⟩ := Server.start_le_step segsz hu.placed hcrash hu.flushed hu.reads
  have hmk : (serverStep segsz s l).demux.Fits →
      (∀ pid, pid ∉ s.lsnHash → (serverStep segsz s l).demux.share pid = (none, parwal pid)) →
      (serverStep segsz s l).Untouched start parwal :=
    fun hfits hshare => ⟨hplaced, hflushed, hreads, hwal, hfits, fun pid hp => hshare pid (hhash pid hp)⟩
  have hbackend : l.Backend → (serverStep segsz s l).Untouched start parwal := fun hl' => by
    have hdemux := (s.sameWorker_backend segsz hl').demux
    exact hmk (hdemux ▸ hu.fits) (hdemux ▸ hu.unread)
  cases l with
  | demuxStart =>
    by_cases hrun : s.running = true
    · rw [show serverStep segsz s .demuxStart = s from if_pos hrun]
      exact hu
    · refine hmk ?_ ?_ <;> simp only [serverStep, hrun, if_false, Bool.false_eq_true]
      · exact fits_fresh _
      · exact fun pid hp => congrArg (fun v : Share => (none, v.2)) (hu.unread pid hp)
  | demux round =>
    by_cases hrun : s.running = true
    · have hround : serverStep segsz s (.demux round) = s.demuxIteration segsz round := if_pos hrun
      rw [hround] at hmk ⊢
      rcases Server.demuxIteration_cases segsz round hu.placed.flushed_le with
        ⟨io, -, -, he⟩ | ⟨io, saveOk, r, -, -, hr, he⟩ | ⟨-, -, -, -, he⟩ | ⟨-, he⟩
      · rw [he] at hmk ⊢
        exact hmk (fits_step segsz hu.fits (.caughtUp io)) fun pid hp =>
          hu.demuxStep segsz (e := .caughtUp io) (fun _ hh => by cases hh) hp
      · rw [he] at hmk ⊢
        refine hmk (fits_step segsz hu.fits (.record r io))
          fun pid hp => hu.demuxStep segsz (e := .record r io) (fun h hh => hu.wal h ?_) hp
        refine (List.Sublist.filterMap _ (List.singleton_sublist.mpr ?_)).subset hh
        exact mem_drop_of_getElem? hr hu.reads
      · rw [he] at hmk ⊢
        exact hmk hu.fits hu.unread
      · rw [he]
        exact hu
    · rw [show serverStep segsz s (.demux round) = s from if_neg hrun]
      exact hu
  | demuxStop io destroyIo saveOk =>
    by_cases hrun : s.running = true
    · refine hmk ?_ ?_ <;> simp only [serverStep, hrun, if_true, Server.demuxShutdown]
      · exact fits_fresh _
      · intro pid hp
        have hshare := hu.demuxStep segsz (e := .caughtUp io) (fun _ hh => by cases hh) hp
        rw [share_fresh, destroyAllWriters_other _ _ (findWriter_eq_none.mp (congrArg Prod.fst hshare))]
        exact congrArg (fun v : Share => (none, v.2)) hshare
    · rw [show serverStep segsz s (.demuxStop io destroyIo saveOk) = s from if_neg hrun]
      exact hu
  | cleanup => exact absurd hl id
  | restart => exact absurd hl id
  | crash => exact absurd hl id
  | _ => exact hbackend trivial

end

/-- **Allocation under races.** The LSNs of each partition are handed out consecutively,
from its watermark at the start on; those of other partitions play no part. -/
theorem assigned_consecutive (segsz : WalSegSize) (wal : List XLogRecord) (parwal : Parwal)
    (w : Oid → UInt64) (ls : List Label) (hls : ∀ l ∈ ls, l.KeepsTable)
    (hfind : Run.Along (serverStep segsz) (FindsWatermark parwal w) (Server.boot wal parwal) ls) (pid : Oid) :
    let s := serverRun segsz (Server.boot wal parwal) ls
    s.assignedTo pid = consecutive (w pid) (s.assignedTo pid).length := by
  intro s
  have hrun := Run.run_invariant (serverStep segsz)
    (I := fun s => s.Counting w ∧ s.Untouched wal.length parwal)
    ⟨counting_boot wal w parwal, untouched_boot wal parwal⟩ (fun s l hs hl =>
      ⟨counting_step hs.1 hs.2 hl.1 hl.2, untouched_step hs.1 hs.2 hl.1⟩)
    (Run.along_and (serverStep segsz) (Run.along_of_forall (serverStep segsz) hls) hfind)
  obtain ⟨n, hval, -⟩ := hrun.1.values pid
  have hval : s.assignedTo pid = consecutive (w pid) n := hval
  rw [hval, length_consecutive]

/-- Two calls for partition 7: both find no entry; the first one finishes and the Demux
writes its record before the second one scans the files. -/
def racingCalls : List Label :=
  [.demuxStart, .begin 7 1 0 true, .begin 7 1 0 true, .advance 0 Readdir.ascending, .advance 1 Readdir.ascending] ++
    callSteps 0 4 ++ readSteps 1 ++ callSteps 1 4

theorem assigned_consecutive_racing :
    (serverRun .default (Server.boot [] fun _ => Dir.empty) racingCalls).assignedTo 7 =
      consecutive 0 2 := by
  have hrun := assigned_consecutive .default [] (fun _ => Dir.empty) (fun _ => 0) racingCalls
    (by
      intro l hl
      simp only [racingCalls, callSteps, readSteps, List.mem_append, List.mem_cons, List.mem_replicate,
        List.not_mem_nil, or_false] at hl
      rcases hl with (((rfl | rfl | rfl | rfl | rfl) | ⟨-, rfl⟩) | ⟨-, rfl⟩) | ⟨-, rfl⟩ <;> trivial)
    (by decide +kernel) 7
  have hlen : ((serverRun .default (Server.boot [] fun _ => Dir.empty) racingCalls).assignedTo 7).length = 2 := by
    decide +kernel
  dsimp only at hrun
  rw [hlen] at hrun
  exact hrun

end PartDist
