import Mathlib.Algebra.Order.BigOperators.Group.List
import PartDist.Isolation
import PartDist.Lib.FixedHash
import PartDist.WriterStates

/-!
# What the worker holds

The writers of the Demux worker and the table of LSNs in every state of a server, whatever
fails in it and whatever is removed or crashes.

* `PartitionWALWriter.Sound`: what holds of one writer; `ownStep_sound`: a round keeps it.
* `worker_bounded`: there are at most 512 writers, of different partitions, each with whole
  records of its partition and its open segment, at most 128 MB of them in all; and the
  table has no more entries than it was made for.
-/

namespace PartDist

open Bytes PartWALHeader Server

/-- The buffer has whole records of the partition, of the segment whose file is open, and
fits its array; without a descriptor it is empty. -/
structure PartitionWALWriter.Sound (segsz : WalSegSize) (w : PartitionWALWriter) : Prop where
  fd_segno : ∀ fd, w.fd = some fd → fd.segno = w.currentSegno ∧ 0 < w.currentSegno
  closed : w.fd = none → w.buffer = []
  bound : w.buffer.length ≤ parwalWriterBufferSize
  buffered : WholeRecords (fun h => h.partitionId = w.partitionId ∧ segnoOf segsz h = w.currentSegno) w.buffer

/-- The writer of the share of partition `pid`. -/
def ShareSound (segsz : WalSegSize) (pid : Oid) (v : Share) : Prop :=
  ∀ w ∈ v.1, w.Sound segsz ∧ w.partitionId = pid

section
variable {segsz : WalSegSize} {base d : Dir} {given : List PartWALHeader} {w : PartitionWALWriter} {pid : Oid}
  {h : PartWALHeader} {v : Share}

/-- The writer's representation, over the directory as it is. -/
theorem PartitionWALWriter.Sound.rep (hw : w.Sound segsz) (hpid : h.partitionId = w.partitionId) (d : Dir) :
    ∃ given, h ∈ given ∧ (∀ g ∈ given, g.partitionId = w.partitionId) ∧ WriterRep segsz d given w d := by
  obtain ⟨hs, hbelongs, hbuf⟩ := hw.buffered
  refine ⟨h :: hs, List.mem_cons_self, fun g hg => ?_, hw.fd_segno, hw.closed, hw.bound, ⟨hs, fun g hg => ?_, hbuf⟩,
    fun s => ⟨d.content s, [], (List.append_nil _).symm, Or.inl rfl, inPieces_nil⟩⟩
  · rcases List.mem_cons.mp hg with rfl | hg
    · exact hpid
    · exact (hbelongs g hg).1
  · exact ⟨List.mem_cons_of_mem h hg, (hbelongs g hg).2⟩

theorem WriterRep.sound (hw : WriterRep segsz base given w d) (hgiven : ∀ g ∈ given, g.partitionId = w.partitionId) :
    w.Sound segsz :=
  ⟨hw.fd_segno, hw.closed, hw.bound, hw.buffered.mono fun g hg => ⟨hgiven g hg.1, hg.2⟩⟩

theorem PartitionWALWriter.Sound.stall (hw : w.Sound segsz) (stalled : Bool) :
    ({ w with enospcStalled := stalled } : PartitionWALWriter).Sound segsz :=
  ⟨hw.fd_segno, hw.closed, hw.bound, hw.buffered⟩

theorem PartitionWALWriter.Sound.caught {c : WriterCall} (hw : c.writer.Sound segsz) : c.caught.1.Sound segsz := by
  unfold WriterCall.caught
  split
  · exact hw.stall true
  · exact hw

theorem sound_created {mkdirOk : Bool} {sc : ScanIO} (hw : createPartitionWALWriter mkdirOk sc pid d = some w) :
    w.Sound segsz := by
  unfold createPartitionWALWriter at hw
  split at hw
  · obtain rfl := Option.some.inj hw
    exact ⟨(fun _ hfd => by cases hfd), fun _ => rfl, Nat.zero_le _, whole_nil⟩
  · cases hw

theorem PartitionWALWriter.Sound.resetDetect (hw : w.Sound segsz) (sc : ScanIO) (h : PartWALHeader) (d : Dir) :
    (resetDetect sc h w d).Sound segsz := by
  unfold PartDist.resetDetect
  split
  · split
    · exact ⟨(fun _ hfd => by cases hfd), fun _ => rfl, Nat.zero_le _, whole_nil⟩
    · exact hw
  · exact hw

theorem PartitionWALWriter.Sound.unstall (hw : w.Sound segsz) (sc : ScanIO) (h : PartWALHeader) (d : Dir) :
    (unstall sc h w d).Sound segsz := by
  unfold PartDist.unstall
  split
  · split
    · exact hw.stall false
    · exact hw
  · exact hw

theorem PartitionWALWriter.Sound.route (hw : w.Sound segsz) (io : RecordIO) (hpid : h.partitionId = w.partitionId) :
    (routeToWriter segsz io h w d).1.Sound segsz := by
  have hready := (hw.resetDetect io.resetScan h d).unstall io.unstallScan h d
  have hpid' : h.partitionId =
      (PartDist.unstall io.unstallScan h (PartDist.resetDetect io.resetScan h w d) d).partitionId := by
    rw [unstall_partitionId, resetDetect_partitionId]
    exact hpid
  obtain ⟨given, hmem, hgiven, hrep⟩ := hready.rep hpid' d
  unfold routeToWriter
  dsimp only
  split
  · apply PartitionWALWriter.Sound.caught
    unfold WriterCall.andThen
    split
    · exact (hrep.write io hmem).sound (by simpa using hgiven)
    · exact ((hrep.write io hmem).flush io.flush).1.sound (by simpa using hgiven)
  · exact hready

theorem ShareSound.flush (hv : ShareSound segsz pid v) (os : List WriteOutcome) :
    ShareSound segsz pid (flushShare os v) := by
  obtain ⟨writer, d⟩ := v
  cases writer with
  | none => exact fun w hw => by cases hw
  | some w =>
    intro u hu
    obtain rfl := Option.some.inj hu
    obtain ⟨hw, hpid⟩ := hv w rfl
    obtain ⟨given, -, hgiven, hrep⟩ := hw.rep (h := buildHeader w.partitionId 0 0 0) rfl d
    have hflush : (flushPartitionWALWriter os w d).writer.Sound segsz :=
      (hrep.flush os).1.sound (by simpa using hgiven)
    exact ⟨hflush.caught, by simpa using hpid⟩

theorem ShareSound.route (hv : ShareSound segsz pid v) (io : RecordIO) (hpid : h.partitionId = pid) :
    ShareSound segsz pid (routeShare segsz io h v) := by
  unfold routeShare
  split
  · next w hw =>
    have hsound : w.Sound segsz ∧ w.partitionId = pid := by
      unfold writerFor at hw
      rcases Option.or_eq_some_iff.mp hw with hw | ⟨-, hw⟩
      · exact hv w hw
      · exact ⟨sound_created hw, (create_partitionId hw).trans hpid⟩
    intro u hu
    obtain rfl := Option.some.inj hu
    exact ⟨hsound.1.route io (hpid.trans hsound.2.symm), by simpa using hsound.2⟩
  · exact hv

theorem ownStep_sound (hv : ShareSound segsz pid v) {e : OwnEvent}
    (he : ∀ h io, e = .record h io → h.partitionId = pid) : ShareSound segsz pid (ownStep segsz v e) := by
  cases e with
  | record h io =>
    cases io with
    | none => exact hv
    | some io => exact hv.route io (he h _ rfl)
  | flush os => exact hv.flush os

end

/-! ## All writers -/

structure Demux.Sound (segsz : WalSegSize) (dm : Demux) : Prop where
  fits : dm.Fits
  shares : ∀ pid, ShareSound segsz pid (dm.share pid)

section
variable {segsz : WalSegSize} {dm : Demux}

theorem sound_fresh (segsz : WalSegSize) (parwal : Parwal) : (Demux.fresh parwal).Sound segsz :=
  ⟨fits_fresh parwal, fun _ w hw => by cases hw⟩

theorem Demux.Sound.step (hd : dm.Sound segsz) (e : LoopEvent) : (demuxStep segsz dm e).Sound segsz := by
  refine ⟨fits_step segsz hd.fits e, fun pid => ?_⟩
  rw [share_own_step hd.fits pid e]
  cases he : ownEvent pid dm e with
  | none => exact hd.shares pid
  | some own =>
    refine ownStep_sound (hd.shares pid) fun h io hown => ?_
    subst hown
    cases e with
    | caughtUp io =>
      simp only [ownEvent] at he
      split at he
      · split at he
        · cases he
        · cases he
      · cases he
    | record r io =>
      simp only [ownEvent] at he
      split at he
      · split at he
        · next hpid =>
          obtain ⟨rfl, -⟩ := OwnEvent.record.inj (Option.some.inj he)
          exact hpid
        · cases he
      · cases he

/-- The directories do not matter. -/
theorem Demux.Sound.withParwal (hd : dm.Sound segsz) (parwal : Parwal) :
    ({ dm with parwal := parwal } : Demux).Sound segsz :=
  ⟨⟨hd.fits.nodup, hd.fits.le⟩, hd.shares⟩

/-- All that is buffered. -/
def Demux.buffered (dm : Demux) : Nat := (dm.writers.map fun w => w.buffer.length).sum

theorem Demux.Sound.buffered_le (hd : dm.Sound segsz) : dm.buffered ≤ demuxMaxPartitions * parwalWriterBufferSize := by
  have hle : ∀ n ∈ dm.writers.map (fun w => w.buffer.length), n ≤ parwalWriterBufferSize := by
    intro n hn
    obtain ⟨w, hw, rfl⟩ := List.mem_map.mp hn
    exact ((hd.shares w.partitionId w (findWriter_of_mem hd.fits.nodup hw)).1).bound
  have hlen : dm.writers.length ≤ demuxMaxPartitions := by
    have h := hd.fits.le
    rwa [Demux.pids, List.length_map] at h
  calc dm.buffered
      ≤ (dm.writers.map fun w => w.buffer.length).length * parwalWriterBufferSize := List.sum_le_card_nsmul _ _ hle
    _ ≤ demuxMaxPartitions * parwalWriterBufferSize := by
      rw [List.length_map]
      exact Nat.mul_le_mul_right _ hlen

end

/-! ## The server -/

structure Server.Bounded (segsz : WalSegSize) (s : Server) : Prop where
  demux : s.demux.Sound segsz
  lsnHash : s.lsnHash.keys.card ≤ partdistPartitionMaxEntries

section
variable {segsz : WalSegSize} {s : Server}

theorem allocEnter_card {pid : Oid} {init lsn : UInt64} {hash hash' : PartWALLSNHash}
    (hcard : hash.keys.card ≤ partdistPartitionMaxEntries) (h : allocEnter pid init hash = some (lsn, hash')) :
    hash'.keys.card ≤ partdistPartitionMaxEntries := by
  unfold allocEnter at h
  split at h
  · next next hnext =>
    obtain ⟨-, rfl⟩ := Prod.mk.inj (Option.some.inj h)
    have hmem : pid ∈ hash.keys := Finmap.mem_keys.mpr (Finmap.mem_iff.mpr ⟨next, hnext⟩)
    rw [FixedHash.keys_insert, Finset.union_comm, ← Finset.insert_eq, Finset.insert_eq_self.mpr hmem]
    exact hcard
  · split at h
    · next hroom =>
      obtain ⟨-, rfl⟩ := Prod.mk.inj (Option.some.inj h)
      rw [FixedHash.keys_insert, Finset.union_comm, ← Finset.insert_eq]
      exact (Finset.card_insert_le _ _).trans hroom
    · cases h

theorem Server.Bounded.lsnHash_step (hs : s.Bounded segsz) (l : Label) :
    (serverStep segsz s l).lsnHash.keys.card ≤ partdistPartitionMaxEntries := by
  cases l with
  | advance i sc =>
    simp only [serverStep]
    split
    · next c hc =>
      unfold callStep
      split
      · exact hs.lsnHash
      · exact hs.lsnHash
      · split
        · next lsn hash halloc => exact allocEnter_card hs.lsnHash halloc
        · exact hs.lsnHash
      · exact hs.lsnHash
      · exact hs.lsnHash
      · exact hs.lsnHash
      · exact hs.lsnHash
    · exact hs.lsnHash
  | demux round =>
    simp only [serverStep]
    split
    · rw [demuxIteration_eq]
      exact hs.lsnHash
    · exact hs.lsnHash
  | demuxStop io destroyIo saveOk =>
    simp only [serverStep]
    split
    · rw [demuxShutdown, saveDemuxProgress_eq]
      exact hs.lsnHash
    · exact hs.lsnHash
  | restart =>
    simp only [serverStep]
    split
    · exact hs.lsnHash
    · exact Nat.zero_le _
  | crash keep created rd =>
    simp only [serverStep]
    split
    · exact Nat.zero_le _
    · exact hs.lsnHash
  | otherRecord r => simp only [serverStep]; split <;> exact hs.lsnHash
  | checkpoint redo => simp only [serverStep]; split <;> exact hs.lsnHash
  | demuxStart => simp only [serverStep]; split <;> exact hs.lsnHash
  | flushPoll i => simp only [serverStep]; split <;> exact hs.lsnHash
  | _ => exact hs.lsnHash

theorem Server.Bounded.demux_step (hs : s.Bounded segsz) (l : Label) : (serverStep segsz s l).demux.Sound segsz := by
  have hbackend : l.Backend → (serverStep segsz s l).demux.Sound segsz := fun hl =>
    (s.sameWorker_backend segsz hl).demux ▸ hs.demux
  cases l with
  | demux round =>
    simp only [serverStep]
    split
    · -- at most one event of the Demux
      unfold Server.demuxIteration
      split
      · cases round with
        | caughtUp io => exact hs.demux.step (.caughtUp io)
        | _ => exact hs.demux
      · cases round with
        | record io saveOk =>
          simp only [Server.readRound]
          split
          · next r _ =>
            rw [Server.advanceProgress_eq]
            exact hs.demux.step (.record r io)
          · exact hs.demux
        | _ => exact hs.demux
    · exact hs.demux
  | demuxStart =>
    simp only [serverStep]
    split
    · exact hs.demux
    · exact sound_fresh segsz _
  | demuxStop io destroyIo saveOk =>
    simp only [serverStep]
    split
    · exact sound_fresh segsz _
    · exact hs.demux
  | cleanup pid keepPtr rd unlinkOk => exact hs.demux.withParwal _
  | restart => simp only [serverStep]; split <;> exact hs.demux
  | crash keep created rd =>
    simp only [serverStep]
    split
    · exact sound_fresh segsz _
    · exact hs.demux
  | _ => exact hbackend trivial

end

/-- **Bounded resources.** In every state of every run of a server, whatever fails, is removed or
crashes: the worker has at most 512 writers, all of different partitions; a writer's buffer
holds whole records of its partition that belong to the segment it has open, and nothing if it
has none open; all buffers together hold at most 512 times 256 KB; and the table of LSNs has no
more than its 1024 entries. -/
theorem worker_bounded (segsz : WalSegSize) (wal : List XLogRecord) (parwal : Parwal) (ls : List Label) :
    let s := serverRun segsz (Server.boot wal parwal) ls
    s.demux.writers.length ≤ demuxMaxPartitions ∧ s.demux.pids.Nodup ∧
      s.demux.buffered ≤ demuxMaxPartitions * parwalWriterBufferSize ∧
      (∀ w ∈ s.demux.writers, w.Sound segsz) ∧ s.lsnHash.keys.card ≤ partdistPartitionMaxEntries := by
  intro s
  have hs : s.Bounded segsz := by
    refine Run.run_invariant (serverStep segsz) (P := fun _ _ => True) ⟨sound_fresh segsz parwal, Nat.zero_le _⟩
      (fun s l hs _ => ⟨hs.demux_step l, hs.lsnHash_step l⟩) ?_
    exact Run.along_of_forall (serverStep segsz) fun _ _ => trivial
  have hlen : s.demux.writers.length ≤ demuxMaxPartitions := by
    have h := hs.demux.fits.le
    rwa [Demux.pids, List.length_map] at h
  refine ⟨hlen, hs.demux.fits.nodup, hs.demux.buffered_le, fun w hw => ?_, hs.lsnHash⟩
  exact (hs.demux.shares w.partitionId w (findWriter_of_mem hs.demux.fits.nodup hw)).1

end PartDist
