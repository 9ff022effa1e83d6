import PartDist.Server

/-!
# Where the bytes of pg_parwal come from

Behind what a file held at the start there is only what the Demux wrote of records it
had read: a write that fails leaves the beginning of the buffer.

* `Demux.From.step`: the Demux adds pieces of the record it reads and of those it has buffered.
* `Demux.From.server`: so does every step of a server that stays up.
-/

namespace PartDist

open Bytes PartWALHeader

/-! ## Pieces -/

/-- One after the other, byte strings that meet `C`. -/
def InPieces (C : Bytes → Prop) (bs : Bytes) : Prop :=
  ∃ pieces : List Bytes, (∀ p ∈ pieces, C p) ∧ bs = pieces.flatten

/-- Records that meet `P`. -/
def WholeRecords (P : PartWALHeader → Prop) (bs : Bytes) : Prop := ∃ hs, (∀ h ∈ hs, P h) ∧ bs = encodeAll hs

/-- The beginning of records that meet `P`. -/
def TornRecords (P : PartWALHeader → Prop) (bs : Bytes) : Prop := ∃ hs, (∀ h ∈ hs, P h) ∧ bs <+: encodeAll hs

/-- What a flush of records that meet `P` gets written meets `C`. -/
def Leaves (C : Bytes → Prop) (P : PartWALHeader → Prop) (os : List WriteOutcome) : Prop :=
  ∀ bs, WholeRecords P bs → C (writeLoop os bs).1

section
variable {C C' : Bytes → Prop} {P P' : PartWALHeader → Prop} {bs bs' : Bytes}

theorem inPieces_nil : InPieces C [] := ⟨[], (fun _ h => nomatch h), rfl⟩

theorem InPieces.snoc (h : InPieces C bs) (h' : C bs') : InPieces C (bs ++ bs') := by
  obtain ⟨pieces, hpieces, rfl⟩ := h
  refine ⟨pieces ++ [bs'], fun p hp => ?_, by simp⟩
  rcases List.mem_append.mp hp with hp | hp
  · exact hpieces p hp
  · rw [List.mem_singleton.mp hp]
    exact h'

theorem InPieces.mono (hC : ∀ bs, C bs → C' bs) (h : InPieces C bs) : InPieces C' bs := by
  obtain ⟨pieces, hpieces, rfl⟩ := h
  exact ⟨pieces, fun p hp => hC p (hpieces p hp), rfl⟩

theorem whole_nil : WholeRecords P [] := ⟨[], (fun _ h => nomatch h), rfl⟩

theorem WholeRecords.append (h : WholeRecords P bs) (h' : WholeRecords P bs') : WholeRecords P (bs ++ bs') := by
  obtain ⟨hs, hP, rfl⟩ := h
  obtain ⟨hs', hP', rfl⟩ := h'
  refine ⟨hs ++ hs', fun h hh => ?_, (encodeAll_append hs hs').symm⟩
  rcases List.mem_append.mp hh with hh | hh
  · exact hP h hh
  · exact hP' h hh

theorem whole_encode {h : PartWALHeader} (hP : P h) : WholeRecords P h.encode :=
  ⟨[h], fun _ hh => by rwa [List.mem_singleton.mp hh], (encodeAll_singleton h).symm⟩

theorem WholeRecords.mono (hP : ∀ h, P h → P' h) (h : WholeRecords P bs) : WholeRecords P' bs := by
  obtain ⟨hs, hhs, rfl⟩ := h
  exact ⟨hs, fun h hh => hP h (hhs h hh), rfl⟩

theorem TornRecords.mono (hP : ∀ h, P h → P' h) (h : TornRecords P bs) : TornRecords P' bs := by
  obtain ⟨hs, hhs, hpre⟩ := h
  exact ⟨hs, fun h hh => hP h (hhs h hh), hpre⟩

/-- Whole records in pieces are whole records. -/
theorem whole_of_pieces (h : InPieces (WholeRecords P) bs) : WholeRecords P bs := by
  obtain ⟨pieces, hpieces, rfl⟩ := h
  induction pieces with
  | nil => exact whole_nil
  | cons p pieces ih =>
    rw [List.flatten_cons]
    exact (hpieces p List.mem_cons_self).append (ih fun q hq => hpieces q (List.mem_cons_of_mem p hq))

theorem leaves_torn (os : List WriteOutcome) : Leaves (TornRecords P) P os := by
  rintro bs ⟨hs, hP, rfl⟩
  exact ⟨hs, hP, writeLoop_prefix os _⟩

theorem leaves_whole {os : List WriteOutcome} (hos : NoWriteError os) : Leaves (WholeRecords P) P os := by
  intro bs h
  rwa [writeLoop_done (hos bs)]

end

/-! ## Files -/

/-- Segment file `s` of `d`: what it held in `base`, unless it has been removed since,
and then pieces. -/
def FileFrom (C : Bytes → Prop) (base d : Dir) (s : Nat) : Prop :=
  ∃ kept new, d.content s = kept ++ new ∧ (kept = base.content s ∨ kept = []) ∧ InPieces C new

def DirFrom (C : Bytes → Prop) (base d : Dir) : Prop := ∀ s, FileFrom C base d s

section
variable {C C' : Bytes → Prop} {base d : Dir} {bs : Bytes}

theorem dirFrom_refl (d : Dir) : DirFrom C d d := fun s =>
  ⟨d.content s, [], (List.append_nil _).symm, Or.inl rfl, inPieces_nil⟩

theorem FileFrom.append {s t : Nat} (h : FileFrom C base d s) (hbs : s = t → C bs) :
    FileFrom C base (d.append t bs) s := by
  obtain ⟨kept, new, hcontent, hkept, hnew⟩ := h
  rw [FileFrom, Dir.content_append, hcontent]
  by_cases hs : s = t
  · rw [if_pos hs, List.append_assoc]
    exact ⟨kept, new ++ bs, rfl, hkept, hnew.snoc (hbs hs)⟩
  · rw [if_neg hs, List.append_nil]
    exact ⟨kept, new, rfl, hkept, hnew⟩

theorem FileFrom.write {s : Nat} {fd : Descriptor} (h : FileFrom C base d s) (hbs : s = fd.segno → C bs) :
    FileFrom C base (d.write fd bs) s := by
  unfold Dir.write
  split
  · exact h.append hbs
  · exact h

theorem FileFrom.openCreate {s : Nat} (h : FileFrom C base d s) (t : Nat) : FileFrom C base (d.openCreate t) s := by
  rw [FileFrom, Dir.content_openCreate]
  exact h

theorem FileFrom.unlink {s : Nat} (h : FileFrom C base d s) (t : Nat) : FileFrom C base (d.unlink t) s := by
  by_cases hs : s = t
  · subst hs
    have hnone : s ∉ (d.unlink s).names := by simp
    exact ⟨[], [], Dir.content_of_notMem hnone, Or.inr rfl, inPieces_nil⟩
  · rw [FileFrom, Dir.content_unlink_of_ne d hs]
    exact h

theorem FileFrom.mono {s : Nat} (hC : ∀ bs, C bs → C' bs) (h : FileFrom C base d s) : FileFrom C' base d s := by
  obtain ⟨kept, new, hcontent, hkept, hnew⟩ := h
  exact ⟨kept, new, hcontent, hkept, hnew.mono hC⟩

theorem DirFrom.mono (hC : ∀ bs, C bs → C' bs) (h : DirFrom C base d) : DirFrom C' base d := fun s => (h s).mono hC

theorem DirFrom.write (h : DirFrom C base d) (hbs : C bs) (fd : Descriptor) : DirFrom C base (d.write fd bs) :=
  fun s => (h s).write fun _ => hbs

theorem DirFrom.openCreate (h : DirFrom C base d) (t : Nat) : DirFrom C base (d.openCreate t) :=
  fun s => (h s).openCreate t

theorem DirFrom.unlink (h : DirFrom C base d) (t : Nat) : DirFrom C base (d.unlink t) := fun s => (h s).unlink t

theorem DirFrom.cleanup (h : DirFrom C base d) (segsz : WalSegSize) (keepPtr : XLogRecPtr) (rd : Readdir)
    (unlinkOk : Nat → Bool) : DirFrom C base (cleanupPartitionWAL segsz keepPtr rd unlinkOk d) := by
  unfold cleanupPartitionWAL
  refine List.foldlRecOn _ _ (motive := DirFrom C base) h fun d hd s _ => ?_
  split
  · exact hd.unlink s
  · exact hd

end

/-- The records of a file that is made of whole ones. -/
theorem DirFrom.mem_headers {P : PartWALHeader → Prop} {base d : Dir} (hd : DirFrom (WholeRecords P) base d)
    (hbase : base.Whole) {s : Nat} {h : PartWALHeader} (hh : h ∈ d.headers s) : h ∈ base.headers s ∨ P h := by
  obtain ⟨kept, new, hcontent, hkept, hnew⟩ := hd s
  obtain ⟨hs, hP, rfl⟩ := whole_of_pieces hnew
  have haligned : headerSize ∣ kept.length := by
    rcases hkept with rfl | rfl
    · exact hbase s
    · exact Nat.dvd_zero _
  rw [Dir.headers, hcontent, readHeaders_append haligned, readHeaders_encodeAll] at hh
  rcases List.mem_append.mp hh with hh | hh
  · rcases hkept with rfl | rfl
    · exact Or.inl hh
    · cases hh
  · exact Or.inr (hP h hh)

/-! ## Writers -/

/-- The files of a directory, and the buffer that goes into one of them. -/
structure WriterFrom (C : Bytes → Prop) (P : PartWALHeader → Prop) (base : Dir) (w : PartitionWALWriter)
    (d : Dir) : Prop where
  files : DirFrom C base d
  buffer : WholeRecords P w.buffer

/-- The writes for a record. -/
structure RecordIO.Leaves (C : Bytes → Prop) (P : PartWALHeader → Prop) (io : RecordIO) : Prop where
  switch : PartDist.Leaves C P io.switchFlush
  full : PartDist.Leaves C P io.fullFlush
  flush : PartDist.Leaves C P io.flush

def LoopEvent.Leaves (C : Bytes → Prop) (P : PartWALHeader → Prop) : LoopEvent → Prop
  | .record _ io => io.Leaves C P
  | .caughtUp io => ∀ pid, PartDist.Leaves C P (io pid)

section
variable {C : Bytes → Prop} {P : PartWALHeader → Prop} {base d : Dir} {w : PartitionWALWriter}
  {segsz : WalSegSize} {io : RecordIO} {h : PartWALHeader}

theorem WriterFrom.flush (hw : WriterFrom C P base w d) {os : List WriteOutcome} (hos : Leaves C P os) :
    WriterFrom C P base (flushPartitionWALWriter os w d).writer (flushPartitionWALWriter os w d).dir := by
  unfold flushPartitionWALWriter
  split
  · exact hw
  · cases w.fd with
    | none => exact hw
    | some fd =>
      have hfiles := hw.files.write (hos _ hw.buffer) fd
      dsimp only
      split
      · exact ⟨hfiles, whole_nil⟩
      · exact ⟨hfiles, hw.buffer⟩

theorem WriterFrom.caught {c : WriterCall} (hc : WriterFrom C P base c.writer c.dir) :
    WriterFrom C P base c.caught.1 c.caught.2 := by
  unfold WriterCall.caught
  split <;> exact ⟨hc.files, hc.buffer⟩

theorem WriterFrom.openSegment (hw : WriterFrom C P base w d) (ok : Bool) (segno : Nat) :
    WriterFrom C P base (openWriterSegment ok segno w d).writer (openWriterSegment ok segno w d).dir := by
  unfold openWriterSegment
  split
  · exact ⟨hw.files.openCreate segno, hw.buffer⟩
  · exact ⟨hw.files, hw.buffer⟩

theorem WriterFrom.resetDetect (hw : WriterFrom C P base w d) (sc : ScanIO) :
    WriterFrom C P base (resetDetect sc h w d) d := by
  unfold PartDist.resetDetect
  split
  · split
    · exact ⟨hw.files, whole_nil⟩
    · exact hw
  · exact hw

theorem WriterFrom.unstall (hw : WriterFrom C P base w d) (sc : ScanIO) :
    WriterFrom C P base (unstall sc h w d) d := by
  unfold PartDist.unstall
  split
  · split
    · exact ⟨hw.files, hw.buffer⟩
    · exact hw
  · exact hw

theorem WriterFrom.route (hw : WriterFrom C P base w d) (hP : P h) (hio : io.Leaves C P) :
    WriterFrom C P base (routeToWriter segsz io h w d).1 (routeToWriter segsz io h w d).2 := by
  have hready := (hw.resetDetect (h := h) io.resetScan).unstall (h := h) io.unstallScan
  have hwrite := writePartitionWAL_keeps segsz io (P := WriterFrom C P base) (h := h)
    (fun os hos v d hv => hv.flush (by
      rcases hos with rfl | rfl
      · exact hio.switch
      · exact hio.full))
    (fun ok segno v d hv => hv.openSegment ok segno)
    (fun v d hv => ⟨hv.files, hv.buffer.append (whole_encode hP)⟩) hready
  unfold routeToWriter
  dsimp only
  split
  · apply WriterFrom.caught
    unfold WriterCall.andThen
    split
    · exact hwrite
    · exact hwrite.flush hio.flush
  · exact hready

end

/-! ## The Demux -/

structure Demux.From (C : Bytes → Prop) (P : PartWALHeader → Prop) (base : Parwal) (dm : Demux) : Prop where
  files : ∀ pid, DirFrom C (base pid) (dm.parwal pid)
  buffers : ∀ w ∈ dm.writers, WholeRecords P w.buffer

namespace Demux.From

section
variable {C C' : Bytes → Prop} {P P' : PartWALHeader → Prop} {base : Parwal} {dm : Demux} {segsz : WalSegSize}

theorem fresh {parwal : Parwal} (h : ∀ pid, DirFrom C (base pid) (parwal pid)) :
    (Demux.fresh parwal).From C P base := ⟨h, (fun _ hw => nomatch hw)⟩

theorem mono (hC : ∀ bs, C bs → C' bs) (hP : ∀ h, P h → P' h) (hd : dm.From C P base) : dm.From C' P' base :=
  ⟨fun pid => (hd.files pid).mono hC, fun w hw => (hd.buffers w hw).mono hP⟩

theorem update (hd : dm.From C P base) {pid : Oid} {d : Dir} (hdir : DirFrom C (base pid) d) (q : Oid) :
    DirFrom C (base q) (Function.update dm.parwal pid d q) := by
  by_cases hq : q = pid
  · subst hq
    rw [Function.update_self]
    exact hdir
  · rw [Function.update_of_ne hq]
    exact hd.files q

theorem store (hd : dm.From C P base) {w : PartitionWALWriter} {d : Dir}
    (hw : WriterFrom C P (base w.partitionId) w d) : (dm.store w d).From C P base := by
  refine ⟨hd.update hw.files, fun v hv => ?_⟩
  obtain ⟨u, hu, rfl⟩ := List.mem_map.mp hv
  split
  · exact hw.buffer
  · exact hd.buffers u hu

theorem flushAll (hd : dm.From C P base) {io : Oid → List WriteOutcome} (hio : ∀ pid, Leaves C P (io pid)) :
    (flushAllWriters io dm).From C P base := by
  unfold flushAllWriters
  refine List.foldlRecOn dm.writers _ (motive := Demux.From C P base) hd fun cur hcur w hw => ?_
  have hflush := (WriterFrom.mk (hcur.files w.partitionId) (hd.buffers w hw)).flush (hio w.partitionId)
  apply hcur.store
  rw [caught_partitionId, flush_partitionId]
  exact hflush.caught

theorem getOrCreate (hd : dm.From C P base) (io : RecordIO) (pid : Oid) :
    (getOrCreateWriter io pid dm).2.From C P base ∧
      ∀ w ∈ (getOrCreateWriter io pid dm).1, w.partitionId = pid ∧ WholeRecords P w.buffer := by
  unfold getOrCreateWriter
  split
  · next w hf =>
    refine ⟨hd, fun v hv => ?_⟩
    obtain rfl := Option.some.inj hv
    exact ⟨findWriter_partitionId hf, hd.buffers w (List.mem_of_find?_eq_some hf)⟩
  · split
    · exact ⟨hd, (fun _ hv => nomatch hv)⟩
    · split
      · next w hc =>
        have hbuf : WholeRecords P w.buffer := by
          unfold createPartitionWALWriter at hc
          split at hc
          · obtain rfl := Option.some.inj hc
            exact whole_nil
          · cases hc
        refine ⟨⟨hd.files, fun v hv => ?_⟩, fun v hv => ?_⟩
        · rcases List.mem_append.mp hv with hv | hv
          · exact hd.buffers v hv
          · rw [List.mem_singleton.mp hv]
            exact hbuf
        · obtain rfl := Option.some.inj hv
          exact ⟨create_partitionId hc, hbuf⟩
      · exact ⟨hd, (fun _ hv => nomatch hv)⟩

/-- **The Demux writes what it reads.** -/
theorem step (hd : dm.From C P base) {e : LoopEvent} (he : e.Leaves C P)
    (hP : ∀ r ∈ e.record?, ∀ h ∈ r.dataHeader, P h) : (demuxStep segsz dm e).From C P base := by
  cases e with
  | caughtUp io => exact hd.flushAll he
  | record r io =>
    simp only [demuxStep, processRecord]
    cases hr : r.dataHeader with
    | none => exact hd
    | some h =>
      have hPh := hP r rfl h hr
      obtain ⟨hget, hwriter⟩ := hd.getOrCreate io h.partitionId
      dsimp only
      unfold processHeader
      split
      · next hc => rw [hc] at hget; exact hget
      · next w dm' hc =>
        rw [hc] at hget hwriter
        obtain ⟨hid, hbuf⟩ := hwriter w rfl
        apply hget.store
        rw [routeToWriter_partitionId, hid]
        exact (WriterFrom.mk (hget.files h.partitionId) hbuf).route hPh he

theorem destroyAll (hd : dm.From C P base) {io : Oid → List WriteOutcome} (hio : ∀ pid, Leaves C P (io pid)) :
    ∀ pid, DirFrom C (base pid) (destroyAllWriters io dm pid) := by
  unfold destroyAllWriters
  refine List.foldlRecOn dm.writers _
    (motive := fun left : Parwal × Bool => ∀ pid, DirFrom C (base pid) (left.1 pid)) hd.files
    fun left hleft w hw => ?_
  dsimp only
  split
  · exact hleft
  · have hcur : (Demux.mk [] left.1).From C P base := ⟨hleft, (fun _ hv => nomatch hv)⟩
    exact hcur.update ((WriterFrom.mk (hleft w.partitionId) (hd.buffers w hw)).flush (hio w.partitionId)).files

end

end Demux.From

/-! ## The server -/

/-- The writes of a step. -/
def Label.Leaves (C : Bytes → Prop) (P : PartWALHeader → Prop) : Label → Prop
  | .demux (.record io _) => io.Leaves C P
  | .demux (.caughtUp io) => ∀ pid, PartDist.Leaves C P (io pid)
  | .demuxStop io destroyIo _ => (∀ pid, PartDist.Leaves C P (io pid)) ∧ ∀ pid, PartDist.Leaves C P (destroyIo pid)
  | _ => True

theorem RecordIO.leaves_torn (P : PartWALHeader → Prop) (io : RecordIO) : io.Leaves (TornRecords P) P :=
  ⟨PartDist.leaves_torn _, PartDist.leaves_torn _, PartDist.leaves_torn _⟩

theorem Label.leaves_torn (P : PartWALHeader → Prop) (l : Label) : l.Leaves (TornRecords P) P := by
  cases l with
  | demux round =>
    cases round with
    | record io saveOk => exact io.leaves_torn P
    | caughtUp io => exact fun pid => PartDist.leaves_torn _
    | _ => trivial
  | demuxStop io destroyIo saveOk => exact ⟨fun pid => PartDist.leaves_torn _, fun pid => PartDist.leaves_torn _⟩
  | _ => trivial

/-- No write of the step fails. -/
def Label.WritesOk : Label → Prop
  | .demux (.record io _) => NoWriteError io.switchFlush ∧ NoWriteError io.fullFlush ∧ NoWriteError io.flush
  | .demux (.caughtUp io) => ∀ pid, NoWriteError (io pid)
  | .demuxStop io destroyIo _ => (∀ pid, NoWriteError (io pid)) ∧ ∀ pid, NoWriteError (destroyIo pid)
  | _ => True

theorem Label.WritesOk.leaves {l : Label} (h : l.WritesOk) (P : PartWALHeader → Prop) :
    l.Leaves (WholeRecords P) P := by
  cases l with
  | demux round =>
    cases round with
    | record io saveOk => exact ⟨leaves_whole h.1, leaves_whole h.2.1, leaves_whole h.2.2⟩
    | caughtUp io => exact fun pid => leaves_whole (h pid)
    | _ => trivial
  | demuxStop io destroyIo saveOk => exact ⟨fun pid => leaves_whole (h.1 pid), fun pid => leaves_whole (h.2 pid)⟩
  | _ => trivial

/-- While the server is up only records that have been read get into pg_parwal. -/
theorem Demux.From.server {C : Bytes → Prop} {P : PartWALHeader → Prop} {base : Parwal} {segsz : WalSegSize}
    {s : Server} {l : Label} (hd : s.demux.From C P base) (hs : s.Placed) (hl : l.Leaves C P)
    (hcrash : ∀ keep created rd, l ≠ .crash keep created rd)
    (hread : ∀ r, s.wal[s.endRecPtr]? = some r → ∀ h ∈ r.dataHeader, P h) :
    (serverStep segsz s l).demux.From C P base := by
  have hbackend : l.Backend → (serverStep segsz s l).demux.From C P base := fun hl' =>
    (s.sameWorker_backend segsz hl').demux ▸ hd
  cases l with
  | demuxStart =>
    simp only [serverStep]
    split
    · exact hd
    · exact .fresh hd.files
  | demux round =>
    simp only [serverStep]
    split
    · rcases Server.demuxIteration_cases segsz round hs.flushed_le with
        ⟨io, rfl, -, he⟩ | ⟨io, saveOk, r, rfl, -, hr, he⟩ | ⟨-, -, -, -, he⟩ | ⟨-, he⟩
      · rw [he]
        exact hd.flushAll hl
      · rw [he]
        refine hd.step (e := .record r io) hl fun r' hr' h hh => ?_
        obtain rfl := Option.some.inj hr'
        exact hread r hr h hh
      · rw [he]
        exact hd
      · rw [he]
        exact hd
    · exact hd
  | demuxStop io destroyIo saveOk =>
    simp only [serverStep]
    split
    · exact .fresh ((hd.flushAll hl.1).destroyAll hl.2)
    · exact hd
  | cleanup pid keepPtr rd unlinkOk =>
    exact ⟨hd.update ((hd.files pid).cleanup segsz keepPtr rd unlinkOk), hd.buffers⟩
  | restart => simp only [serverStep]; split <;> exact hd
  | crash keep created rd => exact absurd rfl (hcrash keep created rd)
  | _ => exact hbackend trivial

end PartDist
