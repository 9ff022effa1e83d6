import PartDist.Grown

/-!
# The buffered segment writer

`PartitionWALWriter` and the functions of partition_wal_writer.c.  A call ends by
returning or in `ereport(ERROR)`; either way the writer and the directory keep
what the statements up to that point did to them.

`WriterInv base mark acc w d`: directory `d` and the buffer of `w` together hold
the directory `base` the writer started on, followed by the records `acc`, each
in its own segment file; `w` has accepted nothing else.
-/

namespace PartDist

open Bytes PartWALHeader

/-! ## System calls -/

/-- How one `write(fd, ptr, remaining)` ends: interrupted, failed (`ENOSPC` or
any other error), or with a count. -/
inductive WriteOutcome
  | eintr
  | error
  | wrote (n : Nat)
deriving DecidableEq

/-- The `write` loop on `bs`: the bytes that reach the file, and whether it ran
to the end.  Once the given outcomes are used up a `write` takes everything. -/
def writeLoop : List WriteOutcome → Bytes → Bytes × Bool
  | [], bs => (bs, true)
  | o :: os, bs =>
    if bs = [] then ([], true)
    else match o with
      | .eintr => writeLoop os bs
      | .error => ([], false)
      | .wrote n => (bs.take n ++ (writeLoop os (bs.drop n)).1, (writeLoop os (bs.drop n)).2)

theorem writeLoop_done {os : List WriteOutcome} {bs : Bytes} (h : (writeLoop os bs).2 = true) :
    (writeLoop os bs).1 = bs := by
  induction os generalizing bs with
  | nil => rfl
  | cons o os ih =>
    unfold writeLoop at h ⊢
    split at h
    · next hbs => rw [if_pos hbs, hbs]
    · next hbs =>
      rw [if_neg hbs]
      cases o with
      | eintr => exact ih h
      | error => cases h
      | wrote n =>
        simp only at h ⊢
        rw [ih h, List.take_append_drop]

theorem writeLoop_prefix (os : List WriteOutcome) (bs : Bytes) : (writeLoop os bs).1 <+: bs := by
  induction os generalizing bs with
  | nil => exact List.prefix_rfl
  | cons o os ih =>
    unfold writeLoop
    split
    · exact List.nil_prefix
    · cases o with
      | eintr => exact ih bs
      | error => exact List.nil_prefix
      | wrote n =>
        calc bs.take n ++ (writeLoop os (bs.drop n)).1
            <+: bs.take n ++ bs.drop n := (List.prefix_append_right_inj _).mpr (ih _)
          _ = bs := List.take_append_drop n bs

/-- No `write` of the flush can fail. -/
def NoWriteError (os : List WriteOutcome) : Prop := ∀ bs, (writeLoop os bs).2 = true

/-- A flush that fails has written nothing. -/
def ZeroByteFailure (os : List WriteOutcome) : Prop :=
  ∀ bs, (writeLoop os bs).2 = false → (writeLoop os bs).1 = []

theorem noWriteError_of_notMem {os : List WriteOutcome} (h : .error ∉ os) : NoWriteError os := by
  induction os with
  | nil => exact fun bs => rfl
  | cons o os ih =>
    intro bs
    have ih := ih fun hm => h (List.mem_cons_of_mem o hm)
    unfold writeLoop
    split
    · rfl
    · cases o with
      | eintr => exact ih bs
      | error => exact absurd List.mem_cons_self h
      | wrote n => exact ih (bs.drop n)

theorem NoWriteError.zeroByteFailure {os : List WriteOutcome} (h : NoWriteError os) :
    ZeroByteFailure os := fun bs hf => by rw [h bs] at hf; cases hf

/-! ## Algorithm -/

/-- `PARWAL_WRITER_BUFFER_SIZE`. -/
def parwalWriterBufferSize : Nat := 256 * 1024

/-- `fd = none` is -1.  `buffer` is the first `buf_used` bytes of the array. -/
structure PartitionWALWriter where
  partitionId : Oid
  fd : Option Descriptor
  writePosition : Nat
  lastPartitionLsn : UInt64
  currentSegno : Nat
  buffer : Bytes
  enospcStalled : Bool
deriving DecidableEq

/-- What a call leaves behind, and whether it ended in `ereport(ERROR)`. -/
structure WriterCall where
  raised : Bool
  writer : PartitionWALWriter
  dir : Dir

def WriterCall.andThen (c : WriterCall) (f : PartitionWALWriter → Dir → WriterCall) : WriterCall :=
  if c.raised then c else f c.writer c.dir

/-- The old descriptor is closed before `open()` can fail. -/
def openWriterSegment (openOk : Bool) (segno : Nat) (w : PartitionWALWriter) (d : Dir) : WriterCall :=
  if openOk then
    { raised := false
      writer := { w with
        fd := some (d.descriptor segno)
        currentSegno := segno
        writePosition := 0
        enospcStalled := false }
      dir := d.openCreate segno }
  else { raised := true, writer := { w with fd := none }, dir := d }

/-- Writes the buffer; an error leaves `buffer` and `buf_used` as they were. -/
def flushPartitionWALWriter (os : List WriteOutcome) (w : PartitionWALWriter) (d : Dir) : WriterCall :=
  if w.buffer = [] then { raised := false, writer := w, dir := d }
  else match w.fd with
    | none => { raised := false, writer := w, dir := d }
    | some fd =>
      if (writeLoop os w.buffer).2 then
        { raised := false
          writer := { w with
            writePosition := w.writePosition + w.buffer.length
            buffer := [] }
          dir := d.write fd (writeLoop os w.buffer).1 }
      else { raised := true, writer := w, dir := d.write fd (writeLoop os w.buffer).1 }

/-- Outcomes of the system calls that routing one record can make: `mkdir`, the
scans of writer creation, reset detection and un-stalling, the flush before a
segment switch, `open`, the flush of a full buffer and the flush after the record. -/
structure RecordIO where
  mkdirOk : Bool
  createScan : ScanIO
  resetScan : ScanIO
  unstallScan : ScanIO
  switchFlush : List WriteOutcome
  openOk : Bool
  fullFlush : List WriteOutcome
  flush : List WriteOutcome

def PartitionWALWriter.switches (segsz : WalSegSize) (h : PartWALHeader) (w : PartitionWALWriter) : Prop :=
  w.currentSegno ≠ 0 ∧ segnoOf segsz h ≠ w.currentSegno

instance (segsz : WalSegSize) (h : PartWALHeader) (w : PartitionWALWriter) :
    Decidable (w.switches segsz h) := inferInstanceAs (Decidable (_ ∧ _))

/-- The first part of `WritePartitionWAL`: have the record's segment open. -/
def prepareSegment (segsz : WalSegSize) (io : RecordIO) (h : PartWALHeader) (w : PartitionWALWriter)
    (d : Dir) : WriterCall :=
  if w.switches segsz h then
    (flushPartitionWALWriter io.switchFlush w d).andThen
      (openWriterSegment io.openOk (segnoOf segsz h))
  else if w.fd = none then openWriterSegment io.openOk (segnoOf segsz h) w d
  else { raised := false, writer := w, dir := d }

def writePartitionWAL (segsz : WalSegSize) (io : RecordIO) (h : PartWALHeader) (w : PartitionWALWriter)
    (d : Dir) : WriterCall :=
  let opened := prepareSegment segsz io h w d
  let roomy := opened.andThen fun w d =>
    if w.buffer.length + headerSize > parwalWriterBufferSize then
      flushPartitionWALWriter io.fullFlush w d
    else { raised := false, writer := w, dir := d }
  roomy.andThen fun w d =>
    { raised := false
      writer := { w with buffer := w.buffer ++ h.encode, lastPartitionLsn := h.partitionLsn }
      dir := d }

/-- What flushing, opening and copying keep, `writePartitionWAL` keeps. -/
theorem writePartitionWAL_keeps (segsz : WalSegSize) (io : RecordIO) {P : PartitionWALWriter → Dir → Prop}
    {h : PartWALHeader} {w : PartitionWALWriter} {d : Dir}
    (hflush : ∀ os, os = io.switchFlush ∨ os = io.fullFlush → ∀ w d, P w d →
      P (flushPartitionWALWriter os w d).writer (flushPartitionWALWriter os w d).dir)
    (hopen : ∀ ok segno w d, P w d →
      P (openWriterSegment ok segno w d).writer (openWriterSegment ok segno w d).dir)
    (hcopy : ∀ (w : PartitionWALWriter) d, P w d →
      P { w with buffer := w.buffer ++ h.encode, lastPartitionLsn := h.partitionLsn } d)
    (hw : P w d) : P (writePartitionWAL segsz io h w d).writer (writePartitionWAL segsz io h w d).dir := by
  have hthen : ∀ (c : WriterCall) (f : PartitionWALWriter → Dir → WriterCall), P c.writer c.dir →
      (∀ w d, P w d → P (f w d).writer (f w d).dir) → P (c.andThen f).writer (c.andThen f).dir := by
    intro c f hc hf
    unfold WriterCall.andThen
    split
    · exact hc
    · exact hf _ _ hc
  have hprep : P (prepareSegment segsz io h w d).writer (prepareSegment segsz io h w d).dir := by
    unfold prepareSegment
    split
    · exact hthen _ _ (hflush _ (Or.inl rfl) _ _ hw) fun w d => hopen _ _ w d
    · split
      · exact hopen _ _ _ _ hw
      · exact hw
  unfold writePartitionWAL
  refine hthen _ _ (hthen _ _ hprep fun w d hw => ?_) fun w d hw => hcopy w d hw
  split
  · exact hflush _ (Or.inr rfl) _ _ hw
  · exact hw

/-- `none` when `InitPartitionWALDirectory` raises. -/
def createPartitionWALWriter (mkdirOk : Bool) (sc : ScanIO) (pid : Oid) (d : Dir) :
    Option PartitionWALWriter :=
  if mkdirOk then
    some { partitionId := pid
           fd := none
           writePosition := 0
           lastPartitionLsn := getLastWrittenPartitionLSN sc pid d
           currentSegno := 0
           buffer := []
           enospcStalled := false }
  else none

/-! ## The writer's invariant -/

structure WriterInv (segsz : WalSegSize) (base : Dir) (mark : UInt64) (acc : List PartWALHeader)
    (w : PartitionWALWriter) (d : Dir) : Prop where
  fd_ok : ∀ fd, w.fd = some fd → fd.segno = w.currentSegno ∧ d.linked fd
  segno_pos : w.fd ≠ none → 0 < w.currentSegno
  closed : w.fd = none → w.buffer = []
  bytes : ∀ s, d.content s ++ (if s = w.currentSegno then w.buffer else []) =
    base.content s ++ encodeAll (inSegment segsz s acc)
  grows : ∀ s, base.content s <+: d.content s
  last : w.lastPartitionLsn = lastLsn mark acc
  unlinks : d.unlinks = base.unlinks

section
variable {segsz : WalSegSize} {base : Dir} {mark : UInt64} {acc : List PartWALHeader}
  {w : PartitionWALWriter} {d : Dir}

theorem flush_of_nil (hb : w.buffer = []) (os : List WriteOutcome) :
    flushPartitionWALWriter os w d = { raised := false, writer := w, dir := d } := by
  rw [flushPartitionWALWriter, if_pos hb]

/-- A flush whose writes succeed moves the buffer into the file. -/
theorem flush_ok (hw : WriterInv segsz base mark acc w d) {os : List WriteOutcome}
    (hos : w.buffer = [] ∨ (writeLoop os w.buffer).2 = true) :
    (flushPartitionWALWriter os w d).raised = false ∧
      (flushPartitionWALWriter os w d).writer.buffer = [] ∧
      (flushPartitionWALWriter os w d).writer.fd = w.fd ∧
      (flushPartitionWALWriter os w d).writer.currentSegno = w.currentSegno ∧
      (flushPartitionWALWriter os w d).writer.enospcStalled = w.enospcStalled ∧
      (flushPartitionWALWriter os w d).dir.names = d.names ∧
      WriterInv segsz base mark acc (flushPartitionWALWriter os w d).writer
        (flushPartitionWALWriter os w d).dir := by
  by_cases hb : w.buffer = []
  · rw [flush_of_nil hb]
    exact ⟨rfl, hb, rfl, rfl, rfl, rfl, hw⟩
  · have hout := hos.resolve_left hb
    cases hfd : w.fd with
    | none => exact absurd (hw.closed hfd) hb
    | some fd =>
      obtain ⟨hseg, hlink⟩ := hw.fd_ok fd hfd
      have hcall : flushPartitionWALWriter os w d =
          { raised := false
            writer := { w with writePosition := w.writePosition + w.buffer.length, buffer := [] }
            dir := d.append w.currentSegno w.buffer } := by
        simp only [flushPartitionWALWriter, if_neg hb, hfd, if_pos hout, writeLoop_done hout,
          Dir.write_of_linked hlink, hseg]
      rw [hcall]
      refine ⟨rfl, rfl, hfd, rfl, rfl, ?_, ?_, hw.segno_pos, fun _ => rfl, fun s => ?_, fun s => ?_,
        hw.last, hw.unlinks⟩
      · rw [Dir.names_append, Finset.insert_eq_self, ← hseg]
        exact hlink.2
      · intro fd' hfd'
        obtain ⟨hseg', hlink'⟩ := hw.fd_ok fd' hfd'
        exact ⟨hseg', Dir.linked_append hlink' _ _⟩
      · rw [← hw.bytes s, Dir.content_append]
        simp
      · rw [Dir.content_append]
        exact (hw.grows s).trans (List.prefix_append _ _)

/-- A flush that fails with nothing written changes nothing. -/
theorem flush_fail (hw : WriterInv segsz base mark acc w d) {os : List WriteOutcome}
    (hos : ZeroByteFailure os) (hb : w.buffer ≠ []) (hout : (writeLoop os w.buffer).2 = false) :
    flushPartitionWALWriter os w d = { raised := true, writer := w, dir := d } := by
  cases hfd : w.fd with
  | none => exact absurd (hw.closed hfd) hb
  | some fd =>
    obtain ⟨-, hlink⟩ := hw.fd_ok fd hfd
    simp only [flushPartitionWALWriter, if_neg hb, hfd, hout, Bool.false_eq_true, if_false,
      hos _ hout, Dir.write_of_linked hlink, Dir.append_nil_of_mem hlink.2]

/-- Opening another segment with an empty buffer, whether it succeeds or not. -/
theorem open_inv (hw : WriterInv segsz base mark acc w d) (hb : w.buffer = []) (openOk : Bool)
    {segno : Nat} (hpos : 0 < segno) :
    WriterInv segsz base mark acc (openWriterSegment openOk segno w d).writer
      (openWriterSegment openOk segno w d).dir := by
  cases openOk with
  | false =>
    refine ⟨fun fd h => ?_, fun h => absurd rfl h, fun _ => hb, hw.bytes, hw.grows, hw.last, hw.unlinks⟩
    cases h
  | true =>
    refine ⟨fun fd h => ?_, fun _ => hpos, fun h => ?_, fun s => ?_, fun s => ?_, hw.last, ?_⟩
    · obtain rfl := Option.some.inj h
      exact ⟨rfl, Dir.linked_openCreate d segno⟩
    · cases h
    · rw [← hw.bytes s]
      simp [openWriterSegment, hb]
    · simp only [openWriterSegment, if_true, Dir.content_openCreate]
      exact hw.grows s
    · simp only [openWriterSegment, if_true, Dir.unlinks_openCreate, hw.unlinks]

/-- Every call made before the record is copied into the buffer succeeds: the
flush and the `open` of a segment switch, the `open` of a closed segment, the
flush of a full buffer. -/
structure PreCopyOk (segsz : WalSegSize) (io : RecordIO) (h : PartWALHeader)
    (w : PartitionWALWriter) : Prop where
  switch : w.switches segsz h → w.buffer = [] ∨ (writeLoop io.switchFlush w.buffer).2 = true
  opened : w.switches segsz h ∨ w.fd = none → io.openOk = true
  full : ¬ w.switches segsz h → parwalWriterBufferSize < w.buffer.length + headerSize →
    (writeLoop io.fullFlush w.buffer).2 = true

instance (io : RecordIO) (h : PartWALHeader) : Decidable (PreCopyOk segsz io h w) :=
  decidable_of_iff
    ((w.switches segsz h → w.buffer = [] ∨ (writeLoop io.switchFlush w.buffer).2 = true) ∧
      (w.switches segsz h ∨ w.fd = none → io.openOk = true) ∧
      (¬ w.switches segsz h → parwalWriterBufferSize < w.buffer.length + headerSize →
        (writeLoop io.fullFlush w.buffer).2 = true))
    ⟨fun h => ⟨h.1, h.2.1, h.2.2⟩, fun h => ⟨h.1, h.2, h.3⟩⟩

theorem not_preCopyOk {io : RecordIO} {h : PartWALHeader} (hn : ¬ PreCopyOk segsz io h w) :
    (w.switches segsz h ∧ w.buffer ≠ [] ∧ (writeLoop io.switchFlush w.buffer).2 = false) ∨
      ((w.switches segsz h → w.buffer = [] ∨ (writeLoop io.switchFlush w.buffer).2 = true) ∧
        (w.switches segsz h ∨ w.fd = none) ∧ io.openOk = false) ∨
      (¬ w.switches segsz h ∧ (w.fd = none → io.openOk = true) ∧
        parwalWriterBufferSize < w.buffer.length + headerSize ∧
        (writeLoop io.fullFlush w.buffer).2 = false) := by
  by_cases hs : w.switches segsz h
  · by_cases h1 : w.buffer = [] ∨ (writeLoop io.switchFlush w.buffer).2 = true
    · right; left
      refine ⟨fun _ => h1, Or.inl hs, ?_⟩
      by_contra ho
      exact hn ⟨fun _ => h1, fun _ => by simpa using ho, fun h => absurd hs h⟩
    · left
      simpa [hs] using h1
  · by_cases h2 : w.fd = none → io.openOk = true
    · right; right
      refine ⟨hs, h2, ?_⟩
      by_contra hf
      refine hn ⟨fun h => absurd h hs, fun h => h2 (h.resolve_left hs), fun _ hlt => ?_⟩
      by_contra ho
      exact hf ⟨hlt, by simpa using ho⟩
    · right; left
      simp only [Classical.not_imp, Bool.not_eq_true] at h2
      exact ⟨fun h => absurd h hs, Or.inr h2.1, h2.2⟩

/-- When it succeeds, the record's segment is open. -/
theorem prepareSegment_ok (hw : WriterInv segsz base mark acc w d) {io : RecordIO} {h : PartWALHeader}
    (hok : PreCopyOk segsz io h w) :
    (prepareSegment segsz io h w d).raised = false ∧
      (prepareSegment segsz io h w d).writer.currentSegno = segnoOf segsz h ∧
      (prepareSegment segsz io h w d).writer.fd ≠ none ∧
      ((prepareSegment segsz io h w d).writer.buffer = [] ∨
        ¬ w.switches segsz h ∧ (prepareSegment segsz io h w d).writer.buffer = w.buffer) ∧
      (prepareSegment segsz io h w d).dir.names = insert (segnoOf segsz h) d.names ∧
      WriterInv segsz base mark acc (prepareSegment segsz io h w d).writer
        (prepareSegment segsz io h w d).dir := by
  have hpos := segnoOf_pos segsz h
  by_cases hs : w.switches segsz h
  · obtain ⟨hr, hb, -, -, -, hn, hinv⟩ := flush_ok hw (hok.switch hs)
    have hopen := hok.opened (Or.inl hs)
    have hinv' := open_inv hinv hb io.openOk hpos
    rw [prepareSegment, if_pos hs, WriterCall.andThen, hr]
    simp only [Bool.false_eq_true, if_false]
    rw [hopen] at hinv' ⊢
    refine ⟨rfl, rfl, Option.some_ne_none _, Or.inl hb, ?_, hinv'⟩
    rw [← hn]
    exact Dir.names_openCreate _ _
  · rw [prepareSegment, if_neg hs]
    by_cases hfd : w.fd = none
    · have hopen := hok.opened (Or.inr hfd)
      have hb := hw.closed hfd
      have hinv' := open_inv hw hb io.openOk hpos
      rw [if_pos hfd]
      rw [hopen] at hinv' ⊢
      exact ⟨rfl, rfl, Option.some_ne_none _, Or.inl hb, Dir.names_openCreate _ _, hinv'⟩
    · have hcur : w.currentSegno = segnoOf segsz h := by
        by_contra hne
        exact hs ⟨Nat.pos_iff_ne_zero.mp (hw.segno_pos hfd), fun h => hne h.symm⟩
      rw [if_neg hfd]
      refine ⟨rfl, hcur, hfd, Or.inr ⟨hs, rfl⟩, ?_, hw⟩
      obtain ⟨fd, hfd⟩ := Option.ne_none_iff_exists'.mp hfd
      obtain ⟨hseg, hlink⟩ := hw.fd_ok fd hfd
      rw [← hcur, ← hseg]
      exact (Finset.insert_eq_self.mpr hlink.2).symm

/-- Copying a record of the open segment into the buffer accepts it. -/
theorem copy_inv (hw : WriterInv segsz base mark acc w d) {h : PartWALHeader}
    (hcur : w.currentSegno = segnoOf segsz h) (hfd : w.fd ≠ none) :
    WriterInv segsz base mark (acc ++ [h])
      { w with buffer := w.buffer ++ h.encode, lastPartitionLsn := h.partitionLsn } d := by
  refine ⟨hw.fd_ok, hw.segno_pos, fun h => absurd h hfd, fun s => ?_, hw.grows, ?_, hw.unlinks⟩
  · rw [inSegment_append, encodeAll_append, ← List.append_assoc, ← hw.bytes s, inSegment_singleton]
    simp only [hcur]
    split
    · simp
    · simp
  · rw [lastLsn_append]

/-- If the calls before the copy succeed, the record is accepted. -/
theorem writePartitionWAL_ok (hw : WriterInv segsz base mark acc w d) {io : RecordIO}
    {h : PartWALHeader} (hok : PreCopyOk segsz io h w) :
    (writePartitionWAL segsz io h w d).raised = false ∧
      (writePartitionWAL segsz io h w d).writer.fd ≠ none ∧
      (writePartitionWAL segsz io h w d).dir.names = insert (segnoOf segsz h) d.names ∧
      WriterInv segsz base mark (acc ++ [h]) (writePartitionWAL segsz io h w d).writer
        (writePartitionWAL segsz io h w d).dir := by
  obtain ⟨hr, hcur, hfd, hbuf, hn, hinv⟩ := prepareSegment_ok hw hok
  rw [writePartitionWAL]
  simp only [WriterCall.andThen, hr, Bool.false_eq_true, if_false]
  generalize prepareSegment segsz io h w d = c at *
  by_cases hfull : c.writer.buffer.length + headerSize > parwalWriterBufferSize
  · simp only [hfull, if_true]
    have hout : c.writer.buffer = [] ∨ (writeLoop io.fullFlush c.writer.buffer).2 = true := by
      rcases hbuf with hb | ⟨hs, hb⟩
      · exact Or.inl hb
      · rw [hb] at hfull ⊢
        exact Or.inr (hok.full hs hfull)
    obtain ⟨hr', -, hfd', hcur', -, hn', hinv'⟩ := flush_ok hinv hout
    simp only [hr', Bool.false_eq_true, if_false]
    exact ⟨trivial, hfd' ▸ hfd, hn'.trans hn, copy_inv hinv' (hcur'.trans hcur) (hfd' ▸ hfd)⟩
  · simp only [hfull, if_false, Bool.false_eq_true]
    exact ⟨trivial, hfd, hn, copy_inv hinv hcur hfd⟩

/-- With nothing buffered before, it is all that is buffered afterwards. -/
theorem writePartitionWAL_buffer (hw : WriterInv segsz base mark acc w d) {io : RecordIO}
    {h : PartWALHeader} (hok : PreCopyOk segsz io h w) (hb : w.buffer = []) :
    (writePartitionWAL segsz io h w d).writer.buffer = h.encode := by
  obtain ⟨hr, -, -, hbuf, -, -⟩ := prepareSegment_ok hw hok
  rw [hb] at hbuf
  have hempty : (prepareSegment segsz io h w d).writer.buffer = [] := by
    rcases hbuf with hbuf | ⟨-, hbuf⟩
    · exact hbuf
    · exact hbuf
  have hroom : ¬ ([] : Bytes).length + headerSize > parwalWriterBufferSize := by decide
  simp only [writePartitionWAL, WriterCall.andThen, hr, Bool.false_eq_true, if_false, hempty, hroom,
    List.nil_append]

/-- If one of them fails, with nothing written, the record is not accepted and
no accepted byte is lost. -/
theorem writePartitionWAL_fail (hw : WriterInv segsz base mark acc w d) {io : RecordIO}
    {h : PartWALHeader} (hsw : ZeroByteFailure io.switchFlush) (hfl : ZeroByteFailure io.fullFlush)
    (hn : ¬ PreCopyOk segsz io h w) :
    (writePartitionWAL segsz io h w d).raised = true ∧
      (writePartitionWAL segsz io h w d).dir.names = d.names ∧
      WriterInv segsz base mark acc (writePartitionWAL segsz io h w d).writer
        (writePartitionWAL segsz io h w d).dir := by
  have hpos := segnoOf_pos segsz h
  have opening : ∀ {w d}, WriterInv segsz base mark acc w d → w.buffer = [] →
      (openWriterSegment false (segnoOf segsz h) w d).raised = true ∧
        WriterInv segsz base mark acc (openWriterSegment false (segnoOf segsz h) w d).writer
          (openWriterSegment false (segnoOf segsz h) w d).dir :=
    fun hw hb => ⟨rfl, open_inv hw hb false hpos⟩
  rw [writePartitionWAL]
  rcases not_preCopyOk hn with ⟨hs, hb, hout⟩ | ⟨hout, hopen, hfalse⟩ | ⟨hs, hopen, hlt, hout⟩
  · -- the flush before the switch fails
    simp only [prepareSegment, if_pos hs, flush_fail hw hsw hb hout, WriterCall.andThen, if_true]
    exact ⟨trivial, trivial, hw⟩
  · -- the open fails
    by_cases hs : w.switches segsz h
    · obtain ⟨hr, hb, -, -, -, hn', hinv⟩ := flush_ok hw (hout hs)
      obtain ⟨hr', hinv'⟩ := opening hinv hb
      simp only [prepareSegment, if_pos hs, WriterCall.andThen, hr, Bool.false_eq_true, if_false,
        hfalse, hr', if_true]
      exact ⟨trivial, hn', hinv'⟩
    · have hfd := hopen.resolve_left hs
      obtain ⟨hr', hinv'⟩ := opening hw (hw.closed hfd)
      simp only [prepareSegment, if_neg hs, if_pos hfd, WriterCall.andThen, hfalse, hr', if_true]
      exact ⟨trivial, rfl, hinv'⟩
  · -- the flush of the full buffer fails
    have hb : w.buffer ≠ [] := by
      intro hb
      rw [hb] at hlt
      revert hlt
      decide
    have hfd : w.fd ≠ none := fun hfd => hb (hw.closed hfd)
    have hgt : w.buffer.length + headerSize > parwalWriterBufferSize := hlt
    simp only [prepareSegment, if_neg hs, if_neg hfd, WriterCall.andThen, Bool.false_eq_true, if_false,
      if_pos hgt, flush_fail hw hfl hb hout, if_true]
    exact ⟨trivial, trivial, hw⟩

/-- A freshly created writer has accepted nothing. -/
theorem create_inv (segsz : WalSegSize) {mkdirOk : Bool} {sc : ScanIO} {pid : Oid}
    (hc : createPartitionWALWriter mkdirOk sc pid d = some w) :
    WriterInv segsz d (getLastWrittenPartitionLSN sc pid d) [] w d := by
  unfold createPartitionWALWriter at hc
  split at hc
  · obtain rfl := Option.some.inj hc
    refine ⟨fun fd h => ?_, fun h => absurd rfl h, fun _ => rfl, fun s => ?_, fun s =>
      List.prefix_refl _, rfl, rfl⟩
    · cases h
    · simp [inSegment]
  · cases hc

end

end PartDist
