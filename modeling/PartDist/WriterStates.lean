import PartDist.Provenance

/-!
# A writer whose calls can fail

`CreatePartitionWALWriter`, `WritePartitionWAL`, `FlushPartitionWALWriter` and the
assignments with which `DemuxWorkerMain` restarts a writer, in any order.  A call that
ends in an error leaves the writer where the error has caught it.

* `WriterRep.flush`, `WriterRep.openSegment`, `WriterRep.copy`: the parts of the calls,
  whether they succeed or not.
* `writer_representation`: what holds after every call.
-/

namespace PartDist

open Bytes PartWALHeader

/-! ## Algorithm -/

/-- The files are gone: restart from scratch. -/
def PartitionWALWriter.restart (w : PartitionWALWriter) : PartitionWALWriter :=
  { w with
    fd := none
    currentSegno := 0
    buffer := []
    lastPartitionLsn := 0
    enospcStalled := false }

/-- `unlink`: somebody else removes a segment file. -/
inductive WriterEvent
  | create (mkdirOk : Bool) (sc : ScanIO)
  | write (h : PartWALHeader) (io : RecordIO)
  | flush (os : List WriteOutcome)
  | restart
  | unlink (segno : Nat)

/-- What a call on the writer leaves behind, returned or not. -/
def Share.call (f : PartitionWALWriter → Dir → WriterCall) (v : Share) : Share :=
  match v.1 with
  | some w => (some (f w v.2).writer, (f w v.2).dir)
  | none => v

def writerStep (segsz : WalSegSize) (pid : Oid) (v : Share) : WriterEvent → Share
  | .create mkdirOk sc =>
    match createPartitionWALWriter mkdirOk sc pid v.2 with
    | some w => (some w, v.2)
    | none => v
  | .write h io => v.call (writePartitionWAL segsz io h)
  | .flush os => v.call (flushPartitionWALWriter os)
  | .restart => (v.1.map PartitionWALWriter.restart, v.2)
  | .unlink segno => (v.1, v.2.unlink segno)

def WriterEvent.record? : WriterEvent → Option PartWALHeader
  | .write h _ => some h
  | .create .. => none
  | .flush _ => none
  | .restart => none
  | .unlink _ => none

/-- The records that the writer has been called with. -/
def givenTo (es : List WriterEvent) : List PartWALHeader := es.filterMap WriterEvent.record?

/-! ## The representation -/

/-- A given record of segment `s`. -/
def Belongs (segsz : WalSegSize) (given : List PartWALHeader) (s : Nat) (h : PartWALHeader) : Prop :=
  h ∈ given ∧ segnoOf segsz h = s

structure WriterRep (segsz : WalSegSize) (base : Dir) (given : List PartWALHeader) (w : PartitionWALWriter)
    (d : Dir) : Prop where
  fd_segno : ∀ fd, w.fd = some fd → fd.segno = w.currentSegno ∧ 0 < w.currentSegno
  closed : w.fd = none → w.buffer = []
  bound : w.buffer.length ≤ parwalWriterBufferSize
  buffered : WholeRecords (Belongs segsz given w.currentSegno) w.buffer
  files : ∀ s, FileFrom (TornRecords (Belongs segsz given s)) base d s

/-- The share of a partition with a writer or none. -/
structure ShareRep (segsz : WalSegSize) (base : Dir) (given : List PartWALHeader) (v : Share) : Prop where
  writer : ∀ w ∈ v.1, WriterRep segsz base given w v.2
  files : ∀ s, FileFrom (TornRecords (Belongs segsz given s)) base v.2 s

section
variable {segsz : WalSegSize} {base d : Dir} {given given' : List PartWALHeader} {w : PartitionWALWriter}
  {io : RecordIO} {h : PartWALHeader} {v : Share}

theorem files_mono (hsub : ∀ h ∈ given, h ∈ given')
    (hfiles : ∀ s, FileFrom (TornRecords (Belongs segsz given s)) base d s) :
    ∀ s, FileFrom (TornRecords (Belongs segsz given' s)) base d s := fun s =>
  (hfiles s).mono fun _ htorn => htorn.mono fun h hb => ⟨hsub h hb.1, hb.2⟩

theorem WriterRep.mono (hw : WriterRep segsz base given w d) (hsub : ∀ h ∈ given, h ∈ given') :
    WriterRep segsz base given' w d :=
  ⟨hw.fd_segno, hw.closed, hw.bound, hw.buffered.mono fun h hb => ⟨hsub h hb.1, hb.2⟩, files_mono hsub hw.files⟩

theorem ShareRep.mono (hv : ShareRep segsz base given v) (hsub : ∀ h ∈ given, h ∈ given') :
    ShareRep segsz base given' v :=
  ⟨fun w hw => (hv.writer w hw).mono hsub, files_mono hsub hv.files⟩

/-- A flush leaves the descriptor and its segment. -/
theorem flush_segment (os : List WriteOutcome) (w : PartitionWALWriter) (d : Dir) :
    (flushPartitionWALWriter os w d).writer.fd = w.fd ∧
      (flushPartitionWALWriter os w d).writer.currentSegno = w.currentSegno := by
  unfold flushPartitionWALWriter
  split
  · exact ⟨rfl, rfl⟩
  · cases hfd : w.fd with
    | none => exact ⟨hfd, rfl⟩
    | some fd =>
      dsimp only
      split
      · exact ⟨rfl, rfl⟩
      · exact ⟨hfd, rfl⟩

/-- An error in a flush leaves the buffer, one that returns has emptied it. -/
theorem WriterRep.flush (hw : WriterRep segsz base given w d) (os : List WriteOutcome) :
    WriterRep segsz base given (flushPartitionWALWriter os w d).writer (flushPartitionWALWriter os w d).dir ∧
      ((flushPartitionWALWriter os w d).raised = false → (flushPartitionWALWriter os w d).writer.buffer = []) := by
  by_cases hb : w.buffer = []
  · rw [flush_of_nil hb]
    exact ⟨hw, fun _ => hb⟩
  · cases hfd : w.fd with
    | none => exact absurd (hw.closed hfd) hb
    | some fd =>
      have hfiles : ∀ s,
          FileFrom (TornRecords (Belongs segsz given s)) base (d.write fd (writeLoop os w.buffer).1) s := by
        intro s
        refine (hw.files s).write fun hs => ?_
        obtain ⟨hs', hbelongs, hbuf⟩ := hw.buffered
        rw [hs, (hw.fd_segno fd hfd).1, hbuf]
        exact ⟨hs', hbelongs, writeLoop_prefix os _⟩
      simp only [flushPartitionWALWriter, if_neg hb, hfd]
      split
      · exact ⟨⟨fun fd' h => hfd ▸ hw.fd_segno fd' (hfd ▸ h), fun _ => rfl, Nat.zero_le _, whole_nil, hfiles⟩,
          fun _ => rfl⟩
      · refine ⟨⟨hw.fd_segno, hw.closed, hw.bound, hw.buffered, hfiles⟩, fun h => ?_⟩
        cases h

/-- Opening happens with an empty buffer; an open that fails leaves the descriptor closed. -/
theorem WriterRep.openSegment (hw : WriterRep segsz base given w d) (hb : w.buffer = []) (openOk : Bool) {segno : Nat}
    (hpos : 0 < segno) :
    WriterRep segsz base given (openWriterSegment openOk segno w d).writer (openWriterSegment openOk segno w d).dir ∧
      ((openWriterSegment openOk segno w d).raised = false →
        (openWriterSegment openOk segno w d).writer.currentSegno = segno ∧
          (openWriterSegment openOk segno w d).writer.fd ≠ none) := by
  have hempty : ∀ P, WholeRecords P w.buffer := fun P => hb ▸ whole_nil
  cases openOk with
  | false =>
    refine ⟨⟨fun fd h => ?_, fun _ => hb, hw.bound, hempty _, hw.files⟩, fun h => ?_⟩
    · cases h
    · cases h
  | true =>
    refine ⟨⟨fun fd h => ?_, fun h => ?_, hw.bound, hempty _, fun s => (hw.files s).openCreate segno⟩, fun _ => ?_⟩
    · obtain rfl := Option.some.inj h
      exact ⟨rfl, hpos⟩
    · cases h
    · exact ⟨rfl, Option.some_ne_none _⟩

/-- Whether the calls before the copy succeed or not; if they do, the record's segment is open. -/
theorem WriterRep.prepare (hw : WriterRep segsz base given w d) (io : RecordIO) (h : PartWALHeader) :
    WriterRep segsz base given (prepareSegment segsz io h w d).writer (prepareSegment segsz io h w d).dir ∧
      ((prepareSegment segsz io h w d).raised = false →
        (prepareSegment segsz io h w d).writer.currentSegno = segnoOf segsz h ∧
          (prepareSegment segsz io h w d).writer.fd ≠ none) := by
  have hpos := segnoOf_pos segsz h
  unfold prepareSegment
  split
  · obtain ⟨hflush, hempty⟩ := hw.flush io.switchFlush
    unfold WriterCall.andThen
    split
    · next hraised =>
      refine ⟨hflush, fun hok => ?_⟩
      rw [hraised] at hok
      cases hok
    · next hraised => exact hflush.openSegment (hempty (eq_false_of_ne_true hraised)) io.openOk hpos
  · next hsame =>
    split
    · next hfd => exact hw.openSegment (hw.closed hfd) io.openOk hpos
    · next hfd =>
      refine ⟨hw, fun _ => ⟨?_, hfd⟩⟩
      obtain ⟨fd, hfd⟩ := Option.ne_none_iff_exists'.mp hfd
      have hcur := (hw.fd_segno fd hfd).2
      by_contra hne
      exact hsame ⟨Nat.ne_of_gt hcur, fun h => hne h.symm⟩

/-- The copy finds room, and the segment of the record open. -/
theorem WriterRep.copy (hw : WriterRep segsz base given w d) (hgiven : h ∈ given)
    (hroom : w.buffer.length + headerSize ≤ parwalWriterBufferSize) (hcur : w.currentSegno = segnoOf segsz h)
    (hfd : w.fd ≠ none) :
    WriterRep segsz base given { w with buffer := w.buffer ++ h.encode, lastPartitionLsn := h.partitionLsn } d := by
  refine ⟨hw.fd_segno, fun hclosed => absurd hclosed hfd, ?_, ?_, hw.files⟩
  · rw [List.length_append, length_encode]
    exact hroom
  · exact hw.buffered.append (whole_encode ⟨hgiven, hcur.symm⟩)

theorem WriterRep.write (hw : WriterRep segsz base given w d) (io : RecordIO) (hgiven : h ∈ given) :
    WriterRep segsz base given (writePartitionWAL segsz io h w d).writer (writePartitionWAL segsz io h w d).dir := by
  obtain ⟨hprep, hopen⟩ := hw.prepare io h
  rw [writePartitionWAL]
  generalize prepareSegment segsz io h w d = c at *
  cases hraised : c.raised with
  | true => simpa only [WriterCall.andThen, hraised, if_true] using hprep
  | false =>
    obtain ⟨hcur, hfd⟩ := hopen hraised
    simp only [WriterCall.andThen, hraised, Bool.false_eq_true, if_false]
    split
    · -- the full buffer is flushed first
      obtain ⟨hflush, hempty⟩ := hprep.flush io.fullFlush
      split
      · exact hflush
      · next hok =>
        have hnil := hempty (eq_false_of_ne_true hok)
        obtain ⟨hfd', hcur'⟩ := flush_segment io.fullFlush c.writer c.dir
        refine hflush.copy hgiven ?_ (hcur'.trans hcur) (hfd' ▸ hfd)
        rw [hnil]
        decide
    · next hroom =>
      rw [if_neg Bool.false_ne_true]
      exact hprep.copy hgiven (Nat.le_of_not_lt hroom) hcur hfd

theorem WriterRep.restart (hw : WriterRep segsz base given w d) : WriterRep segsz base given w.restart d :=
  ⟨(fun _ hfd => by cases hfd), fun _ => rfl, Nat.zero_le _, whole_nil, hw.files⟩

theorem ShareRep.call (hv : ShareRep segsz base given v) {f : PartitionWALWriter → Dir → WriterCall}
    (hf : ∀ w, WriterRep segsz base given w v.2 → WriterRep segsz base given (f w v.2).writer (f w v.2).dir) :
    ShareRep segsz base given (v.call f) := by
  obtain ⟨writer, d⟩ := v
  cases writer with
  | none => exact hv
  | some w =>
    have hcall := hf w (hv.writer w rfl)
    exact ⟨fun u hu => Option.some.inj hu ▸ hcall, hcall.files⟩

/-- **One event.** -/
theorem ShareRep.step (hv : ShareRep segsz base given v) (pid : Oid) (e : WriterEvent) :
    ShareRep segsz base (given ++ e.record?.toList) (writerStep segsz pid v e) := by
  have hsub : ∀ h ∈ given, h ∈ given ++ e.record?.toList := fun h hh => List.mem_append_left _ hh
  have hmono := hv.mono hsub
  cases e with
  | create mkdirOk sc =>
    rw [writerStep]
    split
    · next w hw =>
      refine ⟨fun u hu => ?_, hmono.files⟩
      obtain rfl := Option.some.inj hu
      unfold createPartitionWALWriter at hw
      split at hw
      · obtain rfl := Option.some.inj hw
        exact ⟨(fun _ hfd => by cases hfd), fun _ => rfl, Nat.zero_le _, whole_nil, hmono.files⟩
      · cases hw
    · exact hmono
  | write h io => exact hmono.call fun w hw => hw.write io (List.mem_append_right _ (List.mem_singleton_self h))
  | flush os => exact hmono.call fun w hw => (hw.flush os).1
  | restart =>
    refine ⟨fun u hu => ?_, hmono.files⟩
    obtain ⟨w, hw, rfl⟩ := Option.map_eq_some_iff.mp hu
    exact (hmono.writer w hw).restart
  | unlink segno =>
    have hfiles := fun s => (hmono.files s).unlink segno
    exact ⟨fun u hu => ⟨(hmono.writer u hu).fd_segno, (hmono.writer u hu).closed, (hmono.writer u hu).bound,
      (hmono.writer u hu).buffered, hfiles⟩, hfiles⟩

end

theorem givenTo_append (es es' : List WriterEvent) : givenTo (es ++ es') = givenTo es ++ givenTo es' :=
  List.filterMap_append

theorem givenTo_singleton (e : WriterEvent) : givenTo [e] = e.record?.toList := by
  rw [givenTo]
  cases h : e.record? with
  | none => rw [List.filterMap_cons_none h, List.filterMap_nil, Option.toList_none]
  | some r => rw [List.filterMap_cons_some h, List.filterMap_nil, Option.toList_some]

theorem shareRep_run (segsz : WalSegSize) (pid : Oid) (d : Dir) (es : List WriterEvent) :
    ShareRep segsz d (givenTo es) (es.foldl (writerStep segsz pid) (none, d)) := by
  refine Run.run_history (writerStep segsz pid) (P := fun _ _ => True)
    (I := fun es v => ShareRep segsz d (givenTo es) v)
    ⟨(fun _ hw => by cases hw), fun s => ?_⟩ (fun done v e hv _ => ?_) (Run.along_of_forall _ fun _ _ => trivial)
  · exact ⟨d.content s, [], (List.append_nil _).symm, Or.inl rfl, inPieces_nil⟩
  · rw [givenTo_append, givenTo_singleton]
    exact hv.step pid e

/-- **The writer's representation.** From any directory, after every event of every run, however
the opens and writes end: the buffer holds whole records and is no longer than its array, there
is a descriptor of the file of `current_segno` if it is not empty, all its records belong to that
segment, and behind what the segment files held at the start there are only pieces that begin
records given for that segment. -/
theorem writer_representation (segsz : WalSegSize) (pid : Oid) (d : Dir) (es : List WriterEvent) :
    let v := es.foldl (writerStep segsz pid) (none, d)
    (∀ w ∈ v.1, headerSize ∣ w.buffer.length ∧ w.buffer.length ≤ parwalWriterBufferSize ∧
      (w.buffer ≠ [] → ∃ fd, w.fd = some fd ∧ fd.segno = w.currentSegno) ∧
      ∃ hs, w.buffer = encodeAll hs ∧ ∀ h ∈ hs, h ∈ givenTo es ∧ segnoOf segsz h = w.currentSegno) ∧
    ∀ s, FileFrom (TornRecords fun h => h ∈ givenTo es ∧ segnoOf segsz h = s) d v.2 s := by
  intro v
  have hv := shareRep_run segsz pid d es
  refine ⟨fun w hw => ?_, hv.files⟩
  have hrep := hv.writer w hw
  obtain ⟨hs, hbelongs, hbuf⟩ := hrep.buffered
  refine ⟨?_, hrep.bound, fun hne => ?_, hs, hbuf, hbelongs⟩
  · rw [hbuf, length_encodeAll]
    exact Nat.dvd_mul_right _ _
  · obtain ⟨fd, hfd⟩ := Option.ne_none_iff_exists'.mp (mt hrep.closed hne)
    exact ⟨fd, hfd, (hrep.fd_segno fd hfd).1⟩

end PartDist
