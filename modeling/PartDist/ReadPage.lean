import PartDist.SegmentNames
import PartDist.Lib.FileSystem
import PartDist.Lib.Run

/-!
# Reading pages of pg_wal

`DemuxReadPage`, `DemuxOpenSegment` and `DemuxCloseSegment` (demux_worker.c).  They keep
the file of one segment open under `ws_segno`, which the WAL reader sets to 0 when it
cannot decode a record.

* `readPage_spec`: a page is read from the file that was open, or from the one that has
  just been opened under the name of timeline 1.
* `pages_right_iff`: these are the pages of the server's segment files if and only if the
  server is on timeline 1.
-/

namespace PartDist

def xlogBlcksz : Nat := 8192

/-- An open file and the segment it was opened for. -/
structure WalFile where
  segno : Nat
  inode : Nat
deriving DecidableEq

/-- `state->seg`; `ws_file` is -1 for `none`. -/
structure WALOpenSegment where
  wsFile : Option WalFile
  wsSegno : Nat
  wsTli : TimeLineID
deriving DecidableEq

/-- `WALOpenSegmentInit`. -/
def WALOpenSegment.init : WALOpenSegment := ⟨none, 0, 0⟩

/-- Outcomes of `open`, `lseek` and `read`. -/
structure PageIO where
  openOk : Bool
  seekOk : Bool
  count : Option Nat

inductive PageResult
  | raised
  | failed
  | page (readBuf : Bytes)
deriving DecidableEq

/-! ## Algorithm -/

/-- Timeline 1, whatever the server's is.  True if it ends in an error. -/
def demuxOpenSegment (segsz : WalSegSize) (openOk : Bool) (pgWal : Disk CString) (nextSegNo : Nat)
    (seg : WALOpenSegment) : Bool × WALOpenSegment :=
  let tli : TimeLineID := 1
  match if openOk then pgWal.link (xlogFileName tli nextSegNo segsz) else none with
  | some i => (false, { wsFile := some ⟨nextSegNo, i⟩, wsSegno := nextSegNo, wsTli := tli })
  | none => (true, seg)

def demuxCloseSegment (seg : WALOpenSegment) : WALOpenSegment := { seg with wsFile := none }

def readOpenFile (io : PageIO) (pgWal : Disk CString) (offset : Nat) : Option WalFile → PageResult
  | none => .failed
  | some f =>
    if io.seekOk then
      match io.count with
      | some n => .page (((pgWal.data f.inode).drop offset).take (min n xlogBlcksz))
      | none => .failed
    else .failed

def demuxReadPage (segsz : WalSegSize) (io : PageIO) (pgWal : Disk CString) (targetPagePtr : XLogRecPtr)
    (seg : WALOpenSegment) : PageResult × WALOpenSegment :=
  let segno := targetPagePtr.toNat / segsz.bytes
  let opened :=
    if seg.wsFile = none ∨ seg.wsSegno ≠ segno then
      demuxOpenSegment segsz io.openOk pgWal segno (if seg.wsFile ≠ none then demuxCloseSegment seg else seg)
    else (false, seg)
  if opened.1 then (.raised, opened.2)
  else (readOpenFile io pgWal (targetPagePtr.toNat % segsz.bytes) opened.2.wsFile, opened.2)

/-- A page request with pg_wal as it is then, `XLogReaderInvalReadState` after a record that
cannot be decoded, and `DemuxCloseSegment`. -/
inductive ReaderEvent
  | read (pgWal : Disk CString) (io : PageIO) (targetPagePtr : XLogRecPtr)
  | invalidate
  | close

def readerStep (segsz : WalSegSize) (seg : WALOpenSegment) : ReaderEvent → WALOpenSegment
  | .read pgWal io targetPagePtr => (demuxReadPage segsz io pgWal targetPagePtr seg).2
  | .invalidate => { seg with wsSegno := 0 }
  | .close => demuxCloseSegment seg

/-! ## Right pages -/

/-- A call that returns a count has read from the position in the segment file of timeline `t`. -/
def RightPage (segsz : WalSegSize) (t : TimeLineID) (seg : WALOpenSegment) : ReaderEvent → Prop
  | .read pgWal io ptr => ∀ readBuf, (demuxReadPage segsz io pgWal ptr seg).1 = .page readBuf →
      ∃ file, pgWal.read (xlogFileName t (ptr.toNat / segsz.bytes) segsz) = some file ∧
        readBuf <+: file.drop (ptr.toNat % segsz.bytes)
  | .invalidate => True
  | .close => True

/-- When `ws_segno` is the segment of the page, an open file is still under its name; for a page
of segment 0 it is that segment's file. -/
def FileKept (segsz : WalSegSize) (seg : WALOpenSegment) : ReaderEvent → Prop
  | .read pgWal _ ptr => seg.wsSegno = ptr.toNat / segsz.bytes → ∀ f ∈ seg.wsFile,
      pgWal.link (xlogFileName 1 f.segno segsz) = some f.inode ∧ (seg.wsSegno = 0 → f.segno = 0)
  | .invalidate => True
  | .close => True

instance (segsz : WalSegSize) (seg : WALOpenSegment) : (e : ReaderEvent) → Decidable (FileKept segsz seg e)
  | .read pgWal _ ptr => inferInstanceAs (Decidable (seg.wsSegno = ptr.toNat / segsz.bytes → ∀ f ∈ seg.wsFile,
      pgWal.link (xlogFileName 1 f.segno segsz) = some f.inode ∧ (seg.wsSegno = 0 → f.segno = 0)))
  | .invalidate => isTrue trivial
  | .close => isTrue trivial

/-- The number of the open file's segment is `ws_segno`, unless that has been reset. -/
def SegnoKept (seg : WALOpenSegment) : Prop := ∀ f ∈ seg.wsFile, seg.wsSegno = f.segno ∨ seg.wsSegno = 0

section
variable {segsz : WalSegSize} {io : PageIO} {pgWal : Disk CString} {ptr : XLogRecPtr} {seg : WALOpenSegment}
  {readBuf : Bytes}

theorem demuxOpenSegment_spec (segsz : WalSegSize) (openOk : Bool) (pgWal : Disk CString) (segno : Nat)
    (seg : WALOpenSegment) :
    (∃ i, pgWal.link (xlogFileName 1 segno segsz) = some i ∧
        demuxOpenSegment segsz openOk pgWal segno seg = (false, ⟨some ⟨segno, i⟩, segno, 1⟩)) ∨
      demuxOpenSegment segsz openOk pgWal segno seg = (true, seg) := by
  cases openOk with
  | false => exact .inr rfl
  | true =>
    unfold demuxOpenSegment
    cases hlink : pgWal.link (xlogFileName 1 segno segsz) with
    | none =>
      simp only [hlink]
      exact .inr rfl
    | some i =>
      simp only [hlink]
      exact .inl ⟨i, rfl, rfl⟩

theorem readOpenFile_page {offset : Nat} {file : Option WalFile}
    (h : readOpenFile io pgWal offset file = .page readBuf) :
    ∃ f, file = some f ∧ readBuf <+: (pgWal.data f.inode).drop offset := by
  cases file with
  | none => cases h
  | some f =>
    refine ⟨f, rfl, ?_⟩
    simp only [readOpenFile] at h
    split at h
    · split at h
      · obtain rfl := PageResult.page.inj h
        exact List.take_prefix _ _
      · cases h
    · cases h

/-- What a request does: it keeps the file that is open, opens another, or fails to. -/
theorem demuxReadPage_spec (segsz : WalSegSize) (io : PageIO) (pgWal : Disk CString) (ptr : XLogRecPtr)
    (seg : WALOpenSegment) :
    (∃ f, seg.wsFile = some f ∧ seg.wsSegno = ptr.toNat / segsz.bytes ∧
        demuxReadPage segsz io pgWal ptr seg = (readOpenFile io pgWal (ptr.toNat % segsz.bytes) (some f), seg)) ∨
      (∃ i, pgWal.link (xlogFileName 1 (ptr.toNat / segsz.bytes) segsz) = some i ∧
        demuxReadPage segsz io pgWal ptr seg =
          (readOpenFile io pgWal (ptr.toNat % segsz.bytes) (some ⟨ptr.toNat / segsz.bytes, i⟩),
            ⟨some ⟨ptr.toNat / segsz.bytes, i⟩, ptr.toNat / segsz.bytes, 1⟩)) ∨
      demuxReadPage segsz io pgWal ptr seg = (.raised, demuxCloseSegment seg) := by
  unfold demuxReadPage
  by_cases hreopen : seg.wsFile = none ∨ seg.wsSegno ≠ ptr.toNat / segsz.bytes
  · have hclosed : (if seg.wsFile ≠ none then demuxCloseSegment seg else seg) = demuxCloseSegment seg := by
      split
      · rfl
      · next hnone =>
        obtain ⟨file, segno, tli⟩ := seg
        obtain rfl : file = none := not_not.mp hnone
        rfl
    simp only [if_pos hreopen, hclosed]
    rcases demuxOpenSegment_spec segsz io.openOk pgWal (ptr.toNat / segsz.bytes) (demuxCloseSegment seg) with
      ⟨i, hi, hopen⟩ | hraised
    · refine .inr (.inl ⟨i, hi, ?_⟩)
      rw [hopen]
      rfl
    · refine .inr (.inr ?_)
      rw [hraised]
      rfl
  · rw [not_or, not_not] at hreopen
    obtain ⟨hopen, hsegno⟩ := hreopen
    obtain ⟨f, hf⟩ := Option.ne_none_iff_exists'.mp hopen
    refine .inl ⟨f, hf, hsegno, ?_⟩
    have hkeep : ¬(seg.wsFile = none ∨ seg.wsSegno ≠ ptr.toNat / segsz.bytes) := fun h =>
      h.elim hopen fun hne => hne hsegno
    simp only [if_neg hkeep]
    rw [hf]
    rfl

theorem segnoKept_init : SegnoKept .init := fun f hf => by cases hf

theorem SegnoKept.step (h : SegnoKept seg) (segsz : WalSegSize) (e : ReaderEvent) :
    SegnoKept (readerStep segsz seg e) := by
  cases e with
  | read pgWal io ptr =>
    rw [readerStep]
    rcases demuxReadPage_spec segsz io pgWal ptr seg with ⟨f, -, -, hread⟩ | ⟨i, -, hread⟩ | hread
    · rw [hread]
      exact h
    · rw [hread]
      intro g hg
      exact .inl (congrArg WalFile.segno (Option.some.inj hg))
    · rw [hread]
      exact fun g hg => by cases hg
  | invalidate => exact fun f hf => .inr rfl
  | close => exact fun f hf => by cases hf

/-- **One request.** -/
theorem SegnoKept.rightPage (h : SegnoKept seg) {e : ReaderEvent} (hkept : FileKept segsz seg e) :
    RightPage segsz 1 seg e := by
  cases e with
  | read pgWal io ptr =>
    intro readBuf hpage
    rcases demuxReadPage_spec segsz io pgWal ptr seg with ⟨f, hf, hsegno, hread⟩ | ⟨i, hi, hread⟩ | hread
    · rw [hread] at hpage
      have hopen : readOpenFile io pgWal (ptr.toNat % segsz.bytes) (some f) = .page readBuf := hpage
      obtain ⟨g, hg, hprefix⟩ := readOpenFile_page hopen
      obtain rfl := Option.some.inj hg
      obtain ⟨hlink, hzero⟩ := hkept hsegno f hf
      have hown : f.segno = ptr.toNat / segsz.bytes := by
        rcases h f hf with hsame | hreset
        · exact hsame.symm.trans hsegno
        · exact (hzero hreset).trans (hreset.symm.trans hsegno)
      rw [hown] at hlink
      exact ⟨pgWal.data f.inode, by rw [Disk.read, hlink, Option.map_some], hprefix⟩
    · rw [hread] at hpage
      have hopen :
          readOpenFile io pgWal (ptr.toNat % segsz.bytes) (some ⟨ptr.toNat / segsz.bytes, i⟩) = .page readBuf :=
        hpage
      obtain ⟨g, hg, hprefix⟩ := readOpenFile_page hopen
      obtain rfl := Option.some.inj hg
      exact ⟨pgWal.data i, by rw [Disk.read, hi, Option.map_some], hprefix⟩
    · rw [hread] at hpage
      cases hpage
  | invalidate => trivial
  | close => trivial

end

/-- Every run. -/
theorem pages_right {segsz : WalSegSize} {es : List ReaderEvent}
    (h : Run.Along (readerStep segsz) (FileKept segsz) .init es) :
    Run.Along (readerStep segsz) (RightPage segsz 1) .init es :=
  Run.along_of_history (readerStep segsz) (I := fun _ seg => SegnoKept seg) segnoKept_init
    (fun _ _ e hseg _ => hseg.step segsz e) (fun _ _ _ hseg hkept => hseg.rightPage hkept) h

/-! ## Other timelines -/

/-- pg_wal with one segment file, segment 0 of timeline 1. -/
def firstTimelineWal (segsz : WalSegSize) : Disk CString where
  link name := if name = xlogFileName 1 0 segsz then some 0 else none
  data _ := [0x5a]

theorem xlogFileName_tli_ne {segsz : WalSegSize} {t t' : TimeLineID} {s : Nat} (hs : s / segsz.perXLogId < 2 ^ 32)
    (ht : t ≠ t') : xlogFileName t s segsz ≠ xlogFileName t' s segsz := by
  intro h
  have hread := congrArg (xlogFromFileName · segsz) h
  simp only [xlogFromFileName_xlogFileName t hs, xlogFromFileName_xlogFileName t' hs] at hread
  exact ht (congrArg Prod.fst hread)

/-- **Pages of pg_wal.** On a server with timeline `t`: in every run of requests, resets and
closings in which an open file stays under its name, and a page of segment 0 is not asked for
while another file is open under number 0, each page that is returned is from its position in
the segment file of timeline `t`, if and only if `t` is 1. -/
theorem pages_right_iff (segsz : WalSegSize) (t : TimeLineID) :
    (∀ es, Run.Along (readerStep segsz) (FileKept segsz) .init es →
      Run.Along (readerStep segsz) (RightPage segsz t) .init es) ↔ t = 1 := by
  constructor
  · intro h
    by_contra ht
    have hs : 0 / segsz.perXLogId < 2 ^ 32 := by
      rw [Nat.zero_div]
      decide
    have hrun := h [.read (firstTimelineWal segsz) ⟨true, true, some 1⟩ 0]
      ⟨(fun _ f hf => by cases hf), trivial⟩
    have hzero : (0 : XLogRecPtr).toNat / segsz.bytes = 0 := Nat.zero_div _
    have hzero' : (0 : XLogRecPtr).toNat % segsz.bytes = 0 := Nat.zero_mod _
    have hlink : (firstTimelineWal segsz).link (xlogFileName 1 0 segsz) = some 0 := if_pos rfl
    have hpage : (demuxReadPage segsz ⟨true, true, some 1⟩ (firstTimelineWal segsz) 0 .init).1 = .page [0x5a] := by
      unfold demuxReadPage
      simp only [hzero, hzero', WALOpenSegment.init, demuxOpenSegment, hlink]
      rfl
    obtain ⟨file, hfile, -⟩ := hrun.1 _ hpage
    have hnone : (firstTimelineWal segsz).link (xlogFileName t 0 segsz) = none := if_neg (xlogFileName_tli_ne hs ht)
    rw [hzero, Disk.read, hnone] at hfile
    cases hfile
  · rintro rfl
    exact fun es h => pages_right h

/-- Segments 1 and 2 of timeline 1. -/
def twoSegmentWal : Disk CString where
  link name :=
    if name = xlogFileName 1 1 .default then some 1
    else if name = xlogFileName 1 2 .default then some 2 else none
  data i := if i = 1 then [0xaa, 0xab] else [0xba, 0xbb]

/-- Two requests for a page of segment 1, a reset, and one for a page of segment 2. -/
def twoSegmentReads : List ReaderEvent :=
  [.read twoSegmentWal ⟨true, true, some 8192⟩ 0x1000000, .read twoSegmentWal ⟨true, true, some 1⟩ 0x1000001,
    .invalidate, .read twoSegmentWal ⟨true, true, some 8192⟩ 0x2000000]

/-- Each page is from its segment. -/
theorem pages_right_iff_two :
    Run.Along (readerStep .default) (RightPage .default 1) .init twoSegmentReads ∧
      Run.outputs (readerStep .default)
          (fun seg e => match e with
            | .read pgWal io ptr => some (demuxReadPage .default io pgWal ptr seg).1
            | _ => none) .init twoSegmentReads =
        [some (.page [0xaa, 0xab]), some (.page [0xab]), none, some (.page [0xba, 0xbb])] :=
  ⟨(pages_right_iff .default 1).mpr rfl twoSegmentReads (by decide +kernel), by decide +kernel⟩

/-- pg_wal of a promoted server: segment 1 of timeline 1, which it has left, and of timeline 2. -/
def promotedWal : Disk CString where
  link name :=
    if name = xlogFileName 1 1 .default then some 1
    else if name = xlogFileName 2 1 .default then some 2 else none
  data i := if i = 1 then [0xaa] else [0xbb]

/-- On timeline 2 a page of timeline 1 is returned; after a reset, one of segment 1 for
segment 0. -/
theorem wrong_pages :
    (demuxReadPage .default ⟨true, true, some 8192⟩ promotedWal 0x1000000 .init).1 = .page [0xaa] ∧
      promotedWal.read (xlogFileName 2 1 .default) = some [0xbb] ∧
      let seg := [ReaderEvent.read promotedWal ⟨true, true, some 8192⟩ 0x1000000, .invalidate].foldl
        (readerStep .default) .init
      (demuxReadPage .default ⟨true, true, some 8192⟩ promotedWal 0 seg).1 = .page [0xaa] ∧
        promotedWal.read (xlogFileName 1 0 .default) = none := by
  decide +kernel

end PartDist
