import PartDist.Redo
import PartDist.Writer

/-!
# Buffered and direct writing

A `PartitionWALWriter` from its creation to `DestroyPartitionWALWriter`
(partition_wal_writer.c), beside `WriteHeaderToFile` (partition_wal.c) called for each of
the records.

* `runOps_ok`: as long as no open and no write fails the calls accept every record.
* `buffered_direct`: in the end the same bytes are in the same files.
-/

namespace PartDist

open Bytes PartWALHeader

/-! ## Algorithm -/

/-- `close` and `pfree`: the writer is gone. -/
def destroyPartitionWALWriter (os : List WriteOutcome) (w : PartitionWALWriter) (d : Dir) : WriterCall :=
  (flushPartitionWALWriter os w d).andThen fun w d => { raised := false, writer := { w with fd := none }, dir := d }

inductive WriterOp
  | write (h : PartWALHeader) (io : RecordIO)
  | flush (os : List WriteOutcome)

def WriterOp.call (segsz : WalSegSize) : WriterOp → PartitionWALWriter → Dir → WriterCall
  | .write h io => writePartitionWAL segsz io h
  | .flush os => flushPartitionWALWriter os

/-- Up to the first error. -/
def runOps (segsz : WalSegSize) : List WriterOp → PartitionWALWriter → Dir → WriterCall
  | [], w, d => { raised := false, writer := w, dir := d }
  | op :: ops, w, d => (op.call segsz w d).andThen (runOps segsz ops)

def WriterOp.record? : WriterOp → Option PartWALHeader
  | .write h _ => some h
  | .flush _ => none

def writtenBy (ops : List WriterOp) : List PartWALHeader := ops.filterMap WriterOp.record?

/-- A writer's life, in `pg_parwal/<pid>/`; `none` if it cannot be created. -/
def writeBuffered (segsz : WalSegSize) (mkdirOk : Bool) (sc : ScanIO) (pid : Oid) (ops : List WriterOp)
    (os : List WriteOutcome) (pw : Parwal) : Option (Bool × Parwal) :=
  (createPartitionWALWriter mkdirOk sc pid (pw pid)).map fun w =>
    let c := (runOps segsz ops w (pw pid)).andThen (destroyPartitionWALWriter os)
    (c.raised, Function.update pw pid c.dir)

/-- `WriteHeaderToFile` for each of the records, in the directory of its partition. -/
def writeDirectly (segsz : WalSegSize) (hs : List PartWALHeader) (pw : Parwal) : Parwal :=
  hs.foldl (fun pw h => Function.update pw h.partitionId (writeHeaderToFile segsz h (pw h.partitionId))) pw

/-! ## Without errors -/

/-- Neither an open nor a write fails; interrupted and short writes are no failures. -/
def WriterOp.NoError : WriterOp → Prop
  | .write _ io => io.openOk = true ∧ NoWriteError io.switchFlush ∧ NoWriteError io.fullFlush
  | .flush os => NoWriteError os

/-- The writer and its directory hold `base` and the records `acc`, and there is a file for each. -/
structure Accepted (segsz : WalSegSize) (base : Dir) (mark : UInt64) (acc : List PartWALHeader)
    (w : PartitionWALWriter) (d : Dir) : Prop where
  inv : WriterInv segsz base mark acc w d
  names : d.names = base.names ∪ segnos segsz acc

section
variable {segsz : WalSegSize} {base d : Dir} {mark : UInt64} {acc : List PartWALHeader} {w : PartitionWALWriter}

theorem Accepted.flush (h : Accepted segsz base mark acc w d) {os : List WriteOutcome} (hos : NoWriteError os) :
    (flushPartitionWALWriter os w d).raised = false ∧ (flushPartitionWALWriter os w d).writer.buffer = [] ∧
      Accepted segsz base mark acc (flushPartitionWALWriter os w d).writer (flushPartitionWALWriter os w d).dir := by
  obtain ⟨hraised, hbuffer, -, -, -, hnames, hinv⟩ := flush_ok h.inv (.inr (hos w.buffer))
  exact ⟨hraised, hbuffer, hinv, hnames.trans h.names⟩

/-- One call. -/
theorem Accepted.call (h : Accepted segsz base mark acc w d) {op : WriterOp} (hop : op.NoError) :
    (op.call segsz w d).raised = false ∧
      Accepted segsz base mark (acc ++ op.record?.toList) (op.call segsz w d).writer (op.call segsz w d).dir := by
  cases op with
  | write r io =>
    obtain ⟨hopen, hswitch, hfull⟩ := hop
    have hok : PreCopyOk segsz io r w :=
      ⟨fun _ => .inr (hswitch w.buffer), fun _ => hopen, fun _ _ => hfull w.buffer⟩
    obtain ⟨hraised, -, hnames, hinv⟩ := writePartitionWAL_ok h.inv hok
    refine ⟨hraised, hinv, ?_⟩
    have hsegnos : segnos segsz (acc ++ [r]) = insert (segnoOf segsz r) (segnos segsz acc) := segnos_append segsz acc r
    rw [WriterOp.call, hnames, h.names, WriterOp.record?, Option.toList_some, hsegnos, Finset.union_insert]
  | flush os =>
    obtain ⟨hraised, -, hacc⟩ := h.flush hop
    rw [WriterOp.record?, Option.toList_none, List.append_nil]
    exact ⟨hraised, hacc⟩

/-- **All the calls.** -/
theorem runOps_ok (h : Accepted segsz base mark acc w d) {ops : List WriterOp} (hops : ∀ op ∈ ops, op.NoError) :
    (runOps segsz ops w d).raised = false ∧
      Accepted segsz base mark (acc ++ writtenBy ops) (runOps segsz ops w d).writer (runOps segsz ops w d).dir := by
  induction ops generalizing acc w d with
  | nil =>
    rw [writtenBy, List.filterMap_nil, List.append_nil]
    exact ⟨rfl, h⟩
  | cons op ops ih =>
    obtain ⟨hraised, hcall⟩ := h.call (hops op List.mem_cons_self)
    have hrest := ih hcall fun o ho => hops o (List.mem_cons_of_mem op ho)
    have hsplit : acc ++ writtenBy (op :: ops) = acc ++ op.record?.toList ++ writtenBy ops := by
      rw [List.append_assoc, writtenBy, writtenBy]
      cases hop : op.record? with
      | none => rw [List.filterMap_cons_none hop, Option.toList_none, List.nil_append]
      | some r => rw [List.filterMap_cons_some hop, Option.toList_some, List.singleton_append]
    rw [hsplit, runOps, WriterCall.andThen, if_neg (by rw [hraised]; exact Bool.false_ne_true)]
    exact hrest

/-- With an empty buffer everything is in the files. -/
theorem Accepted.dir_eq (h : Accepted segsz base mark acc w d) (hbuffer : w.buffer = []) :
    d = acc.foldl (fun d r => writeHeaderToFile segsz r d) base := by
  have hdirect : ∀ acc : List PartWALHeader,
      (acc.foldl (fun d r => writeHeaderToFile segsz r d) base).names = base.names ∪ segnos segsz acc ∧
        (∀ s, (acc.foldl (fun d r => writeHeaderToFile segsz r d) base).content s =
          base.content s ++ encodeAll (inSegment segsz s acc)) ∧
        (acc.foldl (fun d r => writeHeaderToFile segsz r d) base).unlinks = base.unlinks := by
    intro acc
    induction acc using List.reverseRecOn with
    | nil => exact ⟨by simp, fun s => by simp [inSegment], rfl⟩
    | append_singleton acc r ih =>
      obtain ⟨hnames, hcontent, hunlinks⟩ := ih
      rw [List.foldl_append, List.foldl_cons, List.foldl_nil, writeHeaderToFile_eq]
      refine ⟨?_, fun s => ?_, ?_⟩
      · rw [Dir.names_append, hnames, segnos_append, Finset.union_insert]
      · rw [Dir.content_append, hcontent, inSegment_append, encodeAll_append, List.append_assoc, inSegment_singleton]
        by_cases hs : s = segnoOf segsz r
        · rw [if_pos hs, if_pos hs, encodeAll_singleton]
        · rw [if_neg hs, if_neg hs, encodeAll_nil]
      · rw [Dir.unlinks_append, hunlinks]
  obtain ⟨hnames, hcontent, hunlinks⟩ := hdirect acc
  refine Dir.ext_content (h.names.trans hnames.symm) (fun s => ?_) (h.inv.unlinks.trans hunlinks.symm)
  have hbytes := h.inv.bytes s
  rw [hbuffer] at hbytes
  simp only [ite_self, List.append_nil] at hbytes
  rw [hbytes, hcontent]

end

/-- Records of one partition stay in its directory. -/
theorem writeDirectly_eq (segsz : WalSegSize) {pid : Oid} {hs : List PartWALHeader}
    (hpid : ∀ h ∈ hs, h.partitionId = pid) (pw : Parwal) :
    writeDirectly segsz hs pw =
      Function.update pw pid (hs.foldl (fun d h => writeHeaderToFile segsz h d) (pw pid)) := by
  induction hs generalizing pw with
  | nil => exact (Function.update_eq_self pid pw).symm
  | cons h hs ih =>
    have hrest := ih (fun a ha => hpid a (List.mem_cons_of_mem h ha))
      (Function.update pw pid (writeHeaderToFile segsz h (pw pid)))
    rw [Function.update_self, Function.update_idem] at hrest
    rw [writeDirectly, List.foldl_cons, hpid h List.mem_cons_self]
    exact hrest

/-- **Buffered writing is direct writing.** From any directory and a new writer, for records of
one partition in any order, with flushes anywhere, the destruction of the writer at the end and
no open or write error: no call raises an error, and pg_parwal is what `WriteHeaderToFile` for
each record makes of it. -/
theorem buffered_direct (segsz : WalSegSize) (sc : ScanIO) {pid : Oid} {ops : List WriterOp}
    {os : List WriteOutcome} (hpid : ∀ h ∈ writtenBy ops, h.partitionId = pid) (hops : ∀ op ∈ ops, op.NoError)
    (hos : NoWriteError os) (pw : Parwal) :
    writeBuffered segsz true sc pid ops os pw = some (false, writeDirectly segsz (writtenBy ops) pw) := by
  have hcreate : ∃ w, createPartitionWALWriter true sc pid (pw pid) = some w := ⟨_, rfl⟩
  obtain ⟨w, hw⟩ := hcreate
  have hstart : Accepted segsz (pw pid) (getLastWrittenPartitionLSN sc pid (pw pid)) [] w (pw pid) :=
    ⟨create_inv segsz hw, by simp⟩
  obtain ⟨hraised, hrun⟩ := runOps_ok hstart hops
  obtain ⟨hflushed, hbuffer, hend⟩ := hrun.flush hos
  rw [List.nil_append] at hend
  have hdir := hend.dir_eq hbuffer
  rw [writeBuffered, hw, Option.map_some, writeDirectly_eq segsz hpid, ← hdir]
  simp only [WriterCall.andThen, hraised, destroyPartitionWALWriter, hflushed, Bool.false_eq_true, if_false]

/-- Forth and back between two segments, a flush interrupted and cut short. -/
theorem buffered_direct_switch :
    let record (origNodeLsn : XLogRecPtr) (lsn : UInt64) : PartWALHeader :=
      ⟨partwalMagic, 7, origNodeLsn, lsn, partwalFlagData, 0⟩
    let io : RecordIO := ⟨true, Readdir.ascending, Readdir.ascending, Readdir.ascending, [.wrote 1], true, [.eintr], []⟩
    let ops : List WriterOp :=
      [.write (record 0x1000028 1) io, .flush [.eintr, .wrote 5], .write (record 0x2000028 2) io,
        .write (record 0 3) io]
    writeBuffered .default true Readdir.ascending 7 ops [.wrote 31] (fun _ => .empty) =
      some (false, writeDirectly .default [record 0x1000028 1, record 0x2000028 2, record 0 3] fun _ => .empty) := by
  intro record io ops
  have hio : io.openOk = true ∧ NoWriteError io.switchFlush ∧ NoWriteError io.fullFlush :=
    ⟨rfl, noWriteError_of_notMem (by decide), noWriteError_of_notMem (by decide)⟩
  refine buffered_direct .default Readdir.ascending (by decide) ?_ (noWriteError_of_notMem (by decide)) fun _ => .empty
  intro op hop
  simp only [ops, List.mem_cons, List.not_mem_nil, or_false] at hop
  rcases hop with rfl | rfl | rfl | rfl
  · exact hio
  · exact noWriteError_of_notMem (by decide)
  · exact hio
  · exact hio

end PartDist
