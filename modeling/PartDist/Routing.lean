import PartDist.Demux
import PartDist.Lib.HighWater
import PartDist.Lib.Run

/-!
# Routing a record to its partition

What one record, and one flush, do to a partition's share.

* `routeShare_taken`: a record above the watermark, met by a writer that is not
  stalled for it and whose calls up to the copy succeed, is accepted.
* `routeShare_not_taken`: any other record leaves what was accepted as it was.
* `clean_run_increasing`, `clean_run_solid`: without I/O failure a share accepts
  the records that the high-water mark lets through, and its directory holds
  exactly those behind what it started with.
-/

namespace PartDist

open Bytes PartWALHeader HighWater

/-! ## The share's invariant -/

/-- The share of partition `pid` holds the directory `base`, followed by `acc`. -/
def ShareInv (segsz : WalSegSize) (pid : Oid) (base : Dir) (mark : UInt64) (acc : List PartWALHeader)
    (v : Share) : Prop :=
  match v.1 with
  | none => v.2 = base ∧ acc = []
  | some w => w.partitionId = pid ∧ WriterInv segsz base mark acc w v.2

theorem WriterInv.stalled {segsz : WalSegSize} {base : Dir} {mark : UInt64} {acc : List PartWALHeader}
    {w : PartitionWALWriter} {d : Dir} (hw : WriterInv segsz base mark acc w d) (b : Bool) :
    WriterInv segsz base mark acc { w with enospcStalled := b } d :=
  ⟨hw.fd_ok, hw.segno_pos, hw.closed, hw.bytes, hw.grows, hw.last, hw.unlinks⟩

/-- The writer has nothing left to write and is not stalled. -/
def CleanWriter (w : PartitionWALWriter) : Prop := w.enospcStalled = false ∧ w.buffer = []

/-- What makes the writer `w` accept the record `h`: it is not stalled or will be
un-stalled, the record is above the watermark, the calls up to the copy succeed. -/
structure Taken (segsz : WalSegSize) (io : RecordIO) (h : PartWALHeader) (w : PartitionWALWriter)
    (d : Dir) : Prop where
  unstalls : w.enospcStalled = true →
    getLastWrittenPartitionLSN io.unstallScan h.partitionId d < h.partitionLsn
  above : w.lastPartitionLsn < h.partitionLsn
  calls : PreCopyOk segsz io h w

section
variable {segsz : WalSegSize} {pid : Oid} {base : Dir} {mark : UInt64} {acc : List PartWALHeader}
  {io : RecordIO} {h : PartWALHeader} {w : PartitionWALWriter} {d : Dir} {v : Share}

instance : Decidable (Taken segsz io h w d) :=
  decidable_of_iff
    ((w.enospcStalled = true →
        getLastWrittenPartitionLSN io.unstallScan h.partitionId d < h.partitionLsn) ∧
      w.lastPartitionLsn < h.partitionLsn ∧ PreCopyOk segsz io h w)
    ⟨fun h => ⟨h.1, h.2.1, h.2.2⟩, fun h => ⟨h.1, h.2, h.3⟩⟩

theorem writerFor_inv (hv : ShareInv segsz pid base mark acc v)
    (hmark : getLastWrittenPartitionLSN io.createScan pid base = mark) (hw : writerFor io pid v = some w) :
    w.partitionId = pid ∧ WriterInv segsz base mark acc w v.2 := by
  obtain ⟨wo, d⟩ := v
  unfold writerFor at hw
  cases wo with
  | some w' =>
    obtain rfl := Option.some.inj hw
    exact hv
  | none =>
    obtain ⟨rfl, rfl⟩ := hv
    have hc : createPartitionWALWriter io.mkdirOk io.createScan pid d = some w := hw
    have hinv := create_inv segsz hc
    rw [hmark] at hinv
    exact ⟨create_partitionId hc, hinv⟩

/-- Whatever the scan of its creation finds. -/
theorem writerFor_inv_any (hv : ShareInv segsz pid base mark acc v) (hw : writerFor io pid v = some w) :
    ∃ mark', w.partitionId = pid ∧ WriterInv segsz base mark' acc w v.2 := by
  obtain ⟨wo, d⟩ := v
  unfold writerFor at hw
  cases wo with
  | some w' =>
    obtain rfl := Option.some.inj hw
    exact ⟨mark, hv⟩
  | none =>
    obtain ⟨rfl, rfl⟩ := hv
    have hc : createPartitionWALWriter io.mkdirOk io.createScan pid d = some w := hw
    exact ⟨_, create_partitionId hc, create_inv _ hc⟩

/-- A writer that was just created has a closed descriptor and a clean slate. -/
theorem writerFor_fresh (hv : v.1 = none) (hw : writerFor io pid v = some w) :
    w.fd = none ∧ w.currentSegno = 0 ∧ CleanWriter w := by
  rw [writerFor, hv, Option.none_or] at hw
  unfold createPartitionWALWriter at hw
  split at hw
  · obtain rfl := Option.some.inj hw
    exact ⟨rfl, rfl, rfl, rfl⟩
  · cases hw

theorem writerFor_of_mkdir (hm : io.mkdirOk = true) (pid : Oid) (v : Share) :
    ∃ w, writerFor io pid v = some w := by
  obtain ⟨wo, d⟩ := v
  cases wo with
  | some w => exact ⟨w, rfl⟩
  | none =>
    rw [writerFor, Option.none_or, createPartitionWALWriter, if_pos hm]
    exact ⟨_, rfl⟩

/-- The watermark covers what was accepted, -/
theorem le_lastLsn (hinc : Increasing lsn acc) {a : PartWALHeader} (ha : a ∈ acc) :
    a.partitionLsn ≤ lastLsn mark acc := by
  obtain ⟨l, b, rfl⟩ := (List.eq_nil_or_concat acc).resolve_left (List.ne_nil_of_mem ha)
  rw [List.concat_eq_append] at *
  rw [lastLsn_append]
  rcases List.mem_append.mp ha with ha | ha
  · have hlt := (List.pairwise_append.mp hinc).2.2 a ha b List.mem_cons_self
    exact UInt64.le_iff_toNat_le.mpr (Nat.le_of_lt hlt)
  · obtain rfl := List.mem_singleton.mp ha
    exact UInt64.le_refl _

/-- and what it was at first. -/
theorem mark_le_lastLsn (habove : ∀ a ∈ acc, mark < a.partitionLsn) : mark ≤ lastLsn mark acc := by
  rcases List.eq_nil_or_concat acc with rfl | ⟨l, b, rfl⟩
  · exact UInt64.le_refl _
  · rw [List.concat_eq_append] at *
    rw [lastLsn_append]
    exact UInt64.le_of_lt (habove b (by simp))

/-! ## One record -/

/-- Reset detection does nothing while the files are there. -/
theorem resetDetect_eq {sc : ScanIO}
    (hr : h.partitionLsn = 1 → 0 < w.lastPartitionLsn →
      getLastWrittenPartitionLSN sc h.partitionId d ≠ 0) :
    resetDetect sc h w d = w := by
  unfold resetDetect
  split
  · next h1 => rw [if_neg (hr h1.1 h1.2)]
  · rfl

theorem preCopyOk_stalled {b : Bool} :
    PreCopyOk segsz io h { w with enospcStalled := b } ↔ PreCopyOk segsz io h w :=
  ⟨fun h => ⟨h.1, h.2, h.3⟩, fun h => ⟨h.1, h.2, h.3⟩⟩

theorem unstall_eq (sc : ScanIO) :
    unstall sc h w d = { w with
      enospcStalled := w.enospcStalled &&
        !decide (getLastWrittenPartitionLSN sc h.partitionId d < h.partitionLsn) } := by
  unfold unstall
  split
  · next hs =>
    split
    · next hlt => simp [hs, hlt]
    · next hlt =>
      cases w
      simp only at hs
      simp [hs, hlt]
  · next hs =>
    cases w
    simp only [Bool.not_eq_true] at hs
    simp [hs]

theorem flush_stalled (os : List WriteOutcome) (w : PartitionWALWriter) (d : Dir) :
    (flushPartitionWALWriter os w d).writer.enospcStalled = w.enospcStalled := by
  unfold flushPartitionWALWriter
  split
  · rfl
  · cases w.fd with
    | none => rfl
    | some fd => dsimp only; split <;> rfl

theorem writePartitionWAL_stalled (segsz : WalSegSize) (io : RecordIO) (h : PartWALHeader) (d : Dir)
    (hs : w.enospcStalled = false) :
    (writePartitionWAL segsz io h w d).writer.enospcStalled = false := by
  refine writePartitionWAL_keeps _ _ (P := fun v _ => v.enospcStalled = false)
    (fun os _ v d hv => (flush_stalled os v d).trans hv) (fun ok segno v d hv => ?_) (fun _ _ hv => hv) hs
  unfold openWriterSegment
  split
  · rfl
  · exact hv

theorem flush_caught (hw : WriterInv segsz base mark acc w d) {os : List WriteOutcome}
    (hos : ZeroByteFailure os) :
    WriterInv segsz base mark acc (flushPartitionWALWriter os w d).caught.1
        (flushPartitionWALWriter os w d).caught.2 ∧
      (flushPartitionWALWriter os w d).caught.2.names = d.names ∧
      (NoWriteError os →
        (flushPartitionWALWriter os w d).caught.1.buffer = [] ∧
          (flushPartitionWALWriter os w d).caught.1.enospcStalled = w.enospcStalled) := by
  by_cases hb : w.buffer = [] ∨ (writeLoop os w.buffer).2 = true
  · obtain ⟨hr, hbuf, -, -, hst, hn, hinv⟩ := flush_ok hw hb
    rw [caught_of_ok hr]
    exact ⟨hinv, hn, fun _ => ⟨hbuf, hst⟩⟩
  · rw [not_or, Bool.not_eq_true] at hb
    rw [flush_fail hw hos hb.1 hb.2, caught_of_raised rfl]
    refine ⟨hw.stalled true, rfl, fun hok => ?_⟩
    rw [hok] at hb
    exact absurd hb.2 (by decide)

/-- A record that meets the conditions goes through the calls of an accepted one. -/
theorem routeToWriter_of_taken (ht : Taken segsz io h (resetDetect io.resetScan h w d) d) :
    routeToWriter segsz io h w d =
      ((writePartitionWAL segsz io h { resetDetect io.resetScan h w d with enospcStalled := false } d).andThen
        (flushPartitionWALWriter io.flush)).caught := by
  have hun : unstall io.unstallScan h (resetDetect io.resetScan h w d) d =
      { resetDetect io.resetScan h w d with enospcStalled := false } := by
    rw [unstall_eq]
    congr 1
    cases hs : (resetDetect io.resetScan h w d).enospcStalled with
    | false => rfl
    | true => simp [ht.unstalls hs]
  simp only [routeToWriter, hun]
  rw [if_pos ⟨trivial, ht.above⟩]

/-- It is accepted; if the flush after it succeeds, the writer is clean again. -/
theorem routeToWriter_taken (hw : WriterInv segsz base mark acc (resetDetect io.resetScan h w d) d)
    (ht : Taken segsz io h (resetDetect io.resetScan h w d) d) (hfl : ZeroByteFailure io.flush) :
    WriterInv segsz base mark (acc ++ [h]) (routeToWriter segsz io h w d).1
        (routeToWriter segsz io h w d).2 ∧
      (routeToWriter segsz io h w d).2.names = insert (segnoOf segsz h) d.names ∧
      (NoWriteError io.flush → CleanWriter (routeToWriter segsz io h w d).1) := by
  rw [routeToWriter_of_taken ht]
  generalize resetDetect io.resetScan h w d = w at *
  obtain ⟨hraised, -, hn, hinv⟩ :=
    writePartitionWAL_ok (hw.stalled false) (preCopyOk_stalled.mpr ht.calls)
  have hst := writePartitionWAL_stalled segsz (w := { w with enospcStalled := false }) io h d rfl
  obtain ⟨hinv', hn', hclean⟩ := flush_caught hinv hfl
  rw [WriterCall.andThen, hraised]
  exact ⟨hinv', hn'.trans hn, fun hok => ⟨(hclean hok).2.trans hst, (hclean hok).1⟩⟩

/-- Any other record leaves what was accepted as it was. -/
theorem routeToWriter_not_taken (hw : WriterInv segsz base mark acc (resetDetect io.resetScan h w d) d)
    (ht : ¬ Taken segsz io h (resetDetect io.resetScan h w d) d) (hsw : ZeroByteFailure io.switchFlush)
    (hfull : ZeroByteFailure io.fullFlush) :
    WriterInv segsz base mark acc (routeToWriter segsz io h w d).1 (routeToWriter segsz io h w d).2 ∧
      (routeToWriter segsz io h w d).2.names = d.names ∧
      (CleanWriter (resetDetect io.resetScan h w d) →
        ¬ (resetDetect io.resetScan h w d).lastPartitionLsn < h.partitionLsn →
        CleanWriter (routeToWriter segsz io h w d).1) := by
  unfold routeToWriter
  dsimp only
  generalize resetDetect io.resetScan h w d = w at *
  have hclean : CleanWriter w → CleanWriter (unstall io.unstallScan h w d) := by
    rintro ⟨hs, hb⟩
    rw [unstall_eq]
    exact ⟨by simp [hs], hb⟩
  have hun : ∃ b, unstall io.unstallScan h w d = { w with enospcStalled := b } := ⟨_, unstall_eq _⟩
  split
  · next hacc =>
    have hcalls : ¬ PreCopyOk segsz io h w := by
      intro hcalls
      refine ht ⟨fun hs => ?_, ?_, hcalls⟩
      · have hfalse := hacc.1
        rw [unstall_eq] at hfalse
        simpa [hs] using hfalse
      · obtain ⟨b, hb⟩ := hun
        have habove := hacc.2
        rw [hb] at habove
        exact habove
    obtain ⟨b, hb⟩ := hun
    have habove := hacc.2
    rw [hb] at habove ⊢
    obtain ⟨hraised, hn, hinv⟩ :=
      writePartitionWAL_fail (hw.stalled b) hsw hfull fun hok => hcalls (preCopyOk_stalled.mp hok)
    rw [WriterCall.andThen, hraised, if_pos rfl, caught_of_raised hraised]
    exact ⟨hinv.stalled true, hn, fun _ hle => absurd habove hle⟩
  · obtain ⟨b, hb⟩ := hun
    refine ⟨?_, rfl, fun hc _ => hclean hc⟩
    rw [hb]
    exact hw.stalled b

/-- A reset before anything was accepted: the writer starts over on `base`. -/
theorem resetDetect_inv (io : RecordIO) (hw : WriterInv segsz base mark acc w d)
    (hnil : h.partitionLsn = 1 → acc = []) :
    ∃ mark', WriterInv segsz base mark' acc (resetDetect io.resetScan h w d) d := by
  unfold resetDetect
  split
  · next h1 =>
    split
    · obtain rfl := hnil h1.1
      have hbase : ∀ s, d.content s = base.content s := by
        intro s
        have hb := hw.bytes s
        rw [inSegment, List.filter_nil, encodeAll_nil, List.append_nil] at hb
        have hle := (hw.grows s).length_le
        have hlen := congrArg List.length hb
        rw [List.length_append] at hlen
        exact ((hw.grows s).eq_of_length (by omega)).symm
      refine ⟨0, ⟨fun fd hfd => ?_, fun hfd => absurd rfl hfd, fun _ => rfl, fun s => ?_, hw.grows, rfl,
        hw.unlinks⟩⟩
      · cases hfd
      · simp [inSegment, hbase s]
    · exact ⟨mark, hw⟩
  · exact ⟨mark, hw⟩

theorem routeShare_eq (hw : writerFor io h.partitionId v = some w) :
    routeShare segsz io h v =
      (some (routeToWriter segsz io h w v.2).1, (routeToWriter segsz io h w v.2).2) := by
  rw [routeShare, hw]

end

/-! ## Without I/O failure -/

/-- Every call that routing a record can make succeeds. -/
structure RecordIO.Ok (io : RecordIO) : Prop where
  mkdir : io.mkdirOk = true
  switch : NoWriteError io.switchFlush
  opened : io.openOk = true
  full : NoWriteError io.fullFlush
  flush : NoWriteError io.flush
  creates : io.createScan.Ok
  resets : io.resetScan.Ok
  unstalls : io.unstallScan.Ok

def RecordIO.succeeding (rd : Readdir) : RecordIO where
  mkdirOk := true
  createScan := rd
  resetScan := rd
  unstallScan := rd
  switchFlush := []
  openOk := true
  fullFlush := []
  flush := []

theorem RecordIO.ok_succeeding (rd : Readdir) : ( RecordIO.succeeding rd).Ok :=
  ⟨rfl, fun _ => rfl, rfl, fun _ => rfl, fun _ => rfl, fun _ => rfl, fun _ => rfl, fun _ => rfl⟩

def LoopEvent.Ok : LoopEvent → Prop
  | .record _ io => io.Ok
  | .caughtUp io => ∀ pid, NoWriteError (io pid)

theorem RecordIO.Ok.preCopy {io : RecordIO} (hio : io.Ok) (segsz : WalSegSize) (h : PartWALHeader)
    (w : PartitionWALWriter) : PreCopyOk segsz io h w :=
  ⟨fun _ => Or.inr (hio.switch _), fun _ => hio.opened, fun _ _ => hio.full _⟩

/-- The invariant of a share that has met no I/O failure: nothing is buffered and
nothing is stalled, so the directory holds all of `acc`. -/
structure CleanInv (segsz : WalSegSize) (pid : Oid) (base : Dir) (mark : UInt64)
    (acc : List PartWALHeader) (v : Share) : Prop where
  inv : ShareInv segsz pid base mark acc v
  clean : ∀ w, v.1 = some w → CleanWriter w
  names : v.2.names = base.names ∪ segnos segsz acc

section
variable {segsz : WalSegSize} {pid : Oid} {base : Dir} {mark : UInt64} {acc : List PartWALHeader}
  {io : RecordIO} {h : PartWALHeader} {w : PartitionWALWriter} {d : Dir} {v : Share}

theorem cleanInv_fresh (segsz : WalSegSize) (pid : Oid) (base : Dir) (mark : UInt64) :
    CleanInv segsz pid base mark [] (none, base) :=
  ⟨⟨rfl, rfl⟩, (fun _ h => nomatch h), by simp⟩

theorem CleanInv.content (hv : CleanInv segsz pid base mark acc v) (s : Nat) :
    v.2.content s = base.content s ++ encodeAll (inSegment segsz s acc) := by
  obtain ⟨wo, d⟩ := v
  cases wo with
  | none =>
    obtain ⟨rfl, rfl⟩ := hv.inv
    simp [inSegment]
  | some w =>
    have hbytes := hv.inv.2.bytes s
    rw [(hv.clean w rfl).2] at hbytes
    simpa using hbytes

theorem CleanInv.unlinks (hv : CleanInv segsz pid base mark acc v) : v.2.unlinks = base.unlinks := by
  obtain ⟨wo, d⟩ := v
  cases wo with
  | none => obtain ⟨rfl, rfl⟩ := hv.inv; rfl
  | some w => exact hv.inv.2.unlinks

theorem CleanInv.grown (hv : CleanInv segsz pid base mark acc v) : Dir.Grown segsz base acc v.2 :=
  ⟨hv.content, hv.names, hv.unlinks⟩

theorem CleanInv.cleanWriter (hv : CleanInv segsz pid base mark acc v) (hw : writerFor io pid v = some w) :
    CleanWriter w := by
  cases hv1 : v.1 with
  | none => exact (writerFor_fresh hv1 hw).2.2
  | some w' =>
    rw [writerFor, hv1, Option.some_or] at hw
    exact Option.some.inj hw ▸ hv.clean w' hv1

/-- A record: accepted when it is above the watermark. -/
theorem clean_route (hv : CleanInv segsz pid base mark acc v) (hio : io.Ok)
    (hmark : getLastWrittenPartitionLSN io.createScan pid base = mark) (hpid : h.partitionId = pid)
    (hr : h.partitionLsn = 1 → 0 < lastLsn mark acc →
      getLastWrittenPartitionLSN io.resetScan pid v.2 ≠ 0) :
    CleanInv segsz pid base mark (acc ++ accepted lsn (lastLsn mark acc).toNat [h])
      (routeShare segsz io h v) := by
  subst hpid
  obtain ⟨w, hw⟩ := writerFor_of_mkdir hio.mkdir h.partitionId v
  obtain ⟨hwp, hinv⟩ := writerFor_inv hv.inv hmark hw
  have hclean := hv.cleanWriter hw
  have hreset : resetDetect io.resetScan h w v.2 = w :=
    resetDetect_eq fun h1 h0 => hr h1 (by rwa [hinv.last] at h0)
  rw [routeShare_eq hw]
  by_cases habove : w.lastPartitionLsn < h.partitionLsn
  · have hlt : (lastLsn mark acc).toNat < h.lsn := by
      rw [← hinv.last]
      exact UInt64.lt_iff_toNat_lt.mp habove
    have ht : Taken segsz io h w v.2 :=
      ⟨fun hs => absurd (hclean.1.symm.trans hs) (by decide), habove, hio.preCopy segsz h w⟩
    obtain ⟨hinv', hn, hc⟩ := routeToWriter_taken (hreset.symm ▸ hinv) (hreset.symm ▸ ht)
      hio.flush.zeroByteFailure
    rw [accepted_cons_of_lt _ hlt, accepted_nil]
    refine ⟨⟨by rw [routeToWriter_partitionId, hwp], hinv'⟩, fun w' hw' => ?_, ?_⟩
    · obtain rfl := Option.some.inj hw'
      exact hc hio.flush
    · show (routeToWriter segsz io h w v.2).2.names = _
      rw [hn, hv.names, segnos_append, Finset.union_insert]
  · have hle : h.lsn ≤ (lastLsn mark acc).toNat := by
      rw [← hinv.last]
      exact UInt64.le_iff_toNat_le.mp (UInt64.not_lt.mp habove)
    obtain ⟨hinv', hn, hc⟩ := routeToWriter_not_taken (hreset.symm ▸ hinv)
      (fun ht => habove (hreset ▸ ht.above)) hio.switch.zeroByteFailure hio.full.zeroByteFailure
    rw [hreset] at hc
    rw [accepted_cons_of_le _ hle, accepted_nil, List.append_nil]
    refine ⟨⟨by rw [routeToWriter_partitionId, hwp], hinv'⟩, fun w' hw' => ?_, hn.trans hv.names⟩
    obtain rfl := Option.some.inj hw'
    exact hc hclean habove

/-- A flush of a clean share finds nothing to do. -/
theorem clean_flush (hv : CleanInv segsz pid base mark acc v) (os : List WriteOutcome) :
    flushShare os v = v := by
  obtain ⟨wo, d⟩ := v
  cases wo with
  | none => rfl
  | some w =>
    have hb := (hv.clean w rfl).2
    rw [flushShare, flush_of_nil hb, caught_of_ok rfl]

/-- The watermark is the high-water mark of what the run has let through. -/
theorem lastLsn_accepted (mark : UInt64) (hs : List PartWALHeader) :
    (lastLsn mark (accepted lsn mark.toNat hs)).toNat = HighWater.mark lsn mark.toNat hs := by
  rcases mark_eq lsn mark.toNat hs with ⟨hnil, hm⟩ | ⟨l', a, hacc, hm⟩
  · rw [hnil, hm, lastLsn_nil]
  · rw [hacc, hm, lastLsn_append]
    rfl

/-- On a stream in order it is a filter. -/
theorem accepted_eq_filter {hs : List PartWALHeader} (hinc : Increasing lsn hs) (mark : UInt64) :
    accepted lsn mark.toNat hs = hs.filter fun h => decide (mark < h.partitionLsn) := by
  rw [accepted_of_increasing lsn hinc]
  apply List.filter_congr
  intro h _
  rw [decide_eq_decide]
  exact UInt64.lt_iff_toNat_lt.symm

end

/-- The DATA records of `pid` that an event consumes. -/
theorem partHeaders_snoc (pid : Oid) (es : List LoopEvent) (e : LoopEvent) :
    partHeaders pid (walOf (es ++ [e])) = partHeaders pid (walOf es) ++ partHeaders pid (walOf [e]) := by
  simp [partHeaders, dataHeaders, walOf, List.filterMap_append]

theorem partHeaders_caughtUp (pid : Oid) (io : Oid → List WriteOutcome) :
    partHeaders pid (walOf [.caughtUp io]) = [] := rfl

theorem partHeaders_record (pid : Oid) (r : XLogRecord) (io : RecordIO) :
    partHeaders pid (walOf [.record r io]) =
      (r.dataHeader.toList).filter fun h => h.partitionId = pid := by
  cases hd : r.dataHeader <;> simp [partHeaders, dataHeaders, walOf, LoopEvent.record?, hd]

theorem partHeaders_of_mem {pid : Oid} {wal : List XLogRecord} {h : PartWALHeader}
    (hh : h ∈ partHeaders pid wal) : h.validFor pid = true := by
  obtain ⟨hd, hp⟩ := List.mem_filter.mp hh
  obtain ⟨r, -, hr⟩ := List.mem_filterMap.mp hd
  unfold XLogRecord.dataHeader at hr
  split at hr
  · split at hr
    · split at hr
      · next hm =>
        obtain rfl := Option.some.inj hr
        exact validFor_iff.mpr ⟨hm, by simpa using hp⟩
      · cases hr
    · cases hr
  · cases hr

section
variable {segsz : WalSegSize} {pid : Oid} {base : Dir} {mark : UInt64}

/-- The scans of writer creation and of reset detection find the watermark `mark`
in the directory the run starts on. -/
def ScansFind (pid : Oid) (base : Dir) (mark : UInt64) (es : List LoopEvent) : Prop :=
  ∀ r io, .record r io ∈ es → getLastWrittenPartitionLSN io.createScan pid base = mark ∧
    getLastWrittenPartitionLSN io.resetScan pid base = mark

theorem ScansFind.of_mem {es : List LoopEvent} (h : ScansFind pid base mark es) {e : LoopEvent}
    (he : e ∈ es) : ScansFind pid base mark [e] :=
  fun r io hm => h r io (List.mem_singleton.mp hm ▸ he)

/-- With at most 256 files they do, and it does not matter how they list them. -/
theorem scansFind_of_le {es : List LoopEvent} (hio : ∀ e ∈ es, e.Ok)
    (hfiles : base.names.card ≤ maxScanFiles) (rd : Readdir) :
    ScansFind pid base (getLastWrittenPartitionLSN rd pid base) es := by
  intro r io hm
  have hok : io.Ok := hio _ hm
  rw [hok.creates.eq, hok.resets.eq]
  exact ⟨getLast_readdir _ _ pid hfiles, getLast_readdir _ _ pid hfiles⟩

/-- One event, given that it does not trigger a reset. -/
theorem clean_step {done : List LoopEvent} {v : Share} {e : LoopEvent}
    (hv : CleanInv segsz pid base mark (accepted lsn mark.toNat (partHeaders pid (walOf done))) v)
    (hio : e.Ok)
    (hmark : ∀ r io, e = .record r io → getLastWrittenPartitionLSN io.createScan pid base = mark)
    (hr : ∀ r io h, e = .record r io → r.dataHeader = some h → h.partitionId = pid →
      h.partitionLsn = 1 →
      0 < lastLsn mark (accepted lsn mark.toNat (partHeaders pid (walOf done))) →
      getLastWrittenPartitionLSN io.resetScan pid v.2 ≠ 0) :
    CleanInv segsz pid base mark (accepted lsn mark.toNat (partHeaders pid (walOf (done ++ [e]))))
      (shareStep segsz pid v e) := by
  rw [partHeaders_snoc, accepted_append, ← lastLsn_accepted]
  cases e with
  | caughtUp io =>
    rw [shareStep, clean_flush hv, partHeaders_caughtUp, accepted_nil, List.append_nil]
    exact hv
  | record r io =>
    rw [partHeaders_record]
    simp only [shareStep]
    cases hd : r.dataHeader with
    | none =>
      rw [Option.toList_none, List.filter_nil, accepted_nil, List.append_nil]
      exact hv
    | some h =>
      rw [Option.toList_some]
      dsimp only
      by_cases hp : h.partitionId = pid
      · rw [if_pos hp, List.filter_cons_of_pos (by simpa using hp), List.filter_nil]
        exact clean_route hv hio (hmark r io rfl) hp (hr r io h rfl hd hp)
      · rw [if_neg hp, List.filter_cons_of_neg (by simpa using hp), List.filter_nil, accepted_nil,
          List.append_nil]
        exact hv

/-- On a stream in `partition_lsn` order no record triggers a reset: only the
first one above 0 can have `partition_lsn` 1, and by then nothing was written. -/
theorem clean_run_increasing (segsz : WalSegSize) {es : List LoopEvent} (hio : ∀ e ∈ es, e.Ok)
    (hmark : ScansFind pid base mark es)
    (hinc : Increasing lsn (partHeaders pid (walOf es))) :
    CleanInv segsz pid base mark (accepted lsn mark.toNat (partHeaders pid (walOf es)))
      (es.foldl (shareStep segsz pid) (none, base)) := by
  refine Run.run_history (shareStep segsz pid)
    (P := fun _ e => e.Ok ∧ ScansFind pid base mark [e])
    (I := fun done v => Increasing lsn (partHeaders pid (walOf done)) →
      CleanInv segsz pid base mark (accepted lsn mark.toNat (partHeaders pid (walOf done))) v)
    (fun _ => cleanInv_fresh segsz pid base mark) ?_
    (Run.along_of_forall _ fun e he => ⟨hio e he, hmark.of_mem he⟩) hinc
  rintro done v e hv ⟨hok, hm⟩ hinc
  rw [partHeaders_snoc] at hinc
  obtain ⟨hdone, -, hlt⟩ := List.pairwise_append.mp hinc
  have hv := hv hdone
  refine clean_step hv hok (fun r io he => (hm r io (by rw [he]; exact List.mem_cons_self)).1) ?_
  rintro r io h rfl hd hp h1 h0
  have hmem : h ∈ partHeaders pid (walOf [.record r io]) := by
    rw [partHeaders_record, hd]
    simpa using hp
  have hnil : accepted lsn mark.toNat (partHeaders pid (walOf done)) = [] := by
    apply accepted_eq_nil
    intro a ha
    have hlt := hlt a ha h hmem
    have hone : h.lsn = 1 := by rw [lsn, h1]; rfl
    omega
  rw [hnil] at hv h0
  rw [hv.grown.eq_of_nil, (hm r io List.mem_cons_self).2]
  exact UInt64.pos_iff_ne_zero.mp h0

theorem accepted_valid {wal : List XLogRecord} {m : Nat} {h : PartWALHeader}
    (hh : h ∈ accepted lsn m (partHeaders pid wal)) : h.validFor pid ∧ h.partitionLsn ≠ 0 := by
  refine ⟨partHeaders_of_mem ((accepted_sublist lsn m _).subset hh), fun h0 => ?_⟩
  have hlt := (accepted_increasing lsn m _).1 h hh
  rw [lsn, h0] at hlt
  exact absurd hlt (Nat.not_lt_zero m)

/-- On a directory the Demux itself has left no record triggers a reset, in
whatever order the records come. -/
theorem clean_run_solid (segsz : WalSegSize) {es : List LoopEvent} (hb : base.Solid pid) (hio : ∀ e ∈ es, e.Ok)
    (hmark : ScansFind pid base mark es) :
    CleanInv segsz pid base mark (accepted lsn mark.toNat (partHeaders pid (walOf es)))
      (es.foldl (shareStep segsz pid) (none, base)) := by
  refine Run.run_history (shareStep segsz pid)
    (P := fun _ e => e.Ok ∧ ScansFind pid base mark [e])
    (I := fun done v =>
      CleanInv segsz pid base mark (accepted lsn mark.toNat (partHeaders pid (walOf done))) v)
    (cleanInv_fresh segsz pid base mark) ?_
    (Run.along_of_forall _ fun e he => ⟨hio e he, hmark.of_mem he⟩)
  rintro done v e hv ⟨hok, hm⟩
  refine clean_step hv hok (fun r io he => (hm r io (by rw [he]; exact List.mem_cons_self)).1) ?_
  rintro r io h rfl - - - h0
  rw [hok.resets.eq]
  apply (hv.grown.solid hb fun h hh => accepted_valid hh).scan_ne_zero
  rw [hv.names]
  -- a watermark above 0 comes from a record on disk
  by_cases hacc : accepted lsn mark.toNat (partHeaders pid (walOf done)) = []
  · rw [hacc, lastLsn_nil, ← (hm r io List.mem_cons_self).1] at h0
    refine Finset.Nonempty.mono Finset.subset_union_left (Finset.nonempty_iff_ne_empty.mpr ?_)
    intro hempty
    rw [getLast_empty _ hempty] at h0
    exact absurd h0 (by decide)
  · obtain ⟨a, ha⟩ := List.exists_mem_of_ne_nil _ hacc
    refine ⟨segnoOf segsz a, Finset.mem_union_right _ ?_⟩
    exact List.mem_toFinset.mpr (List.mem_map_of_mem ha)

end

end PartDist
