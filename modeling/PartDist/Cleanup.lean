import PartDist.Server

/-!
# Garbage collection

`CleanupPartitionWAL` (partition_wal.c) unlinks the segment files that end at or before
`keepPtr`, also while the Demux has one of them open: its writer goes on appending to a
file no name reaches.

* `segEnd_le_iff`: a file goes exactly when no record it may hold lies at or above `keepPtr`.
* `route_cases`: what routing a record does to a writer with nothing buffered.
* `Collected.inv_step`, `cleanup_safe_complete`: the writer's file is the one under its
  name, or ends at or before some `keepPtr` used; so what it writes above all of them stays.
-/

namespace PartDist

open Bytes PartWALHeader

/-! ## One call -/

section
variable {segsz : WalSegSize} {keepPtr : XLogRecPtr} {rd : Readdir} {unlinkOk : Nat → Bool} {d : Dir} {s : Nat}

/-- The files a call unlinks. -/
def Expired (segsz : WalSegSize) (keepPtr : XLogRecPtr) (unlinkOk : Nat → Bool) (s : Nat) : Prop :=
  segEnd segsz s ≤ keepPtr ∧ unlinkOk s = true

instance : Decidable (Expired segsz keepPtr unlinkOk s) := inferInstanceAs (Decidable (_ ∧ _))

theorem mem_names_cleanup :
    s ∈ (cleanupPartitionWAL segsz keepPtr rd unlinkOk d).names ↔
      s ∈ d.names ∧ ¬ Expired segsz keepPtr unlinkOk s := by
  rw [cleanupPartitionWAL, Dir.unlink_foldl.1, rd.mem_order]
  exact ⟨fun ⟨hs, hn⟩ => ⟨hs, fun hP => hn ⟨hs, hP⟩⟩, fun ⟨hs, hP⟩ => ⟨hs, fun h => hP h.2⟩⟩

theorem content_cleanup (hs : ¬ Expired segsz keepPtr unlinkOk s) :
    (cleanupPartitionWAL segsz keepPtr rd unlinkOk d).content s = d.content s :=
  (Dir.unlink_foldl.2 fun h => hs h.2).1

theorem unlinks_cleanup (hs : ¬ Expired segsz keepPtr unlinkOk s) :
    (cleanupPartitionWAL segsz keepPtr rd unlinkOk d).unlinks s = d.unlinks s :=
  (Dir.unlink_foldl.2 fun h => hs h.2).2

theorem unlinks_expired (hs : s ∈ d.names) (hex : Expired segsz keepPtr unlinkOk s) :
    d.unlinks s < (cleanupPartitionWAL segsz keepPtr rd unlinkOk d).unlinks s :=
  Dir.unlinks_foldl.2 ((rd.mem_order _ _).mpr hs) hex

theorem content_expired (hs : Expired segsz keepPtr unlinkOk s) :
    (cleanupPartitionWAL segsz keepPtr rd unlinkOk d).content s = [] :=
  Dir.content_of_notMem fun h => (mem_names_cleanup.mp h).2 hs

theorem whole_cleanup (hd : d.Whole) : (cleanupPartitionWAL segsz keepPtr rd unlinkOk d).Whole := by
  intro s
  by_cases hs : Expired segsz keepPtr unlinkOk s
  · rw [content_expired hs]
    exact Nat.dvd_zero _
  · rw [content_cleanup hs]
    exact hd s

theorem linked_cleanup {fd : Descriptor} (hfd : d.linked fd) (hs : ¬ Expired segsz keepPtr unlinkOk fd.segno) :
    (cleanupPartitionWAL segsz keepPtr rd unlinkOk d).linked fd :=
  ⟨hfd.1.trans (unlinks_cleanup hs).symm, mem_names_cleanup.mpr ⟨hfd.2, hs⟩⟩

/-! ## Which files go -/

/-- Its position lies below the last segment of the 64-bit WAL. -/
def BelowLastSegment (segsz : WalSegSize) (h : PartWALHeader) : Prop :=
  h.origNodeLsn.toNat + segsz.bytes < 2 ^ 64

instance (h : PartWALHeader) : Decidable (BelowLastSegment segsz h) := inferInstanceAs (Decidable (_ < _))

theorem WalSegSize.dvd (segsz : WalSegSize) : segsz.bytes ∣ 2 ^ 64 := by
  obtain ⟨k, -, hk, he⟩ := segsz.valid
  rw [he]
  exact Nat.pow_dvd_pow 2 (by omega)

theorem WalSegSize.bounds (segsz : WalSegSize) : 2 ^ 20 ≤ segsz.bytes ∧ segsz.bytes ≤ 2 ^ 30 := by
  obtain ⟨k, hk, hk', he⟩ := segsz.valid
  rw [he]
  exact ⟨Nat.pow_le_pow_right (by omega) hk, Nat.pow_le_pow_right (by omega) hk'⟩

variable {h : PartWALHeader}

/-- There is another segment behind the record's. -/
theorem segnoOf_next (hb : BelowLastSegment segsz h) : (segnoOf segsz h + 2) * segsz.bytes ≤ 2 ^ 64 := by
  obtain ⟨q, hq⟩ := segsz.dvd
  obtain ⟨hlo, hhi⟩ := segsz.bounds
  have hpos : 0 < segsz.bytes := by omega
  have hle : segnoOf segsz h + 2 ≤ q := by
    rw [segnoOf_eq]
    have hdiv := Nat.div_mul_le_self h.origNodeLsn.toNat segsz.bytes
    have hlt : (h.origNodeLsn.toNat / segsz.bytes + 1) * segsz.bytes < segsz.bytes * q := by
      rw [← hq, Nat.add_mul]
      unfold BelowLastSegment at hb
      omega
    rw [Nat.mul_comm] at hlt
    have := Nat.lt_of_mul_lt_mul_left hlt
    have hq3 : 3 ≤ q := by
      by_contra h3
      have := Nat.mul_le_mul hhi (show q ≤ 2 by omega)
      omega
    omega
  calc (segnoOf segsz h + 2) * segsz.bytes ≤ q * segsz.bytes := Nat.mul_le_mul_right _ hle
    _ = 2 ^ 64 := by rw [hq, Nat.mul_comm]

theorem segEnd_toNat (hb : BelowLastSegment segsz h) :
    (segEnd segsz (segnoOf segsz h)).toNat = (segnoOf segsz h + 1) * segsz.bytes := by
  have hnext := segnoOf_next hb
  have hlo := segsz.bounds.1
  rw [Nat.add_mul] at hnext
  rw [segEnd, UInt64.toNat_ofNat_of_lt']
  rw [Nat.add_mul]
  simp only [UInt64.size]
  omega

/-- A record lies before the end of its segment, -/
theorem lt_segEnd (hb : BelowLastSegment segsz h) : h.origNodeLsn < segEnd segsz (segnoOf segsz h) := by
  rw [UInt64.lt_iff_toNat_lt, segEnd_toNat hb]
  have hpos : 0 < segsz.bytes := by have := segsz.bounds.1; omega
  have hle : h.origNodeLsn.toNat / segsz.bytes ≤ segnoOf segsz h := by
    rw [segnoOf_eq]
    exact Nat.le_max_right _ _
  exact Nat.lt_of_lt_of_le (Nat.lt_mul_of_div_lt (Nat.lt_succ_of_le hle) hpos) (Nat.le_refl _)

/-- and some record may lie right before it. -/
theorem exists_last_record (hb : BelowLastSegment segsz h) :
    ∃ a : PartWALHeader, BelowLastSegment segsz a ∧ segnoOf segsz a = segnoOf segsz h ∧
      a.origNodeLsn.toNat + 1 = (segEnd segsz (segnoOf segsz h)).toNat := by
  have hnext := segnoOf_next hb
  have hpos : 0 < segsz.bytes := by have := segsz.bounds.1; omega
  have hseg := segnoOf_pos segsz h
  rw [segEnd_toNat hb]
  generalize segnoOf segsz h = s at *
  have hend : (s + 2) * segsz.bytes = (s + 1) * segsz.bytes + segsz.bytes := by ring
  have hin : (s + 1) * segsz.bytes = s * segsz.bytes + segsz.bytes := by ring
  have horig : (UInt64.ofNat ((s + 1) * segsz.bytes - 1)).toNat = (s + 1) * segsz.bytes - 1 :=
    UInt64.toNat_ofNat_of_lt' (by simp only [UInt64.size]; omega)
  refine ⟨buildHeader 0 0 (UInt64.ofNat ((s + 1) * segsz.bytes - 1)) 0, ?_, ?_, ?_⟩
  · rw [BelowLastSegment, buildHeader_origNodeLsn, horig]
    omega
  · rw [segnoOf_eq, buildHeader_origNodeLsn, horig]
    have hdiv : ((s + 1) * segsz.bytes - 1) / segsz.bytes = s := by
      apply Nat.div_eq_of_lt_le
      · omega
      · rw [Nat.succ_mul]
        omega
    rw [hdiv]
    omega
  · rw [buildHeader_origNodeLsn, horig]
    omega

/-- A file ends at or before `keepPtr` exactly when all records it may hold lie before it. -/
theorem segEnd_le_iff (hb : BelowLastSegment segsz h) :
    segEnd segsz (segnoOf segsz h) ≤ keepPtr ↔
      ∀ a, BelowLastSegment segsz a → segnoOf segsz a = segnoOf segsz h → a.origNodeLsn < keepPtr := by
  constructor
  · intro hle a ha hs
    exact UInt64.lt_of_lt_of_le (hs ▸ lt_segEnd ha) hle
  · intro hall
    obtain ⟨a, ha, hs, hlast⟩ := exists_last_record hb
    have hlt := UInt64.lt_iff_toNat_lt.mp (hall a ha hs)
    rw [UInt64.le_iff_toNat_le]
    omega

end

/-! ## One record -/

/-- `WritePartitionWAL` and the flush after it are called for the record, and both return. -/
def writesRecord (segsz : WalSegSize) (io : RecordIO) (h : PartWALHeader) (w : PartitionWALWriter) (d : Dir) :
    Bool :=
  let w := unstall io.unstallScan h (resetDetect io.resetScan h w d) d
  decide (w.enospcStalled = false ∧ w.lastPartitionLsn < h.partitionLsn) &&
    !((writePartitionWAL segsz io h w d).andThen (flushPartitionWALWriter io.flush)).raised

/-- Nothing is buffered; what is open is the segment the writer says. -/
structure PartitionWALWriter.Settled (w : PartitionWALWriter) : Prop where
  buffer : w.buffer = []
  opened : ∀ fd, w.fd = some fd → fd.segno = w.currentSegno ∧ 0 < w.currentSegno

/-- Where the record's segment is open: as it was left, or opened for it because nothing
or another segment was. -/
def OpenedFor (segsz : WalSegSize) (h : PartWALHeader) (w : PartitionWALWriter) (d : Dir) (fd : Descriptor)
    (d' : Dir) : Prop :=
  (w.fd = some fd ∧ d' = d) ∨
    ((∀ fd', w.fd = some fd' → fd'.segno ≠ segnoOf segsz h) ∧
      fd = d.descriptor (segnoOf segsz h) ∧ d' = d.openCreate (segnoOf segsz h))

section
variable {segsz : WalSegSize} {io : RecordIO} {h : PartWALHeader} {w : PartitionWALWriter} {d : Dir}

theorem settled_unstall (hw : w.Settled) (sc : ScanIO) : (unstall sc h w d).Settled := by
  rw [unstall_eq]
  exact ⟨hw.buffer, hw.opened⟩

theorem settled_reset (hw : w.Settled) (sc : ScanIO) :
    (resetDetect sc h w d).Settled ∧ ((resetDetect sc h w d).fd = none ∨ (resetDetect sc h w d).fd = w.fd) := by
  unfold resetDetect
  split
  · split
    · exact ⟨⟨rfl, (fun _ hfd => nomatch hfd)⟩, Or.inl rfl⟩
    · exact ⟨hw, Or.inr rfl⟩
  · exact ⟨hw, Or.inr rfl⟩

theorem open_cases (hw : w.Settled) (hne : ∀ fd, w.fd = some fd → fd.segno ≠ segnoOf segsz h) (openOk : Bool) :
    ((openWriterSegment openOk (segnoOf segsz h) w d).raised = true ∧
        (openWriterSegment openOk (segnoOf segsz h) w d).dir = d ∧
        (openWriterSegment openOk (segnoOf segsz h) w d).writer.Settled ∧
        (openWriterSegment openOk (segnoOf segsz h) w d).writer.fd = none) ∨
      ((openWriterSegment openOk (segnoOf segsz h) w d).raised = false ∧
        (openWriterSegment openOk (segnoOf segsz h) w d).writer.Settled ∧
        (openWriterSegment openOk (segnoOf segsz h) w d).writer.enospcStalled = false ∧
        ∃ fd, (openWriterSegment openOk (segnoOf segsz h) w d).writer.fd = some fd ∧
          fd.segno = segnoOf segsz h ∧
          OpenedFor segsz h w d fd (openWriterSegment openOk (segnoOf segsz h) w d).dir) := by
  cases openOk with
  | false => exact Or.inl ⟨rfl, rfl, ⟨hw.buffer, (fun _ hfd => nomatch hfd)⟩, rfl⟩
  | true =>
    refine Or.inr ⟨rfl, ⟨hw.buffer, fun fd hfd => ?_⟩, rfl, d.descriptor (segnoOf segsz h), rfl, rfl,
      Or.inr ⟨hne, rfl, rfl⟩⟩
    obtain rfl := Option.some.inj hfd
    exact ⟨rfl, segnoOf_pos segsz h⟩

theorem encode_ne_nil (h : PartWALHeader) : h.encode ≠ [] := by
  intro hnil
  have hlen := length_encode h
  rw [hnil] at hlen
  cases hlen

/-- With nothing to flush the record's segment is opened unless it is open. -/
theorem prepare_cases (hw : w.Settled) (hstalled : w.enospcStalled = false) :
    ((prepareSegment segsz io h w d).raised = true ∧ (prepareSegment segsz io h w d).dir = d ∧
        (prepareSegment segsz io h w d).writer.Settled ∧ (prepareSegment segsz io h w d).writer.fd = none) ∨
      ((prepareSegment segsz io h w d).raised = false ∧ (prepareSegment segsz io h w d).writer.Settled ∧
        (prepareSegment segsz io h w d).writer.enospcStalled = false ∧
        ∃ fd, (prepareSegment segsz io h w d).writer.fd = some fd ∧ fd.segno = segnoOf segsz h ∧
          OpenedFor segsz h w d fd (prepareSegment segsz io h w d).dir) := by
  by_cases hs : w.switches segsz h
  · rw [prepareSegment, if_pos hs, flush_of_nil hw.buffer]
    refine open_cases hw (fun fd hfd hseg => hs.2 ?_) io.openOk
    rw [← hseg, (hw.opened fd hfd).1]
  · rw [prepareSegment, if_neg hs]
    cases hfd : w.fd with
    | none =>
      rw [if_pos rfl]
      refine open_cases hw (fun fd h => ?_) io.openOk
      rw [hfd] at h
      cases h
    | some fd =>
      rw [if_neg (Option.some_ne_none fd)]
      obtain ⟨hseg, hpos⟩ := hw.opened fd hfd
      have hcur : segnoOf segsz h = w.currentSegno := by
        by_contra hne
        exact hs ⟨Nat.pos_iff_ne_zero.mp hpos, hne⟩
      exact Or.inr ⟨rfl, hw, hstalled, fd, hfd, hseg.trans hcur.symm, Or.inl ⟨hfd, rfl⟩⟩

/-- A record is not written and the directory stays, or it is written to its segment's
file, through the descriptor the writer has then. -/
theorem route_cases (hw : w.Settled) (hio : NoWriteError io.flush) :
    (writesRecord segsz io h w d = false ∧ (routeToWriter segsz io h w d).2 = d ∧
        (routeToWriter segsz io h w d).1.Settled ∧
        ((routeToWriter segsz io h w d).1.fd = none ∨ (routeToWriter segsz io h w d).1.fd = w.fd)) ∨
      (writesRecord segsz io h w d = true ∧ (routeToWriter segsz io h w d).1.Settled ∧
        (routeToWriter segsz io h w d).1.enospcStalled = false ∧
        (routeToWriter segsz io h w d).1.lastPartitionLsn = h.partitionLsn ∧
        ∃ fd d', (routeToWriter segsz io h w d).1.fd = some fd ∧ fd.segno = segnoOf segsz h ∧
          OpenedFor segsz h (resetDetect io.resetScan h w d) d fd d' ∧
          (routeToWriter segsz io h w d).2 = d'.write fd h.encode) := by
  obtain ⟨hreset, hfd⟩ := settled_reset (h := h) (d := d) hw io.resetScan
  have hun : ∃ b, unstall io.unstallScan h (resetDetect io.resetScan h w d) d =
      { resetDetect io.resetScan h w d with enospcStalled := b } := ⟨_, unstall_eq _⟩
  have hset := settled_unstall (h := h) (d := d) hreset io.unstallScan
  unfold routeToWriter writesRecord
  dsimp only
  obtain ⟨b, hb⟩ := hun
  have hfd' : (unstall io.unstallScan h (resetDetect io.resetScan h w d) d).fd =
      (resetDetect io.resetScan h w d).fd := by rw [hb]
  generalize unstall io.unstallScan h (resetDetect io.resetScan h w d) d = v at *
  by_cases hacc : v.enospcStalled = false ∧ v.lastPartitionLsn < h.partitionLsn
  · rw [if_pos hacc, decide_eq_true hacc, Bool.true_and]
    rcases @prepare_cases segsz io h v d hset hacc.1 with
      ⟨hraised, hdir, hsettled, hnone⟩ | ⟨hraised, hsettled, hstalled, fd, hsome, hseg, hopened⟩
    · -- the segment cannot be opened
      simp only [writePartitionWAL, WriterCall.andThen, hraised, if_true, WriterCall.caught, Bool.not_true]
      exact Or.inl ⟨trivial, hdir, ⟨hsettled.buffer, hsettled.opened⟩, Or.inl hnone⟩
    · have hroom : ¬ ([] : Bytes).length + headerSize > parwalWriterBufferSize := by decide
      simp only [writePartitionWAL, WriterCall.andThen, hraised, Bool.false_eq_true, if_false, hsettled.buffer,
        hroom, List.nil_append, flushPartitionWALWriter, encode_ne_nil, hsome, hio h.encode, if_true, WriterCall.caught,
        writeLoop_done (hio h.encode), Bool.not_false]
      refine Or.inr ⟨trivial, ⟨rfl, fun fd' hfd' => hsettled.opened fd' (hsome.trans hfd')⟩, hstalled, trivial, fd, _,
        rfl, hseg, ?_, rfl⟩
      unfold OpenedFor at hopened ⊢
      rw [hfd'] at hopened
      exact hopened
  · rw [if_neg hacc, decide_eq_false hacc, Bool.false_and]
    exact Or.inl ⟨rfl, rfl, hset, hfd'.symm ▸ hfd⟩

/-- Without failure, a record above the watermark of a writer that is not stalled is written. -/
theorem writesRecord_above (hw : w.Settled) (hstalled : w.enospcStalled = false) (hio : io.Ok)
    (habove : w.lastPartitionLsn < h.partitionLsn) (hreset : h.partitionLsn = 1 → ¬ 0 < w.lastPartitionLsn) :
    writesRecord segsz io h w d = true := by
  have hsame : unstall io.unstallScan h (resetDetect io.resetScan h w d) d = w := by
    rw [resetDetect_eq fun h1 h0 => absurd h0 (hreset h1), unstall, if_neg (by rw [hstalled]; decide)]
  have hraised : (prepareSegment segsz io h w d).raised = false := by
    rw [prepareSegment, flush_of_nil hw.buffer]
    simp only [WriterCall.andThen, openWriterSegment, hio.opened, Bool.false_eq_true, if_false, if_true]
    split
    · rfl
    · split <;> rfl
  rcases @prepare_cases segsz io h w d hw hstalled with ⟨htrue, -⟩ | ⟨-, hsettled, -, fd, hsome, -⟩
  · rw [hraised] at htrue
    cases htrue
  · have hroom : ¬ ([] : Bytes).length + headerSize > parwalWriterBufferSize := by decide
    simp only [writesRecord, hsame, hstalled, habove, and_self, decide_true, Bool.true_and, writePartitionWAL,
      WriterCall.andThen, hraised, Bool.false_eq_true, if_false, hsettled.buffer, hroom, List.nil_append,
      flushPartitionWALWriter, encode_ne_nil, hsome, hio.flush h.encode, if_true, Bool.not_false]

end

/-! ## A partition's share -/

/-- Whole files, a settled writer, and its file is the one under its name or ends at or
before one of the `keepPtr` used. -/
structure ShareKept (segsz : WalSegSize) (keeps : List XLogRecPtr) (v : Share) : Prop where
  whole : v.2.Whole
  settled : ∀ w, v.1 = some w → w.Settled
  file : ∀ w fd, v.1 = some w → w.fd = some fd → v.2.linked fd ∨ ∃ k ∈ keeps, segEnd segsz fd.segno ≤ k

section
variable {segsz : WalSegSize} {pid : Oid} {io : RecordIO} {h : PartWALHeader} {w : PartitionWALWriter} {d : Dir}
  {v : Share} {keeps : List XLogRecPtr} {fd : Descriptor}

theorem Dir.append_encode (hd : d.Whole) (s : Nat) (h : PartWALHeader) :
    (d.append s h.encode).Whole ∧ (∀ t, d.headers t <+: (d.append s h.encode).headers t) ∧
      h ∈ (d.append s h.encode).headers s := by
  refine ⟨fun t => ?_, fun t => ?_, ?_⟩
  · rw [Dir.content_append, List.length_append]
    refine Nat.dvd_add (hd t) ?_
    split
    · rw [length_encode]
    · exact Nat.dvd_zero _
  · rw [Dir.headers, Dir.headers, Dir.content_append, readHeaders_append (hd t)]
    exact List.prefix_append _ _
  · rw [Dir.headers, Dir.content_append_self, readHeaders_append_encode (hd s)]
    exact List.mem_append_right _ List.mem_cons_self

theorem Dir.write_encode (hd : d.Whole) (fd : Descriptor) (h : PartWALHeader) :
    (d.write fd h.encode).Whole ∧ (∀ t, d.headers t <+: (d.write fd h.encode).headers t) ∧
      (d.linked fd → (d.write fd h.encode).linked fd ∧ h ∈ (d.write fd h.encode).headers fd.segno) := by
  obtain ⟨hwhole, hgrows, hmem⟩ := Dir.append_encode hd fd.segno h
  by_cases hfd : fd.unlinks = d.unlinks fd.segno
  · rw [Dir.write, if_pos hfd]
    exact ⟨hwhole, hgrows, fun hl => ⟨Dir.linked_append hl _ _, hmem⟩⟩
  · rw [Dir.write, if_neg hfd]
    exact ⟨hd, fun t => List.prefix_refl _, fun hl => absurd hl.1 hfd⟩

theorem ShareKept.of_writerFor (hv : ShareKept segsz keeps v) (hw : writerFor io pid v = some w) :
    w.Settled ∧ ∀ fd, w.fd = some fd → v.2.linked fd ∨ ∃ k ∈ keeps, segEnd segsz fd.segno ≤ k := by
  cases hv1 : v.1 with
  | none =>
    obtain ⟨hfd, -, -, hb⟩ := writerFor_fresh hv1 hw
    refine ⟨⟨hb, fun fd h => ?_⟩, fun fd h => ?_⟩
    · rw [hfd] at h
      cases h
    · rw [hfd] at h
      cases h
  | some w' =>
    rw [writerFor, hv1, Option.some_or] at hw
    obtain rfl := Option.some.inj hw
    exact ⟨hv.settled w' hv1, fun fd hfd => hv.file w' fd hv1 hfd⟩

/-- Files only grow; a record that is written lies in its segment's file, unless that
file ends at or before some `keepPtr` used. -/
theorem ShareKept.route (hv : ShareKept segsz keeps v) (hw : writerFor io pid v = some w)
    (hio : NoWriteError io.flush) :
    ShareKept segsz keeps (some (routeToWriter segsz io h w v.2).1, (routeToWriter segsz io h w v.2).2) ∧
      (∀ s, v.2.headers s <+: (routeToWriter segsz io h w v.2).2.headers s) ∧
      (writesRecord segsz io h w v.2 = true →
        h ∈ (routeToWriter segsz io h w v.2).2.headers (segnoOf segsz h) ∨
          ∃ k ∈ keeps, segEnd segsz (segnoOf segsz h) ≤ k) := by
  obtain ⟨hset, hfile⟩ := hv.of_writerFor hw
  rcases route_cases (h := h) (d := v.2) hset hio with
    ⟨hnot, hdir, hset', hfd⟩ | ⟨hwrites, hset', -, -, fd, d', hfd, hseg, hopened, hdir⟩
  · rw [hdir]
    refine ⟨⟨hv.whole, ?_, ?_⟩, fun s => List.prefix_refl _, fun h => ?_⟩
    · rintro w' hw'
      exact Option.some.inj hw' ▸ hset'
    · intro w' fd hw' hfd'
      rw [← Option.some.inj hw'] at hfd'
      rcases hfd with hnone | hsame
      · rw [hnone] at hfd'
        cases hfd'
      · exact hfile fd (hsame ▸ hfd')
    · rw [hnot] at h
      cases h
  · -- the file it is written to
    have hd' : d'.Whole ∧ (∀ t, v.2.headers t = d'.headers t) ∧
        (d'.linked fd ∨ ∃ k ∈ keeps, segEnd segsz fd.segno ≤ k) := by
      rcases hopened with ⟨hold, rfl⟩ | ⟨-, rfl, rfl⟩
      · refine ⟨hv.whole, fun t => rfl, hfile fd ?_⟩
        rcases (settled_reset hset io.resetScan).2 with hnone | hsame
        · rw [hnone] at hold
          cases hold
        · exact hsame ▸ hold
      · refine ⟨fun t => ?_, fun t => ?_, Or.inl (Dir.linked_openCreate _ _)⟩
        · rw [Dir.content_openCreate]
          exact hv.whole t
        · rw [Dir.headers, Dir.headers, Dir.content_openCreate]
    obtain ⟨hwhole, hsame, hlinked⟩ := hd'
    obtain ⟨hwhole', hgrows, hlands⟩ := Dir.write_encode hwhole fd h
    rw [hdir]
    refine ⟨⟨hwhole', ?_, ?_⟩, fun t => hsame t ▸ hgrows t, fun _ => ?_⟩
    · rintro w' hw'
      exact Option.some.inj hw' ▸ hset'
    · intro w' fd' hw' hfd'
      rw [← Option.some.inj hw', hfd] at hfd'
      obtain rfl := Option.some.inj hfd'
      exact hlinked.imp (fun hl => (hlands hl).1) id
    · rw [← hseg]
      exact hlinked.imp (fun hl => (hlands hl).2) id

/-- A flush with nothing buffered has nothing to do. -/
theorem flushShare_of_nil (hv : ∀ w, v.1 = some w → w.buffer = []) (os : List WriteOutcome) :
    flushShare os v = v := by
  obtain ⟨wo, d⟩ := v
  cases wo with
  | none => rfl
  | some w => rw [flushShare, flush_of_nil (hv w rfl), caught_of_ok rfl]

theorem ShareKept.cleanup (hv : ShareKept segsz keeps v) (keepPtr : XLogRecPtr) (rd : Readdir) :
    ShareKept segsz (keeps ++ [keepPtr]) (v.1, cleanupPartitionWAL segsz keepPtr rd (fun _ => true) v.2) := by
  refine ⟨whole_cleanup hv.whole, hv.settled, fun w fd hw hfd => ?_⟩
  rcases hv.file w fd hw hfd with hl | ⟨k, hk, hle⟩
  · by_cases hex : Expired segsz keepPtr (fun _ => true) fd.segno
    · exact Or.inr ⟨keepPtr, by simp, hex.1⟩
    · exact Or.inl (linked_cleanup hl hex)
  · exact Or.inr ⟨k, List.mem_append_left _ hk, hle⟩

end

/-! ## Runs -/

/-- The record a round of the loop writes, if it writes one. -/
def Demux.writes (segsz : WalSegSize) (dm : Demux) : LoopEvent → Option PartWALHeader
  | .record r io =>
    match r.dataHeader with
    | some h =>
      match getOrCreateWriter io h.partitionId dm with
      | (some w, dm) => if writesRecord segsz io h w (dm.parwal h.partitionId) = true then some h else none
      | (none, _) => none
    | none => none
  | .caughtUp _ => none

/-- `CleanupPartitionWAL(pid, keepPtr)` beside the Demux. -/
def Demux.cleanup (segsz : WalSegSize) (keepPtr : XLogRecPtr) (rd : Readdir) (unlinkOk : Nat → Bool) (pid : Oid)
    (dm : Demux) : Demux :=
  { dm with
    parwal := Function.update dm.parwal pid (cleanupPartitionWAL segsz keepPtr rd unlinkOk (dm.parwal pid)) }

/-- The Demux, the records it has written, and the `keepPtr`s used on each partition. -/
structure Collected where
  demux : Demux
  written : List PartWALHeader
  keepPtrs : Oid → List XLogRecPtr

inductive GcLabel
  | demux (e : LoopEvent)
  | cleanup (pid : Oid) (keepPtr : XLogRecPtr) (rd : Readdir)

def gcStep (segsz : WalSegSize) (s : Collected) : GcLabel → Collected
  | .demux e =>
    { s with
      demux := demuxStep segsz s.demux e
      written := s.written ++ (s.demux.writes segsz e).toList }
  | .cleanup pid keepPtr rd =>
    { s with
      demux := s.demux.cleanup segsz keepPtr rd (fun _ => true) pid
      keepPtrs := Function.update s.keepPtrs pid (s.keepPtrs pid ++ [keepPtr]) }

def gcRun (segsz : WalSegSize) (s : Collected) (ls : List GcLabel) : Collected := ls.foldl (gcStep segsz) s

/-- A worker that has just started. -/
def Collected.start (parwal : Parwal) : Collected := ⟨Demux.fresh parwal, [], fun _ => []⟩

/-- An append of the Demux: its position lies below the last segment, its `write`s succeed. -/
def GcLabel.Ok (segsz : WalSegSize) : GcLabel → Prop
  | .demux (.record r io) => (∀ h, r.dataHeader = some h → BelowLastSegment segsz h) ∧ NoWriteError io.flush
  | .demux (.caughtUp _) => True
  | .cleanup _ _ _ => True

/-- What has been written lies in its file, or that file ends at or before some `keepPtr` used. -/
structure Collected.Inv (segsz : WalSegSize) (s : Collected) : Prop where
  fits : s.demux.Fits
  share : ∀ pid, ShareKept segsz (s.keepPtrs pid) (s.demux.share pid)
  below : ∀ h ∈ s.written, BelowLastSegment segsz h
  kept : ∀ h ∈ s.written, h ∈ (s.demux.parwal h.partitionId).headers (segnoOf segsz h) ∨
    ∃ k ∈ s.keepPtrs h.partitionId, segEnd segsz (segnoOf segsz h) ≤ k

section
variable {segsz : WalSegSize} {dm : Demux} {e : LoopEvent} {h : PartWALHeader} {pid : Oid} {s : Collected}
  {keeps : List XLogRecPtr}

theorem writes_eq_some (hw : dm.writes segsz e = some h) :
    ∃ r io w, e = .record r io ∧ r.dataHeader = some h ∧ ¬ dm.ShutOut h.partitionId ∧
      writerFor io h.partitionId (dm.share h.partitionId) = some w ∧
      writesRecord segsz io h w (dm.parwal h.partitionId) = true := by
  cases e with
  | caughtUp io => cases hw
  | record r io =>
    unfold Demux.writes at hw
    cases hr : r.dataHeader with
    | none => simp only [hr, reduceCtorEq] at hw
    | some a =>
      simp only [hr, getOrCreateWriter] at hw
      cases hf : Demux.findWriter a.partitionId dm.writers with
      | some w =>
        simp only [hf] at hw
        split at hw
        · next hwr =>
          obtain rfl := Option.some.inj hw
          refine ⟨r, io, w, rfl, hr, fun hout => ?_, ?_, hwr⟩
          · rw [hout.1] at hf
            cases hf
          · rw [writerFor, Demux.share, hf, Option.some_or]
        · cases hw
      | none =>
        simp only [hf] at hw
        by_cases hfull : demuxMaxPartitions ≤ dm.writers.length
        · simp only [if_pos hfull, reduceCtorEq] at hw
        · simp only [if_neg hfull] at hw
          cases hc : createPartitionWALWriter io.mkdirOk io.createScan a.partitionId (dm.parwal a.partitionId) with
          | none => simp only [hc, reduceCtorEq] at hw
          | some w =>
            simp only [hc] at hw
            split at hw
            · next hwr =>
              obtain rfl := Option.some.inj hw
              refine ⟨r, io, w, rfl, hr, fun hout => hfull hout.2, ?_, hwr⟩
              rw [writerFor, Demux.share, hf, Option.none_or]
              exact hc
            · cases hw

/-- One round, as partition `pid` sees it: its share is kept, its files grow, and a record
that is written lies in its file or that file ends at or before some `keepPtr` used. -/
structure RoundKept (segsz : WalSegSize) (keeps : List XLogRecPtr) (pid : Oid) (dm : Demux) (e : LoopEvent) :
    Prop where
  share : ShareKept segsz keeps ((demuxStep segsz dm e).share pid)
  grows : ∀ t, (dm.parwal pid).headers t <+: ((demuxStep segsz dm e).parwal pid).headers t
  lands : ∀ h, dm.writes segsz e = some h → h.partitionId = pid →
    h ∈ ((demuxStep segsz dm e).parwal pid).headers (segnoOf segsz h) ∨
      ∃ k ∈ keeps, segEnd segsz (segnoOf segsz h) ≤ k

theorem roundKept_same (hv : ShareKept segsz keeps (dm.share pid))
    (hsame : (demuxStep segsz dm e).share pid = dm.share pid)
    (hnone : ∀ h, dm.writes segsz e = some h → h.partitionId ≠ pid) : RoundKept segsz keeps pid dm e := by
  have hdir : (demuxStep segsz dm e).parwal pid = dm.parwal pid := congrArg Prod.snd hsame
  refine ⟨hsame.symm ▸ hv, fun t => ?_, fun h hw hp => absurd hp (hnone h hw)⟩
  rw [hdir]

theorem ShareKept.step (hd : dm.Fits) (hv : ShareKept segsz keeps (dm.share pid))
    (he : ( GcLabel.demux e).Ok segsz) : RoundKept segsz keeps pid dm e := by
  by_cases hout : dm.ShutOut pid
  · refine roundKept_same hv (shutOut_step segsz hd hout e).1 fun h hw hp => ?_
    obtain ⟨-, -, -, -, -, hin, -, -⟩ := writes_eq_some hw
    exact hin (hp ▸ hout)
  · have hshare := share_step_of_not_shutOut segsz hd hout e
    cases e with
    | caughtUp io =>
      refine roundKept_same hv (hshare.trans (flushShare_of_nil (fun w hw => (hv.settled w hw).buffer) (io pid)))
        fun h hw => ?_
      cases hw
    | record r io =>
      -- the record the round writes is the one it reads
      have hread : ∀ h, dm.writes segsz (.record r io) = some h → r.dataHeader = some h ∧
          ∃ w, writerFor io h.partitionId (dm.share h.partitionId) = some w ∧
            writesRecord segsz io h w (dm.parwal h.partitionId) = true := by
        intro h hw
        obtain ⟨r', io', w, heq, hr, -, hw, hwrites⟩ := writes_eq_some hw
        cases heq
        exact ⟨hr, w, hw, hwrites⟩
      cases hr : r.dataHeader with
      | none =>
        refine roundKept_same hv (by rw [hshare]; simp only [shareStep, hr]) fun h hw => ?_
        rw [hr] at hread
        cases (hread h hw).1
      | some a =>
        rw [hr] at hread
        by_cases hp : a.partitionId = pid
        · subst hp
          simp only [shareStep, hr, if_true] at hshare
          cases hwf : writerFor io a.partitionId (dm.share a.partitionId) with
          | none =>
            refine roundKept_same hv (by rw [hshare, routeShare, hwf]) fun h hw => ?_
            obtain ⟨hr, w, hw, -⟩ := hread h hw
            obtain rfl := Option.some.inj hr
            rw [hwf] at hw
            cases hw
          | some w =>
            rw [routeShare_eq hwf] at hshare
            obtain ⟨hkept, hgrows, hlands⟩ := hv.route (h := a) hwf he.2
            have hdir : (demuxStep segsz dm (.record r io)).parwal a.partitionId = _ := congrArg Prod.snd hshare
            refine ⟨hshare ▸ hkept, hdir ▸ hgrows, fun h hw hp => ?_⟩
            obtain ⟨hr, w', hw, hwrites⟩ := hread h hw
            obtain rfl := Option.some.inj hr
            obtain rfl := Option.some.inj (hwf.symm.trans hw)
            rw [hdir]
            exact hlands hwrites
        · refine roundKept_same hv (by rw [hshare]; simp only [shareStep, hr, if_neg hp]) fun h hw => ?_
          exact Option.some.inj (hread h hw).1 ▸ hp

theorem Collected.inv_start {parwal : Parwal} (hwhole : ∀ pid, (parwal pid).Whole) :
    (Collected.start parwal).Inv segsz :=
  ⟨fits_fresh parwal, fun pid => ⟨hwhole pid, (fun _ hw => nomatch hw), (fun _ _ hw => nomatch hw)⟩,
    (fun _ hh => nomatch hh), (fun _ hh => nomatch hh)⟩

theorem Collected.inv_step (hs : s.Inv segsz) {l : GcLabel} (hl : l.Ok segsz) : (gcStep segsz s l).Inv segsz := by
  cases l with
  | demux e =>
    have hwritten : ∀ h ∈ (gcStep segsz s (.demux e)).written,
        h ∈ s.written ∨ s.demux.writes segsz e = some h := fun h hh =>
      (List.mem_append.mp hh).imp id Option.mem_toList.mp
    refine ⟨fits_step segsz hs.fits e, fun pid => ?_, fun h hh => ?_, fun h hh => ?_⟩
    · exact (ShareKept.step hs.fits (hs.share pid) hl).share
    · rcases hwritten h hh with hold | hnew
      · exact hs.below h hold
      · obtain ⟨r, io, w, rfl, hr, -⟩ := writes_eq_some hnew
        exact hl.1 h hr
    · have hround := ShareKept.step hs.fits (hs.share h.partitionId) hl
      rcases hwritten h hh with hold | hnew
      · exact (hs.kept h hold).imp (fun hin => (hround.grows _).subset hin) id
      · exact hround.lands h hnew rfl
  | cleanup pid keepPtr rd =>
    refine ⟨⟨hs.fits.nodup, hs.fits.le⟩, fun q => ?_, hs.below, fun h hh => ?_⟩
    · by_cases hq : q = pid
      · subst hq
        have hv := (hs.share q).cleanup keepPtr rd
        simpa only [gcStep, Demux.cleanup, Demux.share, Function.update_self] using hv
      · have hv := hs.share q
        simpa only [gcStep, Demux.cleanup, Demux.share, Function.update_of_ne hq] using hv
    · by_cases hq : h.partitionId = pid
      · subst hq
        simp only [gcStep, Demux.cleanup, Function.update_self, List.mem_append, List.mem_singleton]
        rcases hs.kept h hh with hin | ⟨k, hk, hle⟩
        · by_cases hex : Expired segsz keepPtr (fun _ => true) (segnoOf segsz h)
          · exact Or.inr ⟨keepPtr, Or.inr rfl, hex.1⟩
          · left
            rw [Dir.headers, content_cleanup hex]
            exact hin
        · exact Or.inr ⟨k, Or.inl hk, hle⟩
      · simp only [gcStep, Demux.cleanup, Function.update_of_ne hq]
        exact hs.kept h hh

end

/-- **Garbage collection.** In every run of Demux rounds and `CleanupPartitionWAL` calls,
a record at or above every `keepPtr` used on its partition so far lies in its segment file
from when it is written; and each call removes, of the files that hold records from below
the last segment, exactly those in which none may lie at or above its `keepPtr`. -/
theorem cleanup_safe_complete (segsz : WalSegSize) (parwal : Parwal) (hwhole : ∀ pid, (parwal pid).Whole)
    (ls : List GcLabel) (hls : ∀ l ∈ ls, l.Ok segsz) :
    (∀ h ∈ (gcRun segsz (Collected.start parwal) ls).written,
      (∀ k ∈ (gcRun segsz (Collected.start parwal) ls).keepPtrs h.partitionId, k ≤ h.origNodeLsn) →
        h ∈ ((gcRun segsz (Collected.start parwal) ls).demux.parwal h.partitionId).headers (segnoOf segsz h)) ∧
    ∀ (pid : Oid) (keepPtr : XLogRecPtr) (rd : Readdir) (h : PartWALHeader), BelowLastSegment segsz h →
      segnoOf segsz h ∈ ((gcRun segsz (Collected.start parwal) ls).demux.parwal pid).names →
      (segnoOf segsz h ∉
          ((gcRun segsz (Collected.start parwal) (ls ++ [.cleanup pid keepPtr rd])).demux.parwal pid).names ↔
        ∀ a, BelowLastSegment segsz a → segnoOf segsz a = segnoOf segsz h → a.origNodeLsn < keepPtr) := by
  have hinv : (gcRun segsz (Collected.start parwal) ls).Inv segsz :=
    List.foldlRecOn ls (gcStep segsz) (motive := Collected.Inv segsz) ( Collected.inv_start hwhole)
      fun s hs l hl => Collected.inv_step hs (hls l hl)
  constructor
  · intro h hh hkeeps
    rcases hinv.kept h hh with hin | ⟨k, hk, hle⟩
    · exact hin
    · -- it would lie behind the end of its segment
      have hlt := UInt64.lt_of_lt_of_le (lt_segEnd (hinv.below h hh)) (UInt64.le_trans hle (hkeeps k hk))
      exact absurd hlt (UInt64.lt_irrefl _)
  · intro pid keepPtr rd h hb hmem
    rw [gcRun, List.foldl_append]
    simp only [List.foldl_cons, List.foldl_nil, gcStep, Demux.cleanup, Function.update_self]
    rw [mem_names_cleanup, ← segEnd_le_iff hb]
    constructor
    · intro hn
      by_contra hex
      exact hn ⟨hmem, fun h => hex h.1⟩
    · exact fun hle hn => hn.2 ⟨hle, rfl⟩

/-- A record of partition 7 that the Demux appends. -/
def appended (lsn : UInt64) (orig : XLogRecPtr) : GcLabel :=
  .demux (.record (insertedRecord (buildHeader 7 1 orig lsn)) (.succeeding .ascending))

theorem ok_appended {segsz : WalSegSize} {orig : XLogRecPtr} (lsn : UInt64)
    (horig : orig.toNat + segsz.bytes < 2 ^ 64) : (appended lsn orig).Ok segsz := by
  refine ⟨fun h hh => ?_, fun _ => rfl⟩
  rw [dataHeader_insertedRecord_build] at hh
  obtain rfl := Option.some.inj hh
  exact horig

/-- Records in segments 0 (kept in file 1) and 2; the first file is removed up to its end
while the second one is open. -/
theorem cleanup_safe_complete_open :
    let ls := [appended 1 0, appended 2 (2 ^ 25), .cleanup 7 (2 ^ 25) .ascending, appended 3 (2 ^ 25 + 64)]
    buildHeader 7 1 (2 ^ 25 + 64) 3 ∈ ((gcRun .default (Collected.start fun _ => Dir.empty) ls).demux.parwal 7).headers
      (segnoOf .default (buildHeader 7 1 (2 ^ 25 + 64) 3)) := by
  intro ls
  have hkeeps : (gcRun .default (Collected.start fun _ => Dir.empty) ls).keepPtrs 7 = [2 ^ 25] := rfl
  refine (cleanup_safe_complete .default (fun _ => Dir.empty) (fun _ _ => ⟨0, rfl⟩) ls ?_).1
    (buildHeader 7 1 (2 ^ 25 + 64) 3) (by decide +kernel) ?_
  · intro l hl
    simp only [ls, List.mem_cons, List.not_mem_nil, or_false] at hl
    rcases hl with rfl | rfl | rfl | rfl
    · exact ok_appended 1 (by decide)
    · exact ok_appended 2 (by decide)
    · trivial
    · exact ok_appended 3 (by decide)
  · intro k hk
    obtain rfl : k = 2 ^ 25 := List.mem_singleton.mp (hkeeps ▸ hk)
    decide

end PartDist
