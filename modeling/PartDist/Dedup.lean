import PartDist.DemuxFailures
import PartDist.LastWritten
import PartDist.TornTail

/-!
# No record twice

Any stream of DATA records, in any order and with any repetitions, under failing
`open` and `write` calls (a failing `write` writes nothing).

A writer keeps the records of a directory apart as long as its watermark is not
below what is on disk.  The watermark comes from a directory scan twice: when the
writer is created and when reset detection starts it over; the scan passes over a
file it cannot open.  While these scans see the newest records no directory ever
holds a `partition_lsn` twice (`no_duplicates`); `record_twice` is a run with a scan
that sees nothing.
-/

namespace PartDist

open Bytes PartWALHeader HighWater ExchangeSort

/-! ## Directories without duplicates -/

/-- Whole records of the partition, increasing in each file, none in two files. -/
structure Dir.Unique (pid : Oid) (d : Dir) : Prop where
  whole : d.Whole
  valid : ∀ s, ∀ h ∈ d.headers s, h.validFor pid = true
  within : ∀ s, Increasing lsn (d.headers s)
  across : ∀ s t, ∀ a ∈ d.headers s, ∀ b ∈ d.headers t, a.lsn = b.lsn → s = t

/-- Whole records of the partition in strictly increasing order by segment and offset. -/
structure Dir.Ordered (pid : Oid) (d : Dir) : Prop where
  whole : d.Whole
  valid : ∀ s, ∀ h ∈ d.headers s, h.validFor pid = true
  within : ∀ s, Increasing lsn (d.headers s)
  across : ∀ s t, s < t → ∀ a ∈ d.headers s, ∀ b ∈ d.headers t, a.lsn < b.lsn

section
variable {segsz : WalSegSize} {pid : Oid} {d : Dir}

theorem Dir.Ordered.unique (hd : d.Ordered pid) : d.Unique pid := by
  refine ⟨hd.whole, hd.valid, hd.within, fun s t a ha b hb he => ?_⟩
  rcases Nat.lt_trichotomy s t with hlt | heq | hlt
  · exact absurd he (Nat.ne_of_lt (hd.across s t hlt a ha b hb))
  · exact heq
  · exact absurd he.symm (Nat.ne_of_lt (hd.across t s hlt b hb a ha))

theorem ordered_empty (pid : Oid) : Dir.empty.Ordered pid :=
  ⟨fun _ => ⟨0, rfl⟩, (fun _ _ hh => nomatch hh), fun _ => List.Pairwise.nil, (fun _ _ _ _ ha => nomatch ha)⟩

theorem Dir.Unique.nodup_records (hd : d.Unique pid) : (d.records.map lsn).Nodup := by
  have hbind : d.records.map lsn = d.names.val.bind fun s => (((d.headers s).map lsn : List Nat) : Multiset Nat) := by
    rw [Dir.records, ← Multiset.coe_mapAddMonoidHom, map_sum]
    rfl
  rw [hbind, Multiset.nodup_bind]
  refine ⟨fun s _ => ?_, ?_⟩
  · exact Multiset.coe_nodup.mpr (List.pairwise_map.mpr ((hd.within s).imp Nat.ne_of_lt))
  · refine ⟨d.names.toList, d.names.coe_toList.symm, d.names.nodup_toList.pairwise_of_forall_ne ?_⟩
    intro s _ t _ hne
    rw [Function.onFun, Multiset.disjoint_left]
    intro n hs ht
    obtain ⟨a, ha, rfl⟩ := List.mem_map.mp (Multiset.mem_coe.mp hs)
    obtain ⟨b, hb, he⟩ := List.mem_map.mp (Multiset.mem_coe.mp ht)
    exact hne (hd.across s t a ha b hb he.symm)

end

/-! ## What the scans must see -/

/-- A file of the directory that shows a `partition_lsn`. -/
def Dir.Recorded (d : Dir) (s : Nat) : Prop := ∃ h ∈ d.headers s, h.partitionLsn ≠ 0

/-- The newest segment that shows one can be opened. -/
def ScanIO.SeesNewest (sc : ScanIO) (d : Dir) : Prop :=
  ∀ s, d.Recorded s → (∀ t, d.Recorded t → t ≤ s) → sc.opens s = true

/-- One that does can be opened, if there is any. -/
def ScanIO.SeesSome (sc : ScanIO) (d : Dir) : Prop :=
  ∀ s, d.Recorded s → ∃ t, d.Recorded t ∧ sc.opens t = true

/-- The scan that creates the writer sees the newest segment; the scan that a
`partition_lsn` of 1 can start sees some segment. -/
def ScansSee (dm : Demux) : LoopEvent → Prop
  | .record r io => ∀ h ∈ r.dataHeader,
      (h.partitionId ∉ dm.pids → io.createScan.SeesNewest (dm.parwal h.partitionId)) ∧
        (h.partitionLsn = 1 → io.resetScan.SeesSome (dm.parwal h.partitionId))
  | .caughtUp _ => True

theorem ScanIO.Ok.seesNewest {sc : ScanIO} (h : sc.Ok) (d : Dir) : sc.SeesNewest d := fun s _ _ => h s

theorem ScanIO.Ok.seesSome {sc : ScanIO} (h : sc.Ok) (d : Dir) : sc.SeesSome d := fun s hs => ⟨s, hs, h s⟩

section
variable {segsz : WalSegSize} {pid : Oid} {d : Dir} {sc : ScanIO}

theorem fileLsn_ne_zero_iff (hd : d.Unique pid) {s : Nat} : fileLsn pid (d.content s) ≠ 0 ↔ d.Recorded s := by
  rw [← holds_iff]
  constructor
  · rintro ⟨a, ha, -, h0⟩
    exact ⟨a, ha, h0⟩
  · rintro ⟨a, ha, h0⟩
    exact ⟨a, ha, hd.valid s a ha, h0⟩

theorem Dir.Recorded.mem_names {s : Nat} (h : d.Recorded s) : s ∈ d.names := by
  obtain ⟨a, ha, -⟩ := h
  exact Dir.mem_names_of_headers ha

/-- No record of a file is above what the file contributes to a scan. -/
theorem le_fileLsn (hd : d.Unique pid) {s : Nat} {h : PartWALHeader} (hh : h ∈ d.headers s) :
    h.partitionLsn ≤ fileLsn pid (d.content s) :=
  UInt64.le_iff_toNat_le.mpr (fileLsn_le ((hd.within s).filter _) hh (hd.valid s h hh))

/-- The watermark of a new writer covers the directory. -/
theorem Dir.Ordered.le_scan (hd : d.Ordered pid) (hfiles : d.names.card ≤ maxScanFiles)
    (hsees : sc.SeesNewest d) {s : Nat} {h : PartWALHeader} (hh : h ∈ d.headers s) :
    h.partitionLsn ≤ getLastWrittenPartitionLSN sc pid d := by
  have hmem : ∀ t, d.Recorded t → t ∈ d.listed sc.readdir := fun t ht =>
    (Dir.mem_listed hfiles).mpr ht.mem_names
  by_cases h0 : h.partitionLsn = 0
  · rw [h0]
    exact UInt64.zero_le
  · rcases exists_top (fun t => fileLsn pid (d.content t)) (d.listed sc.readdir) with hall | ⟨t, ht, htn, htop⟩
    · have hs : d.Recorded s := ⟨h, hh, h0⟩
      exact absurd (hall s (hmem s hs)) ((fileLsn_ne_zero_iff hd.unique).mpr hs)
    · have hrec : d.Recorded t := (fileLsn_ne_zero_iff hd.unique).mp htn
      have hle : ∀ u, d.Recorded u → u ≤ t := by
        intro u hu
        by_contra hlt
        exact (fileLsn_ne_zero_iff hd.unique).mpr hu (htop u (hmem u hu) (Nat.lt_of_not_le hlt))
      rw [scan_of_top _ ht (hsees t hrec hle) htn fun u hu hlt _ => htop u hu hlt]
      rcases Nat.lt_or_eq_of_le (hle s ⟨h, hh, h0⟩) with hlt | rfl
      · obtain ⟨a, ha, -⟩ := hrec
        exact UInt64.le_trans (UInt64.le_of_lt (UInt64.lt_iff_toNat_lt.mpr (hd.across s t hlt h hh a ha)))
          (le_fileLsn hd.unique ha)
      · exact le_fileLsn hd.unique hh

/-- A scan that finds nothing has nothing to find. -/
theorem Dir.Unique.eq_zero_of_scan (hd : d.Unique pid) (hfiles : d.names.card ≤ maxScanFiles)
    (hsees : sc.SeesSome d) (hscan : getLastWrittenPartitionLSN sc pid d = 0) {s : Nat} {h : PartWALHeader}
    (hh : h ∈ d.headers s) : h.partitionLsn = 0 := by
  by_contra h0
  obtain ⟨t, ht, hopen⟩ := hsees s ⟨h, hh, h0⟩
  have htn := (fileLsn_ne_zero_iff hd).mpr ht
  rcases exists_top (fun u => if sc.opens u then fileLsn pid (d.content u) else 0) (d.listed sc.readdir) with
    hall | ⟨u, hu, hun, htop⟩
  · have hzero := hall t ((Dir.mem_listed hfiles).mpr ht.mem_names)
    rw [if_pos hopen] at hzero
    exact htn hzero
  · have hou : sc.opens u = true := by
      by_contra hou
      exact hun (if_neg hou)
    rw [if_pos hou] at hun
    rw [scan_of_top _ hu hou hun fun v hv hlt hov => by simpa [hov] using htop v hv hlt] at hscan
    exact hun hscan

end

/-! ## The invariant -/

/-- The writer goes on from the directory `base`, which holds nothing above `mark`,
and has accepted `acc` in increasing order above it. -/
structure Deduped (segsz : WalSegSize) (pid : Oid) (base : Dir) (mark : UInt64) (acc : List PartWALHeader)
    (w : PartitionWALWriter) (d : Dir) : Prop where
  inv : WriterInv segsz base mark acc w d
  buffer : headerSize ∣ w.buffer.length
  base_unique : base.Unique pid
  below : ∀ s, ∀ h ∈ base.headers s, h.partitionLsn ≤ mark
  above : ∀ a ∈ acc, a.validFor pid = true ∧ mark < a.partitionLsn
  increasing : Increasing lsn acc

/-- The partition's share, with or without a writer. -/
def ShareDeduped (segsz : WalSegSize) (pid : Oid) (v : Share) : Prop :=
  match v.1 with
  | none => v.2.Ordered pid
  | some w => ∃ base mark acc, Deduped segsz pid base mark acc w v.2

section
variable {segsz : WalSegSize} {pid : Oid} {base : Dir} {mark : UInt64} {acc : List PartWALHeader}
  {io : RecordIO} {h : PartWALHeader} {w : PartitionWALWriter} {d : Dir} {v : Share}

theorem Deduped.whole (hw : Deduped segsz pid base mark acc w d) : d.Whole := by
  intro s
  have hlen := congrArg List.length (hw.inv.bytes s)
  rw [List.length_append, List.length_append] at hlen
  have hbuf : headerSize ∣ (if s = w.currentSegno then w.buffer else []).length := by
    split
    · exact hw.buffer
    · exact ⟨0, rfl⟩
  apply (Nat.dvd_add_iff_left hbuf).mpr
  rw [hlen]
  exact Nat.dvd_add (hw.base_unique.whole s) (dvd_length_encodeAll _)

/-- What is on disk of a segment is what was there first and some of what was accepted. -/
theorem Deduped.headers_prefix (hw : Deduped segsz pid base mark acc w d) (s : Nat) :
    d.headers s <+: base.headers s ++ inSegment segsz s acc := by
  have hbytes := congrArg readHeaders (hw.inv.bytes s)
  rw [readHeaders_append (hw.whole s), readHeaders_append (hw.base_unique.whole s),
    readHeaders_encodeAll] at hbytes
  exact ⟨_, hbytes⟩

theorem Deduped.unique (hw : Deduped segsz pid base mark acc w d) : d.Unique pid := by
  have hmem : ∀ s, ∀ h ∈ d.headers s, h ∈ base.headers s ∨ h ∈ acc ∧ segnoOf segsz h = s := by
    intro s h hh
    rcases List.mem_append.mp ((hw.headers_prefix s).subset hh) with hb | ha
    · exact Or.inl hb
    · obtain ⟨ha, hs⟩ := List.mem_filter.mp ha
      exact Or.inr ⟨ha, by simpa using hs⟩
  have habove : ∀ s, ∀ b ∈ base.headers s, ∀ a ∈ acc, b.lsn < a.lsn := fun s b hb a ha =>
    UInt64.lt_iff_toNat_lt.mp (UInt64.lt_of_le_of_lt (hw.below s b hb) (hw.above a ha).2)
  refine ⟨hw.whole, fun s h hh => ?_, fun s => ?_, fun s t a ha b hb he => ?_⟩
  · rcases hmem s h hh with hb | ⟨ha, -⟩
    · exact hw.base_unique.valid s h hb
    · exact (hw.above h ha).1
  · refine List.Pairwise.sublist (hw.headers_prefix s).sublist (List.pairwise_append.mpr ?_)
    exact ⟨hw.base_unique.within s, hw.increasing.filter _,
      fun b hb a ha => habove s b hb a (List.mem_of_mem_filter ha)⟩
  · rcases hmem s a ha with ha | ⟨ha, has⟩ <;> rcases hmem t b hb with hb | ⟨hb, hbt⟩
    · exact hw.base_unique.across s t a ha b hb he
    · exact absurd he (Nat.ne_of_lt (habove s a ha b hb))
    · exact absurd he.symm (Nat.ne_of_lt (habove t b hb a ha))
    · obtain rfl := hw.increasing.eq_of_key lsn ha hb he
      exact has.symm.trans hbt

theorem ShareDeduped.unique (hv : ShareDeduped segsz pid v) : v.2.Unique pid := by
  unfold ShareDeduped at hv
  split at hv
  · exact hv.unique
  · obtain ⟨base, mark, acc, hw⟩ := hv
    exact hw.unique

/-! ## The steps -/

/-- A new writer. -/
theorem deduped_create (hd : d.Ordered pid) (hfiles : d.names.card ≤ maxScanFiles)
    (hsees : io.createScan.SeesNewest d)
    (hc : createPartitionWALWriter io.mkdirOk io.createScan pid d = some w) :
    Deduped segsz pid d (getLastWrittenPartitionLSN io.createScan pid d) [] w d := by
  have hw : writerFor io pid (none, d) = some w := hc
  have hbuf : w.buffer = [] := (writerFor_fresh rfl hw).2.2.2
  refine ⟨create_inv _ hc, by rw [hbuf]; exact ⟨0, rfl⟩, hd.unique, fun s h hh => ?_, (fun _ ha => nomatch ha),
    List.Pairwise.nil⟩
  exact hd.le_scan hfiles hsees hh

/-- Reset detection starts over on a directory that shows no `partition_lsn`. -/
theorem Deduped.reset (io : RecordIO) (hw : Deduped segsz pid base mark acc w d) (hp : h.partitionId = pid)
    (hfiles : d.names.card ≤ maxScanFiles) (hsees : h.partitionLsn = 1 → io.resetScan.SeesSome d) :
    ∃ base mark acc, Deduped segsz pid base mark acc (resetDetect io.resetScan h w d) d := by
  unfold resetDetect
  split
  · next h1 =>
    split
    · next hscan =>
      subst hp
      have hzero : ∀ s, ∀ a ∈ d.headers s, a.partitionLsn ≤ 0 := fun s a ha => by
        rw [hw.unique.eq_zero_of_scan hfiles (hsees h1.1) hscan ha]
        exact UInt64.le_refl _
      refine ⟨d, 0, [], ⟨⟨fun fd hfd => ?_, fun hfd => absurd rfl hfd, fun _ => rfl, fun s => ?_,
        fun s => List.prefix_refl _, rfl, rfl⟩, ⟨0, rfl⟩, hw.unique, hzero, (fun _ ha => nomatch ha),
        List.Pairwise.nil⟩⟩
      · cases hfd
      · simp [inSegment]
    · exact ⟨base, mark, acc, hw⟩
  · exact ⟨base, mark, acc, hw⟩

theorem flush_buffer (os : List WriteOutcome) (hb : headerSize ∣ w.buffer.length) (d : Dir) :
    headerSize ∣ (flushPartitionWALWriter os w d).writer.buffer.length := by
  unfold flushPartitionWALWriter
  split
  · exact hb
  · cases w.fd with
    | none => exact hb
    | some fd =>
      dsimp only
      split
      · exact ⟨0, rfl⟩
      · exact hb

theorem caught_buffer (c : WriterCall) : c.caught.1.buffer = c.writer.buffer := by
  unfold WriterCall.caught
  split <;> rfl

theorem routeToWriter_buffer (segsz : WalSegSize) (hb : headerSize ∣ (resetDetect io.resetScan h w d).buffer.length) :
    headerSize ∣ (routeToWriter segsz io h w d).1.buffer.length := by
  unfold routeToWriter
  dsimp only
  rw [unstall_eq]
  split
  · rw [caught_buffer]
    have hwrite := writePartitionWAL_keeps segsz io (P := fun v _ => headerSize ∣ v.buffer.length) (h := h) (d := d)
      (fun os _ v d hv => flush_buffer os hv d)
      (fun ok segno v d hv => by unfold openWriterSegment; split <;> exact hv)
      (fun v _ hv => by
        rw [List.length_append, length_encode]
        exact Nat.dvd_add hv (Nat.dvd_refl _))
      (w := { resetDetect io.resetScan h w d with
        enospcStalled := (resetDetect io.resetScan h w d).enospcStalled &&
          !decide (getLastWrittenPartitionLSN io.unstallScan h.partitionId d < h.partitionLsn) }) hb
    unfold WriterCall.andThen
    split
    · exact hwrite
    · exact flush_buffer _ hwrite _
  · exact hb

/-- A record goes behind everything accepted before, or nowhere. -/
theorem Deduped.route (hw : Deduped segsz pid base mark acc (resetDetect io.resetScan h w d) d)
    (hv : h.validFor pid = true) (hsw : ZeroByteFailure io.switchFlush) (hfull : ZeroByteFailure io.fullFlush)
    (hfl : ZeroByteFailure io.flush) :
    ∃ acc, Deduped segsz pid base mark acc (routeToWriter segsz io h w d).1 (routeToWriter segsz io h w d).2 := by
  have hbuf := routeToWriter_buffer segsz hw.buffer
  by_cases ht : Taken segsz io h (resetDetect io.resetScan h w d) d
  · obtain ⟨hinv, -, -⟩ := routeToWriter_taken hw.inv ht hfl
    have hlast := ht.above
    rw [hw.inv.last] at hlast
    have hall : ∀ a ∈ acc, a.lsn < h.lsn := fun a ha =>
      UInt64.lt_iff_toNat_lt.mp (UInt64.lt_of_le_of_lt (le_lastLsn hw.increasing ha) hlast)
    have hmark : mark < h.partitionLsn :=
      UInt64.lt_of_le_of_lt (mark_le_lastLsn fun a ha => (hw.above a ha).2) hlast
    refine ⟨acc ++ [h], ⟨hinv, hbuf, hw.base_unique, hw.below, fun a ha => ?_, ?_⟩⟩
    · rcases List.mem_append.mp ha with ha | ha
      · exact hw.above a ha
      · obtain rfl := List.mem_singleton.mp ha
        exact ⟨hv, hmark⟩
    · exact List.pairwise_append.mpr ⟨hw.increasing, List.pairwise_singleton _ _, fun a ha b hb => by
        obtain rfl := List.mem_singleton.mp hb
        exact hall a ha⟩
  · obtain ⟨hinv, -, -⟩ := routeToWriter_not_taken hw.inv ht hsw hfull
    exact ⟨acc, hinv, hbuf, hw.base_unique, hw.below, hw.above, hw.increasing⟩

theorem Deduped.flush (hw : Deduped segsz pid base mark acc w d) {os : List WriteOutcome}
    (hos : ZeroByteFailure os) :
    Deduped segsz pid base mark acc (flushPartitionWALWriter os w d).caught.1
      (flushPartitionWALWriter os w d).caught.2 := by
  obtain ⟨hinv, -, -⟩ := flush_caught hw.inv hos
  refine ⟨hinv, ?_, hw.base_unique, hw.below, hw.above, hw.increasing⟩
  rw [caught_buffer]
  exact flush_buffer os hw.buffer d

/-- One record of the partition. -/
theorem ShareDeduped.route (hv : ShareDeduped segsz pid v) (hh : h.validFor pid = true)
    (hfiles : v.2.names.card ≤ maxScanFiles) (hcreate : v.1 = none → io.createScan.SeesNewest v.2)
    (hreset : h.partitionLsn = 1 → io.resetScan.SeesSome v.2) (hsw : ZeroByteFailure io.switchFlush)
    (hfull : ZeroByteFailure io.fullFlush) (hfl : ZeroByteFailure io.flush) :
    ShareDeduped segsz pid (routeShare segsz io h v) := by
  obtain ⟨-, rfl⟩ := validFor_iff.mp hh
  unfold routeShare
  cases hw : writerFor io h.partitionId v with
  | none => exact hv
  | some w =>
    have hstart : ∃ base mark acc, Deduped segsz h.partitionId base mark acc w v.2 := by
      obtain ⟨wo, d⟩ := v
      cases wo with
      | none => exact ⟨_, _, _, deduped_create hv hfiles (hcreate rfl) hw⟩
      | some w' =>
        obtain rfl := Option.some.inj hw
        exact hv
    obtain ⟨base, mark, acc, hstart⟩ := hstart
    obtain ⟨base, mark, acc, hr⟩ := hstart.reset io rfl hfiles hreset
    obtain ⟨acc, hr⟩ := hr.route hh hsw hfull hfl
    exact ⟨base, mark, acc, hr⟩

/-- One round. -/
theorem ShareDeduped.step {dm : Demux} {e : LoopEvent} (hd : dm.Fits)
    (hv : ShareDeduped segsz pid (dm.share pid)) (hfiles : (dm.parwal pid).names.card ≤ maxScanFiles)
    (hsees : ScansSee dm e) (hio : e.Transient) :
    ShareDeduped segsz pid ((demuxStep segsz dm e).share pid) := by
  by_cases hout : dm.ShutOut pid
  · rw [(shutOut_step _ hd hout e).1]
    exact hv
  · rw [share_step_of_not_shutOut _ hd hout e]
    cases e with
    | caughtUp io =>
      simp only [shareStep]
      generalize dm.share pid = v at *
      obtain ⟨wo, d⟩ := v
      cases wo with
      | none => exact hv
      | some w =>
        obtain ⟨base, mark, acc, hw⟩ := hv
        exact ⟨base, mark, acc, hw.flush (hio pid)⟩
    | record r io =>
      obtain ⟨-, hsw, hfull, hfl⟩ := hio
      simp only [shareStep]
      cases hr : r.dataHeader with
      | none => exact hv
      | some h =>
        dsimp only
        split
        · next hp =>
          subst hp
          obtain ⟨hcreate, hreset⟩ := hsees h hr
          have hmagic : h.validFor h.partitionId = true := by
            have hmem : h ∈ partHeaders h.partitionId [r] := by simp [partHeaders, dataHeaders, hr]
            exact partHeaders_of_mem hmem
          exact hv.route hmagic hfiles (fun hnone => hcreate (findWriter_eq_none.mp hnone)) hreset hsw hfull
            hfl
        · exact hv

end

/-- **No duplicates.** While the scans see what they must, no directory ever holds a
`partition_lsn` twice, and each segment file holds them in increasing order. -/
theorem no_duplicates (segsz : WalSegSize) (parwal : Parwal) (es : List LoopEvent)
    (hordered : ∀ pid, (parwal pid).Ordered pid) (hio : ∀ e ∈ es, e.Transient)
    (hfiles : Run.Along (demuxStep segsz) (fun dm _ => ∀ pid, (dm.parwal pid).names.card ≤ maxScanFiles)
      (Demux.fresh parwal) es)
    (hsees : Run.Along (demuxStep segsz) ScansSee (Demux.fresh parwal) es) (pid : Oid) :
    ((((demuxRun segsz (Demux.fresh parwal) es).parwal pid).records).map lsn).Nodup ∧
      ∀ s, Increasing lsn (((demuxRun segsz (Demux.fresh parwal) es).parwal pid).headers s) := by
  have hrun := Run.run_invariant (demuxStep segsz)
    (I := fun dm => dm.Fits ∧ ∀ pid, ShareDeduped segsz pid (dm.share pid))
    ⟨fits_fresh parwal, fun pid => by rw [share_fresh]; exact hordered pid⟩ ?_
    (Run.along_and (demuxStep segsz) hfiles
      (Run.along_and (demuxStep segsz) hsees (Run.along_of_forall (demuxStep segsz) hio)))
  · have hunique := (hrun.2 pid).unique
    exact ⟨hunique.nodup_records, hunique.within⟩
  · rintro dm e ⟨hd, hall⟩ ⟨hfiles, hsees, hio⟩
    exact ⟨fits_step _ hd e, fun pid => (hall pid).step hd (hfiles pid) hsees hio⟩

/-- The record with `partition_lsn` 1 of partition 7, twice; the scan of reset
detection meets `sc`. -/
def sameRecord (sc : ScanIO) : List LoopEvent :=
  [.record (insertedRecord (buildHeader 7 1 0 1)) (.succeeding .ascending),
    .record (insertedRecord (buildHeader 7 1 0 1)) { RecordIO.succeeding .ascending with resetScan := sc }]

theorem transient_sameRecord (sc : ScanIO) : ∀ e ∈ sameRecord sc, e.Transient := by
  have hnil : ZeroByteFailure [] := NoWriteError.zeroByteFailure fun _ => rfl
  simp [sameRecord, LoopEvent.Transient, RecordIO.succeeding, hnil]

theorem files_sameRecord (sc : ScanIO) :
    Run.Along (demuxStep .default) (fun dm _ => ∀ pid, (dm.parwal pid).names.card ≤ maxScanFiles)
      (Demux.fresh fun _ => Dir.empty) (sameRecord sc) := by
  refine ⟨fun pid => Nat.zero_le _, fun pid => ?_, trivial⟩
  by_cases hp : pid = 7
  · subst hp
    decide +kernel
  · have hnone : partHeaders pid (walOf [.record (insertedRecord (buildHeader 7 1 0 1))
        (.succeeding .ascending)]) = [] := by
      rw [partHeaders_record, dataHeader_insertedRecord_build]
      simpa using fun h => hp h.symm
    have hdir := parwal_of_unread .default (fun _ => Dir.empty) hnone
    exact Nat.le_trans (Nat.le_of_eq (congrArg (fun d : Dir => d.names.card) hdir)) (Nat.zero_le _)

/-- The scan sees the file: the second one is dropped. -/
theorem no_duplicates_same :
    ((((demuxRun .default (Demux.fresh fun _ => Dir.empty) (sameRecord Readdir.ascending)).parwal 7).records).map
        lsn).Nodup :=
  (no_duplicates .default (fun _ => Dir.empty) (sameRecord Readdir.ascending) ordered_empty
    (transient_sameRecord _) (files_sameRecord _)
    ⟨fun _ _ => ⟨fun _ => ScanIO.Ok.seesNewest (fun _ => rfl) _, fun _ => ScanIO.Ok.seesSome (fun _ => rfl) _⟩,
      fun _ _ => ⟨fun _ => ScanIO.Ok.seesNewest (fun _ => rfl) _, fun _ => ScanIO.Ok.seesSome (fun _ => rfl) _⟩,
      trivial⟩ 7).1

/-- It cannot open it: the writer starts over and writes the record again. -/
theorem record_twice :
    let es := sameRecord ⟨.ascending, fun _ => false⟩
    Dir.empty.Ordered 7 ∧ (∀ e ∈ es, e.Transient) ∧
      Run.Along (demuxStep .default) (fun dm _ => ∀ pid, (dm.parwal pid).names.card ≤ maxScanFiles)
        (Demux.fresh fun _ => Dir.empty) es ∧
      ¬ Increasing lsn (((demuxRun .default (Demux.fresh fun _ => Dir.empty) es).parwal 7).headers 1) := by
  refine ⟨ordered_empty 7, transient_sameRecord _, files_sameRecord _, ?_⟩
  have hheaders : ((demuxRun .default (Demux.fresh fun _ => Dir.empty)
      (sameRecord ⟨.ascending, fun _ => false⟩)).parwal 7).headers 1 =
        [buildHeader 7 1 0 1, buildHeader 7 1 0 1] := by decide +kernel
  rw [hheaders]
  simp [Increasing]

end PartDist
