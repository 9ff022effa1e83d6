import PartDist.DemuxOrdered

/-!
# The Demux under failing `open` and `write`

Streams in `partition_lsn` order, any pattern of failures of `open` and `write`
(a failing `write` writes nothing), the last `FlushAllWriters` without failure.

The run adds a record to its segment file exactly when the writer accepted it at the
moment it was read; nothing that was accepted is lost and nothing that was not is
read again.  So the record ends up in the file once if it was accepted and the file did
not have it, or was not accepted and the file had it once (`stalled_loses_nothing_iff`).
-/

namespace PartDist

open Bytes PartWALHeader HighWater

/-- Failures of `open` and `write` only, a failing `write` writing nothing. -/
def LoopEvent.Transient : LoopEvent → Prop
  | .record _ io => io.mkdirOk = true ∧ ZeroByteFailure io.switchFlush ∧
      ZeroByteFailure io.fullFlush ∧ ZeroByteFailure io.flush
  | .caughtUp io => ∀ pid, ZeroByteFailure (io pid)

/-- How often the file of its segment holds a record. -/
def Dir.copies (segsz : WalSegSize) (d : Dir) (h : PartWALHeader) : Nat := (d.headers (segnoOf segsz h)).count h

/-- If the event is a record of `pid` above `mark` that `base` does not have, its writer
accepts it; one that `base` has once the writer does not accept, and none is there twice. -/
def AcceptsShare (segsz : WalSegSize) (base : Dir) (mark : UInt64) (pid : Oid) (v : Share) : LoopEvent → Prop
  | .record r io => ∀ h, r.dataHeader = some h → h.partitionId = pid → mark < h.partitionLsn →
      ∀ w, writerFor io pid v = some w → base.copies segsz h ≤ 1 ∧
        (Taken segsz io h (resetDetect io.resetScan h w v.2) v.2 ↔ base.copies segsz h = 0)
  | .caughtUp _ => True

/-- The writer of every DATA record above its partition's initial watermark is, if the initial
file does not have the record, not stalled when it is read (or un-stalled for it) and below
it, and the calls before the copy succeed; if the file has it, that is not so. -/
def Accepts (segsz : WalSegSize) (parwal : Parwal) (mark : Oid → UInt64) (dm : Demux) (e : LoopEvent) : Prop :=
  ∀ pid, AcceptsShare segsz (parwal pid) (mark pid) pid (dm.share pid) e

/-- The file of `h` has grown by whole records, and `h` is in it once: among these or among
those it had. -/
def StoredOnce (segsz : WalSegSize) (base d : Dir) (h : PartWALHeader) : Prop :=
  ∃ hs, d.content (segnoOf segsz h) = base.content (segnoOf segsz h) ++ encodeAll hs ∧
    base.copies segsz h + hs.count h = 1

/-- The file of segment `s` has grown by whole records, `h` exactly once among them. -/
def AppendedOnce (base d : Dir) (s : Nat) (h : PartWALHeader) : Prop :=
  ∃ hs, d.content s = base.content s ++ encodeAll hs ∧ hs.count h = 1

section
variable {segsz : WalSegSize} {pid : Oid} {base : Dir} {mark : UInt64} {es : List LoopEvent}

/-- Stored once, if `acc` is what has been added. -/
def Settled (segsz : WalSegSize) (base : Dir) (acc : List PartWALHeader) (h : PartWALHeader) : Prop :=
  base.copies segsz h ≤ 1 ∧ (h ∈ acc ↔ base.copies segsz h = 0)

/-- What a run on a stream in order has accepted, and when that settles everything. -/
structure Progress (segsz : WalSegSize) (pid : Oid) (base : Dir) (mark : UInt64)
    (done : List LoopEvent) (acc : List PartWALHeader) (v : Share) : Prop where
  inv : ∃ mark', ShareInv segsz pid base mark' acc v
  sub : acc.Sublist (partHeaders pid (walOf done))
  pos : ∀ a ∈ acc, 0 < a.lsn
  all : (∀ h ∈ partHeaders pid (walOf done), mark < h.partitionLsn → Settled segsz base acc h) ↔
    Run.Along (shareStep segsz pid) (AcceptsShare segsz base mark pid) (none, base) done

theorem progress_nil (segsz : WalSegSize) (pid : Oid) (base : Dir) (mark : UInt64) :
    Progress segsz pid base mark [] [] (none, base) :=
  ⟨⟨0, rfl, rfl⟩, List.Sublist.refl _, (fun _ h => nomatch h),
    ⟨fun _ => trivial, fun _ => (fun _ h => nomatch h)⟩⟩

/-- An event that routes nothing to the partition. -/
theorem Progress.other {done : List LoopEvent} {acc : List PartWALHeader} {e : LoopEvent}
    (hv : Progress segsz pid base mark done acc (done.foldl (shareStep segsz pid) (none, base)))
    (hnone : partHeaders pid (walOf [e]) = []) {v' : Share}
    (hinv : ∃ mark', ShareInv segsz pid base mark' acc v')
    (hacc : AcceptsShare segsz base mark pid (done.foldl (shareStep segsz pid) (none, base)) e) :
    Progress segsz pid base mark (done ++ [e]) acc v' := by
  have hpart := partHeaders_snoc pid done e
  rw [hnone, List.append_nil] at hpart
  refine ⟨hinv, hpart ▸ hv.sub, hv.pos, ?_⟩
  rw [hpart, hv.all, Run.along_snoc]
  exact ⟨fun h => ⟨h, hacc⟩, fun h => h.1⟩

theorem flushShare_inv {acc : List PartWALHeader} {mark' : UInt64} {v : Share}
    (hv : ShareInv segsz pid base mark' acc v) {os : List WriteOutcome} (hos : ZeroByteFailure os) :
    ShareInv segsz pid base mark' acc (flushShare os v) := by
  obtain ⟨wo, d⟩ := v
  cases wo with
  | none => exact hv
  | some w => exact ⟨by rw [caught_partitionId, flush_partitionId, hv.1], (flush_caught hv.2 hos).1⟩

/-- One record more, when what is taken of the others stays as it is. -/
theorem settled_snoc {l acc acc' : List PartWALHeader} {h : PartWALHeader}
    (hsame : ∀ a ∈ l, (a ∈ acc' ↔ a ∈ acc)) :
    (∀ a ∈ l ++ [h], mark < a.partitionLsn → Settled segsz base acc' a) ↔
      (∀ a ∈ l, mark < a.partitionLsn → Settled segsz base acc a) ∧
        (mark < h.partitionLsn → Settled segsz base acc' h) := by
  rw [List.forall_mem_append, List.forall_mem_singleton]
  refine and_congr_left fun _ => forall₂_congr fun a ha => ?_
  rw [Settled, Settled, hsame a ha]

/-- One record of the partition. -/
theorem Progress.route {done : List LoopEvent} {acc : List PartWALHeader} {r : XLogRecord}
    {io : RecordIO} {h : PartWALHeader}
    (hv : Progress segsz pid base mark done acc (done.foldl (shareStep segsz pid) (none, base)))
    (hd : r.dataHeader = some h) (hp : h.partitionId = pid) (ht : (LoopEvent.record r io).Transient)
    (hlt : ∀ a ∈ partHeaders pid (walOf done), a.lsn < h.lsn) :
    ∃ acc', Progress segsz pid base mark (done ++ [.record r io]) acc'
      (routeShare segsz io h (done.foldl (shareStep segsz pid) (none, base))) := by
  obtain ⟨hmk, hsw, hfull, hfl⟩ := ht
  have hpart : partHeaders pid (walOf (done ++ [.record r io])) = partHeaders pid (walOf done) ++ [h] := by
    rw [partHeaders_snoc, partHeaders_record, hd]
    simp [hp]
  have hnot : h ∉ partHeaders pid (walOf done) := fun hm => absurd (hlt h hm) (Nat.lt_irrefl _)
  have halong := Run.along_snoc (shareStep segsz pid) (P := AcceptsShare segsz base mark pid) (s := (none, base))
    (l := done) (e := .record r io)
  have hall := hv.all
  obtain ⟨mark', hinv⟩ := hv.inv
  have hsub := hv.sub
  have hpos := hv.pos
  generalize List.foldl (shareStep segsz pid) (none, base) done = v at *
  obtain ⟨w, hw⟩ := writerFor_of_mkdir hmk h.partitionId v
  obtain ⟨mark'', hwp, hwinv⟩ := writerFor_inv_any hinv (hp ▸ hw)
  -- a reset can only strike before anything was accepted
  have hnil : h.partitionLsn = 1 → acc = [] := by
    intro h1
    apply List.eq_nil_iff_forall_not_mem.mpr
    intro a ha
    have hlt := hlt a (hsub.subset ha)
    have hpos := hpos a ha
    have hone : h.lsn = 1 := by rw [lsn, h1]; rfl
    omega
  obtain ⟨m, hreset⟩ := resetDetect_inv io (h := h) hwinv hnil
  have hiff : AcceptsShare segsz base mark pid v (.record r io) ↔ (mark < h.partitionLsn →
      base.copies segsz h ≤ 1 ∧
        (Taken segsz io h (resetDetect io.resetScan h w v.2) v.2 ↔ base.copies segsz h = 0)) := by
    subst hp
    constructor
    · exact fun hacc hm => hacc h hd rfl hm w hw
    · intro htaken h' hd' _ hm w' hw'
      obtain rfl := Option.some.inj (hd.symm.trans hd')
      obtain rfl := Option.some.inj (hw.symm.trans hw')
      exact htaken hm
  have hold : ∀ a ∈ partHeaders pid (walOf done), (a ∈ acc ++ [h] ↔ a ∈ acc) := by
    intro a ha
    rw [List.mem_append, List.mem_singleton, or_iff_left]
    rintro rfl
    exact hnot ha
  rw [routeShare_eq hw]
  by_cases htaken : Taken segsz io h (resetDetect io.resetScan h w v.2) v.2
  · obtain ⟨hinv', -, -⟩ := routeToWriter_taken hreset htaken hfl
    refine ⟨acc ++ [h], ⟨⟨m, ?_, hinv'⟩, ?_, ?_, ?_⟩⟩
    · rw [routeToWriter_partitionId, hwp]
    · rw [hpart]
      exact hsub.append (List.Sublist.refl _)
    · intro a ha
      rcases List.mem_append.mp ha with ha | ha
      · exact hpos a ha
      · obtain rfl := List.mem_singleton.mp ha
        exact Nat.lt_of_le_of_lt (Nat.zero_le _) (UInt64.lt_iff_toNat_lt.mp htaken.above)
    · rw [halong, ← hall, hiff, hpart, settled_snoc hold]
      have hmem : h ∈ acc ++ [h] := List.mem_append_right _ List.mem_cons_self
      simp only [Settled, htaken, hmem]
  · obtain ⟨hinv', -, -⟩ := routeToWriter_not_taken hreset htaken hsw hfull
    refine ⟨acc, ⟨⟨m, ?_, hinv'⟩, ?_, hpos, ?_⟩⟩
    · rw [routeToWriter_partitionId, hwp]
    · rw [hpart]
      exact hsub.trans (List.sublist_append_left _ _)
    · rw [halong, ← hall, hiff, hpart, settled_snoc fun _ _ => Iff.rfl]
      have hmem : h ∉ acc := fun hm => hnot (hsub.subset hm)
      simp only [Settled, htaken, hmem]

/-- The run lemma. -/
theorem progress_run (segsz : WalSegSize) (base : Dir) (mark : UInt64)
    (hinc : Increasing lsn (partHeaders pid (walOf es)))
    (hio : ∀ e ∈ es, e.Transient) :
    ∃ acc, Progress segsz pid base mark es acc (es.foldl (shareStep segsz pid) (none, base)) := by
  refine (Run.run_history (shareStep segsz pid) (s := (none, base)) (P := fun _ e => e.Transient)
    (I := fun done v => v = done.foldl (shareStep segsz pid) (none, base) ∧
      (Increasing lsn (partHeaders pid (walOf done)) → ∃ acc, Progress segsz pid base mark done acc v))
    ⟨rfl, fun _ => ⟨[], progress_nil segsz pid base mark⟩⟩ ?_ (Run.along_of_forall _ hio)).2 hinc
  rintro done v e ⟨rfl, hv⟩ ht
  refine ⟨by rw [List.foldl_append]; rfl, fun hinc => ?_⟩
  rw [partHeaders_snoc] at hinc
  obtain ⟨hdone, -, hlt⟩ := List.pairwise_append.mp hinc
  obtain ⟨acc, hv⟩ := hv hdone
  cases e with
  | caughtUp io =>
    obtain ⟨mark', hinv⟩ := hv.inv
    exact ⟨acc, hv.other rfl ⟨mark', flushShare_inv hinv (ht pid)⟩ trivial⟩
  | record r io =>
    rw [partHeaders_record] at hlt
    simp only [shareStep]
    cases hd : r.dataHeader with
    | none =>
      refine ⟨acc, hv.other (by rw [partHeaders_record, hd]; rfl) hv.inv ?_⟩
      intro h hd'
      rw [hd] at hd'
      cases hd'
    | some h =>
      rw [hd] at hlt
      dsimp only
      split
      · next hp => exact hv.route hd hp ht fun a ha => hlt a ha h (by simpa using hp)
      · next hp =>
        refine ⟨acc, hv.other ?_ hv.inv ?_⟩
        · rw [partHeaders_record, hd]
          simpa using hp
        · intro h' hd' hp'
          rw [hd] at hd'
          cases hd'
          exact absurd hp' hp

/-- After a flush without failure everything accepted is on disk. -/
theorem content_flushShare {acc : List PartWALHeader} {mark' : UInt64} {v : Share}
    (hv : ShareInv segsz pid base mark' acc v) {os : List WriteOutcome} (hos : NoWriteError os)
    (s : Nat) : (flushShare os v).2.content s = base.content s ++ encodeAll (inSegment segsz s acc) := by
  obtain ⟨wo, d⟩ := v
  cases wo with
  | none =>
    obtain ⟨rfl, rfl⟩ := hv
    simp [flushShare, inSegment]
  | some w =>
    obtain ⟨hinv, -, hclean⟩ := flush_caught hv.2 hos.zeroByteFailure
    have hb := hinv.bytes s
    rw [(hclean hos).1] at hb
    simpa [flushShare] using hb

theorem appendedOnce_iff {acc : List PartWALHeader} {d : Dir} (hacc : acc.Nodup)
    (hd : ∀ s, d.content s = base.content s ++ encodeAll (inSegment segsz s acc)) (h : PartWALHeader) :
    AppendedOnce base d (segnoOf segsz h) h ↔ h ∈ acc := by
  constructor
  · rintro ⟨hs, hc, hcount⟩
    rw [hd] at hc
    have henc := List.append_cancel_left hc
    have heq : inSegment segsz (segnoOf segsz h) acc = hs := by
      rw [← readHeaders_encodeAll (inSegment _ _ _), henc, readHeaders_encodeAll]
    have hmem : h ∈ hs := List.count_pos_iff.mp (by omega)
    rw [← heq] at hmem
    exact List.mem_of_mem_filter hmem
  · intro hmem
    refine ⟨_, hd _, ?_⟩
    have hnodup : (inSegment segsz (segnoOf segsz h) acc).Nodup := hacc.filter _
    exact List.count_eq_one_of_mem hnodup (List.mem_filter.mpr ⟨hmem, by simp⟩)

theorem storedOnce_iff {acc : List PartWALHeader} {d : Dir} (hacc : acc.Nodup)
    (hd : ∀ s, d.content s = base.content s ++ encodeAll (inSegment segsz s acc)) (h : PartWALHeader) :
    StoredOnce segsz base d h ↔ Settled segsz base acc h := by
  have hcount : (inSegment segsz (segnoOf segsz h) acc).count h = if h ∈ acc then 1 else 0 := by
    rw [inSegment, List.count_filter (by simp), hacc.count]
  have hstored : StoredOnce segsz base d h ↔ base.copies segsz h + (if h ∈ acc then 1 else 0) = 1 := by
    constructor
    · rintro ⟨hs, hc, hone⟩
      rw [hd] at hc
      have hsame : inSegment segsz (segnoOf segsz h) acc = hs := by
        rw [← readHeaders_encodeAll (inSegment _ _ _), List.append_cancel_left hc, readHeaders_encodeAll]
      rw [← hcount, hsame]
      exact hone
    · exact fun hone => ⟨_, hd _, by rw [hcount]; exact hone⟩
  rw [hstored, Settled]
  by_cases hm : h ∈ acc
  · simp only [hm, if_true, true_iff]
    omega
  · simp only [hm, if_false, false_iff]
    omega

/-- In a file of whole records it is how often the file has the record. -/
theorem StoredOnce.count {d : Dir} {h : PartWALHeader} (hstored : StoredOnce segsz base d h)
    (hwhole : headerSize ∣ (base.content (segnoOf segsz h)).length) : d.copies segsz h = 1 := by
  obtain ⟨hs, hc, hone⟩ := hstored
  rw [Dir.copies, Dir.headers, hc, readHeaders_append hwhole, readHeaders_encodeAll, List.count_append]
  exact hone

/-- One partition: its records above `mark` are all on disk once exactly when each that was
not there at the start, and no other, was accepted as it was read. -/
theorem partition_complete_iff (hinc : Increasing lsn (partHeaders pid (walOf es)))
    (hio : ∀ e ∈ es, e.Transient) {os : List WriteOutcome} (hos : NoWriteError os) :
    (∀ h ∈ partHeaders pid (walOf es), mark < h.partitionLsn →
        StoredOnce segsz base (flushShare os (es.foldl (shareStep segsz pid) (none, base))).2 h) ↔
      Run.Along (shareStep segsz pid) (AcceptsShare segsz base mark pid) (none, base) es := by
  obtain ⟨acc, hv⟩ := progress_run segsz base mark hinc hio
  obtain ⟨mark', hinv⟩ := hv.inv
  have hnodup : acc.Nodup := hv.sub.nodup (Increasing.nodup lsn hinc)
  simp only [← hv.all, storedOnce_iff hnodup (content_flushShare hinv hos)]

end

/-- The share that the last `FlushAllWriters` leaves. -/
theorem share_after_flush (segsz : WalSegSize) {es : List LoopEvent}
    (hparts : (namedPartitions (walOf es)).card ≤ demuxMaxPartitions) (parwal : Parwal)
    (last : Oid → List WriteOutcome) (pid : Oid) :
    (flushAllWriters last (demuxRun segsz (Demux.fresh parwal) es)).share pid =
      flushShare (last pid) (es.foldl (shareStep segsz pid) (none, parwal pid)) := by
  have hroomy := (roomy_run segsz (roomy_fresh hparts parwal) (Finset.Subset.refl _)).1
  rw [(share_flushAllWriters last hroomy pid).1, share_of_fresh _ hparts]

/-- A new writer accepts its first record if it can open the file and nothing on
disk is as recent. -/
theorem taken_first {segsz : WalSegSize} {io : RecordIO} {h : PartWALHeader} {w : PartitionWALWriter}
    (hw : writerFor io h.partitionId (none, Dir.empty) = some w) (h0 : 0 < h.partitionLsn) :
    Taken segsz io h (resetDetect io.resetScan h w Dir.empty) Dir.empty ↔ io.openOk = true := by
  obtain ⟨hfd, hseg, hst, hb⟩ := writerFor_fresh rfl hw
  have hinv : ShareInv segsz h.partitionId Dir.empty 0 [] (none, Dir.empty) := ⟨rfl, rfl⟩
  have hlast : w.lastPartitionLsn = 0 :=
    (writerFor_inv hinv (getLast_empty _ Dir.names_empty) hw).2.last
  have hreset : resetDetect io.resetScan h w Dir.empty = w :=
    resetDetect_eq fun _ hpos => absurd (hlast ▸ hpos) (by decide)
  have hsw : ¬ w.switches segsz h := fun hs => hs.1 hseg
  rw [hreset]
  constructor
  · exact fun ht => ht.calls.opened (Or.inr hfd)
  · intro hopen
    refine ⟨fun hs => absurd (hst.symm.trans hs) (by decide), hlast ▸ h0,
      ⟨fun hs => absurd hs hsw, fun _ => hopen, fun _ hlt => ?_⟩⟩
    rw [hb] at hlt
    exact absurd hlt (by decide)

/-- Two records of partition 7; while the first one is read `open` fails. -/
def openFailure : List LoopEvent :=
  [.record (insertedRecord (buildHeader 7 1 0 1)) { RecordIO.succeeding .ascending with openOk := false },
    .record (insertedRecord (buildHeader 7 1 0 2)) (.succeeding .ascending)]

/-- The newest file has record 1, an older one record 2. -/
def hiddenRecord : Dir :=
  (Dir.empty.append 5 (buildHeader 7 1 (5 * 2 ^ 24) 1).encode).append 1 (buildHeader 7 1 (2 ^ 24) 2).encode

end PartDist
