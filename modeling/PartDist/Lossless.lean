import PartDist.DemuxOrdered

/-!
# Shares that lose nothing

A record *lands* when its writer accepts it and the write of its bytes right after
that succeeds.

* `lossless_run`: if every record of a partition lands when it is read, its files
  hold all of them behind what the run started on.
* `lands_of_above`: without I/O failure a record above all earlier ones lands.
-/

namespace PartDist

open Bytes PartWALHeader HighWater

/-- The record's writer accepts it and the write of its bytes succeeds. -/
def Lands (segsz : WalSegSize) (io : RecordIO) (h : PartWALHeader) (v : Share) : Prop :=
  ∃ w ∈ writerFor io h.partitionId v,
    Taken segsz io h (resetDetect io.resetScan h w v.2) v.2 ∧ (writeLoop io.flush h.encode).2 = true

instance (segsz : WalSegSize) (io : RecordIO) (h : PartWALHeader) (v : Share) :
    Decidable (Lands segsz io h v) := inferInstanceAs (Decidable (∃ w ∈ writerFor io h.partitionId v, _))

/-- The record a round of the worker reads lands. -/
def LandsWhenRead (segsz : WalSegSize) (dm : Demux) : LoopEvent → Prop
  | .record r io => ∀ h ∈ r.dataHeader, Lands segsz io h (dm.share h.partitionId)
  | .caughtUp _ => True

/-- The record a round reads lies above the watermark of its writer. -/
def AboveWatermark (dm : Demux) : LoopEvent → Prop
  | .record r io => ∀ h ∈ r.dataHeader,
      ∀ w ∈ writerFor io h.partitionId (dm.share h.partitionId), w.lastPartitionLsn < h.partitionLsn
  | .caughtUp _ => True

instance (segsz : WalSegSize) (dm : Demux) : (e : LoopEvent) → Decidable (LandsWhenRead segsz dm e)
  | .record r io =>
    inferInstanceAs (Decidable (∀ h ∈ r.dataHeader, Lands segsz io h (dm.share h.partitionId)))
  | .caughtUp _ => isTrue trivial

instance (dm : Demux) : (e : LoopEvent) → Decidable (AboveWatermark dm e)
  | .record r io =>
    inferInstanceAs (Decidable (∀ h ∈ r.dataHeader,
      ∀ w ∈ writerFor io h.partitionId (dm.share h.partitionId), w.lastPartitionLsn < h.partitionLsn))
  | .caughtUp _ => isTrue trivial

/-- The event, if it is a record of `pid`, lands. -/
def LandsShare (segsz : WalSegSize) (pid : Oid) (v : Share) : LoopEvent → Prop
  | .record r io => ∀ h, r.dataHeader = some h → h.partitionId = pid → Lands segsz io h v
  | .caughtUp _ => True

theorem landsWhenRead_iff {segsz : WalSegSize} {dm : Demux} {e : LoopEvent} :
    LandsWhenRead segsz dm e ↔ ∀ pid, LandsShare segsz pid (dm.share pid) e := by
  cases e with
  | caughtUp io => exact ⟨fun _ _ => trivial, fun _ => trivial⟩
  | record r io =>
    constructor
    · rintro h pid a ha rfl
      exact h a ha
    · intro h a ha
      exact h a.partitionId a ha rfl

section
variable {segsz : WalSegSize} {pid : Oid} {base : Dir} {mark : UInt64} {acc : List PartWALHeader}
  {io : RecordIO} {h : PartWALHeader} {w : PartitionWALWriter} {d : Dir} {v : Share}

theorem resetDetect_clean (hc : CleanWriter w) (sc : ScanIO) : CleanWriter (resetDetect sc h w d) := by
  unfold resetDetect
  split
  · split
    · exact ⟨rfl, rfl⟩
    · exact hc
  · exact hc

theorem routeToWriter_lands (hw : WriterInv segsz base mark acc (resetDetect io.resetScan h w d) d)
    (ht : Taken segsz io h (resetDetect io.resetScan h w d) d)
    (hc : CleanWriter (resetDetect io.resetScan h w d)) (hwrite : (writeLoop io.flush h.encode).2 = true) :
    WriterInv segsz base mark (acc ++ [h]) (routeToWriter segsz io h w d).1
        (routeToWriter segsz io h w d).2 ∧
      (routeToWriter segsz io h w d).2.names = insert (segnoOf segsz h) d.names ∧
      CleanWriter (routeToWriter segsz io h w d).1 := by
  rw [routeToWriter_of_taken ht]
  generalize resetDetect io.resetScan h w d = w at *
  have hpre := preCopyOk_stalled (b := false).mpr ht.calls
  obtain ⟨hraised, -, hn, hinv⟩ := writePartitionWAL_ok (hw.stalled false) hpre
  have hbuf := writePartitionWAL_buffer (hw.stalled false) hpre hc.2
  have hst := writePartitionWAL_stalled segsz (w := { w with enospcStalled := false }) io h d rfl
  obtain ⟨hr, hb, -, -, hs, hn', hinv'⟩ := flush_ok hinv (Or.inr (hbuf ▸ hwrite))
  rw [WriterCall.andThen, hraised, if_neg (by simp), caught_of_ok hr]
  exact ⟨hinv', hn'.trans hn, hs.trans hst, hb⟩

/-- A record that lands is appended to what the files hold. -/
theorem clean_lands (hv : CleanInv segsz pid base mark acc v) (hp : h.partitionId = pid)
    (hl : Lands segsz io h v) (hfirst : h.partitionLsn = 1 → acc = []) :
    ∃ mark', CleanInv segsz pid base mark' (acc ++ [h]) (routeShare segsz io h v) := by
  subst hp
  obtain ⟨w, hw, ht, hwrite⟩ := hl
  obtain ⟨mark', hwp, hinv⟩ := writerFor_inv_any hv.inv hw
  obtain ⟨m, hreset⟩ := resetDetect_inv io (h := h) hinv hfirst
  obtain ⟨hinv', hn, hc⟩ := routeToWriter_lands hreset ht (resetDetect_clean (hv.cleanWriter hw) _) hwrite
  rw [routeShare_eq hw]
  refine ⟨m, ⟨by rw [routeToWriter_partitionId, hwp], hinv'⟩, fun w' hw' => ?_, ?_⟩
  · obtain rfl := Option.some.inj hw'
    exact hc
  · dsimp only
    rw [hn, hv.names, segnos_append, Finset.union_insert]

/-- The files hold all records the run has consumed. -/
structure Lossless (segsz : WalSegSize) (pid : Oid) (base : Dir) (done : List LoopEvent) (v : Share) :
    Prop where
  pos : ∀ a ∈ partHeaders pid (walOf done), 0 < a.lsn
  clean : ∃ mark, CleanInv segsz pid base mark (partHeaders pid (walOf done)) v

theorem lossless_nil (segsz : WalSegSize) (pid : Oid) (base : Dir) :
    Lossless segsz pid base [] (none, base) :=
  ⟨(fun _ ha => nomatch ha), 0, cleanInv_fresh segsz pid base 0⟩

theorem lossless_step {done : List LoopEvent} {e : LoopEvent} (hv : Lossless segsz pid base done v)
    (hl : LandsShare segsz pid v e)
    (hfirst : ∀ h ∈ partHeaders pid (walOf [e]), h.partitionLsn = 1 → partHeaders pid (walOf done) = []) :
    Lossless segsz pid base (done ++ [e]) (shareStep segsz pid v e) := by
  obtain ⟨hpos, mark, hv⟩ := hv
  have hpart := partHeaders_snoc pid done e
  -- an event that routes nothing to the partition
  have hquiet : ∀ v', partHeaders pid (walOf [e]) = [] → v' = v →
      Lossless segsz pid base (done ++ [e]) v' := by
    rintro _ hnone rfl
    rw [hnone, List.append_nil] at hpart
    exact ⟨hpart ▸ hpos, mark, hpart ▸ hv⟩
  cases e with
  | caughtUp io => exact hquiet _ rfl (clean_flush hv _)
  | record r io =>
    have hrec := partHeaders_record pid r io
    simp only [shareStep]
    cases hd : r.dataHeader with
    | none => exact hquiet _ (by rw [hrec, hd]; rfl) rfl
    | some h =>
      rw [hd, Option.toList_some] at hrec
      dsimp only
      by_cases hp : h.partitionId = pid
      · rw [List.filter_cons_of_pos (by simpa using hp), List.filter_nil] at hrec
        rw [hrec] at hpart hfirst
        have hland := hl h hd hp
        rw [if_pos hp]
        refine ⟨fun a ha => ?_, ?_⟩
        · rw [hpart] at ha
          rcases List.mem_append.mp ha with ha | ha
          · exact hpos a ha
          · obtain rfl := List.mem_singleton.mp ha
            obtain ⟨w, -, ht, -⟩ := hland
            exact Nat.lt_of_le_of_lt (Nat.zero_le _) (UInt64.lt_iff_toNat_lt.mp ht.above)
        · rw [hpart]
          exact clean_lands hv hp hland (hfirst h List.mem_cons_self)
      · rw [List.filter_cons_of_neg (by simpa using hp), List.filter_nil] at hrec
        exact hquiet _ hrec (if_neg hp)

/-- The run lemma, for streams in order: nothing comes before `partition_lsn` 1. -/
theorem lossless_run (base : Dir) {es : List LoopEvent} (hinc : Increasing lsn (partHeaders pid (walOf es)))
    (hes : Run.Along (shareStep segsz pid) (LandsShare segsz pid) (none, base) es) :
    Lossless segsz pid base es (es.foldl (shareStep segsz pid) (none, base)) := by
  refine Run.run_history (shareStep segsz pid) (P := LandsShare segsz pid)
    (I := fun done v => Increasing lsn (partHeaders pid (walOf done)) → Lossless segsz pid base done v)
    (fun _ => lossless_nil segsz pid base) ?_ hes hinc
  intro done v e hv hl hinc
  rw [partHeaders_snoc] at hinc
  obtain ⟨hdone, -, hlt⟩ := List.pairwise_append.mp hinc
  have hv := hv hdone
  refine lossless_step hv hl fun h hh h1 => List.eq_nil_iff_forall_not_mem.mpr fun a ha => ?_
  have hlt := hlt a ha h hh
  have hone : h.lsn = 1 := by rw [lsn, h1]; rfl
  have := hv.pos a ha
  omega

/-! ## Without I/O failure -/

/-- The event, if it is a record of `pid`, lies above the watermark. -/
def AboveShare (pid : Oid) (v : Share) : LoopEvent → Prop
  | .record r io => ∀ h, r.dataHeader = some h → h.partitionId = pid →
      ∀ w ∈ writerFor io pid v, w.lastPartitionLsn < h.partitionLsn
  | .caughtUp _ => True

theorem aboveWatermark_iff {dm : Demux} {e : LoopEvent} :
    AboveWatermark dm e ↔ ∀ pid, AboveShare pid (dm.share pid) e := by
  cases e with
  | caughtUp io => exact ⟨fun _ _ => trivial, fun _ => trivial⟩
  | record r io =>
    constructor
    · rintro h pid a ha rfl
      exact h a ha
    · intro h a ha
      exact h a.partitionId a ha rfl

/-- Below `partition_lsn` 1 there is no watermark but 0. -/
theorem eq_zero_of_lt_one {x y : UInt64} (h : x < y) (h1 : y = 1) : x = 0 := by
  rw [h1] at h
  have := UInt64.lt_iff_toNat_lt.mp h
  rw [← UInt64.toNat_inj]
  simp only [UInt64.toNat_zero, UInt64.toNat_one] at this ⊢
  omega

/-- A record above the watermark lands. -/
theorem lands_of_above (hv : CleanInv segsz pid base mark acc v) (hio : io.Ok) (hp : h.partitionId = pid)
    (habove : ∀ w ∈ writerFor io pid v, w.lastPartitionLsn < h.partitionLsn) : Lands segsz io h v := by
  subst hp
  obtain ⟨w, hw⟩ := writerFor_of_mkdir hio.mkdir h.partitionId v
  have habove := habove w hw
  have hreset : resetDetect io.resetScan h w v.2 = w := by
    refine resetDetect_eq fun h1 hpos => ?_
    rw [eq_zero_of_lt_one habove h1] at hpos
    exact absurd hpos UInt64.not_lt_zero
  have hc := hv.cleanWriter hw
  refine ⟨w, hw, ?_, hio.flush _⟩
  rw [hreset]
  exact ⟨fun hs => absurd (hc.1.symm.trans hs) (by decide), habove, hio.preCopy segsz h w⟩

/-- The run lemma, for records above the watermark. -/
theorem lossless_run_above {es : List LoopEvent}
    (hes : Run.Along (shareStep segsz pid) (fun v e => e.Ok ∧ AboveShare pid v e) (none, base) es) :
    Lossless segsz pid base es (es.foldl (shareStep segsz pid) (none, base)) := by
  refine Run.run_history (shareStep segsz pid) (P := fun v e => e.Ok ∧ AboveShare pid v e)
    (I := Lossless segsz pid base) (lossless_nil segsz pid base) ?_ hes
  rintro done v e hv ⟨hok, habove⟩
  obtain ⟨mark, hclean⟩ := hv.clean
  cases e with
  | caughtUp io => exact lossless_step hv trivial fun h hh => nomatch hh
  | record r io =>
    refine lossless_step hv (fun h hd hp => lands_of_above hclean hok hp (habove h hd hp)) fun h hh h1 => ?_
    rw [partHeaders_record] at hh
    obtain ⟨hd, hp⟩ := List.mem_filter.mp hh
    have hd : r.dataHeader = some h := by simpa [eq_comm] using hd
    obtain ⟨w, hw⟩ := writerFor_of_mkdir ( RecordIO.Ok.mkdir hok) pid v
    have hzero := eq_zero_of_lt_one (habove h hd (by simpa using hp) w hw) h1
    -- a watermark of 0 means that nothing was accepted
    by_contra hne
    obtain ⟨l, a, hl⟩ := List.eq_nil_or_concat _ |>.resolve_left hne
    rw [List.concat_eq_append] at hl
    have hinv := hclean.inv
    obtain ⟨wo, d⟩ := v
    cases wo with
    | none => exact hne hinv.2
    | some w' =>
      obtain rfl := Option.some.inj hw
      have hlast := hinv.2.last
      rw [hzero, hl, lastLsn_append] at hlast
      have hpos := hv.pos a (by rw [hl]; simp)
      rw [lsn, ← hlast] at hpos
      exact absurd hpos (by decide)

end

end PartDist
