import PartDist.Cleanup

/-!
# Segment files are appended to

Nothing in the server writes over a byte of a segment file or cuts one off; only
`CleanupPartitionWAL` removes files.

* `Dir.Keeps`: what may have become of the files a cleanup does not take.
* `Server.keeps_step`: what a step of the server does to them.
* `files_append_only`: what a run does, through failed writes, restarts and crashes.
-/

namespace PartDist

open Bytes PartWALHeader

/-- The files of `K` are still there in `d'`, with their bytes and perhaps more. -/
structure Dir.Keeps (K : Nat → Prop) (d d' : Dir) : Prop where
  names : ∀ s, K s → s ∈ d.names → s ∈ d'.names
  content : ∀ s, K s → d.content s <+: d'.content s

namespace Dir.Keeps

section
variable {K K' : Nat → Prop} {base d d' : Dir}

theorem refl (K : Nat → Prop) (d : Dir) : Keeps K d d := ⟨fun _ _ hs => hs, fun _ _ => List.prefix_rfl⟩

theorem trans (h : Keeps K base d) (h' : Keeps K d d') : Keeps K base d' :=
  ⟨fun s hK hs => h'.names s hK (h.names s hK hs), fun s hK => (h.content s hK).trans (h'.content s hK)⟩

theorem append (h : Keeps K base d) (s : Nat) (bs : Bytes) : Keeps K base (d.append s bs) := by
  refine ⟨fun t hK ht => ?_, fun t hK => ?_⟩
  · rw [names_append]
    exact Finset.mem_insert_of_mem (h.names t hK ht)
  · rw [content_append]
    exact (h.content t hK).trans (List.prefix_append _ _)

theorem openCreate (h : Keeps K base d) (s : Nat) : Keeps K base (d.openCreate s) := by
  refine ⟨fun t hK ht => ?_, fun t hK => ?_⟩
  · rw [names_openCreate]
    exact Finset.mem_insert_of_mem (h.names t hK ht)
  · rw [content_openCreate]
    exact h.content t hK

/-- Through a descriptor, also one whose file has been unlinked. -/
theorem write (h : Keeps K base d) (fd : Descriptor) (bs : Bytes) : Keeps K base (d.write fd bs) := by
  unfold Dir.write
  split
  · exact h.append _ _
  · exact h

theorem cleanup (h : Keeps K base d) {segsz : WalSegSize} {keepPtr : XLogRecPtr} {rd : Readdir}
    {unlinkOk : Nat → Bool} (hK : ∀ s, K s → ¬ Expired segsz keepPtr unlinkOk s) :
    Keeps K base (cleanupPartitionWAL segsz keepPtr rd unlinkOk d) := by
  refine ⟨fun s hs hmem => ?_, fun s hs => ?_⟩
  · exact mem_names_cleanup.mpr ⟨h.names s hs hmem, hK s hs⟩
  · rw [content_cleanup (hK s hs)]
    exact h.content s hs

end

/-! ## The Demux -/

section
variable {K : Nat → Prop} {base d : Dir} {segsz : WalSegSize} {io : RecordIO} {h : PartWALHeader}
  {w : PartitionWALWriter}

theorem flush (hd : Keeps K base d) (os : List WriteOutcome) (w : PartitionWALWriter) :
    Keeps K base (flushPartitionWALWriter os w d).dir := by
  unfold flushPartitionWALWriter
  split
  · exact hd
  · cases w.fd with
    | none => exact hd
    | some fd =>
      dsimp only
      split <;> exact hd.write _ _

theorem openSegment (hd : Keeps K base d) (ok : Bool) (segno : Nat) (w : PartitionWALWriter) :
    Keeps K base (openWriterSegment ok segno w d).dir := by
  unfold openWriterSegment
  split
  · exact hd.openCreate segno
  · exact hd

theorem route (hd : Keeps K base d) (segsz : WalSegSize) (io : RecordIO) (h : PartWALHeader)
    (w : PartitionWALWriter) : Keeps K base (routeToWriter segsz io h w d).2 := by
  unfold routeToWriter
  dsimp only
  split
  · generalize unstall io.unstallScan h (resetDetect io.resetScan h w d) d = v
    have hwrite : Keeps K base (writePartitionWAL segsz io h v d).dir :=
      writePartitionWAL_keeps segsz io (P := fun _ d' => Keeps K base d') (h := h)
        (fun os _ u d' hd' => hd'.flush os u) (fun ok segno u d' hd' => hd'.openSegment ok segno u)
        (fun _ _ hd' => hd') hd
    show Keeps K base (WriterCall.dir _)
    unfold WriterCall.andThen
    split
    · exact hwrite
    · exact hwrite.flush io.flush _
  · exact hd

end

end Dir.Keeps

section
variable {K : Nat → Prop} {base : Dir} {pid : Oid} {segsz : WalSegSize} {dm : Demux}

theorem keeps_update {pw : Parwal} {p : Oid} {d : Dir} (h : Dir.Keeps K base (pw pid))
    (hd : p = pid → Dir.Keeps K base d) : Dir.Keeps K base (Function.update pw p d pid) := by
  by_cases hp : p = pid
  · subst hp
    rw [Function.update_self]
    exact hd rfl
  · rw [Function.update_of_ne fun h => hp h.symm]
    exact h

theorem getOrCreate_parwal (io : RecordIO) (p : Oid) (dm : Demux) :
    (getOrCreateWriter io p dm).2.parwal = dm.parwal ∧
      ∀ w ∈ (getOrCreateWriter io p dm).1, w.partitionId = p := by
  unfold getOrCreateWriter
  split
  · next w hf =>
    refine ⟨rfl, fun v hv => ?_⟩
    obtain rfl := Option.some.inj hv
    exact findWriter_partitionId hf
  · split
    · exact ⟨rfl, fun _ hv => absurd hv (Option.not_mem_none _)⟩
    · split
      · next w hc =>
        refine ⟨rfl, fun v hv => ?_⟩
        obtain rfl := Option.some.inj hv
        exact create_partitionId hc
      · exact ⟨rfl, fun _ hv => absurd hv (Option.not_mem_none _)⟩

theorem keeps_flushAll (h : Dir.Keeps K base (dm.parwal pid)) (io : Oid → List WriteOutcome) :
    Dir.Keeps K base ((flushAllWriters io dm).parwal pid) := by
  unfold flushAllWriters
  refine List.foldlRecOn dm.writers _ (motive := fun cur : Demux => Dir.Keeps K base (cur.parwal pid)) h
    fun cur hcur w _ => ?_
  apply keeps_update hcur
  rw [caught_partitionId, flush_partitionId]
  rintro rfl
  exact hcur.flush _ _

/-- Whatever the outcomes of its system calls. -/
theorem keeps_demuxStep (h : Dir.Keeps K base (dm.parwal pid)) (segsz : WalSegSize) (e : LoopEvent) :
    Dir.Keeps K base ((demuxStep segsz dm e).parwal pid) := by
  cases e with
  | caughtUp io => exact keeps_flushAll h io
  | record r io =>
    simp only [demuxStep, processRecord]
    cases r.dataHeader with
    | none => exact h
    | some a =>
      obtain ⟨hparwal, hid⟩ := getOrCreate_parwal io a.partitionId dm
      rw [← hparwal] at h
      simp only [processHeader]
      split
      · next hc =>
        rw [hc] at h
        exact h
      · next w dm' hc =>
        rw [hc] at h hid
        apply keeps_update h
        rw [routeToWriter_partitionId, hid w rfl]
        rintro rfl
        exact h.route segsz io a w

theorem keeps_destroyAll (h : Dir.Keeps K base (dm.parwal pid)) (io : Oid → List WriteOutcome) :
    Dir.Keeps K base (destroyAllWriters io dm pid) := by
  unfold destroyAllWriters
  refine List.foldlRecOn dm.writers _
    (motive := fun left : Parwal × Bool => Dir.Keeps K base (left.1 pid)) h fun left hleft w _ => ?_
  dsimp only
  split
  · exact hleft
  · apply keeps_update hleft
    rintro rfl
    exact hleft.flush _ _

/-! ## Recovery -/

theorem keeps_redoAll {pw : Parwal} (h : Dir.Keeps K base (pw pid)) (segsz : WalSegSize) (rd : Readdir)
    (wal : List XLogRecord) : Dir.Keeps K base (redoAll segsz rd wal pw pid) := by
  rw [redoAll_eq]
  refine List.foldlRecOn _ _ (motive := Dir.Keeps K base) h fun d hd a _ => ?_
  unfold redoDir
  split
  · exact hd
  · rw [writeHeaderToFile_eq]
    exact hd.append _ _

theorem keeps_crashParwal {s : Server} (h : Dir.Keeps K base (s.demux.parwal pid)) (segsz : WalSegSize)
    (created : Bool) : Dir.Keeps K base (s.crashParwal segsz created pid) := by
  unfold Server.crashParwal
  cases (s.wal[s.endRecPtr]?).bind XLogRecord.dataHeader with
  | none => exact h
  | some a =>
    dsimp only
    split
    · apply keeps_update h
      rintro rfl
      exact h.openCreate _
    · exact h

/-! ## The server -/

/-- No cleanup of the partition takes the segment. -/
def Label.Spares (segsz : WalSegSize) (pid : Oid) (t : Nat) : Label → Prop
  | .cleanup p keepPtr _ unlinkOk => p = pid → ¬ Expired segsz keepPtr unlinkOk t
  | _ => True

instance (t : Nat) : (l : Label) → Decidable (l.Spares segsz pid t)
  | .cleanup p keepPtr _ unlinkOk => inferInstanceAs (Decidable (p = pid → ¬ Expired segsz keepPtr unlinkOk t))
  | .begin .. | .advance .. | .otherRecord _ | .walFlush _ | .checkpoint _ | .demuxStart | .demux _
  | .demuxStop .. | .flushBegin | .flushPoll _ | .restart | .crash .. => isTrue trivial

/-- Files that the step's cleanup, if it is one, spares are kept. -/
theorem Server.keeps_step {s : Server} (h : Dir.Keeps K base (s.demux.parwal pid)) {l : Label}
    (hl : ∀ t, K t → l.Spares segsz pid t) : Dir.Keeps K base ((serverStep segsz s l).demux.parwal pid) := by
  have hbackend : l.Backend → Dir.Keeps K base ((serverStep segsz s l).demux.parwal pid) := fun hl' =>
    (s.sameWorker_backend segsz hl').demux ▸ h
  cases l with
  | demuxStart =>
    simp only [serverStep]
    split
    · exact h
    · exact h
  | demux round =>
    simp only [serverStep]
    split
    · -- at most one event of the Demux
      unfold Server.demuxIteration
      split
      · cases round with
        | caughtUp io => exact keeps_demuxStep h segsz (.caughtUp io)
        | _ => exact h
      · cases round with
        | record io saveOk =>
          simp only [Server.readRound]
          split
          · next r _ =>
            rw [Server.advanceProgress_eq]
            exact keeps_demuxStep h segsz (.record r io)
          · exact h
        | _ => exact h
    · exact h
  | demuxStop io destroyIo saveOk =>
    simp only [serverStep]
    split
    · exact keeps_destroyAll (keeps_demuxStep h segsz (.caughtUp io)) destroyIo
    · exact h
  | cleanup p keepPtr rd unlinkOk =>
    apply keeps_update h
    rintro rfl
    exact h.cleanup fun t hK => hl t hK rfl
  | restart => simp only [serverStep]; split <;> exact h
  | crash keep created rd =>
    simp only [serverStep]
    split
    · exact keeps_redoAll (keeps_crashParwal h segsz created) segsz rd _
    · exact h
  | _ => exact hbackend trivial

theorem Server.keeps_run {s : Server} {ls : List Label} (h : Dir.Keeps K base (s.demux.parwal pid))
    (hls : ∀ l ∈ ls, ∀ t, K t → l.Spares segsz pid t) :
    Dir.Keeps K base ((serverRun segsz s ls).demux.parwal pid) :=
  List.foldlRecOn ls (serverStep segsz) (motive := fun s' => Dir.Keeps K base (s'.demux.parwal pid)) h
    fun _ hs l hl => Server.keeps_step hs (hls l hl)

end

/-- **Append-only files.** Over any run of the server, with whatever failures, restarts and
crashes, a segment file that no cleanup takes keeps its name and its bytes: what it holds
is the beginning of what it holds later. -/
theorem files_append_only (segsz : WalSegSize) (pid : Oid) (t : Nat) (s : Server) (ls : List Label)
    (hls : ∀ l ∈ ls, l.Spares segsz pid t) :
    (t ∈ (s.demux.parwal pid).names → t ∈ ((serverRun segsz s ls).demux.parwal pid).names) ∧
      (s.demux.parwal pid).content t <+: ((serverRun segsz s ls).demux.parwal pid).content t := by
  have hkeeps : Dir.Keeps (· = t) (s.demux.parwal pid) ((serverRun segsz s ls).demux.parwal pid) :=
    Server.keeps_run (Dir.Keeps.refl _ _) fun l hl u hu => hu ▸ hls l hl
  exact ⟨hkeeps.names t rfl, hkeeps.content t rfl⟩

/-- A torn file of segment 4, through a cleanup up to its start and a crash. -/
theorem files_append_only_torn :
    [1, 2, 3] <+: ((serverRun .default (Server.boot [] fun _ => Dir.empty.append 4 [1, 2, 3])
      [.cleanup 7 (segEnd .default 3) .ascending fun _ => true, .crash 0 false .ascending]).demux.parwal 7).content 4 :=
  (files_append_only .default 7 4 (Server.boot [] fun _ => Dir.empty.append 4 [1, 2, 3])
    [.cleanup 7 (segEnd .default 3) .ascending fun _ => true, .crash 0 false .ascending] (by decide)).2

end PartDist
