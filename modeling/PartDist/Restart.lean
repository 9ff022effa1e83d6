import PartDist.Lossless
import PartDist.LsnOrder

/-!
# Graceful stops and restarts

`DemuxWorkerMain` saves its position when it is stopped, but starts reading at the
flush position; `LoadDemuxProgress` has no caller.

`restarts_lose_nothing`: the files hold every record before the reader exactly once,
over any number of stops and restarts, as long as no DATA record lies between the
position the last worker had reached and the one the next starts at, none is passed
over, and every record read lies above its writer's watermark.
-/

namespace PartDist

open Bytes PartWALHeader HighWater

def Label.starts : Label → Bool
  | .demuxStart => true
  | _ => false

/-- A worker that starts finds no DATA record between the position the one before it
had reached and its own start. -/
def StartsWhereItEnded (s : Server) (l : Label) : Prop :=
  l.starts = true → s.running = false → dataHeaders ((s.wal.take s.flushed).drop s.endRecPtr) = []

instance (s : Server) (l : Label) : Decidable (StartsWhereItEnded s l) :=
  inferInstanceAs (Decidable (_ → _ → _ = _))

/-- The record a round reads is above its writer's watermark, and a writer for it can
be had. -/
def Admits (dm : Demux) (e : LoopEvent) : Prop := AboveWatermark dm e ∧ dm.HasRoom e

instance (dm : Demux) (e : LoopEvent) : Decidable (Admits dm e) :=
  inferInstanceAs (Decidable (_ ∧ _))

/-- A step without failure, crash or cleanup after which nothing is missing. -/
def Resumes (s : Server) (l : Label) : Prop :=
  (l.Ok ∧ l.KeepsFiles) ∧ s.SkipsNothing l ∧ StartsWhereItEnded s l ∧ ∀ e ∈ s.event l, Admits s.demux e

section
variable {segsz : WalSegSize} {s : Server} {base : Parwal} {es : List LoopEvent}

/-- The share of each partition after what a worker has done. -/
theorem lossless_share
    (halong : Run.Along (demuxStep segsz) (fun dm e => e.Ok ∧ Admits dm e) (Demux.fresh base) es) :
    (∀ pid, Lossless segsz pid (base pid) es ((demuxRun segsz (Demux.fresh base) es).share pid)) ∧
      (demuxRun segsz (Demux.fresh base) es).Fits := by
  have hroom := Run.along_mono _ (fun _ _ h => h.2.2) halong
  obtain ⟨hshare, hfits⟩ := share_run (fits_fresh base) hroom
  refine ⟨fun pid => ?_, hfits⟩
  have habove := (along_share (fits_fresh base) hroom (P := fun pid v e => e.Ok ∧ AboveShare pid v e)).mp
    (Run.along_mono _ (fun _ _ h pid => ⟨h.1, aboveWatermark_iff.mp h.2.1 pid⟩) halong) pid
  rw [hshare]
  exact lossless_run_above habove

/-- Stopping a worker with nothing buffered leaves the files as they are. -/
theorem stopped_parwal {dm : Demux} (hd : dm.Fits)
    (hclean : ∀ pid, ∃ mark acc, CleanInv segsz pid (base pid) mark acc (dm.share pid))
    (io destroyIo : Oid → List WriteOutcome) :
    destroyAllWriters destroyIo (flushAllWriters io dm) = dm.parwal := by
  have hshare : ∀ pid, (flushAllWriters io dm).share pid = dm.share pid := by
    intro pid
    obtain ⟨mark, acc, hv⟩ := hclean pid
    rw [(share_flushAllWriters io hd.roomy pid).1, clean_flush hv]
  have hfits := (share_flushAllWriters io hd.roomy 0).2.fits
  have hparwal : (flushAllWriters io dm).parwal = dm.parwal :=
    funext fun pid => congrArg Prod.snd (hshare pid)
  rw [destroyAllWriters_clean, hparwal]
  intro w hw
  obtain ⟨mark, acc, hv⟩ := hclean w.partitionId
  rw [← hshare] at hv
  exact (hv.clean w (findWriter_of_mem hfits.nodup hw)).2

/-- The files hold each record before the reader once. -/
def Server.HoldsRead (segsz : WalSegSize) (s : Server) : Prop :=
  ∀ pid, Dir.Grown segsz Dir.empty (partHeaders pid (s.wal.take s.endRecPtr)) (s.demux.parwal pid)

/-- Between the flush position and a reader beyond it there is no DATA record. -/
def Server.Behind (s : Server) : Prop := dataHeaders ((s.wal.take s.endRecPtr).drop s.flushed) = []

/-- The invariant over stops and restarts: between workers the files hold what has
been read; a running worker started on such files. -/
structure Server.Kept (segsz : WalSegSize) (s : Server) : Prop where
  placed : s.Placed
  behind : s.Behind
  stopped : s.running = false → s.HoldsRead segsz
  running : s.running = true → ∃ base es,
    s.Follows segsz (fun dm e => e.Ok ∧ Admits dm e) base es ∧
      ∀ pid, Dir.Grown segsz Dir.empty (partHeaders pid (s.wal.take s.startPos)) (base pid)

theorem Server.Kept.holdsRead (hs : s.Kept segsz) : s.HoldsRead segsz := by
  cases hrun : s.running with
  | false => exact hs.stopped hrun
  | true =>
    intro pid
    obtain ⟨base, es, hf, hbase⟩ := hs.running hrun
    obtain ⟨-, mark, hclean⟩ := (lossless_share hf.along).1 pid
    have hgrown := (hbase pid).trans hclean.grown
    have hread : partHeaders pid (walOf es) = partHeaders pid ((s.wal.take s.endRecPtr).drop s.startPos) := by
      rw [partHeaders, hf.read, partHeaders]
    have hsplit := drop_take_split s.wal (Nat.zero_le s.startPos) hs.placed.start_le
    rw [List.drop_zero, List.drop_zero] at hsplit
    rw [hread, ← partHeaders_append, ← hsplit, ← hf.demux] at hgrown
    exact hgrown

theorem kept_boot (segsz : WalSegSize) : (Server.boot [] fun _ => Dir.empty).Kept segsz :=
  ⟨Server.placed_boot _ _, rfl, fun _ _ => Dir.grown_refl segsz _, (fun h => nomatch h)⟩

theorem take_wal_step {l : Label} (hl : l.KeepsFiles) {n : Nat} (hn : n ≤ s.wal.length) :
    (serverStep segsz s l).wal.take n = s.wal.take n := by
  rw [Server.wal_step _ hl.not_crash, List.take_append_of_le_length hn]

theorem dataHeaders_drop_le {wal : List XLogRecord} {a b : Nat} (hab : a ≤ b) (h : dataHeaders (wal.drop a) = []) :
    dataHeaders (wal.drop b) = [] :=
  List.sublist_nil.mp (h ▸ (List.drop_sublist_drop_left wal hab).filterMap _)

theorem behind_of_le (h : s.endRecPtr ≤ s.flushed) : s.Behind := by
  rw [Server.Behind, List.drop_eq_nil_of_le (by rw [List.length_take]; omega)]
  rfl

/-- Two positions with no DATA record between them have the same records before them. -/
theorem partHeaders_take_eq {wal : List XLogRecord} {a b : Nat} (hab : dataHeaders ((wal.take b).drop a) = [])
    (hba : dataHeaders ((wal.take a).drop b) = []) (pid : Oid) :
    partHeaders pid (wal.take a) = partHeaders pid (wal.take b) := by
  rcases Nat.le_total a b with hle | hle
  · have hsplit := drop_take_split wal (Nat.zero_le a) hle
    rw [List.drop_zero, List.drop_zero] at hsplit
    rw [partHeaders, partHeaders, hsplit, dataHeaders_append, hab, List.append_nil]
  · have hsplit := drop_take_split wal (Nat.zero_le b) hle
    rw [List.drop_zero, List.drop_zero] at hsplit
    rw [partHeaders, partHeaders, hsplit, dataHeaders_append, hba, List.append_nil]

/-- What has been read is on disk. -/
theorem Server.Behind.read_eq (hb : s.Behind) (pid : Oid) :
    partHeaders pid (s.wal.take s.endRecPtr) = partHeaders pid (s.wal.take (min s.endRecPtr s.flushed)) := by
  refine partHeaders_take_eq ?_ ?_ pid
  · rw [List.drop_eq_nil_of_le (by rw [List.length_take]; omega)]
    rfl
  · rcases Nat.le_total s.endRecPtr s.flushed with hle | hle
    · rw [Nat.min_eq_left hle, List.drop_eq_nil_of_le (by rw [List.length_take]; omega)]
      rfl
    · rw [Nat.min_eq_right hle]
      exact hb

/-- A reader that passes no DATA record over only gets beyond the flush position where there
is none. -/
theorem behind_step (segsz : WalSegSize) {l : Label} (hs : s.Placed) (hb : s.Behind) (hskip : s.SkipsNothing l)
    (hl : l.KeepsFiles) : (serverStep segsz s l).Behind := by
  have hsame : ∀ s' : Server, s'.wal.take s'.endRecPtr = s.wal.take s.endRecPtr → s.flushed ≤ s'.flushed → s'.Behind :=
    fun s' htake hle => dataHeaders_drop_le hle (by rw [htake]; exact hb)
  have hbackend : l.Backend → (serverStep segsz s l).Behind := fun hl' => by
    have hworker := s.sameWorker_backend segsz hl'
    refine hsame _ ?_ hworker.flushed
    rw [hworker.endRecPtr, Server.wal_step _ hl.not_crash, List.take_append_of_le_length hs.end_le]
  cases l with
  | demuxStart =>
    simp only [serverStep]
    split
    · exact hb
    · exact behind_of_le (Nat.le_refl _)
  | demux round =>
    simp only [serverStep]
    split
    · next hrun =>
      rcases Server.demuxIteration_cases segsz round hs.flushed_le with
        ⟨io, -, -, he⟩ | ⟨io, saveOk, r, -, hlt, -, he⟩ | ⟨hlt, -, -, -, he⟩ | ⟨-, he⟩
      · rw [he]; exact hb
      · rw [he]; exact behind_of_le hlt
      · rw [he]; exact dataHeaders_drop_le (Nat.le_of_lt hlt) (hskip hrun hlt)
      · rw [he]; exact hb
    · exact hb
  | demuxStop io destroyIo saveOk =>
    simp only [serverStep]
    split
    · rw [Server.demuxShutdown, Server.saveDemuxProgress_eq]
      exact hb
    · exact hb
  | restart =>
    simp only [serverStep]
    split
    · exact hb
    · exact behind_of_le hs.end_le
  | cleanup => exact absurd hl id
  | crash => exact absurd hl id
  | _ => exact hbackend trivial

theorem kept_step {l : Label} (hs : s.Kept segsz) (hl : Resumes s l) : (serverStep segsz s l).Kept segsz := by
  obtain ⟨⟨hok, hfiles⟩, hskip, hstart, hadmits⟩ := hl
  have hplaced := Server.placed_step segsz hs.placed l
  have hbehind := behind_step segsz hs.placed hs.behind hskip hfiles
  cases hrun : s.running with
  | true =>
    obtain ⟨base, es, hf, hbase⟩ := hs.running hrun
    by_cases hserves : l.Serves
    · obtain ⟨hf', hrun', hst⟩ := hf.step hs.placed hrun hserves hskip
        fun e he => ⟨hok.event e he, hadmits e he⟩
      refine ⟨hplaced, hbehind, (fun h => by cases hrun'.symm.trans h), fun _ => ⟨base, _, hf', fun pid => ?_⟩⟩
      have hle := Nat.le_trans hs.placed.start_le hs.placed.end_le
      rw [hst, take_wal_step hfiles hle]
      exact hbase pid
    · cases l with
      | demuxStop io destroyIo saveOk =>
        -- nothing is buffered, so the files stay as they are
        have hclean : ∀ pid, ∃ mark acc, CleanInv segsz pid (base pid) mark acc (s.demux.share pid) := by
          intro pid
          obtain ⟨-, mark, hclean⟩ := (lossless_share hf.along).1 pid
          rw [← hf.demux] at hclean
          exact ⟨mark, _, hclean⟩
        have hfits : s.demux.Fits := hf.demux ▸ (lossless_share hf.along).2
        have hholds := hs.holdsRead
        refine ⟨hplaced, hbehind, fun _ pid => ?_, fun h => ?_⟩
        · simp only [serverStep, hrun, if_true]
          rw [Server.demuxShutdown, Server.saveDemuxProgress_eq]
          simp only [Demux.fresh, demuxStep, stopped_parwal hfits hclean]
          exact hholds pid
        · simp only [serverStep, hrun, if_true] at h
          cases h
      | restart =>
        simp only [serverStep, hrun, if_true]
        exact hs
      | cleanup => exact absurd hfiles id
      | crash => exact absurd hfiles id
      | _ => exact absurd trivial hserves
  | false =>
    have hholds := hs.stopped hrun
    by_cases hdemux : l = .demuxStart
    · subst hdemux
      have hf := Server.follows_start segsz (P := fun dm e => e.Ok ∧ Admits dm e) hrun
      refine ⟨hplaced, hbehind, fun h => ?_, fun _ => ⟨_, [], hf, fun pid => ?_⟩⟩
      · simp [serverStep, hrun] at h
      · have hsame := partHeaders_take_eq hs.behind (hstart rfl hrun) pid
        simp only [serverStep, hrun, Bool.false_eq_true, if_false, hsame]
        exact hholds pid
    · obtain ⟨hrun', hd, hend, -⟩ := Server.stopped_step segsz hrun hfiles hdemux
      refine ⟨hplaced, hbehind, fun _ pid => ?_, (fun h => by cases hrun'.symm.trans h)⟩
      rw [hd, hend, take_wal_step hfiles hs.placed.end_le]
      exact hholds pid

end

/-- **Restarts.** In every state of every run whose steps all resume where the last
worker ended, the files hold each record the Demux has come past exactly once; once it
has caught up these are all records of pg_wal. -/
theorem restarts_lose_nothing (segsz : WalSegSize) (ls : List Label)
    (hls : Run.Along (serverStep segsz) Resumes (Server.boot [] fun _ => Dir.empty) ls) (pid : Oid) :
    let s := serverRun segsz (Server.boot [] fun _ => Dir.empty) ls
    (s.demux.parwal pid).records =
      (partHeaders pid (s.wal.take s.endRecPtr) : Multiset PartWALHeader) := by
  intro s
  have hkept : s.Kept segsz :=
    Run.run_invariant (serverStep segsz) (kept_boot segsz) (fun s l hs hl => kept_step hs hl) hls
  rw [(hkept.holdsRead pid).records fun s => ⟨0, rfl⟩]
  simp [Dir.records]

/-- A call of partition 7 from its beginning to its return. -/
def wholeCall : List Label := .begin 7 1 0 true :: callSteps 0 5

/-- A worker is stopped and the server restarted; `before` happens before that,
`between` before the next worker starts, `after` once it has. -/
def stopAndStart (before between after : List Label) : List Label :=
  .demuxStart :: before ++ [.demuxStop (fun _ => []) (fun _ => []) true, .restart] ++ between ++
    .demuxStart :: after

theorem ok_stopAndStart {before between after : List Label}
    (h : ∀ l ∈ before ++ between ++ after, l.Ok ∧ l.Serves) :
    ∀ l ∈ stopAndStart before between after, l.Ok ∧ l.KeepsFiles := by
  intro l hl
  simp only [stopAndStart, List.cons_append, List.nil_append, List.append_assoc, List.mem_cons,
    List.mem_append] at hl
  have hgiven : l ∈ before ++ between ++ after → l.Ok ∧ l.KeepsFiles :=
    fun hm => ⟨(h l hm).1, (h l hm).2.keepsFiles⟩
  simp only [List.mem_append] at hgiven
  rcases hl with rfl | hl | rfl | rfl | hl | rfl | hl
  · exact ⟨trivial, trivial⟩
  · exact hgiven (Or.inl (Or.inl hl))
  · exact ⟨⟨fun _ _ => rfl, fun _ _ => rfl, rfl⟩, trivial⟩
  · exact ⟨trivial, trivial⟩
  · exact hgiven (Or.inl (Or.inr hl))
  · exact ⟨trivial, trivial⟩
  · exact hgiven (Or.inr hl)

theorem ok_wholeCall {l : Label} (h : l ∈ wholeCall) : l.Ok ∧ l.Serves := by
  rcases List.mem_cons.mp h with rfl | h
  · exact ⟨rfl, trivial⟩
  · exact ok_callSteps h

theorem ok_callAndRead {l : Label} (h : l ∈ wholeCall ++ readSteps 1) : l.Ok ∧ l.Serves := by
  rcases List.mem_append.mp h with h | h
  · exact ok_wholeCall h
  · exact ok_readSteps h

/-- One record before the restart and one after it. -/
theorem restarts_lose_nothing_two :
    let ls := stopAndStart (wholeCall ++ readSteps 1) [] (wholeCall ++ readSteps 1)
    ((serverRun .default (Server.boot [] fun _ => Dir.empty) ls).demux.parwal 7).records =
      {buildHeader 7 1 0 1, buildHeader 7 1 0 2} := by
  intro ls
  have hok : ∀ l ∈ ls, l.Ok ∧ l.KeepsFiles := ok_stopAndStart fun l hl => by
    rw [List.append_nil] at hl
    rcases List.mem_append.mp hl with hl | hl
    · exact ok_callAndRead hl
    · exact ok_callAndRead hl
  have hrun := restarts_lose_nothing .default ls (Run.along_and _ (Run.along_of_forall _ hok)
    (Run.along_and _ (by decide +kernel) (Run.along_and _ (by decide +kernel) (by decide +kernel)))) 7
  exact hrun.trans (by decide +kernel)

/-- A record written after the stop and before the next start is never read. -/
theorem unread_record_lost :
    let ls := stopAndStart [] wholeCall [.demux (.caughtUp fun _ => [])]
    let s := serverRun .default (Server.boot [] fun _ => Dir.empty) ls
    (∀ l ∈ ls, l.Ok ∧ l.KeepsFiles) ∧
      Run.Along (serverStep .default) Server.SkipsNothing (Server.boot [] fun _ => Dir.empty) ls ∧
      Run.Along (serverStep .default) InsertsInOrder (Server.boot [] fun _ => Dir.empty) ls ∧
      s.running = true ∧ s.endRecPtr = s.wal.length ∧
      (s.demux.parwal 7).records ≠ (partHeaders 7 s.wal : Multiset PartWALHeader) := by
  refine ⟨ok_stopAndStart fun l hl => ?_, by decide +kernel, by decide +kernel, by decide +kernel,
    by decide +kernel, by decide +kernel⟩
  rw [List.nil_append] at hl
  rcases List.mem_append.mp hl with hl | hl
  · exact ok_wholeCall hl
  · obtain rfl := List.mem_singleton.mp hl
    exact ⟨fun _ _ => rfl, trivial⟩

end PartDist
