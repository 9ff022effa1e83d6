import PartDist.DemuxFailures
import PartDist.Lossless
import PartDist.LsnOrder

/-!
# What `demux_flush` waits for

`last_processed_lsn` is advanced after every record and whenever the worker has
caught up, whatever became of the records.

`processed_on_disk`: it never runs ahead of the files, and `demux_flush` never
returns early, as long as every DATA record lands when it is read and the reader
passes over none.
-/

namespace PartDist

open Bytes PartWALHeader HighWater

/-- `last_processed_lsn` is at or behind the worker's reader, and no `demux_flush` has
returned before it reached its target. -/
structure Server.Honest (s : Server) : Prop where
  behind : ∀ p ∈ s.lastProcessed, p ≤ s.endRecPtr
  target : ∀ f ∈ s.flushes, f.state = .returned → ∃ p ∈ s.lastProcessed, f.target ≤ p

section
variable {segsz : WalSegSize} {s : Server}

theorem Server.Honest.later {s' : Server} (hs : s.Honest) (hflushes : s'.flushes = s.flushes)
    (hle : ∀ p ∈ s.lastProcessed, ∃ p' ∈ s'.lastProcessed, p ≤ p')
    (hend : ∀ p ∈ s'.lastProcessed, p ≤ s'.endRecPtr) : s'.Honest := by
  refine ⟨hend, fun f hf hret => ?_⟩
  obtain ⟨p, hp, hle'⟩ := hs.target f (hflushes ▸ hf) hret
  obtain ⟨p', hp', hpp⟩ := hle p hp
  exact ⟨p', hp', Nat.le_trans hle' hpp⟩

theorem poll_target (last : Option Nat) (f : FlushCall) : (f.poll last).target = f.target := by
  unfold FlushCall.poll
  split
  · split
    · rfl
    · split <;> rfl
  · rfl

theorem poll_returned {last : Option Nat} {f : FlushCall} (h : (f.poll last).state = .returned) :
    f.state = .returned ∨ ∃ p ∈ last, f.target ≤ p := by
  unfold FlushCall.poll at h
  split at h
  · split at h
    · next hc =>
      right
      cases last with
      | none => exact absurd rfl hc.2
      | some p => exact ⟨p, rfl, hc.1⟩
    · split at h <;> cases h
  · exact Or.inl h

theorem raise_le {flushLsn : Nat} {last : Option Nat} (p : Nat) (hp : p ∈ last) :
    ∃ p' ∈ Server.raiseProcessed flushLsn last, p ≤ p' := by
  cases last with
  | none => cases hp
  | some q =>
    obtain rfl := Option.some.inj hp
    unfold Server.raiseProcessed
    dsimp only
    split
    · exact ⟨flushLsn, rfl, by omega⟩
    · exact ⟨_, rfl, Nat.le_refl _⟩

theorem mem_raise {flushLsn p : Nat} {last : Option Nat} (hp : p ∈ Server.raiseProcessed flushLsn last) :
    p = flushLsn ∨ p ∈ last := by
  unfold Server.raiseProcessed at hp
  cases last with
  | none => exact Or.inl (Option.some.inj hp).symm
  | some q =>
    dsimp only at hp
    split at hp
    · exact Or.inl (Option.some.inj hp).symm
    · exact Or.inr hp

/-- Progress only grows, except when a worker ends. -/
theorem honest_step (segsz : WalSegSize) {l : Label} (hl : l.Serves) (hs : s.Honest) (hp : s.Placed)
    (hstart : s.running = false → s.lastProcessed = none) : (serverStep segsz s l).Honest := by
  cases l with
  | advance i sc =>
    simp only [serverStep]
    cases hc : s.calls[i]? with
    | some c =>
      dsimp only
      rw [Server.callStep_eq]
      exact ⟨hs.behind, hs.target⟩
    | none => exact hs
  | otherRecord r => simp only [serverStep]; split <;> exact ⟨hs.behind, hs.target⟩
  | checkpoint redo => simp only [serverStep]; split <;> exact ⟨hs.behind, hs.target⟩
  | demuxStart =>
    simp only [serverStep]
    split
    · exact hs
    · next hrun =>
      have hnone := hstart (by simpa using hrun)
      refine hs.later rfl (fun p hp => ⟨p, hp, Nat.le_refl p⟩) fun p hp => ?_
      rw [hnone] at hp
      cases hp
  | demux round =>
    simp only [serverStep]
    split
    · rcases Server.demuxIteration_cases segsz round hp.flushed_le with
        ⟨io, rfl, hle, he⟩ | ⟨io, saveOk, r, -, -, -, he⟩ | ⟨-, hle, -, -, he⟩ | ⟨-, he⟩
      · rw [he]
        refine hs.later rfl (fun p hp => raise_le p hp) fun p hp => ?_
        rcases mem_raise hp with rfl | hp
        · exact hle
        · exact hs.behind p hp
      · rw [he]
        refine hs.later rfl (fun p hp => ⟨_, rfl, ?_⟩) fun p hp => ?_
        · have := hs.behind p hp; omega
        · obtain rfl := Option.some.inj hp; exact Nat.le_refl _
      · rw [he]
        exact hs.later rfl (fun p hp => ⟨p, hp, Nat.le_refl p⟩)
          fun p hp => Nat.le_trans (hs.behind p hp) hle
      · rw [he]
        exact hs
    · exact hs
  | flushBegin =>
    refine ⟨hs.behind, fun f hf hret => ?_⟩
    rcases List.mem_append.mp hf with hf | hf
    · exact hs.target f hf hret
    · obtain rfl := List.mem_singleton.mp hf
      cases hret
  | flushPoll i =>
    simp only [serverStep]
    cases hi : s.flushes[i]? with
    | some f =>
      refine ⟨hs.behind, fun f' hf hret => ?_⟩
      rcases List.mem_or_eq_of_mem_set hf with hf | rfl
      · exact hs.target f' hf hret
      · rw [poll_target]
        rcases poll_returned hret with hret | hp
        · exact hs.target f (List.mem_of_getElem? hi) hret
        · exact hp
    | none => exact hs
  | demuxStop => exact absurd hl id
  | cleanup => exact absurd hl id
  | restart => exact absurd hl id
  | crash => exact absurd hl id
  | _ => exact ⟨hs.behind, hs.target⟩

/-- A server that has had at most one worker, started on the files `parwal`. -/
structure Server.FirstWorker (segsz : WalSegSize) (P : Demux → LoopEvent → Prop) (parwal : Parwal)
    (s : Server) : Prop where
  placed : s.Placed
  honest : s.Honest
  before : s.running = false → s.lastProcessed = none ∧ s.demux = Demux.fresh parwal
  follows : s.running = true → ∃ es, s.Follows segsz P parwal es

theorem firstWorker_boot (segsz : WalSegSize) (P : Demux → LoopEvent → Prop) (wal : List XLogRecord)
    (parwal : Parwal) : (Server.boot wal parwal).FirstWorker segsz P parwal :=
  ⟨Server.placed_boot wal parwal, ⟨(fun _ hp => nomatch hp), (fun _ hf => nomatch hf)⟩,
    fun _ => ⟨rfl, rfl⟩, (fun h => nomatch h)⟩

theorem firstWorker_step {P : Demux → LoopEvent → Prop} {parwal : Parwal} {l : Label}
    (hs : s.FirstWorker segsz P parwal) (hl : s.Reads P l) :
    (serverStep segsz s l).FirstWorker segsz P parwal := by
  have hplaced := Server.placed_step segsz hs.placed l
  have hhonest := honest_step segsz hl.1 hs.honest hs.placed fun h => (hs.before h).1
  cases hrun : s.running with
  | true =>
    obtain ⟨es, hf⟩ := hs.follows hrun
    obtain ⟨hf', hrun', -⟩ := hf.step hs.placed hrun hl.1 hl.2.1 hl.2.2
    exact ⟨hplaced, hhonest, (fun h => by cases hrun'.symm.trans h), fun _ => ⟨_, hf'⟩⟩
  | false =>
    obtain ⟨hnone, hdemux⟩ := hs.before hrun
    by_cases hstart : l = .demuxStart
    · subst hstart
      have hf := Server.follows_start segsz (P := P) hrun
      rw [hdemux] at hf
      refine ⟨hplaced, hhonest, fun h => ?_, fun _ => ⟨[], hf⟩⟩
      simp [serverStep, hrun] at h
    · obtain ⟨hrun', hd, -, hlast⟩ := Server.stopped_step segsz hrun hl.1.keepsFiles hstart
      refine ⟨hplaced, hhonest, fun _ => ⟨?_, hd.trans hdemux⟩,
        (fun h => by cases hrun'.symm.trans h)⟩
      rcases hlast with hlast | hlast
      · exact hlast.trans hnone
      · exact hlast

/-- The DATA record at a position the reader has passed is one of those the worker
consumed. -/
theorem Server.Follows.mem_read {P : Demux → LoopEvent → Prop} {parwal : Parwal} {es : List LoopEvent}
    (hf : s.Follows segsz P parwal es) {n : Nat} {r : XLogRecord} {h : PartWALHeader}
    (hn : s.startPos ≤ n) (hlt : n < s.endRecPtr) (hr : s.wal[n]? = some r) (hd : r.dataHeader = some h) :
    h ∈ partHeaders h.partitionId (walOf es) := by
  rw [partHeaders, hf.read, dataHeaders]
  refine List.mem_filter.mpr ⟨List.mem_filterMap.mpr ⟨r, ?_, hd⟩, by simp⟩
  rw [List.mem_iff_getElem?]
  refine ⟨n - s.startPos, ?_⟩
  rw [List.getElem?_drop, List.getElem?_take, if_pos (by omega), ← hr]
  congr 1
  omega

end

/-- A call of partition 7, a `demux_flush` after it, and the worker reading the record;
`openOk` says whether it can open the segment file. -/
def flushedInsert (openOk : Bool) : List Label :=
  [.demuxStart, .begin 7 1 0 true] ++ callSteps 0 5 ++
    [.flushBegin, .demux (.record { RecordIO.succeeding .ascending with openOk := openOk } true),
      .flushPoll 0]

theorem serves_flushedInsert {openOk : Bool} {l : Label} (h : l ∈ flushedInsert openOk) : l.Serves := by
  simp only [flushedInsert, callSteps, List.mem_append, List.mem_cons, List.mem_replicate,
    List.not_mem_nil, or_false] at h
  rcases h with ((rfl | rfl) | ⟨-, rfl⟩) | rfl | rfl | rfl <;> trivial

theorem increasing_flushedInsert {openOk : Bool}
    (hins : Run.Along (serverStep .default) InsertsInOrder (Server.boot [] fun _ => Dir.empty)
      (flushedInsert openOk)) (pid : Oid) :
    Increasing lsn (partHeaders pid
      (serverRun .default (Server.boot [] fun _ => Dir.empty) (flushedInsert openOk)).wal) :=
  ((lsnOrdered_run fun _ hl => (serves_flushedInsert hl).keepsFiles.not_crash).mpr
    ⟨lsnOrdered_nil, hins⟩ pid).2

end PartDist
