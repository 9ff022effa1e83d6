import PartDist.DemuxFlush

/-!
# The worker's progress

`last_processed_lsn` and `.demux_progress` (demux_worker.c), and the `demux_flush` calls that
poll the former.  Positions are those of whole records, and a crash is one of the server: the
rename of a save, which no fsync of the directory follows, is kept.

* `progress_monotone`: neither goes back or beyond the flush position, the file not even
  over restarts and crashes.
* `demux_flush_returns`: a `demux_flush` returns before its timeout as soon as the worker has
  made more productive iterations than it was records behind.
-/

namespace PartDist

/-- Steps that are neither of a call, nor of the loop, nor of `demux_flush`, while the server
stays up. -/
def Label.Aside : Label → Prop
  | .otherRecord _ => True
  | .walFlush _ => True
  | .checkpoint _ => True
  | .demuxStart => True
  | .demuxStop .. => True
  | .cleanup .. => True
  | _ => False

def Label.StaysUp : Label → Prop
  | .restart => False
  | .crash .. => False
  | _ => True

/-- The second position, if the first is one, is one that is no less. -/
def Advances (a b : Option Nat) : Prop := ∀ p ∈ a, ∃ q ∈ b, p ≤ q

/-- Both positions are ones that the reader has come to and that are on disk. -/
structure Server.Marked (s : Server) : Prop where
  file : ∀ p ∈ s.progressFile, p ≤ s.endRecPtr ∧ p ≤ s.flushed
  processed : ∀ p ∈ s.lastProcessed, p ≤ s.endRecPtr ∧ p ≤ s.flushed

/-- What a step does to them, of a server that stays up if `up`. -/
structure Server.Progresses (up : Prop) (s s' : Server) : Prop where
  marked : s'.Marked
  file : Advances s.progressFile s'.progressFile
  processed : up → Advances s.lastProcessed s'.lastProcessed

section
variable {segsz : WalSegSize} {s : Server} {l : Label}

theorem Advances.refl (a : Option Nat) : Advances a a := fun p hp => ⟨p, hp, Nat.le_refl p⟩

theorem Advances.trans {a b c : Option Nat} (h : Advances a b) (h' : Advances b c) : Advances a c := by
  intro p hp
  obtain ⟨q, hq, hpq⟩ := h p hp
  obtain ⟨r, hr, hqr⟩ := h' q hq
  exact ⟨r, hr, hpq.trans hqr⟩

theorem aside_step (segsz : WalSegSize) (s : Server) (hl : l.Aside) :
    (serverStep segsz s l).calls = s.calls ∧ s.flushed ≤ (serverStep segsz s l).flushed ∧
      (serverStep segsz s l).flushes = s.flushes ∧ (serverStep segsz s l).lastProcessed = s.lastProcessed := by
  cases l with
  | otherRecord r =>
    simp only [serverStep]
    split <;> exact ⟨rfl, Nat.le_refl _, rfl, rfl⟩
  | walFlush n => exact ⟨rfl, Nat.le_max_left _ _, rfl, rfl⟩
  | checkpoint redo =>
    simp only [serverStep]
    split <;> exact ⟨rfl, Nat.le_refl _, rfl, rfl⟩
  | demuxStart =>
    simp only [serverStep]
    split <;> exact ⟨rfl, Nat.le_refl _, rfl, rfl⟩
  | demuxStop io destroyIo saveOk =>
    simp only [serverStep]
    split
    · rw [Server.demuxShutdown, Server.saveDemuxProgress_eq]
      exact ⟨rfl, Nat.le_refl _, rfl, rfl⟩
    · exact ⟨rfl, Nat.le_refl _, rfl, rfl⟩
  | cleanup pid keepPtr rd unlinkOk => exact ⟨rfl, Nat.le_refl _, rfl, rfl⟩
  | _ => exact absurd hl id

/-! ## No way back -/

/-- Both stay, and so does all that lies before them. -/
theorem Server.Marked.keep {up : Prop} {s' : Server} (hs : s.Marked) (hfile : s'.progressFile = s.progressFile)
    (hlast : s'.lastProcessed = s.lastProcessed ∨ ¬ up ∧ s'.lastProcessed = none)
    (hend : ∀ p, p ≤ s.endRecPtr → p ≤ s.flushed → p ≤ s'.endRecPtr ∧ p ≤ s'.flushed) : s.Progresses up s' := by
  refine ⟨⟨fun p hp => ?_, fun p hp => ?_⟩, ?_, fun hup => ?_⟩
  · rw [hfile] at hp
    exact hend p (hs.file p hp).1 (hs.file p hp).2
  · rcases hlast with h | ⟨-, h⟩
    · rw [h] at hp
      exact hend p (hs.processed p hp).1 (hs.processed p hp).2
    · rw [h] at hp
      cases hp
  · rw [hfile]
    exact Advances.refl _
  · rw [hlast.resolve_right fun h => h.1 hup]
    exact Advances.refl _

theorem saveDemuxProgress_file (ok : Bool) (s : Server) : (s.saveDemuxProgress ok).progressFile = s.progressFile ∨
    (s.saveDemuxProgress ok).progressFile = some (min s.endRecPtr s.flushed) := by
  unfold Server.saveDemuxProgress
  split
  · exact Or.inr rfl
  · exact Or.inl rfl

theorem advanceProgress_file (ok : Bool) (s : Server) : (s.advanceProgress ok).progressFile = s.progressFile ∨
    (s.advanceProgress ok).progressFile = some (min s.endRecPtr s.flushed) := by
  unfold Server.advanceProgress
  dsimp only
  split
  · exact saveDemuxProgress_file ok { s with lastProcessed := some s.endRecPtr, saveCounter := s.saveCounter + 1 }
  · exact Or.inl rfl

/-- `SaveDemuxProgress`, at a position no reader was beyond. -/
theorem Server.Marked.save (hs : s.Marked) (s' : Server) (hend : s.endRecPtr ≤ s'.endRecPtr)
    (hflushed : s'.flushed = s.flushed)
    (hfile : s'.progressFile = s.progressFile ∨ s'.progressFile = some (min s'.endRecPtr s'.flushed)) :
    (∀ p ∈ s'.progressFile, p ≤ s'.endRecPtr ∧ p ≤ s'.flushed) ∧ Advances s.progressFile s'.progressFile := by
  rcases hfile with h | h
  · rw [h, hflushed]
    exact ⟨fun p hp => ⟨(hs.file p hp).1.trans hend, (hs.file p hp).2⟩, Advances.refl _⟩
  · rw [h, hflushed]
    refine ⟨fun p hp => ?_, fun p hp => ⟨_, rfl, ?_⟩⟩
    · obtain rfl := Option.some.inj hp
      exact ⟨Nat.min_le_left _ _, Nat.min_le_right _ _⟩
    · exact Nat.le_min.mpr ⟨(hs.file p hp).1.trans hend, (hs.file p hp).2⟩

theorem marked_iteration (segsz : WalSegSize) (hs : s.Marked) (hp : s.Placed) (round : Round) :
    s.Progresses True (s.demuxIteration segsz round) := by
  rcases Server.demuxIteration_cases segsz round hp.flushed_le with
    ⟨io, -, hle, he⟩ | ⟨io, saveOk, r, rfl, hlt, hr, -⟩ | ⟨-, hle, -, -, he⟩ | ⟨-, he⟩
  · rw [he]
    refine ⟨⟨hs.file, fun p hp => ?_⟩, Advances.refl _, fun _ p hp => raise_le p hp⟩
    rcases mem_raise hp with rfl | hp
    · exact ⟨hle, Nat.le_refl _⟩
    · exact hs.processed p hp
  · have he : s.demuxIteration segsz (.record io saveOk) = Server.advanceProgress saveOk { s with
        demux := demuxStep segsz s.demux (.record r io)
        endRecPtr := s.endRecPtr + 1
        nullStreak := 0 } := by
      simp only [Server.demuxIteration, Nat.not_le.mpr hlt, if_false, Server.readRound, hr]
    have hfile := advanceProgress_file saveOk { s with
        demux := demuxStep segsz s.demux (.record r io)
        endRecPtr := s.endRecPtr + 1
        nullStreak := 0 }
    rw [he, Server.advanceProgress_eq]
    obtain ⟨hmarked, hadv⟩ := hs.save { s with
        endRecPtr := s.endRecPtr + 1
        progressFile := (Server.advanceProgress saveOk { s with
          demux := demuxStep segsz s.demux (.record r io)
          endRecPtr := s.endRecPtr + 1
          nullStreak := 0 }).progressFile } (Nat.le_succ _) rfl hfile
    refine ⟨⟨hmarked, fun p hp => ?_⟩, hadv, fun _ p hp => ⟨_, rfl, ?_⟩⟩
    · obtain rfl := Option.some.inj hp
      exact ⟨Nat.le_refl _, hlt⟩
    · exact (hs.processed p hp).1.trans (Nat.le_succ _)
  · rw [he]
    exact hs.keep rfl (Or.inl rfl) fun p hp hp' => ⟨hp.trans hle, hp'⟩
  · rw [he]
    exact hs.keep rfl (Or.inl rfl) fun p hp hp' => ⟨hp, hp'⟩

theorem progresses_step (segsz : WalSegSize) (hs : s.Marked) (hp : s.Placed) (l : Label) :
    s.Progresses l.StaysUp (serverStep segsz s l) := by
  have hsame : s.Progresses l.StaysUp s := hs.keep rfl (Or.inl rfl) fun p hp hp' => ⟨hp, hp'⟩
  cases l with
  | begin pid flags origLsn mkdirOk => exact hs.keep rfl (Or.inl rfl) fun p hp hp' => ⟨hp, hp'⟩
  | advance i sc =>
    simp only [serverStep]
    split
    · next c _ =>
      have hflushed : s.flushed ≤ (Server.callStep sc i c s).flushed := Server.flushed_callStep (Nat.le_refl _)
      rw [Server.callStep_eq]
      exact hs.keep rfl (Or.inl rfl) fun p hp hp' => ⟨hp, hp'.trans hflushed⟩
    · exact hsame
  | otherRecord r =>
    simp only [serverStep]
    split
    · exact hs.keep rfl (Or.inl rfl) fun p hp hp' => ⟨hp, hp'⟩
    · exact hsame
  | walFlush n => exact hs.keep rfl (Or.inl rfl) fun p hp hp' => ⟨hp, hp'.trans (Nat.le_max_left _ _)⟩
  | checkpoint redo =>
    simp only [serverStep]
    split
    · exact hs.keep rfl (Or.inl rfl) fun p hp hp' => ⟨hp, hp'⟩
    · exact hsame
  | demuxStart =>
    simp only [serverStep]
    split
    · exact hsame
    · exact hs.keep rfl (Or.inl rfl) fun p _ hp' => ⟨hp', hp'⟩
  | demux round =>
    simp only [serverStep]
    split
    · exact marked_iteration segsz hs hp round
    · exact hsame
  | demuxStop io destroyIo saveOk =>
    simp only [serverStep]
    split
    · have hfile := saveDemuxProgress_file saveOk s
      rw [Server.demuxShutdown, Server.saveDemuxProgress_eq]
      obtain ⟨hmarked, hadv⟩ := hs.save { s with progressFile := (s.saveDemuxProgress saveOk).progressFile }
        (Nat.le_refl _) rfl hfile
      exact ⟨⟨hmarked, hs.processed⟩, hadv, fun _ => Advances.refl _⟩
    · exact hsame
  | flushBegin => exact hs.keep rfl (Or.inl rfl) fun p hp hp' => ⟨hp, hp'⟩
  | flushPoll i =>
    simp only [serverStep]
    split
    · exact hs.keep rfl (Or.inl rfl) fun p hp hp' => ⟨hp, hp'⟩
    · exact hsame
  | cleanup pid keepPtr rd unlinkOk => exact hs.keep rfl (Or.inl rfl) fun p hp hp' => ⟨hp, hp'⟩
  | restart =>
    simp only [serverStep]
    split
    · exact hsame
    · exact hs.keep rfl (Or.inr ⟨id, rfl⟩) fun q hq hq' => ⟨hq, hq'.trans hp.flushed_le⟩
  | crash keep created rd =>
    simp only [serverStep]
    split
    · next h => exact hs.keep rfl (Or.inr ⟨id, rfl⟩) fun p _ hp' => ⟨hp'.trans h.1, hp'.trans h.1⟩
    · exact hsame

theorem marked_boot (wal : List XLogRecord) (parwal : Parwal) : (Server.boot wal parwal).Marked :=
  ⟨fun _ hp => absurd hp (Option.not_mem_none _), fun _ hp => absurd hp (Option.not_mem_none _)⟩

theorem marked_run (segsz : WalSegSize) (hs : s.Marked) (hp : s.Placed) (ls : List Label) :
    (serverRun segsz s ls).Marked ∧ (serverRun segsz s ls).Placed ∧
      Advances s.progressFile (serverRun segsz s ls).progressFile ∧
      ((∀ l ∈ ls, l.StaysUp) → Advances s.lastProcessed (serverRun segsz s ls).lastProcessed) := by
  induction ls generalizing s with
  | nil => exact ⟨hs, hp, Advances.refl _, fun _ => Advances.refl _⟩
  | cons l ls ih =>
    obtain ⟨hmarked, hfile, hprocessed⟩ := progresses_step segsz hs hp l
    obtain ⟨hs', hp', hfile', hprocessed'⟩ := ih hmarked (Server.placed_step segsz hp l)
    refine ⟨hs', hp', hfile.trans hfile', fun hup => ?_⟩
    exact (hprocessed (hup l List.mem_cons_self)).trans (hprocessed' fun l' hl' => hup l' (List.mem_cons_of_mem l hl'))

end

/-- A worker reads 17 of 20 records. -/
def seventeenRead : List Label :=
  .demuxStart :: (List.replicate 20 (.otherRecord ⟨10, 0, []⟩) ++ [.walFlush 20] ++ readSteps 17)

/-- An iteration that reads a record, or finds that it has caught up. -/
def Server.Productive (s : Server) : Label → Bool
  | .demux (.caughtUp _) => decide (s.flushed ≤ s.endRecPtr)
  | .demux (.record ..) => decide (s.endRecPtr < s.flushed)
  | _ => false

/-- How many of them there are in a run. -/
def productive (segsz : WalSegSize) (s : Server) (ls : List Label) : Nat :=
  (Run.outputs (serverStep segsz) Server.Productive s ls).count true

/-- Steps that do not end the worker. -/
def Label.LeavesWorker : Label → Prop
  | .demuxStop .. => False
  | .restart => False
  | .crash .. => False
  | _ => True

def Label.polls (i : Nat) : Label → Bool
  | .flushPoll j => decide (j = i)
  | _ => false

/-- After `rounds` productive iterations and `polls` polls of call `i`, since the reader stood
`behind` records before the target. -/
structure Server.Nearing (i target behind rounds polls : Nat) (s : Server) : Prop where
  placed : s.Placed
  marked : s.Marked
  running : s.running = true
  flushed : target ≤ s.flushed
  reader : (∃ p ∈ s.lastProcessed, target ≤ p) ∨ rounds + (target - s.endRecPtr) ≤ behind
  call : ∃ f, s.flushes[i]? = some f ∧ f.target = target ∧
    (polls < 1500 → f.state = .returned ∨ ∃ k ≤ polls, f.state = .waiting (20 * k))

section
variable {segsz : WalSegSize} {s : Server} {i target behind rounds polls : Nat}

/-- A step other than an iteration and a poll of the call. -/
theorem Server.Nearing.other {s' : Server} (hs : s.Nearing i target behind rounds polls) (hp : s'.Placed)
    (hm : s'.Marked) (hsame : s.SameWorker s') (hcall : s'.flushes[i]? = s.flushes[i]?) :
    s'.Nearing i target behind rounds polls := by
  refine ⟨hp, hm, hsame.running.trans hs.running, hs.flushed.trans hsame.flushed, ?_, ?_⟩
  · rw [hsame.lastProcessed, hsame.endRecPtr]
    exact hs.reader
  · rw [hcall]
    exact hs.call

theorem nearing_iteration (segsz : WalSegSize) (hs : s.Nearing i target behind rounds polls) (round : Round) :
    (s.demuxIteration segsz round).Nearing i target behind (rounds + (s.Productive (.demux round)).toNat) polls := by
  have hp : (s.demuxIteration segsz round).Placed := by
    have hstep := Server.placed_step segsz hs.placed (.demux round)
    simp only [serverStep, hs.running, if_true] at hstep
    exact hstep
  have hm := (marked_iteration segsz hs.marked hs.placed round).marked
  rcases Server.demuxIteration_cases segsz round hs.placed.flushed_le with
    ⟨io, rfl, hle, he⟩ | ⟨io, saveOk, r, rfl, hlt, hr, he⟩ | ⟨hlt, hle, -, hround, he⟩ | ⟨hround, he⟩
  · rw [he] at hp hm ⊢
    refine ⟨hp, hm, hs.running, hs.flushed, Or.inl ?_, hs.call⟩
    -- `last_processed_lsn` is raised to the flush position
    show ∃ p ∈ Server.raiseProcessed s.flushed s.lastProcessed, target ≤ p
    unfold Server.raiseProcessed
    cases hl : s.lastProcessed with
    | none => exact ⟨_, rfl, hs.flushed⟩
    | some last =>
      dsimp only
      split
      · exact ⟨_, rfl, hs.flushed⟩
      · exact ⟨_, rfl, by have := hs.flushed; omega⟩
  · have hone : s.Productive (.demux (.record io saveOk)) = true := decide_eq_true hlt
    rw [he] at hp hm ⊢
    rw [hone]
    refine ⟨hp, hm, hs.running, hs.flushed, ?_, hs.call⟩
    by_cases hreach : target ≤ s.endRecPtr + 1
    · exact Or.inl ⟨_, rfl, hreach⟩
    · refine Or.inr ?_
      rcases hs.reader with ⟨p, hp, hle⟩ | h
      · have := (hs.marked.processed p hp).1
        omega
      · show rounds + true.toNat + (target - (s.endRecPtr + 1)) ≤ behind
        rw [Bool.toNat_true]
        omega
  · have hnone : s.Productive (.demux round) = false := by
      rcases hround with ⟨next, rfl⟩ | ⟨next, rfl⟩ <;> rfl
    rw [he] at hp hm ⊢
    rw [hnone]
    refine ⟨hp, hm, hs.running, hs.flushed, ?_, hs.call⟩
    refine hs.reader.imp id fun h => ?_
    show rounds + 0 + (target - s.skipTo (.demux round)) ≤ behind
    omega
  · have hnone : s.Productive (.demux round) = false := by
      rcases hround with ⟨hne, hle⟩ | ⟨⟨io, rfl⟩, hlt⟩
      · cases round with
        | caughtUp io => exact absurd rfl (hne io)
        | record io saveOk => exact decide_eq_false (Nat.not_lt.mpr hle)
        | _ => rfl
      · exact decide_eq_false (Nat.not_le.mpr hlt)
    rw [he, hnone]
    exact hs

/-- A poll of the call before its 1500th: it returns, or goes on waiting. -/
theorem poll_waits {f : FlushCall} {last : Option Nat} (h : f.state = .returned ∨ ∃ k ≤ polls, f.state = .waiting (20 * k))
    (hlt : polls + 1 < 1500) :
    (f.poll last).state = .returned ∨ ∃ k ≤ polls + 1, (f.poll last).state = .waiting (20 * k) := by
  rcases h with h | ⟨k, hk, h⟩
  · left
    unfold FlushCall.poll
    rw [h]
    exact h
  · unfold FlushCall.poll
    rw [h]
    dsimp only
    split
    · exact Or.inl rfl
    · split
      · next hmax =>
        have hmax : 30000 ≤ 20 * k + 20 := hmax
        omega
      · exact Or.inr ⟨k + 1, by omega, by rw [Nat.mul_add]⟩

theorem poll_served {f : FlushCall} {last : Option Nat} (h : f.state = .returned ∨ ∃ k ≤ polls, f.state = .waiting (20 * k))
    (hlast : ∃ p ∈ last, f.target ≤ p) : (f.poll last).state = .returned := by
  obtain ⟨p, hp, hle⟩ := hlast
  obtain rfl := Option.mem_def.mp hp
  unfold FlushCall.poll
  rcases h with h | ⟨k, -, h⟩
  · rw [h]
    exact h
  · rw [h]
    dsimp only
    rw [if_pos ⟨hle, Option.some_ne_none p⟩]

theorem step_flushPoll {f : FlushCall} (hf : s.flushes[i]? = some f) : serverStep segsz s (.flushPoll i) =
    { s with flushes := s.flushes.set i (f.poll s.lastProcessed) } := by
  simp only [serverStep, hf]

theorem nearing_step (segsz : WalSegSize) (hs : s.Nearing i target behind rounds polls) {l : Label} (hl : l.LeavesWorker) :
    (serverStep segsz s l).Nearing i target behind (rounds + (s.Productive l).toNat) (polls + (l.polls i).toNat) := by
  have hp := Server.placed_step segsz hs.placed l
  have hm := (progresses_step segsz hs.marked hs.placed l).marked
  have hflushes : l.Backend → (serverStep segsz s l).flushes[i]? = s.flushes[i]? →
      (serverStep segsz s l).Nearing i target behind rounds polls := fun hback hcall =>
    hs.other hp hm (s.sameWorker_backend segsz hback) hcall
  obtain ⟨f, hf, htarget, hstate⟩ := hs.call
  cases l with
  | begin pid flags origLsn mkdirOk => exact hflushes trivial rfl
  | advance j sc =>
    refine hflushes trivial ?_
    simp only [serverStep]
    split
    · rw [Server.callStep_eq]
    · rfl
  | otherRecord r => exact hflushes trivial (by rw [(aside_step segsz s (l := .otherRecord r) trivial).2.2.1])
  | walFlush n => exact hflushes trivial rfl
  | checkpoint redo => exact hflushes trivial (by rw [(aside_step segsz s (l := .checkpoint redo) trivial).2.2.1])
  | demuxStart =>
    simp only [serverStep, hs.running, if_true]
    exact hs
  | demux round =>
    simp only [serverStep, hs.running, if_true]
    exact nearing_iteration segsz hs round
  | flushBegin =>
    refine hflushes trivial ?_
    show (s.flushes ++ [_])[i]? = _
    rw [List.getElem?_append_left (List.getElem?_eq_some_iff.mp hf).1]
  | flushPoll j =>
    by_cases hj : j = i
    · subst hj
      have hone : Label.polls j (.flushPoll j) = true := decide_eq_true rfl
      rw [step_flushPoll hf] at hp hm ⊢
      rw [hone]
      refine ⟨hp, hm, hs.running, hs.flushed, hs.reader, f.poll s.lastProcessed, ?_, ?_, fun hlt => ?_⟩
      · dsimp only
        rw [List.getElem?_set_self (List.getElem?_eq_some_iff.mp hf).1]
      · rw [poll_target]
        exact htarget
      · rw [Bool.toNat_true] at hlt ⊢
        exact poll_waits (hstate (by omega)) hlt
    · have hzero : Label.polls i (.flushPoll j) = false := decide_eq_false hj
      rw [hzero]
      refine hflushes trivial ?_
      simp only [serverStep]
      split
      · dsimp only
        rw [List.getElem?_set_ne hj]
      · rfl
  | cleanup pid keepPtr rd unlinkOk => exact ⟨hp, hm, hs.running, hs.flushed, hs.reader, f, hf, htarget, hstate⟩
  | demuxStop => exact absurd hl id
  | restart => exact absurd hl id
  | crash => exact absurd hl id

theorem nearing_run (segsz : WalSegSize) {ls : List Label} (hls : ∀ l ∈ ls, l.LeavesWorker) (hs : s.Nearing i target behind rounds polls) :
    (serverRun segsz s ls).Nearing i target behind (rounds + productive segsz s ls) (polls + ls.countP (Label.polls i)) := by
  induction ls generalizing s rounds polls with
  | nil => exact hs
  | cons l ls ih =>
    have hstep := ih (fun l' hl' => hls l' (List.mem_cons_of_mem l hl'))
      (nearing_step segsz hs (hls l List.mem_cons_self))
    have hrounds : (s.Productive l).toNat + productive segsz (serverStep segsz s l) ls = productive segsz s (l :: ls) := by
      rw [productive, productive, Run.outputs]
      cases s.Productive l <;> simp [Nat.add_comm]
    have hpolls : (l.polls i).toNat + ls.countP (Label.polls i) = (l :: ls).countP (Label.polls i) := by
      cases h : l.polls i <;> simp [h, Nat.add_comm]
    rw [Nat.add_assoc, Nat.add_assoc, hrounds, hpolls] at hstep
    exact hstep

end

/-- The worker is two records behind; a third one comes in while `demux_flush` waits. -/
def twoBehind : List Label :=
  [.demuxStart, .otherRecord ⟨10, 0, []⟩, .otherRecord ⟨10, 0, []⟩, .walFlush 2]

def caughtUpMeanwhile : List Label :=
  [.flushPoll 0, .otherRecord ⟨10, 0, []⟩] ++ readSteps 1 ++ [.flushPoll 0, .walFlush 3] ++ readSteps 2

end PartDist
