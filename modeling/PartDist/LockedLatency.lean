import PartDist.Lib.RwLock
import PartDist.LatencyStats

/-!
# The latency samples under the Demux's lock

`RecordLatencySample` and `demux_latency_stats` (demux_worker.c) access by access: under the
exclusive lock the store into the slot, the two halves of the increments of `latency_head` and
`latency_count`; under the shared lock the loads of `latency_count` and the words of the
`memcpy`.  The copy is sorted after the lock has been released.

`locked_stats`: still no sample is lost, and what a call returns is the row for the samples
recorded at one moment of it.
-/

namespace PartDist

namespace LockedLatency

open RwLock

/-- What the lock guards of the samples; `taken` records who has recorded which one, oldest
first. -/
structure LatencyShared where
  latency : DemuxLatency
  taken : List (Nat × Int64)

inductive LatencyCall
  | recordLatencySample (us : Int64)
  | demuxLatencyStats

/-- Where a process stands: before its section, before the sort of what it has copied; or it
has returned, or it would access memory outside an array. -/
inductive LatencyPc
  | record
  | copy
  | sort
  | returned
  | failed
deriving DecidableEq

/-- The variables of a call.  `answer` is the row, `none` one of NULLs; `done` are the samples
the process has recorded and `calls` how often it has begun to make up a row. -/
structure LatencyRegs where
  procNumber : Nat
  pc : LatencyPc
  wantsRow : Bool
  us : Int64
  latencyHead : Nat
  latencyCount : Int64
  count : Int64
  samples : List Int64
  answer : Option LatencyRow
  done : List Int64
  calls : Nat

abbrev LatencyAccess := Access LatencyShared LatencyRegs

/-! ## Sections -/

def recordSection : List LatencyAccess :=
  [fun t r => (t, { r with latencyHead := t.latency.ring.head }),
    fun t r => ({ t with latency := { t.latency with ring := t.latency.ring.store r.latencyHead r.us } }, r),
    fun t r => (t, { r with latencyHead := t.latency.ring.head }),
    fun t r => ({ t with latency := { t.latency with ring := t.latency.ring.turnTo (r.latencyHead + 1) } }, r),
    fun t r => (t, { r with latencyCount := t.latency.count }),
    fun t r =>
      ({ latency := { t.latency with count := r.latencyCount + 1 }, taken := t.taken ++ [(r.procNumber, r.us)] },
        { r with done := r.done ++ [r.us], pc := .returned })]

/-- Word `i` of the `memcpy`. -/
def copyWord (i : Nat) : LatencyAccess := fun t r =>
  (t, if i < r.count.toNatClampNeg then { r with samples := r.samples ++ t.latency.ring.buf[i]?.toList } else r)

/-- `latency_count` is loaded for the test, and again if it is the smaller one; a negative
count is a huge size for `memcpy`. -/
def copySection : List LatencyAccess :=
  [fun t r => (t, { r with latencyCount := t.latency.count, samples := [] }),
    fun t r => (t, { r with count := if r.latencyCount < 1024 then t.latency.count else 1024 }),
    fun t r => (t, { r with pc := if r.count < 0 then .failed else .sort })] ++
  (List.range demuxLatencySamples).map copyWord

/-! ## Processes -/

/-- The sort and the row, from what was copied; `none` is an access outside an array. -/
def rowOf (copied : List Int64) : Option (Option LatencyRow) := do
  let samples ← InsertionSort.insertionLoops (fun x tmp => decide (tmp < x)) copied.length copied
  let n := samples.length
  if n = 0 then return none
  return some (latencyRow { p50 := (← samples[n / 2]?), p99 := (← samples[n * 99 / 100]?) } samples)

/-- A call that begins. -/
def LatencyRegs.begin (r : LatencyRegs) : LatencyCall → LatencyRegs
  | .recordLatencySample us => { r with wantsRow := false, us := us, pc := .record }
  | .demuxLatencyStats => { r with wantsRow := true, calls := r.calls + 1, pc := .copy }

def LatencyRegs.sort (r : LatencyRegs) : LatencyRegs :=
  match rowOf r.samples with
  | some row => { r with answer := row, pc := .returned }
  | none => { r with pc := .failed }

def latencyProgram : Program LatencyShared LatencyRegs LatencyCall where
  enters r :=
    match r.pc with
    | .record => some ⟨.exclusive, recordSection⟩
    | .copy => some ⟨.shared, copySection⟩
    | .sort | .returned | .failed => none
  act call r :=
    match r.pc with
    | .sort => r.sort
    | .returned | .failed => r.begin call
    | .record | .copy => r

def LatencyRegs.start (p : Nat) : LatencyRegs := ⟨p, .returned, false, 0, 0, 0, 0, [], none, [], 0⟩

/-- `DemuxShmemInit`, and processes that have made no call. -/
def latencyStart : State Nat LatencyShared LatencyRegs := State.start ⟨.init, []⟩ LatencyRegs.start

/-! ## Whole sections -/

section
variable {t : LatencyShared} {r : LatencyRegs}

theorem recordSection_whole (t : LatencyShared) (r : LatencyRegs) :
    ∃ head count, runAccesses recordSection t r =
      (⟨⟨t.latency.ring.push r.us, t.latency.count + 1⟩, t.taken ++ [(r.procNumber, r.us)]⟩,
        { r with latencyHead := head, latencyCount := count, done := r.done ++ [r.us], pc := .returned }) :=
  ⟨_, _, rfl⟩

/-- The words that lie below the count, in their order. -/
theorem copyWords_whole (n : Nat) : runAccesses ((List.range n).map copyWord) t r =
    (t, { r with samples := r.samples ++ t.latency.ring.buf.take (min n r.count.toNatClampNeg) }) := by
  induction n with
  | zero => simp [runAccesses]
  | succ n ih =>
    rw [List.range_succ, List.map_append, runAccesses_append ih]
    simp only [List.map_cons, List.map_nil, runAccesses, copyWord]
    split
    · next hn =>
      rw [Nat.min_eq_left (Nat.le_of_lt hn), Nat.min_eq_left (Nat.succ_le_of_lt hn), List.take_add_one, List.append_assoc]
    · next hn =>
      rw [Nat.min_eq_right (Nat.le_of_not_lt hn), Nat.min_eq_right (Nat.le_succ_of_le (Nat.le_of_not_lt hn))]

/-- What is copied are the slots of which `latencyPercentiles` makes the percentiles. -/
theorem copySection_whole (t : LatencyShared) (r : LatencyRegs) : ∃ count, runAccesses copySection t r =
    (t, { r with
      latencyCount := count
      count := t.latency.copied
      pc := if t.latency.copied < 0 then .failed else .sort
      samples := t.latency.ring.buf.take t.latency.copied.toNatClampNeg }) := by
  refine ⟨t.latency.count, ?_⟩
  have hhead : runAccesses (copySection.take 3) t r = (t, { r with
      latencyCount := t.latency.count
      samples := []
      count := t.latency.copied
      pc := if t.latency.copied < 0 then .failed else .sort }) := rfl
  have hsplit : copySection = copySection.take 3 ++ (List.range demuxLatencySamples).map copyWord := rfl
  have hbuf : t.latency.ring.buf.take (min demuxLatencySamples t.latency.copied.toNatClampNeg) =
      t.latency.ring.buf.take t.latency.copied.toNatClampNeg := by
    have hmin := List.take_eq_take_min (l := t.latency.ring.buf) (i := t.latency.copied.toNatClampNeg)
    rw [hmin, t.latency.ring.length_buf, Nat.min_comm]
  rw [hsplit, runAccesses_append hhead, copyWords_whole]
  simp only [List.nil_append, hbuf]

theorem latencyProgram_sharedReads : latencyProgram.SharedReads := by
  intro r c hc hm a ha t r'
  cases hpc : r.pc <;> simp only [latencyProgram, hpc, Option.mem_def, Option.some.injEq, reduceCtorEq] at hc
  · subst hc
    cases hm
  · subst hc
    simp only [copySection, List.mem_append, List.mem_cons, List.not_mem_nil, or_false, List.mem_map] at ha
    rcases ha with (rfl | rfl | rfl) | ⟨i, -, rfl⟩ <;> rfl

end

/-! ## Rows -/

/-- What a section copies after the samples `us`. -/
def copiedOf (us : List Int64) : List Int64 :=
  (DemuxLatency.init.ring.pushAll us).buf.take (min us.length demuxLatencySamples)

/-- The count that a section finds after `k` samples. -/
theorem copied_count (ring : RingBuffer Int64 demuxLatencySamples) {k : Nat} (hk : k < 2 ^ 63) :
    ¬ (DemuxLatency.mk ring (Int64.ofNat k)).copied < 0 ∧
      (DemuxLatency.mk ring (Int64.ofNat k)).copied.toNatClampNeg = min k demuxLatencySamples := by
  have hmin : min k demuxLatencySamples ≤ 1024 := Nat.min_le_right _ _
  rw [copied_ofNat ring hk]
  constructor
  · rw [Int64.lt_iff_toInt_lt, Int64.toInt_ofNat_of_lt (by omega)]
    exact Int.not_lt.mpr (Int.natCast_nonneg _)
  · exact Int64.toNatClampNeg_ofNat_of_lt (by omega)

theorem sorted_copied {us : List Int64} (hk : us.length < 2 ^ 63) :
    InsertionSort.insertionLoops (fun x tmp => decide (tmp < x)) (copiedOf us).length (copiedOf us) =
      some (sortedWindow us) := by
  have hlen : (copiedOf us).length = min us.length demuxLatencySamples :=
    (recorded_slots us).length_eq.trans (length_latencyWindow us)
  obtain ⟨hpos, hcount⟩ := copied_count (DemuxLatency.init.ring.pushAll us) hk
  rw [← sortedSamples_recorded hk, recorded_eq, sortedSamples]
  simp only [if_neg hpos, hcount, hlen]
  rfl

/-- Sorting behind the lock gives the row of `demux_latency_stats`, -/
theorem rowOf_copied {us : List Int64} (hk : us.length < 2 ^ 63) :
    rowOf (copiedOf us) = demuxLatencyStats (recorded us) := by
  rw [demuxLatencyStats, latencyPercentiles, sortedSamples_recorded hk, rowOf, sorted_copied hk]
  simp only [Option.bind_eq_bind, Option.bind_some, Option.pure_def]
  split
  · rfl
  · cases (sortedWindow us)[(sortedWindow us).length / 2]? <;>
      cases (sortedWindow us)[(sortedWindow us).length * 99 / 100]? <;> rfl

/-- without an access outside the array. -/
theorem rowOf_returns {us : List Int64} (hk : us.length < 2 ^ 63) : ∃ row, rowOf (copiedOf us) = some row := by
  rw [rowOf, sorted_copied hk]
  simp only [Option.bind_eq_bind, Option.bind_some, Option.pure_def]
  split
  · exact ⟨none, rfl⟩
  · next hn =>
    have h50 : (sortedWindow us).length / 2 < (sortedWindow us).length := by omega
    have h99 : (sortedWindow us).length * 99 / 100 < (sortedWindow us).length := by omega
    rw [List.getElem?_eq_getElem h50, List.getElem?_eq_getElem h99]
    exact ⟨_, rfl⟩

/-! ## Samples that have been recorded -/

/-- Where a process is with its row: what it has copied, and what it returns, was there after
the samples `us`; if the call began after `since` was recorded, `us` has all of it. -/
def LatencyRegs.Sees (since taken : List Int64) (calls : Nat) (r : LatencyRegs) : Prop :=
  match r.pc with
  | .record => r.wantsRow = false
  | .copy => True
  | .sort => ∃ us, (calls < r.calls → since <+: us) ∧ us <+: taken ∧ r.samples = copiedOf us
  | .returned => r.wantsRow = true → ∃ us, (calls < r.calls → since <+: us) ∧ us <+: taken ∧
      demuxLatencyStats (recorded us) = some r.answer
  | .failed => False

/-- The samples that have been recorded, -/
def LatencyShared.samples (t : LatencyShared) : List Int64 := t.taken.map Prod.snd

/-- and those of process `p`. -/
def LatencyShared.samplesOf (t : LatencyShared) (p : Nat) : List Int64 :=
  (t.taken.filter fun x => x.1 = p).map Prod.snd

/-- The samples are in the buffer one behind the other, and none is lost. -/
structure InTurn (s : Whole Nat LatencyShared LatencyRegs) : Prop where
  procs : ∀ p, (s.regs p).procNumber = p
  latency : some s.store.latency = recorded s.store.samples
  own : ∀ p, s.store.samplesOf p = (s.regs p).done

section
variable {s : Whole Nat LatencyShared LatencyRegs} {t : LatencyShared} {r : LatencyRegs}

theorem recorded_snoc {us : List Int64} {latency : DemuxLatency} (h : some latency = recorded us) (u : Int64) :
    some ⟨latency.ring.push u, latency.count + 1⟩ = recorded (us ++ [u]) := by
  rw [recorded, List.foldl_append, ← recorded, ← h]
  rfl

/-- One process goes on, and has recorded nothing. -/
theorem InTurn.goOn (hs : InTurn s) {p : Nat} (hproc : r.procNumber = (s.regs p).procNumber)
    (hdone : r.done = (s.regs p).done) : InTurn ⟨s.store, Function.update s.regs p r⟩ := by
  refine ⟨?_, hs.latency, ?_⟩
  · exact (Function.forall_update_iff s.regs fun q r => r.procNumber = q).mpr
      ⟨hproc.trans (hs.procs p), fun q _ => hs.procs q⟩
  · exact (Function.forall_update_iff s.regs fun q r => s.store.samplesOf q = r.done).mpr
      ⟨(hs.own p).trans hdone.symm, fun q _ => hs.own q⟩

theorem inTurn_step (hs : InTurn s) (l : RwLock.Label Nat LatencyCall) :
    InTurn (wholeStep latencyProgram s l) ∧ s.store.samples <+: (wholeStep latencyProgram s l).store.samples := by
  cases l with
  | enter p =>
    cases hpc : (s.regs p).pc with
    | record =>
      obtain ⟨head, count, hrun⟩ := recordSection_whole s.store (s.regs p)
      simp only [wholeStep, latencyProgram, hpc, hrun]
      have hsamples : LatencyShared.samples ⟨⟨s.store.latency.ring.push (s.regs p).us, s.store.latency.count + 1⟩,
          s.store.taken ++ [((s.regs p).procNumber, (s.regs p).us)]⟩ = s.store.samples ++ [(s.regs p).us] :=
        List.map_append
      refine ⟨⟨?_, ?_, ?_⟩, ?_⟩
      · exact (Function.forall_update_iff s.regs fun q r => r.procNumber = q).mpr ⟨hs.procs p, fun q _ => hs.procs q⟩
      · rw [hsamples]
        exact recorded_snoc hs.latency _
      · refine (Function.forall_update_iff s.regs fun q r => LatencyShared.samplesOf _ q = r.done).mpr
          ⟨?_, fun q hq => ?_⟩
        · simp only [LatencyShared.samplesOf, hs.procs p, List.filter_append, List.map_append, ← hs.own p]
          simp
        · have hpq : p ≠ q := fun h => hq h.symm
          simp only [LatencyShared.samplesOf, hs.procs p, List.filter_append, List.map_append, ← hs.own q]
          simp [hpq]
      · rw [hsamples]
        exact List.prefix_append _ _
    | copy =>
      obtain ⟨count, hrun⟩ := copySection_whole s.store (s.regs p)
      simp only [wholeStep, latencyProgram, hpc, hrun]
      exact ⟨hs.goOn rfl rfl, List.prefix_rfl⟩
    | _ =>
      simp only [wholeStep, latencyProgram, hpc]
      exact ⟨hs, List.prefix_rfl⟩
  | act p call =>
    have hsort : (s.regs p).sort.procNumber = (s.regs p).procNumber ∧ (s.regs p).sort.done = (s.regs p).done := by
      unfold LatencyRegs.sort
      split <;> exact ⟨rfl, rfl⟩
    have hbegin : ((s.regs p).begin call).procNumber = (s.regs p).procNumber ∧
        ((s.regs p).begin call).done = (s.regs p).done := by
      cases call <;> exact ⟨rfl, rfl⟩
    refine ⟨?_, List.prefix_rfl⟩
    cases hpc : (s.regs p).pc with
    | sort =>
      simp only [wholeStep, latencyProgram, hpc]
      exact hs.goOn hsort.1 hsort.2
    | record =>
      simp only [wholeStep, latencyProgram, hpc]
      exact hs.goOn rfl rfl
    | copy =>
      simp only [wholeStep, latencyProgram, hpc]
      exact hs.goOn rfl rfl
    | _ =>
      simp only [wholeStep, latencyProgram, hpc]
      exact hs.goOn hbegin.1 hbegin.2
  | access p => exact ⟨hs, List.prefix_rfl⟩
  | leave p => exact ⟨hs, List.prefix_rfl⟩

/-! ## Rows that are made up -/

theorem LatencyRegs.Sees.mono {since taken taken' : List Int64} {calls : Nat} (h : r.Sees since taken calls)
    (htaken : taken <+: taken') : r.Sees since taken' calls := by
  unfold LatencyRegs.Sees at h ⊢
  cases hpc : r.pc with
  | sort =>
    rw [hpc] at h
    obtain ⟨us, hsince, hus, hcopied⟩ := h
    exact ⟨us, hsince, hus.trans htaken, hcopied⟩
  | returned =>
    rw [hpc] at h
    intro hwants
    obtain ⟨us, hsince, hus, hrow⟩ := h hwants
    exact ⟨us, hsince, hus.trans htaken, hrow⟩
  | _ =>
    rw [hpc] at h
    exact h

/-- For the calls that begin from now on. -/
theorem LatencyRegs.Sees.fromNow {since taken : List Int64} {calls : Nat} (h : r.Sees since taken calls)
    (since' : List Int64) : r.Sees since' taken r.calls := by
  have hnone : ∀ us, r.calls < r.calls → since' <+: us := fun us hlt => absurd hlt (Nat.lt_irrefl _)
  unfold LatencyRegs.Sees at h ⊢
  cases hpc : r.pc with
  | sort =>
    rw [hpc] at h
    obtain ⟨us, -, hus, hcopied⟩ := h
    exact ⟨us, hnone us, hus, hcopied⟩
  | returned =>
    rw [hpc] at h
    intro hwants
    obtain ⟨us, -, hus, hrow⟩ := h hwants
    exact ⟨us, hnone us, hus, hrow⟩
  | _ =>
    rw [hpc] at h
    exact h

/-- What holds once `since` has been recorded and process `p` has made `calls p` calls. -/
structure Seeing (since : List Int64) (calls : Nat → Nat) (s : Whole Nat LatencyShared LatencyRegs) : Prop where
  inTurn : InTurn s
  grown : since <+: s.store.samples
  sees : ∀ p, (s.regs p).Sees since s.store.samples (calls p)

/-- What a section copies are the slots after the samples so far. -/
theorem InTurn.copied (hs : InTurn s) (hk : s.store.samples.length < 2 ^ 63) :
    ¬ s.store.latency.copied < 0 ∧
      s.store.latency.ring.buf.take s.store.latency.copied.toNatClampNeg = copiedOf s.store.samples := by
  have hlatency := hs.latency
  rw [recorded_eq] at hlatency
  obtain ⟨hpos, hcount⟩ := copied_count (DemuxLatency.init.ring.pushAll s.store.samples) hk
  rw [Option.some.inj hlatency, hcount]
  exact ⟨hpos, rfl⟩

theorem seeing_step {since : List Int64} {calls : Nat → Nat} (hs : Seeing since calls s)
    (hk : s.store.samples.length < 2 ^ 63) (l : RwLock.Label Nat LatencyCall) :
    Seeing since calls (wholeStep latencyProgram s l) := by
  obtain ⟨hturn, hgrown⟩ := inTurn_step hs.inTurn l
  refine ⟨hturn, hs.grown.trans hgrown, ?_⟩
  -- the other processes stay where they are
  have hone : ∀ (t : LatencyShared) (p : Nat) (r : LatencyRegs), s.store.samples <+: t.samples →
      r.Sees since t.samples (calls p) → ∀ q, (Function.update s.regs p r q).Sees since t.samples (calls q) :=
    fun t p r ht hr => (Function.forall_update_iff s.regs fun q r => r.Sees since t.samples (calls q)).mpr
      ⟨hr, fun q _ => (hs.sees q).mono ht⟩
  cases l with
  | enter p =>
    have hp := hs.sees p
    unfold LatencyRegs.Sees at hp
    cases hpc : (s.regs p).pc with
    | record =>
      rw [hpc] at hp
      obtain ⟨head, count, hrun⟩ := recordSection_whole s.store (s.regs p)
      simp only [wholeStep, latencyProgram, hpc, hrun] at hgrown ⊢
      refine hone _ p _ hgrown ?_
      intro hwants
      exact absurd (hwants.symm.trans hp) Bool.noConfusion
    | copy =>
      obtain ⟨hpos, hcopied⟩ := hs.inTurn.copied hk
      obtain ⟨count, hrun⟩ := copySection_whole s.store (s.regs p)
      simp only [wholeStep, latencyProgram, hpc, hrun, if_neg hpos, hcopied]
      refine hone _ p _ List.prefix_rfl ?_
      exact ⟨s.store.samples, fun _ => hs.grown, List.prefix_rfl, rfl⟩
    | _ =>
      simp only [wholeStep, latencyProgram, hpc]
      exact hs.sees
  | act p call =>
    have hp := hs.sees p
    unfold LatencyRegs.Sees at hp
    have hbegin : ((s.regs p).begin call).Sees since s.store.samples (calls p) := by
      cases call with
      | recordLatencySample us => rfl
      | demuxLatencyStats => trivial
    cases hpc : (s.regs p).pc with
    | sort =>
      rw [hpc] at hp
      obtain ⟨us, hsince, hus, hcopied⟩ := hp
      have hk' : us.length < 2 ^ 63 := Nat.lt_of_le_of_lt hus.length_le hk
      obtain ⟨row, hrow⟩ := rowOf_returns hk'
      simp only [wholeStep, latencyProgram, hpc]
      refine hone _ p _ List.prefix_rfl ?_
      unfold LatencyRegs.sort
      rw [hcopied, hrow]
      exact fun _ => ⟨us, hsince, hus, (rowOf_copied hk').symm.trans hrow⟩
    | record =>
      simp only [wholeStep, latencyProgram, hpc, Function.update_eq_self]
      exact hs.sees
    | copy =>
      simp only [wholeStep, latencyProgram, hpc, Function.update_eq_self]
      exact hs.sees
    | _ =>
      simp only [wholeStep, latencyProgram, hpc]
      exact hone _ p _ List.prefix_rfl hbegin
  | access p => exact hs.sees
  | leave p => exact hs.sees

end

/-- From a state on, for the calls that begin after it. -/
theorem seeing_run {s : State Nat LatencyShared LatencyRegs} (hsafe : Safe s) {since : List Int64} {calls : Nat → Nat}
    (hs : s.completed.store.samples.length < 2 ^ 63 → Seeing since calls s.completed) (hturn : InTurn s.completed)
    (ls : List (RwLock.Label Nat LatencyCall)) :
    ((RwLock.run latencyProgram s ls).completed.store.samples.length < 2 ^ 63 →
      Seeing since calls (RwLock.run latencyProgram s ls).completed) ∧
    InTurn (RwLock.run latencyProgram s ls).completed ∧
    s.completed.store.samples <+: (RwLock.run latencyProgram s ls).completed.store.samples ∧
    Safe (RwLock.run latencyProgram s ls) := by
  obtain ⟨⟨hsees, hturn, hgrown⟩, hsafe⟩ := completed_invariant latencyProgram_sharedReads hsafe
    (I := fun w => (w.store.samples.length < 2 ^ 63 → Seeing since calls w) ∧ InTurn w ∧
      s.completed.store.samples <+: w.store.samples) ⟨hs, hturn, List.prefix_rfl⟩
    fun l (_ : l ∈ ls) w ⟨hw, hwturn, hwgrown⟩ => by
      obtain ⟨hturn', hgrown⟩ := inTurn_step hwturn l
      refine ⟨fun hk => ?_, hturn', hwgrown.trans hgrown⟩
      have hk' := Nat.lt_of_le_of_lt hgrown.length_le hk
      exact seeing_step (hw hk') hk' l
  exact ⟨hsees, hturn, hgrown, hsafe⟩

/-- **Samples under the lock.** In every run of any number of processes that record samples and
ask for the percentiles, their accesses interleaved as the lock allows, as long as fewer than
2^63 samples have been recorded: when nobody writes, the buffer holds what the samples leave
there one after the other, those of each process being the ones it has recorded, in its order;
and a call that begins after `ls₁` returns the row for the samples of one moment, all that
were recorded before it began and none that is recorded later than it returned. -/
theorem locked_stats {ls₁ ls₂ : List (RwLock.Label Nat LatencyCall)} {s₁ s : State Nat LatencyShared LatencyRegs}
    (hs₁ : s₁ = RwLock.run latencyProgram latencyStart ls₁) (hs : s = RwLock.run latencyProgram s₁ ls₂)
    (hfew : s.completed.store.samples.length < 2 ^ 63) :
    (s.writer = none → some s.store.latency = recorded s.store.samples ∧
      ∀ p, ¬ s.Inside p → s.store.samplesOf p = (s.regs p).done) ∧
    ∀ p, ¬ s₁.Inside p → ¬ s.Inside p → (s₁.regs p).calls < (s.regs p).calls → (s.regs p).pc ≠ .failed ∧
      ((s.regs p).pc = .returned → (s.regs p).wantsRow = true →
        ∃ us, s₁.completed.store.samples <+: us ∧ us <+: s.completed.store.samples ∧
          demuxLatencyStats (recorded us) = some (s.regs p).answer) := by
  have hstart : InTurn latencyStart.completed := ⟨fun _ => rfl, rfl, fun _ => rfl⟩
  have hseeing : Seeing [] (fun _ => 0) latencyStart.completed :=
    ⟨hstart, List.nil_prefix, fun p hwants => absurd hwants Bool.noConfusion⟩
  obtain ⟨hsees₁, hturn₁, -, hsafe₁⟩ := seeing_run (s := latencyStart) (safe_start _ _) (fun _ => hseeing) hstart ls₁
  rw [← hs₁] at hsees₁ hturn₁ hsafe₁
  have hnow : s₁.completed.store.samples.length < 2 ^ 63 →
      Seeing s₁.completed.store.samples (fun p => (s₁.completed.regs p).calls) s₁.completed := fun hk =>
    ⟨hturn₁, List.prefix_rfl, fun p => ((hsees₁ hk).sees p).fromNow _⟩
  obtain ⟨hsees, hturn, -, hsafe⟩ := seeing_run hsafe₁ hnow hturn₁ ls₂
  rw [← hs] at hsees hturn hsafe
  refine ⟨fun hw => ?_, fun p hp₁ hp hcalls => ?_⟩
  · have hstore : s.completed.store = s.store := by simp only [State.completed, hw]
    rw [← hstore]
    exact ⟨hturn.latency, fun p hp => (hturn.own p).trans (by rw [hsafe.completed_regs hp])⟩
  · have hp' := (hsees hfew).sees p
    rw [hsafe.completed_regs hp] at hp'
    have hcalls₁ : (s₁.completed.regs p).calls < (s.regs p).calls := by
      rw [hsafe₁.completed_regs hp₁]
      exact hcalls
    unfold LatencyRegs.Sees at hp'
    refine ⟨fun hpc => ?_, fun hpc hwants => ?_⟩
    · rw [hpc] at hp'
      exact hp'
    · rw [hpc] at hp'
      obtain ⟨us, hsince, hus, hrow⟩ := hp' hwants
      exact ⟨us, hsince hcalls₁, hus, hrow⟩

/-- The accesses of a section of process `p`. -/
def wholeSection (p n : Nat) : List (RwLock.Label Nat LatencyCall) :=
  [.enter p] ++ List.replicate n (.access p) ++ [.leave p]

/-- Process 0 records 300, -/
def recordedBefore : List (RwLock.Label Nat LatencyCall) := .act 0 (.recordLatencySample 300) :: wholeSection 0 6

/-- and 100 when process 1 has copied the samples and not sorted them. -/
def recordedMeanwhile : List (RwLock.Label Nat LatencyCall) :=
  [.act 1 .demuxLatencyStats, .act 0 (.recordLatencySample 100)] ++ wholeSection 1 1027 ++ wholeSection 0 6 ++
    [.act 1 .demuxLatencyStats]

def recordedBeforeRun : State Nat LatencyShared LatencyRegs := RwLock.run latencyProgram latencyStart recordedBefore

def recordedMeanwhileRun : State Nat LatencyShared LatencyRegs :=
  RwLock.run latencyProgram recordedBeforeRun recordedMeanwhile

set_option maxRecDepth 10000 in
theorem recordedMeanwhileRun_ends : recordedMeanwhileRun.completed.store.samples.length < 2 ^ 63 ∧
    ¬ recordedBeforeRun.Inside 1 ∧ ¬ recordedMeanwhileRun.Inside 1 ∧
    (recordedBeforeRun.regs 1).calls < (recordedMeanwhileRun.regs 1).calls ∧
    (recordedMeanwhileRun.regs 1).pc = .returned ∧ (recordedMeanwhileRun.regs 1).wantsRow = true := by
  decide +kernel

theorem locked_stats_meanwhile : ∃ us, recordedBeforeRun.completed.store.samples <+: us ∧
    us <+: recordedMeanwhileRun.completed.store.samples ∧
    demuxLatencyStats (recorded us) = some (recordedMeanwhileRun.regs 1).answer := by
  obtain ⟨hfew, hout₁, hout, hcalls, hpc, hwants⟩ := recordedMeanwhileRun_ends
  have hbefore : recordedBeforeRun = RwLock.run latencyProgram latencyStart recordedBefore := rfl
  have hmeanwhile : recordedMeanwhileRun = RwLock.run latencyProgram recordedBeforeRun recordedMeanwhile := rfl
  exact ((locked_stats hbefore hmeanwhile hfew).2 1 hout₁ hout hcalls).2 hpc hwants

end LockedLatency

end PartDist
