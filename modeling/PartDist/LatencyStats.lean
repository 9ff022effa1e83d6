import PartDist.Lib.InsertionSort
import PartDist.Lib.RingBuffer
import Mathlib.Data.List.Sort
import Mathlib.Data.UInt

/-!
# Latency percentiles

`RecordLatencySample` and `demux_latency_stats` (demux_worker.c): a ring of 1024 samples
in shared memory, copied and sorted in place when the percentiles are asked for.

* `recorded_slots`: the slots that are copied hold the last samples, before and after the
  head wraps around.
* `percentiles_window`: the percentiles are elements of the sorted window, as long as
  fewer than 2^63 samples have been recorded.
-/

namespace PartDist

open InsertionSort

/-- `DEMUX_LATENCY_SAMPLES`. -/
def demuxLatencySamples : Nat := 1024

/-- The samples of `DemuxSharedState`, in microseconds: `latency_buf` with `latency_head`, and
`latency_count`. -/
structure DemuxLatency where
  ring : RingBuffer Int64 demuxLatencySamples
  count : Int64

structure Percentiles where
  p50 : Int64
  p99 : Int64
deriving DecidableEq

/-- A row of `demux_latency_stats`. -/
structure LatencyRow where
  p50Ms : Float
  p99Ms : Float
  avgMs : Float

/-! ## Algorithm -/

/-- `DemuxShmemInit`. -/
def DemuxLatency.init : DemuxLatency where
  ring := RingBuffer.fresh 0 demuxLatencySamples (by decide)
  count := 0

/-- `none` is `DemuxState == NULL`. -/
def recordLatencySample (st : Option DemuxLatency) (us : Int64) : Option DemuxLatency :=
  st.map fun s => { ring := s.ring.push us, count := s.count + 1 }

def DemuxLatency.copied (s : DemuxLatency) : Int64 := if s.count < 1024 then s.count else 1024

/-- What `memcpy` copies and the sort leaves; a negative count is a huge size for `memcpy`.
`none` is an access outside an array. -/
def sortedSamples : Option DemuxLatency → Option (List Int64)
  | none => some []
  | some s =>
    if s.copied < 0 then none
    else
      let n := s.copied.toNatClampNeg
      insertionLoops (fun x tmp => decide (tmp < x)) n (s.ring.buf.take n)

/-- Both in microseconds; nothing when there are no samples. -/
def latencyPercentiles (st : Option DemuxLatency) : Option (Option Percentiles) := do
  let samples ← sortedSamples st
  let n := samples.length
  if n = 0 then return none
  return some { p50 := (← samples[n / 2]?), p99 := (← samples[n * 99 / 100]?) }

def latencyRow (p : Percentiles) (samples : List Int64) : LatencyRow where
  p50Ms := p.p50.toFloat / 1000
  p99Ms := p.p99.toFloat / 1000
  avgMs := samples.foldl (fun sum us => sum + us.toFloat) 0 / Float.ofNat samples.length / 1000

/-- `none` inside is a row of NULLs. -/
def demuxLatencyStats (st : Option DemuxLatency) : Option (Option LatencyRow) := do
  let samples ← sortedSamples st
  let percentiles ← latencyPercentiles st
  return percentiles.map fun p => latencyRow p samples

/-- After the samples `us`. -/
def recorded (us : List Int64) : Option DemuxLatency := us.foldl recordLatencySample (some .init)

/-! ## The window -/

/-- The last `min k 1024` of `k` samples. -/
def latencyWindow (us : List Int64) : List Int64 := us.drop (us.length - min us.length demuxLatencySamples)

def sortedWindow (us : List Int64) : List Int64 := (latencyWindow us).mergeSort fun x y => decide (x ≤ y)

section
variable {us : List Int64}

theorem length_latencyWindow (us : List Int64) : (latencyWindow us).length = min us.length demuxLatencySamples := by
  rw [latencyWindow, List.length_drop]
  omega

theorem length_sortedWindow (us : List Int64) : (sortedWindow us).length = min us.length demuxLatencySamples := by
  rw [sortedWindow, List.length_mergeSort, length_latencyWindow]

theorem recorded_eq (us : List Int64) :
    recorded us = some ⟨DemuxLatency.init.ring.pushAll us, Int64.ofNat us.length⟩ := by
  have key : ∀ (us : List Int64) (r : RingBuffer Int64 demuxLatencySamples) (n : Nat),
      us.foldl recordLatencySample (some ⟨r, Int64.ofNat n⟩) = some ⟨r.pushAll us, Int64.ofNat (n + us.length)⟩ := by
    intro us
    induction us with
    | nil => exact fun r n => rfl
    | cons u us ih =>
      intro r n
      have hcount : Int64.ofNat n + 1 = Int64.ofNat (n + 1) := (Int64.ofNat_add n 1).symm
      rw [List.foldl_cons, recordLatencySample, Option.map_some, hcount, ih, List.length_cons, Nat.add_assoc,
        Nat.add_comm 1]
      rfl
  have h := key us DemuxLatency.init.ring 0
  rw [Nat.zero_add] at h
  exact h

/-- The number of slots that are copied. -/
theorem copied_ofNat (r : RingBuffer Int64 demuxLatencySamples) {k : Nat} (hk : k < 2 ^ 63) :
    (DemuxLatency.mk r (Int64.ofNat k)).copied = Int64.ofNat (min k demuxLatencySamples) := by
  have hto : (Int64.ofNat k).toInt = k := Int64.toInt_ofNat_of_lt hk
  have hlt : Int64.ofNat k < 1024 ↔ k < 1024 := by
    rw [Int64.lt_iff_toInt_lt, hto]
    exact Int.ofNat_lt
  rw [DemuxLatency.copied]
  by_cases h : k < 1024
  · have hmin : min k demuxLatencySamples = k := Nat.min_eq_left (Nat.le_of_lt h)
    rw [if_pos (hlt.mpr h), hmin]
  · have hmin : min k demuxLatencySamples = 1024 := Nat.min_eq_right (Nat.le_of_not_lt h)
    rw [if_neg (mt hlt.mp h), hmin]
    rfl

/-- **The slots.** Whatever the number of samples, the first slots hold the last of them. -/
theorem recorded_slots (us : List Int64) :
    ((DemuxLatency.init.ring.pushAll us).buf.take (min us.length demuxLatencySamples)).Perm (latencyWindow us) :=
  RingBuffer.slots_perm_last rfl us

theorem mergeSort_sorted (l : List Int64) : (l.mergeSort fun x y => decide (x ≤ y)).Pairwise (· ≤ ·) := by
  have h : (l.mergeSort fun x y => decide (x ≤ y)).Pairwise fun x y => decide (x ≤ y) = true :=
    List.pairwise_mergeSort (fun x y z hxy hyz => by
      rw [decide_eq_true_eq] at *
      exact Int64.le_trans hxy hyz)
    (fun x y => by
      rw [Bool.or_eq_true, decide_eq_true_eq, decide_eq_true_eq]
      exact Int64.le_total x y) l
  exact h.imp fun hxy => by simpa using hxy

/-- The loops end with the sorted window. -/
theorem sortedSamples_recorded (hk : us.length < 2 ^ 63) : sortedSamples (recorded us) = some (sortedWindow us) := by
  have hmin : min us.length demuxLatencySamples ≤ 1024 := Nat.min_le_right _ _
  have hto : (Int64.ofNat (min us.length demuxLatencySamples)).toInt = (min us.length demuxLatencySamples : Nat) :=
    Int64.toInt_ofNat_of_lt (by omega)
  have hpos : ¬ Int64.ofNat (min us.length demuxLatencySamples) < 0 := by
    rw [Int64.lt_iff_toInt_lt, hto]
    exact Int.not_lt.mpr (Int.natCast_nonneg _)
  have hnat : (Int64.ofNat (min us.length demuxLatencySamples)).toNatClampNeg = min us.length demuxLatencySamples :=
    Int64.toNatClampNeg_ofNat_of_lt (by omega)
  have hslots := recorded_slots us
  generalize hl : (DemuxLatency.init.ring.pushAll us).buf.take (min us.length demuxLatencySamples) = slots at hslots
  have hlen : slots.length = min us.length demuxLatencySamples := hslots.length_eq.trans (length_latencyWindow us)
  obtain ⟨q, hloops, hperm, hsorted⟩ := insertionLoops_spec (fun x tmp : Int64 => decide (tmp < x))
    (fun x y h => decide_eq_false fun h' => Int64.lt_irrefl (Int64.lt_trans h' (of_decide_eq_true h)))
    (fun x y z hxy hyz => decide_eq_false (Int64.not_lt.mpr
      (Int64.le_trans (Int64.not_lt.mp (of_decide_eq_false hxy)) (Int64.not_lt.mp (of_decide_eq_false hyz)))))
    slots []
  rw [List.append_nil, List.append_nil, hlen] at hloops
  have hq : q = sortedWindow us := by
    refine ((hperm.trans hslots).trans (List.mergeSort_perm _ _).symm).eq_of_pairwise
      (fun x y _ _ hxy hyx => Int64.le_antisymm hxy hyx) ?_ (mergeSort_sorted _)
    exact hsorted.imp fun h => Int64.not_lt.mp (of_decide_eq_false h)
  rw [recorded_eq, sortedSamples]
  simp only [copied_ofNat _ hk, if_neg hpos, hnat, hl]
  rw [hloops, hq]

end

theorem demuxLatencyStats_eq {st : Option DemuxLatency} {samples : List Int64} {r : Option Percentiles}
    (hs : sortedSamples st = some samples) (hp : latencyPercentiles st = some r) :
    demuxLatencyStats st = some (r.map fun p => latencyRow p samples) := by
  rw [demuxLatencyStats, hs, hp]
  rfl

/-- **Latency percentiles.** With fewer than 2^63 samples: NULLs without a sample; otherwise the
row is made from the elements at places n / 2 and 99 n / 100 of the sorted list of the last
n = min k 1024 samples, both of them places of that list, the second not below the first. -/
theorem percentiles_window (us : List Int64) (hk : us.length < 2 ^ 63) :
    (us = [] → demuxLatencyStats (recorded us) = some none) ∧
      (us ≠ [] → ∃ p, latencyPercentiles (recorded us) = some (some p) ∧
        demuxLatencyStats (recorded us) = some (some (latencyRow p (sortedWindow us))) ∧
        let n := min us.length demuxLatencySamples
        n / 2 < n ∧ n * 99 / 100 < n ∧ (sortedWindow us)[n / 2]? = some p.p50 ∧
          (sortedWindow us)[n * 99 / 100]? = some p.p99 ∧ p.p50 ≤ p.p99) := by
  have hlen := length_sortedWindow us
  have hsorted := sortedSamples_recorded hk
  constructor
  · rintro rfl
    have hnil : sortedWindow [] = [] := List.eq_nil_of_length_eq_zero hlen
    have hp : latencyPercentiles (recorded []) = some none := by
      rw [latencyPercentiles, hsorted, hnil]
      rfl
    exact demuxLatencyStats_eq hsorted hp
  · intro hne
    have hus := List.length_pos_iff.mpr hne
    have hn : 0 < min us.length demuxLatencySamples := Nat.lt_min.mpr ⟨hus, by decide⟩
    have h50 : min us.length demuxLatencySamples / 2 < (sortedWindow us).length := by omega
    have h99 : min us.length demuxLatencySamples * 99 / 100 < (sortedWindow us).length := by omega
    have hp : latencyPercentiles (recorded us) =
        some (some ⟨(sortedWindow us)[min us.length demuxLatencySamples / 2],
          (sortedWindow us)[min us.length demuxLatencySamples * 99 / 100]⟩) := by
      rw [latencyPercentiles, hsorted]
      simp only [Option.bind_eq_bind, Option.bind_some, hlen, List.getElem?_eq_getElem h50,
        List.getElem?_eq_getElem h99, if_neg (Nat.ne_of_gt hn), Option.pure_def]
    refine ⟨_, hp, demuxLatencyStats_eq hsorted hp, by omega, by omega, List.getElem?_eq_getElem h50,
      List.getElem?_eq_getElem h99, ?_⟩
    rcases Nat.lt_or_eq_of_le (show min us.length demuxLatencySamples / 2 ≤
      min us.length demuxLatencySamples * 99 / 100 by omega) with hlt | heq
    · exact List.pairwise_iff_getElem.mp (mergeSort_sorted _) _ _ h50 h99 hlt
    · simp only [heq]
      exact Int64.le_refl _

theorem percentiles_window_three : ∃ p, latencyPercentiles (recorded [300, 100, 200]) = some (some p) ∧
    (sortedWindow [300, 100, 200])[1]? = some p.p50 ∧ (sortedWindow [300, 100, 200])[2]? = some p.p99 := by
  obtain ⟨p, hp, _, _, _, h50, h99, _⟩ := (percentiles_window [300, 100, 200] (by decide)).2 (List.cons_ne_nil _ _)
  exact ⟨p, hp, h50, h99⟩

/-- The count wraps around at 2^63 samples, and what is to be copied has a negative size. -/
theorem count_negative : demuxLatencyStats (recorded (List.replicate (2 ^ 63) 0)) = none := by
  have hnone : sortedSamples (recorded (List.replicate (2 ^ 63) 0)) = none := by
    have hneg : Int64.ofNat (2 ^ 63) < 0 := by decide
    rw [recorded_eq, sortedSamples, List.length_replicate, DemuxLatency.copied]
    rw [if_pos]
    have hsmall : Int64.ofNat (2 ^ 63) < 1024 := by decide
    simp only [if_pos hsmall]
    exact hneg
  rw [demuxLatencyStats, hnone]
  rfl

end PartDist
