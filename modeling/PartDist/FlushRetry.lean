import Mathlib.Data.List.TakeWhile
import PartDist.Writer

/-!
# Retrying a failed flush

`FlushPartitionWALWriter` writes from the start of the buffer each time it is called: an
error leaves `buffer` and `buf_used` as they were, also when a part of the buffer has
reached the file (`flush_error`).

* `flushCalls_content`: what is in the file after any number of calls.
* `flush_retry_iff`: the buffer is there exactly once if and only if each call that failed
  had written nothing.
-/

namespace PartDist

/-- Calls of `FlushPartitionWALWriter`, one after the other, with what each leaves behind. -/
def flushCalls (calls : List (List WriteOutcome)) (w : PartitionWALWriter) (d : Dir) : WriterCall :=
  calls.foldl (fun c os => flushPartitionWALWriter os c.writer c.dir)
    { raised := false, writer := w, dir := d }

/-- The outcomes of a call that fails before anything is written. -/
def FailsUnwritten : List WriteOutcome → Prop
  | [] => False
  | .eintr :: os => FailsUnwritten os
  | .error :: _ => True
  | .wrote n :: os => n = 0 ∧ FailsUnwritten os

instance : (os : List WriteOutcome) → Decidable (FailsUnwritten os)
  | [] => isFalse id
  | .eintr :: os => instDecidableFailsUnwritten os
  | .error :: _ => isTrue trivial
  | .wrote n :: os => @instDecidableAnd (n = 0) _ inferInstance (instDecidableFailsUnwritten os)

/-- The outcomes of a call that gets `remaining` bytes written before any error. -/
def Completes (remaining : Nat) : List WriteOutcome → Bool
  | [] => true
  | .eintr :: os => remaining = 0 || Completes remaining os
  | .error :: _ => remaining = 0
  | .wrote n :: os => remaining = 0 || Completes (remaining - n) os

/-- The calls up to the first that completes. -/
def failedCalls (calls : List (List WriteOutcome)) (bufUsed : Nat) : List (List WriteOutcome) :=
  calls.takeWhile fun os => !Completes bufUsed os

section
variable {w : PartitionWALWriter} {d : Dir} {fd : Descriptor} {os : List WriteOutcome} {bs : Bytes}

theorem writeLoop_completes (os : List WriteOutcome) (bs : Bytes) :
    (writeLoop os bs).2 = Completes bs.length os := by
  induction os generalizing bs with
  | nil => rfl
  | cons o os ih =>
    unfold writeLoop
    split
    · next hbs =>
      subst hbs
      cases o <;> simp [Completes]
    · next hbs =>
      have hlen : bs.length ≠ 0 := fun h => hbs (List.length_eq_zero_iff.mp h)
      cases o with
      | eintr => simp [Completes, hlen, ih]
      | error => simp [Completes, hlen]
      | wrote n => simp [Completes, hlen, ih]

theorem failsUnwritten_iff (hfail : (writeLoop os bs).2 = false) :
    (writeLoop os bs).1 = [] ↔ FailsUnwritten os := by
  induction os with
  | nil => cases hfail
  | cons o os ih =>
    unfold writeLoop at hfail ⊢
    split at hfail
    · cases hfail
    · next hbs =>
      rw [if_neg hbs]
      cases o with
      | eintr => exact ih hfail
      | error => exact ⟨fun _ => trivial, fun _ => rfl⟩
      | wrote n =>
        simp only at hfail ⊢
        constructor
        · intro h
          obtain ⟨htake, hrest⟩ := List.append_eq_nil_iff.mp h
          have hn : n = 0 := (List.take_eq_nil_iff.mp htake).resolve_right hbs
          subst hn
          exact ⟨rfl, (ih hfail).mp hrest⟩
        · rintro ⟨rfl, hrest⟩
          rw [List.take_zero, List.nil_append]
          exact (ih hfail).mpr hrest

/-- A call that fails leaves the writer as it was; what it wrote is in the file. -/
theorem flush_error (hfd : w.fd = some fd) (hlink : d.linked fd) (hfail : (writeLoop os w.buffer).2 = false) :
    flushPartitionWALWriter os w d =
      { raised := true, writer := w, dir := d.append fd.segno (writeLoop os w.buffer).1 } := by
  have hbuf : w.buffer ≠ [] := by
    intro hnil
    rw [hnil] at hfail
    cases os <;> cases hfail
  simp only [flushPartitionWALWriter, if_neg hbuf, hfd, hfail, Bool.false_eq_true, if_false,
    Dir.write_of_linked hlink]

theorem flush_done (hfd : w.fd = some fd) (hlink : d.linked fd) (hdone : (writeLoop os w.buffer).2 = true) :
    (flushPartitionWALWriter os w d).writer.buffer = [] ∧
      (flushPartitionWALWriter os w d).dir.content fd.segno = d.content fd.segno ++ w.buffer := by
  by_cases hbuf : w.buffer = []
  · rw [flush_of_nil hbuf, hbuf, List.append_nil]
    exact ⟨rfl, rfl⟩
  · simp only [flushPartitionWALWriter, if_neg hbuf, hfd, if_pos hdone, writeLoop_done hdone,
      Dir.write_of_linked hlink, Dir.content_append_self, and_self]

/-- After one that succeeds there is nothing left to write. -/
theorem flushCalls_of_nil (hbuf : w.buffer = []) (calls : List (List WriteOutcome)) :
    flushCalls calls w d = { raised := false, writer := w, dir := d } := by
  induction calls with
  | nil => rfl
  | cons os calls ih =>
    rw [flushCalls, List.foldl_cons, flush_of_nil hbuf]
    exact ih

theorem flushCalls_cons (os : List WriteOutcome) {calls : List (List WriteOutcome)} (hne : calls ≠ []) :
    flushCalls (os :: calls) w d =
      flushCalls calls (flushPartitionWALWriter os w d).writer (flushPartitionWALWriter os w d).dir := by
  obtain ⟨os', rest, rfl⟩ := List.exists_cons_of_ne_nil hne
  rfl

/-- Each call that fails adds what it wrote; the first that succeeds adds the buffer. -/
theorem flushCalls_content {calls : List (List WriteOutcome)} (hne : calls ≠ []) (hfd : w.fd = some fd)
    (hlink : d.linked fd) (hlast : (flushCalls calls w d).raised = false) :
    (flushCalls calls w d).dir.content fd.segno =
      d.content fd.segno ++ (failedCalls calls w.buffer.length).flatMap (fun os => (writeLoop os w.buffer).1) ++
        w.buffer := by
  induction calls generalizing d with
  | nil => exact absurd rfl hne
  | cons os calls ih =>
    cases hdone : (writeLoop os w.buffer).2 with
    | true =>
      obtain ⟨hbuf, hcontent⟩ := flush_done hfd hlink hdone
      have hrest : flushCalls (os :: calls) w d = flushPartitionWALWriter os w d := by
        have hcall : (flushPartitionWALWriter os w d).raised = false := by
          simp only [flushPartitionWALWriter, hfd, hdone, if_true]
          split <;> rfl
        by_cases hcalls : calls = []
        · subst hcalls
          rfl
        · rw [flushCalls_cons os hcalls, flushCalls_of_nil hbuf, ← hcall]
      rw [hrest, hcontent, failedCalls,
        List.takeWhile_cons_of_neg (by simp [← writeLoop_completes, hdone]), List.flatMap_nil,
        List.append_nil]
    | false =>
      have hcall := flush_error hfd hlink hdone
      have hcalls : calls ≠ [] := by
        rintro rfl
        rw [flushCalls, List.foldl_cons, List.foldl_nil, hcall] at hlast
        cases hlast
      rw [flushCalls_cons os hcalls, hcall] at hlast ⊢
      rw [ih hcalls (Dir.linked_append hlink _ _) hlast, Dir.content_append_self, failedCalls, failedCalls,
        List.takeWhile_cons_of_pos (by simp [← writeLoop_completes, hdone]), List.flatMap_cons,
        List.append_assoc, List.append_assoc,
        List.append_assoc, List.append_assoc]

end

/-- **Retried flushes.** After any number of calls of which the last one succeeds, the
segment file has the buffer once behind what it had, if and only if no call that failed had
written anything. -/
theorem flush_retry_iff (w : PartitionWALWriter) (d : Dir) (fd : Descriptor) (hfd : w.fd = some fd)
    (hlink : d.linked fd) (calls : List (List WriteOutcome)) (hne : calls ≠ [])
    (hlast : (flushCalls calls w d).raised = false) :
    (flushCalls calls w d).dir.content fd.segno = d.content fd.segno ++ w.buffer ↔
      ∀ os ∈ failedCalls calls w.buffer.length, FailsUnwritten os := by
  have hfail : ∀ os ∈ failedCalls calls w.buffer.length, (writeLoop os w.buffer).2 = false := by
    intro os hos
    rw [writeLoop_completes]
    simpa using List.mem_takeWhile_imp hos
  rw [flushCalls_content hne hfd hlink hlast, List.append_assoc, List.append_cancel_left_eq,
    List.append_left_eq_self, List.flatMap_eq_nil_iff]
  exact forall₂_congr fun os hos => failsUnwritten_iff (hfail os hos)

/-- A writer of partition 7 with one record in its buffer and the empty segment file 1 open. -/
def oneBuffered : PartitionWALWriter where
  partitionId := 7
  fd := some ⟨1, 0⟩
  writePosition := 0
  lastPartitionLsn := 1
  currentSegno := 1
  buffer := (buildHeader 7 1 0 1).encode
  enospcStalled := false

/-- The disk is full at first; the retry is interrupted once and then succeeds. -/
theorem flush_retry_iff_full_disk :
    let d := Dir.empty.openCreate 1
    (flushCalls [[.error], [.eintr, .wrote 32]] oneBuffered d).dir.content 1 =
      d.content 1 ++ oneBuffered.buffer :=
  (flush_retry_iff oneBuffered (Dir.empty.openCreate 1) ⟨1, 0⟩ rfl (Dir.linked_openCreate Dir.empty 1)
    [[.error], [.eintr, .wrote 32]] (by decide) (by decide +kernel)).mpr (by decide +kernel)

/-- The disk is full after 16 bytes of the record: the retry writes all of it again. -/
theorem half_written_twice :
    let d := Dir.empty.openCreate 1
    let c := flushCalls [[.wrote 16, .error], []] oneBuffered d
    c.raised = false ∧ c.dir.content 1 = oneBuffered.buffer.take 16 ++ oneBuffered.buffer ∧
      c.dir.content 1 ≠ d.content 1 ++ oneBuffered.buffer := by
  decide +kernel

end PartDist
