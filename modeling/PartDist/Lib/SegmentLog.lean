import PartDist.Lib.Bytes
import Mathlib.Data.List.Flatten

/-!
# Reading a log while it grows

A log in numbered segment files, each of them appended to.  A reader takes the names once
and then reads one file after the other, a block at a time, while the files grow.

* `Reader.At.grow`, `Reader.At.step`: what growth and the reader's own steps preserve.
* `Reader.At.sublist`: a reader that is through has read no less than was there when it
  took the names, and no more than is there now, nothing out of order.
* `Reader.At.first`: if only the last file grew, it has read a first part of what is there.
-/

namespace SegmentLog

open Bytes

/-- The segment files, in the order in which they are read. -/
structure Log where
  segs : List Nat
  content : Nat → Bytes

/-- The whole blocks of all files. -/
def Log.blocks (k : Nat) (l : Log) : List Bytes := l.segs.flatMap fun s => Bytes.blocks k (l.content s)

/-! ## Blocks -/

section
variable {k : Nat} {f f' : Bytes}

theorem blocks_drop (hk : 0 < k) (f : Bytes) (n : Nat) : Bytes.blocks k (f.drop (k * n)) = (Bytes.blocks k f).drop n := by
  induction n generalizing f with
  | zero => rfl
  | succ n ih =>
    have hsplit : f.drop (k * (n + 1)) = (f.drop k).drop (k * n) := by
      rw [List.drop_drop, Nat.mul_succ, Nat.add_comm]
    rw [hsplit, ih]
    by_cases hs : f.length < k
    · rw [blocks_short hs, blocks_short (by rw [List.length_drop]; omega), List.drop_nil, List.drop_nil]
    · rw [blocks_eq_cons hk (Nat.le_of_not_lt hs), List.drop_succ_cons]

/-- What a `read` of one block at block `n` gives. -/
theorem read_block (hk : 0 < k) (f : Bytes) (n : Nat) :
    ((Bytes.blocks k f)[n]? = some ((f.drop (k * n)).take k) ∧ ((f.drop (k * n)).take k).length = k) ∨
      ((Bytes.blocks k f)[n]? = none ∧ ((f.drop (k * n)).take k).length ≠ k) := by
  have hget : (Bytes.blocks k f)[n]? = (Bytes.blocks k (f.drop (k * n)))[0]? := by
    rw [blocks_drop hk, List.getElem?_drop, Nat.add_zero]
  rw [hget]
  by_cases hs : (f.drop (k * n)).length < k
  · right
    rw [blocks_short hs, List.length_take]
    exact ⟨rfl, by omega⟩
  · left
    rw [Nat.not_lt] at hs
    rw [blocks_eq_cons hk hs, List.length_take]
    exact ⟨rfl, Nat.min_eq_left hs⟩

theorem blocks_mono (hk : 0 < k) (h : f <+: f') : Bytes.blocks k f <+: Bytes.blocks k f' := by
  obtain ⟨g, rfl⟩ := h
  induction f using blocks_induction hk with
  | short f hs =>
    rw [blocks_short hs]
    exact List.nil_prefix
  | block b f hb ih =>
    rw [List.append_assoc, blocks_append_left hk hb, blocks_append_left hk hb]
    exact (List.prefix_cons_inj b).mpr ih

end

/-! ## Readers -/

/-- The files still to be opened, the open one with the offset in it, and the blocks read. -/
structure Reader where
  todo : List Nat
  file : Option (Nat × Nat)
  got : List Bytes

namespace Reader

/-- It has taken the names. -/
def start (segs : List Nat) : Reader := ⟨segs, none, []⟩

/-- Its next system call: a `read` of one block, at whose end a short one closes the file; or
the next `open`. -/
def step (k : Nat) (content : Nat → Bytes) (r : Reader) : Reader :=
  match r.file with
  | some (s, off) =>
    let b := ((content s).drop off).take k
    if b.length = k then { r with file := some (s, off + k), got := r.got ++ [b] } else { r with file := none }
  | none =>
    match r.todo with
    | s :: todo => { r with todo := todo, file := some (s, 0) }
    | [] => r

def Done (r : Reader) : Prop := r.file = none ∧ r.todo = []

instance (r : Reader) : Decidable r.Done := inferInstanceAs (Decidable (_ ∧ _))

/-- A file the reader is through with, and what it read of it: no less than was there in
`l₀`, no more than is there in `l`. -/
def Through (k : Nat) (l₀ l : Log) (p : Nat × List Bytes) : Prop :=
  Bytes.blocks k (l₀.content p.1) <+: p.2 ∧ p.2 <+: Bytes.blocks k (l.content p.1)

/-- Where a reader that took the names of `l₀` stands in the log `l` this has become: in a
file, or between two files. -/
inductive At (k : Nat) (l₀ l : Log) (r : Reader) : Prop
  | inFile (parts : List (Nat × List Bytes)) (s n : Nat) (segs : l₀.segs = parts.map Prod.fst ++ s :: r.todo)
      (file : r.file = some (s, k * n)) (through : ∀ p ∈ parts, Through k l₀ l p)
      (le : n ≤ (Bytes.blocks k (l.content s)).length)
      (got : r.got = parts.flatMap Prod.snd ++ (Bytes.blocks k (l.content s)).take n)
  | between (parts : List (Nat × List Bytes)) (segs : l₀.segs = parts.map Prod.fst ++ r.todo)
      (file : r.file = none) (through : ∀ p ∈ parts, Through k l₀ l p) (got : r.got = parts.flatMap Prod.snd)

section
variable {k : Nat} {l₀ l l' : Log} {r : Reader}

theorem at_start (k : Nat) (l : Log) : At k l l (start l.segs) :=
  .between [] rfl rfl (fun _ hp => absurd hp List.not_mem_nil) rfl

theorem Through.grow {p : Nat × List Bytes} (hk : 0 < k) (hp : Through k l₀ l p)
    (hl : ∀ s, l.content s <+: l'.content s) : Through k l₀ l' p :=
  ⟨hp.1, hp.2.trans (blocks_mono hk (hl p.1))⟩

/-- The files grow. -/
theorem At.grow (hk : 0 < k) (h : At k l₀ l r) (hl : ∀ s, l.content s <+: l'.content s) : At k l₀ l' r := by
  cases h with
  | inFile parts s n segs file through le got =>
    obtain ⟨new, hnew⟩ := blocks_mono hk (hl s)
    refine .inFile parts s n segs file (fun p hp => (through p hp).grow hk hl) ?_ ?_
    · rw [← hnew, List.length_append]
      omega
    · rw [got, ← hnew, List.take_append_of_le_length le]
  | between parts segs file through got =>
    exact .between parts segs file (fun p hp => (through p hp).grow hk hl) got

/-- The reader makes a system call. -/
theorem At.step (hk : 0 < k) (h : At k l₀ l r) (hl : ∀ s, l₀.content s <+: l.content s) :
    At k l₀ l (r.step k l.content) := by
  cases h with
  | inFile parts s n segs file through le got =>
    simp only [Reader.step, file]
    rcases read_block hk (l.content s) n with ⟨hget, hlen⟩ | ⟨hget, hlen⟩
    · -- one more block
      rw [if_pos hlen]
      have hn := (List.getElem?_eq_some_iff.mp hget).1
      refine .inFile parts s (n + 1) segs rfl through hn ?_
      rw [got, List.append_assoc, List.take_add_one, hget]
      rfl
    · -- the end of the file
      rw [if_neg hlen]
      have hn : n = (Bytes.blocks k (l.content s)).length := Nat.le_antisymm le (List.getElem?_eq_none_iff.mp hget)
      rw [hn, List.take_length] at got
      refine .between (parts ++ [(s, Bytes.blocks k (l.content s))]) ?_ rfl (fun p hp => ?_) ?_
      · rw [segs, List.map_append, List.append_assoc]
        rfl
      · rcases List.mem_append.mp hp with hp | hp
        · exact through p hp
        · obtain rfl := List.mem_singleton.mp hp
          exact ⟨blocks_mono hk (hl s), List.prefix_rfl⟩
      · rw [got, List.flatMap_append, List.flatMap_singleton]
  | between parts segs file through got =>
    cases htodo : r.todo with
    | nil =>
      have hsame : r.step k l.content = r := by
        simp only [Reader.step, file, htodo]
      rw [hsame]
      exact .between parts segs file through got
    | cons s todo =>
      simp only [Reader.step, file, htodo]
      refine .inFile parts s 0 ?_ rfl through (Nat.zero_le _) ?_
      · rw [segs, htodo]
      · rw [List.take_zero, List.append_nil]
        exact got

/-- A reader that is through has been through all files. -/
theorem At.done (h : At k l₀ l r) (hdone : r.Done) :
    ∃ parts : List (Nat × List Bytes), l₀.segs = parts.map Prod.fst ∧ (∀ p ∈ parts, Through k l₀ l p) ∧
      r.got = parts.flatMap Prod.snd := by
  cases h with
  | inFile parts s n segs file through le got =>
    rw [hdone.1] at file
    cases file
  | between parts segs file through got =>
    rw [hdone.2, List.append_nil] at segs
    exact ⟨parts, segs, through, got⟩

/-- What it has read lies between what was there and what is there, in every file. -/
theorem At.sublist (h : At k l₀ l r) (hdone : r.Done) (hsegs : l₀.segs.Sublist l.segs) :
    (l₀.blocks k).Sublist r.got ∧ r.got.Sublist (l.blocks k) := by
  obtain ⟨parts, segs, through, got⟩ := h.done hdone
  constructor
  · rw [Log.blocks, got, segs, List.flatMap_map]
    exact List.Sublist.flatMap_right _ fun p hp => (through p hp).1.sublist
  · calc r.got.Sublist (parts.flatMap fun p => Bytes.blocks k (l.content p.1)) := by
          rw [got]
          exact List.Sublist.flatMap_right _ fun p hp => (through p hp).2.sublist
      _ = l₀.segs.flatMap fun s => Bytes.blocks k (l.content s) := by rw [segs, List.flatMap_map]
      List.Sublist _ (l.blocks k) := hsegs.flatMap _

/-- If only the last file grew and new files come behind it, it has read a first part of
what is there. -/
theorem At.first (h : At k l₀ l r) (hdone : r.Done) (hsegs : l₀.segs <+: l.segs)
    (hclosed : ∀ s ∈ l₀.segs.dropLast, l.content s = l₀.content s) :
    l₀.blocks k <+: r.got ∧ r.got <+: l.blocks k := by
  obtain ⟨parts, segs, through, got⟩ := h.done hdone
  obtain ⟨new, hnew⟩ := hsegs
  rw [Log.blocks, Log.blocks, got, ← hnew]
  rcases List.eq_nil_or_concat parts with rfl | ⟨init, p, rfl⟩
  · rw [segs]
    exact ⟨List.prefix_rfl, List.nil_prefix⟩
  · rw [List.concat_eq_append] at *
    have hinit : ∀ q ∈ init, q.2 = Bytes.blocks k (l₀.content q.1) ∧ l.content q.1 = l₀.content q.1 := by
      intro q hq
      have hq' : l.content q.1 = l₀.content q.1 := by
        apply hclosed
        rw [segs, List.map_append, List.map_singleton, List.dropLast_concat]
        exact List.mem_map_of_mem hq
      obtain ⟨hlow, hup⟩ := through q (List.mem_append_left _ hq)
      rw [hq'] at hup
      exact ⟨hup.eq_of_length_le hlow.length_le, hq'⟩
    have hfirst : init.flatMap Prod.snd = (init.map Prod.fst).flatMap fun s => Bytes.blocks k (l₀.content s) := by
      rw [List.flatMap_map]
      exact List.flatMap_congr fun q hq => (hinit q hq).1
    have hthen : init.flatMap Prod.snd = (init.map Prod.fst).flatMap fun s => Bytes.blocks k (l.content s) := by
      rw [List.flatMap_map]
      exact List.flatMap_congr fun q hq => by rw [(hinit q hq).2, (hinit q hq).1]
    obtain ⟨hlow, hup⟩ := through p (List.mem_append_right _ List.mem_cons_self)
    rw [segs, List.map_append, List.flatMap_append, List.flatMap_append, List.flatMap_append, List.flatMap_append]
    constructor
    · rw [hfirst, List.prefix_append_right_inj]
      simpa using hlow
    · rw [← hthen, List.append_assoc, List.prefix_append_right_inj]
      exact (by simpa using hup : [p].flatMap Prod.snd <+: _).trans (List.prefix_append _ _)

end

end Reader

end SegmentLog
