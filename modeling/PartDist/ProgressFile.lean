import PartDist.Lib.FileSystem
import PartDist.Header

/-!
# The progress file

`LoadDemuxProgress` and `SaveDemuxProgress` (demux_worker.c).  A save is the list of system
calls it makes, whatever the outcome of each; `pg_fsync` does what it says.

* `shows_saves`: after any number of the system calls of any number of saves, the progress
  file is the image of the last save whose rename is among them.
* `progress_atomic`: after a crash the loader returns that save's LSN.
-/

namespace PartDist

open Bytes FileSystem

def demuxProgressMagic : UInt32 := 0x44455855

/-- `DEMUX_PROGRESS_FILE`, in the data directory. -/
def demuxProgressFile : String := "pg_parwal/.demux_progress"

def demuxProgressTmp : String := demuxProgressFile ++ ".tmp"

structure DemuxProgressFile where
  magic : UInt32
  version : UInt32
  lsn : XLogRecPtr
deriving DecidableEq

/-- `sizeof(DemuxProgressFile)`. -/
def progressSize : Nat := 16

namespace DemuxProgressFile

def encode (pf : DemuxProgressFile) : Bytes :=
  leBytes 4 pf.magic.toNat ++ leBytes 4 pf.version.toNat ++ leBytes 8 pf.lsn.toNat

def decode (bs : Bytes) : DemuxProgressFile where
  magic := UInt32.ofNat (leNat (bs.take 4))
  version := UInt32.ofNat (leNat ((bs.drop 4).take 4))
  lsn := UInt64.ofNat (leNat ((bs.drop 8).take 8))

theorem length_encode (pf : DemuxProgressFile) : pf.encode.length = progressSize := by
  simp [encode, progressSize]

theorem decode_encode (pf : DemuxProgressFile) : decode pf.encode = pf := by
  have hmagic : leNat (leBytes 4 pf.magic.toNat) = pf.magic.toNat := leNat_leBytes_of_lt pf.magic.toNat_lt
  have hversion : leNat (leBytes 4 pf.version.toNat) = pf.version.toNat := leNat_leBytes_of_lt pf.version.toNat_lt
  have hlsn : leNat (leBytes 8 pf.lsn.toNat) = pf.lsn.toNat := leNat_leBytes_of_lt pf.lsn.toNat_lt
  obtain ⟨magic, version, lsn⟩ := pf
  simp only [decode, encode, List.append_assoc, List.take_append, List.drop_append, length_leBytes,
    List.take_of_length_le, List.drop_of_length_le, Nat.sub_self, List.take_zero, List.drop_zero,
    List.append_nil, List.nil_append, Nat.le_refl, Nat.reduceLeDiff, Nat.reduceSub] at *
  simp [hmagic, hversion, hlsn]

end DemuxProgressFile

/-! ## Algorithm -/

/-- The outcomes of a save's system calls.  `interrupts`: how often `write` is interrupted.
`written`: the count it then returns, `none` for any other error. -/
structure SaveIO where
  openOk : Bool
  interrupts : Nat
  written : Option (Fin (progressSize + 1))
  renameOk : Bool
deriving DecidableEq

def SaveIO.nb (io : SaveIO) : Int := io.written.elim (-1) fun n => n.val

def progressImage (lsn : XLogRecPtr) : Bytes := DemuxProgressFile.encode ⟨demuxProgressMagic, 1, lsn⟩

theorem length_progressImage (lsn : XLogRecPtr) : (progressImage lsn).length = progressSize :=
  DemuxProgressFile.length_encode _

/-- The system calls in their order. -/
def saveDemuxProgress (lsn : XLogRecPtr) (io : SaveIO) : List (SysCall String) :=
  if io.openOk then
    .openTrunc demuxProgressTmp :: List.replicate io.interrupts .failed ++
      [match io.written with
        | some n => .write ((progressImage lsn).take n)
        | none => .failed] ++
      (if io.nb = progressSize then [.fsync] else []) ++
      [.close] ++
      (if io.nb = progressSize then
        [if io.renameOk then .rename demuxProgressTmp demuxProgressFile else .failed]
      else [])
  else [.failed]

def loadDemuxProgress (disk : Disk String) : XLogRecPtr :=
  match disk.read demuxProgressFile with
  | none => invalidXLogRecPtr
  | some bytes =>
    let pf := DemuxProgressFile.decode (bytes.take progressSize)
    if (bytes.take progressSize).length ≠ progressSize ∨ pf.magic ≠ demuxProgressMagic ∨ pf.version ≠ 1 then
      invalidXLogRecPtr
    else pf.lsn

/-! ## Sequences of saves -/

structure Save where
  lsn : XLogRecPtr
  outcome : SaveIO
deriving DecidableEq

def Save.calls (c : Save) : List (SysCall String) := saveDemuxProgress c.lsn c.outcome

/-- The rename takes effect. -/
def Save.renames (c : Save) : Bool :=
  c.outcome.openOk && decide (c.outcome.nb = progressSize) && c.outcome.renameOk

/-- The saves whose system calls are all among the first `n`. -/
def completed : List Save → Nat → List Save
  | [], _ => []
  | c :: cs, n => if c.calls.length ≤ n then c :: completed cs (n - c.calls.length) else []

def lastRenamed (cs : List Save) : Option Save := (cs.filter Save.renames).getLast?

section
variable {c : Save} {fs : FileSystem String} {shown : Option Bytes}

theorem tmp_ne_file : demuxProgressTmp ≠ demuxProgressFile := by decide

theorem calls_through (c : Save) : ∀ a ∈ c.calls, Through demuxProgressTmp demuxProgressFile a := by
  intro a ha
  rw [Save.calls, saveDemuxProgress] at ha
  split at ha
  · simp only [List.mem_append, List.mem_cons, List.mem_replicate] at ha
    rcases ha with ((((rfl | ⟨-, rfl⟩) | rfl | hnil) | hsync) | rfl | hnil) | hrename
    · exact .openTrunc
    · exact .failed
    · split
      · exact .write _
      · exact .failed
    · cases hnil
    · split at hsync
      · rw [List.mem_singleton.mp hsync]
        exact .fsync
      · cases hsync
    · exact .close
    · cases hnil
    · split at hrename
      · rw [List.mem_singleton.mp hrename]
        split
        · exact .rename
        · exact .failed
      · cases hrename
  · rw [List.mem_singleton.mp ha]
    exact .failed

/-- Only a save whose write is complete gets to the rename. -/
theorem calls_not_renames (hc : c.renames = false) : .rename demuxProgressTmp demuxProgressFile ∉ c.calls := by
  intro h
  rw [Save.calls, saveDemuxProgress] at h
  split at h
  · next hopen =>
    simp only [List.mem_append, List.mem_cons, List.mem_replicate] at h
    rcases h with ((((h | ⟨-, h⟩) | h | h) | h) | h | h) | h
    · cases h
    · cases h
    · split at h <;> cases h
    · cases h
    · split at h
      · cases List.mem_singleton.mp h
      · cases h
    · cases h
    · cases h
    · split at h
      · next hnb =>
        have hfail : c.outcome.renameOk = false := by
          rw [Save.renames, hopen, decide_eq_true hnb] at hc
          exact hc
        rw [hfail] at h
        cases List.mem_singleton.mp h
      · cases h
  · cases List.mem_singleton.mp h

theorem calls_renames (hc : c.renames = true) :
    c.calls = .openTrunc demuxProgressTmp :: List.replicate c.outcome.interrupts .failed ++
      [.write (progressImage c.lsn), .fsync, .close, .rename demuxProgressTmp demuxProgressFile] := by
  rw [Save.renames, Bool.and_eq_true, Bool.and_eq_true, decide_eq_true_eq] at hc
  obtain ⟨⟨hopen, hnb⟩, hrename⟩ := hc
  have hwrite : (match c.outcome.written with
      | some n => SysCall.write ((progressImage c.lsn).take n)
      | none => .failed) = (.write (progressImage c.lsn) : SysCall String) := by
    rw [ SaveIO.nb] at hnb
    cases hw : c.outcome.written with
    | none =>
      rw [hw] at hnb
      cases hnb
    | some n =>
      rw [hw] at hnb
      have hn : n.val = progressSize := Int.ofNat_inj.mp hnb
      simp only [hn]
      rw [List.take_of_length_le (Nat.le_of_eq (length_progressImage _))]
  rw [Save.calls, saveDemuxProgress, if_pos hopen, hwrite, if_pos hnb, if_pos hnb, if_pos hrename]
  simp

/-- What the progress file is once the save has ended. -/
def Save.leaves (c : Save) (shown : Option Bytes) : Option Bytes :=
  if c.renames then some (progressImage c.lsn) else shown

theorem shows_save (h : Shows demuxProgressTmp demuxProgressFile shown fs) (c : Save) :
    Shows demuxProgressTmp demuxProgressFile (c.leaves shown) (fs.run c.calls) := by
  rw [Save.leaves]
  split
  · next hc =>
    have hrun : fs.run c.calls = fs.run [.openTrunc demuxProgressTmp, .write (progressImage c.lsn), .fsync, .close,
        .rename demuxProgressTmp demuxProgressFile] := by
      rw [calls_renames hc, List.cons_append, run_cons, run_append, run_failed]
      rfl
    rw [hrun]
    exact shows_replaced tmp_ne_file fs _
  · next hc =>
    exact h.run tmp_ne_file (calls_through c) (calls_not_renames (eq_false_of_ne_true hc))

/-- Until its last system call a save has not changed the progress file. -/
theorem shows_save_partial (h : Shows demuxProgressTmp demuxProgressFile shown fs) {n : Nat}
    (hn : n < c.calls.length) : Shows demuxProgressTmp demuxProgressFile shown (fs.run (c.calls.take n)) := by
  refine h.run tmp_ne_file (fun a ha => calls_through c a (List.mem_of_mem_take ha)) fun hmem => ?_
  by_cases hc : c.renames = true
  · have hlast : c.calls = (.openTrunc demuxProgressTmp :: List.replicate c.outcome.interrupts .failed ++
        [.write (progressImage c.lsn), .fsync, .close]) ++ [.rename demuxProgressTmp demuxProgressFile] := by
      rw [calls_renames hc, List.append_assoc]
      rfl
    rw [hlast, List.length_append, List.length_singleton] at hn
    rw [hlast, List.take_append_of_le_length (Nat.le_of_lt_succ hn)] at hmem
    have hfront := List.mem_of_mem_take hmem
    simp at hfront
  · exact calls_not_renames (eq_false_of_ne_true hc) (List.mem_of_mem_take hmem)

theorem lastRenamed_cons (c : Save) (cs : List Save) :
    (lastRenamed (c :: cs)).elim shown (fun c => some (progressImage c.lsn)) =
      (lastRenamed cs).elim (c.leaves shown) fun c => some (progressImage c.lsn) := by
  rw [lastRenamed, lastRenamed, Save.leaves]
  by_cases hc : c.renames = true
  · rw [List.filter_cons_of_pos hc, List.getLast?_cons, if_pos hc]
    cases (cs.filter Save.renames).getLast? with
    | none => rfl
    | some c' => rfl
  · rw [List.filter_cons_of_neg hc, if_neg hc]

/-- **The progress file.** After the first `n` system calls of a sequence of saves it is the
image of the last completed save whose rename took effect. -/
theorem shows_saves (h : Shows demuxProgressTmp demuxProgressFile shown fs) (cs : List Save) (n : Nat) :
    Shows demuxProgressTmp demuxProgressFile
      ((lastRenamed (completed cs n)).elim shown fun c => some (progressImage c.lsn))
      (fs.run ((cs.flatMap Save.calls).take n)) := by
  induction cs generalizing fs shown n with
  | nil =>
    rw [List.flatMap_nil, List.take_nil]
    exact h
  | cons c cs ih =>
    rw [completed, List.flatMap_cons]
    split
    · next hn =>
      rw [lastRenamed_cons, List.take_append, List.take_of_length_le hn, run_append]
      exact ih (shows_save h c) (n - c.calls.length)
    · next hn =>
      rw [List.take_append_of_le_length (Nat.le_of_not_le hn)]
      exact shows_save_partial h (Nat.lt_of_not_le hn)

end

/-! ## Loading -/

theorem loadDemuxProgress_none {disk : Disk String} (h : disk.read demuxProgressFile = none) :
    loadDemuxProgress disk = invalidXLogRecPtr := by
  rw [loadDemuxProgress, h]

theorem loadDemuxProgress_image {disk : Disk String} {lsn : XLogRecPtr}
    (h : disk.read demuxProgressFile = some (progressImage lsn)) : loadDemuxProgress disk = lsn := by
  have hlen := length_progressImage lsn
  have htake : (progressImage lsn).take progressSize = progressImage lsn := List.take_of_length_le (Nat.le_of_eq hlen)
  have hdecode : DemuxProgressFile.decode (progressImage lsn) = ⟨demuxProgressMagic, 1, lsn⟩ :=
    DemuxProgressFile.decode_encode _
  rw [loadDemuxProgress, h]
  simp only [htake, hdecode]
  exact if_neg (by simp [hlen])

/-- **Atomic replacement.** Start without a progress file, whatever else is there.  A crash
after any system call of any sequence of saves leaves the LSN of the last save whose rename
is on disk, or the invalid one if there is none. -/
theorem progress_atomic {fs : FileSystem String} (hfs : fs.link demuxProgressFile = none) (cs : List Save)
    (n : Nat) {onDisk : Nat} {disk : Disk String}
    (hcrash : Crash fs ((cs.flatMap Save.calls).take n) onDisk disk) :
    loadDemuxProgress disk = (lastRenamed (completed cs onDisk)).elim invalidXLogRecPtr Save.lsn := by
  have hstart : Shows demuxProgressTmp demuxProgressFile none fs := hfs
  have hshows := shows_saves hstart cs onDisk
  have hthrough : ∀ a ∈ (cs.flatMap Save.calls).take n, Through demuxProgressTmp demuxProgressFile a := by
    intro a ha
    obtain ⟨c, -, hc⟩ := List.mem_flatMap.mp (List.mem_of_mem_take ha)
    exact calls_through c a hc
  have htake : ((cs.flatMap Save.calls).take n).take onDisk = (cs.flatMap Save.calls).take onDisk := by
    have hle := hcrash.onDisk_le
    rw [List.length_take] at hle
    rw [List.take_take, Nat.min_eq_left (Nat.le_trans hle (Nat.min_le_left _ _))]
  rw [← htake] at hshows
  have hread := hshows.crash hthrough hcrash
  cases hlast : lastRenamed (completed cs onDisk) with
  | none =>
    rw [hlast] at hread
    exact loadDemuxProgress_none hread
  | some c =>
    rw [hlast] at hread
    exact loadDemuxProgress_image hread

/-- A complete save, then one whose write is short; the crash tears the temporary file. -/
theorem progress_atomic_short :
    let fs : FileSystem String := ⟨⟨fun _ => none, fun _ => []⟩, fun _ => true, none, 0, fun _ _ h => by cases h⟩
    let cs : List Save := [⟨5, true, 1, some 16, true⟩, ⟨7, true, 0, some 3, true⟩]
    let crashed := fs.run ((cs.flatMap Save.calls).take 9)
    loadDemuxProgress ⟨crashed.link, fun i => if crashed.synced i then crashed.data i else [0xff]⟩ = 5 := by
  intro fs cs crashed
  have hcrash : Crash fs ((cs.flatMap Save.calls).take 9) 9
      ⟨crashed.link, fun i => if crashed.synced i then crashed.data i else [0xff]⟩ :=
    ⟨by decide, rfl, fun i hi => if_pos hi⟩
  exact (progress_atomic rfl cs 9 hcrash).trans (by decide)

end PartDist
