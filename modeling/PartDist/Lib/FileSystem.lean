import PartDist.Lib.Bytes
import Mathlib.Logic.Function.Basic

/-!
# Replacing a file through a temporary one

A file system with inodes, the system calls of a program that has one file open at a
time, and what a crash leaves: the directory may be behind the calls, a file keeps its
bytes if it has been synced, and anything may be in the others.

    fd = open(tmp, O_WRONLY | O_CREAT | O_TRUNC); write(fd, ..); fsync(fd); close(fd);
    rename(tmp, path);

* `Shows.run`: no such call other than a rename changes what is under `path`.
* `shows_replaced`: the whole sequence puts all its bytes there.
* `Shows.crash`: a crash leaves what the renames on disk have put there.
-/

/-- Names link to inodes, inodes to bytes. -/
structure Disk (Name : Type) where
  link : Name → Option Nat
  data : Nat → Bytes

def Disk.read {Name : Type} (disk : Disk Name) (name : Name) : Option Bytes := (disk.link name).map disk.data

/-- `synced`: the bytes of the inode are on disk.  `fd`: the inode that is open. -/
structure FileSystem (Name : Type) extends Disk Name where
  synced : Nat → Bool
  fd : Option Nat
  next : Nat
  link_lt : ∀ name i, link name = some i → i < next

/-- System calls; `write` with the bytes that the file takes. -/
inductive SysCall (Name : Type)
  | openTrunc (name : Name)
  | write (bs : Bytes)
  | fsync
  | close
  | rename (old new : Name)
  | failed
deriving DecidableEq

namespace FileSystem

variable {Name : Type} [DecidableEq Name]

/-! ## System calls -/

def truncate (fs : FileSystem Name) (i : Nat) : FileSystem Name :=
  { fs with
    data := Function.update fs.data i []
    synced := Function.update fs.synced i false
    fd := some i }

/-- A new inode. -/
def create (fs : FileSystem Name) (name : Name) : FileSystem Name where
  link := Function.update fs.link name (some fs.next)
  data := Function.update fs.data fs.next []
  synced := Function.update fs.synced fs.next false
  fd := some fs.next
  next := fs.next + 1
  link_lt n i h := by
    by_cases hn : n = name
    · rw [hn, Function.update_self] at h
      exact Option.some.inj h ▸ Nat.lt_succ_self _
    · rw [Function.update_of_ne hn] at h
      exact Nat.lt_succ_of_lt (fs.link_lt n i h)

def moveLink (fs : FileSystem Name) (old new : Name) (i : Nat) (hi : fs.link old = some i) : FileSystem Name :=
  { fs with
    link := Function.update (Function.update fs.link new (some i)) old none
    link_lt := fun n j h => by
      by_cases hold : n = old
      · rw [hold, Function.update_self] at h
        cases h
      · rw [Function.update_of_ne hold] at h
        by_cases hnew : n = new
        · rw [hnew, Function.update_self] at h
          exact Option.some.inj h ▸ fs.link_lt old i hi
        · rw [Function.update_of_ne hnew] at h
          exact fs.link_lt n j h }

theorem moveLink_old (fs : FileSystem Name) (old new : Name) (i : Nat) (hi : fs.link old = some i) :
    (fs.moveLink old new i hi).link old = none := Function.update_self _ _ _

theorem moveLink_new (fs : FileSystem Name) {old new : Name} (hne : new ≠ old) (i : Nat) (hi : fs.link old = some i) :
    (fs.moveLink old new i hi).link new = some i :=
  (Function.update_of_ne hne _ _).trans (Function.update_self _ _ _)

def openTrunc (fs : FileSystem Name) (name : Name) : FileSystem Name :=
  match fs.link name with
  | some i => fs.truncate i
  | none => fs.create name

/-- The position of the open file is its end. -/
def write (fs : FileSystem Name) (bs : Bytes) : FileSystem Name :=
  match fs.fd with
  | some i =>
    { fs with
      data := Function.update fs.data i (fs.data i ++ bs)
      synced := Function.update fs.synced i false }
  | none => fs

def fsync (fs : FileSystem Name) : FileSystem Name :=
  match fs.fd with
  | some i => { fs with synced := Function.update fs.synced i true }
  | none => fs

def rename (fs : FileSystem Name) (old new : Name) : FileSystem Name :=
  match h : fs.link old with
  | some i => if old = new then fs else fs.moveLink old new i h
  | none => fs

def step (fs : FileSystem Name) : SysCall Name → FileSystem Name
  | .openTrunc name => fs.openTrunc name
  | .write bs => fs.write bs
  | .fsync => fs.fsync
  | .close => { fs with fd := none }
  | .rename old new => fs.rename old new
  | .failed => fs

def run (fs : FileSystem Name) (calls : List (SysCall Name)) : FileSystem Name := calls.foldl step fs

@[simp] theorem run_nil (fs : FileSystem Name) : fs.run [] = fs := rfl

@[simp] theorem run_cons (fs : FileSystem Name) (c : SysCall Name) (calls : List (SysCall Name)) :
    fs.run (c :: calls) = (fs.step c).run calls := rfl

theorem run_append (fs : FileSystem Name) (calls calls' : List (SysCall Name)) :
    fs.run (calls ++ calls') = (fs.run calls).run calls' := List.foldl_append

theorem run_failed (fs : FileSystem Name) (k : Nat) : fs.run (List.replicate k .failed) = fs := by
  induction k with
  | zero => rfl
  | succ k ih => exact ih

/-- What a crash after `calls` can leave: of the directory's changes those of the first `onDisk`
calls are on disk. -/
structure Crash (fs : FileSystem Name) (calls : List (SysCall Name)) (onDisk : Nat) (disk : Disk Name) : Prop where
  onDisk_le : onDisk ≤ calls.length
  link : disk.link = (fs.run (calls.take onDisk)).link
  data : ∀ i, (fs.run calls).synced i = true → disk.data i = (fs.run calls).data i

/-! ## Replacing a file -/

/-- The calls on `tmp` and `path`. -/
inductive Through (tmp path : Name) : SysCall Name → Prop
  | openTrunc : Through tmp path (.openTrunc tmp)
  | write (bs : Bytes) : Through tmp path (.write bs)
  | fsync : Through tmp path .fsync
  | close : Through tmp path .close
  | rename : Through tmp path (.rename tmp path)
  | failed : Through tmp path .failed

/-- An inode out of reach of these calls. -/
structure Kept (tmp : Name) (i : Nat) (b : Bytes) (fs : FileSystem Name) : Prop where
  synced : fs.synced i = true
  data : fs.data i = b
  notTmp : fs.link tmp ≠ some i
  notOpen : fs.fd ≠ some i
  lt : i < fs.next

/-- What is under `path`, and out of reach. -/
def Shows (tmp path : Name) (shown : Option Bytes) (fs : FileSystem Name) : Prop :=
  match shown with
  | none => fs.link path = none
  | some b => ∃ i, fs.link path = some i ∧ Kept tmp i b fs

section
variable {tmp path : Name} {i : Nat} {b : Bytes} {shown : Option Bytes} {fs : FileSystem Name}
  {c : SysCall Name} {calls : List (SysCall Name)}

theorem Kept.openTrunc (h : Kept tmp i b fs) : Kept tmp i b (fs.openTrunc tmp) := by
  unfold FileSystem.openTrunc
  split
  · next j hj =>
    have hne : i ≠ j := fun hij => h.notTmp (hij ▸ hj)
    refine ⟨?_, ?_, h.notTmp, fun hfd => hne (Option.some.inj hfd).symm, h.lt⟩
    · exact (Function.update_of_ne hne _ _).trans h.synced
    · exact (Function.update_of_ne hne _ _).trans h.data
  · have hne : i ≠ fs.next := Nat.ne_of_lt h.lt
    refine ⟨?_, ?_, fun hlink => ?_, fun hfd => hne (Option.some.inj hfd).symm, Nat.lt_succ_of_lt h.lt⟩
    · exact (Function.update_of_ne hne _ _).trans h.synced
    · exact (Function.update_of_ne hne _ _).trans h.data
    · exact hne (Option.some.inj ((Function.update_self tmp _ fs.link).symm.trans hlink)).symm

omit [DecidableEq Name] in
theorem Kept.write (h : Kept tmp i b fs) (bs : Bytes) : Kept tmp i b (fs.write bs) := by
  unfold FileSystem.write
  split
  · next j hj =>
    have hne : i ≠ j := fun hij => h.notOpen (hij ▸ hj)
    refine ⟨?_, ?_, h.notTmp, h.notOpen, h.lt⟩
    · exact (Function.update_of_ne hne _ _).trans h.synced
    · exact (Function.update_of_ne hne _ _).trans h.data
  · exact h

omit [DecidableEq Name] in
theorem Kept.fsync (h : Kept tmp i b fs) : Kept tmp i b fs.fsync := by
  unfold FileSystem.fsync
  split
  · next j hj =>
    have hne : i ≠ j := fun hij => h.notOpen (hij ▸ hj)
    exact ⟨(Function.update_of_ne hne _ _).trans h.synced, h.data, h.notTmp, h.notOpen, h.lt⟩
  · exact h

theorem Kept.rename (h : Kept tmp i b fs) : Kept tmp i b (fs.rename tmp path) := by
  unfold FileSystem.rename
  split
  · next j hj =>
    split
    · exact h
    · refine ⟨h.synced, h.data, fun hlink => ?_, h.notOpen, h.lt⟩
      cases (moveLink_old fs tmp path j hj).symm.trans hlink
  · exact h

theorem Kept.step (h : Kept tmp i b fs) (hc : Through tmp path c) : Kept tmp i b (fs.step c) := by
  cases hc with
  | openTrunc => exact h.openTrunc
  | write bs => exact h.write bs
  | fsync => exact h.fsync
  | close => exact ⟨h.synced, h.data, h.notTmp, fun hfd => (by cases hfd), h.lt⟩
  | rename => exact h.rename
  | failed => exact h

theorem Kept.run (h : Kept tmp i b fs) (hcalls : ∀ c ∈ calls, Through tmp path c) : Kept tmp i b (fs.run calls) := by
  induction calls generalizing fs with
  | nil => exact h
  | cons c calls ih =>
    exact ih (h.step (hcalls c List.mem_cons_self)) fun a ha => hcalls a (List.mem_cons_of_mem c ha)

omit [DecidableEq Name] in
@[simp] theorem link_write (fs : FileSystem Name) (bs : Bytes) : (fs.write bs).link = fs.link := by
  unfold FileSystem.write
  split
  · rfl
  · rfl

omit [DecidableEq Name] in
@[simp] theorem link_fsync (fs : FileSystem Name) : fs.fsync.link = fs.link := by
  unfold FileSystem.fsync
  split
  · rfl
  · rfl

theorem link_openTrunc_of_ne (fs : FileSystem Name) (hne : path ≠ tmp) :
    (fs.openTrunc tmp).link path = fs.link path := by
  unfold FileSystem.openTrunc
  split
  · rfl
  · exact Function.update_of_ne hne _ _

/-- The link is changed by a rename alone. -/
theorem link_step (fs : FileSystem Name) (hne : tmp ≠ path) (hc : Through tmp path c) (hrename : c ≠ .rename tmp path) :
    (fs.step c).link path = fs.link path := by
  cases hc with
  | openTrunc => exact link_openTrunc_of_ne fs hne.symm
  | write bs => exact congrFun (link_write fs bs) path
  | fsync => exact congrFun (link_fsync fs) path
  | close => rfl
  | rename => exact absurd rfl hrename
  | failed => rfl

theorem Shows.step (h : Shows tmp path shown fs) (hne : tmp ≠ path) (hc : Through tmp path c)
    (hrename : c ≠ .rename tmp path) : Shows tmp path shown (fs.step c) := by
  have hlink := link_step fs hne hc hrename
  cases shown with
  | none => exact hlink.trans h
  | some b =>
    obtain ⟨i, hi, hkept⟩ := h
    exact ⟨i, hlink.trans hi, hkept.step hc⟩

theorem Shows.run (h : Shows tmp path shown fs) (hne : tmp ≠ path) (hcalls : ∀ c ∈ calls, Through tmp path c)
    (hrename : .rename tmp path ∉ calls) : Shows tmp path shown (fs.run calls) := by
  induction calls generalizing fs with
  | nil => exact h
  | cons c calls ih =>
    refine ih (h.step hne (hcalls c List.mem_cons_self) ?_) (fun a ha => hcalls a (List.mem_cons_of_mem c ha)) ?_
    · rintro rfl
      exact hrename List.mem_cons_self
    · exact fun hmem => hrename (List.mem_cons_of_mem c hmem)

/-- The file has been closed when it is renamed. -/
theorem shows_rename (hne : tmp ≠ path) (hlink : fs.link tmp = some i) (hsynced : fs.synced i = true)
    (hdata : fs.data i = b) (hfd : fs.fd = none) : Shows tmp path (some b) (fs.step (.rename tmp path)) := by
  have hstep : fs.step (.rename tmp path) = fs.moveLink tmp path i hlink := by
    rw [FileSystem.step, FileSystem.rename]
    split
    · next j hj =>
      obtain rfl := Option.some.inj (hlink.symm.trans hj)
      rw [if_neg hne]
    · next hnone =>
      rw [hlink] at hnone
      cases hnone
  rw [hstep]
  refine ⟨i, moveLink_new fs hne.symm i hlink, hsynced, hdata, fun h => ?_, fun h => ?_, fs.link_lt tmp i hlink⟩
  · cases (moveLink_old fs tmp path i hlink).symm.trans h
  · cases hfd.symm.trans h

/-- The open file is the one under its name, and empty. -/
theorem openTrunc_spec (fs : FileSystem Name) (name : Name) :
    ∃ i, (fs.openTrunc name).link name = some i ∧ (fs.openTrunc name).fd = some i ∧
      (fs.openTrunc name).data i = [] := by
  unfold FileSystem.openTrunc
  split
  · next i hi => exact ⟨i, hi, rfl, Function.update_self _ _ _⟩
  · exact ⟨fs.next, Function.update_self _ _ _, rfl, Function.update_self _ _ _⟩

/-- A new file, written as a whole, synced, closed and renamed. -/
theorem shows_replaced (hne : tmp ≠ path) (fs : FileSystem Name) (b : Bytes) :
    Shows tmp path (some b) (fs.run [.openTrunc tmp, .write b, .fsync, .close, .rename tmp path]) := by
  obtain ⟨i, hlink, hfd, hdata⟩ := openTrunc_spec fs tmp
  have hwrite : (fs.openTrunc tmp).write b =
      { fs.openTrunc tmp with
        data := Function.update (fs.openTrunc tmp).data i b
        synced := Function.update (fs.openTrunc tmp).synced i false } := by
    rw [FileSystem.write]
    split
    · next j hj =>
      obtain rfl := Option.some.inj (hfd.symm.trans hj)
      rw [hdata, List.nil_append]
    · next hnone =>
      rw [hfd] at hnone
      cases hnone
  have hsync : ((fs.openTrunc tmp).write b).fsync =
      { (fs.openTrunc tmp).write b with synced := Function.update ((fs.openTrunc tmp).write b).synced i true } := by
    have hfd' : ((fs.openTrunc tmp).write b).fd = some i := by
      rw [hwrite]
      exact hfd
    rw [FileSystem.fsync]
    split
    · next j hj =>
      obtain rfl := Option.some.inj (hfd'.symm.trans hj)
      rfl
    · next hnone =>
      rw [hfd'] at hnone
      cases hnone
  simp only [run_cons, run_nil, FileSystem.step]
  refine shows_rename hne (i := i) ?_ ?_ ?_ rfl
  · exact (congrFun (link_fsync _) tmp).trans ((congrFun (link_write _ _) tmp).trans hlink)
  · rw [hsync]
    exact Function.update_self _ _ _
  · rw [hsync, hwrite]
    exact Function.update_self _ _ _

/-- **A crash.** Whatever was under `path` after the calls whose renames are on disk is there
after the crash, with all its bytes. -/
theorem Shows.crash {onDisk : Nat} {disk : Disk Name} (h : Shows tmp path shown (fs.run (calls.take onDisk)))
    (hcalls : ∀ c ∈ calls, Through tmp path c) (hcrash : Crash fs calls onDisk disk) : disk.read path = shown := by
  cases shown with
  | none =>
    rw [Disk.read, hcrash.link]
    exact congrArg (Option.map disk.data) h
  | some b =>
    obtain ⟨i, hi, hkept⟩ := h
    have hend : Kept tmp i b (fs.run calls) := by
      have hrest : ∀ c ∈ calls.drop onDisk, Through tmp path c := fun c hc => hcalls c (List.mem_of_mem_drop hc)
      have hdrop := hkept.run hrest
      rwa [← run_append, List.take_append_drop] at hdrop
    rw [Disk.read, hcrash.link, hi, Option.map_some, hcrash.data i hend.synced, hend.data]

end

end FileSystem
