import PartDist.Header
import Mathlib.Data.Finmap
import Mathlib.Data.List.Sort
import Mathlib.Algebra.BigOperators.Group.Finset.Basic
import Mathlib.Order.Interval.Finset.Nat

/-!
# Partition directories

`pg_parwal/<partition_id>/` as the map from segment numbers to file bytes.  The
file of segment `s` is named `XLogFileName(1, s)`; the scanners compare names
with `strcmp`, which orders them as their segment numbers.

`unlinks s` counts how often the name of segment `s` has been removed.  An open
descriptor remembers the count at its `open()`: while the two agree it refers to
the file under the name, afterwards to a file no name reaches.
-/

namespace PartDist

structure Dir where
  files : Finmap fun _ : Nat => Bytes
  unlinks : Nat → Nat

/-- An open file: the segment it was opened under and the number of times that
name had been unlinked by then. -/
structure Descriptor where
  segno : Nat
  unlinks : Nat
deriving DecidableEq

namespace Dir

def empty : Dir := ⟨∅, fun _ => 0⟩

/-- The bytes of segment file `s`; none when the file is absent. -/
def content (d : Dir) (s : Nat) : Bytes := (d.files.lookup s).getD []

def names (d : Dir) : Finset Nat := d.files.keys

/-- `open(path, O_WRONLY | O_CREAT | O_APPEND)` of segment file `s`, succeeding. -/
def openCreate (d : Dir) (s : Nat) : Dir :=
  if s ∈ d.files then d else { d with files := d.files.insert s [] }

/-- Append to the file named `s`. -/
def append (d : Dir) (s : Nat) (bs : Bytes) : Dir :=
  { d with files := d.files.insert s (d.content s ++ bs) }

def descriptor (d : Dir) (s : Nat) : Descriptor := ⟨s, d.unlinks s⟩

/-- The descriptor still refers to the file its name reaches. -/
def linked (d : Dir) (fd : Descriptor) : Prop := fd.unlinks = d.unlinks fd.segno ∧ fd.segno ∈ d.names

/-- `write()` through an open descriptor. -/
def write (d : Dir) (fd : Descriptor) (bs : Bytes) : Dir :=
  if fd.unlinks = d.unlinks fd.segno then d.append fd.segno bs else d

def unlink (d : Dir) (s : Nat) : Dir where
  files := d.files.erase s
  unlinks := Function.update d.unlinks s (d.unlinks s + 1)

theorem mem_names {d : Dir} {s : Nat} : s ∈ d.names ↔ s ∈ d.files := Finmap.mem_keys

theorem content_of_notMem {d : Dir} {s : Nat} (h : s ∉ d.names) : d.content s = [] := by
  rw [mem_names, ← Finmap.lookup_eq_none] at h
  rw [content, h]; rfl

theorem lookup_eq (d : Dir) (s : Nat) :
    d.files.lookup s = if s ∈ d.names then some (d.content s) else none := by
  split
  · next h =>
    obtain ⟨b, hb⟩ := Finmap.mem_iff.mp (mem_names.mp h)
    rw [content, hb]; rfl
  · next h => exact Finmap.lookup_eq_none.mpr fun hs => h (mem_names.mpr hs)

/-- Directories with the same names, bytes and unlink counts are the same. -/
theorem ext_content {d d' : Dir} (hn : d.names = d'.names) (hc : ∀ s, d.content s = d'.content s)
    (hu : d.unlinks = d'.unlinks) : d = d' := by
  have hf : d.files = d'.files := by
    apply Finmap.ext_lookup
    intro s
    rw [lookup_eq, lookup_eq, hn, hc]
  cases d
  cases d'
  simp only [mk.injEq]
  exact ⟨hf, hu⟩

@[simp] theorem names_empty : empty.names = ∅ := rfl

@[simp] theorem content_empty (s : Nat) : empty.content s = [] := rfl

@[simp] theorem unlinks_append (d : Dir) (s : Nat) (bs : Bytes) :
    (d.append s bs).unlinks = d.unlinks := rfl

@[simp] theorem names_append (d : Dir) (s : Nat) (bs : Bytes) :
    (d.append s bs).names = insert s d.names := by
  ext t
  rw [mem_names, append, Finmap.mem_insert, Finset.mem_insert, mem_names]

@[simp] theorem content_append_self (d : Dir) (s : Nat) (bs : Bytes) :
    (d.append s bs).content s = d.content s ++ bs := by
  simp only [append, content, Finmap.lookup_insert, Option.getD_some]

theorem content_append_of_ne (d : Dir) {s t : Nat} (h : t ≠ s) (bs : Bytes) :
    (d.append s bs).content t = d.content t := by
  simp only [append, content, Finmap.lookup_insert_of_ne _ h]

theorem content_append (d : Dir) (s t : Nat) (bs : Bytes) :
    (d.append s bs).content t = d.content t ++ if t = s then bs else [] := by
  by_cases h : t = s
  · subst h; simp
  · rw [content_append_of_ne d h, if_neg h, List.append_nil]

@[simp] theorem unlinks_openCreate (d : Dir) (s : Nat) : (d.openCreate s).unlinks = d.unlinks := by
  unfold openCreate; split <;> rfl

@[simp] theorem names_openCreate (d : Dir) (s : Nat) :
    (d.openCreate s).names = insert s d.names := by
  unfold openCreate
  split
  · next h => rw [Finset.insert_eq_self.mpr (mem_names.mpr h)]
  · ext t
    rw [mem_names, Finmap.mem_insert, Finset.mem_insert, mem_names]

@[simp] theorem content_openCreate (d : Dir) (s t : Nat) :
    (d.openCreate s).content t = d.content t := by
  unfold openCreate
  split
  · rfl
  · next h =>
    by_cases ht : t = s
    · subst ht
      simp [content, Finmap.lookup_eq_none.mpr h]
    · simp only [content, Finmap.lookup_insert_of_ne _ ht]

theorem append_nil_of_mem {d : Dir} {s : Nat} (h : s ∈ d.names) : d.append s [] = d := by
  apply ext_content
  · rw [names_append, Finset.insert_eq_self.mpr h]
  · intro t
    rw [content_append]; split <;> simp
  · rfl

theorem openCreate_append (d : Dir) (s : Nat) (bs : Bytes) :
    (d.openCreate s).append s bs = d.append s bs := by
  apply ext_content
  · simp
  · intro t
    rw [content_append, content_append, content_openCreate]
  · simp

theorem write_of_linked {d : Dir} {fd : Descriptor} (h : d.linked fd) (bs : Bytes) :
    d.write fd bs = d.append fd.segno bs := if_pos h.1

theorem linked_openCreate (d : Dir) (s : Nat) : (d.openCreate s).linked (d.descriptor s) :=
  ⟨by simp [descriptor], by simp [descriptor]⟩

theorem linked_append {d : Dir} {fd : Descriptor} (h : d.linked fd) (s : Nat) (bs : Bytes) :
    (d.append s bs).linked fd :=
  ⟨h.1, by rw [names_append]; exact Finset.mem_insert_of_mem h.2⟩

@[simp] theorem names_unlink (d : Dir) (s : Nat) : (d.unlink s).names = d.names.erase s :=
  Finmap.keys_erase s d.files

theorem content_unlink_of_ne (d : Dir) {s t : Nat} (h : t ≠ s) :
    (d.unlink s).content t = d.content t := by
  simp only [unlink, content, Finmap.lookup_erase_ne h]

/-- Only the names of `l` that meet `P` go. -/
theorem unlink_foldl {d : Dir} {s : Nat} {P : Nat → Prop} [DecidablePred P] {l : List Nat} :
    (s ∈ (l.foldl (fun d s => if P s then d.unlink s else d) d).names ↔ s ∈ d.names ∧ ¬ (s ∈ l ∧ P s)) ∧
      (¬ (s ∈ l ∧ P s) →
        (l.foldl (fun d s => if P s then d.unlink s else d) d).content s = d.content s ∧
          (l.foldl (fun d s => if P s then d.unlink s else d) d).unlinks s = d.unlinks s) := by
  induction l generalizing d with
  | nil => simp
  | cons t l ih =>
    rw [List.foldl_cons]
    by_cases ht : P t
    · rw [if_pos ht]
      obtain ⟨hnames, hkept⟩ := ih (d := d.unlink t)
      constructor
      · rw [hnames, names_unlink, Finset.mem_erase, List.mem_cons]
        constructor
        · rintro ⟨⟨hne, hs⟩, hl⟩
          exact ⟨hs, fun ⟨hor, hP⟩ => hor.elim hne fun h => hl ⟨h, hP⟩⟩
        · rintro ⟨hs, hl⟩
          refine ⟨⟨fun heq => hl ⟨Or.inl heq, heq ▸ ht⟩, hs⟩, fun ⟨h, hP⟩ => hl ⟨Or.inr h, hP⟩⟩
      · intro hl
        have hne : s ≠ t := fun heq => hl ⟨heq ▸ List.mem_cons_self, heq ▸ ht⟩
        obtain ⟨hc, hu⟩ := hkept fun ⟨h, hP⟩ => hl ⟨List.mem_cons_of_mem t h, hP⟩
        rw [hc, hu, content_unlink_of_ne d hne]
        exact ⟨rfl, Function.update_of_ne hne _ _⟩
    · rw [if_neg ht]
      have hiff : s ∈ t :: l ∧ P s ↔ s ∈ l ∧ P s := by
        rw [List.mem_cons]
        exact ⟨fun ⟨hor, hP⟩ => ⟨hor.resolve_left fun heq => ht (heq ▸ hP), hP⟩, fun ⟨h, hP⟩ => ⟨Or.inr h, hP⟩⟩
      rw [hiff]
      exact ih

/-- A name that goes is one a descriptor opened before no longer reaches. -/
theorem unlinks_foldl {d : Dir} {s : Nat} {P : Nat → Prop} [DecidablePred P] {l : List Nat} :
    d.unlinks s ≤ (l.foldl (fun d s => if P s then d.unlink s else d) d).unlinks s ∧
      (s ∈ l → P s → d.unlinks s < (l.foldl (fun d s => if P s then d.unlink s else d) d).unlinks s) := by
  induction l generalizing d with
  | nil => exact ⟨Nat.le_refl _, (fun h => by cases h)⟩
  | cons t l ih =>
    rw [List.foldl_cons]
    obtain ⟨hle, hlt⟩ := ih (d := if P t then d.unlink t else d)
    have hhead : d.unlinks s ≤ (if P t then d.unlink t else d).unlinks s ∧
        (s = t → P t → d.unlinks s < (if P t then d.unlink t else d).unlinks s) := by
      split
      · by_cases hst : s = t
        · subst hst
          simp [unlink]
        · simp [unlink, hst]
      · next ht => exact ⟨Nat.le_refl _, fun _ hP => absurd hP ht⟩
    refine ⟨hhead.1.trans hle, fun hs hP => ?_⟩
    rcases List.mem_cons.mp hs with rfl | hs
    · exact Nat.lt_of_lt_of_le (hhead.2 rfl hP) hle
    · exact Nat.lt_of_le_of_lt hhead.1 (hlt hs hP)

/-- Every file holds whole records only. -/
def Whole (d : Dir) : Prop := ∀ s, headerSize ∣ (d.content s).length

/-- The records of segment file `s`, in file order. -/
def headers (d : Dir) (s : Nat) : List PartWALHeader := readHeaders (d.content s)

/-- All records stored in the directory. -/
def records (d : Dir) : Multiset PartWALHeader :=
  d.names.sum fun s => (d.headers s : Multiset PartWALHeader)

theorem headers_of_notMem {d : Dir} {s : Nat} (h : s ∉ d.names) : d.headers s = [] := by
  rw [headers, content_of_notMem h, readHeaders_nil]

theorem mem_names_of_headers {d : Dir} {s : Nat} {h : PartWALHeader} (hh : h ∈ d.headers s) : s ∈ d.names := by
  by_contra hn
  rw [headers_of_notMem hn] at hh
  cases hh

/-- Segment files 1 to `n`, with the given bytes. -/
def filled (bytes : Nat → Bytes) : Nat → Dir
  | 0 => empty
  | n + 1 => (filled bytes n).append (n + 1) (bytes (n + 1))

theorem names_filled (bytes : Nat → Bytes) (n : Nat) : (filled bytes n).names = Finset.Icc 1 n := by
  induction n with
  | zero => rfl
  | succ n ih =>
    ext s
    rw [filled, names_append, ih, Finset.mem_insert, Finset.mem_Icc, Finset.mem_Icc]
    omega

theorem content_filled {bytes : Nat → Bytes} {n s : Nat} (hs : s ∈ (filled bytes n).names) :
    (filled bytes n).content s = bytes s := by
  induction n with
  | zero => cases hs
  | succ n ih =>
    rw [filled, content_append]
    by_cases hlast : s = n + 1
    · have hnew : s ∉ (filled bytes n).names := by
        rw [names_filled, Finset.mem_Icc]
        omega
      rw [if_pos hlast, content_of_notMem hnew, List.nil_append, hlast]
    · rw [filled, names_append] at hs
      rw [if_neg hlast, List.append_nil]
      exact ih (Finset.mem_of_mem_insert_of_ne hs hlast)

end Dir

/-- `pg_parwal/`: a directory for each partition. -/
abbrev Parwal := Oid → Dir

/-- The order in which `readdir` lists the names of a directory: each of them
once, in any order. -/
structure Readdir where
  order : Finset Nat → List Nat
  nodup : ∀ names, (order names).Nodup
  mem_order : ∀ names s, s ∈ order names ↔ s ∈ names

theorem Readdir.toFinset_order (rd : Readdir) (names : Finset Nat) : (rd.order names).toFinset = names := by
  ext s
  rw [List.mem_toFinset, rd.mem_order]

/-- The names in ascending order. -/
def ascendingNames (names : Finset Nat) : List Nat :=
  Quot.liftOn names.val (fun l => l.insertionSort (· ≤ ·)) fun l l' h =>
    (((List.perm_insertionSort _ l).trans h).trans (List.perm_insertionSort _ l').symm).eq_of_pairwise'
      (List.pairwise_insertionSort (· ≤ ·) l) (List.pairwise_insertionSort (· ≤ ·) l')

theorem coe_ascendingNames (names : Finset Nat) : (ascendingNames names : Multiset Nat) = names.val := by
  unfold ascendingNames
  induction names.val using Quotient.inductionOn with
  | _ l => exact Quot.sound (List.perm_insertionSort _ l)

/-- A directory listed in the order of its names. -/
def Readdir.ascending : Readdir where
  order := ascendingNames
  nodup names := by
    rw [← Multiset.coe_nodup, coe_ascendingNames]
    exact names.nodup
  mem_order names s := by
    rw [← Multiset.mem_coe, coe_ascendingNames]
    rfl

/-- How the system calls of one directory scan end: the listing, and for which
segment files `open(path, O_RDONLY)` succeeds. -/
structure ScanIO where
  readdir : Readdir
  opens : Nat → Bool

instance : Coe Readdir ScanIO := ⟨fun rd => ⟨rd, fun _ => true⟩⟩

/-- No `open` of the scan fails. -/
def ScanIO.Ok (sc : ScanIO) : Prop := ∀ s, sc.opens s = true

theorem ScanIO.Ok.eq {sc : ScanIO} (h : sc.Ok) : sc = (sc.readdir : ScanIO) := by
  cases sc
  simp only [ ScanIO.mk.injEq, true_and]
  exact funext h

/-- Scanners collect at most 256 names. -/
def maxScanFiles : Nat := 256

/-- The names a scanner collects: the first 256 that `readdir` lists. -/
def Dir.listed (rd : Readdir) (d : Dir) : List Nat := (rd.order d.names).take maxScanFiles

theorem Dir.mem_names_of_listed {rd : Readdir} {d : Dir} {s : Nat} (h : s ∈ d.listed rd) :
    s ∈ d.names := (rd.mem_order d.names s).mp (List.mem_of_mem_take h)

theorem Dir.nodup_listed (rd : Readdir) (d : Dir) : (d.listed rd).Nodup :=
  (rd.nodup d.names).sublist (List.take_sublist _ _)

theorem Dir.listed_perm {rd : Readdir} {d : Dir} (h : d.names.card ≤ maxScanFiles) :
    d.listed rd = rd.order d.names := by
  apply List.take_of_length_le
  rw [← List.toFinset_card_of_nodup (rd.nodup d.names), rd.toFinset_order]
  exact h

theorem Dir.mem_listed {rd : Readdir} {d : Dir} (h : d.names.card ≤ maxScanFiles) {s : Nat} :
    s ∈ d.listed rd ↔ s ∈ d.names := by
  rw [Dir.listed_perm h, rd.mem_order]

/-- A directory with files is never listed as empty. -/
theorem Dir.listed_ne_nil (rd : Readdir) {d : Dir} (h : d.names.Nonempty) : d.listed rd ≠ [] := by
  intro hnil
  obtain ⟨s, hs⟩ := h
  have hmem := (rd.mem_order d.names s).mpr hs
  rcases List.take_eq_nil_iff.mp hnil with h0 | h0
  · cases h0
  · rw [h0] at hmem; cases hmem

end PartDist
