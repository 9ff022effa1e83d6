import PartDist.Header
import PartDist.Lib.CString
import PartDist.Lib.ExchangeSort

/-!
# Names of segment files

`XLogFileName`, `IsXLogFileName` and `XLogFromFileName` (xlog_internal.h), and
`GetPartitionWALPath` (partition_wal.c).  A segment number is printed as the quotient
and the remainder by the number of segments of a 4 GB unit, eight digits each.

* `segment_names`: the names are accepted, read back, and compare with `strcmp` as the
  segment numbers do; the paths of different files are different.
* `exchange_sorts`: the loops of the directory scanners leave the names in order.
* `sortAscending_segFile`, `sortDescending_segFile`: that is the order of the segment numbers.
-/

namespace PartDist

open ExchangeSort CString

abbrev TimeLineID := UInt32

def maxPgPath : Nat := 1024

def maxFNameLen : Nat := 64

def xlogFNameLen : Nat := 24

/-! ## Algorithm -/

/-- `XLogSegmentsPerXLogId`. -/
def WalSegSize.perXLogId (segsz : WalSegSize) : Nat := 2 ^ 32 / segsz.bytes

theorem nul_notMem_printHex (w n : Nat) : '\x00' ∉ printHex w n := fun h =>
  absurd (mem_printHex h) (by decide)

/-- `%08X` of a `uint32`. -/
def printUInt32Hex (n : UInt32) : CString := ⟨printHex 8 n.toNat, nul_notMem_printHex 8 n.toNat⟩

/-- `%u` of an `Oid`. -/
def printUInt32 (n : UInt32) : CString where
  chars := Nat.toDigits 10 n.toNat
  noNul h := absurd (Nat.isDigit_of_mem_toDigits (by decide) (by decide) h) (by decide)

def xlogFileName (tli : TimeLineID) (logSegNo : Nat) (segsz : WalSegSize) : CString :=
  (printUInt32Hex tli ++ printUInt32Hex (UInt32.ofNat (logSegNo / segsz.perXLogId)) ++
    printUInt32Hex (UInt32.ofNat (logSegNo % segsz.perXLogId))).truncate maxFNameLen

def isXLogFileName (fname : CString) : Bool :=
  decide (fname.chars.length = xlogFNameLen) && decide (fname.strspn hexDigits = xlogFNameLen)

/-- `sscanf` of three `%08X`, on a name that `isXLogFileName` accepts: 24 digits. -/
def xlogFromFileName (fname : CString) (segsz : WalSegSize) : TimeLineID × Nat :=
  let tli := UInt32.ofNat (readHex (fname.chars.take 8))
  let log := UInt32.ofNat (readHex ((fname.chars.drop 8).take 8))
  let seg := UInt32.ofNat (readHex ((fname.chars.drop 16).take 8))
  (tli, log.toNat * segsz.perXLogId + seg.toNat)

/-- `PARTITION_WAL_DIR`. -/
def partitionWALDir : CString := .ofString "pg_parwal"

def getPartitionWALPath (segsz : WalSegSize) (partitionId : Oid) (segno : Nat) : CString :=
  (partitionWALDir ++ .ofString "/" ++ printUInt32 partitionId ++ .ofString "/" ++
    xlogFileName 1 segno segsz).truncate maxPgPath

/-- The last component of a path. -/
def baseName (path : CString) : CString :=
  match path.strrchr '/' with
  | some slash => ⟨path.chars.drop (slash + 1), fun h => path.noNul (List.mem_of_mem_drop h)⟩
  | none => path

/-! ## Names -/

section
variable {segsz : WalSegSize} (tli : TimeLineID) {s s' : Nat} (pid pid' : Oid)

theorem WalSegSize.bytes_mul_perXLogId (segsz : WalSegSize) : segsz.bytes * segsz.perXLogId = 2 ^ 32 := by
  obtain ⟨k, -, hk, hb⟩ := segsz.valid
  rw [WalSegSize.perXLogId, hb]
  exact Nat.mul_div_cancel' (pow_dvd_pow 2 (by omega))

theorem WalSegSize.perXLogId_pos (segsz : WalSegSize) : 0 < segsz.perXLogId := by
  have h := segsz.bytes_mul_perXLogId
  rcases Nat.eq_zero_or_pos segsz.perXLogId with h0 | hpos
  · rw [h0] at h
    omega
  · exact hpos

theorem WalSegSize.perXLogId_le (segsz : WalSegSize) : segsz.perXLogId ≤ 2 ^ 32 := Nat.div_le_self _ _

/-- Segment numbers that WAL positions map to have a quotient that fits 32 bits. -/
theorem segno_div_lt (segsz : WalSegSize) (ptr : XLogRecPtr) :
    ptr.toNat / segsz.bytes / segsz.perXLogId < 2 ^ 32 := by
  have hptr : ptr.toNat < 2 ^ 32 * 2 ^ 32 := ptr.toNat_lt
  rw [Nat.div_div_eq_div_mul, segsz.bytes_mul_perXLogId]
  exact Nat.div_lt_of_lt_mul hptr

/-- The digits of a name, when the quotient fits. -/
theorem xlogFileName_chars (hs : s / segsz.perXLogId < 2 ^ 32) : (xlogFileName tli s segsz).chars =
    printHex 8 tli.toNat ++ (printHex 8 (s / segsz.perXLogId) ++ printHex 8 (s % segsz.perXLogId)) := by
  have hlow : s % segsz.perXLogId < 2 ^ 32 :=
    Nat.lt_of_lt_of_le (Nat.mod_lt _ segsz.perXLogId_pos) segsz.perXLogId_le
  rw [xlogFileName, truncate_eq]
  · simp only [append_chars, printUInt32Hex, UInt32.toNat_ofNat_of_lt' hs, UInt32.toNat_ofNat_of_lt' hlow,
      List.append_assoc]
  · simp only [append_chars, printUInt32Hex, List.length_append, length_printHex]
    decide

theorem length_xlogFileName (hs : s / segsz.perXLogId < 2 ^ 32) :
    (xlogFileName tli s segsz).chars.length = xlogFNameLen := by
  simp only [xlogFileName_chars tli hs, List.length_append, length_printHex]
  rfl

theorem mem_xlogFileName (hs : s / segsz.perXLogId < 2 ^ 32) :
    ∀ c ∈ (xlogFileName tli s segsz).chars, c ∈ hexDigits := by
  intro c hc
  rw [xlogFileName_chars tli hs, List.mem_append, List.mem_append] at hc
  rcases hc with hc | hc | hc
  · exact mem_printHex hc
  · exact mem_printHex hc
  · exact mem_printHex hc

theorem isXLogFileName_xlogFileName (hs : s / segsz.perXLogId < 2 ^ 32) :
    isXLogFileName (xlogFileName tli s segsz) = true := by
  have hlen := length_xlogFileName tli hs
  have hspan := strspn_eq_length.mpr (mem_xlogFileName tli hs)
  rw [isXLogFileName, hspan, hlen]
  rfl

theorem xlogFromFileName_xlogFileName (hs : s / segsz.perXLogId < 2 ^ 32) :
    xlogFromFileName (xlogFileName tli s segsz) segsz = (tli, s) := by
  have hlow : s % segsz.perXLogId < 2 ^ 32 :=
    Nat.lt_of_lt_of_le (Nat.mod_lt _ segsz.perXLogId_pos) segsz.perXLogId_le
  have htli : tli.toNat < 16 ^ 8 := tli.toNat_lt
  have hparts : ∀ a b c : Nat, (printHex 8 a ++ (printHex 8 b ++ printHex 8 c)).take 8 = printHex 8 a ∧
      ((printHex 8 a ++ (printHex 8 b ++ printHex 8 c)).drop 8).take 8 = printHex 8 b ∧
      ((printHex 8 a ++ (printHex 8 b ++ printHex 8 c)).drop 16).take 8 = printHex 8 c := by
    intro a b c
    have h16 : (printHex 8 a ++ (printHex 8 b ++ printHex 8 c)).drop 16 = printHex 8 c := by
      rw [← List.append_assoc]
      exact List.drop_left' (by simp)
    refine ⟨List.take_left' (by simp), ?_, ?_⟩
    · rw [List.drop_left' (by simp)]
      exact List.take_left' (by simp)
    · rw [h16]
      exact List.take_of_length_le (by simp)
  obtain ⟨h1, h2, h3⟩ := hparts tli.toNat (s / segsz.perXLogId) (s % segsz.perXLogId)
  rw [xlogFromFileName, xlogFileName_chars tli hs]
  simp only [h1, h2, h3, readHex_printHex htli, readHex_printHex (show _ < 16 ^ 8 from hs),
    readHex_printHex (show _ < 16 ^ 8 from hlow), UInt32.toNat_ofNat_of_lt' hs, UInt32.toNat_ofNat_of_lt' hlow,
    UInt32.ofNat_toNat, Nat.div_add_mod']

/-- Names of one timeline are ordered as the segment numbers. -/
theorem xlogFileName_lt_iff (hs : s / segsz.perXLogId < 2 ^ 32) (hs' : s' / segsz.perXLogId < 2 ^ 32) :
    (xlogFileName tli s segsz).chars < (xlogFileName tli s' segsz).chars ↔ s < s' := by
  have hpos := segsz.perXLogId_pos
  have hlow : ∀ n, n % segsz.perXLogId < 16 ^ 8 := fun n =>
    Nat.lt_of_lt_of_le (Nat.mod_lt _ hpos) segsz.perXLogId_le
  have hinj : printHex 8 (s / segsz.perXLogId) = printHex 8 (s' / segsz.perXLogId) ↔
      s / segsz.perXLogId = s' / segsz.perXLogId := by
    constructor
    · intro h
      rw [← readHex_printHex (show _ < 16 ^ 8 from hs), h, readHex_printHex (show _ < 16 ^ 8 from hs')]
    · intro h
      rw [h]
  rw [xlogFileName_chars tli hs, xlogFileName_chars tli hs', append_lt_append (by simp), append_lt_append (by simp),
    printHex_lt_iff (m := s / segsz.perXLogId) hs hs', printHex_lt_iff (hlow s) (hlow s'), hinj]
  have hsplit : s < s' ↔ s / segsz.perXLogId < s' / segsz.perXLogId ∨
      s / segsz.perXLogId = s' / segsz.perXLogId ∧ s % segsz.perXLogId < s' % segsz.perXLogId := by
    have h := Nat.div_add_mod s segsz.perXLogId
    have h' := Nat.div_add_mod s' segsz.perXLogId
    have hm := Nat.mod_lt s hpos
    have hm' := Nat.mod_lt s' hpos
    constructor
    · intro hlt
      rcases Nat.lt_or_ge (s / segsz.perXLogId) (s' / segsz.perXLogId) with hq | hq
      · exact Or.inl hq
      · have hle := Nat.div_le_div_right (c := segsz.perXLogId) (Nat.le_of_lt hlt)
        have heq := Nat.le_antisymm hle hq
        rw [heq] at h
        exact Or.inr ⟨heq, by omega⟩
    · rintro (hq | ⟨hq, hr⟩)
      · by_contra hge
        exact absurd (Nat.div_le_div_right (c := segsz.perXLogId) (Nat.not_lt.mp hge)) (Nat.not_le.mpr hq)
      · rw [hq] at h
        omega
  rw [hsplit]
  constructor
  · rintro (h | ⟨-, h⟩)
    · exact absurd h (lt_irrefl _)
    · exact h
  · intro h
    exact Or.inr ⟨rfl, h⟩

theorem strcmp_xlogFileName (hs : s / segsz.perXLogId < 2 ^ 32) (hs' : s' / segsz.perXLogId < 2 ^ 32) :
    compare (strcmp (xlogFileName tli s segsz) (xlogFileName tli s' segsz)) 0 = compare s s' := by
  have hneg := strcmp_neg_iff.trans (xlogFileName_lt_iff tli hs hs')
  have hpos := strcmp_pos_iff.trans (xlogFileName_lt_iff tli hs' hs)
  rcases Nat.lt_trichotomy s s' with h | h | h
  · rw [compare_lt_iff_lt.mpr (hneg.mpr h), compare_lt_iff_lt.mpr h]
  · have hzero : strcmp (xlogFileName tli s segsz) (xlogFileName tli s' segsz) = 0 := by
      rw [h]
      exact strcmp_eq_zero_iff.mpr rfl
    rw [hzero, compare_eq_iff_eq.mpr rfl, compare_eq_iff_eq.mpr h]
  · rw [compare_gt_iff_gt.mpr (hpos.mpr h), compare_gt_iff_gt.mpr h]

/-! ## Paths -/

theorem length_printUInt32 (pid : Oid) : (printUInt32 pid).chars.length ≤ 10 := by
  have hlt : pid.toNat < 10 ^ 10 := Nat.lt_trans pid.toNat_lt (by decide)
  rw [printUInt32]
  exact (Nat.length_toDigits_le_iff (by decide) (by decide)).mpr hlt

/-- The buffer of `MAXPGPATH` bytes holds the whole path. -/
theorem getPartitionWALPath_chars (hs : s / segsz.perXLogId < 2 ^ 32) :
    (getPartitionWALPath segsz pid s).chars = partitionWALDir.chars ++
      ('/' :: (printUInt32 pid).chars ++ '/' :: (xlogFileName 1 s segsz).chars) := by
  have hname := length_xlogFileName 1 hs
  have hpid := length_printUInt32 pid
  rw [getPartitionWALPath, truncate_eq]
  · simp only [append_chars, List.append_assoc]
    rfl
  · simp only [append_chars, List.length_append, hname]
    have hdir : partitionWALDir.chars.length + (ofString "/").chars.length = 10 := by decide
    have hslash : (ofString "/").chars.length = 1 := by decide
    simp only [maxPgPath, xlogFNameLen]
    omega

theorem slash_notMem_xlogFileName (hs : s / segsz.perXLogId < 2 ^ 32) :
    '/' ∉ (xlogFileName tli s segsz).chars := fun h =>
  absurd (mem_xlogFileName tli hs '/' h) (by decide)

theorem baseName_getPartitionWALPath (hs : s / segsz.perXLogId < 2 ^ 32) :
    baseName (getPartitionWALPath segsz pid s) = xlogFileName 1 s segsz := by
  have hpath : (getPartitionWALPath segsz pid s).chars =
      (partitionWALDir.chars ++ '/' :: (printUInt32 pid).chars) ++ '/' :: (xlogFileName 1 s segsz).chars := by
    rw [getPartitionWALPath_chars pid hs]
    simp
  have hlast := lastIdxOf_append (partitionWALDir.chars ++ '/' :: (printUInt32 pid).chars)
    (slash_notMem_xlogFileName 1 hs)
  rw [← hpath] at hlast
  unfold baseName strrchr
  rw [hlast]
  apply ext_chars
  simp only [hpath]
  rw [← List.drop_drop, List.drop_left]
  rfl

theorem printUInt32_inj {pid pid' : Oid} (h : (printUInt32 pid).chars = (printUInt32 pid').chars) : pid = pid' := by
  have hread := congrArg (Nat.ofDigitChars 10 · 0) h
  have hback : ∀ n, Nat.ofDigitChars 10 (Nat.toDigits 10 n) 0 = n := fun n =>
    Nat.ofDigitChars_toDigits (by decide) (by decide)
  apply UInt32.toNat_inj.mp
  rw [← hback pid.toNat, ← hback pid'.toNat]
  exact hread

theorem xlogFileName_inj (hs : s / segsz.perXLogId < 2 ^ 32) (hs' : s' / segsz.perXLogId < 2 ^ 32)
    (h : xlogFileName tli s segsz = xlogFileName tli s' segsz) : s = s' := by
  have hread := congrArg (xlogFromFileName · segsz) h
  simp only [xlogFromFileName_xlogFileName tli hs, xlogFromFileName_xlogFileName tli hs'] at hread
  exact congrArg Prod.snd hread

/-- The directory separates the partition's number from the name. -/
theorem getPartitionWALPath_inj {pid pid' : Oid} (hs : s / segsz.perXLogId < 2 ^ 32)
    (hs' : s' / segsz.perXLogId < 2 ^ 32)
    (h : getPartitionWALPath segsz pid s = getPartitionWALPath segsz pid' s') : pid = pid' ∧ s = s' := by
  have hname : xlogFileName 1 s segsz = xlogFileName 1 s' segsz := by
    rw [← baseName_getPartitionWALPath pid hs, h, baseName_getPartitionWALPath pid' hs']
  have hchars := congrArg CString.chars h
  rw [getPartitionWALPath_chars pid hs, getPartitionWALPath_chars pid' hs', hname] at hchars
  have hpid := List.append_cancel_right (List.cons.inj (List.append_cancel_left hchars)).2
  exact ⟨printUInt32_inj hpid, xlogFileName_inj 1 hs hs' hname⟩

end

/-- **Segment names.** For the segments of any two WAL positions: the name in the path is
accepted and read back, `strcmp` of two names has the sign of the comparison of the segment
numbers, and the path determines the partition and the segment. -/
theorem segment_names (segsz : WalSegSize) (pid pid' : Oid) (ptr ptr' : XLogRecPtr) :
    let s := ptr.toNat / segsz.bytes
    let s' := ptr'.toNat / segsz.bytes
    let name := baseName (getPartitionWALPath segsz pid s)
    let name' := baseName (getPartitionWALPath segsz pid' s')
    isXLogFileName name = true ∧ xlogFromFileName name segsz = (1, s) ∧
      compare (strcmp name name') 0 = compare s s' ∧
      (getPartitionWALPath segsz pid s = getPartitionWALPath segsz pid' s' → pid = pid' ∧ s = s') := by
  intro s s' name name'
  have hs := segno_div_lt segsz ptr
  have hs' := segno_div_lt segsz ptr'
  have hname : name = xlogFileName 1 s segsz := baseName_getPartitionWALPath pid hs
  have hname' : name' = xlogFileName 1 s' segsz := baseName_getPartitionWALPath pid' hs'
  rw [hname, hname']
  exact ⟨isXLogFileName_xlogFileName 1 hs, xlogFromFileName_xlogFileName 1 hs, strcmp_xlogFileName 1 hs hs',
    getPartitionWALPath_inj hs hs'⟩

/-! ## Sorting names -/

/-- A name in a `char[MAXPGPATH]`. -/
structure SegFile where
  name : CString
  short : name.chars.length < maxPgPath
deriving DecidableEq

theorem SegFile.ext_name {f g : SegFile} (h : f.name = g.name) : f = g := by
  cases f
  cases g
  simp only [mk.injEq]
  exact h

/-- `strlcpy(.., name, MAXPGPATH)`. -/
def copyName (name : CString) : SegFile where
  name := name.truncate maxPgPath
  short := by
    have hle := List.length_take_le (maxPgPath - 1) name.chars
    have hpos : maxPgPath - 1 < maxPgPath := by decide
    exact Nat.lt_of_le_of_lt hle hpos

theorem copyName_name (f : SegFile) : copyName f.name = f := SegFile.ext_name (truncate_eq f.short)

/-- Swap if `strcmp(segfiles[i], segfiles[j]) > 0`; `f` is in slot `j`. -/
def comesBefore (f g : SegFile) : Bool := decide (0 < strcmp g.name f.name)

/-- Swap if `strcmp(segfiles[i], segfiles[j]) < 0`. -/
def comesAfter (f g : SegFile) : Bool := decide (strcmp g.name f.name < 0)

/-- The loops of `verify_partition_wal`, `check_partition_wal` and `read_all_headers`. -/
def sortAscending (segfiles : List SegFile) : Option (List SegFile) :=
  exchangeLoops comesBefore (fun f => copyName f.name) segfiles

/-- Those of `GetLastWrittenPartitionLSN`. -/
def sortDescending (segfiles : List SegFile) : Option (List SegFile) :=
  exchangeLoops comesAfter (fun f => copyName f.name) segfiles

section
variable {f g : SegFile}

theorem comesBefore_iff : comesBefore f g = true ↔ f.name.chars < g.name.chars := by
  rw [comesBefore, decide_eq_true_eq, strcmp_pos_iff]

theorem comesAfter_iff : comesAfter f g = true ↔ g.name.chars < f.name.chars := by
  rw [comesAfter, decide_eq_true_eq, strcmp_neg_iff]

theorem comesBefore_eq_false : comesBefore f g = false ↔ g.name.chars ≤ f.name.chars := by
  rw [← Bool.not_eq_true, comesBefore_iff, not_lt]

theorem comesAfter_eq_false : comesAfter f g = false ↔ f.name.chars ≤ g.name.chars := by
  rw [← Bool.not_eq_true, comesAfter_iff, not_lt]

theorem sortAscending_eq (segfiles : List SegFile) :
    sortAscending segfiles = some (exchangeSort comesBefore segfiles) :=
  exchangeLoops_eq comesBefore copyName_name segfiles

theorem sortDescending_eq (segfiles : List SegFile) :
    sortDescending segfiles = some (exchangeSort comesAfter segfiles) :=
  exchangeLoops_eq comesAfter copyName_name segfiles

end

/-- **The exchange sort.** The loops never leave the array; they end with a permutation of
the names that ascends, in `GetLastWrittenPartitionLSN` descends, under `strcmp`. -/
theorem exchange_sorts (segfiles : List SegFile) :
    (∃ sorted, sortAscending segfiles = some sorted ∧ sorted.Perm segfiles ∧
      sorted.Pairwise fun f g => strcmp f.name g.name ≤ 0) ∧
    ∃ sorted, sortDescending segfiles = some sorted ∧ sorted.Perm segfiles ∧
      sorted.Pairwise fun f g => 0 ≤ strcmp f.name g.name := by
  constructor
  · refine ⟨_, sortAscending_eq segfiles, exchangeSort_perm _ _, ?_⟩
    have hsorted := exchangeSort_sorted comesBefore
      (fun f g h => comesBefore_eq_false.mpr (le_of_lt (comesBefore_iff.mp h)))
      (fun f g h h₁ h₂ => comesBefore_eq_false.mpr
        (le_trans (comesBefore_eq_false.mp h₁) (comesBefore_eq_false.mp h₂))) segfiles
    refine hsorted.imp fun {f g} h => ?_
    have hle := comesBefore_eq_false.mp h
    by_contra hpos
    exact absurd (strcmp_pos_iff.mp (Int.not_le.mp hpos)) (not_lt.mpr hle)
  · refine ⟨_, sortDescending_eq segfiles, exchangeSort_perm _ _, ?_⟩
    have hsorted := exchangeSort_sorted comesAfter
      (fun f g h => comesAfter_eq_false.mpr (le_of_lt (comesAfter_iff.mp h)))
      (fun f g h h₁ h₂ => comesAfter_eq_false.mpr
        (le_trans (comesAfter_eq_false.mp h₂) (comesAfter_eq_false.mp h₁))) segfiles
    refine hsorted.imp fun {f g} h => ?_
    have hle := comesAfter_eq_false.mp h
    by_contra hneg
    exact absurd (strcmp_neg_iff.mp (Int.not_le.mp hneg)) (not_lt.mpr hle)

/-! ## Names of the scanners' model -/

/-- The name of segment file `s`, as a scanner collects it. -/
def segFile (segsz : WalSegSize) (s : Nat) : SegFile := copyName (xlogFileName 1 s segsz)

section
variable {segsz : WalSegSize} {s s' : Nat} {l : List Nat}

theorem segFile_name (hs : s / segsz.perXLogId < 2 ^ 32) : (segFile segsz s).name = xlogFileName 1 s segsz :=
  truncate_eq (by rw [length_xlogFileName 1 hs]; decide)

/-- The order of names is the order of segment numbers. -/
theorem sortAscending_segFile (hl : ∀ s ∈ l, s / segsz.perXLogId < 2 ^ 32) :
    sortAscending (l.map (segFile segsz)) =
      some ((exchangeSort (fun t s => decide (t < s)) l).map (segFile segsz)) := by
  rw [sortAscending_eq, exchangeSort_map]
  intro s hs t ht
  rw [Bool.eq_iff_iff, comesBefore_iff, segFile_name (hl s hs), segFile_name (hl t ht),
    xlogFileName_lt_iff 1 (hl s hs) (hl t ht), decide_eq_true_eq]

theorem sortDescending_segFile (hl : ∀ s ∈ l, s / segsz.perXLogId < 2 ^ 32) :
    sortDescending (l.map (segFile segsz)) =
      some ((exchangeSort (fun t s => decide (s < t)) l).map (segFile segsz)) := by
  rw [sortDescending_eq, exchangeSort_map]
  intro s hs t ht
  rw [Bool.eq_iff_iff, comesAfter_iff, segFile_name (hl s hs), segFile_name (hl t ht),
    xlogFileName_lt_iff 1 (hl t ht) (hl s hs), decide_eq_true_eq]

end

end PartDist
