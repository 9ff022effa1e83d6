import PartDist.Lib.Bytes
import Mathlib.Data.UInt

/-!
# Partition WAL records

`PartWALHeader` (partition_wal_header.h) and its 32 bytes on disk; the pg_wal
records that carry it; the segment a record belongs to.

    decode (encode h) = h                                    (decode_encode)
    readHeaders (f ++ encode h) = readHeaders f ++ [h]       (readHeaders_append_encode)
-/

namespace PartDist

open Bytes

abbrev Oid := UInt32
abbrev XLogRecPtr := UInt64

def invalidXLogRecPtr : XLogRecPtr := 0

/-! ## The header -/

def partwalMagic : UInt32 := 0x50415254

def partwalFlagData : UInt8 := 0x01

/-- The five fields fill 25 bytes; `pad` is the 7 bytes the compiler adds, which
`memcpy` and `write` copy with the rest. -/
structure PartWALHeader where
  magic : UInt32
  partitionId : Oid
  origNodeLsn : XLogRecPtr
  partitionLsn : UInt64
  flags : UInt8
  pad : BitVec 56
deriving DecidableEq

/-- `sizeof(PartWALHeader)`. -/
def headerSize : Nat := 32

namespace PartWALHeader

def encode (h : PartWALHeader) : Bytes :=
  leBytes 4 h.magic.toNat ++ leBytes 4 h.partitionId.toNat ++ leBytes 8 h.origNodeLsn.toNat ++
    leBytes 8 h.partitionLsn.toNat ++ leBytes 1 h.flags.toNat ++ leBytes 7 h.pad.toNat

/-- The header a `PartWALHeader *` into the bytes `bs` points at. -/
def decode (bs : Bytes) : PartWALHeader where
  magic := UInt32.ofNat (leNat (bs.take 4))
  partitionId := UInt32.ofNat (leNat ((bs.drop 4).take 4))
  origNodeLsn := UInt64.ofNat (leNat ((bs.drop 8).take 8))
  partitionLsn := UInt64.ofNat (leNat ((bs.drop 16).take 8))
  flags := UInt8.ofNat (leNat ((bs.drop 24).take 1))
  pad := BitVec.ofNat 56 (leNat ((bs.drop 25).take 7))

@[simp] theorem length_encode (h : PartWALHeader) : h.encode.length = headerSize := by
  simp [encode, headerSize]

theorem decode_encode (h : PartWALHeader) : decode h.encode = h := by
  have hm : leNat (leBytes 4 h.magic.toNat) = h.magic.toNat := leNat_leBytes_of_lt h.magic.toNat_lt
  have hp : leNat (leBytes 4 h.partitionId.toNat) = h.partitionId.toNat :=
    leNat_leBytes_of_lt h.partitionId.toNat_lt
  have ho : leNat (leBytes 8 h.origNodeLsn.toNat) = h.origNodeLsn.toNat :=
    leNat_leBytes_of_lt h.origNodeLsn.toNat_lt
  have hl : leNat (leBytes 8 h.partitionLsn.toNat) = h.partitionLsn.toNat :=
    leNat_leBytes_of_lt h.partitionLsn.toNat_lt
  have hf : leNat (leBytes 1 h.flags.toNat) = h.flags.toNat := leNat_leBytes_of_lt h.flags.toNat_lt
  have hd : leNat (leBytes 7 h.pad.toNat) = h.pad.toNat := leNat_leBytes_of_lt h.pad.isLt
  obtain ⟨magic, pid, orig, lsn, flags, pad⟩ := h
  simp only [decode, encode, List.append_assoc, List.take_append, List.drop_append, length_leBytes,
    List.take_of_length_le, List.drop_of_length_le, Nat.sub_self, List.take_zero, List.drop_zero,
    List.append_nil, List.nil_append, Nat.le_refl, Nat.reduceLeDiff, Nat.reduceSub] at *
  simp [hm, hp, ho, hl, hf, hd]

/-- Any 32 bytes are the encoding of the header read from them. -/
theorem encode_decode {bs : Bytes} (hbs : bs.length = headerSize) : (decode bs).encode = bs := by
  have field : ∀ o n, o + n ≤ 32 →
      leBytes n (leNat ((bs.drop o).take n)) = (bs.drop o).take n ∧
        leNat ((bs.drop o).take n) < 256 ^ n := by
    intro o n h
    have hlen : ((bs.drop o).take n).length = n := by
      simp only [headerSize] at hbs
      simp; omega
    have hle := leBytes_leNat ((bs.drop o).take n)
    have hlt := leNat_lt ((bs.drop o).take n)
    rw [hlen] at hle hlt
    exact ⟨hle, hlt⟩
  obtain ⟨h0, b0⟩ := field 0 4 (by omega)
  obtain ⟨h1, b1⟩ := field 4 4 (by omega)
  obtain ⟨h2, b2⟩ := field 8 8 (by omega)
  obtain ⟨h3, b3⟩ := field 16 8 (by omega)
  obtain ⟨h4, b4⟩ := field 24 1 (by omega)
  obtain ⟨h5, b5⟩ := field 25 7 (by omega)
  have hsplit : bs = (bs.drop 0).take 4 ++ (bs.drop 4).take 4 ++ (bs.drop 8).take 8 ++
      (bs.drop 16).take 8 ++ (bs.drop 24).take 1 ++ (bs.drop 25).take 7 := by
    have step : ∀ o n, o + n ≤ 32 → (bs.drop o).take n ++ bs.drop (o + n) = bs.drop o := by
      intro o n _
      rw [← List.drop_drop, List.take_append_drop]
    have hend : (bs.drop 25).take 7 = bs.drop 25 :=
      List.take_of_length_le (by simp only [headerSize] at hbs; simp; omega)
    rw [hend, List.append_assoc, step 24 1 (by omega), List.append_assoc, step 16 8 (by omega),
      List.append_assoc, step 8 8 (by omega), List.append_assoc, step 4 4 (by omega),
      step 0 4 (by omega), List.drop_zero]
  conv_rhs => rw [hsplit]
  simp only [List.drop_zero] at h0 b0 ⊢
  simp only [encode, decode, UInt32.toNat_ofNat', UInt64.toNat_ofNat', UInt8.toNat_ofNat',
    BitVec.toNat_ofNat]
  norm_num only at b0 b1 b2 b3 b4 b5 ⊢
  rw [Nat.mod_eq_of_lt b0, Nat.mod_eq_of_lt b1, Nat.mod_eq_of_lt b2, Nat.mod_eq_of_lt b3,
    Nat.mod_eq_of_lt b4, Nat.mod_eq_of_lt b5, h0, h1, h2, h3, h4, h5]

/-- The record's place in its partition's sequence. -/
def lsn (h : PartWALHeader) : Nat := h.partitionLsn.toNat

/-- What every reader of a segment file checks before it counts a record. -/
def validFor (pid : Oid) (h : PartWALHeader) : Bool :=
  h.magic == partwalMagic && h.partitionId == pid

theorem validFor_iff {pid : Oid} {h : PartWALHeader} :
    h.validFor pid = true ↔ h.magic = partwalMagic ∧ h.partitionId = pid := by
  simp [validFor]

end PartWALHeader

open PartWALHeader

/-- The bytes of a run of records. -/
def encodeAll (hs : List PartWALHeader) : Bytes := hs.flatMap encode

@[simp] theorem encodeAll_nil : encodeAll [] = [] := rfl

@[simp] theorem encodeAll_append (hs hs' : List PartWALHeader) :
    encodeAll (hs ++ hs') = encodeAll hs ++ encodeAll hs' := List.flatMap_append

@[simp] theorem encodeAll_singleton (h : PartWALHeader) : encodeAll [h] = h.encode := by
  simp [encodeAll]

theorem encodeAll_cons (h : PartWALHeader) (hs : List PartWALHeader) :
    encodeAll (h :: hs) = h.encode ++ encodeAll hs := List.flatMap_cons

theorem length_encodeAll (hs : List PartWALHeader) :
    (encodeAll hs).length = headerSize * hs.length := by
  induction hs with
  | nil => rfl
  | cons h hs ih => rw [encodeAll_cons, List.length_append, length_encode, ih, List.length_cons]; ring

/-- The headers a reader gets from a segment file with bytes `f`, one
`read(fd, &header, sizeof(PartWALHeader))` after the other. -/
def readHeaders (f : Bytes) : List PartWALHeader := (blocks headerSize f).map decode

theorem headerSize_pos : 0 < headerSize := by decide

@[simp] theorem readHeaders_nil : readHeaders [] = [] := rfl

theorem readHeaders_append {f : Bytes} (hf : headerSize ∣ f.length) (g : Bytes) :
    readHeaders (f ++ g) = readHeaders f ++ readHeaders g := by
  rw [readHeaders, blocks_append headerSize_pos hf, List.map_append]; rfl

@[simp] theorem readHeaders_encode (h : PartWALHeader) : readHeaders h.encode = [h] := by
  rw [readHeaders, blocks_single headerSize_pos (length_encode h), List.map_singleton, decode_encode]

@[simp] theorem readHeaders_encodeAll (hs : List PartWALHeader) : readHeaders (encodeAll hs) = hs := by
  induction hs with
  | nil => rfl
  | cons h hs ih =>
    rw [encodeAll_cons, readHeaders_append (by rw [length_encode]), ih, readHeaders_encode]
    rfl

theorem readHeaders_append_encode {f : Bytes} (hf : headerSize ∣ f.length) (h : PartWALHeader) :
    readHeaders (f ++ h.encode) = readHeaders f ++ [h] := by
  rw [readHeaders_append hf, readHeaders_encode]

theorem length_readHeaders (f : Bytes) : (readHeaders f).length = f.length / headerSize := by
  rw [readHeaders, List.length_map, length_blocks headerSize_pos]

theorem dvd_length_encodeAll (hs : List PartWALHeader) : headerSize ∣ (encodeAll hs).length :=
  ⟨_, length_encodeAll hs⟩

/-- A file of whole records is the encoding of what is read from it. -/
theorem encodeAll_readHeaders {f : Bytes} (hf : headerSize ∣ f.length) :
    encodeAll (readHeaders f) = f := by
  have hmap : (blocks headerSize f).map (fun b => (decode b).encode) = blocks headerSize f := by
    conv_rhs => rw [← List.map_id (blocks headerSize f)]
    exact List.map_congr_left fun b hb => encode_decode (length_of_mem_blocks headerSize_pos hb)
  have htail := flatten_blocks_append_tail headerSize_pos f
  rw [Nat.mod_eq_zero_of_dvd hf, Nat.sub_zero, List.drop_length, List.append_nil] at htail
  rw [readHeaders, encodeAll, List.flatMap_map, List.flatMap_def, hmap, htail]

/-! ## Records of pg_wal -/

/-- What the resource managers look at in a pg_wal record. -/
structure XLogRecord where
  rmid : UInt8
  info : UInt8
  data : Bytes
deriving DecidableEq

def rmExperimentalId : UInt8 := 128

def xlrInfoMask : UInt8 := 0x0F

def partwalRmgrInfoData : UInt8 := 0x00

/-- The record's header when it is a well-formed partition DATA record: our
resource manager, DATA info bits, at least a header of data, the magic. -/
def XLogRecord.dataHeader (r : XLogRecord) : Option PartWALHeader :=
  if r.rmid = rmExperimentalId then
    if r.info &&& ~~~xlrInfoMask = partwalRmgrInfoData ∧ headerSize ≤ r.data.length then
      if (decode r.data).magic = partwalMagic then some (decode r.data) else none
    else none
  else none

/-- The well-formed DATA records of a stretch of pg_wal, in WAL order. -/
def dataHeaders (wal : List XLogRecord) : List PartWALHeader := wal.filterMap XLogRecord.dataHeader

/-- Those of partition `pid`. -/
def partHeaders (pid : Oid) (wal : List XLogRecord) : List PartWALHeader :=
  (dataHeaders wal).filter fun h => h.partitionId = pid

/-- The header `WritePartitionWALRecord` builds, from a zeroed struct. -/
def buildHeader (pid : Oid) (flags : UInt8) (origLsn : XLogRecPtr) (lsn : UInt64) : PartWALHeader where
  magic := partwalMagic
  partitionId := pid
  origNodeLsn := origLsn
  partitionLsn := lsn
  flags := flags
  pad := 0

section
variable (pid : Oid) (flags : UInt8) (origLsn : XLogRecPtr) (lsn : UInt64)

@[simp] theorem buildHeader_magic : (buildHeader pid flags origLsn lsn).magic = partwalMagic := rfl

@[simp] theorem buildHeader_partitionId : (buildHeader pid flags origLsn lsn).partitionId = pid := rfl

@[simp] theorem buildHeader_origNodeLsn :
    (buildHeader pid flags origLsn lsn).origNodeLsn = origLsn := rfl

@[simp] theorem buildHeader_partitionLsn : (buildHeader pid flags origLsn lsn).partitionLsn = lsn := rfl

@[simp] theorem buildHeader_lsn : (buildHeader pid flags origLsn lsn).lsn = lsn.toNat := rfl

end

/-- What `XLogInsert(RM_EXPERIMENTAL_ID, PARTWAL_RMGR_INFO_DATA)` stores of it. -/
def insertedRecord (h : PartWALHeader) : XLogRecord where
  rmid := rmExperimentalId
  info := partwalRmgrInfoData
  data := h.encode

theorem dataHeader_insertedRecord {h : PartWALHeader} (hm : h.magic = partwalMagic) :
    (insertedRecord h).dataHeader = some h := by
  have hinfo : partwalRmgrInfoData &&& ~~~xlrInfoMask = partwalRmgrInfoData := by decide
  simp only [insertedRecord, XLogRecord.dataHeader, if_true, hinfo, length_encode, Nat.le_refl,
    and_self, decode_encode, hm]

@[simp] theorem dataHeader_insertedRecord_build (pid : Oid) (flags : UInt8) (origLsn : XLogRecPtr)
    (lsn : UInt64) : (insertedRecord (buildHeader pid flags origLsn lsn)).dataHeader =
      some (buildHeader pid flags origLsn lsn) := dataHeader_insertedRecord rfl

/-! ## Segments -/

/-- `wal_segment_size`: a power of two from 1 MB to 1 GB (`IsValidWalSegSize`). -/
structure WalSegSize where
  bytes : Nat
  valid : ∃ k, 20 ≤ k ∧ k ≤ 30 ∧ bytes = 2 ^ k

/-- `DEFAULT_XLOG_SEG_SIZE`, 16 MB. -/
def WalSegSize.default : WalSegSize := ⟨2 ^ 24, 24, by omega, by omega, rfl⟩

/-- The segment file a record goes to: the segment of its `orig_node_lsn`, and
segment 1 for the invalid LSN and for segment 0, which is no pg_wal file. -/
def segnoOf (segsz : WalSegSize) (h : PartWALHeader) : Nat :=
  let segno := if h.origNodeLsn = invalidXLogRecPtr then 1 else h.origNodeLsn.toNat / segsz.bytes
  if segno = 0 then 1 else segno

theorem segnoOf_eq (segsz : WalSegSize) (h : PartWALHeader) :
    segnoOf segsz h = max 1 (h.origNodeLsn.toNat / segsz.bytes) := by
  unfold segnoOf
  by_cases h0 : h.origNodeLsn = invalidXLogRecPtr
  · simp [h0, invalidXLogRecPtr]
  · simp only [h0, if_false]
    generalize h.origNodeLsn.toNat / segsz.bytes = segno
    split <;> omega

theorem segnoOf_pos (segsz : WalSegSize) (h : PartWALHeader) : 0 < segnoOf segsz h := by
  rw [segnoOf_eq]; omega

end PartDist
