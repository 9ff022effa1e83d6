import PartDist.Header
import PartDist.Lib.Printf

/-!
# Descriptions of records

`partdist_wal_desc` and `partdist_wal_identify` (partition_wal.c): what pg_waldump and error
contexts show of our records in pg_wal.

`desc_readable`: all fields of the header, and the range of a SKIP record, can be read back
from the description, so records that differ in one of them are described differently.
-/

namespace PartDist

open Bytes PartWALHeader Printf

/-! ## Algorithm -/

def partwalRmgrInfoSkip : UInt8 := 0x10

structure PartWALSkip where
  header : PartWALHeader
  lsnStart : XLogRecPtr
  lsnEnd : XLogRecPtr
deriving DecidableEq

/-- `sizeof(PartWALSkip)`. -/
def skipSize : Nat := 48

/-- The record a `PartWALSkip *` into the bytes `bs` points at. -/
def PartWALSkip.decode (bs : Bytes) : PartWALSkip where
  header := PartWALHeader.decode bs
  lsnStart := UInt64.ofNat (leNat ((bs.drop 32).take 8))
  lsnEnd := UInt64.ofNat (leNat ((bs.drop 40).take 8))

/-- `LSN_FORMAT_ARGS`. -/
def lsnFormatArgs (lsn : XLogRecPtr) : List Nat := [(lsn >>> 32).toUInt32.toNat, lsn.toUInt32.toNat]

/-- "partition_id=%u partition_lsn=%lu orig_lsn=%X/%08X flags=0x%02X" -/
def descFormat : Format :=
  [.text "partition_id=".toList, .number .unsigned, .text " partition_lsn=".toList, .number .unsigned,
    .text " orig_lsn=".toList, .number (.hex 1), .text "/".toList, .number (.hex 8),
    .text " flags=0x".toList, .number (.hex 2)]

/-- " skip_range=[%X/%08X, %X/%08X)" -/
def skipFormat : Format :=
  [.text " skip_range=[".toList, .number (.hex 1), .text "/".toList, .number (.hex 8),
    .text ", ".toList, .number (.hex 1), .text "/".toList, .number (.hex 8), .text ")".toList]

/-- The bytes of `PartWALHeader` up to its last field. -/
def headerFieldsSize : Nat := 25

/-- The characters of `buf` afterwards; `none` would read behind the record's data. -/
def partdistWalDesc (buf : List Char) (r : XLogRecord) : Option (List Char) :=
  if r.data.length < headerFieldsSize then none
  else
    let header := PartWALHeader.decode r.data
    let info := r.info &&& ~~~xlrInfoMask
    let buf := buf ++ descFormat.print ([header.partitionId.toNat, header.partitionLsn.toNat] ++
      lsnFormatArgs header.origNodeLsn ++ [header.flags.toNat])
    if info = partwalRmgrInfoSkip then
      if r.data.length < skipSize then none
      else
        let skip := PartWALSkip.decode r.data
        some (buf ++ skipFormat.print (lsnFormatArgs skip.lsnStart ++ lsnFormatArgs skip.lsnEnd))
    else some buf

/-- `none` is NULL. -/
def partdistWalIdentify (info : UInt8) : Option String :=
  let info := info &&& ~~~xlrInfoMask
  if info = partwalRmgrInfoData then some "PARTWAL_DATA"
  else if info = partwalRmgrInfoSkip then some "PARTWAL_SKIP"
  else none

/-! ## Reading a description -/

/-- What a description tells of a record. -/
structure WalDesc where
  partitionId : Oid
  partitionLsn : UInt64
  origNodeLsn : XLogRecPtr
  flags : UInt8
  skipRange : Option (XLogRecPtr × XLogRecPtr)
deriving DecidableEq

def XLogRecord.described (r : XLogRecord) : WalDesc where
  partitionId := (PartWALHeader.decode r.data).partitionId
  partitionLsn := (PartWALHeader.decode r.data).partitionLsn
  origNodeLsn := (PartWALHeader.decode r.data).origNodeLsn
  flags := (PartWALHeader.decode r.data).flags
  skipRange :=
    if r.info &&& ~~~xlrInfoMask = partwalRmgrInfoSkip then
      some ((PartWALSkip.decode r.data).lsnStart, (PartWALSkip.decode r.data).lsnEnd)
    else none

/-- The record has the data that its description reads. -/
def XLogRecord.Describable (r : XLogRecord) : Prop :=
  headerFieldsSize ≤ r.data.length ∧ (r.info &&& ~~~xlrInfoMask = partwalRmgrInfoSkip → skipSize ≤ r.data.length)

instance (r : XLogRecord) : Decidable r.Describable := inferInstanceAs (Decidable (_ ∧ _))

def lsnOfArgs (hi lo : Nat) : XLogRecPtr := UInt64.ofNat (hi * 2 ^ 32 + lo)

def readDesc (text : List Char) : Option WalDesc := do
  match ← descFormat.scan text with
  | ([pid, lsn, hi, lo, flags], rest) =>
    let desc : WalDesc := ⟨UInt32.ofNat pid, UInt64.ofNat lsn, lsnOfArgs hi lo, UInt8.ofNat flags, none⟩
    match skipFormat.scan rest with
    | some ([startHi, startLo, endHi, endLo], _) =>
      return { desc with skipRange := some (lsnOfArgs startHi startLo, lsnOfArgs endHi endLo) }
    | _ => return desc
  | _ => none

theorem lsnOfArgs_format (lsn : XLogRecPtr) : lsnOfArgs (lsn >>> 32).toUInt32.toNat lsn.toUInt32.toNat = lsn := by
  have hdiv : lsn.toNat / 2 ^ 32 < 2 ^ 32 := Nat.div_lt_of_lt_mul lsn.toNat_lt
  have hhi : (lsn >>> 32).toUInt32.toNat = lsn.toNat / 2 ^ 32 := by
    rw [UInt64.toNat_toUInt32, UInt64.toNat_shiftRight, Nat.shiftRight_eq_div_pow]
    exact Nat.mod_eq_of_lt hdiv
  have hlo : lsn.toUInt32.toNat = lsn.toNat % 2 ^ 32 := UInt64.toNat_toUInt32 lsn
  rw [lsnOfArgs, hhi, hlo, Nat.div_add_mod']
  exact UInt64.ofNat_toNat

theorem descFormat_separated {rest : List Char} (hrest : (Conversion.hex 2).EndsAt rest) :
    Format.Separated descFormat rest :=
  ⟨Format.endsAt_text (by decide) _ _ rest, Format.endsAt_text (by decide) _ _ rest,
    Format.endsAt_text (by decide) _ _ rest, Format.endsAt_text (by decide) _ _ rest, fun _ => hrest, trivial⟩

theorem skipFormat_separated (rest : List Char) : Format.Separated skipFormat rest :=
  ⟨Format.endsAt_text (by decide) _ _ rest, Format.endsAt_text (by decide) _ _ rest,
    Format.endsAt_text (by decide) _ _ rest, Format.endsAt_text (by decide) _ _ rest, trivial⟩

/-- What the description adds for the header, -/
def printHeader (h : PartWALHeader) : List Char :=
  descFormat.print ([h.partitionId.toNat, h.partitionLsn.toNat] ++ lsnFormatArgs h.origNodeLsn ++ [h.flags.toNat])

/-- and for a range. -/
def printRange (range : XLogRecPtr × XLogRecPtr) : List Char :=
  skipFormat.print (lsnFormatArgs range.1 ++ lsnFormatArgs range.2)

theorem scan_header (h : PartWALHeader) {rest : List Char} (hrest : (Conversion.hex 2).EndsAt rest) :
    descFormat.scan (printHeader h ++ rest) =
      some ([h.partitionId.toNat, h.partitionLsn.toNat] ++ lsnFormatArgs h.origNodeLsn ++ [h.flags.toNat], rest) :=
  Format.scan_print (descFormat_separated hrest) rfl

theorem scan_range (range : XLogRecPtr × XLogRecPtr) :
    skipFormat.scan (printRange range) = some (lsnFormatArgs range.1 ++ lsnFormatArgs range.2, []) := by
  have h : skipFormat.scan (printRange range ++ []) = some (lsnFormatArgs range.1 ++ lsnFormatArgs range.2, []) :=
    Format.scan_print (skipFormat_separated []) rfl
  rwa [List.append_nil] at h

theorem partdistWalDesc_eq {r : XLogRecord} (hr : r.Describable) (buf : List Char) :
    partdistWalDesc buf r = some (buf ++ (printHeader (PartWALHeader.decode r.data) ++
      (r.described.skipRange.elim [] printRange))) := by
  obtain ⟨hlen, hskip⟩ := hr
  rw [partdistWalDesc, if_neg (Nat.not_lt.mpr hlen)]
  dsimp only
  by_cases hinfo : r.info &&& ~~~xlrInfoMask = partwalRmgrInfoSkip
  · have hrange : r.described.skipRange =
        some ((PartWALSkip.decode r.data).lsnStart, (PartWALSkip.decode r.data).lsnEnd) := if_pos hinfo
    rw [if_pos hinfo, if_neg (Nat.not_lt.mpr (hskip hinfo)), hrange, List.append_assoc]
    rfl
  · have hrange : r.described.skipRange = none := if_neg hinfo
    rw [if_neg hinfo, hrange]
    simp only [Option.elim_none, List.append_nil]
    rfl

theorem readDesc_printed (h : PartWALHeader) (range : Option (XLogRecPtr × XLogRecPtr)) :
    readDesc (printHeader h ++ range.elim [] printRange) =
      some ⟨h.partitionId, h.partitionLsn, h.origNodeLsn, h.flags, range⟩ := by
  have hends : (Conversion.hex 2).EndsAt (range.elim [] printRange) := by
    intro c hc
    cases range with
    | none => cases hc
    | some range =>
      obtain rfl := Option.some.inj hc
      decide
  have hscan := scan_header h hends
  simp only [lsnFormatArgs, List.cons_append, List.nil_append] at hscan
  rw [readDesc, hscan]
  simp only [Option.bind_eq_bind, Option.bind_some, UInt32.ofNat_toNat, UInt64.ofNat_toNat, UInt8.ofNat_toNat,
    lsnOfArgs_format]
  cases range with
  | none => rfl
  | some range =>
    have hrange := scan_range range
    simp only [lsnFormatArgs, List.cons_append, List.nil_append] at hrange
    simp only [Option.elim_some, hrange, lsnOfArgs_format]
    rfl

/-- **Descriptions.** `partdist_wal_desc` reads within the data of every record that is as long
as its kind is, and appends a text from which partition, LSNs, flags and, for a SKIP record,
its range can be read back; so two records have the same text if and only if they agree in
all of these. -/
theorem desc_readable {r r' : XLogRecord} (hr : r.Describable) (hr' : r'.Describable) (buf : List Char) :
    (∃ text, partdistWalDesc buf r = some (buf ++ text) ∧ readDesc text = some r.described) ∧
      (partdistWalDesc buf r = partdistWalDesc buf r' ↔ r.described = r'.described) ∧
      (r.described.skipRange.isSome ↔ partdistWalIdentify r.info = some "PARTWAL_SKIP") := by
  have hread : ∀ r : XLogRecord, readDesc (printHeader (PartWALHeader.decode r.data) ++
      r.described.skipRange.elim [] printRange) = some r.described := fun r => readDesc_printed _ _
  refine ⟨⟨_, partdistWalDesc_eq hr buf, hread r⟩, ⟨fun h => ?_, fun h => ?_⟩, ?_⟩
  · rw [partdistWalDesc_eq hr, partdistWalDesc_eq hr', Option.some_inj, List.append_cancel_left_eq] at h
    have hsame := hread r
    rw [h, hread r'] at hsame
    exact (Option.some.inj hsame).symm
  · rw [partdistWalDesc_eq hr, partdistWalDesc_eq hr', h]
    simp only [XLogRecord.described, WalDesc.mk.injEq] at h
    obtain ⟨hpid, hlsn, horig, hflags, -⟩ := h
    simp only [printHeader, hpid, hlsn, horig, hflags]
  · unfold partdistWalIdentify XLogRecord.described
    by_cases hinfo : r.info &&& ~~~xlrInfoMask = partwalRmgrInfoSkip
    · have hdata : partwalRmgrInfoSkip ≠ partwalRmgrInfoData := by decide
      simp only [hinfo, if_true, if_neg hdata, Option.isSome_some]
    · simp only [if_neg hinfo, Option.isSome_none, Bool.false_eq_true, false_iff]
      split <;> simp

/-- A SKIP record. -/
def skipRecord : XLogRecord where
  rmid := rmExperimentalId
  info := partwalRmgrInfoSkip
  data := (buildHeader 7 0x02 0x16B3740 12).encode ++ leBytes 8 0x16B3740 ++ leBytes 8 0x200000000

theorem desc_readable_skip : ∃ text, partdistWalDesc [] skipRecord = some text ∧
    readDesc text = some ⟨7, 12, 0x16B3740, 2, some (0x16B3740, 0x200000000)⟩ := by
  have hlong : skipRecord.Describable := by decide
  obtain ⟨text, hdesc, hread⟩ := (desc_readable hlong hlong []).1
  have hdescribed : skipRecord.described = ⟨7, 12, 0x16B3740, 2, some (0x16B3740, 0x200000000)⟩ := by decide
  rw [hdescribed] at hread
  exact ⟨text, hdesc, hread⟩

example : (partdistWalDesc [] skipRecord).map String.ofList = some ("partition_id=7 partition_lsn=12 " ++
    "orig_lsn=0/016B3740 flags=0x02 skip_range=[0/016B3740, 2/00000000)") := by decide +kernel

end PartDist
