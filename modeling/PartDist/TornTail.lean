import PartDist.Lib.Buckets
import PartDist.Redo
import PartDist.LastWritten

/-!
# Recovery from a torn append

A crash in the middle of an append leaves the first `t` bytes of a record at the
end of its segment file.  Files are opened with `O_APPEND` and records have no
framing beyond their alignment, so what redo appends to that file is read `t`
bytes late.

`Shows hs d`: directory `d` reads back as the records `hs`.  While the files redo
appends to are aligned, it keeps showing what it is given (`Shows.append`); the
file with the torn tail does so for one record, if that record reads the same `t`
bytes late (`TornDir.append_first`).
-/

namespace PartDist

open Bytes PartWALHeader HighWater ExchangeSort

/-! ## Reading a directory back -/

/-- Every file gives the rows of its records. -/
structure Shows (segsz : WalSegSize) (pid : Oid) (hs : List PartWALHeader) (d : Dir) : Prop where
  rows : ∀ s, ((d.headers s).filter (validFor pid)).map row = (inSegment segsz s hs).map row
  names : segnos segsz hs ⊆ d.names

theorem Shows.listed {segsz : WalSegSize} {pid : Oid} {hs : List PartWALHeader} {d : Dir} {rd : Readdir}
    (h : Shows segsz pid hs d) (hfiles : d.names.card ≤ maxScanFiles) :
    ∀ s ∈ segnos segsz hs, s ∈ d.listed rd :=
  fun _ hs => (Dir.mem_listed hfiles).mpr (h.names hs)

theorem lastLsn_eq_row (l : List PartWALHeader) :
    lastLsn 0 l = (((l.map row).getLast?).map Prod.fst).getD 0 := by
  rw [lastLsn, List.getLast?_map]
  cases l.getLast? <;> rfl

theorem increasing_iff_row {l : List PartWALHeader} :
    Increasing lsn l ↔ (l.map row).Pairwise fun a b => a.1.toNat < b.1.toNat := by
  rw [List.pairwise_map]
  exact Iff.rfl

/-- On a file whose valid records are in order the last of them decides. -/
theorem fileLsn_eq_last (pid : Oid) (f : Bytes)
    (hinc : Increasing lsn ((readHeaders f).filter (validFor pid))) :
    fileLsn pid f = lastLsn 0 ((readHeaders f).filter (validFor pid)) := by
  rcases List.eq_nil_or_concat ((readHeaders f).filter (validFor pid)) with hnil | ⟨l, a, hl⟩
  · rw [hnil, lastLsn_nil, fileLsn_eq_zero_iff]
    intro h hh hv
    exact absurd (List.mem_filter.mpr ⟨hh, hv⟩) (by rw [hnil]; exact List.not_mem_nil)
  · rw [List.concat_eq_append] at hl
    obtain ⟨ham, hav⟩ := List.mem_filter.mp (hl ▸ List.mem_append_right l List.mem_cons_self :
      a ∈ (readHeaders f).filter (validFor pid))
    rw [hl, lastLsn_append]
    refine UInt64.le_antisymm ?_ (UInt64.le_iff_toNat_le.mpr (fileLsn_le hinc ham hav))
    by_cases h0 : fileLsn pid f = 0
    · rw [h0]
      exact UInt64.zero_le
    · obtain ⟨h, hh, hv, he⟩ := fileLsn_mem h0
      have hin : h ∈ l ++ [a] := hl ▸ List.mem_filter.mpr ⟨hh, hv⟩
      rw [he]
      rcases List.mem_append.mp hin with hin | hin
      · rw [hl] at hinc
        exact UInt64.le_iff_toNat_le.mpr
          (Nat.le_of_lt ((List.pairwise_append.mp hinc).2.2 h hin a List.mem_cons_self))
      · obtain rfl := List.mem_singleton.mp hin
        exact UInt64.le_refl _

section
variable {segsz : WalSegSize} {pid : Oid} {rd : Readdir} {hs : List PartWALHeader} {d : Dir}

/-- Records in segment order, read segment by segment. -/
theorem flatMap_inSegment {S : List Nat} (hS : S.Pairwise (· < ·)) (hsub : ∀ h ∈ hs, segnoOf segsz h ∈ S)
    (hseg : hs.Pairwise fun a b => segnoOf segsz a ≤ segnoOf segsz b) :
    (S.flatMap fun s => inSegment segsz s hs) = hs :=
  Buckets.gather_of_sorted hS hsub hseg

/-- `read_all_headers` returns the records. -/
theorem Shows.readAll (h : Shows segsz pid hs d) (hlist : ∀ s ∈ segnos segsz hs, s ∈ d.listed rd)
    (hseg : hs.Pairwise fun a b => segnoOf segsz a ≤ segnoOf segsz b) :
    readAllHeaders rd pid d = hs.map row := by
  have hsub : ∀ a ∈ hs, segnoOf segsz a ∈ exchangeSort (fun t s => decide (t < s)) (d.listed rd) := by
    intro a ha
    rw [mem_exchangeSort]
    exact hlist _ (List.mem_toFinset.mpr (List.mem_map_of_mem ha))
  conv_rhs => rw [← flatMap_inSegment (sorted_ascending (d.nodup_listed rd)) hsub hseg, List.map_flatMap]
  apply List.flatMap_congr
  intro s _
  rw [if_pos rfl, h.rows s]

/-- The scan returns the `partition_lsn` of the last one. -/
theorem Shows.scan (rd : Readdir) (h : Shows segsz pid hs d) (hlist : ∀ s ∈ segnos segsz hs, s ∈ d.listed rd)
    (hseg : hs.Pairwise fun a b => segnoOf segsz a ≤ segnoOf segsz b) (hinc : Increasing lsn hs)
    (hpos : ∀ a ∈ hs, a.partitionLsn ≠ 0) : getLastWrittenPartitionLSN rd pid d = lastLsn 0 hs := by
  have hfile : ∀ s, fileLsn pid (d.content s) = lastLsn 0 (inSegment segsz s hs) := by
    intro s
    have hrows := h.rows s
    unfold Dir.headers at hrows
    rw [fileLsn_eq_last, lastLsn_eq_row, hrows, ← lastLsn_eq_row]
    rw [increasing_iff_row, hrows, ← increasing_iff_row]
    exact List.Pairwise.filter _ hinc
  rcases List.eq_nil_or_concat hs with rfl | ⟨l, a, rfl⟩
  · rw [getLast_eq_zero fun s _ => hfile s]
    rfl
  · rw [List.concat_eq_append] at *
    have hlast : inSegment segsz (segnoOf segsz a) (l ++ [a]) = inSegment segsz (segnoOf segsz a) l ++ [a] := by
      rw [inSegment_append, inSegment_singleton, if_pos rfl]
    have hfa := hfile (segnoOf segsz a)
    rw [hlast, lastLsn_append] at hfa
    have ha0 := hpos a (by simp)
    have hmem : segnoOf segsz a ∈ d.listed rd := hlist _ (by rw [mem_segnos, hlast]; simp)
    rw [lastLsn_append, getLast_of_top hmem (by rw [hfa]; exact ha0), hfa]
    intro t _ hlt
    have hnil : inSegment segsz t (l ++ [a]) = [] := by
      apply List.filter_eq_nil_iff.mpr
      intro b hb
      have hle : segnoOf segsz b ≤ segnoOf segsz a := by
        rcases List.mem_append.mp hb with hb | hb
        · exact (List.pairwise_append.mp hseg).2.2 b hb a List.mem_cons_self
        · obtain rfl := List.mem_singleton.mp hb
          exact Nat.le_refl _
      simp only [decide_eq_true_eq]
      omega
    rw [hfile t, hnil, lastLsn_nil]

/-! ## Appending -/

/-- A record appended to a file of whole records. -/
theorem Shows.append {h : PartWALHeader} (hd : Shows segsz pid hs d) (hv : h.validFor pid = true)
    (halign : headerSize ∣ (d.content (segnoOf segsz h)).length) :
    Shows segsz pid (hs ++ [h]) (d.append (segnoOf segsz h) h.encode) := by
  refine ⟨fun s => ?_, ?_⟩
  · rw [inSegment_append, inSegment_singleton, List.map_append, ← hd.rows s, Dir.headers, Dir.headers,
      Dir.content_append]
    by_cases hs : s = segnoOf segsz h
    · subst hs
      rw [if_pos rfl, if_pos rfl, readHeaders_append_encode halign, List.filter_append,
        List.filter_cons_of_pos hv, List.filter_nil, List.map_append]
    · rw [if_neg hs, if_neg hs, List.append_nil, List.map_nil, List.append_nil]
  · rw [Dir.names_append, segnos_append]
    exact Finset.insert_subset_insert _ hd.names

/-- The 32 bytes a reader takes for the record when it was appended behind the
first `t` bytes of itself. -/
def lateRead (h : PartWALHeader) (t : Nat) : Bytes := (h.encode.take t ++ h.encode).take headerSize

/-- The four fields readers look at fill 24 bytes; those of the record read the
same `t` bytes late. -/
def ReadsLate (h : PartWALHeader) (t : Nat) : Prop := (lateRead h t).take 24 = h.encode.take 24

instance (h : PartWALHeader) (t : Nat) : Decidable (ReadsLate h t) := inferInstanceAs (Decidable (_ = _))

theorem length_lateRead (h : PartWALHeader) (t : Nat) : (lateRead h t).length = headerSize := by
  rw [lateRead, List.length_take, List.length_append, length_encode]
  omega

theorem decode_lateRead_zero (h : PartWALHeader) : decode (lateRead h 0) = h := by
  rw [lateRead, List.take_zero, List.nil_append, List.take_of_length_le (Nat.le_of_eq (length_encode h)),
    decode_encode]

theorem take_encode (h : PartWALHeader) : h.encode.take 24 =
    leBytes 4 h.magic.toNat ++ leBytes 4 h.partitionId.toNat ++ leBytes 8 h.origNodeLsn.toNat ++
      leBytes 8 h.partitionLsn.toNat := by
  have hlen : (leBytes 4 h.magic.toNat ++ leBytes 4 h.partitionId.toNat ++ leBytes 8 h.origNodeLsn.toNat ++
      leBytes 8 h.partitionLsn.toNat).length = 24 := by simp
  rw [encode, List.append_assoc (leBytes 4 _ ++ _ ++ _ ++ _), List.take_append_of_le_length (by rw [hlen]),
    List.take_of_length_le (by rw [hlen])]

/-- The first 24 bytes are the four fields. -/
theorem take_encode_inj {h h' : PartWALHeader} : h.encode.take 24 = h'.encode.take 24 ↔
    h.magic = h'.magic ∧ h.partitionId = h'.partitionId ∧ h.row = h'.row := by
  rw [take_encode, take_encode]
  constructor
  · intro heq
    obtain ⟨heq, hl⟩ := List.append_inj heq (by simp)
    obtain ⟨heq, ho⟩ := List.append_inj heq (by simp)
    obtain ⟨hm, hp⟩ := List.append_inj heq (by simp)
    refine ⟨UInt32.toNat_inj.mp (leBytes_inj h.magic.toNat_lt h'.magic.toNat_lt hm),
      UInt32.toNat_inj.mp (leBytes_inj h.partitionId.toNat_lt h'.partitionId.toNat_lt hp), ?_⟩
    rw [row, row, UInt64.toNat_inj.mp (leBytes_inj h.partitionLsn.toNat_lt h'.partitionLsn.toNat_lt hl),
      UInt64.toNat_inj.mp (leBytes_inj h.origNodeLsn.toNat_lt h'.origNodeLsn.toNat_lt ho)]
  · rintro ⟨hm, hp, hr⟩
    obtain ⟨hl, ho⟩ := Prod.mk.inj hr
    rw [hm, hp, hl, ho]

theorem readsLate_iff {h : PartWALHeader} {t : Nat} : ReadsLate h t ↔
    (decode (lateRead h t)).magic = h.magic ∧ (decode (lateRead h t)).partitionId = h.partitionId ∧
      (decode (lateRead h t)).row = h.row := by
  rw [← take_encode_inj, encode_decode (length_lateRead h t)]
  exact Iff.rfl

/-- From 24 bytes on the leftover already holds every field. -/
theorem readsLate_of_le (h : PartWALHeader) {t : Nat} (ht : 24 ≤ t) : ReadsLate h t := by
  have hlen : 24 ≤ (h.encode.take t).length := by
    rw [List.length_take, length_encode, headerSize]
    omega
  rw [ReadsLate, lateRead, List.take_take, headerSize, Nat.min_eq_left (by omega),
    List.take_append_of_le_length hlen, List.take_take, Nat.min_eq_left ht]

/-- What the file with the torn tail gives once its record was appended. -/
theorem readHeaders_torn {f : Bytes} (hf : headerSize ∣ f.length) (h : PartWALHeader) {t : Nat}
    (ht : t < headerSize) :
    readHeaders (f ++ h.encode.take t ++ h.encode) = readHeaders f ++ [decode (lateRead h t)] := by
  have htail : ((h.encode.take t ++ h.encode).drop headerSize).length < headerSize := by
    rw [List.length_drop, List.length_append, length_encode, List.length_take, length_encode]
    omega
  rw [List.append_assoc, readHeaders_append hf]
  congr 1
  conv_lhs => rw [← List.take_append_drop headerSize (h.encode.take t ++ h.encode), ← lateRead]
  rw [readHeaders, blocks_append_left headerSize_pos (length_lateRead h t), blocks_short htail]
  rfl

/-- Redo appends records of the list it is given, each to its own segment file. -/
theorem redo_content (segsz : WalSegSize) (pid : Oid) (rd : Readdir) (hs : List PartWALHeader) (d : Dir) (s : Nat) :
    ∃ l : List PartWALHeader, l.Sublist hs ∧ (∀ h ∈ l, segnoOf segsz h = s) ∧
      (hs.foldl (redoDir segsz rd pid) d).content s = d.content s ++ encodeAll l := by
  induction hs generalizing d with
  | nil => exact ⟨[], List.Sublist.refl _, (fun _ hh => nomatch hh), by simp⟩
  | cons h hs ih =>
    rw [List.foldl_cons]
    obtain ⟨l, hsub, hseg, hc⟩ := ih (redoDir segsz rd pid d h)
    rw [hc]
    unfold redoDir
    split
    · exact ⟨l, hsub.trans (List.sublist_cons_self h hs), hseg, rfl⟩
    · rw [writeHeaderToFile_eq, Dir.content_append]
      by_cases hs' : s = segnoOf segsz h
      · refine ⟨h :: l, hsub.cons_cons h, fun a ha => ?_, ?_⟩
        · rcases List.mem_cons.mp ha with rfl | ha
          · exact hs'.symm
          · exact hseg a ha
        · rw [if_pos hs', List.append_assoc, encodeAll_cons]
      · exact ⟨l, hsub.trans (List.sublist_cons_self h hs), hseg, by rw [if_neg hs', List.append_nil]⟩

/-- Redo appends a record that is above all it is shown. -/
theorem Shows.redo_new (rd : Readdir) (hd : Shows segsz pid hs d) {h : PartWALHeader} {suf : List PartWALHeader}
    (hvalid : ∀ a ∈ hs ++ h :: suf, a.validFor pid = true ∧ a.partitionLsn ≠ 0)
    (hinc : Increasing lsn (hs ++ h :: suf))
    (hseg : (hs ++ h :: suf).Pairwise fun a b => segnoOf segsz a ≤ segnoOf segsz b)
    (hcard : d.names.card ≤ maxScanFiles) :
    redoDir segsz rd pid d h = d.append (segnoOf segsz h) h.encode := by
  obtain ⟨hincl, -, hlt⟩ := List.pairwise_append.mp hinc
  have hscan := hd.scan rd (hd.listed hcard) (List.pairwise_append.mp hseg).1 hincl
    fun a ha => (hvalid a (List.mem_append_left _ ha)).2
  have hnew : lastLsn 0 hs < h.partitionLsn := by
    rcases List.eq_nil_or_concat hs with rfl | ⟨l, a, rfl⟩
    · exact UInt64.pos_iff_ne_zero.mpr (hvalid h (by simp)).2
    · rw [List.concat_eq_append, lastLsn_append]
      exact UInt64.lt_iff_toNat_lt.mpr (hlt a (by simp) h List.mem_cons_self)
  rw [redoDir, hscan, if_neg (UInt64.not_le.mpr hnew), writeHeaderToFile_eq]

theorem names_union_segnos_cons (d : Dir) (h : PartWALHeader) (suf : List PartWALHeader) :
    d.names ∪ segnos segsz (h :: suf) = (d.append (segnoOf segsz h) h.encode).names ∪ segnos segsz suf := by
  rw [Dir.names_append, segnos, List.map_cons, List.toFinset_cons, Finset.union_insert, Finset.insert_union]
  rfl

/-- Records that go to files of whole records are all appended and shown. -/
theorem redo_shows (rd : Readdir) {suf : List PartWALHeader} (hd : Shows segsz pid hs d)
    (hvalid : ∀ h ∈ hs ++ suf, h.validFor pid = true ∧ h.partitionLsn ≠ 0) (hinc : Increasing lsn (hs ++ suf))
    (hseg : (hs ++ suf).Pairwise fun a b => segnoOf segsz a ≤ segnoOf segsz b)
    (halign : ∀ h ∈ suf, headerSize ∣ (d.content (segnoOf segsz h)).length)
    (hfiles : (d.names ∪ segnos segsz suf).card ≤ maxScanFiles) :
    Shows segsz pid (hs ++ suf) (suf.foldl (redoDir segsz rd pid) d) ∧
      (suf.foldl (redoDir segsz rd pid) d).names = d.names ∪ segnos segsz suf := by
  induction suf generalizing hs d with
  | nil => exact ⟨by rw [List.append_nil]; exact hd, by simp⟩
  | cons h suf ih =>
    have hcard : d.names.card ≤ maxScanFiles :=
      (Finset.card_le_card Finset.subset_union_left).trans hfiles
    have hv := (hvalid h (by simp)).1
    have hstep := hd.redo_new rd hvalid hinc hseg hcard
    have hsplit : hs ++ h :: suf = hs ++ [h] ++ suf := by simp
    rw [hsplit] at hvalid hinc hseg
    rw [names_union_segnos_cons] at hfiles ⊢
    rw [List.foldl_cons, hstep, hsplit]
    refine ih (hd.append hv (halign h List.mem_cons_self)) hvalid hinc hseg (fun a ha => ?_) hfiles
    rw [Dir.content_append, List.length_append]
    refine Nat.dvd_add (halign a (List.mem_cons_of_mem h ha)) ?_
    split
    · rw [length_encode]
    · exact ⟨0, rfl⟩

end

/-! ## The torn directory -/

/-- What a crash in the middle of appending `x` leaves: the records `pre` in their
files and `t` bytes of `x` at the end of its own. -/
structure TornDir (segsz : WalSegSize) (pre : List PartWALHeader) (x : PartWALHeader) (t : Nat)
    (d : Dir) : Prop where
  content : ∀ s, d.content s = encodeAll (inSegment segsz s pre) ++
    if s = segnoOf segsz x then x.encode.take t else []
  names : segnos segsz pre ⊆ d.names
  extra : d.names ⊆ insert (segnoOf segsz x) (segnos segsz pre)

/-- `read_all_headers` returns the records `hs`, each once, and the scan the last
of their `partition_lsn`s. -/
def ReadsBack (rd : Readdir) (pid : Oid) (hs : List PartWALHeader) (d : Dir) : Prop :=
  (readAllHeaders rd pid d).Perm (hs.map row) ∧ getLastWrittenPartitionLSN rd pid d = lastLsn 0 hs

/-- No file with a record goes unlisted; and where something is replayed, there is
no leftover, or nothing but `x` is appended behind it and `x` reads the same
behind its leftover. -/
def Recoverable (segsz : WalSegSize) (rd : Readdir) (pre suf : List PartWALHeader) (x : PartWALHeader)
    (t : Nat) (d : Dir) : Prop :=
  (suf = [] ∧ ∀ s ∈ segnos segsz pre, s ∈ d.listed rd) ∨
    (suf ≠ [] ∧ (segnos segsz (pre ++ suf)).card ≤ maxScanFiles ∧
      (t = 0 ∨ (∀ h ∈ suf.tail, segnoOf segsz h ≠ segnoOf segsz x) ∧ ReadsLate x t))

section
variable {segsz : WalSegSize} {pid : Oid} {rd : Readdir} {pre suf : List PartWALHeader}
  {x : PartWALHeader} {t : Nat} {d : Dir}

/-- The leftover itself is never read. -/
theorem TornDir.headers (hd : TornDir segsz pre x t d) (ht : t < headerSize) (s : Nat) :
    d.headers s = inSegment segsz s pre := by
  have hshort : (if s = segnoOf segsz x then x.encode.take t else []).length < headerSize := by
    split
    · rw [List.length_take, length_encode]
      omega
    · exact headerSize_pos
  rw [Dir.headers, hd.content s, readHeaders_append (dvd_length_encodeAll _), readHeaders_encodeAll,
    readHeaders, blocks_short hshort, List.map_nil, List.append_nil]

theorem TornDir.shows (hd : TornDir segsz pre x t d) (ht : t < headerSize)
    (hvalid : ∀ h ∈ pre, h.validFor pid = true) : Shows segsz pid pre d := by
  refine ⟨fun s => ?_, hd.names⟩
  have hall : (inSegment segsz s pre).filter (validFor pid) = inSegment segsz s pre :=
    List.filter_eq_self.mpr fun h hh => hvalid h (List.mem_of_mem_filter hh)
  rw [hd.headers ht s, hall]

theorem segnoOf_mono {a b : PartWALHeader} (h : a.origNodeLsn ≤ b.origNodeLsn) :
    segnoOf segsz a ≤ segnoOf segsz b := by
  rw [segnoOf_eq, segnoOf_eq]
  have := Nat.div_le_div_right (c := segsz.bytes) (UInt64.le_iff_toNat_le.mp h)
  omega

/-- The first record replayed lands behind its leftover. -/
theorem TornDir.append_first (hd : TornDir segsz pre x t d) (ht : t < headerSize)
    (hvalid : ∀ h ∈ pre, h.validFor pid = true) (hx : x.validFor pid = true) (hlate : ReadsLate x t) :
    Shows segsz pid (pre ++ [x]) (d.append (segnoOf segsz x) x.encode) := by
  have hshows := hd.shows ht hvalid
  obtain ⟨hm, hp, hr⟩ := readsLate_iff.mp hlate
  have hv : (decode (lateRead x t)).validFor pid = true := by
    rw [validFor_iff] at hx ⊢
    rw [hm, hp]
    exact hx
  refine ⟨fun s => ?_, ?_⟩
  · rw [inSegment_append, inSegment_singleton, List.map_append, ← hshows.rows s]
    by_cases hs : s = segnoOf segsz x
    · subst hs
      have hnew : (d.append (segnoOf segsz x) x.encode).headers (segnoOf segsz x) =
          d.headers (segnoOf segsz x) ++ [decode (lateRead x t)] := by
        rw [hd.headers ht, Dir.headers, Dir.content_append, if_pos rfl, hd.content, if_pos rfl,
          readHeaders_torn (dvd_length_encodeAll _) x ht, readHeaders_encodeAll]
      rw [hnew, if_pos rfl, List.filter_append, List.filter_cons_of_pos hv, List.filter_nil,
        List.map_append, List.map_singleton, List.map_singleton, hr]
    · have hsame : (d.append (segnoOf segsz x) x.encode).headers s = d.headers s := by
        rw [Dir.headers, Dir.content_append, if_neg hs, List.append_nil]
        rfl
      rw [hsame, if_neg hs, List.map_nil, List.append_nil]
  · rw [Dir.names_append, segnos_append]
    exact Finset.insert_subset_insert _ hd.names

/-- The condition is enough. -/
theorem readsBack_of_recoverable (hd : TornDir segsz pre x t d) (ht : t < headerSize)
    (hsuf : suf = [] ∨ suf.head? = some x)
    (hvalid : ∀ h ∈ pre ++ suf, h.validFor pid = true ∧ h.partitionLsn ≠ 0)
    (hinc : Increasing lsn (pre ++ suf))
    (hseg : (pre ++ suf).Pairwise fun a b => segnoOf segsz a ≤ segnoOf segsz b)
    (hrec : Recoverable segsz rd pre suf x t d) :
    ReadsBack rd pid (pre ++ suf) (suf.foldl (redoDir segsz rd pid) d) := by
  have hpre : ∀ h ∈ pre, h.validFor pid = true := fun h hh => (hvalid h (List.mem_append_left _ hh)).1
  have hshows := hd.shows ht hpre
  have hdone : ∀ {d'}, Shows segsz pid (pre ++ suf) d' →
      (∀ s ∈ segnos segsz (pre ++ suf), s ∈ d'.listed rd) → ReadsBack rd pid (pre ++ suf) d' := by
    intro d' h hlist
    exact ⟨List.Perm.of_eq (h.readAll hlist hseg), h.scan rd hlist hseg hinc fun a ha => (hvalid a ha).2⟩
  rcases hrec with ⟨rfl, hlist⟩ | ⟨hne, hcard, hrec⟩
  · rw [List.append_nil] at *
    exact hdone hshows hlist
  · obtain ⟨more, rfl⟩ : ∃ more, suf = x :: more := by
      cases suf with
      | nil => exact absurd rfl hne
      | cons y more =>
        have hy := hsuf.resolve_left hne
        exact ⟨more, by rw [Option.some.inj hy]⟩
    have hsub : d.names ∪ segnos segsz (x :: more) ⊆ segnos segsz (pre ++ x :: more) := by
      rw [segnos_append_list]
      refine Finset.union_subset (hd.extra.trans ?_) Finset.subset_union_right
      refine Finset.insert_subset (Finset.mem_union_right _ ?_) Finset.subset_union_left
      simp [segnos]
    have hfiles := (Finset.card_le_card hsub).trans hcard
    rcases hrec with rfl | ⟨hother, hlate⟩
    · obtain ⟨hall, hnames⟩ := redo_shows rd hshows hvalid hinc hseg (fun h _ => by
        rw [hd.content]
        simpa using dvd_length_encodeAll _) hfiles
      exact hdone hall (hall.listed (by rw [hnames]; exact hfiles))
    · have hsplit : pre ++ x :: more = pre ++ [x] ++ more := by simp
      have hx := hvalid x (by simp)
      -- the first record goes behind the leftover, the others to whole files
      have hcarddir : d.names.card ≤ maxScanFiles :=
        (Finset.card_le_card Finset.subset_union_left).trans hfiles
      have hstep := hshows.redo_new rd hvalid hinc hseg hcarddir
      rw [names_union_segnos_cons] at hfiles
      rw [hsplit] at hvalid hinc hseg hdone ⊢
      obtain ⟨hall, hnames⟩ := redo_shows rd (hd.append_first ht hpre hx.1 hlate) hvalid hinc
        hseg (fun h hh => by
          rw [Dir.content_append, if_neg (hother h hh), hd.content, if_neg (hother h hh)]
          simpa using dvd_length_encodeAll _) hfiles
      rw [List.foldl_cons, hstep]
      exact hdone hall (hall.listed (by rw [hnames]; exact hfiles))

/-- A record that is read back is read from some listed file. -/
theorem ReadsBack.exists_read {hs : List PartWALHeader} (hback : ReadsBack rd pid hs d) {h : PartWALHeader}
    (hh : h ∈ hs) : ∃ s ∈ d.listed rd, ∃ b ∈ d.headers s, b.validFor pid = true ∧ b.row = h.row := by
  have hmem := hback.1.mem_iff.mpr (List.mem_map_of_mem hh)
  obtain ⟨s, hs, hr⟩ := List.mem_flatMap.mp hmem
  rw [if_pos rfl] at hr
  obtain ⟨b, hb, hbr⟩ := List.mem_map.mp hr
  obtain ⟨hb, hbv⟩ := List.mem_filter.mp hb
  exact ⟨s, (mem_exchangeSort _).mp hs, b, hb, hbv, hbr⟩

/-- Only `x` itself can follow the leftover. -/
theorem sublist_first {l more : List PartWALHeader} (hsub : l.Sublist (x :: more))
    (hls : ∀ a ∈ l, segnoOf segsz a = segnoOf segsz x)
    (hother : ∀ h ∈ more, segnoOf segsz h ≠ segnoOf segsz x) : l = [] ∨ l = [x] := by
  have hall : inSegment segsz (segnoOf segsz x) l = l :=
    List.filter_eq_self.mpr fun a ha => decide_eq_true (hls a ha)
  have hnone : inSegment segsz (segnoOf segsz x) more = [] :=
    List.filter_eq_nil_iff.mpr fun h hh => by simpa using hother h hh
  have hone : inSegment segsz (segnoOf segsz x) (x :: more) = [x] := by
    rw [← List.singleton_append, inSegment_append, inSegment_singleton, if_pos rfl, hnone, List.append_nil]
  have hfilter : (inSegment segsz (segnoOf segsz x) l).Sublist (inSegment segsz (segnoOf segsz x) (x :: more)) :=
    hsub.filter _
  rw [hall, hone] at hfilter
  exact List.sublist_singleton.mp hfilter

/-- After redo the files hold records of the two lists, and what `x` reads as behind its leftover. -/
theorem TornDir.mem_headers_redo (hd : TornDir segsz pre x t d) (ht : t < headerSize) {more : List PartWALHeader}
    (hother : ∀ h ∈ more, segnoOf segsz h ≠ segnoOf segsz x) (hxpre : x ∉ pre) {s : Nat} {b : PartWALHeader}
    (hb : b ∈ ((x :: more).foldl (redoDir segsz rd pid) d).headers s) :
    (b ∈ pre ++ x :: more ∧ segnoOf segsz b = s ∧ (t ≠ 0 → b ≠ x)) ∨
      (s = segnoOf segsz x ∧ b = decode (lateRead x t)) := by
  obtain ⟨l, hsub, hls, hc⟩ := redo_content segsz pid rd (x :: more) d s
  rw [Dir.headers, hc, hd.content s] at hb
  have hpre : b ∈ inSegment segsz s pre →
      b ∈ pre ++ x :: more ∧ segnoOf segsz b = s ∧ (t ≠ 0 → b ≠ x) := by
    intro hb
    obtain ⟨hb, hbs⟩ := List.mem_filter.mp hb
    exact ⟨List.mem_append_left _ hb, by simpa using hbs, fun _ h => hxpre (h ▸ hb)⟩
  by_cases hs : s = segnoOf segsz x ∧ t ≠ 0
  · obtain ⟨hs, ht0⟩ := hs
    rw [if_pos hs] at hb
    rcases sublist_first hsub (fun a ha => (hls a ha).trans hs) hother with rfl | rfl
    · have hold := hd.headers ht s
      rw [Dir.headers, hd.content s, if_pos hs] at hold
      rw [encodeAll_nil, List.append_nil, hold] at hb
      exact Or.inl (hpre hb)
    · rw [encodeAll_singleton, readHeaders_torn (dvd_length_encodeAll _) x ht, readHeaders_encodeAll,
        List.mem_append, List.mem_singleton] at hb
      rcases hb with hb | hb
      · exact Or.inl (hpre hb)
      · exact Or.inr ⟨hs, hb⟩
  · have hnone : (if s = segnoOf segsz x then x.encode.take t else []) = [] := by
      split
      · next h =>
        have ht0 : t = 0 := by
          by_contra h0
          exact hs ⟨h, h0⟩
        rw [ht0, List.take_zero]
      · rfl
    rw [hnone, List.append_nil, ← encodeAll_append, readHeaders_encodeAll, List.mem_append] at hb
    left
    rcases hb with hb | hb
    · exact hpre hb
    · refine ⟨List.mem_append_right _ (hsub.subset hb), hls b hb, fun ht0 h => hs ⟨?_, ht0⟩⟩
      rw [← hls b hb, h]

/-- Where at most one record goes behind the leftover, it is necessary. -/
theorem recoverable_of_readsBack (suf : List PartWALHeader) (hd : TornDir segsz pre x t d) (ht : t < headerSize)
    (hsuf : suf = [] ∨ suf.head? = some x)
    (hvalid : ∀ h ∈ pre ++ suf, h.validFor pid = true) (hinc : Increasing lsn (pre ++ suf))
    (hother : ∀ h ∈ suf.tail, segnoOf segsz h ≠ segnoOf segsz x)
    (hback : ReadsBack rd pid (pre ++ suf) (suf.foldl (redoDir segsz rd pid) d)) :
    Recoverable segsz rd pre suf x t d := by
  have hrow : ∀ {a b}, a ∈ pre ++ suf → b ∈ pre ++ suf → a.row = b.row → a = b :=
    fun ha hb hr => Increasing.eq_of_key lsn hinc ha hb (congrArg (fun r => r.1.toNat) hr)
  cases suf with
  | nil =>
    refine Or.inl ⟨rfl, fun s hs => ?_⟩
    obtain ⟨h, hh, rfl⟩ := List.mem_map.mp (List.mem_toFinset.mp hs)
    obtain ⟨s, hlist, b, hb, -, hbr⟩ := hback.exists_read (List.mem_append_left _ hh)
    rw [List.foldl_nil] at hlist hb
    rw [hd.headers ht] at hb
    obtain ⟨hb, hbs⟩ := List.mem_filter.mp hb
    obtain rfl := hrow (List.mem_append_left _ hb) (List.mem_append_left _ hh) hbr
    rw [decide_eq_true_eq] at hbs
    exact hbs ▸ hlist
  | cons y more =>
    obtain rfl := Option.some.inj (hsuf.resolve_left (by simp))
    rw [List.tail_cons] at hother
    have hxpre : y ∉ pre := fun hm =>
      absurd ((List.pairwise_append.mp hinc).2.2 y hm y List.mem_cons_self) (Nat.lt_irrefl _)
    have hy : y ∈ pre ++ y :: more := by simp
    have hlate : t ≠ 0 → ReadsLate y t := by
      intro ht0
      obtain ⟨s, -, b, hb, hbv, hbr⟩ := hback.exists_read hy
      rcases hd.mem_headers_redo ht hother hxpre hb with ⟨hbm, -, hne⟩ | ⟨-, rfl⟩
      · exact absurd (hrow hbm hy hbr) (hne ht0)
      · have hyv := validFor_iff.mp (hvalid y hy)
        have hbv := validFor_iff.mp hbv
        exact readsLate_iff.mpr ⟨hbv.1.trans hyv.1.symm, hbv.2.trans hyv.2.symm, hbr⟩
    refine Or.inr ⟨by simp, ?_, ?_⟩
    · -- every record is read from its own file, and only 256 files are
      have hsub : segnos segsz (pre ++ y :: more) ⊆
          (((y :: more).foldl (redoDir segsz rd pid) d).listed rd).toFinset := by
        intro s hs
        obtain ⟨h, hh, rfl⟩ := List.mem_map.mp (List.mem_toFinset.mp hs)
        obtain ⟨s, hlist, b, hb, -, hbr⟩ := hback.exists_read hh
        rw [List.mem_toFinset]
        rcases hd.mem_headers_redo ht hother hxpre hb with ⟨hbm, hbs, -⟩ | ⟨hs, rfl⟩
        · obtain rfl := hrow hbm hh hbr
          exact hbs ▸ hlist
        · have hyr : (decode (lateRead y t)).row = y.row := by
            by_cases ht0 : t = 0
            · rw [ht0, decode_lateRead_zero]
            · exact (readsLate_iff.mp (hlate ht0)).2.2
          exact hrow hy hh (hyr.symm.trans hbr) ▸ hs ▸ hlist
      refine (Finset.card_le_card hsub).trans ((List.toFinset_card_le _).trans ?_)
      rw [Dir.listed, List.length_take]
      exact Nat.min_le_left _ _
    · by_cases ht0 : t = 0
      · exact Or.inl ht0
      · exact Or.inr ⟨hother, hlate ht0⟩

end

/-- **Recovery from a torn append.** `pre` are the records on disk, `x` the one
the crash cut off after `t` bytes, and redo is given records that go on with `x`.
The condition is enough for them to be read back, and necessary where at most one
of them goes behind the leftover. -/
theorem torn_append_recovery (segsz : WalSegSize) (rd : Readdir) (pid : Oid) (wal : List XLogRecord)
    (pw : Parwal) (pre : List PartWALHeader) (x : PartWALHeader) (t : Nat)
    (hdir : TornDir segsz pre x t (pw pid)) (ht : t < headerSize)
    (hsuf : redoHeaders pid wal = [] ∨ (redoHeaders pid wal).head? = some x)
    (hvalid : ∀ h ∈ pre ++ redoHeaders pid wal, h.validFor pid = true ∧ h.partitionLsn ≠ 0)
    (hinc : Increasing lsn (pre ++ redoHeaders pid wal))
    (horig : (pre ++ redoHeaders pid wal).Pairwise fun a b => a.origNodeLsn ≤ b.origNodeLsn) :
    (Recoverable segsz rd pre (redoHeaders pid wal) x t (pw pid) →
        ReadsBack rd pid (pre ++ redoHeaders pid wal) (redoAll segsz rd wal pw pid)) ∧
      ((∀ h ∈ (redoHeaders pid wal).tail, segnoOf segsz h ≠ segnoOf segsz x) →
        ReadsBack rd pid (pre ++ redoHeaders pid wal) (redoAll segsz rd wal pw pid) →
        Recoverable segsz rd pre (redoHeaders pid wal) x t (pw pid)) := by
  rw [redoAll_eq]
  refine ⟨fun hrec => ?_, fun hother hback => ?_⟩
  · exact readsBack_of_recoverable hdir ht hsuf hvalid hinc (horig.imp fun h => segnoOf_mono h) hrec
  · exact recoverable_of_readsBack _ hdir ht hsuf (fun h hh => (hvalid h hh).1) hinc hother hback

/-! ## A torn first record -/

/-- The first record of partition 7, in segment 1. -/
def tornRecord : PartWALHeader := buildHeader 7 1 (2 ^ 24) 1

/-- Its first `t` bytes on disk and nothing else. -/
def tornSample (t : Nat) : Parwal := fun _ => Dir.empty.append 1 (tornRecord.encode.take t)

theorem tornDir_sample (t : Nat) : TornDir .default [] tornRecord t (tornSample t 7) := by
  have hseg : segnoOf .default tornRecord = 1 := by decide
  refine ⟨fun s => ?_, by simp, ?_⟩
  · rw [tornSample, Dir.content_append, hseg]
    simp [inSegment]
  · rw [tornSample, Dir.names_append, hseg, Dir.names_empty, segnos_nil]

theorem redoHeaders_tornRecord : redoHeaders 7 [insertedRecord tornRecord] = [tornRecord] := by
  simp [redoHeaders, tornRecord, redoHeader_insertedRecord_build]

/-- With 24 of 32 bytes on disk it is recovered. -/
theorem torn_append_recovery_24 :
    ReadsBack .ascending 7 [tornRecord]
      (redoAll .default .ascending [insertedRecord tornRecord] (tornSample 24) 7) := by
  have h := torn_append_recovery .default .ascending 7 [insertedRecord tornRecord] (tornSample 24) []
    tornRecord 24 (tornDir_sample 24) (by decide) (Or.inr (by rw [redoHeaders_tornRecord]; rfl))
    (by rw [redoHeaders_tornRecord]; decide) (by rw [redoHeaders_tornRecord]; simp [Increasing])
    (by rw [redoHeaders_tornRecord]; simp)
  rw [redoHeaders_tornRecord] at h
  refine h.1 (Or.inr ⟨by simp, by decide, Or.inr ⟨by simp, ?_⟩⟩)
  exact readsLate_of_le tornRecord (Nat.le_refl 24)

/-- With 4 bytes on disk it is not: what follows the magic is the magic. -/
theorem torn_append_lost_4 :
    TornDir .default [] tornRecord 4 (tornSample 4 7) ∧
      ¬ ReadsBack .ascending 7 ([] ++ redoHeaders 7 [insertedRecord tornRecord])
        (redoAll .default .ascending [insertedRecord tornRecord] (tornSample 4) 7) := by
  refine ⟨tornDir_sample 4, fun hback => ?_⟩
  rw [redoAll_eq, redoHeaders_tornRecord] at hback
  have hrec := recoverable_of_readsBack [tornRecord] (tornDir_sample 4) (by decide) (Or.inr rfl) (by decide)
    (by simp [Increasing]) (by simp) hback
  rcases hrec with ⟨hnil, -⟩ | ⟨-, -, h0 | ⟨-, hlate⟩⟩
  · cases hnil
  · cases h0
  · exact absurd hlate (by decide)

end PartDist
