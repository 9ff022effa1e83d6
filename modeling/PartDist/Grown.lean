import PartDist.Scan
import Mathlib.Algebra.BigOperators.Group.Finset.Piecewise

/-!
# Directories grown by records

`Grown base acc d`: directory `d` is `base` with the records `acc` appended, each
to the file of its own segment.  Every way of writing to pg_parwal grows a
directory so.

* `Grown.records`: `d` stores what `base` stores and `acc`.
* `Grown.scan_cases`: the scan finds what it found in `base` or one of `acc`.
* `Grown.scan_last`, `Grown.scan_lt`: it finds the last of `acc` exactly when that
  one lies in the highest segment.
-/

namespace PartDist

open Bytes PartWALHeader

/-- The watermark after accepting `acc` from watermark `mark`. -/
def lastLsn (mark : UInt64) (acc : List PartWALHeader) : UInt64 :=
  match acc.getLast? with
  | none => mark
  | some h => h.partitionLsn

@[simp] theorem lastLsn_nil (mark : UInt64) : lastLsn mark [] = mark := rfl

@[simp] theorem lastLsn_append (mark : UInt64) (acc : List PartWALHeader) (h : PartWALHeader) :
    lastLsn mark (acc ++ [h]) = h.partitionLsn := by
  simp [lastLsn]

/-- The records that belong to segment `s`. -/
def inSegment (segsz : WalSegSize) (s : Nat) (acc : List PartWALHeader) : List PartWALHeader :=
  acc.filter fun h => segnoOf segsz h = s

theorem inSegment_append (segsz : WalSegSize) (s : Nat) (acc acc' : List PartWALHeader) :
    inSegment segsz s (acc ++ acc') = inSegment segsz s acc ++ inSegment segsz s acc' :=
  List.filter_append ..

theorem inSegment_singleton (segsz : WalSegSize) (s : Nat) (h : PartWALHeader) :
    inSegment segsz s [h] = if s = segnoOf segsz h then [h] else [] := by
  by_cases hs : s = segnoOf segsz h
  · subst hs; simp [inSegment]
  · simp [inSegment, hs, Ne.symm hs]

/-- The segments of the records `acc`. -/
def segnos (segsz : WalSegSize) (acc : List PartWALHeader) : Finset Nat :=
  (acc.map (segnoOf segsz)).toFinset

@[simp] theorem segnos_nil (segsz : WalSegSize) : segnos segsz [] = ∅ := rfl

theorem segnos_append (segsz : WalSegSize) (acc : List PartWALHeader) (h : PartWALHeader) :
    segnos segsz (acc ++ [h]) = insert (segnoOf segsz h) (segnos segsz acc) := by
  ext s
  simp [segnos]

theorem mem_segnos {segsz : WalSegSize} {s : Nat} {acc : List PartWALHeader} :
    s ∈ segnos segsz acc ↔ inSegment segsz s acc ≠ [] := by
  rw [segnos, List.mem_toFinset, List.mem_map]
  constructor
  · rintro ⟨a, ha, rfl⟩ hnil
    have : a ∈ inSegment segsz (segnoOf segsz a) acc := List.mem_filter.mpr ⟨ha, by simp⟩
    rw [hnil] at this
    cases this
  · intro hne
    obtain ⟨a, ha⟩ := List.exists_mem_of_ne_nil _ hne
    obtain ⟨ha, hs⟩ := List.mem_filter.mp ha
    exact ⟨a, ha, by simpa using hs⟩

theorem segnos_append_list (segsz : WalSegSize) (acc acc' : List PartWALHeader) :
    segnos segsz (acc ++ acc') = segnos segsz acc ∪ segnos segsz acc' := by
  simp [segnos]

namespace Dir

structure Grown (segsz : WalSegSize) (base : Dir) (acc : List PartWALHeader) (d : Dir) : Prop where
  content : ∀ s, d.content s = base.content s ++ encodeAll (inSegment segsz s acc)
  names : d.names = base.names ∪ segnos segsz acc
  unlinks : d.unlinks = base.unlinks

section
variable {segsz : WalSegSize} {pid : Oid} {base d d' : Dir} {acc acc' : List PartWALHeader}

theorem grown_refl (segsz : WalSegSize) (d : Dir) : Grown segsz d [] d :=
  ⟨fun s => by simp [inSegment], by simp, rfl⟩

theorem Grown.trans (h : Grown segsz base acc d) (h' : Grown segsz d acc' d') :
    Grown segsz base (acc ++ acc') d' := by
  refine ⟨fun s => ?_, ?_, h'.unlinks.trans h.unlinks⟩
  · rw [h'.content, h.content, inSegment_append, encodeAll_append, List.append_assoc]
  · rw [h'.names, h.names, segnos_append_list, Finset.union_assoc]

/-- `open` with `O_CREAT | O_APPEND` and one whole record written. -/
theorem grown_append (d : Dir) (h : PartWALHeader) :
    Grown segsz d [h] (d.append (segnoOf segsz h) h.encode) := by
  refine ⟨fun s => ?_, ?_, rfl⟩
  · rw [content_append, inSegment_singleton]
    split <;> simp
  · rw [names_append, ← List.nil_append [h], segnos_append, segnos_nil, Finset.union_insert,
      Finset.union_empty]

/-- What a directory grows to is determined. -/
theorem Grown.unique (h : Grown segsz base acc d) (h' : Grown segsz base acc d') : d = d' :=
  ext_content (h.names.trans h'.names.symm) (fun s => (h.content s).trans (h'.content s).symm)
    (h.unlinks.trans h'.unlinks.symm)

theorem Grown.eq_of_nil (h : Grown segsz base [] d) : d = base := h.unique (grown_refl segsz base)

/-- A directory that has not changed has taken no record. -/
theorem Grown.nil_of_eq (h : Grown segsz base acc base) : acc = [] := by
  apply List.eq_nil_iff_forall_not_mem.mpr
  intro a ha
  have hc := congrArg List.length (h.content (segnoOf segsz a))
  rw [List.length_append, length_encodeAll] at hc
  have hpos : 0 < (inSegment segsz (segnoOf segsz a) acc).length :=
    List.length_pos_of_mem (List.mem_filter.mpr ⟨ha, by simp⟩)
  have := headerSize_pos
  have := Nat.mul_pos headerSize_pos hpos
  omega

theorem Grown.headers (h : Grown segsz base acc d) (hb : base.Whole) (s : Nat) :
    d.headers s = base.headers s ++ inSegment segsz s acc := by
  rw [Dir.headers, h.content s, readHeaders_append (hb s), readHeaders_encodeAll]
  rfl

theorem Grown.whole (h : Grown segsz base acc d) (hb : base.Whole) : d.Whole := by
  intro s
  rw [h.content s, List.length_append]
  exact Nat.dvd_add (hb s) (dvd_length_encodeAll _)

theorem Grown.solid (hg : Grown segsz base acc d) (hb : base.Solid pid)
    (hacc : ∀ h ∈ acc, h.validFor pid ∧ h.partitionLsn ≠ 0) : d.Solid pid := by
  refine ⟨hg.whole hb.whole, fun s hs => ?_, fun s h hh => ?_⟩
  · rw [hg.headers hb.whole s]
    rw [hg.names, Finset.mem_union] at hs
    intro hnil
    obtain ⟨hbase, hseg⟩ := List.append_eq_nil_iff.mp hnil
    rcases hs with hs | hs
    · exact hb.nonempty s hs hbase
    · exact mem_segnos.mp hs hseg
  · rw [hg.headers hb.whole s, List.mem_append] at hh
    rcases hh with hh | hh
    · exact hb.valid s h hh
    · exact hacc h (List.mem_of_mem_filter hh)

/-- Summed over any set of segments that has them all, the records of each
segment are all the records. -/
theorem sum_inSegment {S : Finset Nat} (hS : segnos segsz acc ⊆ S) :
    (S.sum fun s => (inSegment segsz s acc : Multiset PartWALHeader)) = acc := by
  induction acc with
  | nil => exact Finset.sum_eq_zero fun s _ => rfl
  | cons a acc ih =>
    have hcons : ∀ s, (inSegment segsz s (a :: acc) : Multiset PartWALHeader) =
        (if s = segnoOf segsz a then {a} else 0) + (inSegment segsz s acc : Multiset PartWALHeader) := by
      intro s
      rw [show a :: acc = [a] ++ acc from rfl, inSegment_append, inSegment_singleton, ← Multiset.coe_add]
      split <;> rfl
    have ha : segnoOf segsz a ∈ S := hS (by simp [segnos])
    have hrest : segnos segsz acc ⊆ S := fun s hs => hS (by
      rw [segnos, List.map_cons, List.toFinset_cons]
      exact Finset.mem_insert_of_mem hs)
    rw [Finset.sum_congr rfl fun s _ => hcons s, Finset.sum_add_distrib, ih hrest,
      Finset.sum_ite_eq', if_pos ha, Multiset.singleton_add]
    rfl

theorem Grown.records (h : Grown segsz base acc d) (hb : base.Whole) :
    d.records = base.records + acc := by
  have hbase : base.records =
      (base.names ∪ segnos segsz acc).sum fun s => (base.headers s : Multiset PartWALHeader) := by
    apply Finset.sum_subset Finset.subset_union_left
    intro s _ hs
    rw [headers_of_notMem hs]
    rfl
  rw [hbase, Dir.records, h.names, Finset.sum_congr rfl fun s _ => by rw [h.headers hb s, ← Multiset.coe_add],
    Finset.sum_add_distrib, sum_inSegment Finset.subset_union_right]

/-! ## What the scan finds -/

theorem Grown.fileLsn_base (h : Grown segsz base acc d) (hb : base.Whole) {s : Nat}
    (h0 : fileLsn pid (d.content s) = 0) : fileLsn pid (base.content s) = 0 := by
  rw [fileLsn_eq_zero_iff] at h0 ⊢
  intro a ha
  apply h0
  have hh := h.headers hb s
  unfold Dir.headers at hh
  rw [hh]
  exact List.mem_append_left _ ha

/-- A file that has taken records shows the last of them. -/
theorem Grown.fileLsn_last (h : Grown segsz base acc d) (hb : base.Whole) {s : Nat}
    {l : List PartWALHeader} {a : PartWALHeader} (hs : inSegment segsz s acc = l ++ [a])
    (ha : a.validFor pid ∧ a.partitionLsn ≠ 0) : fileLsn pid (d.content s) = a.partitionLsn := by
  rw [h.content s, hs, encodeAll_append, encodeAll_singleton, ← List.append_assoc]
  apply fileLsn_append_encode _ ha.1 ha.2
  rw [List.length_append]
  exact Nat.dvd_add (hb s) (dvd_length_encodeAll _)

variable {rd : Readdir}

theorem Grown.scan_cases (rd : Readdir) (h : Grown segsz base acc d) (hb : base.Whole)
    (hacc : ∀ a ∈ acc, a.validFor pid ∧ a.partitionLsn ≠ 0) (hfiles : d.names.card ≤ maxScanFiles) :
    getLastWrittenPartitionLSN rd pid d = getLastWrittenPartitionLSN rd pid base ∨
      ∃ s l a, inSegment segsz s acc = l ++ [a] ∧ getLastWrittenPartitionLSN rd pid d = a.partitionLsn ∧
        ∀ t ∈ d.names, fileLsn pid (d.content t) ≠ 0 → t ≤ s := by
  have hsub : base.names ⊆ d.names := by rw [h.names]; exact Finset.subset_union_left
  have hbfiles : base.names.card ≤ maxScanFiles := (Finset.card_le_card hsub).trans hfiles
  rcases getLast_cases rd pid d with ⟨hall, hz⟩ | ⟨s, hs, h0, htop, he⟩
  · left
    rw [hz, getLast_eq_zero]
    intro s hs
    exact h.fileLsn_base hb (hall s ((mem_listed hfiles).mpr (hsub (mem_names_of_listed hs))))
  · rcases List.eq_nil_or_concat (inSegment segsz s acc) with hnil | ⟨l, a, hl⟩
    · left
      have hcont : d.content s = base.content s := by rw [h.content s, hnil]; simp
      rw [hcont] at h0 he
      have hsb : s ∈ base.names := by
        by_contra hn
        rw [content_of_notMem hn] at h0
        exact h0 (fileLsn_nil pid)
      rw [he, getLast_of_top ((mem_listed hbfiles).mpr hsb) h0]
      intro t ht hlt
      exact h.fileLsn_base hb (htop t ((mem_listed hfiles).mpr (hsub (mem_names_of_listed ht))) hlt)
    · right
      rw [List.concat_eq_append] at hl
      have ha : a ∈ acc := List.mem_of_mem_filter (p := fun h => decide (segnoOf segsz h = s)) (by
        show a ∈ inSegment segsz s acc
        rw [hl]; simp)
      refine ⟨s, l, a, hl, ?_, fun t ht h0 => ?_⟩
      · rw [he, h.fileLsn_last hb hl (hacc a ha)]
      · by_contra hlt
        exact h0 (htop t ((mem_listed hfiles).mpr ht) (by omega))

/-- The record `a` lies in the highest segment, among the records `acc` and the
files of `base` that show a `partition_lsn`. -/
def Newest (segsz : WalSegSize) (pid : Oid) (base : Dir) (acc : List PartWALHeader) (a : PartWALHeader) :
    Prop :=
  (∀ b ∈ acc, segnoOf segsz b ≤ segnoOf segsz a) ∧
    ∀ s, ∀ b ∈ base.headers s, b.validFor pid → b.partitionLsn ≠ 0 → s ≤ segnoOf segsz a

theorem Grown.scan_last (rd : Readdir) {a : PartWALHeader} (h : Grown segsz base (acc ++ [a]) d) (hb : base.Whole)
    (hacc : a.validFor pid ∧ a.partitionLsn ≠ 0) (hfiles : d.names.card ≤ maxScanFiles)
    (hn : Newest segsz pid base (acc ++ [a]) a) :
    getLastWrittenPartitionLSN rd pid d = a.partitionLsn := by
  have hseg : inSegment segsz (segnoOf segsz a) (acc ++ [a]) =
      inSegment segsz (segnoOf segsz a) acc ++ [a] := by
    rw [inSegment_append, inSegment_singleton, if_pos rfl]
  have hlast := h.fileLsn_last hb hseg hacc
  have hmem : segnoOf segsz a ∈ d.names := by
    rw [h.names, Finset.mem_union]
    right
    rw [mem_segnos, hseg]
    simp
  rw [getLast_of_top ((mem_listed hfiles).mpr hmem) (by rw [hlast]; exact hacc.2), hlast]
  intro t _ hlt
  have hnil : inSegment segsz t (acc ++ [a]) = [] := by
    apply List.eq_nil_iff_forall_not_mem.mpr
    intro b hbm
    obtain ⟨hbm, ht⟩ := List.mem_filter.mp hbm
    have := hn.1 b hbm
    have ht : segnoOf segsz b = t := by simpa using ht
    omega
  rw [h.content t, hnil, encodeAll_nil, List.append_nil, fileLsn_eq_zero_iff]
  intro b hbm hv
  by_contra h0
  have := hn.2 t b hbm hv h0
  omega

/-- Otherwise an older record hides it. -/
theorem Grown.scan_lt (rd : Readdir) {a : PartWALHeader} (h : Grown segsz base (acc ++ [a]) d) (hb : base.Whole)
    (hacc : ∀ b ∈ acc ++ [a], b.validFor pid ∧ b.partitionLsn ≠ 0)
    (hinc : ∀ b ∈ acc, b.partitionLsn < a.partitionLsn)
    (hbase : getLastWrittenPartitionLSN rd pid base < a.partitionLsn)
    (hfiles : d.names.card ≤ maxScanFiles) (hn : ¬ Newest segsz pid base (acc ++ [a]) a) :
    getLastWrittenPartitionLSN rd pid d < a.partitionLsn := by
  rcases h.scan_cases rd hb hacc hfiles with he | ⟨s, l, b, hs, he, htop⟩
  · rw [he]
    exact hbase
  · rw [he]
    have hbm : b ∈ inSegment segsz s (acc ++ [a]) := by rw [hs]; simp
    obtain ⟨hbm, hbs⟩ := List.mem_filter.mp hbm
    have hbs : segnoOf segsz b = s := by simpa using hbs
    rcases List.mem_append.mp hbm with hbm | hbm
    · exact hinc b hbm
    · obtain rfl := List.mem_singleton.mp hbm
      -- then `a` would be on top of everything
      refine absurd ⟨fun c hc => ?_, fun t c hc hv h0 => ?_⟩ hn
      · rw [hbs]
        have hcs : inSegment segsz (segnoOf segsz c) (acc ++ [b]) ≠ [] :=
          List.ne_nil_of_mem (List.mem_filter.mpr ⟨hc, by simp⟩)
        obtain ⟨l', c', hl⟩ := List.eq_nil_or_concat _ |>.resolve_left hcs
        rw [List.concat_eq_append] at hl
        have hc' : c' ∈ acc ++ [b] :=
          List.mem_of_mem_filter (p := fun h => decide (segnoOf segsz h = segnoOf segsz c)) (by
            show c' ∈ inSegment segsz _ _
            rw [hl]; simp)
        apply htop
        · rw [h.names, Finset.mem_union, mem_segnos]
          exact Or.inr hcs
        · rw [h.fileLsn_last hb hl (hacc c' hc')]
          exact (hacc c' hc').2
      · rw [hbs]
        have ht : t ∈ base.names := mem_names_of_headers hc
        apply htop
        · rw [h.names]
          exact Finset.mem_union_left _ ht
        · intro hz
          exact h0 (fileLsn_eq_zero_iff.mp (h.fileLsn_base hb hz) c hc hv)

end

end Dir

end PartDist
