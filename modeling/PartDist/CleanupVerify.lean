import PartDist.Cleanup
import PartDist.LsnOrder
import PartDist.LastWritten
import PartDist.Readers

/-!
# Verification after garbage collection

`verify_partition_wal` expects the first record it reads to have `partition_lsn` 1, also
after `CleanupPartitionWAL` has removed the files in front of it.

* `verifyFile_gaps`: what a check makes of records of which some are missing.
* `AfterCleanup.run`: what the Demux appends goes behind what the call has left, except
  that a removed file it had open takes its records with it.
* `cleanup_verify_iff`: the check still succeeds if and only if none is missing in front
  of a record that is read.
-/

namespace PartDist

open Bytes PartWALHeader HighWater ExchangeSort

/-! ## Missing records -/

section
variable {pid : Oid} {hs l l' : List PartWALHeader} {e e' : UInt64}

theorem verifyFile_eq_some (h : verifyFile pid l e = some e') : e' = e + UInt64.ofNat l.length := by
  induction l generalizing e with
  | nil =>
    obtain rfl := Option.some.inj h
    exact (UInt64.add_zero e).symm
  | cons a l ih =>
    unfold verifyFile at h
    split at h
    · cases h
    · split at h
      · cases h
      · rw [ih h, List.length_cons, Nat.add_comm l.length 1, UInt64.ofNat_add, UInt64.add_assoc]
        rfl

/-- `l` passes from `e` on. -/
def Passes (pid : Oid) (l : List PartWALHeader) (e : UInt64) : Prop := (verifyFile pid l e).isSome = true

theorem passes_append :
    Passes pid (l ++ l') e ↔ Passes pid l e ∧ Passes pid l' (e + UInt64.ofNat l.length) := by
  unfold Passes
  rw [verifyFile_append]
  cases h : verifyFile pid l e with
  | none => simp
  | some e' =>
    rw [verifyFile_eq_some h]
    simp

/-- The first record has the number expected. -/
theorem Passes.head {a : PartWALHeader} (h : Passes pid (a :: l) e) : a.partitionLsn = e := by
  unfold Passes verifyFile at h
  split at h
  · cases h
  · split at h
    · cases h
    · next heq => exact not_not.mp heq

/-- What is not empty passes from one number only. -/
theorem Passes.unique (h : Passes pid l e) (hne : l ≠ []) : Passes pid l e' ↔ e' = e := by
  constructor
  · intro h'
    obtain ⟨a, l, rfl⟩ := List.exists_cons_of_ne_nil hne
    rw [← h.head, ← h'.head]
  · rintro rfl
    exact h

/-- Of records that pass from `f` on, file after file, each file lacks some in front: the
rest passes from `e` on if the numbers agree in each file that has any left. -/
theorem verifyFile_gaps {S : List Nat} {lost got : Nat → List PartWALHeader} {f e : UInt64}
    (hfull : Passes pid (S.flatMap fun s => lost s ++ got s) f) :
    Passes pid (S.flatMap got) e ↔
      ∀ pre t post, S = pre ++ t :: post → got t ≠ [] →
        f + UInt64.ofNat ((pre ++ [t]).flatMap lost).length = e := by
  induction S generalizing f e with
  | nil => exact ⟨fun _ pre t post h => absurd h (by simp), fun _ => rfl⟩
  | cons s S ih =>
    rw [List.flatMap_cons, List.append_assoc, passes_append, passes_append] at hfull
    obtain ⟨-, hgot, hrest⟩ := hfull
    have hhead : Passes pid (got s) e ↔ (got s ≠ [] → f + UInt64.ofNat (lost s).length = e) := by
      by_cases hne : got s = []
      · rw [hne]
        exact ⟨fun _ h => absurd rfl h, fun _ => rfl⟩
      · rw [hgot.unique hne]
        exact ⟨fun h _ => h.symm, fun h => (h hne).symm⟩
    have hshift : ∀ n : Nat, f + UInt64.ofNat (lost s).length + UInt64.ofNat (got s).length + UInt64.ofNat n =
        e + UInt64.ofNat (got s).length ↔ f + UInt64.ofNat ((lost s).length + n) = e := by
      intro n
      have hswap : f + UInt64.ofNat (lost s).length + UInt64.ofNat (got s).length + UInt64.ofNat n =
          f + UInt64.ofNat ((lost s).length + n) + UInt64.ofNat (got s).length := by
        rw [UInt64.ofNat_add, UInt64.add_assoc _ (UInt64.ofNat (got s).length), UInt64.add_comm (UInt64.ofNat _),
          ← UInt64.add_assoc, ← UInt64.add_assoc]
      rw [hswap, UInt64.add_left_inj]
    rw [List.flatMap_cons, passes_append, hhead, ih hrest]
    constructor
    · rintro ⟨hs, hS⟩ pre t post heq hne
      cases pre with
      | nil =>
        obtain ⟨rfl, rfl⟩ := List.cons.inj heq
        simpa using hs hne
      | cons s' pre =>
        obtain ⟨rfl, rfl⟩ := List.cons.inj heq
        rw [List.cons_append, List.flatMap_cons, List.length_append]
        exact (hshift _).mp (hS pre t post rfl hne)
    · intro h
      refine ⟨fun hne => ?_, fun pre t post heq hne => (hshift _).mpr ?_⟩
      · simpa using h [] s S rfl hne
      · have := h (s :: pre) t post (by rw [heq, List.cons_append]) hne
        rw [List.cons_append, List.flatMap_cons, List.length_append] at this
        exact this

end

/-! ## What the Demux appends afterwards -/

/-- Records that go on where the directory ends: numbered, in no lower segment than any
record before, behind whole records. -/
structure Dir.Continues (segsz : WalSegSize) (d : Dir) (hs : List PartWALHeader) : Prop where
  numbered : hs.map lsn = List.range' (d.records.card + 1) hs.length
  forward : hs.Pairwise fun a b => segnoOf segsz a ≤ segnoOf segsz b
  behind : ∀ h ∈ hs, ∀ s, d.headers s ≠ [] → s ≤ segnoOf segsz h
  aligned : ∀ h ∈ hs, headerSize ∣ (d.content (segnoOf segsz h)).length

/-- A writer that has met no failure, with a watermark of at most `n`. -/
structure Ready (n : Nat) (w : PartitionWALWriter) : Prop where
  settled : w.Settled
  unstalled : w.enospcStalled = false
  last : w.lastPartitionLsn.toNat ≤ n

/-- The file it has open is there and holds a record. -/
structure Attached (d : Dir) (w : PartitionWALWriter) : Prop where
  ready : Ready d.records.card w
  file : ∀ fd, w.fd = some fd → d.linked fd ∧ d.headers fd.segno ≠ []

/-- The segment the writer has open, if the call removes it. -/
def goneSegment (segsz : WalSegSize) (keepPtr : XLogRecPtr) (unlinkOk : Nat → Bool)
    (w : Option PartitionWALWriter) : Option Nat :=
  match w.bind PartitionWALWriter.fd with
  | some fd => if Expired segsz keepPtr unlinkOk fd.segno then some fd.segno else none
  | none => none

/-- The records that do not go to that segment. -/
def surviving (segsz : WalSegSize) (gone : Option Nat) (hs : List PartWALHeader) : List PartWALHeader :=
  hs.filter fun h => gone ≠ some (segnoOf segsz h)

/-- The share after a call that left `base`, once `acc` has been appended. -/
structure AfterCleanup (segsz : WalSegSize) (n : Nat) (base : Dir) (gone : Option Nat) (acc : List PartWALHeader)
    (v : Share) : Prop where
  grown : Dir.Grown segsz base (surviving segsz gone acc) v.2
  fresh : v.1 = none → acc = []
  ready : ∀ w, v.1 = some w → Ready (n + acc.length) w
  file : ∀ w fd, v.1 = some w → w.fd = some fd →
    (v.2.linked fd ∧ gone ≠ some fd.segno) ∨ (gone = some fd.segno ∧ fd.unlinks ≠ v.2.unlinks fd.segno)
  left : ∀ s, gone = some s →
    (∃ w fd, v.1 = some w ∧ w.fd = some fd ∧ fd.segno = s) ∨ ∃ a ∈ acc, s < segnoOf segsz a

section
variable {segsz : WalSegSize} {pid : Oid} {n : Nat} {base d : Dir} {gone : Option Nat} {acc hs : List PartWALHeader}
  {v : Share} {io : RecordIO} {h : PartWALHeader} {keepPtr : XLogRecPtr} {rd : Readdir} {unlinkOk : Nat → Bool}

theorem continues_of_names (hn : hs.map lsn = List.range' (d.records.card + 1) hs.length)
    (hf : hs.Pairwise fun a b => segnoOf segsz a ≤ segnoOf segsz b)
    (hb : ∀ h ∈ hs, ∀ s ∈ d.names, s ≤ segnoOf segsz h)
    (ha : ∀ h ∈ hs, headerSize ∣ (d.content (segnoOf segsz h)).length) : d.Continues segsz hs := by
  refine ⟨hn, hf, fun h hh s hne => hb h hh s ?_, ha⟩
  by_contra hs'
  exact hne (Dir.headers_of_notMem hs')

theorem surviving_append (hs hs' : List PartWALHeader) :
    surviving segsz gone (hs ++ hs') = surviving segsz gone hs ++ surviving segsz gone hs' :=
  List.filter_append ..

theorem surviving_singleton (h : PartWALHeader) :
    surviving segsz gone [h] = if gone = some (segnoOf segsz h) then [] else [h] := by
  by_cases hg : gone = some (segnoOf segsz h) <;> simp [surviving, hg]

/-- The writer that the next record is given to: the one there is, or a new one. -/
theorem AfterCleanup.writer (hv : AfterCleanup segsz n base gone acc v) (hio : io.Ok)
    (hscan : ∀ sc : ScanIO, sc.Ok → (getLastWrittenPartitionLSN sc pid base).toNat ≤ n) :
    ∃ w, writerFor io pid v = some w ∧ (v.1 = some w ∨ v.1 = none ∧ w.fd = none) ∧ Ready (n + acc.length) w := by
  obtain ⟨w, hw⟩ := writerFor_of_mkdir hio.mkdir pid v
  refine ⟨w, hw, ?_⟩
  cases hv1 : v.1 with
  | some w' =>
    rw [writerFor, hv1, Option.some_or] at hw
    obtain rfl := Option.some.inj hw
    exact ⟨Or.inl rfl, hv.ready w' hv1⟩
  | none =>
    obtain ⟨hfd, -, hstalled, hb⟩ := writerFor_fresh hv1 hw
    have hacc := hv.fresh hv1
    have hdir : v.2 = base := by
      have hg := hv.grown
      rw [hacc] at hg
      exact hg.eq_of_nil
    refine ⟨Or.inr ⟨rfl, hfd⟩, ⟨hb, fun fd h => ?_⟩, hstalled, ?_⟩
    · rw [hfd] at h
      cases h
    · rw [writerFor, hv1, Option.none_or, createPartitionWALWriter, if_pos hio.mkdir] at hw
      obtain rfl := Option.some.inj hw
      rw [hacc, hdir]
      exact hscan _ hio.creates

/-- A record is appended to the file under the name of its segment. -/
theorem AfterCleanup.append (hv : AfterCleanup segsz n base gone acc v) {w : PartitionWALWriter}
    (hready : Ready (n + (acc ++ [h]).length) w) {fd : Descriptor} (hfd : w.fd = some fd)
    (hseg : fd.segno = segnoOf segsz h) (hlinked : (v.2.append (segnoOf segsz h) h.encode).linked fd)
    (hne : gone ≠ some (segnoOf segsz h)) (hleft : ∀ s, gone = some s → ∃ a ∈ acc ++ [h], s < segnoOf segsz a) :
    AfterCleanup segsz n base gone (acc ++ [h]) (some w, v.2.append (segnoOf segsz h) h.encode) := by
  refine ⟨?_, fun hnone => (by cases hnone), ?_, ?_, fun s hs => Or.inr (hleft s hs)⟩
  · rw [surviving_append, surviving_singleton, if_neg hne]
    exact hv.grown.trans (Dir.grown_append _ h)
  · rintro w' ⟨⟩
    exact hready
  · rintro w' fd' ⟨⟩ hfd'
    obtain rfl := Option.some.inj (hfd.symm.trans hfd')
    exact Or.inl ⟨hlinked, hseg ▸ hne⟩

/-- Or it is written to the file that was removed while it was open. -/
theorem AfterCleanup.lost (hv : AfterCleanup segsz n base gone acc v) {w : PartitionWALWriter}
    (hready : Ready (n + (acc ++ [h]).length) w) {fd : Descriptor} (hfd : w.fd = some fd)
    (hseg : fd.segno = segnoOf segsz h) (hgone : gone = some fd.segno)
    (hstale : fd.unlinks ≠ v.2.unlinks fd.segno) :
    AfterCleanup segsz n base gone (acc ++ [h]) (some w, v.2) := by
  refine ⟨?_, fun hnone => (by cases hnone), ?_, ?_, fun s hs => Or.inl ⟨w, fd, rfl, hfd, ?_⟩⟩
  · rw [surviving_append, surviving_singleton, if_pos (hseg ▸ hgone), List.append_nil]
    exact hv.grown
  · rintro w' ⟨⟩
    exact hready
  · rintro w' fd' ⟨⟩ hfd'
    obtain rfl := Option.some.inj (hfd.symm.trans hfd')
    exact Or.inr ⟨hgone, hstale⟩
  · exact Option.some.inj (hgone.symm.trans hs)

/-- A segment other than the open one is not the one that is gone. -/
theorem AfterCleanup.behind (hv : AfterCleanup segsz n base gone acc v)
    (hforward : ∀ a ∈ acc, segnoOf segsz a ≤ segnoOf segsz h) (hgone : ∀ s, gone = some s → s ≤ segnoOf segsz h)
    (hother : ∀ w fd, v.1 = some w → w.fd = some fd → fd.segno ≠ segnoOf segsz h) :
    ∀ s, gone = some s → s < segnoOf segsz h := by
  intro s hs
  rcases hv.left s hs with ⟨w, fd, hw, hfd, rfl⟩ | ⟨a, ha, hlt⟩
  · exact Nat.lt_of_le_of_ne (hgone _ hs) (hother w fd hw hfd)
  · exact Nat.lt_of_lt_of_le hlt (hforward a ha)

/-- One more record is written: to its file, or to the one that was removed while open. -/
theorem AfterCleanup.route (hv : AfterCleanup segsz n base gone acc v) (hio : io.Ok)
    (hscan : ∀ sc : ScanIO, sc.Ok → (getLastWrittenPartitionLSN sc h.partitionId base).toNat ≤ n)
    (hlsn : h.lsn = n + acc.length + 1) (hforward : ∀ a ∈ acc, segnoOf segsz a ≤ segnoOf segsz h)
    (hgone : ∀ s, gone = some s → s ≤ segnoOf segsz h) :
    AfterCleanup segsz n base gone (acc ++ [h]) (routeShare segsz io h v) := by
  obtain ⟨w, hw, horigin, hset, hstalled, hlast⟩ := hv.writer hio hscan
  have habove : w.lastPartitionLsn < h.partitionLsn := by
    rw [UInt64.lt_iff_toNat_lt]
    show _ < h.lsn
    omega
  have hzero : h.partitionLsn = 1 → ¬ 0 < w.lastPartitionLsn := by
    intro h1 h0
    have hone : h.lsn = 1 := by rw [lsn, h1]; rfl
    have hpos := UInt64.lt_iff_toNat_lt.mp h0
    rw [UInt64.toNat_zero] at hpos
    omega
  have hreset : resetDetect io.resetScan h w v.2 = w := resetDetect_eq fun h1 h0 => absurd h0 (hzero h1)
  have hwrites := @writesRecord_above segsz io h w v.2 hset hstalled hio habove hzero
  rw [routeShare_eq hw]
  rcases @route_cases segsz io h w v.2 hset hio.flush with
    ⟨hfalse, -⟩ | ⟨-, hset', hstalled', hlast', fd, d', hfd, hseg, hopened, hdir⟩
  · rw [hwrites] at hfalse
    cases hfalse
  rw [hreset] at hopened
  -- the writer is as it should be wherever the record went
  have hready : Ready (n + (acc ++ [h]).length) (routeToWriter segsz io h w v.2).1 := by
    refine ⟨hset', hstalled', ?_⟩
    rw [hlast', List.length_append, List.length_singleton]
    show h.lsn ≤ _
    omega
  rcases hopened with ⟨hold, rfl⟩ | ⟨hother, rfl, rfl⟩
  · have hv1 : v.1 = some w := horigin.resolve_right fun hnone => by
      rw [hnone.2] at hold
      cases hold
    rcases hv.file w fd hv1 hold with ⟨hlinked, hne⟩ | ⟨hgone', hstale⟩
    · rw [Dir.write_of_linked hlinked, hseg] at hdir
      rw [hdir]
      refine hv.append hready hfd hseg (Dir.linked_append hlinked _ _) (hseg ▸ hne) fun s hs => ?_
      rcases hv.left s hs with ⟨w', fd', hw', hfd', rfl⟩ | ⟨a, ha, hlt⟩
      · obtain rfl := Option.some.inj (hv1.symm.trans hw')
        obtain rfl := Option.some.inj (hold.symm.trans hfd')
        exact absurd hs hne
      · exact ⟨a, List.mem_append_left _ ha, hlt⟩
    · -- the file is gone, and the record with it
      rw [Dir.write, if_neg hstale] at hdir
      rw [hdir]
      exact hv.lost hready hfd hseg hgone' hstale
  · have hbehind := hv.behind hforward hgone fun w' fd' hw' hfd' => by
      rcases horigin with hv1 | ⟨hnone, -⟩
      · obtain rfl := Option.some.inj (hv1.symm.trans hw')
        exact hother fd' hfd'
      · cases hnone.symm.trans hw'
    rw [Dir.write_of_linked (Dir.linked_openCreate _ _), hseg, Dir.openCreate_append] at hdir
    rw [hdir]
    refine hv.append hready hfd hseg ⟨rfl, ?_⟩ (fun hs => absurd (hbehind _ hs) (Nat.lt_irrefl _))
      fun s hs => ⟨h, by simp, hbehind s hs⟩
    rw [Dir.names_append]
    exact Finset.mem_insert_self _ _

theorem goneSegment_eq_some {w : Option PartitionWALWriter} {s : Nat} :
    goneSegment segsz keepPtr unlinkOk w = some s ↔
      ∃ w' fd, w = some w' ∧ w'.fd = some fd ∧ fd.segno = s ∧ Expired segsz keepPtr unlinkOk s := by
  constructor
  · intro hs
    unfold goneSegment at hs
    split at hs
    · next fd hfd =>
      split at hs
      · next hex =>
        obtain ⟨w', hw', hfd'⟩ := Option.bind_eq_some_iff.mp hfd
        obtain rfl := Option.some.inj hs
        exact ⟨w', fd, hw', hfd', rfl, hex⟩
      · cases hs
    · cases hs
  · rintro ⟨w', fd, rfl, hfd, rfl, hex⟩
    rw [goneSegment, Option.bind_some, hfd]
    exact if_pos hex

theorem AfterCleanup.start (segsz : WalSegSize) (keepPtr : XLogRecPtr) (rd : Readdir) (unlinkOk : Nat → Bool)
    {w : Option PartitionWALWriter} (hw : ∀ w', w = some w' → Attached d w') :
    AfterCleanup segsz d.records.card (cleanupPartitionWAL segsz keepPtr rd unlinkOk d)
      (goneSegment segsz keepPtr unlinkOk w) [] (w, cleanupPartitionWAL segsz keepPtr rd unlinkOk d) := by
  refine ⟨Dir.grown_refl _ _, fun _ => rfl, fun w' hw' => (hw w' hw').ready, fun w' fd hw' hfd => ?_, fun s hs => ?_⟩
  · obtain rfl : w = some w' := hw'
    have hlinked := ((hw w' rfl).file fd hfd).1
    by_cases hex : Expired segsz keepPtr unlinkOk fd.segno
    · refine Or.inr ⟨goneSegment_eq_some.mpr ⟨w', fd, rfl, hfd, rfl, hex⟩, ?_⟩
      rw [hlinked.1]
      exact Nat.ne_of_lt (unlinks_expired hlinked.2 hex)
    · refine Or.inl ⟨linked_cleanup hlinked hex, fun hgone => ?_⟩
      obtain ⟨-, -, -, -, -, hex'⟩ := goneSegment_eq_some.mp hgone
      exact hex hex'
  · obtain ⟨w', fd, hw', hfd, hseg, -⟩ := goneSegment_eq_some.mp hs
    exact Or.inl ⟨w', fd, hw', hfd, hseg⟩

theorem partHeaders_cons (pid : Oid) (e : LoopEvent) (es : List LoopEvent) :
    partHeaders pid (walOf (e :: es)) = partHeaders pid (walOf [e]) ++ partHeaders pid (walOf es) := by
  rw [← List.singleton_append, walOf_append, partHeaders_append]

/-- All that the Demux appends, as long as it goes on where the directory ends. -/
theorem AfterCleanup.run (hv : AfterCleanup segsz n base gone acc v)
    (hscan : ∀ sc : ScanIO, sc.Ok → (getLastWrittenPartitionLSN sc pid base).toNat ≤ n) {es : List LoopEvent}
    (hio : ∀ e ∈ es, e.Ok)
    (hnumbered : (acc ++ partHeaders pid (walOf es)).map lsn =
      List.range' (n + 1) (acc ++ partHeaders pid (walOf es)).length)
    (hforward : (acc ++ partHeaders pid (walOf es)).Pairwise fun a b => segnoOf segsz a ≤ segnoOf segsz b)
    (hgone : ∀ s, gone = some s → ∀ h ∈ partHeaders pid (walOf es), s ≤ segnoOf segsz h) :
    AfterCleanup segsz n base gone (acc ++ partHeaders pid (walOf es)) (es.foldl (shareStep segsz pid) v) := by
  induction es generalizing acc v with
  | nil =>
    rw [show partHeaders pid (walOf []) = [] from rfl, List.append_nil]
    exact hv
  | cons e es ih =>
    rw [partHeaders_cons] at hnumbered hforward hgone ⊢
    have hio' := fun e' he' => hio e' (List.mem_cons_of_mem e he')
    have hskip : shareStep segsz pid v e = v → partHeaders pid (walOf [e]) = [] →
        AfterCleanup segsz n base gone (acc ++ (partHeaders pid (walOf [e]) ++ partHeaders pid (walOf es)))
          ((e :: es).foldl (shareStep segsz pid) v) := by
      intro hsame hnone
      rw [hnone, List.nil_append] at hnumbered hforward hgone ⊢
      rw [List.foldl_cons, hsame]
      exact ih hv hio' hnumbered hforward hgone
    cases e with
    | caughtUp io =>
      exact hskip (flushShare_of_nil (fun w hw => (hv.ready w hw).settled.buffer) _) (partHeaders_caughtUp pid io)
    | record r io =>
      rw [partHeaders_record] at hnumbered hforward hgone hskip ⊢
      cases hr : r.dataHeader with
      | none =>
        rw [hr] at hskip
        exact hskip (by simp only [shareStep, hr]) rfl
      | some h =>
        rw [hr, Option.toList_some] at hnumbered hforward hgone hskip
        by_cases hp : h.partitionId = pid
        · subst hp
          rw [List.filter_cons_of_pos (by simp), List.filter_nil] at hnumbered hforward hgone hskip
          rw [Option.toList_some, List.filter_cons_of_pos (by simp), List.filter_nil, ← List.append_assoc,
            List.foldl_cons]
          rw [← List.append_assoc] at hnumbered hforward
          have hlsn : h.lsn = n + acc.length + 1 := by
            have hget := congrArg (fun l : List Nat => l[acc.length]?) hnumbered
            rw [List.map_append, List.map_append, List.append_assoc, List.getElem?_append_right (by simp),
              List.getElem?_range' (by simp)] at hget
            simp at hget
            omega
          have hstep := hv.route (hio _ List.mem_cons_self) hscan hlsn
            (fun a ha => (List.pairwise_append.mp (List.pairwise_append.mp hforward).1).2.2 a ha h
              List.mem_cons_self)
            (fun s hs => hgone s hs h (List.mem_append_left _ List.mem_cons_self))
          have hshare : shareStep segsz h.partitionId v (.record r io) = routeShare segsz io h v := by
            simp only [shareStep, hr, if_true]
          rw [hshare]
          exact ih hstep hio' hnumbered hforward fun s hs a ha => hgone s hs a (List.mem_append_right _ ha)
        · rw [List.filter_cons_of_neg (by simpa using hp), List.filter_nil] at hskip
          rw [Option.toList_some, List.filter_cons_of_neg (by simpa using hp), List.filter_nil]
          exact hskip (by simp only [shareStep, hr, if_neg hp]) rfl

/-! ## What the check reads -/

theorem inSegment_surviving (s : Nat) :
    inSegment segsz s (surviving segsz gone hs) = if gone = some s then [] else inSegment segsz s hs := by
  rw [inSegment, surviving, List.filter_filter]
  split
  · next hg =>
    refine List.filter_eq_nil_iff.mpr fun h _ => ?_
    simp only [Bool.and_eq_true, decide_eq_true_eq, not_and]
    rintro rfl hne
    exact hne hg
  · next hg =>
    refine List.filter_congr fun h _ => ?_
    by_cases hs : segnoOf segsz h = s
    · subst hs
      simp [hg]
    · simp [hs]

/-- The records of file `s` that a check of the names `seen` does not get: those in front
of what has been appended if the file was removed, all of them if it is not read. -/
def lostRecords (segsz : WalSegSize) (keepPtr : XLogRecPtr) (unlinkOk : Nat → Bool) (d : Dir)
    (hs : List PartWALHeader) (seen : List Nat) (s : Nat) : List PartWALHeader :=
  if s ∈ seen then if Expired segsz keepPtr unlinkOk s then d.headers s else []
  else d.headers s ++ inSegment segsz s hs

/-- The names a check takes, in the order of `rd`: of the files that a call leaves and those of
the records appended behind it the first 256. -/
def namesSeen (segsz : WalSegSize) (keepPtr : XLogRecPtr) (unlinkOk : Nat → Bool) (gone : Option Nat) (d : Dir)
    (hs : List PartWALHeader) (rd : Readdir) : List Nat :=
  (rd.order (d.names.filter (fun s => ¬ Expired segsz keepPtr unlinkOk s) ∪
    segnos segsz (surviving segsz gone hs))).take maxScanFiles

/-- What will be in file `s`. -/
def headersLeft (segsz : WalSegSize) (keepPtr : XLogRecPtr) (unlinkOk : Nat → Bool) (gone : Option Nat) (d : Dir)
    (hs : List PartWALHeader) (s : Nat) : List PartWALHeader :=
  (if Expired segsz keepPtr unlinkOk s then [] else d.headers s) ++ inSegment segsz s (surviving segsz gone hs)

/-- No record, up to a multiple of 2^64, is missing in front of one that the check reads. -/
def NoneMissing (segsz : WalSegSize) (keepPtr : XLogRecPtr) (unlinkOk : Nat → Bool) (gone : Option Nat) (d : Dir)
    (hs : List PartWALHeader) (rd : Readdir) : Prop :=
  ∀ t ∈ namesSeen segsz keepPtr unlinkOk gone d hs rd, headersLeft segsz keepPtr unlinkOk gone d hs t ≠ [] →
    UInt64.ofNat (((d.names ∪ segnos segsz hs).filter (· ≤ t)).sum fun s =>
      (lostRecords segsz keepPtr unlinkOk d hs (namesSeen segsz keepPtr unlinkOk gone d hs rd) s).length) = 0

instance : Decidable (NoneMissing segsz keepPtr unlinkOk gone d hs rd) :=
  inferInstanceAs (Decidable (∀ t ∈ namesSeen segsz keepPtr unlinkOk gone d hs rd, _ → _))

theorem listed_after (rd' : Readdir)
    (hv : AfterCleanup segsz n (cleanupPartitionWAL segsz keepPtr rd unlinkOk d) gone hs v) :
    v.2.listed rd' = namesSeen segsz keepPtr unlinkOk gone d hs rd' := by
  rw [Dir.listed, hv.grown.names, namesSeen]
  congr 2
  ext s
  rw [Finset.mem_union, Finset.mem_union, mem_names_cleanup, Finset.mem_filter]

/-- A call leaves a file as it is or removes it; records go behind what is left. -/
theorem headers_after (hv : AfterCleanup segsz n (cleanupPartitionWAL segsz keepPtr rd unlinkOk d) gone hs v)
    (haligned : ∀ h ∈ hs, headerSize ∣ (d.content (segnoOf segsz h)).length) (s : Nat) :
    v.2.headers s = headersLeft segsz keepPtr unlinkOk gone d hs s := by
  have hbase : (cleanupPartitionWAL segsz keepPtr rd unlinkOk d).headers s =
      if Expired segsz keepPtr unlinkOk s then [] else d.headers s := by
    rw [Dir.headers]
    split
    · next hex => rw [content_expired hex, readHeaders_nil]
    · next hex => rw [content_cleanup hex, Dir.headers]
  rw [headersLeft, ← hbase, Dir.headers, hv.grown.content]
  by_cases hnil : inSegment segsz s (surviving segsz gone hs) = []
  · rw [hnil, encodeAll_nil, List.append_nil, List.append_nil, Dir.headers]
  · obtain ⟨h, hh⟩ := List.exists_mem_of_ne_nil _ hnil
    obtain ⟨hh, hs⟩ := List.mem_filter.mp hh
    have hdvd : headerSize ∣ ((cleanupPartitionWAL segsz keepPtr rd unlinkOk d).content s).length := by
      by_cases hex : Expired segsz keepPtr unlinkOk s
      · rw [content_expired hex]
        exact Nat.dvd_zero _
      · rw [content_cleanup hex, ← of_decide_eq_true hs]
        exact haligned h (List.mem_of_mem_filter hh)
    rw [readHeaders_append hdvd, readHeaders_encodeAll, Dir.headers]

/-- What it gets of the file. -/
def gotRecords (d : Dir) (seen : List Nat) (s : Nat) : List PartWALHeader :=
  if s ∈ seen then d.headers s else []

theorem lost_append_got {w : Option PartitionWALWriter} (rd' : Readdir)
    (hv : AfterCleanup segsz n (cleanupPartitionWAL segsz keepPtr rd unlinkOk d)
      (goneSegment segsz keepPtr unlinkOk w) hs v)
    (haligned : ∀ h ∈ hs, headerSize ∣ (d.content (segnoOf segsz h)).length) (s : Nat) :
    lostRecords segsz keepPtr unlinkOk d hs (v.2.listed rd') s ++ gotRecords v.2 (v.2.listed rd') s =
      d.headers s ++ inSegment segsz s hs := by
  unfold lostRecords gotRecords
  by_cases hseen : s ∈ v.2.listed rd'
  · rw [if_pos hseen, if_pos hseen, headers_after hv haligned, headersLeft, inSegment_surviving]
    by_cases hex : Expired segsz keepPtr unlinkOk s
    · have hmem := Dir.mem_names_of_listed hseen
      rw [hv.grown.names, Finset.mem_union, mem_names_cleanup, mem_segnos, inSegment_surviving] at hmem
      have hkept := hmem.resolve_left fun h => h.2 hex
      have hne : goneSegment segsz keepPtr unlinkOk w ≠ some s := fun hg => by
        rw [if_pos hg] at hkept
        exact hkept rfl
      rw [if_pos hex, if_pos hex, if_neg hne, List.nil_append]
    · have hne : goneSegment segsz keepPtr unlinkOk w ≠ some s := fun hg => by
        obtain ⟨-, -, -, -, -, hex'⟩ := goneSegment_eq_some.mp hg
        exact hex hex'
      rw [if_neg hex, if_neg hex, if_neg hne, List.nil_append]
  · rw [if_neg hseen, if_neg hseen, List.append_nil]

/-- A list of names in ascending order is the part of a longer one that it has. -/
theorem sorted_eq_filter {S T : List Nat} (hS : S.Pairwise (· < ·)) (hT : T.Pairwise (· < ·))
    (hsub : ∀ s ∈ T, s ∈ S) : T = S.filter (fun s => decide (s ∈ T)) := by
  have hperm : T.Perm (S.filter fun s => decide (s ∈ T)) := by
    refine (List.perm_ext_iff_of_nodup (hT.imp Nat.ne_of_lt) ((hS.imp Nat.ne_of_lt).filter _)).mpr fun s => ?_
    rw [List.mem_filter, decide_eq_true_eq]
    exact ⟨fun h => ⟨hsub s h, h⟩, fun h => h.2⟩
  exact hperm.eq_of_pairwise (fun a b _ _ h h' => absurd (Nat.lt_trans h h') (Nat.lt_irrefl _)) hT (hS.filter _)

theorem filter_le_of_split {S pre post : List Nat} {t : Nat} (hS : S.Pairwise (· < ·))
    (heq : S = pre ++ t :: post) : S.filter (fun s => decide (s ≤ t)) = pre ++ [t] := by
  subst heq
  obtain ⟨-, hpost, hpre⟩ := List.pairwise_append.mp hS
  have hpre' : pre.filter (fun s => decide (s ≤ t)) = pre :=
    List.filter_eq_self.mpr fun s hs => decide_eq_true (Nat.le_of_lt (hpre s hs t List.mem_cons_self))
  have hpost' : post.filter (fun s => decide (s ≤ t)) = [] :=
    List.filter_eq_nil_iff.mpr fun s hs => by
      simpa using (List.pairwise_cons.mp hpost).1 s hs
  rw [List.filter_append, List.filter_cons_of_pos (by simp), hpre', hpost']

/-- The check reads the names it collects in ascending order, whatever else there is. -/
theorem inOrder_eq {S : List Nat} (rd : Readdir) (hS : S.Pairwise (· < ·)) (hsub : ∀ s ∈ d.listed rd, s ∈ S) :
    d.inOrder rd = S.flatMap (gotRecords d (d.listed rd)) := by
  have hsorted := sorted_ascending (d.nodup_listed rd)
  have hfilter := sorted_eq_filter hS hsorted fun s hs => hsub s ((mem_exchangeSort _).mp hs)
  have hgot : ∀ s ∈ d.listed rd, d.headers s = gotRecords d (d.listed rd) s := fun s hs => by
    rw [gotRecords, if_pos hs]
  rw [Dir.inOrder]
  conv_lhs => rw [hfilter]
  rw [← Buckets.flatMap_filter_of_nil (A := gotRecords d (d.listed rd)) fun s _ hs => ?_]
  · refine List.flatMap_congr fun s hs => hgot s ?_
    have := (List.mem_filter.mp hs).2
    rw [decide_eq_true_eq, mem_exchangeSort] at this
    exact this
  · rw [decide_eq_false_iff_not, mem_exchangeSort] at hs
    rw [gotRecords]
    exact if_neg hs

/-- What passes from 1 on has no LSN above its length. -/
theorem Passes.lsn_le {l : List PartWALHeader} {e : UInt64} (h : Passes pid l e) :
    ∀ a ∈ l, a.lsn < e.toNat + l.length := by
  induction l generalizing e with
  | nil => exact fun a ha => absurd ha List.not_mem_nil
  | cons b l ih =>
    have hrest : Passes pid l (e + 1) := (passes_append.mp (show Passes pid ([b] ++ l) e from h)).2
    intro a ha
    rw [List.length_cons]
    rcases List.mem_cons.mp ha with rfl | ha
    · rw [lsn, h.head]
      omega
    · have hlt := ih hrest a ha
      have hle : (e + 1).toNat ≤ e.toNat + 1 := by
        rw [UInt64.toNat_add]
        exact Nat.mod_le _ _
      omega

theorem scan_le (hle : ∀ s, ∀ a ∈ d.headers s, a.validFor pid → a.lsn ≤ n) {sc : ScanIO} (hsc : sc.Ok) :
    (getLastWrittenPartitionLSN sc pid d).toNat ≤ n := by
  rw [hsc.eq]
  rcases getLast_cases sc.readdir pid d with ⟨-, hzero⟩ | ⟨s, -, h0, -, heq⟩
  · rw [hzero]
    exact Nat.zero_le _
  · obtain ⟨a, ha, hv, hlsn⟩ := fileLsn_mem h0
    rw [heq, hlsn]
    exact hle s a ha hv

/-- The directory without the call, and the records behind it, pass as a whole. -/
theorem passes_continued {rd : Readdir} {S : List Nat} (hS : S.Pairwise (· < ·))
    (hsub : ∀ s, s ∈ S ↔ s ∈ d.names ∪ segnos segsz hs) (hfew : d.names.card ≤ maxScanFiles)
    (hver : verifyPartitionWAL rd pid d = true) (hvalid : ∀ h ∈ hs, h.validFor pid) (hc : d.Continues segsz hs) :
    Passes pid (S.flatMap fun s => d.headers s ++ inSegment segsz s hs) 1 := by
  have hsplit : (S.flatMap fun s => d.headers s ++ inSegment segsz s hs) = d.inOrder rd ++ hs := by
    rw [Buckets.flatMap_append_of_pairwise]
    · congr 1
      · rw [inOrder_eq rd hS fun s hs' => (hsub s).mpr (Finset.mem_union_left _ (Dir.mem_names_of_listed hs'))]
        refine List.flatMap_congr fun s _ => ?_
        rw [gotRecords]
        split
        · rfl
        · next hs' => exact Dir.headers_of_notMem fun hmem => hs' ((Dir.mem_listed hfew).mpr hmem)
      · refine Buckets.gather_of_sorted hS (fun a ha => (hsub _).mpr (Finset.mem_union_right _ ?_)) hc.forward
        exact List.mem_toFinset.mpr (List.mem_map_of_mem ha)
    · refine hS.imp fun {s t} hlt => ?_
      by_cases hnil : inSegment segsz s hs = []
      · exact Or.inl hnil
      · obtain ⟨h, hh⟩ := List.exists_mem_of_ne_nil _ hnil
        obtain ⟨hh, hseg⟩ := List.mem_filter.mp hh
        right
        by_contra hne
        have := hc.behind h hh t hne
        rw [of_decide_eq_true hseg] at this
        omega
  have hlen : (d.inOrder rd).length = d.records.card := by
    rw [← inOrder_records rd hfew, Multiset.coe_card]
  rw [hsplit, passes_append, hlen]
  refine ⟨by rw [Passes, ← verify_inOrder]; exact hver, ?_⟩
  have hstart : 1 + UInt64.ofNat d.records.card = UInt64.ofNat (d.records.card + 1) := by
    rw [UInt64.ofNat_add, UInt64.add_comm]
    rfl
  rw [Passes, hstart]
  by_cases hnil : hs = []
  · rw [hnil]
    rfl
  · refine (verifyFile_isSome hvalid ?_).mpr hc.numbered
    -- the last LSN is a 64-bit number
    have hmem : d.records.card + hs.length ∈ hs.map lsn := by
      have := List.length_pos_of_ne_nil hnil
      rw [hc.numbered, List.mem_range'_1]
      omega
    obtain ⟨b, -, hb⟩ := List.mem_map.mp hmem
    have hlt : b.lsn < 2 ^ 64 := b.partitionLsn.toNat_lt
    omega

/-- Where `lost` are missing from the files `S`, no number is skipped in front of a file that
has any left. -/
theorem gaps_iff {S : List Nat} (hS : S.Pairwise (· < ·)) {names : Finset Nat} (hsub : ∀ s, s ∈ S ↔ s ∈ names)
    {lost : Nat → List PartWALHeader} {seen : List Nat} (hseen : ∀ s ∈ seen, s ∈ names) :
    (∀ pre t post, S = pre ++ t :: post → gotRecords d seen t ≠ [] →
        1 + UInt64.ofNat ((pre ++ [t]).flatMap lost).length = 1) ↔
      ∀ t ∈ seen, d.headers t ≠ [] →
        UInt64.ofNat ((names.filter (· ≤ t)).sum fun s => (lost s).length) = 0 := by
  have hcount : ∀ pre t post, S = pre ++ t :: post →
      ((pre ++ [t]).flatMap lost).length = (names.filter (· ≤ t)).sum fun s => (lost s).length := by
    intro pre t post heq
    have hcut := filter_le_of_split hS heq
    have hset : (S.filter fun s => decide (s ≤ t)).toFinset = names.filter (· ≤ t) := by
      ext s
      rw [List.mem_toFinset, List.mem_filter, Finset.mem_filter, hsub, decide_eq_true_eq]
    rw [← hcut, List.length_flatMap, ← List.sum_toFinset _ ((hS.imp Nat.ne_of_lt).filter _), hset]
  have hone : ∀ x : UInt64, 1 + x = 1 ↔ x = 0 := fun x => by
    rw [UInt64.add_comm]
    exact UInt64.add_eq_right
  constructor
  · intro h t ht hne
    obtain ⟨pre, post, heq⟩ := List.append_of_mem ((hsub t).mpr (hseen t ht))
    rw [← hcount pre t post heq]
    refine (hone _).mp (h pre t post heq ?_)
    rw [gotRecords, if_pos ht]
    exact hne
  · intro h pre t post heq hne
    rw [hcount pre t post heq, hone]
    unfold gotRecords at hne
    split at hne
    · next ht => exact h t ht hne
    · exact absurd rfl hne

/-- The check on what a call and the records appended after it leave. -/
theorem verify_after {w : Option PartitionWALWriter} {rd₀ : Readdir} (rd' : Readdir)
    (hv : AfterCleanup segsz d.records.card (cleanupPartitionWAL segsz keepPtr rd unlinkOk d)
      (goneSegment segsz keepPtr unlinkOk w) hs v)
    (hfew : d.names.card ≤ maxScanFiles) (hver : verifyPartitionWAL rd₀ pid d = true)
    (hvalid : ∀ h ∈ hs, h.validFor pid) (hc : d.Continues segsz hs) :
    verifyPartitionWAL rd' pid v.2 = true ↔
      NoneMissing segsz keepPtr unlinkOk (goneSegment segsz keepPtr unlinkOk w) d hs rd' := by
  simp only [NoneMissing, ← listed_after rd' hv, ← headers_after hv hc.aligned]
  have hS := sorted_ascending (Readdir.ascending.nodup (d.names ∪ segnos segsz hs))
  have hsub : ∀ s, s ∈ exchangeSort (fun t s => decide (t < s)) (Readdir.ascending.order (d.names ∪ segnos segsz hs)) ↔
      s ∈ d.names ∪ segnos segsz hs := fun s => by rw [mem_exchangeSort, Readdir.ascending.mem_order]
  have hseen : ∀ s ∈ v.2.listed rd', s ∈ d.names ∪ segnos segsz hs := by
    intro s hs'
    have hmem := Dir.mem_names_of_listed hs'
    rw [hv.grown.names, Finset.mem_union, mem_names_cleanup, mem_segnos, inSegment_surviving] at hmem
    rw [Finset.mem_union, mem_segnos]
    refine hmem.imp (fun h => h.1) fun h => ?_
    split at h
    · exact absurd rfl h
    · exact h
  generalize exchangeSort (fun t s => decide (t < s)) (Readdir.ascending.order (d.names ∪ segnos segsz hs)) = S at *
  have hfull := passes_continued hS hsub hfew hver hvalid hc
  rw [← List.flatMap_congr fun s _ => lost_append_got rd' hv hc.aligned s] at hfull
  have hread := inOrder_eq rd' hS fun s hs' => (hsub s).mpr (hseen s hs')
  rw [verify_inOrder, hread]
  exact (verifyFile_gaps hfull).trans (gaps_iff hS hsub hseen)

end

/-- **Verifying what is left.** After `CleanupPartitionWAL` on a directory that verifies,
and any records appended in order, `verify_partition_wal` still returns true if and only if
no record (up to a multiple of 2^64 of them) is missing in front of one that it reads: in a
file that was removed, or in one that `readdir` lists behind the first 256. -/
theorem cleanup_verify_iff (segsz : WalSegSize) (pid : Oid) (dm : Demux) (hfits : dm.Fits)
    (hwriter : ∀ w, (dm.share pid).1 = some w → Attached (dm.parwal pid) w)
    (hfew : (dm.parwal pid).names.card ≤ maxScanFiles) (rd rd' rd'' : Readdir)
    (hver : verifyPartitionWAL rd pid (dm.parwal pid) = true) (keepPtr : XLogRecPtr) (unlinkOk : Nat → Bool)
    (es : List LoopEvent) (hio : ∀ e ∈ es, e.Ok)
    (hcont : (dm.parwal pid).Continues segsz (partHeaders pid (walOf es)))
    (hroom : Run.Along (demuxStep segsz) Demux.HasRoom (dm.cleanup segsz keepPtr rd' unlinkOk pid) es) :
    verifyPartitionWAL rd'' pid ((demuxRun segsz (dm.cleanup segsz keepPtr rd' unlinkOk pid) es).parwal pid) = true ↔
      NoneMissing segsz keepPtr unlinkOk (goneSegment segsz keepPtr unlinkOk (dm.share pid).1) (dm.parwal pid)
        (partHeaders pid (walOf es)) rd'' := by
  have hshare : (dm.cleanup segsz keepPtr rd' unlinkOk pid).share pid =
      ((dm.share pid).1, cleanupPartitionWAL segsz keepPtr rd' unlinkOk (dm.parwal pid)) := by
    simp only [Demux.cleanup, Demux.share, Function.update_self]
  have hrun := (@share_run segsz (dm.cleanup segsz keepPtr rd' unlinkOk pid) es ⟨hfits.nodup, hfits.le⟩ hroom).1 pid
  rw [hshare] at hrun
  have hclean : ∀ sc : ScanIO, sc.Ok → (getLastWrittenPartitionLSN sc pid
      (cleanupPartitionWAL segsz keepPtr rd' unlinkOk (dm.parwal pid))).toNat ≤ (dm.parwal pid).records.card := by
    intro sc hsc
    refine scan_le (fun s a ha _ => ?_) hsc
    have hmem : a ∈ (dm.parwal pid).inOrder rd := by
      have hold : a ∈ (dm.parwal pid).headers s := by
        by_cases hex : Expired segsz keepPtr unlinkOk s
        · rw [Dir.headers, content_expired hex] at ha
          cases ha
        · rw [Dir.headers, content_cleanup hex] at ha
          exact ha
      rw [← Multiset.mem_coe, inOrder_records rd hfew]
      exact mem_records.mpr ⟨s, hold⟩
    have hlt := Passes.lsn_le (show Passes pid ((dm.parwal pid).inOrder rd) 1 by
      rw [Passes, ← verify_inOrder]
      exact hver) a hmem
    rw [← inOrder_records rd hfew, Multiset.coe_card]
    have hone : (1 : UInt64).toNat = 1 := rfl
    omega
  have hdone := (AfterCleanup.start segsz keepPtr rd' unlinkOk hwriter).run hclean hio
    hcont.numbered hcont.forward ?_
  · rw [List.nil_append, ← hrun] at hdone
    exact verify_after rd'' hdone hfew hver (fun h hh => partHeaders_of_mem hh) hcont
  · -- the file the writer had open holds a record
    intro s hs h hh
    obtain ⟨w, fd, hw, hfd, rfl, -⟩ := goneSegment_eq_some.mp hs
    exact hcont.behind h hh fd.segno ((hwriter w hw).file fd hfd).2

/-- Partition 7 with an empty segment file 1, and records 1 and 2 in segment 2. -/
def emptyFirst : Dir :=
  ((Dir.empty.openCreate 1).append 2 (buildHeader 7 1 (2 ^ 25) 1).encode).append 2
    (buildHeader 7 1 (2 ^ 25 + 64) 2).encode

/-- A third record for it, in segment 3. -/
def thirdRecord : List LoopEvent :=
  [.record (insertedRecord (buildHeader 7 1 (3 * 2 ^ 24) 3)) (.succeeding .ascending)]

/-- The file that is removed holds no record. -/
theorem cleanup_verify_iff_empty :
    verifyPartitionWAL Readdir.ascending 7
      ((demuxRun .default ((Demux.fresh fun _ => emptyFirst).cleanup .default (2 ^ 25) .ascending (fun _ => true) 7)
        thirdRecord).parwal 7) = true := by
  have hio : ∀ e ∈ thirdRecord, e.Ok := fun e he => by
    rw [thirdRecord, List.mem_singleton] at he
    subst he
    exact RecordIO.ok_succeeding _
  have hcont : emptyFirst.Continues .default (partHeaders 7 (walOf thirdRecord)) :=
    continues_of_names (by decide +kernel) (by decide +kernel) (by decide +kernel) (by decide +kernel)
  have hnone : ∀ w, ((Demux.fresh fun _ => emptyFirst).share 7).1 = some w → Attached emptyFirst w := by
    intro w hw
    cases hw
  have hfew : emptyFirst.names.card ≤ maxScanFiles := by decide +kernel
  have hver : verifyPartitionWAL Readdir.ascending 7 emptyFirst = true := by decide +kernel
  have hroom : Run.Along (demuxStep .default) Demux.HasRoom
      ((Demux.fresh fun _ => emptyFirst).cleanup .default (2 ^ 25) .ascending (fun _ => true) 7) thirdRecord := by
    decide +kernel
  have hiff := cleanup_verify_iff .default 7 (Demux.fresh fun _ => emptyFirst) (fits_fresh _) hnone hfew
    .ascending .ascending .ascending hver (2 ^ 25) (fun _ => true) thirdRecord hio hcont hroom
  refine hiff.mpr ?_
  decide +kernel

/-- Records 1 and 2 in segments 1 and 2: with the first file removed, the check stops at
record 2. -/
theorem removed_first_alarms :
    let d := (Dir.empty.append 1 (buildHeader 7 1 0 1).encode).append 2 (buildHeader 7 1 (2 ^ 25) 2).encode
    d.names.card ≤ maxScanFiles ∧ verifyPartitionWAL Readdir.ascending 7 d = true ∧
      verifyPartitionWAL Readdir.ascending 7
        (cleanupPartitionWAL .default (2 ^ 25) .ascending (fun _ => true) d) = false := by
  decide +kernel

end PartDist
