import PartDist.Watched
import PartDist.LastWritten
import PartDist.Lib.SegmentLog

/-!
# The LSN scan beside the worker

`GetLastWrittenPartitionLSN`, one system call after the other, while the worker appends to
the files: between the call that finds how long a file is and the `read` of its last record
the file may grow, or be completed where it was torn.

* `LastScan.stands_tracks`: what the scan's calls and the worker's preserve.
* `last_written_beside_server`: the scan returns no less than the highest LSN there was
  when it listed the directory and no more than the highest there is now.
-/

namespace PartDist

open Bytes PartWALHeader ExchangeSort HighWater

/-! ## Algorithm -/

/-- Where the loop over the files stands: before the next `open`, before it asks for the
size, before it reads the last record, or in the fallback. -/
inductive ScanPhase
  | between
  | opened (s : Nat)
  | sized (s sz : Nat)
  | rescan (s off : Nat)
deriving DecidableEq

/-- `listed` is what was there when the names were taken. -/
structure LastScan where
  readdir : Readdir
  listed : Dir
  todo : List Nat
  phase : ScanPhase
  maxLsn : UInt64

namespace LastScan

/-- The files of the loop, in its order. -/
def files (rd : Readdir) (d : Dir) : List Nat := exchangeSort (fun t s => decide (s < t)) (d.listed rd)

def start (rd : Readdir) (d : Dir) : LastScan := ⟨rd, d, files rd d, .between, 0⟩

/-- The `partition_lsn` of the record at `off`, if it is a valid one. -/
def lsnAt (pid : Oid) (f : Bytes) (off : Nat) : UInt64 :=
  match readAt f off with
  | some h => if h.validFor pid then h.partitionLsn else 0
  | none => 0

def next (pid : Oid) (d : Dir) (sc : LastScan) : LastScan :=
  match sc.phase with
  | .between =>
    if sc.maxLsn = 0 then
      match sc.todo with
      | s :: todo => { sc with todo := todo, phase := .opened s }
      | [] => sc
    else sc
  | .opened s =>
    if (d.content s).length < headerSize then { sc with phase := .between }
    else { sc with phase := .sized s (d.content s).length }
  | .sized s sz =>
    let last := lsnAt pid (d.content s) (lastRecordOffset sz)
    { sc with maxLsn := last, phase := if last = 0 then .rescan s 0 else .between }
  | .rescan s off =>
    match readAt (d.content s) off with
    | some h =>
      { sc with
        maxLsn := if h.validFor pid && decide (sc.maxLsn < h.partitionLsn) then h.partitionLsn else sc.maxLsn
        phase := .rescan s (off + headerSize) }
    | none => { sc with phase := .between }

/-- It has returned `maxLsn`. -/
def Done (sc : LastScan) : Prop := sc.phase = .between ∧ (sc.maxLsn ≠ 0 ∨ sc.todo = [])

instance (sc : LastScan) : Decidable sc.Done := inferInstanceAs (Decidable (_ ∧ _))

end LastScan

def lastScanner (pid : Oid) : Scanner LastScan := ⟨LastScan.start, LastScan.next pid⟩

/-! ## One file -/

section
variable {pid : Oid} {f g : Bytes} {h : PartWALHeader} {off sz n : Nat}

/-- A `read` at the `n`-th record. -/
theorem readAt_eq (f : Bytes) (n : Nat) : readAt f (headerSize * n) = (readHeaders f)[n]? := by
  unfold readAt
  rw [readHeaders, List.getElem?_map]
  rcases SegmentLog.read_block headerSize_pos f n with ⟨hget, hlen⟩ | ⟨hget, hlen⟩
  · rw [if_pos hlen, hget]
    rfl
  · rw [if_neg hlen, hget]
    rfl

theorem readHeaders_mono (h : g <+: f) : readHeaders g <+: readHeaders f :=
  (SegmentLog.blocks_mono headerSize_pos h).map decode

/-- The last record of a file of `sz` bytes is the one behind which no whole one ends. -/
theorem lastRecordOffset_eq (hsz : headerSize ≤ sz) :
    ∃ n, lastRecordOffset sz = headerSize * n ∧ sz / headerSize ≤ n + 1 := by
  unfold lastRecordOffset
  split
  · next hmod =>
    simp only [headerSize] at *
    exact ⟨sz / 32 - 1, by omega, by omega⟩
  · next hmod =>
    simp only [headerSize] at *
    exact ⟨sz / 32, by omega, by omega⟩

theorem lsnAt_ne_zero (h0 : LastScan.lsnAt pid f off ≠ 0) :
    ∃ h, readAt f off = some h ∧ h.validFor pid = true ∧ LastScan.lsnAt pid f off = h.partitionLsn := by
  unfold LastScan.lsnAt at h0 ⊢
  cases hr : readAt f off with
  | none =>
    rw [hr] at h0
    exact absurd rfl h0
  | some h =>
    rw [hr] at h0
    by_cases hv : h.validFor pid = true
    · exact ⟨h, rfl, hv, if_pos hv⟩
    · exact absurd (if_neg hv) h0

/-- What was in the file when it had no more than `sz` bytes is not above the record it has
at that place now. -/
theorem le_lsnAt (hgf : g <+: f) (hlen : g.length ≤ sz) (hsz : headerSize ≤ sz)
    (h0 : LastScan.lsnAt pid f (lastRecordOffset sz) ≠ 0)
    (hinc : Increasing lsn ((readHeaders f).filter (validFor pid))) {a : PartWALHeader} (ha : a ∈ readHeaders g)
    (hv : a.validFor pid = true) : a.lsn ≤ (LastScan.lsnAt pid f (lastRecordOffset sz)).toNat := by
  obtain ⟨b, hb, hbv, he⟩ := lsnAt_ne_zero h0
  obtain ⟨n, hoff, hn⟩ := lastRecordOffset_eq hsz
  rw [he]
  rw [hoff, readAt_eq] at hb
  obtain ⟨hlt, hbn⟩ := List.getElem?_eq_some_iff.mp hb
  have hmem : a ∈ (readHeaders f).take n ++ [b] := by
    have hshort : (readHeaders g).length ≤ n + 1 := by
      rw [length_readHeaders]
      exact (Nat.div_le_div_right hlen).trans hn
    have hpre : readHeaders g <+: (readHeaders f).take (n + 1) :=
      List.prefix_take_iff.mpr ⟨readHeaders_mono hgf, hshort⟩
    rw [List.take_add_one, hb] at hpre
    exact hpre.subset ha
  rcases List.mem_append.mp hmem with ha | ha
  · have hsplit : readHeaders f = (readHeaders f).take n ++ b :: (readHeaders f).drop (n + 1) := by
      rw [← hbn, List.cons_getElem_drop_succ, List.take_append_drop]
    rw [hsplit, List.filter_append, List.filter_cons_of_pos hbv] at hinc
    exact Nat.le_of_lt ((List.pairwise_append.mp hinc).2.2 a (List.mem_filter.mpr ⟨ha, hv⟩) b List.mem_cons_self)
  · obtain rfl := List.mem_singleton.mp ha
    exact Nat.le_refl _

end

/-! ## The scan -/

theorem Dir.Ascending.of_grows {pid : Oid} {d d' : Dir} (h : d'.Ascending pid) (hd : Dir.Grows d d') :
    d.Ascending pid :=
  ⟨fun s => (h.within s).sublist ((readHeaders_mono (hd.content s trivial)).sublist.filter _),
    fun s t hst a ha b hb => h.across s t hst a ((readHeaders_mono (hd.content s trivial)).subset ha) b
      ((readHeaders_mono (hd.content t trivial)).subset hb)⟩

namespace LastScan

/-- `maxLsn` is that of a record of file `s`, or 0. -/
def Found (pid : Oid) (d : Dir) (s : Nat) (maxLsn : UInt64) : Prop :=
  maxLsn = 0 ∨ ∃ h ∈ d.headers s, h.validFor pid ∧ maxLsn = h.partitionLsn

/-- Where the scan stands in the directory `d`: the files `done` held no record when they
were listed; the last one looked at has given `maxLsn`. -/
inductive At (pid : Oid) (d : Dir) (sc : LastScan) : Prop
  | between (done : List Nat) (phase : sc.phase = .between) (max : sc.maxLsn = 0)
      (all : files sc.readdir sc.listed = done ++ sc.todo) (none : ∀ t ∈ done, ¬ sc.listed.Holds pid t)
  | opened (done : List Nat) (s : Nat) (phase : sc.phase = .opened s) (max : sc.maxLsn = 0)
      (all : files sc.readdir sc.listed = done ++ s :: sc.todo) (none : ∀ t ∈ done, ¬ sc.listed.Holds pid t)
  | sized (done : List Nat) (s sz : Nat) (phase : sc.phase = .sized s sz) (max : sc.maxLsn = 0)
      (all : files sc.readdir sc.listed = done ++ s :: sc.todo) (none : ∀ t ∈ done, ¬ sc.listed.Holds pid t)
      (listed : (sc.listed.content s).length ≤ sz) (record : headerSize ≤ sz)
  | rescan (done : List Nat) (s n : Nat) (phase : sc.phase = .rescan s (headerSize * n))
      (all : files sc.readdir sc.listed = done ++ s :: sc.todo) (none : ∀ t ∈ done, ¬ sc.listed.Holds pid t)
      (le : n ≤ (d.headers s).length) (found : Found pid d s sc.maxLsn)
      (covers : ∀ h ∈ (d.headers s).take n, h.validFor pid → h.partitionLsn ≤ sc.maxLsn)
  | stopped (s : Nat) (phase : sc.phase = .between) (max : sc.maxLsn ≠ 0) (found : Found pid d s sc.maxLsn)
      (covers : d.Ascending pid → ∀ t ∈ files sc.readdir sc.listed, ∀ h ∈ sc.listed.headers t, h.validFor pid →
        h.lsn ≤ sc.maxLsn.toNat)

structure Stands (pid : Oid) (sc : LastScan) (d : Dir) : Prop where
  grows : Dir.Grows sc.listed d
  stands : At pid d sc

section
variable {pid : Oid} {d d' : Dir} {sc : LastScan} {s : Nat} {done : List Nat}

theorem Found.grow {m : UInt64} (h : Found pid d s m) (hd : Dir.Grows d d') : Found pid d' s m := by
  rcases h with h0 | ⟨a, ha, hv, he⟩
  · exact Or.inl h0
  · exact Or.inr ⟨a, (readHeaders_mono (hd.content s trivial)).subset ha, hv, he⟩

theorem At.grow (h : At pid d sc) (hd : Dir.Grows d d') : At pid d' sc := by
  cases h with
  | between done phase max all none => exact .between done phase max all none
  | opened done s phase max all none => exact .opened done s phase max all none
  | sized done s sz phase max all none listed record => exact .sized done s sz phase max all none listed record
  | rescan done s n phase all none le found covers =>
    obtain ⟨new, hnew⟩ := readHeaders_mono (hd.content s trivial)
    refine .rescan done s n phase all none ?_ (found.grow hd) ?_
    · rw [Dir.headers, ← hnew, List.length_append]
      exact Nat.le_add_right_of_le le
    · rw [Dir.headers, ← hnew]
      exact (List.take_append_of_le_length le).symm ▸ covers
  | stopped s phase max found covers =>
    exact .stopped s phase max (found.grow hd) fun hasc => covers (hasc.of_grows hd)

/-- The files come in descending order. -/
theorem files_sorted (rd : Readdir) (d : Dir) : (files rd d).Pairwise fun s t => t < s := by
  have hnodup : (files rd d).Nodup := (exchangeSort_perm _ _).nodup_iff.mpr (d.nodup_listed rd)
  refine ((sorted_descending (d.listed rd)).and hnodup).imp fun h => ?_
  exact Nat.lt_of_le_of_ne h.1 h.2.symm

/-- A record found in file `s` is above those of the files behind it in the loop, and those
before it hold none. -/
theorem covers_of_file (hg : Dir.Grows sc.listed d) {m : UInt64}
    (all : files sc.readdir sc.listed = done ++ s :: sc.todo) (none : ∀ t ∈ done, ¬ sc.listed.Holds pid t)
    (hm : m ≠ 0) (found : Found pid d s m) (hasc : d.Ascending pid)
    (hfile : ∀ h ∈ sc.listed.headers s, h.validFor pid → h.lsn ≤ m.toNat) :
    ∀ t ∈ files sc.readdir sc.listed, ∀ h ∈ sc.listed.headers t, h.validFor pid → h.lsn ≤ m.toNat := by
  intro t ht h hh hv
  have hsorted := files_sorted sc.readdir sc.listed
  rw [all] at ht hsorted
  rcases List.mem_append.mp ht with ht | ht
  · have h0 : h.partitionLsn = 0 := by
      by_contra h0
      exact none t ht ⟨h, hh, hv, h0⟩
    rw [lsn, h0]
    exact Nat.zero_le _
  · rcases List.mem_cons.mp ht with rfl | ht
    · exact hfile h hh hv
    · have hlt := List.rel_of_pairwise_cons (List.pairwise_append.mp hsorted).2.1 ht
      obtain ⟨a, ha, hav, rfl⟩ := found.resolve_left hm
      exact Nat.le_of_lt (hasc.across t s hlt h ((readHeaders_mono (hg.content t trivial)).subset hh) a ha hv hav)

/-- The scan makes a system call. -/
theorem At.next (h : At pid d sc) (hg : Dir.Grows sc.listed d) : At pid d (sc.next pid d) := by
  cases h with
  | between done phase max all none =>
    cases htodo : sc.todo with
    | nil =>
      have hsame : sc.next pid d = sc := by simp only [LastScan.next, phase, max, htodo, if_true]
      rw [hsame]
      exact .between done phase max all none
    | cons s todo =>
      simp only [LastScan.next, phase, max, htodo, if_true]
      refine .opened done s rfl rfl ?_ none
      rw [all, htodo]
  | opened done s phase max all none =>
    simp only [LastScan.next, phase]
    have hle := (hg.content s trivial).length_le
    split
    · next hshort =>
      -- it holds no whole record now, so it did not then
      refine .between (done ++ [s]) rfl max (by rw [all, List.append_cons]) fun t ht => ?_
      rcases List.mem_append.mp ht with ht | ht
      · exact none t ht
      · obtain rfl := List.mem_singleton.mp ht
        rintro ⟨a, ha, -⟩
        have hnone : sc.listed.headers t = [] := by rw [Dir.headers, readHeaders, blocks_short (by omega)]; rfl
        exact absurd (hnone ▸ ha) List.not_mem_nil
    · next hlong => exact .sized done s _ rfl max all none hle (Nat.le_of_not_lt hlong)
  | sized done s sz phase max all none listed record =>
    simp only [LastScan.next, phase]
    split
    · next h0 =>
      refine .rescan done s 0 rfl all none (Nat.zero_le _) (Or.inl h0) ?_
      rw [List.take_zero]
      exact fun a ha => absurd ha List.not_mem_nil
    · next h0 =>
      obtain ⟨a, ha, hv, he⟩ := lsnAt_ne_zero h0
      have hfound : Found pid d s (lsnAt pid (d.content s) (lastRecordOffset sz)) := by
        obtain ⟨n, hoff, -⟩ := lastRecordOffset_eq record
        rw [hoff, readAt_eq] at ha
        exact Or.inr ⟨a, List.mem_of_getElem? ha, hv, he⟩
      refine .stopped s rfl h0 hfound fun hasc => ?_
      exact covers_of_file hg all none h0 hfound hasc fun b hb hbv =>
        le_lsnAt (hg.content s trivial) listed record h0 (hasc.within s) hb hbv
  | rescan done s n phase all none le found covers =>
    simp only [LastScan.next, phase, readAt_eq]
    cases hget : (readHeaders (d.content s))[n]? with
    | some a =>
      have ha : a ∈ d.headers s := List.mem_of_getElem? hget
      have htake : (d.headers s).take (n + 1) = (d.headers s).take n ++ [a] := by
        rw [List.take_add_one, Dir.headers, hget]
        rfl
      refine .rescan done s (n + 1) rfl all none (List.getElem?_eq_some_iff.mp hget).1 ?_ ?_
      · dsimp only
        split
        · next hc =>
          rw [Bool.and_eq_true] at hc
          exact Or.inr ⟨a, ha, hc.1, rfl⟩
        · exact found
      · rw [htake]
        intro b hb hv
        dsimp only
        rcases List.mem_append.mp hb with hb | hb
        · have hle := covers b hb hv
          split
          · next hc =>
            rw [Bool.and_eq_true, decide_eq_true_eq] at hc
            exact UInt64.le_trans hle (UInt64.le_of_lt hc.2)
          · exact hle
        · obtain rfl := List.mem_singleton.mp hb
          split
          · exact UInt64.le_refl _
          · next hc =>
            rw [hv, Bool.true_and, decide_eq_true_eq] at hc
            exact UInt64.not_lt.mp hc
    | none =>
      have hn : (d.headers s).take n = d.headers s := List.take_of_length_le (List.getElem?_eq_none_iff.mp hget)
      rw [hn] at covers
      have hfile : ∀ h ∈ sc.listed.headers s, h.validFor pid → h.partitionLsn ≤ sc.maxLsn := fun h hh =>
        covers h ((readHeaders_mono (hg.content s trivial)).subset hh)
      by_cases h0 : sc.maxLsn = 0
      · refine .between (done ++ [s]) rfl h0 (by rw [all, List.append_cons]) fun t ht => ?_
        rcases List.mem_append.mp ht with ht | ht
        · exact none t ht
        · obtain rfl := List.mem_singleton.mp ht
          rintro ⟨a, ha, hv, hne⟩
          have hle := hfile a ha hv
          rw [h0] at hle
          exact hne (UInt64.le_antisymm hle UInt64.zero_le)
      · refine .stopped s rfl h0 found fun hasc => ?_
        exact covers_of_file hg all none h0 found hasc fun h hh hv => UInt64.le_iff_toNat_le.mp (hfile h hh hv)
  | stopped s phase max found covers =>
    have hsame : sc.next pid d = sc := by simp only [LastScan.next, phase, if_neg max]
    rw [hsame]
    exact .stopped s phase max found covers

theorem stands_tracks (pid : Oid) : Tracks Dir.Grows (lastScanner pid) (Stands pid) where
  refl d := Dir.Keeps.refl _ d
  towards _ _ s n h := h.towards s n
  start rd d := ⟨Dir.Keeps.refl _ d, .between [] rfl rfl rfl fun _ ht => absurd ht List.not_mem_nil⟩
  grow _ _ _ h hd := ⟨h.grows.trans hd, h.stands.grow hd⟩
  next sc d h := by
    have hlisted : (sc.next pid d).listed = sc.listed := by
      unfold LastScan.next
      split
      · split
        · split <;> rfl
        · rfl
      · split <;> rfl
      · rfl
      · split <;> rfl
    exact ⟨hlisted ▸ h.grows, h.stands.next h.grows⟩

/-- What the scan returns lies between the highest LSN then and now. -/
theorem Stands.between (h : Stands pid sc d) (hdone : sc.Done) (hasc : d.Ascending pid)
    (hfew : d.names.card ≤ maxScanFiles) :
    sc.listed.highestLsn pid ≤ sc.maxLsn.toNat ∧ sc.maxLsn.toNat ≤ d.highestLsn pid := by
  have hfiles : ∀ t, t ∈ sc.listed.names → t ∈ files sc.readdir sc.listed := fun t ht => by
    rw [files, mem_exchangeSort, Dir.mem_listed]
    · exact ht
    · exact (Finset.card_le_card fun u hu => h.grows.names u trivial hu).trans hfew
  obtain ⟨hphase, hor⟩ := hdone
  cases h.stands with
  | between done phase max all none =>
    rw [hor.resolve_left fun h => h max, List.append_nil] at all
    rw [highest_of_none fun t ht => none t (all ▸ hfiles t ht.mem_names) ht]
    exact ⟨Nat.zero_le _, max ▸ Nat.zero_le _⟩
  | opened done s phase => rw [hphase] at phase; cases phase
  | sized done s sz phase => rw [hphase] at phase; cases phase
  | rescan done s n phase => rw [hphase] at phase; cases phase
  | stopped s phase max found covers =>
    refine ⟨highest_le fun t a ha hv => ?_, ?_⟩
    · exact covers hasc t (hfiles t (Dir.mem_names_of_headers ha)) a ha hv
    · obtain ⟨a, ha, hv, he⟩ := found.resolve_left max
      rw [he]
      exact le_highest ha hv

end

end LastScan

/-- **The LSN scan beside the worker.** In every order of the server's steps, of the system
calls they make on a partition directory and of those of the scan, while no cleanup of the
partition runs and its valid records come with increasing LSNs: the scan returns no less
than the highest LSN there was when it listed the directory, and no more than the highest
there is now. -/
theorem last_written_beside_server (segsz : WalSegSize) (pid : Oid) (s : Server) (ls : List (Watched.Label Label))
    (hls : ∀ p keepPtr rd unlinkOk, .cleanup p keepPtr rd unlinkOk ∈ roundsOf ls → p ≠ pid)
    {w : Watched Server LastScan}
    (hw : w = watchedRun (serverStep segsz) (fun s => s.demux.parwal pid) (lastScanner pid) s ls) {sc : LastScan}
    (hsc : sc ∈ w.scan) (hdone : sc.Done) (hasc : w.seen.Ascending pid) (hfew : w.seen.names.card ≤ maxScanFiles) :
    sc.listed.highestLsn pid ≤ sc.maxLsn.toNat ∧ sc.maxLsn.toNat ≤ w.seen.highestLsn pid := by
  have hinv := Watched.inv_run (serverStep segsz) (fun s => s.demux.parwal pid) (LastScan.stands_tracks pid) s ls
    fun done l hpre => keeps_spared hls hpre
  rw [← hw] at hinv
  exact (hinv.scans sc hsc).between hdone hasc hfew

/-- The scan takes the names and the size while record 2 is written in two pieces, and reads
the last record when it is complete. -/
def grownUnderScan : List (Watched.Label Label) :=
  [.round (.demux (.record (.succeeding .ascending) true)), .list .ascending, .read, .call 1 20, .read, .call 1 12, .read]

def grownUnderScanRun : Watched Server LastScan :=
  watchedRun (serverStep .default) (fun s => s.demux.parwal 7) (lastScanner 7) secondRecord grownUnderScan

theorem grownUnderScanRun_scan : grownUnderScanRun.scan.isSome := by decide +kernel

theorem ascending_grownUnderScan : grownUnderScanRun.seen.Ascending 7 := by
  have hnames : grownUnderScanRun.seen.names = {1} := by decide +kernel
  have hnone : ∀ t, t ≠ 1 → grownUnderScanRun.seen.headers t = [] := fun t ht =>
    Dir.headers_of_notMem (by rw [hnames]; simpa using ht)
  refine ⟨fun t => ?_, fun t u hlt a ha b hb => ?_⟩
  · by_cases ht : t = 1
    · subst ht
      unfold Increasing
      decide +kernel
    · rw [hnone t ht]
      exact List.Pairwise.nil
  · by_cases ht : t = 1
    · rw [hnone u (by omega)] at hb
      exact absurd hb List.not_mem_nil
    · rw [hnone t ht] at ha
      exact absurd ha List.not_mem_nil

theorem last_written_beside_server_grown :
    grownUnderScanRun.seen.highestLsn 7 = 2 ∧
      (grownUnderScanRun.scan.get grownUnderScanRun_scan).maxLsn.toNat ≤ grownUnderScanRun.seen.highestLsn 7 := by
  refine ⟨by decide +kernel, ?_⟩
  refine (last_written_beside_server .default 7 secondRecord grownUnderScan ?_ rfl (Option.get_mem grownUnderScanRun_scan)
    (by decide +kernel) ascending_grownUnderScan (by decide +kernel)).2
  simp [grownUnderScan, roundsOf, Watched.Label.round?]

end PartDist
