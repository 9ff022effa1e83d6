import PartDist.Lossless
import PartDist.LsnReuse

/-!
# Resetting a partition

`ResetPartitionWALState` (partition_wal.c) on a running server: it removes the
partition's entry from the LSN table and unlinks its segment files.  The Demux is not
told; it takes a record with `partition_lsn` 1 and a directory in which a scan finds
nothing for a reset.

* `reset_starts_afresh`: if the Demux has read all of a partition's records when its
  files go, no call is about to make an entry from what it found there, the first record
  afterwards has `partition_lsn` 1, and the Demux passes none over, the directory holds
  what was written since, and the LSNs start from 1.

A reset with a backlog leaves old records behind (`backlog_survives`).
-/

namespace PartDist

open Bytes PartWALHeader HighWater

/-! ## The server and its resets -/

/-- `since` is where pg_wal ended when a partition's files were last removed, `fresh` how
many LSNs had been handed out by then; `none` while a reset is under way. -/
structure ResetServer where
  server : Server
  since : Oid → Nat
  fresh : Oid → Option Nat

/-- A step of the server; the end of a call of `AllocPartitionLSN` on its own, which inserts
no record; the two halves of `ResetPartitionWALState`. -/
inductive ResetLabel
  | server (l : Label)
  | allocReturn (i : Nat)
  | resetEntry (pid : Oid)
  | resetFiles (pid : Oid) (rd : Readdir)

def ResetServer.start (segsz : WalSegSize) : ResetServer :=
  ⟨Server.started segsz, fun _ => 0, fun _ => some 0⟩

def allocReturn (i : Nat) (s : Server) : Server :=
  match s.calls[i]? with
  | some c =>
    match c.state with
    | .inserting _ => s.setCall i c .failed
    | _ => s
  | none => s

/-- The loop over `readdir`. -/
def unlinkAll (rd : Readdir) (d : Dir) : Dir := (rd.order d.names).foldl Dir.unlink d

def resetStep (segsz : WalSegSize) (s : ResetServer) : ResetLabel → ResetServer
  | .server l => { s with server := serverStep segsz s.server l }
  | .allocReturn i => { s with server := allocReturn i s.server }
  | .resetEntry pid =>
    { s with
      server := { s.server with lsnHash := s.server.lsnHash.erase pid }
      fresh := Function.update s.fresh pid none }
  | .resetFiles pid rd =>
    { server := { s.server with
        demux := { s.server.demux with
          parwal := Function.update s.server.demux.parwal pid (unlinkAll rd (s.server.demux.parwal pid)) } }
      since := Function.update s.since pid s.server.wal.length
      fresh := Function.update s.fresh pid (some s.server.assigned.length) }

def resetRun (segsz : WalSegSize) (s : ResetServer) (ls : List ResetLabel) : ResetServer :=
  ls.foldl (resetStep segsz) s

/-- The records of the partition written since its last reset. -/
def ResetServer.written (s : ResetServer) (pid : Oid) : List PartWALHeader :=
  partHeaders pid (s.server.wal.drop (s.since pid))

/-- Those of its records that the Demux has not read. -/
def Server.unread (s : Server) (pid : Oid) : List PartWALHeader := partHeaders pid (s.wal.drop s.endRecPtr)

/-- The LSNs handed out for the partition since its last reset. -/
def ResetServer.allocated (s : ResetServer) (pid : Oid) : List UInt64 :=
  match s.fresh pid with
  | some n => ((s.server.assigned.drop n).filter fun a => a.1 = pid).map (·.2)
  | none => []

/-! ## The condition -/

/-- A record is written above all since the last reset; if it is the first, and the
Demux's writer has a watermark from before, its `partition_lsn` is 1. -/
def WritesAfresh (pid : Oid) (s : ResetServer) (l : Label) : Prop :=
  ∀ x ∈ s.server.inserts l, x.1.partitionId = pid →
    0 < x.2.toNat ∧ (∀ a ∈ s.written pid, a.lsn < x.2.toNat) ∧
      (s.written pid = [] → ∀ w ∈ Demux.findWriter pid s.server.demux.writers, 0 < w.lastPartitionLsn → x.2 = 1)

instance (pid : Oid) (s : ResetServer) (l : Label) : Decidable (WritesAfresh pid s l) :=
  inferInstanceAs (Decidable (∀ x ∈ s.server.inserts l, _))

/-- The array has room for the partition when a record of it is read. -/
def Demux.RoomFor (pid : Oid) (dm : Demux) : LoopEvent → Prop
  | .record r _ => ∀ h ∈ r.dataHeader, h.partitionId = pid → ¬ dm.ShutOut pid
  | .caughtUp _ => True

instance (pid : Oid) (dm : Demux) : (e : LoopEvent) → Decidable (dm.RoomFor pid e)
  | .record r _ => inferInstanceAs (Decidable (∀ h ∈ r.dataHeader, h.partitionId = pid → ¬ dm.ShutOut pid))
  | .caughtUp _ => isTrue trivial

def ReadsWithRoom (pid : Oid) (s : Server) (l : Label) : Prop := ∀ e ∈ s.event l, s.demux.RoomFor pid e

instance (pid : Oid) (s : Server) (l : Label) : Decidable (ReadsWithRoom pid s l) :=
  inferInstanceAs (Decidable (∀ e ∈ s.event l, _))

/-- A call that has no LSN yet, nor one from the files to start an entry from. -/
def CallState.Unassigned (state : CallState) : Prop :=
  (∀ init, state = .entering init → init = 1) ∧ ∀ lsn, state ≠ .inserting lsn

instance : (state : CallState) → Decidable state.Unassigned
  | .entering init => decidable_of_iff (init = 1)
      ⟨fun h => ⟨fun _ h' => CallState.entering.inj h' ▸ h, (fun _ h => nomatch h)⟩, fun h => h.1 init rfl⟩
  | .inserting lsn => isFalse fun h => h.2 lsn rfl
  | .probing => isTrue ⟨(fun _ h => nomatch h), (fun _ h => nomatch h)⟩
  | .scanning => isTrue ⟨(fun _ h => nomatch h), (fun _ h => nomatch h)⟩
  | .flushing _ => isTrue ⟨(fun _ h => nomatch h), (fun _ h => nomatch h)⟩
  | .returned _ => isTrue ⟨(fun _ h => nomatch h), (fun _ h => nomatch h)⟩
  | .failed => isTrue ⟨(fun _ h => nomatch h), (fun _ h => nomatch h)⟩

/-- No LSN of the partition is out, or about to be, but LSN 1. -/
def Server.Quiet (pid : Oid) (s : Server) : Prop :=
  pid ∉ s.lsnHash ∧ ∀ c ∈ s.calls, c.partitionId = pid → c.state.Unassigned

instance (pid : Oid) (s : Server) : Decidable (s.Quiet pid) := inferInstanceAs (Decidable (_ ∧ _))

/-- When the files go, the Demux has read every record of the partition. -/
def NothingPending (pid : Oid) (s : Server) : Prop := s.unread pid = [] ∧ s.Quiet pid

instance (pid : Oid) (s : Server) : Decidable (NothingPending pid s) := inferInstanceAs (Decidable (_ ∧ _))

def KeepsAfresh (pid : Oid) (s : ResetServer) : ResetLabel → Prop
  | .server l => WritesAfresh pid s l ∧ ReadsWithRoom pid s.server l
  | .allocReturn _ => True
  | .resetEntry _ => True
  | .resetFiles q _ => q = pid → NothingPending pid s.server

instance (pid : Oid) (s : ResetServer) : (l : ResetLabel) → Decidable (KeepsAfresh pid s l)
  | .server l => inferInstanceAs (Decidable (WritesAfresh pid s l ∧ ReadsWithRoom pid s.server l))
  | .allocReturn _ => isTrue trivial
  | .resetEntry _ => isTrue trivial
  | .resetFiles q _ => inferInstanceAs (Decidable (q = pid → NothingPending pid s.server))

/-- The reader passes over no record of the partition. -/
def SkipsNoneOf (pid : Oid) (s : ResetServer) : ResetLabel → Prop
  | .server l => s.server.running = true → s.server.endRecPtr < s.server.flushed →
      partHeaders pid ((s.server.wal.take (s.server.skipTo l)).drop s.server.endRecPtr) = []
  | _ => True

instance (pid : Oid) (s : ResetServer) : (l : ResetLabel) → Decidable (SkipsNoneOf pid s l)
  | .server _ => inferInstanceAs (Decidable (_ → _ → _ = _))
  | .allocReturn _ | .resetEntry _ | .resetFiles _ _ => isTrue trivial

/-- No crash and no I/O failure. -/
def ResetLabel.Ok : ResetLabel → Prop
  | .server l => l.Ok ∧ l.Serves
  | _ => True

/-! ## What the Demux holds -/

/-- The share of a partition whose files are gone and whose next record is the first since. -/
structure Pending (pid : Oid) (v : Share) : Prop where
  empty : v.2.names = ∅
  own : ∀ w, v.1 = some w → w.partitionId = pid
  clean : ∀ w, v.1 = some w → CleanWriter w
  zero : ∀ w, v.1 = some w → w.lastPartitionLsn = 0 → w.fd = none

/-- The share, once `done` of the records since the reset have been read and `todo` not yet. -/
def ShareAfresh (segsz : WalSegSize) (pid : Oid) (done todo : List PartWALHeader) (v : Share) : Prop :=
  (done = [] ∧ Pending pid v ∧
      ∀ h ∈ todo.head?, ∀ w, v.1 = some w → 0 < w.lastPartitionLsn → h.partitionLsn = 1) ∨
    (done ≠ [] ∧ ∃ base mark, base.names = ∅ ∧ CleanInv segsz pid base mark done v)

section
variable {segsz : WalSegSize} {pid : Oid} {done todo : List PartWALHeader} {v : Share} {io : RecordIO}
  {h : PartWALHeader}

theorem names_unlinkAll (rd : Readdir) (d : Dir) : (unlinkAll rd d).names = ∅ := by
  have hall : unlinkAll rd d = (rd.order d.names).foldl (fun d s => if True then d.unlink s else d) d := by
    simp only [if_true]
    rfl
  refine Finset.eq_empty_of_forall_notMem fun s hs => ?_
  rw [hall] at hs
  obtain ⟨hmem, hnot⟩ := (Dir.unlink_foldl (P := fun _ => True)).1.mp hs
  exact hnot ⟨(rd.mem_order d.names s).mpr hmem, trivial⟩

theorem ShareAfresh.clean (hv : ShareAfresh segsz pid done todo v) : ∀ w, v.1 = some w → CleanWriter w := by
  rcases hv with ⟨-, hp, -⟩ | ⟨-, base, mark, -, hc⟩
  · exact hp.clean
  · exact hc.clean

/-- A writer with nothing open and nothing buffered, and no watermark. -/
theorem blank_inv {w : PartitionWALWriter} (d : Dir) (hfd : w.fd = none) (hb : w.buffer = [])
    (hlast : w.lastPartitionLsn = 0) : WriterInv segsz d 0 [] w d := by
  refine ⟨fun fd h => ?_, fun h => absurd hfd h, fun _ => hb, fun s => ?_, fun s => List.prefix_refl _, hlast, rfl⟩
  · rw [hfd] at h
    cases h
  · simp [inSegment, hb]

/-- The writer that meets the first record starts over on the empty directory. -/
theorem Pending.restarts (segsz : WalSegSize) (hv : Pending pid v) {w : PartitionWALWriter}
    (hw : writerFor io pid v = some w)
    (hp : h.partitionId = pid) (hfirst : ∀ w, v.1 = some w → 0 < w.lastPartitionLsn → h.partitionLsn = 1) :
    w.partitionId = pid ∧ CleanWriter w ∧ WriterInv segsz v.2 0 [] (resetDetect io.resetScan h w v.2) v.2 := by
  subst hp
  cases hv1 : v.1 with
  | none =>
    have hinv : ShareInv segsz h.partitionId v.2 0 [] v := by
      rw [ShareInv, hv1]
      exact ⟨rfl, rfl⟩
    obtain ⟨hid, hwinv⟩ := writerFor_inv hinv (getLast_empty _ hv.empty) hw
    have hlast : w.lastPartitionLsn = 0 := hwinv.last
    have hreset : resetDetect io.resetScan h w v.2 = w :=
      resetDetect_eq fun _ hpos => absurd (hlast ▸ hpos) UInt64.not_lt_zero
    rw [hreset]
    exact ⟨hid, (writerFor_fresh hv1 hw).2.2, hwinv⟩
  | some w' =>
    have hw' : w' = w := by
      rw [writerFor, hv1, Option.some_or] at hw
      exact Option.some.inj hw
    subst hw'
    refine ⟨hv.own w' hv1, hv.clean w' hv1, ?_⟩
    by_cases hpos : 0 < w'.lastPartitionLsn
    · rw [resetDetect, if_pos ⟨hfirst w' hv1 hpos, hpos⟩, if_pos (getLast_empty _ hv.empty)]
      exact blank_inv v.2 rfl rfl rfl
    · have hlast := UInt64.not_lt.mp hpos
      have hzero : w'.lastPartitionLsn = 0 := UInt64.le_zero_iff.mp hlast
      rw [resetDetect_eq fun _ h => absurd h hpos]
      exact blank_inv v.2 (hv.zero w' hv1 hzero) (hv.clean w' hv1).2 hzero

theorem Pending.route (hv : Pending pid v) (hio : io.Ok) (hp : h.partitionId = pid) (hpos : 0 < h.lsn)
    (hfirst : ∀ w, v.1 = some w → 0 < w.lastPartitionLsn → h.partitionLsn = 1) :
    CleanInv segsz pid v.2 0 [h] (routeShare segsz io h v) := by
  obtain ⟨w, hw⟩ := writerFor_of_mkdir hio.mkdir pid v
  obtain ⟨hid, hclean, hinv⟩ := hv.restarts segsz hw hp hfirst
  have hc := resetDetect_clean (h := h) (d := v.2) hclean io.resetScan
  have ht : Taken segsz io h (resetDetect io.resetScan h w v.2) v.2 := by
    refine ⟨fun hs => absurd (hc.1.symm.trans hs) (by decide), ?_, hio.preCopy segsz h _⟩
    rw [hinv.last, lastLsn_nil]
    exact UInt64.lt_iff_toNat_lt.mpr hpos
  obtain ⟨hinv', hn, hc'⟩ := routeToWriter_lands hinv ht hc (hio.flush _)
  rw [routeShare_eq (by rw [hp]; exact hw)]
  refine ⟨⟨by rw [routeToWriter_partitionId, hid], hinv'⟩, fun w' hw' => ?_, ?_⟩
  · obtain rfl := Option.some.inj hw'
    exact hc'
  · dsimp only
    rw [hn, hv.empty]
    rfl

/-- The writer of a share that holds records has the last one's LSN. -/
theorem CleanInv.last_of_append (io : RecordIO) {base : Dir} {mark : UInt64} {l : List PartWALHeader}
    {a : PartWALHeader}
    (hc : CleanInv segsz pid base mark (l ++ [a]) v) {w : PartitionWALWriter} (hw : writerFor io pid v = some w) :
    w.lastPartitionLsn = a.partitionLsn := by
  have hinv := hc.inv
  obtain ⟨wo, d⟩ := v
  cases wo with
  | none => exact absurd hinv.2 (by simp)
  | some w' =>
    obtain rfl := Option.some.inj hw
    rw [hinv.2.last, lastLsn_append]

theorem ShareAfresh.route (hv : ShareAfresh segsz pid done (h :: todo) v) (hio : io.Ok) (hp : h.partitionId = pid)
    (hpos : ∀ a ∈ done ++ [h], 0 < a.lsn) (hinc : Increasing lsn (done ++ [h])) :
    ShareAfresh segsz pid (done ++ [h]) todo (routeShare segsz io h v) := by
  rcases hv with ⟨rfl, hpend, hfirst⟩ | ⟨hne, base, mark, hbase, hc⟩
  · exact Or.inr ⟨List.cons_ne_nil h [], v.2, 0, hpend.empty,
      hpend.route hio hp (hpos h List.mem_cons_self) (hfirst h rfl)⟩
  · obtain ⟨l, a, rfl⟩ := (List.eq_nil_or_concat done).resolve_left hne
    rw [List.concat_eq_append] at *
    have hlt : a.lsn < h.lsn := (List.pairwise_append.mp hinc).2.2 a (by simp) h List.mem_cons_self
    have hapos : 0 < a.lsn := hpos a (by simp)
    have habove : ∀ w ∈ writerFor io pid v, w.lastPartitionLsn < h.partitionLsn := by
      intro w hw
      rw [hc.last_of_append _ hw]
      exact UInt64.lt_iff_toNat_lt.mpr hlt
    obtain ⟨mark', hc'⟩ := clean_lands hc hp (lands_of_above hc hio hp habove) fun h1 => by
      have : h.lsn = 1 := by rw [lsn, h1]; rfl
      omega
    exact Or.inr ⟨by simp, base, mark', hbase, hc'⟩

/-- All files removed, with nothing left to read. -/
theorem ShareAfresh.reset (hv : ShareAfresh segsz pid done [] v) (hpos : ∀ a ∈ done, 0 < a.lsn) (rd : Readdir) :
    ShareAfresh segsz pid [] [] (v.1, unlinkAll rd v.2) := by
  refine Or.inl ⟨rfl, ⟨names_unlinkAll rd v.2, fun w hw => ?_, hv.clean, fun w hw hzero => ?_⟩, fun h hh => nomatch hh⟩
  · rcases hv with ⟨-, hp, -⟩ | ⟨-, base, mark, -, hc⟩
    · exact hp.own w hw
    · have hinv := hc.inv
      rw [ShareInv, show v.1 = some w from hw] at hinv
      exact hinv.1
  · rcases hv with ⟨-, hp, -⟩ | ⟨hne, base, mark, -, hc⟩
    · exact hp.zero w hw hzero
    · obtain ⟨l, a, rfl⟩ := (List.eq_nil_or_concat done).resolve_left hne
      rw [List.concat_eq_append] at *
      have hlast := hc.last_of_append (.succeeding .ascending) (w := w)
        (by rw [writerFor, show v.1 = some w from hw, Option.some_or])
      have hapos := hpos a (by simp)
      rw [lsn, ← hlast, hzero] at hapos
      exact absurd hapos (by decide)

/-- The directory holds what has been read. -/
theorem ShareAfresh.records (hv : ShareAfresh segsz pid done todo v) :
    v.2.records = (done : Multiset PartWALHeader) := by
  rcases hv with ⟨rfl, hp, -⟩ | ⟨-, base, mark, hbase, hc⟩
  · simp [Dir.records, hp.empty]
  · have hzero : ∀ s, base.content s = [] := fun s => Dir.content_of_notMem (by simp [hbase])
    rw [hc.grown.records fun s => ⟨0, by rw [hzero s]; rfl⟩]
    simp [Dir.records, hbase]

/-- A record is written. -/
theorem ShareAfresh.append (hv : ShareAfresh segsz pid done todo v)
    (hfirst : done ++ todo = [] → ∀ w, v.1 = some w → 0 < w.lastPartitionLsn → h.partitionLsn = 1) :
    ShareAfresh segsz pid done (todo ++ [h]) v := by
  refine hv.imp_left fun ⟨hdone, hp, hhead⟩ => ⟨hdone, hp, fun a ha => ?_⟩
  cases todo with
  | nil =>
    obtain rfl := Option.some.inj ha
    exact hfirst (by simp [hdone])
  | cons b todo => exact hhead a ha

end

/-! ## The server between resets -/

section
variable {segsz : WalSegSize} {pid : Oid} {s : Server}

/-- A round that reads no record of the partition. -/
theorem share_other_step (segsz : WalSegSize) {dm : Demux} (hd : dm.Fits)
    (hclean : ∀ w, (dm.share pid).1 = some w → CleanWriter w)
    {e : LoopEvent} (he : partHeaders pid (walOf [e]) = []) :
    (demuxStep segsz dm e).share pid = dm.share pid := by
  by_cases hout : dm.ShutOut pid
  · exact (shutOut_step _ hd hout e).1
  · rw [share_step_of_not_shutOut _ hd hout e]
    cases e with
    | caughtUp io =>
      cases hv : (dm.share pid).1 with
      | none => exact shareStep_eq_self hv fun r io h he => nomatch he
      | some w =>
        have hb := (hclean w hv).2
        generalize dm.share pid = v at *
        obtain ⟨wo, d⟩ := v
        obtain rfl : wo = some w := hv
        simp only [shareStep, flushShare, flush_of_nil hb]
        rw [caught_of_ok rfl]
    | record r io =>
      rw [partHeaders_record] at he
      simp only [shareStep]
      cases hr : r.dataHeader with
      | none => rfl
      | some h =>
        refine if_neg fun hp => ?_
        rw [hr, Option.toList_some, List.filter_cons_of_pos (by simpa using hp)] at he
        cases he

/-- While the worker runs only its own rounds touch what it holds. -/
theorem Server.other_step (segsz : WalSegSize) {l : Label} (hrun : s.running = true) (hl : l.Serves)
    (hround : ∀ round, l ≠ .demux round) :
    (serverStep segsz s l).demux = s.demux ∧ (serverStep segsz s l).endRecPtr = s.endRecPtr ∧
      (serverStep segsz s l).running = true := by
  have hbackend : l.Backend → (serverStep segsz s l).demux = s.demux ∧
      (serverStep segsz s l).endRecPtr = s.endRecPtr ∧ (serverStep segsz s l).running = true := fun hl' => by
    have hsame := s.sameWorker_backend segsz hl'
    exact ⟨hsame.demux, hsame.endRecPtr, hsame.running.trans hrun⟩
  cases l with
  | demuxStart =>
    simp only [serverStep, if_pos hrun]
    exact ⟨trivial, trivial, hrun⟩
  | demux round => exact absurd rfl (hround round)
  | demuxStop => exact absurd hl id
  | cleanup => exact absurd hl id
  | restart => exact absurd hl id
  | crash => exact absurd hl id
  | _ => exact hbackend trivial

/-! ## The first LSN -/

theorem Server.Quiet.same {s' : Server} (hq : s.Quiet pid) (hhash : s'.lsnHash = s.lsnHash)
    (hcalls : s'.calls = s.calls) : s'.Quiet pid := by
  rw [Quiet, hhash, hcalls]
  exact hq

theorem Server.Quiet.setCall (hq : s.Quiet pid) {i : Nat} {c : Call} {t : CallState}
    (hst : c.partitionId = pid → t.Unassigned) : (s.setCall i c t).Quiet pid := by
  refine ⟨hq.1, fun c' hc' hp => ?_⟩
  rcases List.mem_or_eq_of_mem_set hc' with hc' | rfl
  · exact hq.2 c' hc' hp
  · exact hst hp

/-- Nothing of the partition is handed out, or LSN 1. -/
theorem Server.Quiet.callStep (hq : s.Quiet pid) (hempty : (s.demux.parwal pid).names = ∅) {i : Nat} {c : Call}
    (hc : s.calls[i]? = some c) (sc : ScanIO) :
    (Server.callStep sc i c s).Quiet pid ∧
        (∃ new, (Server.callStep sc i c s).assigned = s.assigned ++ new ∧ ∀ a ∈ new, a.1 ≠ pid) ∨
      (Server.callStep sc i c s).assigned = s.assigned ++ [(pid, 1)] := by
  have hown := hq.2 c (List.mem_of_getElem? hc)
  have hnone : ∀ s' : Server, s'.Quiet pid → s'.assigned = s.assigned →
      s'.Quiet pid ∧ (∃ new, s'.assigned = s.assigned ++ new ∧ ∀ a ∈ new, a.1 ≠ pid) ∨
        s'.assigned = s.assigned ++ [(pid, 1)] :=
    fun s' hs' ha => Or.inl ⟨hs', [], by rw [ha, List.append_nil], fun _ h => nomatch h⟩
  unfold Server.callStep
  split
  · refine hnone _ (hq.setCall fun hp => ⟨fun init hst => ?_, fun lsn hst => ?_⟩) rfl
    · split at hst
      · next hm => exact absurd (hp ▸ hm) hq.1
      · cases hst
    · split at hst <;> cases hst
  · refine hnone _ (hq.setCall fun hp => ⟨fun init hst => ?_, fun lsn hst => nomatch hst⟩) rfl
    obtain rfl := CallState.entering.inj hst
    -- the scan finds nothing in the empty directory
    rw [hp, getLast_empty _ hempty]
    rfl
  · next init hst =>
    split
    · next lsn hash halloc =>
      by_cases hp : c.partitionId = pid
      · have hlook : s.lsnHash.lookup c.partitionId = none := Finmap.lookup_eq_none.mpr (hp ▸ hq.1)
        simp only [allocEnter, hlook] at halloc
        split at halloc
        · obtain ⟨rfl, rfl⟩ := Prod.mk.inj (Option.some.inj halloc)
          obtain rfl := (hown hp).1 init hst
          exact Or.inr (by rw [hp])
        · cases halloc
      · refine Or.inl ⟨⟨fun hm => ?_, (hq.setCall fun h => absurd h hp).2⟩, [(c.partitionId, lsn)], rfl, ?_⟩
        · have hkeys : ∃ x, hash = s.lsnHash.insert c.partitionId x := by
            unfold allocEnter at halloc
            split at halloc
            · exact ⟨_, (Prod.mk.inj (Option.some.inj halloc)).2.symm⟩
            · split at halloc
              · exact ⟨_, (Prod.mk.inj (Option.some.inj halloc)).2.symm⟩
              · cases halloc
          obtain ⟨x, rfl⟩ := hkeys
          rcases Finmap.mem_insert.mp hm with h | h
          · exact hp h.symm
          · exact hq.1 h
        · intro a ha
          obtain rfl := List.mem_singleton.mp ha
          exact hp
    · exact hnone _ (hq.setCall fun _ => ⟨(fun _ h => nomatch h), (fun _ h => nomatch h)⟩) rfl
  · have hset := hq.setCall (i := i) (c := c) (t := .flushing (s.wal.length + 1))
      fun _ => ⟨(fun _ h => nomatch h), (fun _ h => nomatch h)⟩
    exact hnone _ (hset.same rfl rfl) rfl
  · next n _ =>
    have hset := hq.setCall (i := i) (c := c) (t := .returned n)
      fun _ => ⟨(fun _ h => nomatch h), (fun _ h => nomatch h)⟩
    exact hnone _ (hset.same rfl rfl) rfl
  · exact hnone s hq rfl
  · exact hnone s hq rfl

theorem Server.Quiet.step (segsz : WalSegSize) (hq : s.Quiet pid) (hempty : (s.demux.parwal pid).names = ∅)
    {l : Label} (hl : l.Serves) :
    (serverStep segsz s l).Quiet pid ∧
        (∃ new, (serverStep segsz s l).assigned = s.assigned ++ new ∧ ∀ a ∈ new, a.1 ≠ pid) ∨
      (serverStep segsz s l).assigned = s.assigned ++ [(pid, 1)] := by
  cases ht : l.touchesTable with
  | false =>
    obtain ⟨hassigned, hhash, hcalls⟩ := table_step segsz (s := s) ht
    exact Or.inl ⟨hq.same hhash hcalls, [], by rw [hassigned, List.append_nil], fun _ h => nomatch h⟩
  | true =>
    cases l with
    | begin q flags origLsn mkdirOk =>
      refine Or.inl ⟨⟨hq.1, fun c hc hp => ?_⟩, [], (List.append_nil _).symm, fun _ h => nomatch h⟩
      rcases List.mem_append.mp hc with hc | hc
      · exact hq.2 c hc hp
      · obtain rfl := List.mem_singleton.mp hc
        dsimp only
        split
        · exact ⟨(fun _ h => nomatch h), (fun _ h => nomatch h)⟩
        · exact ⟨(fun _ h => nomatch h), (fun _ h => nomatch h)⟩
    | advance i sc =>
      simp only [serverStep]
      split
      · next c hc => exact hq.callStep hempty hc sc
      · exact Or.inl ⟨hq, [], (List.append_nil _).symm, fun _ h => nomatch h⟩
    | restart => exact absurd hl id
    | crash => exact absurd hl id
    | _ => cases ht

theorem Server.assigned_prefix (segsz : WalSegSize) (l : Label) : s.assigned <+: (serverStep segsz s l).assigned := by
  cases ht : l.touchesTable with
  | false => rw [(table_step segsz (s := s) ht).1]
  | true =>
    cases l with
    | begin => exact List.prefix_rfl
    | advance i sc =>
      simp only [serverStep]
      split
      · unfold callStep setCall
        split
        · exact List.prefix_rfl
        · exact List.prefix_rfl
        · split
          · exact List.prefix_append _ _
          · exact List.prefix_rfl
        · exact List.prefix_rfl
        · exact List.prefix_rfl
        · exact List.prefix_rfl
        · exact List.prefix_rfl
      · exact List.prefix_rfl
    | restart => simp only [serverStep]; split <;> exact List.prefix_rfl
    | crash keep created rd =>
      simp only [serverStep]
      split
      · exact List.prefix_rfl
      · exact List.prefix_rfl
    | _ => cases ht

end

/-! ## The run -/

/-- What the Demux holds is what it has read of the records since the reset. -/
structure ResetServer.Holds (segsz : WalSegSize) (pid : Oid) (s : ResetServer) : Prop where
  placed : s.server.Placed
  running : s.server.running = true
  fits : s.server.demux.Fits
  since_le : s.since pid ≤ s.server.wal.length
  pos : ∀ a ∈ s.written pid, 0 < a.lsn
  increasing : Increasing lsn (s.written pid)
  share : ∃ done, s.written pid = done ++ s.server.unread pid ∧
    ShareAfresh segsz pid done (s.server.unread pid) (s.server.demux.share pid)

/-- The first LSN since the reset was 1; or there was none, and it will be. -/
def ResetServer.StartsAtOne (pid : Oid) (s : ResetServer) : Prop :=
  ∀ n, s.fresh pid = some n → n ≤ s.server.assigned.length ∧
    (s.allocated pid = [] ∧ s.server.Quiet pid ∧ s.written pid = [] ∨ (s.allocated pid).head? = some 1)

section
variable {segsz : WalSegSize} {pid : Oid} {s : ResetServer}

theorem holds_start (segsz : WalSegSize) (pid : Oid) : (ResetServer.start segsz).Holds segsz pid := by
  refine ⟨Server.placed_started segsz, rfl, fits_fresh _, Nat.le_refl _, (fun _ h => nomatch h), List.Pairwise.nil,
    [], rfl, Or.inl ⟨rfl, ⟨rfl, (fun _ h => nomatch h), (fun _ h => nomatch h), (fun _ h => nomatch h)⟩, ?_⟩⟩
  exact fun _ h => nomatch h

theorem startsAtOne_start (segsz : WalSegSize) (pid : Oid) : (ResetServer.start segsz).StartsAtOne pid := by
  intro n hn
  obtain rfl := Option.some.inj hn
  exact ⟨Nat.le_refl _, Or.inl ⟨rfl, ⟨(fun h => nomatch h), (fun _ h => nomatch h)⟩, rfl⟩⟩

theorem partHeaders_added (pid : Oid) (s : Server) (l : Label) :
    partHeaders pid (s.added l) = [] ∨
      ∃ x, s.inserts l = some x ∧ x.1.partitionId = pid ∧ partHeaders pid (s.added l) = [x.1.header x.2] := by
  cases l with
  | advance i sc =>
    cases hx : s.inserts (.advance i sc) with
    | none => exact Or.inl (by rw [Server.added, hx]; rfl)
    | some x =>
      simp only [Server.added, hx, Option.toList_some, List.map_cons, List.map_nil, partHeaders_insertedRecord]
      split
      · next hp => exact Or.inr ⟨x, rfl, hp, rfl⟩
      · exact Or.inl rfl
  | otherRecord r =>
    left
    simp only [Server.added]
    split
    · next hr => simp [partHeaders, dataHeaders, XLogRecord.dataHeader, hr]
    · rfl
  | _ => exact Or.inl rfl

theorem Server.mem_of_inserts {s : Server} {l : Label} {x : Call × UInt64} (hx : s.inserts l = some x) :
    x.1 ∈ s.calls ∧ x.1.state = .inserting x.2 := by
  cases l with
  | advance i sc =>
    obtain ⟨c, hc, hst⟩ := Option.bind_eq_some_iff.mp hx
    split at hst
    · next lsn hins =>
      obtain rfl := Option.some.inj hst
      exact ⟨List.mem_of_getElem? hc, hins⟩
    · cases hst
  | _ => cases hx

theorem ResetServer.written_step (segsz : WalSegSize) (hs : s.since pid ≤ s.server.wal.length) {l : Label}
    (hl : l.Serves) :
    (resetStep segsz s (.server l)).written pid = s.written pid ++ partHeaders pid (s.server.added l) := by
  simp only [ResetServer.written, resetStep]
  rw [Server.wal_step _ hl.keepsFiles.not_crash, List.drop_append_of_le_length hs, partHeaders_append]

/-- Written above the others. -/
theorem ResetServer.Holds.written_add (hs : s.Holds segsz pid) {l : Label} (hw : WritesAfresh pid s l) :
    (∀ a ∈ s.written pid ++ partHeaders pid (s.server.added l), 0 < a.lsn) ∧
      Increasing lsn (s.written pid ++ partHeaders pid (s.server.added l)) := by
  rcases partHeaders_added pid s.server l with hnil | ⟨x, hx, hp, heq⟩
  · rw [hnil, List.append_nil]
    exact ⟨hs.pos, hs.increasing⟩
  · obtain ⟨hpos, habove, -⟩ := hw x hx hp
    rw [heq]
    refine ⟨fun a ha => ?_, List.pairwise_append.mpr ⟨hs.increasing, List.pairwise_singleton _ _, fun a ha b hb => ?_⟩⟩
    · rcases List.mem_append.mp ha with ha | ha
      · exact hs.pos a ha
      · obtain rfl := List.mem_singleton.mp ha
        exact hpos
    · obtain rfl := List.mem_singleton.mp hb
      exact habove a ha

/-- A round of the worker. -/
theorem ResetServer.Holds.round (hs : s.Holds segsz pid) {round : Round} (hok : (Label.demux round).Ok)
    (hroom : ReadsWithRoom pid s.server (.demux round)) (hskip : SkipsNoneOf pid s (.server (.demux round))) :
    ∃ done, s.written pid = done ++ (serverStep segsz s.server (.demux round)).unread pid ∧
      ShareAfresh segsz pid done ((serverStep segsz s.server (.demux round)).unread pid)
        ((serverStep segsz s.server (.demux round)).demux.share pid) ∧
      (serverStep segsz s.server (.demux round)).running = true ∧
      (serverStep segsz s.server (.demux round)).demux.Fits := by
  obtain ⟨done, hwritten, hshare⟩ := hs.share
  have hstep : serverStep segsz s.server (.demux round) = s.server.demuxIteration segsz round := if_pos hs.running
  rw [hstep]
  rcases Server.demuxIteration_cases segsz round hs.placed.flushed_le with
    ⟨io, -, -, he⟩ | ⟨io, saveOk, r, rfl, hlt, hr, he⟩ | ⟨hlt, hle, -, -, he⟩ | ⟨-, he⟩
  · have hsame := share_other_step segsz hs.fits hshare.clean (e := .caughtUp io) rfl
    rw [he]
    refine ⟨done, hwritten, ?_, hs.running, fits_step segsz hs.fits (.caughtUp io)⟩
    exact hsame.symm ▸ hshare
  · have hsplit : s.server.unread pid = partHeaders pid (walOf [.record r io]) ++
        partHeaders pid (s.server.wal.drop (s.server.endRecPtr + 1)) := by
      obtain ⟨hlen, hget⟩ := List.getElem?_eq_some_iff.mp hr
      rw [Server.unread, List.drop_eq_getElem_cons hlen, hget]
      exact partHeaders_append pid [r] _
    rw [he]
    have hfits := fits_step segsz hs.fits (.record r io)
    cases hread : partHeaders pid (walOf [.record r io]) with
    | nil =>
      rw [hread, List.nil_append] at hsplit
      have hsame := share_other_step segsz hs.fits hshare.clean hread
      rw [hsplit] at hwritten hshare
      exact ⟨done, hwritten, hsame.symm ▸ hshare, hs.running, hfits⟩
    | cons h rest =>
      have hrec := hread
      rw [partHeaders_record] at hrec
      cases hd : r.dataHeader with
      | none => rw [hd] at hrec; cases hrec
      | some h' =>
        rw [hd, Option.toList_some] at hrec
        by_cases hp : h'.partitionId = pid
        · rw [List.filter_cons_of_pos (by simpa using hp), List.filter_nil] at hrec
          obtain ⟨rfl, rfl⟩ := List.cons.inj hrec
          have hev : s.server.event (.demux (.record io saveOk)) = some (.record r io) := by
            simp only [Server.event, hs.running, hlt, and_self, if_true, hr, Option.map_some]
          have hout := hroom _ hev h' hd hp
          have hroute : (demuxStep segsz s.server.demux (.record r io)).share pid =
              routeShare segsz io h' (s.server.demux.share pid) := by
            rw [share_step_of_not_shutOut _ hs.fits hout]
            simp only [shareStep, hd, if_pos hp]
          rw [hread, List.singleton_append] at hsplit
          have hpos := hs.pos
          have hinc := hs.increasing
          rw [hsplit] at hwritten hshare
          rw [hwritten] at hpos hinc
          have hsub := (List.append_sublist_append_left done).mpr (List.singleton_sublist.mpr
            (List.mem_cons_self (a := h') (l := partHeaders pid (s.server.wal.drop (s.server.endRecPtr + 1)))))
          refine ⟨done ++ [h'], ?_, ?_, hs.running, hfits⟩
          · rw [hwritten, List.append_assoc, List.singleton_append]
            rfl
          · refine hroute.symm ▸ hshare.route hok.1 hp (fun a ha => hpos a (hsub.subset ha)) (hinc.sublist hsub)
        · rw [List.filter_cons_of_neg (by simpa using hp)] at hrec
          cases hrec
  · -- what it passes over is not of the partition
    have hunread : s.server.unread pid = partHeaders pid (s.server.wal.drop (s.server.skipTo (.demux round))) := by
      have hsplit := drop_take_split s.server.wal hle (Nat.le_max_left _ s.server.wal.length)
      rw [List.take_of_length_le (Nat.le_max_right _ _)] at hsplit
      rw [Server.unread, hsplit, partHeaders_append, hskip hs.running hlt, List.nil_append]
    rw [hunread] at hwritten hshare
    rw [he]
    exact ⟨done, hwritten, hshare, hs.running, hs.fits⟩
  · rw [he]
    exact ⟨done, hwritten, hshare, hs.running, hs.fits⟩

theorem ResetServer.Holds.server (hs : s.Holds segsz pid) {l : Label} (hok : l.Ok) (hl : l.Serves)
    (hw : WritesAfresh pid s l) (hroom : ReadsWithRoom pid s.server l) (hskip : SkipsNoneOf pid s (.server l)) :
    (resetStep segsz s (.server l)).Holds segsz pid := by
  have hplaced := Server.placed_step segsz hs.placed l
  have hwal := Server.wal_step segsz (s := s.server) hl.keepsFiles.not_crash
  have hwritten := ResetServer.written_step segsz hs.since_le hl
  obtain ⟨hpos, hinc⟩ := hs.written_add hw
  have hsince : s.since pid ≤ (serverStep segsz s.server l).wal.length := by
    rw [hwal, List.length_append]
    exact Nat.le_trans hs.since_le (Nat.le_add_right _ _)
  rw [← hwritten] at hpos hinc
  have hmk : (serverStep segsz s.server l).running = true → (serverStep segsz s.server l).demux.Fits →
      (∃ done, (resetStep segsz s (.server l)).written pid = done ++ (serverStep segsz s.server l).unread pid ∧
        ShareAfresh segsz pid done ((serverStep segsz s.server l).unread pid)
          ((serverStep segsz s.server l).demux.share pid)) → (resetStep segsz s (.server l)).Holds segsz pid :=
    fun hrun hfits hshare => ⟨hplaced, hrun, hfits, hsince, hpos, hinc, hshare⟩
  by_cases hround : ∃ round, l = .demux round
  · obtain ⟨round, rfl⟩ := hround
    obtain ⟨done, hdone, hshare, hrun, hfits⟩ := hs.round hok hroom hskip
    refine hmk hrun hfits ⟨done, ?_, hshare⟩
    rw [hwritten, ← hdone]
    exact List.append_nil _
  · obtain ⟨hdemux, hend, hrun⟩ := Server.other_step segsz hs.running hl fun round h => hround ⟨round, h⟩
    obtain ⟨done, hdone, hshare⟩ := hs.share
    have hunread : (serverStep segsz s.server l).unread pid =
        s.server.unread pid ++ partHeaders pid (s.server.added l) := by
      rw [Server.unread, hwal, hend, List.drop_append_of_le_length hs.placed.end_le, partHeaders_append]
      rfl
    refine hmk hrun (hdemux ▸ hs.fits) ⟨done, ?_, ?_⟩
    · rw [hwritten, hunread, hdone, List.append_assoc]
    · rw [hunread, hdemux]
      rcases partHeaders_added pid s.server l with hnil | ⟨x, hx, hp, heq⟩
      · rw [hnil, List.append_nil]
        exact hshare
      · rw [heq]
        refine hshare.append fun hempty w hv hlast => ?_
        rw [← hdone] at hempty
        exact (hw x hx hp).2.2 hempty w hv hlast

/-- With nothing written the directory is empty. -/
theorem ResetServer.Holds.names_empty (hs : s.Holds segsz pid) (hw : s.written pid = []) :
    (s.server.demux.parwal pid).names = ∅ := by
  obtain ⟨done, hdone, ⟨-, hp, -⟩ | ⟨hne, -⟩⟩ := hs.share
  · exact hp.empty
  · rw [hw] at hdone
    exact absurd (List.append_eq_nil_iff.mp hdone.symm).1 hne

theorem ResetServer.allocated_append {t : ResetServer} {n : Nat} {new : List (Oid × UInt64)}
    (hn : s.fresh pid = some n) (hfresh : t.fresh pid = some n) (hle : n ≤ s.server.assigned.length)
    (ha : t.server.assigned = s.server.assigned ++ new) :
    t.allocated pid = s.allocated pid ++ (new.filter fun a => a.1 = pid).map (·.2) := by
  simp only [ResetServer.allocated, hn, hfresh, ha]
  rw [List.drop_append_of_le_length hle, List.filter_append, List.map_append]

theorem ResetServer.StartsAtOne.server (h : s.StartsAtOne pid) (hs : s.Holds segsz pid) {l : Label} (hl : l.Serves) :
    (resetStep segsz s (.server l)).StartsAtOne pid := by
  intro n hn
  obtain ⟨hle, hor⟩ := h n hn
  obtain ⟨new, hnew⟩ := Server.assigned_prefix segsz (s := s.server) l
  have hle' : n ≤ (serverStep segsz s.server l).assigned.length :=
    Nat.le_trans hle (hnew ▸ by simp)
  refine ⟨hle', ?_⟩
  rcases hor with ⟨hnone, hq, hw⟩ | hone
  · rcases hq.step segsz (hs.names_empty hw) hl with ⟨hq', new, hnew, hother⟩ | hfirst
    · refine Or.inl ⟨?_, hq', ?_⟩
      · rw [ResetServer.allocated_append (s := s) (t := resetStep segsz s (.server l)) hn hn hle hnew, hnone,
          List.filter_eq_nil_iff.mpr fun a ha => by simpa using hother a ha]
        rfl
      · rw [ResetServer.written_step _ hs.since_le hl, hw]
        rcases partHeaders_added pid s.server l with hnil | ⟨x, hx, hp, -⟩
        · rw [hnil]
          rfl
        · -- no call holds an LSN to insert
          obtain ⟨hmem, hst⟩ := Server.mem_of_inserts hx
          exact absurd hst ((hq.2 x.1 hmem hp).2 x.2)
    · right
      rw [ResetServer.allocated_append (s := s) (t := resetStep segsz s (.server l)) hn hn hle hfirst, hnone,
        List.filter_cons_of_pos (by simp)]
      rfl
  · right
    rw [ResetServer.allocated_append (s := s) (t := resetStep segsz s (.server l)) hn hn hle hnew.symm,
      List.head?_append, hone]
    rfl

/-! ### The reset -/

theorem ResetServer.Holds.resetFiles (hs : s.Holds segsz pid) {q : Oid} {rd : Readdir}
    (hp : q = pid → NothingPending pid s.server) : (resetStep segsz s (.resetFiles q rd)).Holds segsz pid := by
  obtain ⟨hfl, hredo, hcust, hstart, hend⟩ := hs.placed
  have hplaced : (resetStep segsz s (.resetFiles q rd)).server.Placed := ⟨hfl, hredo, hcust, hstart, hend⟩
  have hfits : (resetStep segsz s (.resetFiles q rd)).server.demux.Fits := ⟨hs.fits.nodup, hs.fits.le⟩
  obtain ⟨done, hdone, hshare⟩ := hs.share
  by_cases hq : q = pid
  · subst hq
    have hunread := (hp rfl).1
    have hsince : (resetStep segsz s (.resetFiles q rd)).since q = s.server.wal.length := Function.update_self ..
    have hwritten : (resetStep segsz s (.resetFiles q rd)).written q = [] := by
      rw [ResetServer.written, hsince]
      exact congrArg (partHeaders q) List.drop_length
    have hview : (resetStep segsz s (.resetFiles q rd)).server.demux.share q =
        ((s.server.demux.share q).1, unlinkAll rd (s.server.demux.share q).2) :=
      congrArg (Prod.mk (Demux.findWriter q s.server.demux.writers)) (Function.update_self ..)
    have hpos := hs.pos
    rw [hunread] at hdone hshare
    rw [hdone, List.append_nil] at hpos
    refine ⟨hplaced, hs.running, hfits, Nat.le_of_eq hsince, ?_, ?_, [], ?_, ?_⟩
    · rw [hwritten]
      exact fun _ h => nomatch h
    · rw [hwritten]
      exact List.Pairwise.nil
    · exact hwritten.trans hunread.symm
    · rw [hview]
      exact hunread.symm ▸ hshare.reset hpos rd
  · have hne : pid ≠ q := fun h => hq h.symm
    have hsince : (resetStep segsz s (.resetFiles q rd)).since pid = s.since pid := Function.update_of_ne hne ..
    have hview : (resetStep segsz s (.resetFiles q rd)).server.demux.share pid = s.server.demux.share pid :=
      congrArg (Prod.mk (Demux.findWriter pid s.server.demux.writers)) (Function.update_of_ne hne ..)
    have hwritten : (resetStep segsz s (.resetFiles q rd)).written pid = s.written pid := by
      rw [ResetServer.written, hsince]
      rfl
    refine ⟨hplaced, hs.running, hfits, hsince ▸ hs.since_le, hwritten ▸ hs.pos, hwritten ▸ hs.increasing,
      done, hwritten.trans hdone, ?_⟩
    rw [hview]
    exact hshare

theorem ResetServer.StartsAtOne.resetFiles (h : s.StartsAtOne pid) {q : Oid} {rd : Readdir}
    (hp : q = pid → NothingPending pid s.server) : (resetStep segsz s (.resetFiles q rd)).StartsAtOne pid := by
  intro n hn
  by_cases hq : q = pid
  · subst hq
    have hfresh : (resetStep segsz s (.resetFiles q rd)).fresh q = some s.server.assigned.length :=
      Function.update_self ..
    obtain rfl := Option.some.inj (hfresh.symm.trans hn)
    refine ⟨Nat.le_refl _, Or.inl ⟨?_, (hp rfl).2, ?_⟩⟩
    · simp only [ResetServer.allocated, hn]
      exact congrArg (fun l : List (Oid × UInt64) => (l.filter fun a => a.1 = q).map (·.2)) List.drop_length
    · have hsince : (resetStep segsz s (.resetFiles q rd)).since q = s.server.wal.length := Function.update_self ..
      rw [ResetServer.written, hsince]
      exact congrArg (partHeaders q) List.drop_length
  · have hne : pid ≠ q := fun h => hq h.symm
    have hfresh : (resetStep segsz s (.resetFiles q rd)).fresh pid = s.fresh pid := Function.update_of_ne hne ..
    have hsince : (resetStep segsz s (.resetFiles q rd)).since pid = s.since pid := Function.update_of_ne hne ..
    have hwritten : (resetStep segsz s (.resetFiles q rd)).written pid = s.written pid := by
      rw [ResetServer.written, hsince]
      rfl
    have halloc : (resetStep segsz s (.resetFiles q rd)).allocated pid = s.allocated pid := by
      rw [ResetServer.allocated, hfresh]
      rfl
    rw [hwritten, halloc]
    exact h n (hfresh ▸ hn)

/-- A step that leaves the positions, the worker and what it wrote as they are. -/
theorem ResetServer.Holds.same {s' : ResetServer} (hs : s.Holds segsz pid) (hplaced : s'.server.Placed)
    (hrun : s'.server.running = s.server.running) (hdemux : s'.server.demux = s.server.demux)
    (hsince : s'.since = s.since) (hwal : s'.server.wal = s.server.wal)
    (hend : s'.server.endRecPtr = s.server.endRecPtr) : s'.Holds segsz pid := by
  have hwritten : s'.written pid = s.written pid := by
    rw [ResetServer.written, hsince, hwal, ResetServer.written]
  have hunread : s'.server.unread pid = s.server.unread pid := by
    rw [Server.unread, hwal, hend, Server.unread]
  refine ⟨hplaced, hrun.trans hs.running, hdemux ▸ hs.fits, ?_, hwritten ▸ hs.pos, hwritten ▸ hs.increasing, ?_⟩
  · rw [hsince, hwal]
    exact hs.since_le
  · rw [hwritten, hunread, hdemux]
    exact hs.share

theorem ResetServer.Holds.step (hs : s.Holds segsz pid) {l : ResetLabel} (hok : l.Ok) (hskip : SkipsNoneOf pid s l)
    (hk : KeepsAfresh pid s l) :
    (resetStep segsz s l).Holds segsz pid := by
  cases l with
  | server l => exact hs.server hok.1 hok.2 hk.1 hk.2 hskip
  | allocReturn i =>
    simp only [resetStep, allocReturn]
    split
    · split
      · obtain ⟨hfl, hredo, hcust, hstart, hend⟩ := hs.placed
        exact hs.same ⟨hfl, hredo, Server.custom_setCall hcust (fun n hn => nomatch hn), hstart, hend⟩
          rfl rfl rfl rfl rfl
      · exact hs
    · exact hs
  | resetEntry q =>
    obtain ⟨hfl, hredo, hcust, hstart, hend⟩ := hs.placed
    exact hs.same ⟨hfl, hredo, hcust, hstart, hend⟩ rfl rfl rfl rfl rfl
  | resetFiles q rd => exact hs.resetFiles hk

theorem ResetServer.StartsAtOne.step (h : s.StartsAtOne pid) (hs : s.Holds segsz pid) {l : ResetLabel} (hok : l.Ok)
    (hk : KeepsAfresh pid s l) : (resetStep segsz s l).StartsAtOne pid := by
  cases l with
  | server l => exact h.server hs hok.2
  | allocReturn i =>
    simp only [resetStep, allocReturn]
    split
    · split
      · intro n hn
        obtain ⟨hle, hor⟩ := h n hn
        refine ⟨hle, hor.imp_left fun ⟨hnone, hq, hw⟩ => ⟨hnone, hq.setCall fun _ => ?_, hw⟩⟩
        exact ⟨(fun _ h => nomatch h), (fun _ h => nomatch h)⟩
      · exact h
    · exact h
  | resetEntry q =>
    intro n hn
    by_cases hq : q = pid
    · subst hq
      have hnone : (resetStep segsz s (.resetEntry q)).fresh q = none := Function.update_self ..
      rw [hnone] at hn
      cases hn
    · have hfresh : (resetStep segsz s (.resetEntry q)).fresh pid = s.fresh pid :=
        Function.update_of_ne (fun h => hq h.symm) ..
      have halloc : (resetStep segsz s (.resetEntry q)).allocated pid = s.allocated pid := by
        rw [ResetServer.allocated, hfresh]
        rfl
      obtain ⟨hle, hor⟩ := h n (hfresh ▸ hn)
      rw [halloc]
      exact ⟨hle, hor.imp_left fun ⟨hnone, hquiet, hw⟩ =>
        ⟨hnone, ⟨fun hm => hquiet.1 (Finmap.mem_erase.mp hm).2, hquiet.2⟩, hw⟩⟩
  | resetFiles q rd => exact h.resetFiles hk

end

/-- **A reset starts afresh.** In every state of a run whose resets find nothing of the
partition pending, and whose records the Demux then takes for the first ones and does not pass
over: once it has read them all the directory holds those written since the last reset, each once, and the
LSNs since then start from 1. -/
theorem reset_starts_afresh (segsz : WalSegSize) (pid : Oid) (ls : List ResetLabel) (hls : ∀ l ∈ ls, l.Ok)
    (hskip : Run.Along (resetStep segsz) (SkipsNoneOf pid) (ResetServer.start segsz) ls)
    (hk : Run.Along (resetStep segsz) (KeepsAfresh pid) (ResetServer.start segsz) ls) :
    let s := resetRun segsz (ResetServer.start segsz) ls
    (s.server.endRecPtr = s.server.wal.length →
        (s.server.demux.parwal pid).records = (s.written pid : Multiset PartWALHeader)) ∧
      ∀ lsn ∈ (s.allocated pid).head?, lsn = 1 := by
  intro s
  have hrun := Run.run_invariant (resetStep segsz)
    (I := fun s => s.Holds segsz pid ∧ s.StartsAtOne pid) ⟨holds_start segsz pid, startsAtOne_start segsz pid⟩
    (fun s l hs hl => ⟨hs.1.step hl.1 hl.2.1 hl.2.2, hs.2.step hs.1 hl.1 hl.2.2⟩)
    (Run.along_and (resetStep segsz) (Run.along_of_forall (resetStep segsz) hls) (Run.along_and _ hskip hk))
  have hs : s.Holds segsz pid ∧ s.StartsAtOne pid := hrun
  refine ⟨fun hread => ?_, fun lsn hlsn => ?_⟩
  · obtain ⟨done, hdone, hshare⟩ := hs.1.share
    have hunread : s.server.unread pid = [] := by
      rw [Server.unread, hread, List.drop_length]
      rfl
    rw [hdone, hunread, List.append_nil]
    exact hshare.records
  · cases hfresh : s.fresh pid with
    | none =>
      rw [ResetServer.allocated, hfresh] at hlsn
      cases hlsn
    | some n =>
      rcases (hs.2 n hfresh).2 with ⟨hnone, -⟩ | hone
      · rw [hnone] at hlsn
        cases hlsn
      · rw [hone] at hlsn
        exact (Option.some.inj hlsn).symm

/-- A call writes a record of partition 7, the Demux reads `n` records, the partition is
reset, a second call writes a record, the Demux reads the rest. -/
def resetAfter (n : Nat) : List ResetLabel :=
  (.begin 7 1 0 true :: callSteps 0 5 ++ readSteps n).map .server ++
    [.resetEntry 7, .resetFiles 7 .ascending] ++
    (.begin 7 1 8 true :: callSteps 1 5 ++ readSteps (2 - n)).map .server

theorem ok_resetAfter {n : Nat} {l : ResetLabel} (h : l ∈ resetAfter n) : l.Ok := by
  simp only [resetAfter, List.mem_append, List.mem_map, List.mem_cons, List.not_mem_nil, or_false] at h
  rcases h with (⟨l, (rfl | h) | h, rfl⟩ | rfl | rfl) | ⟨l, (rfl | h) | h, rfl⟩
  · exact ⟨rfl, trivial⟩
  · exact ok_callSteps h
  · exact ok_readSteps h
  · exact trivial
  · exact trivial
  · exact ⟨rfl, trivial⟩
  · exact ok_callSteps h
  · exact ok_readSteps h

/-- The first record is read before the reset. -/
theorem reset_starts_afresh_caught_up :
    let s := resetRun .default (ResetServer.start .default) (resetAfter 1)
    (s.server.demux.parwal 7).records = (s.written 7 : Multiset PartWALHeader) ∧
      ∀ lsn ∈ (s.allocated 7).head?, lsn = 1 := by
  obtain ⟨hrecords, hfirst⟩ :=
    reset_starts_afresh .default 7 (resetAfter 1) (fun _ h => ok_resetAfter h) (by decide +kernel) (by decide +kernel)
  exact ⟨hrecords (by decide +kernel), hfirst⟩

/-- It is read after the reset: the Demux takes the second one, again with
`partition_lsn` 1, for a duplicate, and the directory holds the one from before. -/
theorem backlog_survives :
    let s := resetRun .default (ResetServer.start .default) (resetAfter 0)
    (∀ l ∈ resetAfter 0, l.Ok) ∧
      Run.Along (resetStep .default) (SkipsNoneOf 7) (ResetServer.start .default) (resetAfter 0) ∧
      s.server.endRecPtr = s.server.wal.length ∧
      s.written 7 = [buildHeader 7 1 8 1] ∧
      (s.server.demux.parwal 7).records = ([buildHeader 7 1 0 1] : List PartWALHeader) ∧
      (s.server.demux.parwal 7).records ≠ (s.written 7 : Multiset PartWALHeader) := by
  refine ⟨fun _ h => ok_resetAfter h, ?_, ?_, ?_, ?_, ?_⟩ <;> decide +kernel

end PartDist
