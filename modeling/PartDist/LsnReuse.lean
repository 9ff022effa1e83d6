import PartDist.Restart

/-!
# `partition_lsn` across restarts

`AllocPartitionLSN` keeps its counters in shared memory and, when a partition has no
entry, starts from what `GetLastWrittenPartitionLSN` finds in the files that are left.

`assigned_increasing`: the LSNs handed out for a partition strictly increase over any
run, restarts, crashes and cleanup included, as long as every such scan comes upon a
record with the last LSN handed out, or a later one, and the counter does not wrap.
-/

namespace PartDist

open Bytes PartWALHeader

/-! ## The condition -/

/-- The LSNs handed out for a partition, oldest first. -/
def Server.assignedTo (s : Server) (pid : Oid) : List UInt64 :=
  (s.assigned.filter fun a => a.1 = pid).map (·.2)

/-- The scan a step makes for a partition without an entry. -/
def Server.scans (s : Server) : Label → Option ( ScanIO × Oid)
  | .advance i sc => (s.calls[i]?).bind fun c =>
    if c.state = .scanning ∧ c.partitionId ∉ s.lsnHash then some (sc, c.partitionId) else none
  | _ => none

/-- The `next_lsn` a step takes from an entry. -/
def Server.handsOut (s : Server) : Label → Option UInt64
  | .advance i _ => (s.calls[i]?).bind fun c =>
    match c.state with
    | .entering _ => s.lsnHash.lookup c.partitionId
    | _ => none
  | _ => none

/-- A segment file ends with a record of the partition that has the LSN `last` or a
later one, not the greatest one there is; no higher file shows an LSN. -/
def NewestOnDisk (sc : ScanIO) (pid : Oid) (last : UInt64) (d : Dir) : Prop :=
  ∃ s ∈ d.listed sc.readdir, sc.opens s = true ∧ headerSize ∣ (d.content s).length ∧
    (∃ h ∈ (d.headers s).getLast?, h.validFor pid = true ∧ last ≤ h.partitionLsn ∧
      h.partitionLsn ≠ 0 ∧ h.lsn + 1 < 2 ^ 64) ∧
    ∀ t ∈ d.listed sc.readdir, s < t → sc.opens t = true →
      ∀ h ∈ d.headers t, h.validFor pid = true → h.partitionLsn = 0

instance (sc : ScanIO) (pid : Oid) (last : UInt64) (d : Dir) : Decidable (NewestOnDisk sc pid last d) :=
  inferInstanceAs (Decidable (∃ s ∈ d.listed sc.readdir, _))

/-- A scan for a partition without an entry finds its last LSN on disk; an entry has
not wrapped. -/
def KeepsCount (s : Server) (l : Label) : Prop :=
  (∀ x ∈ s.scans l, ∀ last ∈ (s.assignedTo x.2).getLast?,
      NewestOnDisk x.1 x.2 last (s.demux.parwal x.2)) ∧
    ∀ next ∈ s.handsOut l, next ≠ 0

instance (s : Server) (l : Label) : Decidable (KeepsCount s l) :=
  have (pid : Oid) (sc : ScanIO) : Decidable (∀ last ∈ (s.assignedTo pid).getLast?,
      NewestOnDisk sc pid last (s.demux.parwal pid)) := Option.decidableForallMem _
  have : Decidable (∀ next ∈ s.handsOut l, next ≠ 0) := Option.decidableForallMem _
  inferInstanceAs (Decidable (_ ∧ _))

/-! ## What a scan finds -/

/-- The value a new entry starts from is above `last`. -/
theorem initLsn_above {sc : ScanIO} {pid : Oid} {last : UInt64} {d : Dir}
    (h : NewestOnDisk sc pid last d) : last < initLsn (getLastWrittenPartitionLSN sc pid d) := by
  obtain ⟨s, hs, hopen, hwhole, ⟨h, hh, hv, hle, h0, hmax⟩, htop⟩ := h
  obtain ⟨l, hl⟩ := List.getLast?_eq_some_iff.mp hh
  have hcontent : d.content s = encodeAll l ++ h.encode := by
    rw [← encodeAll_readHeaders hwhole, ← Dir.headers, hl, encodeAll_append, encodeAll_singleton]
  have hfile : fileLsn pid (d.content s) = h.partitionLsn := by
    rw [hcontent, fileLsn_append_encode (dvd_length_encodeAll l) hv h0]
  have hscan : getLastWrittenPartitionLSN sc pid d = h.partitionLsn := by
    rw [← hfile] at h0 ⊢
    exact scan_of_top sc hs hopen h0 fun t ht hlt ho => fileLsn_eq_zero_iff.mpr (htop t ht hlt ho)
  have hpos : 0 < h.partitionLsn := UInt64.pos_iff_ne_zero.mpr h0
  rw [hscan, initLsn, if_pos hpos, UInt64.lt_iff_toNat_lt, UInt64.toNat_add]
  have := UInt64.le_iff_toNat_le.mp hle
  have hmod : (h.partitionLsn.toNat + (1 : UInt64).toNat) % 2 ^ 64 = h.partitionLsn.toNat + 1 :=
    Nat.mod_eq_of_lt hmax
  rw [hmod]
  omega

/-! ## The counter -/

/-- The invariant: the LSNs handed out increase; an entry is one past the last of them;
a call that is about to make an entry starts above all of them. -/
structure Server.Counted (s : Server) : Prop where
  increasing : ∀ pid, (s.assignedTo pid).Pairwise (· < ·)
  entry : ∀ pid next, s.lsnHash.lookup pid = some next →
    ∃ last ∈ (s.assignedTo pid).getLast?, next = last + 1
  fresh : ∀ c ∈ s.calls, ∀ init, c.state = .entering init → c.partitionId ∉ s.lsnHash →
    ∀ a ∈ s.assignedTo c.partitionId, a < init

section
variable {segsz : WalSegSize} {s : Server}

theorem counted_boot (wal : List XLogRecord) (parwal : Parwal) : (Server.boot wal parwal).Counted :=
  ⟨fun _ => List.Pairwise.nil, (fun _ _ h => nomatch h), (fun _ hc => nomatch hc)⟩

theorem le_getLast {l : List UInt64} (hl : l.Pairwise (· < ·)) {last a : UInt64}
    (hlast : last ∈ l.getLast?) (ha : a ∈ l) : a ≤ last := by
  obtain ⟨l', rfl⟩ := List.getLast?_eq_some_iff.mp hlast
  rcases List.mem_append.mp ha with ha | ha
  · exact UInt64.le_of_lt ((List.pairwise_append.mp hl).2.2 a ha last List.mem_cons_self)
  · rw [List.mem_singleton.mp ha]
    exact UInt64.le_refl _

theorem lt_succ_of_ne_zero {x : UInt64} (h : x + 1 ≠ 0) : x < x + 1 := by
  rw [UInt64.lt_iff_toNat_lt, UInt64.toNat_add, UInt64.toNat_one]
  by_cases hmax : x.toNat + 1 = 2 ^ 64
  · refine absurd ?_ h
    rw [← UInt64.toNat_inj, UInt64.toNat_add, UInt64.toNat_one, hmax]
    rfl
  · have := x.toNat_lt
    rw [Nat.mod_eq_of_lt (by omega)]
    omega

/-- The steps of the LSN table and its callers. -/
def Label.touchesTable : Label → Bool
  | .begin .. => true
  | .advance .. => true
  | .restart => true
  | .crash .. => true
  | _ => false

theorem table_step (segsz : WalSegSize) {l : Label} (hl : l.touchesTable = false) :
    (serverStep segsz s l).assigned = s.assigned ∧ (serverStep segsz s l).lsnHash = s.lsnHash ∧
      (serverStep segsz s l).calls = s.calls := by
  cases l with
  | begin => cases hl
  | advance => cases hl
  | restart => cases hl
  | crash => cases hl
  | otherRecord r => simp only [serverStep]; split <;> exact ⟨rfl, rfl, rfl⟩
  | checkpoint redo => simp only [serverStep]; split <;> exact ⟨rfl, rfl, rfl⟩
  | demuxStart => simp only [serverStep]; split <;> exact ⟨rfl, rfl, rfl⟩
  | demux round =>
    simp only [serverStep]
    split
    · rw [Server.demuxIteration_eq]
      exact ⟨rfl, rfl, rfl⟩
    · exact ⟨rfl, rfl, rfl⟩
  | demuxStop io destroyIo saveOk =>
    simp only [serverStep]
    split
    · rw [Server.demuxShutdown, Server.saveDemuxProgress_eq]
      exact ⟨rfl, rfl, rfl⟩
    · exact ⟨rfl, rfl, rfl⟩
  | flushPoll i => simp only [serverStep]; split <;> exact ⟨rfl, rfl, rfl⟩
  | _ => exact ⟨rfl, rfl, rfl⟩

/-- What an LSN handed out adds. -/
theorem assignedTo_snoc {s' : Server} {q : Oid} {lsn : UInt64} (h : s'.assigned = s.assigned ++ [(q, lsn)])
    (pid : Oid) : s'.assignedTo pid = s.assignedTo pid ++ if q = pid then [lsn] else [] := by
  rw [Server.assignedTo, h, List.filter_append, List.map_append, Server.assignedTo]
  by_cases hp : q = pid
  · rw [if_pos hp, List.filter_cons_of_pos (by simpa using hp)]
    rfl
  · rw [if_neg hp, List.filter_cons_of_neg (by simpa using hp)]
    rfl

/-- Steps that leave the LSN table, its history and the calls alone. -/
theorem Server.Counted.same {s' : Server} (hs : s.Counted) (hassigned : s'.assigned = s.assigned)
    (hhash : s'.lsnHash = s.lsnHash) (hcalls : s'.calls = s.calls) : s'.Counted := by
  have hto : ∀ pid, s'.assignedTo pid = s.assignedTo pid := fun pid => by
    rw [Server.assignedTo, hassigned, Server.assignedTo]
  refine ⟨fun pid => hto pid ▸ hs.increasing pid, fun pid next h => ?_, fun c hc init hst hn => ?_⟩
  · rw [hto]
    exact hs.entry pid next (hhash ▸ h)
  · rw [hto]
    exact hs.fresh c (hcalls ▸ hc) init hst (hhash ▸ hn)

/-- A call moves on without the exclusive lock. -/
theorem Server.Counted.setCall (hs : s.Counted) {i : Nat} {c : Call} {t : CallState}
    (hst : ∀ init, t = .entering init → c.partitionId ∉ s.lsnHash →
      ∀ a ∈ s.assignedTo c.partitionId, a < init) : (s.setCall i c t).Counted := by
  refine ⟨hs.increasing, hs.entry, fun c' hc' init hst' hn => ?_⟩
  rcases List.mem_or_eq_of_mem_set hc' with hc' | rfl
  · exact hs.fresh c' hc' init hst' hn
  · exact hst init hst' hn

/-- An LSN above all earlier ones of its partition is handed out. -/
theorem Server.Counted.handOut (hs : s.Counted) {i : Nat} {c : Call} {lsn : UInt64}
    (habove : ∀ a ∈ s.assignedTo c.partitionId, a < lsn) :
    Server.Counted { s.setCall i c (.inserting lsn) with
      lsnHash := s.lsnHash.insert c.partitionId (lsn + 1)
      assigned := s.assigned ++ [(c.partitionId, lsn)] } := by
  refine ⟨fun pid => ?_, fun pid next h => ?_, fun c' hc' init hst hn => ?_⟩
  · rw [assignedTo_snoc rfl]
    split
    · next hp =>
      subst hp
      refine List.pairwise_append.mpr ⟨hs.increasing _, List.pairwise_singleton _ _, fun a ha b hb => ?_⟩
      rw [List.mem_singleton.mp hb]
      exact habove a ha
    · rw [List.append_nil]
      exact hs.increasing pid
  · rw [assignedTo_snoc rfl]
    by_cases hp : c.partitionId = pid
    · subst hp
      rw [Finmap.lookup_insert] at h
      rw [if_pos rfl]
      exact ⟨lsn, by simp, (Option.some.inj h).symm⟩
    · rw [Finmap.lookup_insert_of_ne _ fun h => hp h.symm] at h
      rw [if_neg hp, List.append_nil]
      exact hs.entry pid next h
  · have hne : c'.partitionId ≠ c.partitionId := by
      intro heq
      refine hn ?_
      rw [heq]
      exact Finmap.mem_insert.mpr (Or.inl rfl)
    rw [assignedTo_snoc rfl, if_neg fun h => hne h.symm, List.append_nil]
    rcases List.mem_or_eq_of_mem_set hc' with hc' | rfl
    · refine hs.fresh c' hc' init hst fun hm => hn ?_
      exact Finmap.mem_insert.mpr (Or.inr hm)
    · cases hst

theorem counted_advance (hs : s.Counted) {i : Nat} {sc : ScanIO} {c : Call} (hc : s.calls[i]? = some c)
    (hk : KeepsCount s (.advance i sc)) : (Server.callStep sc i c s).Counted := by
  unfold Server.callStep
  split
  · refine hs.setCall fun init hst hn => ?_
    split at hst
    · next hm => exact absurd hm hn
    · cases hst
  · next hst =>
    refine hs.setCall fun init hst' hn a ha => ?_
    obtain rfl := CallState.entering.inj hst'
    have hscan : s.scans (.advance i sc) = some (sc, c.partitionId) := by
      simp only [Server.scans, hc, Option.bind_some, hst, hn, not_false_iff, and_self, if_true]
    obtain ⟨l, last, hl⟩ := List.eq_nil_or_concat _ |>.resolve_left (List.ne_nil_of_mem ha)
    have hlast : last ∈ (s.assignedTo c.partitionId).getLast? := by
      rw [hl, List.concat_eq_append, List.getLast?_concat]
      rfl
    have hle := le_getLast (hs.increasing _) hlast ha
    exact UInt64.lt_of_le_of_lt hle (initLsn_above (hk.1 _ hscan last hlast))
  · next init hst =>
    unfold allocEnter
    split
    · next lsn hash halloc =>
      split at halloc
      · next next hlook =>
        obtain ⟨rfl, rfl⟩ := Prod.mk.inj (Option.some.inj halloc)
        obtain ⟨last, hlast, rfl⟩ := hs.entry _ _ hlook
        have hne : last + 1 ≠ 0 := hk.2 _ (by simp only [Server.handsOut, hc, Option.bind_some, hst, hlook]; rfl)
        exact hs.handOut fun a ha =>
          UInt64.lt_of_le_of_lt (le_getLast (hs.increasing _) hlast ha) (lt_succ_of_ne_zero hne)
      · next hlook =>
        split at halloc
        · obtain ⟨rfl, rfl⟩ := Prod.mk.inj (Option.some.inj halloc)
          exact hs.handOut (hs.fresh c (List.mem_of_getElem? hc) init hst (Finmap.lookup_eq_none.mp hlook))
        · cases halloc
    · exact hs.setCall fun init hst' => nomatch hst'
  · have hset := hs.setCall (i := i) (c := c) (t := .flushing (s.wal.length + 1)) fun _ h => nomatch h
    exact hset.same rfl rfl rfl
  · next n _ =>
    have hset := hs.setCall (i := i) (c := c) (t := .returned n) fun _ h => nomatch h
    exact hset.same rfl rfl rfl
  · exact hs
  · exact hs

theorem counted_step {l : Label} (hs : s.Counted) (hk : KeepsCount s l) : (serverStep segsz s l).Counted := by
  cases ht : l.touchesTable with
  | false =>
    obtain ⟨hassigned, hhash, hcalls⟩ := table_step segsz (s := s) ht
    exact hs.same hassigned hhash hcalls
  | true =>
    cases l with
    | begin pid flags origLsn mkdirOk =>
      refine ⟨hs.increasing, hs.entry, fun c hc init hst hn => ?_⟩
      rcases List.mem_append.mp hc with hc | hc
      · exact hs.fresh c hc init hst hn
      · obtain rfl := List.mem_singleton.mp hc
        dsimp only at hst
        split at hst <;> cases hst
    | advance i sc =>
      simp only [serverStep]
      split
      · next c hc => exact counted_advance hs hc hk
      · exact hs
    | restart =>
      simp only [serverStep]
      split
      · exact hs
      · exact ⟨hs.increasing, (fun _ _ h => by cases h), (fun _ hc => by cases hc)⟩
    | crash keep created rd =>
      simp only [serverStep]
      split
      · exact ⟨hs.increasing, (fun _ _ h => by cases h), (fun _ hc => by cases hc)⟩
      · exact hs
    | _ => cases ht

end

/-- **No LSN is reused.** In every state of every run whose scans for partitions without
an entry find the last LSN handed out, each partition's LSNs strictly increase. -/
theorem assigned_increasing (segsz : WalSegSize) (wal : List XLogRecord) (parwal : Parwal)
    (ls : List Label) (hls : Run.Along (serverStep segsz) KeepsCount (Server.boot wal parwal) ls)
    (pid : Oid) :
    ((serverRun segsz (Server.boot wal parwal) ls).assignedTo pid).Pairwise (· < ·) :=
  (Run.run_invariant (serverStep segsz) (counted_boot wal parwal) (fun _ _ hs hl => counted_step hs hl)
    hls).increasing pid

/-- A record of segment 1, read by the Demux; the files up to `keepPtr` are cleaned up
and the worker is stopped. -/
def cleanedUp (keepPtr : XLogRecPtr) : List Label :=
  .demuxStart :: wholeCall ++ readSteps 1 ++
    [.cleanup 7 keepPtr .ascending fun _ => true, .demuxStop (fun _ => []) (fun _ => []) true]

/-- Segment 1 is kept. -/
theorem assigned_increasing_kept :
    ((serverRun .default (Server.boot [] fun _ => Dir.empty)
      (cleanedUp (2 ^ 25 - 1) ++ .restart :: wholeCall)).assignedTo 7).Pairwise (· < ·) :=
  assigned_increasing .default [] (fun _ => Dir.empty) (cleanedUp (2 ^ 25 - 1) ++ .restart :: wholeCall)
    (by decide +kernel) 7

/-- Segment 1 is removed: after a restart with nothing left to read, LSN 1 is handed out
again. -/
theorem cleaned_up_reused :
    let s := serverRun .default (Server.boot [] fun _ => Dir.empty) (cleanedUp (2 ^ 25))
    s.running = false ∧ s.endRecPtr = s.wal.length ∧
      (serverRun .default s (.restart :: wholeCall)).assignedTo 7 = [1, 1] ∧
      ¬ ((serverRun .default s (.restart :: wholeCall)).assignedTo 7).Pairwise (· < ·) := by
  refine ⟨?_, ?_, ?_, ?_⟩ <;> decide +kernel

end PartDist
