import PartDist.Lib.RwLock
import PartDist.LsnAlloc

/-!
# AllocPartitionLSN under lsn_lock

`AllocPartitionLSN` (partition_wal.c) access by access: the probe under the shared lock, the
scan without a lock, and under the exclusive lock `HASH_ENTER`, the setting of a new entry and
the two halves of `next_lsn++`.  Any number of backends make one call after another, their
accesses interleaved as the lock allows.

`locked_alloc`: still a partition's LSNs are handed out consecutively from what one of the
scans has found, and no two backends have the same one.  The two sections are `allocFind`
and, as one step, `allocEnter` (`enterSection_whole`).
-/

namespace PartDist

open RwLock

/-- Where a backend stands: before the probe, the test of `found`, the scan or the exclusive
lock; or it has returned, or `HASH_ENTER` has raised. -/
inductive AllocPc
  | probe
  | test
  | scan
  | enter
  | returned
  | failed
deriving DecidableEq

/-- The variables of a call.  `element` is what the element that `HASH_ENTER` would take has in
`next_lsn`. -/
structure AllocRegs where
  procNumber : Nat
  partitionId : Oid
  pc : AllocPc
  found : Bool
  initLsn : UInt64
  element : UInt64
  result : UInt64
deriving DecidableEq

/-- What lsn_lock guards; `handedOut` records who got which LSN, oldest first. -/
structure LsnTable where
  hash : PartWALLSNHash
  handedOut : List (Nat × Oid × UInt64)

/-- The LSNs of a partition that have been handed out. -/
def LsnTable.lsns (t : LsnTable) (pid : Oid) : List UInt64 :=
  (t.handedOut.filter fun x => x.2.1 = pid).map fun x => x.2.2

def allocFind : Access LsnTable AllocRegs := fun t r =>
  (t, { r with found := decide (r.partitionId ∈ t.hash), pc := .test })

/-- `hash_search(HASH_ENTER)`: a new entry has the key only. -/
def hashEnter : Access LsnTable AllocRegs := fun t r =>
  if r.partitionId ∈ t.hash then (t, { r with found := true })
  else if t.hash.keys.card < partdistPartitionMaxEntries then
    ({ t with hash := t.hash.insert r.partitionId r.element }, { r with found := false })
  else (t, { r with found := false, pc := .failed })

def setNext : Access LsnTable AllocRegs := fun t r =>
  if r.pc ≠ .failed ∧ r.found = false then ({ t with hash := t.hash.insert r.partitionId r.initLsn }, r)
  else (t, r)

/-- `result = entry->next_lsn` -/
def loadNext : Access LsnTable AllocRegs := fun t r =>
  if r.pc ≠ .failed then (t, { r with result := (t.hash.lookup r.partitionId).getD 0 }) else (t, r)

/-- `entry->next_lsn = result + 1` -/
def storeNext : Access LsnTable AllocRegs := fun t r =>
  if r.pc ≠ .failed then
    ({ hash := t.hash.insert r.partitionId (r.result + 1)
       handedOut := t.handedOut ++ [(r.procNumber, r.partitionId, r.result)] }, { r with pc := .returned })
  else (t, r)

def enterSection : List (Access LsnTable AllocRegs) := [hashEnter, setNext, loadNext, storeNext]

/-- What a backend learns from elsewhere: what a scan of a partition's files finds, the
element on the free list, the partition of its next call. -/
structure AllocEvent where
  last : Oid → UInt64
  element : UInt64
  partitionId : Oid

def allocProgram : Program LsnTable AllocRegs AllocEvent where
  enters r :=
    match r.pc with
    | .probe => some ⟨.shared, [allocFind]⟩
    | .enter => some ⟨.exclusive, enterSection⟩
    | _ => none
  act e r :=
    match r.pc with
    | .test => if r.found then { r with pc := .enter, initLsn := 1, element := e.element } else { r with pc := .scan }
    | .scan => { r with pc := .enter, initLsn := initLsn (e.last r.partitionId), element := e.element }
    | .returned => { r with partitionId := e.partitionId, pc := .probe }
    | .failed => { r with partitionId := e.partitionId, pc := .probe }
    | _ => r

/-- Backend `p` before its first call. -/
def AllocRegs.start (p : Nat) (pid : Oid) : AllocRegs := ⟨p, pid, .probe, false, 1, 0, 0⟩

/-- An empty table and backends that begin a call each. -/
def allocStart (calls : Nat → Oid) : State Nat LsnTable AllocRegs :=
  State.start ⟨∅, []⟩ fun p => AllocRegs.start p (calls p)

/-! ## The exclusive section as one step -/

section
variable {t : LsnTable} {r : AllocRegs}

/-- An entry that is there and holds `next`. -/
theorem takeNext {next : UInt64} (hpc : r.pc ≠ .failed) (hnext : t.hash.lookup r.partitionId = some next) :
    runAccesses [loadNext, storeNext] t r =
      ({ hash := t.hash.insert r.partitionId (next + 1)
         handedOut := t.handedOut ++ [(r.procNumber, r.partitionId, next)] },
        { r with result := next, pc := .returned }) := by
  have hload : loadNext t r = (t, { r with result := next }) := by
    unfold loadNext
    rw [if_pos hpc, hnext]
    rfl
  simp only [runAccesses, hload]
  exact if_pos hpc

theorem enterSection_whole (hpc : r.pc = .enter) :
    runAccesses enterSection t r =
      match allocEnter r.partitionId r.initLsn t.hash with
      | some (lsn, hash) =>
        ({ hash := hash, handedOut := t.handedOut ++ [(r.procNumber, r.partitionId, lsn)] },
          { r with found := decide (r.partitionId ∈ t.hash), result := lsn, pc := .returned })
      | none => (t, { r with found := false, pc := .failed }) := by
  have hne : r.pc ≠ .failed := by
    rw [hpc]
    exact AllocPc.noConfusion
  unfold allocEnter
  rw [enterSection, runAccesses, runAccesses]
  by_cases hmem : r.partitionId ∈ t.hash
  · obtain ⟨next, hnext⟩ := Finmap.mem_iff.mp hmem
    have henter : hashEnter t r = (t, { r with found := true }) := if_pos hmem
    have hset : setNext t { r with found := true } = (t, { r with found := true }) :=
      if_neg fun h => Bool.noConfusion h.2
    rw [henter, hset, hnext, decide_eq_true hmem]
    exact takeNext (r := { r with found := true }) hne hnext
  · rw [Finmap.lookup_eq_none.mpr hmem, decide_eq_false hmem]
    by_cases hroom : t.hash.keys.card < partdistPartitionMaxEntries
    · have henter : hashEnter t r =
          ({ t with hash := t.hash.insert r.partitionId r.element }, { r with found := false }) := by
        unfold hashEnter
        rw [if_neg hmem, if_pos hroom]
      have hset : setNext { t with hash := t.hash.insert r.partitionId r.element } { r with found := false } =
          ({ t with hash := t.hash.insert r.partitionId r.initLsn }, { r with found := false }) := by
        unfold setNext
        rw [if_pos ⟨hne, rfl⟩]
        dsimp only
        rw [Finmap.insert_insert]
      have htake := takeNext (t := { t with hash := t.hash.insert r.partitionId r.initLsn })
        (r := { r with found := false }) hne (Finmap.lookup_insert _)
      dsimp only at htake
      rw [Finmap.insert_insert] at htake
      rw [henter, hset, if_pos hroom]
      exact htake
    · have henter : hashEnter t r = (t, { r with found := false, pc := .failed }) := by
        unfold hashEnter
        rw [if_neg hmem, if_neg hroom]
      rw [henter, if_neg hroom]
      rfl

theorem allocProgram_sharedReads : allocProgram.SharedReads := by
  intro r c hc hm a ha t r'
  cases hpc : r.pc <;> simp only [allocProgram, hpc, Option.mem_def, Option.some.injEq, reduceCtorEq] at hc
  · subst hc
    rw [List.mem_singleton] at ha
    rw [ha]
    rfl
  · subst hc
    cases hm

/-! ## The table, section by section -/

/-- `scanned pid last`: a scan of the files of `pid` may find `last`. -/
structure Allotted (scanned : Oid → UInt64 → Prop) (s : Whole Nat LsnTable AllocRegs) : Prop where
  values : ∀ pid next, s.store.hash.lookup pid = some next → ∃ last n, scanned pid last ∧
    s.store.lsns pid = consecutive last n ∧ next = last + 1 + UInt64.ofNat n
  fresh : ∀ pid, pid ∉ s.store.hash → s.store.lsns pid = []
  tested : ∀ p, (s.regs p).pc = .test → (s.regs p).found = true → (s.regs p).partitionId ∈ s.store.hash
  entering : ∀ p, (s.regs p).pc = .enter → (s.regs p).partitionId ∈ s.store.hash ∨
    ∃ last, scanned (s.regs p).partitionId last ∧ (s.regs p).initLsn = last + 1
  held : ∀ p, (s.regs p).pc = .returned → (p, (s.regs p).partitionId, (s.regs p).result) ∈ s.store.handedOut
  procs : ∀ p, (s.regs p).procNumber = p

variable {scanned : Oid → UInt64 → Prop} {s : Whole Nat LsnTable AllocRegs} {p : Nat}

/-- The table stays and one backend goes on. -/
theorem Allotted.goOn (hs : Allotted scanned s) (r : AllocRegs) (hproc : r.procNumber = p)
    (htested : r.pc = .test → r.found = true → r.partitionId ∈ s.store.hash)
    (hentering : r.pc = .enter → r.partitionId ∈ s.store.hash ∨
      ∃ last, scanned r.partitionId last ∧ r.initLsn = last + 1)
    (hheld : r.pc = .returned → (p, r.partitionId, r.result) ∈ s.store.handedOut) :
    Allotted scanned { s with regs := Function.update s.regs p r } := by
  refine ⟨hs.values, hs.fresh, ?_, ?_, ?_, ?_⟩
  · exact (Function.forall_update_iff s.regs fun _ r => r.pc = .test → r.found = true → r.partitionId ∈ s.store.hash).mpr
      ⟨htested, fun q _ => hs.tested q⟩
  · exact (Function.forall_update_iff s.regs fun _ r => r.pc = .enter → r.partitionId ∈ s.store.hash ∨
      ∃ last, scanned r.partitionId last ∧ r.initLsn = last + 1).mpr ⟨hentering, fun q _ => hs.entering q⟩
  · exact (Function.forall_update_iff s.regs fun q r => r.pc = .returned →
      (q, r.partitionId, r.result) ∈ s.store.handedOut).mpr ⟨hheld, fun q _ => hs.held q⟩
  · exact (Function.forall_update_iff s.regs fun q r => r.procNumber = q).mpr ⟨hproc, fun q _ => hs.procs q⟩

theorem lsns_snoc (t : LsnTable) (hash : PartWALLSNHash) (p : Nat) (pid pid' : Oid) (lsn : UInt64) :
    LsnTable.lsns ⟨hash, t.handedOut ++ [(p, pid, lsn)]⟩ pid' = t.lsns pid' ++ if pid = pid' then [lsn] else [] := by
  simp only [LsnTable.lsns, List.filter_append, List.map_append]
  congr 1
  split
  · next h => simp [h]
  · next h => simp [h]

/-- The next LSN of a partition is handed out to `p`. -/
theorem Allotted.handOut (hs : Allotted scanned s) {lsn : UInt64} {hash : PartWALLSNHash} {r : AllocRegs}
    (hpc : (s.regs p).pc = .enter)
    (halloc : allocEnter (s.regs p).partitionId (s.regs p).initLsn s.store.hash = some (lsn, hash))
    (hr : r.pc = .returned ∧ r.partitionId = (s.regs p).partitionId ∧ r.result = lsn ∧ r.procNumber = p) :
    Allotted scanned
      { store := ⟨hash, s.store.handedOut ++ [((s.regs p).procNumber, (s.regs p).partitionId, lsn)]⟩
        regs := Function.update s.regs p r } := by
  obtain ⟨hrpc, hrpid, hrres, hrproc⟩ := hr
  rw [hs.procs p]
  -- the LSN continues what the partition has handed out
  have hnext : hash = s.store.hash.insert (s.regs p).partitionId (lsn + 1) ∧ ∃ last n,
      scanned (s.regs p).partitionId last ∧ s.store.lsns (s.regs p).partitionId = consecutive last n ∧
      lsn = last + 1 + UInt64.ofNat n := by
    unfold allocEnter at halloc
    cases hl : s.store.hash.lookup (s.regs p).partitionId with
    | some next =>
      rw [hl] at halloc
      simp only [Option.some.injEq, Prod.mk.injEq] at halloc
      obtain ⟨rfl, rfl⟩ := halloc
      exact ⟨rfl, hs.values _ _ hl⟩
    | none =>
      rw [hl] at halloc
      have hmem := Finmap.lookup_eq_none.mp hl
      dsimp only at halloc
      split at halloc
      · simp only [Option.some.injEq, Prod.mk.injEq] at halloc
        obtain ⟨rfl, rfl⟩ := halloc
        obtain ⟨last, hscan, hinit⟩ := (hs.entering p hpc).resolve_left hmem
        refine ⟨rfl, last, 0, hscan, hs.fresh _ hmem, ?_⟩
        rw [hinit]
        exact (UInt64.add_zero _).symm
      · cases halloc
  obtain ⟨rfl, last, n, hscan, hlsns, rfl⟩ := hnext
  have hmem : ∀ pid, pid ∈ s.store.hash →
      pid ∈ s.store.hash.insert (s.regs p).partitionId (last + 1 + UInt64.ofNat n + 1) :=
    fun pid hp => Finmap.mem_insert.mpr (Or.inr hp)
  refine ⟨fun pid next hl => ?_, fun pid hp => ?_, ?_, ?_, ?_, ?_⟩
  · rw [lsns_snoc]
    by_cases hp : (s.regs p).partitionId = pid
    · subst hp
      rw [Finmap.lookup_insert] at hl
      obtain rfl := Option.some.inj hl
      refine ⟨last, n + 1, hscan, by rw [if_pos rfl, hlsns, consecutive_succ], ?_⟩
      rw [UInt64.ofNat_add, UInt64.add_assoc (last + 1)]
      rfl
    · rw [Finmap.lookup_insert_of_ne _ fun h => hp h.symm] at hl
      rw [if_neg hp, List.append_nil]
      exact hs.values pid next hl
  · rw [Finmap.mem_insert, not_or] at hp
    rw [lsns_snoc, if_neg fun h => hp.1 h.symm, List.append_nil]
    exact hs.fresh pid hp.2
  · refine (Function.forall_update_iff s.regs fun _ r => r.pc = .test → r.found = true → r.partitionId ∈ _).mpr
      ⟨fun h => ?_, fun q _ hq hf => hmem _ (hs.tested q hq hf)⟩
    rw [hrpc] at h
    cases h
  · refine (Function.forall_update_iff s.regs fun _ r => r.pc = .enter → r.partitionId ∈ _ ∨
      ∃ last, scanned r.partitionId last ∧ r.initLsn = last + 1).mpr
      ⟨fun h => ?_, fun q _ hq => (hs.entering q hq).imp (hmem _) id⟩
    rw [hrpc] at h
    cases h
  · refine (Function.forall_update_iff s.regs fun q r => r.pc = .returned →
      (q, r.partitionId, r.result) ∈ s.store.handedOut ++ _).mpr
      ⟨fun _ => ?_, fun q _ hq => List.mem_append_left _ (hs.held q hq)⟩
    rw [hrpid, hrres]
    exact List.mem_append_right _ List.mem_cons_self
  · exact (Function.forall_update_iff s.regs fun q r => r.procNumber = q).mpr ⟨hrproc, fun q _ => hs.procs q⟩

theorem allotted_enter (hs : Allotted scanned s) (p : Nat) :
    Allotted scanned (wholeStep allocProgram s (.enter p)) := by
  have hproc := hs.procs p
  cases hpc : (s.regs p).pc with
  | probe =>
    simp only [wholeStep, allocProgram, hpc, runAccesses, allocFind]
    exact hs.goOn _ hproc (fun _ hf => of_decide_eq_true hf) AllocPc.noConfusion AllocPc.noConfusion
  | enter =>
    simp only [wholeStep, allocProgram, hpc]
    rw [enterSection_whole hpc]
    cases halloc : allocEnter (s.regs p).partitionId (s.regs p).initLsn s.store.hash with
    | some x =>
      exact hs.handOut hpc halloc ⟨rfl, rfl, rfl, hproc⟩
    | none => exact hs.goOn _ hproc AllocPc.noConfusion AllocPc.noConfusion AllocPc.noConfusion
  | _ =>
    simp only [wholeStep, allocProgram, hpc]
    exact hs

theorem allotted_act (hs : Allotted scanned s) (p : Nat) (e : AllocEvent) (he : ∀ pid, scanned pid (e.last pid)) :
    Allotted scanned (wholeStep allocProgram s (.act p e)) := by
  have hproc := hs.procs p
  have hkept : Function.update s.regs p (s.regs p) = s.regs := Function.update_eq_self p s.regs
  cases hpc : (s.regs p).pc with
  | test =>
    simp only [wholeStep, allocProgram, hpc]
    split
    · next hf =>
      exact hs.goOn _ hproc AllocPc.noConfusion (fun _ => Or.inl (hs.tested p hpc hf)) AllocPc.noConfusion
    · exact hs.goOn _ hproc AllocPc.noConfusion AllocPc.noConfusion AllocPc.noConfusion
  | scan =>
    simp only [wholeStep, allocProgram, hpc]
    exact hs.goOn _ hproc AllocPc.noConfusion (fun _ => Or.inr ⟨_, he _, initLsn_eq _⟩) AllocPc.noConfusion
  | returned =>
    simp only [wholeStep, allocProgram, hpc]
    exact hs.goOn _ hproc AllocPc.noConfusion AllocPc.noConfusion AllocPc.noConfusion
  | failed =>
    simp only [wholeStep, allocProgram, hpc]
    exact hs.goOn _ hproc AllocPc.noConfusion AllocPc.noConfusion AllocPc.noConfusion
  | _ =>
    simp only [wholeStep, allocProgram, hpc]
    rw [hkept]
    exact hs

/-- What a step hands out is one LSN at most. -/
theorem handedOut_step (s : Whole Nat LsnTable AllocRegs) (l : RwLock.Label Nat AllocEvent) :
    (wholeStep allocProgram s l).store.handedOut.length ≤ s.store.handedOut.length + 1 := by
  cases l with
  | enter p =>
    cases hpc : (s.regs p).pc with
    | enter =>
      simp only [wholeStep, allocProgram, hpc]
      rw [enterSection_whole hpc]
      split
      · simp
      · exact Nat.le_succ _
    | _ =>
      simp only [wholeStep, allocProgram, hpc]
      exact Nat.le_succ _
  | _ => exact Nat.le_succ _

theorem allotted_run {ls : List (RwLock.Label Nat AllocEvent)}
    (hls : ∀ p e, RwLock.Label.act p e ∈ ls → ∀ pid, scanned pid (e.last pid)) (hs : Allotted scanned s) :
    Allotted scanned (wholeRun allocProgram s ls) ∧
      (wholeRun allocProgram s ls).store.handedOut.length ≤ s.store.handedOut.length + ls.length := by
  induction ls generalizing s with
  | nil => exact ⟨hs, Nat.le_refl _⟩
  | cons l ls ih =>
    have hnext : Allotted scanned (wholeStep allocProgram s l) := by
      cases l with
      | enter p => exact allotted_enter hs p
      | act p e => exact allotted_act hs p e (hls p e List.mem_cons_self)
      | access p => exact hs
      | leave p => exact hs
    obtain ⟨hall, hlen⟩ := ih (fun p e he => hls p e (List.mem_cons_of_mem l he)) hnext
    have hone := handedOut_step s l
    refine ⟨hall, ?_⟩
    rw [List.length_cons]
    show (wholeRun allocProgram (wholeStep allocProgram s l) ls).store.handedOut.length ≤ _
    omega

theorem nodup_consecutive {w : UInt64} {n : Nat} (hn : n ≤ 2 ^ 64) : (consecutive w n).Nodup := by
  refine List.Nodup.map_on (fun i hi j hj heq => ?_) List.nodup_range
  have hij := congrArg UInt64.toNat ((UInt64.add_right_inj (w + 1)).mp heq)
  rw [List.mem_range] at hi hj
  rwa [UInt64.toNat_ofNat', UInt64.toNat_ofNat', Nat.mod_eq_of_lt (by omega), Nat.mod_eq_of_lt (by omega)] at hij

end

/-- **Allocation, access by access.** Whatever the interleaving, the LSNs that a partition has
handed out follow one another from what a scan of its files has found, and two backends that
have returned hold different ones. -/
theorem locked_alloc (calls : Nat → Oid) (ls : List (RwLock.Label Nat AllocEvent)) (hfew : ls.length < 2 ^ 64) :
    let s := RwLock.run allocProgram (allocStart calls) ls
    (s.writer = none → ∀ pid, ∃ last n, s.store.lsns pid = consecutive last n ∧
      (n ≠ 0 → ∃ p e, RwLock.Label.act p e ∈ ls ∧ e.last pid = last)) ∧
    ∀ p q, p ≠ q → ¬ s.Inside p → ¬ s.Inside q → (s.regs p).pc = .returned → (s.regs q).pc = .returned →
      (s.regs p).partitionId = (s.regs q).partitionId → (s.regs p).result ≠ (s.regs q).result := by
  intro s
  obtain ⟨ls', hsub, hrun, hsafe⟩ :=
    completed_run allocProgram_sharedReads (safe_start (⟨∅, []⟩ : LsnTable) fun p => AllocRegs.start p (calls p)) ls
  have hstart : Allotted (fun pid last => ∃ p e, RwLock.Label.act p e ∈ ls ∧ e.last pid = last)
      (allocStart calls).completed :=
    ⟨fun _ _ h => absurd h (by simp [allocStart, State.start, State.completed]), fun _ _ => rfl, fun _ => AllocPc.noConfusion, fun _ => AllocPc.noConfusion,
      fun _ => AllocPc.noConfusion, fun _ => rfl⟩
  obtain ⟨hall, hlen⟩ := allotted_run (fun p e he pid => ⟨p, e, hsub.subset he, rfl⟩) hstart
  have hlen : (wholeRun allocProgram (allocStart calls).completed ls').store.handedOut.length < 2 ^ 64 :=
    Nat.lt_of_le_of_lt hlen (by simpa [allocStart, State.start, State.completed] using hsub.length_le.trans_lt hfew)
  rw [show wholeRun allocProgram (allocStart calls).completed ls' = s.completed from hrun.symm] at hall hlen
  have hvalues : ∀ pid, ∃ last n, s.completed.store.lsns pid = consecutive last n ∧
      (n ≠ 0 → ∃ p e, RwLock.Label.act p e ∈ ls ∧ e.last pid = last) := by
    intro pid
    by_cases hmem : pid ∈ s.completed.store.hash
    · obtain ⟨next, hnext⟩ := Finmap.mem_iff.mp hmem
      obtain ⟨last, n, hscan, hlsns, -⟩ := hall.values pid next hnext
      exact ⟨last, n, hlsns, fun _ => hscan⟩
    · exact ⟨0, 0, hall.fresh pid hmem, fun h => absurd rfl h⟩
  refine ⟨fun hw pid => ?_, fun p q hpq hp hq hrp hrq hpid heq => ?_⟩
  · have hstore : s.completed.store = s.store := by simp only [State.completed, hw]
    rw [← hstore]
    exact hvalues pid
  · have hregs : ∀ x, ¬ s.Inside x → s.completed.regs x = s.regs x := fun x hx => by
      have hrest : s.rest x = [] := hsafe.outside x hx
      simp only [State.completed, hrest, runAccesses]
    have hheldp := hall.held p (by rw [hregs p hp]; exact hrp)
    have hheldq := hall.held q (by rw [hregs q hq]; exact hrq)
    rw [hregs p hp] at hheldp
    rw [hregs q hq, ← hpid, ← heq] at hheldq
    obtain ⟨last, n, hlsns, -⟩ := hvalues (s.regs p).partitionId
    have hn : n ≤ 2 ^ 64 := by
      have hcount := congrArg List.length hlsns
      rw [length_consecutive, LsnTable.lsns, List.length_map] at hcount
      have hfilter := List.length_filter_le (fun x : Nat × Oid × UInt64 => x.2.1 = (s.regs p).partitionId)
        s.completed.store.handedOut
      omega
    have hnodup := nodup_consecutive (w := last) hn
    rw [← hlsns] at hnodup
    -- one LSN is in the list once, so with one backend
    have hsame := List.inj_on_of_nodup_map hnodup (List.mem_filter.mpr ⟨hheldp, by simp⟩)
      (List.mem_filter.mpr ⟨hheldq, by simp⟩) rfl
    exact hpq (congrArg Prod.fst hsame)

/-- Two backends that both find no entry; one is through with the exclusive section before the
other one takes the lock. -/
def racingBackends : List (RwLock.Label Nat AllocEvent) :=
  let e : AllocEvent := ⟨fun _ => 4, 9, 7⟩
  [.enter 0, .enter 1, .access 1, .access 0, .leave 1, .leave 0, .act 0 e, .act 1 e, .act 0 e, .act 1 e,
    .enter 1, .enter 0, .access 1, .access 1, .access 1, .access 1, .leave 1,
    .enter 0, .access 0, .access 0, .access 0, .access 0, .leave 0]

theorem locked_alloc_racing :
    let s := RwLock.run allocProgram (allocStart fun _ => 7) racingBackends
    (s.regs 0).result ≠ (s.regs 1).result ∧ s.store.lsns 7 = [5, 6] :=
  ⟨(locked_alloc (fun _ => 7) racingBackends (by decide)).2 0 1 (by decide) (by decide +kernel) (by decide +kernel)
    (by decide +kernel) (by decide +kernel) (by decide +kernel), by decide +kernel⟩

end PartDist
