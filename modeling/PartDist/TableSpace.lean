import PartDist.ProcessUtility
import PartDist.Server

/-!
# Space in the LSN table

Partitions are created, written to, reset and dropped.  `AllocPartitionLSN` makes an entry
for each partition that is written to; only a reset removes it.

`statements_complete_iff`: every statement completes if and only if the partitions that
have been written to since the server started, and not been reset since, are at no
time more than the table holds.
-/

namespace PartDist

open EStateM FixedHash

/-! ## Histories -/

/-- `written` has the partitions with a record that was due since the last reset. -/
structure Shards where
  node : Node
  lsnHash : PartWALLSNHash
  existing : Finset Oid
  created : Finset Oid
  written : Finset Oid

/-- Dropping a partition runs no code of the extension.  `last` is what
`GetLastWrittenPartitionLSN` finds. -/
inductive ShardLabel
  | create (partitionId : Oid)
  | drop (partitionId : Oid)
  | reset (partitionId : Oid)
  | node (l : NodeLabel)
  | statement (me : Nat) (io : HookIO) (last : Oid → UInt64) (stmt : Statement)

/-- `AllocPartitionLSN`, with no other allocation in between. -/
def allocPartitionLSN (last : UInt64) (partitionId : Oid) (hash : PartWALLSNHash) : Option (UInt64 × PartWALLSNHash) :=
  allocEnter partitionId (if partitionId ∈ hash then 1 else initLsn last) hash

def allocated (last : Oid → UInt64) (partitionId : Oid) (hash : PartWALLSNHash) : Option PartWALLSNHash :=
  (allocPartitionLSN (last partitionId) partitionId hash).map Prod.snd

namespace Shards

/-- Backend `me` between two statements. -/
def hooks (s : Shards) (me : Nat) : Hooks := ⟨⟨s.node, me, [], false, []⟩, false⟩

/-- The partitions with a record that is due. -/
def due (s : Shards) (me : Nat) (io : HookIO) (stmt : Statement) : List Oid :=
  ((s.hooks me).captured io stmt).map RangeTblEntry.relid

/-- A record can be logged if the allocations up to its own succeed. -/
def answers (s : Shards) (me : Nat) (io : HookIO) (last : Oid → UInt64) (stmt : Statement) : HookIO :=
  { io with
    writeOk := fun i =>
      (enterAll (allocated last) ((((stmt.entries io).take (i + 1)).filter ((s.hooks me).captures io stmt)).map
        RangeTblEntry.relid) s.lsnHash).1 }

def run (s : Shards) (me : Nat) (io : HookIO) (last : Oid → UInt64) (stmt : Statement) : Result Raised Hooks Unit :=
  (runStatement true (s.answers me io last stmt) stmt).run (s.hooks me)

/-- The server has just started. -/
def start (node : Node) (existing : Finset Oid) : Shards := ⟨node, ∅, existing, existing, ∅⟩

end Shards

def shardStep (s : Shards) : ShardLabel → Shards
  | .create pid => { s with existing := insert pid s.existing, created := insert pid s.created }
  | .drop pid => { s with existing := s.existing.erase pid }
  | .reset pid => { s with lsnHash := s.lsnHash.erase pid, written := s.written.erase pid }
  | .node l => { s with node := nodeStep s.node l }
  | .statement me io last stmt =>
    { s with
      node := (s.run me io last stmt).state.node
      lsnHash := (enterAll (allocated last) (s.due me io stmt) s.lsnHash).2
      written := s.written ∪ (s.due me io stmt).toFinset }

/-- The hook raises no error. -/
def StatementCompletes (s : Shards) : ShardLabel → Prop
  | .statement me io last stmt => (s.run me io last stmt).value?.isSome = true
  | _ => True

/-- With the partitions of the statement there are no more that have been written to than
the table holds. -/
def FitsTable (s : Shards) : ShardLabel → Prop
  | .statement me io _ stmt => (s.written ∪ (s.due me io stmt).toFinset).card ≤ partdistPartitionMaxEntries
  | _ => True

/-- Every partition has an OID of its own, at most as many as the table holds exist at a
time, and statements are about those that exist. -/
def Legal (s : Shards) : ShardLabel → Prop
  | .create pid => pid ∉ s.created ∧ s.existing.card < partdistPartitionMaxEntries
  | .statement _ io _ stmt => ∀ rte ∈ stmt.entries io, rte.relid ∈ s.existing
  | _ => True

/-! ## Occupancy -/

theorem enters_allocated (last : Oid → UInt64) : Enters partdistPartitionMaxEntries (allocated last) where
  isSome pid hash := by
    unfold allocated allocPartitionLSN allocEnter Place
    cases hlook : hash.lookup pid with
    | some next => simp [Finmap.mem_of_lookup_eq_some hlook]
    | none =>
      have hnot := Finmap.lookup_eq_none.mp hlook
      by_cases hcard : hash.keys.card < partdistPartitionMaxEntries
      · simp [hcard]
      · simp [hcard, hnot]
  keys pid hash hash' h := by
    unfold allocated allocPartitionLSN allocEnter at h
    obtain ⟨⟨lsn, hash''⟩, halloc, rfl⟩ := Option.map_eq_some_iff.mp h
    split at halloc
    · obtain ⟨-, rfl⟩ := Prod.mk.inj (Option.some.inj halloc)
      exact keys_insert ..
    · split at halloc
      · obtain ⟨-, rfl⟩ := Prod.mk.inj (Option.some.inj halloc)
        exact keys_insert ..
      · cases halloc

section
variable {s : Shards}

theorem completes_iff (hkeys : s.lsnHash.keys = s.written) (hfits : s.written.card ≤ partdistPartitionMaxEntries)
    (l : ShardLabel) : StatementCompletes s l ↔ FitsTable s l := by
  cases l with
  | create pid => exact Iff.rfl
  | drop pid => exact Iff.rfl
  | reset pid => exact Iff.rfl
  | node l => exact Iff.rfl
  | statement me io last stmt =>
    have hdone : (s.hooks me).HookDone (s.answers me io last stmt) stmt (s.run me io last stmt).value?.isSome
        (s.run me io last stmt).state.logged := statement_done rfl rfl stmt
    have hwrites : (s.hooks me).WritesOk (s.answers me io last stmt) stmt ↔
        (enterAll (allocated last) (s.due me io stmt) s.lsnHash).1 = true := forall_turn_iff _
    rw [StatementCompletes, FitsTable, ← hkeys,
      ← enterAll_iff (enters_allocated last) (by rw [hkeys]; exact hfits), ← hwrites]
    exact hdone.1

/-- The table has an entry for each partition written to, and no other. -/
structure Shards.Occupied (s : Shards) : Prop where
  keys : s.lsnHash.keys = s.written
  fits : s.written.card ≤ partdistPartitionMaxEntries

theorem occupied_start (node : Node) (existing : Finset Oid) : (Shards.start node existing).Occupied :=
  ⟨Finmap.keys_empty, Nat.zero_le _⟩

theorem occupied_step (hs : s.Occupied) {l : ShardLabel} (hl : StatementCompletes s l) : (shardStep s l).Occupied := by
  have hfits := (completes_iff hs.keys hs.fits l).mp hl
  cases l with
  | create pid => exact ⟨hs.keys, hs.fits⟩
  | drop pid => exact ⟨hs.keys, hs.fits⟩
  | node l => exact ⟨hs.keys, hs.fits⟩
  | reset pid =>
    constructor
    · show (s.lsnHash.erase pid).keys = s.written.erase pid
      rw [Finmap.keys_erase, hs.keys]
    · exact (Finset.card_le_card (Finset.erase_subset pid s.written)).trans hs.fits
  | statement me io last stmt =>
    refine ⟨?_, hfits⟩
    have henters := enters_allocated last
    have hok := (enterAll_iff henters (by rw [hs.keys]; exact hs.fits)).mpr (by rw [hs.keys]; exact hfits)
    show (enterAll _ _ _).2.keys = s.written ∪ _
    rw [keys_enterAll henters hok, hs.keys]

theorem along_completes_iff (hs : s.Occupied) (ls : List ShardLabel) :
    Run.Along shardStep StatementCompletes s ls ↔ Run.Along shardStep FitsTable s ls :=
  Run.along_iff shardStep (I := Shards.Occupied) hs (fun _ l hs => completes_iff hs.keys hs.fits l)
    fun _ _ hs hl => occupied_step hs hl

end

/-- **Space in the LSN table.** In every history since the server started, all statements
complete if and only if at each of them the partitions that have been written to, and
not been reset since, are no more than the table holds, those of the statement included. -/
theorem statements_complete_iff (node : Node) (existing : Finset Oid) (ls : List ShardLabel) :
    Run.Along shardStep StatementCompletes (Shards.start node existing) ls ↔
      Run.Along shardStep FitsTable (Shards.start node existing) ls :=
  along_completes_iff (occupied_start node existing) ls

/-! ## One partition at a time -/

/-- An OID that has not been given out. -/
def freshOid (i : Nat) : Oid := UInt32.ofNat (16384 + i)

def quietHook : HookIO := ⟨ loggingIO, 0⟩

/-- An INSERT into a shard. -/
def insertInto (partitionId : Oid) : ShardLabel :=
  .statement 0 quietHook (fun _ => 0)
    (.plan ⟨.insert, some ⟨[⟨.relation, partitionId, some "orders_102177".toList⟩], [0]⟩⟩)

def oneShard (partitionId : Oid) : List ShardLabel :=
  [.create partitionId, insertInto partitionId, .drop partitionId]

/-- Each of `n` shards is created, written to and dropped before the next. -/
def shardsInTurn (n : Nat) : List ShardLabel := (List.range n).flatMap fun i => oneShard (freshOid i)

theorem freshOid_inj {i j : Nat} (hi : i < 2 ^ 31) (hj : j < 2 ^ 31) (h : freshOid i = freshOid j) : i = j := by
  have hnat := congrArg UInt32.toNat h
  unfold freshOid at hnat
  rw [UInt32.toNat_ofNat_of_lt' (by simp only [UInt32.size]; omega),
    UInt32.toNat_ofNat_of_lt' (by simp only [UInt32.size]; omega)] at hnat
  omega

theorem due_insertInto (s : Shards) (pid : Oid) :
    s.due 0 quietHook (.plan ⟨.insert, some ⟨[⟨.relation, pid, some "orders_102177".toList⟩], [0]⟩⟩) = [pid] := by
  have hnamed : s.node.catalogs.ShardNamed pid (some "orders_102177".toList) :=
    Or.inl ⟨_, rfl, by decide +kernel⟩
  have hcaptures : (s.hooks 0).captures quietHook
      (.plan ⟨.insert, some ⟨[⟨.relation, pid, some "orders_102177".toList⟩], [0]⟩⟩)
      ⟨.relation, pid, some "orders_102177".toList⟩ = true := shouldWrite_named hnamed _
  show (List.filter _ [⟨.relation, pid, some "orders_102177".toList⟩]).map RangeTblEntry.relid = [pid]
  rw [List.filter_cons_of_pos hcaptures]
  rfl

theorem shardsInTurn_succ (n : Nat) : shardsInTurn (n + 1) = shardsInTurn n ++ oneShard (freshOid n) := by
  rw [shardsInTurn, List.range_succ, List.flatMap_append, shardsInTurn]
  rfl

theorem oneShard_state {s : Shards} (hs : s.existing = ∅) (pid : Oid) :
    let s' := (oneShard pid).foldl shardStep s
    s'.existing = ∅ ∧ s'.created = insert pid s.created ∧ s'.written = insert pid s.written := by
  refine ⟨?_, rfl, ?_⟩
  · show (insert pid s.existing).erase pid = ∅
    rw [hs]
    exact Finset.erase_insert (Finset.notMem_empty _)
  · show s.written ∪ (Shards.due _ _ _ _).toFinset = _
    rw [due_insertInto, Finset.union_comm]
    rfl

/-- The state after `n` shards. -/
theorem shardsInTurn_state (node : Node) (n : Nat) :
    let s := (shardsInTurn n).foldl shardStep (Shards.start node ∅)
    s.existing = ∅ ∧ s.created = (Finset.range n).image freshOid ∧ s.written = (Finset.range n).image freshOid := by
  induction n with
  | zero => exact ⟨rfl, rfl, rfl⟩
  | succ n ih =>
    obtain ⟨hexisting, hcreated, hwritten⟩ := ih
    obtain ⟨hexisting', hcreated', hwritten'⟩ := oneShard_state hexisting (freshOid n)
    rw [hcreated] at hcreated'
    rw [hwritten] at hwritten'
    rw [shardsInTurn_succ, List.foldl_append, Finset.range_add_one, Finset.image_insert]
    exact ⟨hexisting', hcreated', hwritten'⟩

theorem freshOid_notMem {n : Nat} (hn : n < 2 ^ 31) : freshOid n ∉ (Finset.range n).image freshOid := by
  intro h
  obtain ⟨i, hi, heq⟩ := Finset.mem_image.mp h
  have hlt := Finset.mem_range.mp hi
  have := freshOid_inj (by omega) hn heq
  omega

theorem shardsInTurn_legal (node : Node) {n : Nat} (hn : n ≤ 2 ^ 31) :
    Run.Along shardStep Legal (Shards.start node ∅) (shardsInTurn n) := by
  induction n with
  | zero => trivial
  | succ n ih =>
    obtain ⟨hexisting, hcreated, -⟩ := shardsInTurn_state node n
    rw [shardsInTurn_succ, Run.along_append]
    refine ⟨ih (by omega), ⟨?_, ?_⟩, ?_, trivial, trivial⟩
    · rw [hcreated]
      exact freshOid_notMem (by omega)
    · rw [hexisting]
      decide
    · intro rte hrte
      obtain rfl := List.mem_singleton.mp hrte
      exact Finset.mem_insert_self ..

theorem shardsInTurn_full (node : Node) {n : Nat} (hfull : partdistPartitionMaxEntries < n) (hn : n ≤ 2 ^ 31) :
    ¬ Run.Along shardStep StatementCompletes (Shards.start node ∅) (shardsInTurn n) := by
  intro h
  obtain ⟨n, rfl⟩ : ∃ m, n = m + 1 := Nat.exists_eq_succ_of_ne_zero (by omega)
  rw [along_completes_iff (occupied_start _ _), shardsInTurn_succ, Run.along_append] at h
  obtain ⟨-, -, hfits, -⟩ := h
  obtain ⟨-, -, hwritten⟩ := shardsInTurn_state node n
  have hlast : ((Finset.range n).image freshOid ∪ [freshOid n].toFinset).card ≤ partdistPartitionMaxEntries := by
    rw [← hwritten, ← due_insertInto]
    exact hfits
  have hcard : ((Finset.range n).image freshOid ∪ [freshOid n].toFinset).card = n + 1 := by
    rw [Finset.union_comm, List.toFinset_cons, List.toFinset_nil, insert_empty_eq, ← Finset.insert_eq,
      Finset.card_insert_of_notMem (freshOid_notMem hn), Finset.card_image_of_injOn, Finset.card_range]
    intro i hi j hj heq
    have hi := Finset.mem_range.mp hi
    have hj := Finset.mem_range.mp hj
    exact freshOid_inj (by omega) (by omega) heq
  omega

/-- 1025 shards, one at a time: the last INSERT ends in an error. -/
theorem table_never_freed :
    Run.Along shardStep Legal (Shards.start Node.boot ∅) (shardsInTurn 1025) ∧
      ¬ Run.Along shardStep StatementCompletes (Shards.start Node.boot ∅) (shardsInTurn 1025) := by
  -- with the number in it the history would be unfolded
  generalize hn : 1025 = n
  have hfull : partdistPartitionMaxEntries = 1024 := rfl
  exact ⟨shardsInTurn_legal Node.boot (by omega), shardsInTurn_full Node.boot (by omega) (by omega)⟩

end PartDist
