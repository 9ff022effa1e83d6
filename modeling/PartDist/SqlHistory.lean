import PartDist.CacheHistory
import PartDist.MetadataTables

/-!
# SQL over the cache

Sessions, one after the other, that run transactions on the metadata tables, call
`pg_partdist_cache_invalidate` and ask `pg_partdist_get_primary` and
`pg_partdist_route_write`, which go through the cache.

* `sqlRepresents_step`: each keeps the cache in step with the tables.
* `sql_answers_right`: so the two functions answer what the tables say, in every history in
  which they are asked only while no change waits to be invalidated, about no more rows than
  the hash tables hold, and the generation counter does not wrap.
-/

namespace PartDist

open Bytes PkTable EStateM

/-! ## The tables as they are loaded -/

def PartitionMapTuple.row (r : PartitionMapTuple) : PartitionMapRow :=
  ⟨some r.primaryNode, some r.secondaryNodes, some r.version⟩

def NodeMapTuple.row (r : NodeMapTuple) : NodeMapRow := ⟨some r.hostname, some r.port, some r.status.text⟩

def Metadata.tables (m : Metadata) : Tables where
  partitionMap k := (m.partitionMap.find k).map PartitionMapTuple.row
  nodeMap k := (m.nodeMap.find k).map NodeMapTuple.row

/-- The rows that the transaction has written, as they now are. -/
def MetadataTransaction.changes (tx : MetadataTransaction) : List HistoryOp :=
  tx.partitions.map (fun k => .setPartition k (tx.metadata.tables.partitionMap k)) ++
    tx.nodes.map fun k => .setNode k (tx.metadata.tables.nodeMap k)

/-! ## Functions -/

inductive SqlCall
  | getPrimary (partitionId : Oid)
  | routeWrite (partitionId : Oid)

inductive SqlValue
  | null
  | integer (i : Int32)
  | text (s : String)
deriving DecidableEq

/-- `pg_partdist_get_primary` and `pg_partdist_route_write`. -/
def sqlCall (localNodeId : Int32) : SqlCall → EStateM Raised Router SqlValue
  | .getPrimary partitionId => do
    let primary ← lookupPartition alone partitionId
    if primary < 0 then return .null
    return .integer primary
  | .routeWrite partitionId => do
    let status ← routeWriteRequest localNodeId ⟨alone, alone, alone⟩ partitionId
    return .text (routeStatusString status)

/-- What the two functions mean. -/
def Metadata.value (localNodeId : Int32) (m : Metadata) : SqlCall → SqlValue
  | .getPrimary partitionId =>
    match m.partitionMap.find partitionId with
    | none => .null
    | some r => if r.primaryNode < 0 then .null else .integer r.primaryNode
  | .routeWrite partitionId =>
    match m.partitionMap.find partitionId with
    | none => .text "not_found"
    | some r =>
      if r.primaryNode < 0 then .text "not_found"
      else if (m.nodeMap.find r.primaryNode).any fun n => n.status = .down then .text "node_down"
      else if 0 ≤ localNodeId ∧ r.primaryNode = localNodeId then .text "local"
      else .text "remote"

/-! ## Histories -/

inductive SqlOp
  | transaction (sts : List SqlStatement)
  | invalidate
  | call (call : SqlCall)

structure SqlServer where
  metadata : Metadata
  router : Router

def SqlServer.started (preloaded : Bool) : SqlServer := ⟨emptyMetadata, Router.started preloaded emptyMetadata.tables⟩

def sqlStep (localNodeId : Int32) (s : SqlServer) : SqlOp → SqlServer
  | .transaction sts =>
    match execTransaction s.metadata sts with
    | some tx => ⟨tx.metadata, tx.changes.foldl (historyStep localNodeId) s.router⟩
    | none => s
  | .invalidate => { s with router := historyStep localNodeId s.router .invalidate }
  | .call call => { s with router := ((sqlCall localNodeId call).run s.router).state }

/-- `none` when the function raises an error. -/
def sqlReply (localNodeId : Int32) (s : SqlServer) : SqlOp → Option SqlValue
  | .call call => ((sqlCall localNodeId call).run s.router).value?
  | .transaction _ | .invalidate => none

/-- The tables without a cache; `pending` while rows written are not invalidated. -/
structure SqlDirect where
  metadata : Metadata
  pending : Bool
  invalidations : Nat

namespace SqlDirect

def step (d : SqlDirect) : SqlOp → SqlDirect
  | .transaction sts =>
    match execTransaction d.metadata sts with
    | some tx => { d with metadata := tx.metadata, pending := d.pending || !tx.changes.isEmpty }
    | none => d
  | .invalidate => { d with pending := false, invalidations := d.invalidations + 1 }
  | .call _ => d

def reply (localNodeId : Int32) (d : SqlDirect) : SqlOp → Option SqlValue
  | .call call => some (d.metadata.value localNodeId call)
  | .transaction _ | .invalidate => none

end SqlDirect

def SqlCall.metadataCall : SqlCall → MetadataCall
  | .getPrimary partitionId => .getPartitionPrimary partitionId
  | .routeWrite partitionId => .routeWriteRequest partitionId

namespace SqlDirect

/-- The functions are asked while nothing is pending, about these partitions and nodes. -/
def Fits (parts : Finset Oid) (nodes : Finset Int32) (d : SqlDirect) : SqlOp → Prop
  | .call call => d.pending = false ∧ d.metadata.tables.partitionsOf call.metadataCall ⊆ parts ∧
      d.metadata.tables.nodesOf call.metadataCall ⊆ nodes
  | .transaction _ | .invalidate => True

/-- The generation counter does not wrap. -/
def Counts (d : SqlDirect) : SqlOp → Prop
  | .invalidate => d.invalidations + 1 < 2 ^ 64
  | .transaction _ | .call _ => True

def direct (d : SqlDirect) : Direct := ⟨d.metadata.tables, d.pending, d.invalidations⟩

end SqlDirect

instance (parts : Finset Oid) (nodes : Finset Int32) (d : SqlDirect) : (op : SqlOp) → Decidable (d.Fits parts nodes op)
  | .call _ => instDecidableAnd
  | .transaction _ | .invalidate => isTrue trivial

instance (d : SqlDirect) : (op : SqlOp) → Decidable (d.Counts op)
  | .invalidate => inferInstanceAs (Decidable (_ < _))
  | .transaction _ | .call _ => isTrue trivial

/-! ## Calls -/

def Reply.value : Reply → SqlValue
  | .primary primaryNode => if primaryNode < 0 then .null else .integer primaryNode
  | .route status => .text (routeStatusString status)
  | .node _ => .null

section
variable {localNodeId : Int32} {m : Metadata}

theorem metadata_notNull (m : Metadata) : m.tables.NotNull := by
  intro k row hrow
  obtain ⟨r, -, rfl⟩ := Option.map_eq_some_iff.mp hrow
  exact Option.some_ne_none r.hostname

theorem value_reply (call : SqlCall) :
    (m.tables.reply localNodeId call.metadataCall).value = m.value localNodeId call := by
  cases call with
  | getPrimary k =>
    simp only [SqlCall.metadataCall, Tables.reply, Reply.value, Metadata.value, Tables.primary, Metadata.tables]
    cases m.partitionMap.find k with
    | none => rfl
    | some r => rfl
  | routeWrite k =>
    have hdown : ∀ n, (m.tables.nodeMap n).any (fun row => row.status = some "down") =
        (m.nodeMap.find n).any fun r => r.status = .down := by
      intro n
      have htext : ∀ status : NodeStatus, status.text = "down" ↔ status = .down := by
        intro status
        cases status <;> simp [NodeStatus.text]
      simp [Metadata.tables, NodeMapTuple.row, Option.any_map, htext]
    show SqlValue.text (routeStatusString (m.tables.route localNodeId k)) = _
    rcases Option.eq_none_or_eq_some (m.partitionMap.find k) with hfind | ⟨r, hfind⟩
    · have hprimary : m.tables.primary k = -1 := by simp [Tables.primary, Metadata.tables, hfind]
      simp only [Tables.route, Metadata.value, hprimary, hfind]
      rfl
    · have hprimary : m.tables.primary k = r.primaryNode := by
        simp [Tables.primary, Metadata.tables, PartitionMapTuple.row, hfind]
      simp only [Tables.route, Metadata.value, hprimary, hfind, hdown]
      split
      · rfl
      · split
        · rfl
        · split <;> rfl

theorem sqlCall_value (call : SqlCall) (s : Router) :
    ((sqlCall localNodeId call).run s).value? = (callReply localNodeId s call.metadataCall).map Reply.value := by
  cases call with
  | getPrimary k =>
    simp only [sqlCall, SqlCall.metadataCall, callReply, metadataCall, run_bind]
    cases (lookupPartition alone k).run s with
    | ok primary s' =>
      by_cases hneg : primary < 0
      · simp [hneg, Reply.value]
      · simp [hneg, Reply.value]
    | error e s' => rfl
  | routeWrite k =>
    simp only [sqlCall, SqlCall.metadataCall, callReply, metadataCall, run_bind]
    cases (routeWriteRequest localNodeId ⟨alone, alone, alone⟩ k).run s with
    | ok status s' => rfl
    | error e s' => rfl

theorem sqlCall_state (call : SqlCall) (s : Router) :
    ((sqlCall localNodeId call).run s).state = routerStep localNodeId s call.metadataCall := by
  cases call with
  | getPrimary k =>
    simp only [sqlCall, SqlCall.metadataCall, routerStep, metadataCall, run_bind]
    cases (lookupPartition alone k).run s with
    | ok primary s' =>
      by_cases hneg : primary < 0
      · simp [hneg]
      · simp [hneg]
    | error e s' => rfl
  | routeWrite k =>
    simp only [sqlCall, SqlCall.metadataCall, routerStep, metadataCall, run_bind]
    cases (routeWriteRequest localNodeId ⟨alone, alone, alone⟩ k).run s with
    | ok status s' => rfl
    | error e s' => rfl

end

/-! ## Transactions -/

section
variable {localNodeId : Int32} {tx tx' : MetadataTransaction}

/-- Only rows whose keys are written differ. -/
structure MetadataTransaction.Unwritten (tx tx' : MetadataTransaction) : Prop where
  partitions : tx.partitions ⊆ tx'.partitions
  nodes : tx.nodes ⊆ tx'.nodes
  partitionMap : ∀ k ∉ tx'.partitions, tx'.metadata.partitionMap.find k = tx.metadata.partitionMap.find k
  nodeMap : ∀ k ∉ tx'.nodes, tx'.metadata.nodeMap.find k = tx.metadata.nodeMap.find k

theorem execStatement_unwritten {st : SqlStatement} (h : execStatement tx st = some tx') : tx.Unwritten tx' := by
  cases st with
  | partitions st =>
    obtain ⟨c, hc, rfl⟩ := Option.map_eq_some_iff.mp h
    refine ⟨List.subset_append_left .., List.Subset.refl _, fun k hk => ?_, fun _ _ => rfl⟩
    exact exec_unwritten hc fun hk' => hk (List.mem_append_right _ hk')
  | nodes st =>
    obtain ⟨c, hc, rfl⟩ := Option.map_eq_some_iff.mp h
    refine ⟨List.Subset.refl _, List.subset_append_left .., fun _ _ => rfl, fun k hk => ?_⟩
    exact exec_unwritten hc fun hk' => hk (List.mem_append_right _ hk')

theorem execStatements_unwritten {sts : List SqlStatement} (h : sts.foldlM execStatement tx = some tx') :
    tx.Unwritten tx' := by
  induction sts generalizing tx with
  | nil =>
    obtain rfl := Option.some.inj h
    exact ⟨List.Subset.refl _, List.Subset.refl _, fun _ _ => rfl, fun _ _ => rfl⟩
  | cons st sts ih =>
    rw [List.foldlM_cons] at h
    obtain ⟨tx₁, h₁, h⟩ := Option.bind_eq_some_iff.mp h
    have hhead := execStatement_unwritten h₁
    have htail := ih h
    refine ⟨List.Subset.trans hhead.partitions htail.partitions, List.Subset.trans hhead.nodes htail.nodes,
      fun k hk => ?_, fun k hk => ?_⟩
    · rw [htail.partitionMap k hk, hhead.partitionMap k fun hk' => hk (htail.partitions hk')]
    · rw [htail.nodeMap k hk, hhead.nodeMap k fun hk' => hk (htail.nodes hk')]

/-- Rows that are set one after the other. -/
theorem foldl_setPartition (f : Oid → Option PartitionMapRow) (ks : List Oid) (d : Direct) :
    (ks.map fun k => HistoryOp.setPartition k (f k)).foldl Direct.step d =
      ⟨⟨fun k => if k ∈ ks then f k else d.tables.partitionMap k, d.tables.nodeMap⟩, d.pending || !ks.isEmpty,
        d.invalidations⟩ := by
  induction ks generalizing d with
  | nil => simp
  | cons k ks ih =>
    rw [List.map_cons, List.foldl_cons, ih]
    simp only [Direct.step, Bool.true_or, List.isEmpty_cons, Bool.not_false, Bool.or_true, Direct.mk.injEq,
      Tables.mk.injEq, and_true]
    funext k'
    by_cases hk : k' = k
    · subst hk
      simp
    · simp [hk]

theorem foldl_setNode (f : Int32 → Option NodeMapRow) (ks : List Int32) (d : Direct) :
    (ks.map fun k => HistoryOp.setNode k (f k)).foldl Direct.step d =
      ⟨⟨d.tables.partitionMap, fun k => if k ∈ ks then f k else d.tables.nodeMap k⟩, d.pending || !ks.isEmpty,
        d.invalidations⟩ := by
  induction ks generalizing d with
  | nil => simp
  | cons k ks ih =>
    rw [List.map_cons, List.foldl_cons, ih]
    simp only [Direct.step, Bool.true_or, List.isEmpty_cons, Bool.not_false, Bool.or_true, Direct.mk.injEq,
      Tables.mk.injEq, and_true, true_and]
    funext k'
    by_cases hk : k' = k
    · subst hk
      simp
    · simp [hk]

/-- The rows that are written make up the difference. -/
theorem foldl_changes {d : SqlDirect} {sts : List SqlStatement} (htx : execTransaction d.metadata sts = some tx) :
    tx.changes.foldl Direct.step d.direct = (d.step (.transaction sts)).direct := by
  have hunwritten := execStatements_unwritten htx
  have hparts : ∀ k, (if k ∈ tx.partitions then tx.metadata.tables.partitionMap k
      else d.metadata.tables.partitionMap k) = tx.metadata.tables.partitionMap k := by
    intro k
    by_cases hk : k ∈ tx.partitions
    · exact if_pos hk
    · rw [if_neg hk]
      exact congrArg (Option.map PartitionMapTuple.row) (hunwritten.partitionMap k hk).symm
  have hnodes : ∀ k, (if k ∈ tx.nodes then tx.metadata.tables.nodeMap k else d.metadata.tables.nodeMap k) =
      tx.metadata.tables.nodeMap k := by
    intro k
    by_cases hk : k ∈ tx.nodes
    · exact if_pos hk
    · rw [if_neg hk]
      exact congrArg (Option.map NodeMapTuple.row) (hunwritten.nodeMap k hk).symm
  have hempty : (!tx.changes.isEmpty) = (!tx.partitions.isEmpty || !tx.nodes.isEmpty) := by
    rw [MetadataTransaction.changes]
    cases tx.partitions with
    | nil => cases tx.nodes <;> rfl
    | cons k ks => rfl
  rw [SqlDirect.step, htx]
  simp only [MetadataTransaction.changes] at hempty ⊢
  rw [List.foldl_append, foldl_setPartition, foldl_setNode]
  simp only [SqlDirect.direct, hparts, hnodes, hempty, Bool.or_assoc]

end

/-! ## In step with the tables -/

section
variable {parts : Finset Oid} {nodes : Finset Int32} {localNodeId : Int32} {s : SqlServer} {d : SqlDirect}

structure SqlRepresents (parts : Finset Oid) (nodes : Finset Int32) (s : SqlServer) (d : SqlDirect) : Prop where
  metadata : s.metadata = d.metadata
  router : Represents parts nodes s.router d.direct

theorem represents_run {s : Router} {d : Direct} (h : Represents parts nodes s d)
    (hp : parts.card ≤ partitionMapMaxEntries) (hn : nodes.card ≤ partdistNodeMaxEntries) {ops : List HistoryOp}
    (hops : ∀ op ∈ ops, ∀ d : Direct, d.Fits parts nodes op ∧ d.Counts op) :
    Represents parts nodes (ops.foldl (historyStep localNodeId) s) (ops.foldl Direct.step d) := by
  induction ops generalizing s d with
  | nil => exact h
  | cons op ops ih =>
    obtain ⟨hfits, hcounts⟩ := hops op List.mem_cons_self d
    exact ih (h.step hp hn hfits hcounts) fun op' hop' => hops op' (List.mem_cons_of_mem op hop')

theorem changes_fit (tx : MetadataTransaction) :
    ∀ op ∈ tx.changes, ∀ d : Direct, d.Fits parts nodes op ∧ d.Counts op := by
  intro op hop d
  rcases List.mem_append.mp hop with hop | hop
  · obtain ⟨k, -, rfl⟩ := List.mem_map.mp hop
    exact ⟨trivial, trivial⟩
  · obtain ⟨k, -, rfl⟩ := List.mem_map.mp hop
    exact ⟨fun row hrow => metadata_notNull tx.metadata k row hrow, trivial⟩

theorem sqlRepresents_step (h : SqlRepresents parts nodes s d) (hp : parts.card ≤ partitionMapMaxEntries)
    (hn : nodes.card ≤ partdistNodeMaxEntries) {op : SqlOp} (hop : d.Fits parts nodes op) (hcount : d.Counts op) :
    SqlRepresents parts nodes (sqlStep localNodeId s op) (d.step op) := by
  cases op with
  | transaction sts =>
    cases htx : execTransaction d.metadata sts with
    | none =>
      rw [sqlStep, h.metadata, htx, SqlDirect.step, htx]
      exact h
    | some tx =>
      have hrun : Represents parts nodes (tx.changes.foldl (historyStep localNodeId) s.router) _ :=
        represents_run h.router hp hn (changes_fit tx)
      rw [foldl_changes htx] at hrun
      rw [sqlStep, h.metadata, htx]
      refine ⟨?_, hrun⟩
      rw [SqlDirect.step, htx]
  | invalidate =>
    have hfits : d.direct.Fits parts nodes .invalidate := trivial
    have hstep : Represents parts nodes (historyStep localNodeId s.router .invalidate) _ :=
      h.router.step hp hn hfits hcount
    exact ⟨h.metadata, hstep⟩
  | call call =>
    have hfits : d.direct.Fits parts nodes (.call call.metadataCall) := hop
    refine ⟨h.metadata, ?_⟩
    show Represents parts nodes ((sqlCall localNodeId call).run s.router).state d.direct
    rw [sqlCall_state]
    exact h.router.step hp hn hfits trivial

theorem SqlRepresents.reply_eq (h : SqlRepresents parts nodes s d) (hp : parts.card ≤ partitionMapMaxEntries)
    (hn : nodes.card ≤ partdistNodeMaxEntries) {op : SqlOp} (hop : d.Fits parts nodes op) :
    sqlReply localNodeId s op = d.reply localNodeId op := by
  cases op with
  | transaction sts => rfl
  | invalidate => rfl
  | call call =>
    have hfits : d.direct.Fits parts nodes (.call call.metadataCall) := hop
    have hreply : callReply localNodeId s.router call.metadataCall =
        some (d.metadata.tables.reply localNodeId call.metadataCall) :=
      h.router.reply_eq hp hn hfits
    rw [sqlReply, sqlCall_value, hreply, Option.map_some, value_reply]
    rfl

end

/-- **The functions answer from the tables.** In every history of transactions, invalidations
and calls of `pg_partdist_get_primary` and `pg_partdist_route_write`, from the tables as they
are installed, every call returns what the rows that are committed say, provided that what was
written is invalidated before the next call, the calls are about at most as many partitions
and nodes as the hash tables hold, and the generation counter does not wrap. -/
theorem sql_answers_right (localNodeId : Int32) (preloaded : Bool) (parts : Finset Oid)
    (hparts : parts.card ≤ partitionMapMaxEntries) (nodes : Finset Int32)
    (hnodes : nodes.card ≤ partdistNodeMaxEntries) (ops : List SqlOp)
    (hops : Run.Along SqlDirect.step (SqlDirect.Fits parts nodes) ⟨emptyMetadata, false, 0⟩ ops)
    (hcount : Run.Along SqlDirect.step SqlDirect.Counts ⟨emptyMetadata, false, 0⟩ ops) :
    Run.outputs (sqlStep localNodeId) (sqlReply localNodeId) (SqlServer.started preloaded) ops =
      Run.outputs SqlDirect.step (SqlDirect.reply localNodeId) ⟨emptyMetadata, false, 0⟩ ops := by
  have hstart : SqlRepresents parts nodes (SqlServer.started preloaded) ⟨emptyMetadata, false, 0⟩ :=
    ⟨rfl, represents_started parts nodes preloaded (metadata_notNull emptyMetadata)⟩
  refine Run.outputs_simulate (R := SqlRepresents parts nodes) (P := fun d op => d.Fits parts nodes op ∧ d.Counts op)
    (sqlStep localNodeId) ?_ ?_ hstart
    (Run.along_and SqlDirect.step (P := SqlDirect.Fits parts nodes) (Q := SqlDirect.Counts) hops hcount)
  · intro s d op h hop
    exact sqlRepresents_step h hparts hnodes hop.1 hop.2
  · intro s d op h hop
    exact h.reply_eq hparts hnodes hop.1

/-- Nodes 1 and 2 are registered and partition 600 on node 1; then node 1 goes down, and the
partition moves to node 2.  A port that is out of range does not get in. -/
def registers600 : List SqlOp :=
  let node (nodeId port : Int32) : NodeMapValues :=
    { nodeId := .value nodeId, hostname := .value [104], port := .value port }
  let status (nodeId : Int32) (status : String) : SqlStatement :=
    .nodes (.update [nodeId] fun r => { r.values with status := .value status })
  let primary (partitionId : Oid) (nodeId : Int32) : SqlStatement :=
    .partitions (.update [partitionId] fun r => { r.values with primaryNode := .value nodeId })
  [.call (.routeWrite 600), .transaction [.nodes (.insert [node 1 5432, node 2 5433] .error), partition600],
    .invalidate, .call (.getPrimary 600), .call (.routeWrite 600),
    .transaction [.nodes (.insert [node 3 0] .error)], .call (.routeWrite 600),
    .transaction [status 1 "down"], .invalidate, .call (.routeWrite 600),
    .transaction [primary 600 2], .invalidate, .call (.getPrimary 600), .call (.routeWrite 600)]

theorem sql_answers_right_600 :
    Run.outputs (sqlStep 1) (sqlReply 1) (SqlServer.started true) registers600 =
      Run.outputs SqlDirect.step (SqlDirect.reply 1) ⟨emptyMetadata, false, 0⟩ registers600 :=
  sql_answers_right 1 true {600} (by decide) {1, 2} (by decide) registers600 (by decide +kernel) (by decide +kernel)

example : (Run.outputs (sqlStep 1) (sqlReply 1) (SqlServer.started true) registers600).filterMap id =
    [.text "not_found", .integer 1, .text "local", .text "local", .text "node_down", .integer 2, .text "remote"] := by
  decide +kernel

end PartDist
