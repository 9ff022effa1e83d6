import PartDist.MetadataCache
import PartDist.Lib.Raise

/-!
# Write routing

`RouteWriteRequest` and the ExecutorStart hook (write_router.c, pg_partdist.c): the
hook routes every result relation of an INSERT, UPDATE or DELETE plan and raises an
error when the primary is another node, or down.  Other sessions can take steps
before each lookup.

* `executorStarted_iff`: such a plan is started if and only if each of its result
  relations is routed, in its turn, and to this node or to no node.
* `write_fenced`: one that is routed to another node, or to a node that is down, keeps the
  plan from being started.
* `lookupPartition_steps`, `lookupNode_steps`: a lookup that is one call is a run of the
  shared cache.
* `write_fenced_at_start`: while no other session takes a step, the routing in the state at
  the start of the hook decides.

A plan of another operation passes the hook, whatever its result relations are
(`merge_not_fenced`).
-/

namespace PartDist

open Bytes StampedCache EStateM

/-! ## Plans -/

inductive CmdType
  | unknown
  | select
  | update
  | insert
  | delete
  | merge
  | utility
  | nothing
deriving DecidableEq

inductive RTEKind
  | relation
  | other
deriving DecidableEq

abbrev RelName := List Char

/-- `relid` is `InvalidOid`, 0, unless the entry is a relation's; `aliasname` is that of `eref`,
if there is one. -/
structure RangeTblEntry where
  rtekind : RTEKind
  relid : Oid
  aliasname : Option RelName

/-- A result relation is the position of an entry of `rtable`. -/
structure PlannedStmt where
  rtable : List RangeTblEntry
  resultRelations : List (Fin rtable.length)

structure QueryDesc where
  operation : CmdType
  plannedstmt : Option PlannedStmt

/-- `rt_fetch` of each result relation. -/
def PlannedStmt.resultEntries (pstmt : PlannedStmt) : List RangeTblEntry :=
  pstmt.resultRelations.map fun rti => pstmt.rtable[rti]

def CmdType.dml (operation : CmdType) : Bool :=
  operation = .insert || operation = .update || operation = .delete

theorem CmdType.dml_iff {operation : CmdType} :
    operation.dml = true ↔ operation = .insert ∨ operation = .update ∨ operation = .delete := by
  cases operation <;> decide

/-! ## Lookups of a backend -/

/-- The steps other sessions take before a lookup, and whether its load succeeds. -/
structure LookupIO where
  others : List CacheLabel
  loadOk : Bool

/-- An error of a function that is called, or one that the hook reports. -/
inductive Raised
  | callee
  | report (errcode errmsg : String) (errhint : Option String)
deriving DecidableEq

inductive RouteStatus
  | routeLocal
  | routeRemote
  | routeNotFound
  | routeNodeDown
deriving DecidableEq

def routeStatusString : RouteStatus → String
  | .routeLocal => "local"
  | .routeRemote => "remote"
  | .routeNotFound => "not_found"
  | .routeNodeDown => "node_down"

/-- What the hook reads and writes; `log` has the DEBUG1 lines. -/
structure Router where
  cache : MetadataCache
  inPartdistHook : Bool
  log : List String

def lookupPartition (io : LookupIO) (partitionId : Oid) : EStateM Raised Router Int32 := fun s =>
  let cache := cacheRun s.cache io.others
  match cache.partitions.lookup getPartitionPrimary cache.generation io.loadOk partitionId with
  | (some primaryNode, partitions) => .ok primaryNode { s with cache := { cache with partitions := partitions } }
  | (none, partitions) => .error .callee { s with cache := { cache with partitions := partitions } }

def lookupNode (io : LookupIO) (nodeId : Int32) : EStateM Raised Router (Option NodeMapEntry) := fun s =>
  let cache := cacheRun s.cache io.others
  match cache.nodes.lookup getNodeInfo cache.generation io.loadOk nodeId with
  | (some node, nodes) => .ok node { s with cache := { cache with nodes := nodes } }
  | (none, nodes) => .error .callee { s with cache := { cache with nodes := nodes } }

/-! ## Algorithm -/

/-- Its two lookups, and the one that fills in the error message. -/
structure RouteIO where
  primary : LookupIO
  node : LookupIO
  message : LookupIO

/-- The decision, of what the lookups returned. -/
def routeOf (localNodeId primaryNode : Int32) (node : Option NodeMapEntry) : RouteStatus :=
  if primaryNode < 0 then .routeNotFound
  else if node.any fun n => n.status = .down then .routeNodeDown
  else if 0 ≤ localNodeId ∧ primaryNode = localNodeId then .routeLocal
  else .routeRemote

def routeWriteRequest (localNodeId : Int32) (io : RouteIO) (partitionId : Oid) :
    EStateM Raised Router RouteStatus := do
  let primaryNode ← lookupPartition io.primary partitionId
  if primaryNode < 0 then return .routeNotFound
  let node ← lookupNode io.node primaryNode
  if node.any fun n => n.status = .down then return .routeNodeDown
  if 0 ≤ localNodeId ∧ primaryNode = localNodeId then return .routeLocal
  return .routeRemote

def Router.logRoute (s : Router) (relid : Oid) (route : RouteStatus) : Router :=
  { s with log := s.log ++ [s!"pg_partdist: relation {relid} → {routeStatusString route}"] }

/-- The loop body of the hook. -/
def routeRelation (localNodeId : Int32) (io : RouteIO) (relid : Oid) : EStateM Raised Router Unit := do
  let route ← routeWriteRequest localNodeId io relid
  modify fun s => s.logRoute relid route
  match route with
  | .routeRemote =>
    let primaryNode ← lookupPartition io.message relid
    throw (.report "ERRCODE_FEATURE_NOT_SUPPORTED"
      s!"pg_partdist: write to partition {relid} must be routed to node {primaryNode} (remote)"
      (some "Configure cross-node forwarding or execute the write on the primary node."))
  | .routeNodeDown =>
    throw (.report "ERRCODE_OBJECT_NOT_IN_PREREQUISITE_STATE"
      s!"pg_partdist: primary node for partition {relid} is currently down" none)
  | .routeLocal => return ()
  | .routeNotFound => return ()

/-- `io` is by the position of the result relation. -/
def routeRelations (localNodeId : Int32) (io : Nat → RouteIO) (entries : List RangeTblEntry) :
    EStateM Raised Router Unit :=
  forEach (fun i rte => routeRelation localNodeId (io i) rte.relid) 0 entries

def pgPartdistExecutorStart (localNodeId : Int32) (io : Nat → RouteIO) (queryDesc : QueryDesc) :
    EStateM Raised Router Unit := do
  let s ← get
  if s.inPartdistHook then return
  if ¬ queryDesc.operation.dml then return
  if localNodeId < 0 then return
  if s.cache.generation = none then return
  match queryDesc.plannedstmt with
  | none => return
  | some pstmt =>
    if pstmt.resultRelations.isEmpty ∧ pstmt.rtable.isEmpty then return
    if pstmt.resultRelations.isEmpty then return
    set { s with inPartdistHook := true }
    finallyDo (routeRelations localNodeId io pstmt.resultEntries)
      fun s => { s with inPartdistHook := false }

/-- `partdist_executor_start`: whether it goes on to start the executor. -/
def executorStarted (localNodeId : Int32) (io : Nat → RouteIO) (queryDesc : QueryDesc) (s : Router) : Bool :=
  ((pgPartdistExecutorStart localNodeId io queryDesc).run s).value?.isSome

/-! ## Fencing -/

section
variable {localNodeId : Int32} {queryDesc : QueryDesc} {pstmt : PlannedStmt} {s : Router}

/-- The routing stays with this node: the partition is its own, or not mapped. -/
def RouteStatus.Stays (route : RouteStatus) : Prop := route = .routeLocal ∨ route = .routeNotFound

/-- The loop goes on after a relation if and only if its routing stays with this node. -/
theorem routeRelation_returns {io : RouteIO} {relid : Oid} :
    ((routeRelation localNodeId io relid).run s).value?.isSome = true ↔
      ∃ route ∈ ((routeWriteRequest localNodeId io relid).run s).value?, route.Stays := by
  unfold routeRelation
  rw [run_bind]
  cases (routeWriteRequest localNodeId io relid).run s with
  | error e s' => exact ⟨(fun h => nomatch h), (fun ⟨_, h, _⟩ => nomatch h)⟩
  | ok route s' =>
    have hok : (∃ r ∈ (Result.ok route s' : Result Raised Router RouteStatus).value?, r.Stays) ↔ route.Stays :=
      ⟨fun ⟨r, hr, h⟩ => Option.some.inj hr ▸ h, fun h => ⟨route, rfl, h⟩⟩
    rw [hok]
    cases route with
    | routeLocal => exact ⟨fun _ => Or.inl rfl, fun _ => rfl⟩
    | routeNotFound => exact ⟨fun _ => Or.inr rfl, fun _ => rfl⟩
    | routeNodeDown => exact ⟨(fun h => nomatch h), (fun h => by rcases h with h | h <;> cases h)⟩
    | routeRemote =>
      refine ⟨fun h => ?_, (fun h => by rcases h with h | h <;> cases h)⟩
      simp only [run_bind, run_modify] at h
      split at h <;> cases h

/-- What the hook does to a plan that passes its early exits. -/
theorem executorStart_run {io : Nat → RouteIO} (hplan : queryDesc.plannedstmt = some pstmt)
    (hdml : queryDesc.operation.dml = true) (hin : s.inPartdistHook = false) (hlocal : 0 ≤ localNodeId)
    (hcache : s.cache.generation ≠ none) :
    (pgPartdistExecutorStart localNodeId io queryDesc).run s =
      (finallyDo (routeRelations localNodeId io pstmt.resultEntries)
        fun s => { s with inPartdistHook := false }).run { s with inPartdistHook := true } := by
  have hneg : ¬ localNodeId < 0 := Int32.not_lt.mpr hlocal
  unfold pgPartdistExecutorStart
  by_cases hrels : pstmt.resultRelations = []
  · -- the early exit does what an empty loop does
    obtain ⟨cache, inPartdistHook, log⟩ := s
    obtain rfl : inPartdistHook = false := hin
    have hentries : pstmt.resultEntries = [] := by rw [PlannedStmt.resultEntries, hrels, List.map_nil]
    simp [hplan, hdml, hneg, hrels, hentries]
    rfl
  · simp [hplan, hdml, hin, hneg, hcache, hrels]

/-- The state in which a result relation finds its turn. -/
def routeTurn (localNodeId : Int32) (io : Nat → RouteIO) (pstmt : PlannedStmt) (s : Router) (i : Nat) : Router :=
  turn (fun i rte => routeRelation localNodeId (io i) (RangeTblEntry.relid rte)) 0 pstmt.resultEntries
    { s with inPartdistHook := true } i

/-- An INSERT, UPDATE or DELETE plan is started if and only if every result relation is
routed, in its turn, and stays with this node. -/
theorem executorStarted_iff {io : Nat → RouteIO} (hplan : queryDesc.plannedstmt = some pstmt)
    (hdml : queryDesc.operation.dml = true) (hin : s.inPartdistHook = false) (hlocal : 0 ≤ localNodeId)
    (hcache : s.cache.generation ≠ none) :
    executorStarted localNodeId io queryDesc s = true ↔
      ∀ i rte, pstmt.resultEntries[i]? = some rte →
        ∃ route ∈ ((routeWriteRequest localNodeId (io i) rte.relid).run
          (routeTurn localNodeId io pstmt s i)).value?, route.Stays := by
  rw [executorStarted, executorStart_run hplan hdml hin hlocal hcache, finallyDo_value,
    routeRelations, forEach_returns]
  simp only [routeRelation_returns, Nat.zero_add]
  rfl

/-- **Write fencing.** A result relation of an INSERT, UPDATE or DELETE plan that is routed
to another node, or to a node that is down: the hook raises an error and the executor is
not started. -/
theorem write_fenced (localNodeId : Int32) (io : Nat → RouteIO) (queryDesc : QueryDesc) (pstmt : PlannedStmt)
    (s : Router) (hplan : queryDesc.plannedstmt = some pstmt)
    (hop : queryDesc.operation = .insert ∨ queryDesc.operation = .update ∨ queryDesc.operation = .delete)
    (hin : s.inPartdistHook = false) (hlocal : 0 ≤ localNodeId) (hcache : s.cache.generation ≠ none)
    {i : Nat} {rte : RangeTblEntry} (hrte : pstmt.resultEntries[i]? = some rte) {route : RouteStatus}
    (hroute : route ∈ ((routeWriteRequest localNodeId (io i) rte.relid).run
      (routeTurn localNodeId io pstmt s i)).value?)
    (haway : route = .routeRemote ∨ route = .routeNodeDown) :
    ((pgPartdistExecutorStart localNodeId io queryDesc).run s).raised? ≠ none ∧
      executorStarted localNodeId io queryDesc s = false := by
  have hdml := CmdType.dml_iff.mpr hop
  have hnot : executorStarted localNodeId io queryDesc s ≠ true := by
    intro hstarted
    obtain ⟨route', hroute', hstays⟩ :=
      (executorStarted_iff hplan hdml hin hlocal hcache).mp hstarted i rte hrte
    obtain rfl := Option.mem_unique hroute hroute'
    rcases haway with rfl | rfl <;> rcases hstays with h | h <;> cases h
  exact ⟨fun h => hnot (Result.raised?_eq_none.mp h), Bool.eq_false_iff.mpr hnot⟩

/-! ## One lookup -/

section
variable {io : LookupIO} {s : Router} {c : MetadataCache}

theorem lookupPartition_returns (hc : cacheRun s.cache io.others = c) {k : Oid} {r : Int32}
    (h : (c.partitions.lookup getPartitionPrimary c.generation io.loadOk k).1 = some r) :
    (lookupPartition io k).run s = .ok r { s with cache := { c with
      partitions := (c.partitions.lookup getPartitionPrimary c.generation io.loadOk k).2 } } := by
  unfold EStateM.run lookupPartition
  simp only [hc]
  split
  · next hlookup =>
    rw [hlookup] at h ⊢
    rw [Option.some.inj h]
  · next hlookup =>
    rw [hlookup] at h
    cases h

theorem lookupPartition_raises (hc : cacheRun s.cache io.others = c) {k : Oid}
    (h : (c.partitions.lookup getPartitionPrimary c.generation io.loadOk k).1 = none) :
    (lookupPartition io k).run s = .error .callee { s with cache := { c with
      partitions := (c.partitions.lookup getPartitionPrimary c.generation io.loadOk k).2 } } := by
  unfold EStateM.run lookupPartition
  simp only [hc]
  split
  · next hlookup =>
    rw [hlookup] at h
    cases h
  · next hlookup => rw [hlookup]

theorem lookupNode_returns (hc : cacheRun s.cache io.others = c) {k : Int32} {r : Option NodeMapEntry}
    (h : (c.nodes.lookup getNodeInfo c.generation io.loadOk k).1 = some r) :
    (lookupNode io k).run s = .ok r { s with cache := { c with
      nodes := (c.nodes.lookup getNodeInfo c.generation io.loadOk k).2 } } := by
  unfold EStateM.run lookupNode
  simp only [hc]
  split
  · next hlookup =>
    rw [hlookup] at h ⊢
    rw [Option.some.inj h]
  · next hlookup =>
    rw [hlookup] at h
    cases h

theorem lookupNode_raises (hc : cacheRun s.cache io.others = c) {k : Int32}
    (h : (c.nodes.lookup getNodeInfo c.generation io.loadOk k).1 = none) :
    (lookupNode io k).run s = .error .callee { s with cache := { c with
      nodes := (c.nodes.lookup getNodeInfo c.generation io.loadOk k).2 } } := by
  unfold EStateM.run lookupNode
  simp only [hc]
  split
  · next hlookup =>
    rw [hlookup] at h
    cases h
  · next hlookup => rw [hlookup]

theorem cacheRun_partitions (c : MetadataCache) (sts : List (Step Oid PartitionMapRow)) :
    cacheRun c (sts.map .partition) =
      { c with partitions := sts.foldl (Cache.step getPartitionPrimary c.generation) c.partitions } := by
  induction sts generalizing c with
  | nil => rfl
  | cons st sts ih => exact ih (cacheStep c (.partition st))

theorem cacheRun_nodes (c : MetadataCache) (sts : List (Step Int32 NodeMapRow)) :
    cacheRun c (sts.map .node) =
      { c with nodes := sts.foldl (Cache.step getNodeInfo c.generation) c.nodes } := by
  induction sts generalizing c with
  | nil => rfl
  | cons st sts ih => exact ih (cacheStep c (.node st))

/-- A call of `GetPartitionPrimary` is a run of the shared cache: its lookup begins and goes on to
its end. -/
theorem lookupPartition_steps (hc : cacheRun s.cache io.others = c) (k : Oid) :
    let run := (lookupPartition io k).run s
    cacheRun c ([.begin k, .advance c.partitions.lookups.length io.loadOk,
        .advance c.partitions.lookups.length io.loadOk,
        .advance c.partitions.lookups.length io.loadOk].map .partition) =
      { run.state.cache with
        partitions := run.state.cache.partitions.withLookup k (.ended run.value?) } := by
  intro run
  rw [cacheRun_partitions, Cache.lookup_steps]
  cases h : (c.partitions.lookup getPartitionPrimary c.generation io.loadOk k).1 with
  | some r =>
    have hrun : run = _ := lookupPartition_returns hc h
    rw [hrun]
    rfl
  | none =>
    have hrun : run = _ := lookupPartition_raises hc h
    rw [hrun]
    rfl

/-- And so is one of `GetNodeInfo`. -/
theorem lookupNode_steps (hc : cacheRun s.cache io.others = c) (k : Int32) :
    let run := (lookupNode io k).run s
    cacheRun c ([.begin k, .advance c.nodes.lookups.length io.loadOk,
        .advance c.nodes.lookups.length io.loadOk,
        .advance c.nodes.lookups.length io.loadOk].map .node) =
      { run.state.cache with nodes := run.state.cache.nodes.withLookup k (.ended run.value?) } := by
  intro run
  rw [cacheRun_nodes, Cache.lookup_steps]
  cases h : (c.nodes.lookup getNodeInfo c.generation io.loadOk k).1 with
  | some r =>
    have hrun : run = _ := lookupNode_returns hc h
    rw [hrun]
    rfl
  | none =>
    have hrun : run = _ := lookupNode_raises hc h
    rw [hrun]
    rfl

end

/-! ## The routing at the start -/

/-- The routing that lookups give on a cache when they return. -/
def MetadataCache.route (localNodeId : Int32) (c : MetadataCache) (partitionId : Oid) : RouteStatus :=
  let primaryNode := c.partitions.answer getPartitionPrimary c.generation partitionId
  routeOf localNodeId primaryNode (c.nodes.answer getNodeInfo c.generation primaryNode)

structure MetadataCache.SameAnswers (c c' : MetadataCache) : Prop where
  partition : ∀ k, c'.partitions.answer getPartitionPrimary c'.generation k =
    c.partitions.answer getPartitionPrimary c.generation k
  node : ∀ k, c'.nodes.answer getNodeInfo c'.generation k = c.nodes.answer getNodeInfo c.generation k

theorem MetadataCache.SameAnswers.route {c c' : MetadataCache} (h : c.SameAnswers c') (localNodeId : Int32)
    (partitionId : Oid) : c'.route localNodeId partitionId = c.route localNodeId partitionId := by
  simp only [MetadataCache.route, h.partition, h.node]

theorem MetadataCache.SameAnswers.trans {c c' c'' : MetadataCache} (h : c.SameAnswers c')
    (h' : c'.SameAnswers c'') : c.SameAnswers c'' :=
  ⟨fun k => (h'.partition k).trans (h.partition k), fun k => (h'.node k).trans (h.node k)⟩

/-- No other session takes a step. -/
structure RouteIO.Quiet (io : RouteIO) : Prop where
  primary : io.primary.others = []
  node : io.node.others = []
  message : io.message.others = []

theorem lookupPartition_quiet {io : LookupIO} (hio : io.others = []) (k : Oid) :
    (∀ v ∈ ((lookupPartition io k).run s).value?,
        v = s.cache.partitions.answer getPartitionPrimary s.cache.generation k) ∧
      s.cache.SameAnswers ((lookupPartition io k).run s).state.cache := by
  have hrun : cacheRun s.cache io.others = s.cache := by rw [hio]; rfl
  have hsame : s.cache.SameAnswers { s.cache with
      partitions := (s.cache.partitions.lookup getPartitionPrimary s.cache.generation io.loadOk k).2 } :=
    ⟨fun k' => Cache.answer_lookup (fun _ _ _ => rfl) _ _ k', fun _ => rfl⟩
  cases h : (s.cache.partitions.lookup getPartitionPrimary s.cache.generation io.loadOk k).1 with
  | some r =>
    rw [lookupPartition_returns hrun h]
    refine ⟨fun v hv => ?_, hsame⟩
    obtain rfl := Option.some.inj hv
    exact Cache.lookup_answer h
  | none =>
    rw [lookupPartition_raises hrun h]
    exact ⟨(fun _ hv => by cases hv), hsame⟩

theorem lookupNode_quiet {io : LookupIO} (hio : io.others = []) (k : Int32) :
    (∀ v ∈ ((lookupNode io k).run s).value?, v = s.cache.nodes.answer getNodeInfo s.cache.generation k) ∧
      s.cache.SameAnswers ((lookupNode io k).run s).state.cache := by
  have hrun : cacheRun s.cache io.others = s.cache := by rw [hio]; rfl
  have hsame : s.cache.SameAnswers { s.cache with
      nodes := (s.cache.nodes.lookup getNodeInfo s.cache.generation io.loadOk k).2 } :=
    ⟨fun _ => rfl, fun k' => Cache.answer_lookup (fun _ _ _ => rfl) _ _ k'⟩
  cases h : (s.cache.nodes.lookup getNodeInfo s.cache.generation io.loadOk k).1 with
  | some r =>
    rw [lookupNode_returns hrun h]
    refine ⟨fun v hv => ?_, hsame⟩
    obtain rfl := Option.some.inj hv
    exact Cache.lookup_answer h
  | none =>
    rw [lookupNode_raises hrun h]
    exact ⟨(fun _ hv => by cases hv), hsame⟩

/-- What `RouteWriteRequest` decides once its lookups have returned. -/
theorem routeWriteRequest_eq (localNodeId : Int32) (io : RouteIO) (partitionId : Oid) :
    routeWriteRequest localNodeId io partitionId = do
      let primaryNode ← lookupPartition io.primary partitionId
      if primaryNode < 0 then return .routeNotFound
      let node ← lookupNode io.node primaryNode
      return routeOf localNodeId primaryNode node := by
  unfold routeWriteRequest
  congr 1
  funext primaryNode
  split
  · rfl
  · next hneg =>
    congr 1
    funext node
    rw [routeOf, if_neg hneg]
    split
    · rfl
    · split <;> rfl

theorem routeWriteRequest_quiet (localNodeId : Int32) {io : RouteIO} (hio : io.Quiet) (relid : Oid) :
    (∀ route ∈ ((routeWriteRequest localNodeId io relid).run s).value?, route = s.cache.route localNodeId relid) ∧
      s.cache.SameAnswers ((routeWriteRequest localNodeId io relid).run s).state.cache := by
  obtain ⟨hval, hsame⟩ := lookupPartition_quiet (s := s) hio.primary relid
  rw [routeWriteRequest_eq, run_bind]
  cases hp : (lookupPartition io.primary relid).run s with
  | error e s' =>
    rw [hp] at hsame
    exact ⟨(fun _ h => nomatch h), hsame⟩
  | ok primaryNode s' =>
    rw [hp] at hsame hval
    have hprimary := hval primaryNode rfl
    by_cases hneg : primaryNode < 0
    · simp only [hneg, if_true, run_pure]
      refine ⟨fun route hroute => ?_, hsame⟩
      rw [MetadataCache.route, ← hprimary, routeOf, if_pos hneg]
      exact (Option.some.inj hroute).symm
    · obtain ⟨hnode, hsame'⟩ := lookupNode_quiet (s := s') hio.node primaryNode
      simp only [hneg, if_false, run_bind]
      cases hn : (lookupNode io.node primaryNode).run s' with
      | error e s'' =>
        rw [hn] at hsame'
        exact ⟨(fun _ h => nomatch h), hsame.trans hsame'⟩
      | ok node s'' =>
        rw [hn] at hsame' hnode
        have hanswer := (hnode node rfl).trans (hsame.node primaryNode)
        refine ⟨fun route hroute => ?_, hsame.trans hsame'⟩
        rw [MetadataCache.route, ← hprimary, ← hanswer]
        exact (Option.some.inj hroute).symm

theorem routeRelation_quiet {io : RouteIO} (hio : io.Quiet) (relid : Oid) :
    s.cache.SameAnswers ((routeRelation localNodeId io relid).run s).state.cache := by
  obtain ⟨-, hsame⟩ := routeWriteRequest_quiet (s := s) localNodeId hio relid
  unfold routeRelation
  rw [run_bind]
  cases hr : (routeWriteRequest localNodeId io relid).run s with
  | error e s' => rwa [hr] at hsame
  | ok route s' =>
    rw [hr] at hsame
    cases route with
    | routeLocal => exact hsame
    | routeNotFound => exact hsame
    | routeNodeDown => exact hsame
    | routeRemote =>
      have hsame' := (lookupPartition_quiet (s := s'.logRoute relid .routeRemote) hio.message relid).2
      simp only [run_bind, run_modify]
      split
      · next hm =>
        rw [hm] at hsame'
        exact hsame.trans hsame'
      · next hm =>
        rw [hm] at hsame'
        exact hsame.trans hsame'

theorem routeTurn_quiet {io : Nat → RouteIO} (hio : ∀ i, (io i).Quiet) (i : Nat) :
    s.cache.SameAnswers (routeTurn localNodeId io pstmt s i).cache := by
  unfold routeTurn
  refine turn_keeps (P := fun s' : Router => s.cache.SameAnswers s'.cache) ?_ ?_ i
  · exact fun i rte _ h => h.trans (routeRelation_quiet (hio i) rte.relid)
  · exact ⟨fun _ => rfl, fun _ => rfl⟩

/-- While no other session takes a step, the routing in the state at the start of the
hook decides whether a plan is started. -/
theorem write_fenced_at_start {io : Nat → RouteIO} (hplan : queryDesc.plannedstmt = some pstmt)
    (hdml : queryDesc.operation.dml = true) (hin : s.inPartdistHook = false) (hlocal : 0 ≤ localNodeId)
    (hcache : s.cache.generation ≠ none) (hio : ∀ i, (io i).Quiet)
    (hstarted : executorStarted localNodeId io queryDesc s = true) {rte : RangeTblEntry}
    (hrte : rte ∈ pstmt.resultEntries) : (s.cache.route localNodeId rte.relid).Stays := by
  obtain ⟨i, hi⟩ := List.getElem?_of_mem hrte
  obtain ⟨route, hroute, hstays⟩ := (executorStarted_iff hplan hdml hin hlocal hcache).mp hstarted i rte hi
  obtain rfl := (routeWriteRequest_quiet localNodeId (hio i) rte.relid).1 route hroute
  rwa [(routeTurn_quiet hio i).route] at hstays

end

/-! ## One partition of another node -/

/-- A plan that modifies partition 600. -/
def modifies600 (operation : CmdType) : QueryDesc :=
  ⟨operation, some ⟨[⟨.relation, 600, some "orders".toList⟩], [0]⟩⟩

/-- Partition 600 is mapped to node 5. -/
def mappedTo5 : Router :=
  ⟨cacheRun (MetadataCache.boot true) [.partition (.change 600 (some (primaryRow 5)))], false, []⟩

/-- Every load succeeds; no other session takes a step. -/
def quietIO (_ : Nat) : RouteIO := ⟨⟨[], true⟩, ⟨[], true⟩, ⟨[], true⟩⟩

/-- On node 1 an UPDATE of partition 600 is refused. -/
theorem write_fenced_update :
    ((pgPartdistExecutorStart 1 quietIO (modifies600 .update)).run mappedTo5).raised? ≠ none ∧
      executorStarted 1 quietIO (modifies600 .update) mappedTo5 = false :=
  write_fenced 1 quietIO (modifies600 .update) ⟨[⟨.relation, 600, some "orders".toList⟩], [0]⟩ mappedTo5 rfl
    (Or.inr (Or.inl rfl)) rfl (by decide) (by decide +kernel) (i := 0) rfl
    (show RouteStatus.routeRemote ∈ _ by decide +kernel) (Or.inl rfl)

/-- A MERGE on partition 600 is started there, although the partition is routed to
another node. -/
theorem merge_not_fenced :
    (((routeWriteRequest 1 ( quietIO 0) 600).run mappedTo5).value? = some .routeRemote ∧
      mappedTo5.cache.generation ≠ none) ∧
    ((pgPartdistExecutorStart 1 quietIO (modifies600 .merge)).run mappedTo5).raised? = none ∧
      executorStarted 1 quietIO (modifies600 .merge) mappedTo5 = true := by
  decide +kernel

-- So is a SELECT with a data-modifying CTE.
example : executorStarted 1 quietIO (modifies600 .select) mappedTo5 = true := by decide +kernel

end PartDist
