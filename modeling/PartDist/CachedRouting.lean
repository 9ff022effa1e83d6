import PartDist.WriteRouter

/-!
# The cache and the tables

`GetPartitionPrimary`, `GetNodeInfo` and `RouteWriteRequest` in one session, next to what
they would answer from the tables alone.

* `metadataCall_run`, `metadataCall_full`: a call on a coherent cache answers from the tables
  if the hash tables have room for the rows it loads, and ends in an error otherwise.
* `lookups_right_iff`: with fixed tables all lookups are right if and only if no more
  distinct rows are looked up than the hash tables hold.
-/

namespace PartDist

open Bytes StampedCache EStateM

/-! ## Without a cache -/

/-- `partdist.partition_map` and `partdist.node_map`, by their primary keys. -/
structure Tables where
  partitionMap : Oid → Option PartitionMapRow
  nodeMap : Int32 → Option NodeMapRow

namespace Tables

/-- The column `hostname` is `NOT NULL`. -/
def NotNull (t : Tables) : Prop := ∀ k row, t.nodeMap k = some row → row.hostname ≠ none

/-- -1 where there is no row. -/
def primary (t : Tables) (k : Oid) : Int32 :=
  ((t.partitionMap k).bind PartitionMapRow.primaryNode).getD (-1)

def node (t : Tables) (k : Int32) : Option NodeMapEntry := (t.nodeMap k).bind (loadNodeFromTable k)

def route (localNodeId : Int32) (t : Tables) (k : Oid) : RouteStatus :=
  if t.primary k < 0 then .routeNotFound
  else if (t.nodeMap (t.primary k)).any fun row => row.status = some "down" then .routeNodeDown
  else if 0 ≤ localNodeId ∧ t.primary k = localNodeId then .routeLocal
  else .routeRemote

end Tables

inductive MetadataCall
  | getPartitionPrimary (k : Oid)
  | getNodeInfo (k : Int32)
  | routeWriteRequest (k : Oid)

/-- The partition whose row the call looks up. -/
def MetadataCall.partition? : MetadataCall → Option Oid
  | .getPartitionPrimary k => some k
  | .getNodeInfo _ => none
  | .routeWriteRequest k => some k

inductive Reply
  | primary (node : Int32)
  | node (info : Option NodeMapEntry)
  | route (status : RouteStatus)
deriving DecidableEq

namespace Tables

def reply (localNodeId : Int32) (t : Tables) : MetadataCall → Reply
  | .getPartitionPrimary k => .primary (t.primary k)
  | .getNodeInfo k => .node (t.node k)
  | .routeWriteRequest k => .route (t.route localNodeId k)

/-- The node whose row the call looks up. -/
def node? (t : Tables) : MetadataCall → Option Int32
  | .getPartitionPrimary _ => none
  | .getNodeInfo k => some k
  | .routeWriteRequest k => if 0 ≤ t.primary k then some (t.primary k) else none

/-- The partition it looks up, if that has a row with a primary. -/
def partitionsOf (t : Tables) (call : MetadataCall) : Finset Oid :=
  (call.partition?.filter fun k => 0 ≤ t.primary k).toFinset

/-- The node it looks up, if that has a row. -/
def nodesOf (t : Tables) (call : MetadataCall) : Finset Int32 :=
  ((t.node? call).filter fun k => (t.nodeMap k).isSome).toFinset

end Tables

/-! ## With the cache -/

/-- No other session takes a step, and the load succeeds. -/
def alone : LookupIO := ⟨[], true⟩

theorem cacheRun_alone (c : MetadataCache) : cacheRun c alone.others = c := rfl

def metadataCall (localNodeId : Int32) : MetadataCall → EStateM Raised Router Reply
  | .getPartitionPrimary k => return .primary (← lookupPartition alone k)
  | .getNodeInfo k => return .node (← lookupNode alone k)
  | .routeWriteRequest k => return .route (← routeWriteRequest localNodeId ⟨alone, alone, alone⟩ k)

/-- `none` when it raises an error. -/
def callReply (localNodeId : Int32) (s : Router) (call : MetadataCall) : Option Reply :=
  ((metadataCall localNodeId call).run s).value?

def routerStep (localNodeId : Int32) (s : Router) (call : MetadataCall) : Router :=
  ((metadataCall localNodeId call).run s).state

namespace MetadataCache

/-- A server that has just started, on these tables. -/
def started (preloaded : Bool) (t : Tables) : MetadataCache where
  generation := if preloaded then some 0 else none
  partitions := ⟨fun k => [t.partitionMap k], ∅, fun _ => 1, []⟩
  nodes := ⟨fun k => [t.nodeMap k], ∅, fun _ => 1, []⟩

/-- The rows by now. -/
def tables (c : MetadataCache) : Tables where
  partitionMap := c.partitions.rows
  nodeMap := c.nodes.rows

structure Coherent (c : MetadataCache) : Prop where
  partitions : c.partitions.Coherent getPartitionPrimary c.generation
  nodes : c.nodes.Coherent getNodeInfo c.generation

/-- The hash tables have room for the rows that the call loads. -/
structure HasRoom (c : MetadataCache) (call : MetadataCall) : Prop where
  partition : ∀ k ∈ call.partition?, c.partitions.RoomFor getPartitionPrimary c.generation k
  node : ∀ k ∈ c.tables.node? call, c.nodes.RoomFor getNodeInfo c.generation k

/-- What a call that returns leaves. -/
def after (c : MetadataCache) (call : MetadataCall) : MetadataCache where
  generation := c.generation
  partitions := c.partitions.lookedUp getPartitionPrimary c.generation call.partition?
  nodes := c.nodes.lookedUp getNodeInfo c.generation (c.tables.node? call)

variable {c : MetadataCache}

@[simp] theorem tables_after (call : MetadataCall) : (c.after call).tables = c.tables := by
  simp only [tables, after, Cache.lookedUp_rows]

theorem coherent_started (preloaded : Bool) (t : Tables) : (started preloaded t).Coherent where
  partitions := (Cache.within_empty rfl : Cache.Within getPartitionPrimary ∅ ∅ _).coherent fun _ _ h => h
  nodes := (Cache.within_empty rfl : Cache.Within getNodeInfo ∅ ∅ _).coherent fun _ _ h => h

theorem Coherent.after (hc : c.Coherent) (call : MetadataCall) : (c.after call).Coherent where
  partitions := hc.partitions.lookedUp (fun _ _ _ => rfl) _
  nodes := hc.nodes.lookedUp (fun _ _ _ => rfl) _

end MetadataCache

/-! ## One call -/

section
variable {localNodeId : Int32} {s : Router}

theorem answer_fetch_partition (c : MetadataCache) (k : Oid) :
    getPartitionPrimary.answer (c.partitions.fetch getPartitionPrimary k) = c.tables.primary k := by
  show getPartitionPrimary.answer ((c.tables.partitionMap k).bind (loadPartitionFromTable k)) = _
  unfold Tables.primary loadPartitionFromTable
  cases c.tables.partitionMap k with
  | none => rfl
  | some row =>
    obtain ⟨primaryNode, secondaryNodes, version⟩ := row
    cases primaryNode <;> rfl

theorem answer_fetch_node (c : MetadataCache) (k : Int32) :
    getNodeInfo.answer (c.nodes.fetch getNodeInfo k) = c.tables.node k := rfl

/-- The status that is loaded decides as the column does. -/
theorem routeOf_tables {t : Tables} (ht : t.NotNull) (k : Oid) :
    routeOf localNodeId (t.primary k) (t.node (t.primary k)) = t.route localNodeId k := by
  have hdown : (t.node (t.primary k)).any (fun n => n.status = .down) =
      (t.nodeMap (t.primary k)).any fun row => row.status = some "down" := by
    unfold Tables.node
    cases hrow : t.nodeMap (t.primary k) with
    | none => rfl
    | some row =>
      obtain ⟨hostname, hhost⟩ := Option.ne_none_iff_exists'.mp (ht _ row hrow)
      rw [Option.bind_some, loadNodeFromTable, hhost]
      cases hstatus : row.status with
      | none => simp [hstatus]
      | some status =>
        by_cases hd : status = "down"
        · simp [hstatus, hd]
        · by_cases hs : status = "syncing" <;> simp [hstatus, hd, hs]
  rw [routeOf, Tables.route, hdown]

theorem lookupPartition_alone {k : Oid} {r : Int32}
    (h : (s.cache.partitions.lookup getPartitionPrimary s.cache.generation true k).1 = some r) :
    (lookupPartition alone k).run s = .ok r { s with cache := { s.cache with
      partitions := (s.cache.partitions.lookup getPartitionPrimary s.cache.generation true k).2 } } :=
  lookupPartition_returns (cacheRun_alone _) h

theorem lookupPartition_run (hc : s.cache.Coherent) {k : Oid}
    (hroom : s.cache.partitions.RoomFor getPartitionPrimary s.cache.generation k) :
    (lookupPartition alone k).run s =
      .ok (s.cache.tables.primary k) { s with cache := s.cache.after (.getPartitionPrimary k) } := by
  have hvalue := (hc.partitions.lookup_iff k).mpr hroom
  rw [answer_fetch_partition] at hvalue
  exact lookupPartition_alone hvalue

theorem lookupPartition_full (hc : s.cache.Coherent) {k : Oid}
    (hroom : ¬ s.cache.partitions.RoomFor getPartitionPrimary s.cache.generation k) :
    ∃ s', (lookupPartition alone k).run s = .error .callee s' :=
  ⟨_, lookupPartition_raises (cacheRun_alone _) (hc.partitions.lookup_full hroom)⟩

theorem lookupNode_run (hc : s.cache.Coherent) {k : Int32}
    (hroom : s.cache.nodes.RoomFor getNodeInfo s.cache.generation k) :
    (lookupNode alone k).run s = .ok (s.cache.tables.node k) { s with cache := s.cache.after (.getNodeInfo k) } := by
  have hvalue := (hc.nodes.lookup_iff k).mpr hroom
  rw [answer_fetch_node] at hvalue
  exact lookupNode_returns (cacheRun_alone _) hvalue

theorem lookupNode_full (hc : s.cache.Coherent) {k : Int32}
    (hroom : ¬ s.cache.nodes.RoomFor getNodeInfo s.cache.generation k) :
    ∃ s', (lookupNode alone k).run s = .error .callee s' :=
  ⟨_, lookupNode_raises (cacheRun_alone _) (hc.nodes.lookup_full hroom)⟩

/-- A call that has room for the rows it loads answers from the tables. -/
theorem metadataCall_run (hc : s.cache.Coherent) (ht : s.cache.tables.NotNull) {call : MetadataCall}
    (hroom : s.cache.HasRoom call) :
    (metadataCall localNodeId call).run s =
      .ok (s.cache.tables.reply localNodeId call) { s with cache := s.cache.after call } := by
  cases call with
  | getPartitionPrimary k =>
    rw [metadataCall, run_bind, lookupPartition_run hc (hroom.partition k rfl)]
    rfl
  | getNodeInfo k =>
    rw [metadataCall, run_bind, lookupNode_run hc (hroom.node k rfl)]
    rfl
  | routeWriteRequest k =>
    have hroute : routeOf localNodeId _ _ = _ := routeOf_tables ht k
    simp only [metadataCall, routeWriteRequest_eq, run_bind, lookupPartition_run hc (hroom.partition k rfl)]
    by_cases hneg : s.cache.tables.primary k < 0
    · have hnot : s.cache.tables.route localNodeId k = .routeNotFound := if_pos hneg
      have hnode : s.cache.tables.node? (.routeWriteRequest k) = none := if_neg (Int32.not_le.mpr hneg)
      simp only [hneg, if_true, run_pure, Tables.reply, hnot, MetadataCache.after, hnode]
      rfl
    · have hnode : s.cache.tables.node? (.routeWriteRequest k) = some (s.cache.tables.primary k) :=
        if_pos (Int32.not_lt.mp hneg)
      have hrun := lookupNode_run (s := { s with cache := s.cache.after (.getPartitionPrimary k) })
        (hc.after _) (hroom.node _ hnode)
      simp only [hneg, if_false, run_bind, run_pure, hrun, MetadataCache.tables_after, hroute, Tables.reply]
      simp only [MetadataCache.after, hnode]
      rfl

/-- One that has not ends in an error. -/
theorem metadataCall_full (hc : s.cache.Coherent) {call : MetadataCall} (hroom : ¬ s.cache.HasRoom call) :
    callReply localNodeId s call = none := by
  unfold callReply
  cases call with
  | getPartitionPrimary k =>
    obtain ⟨s', hrun⟩ := lookupPartition_full (k := k) hc fun h =>
      hroom ⟨fun k' hk' => Option.some.inj hk' ▸ h, fun _ hk' => (by cases hk')⟩
    rw [metadataCall, run_bind, hrun]
    rfl
  | getNodeInfo k =>
    obtain ⟨s', hrun⟩ := lookupNode_full (k := k) hc fun h =>
      hroom ⟨fun _ hk' => (by cases hk'), fun k' hk' => Option.some.inj hk' ▸ h⟩
    rw [metadataCall, run_bind, hrun]
    rfl
  | routeWriteRequest k =>
    simp only [metadataCall, routeWriteRequest_eq, run_bind]
    by_cases hpart : s.cache.partitions.RoomFor getPartitionPrimary s.cache.generation k
    · have hnode : ¬ ∀ k' ∈ s.cache.tables.node? (.routeWriteRequest k),
          s.cache.nodes.RoomFor getNodeInfo s.cache.generation k' :=
        fun h => hroom ⟨fun k' hk' => Option.some.inj hk' ▸ hpart, h⟩
      by_cases hneg : s.cache.tables.primary k < 0
      · have hnone : s.cache.tables.node? (.routeWriteRequest k) = none := if_neg (Int32.not_le.mpr hneg)
        rw [hnone] at hnode
        exact absurd (fun _ hk' => by cases hk') hnode
      · have hsome : s.cache.tables.node? (.routeWriteRequest k) = some (s.cache.tables.primary k) :=
          if_pos (Int32.not_lt.mp hneg)
        obtain ⟨s', hrun⟩ := lookupNode_full (s := { s with cache := s.cache.after (.getPartitionPrimary k) })
          (k := s.cache.tables.primary k) (hc.after _) fun h =>
            hnode fun k' hk' => Option.some.inj (hsome.symm.trans hk') ▸ h
        simp only [lookupPartition_run hc hpart, hneg, if_false, run_bind, hrun, Result.value?_error]
    · obtain ⟨s', hrun⟩ := lookupPartition_full hc hpart
      simp only [hrun, Result.value?_error]

theorem callReply_iff (hc : s.cache.Coherent) (ht : s.cache.tables.NotNull) (call : MetadataCall) :
    callReply localNodeId s call = some (s.cache.tables.reply localNodeId call) ↔ s.cache.HasRoom call := by
  constructor
  · intro h
    by_contra hroom
    rw [metadataCall_full hc hroom] at h
    cases h
  · intro hroom
    rw [callReply, metadataCall_run hc ht hroom]
    rfl

theorem routerStep_of_room (hc : s.cache.Coherent) (ht : s.cache.tables.NotNull) {call : MetadataCall}
    (hroom : s.cache.HasRoom call) : routerStep localNodeId s call = { s with cache := s.cache.after call } := by
  rw [routerStep, metadataCall_run hc ht hroom]
  rfl

end

/-! ## The rows in the hash tables -/

namespace MetadataCache

variable {c : MetadataCache} {call : MetadataCall}

theorem loaded_partition {k : Oid} (hk : k ∈ call.partition?) :
    c.partitions.loaded getPartitionPrimary k = c.tables.partitionsOf call := by
  have hstores : (c.partitions.fetch getPartitionPrimary k).any getPartitionPrimary.stores =
      decide (0 ≤ c.tables.primary k) := by
    show ((c.tables.partitionMap k).bind (loadPartitionFromTable k)).any _ = _
    unfold Tables.primary
    cases c.tables.partitionMap k with
    | none => rfl
    | some row =>
      obtain ⟨primaryNode, secondaryNodes, version⟩ := row
      cases primaryNode <;> rfl
  rw [Tables.partitionsOf, Option.mem_def.mp hk, Cache.loaded, hstores, Option.filter_some]
  by_cases h : 0 ≤ c.tables.primary k <;> simp [h]

theorem loaded_node (ht : c.tables.NotNull) {k : Int32} (hk : k ∈ c.tables.node? call) :
    c.nodes.loaded getNodeInfo k = c.tables.nodesOf call := by
  have hstores : (c.nodes.fetch getNodeInfo k).any getNodeInfo.stores = (c.tables.nodeMap k).isSome := by
    show ((c.tables.nodeMap k).bind (loadNodeFromTable k)).any _ = _
    cases hrow : c.tables.nodeMap k with
    | none => rfl
    | some row =>
      obtain ⟨hostname, hhost⟩ := Option.ne_none_iff_exists'.mp (ht k row hrow)
      rw [Option.bind_some, loadNodeFromTable, hhost]
      rfl
  rw [Tables.nodesOf, Option.mem_def.mp hk, Cache.loaded, hstores, Option.filter_some]
  by_cases h : (c.tables.nodeMap k).isSome = true <;> simp [h]

theorem hasRoom_iff {g : Int64} (hgen : c.generation = some g) (ht : c.tables.NotNull)
    (hpart : c.partitions.hash.keys.card ≤ partitionMapMaxEntries)
    (hnode : c.nodes.hash.keys.card ≤ partdistNodeMaxEntries) :
    c.HasRoom call ↔ (c.partitions.hash.keys ∪ c.tables.partitionsOf call).card ≤ partitionMapMaxEntries ∧
      (c.nodes.hash.keys ∪ c.tables.nodesOf call).card ≤ partdistNodeMaxEntries := by
  have hparts : (∀ k ∈ call.partition?, c.partitions.RoomFor getPartitionPrimary c.generation k) ↔
      (c.partitions.hash.keys ∪ c.tables.partitionsOf call).card ≤ partitionMapMaxEntries := by
    cases hcall : call.partition? with
    | none =>
      have hnone : c.tables.partitionsOf call = ∅ := by rw [Tables.partitionsOf, hcall]; rfl
      rw [hnone, Finset.union_empty]
      exact ⟨fun _ => hpart, fun _ k hk => (by cases hk)⟩
    | some k =>
      rw [← loaded_partition hcall, hgen]
      have hroom : c.partitions.RoomFor getPartitionPrimary (some g) k ↔ _ := Cache.roomFor_iff hpart
      exact ⟨fun h => hroom.mp (h k rfl), fun h k' hk' => Option.some.inj hk' ▸ hroom.mpr h⟩
  have hnodes : (∀ k ∈ c.tables.node? call, c.nodes.RoomFor getNodeInfo c.generation k) ↔
      (c.nodes.hash.keys ∪ c.tables.nodesOf call).card ≤ partdistNodeMaxEntries := by
    cases hcall : c.tables.node? call with
    | none =>
      have hnone : c.tables.nodesOf call = ∅ := by rw [Tables.nodesOf, hcall]; rfl
      rw [hnone, Finset.union_empty]
      exact ⟨fun _ => hnode, fun _ k hk => (by cases hk)⟩
    | some k =>
      rw [← loaded_node ht hcall, hgen]
      have hroom : c.nodes.RoomFor getNodeInfo (some g) k ↔ _ := Cache.roomFor_iff hnode
      exact ⟨fun h => hroom.mp (h k rfl), fun h k' hk' => Option.some.inj hk' ▸ hroom.mpr h⟩
  exact ⟨fun h => ⟨hparts.mp h.partition, hnodes.mp h.node⟩, fun h => ⟨hparts.mpr h.1, hnodes.mpr h.2⟩⟩

theorem keys_after {g : Int64} (hgen : c.generation = some g) (ht : c.tables.NotNull) (hroom : c.HasRoom call) :
    (c.after call).partitions.hash.keys = c.partitions.hash.keys ∪ c.tables.partitionsOf call ∧
      (c.after call).nodes.hash.keys = c.nodes.hash.keys ∪ c.tables.nodesOf call := by
  constructor
  · cases hcall : call.partition? with
    | none =>
      have hnone : c.tables.partitionsOf call = ∅ := by rw [Tables.partitionsOf, hcall]; rfl
      rw [after, hcall, hnone, Finset.union_empty]
      rfl
    | some k =>
      have hk := hroom.partition k hcall
      rw [hgen] at hk
      rw [after, hcall, hgen, Cache.lookedUp, Cache.keys_lookup hk, loaded_partition hcall]
  · cases hcall : c.tables.node? call with
    | none =>
      have hnone : c.tables.nodesOf call = ∅ := by rw [Tables.nodesOf, hcall]; rfl
      rw [after, hcall, hnone, Finset.union_empty]
      rfl
    | some k =>
      have hk := hroom.node k hcall
      rw [hgen] at hk
      rw [after, hcall, hgen, Cache.lookedUp, Cache.keys_lookup hk, loaded_node ht hcall]

end MetadataCache

/-! ## Lookups in fixed tables -/

namespace Tables

/-- The partitions with a primary that are looked up. -/
def partitionsLookedUp (t : Tables) (calls : List MetadataCall) : Finset Oid :=
  calls.foldr (fun call keys => t.partitionsOf call ∪ keys) ∅

/-- The nodes with a row that are looked up. -/
def nodesLookedUp (t : Tables) (calls : List MetadataCall) : Finset Int32 :=
  calls.foldr (fun call keys => t.nodesOf call ∪ keys) ∅

end Tables

/-- A server that has just started. -/
def Router.started (preloaded : Bool) (t : Tables) : Router := ⟨MetadataCache.started preloaded t, false, []⟩

/-- The call returns what the tables have. -/
def Right (localNodeId : Int32) (t : Tables) (s : Router) (call : MetadataCall) : Prop :=
  callReply localNodeId s call = some (t.reply localNodeId call)

instance (localNodeId : Int32) (t : Tables) (s : Router) (call : MetadataCall) :
    Decidable (Right localNodeId t s call) := inferInstanceAs (Decidable (_ = _))

section
variable {localNodeId : Int32} {s : Router} {t : Tables}

/-- From any coherent state on, all calls are right if and only if the keys in the hash
tables and those that are looked up fit together. -/
theorem along_right_iff {g : Int64} (hgen : s.cache.generation = some g) (hc : s.cache.Coherent)
    (ht : t.NotNull) (htables : s.cache.tables = t)
    (hpart : s.cache.partitions.hash.keys.card ≤ partitionMapMaxEntries)
    (hnode : s.cache.nodes.hash.keys.card ≤ partdistNodeMaxEntries) (calls : List MetadataCall) :
    Run.Along (routerStep localNodeId) (Right localNodeId t) s calls ↔
      (s.cache.partitions.hash.keys ∪ t.partitionsLookedUp calls).card ≤ partitionMapMaxEntries ∧
        (s.cache.nodes.hash.keys ∪ t.nodesLookedUp calls).card ≤ partdistNodeMaxEntries := by
  induction calls generalizing s with
  | nil => simpa [Tables.partitionsLookedUp, Tables.nodesLookedUp] using ⟨hpart, hnode⟩
  | cons call calls ih =>
    have hnull : s.cache.tables.NotNull := by rw [htables]; exact ht
    have hright : Right localNodeId t s call ↔ s.cache.HasRoom call := by
      have hreply : callReply localNodeId s call = _ ↔ _ := callReply_iff hc hnull call
      rw [← hreply, htables, Right]
    have hiff : s.cache.HasRoom call ↔ _ := MetadataCache.hasRoom_iff hgen hnull hpart hnode
    rw [htables] at hiff
    have hpcons : s.cache.partitions.hash.keys ∪ t.partitionsLookedUp (call :: calls) =
        s.cache.partitions.hash.keys ∪ t.partitionsOf call ∪ t.partitionsLookedUp calls :=
      (Finset.union_assoc ..).symm
    have hncons : s.cache.nodes.hash.keys ∪ t.nodesLookedUp (call :: calls) =
        s.cache.nodes.hash.keys ∪ t.nodesOf call ∪ t.nodesLookedUp calls :=
      (Finset.union_assoc ..).symm
    rw [Run.along_cons, hright, hpcons, hncons]
    by_cases hroom : s.cache.HasRoom call
    · obtain ⟨hpkeys, hnkeys⟩ := MetadataCache.keys_after hgen hnull hroom
      rw [htables] at hpkeys hnkeys
      obtain ⟨hpfits, hnfits⟩ := hiff.mp hroom
      rw [routerStep_of_room hc hnull hroom, ← hpkeys, ← hnkeys]
      rw [← hpkeys] at hpfits
      rw [← hnkeys] at hnfits
      rw [ih (s := { s with cache := s.cache.after call }) hgen (hc.after call)
        ((MetadataCache.tables_after call).trans htables) hpfits hnfits]
      exact and_iff_right hroom
    · refine ⟨fun h => absurd h.1 hroom, fun h => absurd (hiff.mpr ⟨?_, ?_⟩) hroom⟩
      · exact (Finset.card_le_card Finset.subset_union_left).trans h.1
      · exact (Finset.card_le_card Finset.subset_union_left).trans h.2

/-- Without shared memory every call is right. -/
theorem along_right_unloaded (hgen : s.cache.generation = none) (hc : s.cache.Coherent) (ht : t.NotNull)
    (htables : s.cache.tables = t) (calls : List MetadataCall) :
    Run.Along (routerStep localNodeId) (Right localNodeId t) s calls := by
  induction calls generalizing s with
  | nil => trivial
  | cons call calls ih =>
    have hnull : s.cache.tables.NotNull := by rw [htables]; exact ht
    have hroom : s.cache.HasRoom call :=
      ⟨fun k _ h => (by rw [hgen] at h; cases h), fun k _ h => (by rw [hgen] at h; cases h)⟩
    constructor
    · rw [Right, ← htables]
      exact (callReply_iff hc hnull call).mpr hroom
    · rw [routerStep_of_room hc hnull hroom]
      exact ih (s := { s with cache := s.cache.after call }) hgen (hc.after call)
        ((MetadataCache.tables_after call).trans htables)

end

/-- **The cache is only an accelerator.** From the start of the server on, every lookup of a
sequence returns what the tables have if and only if, where the cache is used, no more
distinct partitions and nodes are looked up than its hash tables hold. -/
theorem lookups_right_iff (localNodeId : Int32) (preloaded : Bool) (t : Tables) (ht : t.NotNull)
    (calls : List MetadataCall) :
    Run.Along (routerStep localNodeId) (Right localNodeId t) (Router.started preloaded t) calls ↔
      (preloaded = true → (t.partitionsLookedUp calls).card ≤ partitionMapMaxEntries ∧
        (t.nodesLookedUp calls).card ≤ partdistNodeMaxEntries) := by
  have hc := MetadataCache.coherent_started preloaded t
  cases preloaded with
  | false => exact ⟨fun _ h => (by cases h), fun _ => along_right_unloaded rfl hc ht rfl calls⟩
  | true =>
    have hiff : Run.Along (routerStep localNodeId) _ (Router.started true t) calls ↔ _ :=
      along_right_iff rfl hc ht rfl (Nat.zero_le _) (Nat.zero_le _) calls
    have hp : (Router.started true t).cache.partitions.hash.keys = ∅ := Finmap.keys_empty
    have hn : (Router.started true t).cache.nodes.hash.keys = ∅ := Finmap.keys_empty
    rw [hiff, hp, hn, Finset.empty_union, Finset.empty_union]
    exact ⟨fun h _ => h, fun h => h rfl⟩

/-- A row of a node. -/
def nodeRow (status : String) : NodeMapRow := ⟨some [110], some 5432, some status⟩

/-- Partition 600 is on node 1; there is a row for every node. -/
def manyNodes : Tables where
  partitionMap k := if k = 600 then some (primaryRow 1) else none
  nodeMap _ := some (nodeRow "active")

theorem manyNodes_notNull : manyNodes.NotNull := by
  intro k row h
  cases h
  exact Option.some_ne_none _

/-- Lookups of 64 nodes, and of one partition, with its node, twice. -/
theorem lookups_right_iff_64 :
    Run.Along (routerStep 1) (Right 1 manyNodes) (Router.started true manyNodes)
      ((List.range 64).map (fun i => .getNodeInfo (Int32.ofNat i)) ++
        [.routeWriteRequest 600, .getPartitionPrimary 600]) :=
  (lookups_right_iff 1 true manyNodes manyNodes_notNull _).mpr fun _ => by decide +kernel

/-- A lookup of one more: its row is loaded, and the call ends in an error as there is no
place left in the hash table. -/
theorem full_hash_raises :
    ¬ Run.Along (routerStep 1) (Right 1 manyNodes) (Router.started true manyNodes)
        ((List.range 65).map fun i => .getNodeInfo (Int32.ofNat i)) ∧
      callReply 1 (((List.range 64).map fun i => MetadataCall.getNodeInfo (Int32.ofNat i)).foldl (routerStep 1)
        (Router.started true manyNodes)) (.getNodeInfo 64) = none := by
  decide +kernel

end PartDist
