import PartDist.CachedRouting
import PartDist.Lib.PkTable
import PartDist.Lib.Run

/-!
# The metadata tables

`partdist.partition_map` and `partdist.node_map` as the installation script declares them:
columns with their defaults and constraints, the trigger `partition_map_version_bump`, and
the transactions that write them.  Left out are `updated_at` and `last_heartbeat`, which no
function reads, and `ON CONFLICT DO UPDATE` with a `WHERE` of its own.

* `versions_identify_rows`: as long as a partition's row is neither deleted nor given
  another id, its version never goes down, and whenever it is the same so is the row.
-/

namespace PartDist

open Bytes PkTable

/-! ## Columns -/

/-- What a statement has for a column. -/
inductive Given (α : Type)
  | default
  | null
  | value (v : α)

def Given.get {α : Type} (default : Option α) : Given α → Option α
  | .default => default
  | .null => none
  | .value v => some v

/-- All columns but `updated_at`. -/
structure PartitionMapTuple where
  partitionId : Oid
  primaryNode : Int32
  secondaryNodes : List (Option Int32)
  version : Int64
deriving DecidableEq

structure PartitionMapValues where
  partitionId : Given Oid
  primaryNode : Given Int32
  secondaryNodes : Given (List (Option Int32)) := .default
  version : Given Int64 := .default

/-- The values of a row as they are. -/
def PartitionMapTuple.values (r : PartitionMapTuple) : PartitionMapValues :=
  ⟨.value r.partitionId, .value r.primaryNode, .value r.secondaryNodes, .value r.version⟩

def NodeStatus.text : NodeStatus → String
  | .active => "active"
  | .down => "down"
  | .syncing => "syncing"

/-- `CHECK (status IN ('active', 'down', 'syncing'))`. -/
def NodeStatus.ofText? (status : String) : Option NodeStatus :=
  if status = "active" then some .active
  else if status = "down" then some .down
  else if status = "syncing" then some .syncing
  else none

/-- All columns but `last_heartbeat`. -/
structure NodeMapTuple where
  nodeId : Int32
  hostname : Bytes
  port : Int32
  status : NodeStatus
  portInRange : 1 ≤ port ∧ port ≤ 65535
deriving DecidableEq

structure NodeMapValues where
  nodeId : Given Int32
  hostname : Given Bytes
  port : Given Int32
  status : Given String := .default

def NodeMapTuple.values (r : NodeMapTuple) : NodeMapValues :=
  ⟨.value r.nodeId, .value r.hostname, .value r.port, .value r.status.text⟩

/-! ## Schema -/

def partitionMapCheck (v : PartitionMapValues) : Option PartitionMapTuple := do
  let partitionId ← v.partitionId.get none
  let primaryNode ← v.primaryNode.get none
  let secondaryNodes ← v.secondaryNodes.get (some [])
  let version ← v.version.get (some 1)
  return ⟨partitionId, primaryNode, secondaryNodes, version⟩

/-- `NEW.version := OLD.version + 1`, an error when that is out of range. -/
def partitionMapVersionBump (old : PartitionMapTuple) (new : PartitionMapValues) : Option PartitionMapValues :=
  if old.version < Int64.maxValue then some { new with version := .value (old.version + 1) } else none

def partitionMap : Schema Oid PartitionMapTuple PartitionMapValues where
  key := PartitionMapTuple.partitionId
  check := partitionMapCheck
  beforeUpdate := partitionMapVersionBump

def nodeMapCheck (v : NodeMapValues) : Option NodeMapTuple := do
  let nodeId ← v.nodeId.get none
  let hostname ← v.hostname.get none
  let port ← v.port.get none
  let status ← v.status.get (some "active")
  if h : 1 ≤ port ∧ port ≤ 65535 then
    return ⟨nodeId, hostname, port, ← NodeStatus.ofText? status, h⟩
  else none

def nodeMap : Schema Int32 NodeMapTuple NodeMapValues where
  key := NodeMapTuple.nodeId
  check := nodeMapCheck
  beforeUpdate _ new := some new

@[simp] theorem ofText?_text (status : NodeStatus) : NodeStatus.ofText? status.text = some status := by
  cases status <;> decide

/-- A row passes its own check. -/
theorem nodeMapCheck_values (r : NodeMapTuple) : nodeMapCheck r.values = some r := by
  obtain ⟨nodeId, hostname, port, status, hport⟩ := r
  simp [nodeMapCheck, NodeMapTuple.values, Given.get, hport]

theorem partitionMapCheck_values (r : PartitionMapTuple) : partitionMapCheck r.values = some r := rfl

/-! ## Transactions -/

structure Metadata where
  partitionMap : PkTable partitionMap.key
  nodeMap : PkTable nodeMap.key

inductive SqlStatement
  | partitions (st : Statement Oid PartitionMapTuple PartitionMapValues)
  | nodes (st : Statement Int32 NodeMapTuple NodeMapValues)

/-- A transaction in progress, with the keys of the rows it has written. -/
structure MetadataTransaction where
  metadata : Metadata
  partitions : List Oid
  nodes : List Int32

def execStatement (tx : MetadataTransaction) : SqlStatement → Option MetadataTransaction
  | .partitions st => (exec partitionMap tx.metadata.partitionMap st).map fun c =>
    { tx with metadata := { tx.metadata with partitionMap := c.table }, partitions := tx.partitions ++ c.written }
  | .nodes st => (exec nodeMap tx.metadata.nodeMap st).map fun c =>
    { tx with metadata := { tx.metadata with nodeMap := c.table }, nodes := tx.nodes ++ c.written }

/-- `none` when a statement fails. -/
def execTransaction (m : Metadata) (sts : List SqlStatement) : Option MetadataTransaction :=
  sts.foldlM execStatement ⟨m, [], []⟩

/-- A transaction that fails is rolled back. -/
def commit (m : Metadata) (sts : List SqlStatement) : Metadata :=
  ((execTransaction m sts).map MetadataTransaction.metadata).getD m

/-! ## Versions -/

theorem lt_succ_of_lt_maxValue {v : Int64} (h : v < Int64.maxValue) : v < v + 1 := by
  rw [Int64.lt_iff_toInt_lt, Int64.toInt_maxValue] at h
  have hmin := v.le_toInt
  rw [Int64.lt_iff_toInt_lt, Int64.toInt_add, Int64.toInt_one, Int.bmod_eq_of_le (by omega) (by omega)]
  omega

theorem partitionMap_versioned : partitionMap.Versioned PartitionMapTuple.version := by
  intro old v new h
  obtain ⟨v', hv', hnew⟩ := Option.bind_eq_some_iff.mp h
  simp only [partitionMap, partitionMapVersionBump] at hv'
  split at hv'
  · next hlt =>
    obtain rfl := Option.some.inj hv'
    have hversion : new.version = old.version + 1 := by
      simp only [partitionMap, partitionMapCheck, Given.get, Option.bind_eq_bind, Option.bind_eq_some_iff] at hnew
      obtain ⟨partitionId, -, primaryNode, -, secondaryNodes, -, version, hv, hnew⟩ := hnew
      obtain rfl := Option.some.inj hnew
      exact (Option.some.inj hv).symm
    rw [hversion]
    exact lt_succ_of_lt_maxValue hlt
  · cases hv'

/-- The statement neither deletes the row of `p` nor gives it another id. -/
def SqlStatement.Keeps (p : Oid) : SqlStatement → Prop
  | .partitions st => st.Keeps partitionMap p
  | .nodes _ => True

/-- The transaction is rolled back, or its statements keep the row. -/
def KeptBy (p : Oid) (m : Metadata) (sts : List SqlStatement) : Prop :=
  (execTransaction m sts).isSome = true → ∀ st ∈ sts, st.Keeps p

section
variable {p : Oid}

theorem execStatement_newer {tx tx' : MetadataTransaction} {st : SqlStatement} (hst : st.Keeps p)
    (h : execStatement tx st = some tx') :
    Newer PartitionMapTuple.version p tx.metadata.partitionMap tx'.metadata.partitionMap := by
  cases st with
  | partitions st =>
    obtain ⟨c, hc, rfl⟩ := Option.map_eq_some_iff.mp h
    exact partitionMap_versioned.exec hst hc
  | nodes st =>
    obtain ⟨c, hc, rfl⟩ := Option.map_eq_some_iff.mp h
    exact fun r hr => ⟨r, hr, Or.inl rfl⟩

theorem execStatements_newer {tx tx' : MetadataTransaction} {sts : List SqlStatement}
    (hsts : ∀ st ∈ sts, st.Keeps p) (h : sts.foldlM execStatement tx = some tx') :
    Newer PartitionMapTuple.version p tx.metadata.partitionMap tx'.metadata.partitionMap := by
  induction sts generalizing tx with
  | nil =>
    obtain rfl := Option.some.inj h
    exact fun r hr => ⟨r, hr, Or.inl rfl⟩
  | cons st sts ih =>
    rw [List.foldlM_cons] at h
    obtain ⟨tx₁, h₁, h⟩ := Option.bind_eq_some_iff.mp h
    have hhead := execStatement_newer (hsts st List.mem_cons_self) h₁
    exact hhead.trans (ih (fun st' hst' => hsts st' (List.mem_cons_of_mem st hst')) h)

theorem commit_newer {m : Metadata} {sts : List SqlStatement} (hsts : KeptBy p m sts) :
    Newer PartitionMapTuple.version p m.partitionMap (commit m sts).partitionMap := by
  unfold commit
  cases htx : execTransaction m sts with
  | none => exact fun r hr => ⟨r, hr, Or.inl rfl⟩
  | some tx => exact execStatements_newer (hsts (by rw [htx]; rfl)) htx

/-- An `UPDATE` that does not assign to `partition_id`. -/
theorem keeps_setColumns (scan : List Oid) {set : PartitionMapTuple → PartitionMapValues}
    (hset : ∀ r, (set r).partitionId = .value r.partitionId) :
    SqlStatement.Keeps p (.partitions (.update scan set)) := by
  refine ⟨List.not_mem_nil, ?_⟩
  rintro old v new hold ⟨-, rfl⟩ hnew
  obtain ⟨v', hv', hnew⟩ := Option.bind_eq_some_iff.mp hnew
  simp only [partitionMap, partitionMapVersionBump] at hv'
  split at hv'
  · obtain rfl := Option.some.inj hv'
    simp only [partitionMap, partitionMapCheck, hset, Given.get, Option.bind_eq_bind, Option.bind_eq_some_iff] at hnew
    obtain ⟨partitionId, hp, primaryNode, -, secondaryNodes, -, version, -, hnew⟩ := hnew
    obtain rfl := Option.some.inj hnew
    exact (Option.some.inj hp).symm.trans hold
  · cases hv'

end

/-- **Versions identify rows.** In every sequence of transactions, each committed or rolled back,
where those that commit neither delete the row of partition `p` nor give it another id, the row
stays; its version does not go down, whatever the statements set it to, and if it is the same in
the end the whole row is. -/
theorem versions_identify_rows (p : Oid) (m : Metadata) (txs : List (List SqlStatement))
    (hkeeps : Run.Along commit (KeptBy p) m txs) (r : PartitionMapTuple) (hr : m.partitionMap.find p = some r) :
    ∃ r', (txs.foldl commit m).partitionMap.find p = some r' ∧ r.version ≤ r'.version ∧
      (r'.version = r.version → r' = r) := by
  have hnewer : Newer PartitionMapTuple.version p m.partitionMap (txs.foldl commit m).partitionMap :=
    Run.run_invariant commit (I := fun m' => Newer PartitionMapTuple.version p m.partitionMap m'.partitionMap)
      (fun r hr => ⟨r, hr, Or.inl rfl⟩) (fun m' sts h hsts => h.trans (commit_newer hsts)) hkeeps
  obtain ⟨r', hr', heq | hlt⟩ := hnewer r hr
  · subst heq
    exact ⟨r', hr', le_refl _, fun _ => rfl⟩
  · exact ⟨r', hr', hlt.le, fun h => absurd h hlt.ne'⟩

def emptyMetadata : Metadata := ⟨empty, empty⟩

/-- Partition 600 on node 1 with version 42. -/
def partition600 : SqlStatement :=
  .partitions (.insert [{ partitionId := .value 600, primaryNode := .value 1, version := .value 42 }] .error)

/-- It gets a secondary, in a statement that sets the version to 5; it is deleted together with
a second insertion of partition 800, which fails, and the transaction with it; then partition 700
is inserted. -/
def changed600 : List (List SqlStatement) :=
  let secondary : SqlStatement := .partitions (.update [600] fun r =>
    { r.values with secondaryNodes := .value [some 2], version := .value 5 })
  let insert (p : Oid) : SqlStatement :=
    .partitions (.insert [{ partitionId := .value p, primaryNode := .value 2 }] .error)
  [[secondary], [.partitions (.delete [600]), insert 800, insert 800], [insert 700]]

theorem versions_identify_rows_600 :
    ∃ r', (changed600.foldl commit (commit emptyMetadata [partition600])).partitionMap.find 600 = some r' ∧
      42 ≤ r'.version ∧ (r'.version = 42 → r' = ⟨600, 1, [], 42⟩) := by
  refine versions_identify_rows 600 (commit emptyMetadata [partition600]) changed600 ⟨fun _ st hst => ?_,
    fun hcommits => ?_, fun _ st hst => ?_, trivial⟩ ⟨600, 1, [], 42⟩ (by decide +kernel)
  · obtain rfl := List.mem_singleton.mp hst
    exact keeps_setColumns [600] fun _ => rfl
  · exact absurd hcommits (by decide +kernel)
  · obtain rfl := List.mem_singleton.mp hst
    exact ⟨List.not_mem_nil, fun _ _ _ _ h => h.elim⟩

example : ((changed600.foldl commit (commit emptyMetadata [partition600])).partitionMap.find 600) =
    some ⟨600, 1, [some 2], 43⟩ := by
  decide +kernel

end PartDist
