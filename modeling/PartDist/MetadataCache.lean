import PartDist.Header
import PartDist.Lib.Run
import PartDist.Lib.StampedCache

/-!
# The metadata cache

`GetPartitionPrimary`, `GetNodeInfo` and `InvalidatePartdistCache`
(metadata_cache.c): lookups in two shared hash tables, filled from
`partdist.partition_map` and `partdist.node_map`, and the generation counter that
invalidates both.  A step is one critical section of a lookup, its load, a committed
change of a row or an invalidation.

* `lookups_fresh`: what a lookup returns is the row current at the last invalidation
  before it began, or a newer one, as long as no lookup stores a row that has been
  changed and invalidated since it was loaded.
-/

namespace PartDist

open Bytes StampedCache

def partdistMaxSecondaries : Nat := 32

def partdistMaxHostname : Nat := 256

/-- `PARTDIST_PARTITION_MAX_ENTRIES` of the partition map. -/
def partitionMapMaxEntries : Nat := 1024

def partdistNodeMaxEntries : Nat := 64

/-! ## Rows and entries -/

inductive NodeStatus
  | active
  | down
  | syncing
deriving DecidableEq

/-- What a `char[PARTDIST_MAX_HOSTNAME]` holds before the terminator. -/
structure Hostname where
  bytes : Bytes
  short : bytes.length < partdistMaxHostname
deriving DecidableEq

def strlcpy (bs : Bytes) : Hostname where
  bytes := bs.take (partdistMaxHostname - 1)
  short := by
    rw [List.length_take, partdistMaxHostname]
    omega

@[simp] theorem strlcpy_bytes (h : Hostname) : strlcpy h.bytes = h := by
  obtain ⟨bs, hbs⟩ := h
  unfold strlcpy
  congr 1
  exact List.take_of_length_le (Nat.le_sub_one_of_lt hbs)

/-- The columns of `partition_map` that are loaded; `none` is NULL. -/
structure PartitionMapRow where
  primaryNode : Option Int32
  secondaryNodes : Option (List (Option Int32))
  version : Option Int64
deriving DecidableEq

structure NodeMapRow where
  hostname : Option Bytes
  port : Option Int32
  status : Option String
deriving DecidableEq

/-- `num_secondaries` is the length; a slot nothing was written to is `none`. -/
structure PartitionMapEntry where
  partitionId : Oid
  primaryNode : Int32
  secondaryNodes : List (Option Int32)
  version : Int64
deriving DecidableEq

structure NodeMapEntry where
  nodeId : Int32
  hostname : Hostname
  port : Int32
  status : NodeStatus
deriving DecidableEq

structure PartitionHashEntry where
  partitionId : Oid
  primaryNode : Int32
  secondaryNodes : List (Option Int32)
  metaVersion : Int64
  isValid : Bool
deriving DecidableEq

structure NodeHashEntry where
  nodeId : Int32
  hostname : Hostname
  port : Int32
  status : NodeStatus
  metaVersion : Int64
  isValid : Bool
deriving DecidableEq

/-! ## Loading -/

/-- NULL elements of the array leave their slot as it is. -/
def loadPartitionFromTable (partitionId : Oid) (row : PartitionMapRow) : Option PartitionMapEntry :=
  row.primaryNode.map fun primaryNode =>
    { partitionId := partitionId
      primaryNode := primaryNode
      secondaryNodes := (row.secondaryNodes.getD []).take partdistMaxSecondaries
      version := row.version.getD 1 }

/-- The query has `COALESCE(status, 'active')`. -/
def loadNodeFromTable (nodeId : Int32) (row : NodeMapRow) : Option NodeMapEntry :=
  row.hostname.map fun hostname =>
    let status := row.status.getD "active"
    { nodeId := nodeId
      hostname := strlcpy hostname
      port := row.port.getD 0
      status := if status = "down" then .down else if status = "syncing" then .syncing else .active }

/-! ## Algorithm -/

/-- `GetPartitionPrimary`: it returns -1 when no row was loaded, and stores the row when
what it returns is not negative. -/
def getPartitionPrimary :
    Kind Oid PartitionMapRow PartitionMapEntry PartitionHashEntry Int64 Int32 where
  capacity := partitionMapMaxEntries
  load := loadPartitionFromTable
  stores loaded := decide (0 ≤ loaded.primaryNode)
  entry partitionId loaded currentGen :=
    { partitionId := partitionId
      primaryNode := loaded.primaryNode
      secondaryNodes := loaded.secondaryNodes
      metaVersion := currentGen
      isValid := true }
  stamp := PartitionHashEntry.metaVersion
  valid := PartitionHashEntry.isValid
  hit := PartitionHashEntry.primaryNode
  answer
    | some loaded => loaded.primaryNode
    | none => -1
  stamp_entry _ _ _ := rfl
  hit_entry _ _ _ _ := rfl

/-- `GetNodeInfo`: `none` is the NULL pointer.  It reads the generation under
`node_lock`, which the invalidation does not take. -/
def getNodeInfo : Kind Int32 NodeMapRow NodeMapEntry NodeHashEntry Int64 (Option NodeMapEntry) where
  capacity := partdistNodeMaxEntries
  load := loadNodeFromTable
  stores _ := true
  entry _ loaded currentGen :=
    { nodeId := loaded.nodeId
      hostname := strlcpy loaded.hostname.bytes
      port := loaded.port
      status := loaded.status
      metaVersion := currentGen
      isValid := true }
  stamp := NodeHashEntry.metaVersion
  valid := NodeHashEntry.isValid
  hit entry :=
    some { nodeId := entry.nodeId
           hostname := strlcpy entry.hostname.bytes
           port := entry.port
           status := entry.status }
  answer := id
  stamp_entry _ _ _ := rfl
  hit_entry _ loaded _ _ := by
    obtain ⟨nodeId, hostname, port, status⟩ := loaded
    simp

/-- The two tables with their hash tables and lookups; `generation` is
`metadata_generation`, `none` when the extension was not preloaded. -/
structure MetadataCache where
  generation : Option Int64
  partitions : Cache Oid PartitionMapRow PartitionMapEntry PartitionHashEntry Int32
  nodes : Cache Int32 NodeMapRow NodeMapEntry NodeHashEntry (Option NodeMapEntry)

inductive CacheLabel
  | partition (st : Step Oid PartitionMapRow)
  | node (st : Step Int32 NodeMapRow)
  | invalidate

def MetadataCache.boot (preloaded : Bool) : MetadataCache where
  generation := if preloaded then some 0 else none
  partitions := Cache.empty
  nodes := Cache.empty

/-- `InvalidatePartdistCache`; `pg_partdist_bump_metadata_version` does the same. -/
def invalidatePartdistCache (s : MetadataCache) : MetadataCache where
  generation := s.generation.map (· + 1)
  partitions := s.partitions.invalidate
  nodes := s.nodes.invalidate

def cacheStep (s : MetadataCache) : CacheLabel → MetadataCache
  | .partition st => { s with partitions := s.partitions.step getPartitionPrimary s.generation st }
  | .node st => { s with nodes := s.nodes.step getNodeInfo s.generation st }
  | .invalidate => invalidatePartdistCache s

def cacheRun (s : MetadataCache) (ls : List CacheLabel) : MetadataCache := ls.foldl cacheStep s

/-! ## Coherence -/

/-- A lookup that stores a row has loaded it since the row's last change that was
invalidated; the generation counter does not wrap. -/
def KeepsFresh (s : MetadataCache) : CacheLabel → Prop
  | .partition st => s.partitions.StoresCurrent getPartitionPrimary st
  | .node st => s.nodes.StoresCurrent getNodeInfo st
  | .invalidate => ∀ g ∈ s.generation, g < g + 1

instance (s : MetadataCache) : (l : CacheLabel) → Decidable (KeepsFresh s l)
  | .partition st => inferInstanceAs (Decidable (s.partitions.StoresCurrent getPartitionPrimary st))
  | .node st => inferInstanceAs (Decidable (s.nodes.StoresCurrent getNodeInfo st))
  | .invalidate => Option.decidableForallMem s.generation

instance instPreorderInt64 : Preorder Int64 where
  le_refl := Int64.le_refl
  le_trans _ _ _ := Int64.le_trans
  lt_iff_le_not_ge _ _ := by
    rw [Int64.lt_iff_toInt_lt, Int64.le_iff_toInt_le, Int64.le_iff_toInt_le]
    omega

structure MetadataCache.Inv (s : MetadataCache) : Prop where
  partitions : s.partitions.Inv getPartitionPrimary s.generation
  nodes : s.nodes.Inv getNodeInfo s.generation

theorem metadataCache_inv_step {s : MetadataCache} {l : CacheLabel} (hs : s.Inv) (hl : KeepsFresh s l) :
    (cacheStep s l).Inv := by
  cases l with
  | partition st => exact ⟨hs.partitions.step hl, hs.nodes⟩
  | node st => exact ⟨hs.partitions, hs.nodes.step hl⟩
  | invalidate =>
    have hgen : ∀ g' ∈ s.generation.map (· + 1), ∃ g ∈ s.generation, g < g' := by
      intro g' hg'
      obtain ⟨g, hg, rfl⟩ := Option.mem_map.mp hg'
      exact ⟨g, hg, hl g hg⟩
    exact ⟨hs.partitions.invalidate hgen, hs.nodes.invalidate hgen⟩

/-- **Cache coherence.** In every state of every run whose steps keep it so, each lookup
that has returned gave the result of a version of its row that was current at the last
invalidation before the lookup began, or of a newer one. -/
theorem lookups_fresh (preloaded : Bool) (ls : List CacheLabel)
    (hls : Run.Along cacheStep KeepsFresh (MetadataCache.boot preloaded) ls) :
    let s := cacheRun (MetadataCache.boot preloaded) ls
    (∀ lk ∈ s.partitions.lookups, lk.Fresh getPartitionPrimary (s.partitions.table lk.key)) ∧
      ∀ lk ∈ s.nodes.lookups, lk.Fresh getNodeInfo (s.nodes.table lk.key) := by
  intro s
  have hinv : s.Inv :=
    Run.run_invariant cacheStep ⟨Cache.inv_empty _ _, Cache.inv_empty _ _⟩
      (fun s l hs hl => metadataCache_inv_step hs hl) hls
  exact ⟨hinv.partitions.fresh, hinv.nodes.fresh⟩

/-- A row that names `node` as the primary. -/
def primaryRow (node : Int32) : PartitionMapRow := ⟨some node, some [], some 1⟩

/-- A lookup of partition 600 loads its row, with node 1 as the primary.  The partition
moves to node 5, with an invalidation, after or before the lookup stores what it has
loaded.  Then a second lookup begins. -/
def movedPrimary (storesFirst : Bool) : List CacheLabel :=
  let load := [CacheLabel.partition (.change 600 (some (primaryRow 1))), .partition (.begin 600),
    .partition (.advance 0 true), .partition (.advance 0 true)]
  let move := [CacheLabel.partition (.change 600 (some (primaryRow 5))), .invalidate]
  let store := [CacheLabel.partition (.advance 0 true)]
  let again := [CacheLabel.partition (.begin 600), .partition (.advance 1 true),
    .partition (.advance 1 true), .partition (.advance 1 true)]
  load ++ (if storesFirst then store ++ move else move ++ store) ++ again

/-- The row is stored before it is changed. -/
theorem lookups_fresh_moved :
    let s := cacheRun (MetadataCache.boot true) (movedPrimary true)
    (∀ lk ∈ s.partitions.lookups, lk.Fresh getPartitionPrimary (s.partitions.table lk.key)) ∧
      ∀ lk ∈ s.nodes.lookups, lk.Fresh getNodeInfo (s.nodes.table lk.key) :=
  lookups_fresh true (movedPrimary true) (by decide +kernel)

/-- The row is stored after the invalidation, under the new generation: the second
lookup, which begins after it, still returns node 1. -/
theorem stale_row_returned :
    let s := cacheRun (MetadataCache.boot true) (movedPrimary false)
    s.partitions.lookups.map (fun lk => (lk.since, lk.returned?)) = [(0, some 1), (2, some 1)] ∧
      ¬ ∀ lk ∈ s.partitions.lookups, lk.Fresh getPartitionPrimary (s.partitions.table lk.key) := by
  decide +kernel

end PartDist
