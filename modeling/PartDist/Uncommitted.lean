import PartDist.MetadataCache
import PartDist.Lib.TxCache

/-!
# The partition cache and open transactions

`GetPartitionPrimary` and `InvalidatePartdistCache` (metadata_cache.c) in sessions that
change `partdist.partition_map` in transactions.

* `published_committed`: a session that finds a partition in the shared cache gets a
  primary node that was committed, or its own, as long as no lookup stores a row that
  its own open transaction has changed.

The lookup does not ask whether it has: the row of an insertion that is rolled back
stays in the cache (`uncommitted_published`).
-/

namespace PartDist

open StampedCache

/-- `partition_map` and its cache, with the sessions and their open transactions. -/
abbrev PartitionTx := TxCache Oid PartitionMapRow PartitionMapEntry PartitionHashEntry Int64

def PartitionTx.boot (preloaded : Bool) (committed : Oid → List (Option PartitionMapRow)) : PartitionTx where
  generation := if preloaded then some 0 else none
  hash := ∅
  committed := committed
  sessions := fun _ => TxSession.idle

def partitionTxStep : PartitionTx → TxStep Oid PartitionMapRow → PartitionTx :=
  TxCache.step getPartitionPrimary (· + 1)

/-- What a session gets from the shared cache is the primary node of a committed version
of the row, or of a change of its own transaction. -/
def PublishedOrOwn (s : PartitionTx) : TxStep Oid PartitionMapRow → Prop
  | .lookup i k => (s.sessions i).lookup.isNone → ∀ primaryNode ∈ s.hit getPartitionPrimary k,
      some primaryNode ∈ (s.committed k ++ (s.sessions i).own k).map fun row => row.bind PartitionMapRow.primaryNode
  | _ => True

instance (s : PartitionTx) : (st : TxStep Oid PartitionMapRow) → Decidable (PublishedOrOwn s st)
  | .lookup _ k =>
    @instDecidableForall _ _ inferInstance (Option.decidableForallMem (s.hit getPartitionPrimary k))
  | .write _ _ _ => isTrue trivial
  | .load _ _ _ => isTrue trivial
  | .store _ => isTrue trivial
  | .invalidate => isTrue trivial
  | .commit _ => isTrue trivial
  | .abort _ => isTrue trivial

theorem primaryNode_of_load {k : Oid} {row : Option PartitionMapRow} {l : PartitionMapEntry}
    (h : row.bind (loadPartitionFromTable k) = some l) :
    row.bind PartitionMapRow.primaryNode = some l.primaryNode := by
  obtain ⟨r, rfl, hr⟩ := Option.bind_eq_some_iff.mp h
  obtain ⟨primaryNode, hp, rfl⟩ := Option.map_eq_some_iff.mp hr
  exact hp

theorem publishedOrOwn_of_known {s : PartitionTx} {st : TxStep Oid PartitionMapRow}
    (h : s.HitsKnown getPartitionPrimary st) : PublishedOrOwn s st := by
  cases st with
  | lookup i k =>
    intro hidle primaryNode hp
    obtain ⟨row, hrow, l, hl, rfl⟩ := h hidle primaryNode hp
    exact List.mem_map.mpr ⟨row, List.mem_append.mpr hrow, primaryNode_of_load hl⟩
  | write => trivial
  | load => trivial
  | store => trivial
  | invalidate => trivial
  | commit => trivial
  | abort => trivial

/-- **Nothing uncommitted is published.** In every run in which no lookup stores a row that
its session's own open transaction has changed, what any session gets from the shared
cache is a primary node that was committed, or that it wrote itself. -/
theorem published_committed (preloaded : Bool) (committed : Oid → List (Option PartitionMapRow))
    (sts : List (TxStep Oid PartitionMapRow))
    (hsts : Run.Along partitionTxStep (TxCache.StoresCommitted getPartitionPrimary)
      (PartitionTx.boot preloaded committed) sts) :
    Run.Along partitionTxStep PublishedOrOwn (PartitionTx.boot preloaded committed) sts := by
  have hboot : (PartitionTx.boot preloaded committed).Inv getPartitionPrimary :=
    ⟨(fun _ _ h => nomatch h), (fun _ _ _ h => nomatch h)⟩
  exact Run.along_mono _ (fun _ _ h => publishedOrOwn_of_known h) (hboot.hits_known_run _ hsts)

/-- Session 0 inserts partition 600 with primary node 5 and, before or after its transaction
ends, looks it up.  Then session 1 looks it up. -/
def insertAndLookUp (committedFirst : Bool) : List (TxStep Oid PartitionMapRow) :=
  let insert := TxStep.write 0 600 (some (primaryRow 5))
  let lookUp := [TxStep.lookup 0 600, .load 0 1 true, .store 0]
  (if committedFirst then insert :: .commit 0 :: lookUp else insert :: lookUp ++ [.abort 0]) ++ [.lookup 1 600]

theorem published_committed_insert :
    Run.Along partitionTxStep PublishedOrOwn (PartitionTx.boot true fun _ => []) (insertAndLookUp true) :=
  published_committed true (fun _ => []) (insertAndLookUp true)
    ⟨trivial, trivial, trivial, trivial, fun _ _ => by decide +kernel, trivial, trivial⟩

/-- The lookup is inside the transaction, which is rolled back: session 1 gets node 5 for a
partition that was never committed. -/
theorem uncommitted_published :
    let s := ((insertAndLookUp false).take 5).foldl partitionTxStep (PartitionTx.boot true fun _ => [])
    (s.hit getPartitionPrimary 600 = some 5 ∧ s.committed 600 = []) ∧
      ¬ Run.Along partitionTxStep PublishedOrOwn (PartitionTx.boot true fun _ => []) (insertAndLookUp false) := by
  decide +kernel

end PartDist
