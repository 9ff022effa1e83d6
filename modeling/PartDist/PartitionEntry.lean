import PartDist.CachedRouting

/-!
# Partition entries

`GetPartitionEntry` (metadata_cache.c): it calls `GetPartitionPrimary` and reads the entry
that this leaves in the shared hash table.

* `steady_run`: as long as a row does not change, the entry of its partition is what a load
  of the row gives, whatever else the sessions do.
* `partition_entry_iff`: exactly when the caller gets what the row has.
-/

namespace PartDist

open StampedCache EStateM

/-- The steps other sessions take before the lookup and before the entry is read. -/
structure EntryIO where
  primary : LookupIO
  reread : List CacheLabel

/-! ## Algorithm -/

/-- Whether it was found, and what `*out` is, if it has been filled; a slot of
`secondary_nodes` that nothing was written to is `none`. -/
def getPartitionEntry (io : EntryIO) (partitionId : Oid) :
    EStateM Raised Router (Bool × Option PartitionMapEntry) := do
  let primary ← lookupPartition io.primary partitionId
  if primary < 0 then return (false, none)
  modify fun s => { s with cache := cacheRun s.cache io.reread }
  let s ← get
  if s.cache.generation.isSome then
    match s.cache.partitions.hash.lookup partitionId with
    | some hentry =>
      if hentry.isValid then
        return (true, some { partitionId := partitionId
                             primaryNode := hentry.primaryNode
                             secondaryNodes := hentry.secondaryNodes
                             version := hentry.metaVersion })
      else return (true, none)
    | none => return (false, none)
  else
    return (true, some { partitionId := partitionId
                         primaryNode := primary
                         secondaryNodes := []
                         version := 0 })

/-- No other session takes a step in between, and the load succeeds. -/
def EntryIO.alone : EntryIO := ⟨PartDist.alone, []⟩

/-! ## A row that does not change -/

def CacheLabel.Spares (k : Oid) : CacheLabel → Prop
  | .partition st => st.Spares k
  | .node _ => True
  | .invalidate => True

/-- The sessions of a server on tables `t` have taken the steps `ls`. -/
def Router.after (preloaded : Bool) (t : Tables) (ls : List CacheLabel) : Router :=
  { Router.started preloaded t with cache := cacheRun (MetadataCache.started preloaded t) ls }

/-- A row with all its columns. -/
def fullRow (primaryNode : Int32) (secondaryNodes : List (Option Int32)) (version : Int64) : PartitionMapRow :=
  ⟨some primaryNode, some secondaryNodes, some version⟩

/-- What the row has. -/
def rowEntry (k : Oid) (primaryNode : Int32) (secondaryNodes : List (Option Int32)) (version : Int64) :
    PartitionMapEntry :=
  ⟨k, primaryNode, (secondaryNodes.filterMap id).map some, version⟩

section
variable {k : Oid} {p : Int32} {secondaries : List (Option Int32)} {v : Int64} {t : Tables}
  {ls : List CacheLabel}

theorem steady_step {c : MetadataCache} {l : PartitionMapEntry} (h : c.partitions.Steady getPartitionPrimary k l)
    {label : CacheLabel} (hl : label.Spares k) : (cacheStep c label).partitions.Steady getPartitionPrimary k l := by
  cases label with
  | partition st => exact h.step hl
  | node st => exact h
  | invalidate => exact h.invalidate

/-- **The entry of a row that does not change.** -/
theorem steady_run (preloaded : Bool) (hrow : t.partitionMap k = some (fullRow p secondaries v))
    (hlen : secondaries.length ≤ partdistMaxSecondaries) (hls : ∀ l ∈ ls, l.Spares k) :
    (Router.after preloaded t ls).cache.partitions.Steady getPartitionPrimary k ⟨k, p, secondaries, v⟩ := by
  have hstart : (MetadataCache.started preloaded t).partitions.Steady getPartitionPrimary k ⟨k, p, secondaries, v⟩ := by
    refine ⟨?_, fun e he => ?_, (fun lk hlk => by cases hlk)⟩
    · have hfetch : (MetadataCache.started preloaded t).partitions.fetch getPartitionPrimary k =
          (t.partitionMap k).bind (loadPartitionFromTable k) := rfl
      rw [hfetch, hrow]
      simp only [Option.bind_some, loadPartitionFromTable, fullRow, Option.map_some, Option.getD_some,
        List.take_of_length_le hlen]
    · cases (Finmap.lookup_empty k).symm.trans he
  exact Run.run_invariant cacheStep (P := fun _ l => l.Spares k)
    (I := fun c => c.partitions.Steady getPartitionPrimary k ⟨k, p, secondaries, v⟩) hstart
    (fun c l hc hl => steady_step hc hl) (Run.along_of_forall cacheStep hls)

/-- All slots that are in use have been written to if and only if no element is NULL. -/
theorem filterMap_id_map_some {l : List (Option Int32)} : (l.filterMap id).map some = l ↔ none ∉ l := by
  constructor
  · intro h hnone
    rw [← h] at hnone
    obtain ⟨x, -, hx⟩ := List.mem_map.mp hnone
    cases hx
  · intro h
    induction l with
    | nil => rfl
    | cons x l ih =>
      rw [List.mem_cons, not_or] at h
      obtain ⟨hx, hl⟩ := h
      obtain ⟨y, rfl⟩ := Option.ne_none_iff_exists'.mp (Ne.symm hx)
      rw [List.filterMap_cons_some (by rfl : id (some y) = some y), List.map_cons, ih hl]

variable {s : Router}

/-- Without the shared cache. -/
theorem getPartitionEntry_uncached (hp : 0 ≤ p)
    (h : s.cache.partitions.Steady getPartitionPrimary k ⟨k, p, secondaries, v⟩) (hgen : s.cache.generation = none) :
    ((getPartitionEntry .alone k).run s).value? = some (true, some ⟨k, p, [], 0⟩) := by
  have hlookup : (s.cache.partitions.lookup getPartitionPrimary s.cache.generation true k).1 = some p := by
    have hload : s.cache.partitions.lookup getPartitionPrimary none true k =
        (some (getPartitionPrimary.answer (s.cache.partitions.fetch getPartitionPrimary k)), s.cache.partitions) := rfl
    rw [hgen, hload, h.fetch]
    rfl
  rw [getPartitionEntry, EntryIO.alone]
  simp only [run_bind, lookupPartition_alone hlookup, Int32.not_lt.mpr hp, if_false, run_modify, run_get,
    cacheRun, List.foldl_nil, hgen, Option.isSome_none, Bool.false_eq_true, run_pure]
  rfl

/-- With it: the entry that the lookup has found or made. -/
theorem getPartitionEntry_cached (hp : 0 ≤ p)
    (h : s.cache.partitions.Steady getPartitionPrimary k ⟨k, p, secondaries, v⟩) {g : Int64}
    (hgen : s.cache.generation = some g) (hroom : s.cache.partitions.RoomFor getPartitionPrimary (some g) k) :
    ((getPartitionEntry .alone k).run s).value? = some (true, some ⟨k, p, secondaries, g⟩) := by
  obtain ⟨hlookup, hentry⟩ := (h.lookup (decide_eq_true hp) g).1 hroom
  rw [← hgen] at hlookup
  have hprimary : (s.cache.partitions.lookup getPartitionPrimary s.cache.generation true k).1 = some p := hlookup
  rw [getPartitionEntry, EntryIO.alone]
  simp only [run_bind, lookupPartition_alone hprimary, Int32.not_lt.mpr hp, if_false, run_modify, run_get,
    cacheRun, List.foldl_nil, hgen, hentry, Option.isSome_some, if_true]
  rfl

/-- A full hash table. -/
theorem getPartitionEntry_full (hp : 0 ≤ p)
    (h : s.cache.partitions.Steady getPartitionPrimary k ⟨k, p, secondaries, v⟩) {g : Int64}
    (hgen : s.cache.generation = some g) (hroom : ¬ s.cache.partitions.RoomFor getPartitionPrimary (some g) k) :
    ((getPartitionEntry .alone k).run s).value? = none := by
  have hlookup := (h.lookup (decide_eq_true hp) g).2 hroom
  rw [← hgen] at hlookup
  have hrun : (lookupPartition alone k).run s = _ := lookupPartition_raises (cacheRun_alone _) hlookup
  rw [getPartitionEntry, EntryIO.alone]
  simp only [run_bind, hrun, Result.value?_error]

end

/-- The caller gets what the row has. -/
def Faithful (s : Router) (k : Oid) (primaryNode : Int32) (secondaryNodes : List (Option Int32))
    (version : Int64) : Prop :=
  ((getPartitionEntry .alone k).run s).value? = some (true, some (rowEntry k primaryNode secondaryNodes version))

/-- Without the shared cache there is nothing but the primary to return; with it no element is
NULL, the version is the generation, and there is a place for the partition in the hash table. -/
def Readable (c : MetadataCache) (k : Oid) (secondaryNodes : List (Option Int32)) (version : Int64) : Prop :=
  match c.generation with
  | none => (∀ n ∈ secondaryNodes, n = none) ∧ version = 0
  | some g => none ∉ secondaryNodes ∧ version = g ∧ FixedHash.Place partitionMapMaxEntries c.partitions.hash k

/-- **Partition entries.** For every row with a primary that is not negative and up to 32
elements, after any steps of any sessions that do not change this row, on a hit as on a miss:
the caller gets what the row has if and only if it is readable. -/
theorem partition_entry_iff (preloaded : Bool) (t : Tables) {k : Oid} {p : Int32} {secondaries : List (Option Int32)}
    {v : Int64} (hrow : t.partitionMap k = some (fullRow p secondaries v)) (hp : 0 ≤ p)
    (hlen : secondaries.length ≤ partdistMaxSecondaries) {ls : List CacheLabel} (hls : ∀ l ∈ ls, l.Spares k) :
    Faithful (Router.after preloaded t ls) k p secondaries v ↔
      Readable (Router.after preloaded t ls).cache k secondaries v := by
  have hsteady := steady_run preloaded hrow hlen hls
  generalize Router.after preloaded t ls = s at hsteady ⊢
  rw [Faithful, Readable]
  cases hgen : s.cache.generation with
  | none =>
    rw [getPartitionEntry_uncached hp hsteady hgen, rowEntry]
    simp only [Option.some.injEq, Prod.mk.injEq, true_and, PartitionMapEntry.mk.injEq]
    rw [eq_comm, List.map_eq_nil_iff, List.filterMap_eq_nil_iff, eq_comm (a := (0 : Int64))]
    rfl
  | some g =>
    have hroom : s.cache.partitions.RoomFor getPartitionPrimary (some g) k ↔
        FixedHash.Place partitionMapMaxEntries s.cache.partitions.hash k := by
      unfold Cache.RoomFor
      rw [hsteady.fetch, Option.any_some]
      exact ⟨fun h => h rfl (decide_eq_true hp), fun h _ _ => h⟩
    by_cases hplace : FixedHash.Place partitionMapMaxEntries s.cache.partitions.hash k
    · rw [getPartitionEntry_cached hp hsteady hgen (hroom.mpr hplace), rowEntry]
      simp only [Option.some.injEq, Prod.mk.injEq, true_and, PartitionMapEntry.mk.injEq, hplace, and_true]
      rw [eq_comm, filterMap_id_map_some, eq_comm (a := g)]
    · rw [getPartitionEntry_full hp hsteady hgen (mt hroom.mp hplace)]
      simp [hplace]

/-- Partition 600 with two secondaries and the version of its first insertion. -/
def oneRow (secondaryNodes : List (Option Int32)) (version : Int64) : Tables where
  partitionMap k := if k = 600 then some (fullRow 1 secondaryNodes version) else none
  nodeMap _ := none

/-- The cache is invalidated, and a session looks partition 600 up. -/
def lookedUpOnce : List CacheLabel :=
  [.invalidate, .partition (.begin 600), .partition (.advance 0 true), .partition (.advance 0 true),
    .partition (.advance 0 true)]

/-- A hit. -/
theorem partition_entry_hit :
    Faithful (Router.after true (oneRow [some 2, some 3] 1) lookedUpOnce) 600 1 [some 2, some 3] 1 := by
  have hls : ∀ l ∈ lookedUpOnce, l.Spares 600 := by
    intro l hl
    simp only [lookedUpOnce, List.mem_cons, List.not_mem_nil, or_false] at hl
    rcases hl with rfl | rfl | rfl | rfl | rfl <;> trivial
  have hgen : (Router.after true (oneRow [some 2, some 3] 1) lookedUpOnce).cache.generation = some 1 := by
    decide +kernel
  have hreadable :
      Readable (Router.after true (oneRow [some 2, some 3] 1) lookedUpOnce).cache 600 [some 2, some 3] 1 := by
    rw [Readable, hgen]
    exact ⟨by decide, rfl, by decide +kernel⟩
  exact (partition_entry_iff true (oneRow [some 2, some 3] 1) rfl (by decide) (by decide) hls).mpr hreadable

/-- Version 7 and a NULL between two elements: with the cache the version is the generation and
a slot is not initialised, without it there are no secondaries. -/
theorem entry_unfaithful :
    ((getPartitionEntry .alone 600).run (Router.after true (oneRow [some 2, none, some 3] 7) [])).value? =
        some (true, some ⟨600, 1, [some 2, none, some 3], 0⟩) ∧
      ((getPartitionEntry .alone 600).run (Router.after false (oneRow [some 2, none, some 3] 7) [])).value? =
        some (true, some ⟨600, 1, [], 0⟩) ∧
      rowEntry 600 1 [some 2, none, some 3] 7 = ⟨600, 1, [some 2, some 3], 7⟩ := by
  decide +kernel

end PartDist
