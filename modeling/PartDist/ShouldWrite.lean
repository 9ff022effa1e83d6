import PartDist.WriteRouter

/-!
# Which relations are captured

`ShouldWritePartWAL` with `IsCitusShardName`, `GetLocalCitusGroupId` and
`GetCitusDistTableStatus` (partition_wal.c).  A relation is captured when it is in
`partdist.partition_map`, when its name has the form of a Citus shard's, or when it is
a distributed table on a worker.  The first is asked of the shared hash that
`GetPartitionPrimary` fills, the last of two caches of the backend; nothing
invalidates any of the three.

* `isCitusShardName_iff`: the names of that form.
* `shouldWrite_decided`, `shouldWrite_unnamed`: a call is decided by a name, or by the caches.
-/

namespace PartDist

open Bytes StampedCache

/-! ## Shard names -/

/-- What follows the last `c`. -/
def strrchr (c : Char) : List Char → Option (List Char)
  | [] => none
  | d :: ds =>
    match strrchr c ds with
    | some rest => some rest
    | none => if d = c then some ds else none

/-- `_<N>` at the end, with at least four digits; `none` is NULL. -/
def isCitusShardName : Option RelName → Bool
  | none => false
  | some name =>
    if name = [] then false
    else
      match strrchr '_' name with
      | none => false
      | some digits =>
        if digits = [] then false else digits.all Char.isDigit && decide (4 ≤ digits.length)

def ShardForm (name : RelName) : Prop :=
  ∃ table digits, name = table ++ '_' :: digits ∧ 4 ≤ digits.length ∧ ∀ c ∈ digits, c.isDigit = true

theorem strrchr_eq_none {c : Char} {s : List Char} : strrchr c s = none ↔ c ∉ s := by
  induction s with
  | nil => exact ⟨(fun _ h => nomatch h), fun _ => rfl⟩
  | cons d ds ih =>
    unfold strrchr
    split
    · next rest hrest =>
      have hmem : c ∈ ds := by
        by_contra h
        rw [ih.mpr h] at hrest
        cases hrest
      exact ⟨(fun h => nomatch h), fun h => absurd (List.mem_cons_of_mem d hmem) h⟩
    · next hnone =>
      have hmem := ih.mp hnone
      split
      · next hd => exact ⟨(fun h => nomatch h), fun h => absurd (hd ▸ List.mem_cons_self) h⟩
      · next hd => exact ⟨fun _ => List.not_mem_cons_of_ne_of_not_mem (Ne.symm hd) hmem, fun _ => rfl⟩

theorem strrchr_append {c : Char} {pre rest : List Char} (h : c ∉ rest) :
    strrchr c (pre ++ c :: rest) = some rest := by
  induction pre with
  | nil => simp [strrchr, strrchr_eq_none.mpr h]
  | cons d ds ih => simp [strrchr, ih]

theorem strrchr_eq_some {c : Char} {s rest : List Char} (h : strrchr c s = some rest) :
    ∃ pre, s = pre ++ c :: rest := by
  induction s with
  | nil => cases h
  | cons d ds ih =>
    unfold strrchr at h
    split at h
    · next rest' hrest =>
      obtain rfl := Option.some.inj h
      obtain ⟨pre, rfl⟩ := ih hrest
      exact ⟨d :: pre, rfl⟩
    · split at h
      · next hd =>
        obtain rfl := Option.some.inj h
        exact ⟨[], by rw [hd]; rfl⟩
      · cases h

theorem isCitusShardName_iff {name : RelName} : isCitusShardName (some name) = true ↔ ShardForm name := by
  simp only [isCitusShardName]
  constructor
  · intro h
    split at h
    · cases h
    · split at h
      · cases h
      · next digits hdigits =>
        split at h
        · cases h
        · obtain ⟨table, htable⟩ := strrchr_eq_some hdigits
          rw [Bool.and_eq_true, List.all_eq_true, decide_eq_true_eq] at h
          exact ⟨table, digits, htable, h.2, h.1⟩
  · rintro ⟨table, digits, rfl, hlen, hdigits⟩
    have hnot : '_' ∉ digits := fun hmem => absurd (hdigits '_' hmem) (by decide)
    have hne : digits ≠ [] := by
      rintro rfl
      cases hlen
    rw [if_neg (List.append_ne_nil_of_right_ne_nil _ (List.cons_ne_nil _ _)), strrchr_append hnot]
    simp only [hne, if_false, Bool.and_eq_true, List.all_eq_true, decide_eq_true_eq]
    exact ⟨hdigits, hlen⟩

instance (name : RelName) : Decidable (ShardForm name) := decidable_of_iff _ isCitusShardName_iff

/-! ## Catalogs and backends -/

/-- What `get_rel_name` finds, and the two tables of Citus, `none` while it is not
installed: the `groupid` column of `pg_dist_local_group` and the `logicalrelid`s of
`pg_dist_partition`. -/
structure Catalogs where
  relName : Oid → Option RelName
  localGroup : Option (List (Option Int32))
  distPartition : Option (Finset Oid)

/-- `cachedGroupId` is -2 until it is queried. -/
structure Backend where
  cachedGroupId : Int32
  distTableCache : Oid → Option Bool

def Backend.start : Backend := ⟨-2, fun _ => none⟩

/-- Whether the scans of the two tables succeed; an error of theirs is caught. -/
structure ScanCatalogs where
  groupOk : Bool
  partitionOk : Bool

/-- The group id that a scan finds. -/
def Catalogs.groupId (cat : Catalogs) : Int32 :=
  match cat.localGroup.bind List.head? with
  | some (some id) => id
  | _ => -1

def Catalogs.distributed (cat : Catalogs) (relid : Oid) : Bool :=
  cat.distPartition.any fun relids => relid ∈ relids

def isCitusShardTable (cat : Catalogs) (relid : Oid) : Bool :=
  if relid = 0 then false else isCitusShardName (cat.relName relid)

def getLocalCitusGroupId (io : ScanCatalogs) (cat : Catalogs) (b : Backend) : Int32 × Backend :=
  if b.cachedGroupId ≠ -2 then (b.cachedGroupId, b)
  else
    let id := if io.groupOk then cat.groupId else -1
    (id, { b with cachedGroupId := id })

def getCitusDistTableStatus (io : ScanCatalogs) (cat : Catalogs) (relid : Oid) (b : Backend) : Bool × Backend :=
  match b.distTableCache relid with
  | some isDist => (isDist, b)
  | none =>
    let isDist := io.partitionOk && cat.distributed relid
    (isDist, { b with distTableCache := Function.update b.distTableCache relid (some isDist) })

/-- In the shared hash, whatever the generation of the entry. -/
def MetadataCache.mapped (c : MetadataCache) (relid : Oid) : Bool :=
  c.generation.isSome && decide (relid ∈ c.partitions.hash)

def shouldWritePartWAL (io : ScanCatalogs) (cache : MetadataCache) (cat : Catalogs) (relid : Oid)
    (relAlias : Option RelName) (b : Backend) : Bool × Backend :=
  if cache.mapped relid then (true, b)
  else if isCitusShardName relAlias then (true, b)
  else if isCitusShardTable cat relid then (true, b)
  else
    let (groupId, b) := getLocalCitusGroupId io cat b
    if 0 < groupId then getCitusDistTableStatus io cat relid b else (false, b)

/-! ## Histories -/

structure Node where
  cache : MetadataCache
  catalogs : Catalogs
  backends : Nat → Backend

inductive NodeLabel
  | cache (l : CacheLabel)
  | rename (relid : Oid) (name : Option RelName)
  | setLocalGroup (rows : Option (List (Option Int32)))
  | setDistPartition (relids : Option (Finset Oid))
  | call (backend : Nat) (io : ScanCatalogs) (relid : Oid) (relAlias : Option RelName)

def nodeStep (s : Node) : NodeLabel → Node
  | .cache l => { s with cache := cacheStep s.cache l }
  | .rename relid name =>
    { s with catalogs := { s.catalogs with relName := Function.update s.catalogs.relName relid name } }
  | .setLocalGroup rows => { s with catalogs := { s.catalogs with localGroup := rows } }
  | .setDistPartition relids => { s with catalogs := { s.catalogs with distPartition := relids } }
  | .call i io relid relAlias =>
    let (_, b) := shouldWritePartWAL io s.cache s.catalogs relid relAlias (s.backends i)
    { s with backends := Function.update s.backends i b }

/-- In `partdist.partition_map`. -/
def MetadataCache.registered (c : MetadataCache) (relid : Oid) : Bool :=
  (versionAt (c.partitions.table relid) (c.partitions.table relid).length).isSome

/-- A name in shard form: the alias of the plan or the relation's own. -/
def Catalogs.ShardNamed (cat : Catalogs) (relid : Oid) (relAlias : Option RelName) : Prop :=
  (∃ name ∈ relAlias, ShardForm name) ∨ relid ≠ 0 ∧ ∃ name ∈ cat.relName relid, ShardForm name

/-- What the catalogs say of a relation. -/
def Node.Captured (s : Node) (relid : Oid) (relAlias : Option RelName) : Prop :=
  s.cache.registered relid = true ∨ s.catalogs.ShardNamed relid relAlias ∨
    0 < s.catalogs.groupId ∧ s.catalogs.distributed relid = true

/-- A call answers as the catalogs say. -/
def AnswersRight (s : Node) : NodeLabel → Prop
  | .call i io relid relAlias =>
    (shouldWritePartWAL io s.cache s.catalogs relid relAlias (s.backends i)).1 = true ↔ s.Captured relid relAlias
  | _ => True

/-! ## Answers -/

section
variable {s : Node} {io : ScanCatalogs} {cat : Catalogs} {b : Backend} {relid : Oid} {relAlias : Option RelName}

theorem shardNamed_iff : cat.ShardNamed relid relAlias ↔
    isCitusShardName relAlias = true ∨ isCitusShardTable cat relid = true := by
  have hname : ∀ name : Option RelName, isCitusShardName name = true ↔ ∃ n ∈ name, ShardForm n := by
    intro name
    cases name with
    | none => exact ⟨(fun h => nomatch h), (fun ⟨_, h, _⟩ => nomatch h)⟩
    | some n =>
      rw [isCitusShardName_iff]
      exact ⟨fun h => ⟨n, rfl, h⟩, fun ⟨m, hm, h⟩ => Option.some.inj hm ▸ h⟩
  rw [Catalogs.ShardNamed, ← hname, ← hname, isCitusShardTable]
  by_cases h0 : relid = 0
  · simp [h0]
  · simp [h0]

instance (cat : Catalogs) (relid : Oid) (relAlias : Option RelName) : Decidable (cat.ShardNamed relid relAlias) :=
  decidable_of_iff _ shardNamed_iff.symm

instance (s : Node) (relid : Oid) (relAlias : Option RelName) : Decidable (s.Captured relid relAlias) :=
  inferInstanceAs (Decidable (_ ∨ _ ∨ _ ∧ _))

instance (s : Node) : (l : NodeLabel) → Decidable (AnswersRight s l)
  | .cache _ => isTrue trivial
  | .rename _ _ => isTrue trivial
  | .setLocalGroup _ => isTrue trivial
  | .setDistPartition _ => isTrue trivial
  | .call _ _ _ _ => inferInstanceAs (Decidable (_ ↔ _))

/-- What a call answers when no name decides. -/
theorem shouldWrite_unnamed (hname : ¬ cat.ShardNamed relid relAlias) (cache : MetadataCache) :
    (shouldWritePartWAL io cache cat relid relAlias b).1 = true ↔ cache.mapped relid = true ∨
      0 < (getLocalCitusGroupId io cat b).1 ∧
        (getCitusDistTableStatus io cat relid (getLocalCitusGroupId io cat b).2).1 = true := by
  rw [shardNamed_iff, not_or] at hname
  unfold shouldWritePartWAL
  by_cases hmap : cache.mapped relid = true
  · simp [hmap]
  · rw [if_neg hmap, if_neg hname.1, if_neg hname.2]
    by_cases hpos : 0 < (getLocalCitusGroupId io cat b).1
    · simp [hmap, hpos]
    · simp [hmap, hpos]

/-- A call that the shared hash or a name decides leaves its backend as it was. -/
theorem shouldWrite_decided {cache : MetadataCache} (h : cache.mapped relid = true ∨ cat.ShardNamed relid relAlias) :
    shouldWritePartWAL io cache cat relid relAlias b = (true, b) := by
  unfold shouldWritePartWAL
  by_cases hmap : cache.mapped relid = true
  · rw [if_pos hmap]
  · have hname := shardNamed_iff.mp (h.resolve_left hmap)
    by_cases halias : isCitusShardName relAlias = true
    · rw [if_neg hmap, if_pos halias]
    · rw [if_neg hmap, if_neg halias, if_pos (hname.resolve_left halias)]

theorem shouldWrite_named (hname : cat.ShardNamed relid relAlias) (cache : MetadataCache) :
    (shouldWritePartWAL io cache cat relid relAlias b).1 = true := by
  rw [shouldWrite_decided (Or.inr hname)]

end

/-- Just started, with no Citus and nothing registered. -/
def Node.boot : Node := ⟨MetadataCache.boot true, ⟨fun _ => none, none, none⟩, fun _ => Backend.start⟩

end PartDist
