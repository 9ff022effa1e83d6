import PartDist.CachedRouting

/-!
# Histories of the cache

One session that changes rows of `partition_map` and `node_map`, invalidates the cache and
looks rows up, next to a system without a cache that answers from the tables.

* `Represents.step`, `Represents.reply_eq`: the two stay in step and answer the same.
* `cache_transparent`: so in every history in which rows are looked up only while no change
  waits to be invalidated, no more of them than the hash tables hold, and the generation
  counter does not wrap.
-/

namespace PartDist

open StampedCache

/-! ## Changes and invalidations -/

/-- `pg_partdist_bump_metadata_version` is an invalidation too. -/
inductive HistoryOp
  | setPartition (k : Oid) (row : Option PartitionMapRow)
  | setNode (k : Int32) (row : Option NodeMapRow)
  | invalidate
  | call (call : MetadataCall)

def historyStep (localNodeId : Int32) (s : Router) : HistoryOp → Router
  | .setPartition k row => { s with cache := cacheStep s.cache (.partition (.change k row)) }
  | .setNode k row => { s with cache := cacheStep s.cache (.node (.change k row)) }
  | .invalidate => { s with cache := invalidatePartdistCache s.cache }
  | .call call => routerStep localNodeId s call

def historyReply (localNodeId : Int32) (s : Router) : HistoryOp → Option Reply
  | .call call => callReply localNodeId s call
  | _ => none

/-- The system without a cache; `pending` while there is a change that is not invalidated. -/
structure Direct where
  tables : Tables
  pending : Bool
  invalidations : Nat

namespace Direct

def step (d : Direct) : HistoryOp → Direct
  | .setPartition k row =>
    { d with tables := { d.tables with partitionMap := Function.update d.tables.partitionMap k row }, pending := true }
  | .setNode k row =>
    { d with tables := { d.tables with nodeMap := Function.update d.tables.nodeMap k row }, pending := true }
  | .invalidate => { d with pending := false, invalidations := d.invalidations + 1 }
  | .call _ => d

def reply (localNodeId : Int32) (d : Direct) : HistoryOp → Option Reply
  | .call call => some (d.tables.reply localNodeId call)
  | _ => none

/-- A row that the schema allows, or a lookup, of one of these partitions and nodes, with
no change pending. -/
def Fits (parts : Finset Oid) (nodes : Finset Int32) (d : Direct) : HistoryOp → Prop
  | .setPartition _ _ => True
  | .setNode _ row => ∀ r ∈ row, r.hostname ≠ none
  | .invalidate => True
  | .call call => d.pending = false ∧ d.tables.partitionsOf call ⊆ parts ∧ d.tables.nodesOf call ⊆ nodes

/-- The generation counter does not wrap. -/
def Counts (d : Direct) : HistoryOp → Prop
  | .invalidate => d.invalidations + 1 < 2 ^ 64
  | _ => True

end Direct

instance (parts : Finset Oid) (nodes : Finset Int32) (d : Direct) : (op : HistoryOp) → Decidable (d.Fits parts nodes op)
  | .setPartition _ _ => isTrue trivial
  | .setNode _ row => Option.decidableForallMem row
  | .invalidate => isTrue trivial
  | .call _ => instDecidableAnd

instance (d : Direct) : (op : HistoryOp) → Decidable (d.Counts op)
  | .invalidate => inferInstanceAs (Decidable (_ < _))
  | .setPartition _ _ | .setNode _ _ | .call _ => isTrue trivial

/-- Every generation up to number `n`. -/
def generationsTo (n : Nat) : Set Int64 := {g | ∃ i ≤ n, g = Int64.ofNat i}

theorem generation_fresh {n : Nat} (h : n + 1 < 2 ^ 64) : Int64.ofNat (n + 1) ∉ generationsTo n := by
  rintro ⟨i, hi, heq⟩
  have hnat : (UInt64.ofNat (n + 1)).toNat = (UInt64.ofNat i).toNat := by
    rw [← Int64.toUInt64_ofNat', heq, Int64.toUInt64_ofNat']
  rw [UInt64.toNat_ofNat_of_lt' (by simpa [UInt64.size] using h),
    UInt64.toNat_ofNat_of_lt' (by simp only [UInt64.size]; omega)] at hnat
  omega

/-- The cached system is in step with the direct one. -/
structure Represents (parts : Finset Oid) (nodes : Finset Int32) (s : Router) (d : Direct) : Prop where
  tables : s.cache.tables = d.tables
  notNull : d.tables.NotNull
  generation : ∀ g ∈ s.cache.generation, g = Int64.ofNat d.invalidations
  partitions : s.cache.partitions.Within getPartitionPrimary parts (generationsTo d.invalidations)
  nodes : s.cache.nodes.Within getNodeInfo nodes (generationsTo d.invalidations)
  coherent : d.pending = false → s.cache.Coherent

section
variable {parts : Finset Oid} {nodes : Finset Int32} {localNodeId : Int32} {s : Router} {d : Direct}

theorem Represents.generation_mem (h : Represents parts nodes s d) :
    ∀ g ∈ s.cache.generation, g ∈ generationsTo d.invalidations :=
  fun g hg => ⟨d.invalidations, Nat.le_refl _, h.generation g hg⟩

theorem Represents.hasRoom (h : Represents parts nodes s d) (hp : parts.card ≤ partitionMapMaxEntries)
    (hn : nodes.card ≤ partdistNodeMaxEntries) {call : MetadataCall} (hcall : d.Fits parts nodes (.call call)) :
    s.cache.HasRoom call := by
  obtain ⟨-, hparts, hnodes⟩ := hcall
  rw [← h.tables] at hparts hnodes
  have hnull : s.cache.tables.NotNull := by rw [h.tables]; exact h.notNull
  constructor
  · intro k hk
    exact h.partitions.roomFor hp (by rw [MetadataCache.loaded_partition hk]; exact hparts)
  · intro k hk
    exact h.nodes.roomFor hn (by rw [MetadataCache.loaded_node hnull hk]; exact hnodes)

theorem Represents.reply_eq (h : Represents parts nodes s d) (hp : parts.card ≤ partitionMapMaxEntries)
    (hn : nodes.card ≤ partdistNodeMaxEntries) {op : HistoryOp} (hop : d.Fits parts nodes op) :
    historyReply localNodeId s op = d.reply localNodeId op := by
  cases op with
  | setPartition k row => rfl
  | setNode k row => rfl
  | invalidate => rfl
  | call call =>
    have hnull : s.cache.tables.NotNull := by rw [h.tables]; exact h.notNull
    have hreply : callReply localNodeId s call = some (s.cache.tables.reply localNodeId call) :=
      (callReply_iff (h.coherent hop.1) hnull call).mpr (h.hasRoom hp hn hop)
    rwa [h.tables] at hreply

theorem Represents.step (h : Represents parts nodes s d) (hp : parts.card ≤ partitionMapMaxEntries)
    (hn : nodes.card ≤ partdistNodeMaxEntries) {op : HistoryOp} (hop : d.Fits parts nodes op) (hcount : d.Counts op) :
    Represents parts nodes (historyStep localNodeId s op) (d.step op) := by
  cases op with
  | setPartition k row =>
    refine ⟨?_, h.notNull, h.generation, h.partitions, h.nodes, fun hpend => (by cases hpend)⟩
    rw [Direct.step, ← h.tables, MetadataCache.tables, MetadataCache.tables]
    simp only [historyStep, cacheStep, Cache.rows_change]
  | setNode k row =>
    refine ⟨?_, ?_, h.generation, h.partitions, h.nodes, fun hpend => (by cases hpend)⟩
    · rw [Direct.step, ← h.tables, MetadataCache.tables, MetadataCache.tables]
      simp only [historyStep, cacheStep, Cache.rows_change]
    · intro k' row' hrow
      simp only [Direct.step] at hrow
      by_cases hk : k' = k
      · rw [hk, Function.update_self] at hrow
        exact hop row' hrow
      · rw [Function.update_of_ne hk] at hrow
        exact h.notNull k' row' hrow
  | invalidate =>
    have hmono : generationsTo d.invalidations ⊆ generationsTo (d.invalidations + 1) := by
      intro g hg
      obtain ⟨i, hi, hg⟩ := hg
      exact ⟨i, Nat.le_succ_of_le hi, hg⟩
    have hgen : ∀ g ∈ s.cache.generation.map (· + 1), g = Int64.ofNat (d.invalidations + 1) := by
      intro g hg
      obtain ⟨g', hg', rfl⟩ := Option.mem_map.mp hg
      rw [h.generation g' hg', Int64.ofNat_add]
      rfl
    have hfresh : ∀ g ∈ s.cache.generation.map (· + 1), g ∉ generationsTo d.invalidations := by
      intro g hg
      rw [hgen g hg]
      exact generation_fresh hcount
    refine ⟨h.tables, h.notNull, hgen, h.partitions.mono hmono, h.nodes.mono hmono, fun _ => ⟨?_, ?_⟩⟩
    · exact Cache.Within.coherent (c := s.cache.partitions.invalidate) h.partitions hfresh
    · exact Cache.Within.coherent (c := s.cache.nodes.invalidate) h.nodes hfresh
  | call call =>
    have hnull : s.cache.tables.NotNull := by rw [h.tables]; exact h.notNull
    have hroom := h.hasRoom hp hn hop
    obtain ⟨hpend, hparts, hnodes⟩ := hop
    rw [← h.tables] at hparts hnodes
    rw [historyStep, routerStep_of_room (h.coherent hpend) hnull hroom]
    refine ⟨(MetadataCache.tables_after call).trans h.tables, h.notNull, h.generation, ?_, ?_,
      fun _ => (h.coherent hpend).after call⟩
    · refine h.partitions.lookedUp h.generation_mem fun k hk => ?_
      rw [MetadataCache.loaded_partition hk]
      exact hparts
    · refine h.nodes.lookedUp h.generation_mem fun k hk => ?_
      rw [MetadataCache.loaded_node hnull hk]
      exact hnodes

theorem represents_started (parts : Finset Oid) (nodes : Finset Int32) (preloaded : Bool) {t : Tables}
    (ht : t.NotNull) :
    Represents parts nodes (Router.started preloaded t) ⟨t, false, 0⟩ where
  tables := rfl
  notNull := ht
  generation g hg := by
    cases preloaded with
    | true => exact (Option.some.inj hg).symm
    | false => cases hg
  partitions := Cache.within_empty rfl
  nodes := Cache.within_empty rfl
  coherent _ := MetadataCache.coherent_started preloaded t

end

/-- **The cache is transparent.** For every history of changes, invalidations and lookups of at
most as many partitions and nodes as the hash tables hold, in which every change is
invalidated before the next lookup and the generation counter does not wrap, every lookup
answers from the rows that are current. -/
theorem cache_transparent (localNodeId : Int32) (preloaded : Bool) (t : Tables) (ht : t.NotNull)
    (parts : Finset Oid) (hparts : parts.card ≤ partitionMapMaxEntries) (nodes : Finset Int32)
    (hnodes : nodes.card ≤ partdistNodeMaxEntries) (ops : List HistoryOp)
    (hops : Run.Along Direct.step (Direct.Fits parts nodes) ⟨t, false, 0⟩ ops)
    (hcount : Run.Along Direct.step Direct.Counts ⟨t, false, 0⟩ ops) :
    Run.outputs (historyStep localNodeId) (historyReply localNodeId) (Router.started preloaded t) ops =
      Run.outputs Direct.step (Direct.reply localNodeId) ⟨t, false, 0⟩ ops := by
  refine Run.outputs_simulate (R := Represents parts nodes) (P := fun d op => d.Fits parts nodes op ∧ d.Counts op)
    (historyStep localNodeId) ?_ ?_ (represents_started parts nodes preloaded ht)
    (Run.along_and Direct.step (P := Direct.Fits parts nodes) (Q := Direct.Counts) hops hcount)
  · intro s d op h hop
    exact h.step hparts hnodes hop.1 hop.2
  · intro s d op h hop
    exact h.reply_eq hparts hnodes hop.1

/-- Partition 600 moves from node 1, which goes down, to node 2. -/
def movesAway : List HistoryOp :=
  [.call (.routeWriteRequest 600), .setNode 1 (some (nodeRow "down")), .invalidate, .call (.routeWriteRequest 600),
    .setPartition 600 (some (primaryRow 2)), .invalidate, .call (.routeWriteRequest 600), .call (.getNodeInfo 1),
    .setPartition 600 none, .setNode 1 none, .invalidate, .call (.routeWriteRequest 600), .call (.getNodeInfo 1)]

theorem cache_transparent_moves :
    Run.outputs (historyStep 1) (historyReply 1) (Router.started true manyNodes) movesAway =
      Run.outputs Direct.step (Direct.reply 1) ⟨manyNodes, false, 0⟩ movesAway :=
  cache_transparent 1 true manyNodes manyNodes_notNull {600} (by decide) {1, 2} (by decide) movesAway
    (by decide +kernel) (by decide +kernel)

-- The route is local, then node_down, remote and in the end not_found.
example : (Run.outputs (historyStep 1) (historyReply 1) (Router.started true manyNodes) movesAway).filterMap id =
    [.route .routeLocal, .route .routeNodeDown, .route .routeRemote,
      .node (some ⟨1, strlcpy [110], 5432, .down⟩), .route .routeNotFound, .node none] := by
  decide +kernel

/-! ## The generation counter wraps -/

def Router.atGeneration (s : Router) (gen : Option Int64) : Router :=
  { s with cache := { s.cache with generation := gen } }

theorem foldl_invalidate (localNodeId : Int32) (n : Nat) (s : Router)
    (hp : s.cache.partitions.invalidate = s.cache.partitions) (hn : s.cache.nodes.invalidate = s.cache.nodes) :
    (List.replicate n HistoryOp.invalidate).foldl (historyStep localNodeId) s =
      s.atGeneration (s.cache.generation.map (· + Int64.ofNat n)) := by
  induction n generalizing s with
  | zero => simp [Router.atGeneration]
  | succ n ih =>
    have hstep : historyStep localNodeId s .invalidate = s.atGeneration (s.cache.generation.map (· + 1)) := by
      rw [historyStep, invalidatePartdistCache, hp, hn, Router.atGeneration]
    have hsum : ∀ g : Int64, g + 1 + Int64.ofNat n = g + Int64.ofNat (n + 1) := by
      intro g
      rw [Int64.ofNat_add, Int64.add_comm (Int64.ofNat n), Int64.add_assoc]
      rfl
    rw [List.replicate_succ, List.foldl_cons, hstep, ih (s.atGeneration (s.cache.generation.map (· + 1))) hp hn]
    simp only [Router.atGeneration, Option.map_map, Function.comp_def, hsum]

theorem foldl_invalidate_direct (n : Nat) (d : Direct) (hd : d.pending = false) :
    (List.replicate n HistoryOp.invalidate).foldl Direct.step d =
      ⟨d.tables, false, d.invalidations + n⟩ := by
  induction n generalizing d with
  | zero =>
    obtain ⟨tables, pending, invalidations⟩ := d
    obtain rfl : pending = false := hd
    rfl
  | succ n ih =>
    rw [List.replicate_succ, List.foldl_cons, ih (d.step .invalidate) rfl]
    simp only [Direct.step, Nat.add_assoc, Nat.add_comm 1]

/-- Partition 600 moves from node 1 to node 5. -/
def movedPartition : List HistoryOp :=
  [.call (.routeWriteRequest 600), .setPartition 600 (some (primaryRow 5)), .invalidate]

/-- The cache is invalidated `n` times more before the next lookup. -/
def invalidatedOften (n : Nat) : List HistoryOp :=
  movedPartition ++ List.replicate n .invalidate ++ [.call (.routeWriteRequest 600)]

/-- After as many invalidations as there are generations the entry from before the move is
current again. -/
theorem route_stale {n : Nat} (hn : Int64.ofNat n + 1 = 0) :
    Run.Along Direct.step (Direct.Fits {600} {1, 5}) ⟨manyNodes, false, 0⟩ (invalidatedOften n) ∧
      Run.outputs (historyStep 1) (historyReply 1) (Router.started true manyNodes) (invalidatedOften n) ≠
        Run.outputs Direct.step (Direct.reply 1) ⟨manyNodes, false, 0⟩ (invalidatedOften n) := by
  let s := movedPartition.foldl (historyStep 1) (Router.started true manyNodes)
  let d := movedPartition.foldl Direct.step ⟨manyNodes, false, 0⟩
  have hgen : s.cache.generation.map (· + Int64.ofNat n) = some 0 := by
    rw [show s.cache.generation = some 1 by decide +kernel, Option.map_some, Int64.add_comm, hn]
  have hs : (List.replicate n HistoryOp.invalidate).foldl (historyStep 1) s = s.atGeneration (some 0) := by
    rw [foldl_invalidate 1 n s rfl rfl, hgen]
  have hd : (List.replicate n HistoryOp.invalidate).foldl Direct.step d = ⟨d.tables, false, d.invalidations + n⟩ :=
    foldl_invalidate_direct n d rfl
  constructor
  · unfold invalidatedOften
    rw [Run.along_append, Run.along_append, List.foldl_append, hd]
    have hparts : d.tables.partitionsOf (.routeWriteRequest 600) ⊆ {600} := by decide +kernel
    have hnodes : d.tables.nodesOf (.routeWriteRequest 600) ⊆ {1, 5} := by decide +kernel
    refine ⟨⟨by decide +kernel, ?_⟩, ⟨rfl, hparts, hnodes⟩, trivial⟩
    refine Run.along_mono Direct.step (P := fun _ op => op = .invalidate) ?_
      (Run.along_of_forall Direct.step fun _ h => List.eq_of_mem_replicate h)
    rintro d op rfl
    trivial
  · intro heq
    unfold invalidatedOften at heq
    rw [Run.outputs_append, Run.outputs_append Direct.step, List.foldl_append, List.foldl_append, hs, hd] at heq
    have hlast := congrArg List.getLast? heq
    rw [Run.outputs, Run.outputs, Run.outputs, Run.outputs, List.getLast?_concat, List.getLast?_concat] at hlast
    have hcached : historyReply 1 (s.atGeneration (some 0)) (.call (.routeWriteRequest 600)) =
        some (.route .routeLocal) := by decide +kernel
    have hdirect : some (d.tables.reply 1 (.routeWriteRequest 600)) = some (.route .routeRemote) := by decide +kernel
    rw [hcached, Direct.reply, hdirect] at hlast
    cases hlast

/-- 2^64 invalidations between the two lookups: the second routes to the node that the
partition has left. -/
theorem wrapped_generation_stale :
    Run.Along Direct.step (Direct.Fits {600} {1, 5}) ⟨manyNodes, false, 0⟩ (invalidatedOften (2 ^ 64 - 1)) ∧
      Run.outputs (historyStep 1) (historyReply 1) (Router.started true manyNodes) (invalidatedOften (2 ^ 64 - 1)) ≠
        Run.outputs Direct.step (Direct.reply 1) ⟨manyNodes, false, 0⟩ (invalidatedOften (2 ^ 64 - 1)) :=
  route_stale (by decide)

end PartDist
