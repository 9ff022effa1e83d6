import PartDist.Lib.RwLock
import PartDist.MetadataCache

/-!
# The partition cache under partition_lock

`GetPartitionPrimary`, `GetPartitionEntry` and `InvalidatePartdistCache` (metadata_cache.c)
access by access: each field of an entry is read and written, and each word of
`secondary_nodes` copied, in a step of its own, under the lock in shared or exclusive mode;
between its sections a backend loads from the table.  The counters of hits and misses, which
no lookup reads, are left out.

`locked_entries`: whatever the interleaving, what a backend gets is a row that the table had
at one of the loads, and never the fields of two.
-/

namespace PartDist

namespace LockedCache

open RwLock

/-- `PartitionHashEntry` in shared memory, and `PartitionMapEntry`; a word that holds no value
is `none`. -/
structure EntrySlots where
  primaryNode : Int32
  numSecondaries : Nat
  secondaryNodes : Nat → Option Int32
  version : Int64
  isValid : Bool

/-- What partition_lock guards. -/
structure PartitionTable where
  generation : Int64
  hash : Finmap fun _ : Oid => EntrySlots

inductive PartitionCall
  | getPartitionPrimary (partitionId : Oid)
  | getPartitionEntry (partitionId : Oid)
  | invalidatePartdistCache

/-- Where a backend stands: before the probe, the load, the store, the second lookup of
`GetPartitionEntry` or the increment; or it has returned, or an error has been raised. -/
inductive CachePc
  | probe
  | load
  | store
  | copy
  | increment
  | returned
  | failed
deriving DecidableEq

/-- The variables of a call.  `element` is what the element that `HASH_ENTER` would take
holds, `words` the length of its `memcpy`, `filled` what `GetPartitionEntry` returns. -/
structure CacheRegs where
  partitionId : Oid
  wantsEntry : Bool
  pc : CachePc
  currentGen : Int64
  found : Bool
  isValid : Bool
  version : Int64
  loaded : PartitionMapEntry
  element : EntrySlots
  result : Int32
  words : Nat
  filled : Bool
  out : EntrySlots

abbrev CacheAccess := Access PartitionTable CacheRegs

def readGeneration : CacheAccess := fun t r => (t, { r with currentGen := t.generation })

/-- `hash_search(HASH_FIND)` -/
def hashFind : CacheAccess := fun t r => (t, { r with found := decide (r.partitionId ∈ t.hash), isValid := false })

/-- A field of the entry that was found. -/
def readField (f : EntrySlots → CacheRegs → CacheRegs) : CacheAccess := fun t r =>
  match t.hash.lookup r.partitionId with
  | some e => (t, f e r)
  | none => (t, r)

/-- `hash_search(HASH_ENTER)`: a new entry is as the element was. -/
def hashEnter : CacheAccess := fun t r =>
  if r.partitionId ∈ t.hash then (t, { r with found := true })
  else if t.hash.keys.card < partitionMapMaxEntries then
    ({ t with hash := t.hash.insert r.partitionId r.element }, { r with found := false })
  else (t, { r with found := false, pc := .failed })

/-- A field of the entry that was entered. -/
def writeField (f : CacheRegs → EntrySlots → EntrySlots) : CacheAccess := fun t r =>
  if r.pc = .failed then (t, r)
  else match t.hash.lookup r.partitionId with
    | some e => ({ t with hash := t.hash.insert r.partitionId (f r e) }, r)
    | none => (t, r)

/-- Where a call goes on once it has a primary. -/
def CacheRegs.goOn (r : CacheRegs) : CacheRegs := { r with pc := if r.wantsEntry then .copy else .returned }

/-! ## Sections -/

def probeFields : List (EntrySlots → CacheRegs → CacheRegs) :=
  [fun e r => { r with isValid := e.isValid },
    fun e r => if r.isValid then { r with version := e.version } else r,
    fun e r => if r.isValid ∧ r.version = r.currentGen then { r with result := e.primaryNode } else r]

def probeTest : CacheAccess := fun t r =>
  (t, if r.found ∧ r.isValid ∧ r.version = r.currentGen then r.goOn else { r with pc := .load })

def probeSection : List CacheAccess := [readGeneration, hashFind] ++ probeFields.map readField ++ [probeTest]

/-- Word `i` of the `memcpy` of `loaded.secondary_nodes`. -/
def storeWord (i : Nat) (r : CacheRegs) (e : EntrySlots) : EntrySlots :=
  if i < r.loaded.secondaryNodes.length then
    { e with secondaryNodes := Function.update e.secondaryNodes i (r.loaded.secondaryNodes[i]?).join }
  else e

def storeFields : List (CacheRegs → EntrySlots → EntrySlots) :=
  [fun r e => { e with primaryNode := r.loaded.primaryNode },
    fun r e => { e with numSecondaries := r.loaded.secondaryNodes.length }] ++
  (List.range partdistMaxSecondaries).map storeWord ++
  [fun r e => { e with version := r.currentGen },
    fun _ e => { e with isValid := true }]

def storeDone : CacheAccess := fun t r => (t, if r.pc = .failed then r else r.goOn)

def storeSection : List CacheAccess := [readGeneration, hashEnter] ++ storeFields.map writeField ++ [storeDone]

/-- Word `i` of the `memcpy` of `hentry->secondary_nodes`. -/
def copyWord (i : Nat) (e : EntrySlots) (r : CacheRegs) : CacheRegs :=
  if r.isValid ∧ i < r.words then
    { r with out := { r.out with secondaryNodes := Function.update r.out.secondaryNodes i (e.secondaryNodes i) } }
  else r

def copyFields : List (EntrySlots → CacheRegs → CacheRegs) :=
  [fun e r => { r with isValid := e.isValid },
    fun e r => if r.isValid then { r with out := { r.out with primaryNode := e.primaryNode } } else r,
    fun e r => if r.isValid then { r with out := { r.out with numSecondaries := e.numSecondaries } } else r,
    fun e r => if r.isValid then { r with words := e.numSecondaries } else r] ++
  (List.range partdistMaxSecondaries).map copyWord ++
  [fun e r => if r.isValid then { r with out := { r.out with version := e.version } } else r]

/-- `return found` -/
def copyDone : CacheAccess := fun t r => (t, { r with filled := r.found, pc := .returned })

def copySection : List CacheAccess := [hashFind] ++ copyFields.map readField ++ [copyDone]

/-- The two halves of `metadata_generation++`. -/
def incrementSection : List CacheAccess :=
  [readGeneration, fun t r => ({ t with generation := r.currentGen + 1 }, { r with pc := .returned })]

/-! ## Backends -/

/-- What a backend learns from elsewhere: the table at its load and whether that succeeds,
the element on the free list, its next call. -/
structure CacheEvent where
  table : Oid → Option PartitionMapRow
  loadOk : Bool
  element : EntrySlots
  call : PartitionCall

/-- A call that begins. -/
def CacheRegs.begin (r : CacheRegs) : PartitionCall → CacheRegs
  | .getPartitionPrimary k =>
    { r with partitionId := k, wantsEntry := false, pc := .probe, result := -1, filled := false }
  | .getPartitionEntry k =>
    { r with partitionId := k, wantsEntry := true, pc := .probe, result := -1, filled := false }
  | .invalidatePartdistCache => { r with wantsEntry := false, pc := .increment, result := -1, filled := false }

/-- The load; what has a negative primary is not stored. -/
def CacheRegs.load (r : CacheRegs) (e : CacheEvent) : CacheRegs :=
  if e.loadOk then
    match (e.table r.partitionId).bind (loadPartitionFromTable r.partitionId) with
    | some loaded =>
      if 0 ≤ loaded.primaryNode then
        { r with loaded := loaded, element := e.element, result := loaded.primaryNode, pc := .store }
      else { r with result := loaded.primaryNode, pc := .returned }
    | none => { r with result := -1, pc := .returned }
  else { r with pc := .failed }

def cacheProgram : Program PartitionTable CacheRegs CacheEvent where
  enters r :=
    match r.pc with
    | .probe => some ⟨.shared, probeSection⟩
    | .store => some ⟨.exclusive, storeSection⟩
    | .copy => some ⟨.shared, copySection⟩
    | .increment => some ⟨.exclusive, incrementSection⟩
    | .load | .returned | .failed => none
  act e r :=
    match r.pc with
    | .load => r.load e
    | .returned | .failed => r.begin e.call
    | .probe | .store | .copy | .increment => r

def blankEntry : EntrySlots := ⟨0, 0, fun _ => none, 0, false⟩

def CacheRegs.blank : CacheRegs :=
  ⟨0, false, .returned, 0, false, false, 0, ⟨0, 0, [], 0⟩, blankEntry, -1, 0, false, blankEntry⟩

/-- An empty hash table and backends that have made no call. -/
def cacheStart : State Nat PartitionTable CacheRegs := State.start ⟨0, ∅⟩ fun _ => CacheRegs.blank

/-! ## Whole sections -/

section
variable {t : PartitionTable} {r : CacheRegs} {e : EntrySlots}

theorem runAccesses_readFields {fs : List (EntrySlots → CacheRegs → CacheRegs)}
    (hfs : ∀ f ∈ fs, ∀ e r, (f e r).partitionId = r.partitionId) (he : t.hash.lookup r.partitionId = some e) :
    runAccesses (fs.map readField) t r = (t, fs.foldl (fun r f => f e r) r) := by
  induction fs generalizing r with
  | nil => rfl
  | cons f fs ih =>
    have hread : readField f t r = (t, f e r) := by
      unfold readField
      rw [he]
    rw [List.map_cons, runAccesses, hread, List.foldl_cons]
    refine ih (fun g hg => hfs g (List.mem_cons_of_mem f hg)) ?_
    rw [hfs f List.mem_cons_self]
    exact he

theorem runAccesses_readFields_none (fs : List (EntrySlots → CacheRegs → CacheRegs))
    (he : t.hash.lookup r.partitionId = none) : runAccesses (fs.map readField) t r = (t, r) := by
  induction fs with
  | nil => rfl
  | cons f fs ih =>
    have hread : readField f t r = (t, r) := by
      unfold readField
      rw [he]
    rw [List.map_cons, runAccesses, hread]
    exact ih

/-- One entry of the hash table is another. -/
def PartitionTable.SetsEntry (t : PartitionTable) (k : Oid) (e : EntrySlots) (t' : PartitionTable) : Prop :=
  t'.generation = t.generation ∧ ∀ k', t'.hash.lookup k' = if k' = k then some e else t.hash.lookup k'

theorem PartitionTable.setsEntry_self {k : Oid} (he : t.hash.lookup k = some e) : t.SetsEntry k e t := by
  refine ⟨rfl, fun k' => ?_⟩
  split
  · next h => rw [h, he]
  · rfl

theorem PartitionTable.setsEntry_insert (t : PartitionTable) (k : Oid) (e : EntrySlots) :
    t.SetsEntry k e { t with hash := t.hash.insert k e } := by
  refine ⟨rfl, fun k' => ?_⟩
  split
  · next h => rw [h, Finmap.lookup_insert]
  · next h => exact Finmap.lookup_insert_of_ne _ h

theorem PartitionTable.SetsEntry.trans {t' t'' : PartitionTable} {k : Oid} {e' : EntrySlots}
    (h : t.SetsEntry k e t') (h' : t'.SetsEntry k e' t'') : t.SetsEntry k e' t'' := by
  refine ⟨h'.1.trans h.1, fun k' => ?_⟩
  rw [h'.2, h.2]
  split <;> rfl

theorem PartitionTable.SetsEntry.lookup {t' : PartitionTable} {k : Oid} (h : t.SetsEntry k e t') :
    t'.hash.lookup k = some e := by
  rw [h.2, if_pos rfl]

theorem runAccesses_writeFields (fs : List (CacheRegs → EntrySlots → EntrySlots)) (hpc : r.pc ≠ .failed)
    (he : t.hash.lookup r.partitionId = some e) :
    ∃ t', runAccesses (fs.map writeField) t r = (t', r) ∧
      t.SetsEntry r.partitionId (fs.foldl (fun e f => f r e) e) t' := by
  induction fs generalizing t e with
  | nil => exact ⟨t, rfl, PartitionTable.setsEntry_self he⟩
  | cons f fs ih =>
    have hwrite : writeField f t r = ({ t with hash := t.hash.insert r.partitionId (f r e) }, r) := by
      unfold writeField
      rw [if_neg hpc, he]
    have hset := t.setsEntry_insert r.partitionId (f r e)
    obtain ⟨t', hrun, ht'⟩ := ih hset.lookup
    refine ⟨t', ?_, hset.trans ht'⟩
    rw [List.map_cons, runAccesses, hwrite]
    exact hrun

end

/-! ## Entries -/

/-- The entry has the fields of `l`. -/
structure EntrySlots.Holds (e : EntrySlots) (l : PartitionMapEntry) : Prop where
  primaryNode : e.primaryNode = l.primaryNode
  numSecondaries : e.numSecondaries = l.secondaryNodes.length
  word : ∀ i < l.secondaryNodes.length, e.secondaryNodes i = (l.secondaryNodes[i]?).join

theorem foldl_storeWord (r : CacheRegs) (e : EntrySlots) (n : Nat) :
    (List.range n).foldl (fun e i => storeWord i r e) e =
      { e with secondaryNodes := fun i =>
          if i < n ∧ i < r.loaded.secondaryNodes.length then (r.loaded.secondaryNodes[i]?).join
          else e.secondaryNodes i } := by
  induction n with
  | zero => simp
  | succ n ih =>
    rw [List.range_succ, List.foldl_concat, ih, storeWord]
    split
    · next hn =>
      congr 1
      funext i
      by_cases hi : i = n
      · subst hi
        rw [Function.update_self, if_pos ⟨Nat.lt_succ_self _, hn⟩]
      · rw [Function.update_of_ne hi]
        dsimp only
        congr 1
        rw [eq_iff_iff]
        omega
    · next hn =>
      congr 1
      funext i
      congr 1
      rw [eq_iff_iff]
      omega

theorem storeFields_holds {r : CacheRegs} (hlen : r.loaded.secondaryNodes.length ≤ partdistMaxSecondaries)
    (e : EntrySlots) : (storeFields.foldl (fun e f => f r e) e).Holds r.loaded ∧
      (storeFields.foldl (fun e f => f r e) e).isValid = true := by
  simp only [storeFields, List.foldl_append, List.foldl_map, foldl_storeWord, List.foldl_cons, List.foldl_nil]
  refine ⟨⟨rfl, rfl, fun i hi => ?_⟩, trivial⟩
  exact if_pos ⟨Nat.lt_of_lt_of_le hi hlen, hi⟩

theorem foldl_copyWord (e : EntrySlots) (r : CacheRegs) (n : Nat) :
    (List.range n).foldl (fun r i => copyWord i e r) r =
      { r with out := { r.out with secondaryNodes := fun i =>
          if r.isValid = true ∧ i < n ∧ i < r.words then e.secondaryNodes i else r.out.secondaryNodes i } } := by
  induction n with
  | zero => simp
  | succ n ih =>
    rw [List.range_succ, List.foldl_concat, ih, copyWord]
    dsimp only
    split
    · next hn =>
      have hwords : Function.update (fun i => if r.isValid = true ∧ i < n ∧ i < r.words then e.secondaryNodes i
          else r.out.secondaryNodes i) n (e.secondaryNodes n) = fun i =>
          if r.isValid = true ∧ i < n + 1 ∧ i < r.words then e.secondaryNodes i else r.out.secondaryNodes i := by
        funext i
        by_cases hi : i = n
        · subst hi
          rw [Function.update_self, if_pos ⟨hn.1, Nat.lt_succ_self _, hn.2⟩]
        · rw [Function.update_of_ne hi]
          congr 1
          rw [eq_iff_iff]
          refine and_congr_right fun _ => ?_
          omega
      rw [hwords]
    · next hn =>
      have hwords : ∀ i, (r.isValid = true ∧ i < n ∧ i < r.words) ↔ (r.isValid = true ∧ i < n + 1 ∧ i < r.words) := by
        intro i
        refine and_congr_right fun hv => ?_
        have hw : ¬ n < r.words := fun h => hn ⟨hv, h⟩
        omega
      simp only [hwords]

theorem copyFields_holds {e : EntrySlots} (hvalid : e.isValid = true) (r : CacheRegs) :
    ∃ words out, copyFields.foldl (fun r f => f e r) r = { r with isValid := true, words := words, out := out } ∧
      ∀ l : PartitionMapEntry, l.secondaryNodes.length ≤ partdistMaxSecondaries → e.Holds l → out.Holds l := by
  simp only [copyFields, List.foldl_append, List.foldl_map, foldl_copyWord, List.foldl_cons, List.foldl_nil, hvalid,
    if_true, true_and]
  refine ⟨_, _, rfl, fun l hlen hl => ⟨hl.primaryNode, hl.numSecondaries, fun i hi => ?_⟩⟩
  have hnum := hl.numSecondaries
  exact (if_pos ⟨by omega, by omega⟩).trans (hl.word i hi)

/-! ## Sections as one step -/

/-- The call that the registers are of. -/
structure CacheRegs.SameCall (r r' : CacheRegs) : Prop where
  partitionId : r'.partitionId = r.partitionId
  wantsEntry : r'.wantsEntry = r.wantsEntry
  filled : r'.filled = r.filled

/-- Where a call is once it has a primary. -/
def CacheRegs.GoesOn (r : CacheRegs) (pc : CachePc) : Prop :=
  (r.wantsEntry = true ∧ pc = .copy) ∨ (r.wantsEntry = false ∧ pc = .returned)

theorem CacheRegs.goesOn (r : CacheRegs) : r.GoesOn r.goOn.pc := by
  unfold CacheRegs.goOn CacheRegs.GoesOn
  cases r.wantsEntry with
  | true => exact Or.inl ⟨rfl, rfl⟩
  | false => exact Or.inr ⟨rfl, rfl⟩

section
variable {t : PartitionTable} {r : CacheRegs}

theorem probeSection_whole (t : PartitionTable) (r : CacheRegs) :
    ∃ r', runAccesses probeSection t r = (t, r') ∧ r.SameCall r' ∧
      (r'.pc = .load ∨ ∃ e, t.hash.lookup r.partitionId = some e ∧ e.isValid = true ∧
        r'.result = e.primaryNode ∧ r.GoesOn r'.pc) := by
  have hkeep : ∀ f ∈ probeFields, ∀ e r, (f e r).partitionId = r.partitionId := by
    intro f hf e r
    simp only [probeFields, List.mem_cons, List.not_mem_nil, or_false] at hf
    rcases hf with rfl | rfl | rfl
    · rfl
    · dsimp only
      split <;> rfl
    · dsimp only
      split <;> rfl
  have hhead : runAccesses [readGeneration, hashFind] t r =
      (t, { r with currentGen := t.generation, found := decide (r.partitionId ∈ t.hash), isValid := false }) := rfl
  rw [probeSection, List.append_assoc, runAccesses_append hhead]
  rcases Option.eq_none_or_eq_some (t.hash.lookup r.partitionId) with he | ⟨e, he⟩
  · have hmem : decide (r.partitionId ∈ t.hash) = false := decide_eq_false (Finmap.lookup_eq_none.mp he)
    have hrun := runAccesses_readFields_none
      (r := { r with currentGen := t.generation, found := false, isValid := false }) probeFields he
    rw [hmem, runAccesses_append hrun]
    exact ⟨_, rfl, ⟨rfl, rfl, rfl⟩, Or.inl rfl⟩
  · have hmem : decide (r.partitionId ∈ t.hash) = true := decide_eq_true (Finmap.mem_iff.mpr ⟨e, he⟩)
    have hrun := runAccesses_readFields
      (r := { r with currentGen := t.generation, found := true, isValid := false }) hkeep he
    rw [hmem, runAccesses_append hrun]
    simp only [probeFields, List.foldl_cons, List.foldl_nil, runAccesses, probeTest]
    by_cases hhit : e.isValid = true ∧ e.version = t.generation
    · refine ⟨_, rfl, ?_, Or.inr ⟨e, he, hhit.1, ?_, ?_⟩⟩
      · simp [hhit.1, hhit.2, CacheRegs.goOn, CacheRegs.SameCall.mk]
      · simp [hhit.1, hhit.2, CacheRegs.goOn]
      · simpa [hhit.1, hhit.2, CacheRegs.goOn] using r.goesOn
    · refine ⟨_, rfl, ?_, Or.inl ?_⟩
      · cases hv : e.isValid with
        | false => exact ⟨rfl, rfl, rfl⟩
        | true =>
          have hg : ¬ e.version = t.generation := fun h => hhit ⟨hv, h⟩
          simp [hg, CacheRegs.SameCall.mk]
      · cases hv : e.isValid with
        | false => rfl
        | true =>
          have hg : ¬ e.version = t.generation := fun h => hhit ⟨hv, h⟩
          simp [hg]

theorem writeFields_failed (fs : List (CacheRegs → EntrySlots → EntrySlots)) (hpc : r.pc = .failed) :
    runAccesses (fs.map writeField) t r = (t, r) := by
  induction fs with
  | nil => rfl
  | cons f fs ih =>
    have hwrite : writeField f t r = (t, r) := if_pos hpc
    rw [List.map_cons, runAccesses, hwrite]
    exact ih

/-- What follows `HASH_ENTER` when that has put `e` there. -/
theorem storeFields_run {t' : PartitionTable} {e : EntrySlots} (hpc : r.pc ≠ .failed)
    (hlen : r.loaded.secondaryNodes.length ≤ partdistMaxSecondaries) (hset : t.SetsEntry r.partitionId e t') :
    ∃ t'', runAccesses (storeFields.map writeField ++ [storeDone]) t' r = (t'', r.goOn) ∧
      ∃ e', e'.isValid = true ∧ e'.Holds r.loaded ∧ t.SetsEntry r.partitionId e' t'' := by
  obtain ⟨t'', hrun, ht''⟩ := runAccesses_writeFields storeFields hpc hset.lookup
  obtain ⟨hholds, hvalid⟩ := storeFields_holds hlen e
  have hdone : storeDone t'' r = (t'', r.goOn) := by
    unfold storeDone
    rw [if_neg hpc]
  refine ⟨t'', ?_, _, hvalid, hholds, hset.trans ht''⟩
  rw [runAccesses_append hrun, runAccesses, hdone]
  rfl

theorem storeSection_whole (hpc : r.pc = .store) (hlen : r.loaded.secondaryNodes.length ≤ partdistMaxSecondaries) :
    ∃ t' r', runAccesses storeSection t r = (t', r') ∧ r.SameCall r' ∧ r'.result = r.result ∧
      ((r'.pc = .failed ∧ t' = t) ∨ (r.GoesOn r'.pc ∧
        ∃ e, e.isValid = true ∧ e.Holds r.loaded ∧ t.SetsEntry r.partitionId e t')) := by
  have hne : r.pc ≠ .failed := by
    rw [hpc]
    exact CachePc.noConfusion
  have hhead : ∀ x, hashEnter t { r with currentGen := t.generation } = x →
      runAccesses [readGeneration, hashEnter] t r = x := fun _ h => h
  rw [storeSection, List.append_assoc]
  by_cases hmem : r.partitionId ∈ t.hash
  · obtain ⟨e, he⟩ := Finmap.mem_iff.mp hmem
    have henter : hashEnter t { r with currentGen := t.generation } =
        (t, { r with currentGen := t.generation, found := true }) := if_pos hmem
    obtain ⟨t'', hrun, he'⟩ := storeFields_run (r := { r with currentGen := t.generation, found := true }) hne hlen
      (PartitionTable.setsEntry_self he)
    rw [runAccesses_append (hhead _ henter), hrun]
    exact ⟨t'', _, rfl, ⟨rfl, rfl, rfl⟩, rfl, Or.inr ⟨CacheRegs.goesOn r, he'⟩⟩
  · by_cases hroom : t.hash.keys.card < partitionMapMaxEntries
    · have henter : hashEnter t { r with currentGen := t.generation } =
          ({ t with hash := t.hash.insert r.partitionId r.element },
            { r with currentGen := t.generation, found := false }) := by
        unfold hashEnter
        rw [if_neg hmem, if_pos hroom]
      obtain ⟨t'', hrun, he'⟩ := storeFields_run (r := { r with currentGen := t.generation, found := false }) hne hlen
        (t.setsEntry_insert r.partitionId r.element)
      rw [runAccesses_append (hhead _ henter), hrun]
      exact ⟨t'', _, rfl, ⟨rfl, rfl, rfl⟩, rfl, Or.inr ⟨CacheRegs.goesOn r, he'⟩⟩
    · have henter : hashEnter t { r with currentGen := t.generation } =
          (t, { r with currentGen := t.generation, found := false, pc := .failed }) := by
        unfold hashEnter
        rw [if_neg hmem, if_neg hroom]
      rw [runAccesses_append (hhead _ henter), runAccesses_append (writeFields_failed storeFields rfl)]
      exact ⟨_, _, rfl, ⟨rfl, rfl, rfl⟩, rfl, Or.inl ⟨rfl, rfl⟩⟩

theorem copyFields_keep : ∀ f ∈ copyFields, ∀ e r, (f e r).partitionId = r.partitionId := by
  intro f hf e r
  simp only [copyFields, List.mem_append, List.mem_cons, List.not_mem_nil, or_false, List.mem_map] at hf
  rcases hf with ((rfl | rfl | rfl | rfl) | ⟨i, -, rfl⟩) | rfl
  · rfl
  · dsimp only
    split <;> rfl
  · dsimp only
    split <;> rfl
  · dsimp only
    split <;> rfl
  · unfold copyWord
    split <;> rfl
  · dsimp only
    split <;> rfl

theorem copySection_whole {e : EntrySlots} (he : t.hash.lookup r.partitionId = some e) (hvalid : e.isValid = true) :
    ∃ r', runAccesses copySection t r = (t, r') ∧ r'.partitionId = r.partitionId ∧ r'.wantsEntry = r.wantsEntry ∧
      r'.result = r.result ∧ r'.filled = true ∧ r'.pc = .returned ∧
      ∀ l : PartitionMapEntry, l.secondaryNodes.length ≤ partdistMaxSecondaries → e.Holds l → r'.out.Holds l := by
  have hmem : decide (r.partitionId ∈ t.hash) = true := decide_eq_true (Finmap.mem_iff.mpr ⟨e, he⟩)
  have hhead : runAccesses [hashFind] t r =
      (t, { r with found := decide (r.partitionId ∈ t.hash), isValid := false }) := rfl
  obtain ⟨words, out, hfold, hholds⟩ := copyFields_holds hvalid { r with found := true, isValid := false }
  have hrun := runAccesses_readFields (r := { r with found := true, isValid := false }) copyFields_keep he
  rw [copySection, List.append_assoc, runAccesses_append hhead, hmem, runAccesses_append hrun, hfold]
  exact ⟨_, rfl, rfl, rfl, rfl, rfl, rfl, hholds⟩

end

/-! ## Rows that the table had -/

/-- At one of the loads the table had this row for the partition. -/
def TableHad (ls : List (RwLock.Label Nat CacheEvent)) (k : Oid) (l : PartitionMapEntry) : Prop :=
  ∃ p e, RwLock.Label.act p e ∈ ls ∧ (e.table k).bind (loadPartitionFromTable k) = some l

theorem TableHad.length_le {ls : List (RwLock.Label Nat CacheEvent)} {k : Oid} {l : PartitionMapEntry}
    (h : TableHad ls k l) : l.secondaryNodes.length ≤ partdistMaxSecondaries := by
  obtain ⟨p, e, -, hl⟩ := h
  obtain ⟨row, -, hl⟩ := Option.bind_eq_some_iff.mp hl
  obtain ⟨primaryNode, -, rfl⟩ := Option.map_eq_some_iff.mp hl
  exact List.length_take_le _ _

/-- What a call gives back: a primary that the table had; and `GetPartitionEntry` an entry, if
there is one, all of whose fields are from one row. -/
structure CacheRegs.Answered (had : Oid → PartitionMapEntry → Prop) (r : CacheRegs) : Prop where
  primary : 0 ≤ r.result → ∃ l, had r.partitionId l ∧ r.result = l.primaryNode
  filled : r.wantsEntry = true → (r.filled = true ↔ 0 ≤ r.result)
  entry : r.filled = true → ∃ l, had r.partitionId l ∧ r.out.Holds l

/-- What holds of the variables of a call outside its sections. -/
def CacheRegs.Untorn (had : Oid → PartitionMapEntry → Prop) (t : PartitionTable) (r : CacheRegs) : Prop :=
  match r.pc with
  | .probe | .load => r.filled = false
  | .store => r.filled = false ∧ had r.partitionId r.loaded ∧ 0 ≤ r.loaded.primaryNode ∧
      r.result = r.loaded.primaryNode
  | .copy => r.wantsEntry = true ∧ (r.partitionId ∈ t.hash) ∧ 0 ≤ r.result ∧
      ∃ l, had r.partitionId l ∧ r.result = l.primaryNode
  | .increment => r.filled = false ∧ r.wantsEntry = false ∧ r.result = -1
  | .returned => r.Answered had
  | .failed => True

structure Untorn (had : Oid → PartitionMapEntry → Prop) (s : Whole Nat PartitionTable CacheRegs) : Prop where
  entries : ∀ k e, s.store.hash.lookup k = some e →
    e.isValid = true ∧ ∃ l, had k l ∧ 0 ≤ l.primaryNode ∧ e.Holds l
  regs : ∀ p, (s.regs p).Untorn had s.store

section
variable {had : Oid → PartitionMapEntry → Prop} {s : Whole Nat PartitionTable CacheRegs} {t t' : PartitionTable}
  {r r' : CacheRegs}

/-- No entry is ever removed. -/
theorem CacheRegs.Untorn.mono (h : r.Untorn had t) (hkeys : ∀ k, k ∈ t.hash → k ∈ t'.hash) : r.Untorn had t' := by
  unfold CacheRegs.Untorn at h ⊢
  cases hpc : r.pc with
  | copy =>
    rw [hpc] at h
    exact ⟨h.1, hkeys _ h.2.1, h.2.2⟩
  | _ =>
    rw [hpc] at h
    exact h

/-- A call that has its primary. -/
theorem CacheRegs.GoesOn.untorn (h : r.GoesOn r'.pc) (hcall : r.SameCall r') (hfilled : r.filled = false)
    (hmem : r.partitionId ∈ t.hash) (hle : 0 ≤ r'.result)
    (hhad : ∃ l, had r.partitionId l ∧ r'.result = l.primaryNode) : r'.Untorn had t := by
  rw [← hcall.partitionId] at hmem hhad
  have hfalse : r'.filled = false := hcall.filled.trans hfilled
  unfold CacheRegs.Untorn
  rcases h with ⟨hwants, hpc⟩ | ⟨hwants, hpc⟩
  · rw [hpc]
    exact ⟨hcall.wantsEntry.trans hwants, hmem, hle, hhad⟩
  · rw [hpc]
    refine ⟨fun _ => hhad, fun hw => ?_, fun hf => ?_⟩
    · rw [hcall.wantsEntry, hwants] at hw
      cases hw
    · rw [hfalse] at hf
      cases hf

theorem Untorn.update (hs : Untorn had s) (p : Nat) (hkeys : ∀ k, k ∈ s.store.hash → k ∈ t.hash)
    (hentries : ∀ k e, t.hash.lookup k = some e → e.isValid = true ∧ ∃ l, had k l ∧ 0 ≤ l.primaryNode ∧ e.Holds l)
    (hr : r.Untorn had t) : Untorn had ⟨t, Function.update s.regs p r⟩ := by
  refine ⟨hentries, ?_⟩
  exact (Function.forall_update_iff s.regs fun _ r => r.Untorn had t).mpr ⟨hr, fun q _ => (hs.regs q).mono hkeys⟩

theorem untorn_enter (hlen : ∀ k l, had k l → l.secondaryNodes.length ≤ partdistMaxSecondaries)
    (hs : Untorn had s) (p : Nat) : Untorn had (wholeStep cacheProgram s (.enter p)) := by
  have hp := hs.regs p
  unfold CacheRegs.Untorn at hp
  cases hpc : (s.regs p).pc with
  | probe =>
    rw [hpc] at hp
    obtain ⟨r', hrun, hcall, hcases⟩ := probeSection_whole s.store (s.regs p)
    simp only [wholeStep, cacheProgram, hpc, hrun]
    refine hs.update p (fun _ h => h) hs.entries ?_
    rcases hcases with hload | ⟨e, he, -, hresult, hgoes⟩
    · unfold CacheRegs.Untorn
      rw [hload]
      exact hcall.filled.trans hp
    · obtain ⟨-, l, hl, hle, hholds⟩ := hs.entries _ _ he
      have hprimary : r'.result = l.primaryNode := hresult.trans hholds.primaryNode
      refine hgoes.untorn hcall hp (Finmap.mem_iff.mpr ⟨e, he⟩) ?_ ⟨l, hl, hprimary⟩
      rw [hprimary]
      exact hle
  | store =>
    rw [hpc] at hp
    obtain ⟨hfilled, hhad, hle, hresult⟩ := hp
    obtain ⟨t', r', hrun, hcall, hres, hcases⟩ := storeSection_whole (t := s.store) hpc (hlen _ _ hhad)
    simp only [wholeStep, cacheProgram, hpc, hrun]
    rcases hcases with ⟨hfailed, rfl⟩ | ⟨hgoes, e, hvalid, hholds, hset⟩
    · refine hs.update p (fun _ h => h) hs.entries ?_
      unfold CacheRegs.Untorn
      rw [hfailed]
      trivial
    · have hkeys : ∀ k, k ∈ s.store.hash → k ∈ t'.hash := by
        intro k hk
        obtain ⟨e', he'⟩ := Finmap.mem_iff.mp hk
        rw [Finmap.mem_iff, hset.2]
        split
        · exact ⟨e, rfl⟩
        · exact ⟨e', he'⟩
      refine hs.update p hkeys (fun k e' he' => ?_) ?_
      · rw [hset.2] at he'
        split at he'
        · next hk =>
          subst hk
          obtain rfl := Option.some.inj he'
          exact ⟨hvalid, _, hhad, hle, hholds⟩
        · exact hs.entries k e' he'
      · refine hgoes.untorn hcall hfilled (Finmap.mem_iff.mpr ⟨e, hset.lookup⟩) ?_ ⟨_, hhad, hres.trans hresult⟩
        rw [hres, hresult]
        exact hle
  | copy =>
    rw [hpc] at hp
    obtain ⟨hwants, hmem, hle, hhad⟩ := hp
    obtain ⟨e, he⟩ := Finmap.mem_iff.mp hmem
    obtain ⟨hvalid, l, hl, -, hholds⟩ := hs.entries _ _ he
    obtain ⟨r', hrun, hpid, -, hresult, hfilled, hret, hout⟩ := copySection_whole he hvalid
    simp only [wholeStep, cacheProgram, hpc, hrun]
    refine hs.update p (fun _ h => h) hs.entries ?_
    unfold CacheRegs.Untorn
    rw [hret]
    refine ⟨fun _ => ?_, fun _ => ⟨fun _ => ?_, fun _ => hfilled⟩, fun _ => ⟨l, ?_, hout l (hlen _ _ hl) hholds⟩⟩
    · rw [hpid, hresult]
      exact hhad
    · rw [hresult]
      exact hle
    · rw [hpid]
      exact hl
  | increment =>
    rw [hpc] at hp
    obtain ⟨hfilled, hwants, hresult⟩ := hp
    simp only [wholeStep, cacheProgram, hpc, incrementSection, runAccesses, readGeneration]
    refine hs.update p (fun _ h => h) hs.entries ⟨fun h => ?_, fun h => ?_, fun h => ?_⟩
    · dsimp only at h
      rw [hresult] at h
      cases h
    · dsimp only at h
      rw [hwants] at h
      cases h
    · dsimp only at h
      rw [hfilled] at h
      cases h
  | _ =>
    simp only [wholeStep, cacheProgram, hpc]
    exact hs

theorem untorn_act {ls : List (RwLock.Label Nat CacheEvent)} (hs : Untorn (TableHad ls) s) {p : Nat} {e : CacheEvent}
    (he : RwLock.Label.act p e ∈ ls) : Untorn (TableHad ls) (wholeStep cacheProgram s (.act p e)) := by
  have hp := hs.regs p
  unfold CacheRegs.Untorn at hp
  have hbegin : ∀ call, (CacheRegs.begin (s.regs p) call).Untorn (TableHad ls) s.store := by
    rintro (k | k | _)
    · rfl
    · rfl
    · exact ⟨rfl, rfl, rfl⟩
  cases hpc : (s.regs p).pc with
  | load =>
    rw [hpc] at hp
    simp only [wholeStep, cacheProgram, hpc]
    refine hs.update p (fun _ h => h) hs.entries ?_
    -- nothing was loaded that can be given back
    have hnone : ∀ result : Int32, result < 0 →
        ({ s.regs p with result := result, pc := .returned } : CacheRegs).Untorn (TableHad ls) s.store := by
      intro result hneg
      have hnot : ¬ 0 ≤ result := Int32.not_le.mpr hneg
      refine ⟨fun h => absurd h hnot, fun _ => ⟨fun h => ?_, fun h => absurd h hnot⟩, fun h => ?_⟩
      · exact absurd (h.symm.trans hp) Bool.noConfusion
      · exact absurd (h.symm.trans hp) Bool.noConfusion
    unfold CacheRegs.load
    split
    · split
      · next loaded hloaded =>
        split
        · next hle => exact ⟨hp, ⟨p, e, he, hloaded⟩, hle, rfl⟩
        · next hneg => exact hnone _ (Int32.not_le.mp hneg)
      · exact hnone (-1) (by decide)
    · trivial
  | returned =>
    simp only [wholeStep, cacheProgram, hpc]
    exact hs.update p (fun _ h => h) hs.entries (hbegin _)
  | failed =>
    simp only [wholeStep, cacheProgram, hpc]
    exact hs.update p (fun _ h => h) hs.entries (hbegin _)
  | _ =>
    simp only [wholeStep, cacheProgram, hpc, Function.update_eq_self]
    exact hs

end

theorem cacheProgram_sharedReads : cacheProgram.SharedReads := by
  have hfields : ∀ fs : List (EntrySlots → CacheRegs → CacheRegs), Reads (fs.map readField) := by
    intro fs a ha t r
    obtain ⟨f, -, rfl⟩ := List.mem_map.mp ha
    unfold readField
    split <;> rfl
  have hreads : ∀ (as : List CacheAccess) (fs : List (EntrySlots → CacheRegs → CacheRegs)) (b : CacheAccess),
      Reads as → (∀ t r, (b t r).1 = t) → Reads (as ++ fs.map readField ++ [b]) := by
    intro as fs b has hb a ha t r
    rcases List.mem_append.mp ha with ha | ha
    · rcases List.mem_append.mp ha with ha | ha
      · exact has a ha t r
      · exact hfields fs a ha t r
    · rw [List.mem_singleton.mp ha]
      exact hb t r
  intro r c hc hm
  cases hpc : r.pc <;> simp only [cacheProgram, hpc, Option.mem_def, Option.some.injEq, reduceCtorEq] at hc
  · subst hc
    refine hreads [readGeneration, hashFind] probeFields probeTest (fun a ha t r => ?_) fun _ _ => rfl
    simp only [List.mem_cons, List.not_mem_nil, or_false] at ha
    rcases ha with rfl | rfl <;> rfl
  · subst hc
    cases hm
  · subst hc
    refine hreads [hashFind] copyFields copyDone (fun a ha t r => ?_) fun _ _ => rfl
    rw [List.mem_singleton.mp ha]
    rfl
  · subst hc
    cases hm

/-- **No torn entries.** In every run of any number of backends that look partitions up and
invalidate the cache, their accesses interleaved as the lock allows, a call that has returned
gives back a primary that the table had for its partition at one of the loads;
`GetPartitionEntry` returns true if and only if it has such a primary, and then primary,
number and list of secondaries are all from one row that the table had. -/
theorem locked_entries (ls : List (RwLock.Label Nat CacheEvent)) (p : Nat) :
    let s := RwLock.run cacheProgram cacheStart ls
    ¬ s.Inside p → (s.regs p).pc = .returned → (s.regs p).Answered (TableHad ls) := by
  intro s hp hpc
  have hstart : Untorn (TableHad ls) cacheStart.completed := by
    refine ⟨fun k e h => ?_, fun q => ⟨fun h => ?_, fun h => ?_, fun h => ?_⟩⟩
    · exact absurd h (by simp [cacheStart, State.start, State.completed])
    · exact absurd h (show ¬ (0 : Int32) ≤ -1 by decide)
    · cases h
    · cases h
  have hinv : Untorn (TableHad ls) s.completed ∧ Safe s := by
    refine completed_invariant cacheProgram_sharedReads (safe_start _ _) hstart fun l hl w hw => ?_
    cases l with
    | enter q => exact untorn_enter (fun _ _ => TableHad.length_le) hw q
    | act q e => exact untorn_act hw hl
    | access q => exact hw
    | leave q => exact hw
  have hregs : (s.regs p).Untorn (TableHad ls) s.completed.store := by
    have h := hinv.1.regs p
    rwa [hinv.2.completed_regs hp] at h
  unfold CacheRegs.Untorn at hregs
  rw [hpc] at hregs
  exact hregs

/-- Both backends load partition 600, which between the loads moves from node 1 to node 5 and
gets another secondary; backend 1 stores its row, slowly, before backend 0 copies. -/
def movedBetweenLoads : List (RwLock.Label Nat CacheEvent) :=
  let learns (primary : Int32) (secondaries : List (Option Int32)) : CacheEvent :=
    { table := fun _ => some ⟨some primary, some secondaries, some 1⟩, loadOk := true, element := blankEntry,
      call := .getPartitionEntry 600 }
  let accesses (p n : Nat) : List (RwLock.Label Nat CacheEvent) := List.replicate n (.access p)
  let whole (p n : Nat) : List (RwLock.Label Nat CacheEvent) := [.enter p] ++ accesses p n ++ [.leave p]
  [.act 0 (learns 0 []), .act 1 (learns 0 [])] ++ whole 0 6 ++ whole 1 6 ++
    [.act 0 (learns 1 [some 2, some 3]), .act 1 (learns 5 [some 7])] ++ whole 0 39 ++
    [.enter 1] ++ accesses 1 3 ++ [.enter 0] ++ accesses 1 36 ++ [.leave 1] ++ whole 0 39

theorem locked_entries_moved :
    let s := RwLock.run cacheProgram cacheStart movedBetweenLoads
    (s.regs 0).pc = .returned ∧ (s.regs 0).Answered (TableHad movedBetweenLoads) :=
  have hpc : ((RwLock.run cacheProgram cacheStart movedBetweenLoads).regs 0).pc = .returned := by decide +kernel
  ⟨hpc, locked_entries movedBetweenLoads 0 (by decide +kernel) hpc⟩

-- The probe's primary is from the first row, the entry from the second.
example : (((RwLock.run cacheProgram cacheStart movedBetweenLoads).regs 0).result,
    ((RwLock.run cacheProgram cacheStart movedBetweenLoads).regs 0).out.primaryNode,
    ((RwLock.run cacheProgram cacheStart movedBetweenLoads).regs 0).out.numSecondaries) = (1, 5, 1) := by
  decide +kernel

end LockedCache

end PartDist
