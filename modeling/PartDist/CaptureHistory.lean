import PartDist.CachedRouting
import PartDist.ShouldWrite
import Mathlib.Data.List.ReduceOption
import Mathlib.Data.List.TakeWhile

/-!
# Capture and history

`ShouldWritePartWAL` over whole histories of a server: rows of `partdist.partition_map` and
`pg_dist_partition` come and go, partitions are looked up, and any number of backends ask.
What is in the three caches is told by the history alone.

* `Cache.Holding.step`: the shared hash has the partitions that a lookup has found since the
  server started, and keeps them.
* `shouldWrite_learned`: a backend knows the group id and the tables from the first questions
  that showed them.
* `calls_right_iff`: all calls are right if and only if what these showed is what the
  catalogs say at each call.

Registration alone is not enough (`registered_not_captured`).
-/

namespace PartDist

open Bytes StampedCache

/-! ## What has been found -/

/-- Since the server started a lookup of the partition has returned a node; without shared
memory this is kept nowhere. -/
def Node.LookedUp (s : Node) (relid : Oid) : Prop :=
  s.cache.generation.isSome = true ∧ s.cache.partitions.FoundBy (fun primary => 0 ≤ primary) relid

instance (s : Node) (relid : Oid) : Decidable (s.LookedUp relid) := inferInstanceAs (Decidable (_ ∧ _))

/-- A call that neither a lookup nor a name decides, with the catalogs at that time. -/
structure Question where
  io : ScanCatalogs
  catalogs : Catalogs
  relid : Oid

namespace Question

/-- What a scan of `pg_dist_local_group` shows. -/
def groupId (q : Question) : Int32 := if q.io.groupOk then q.catalogs.groupId else -1

/-- What a scan of `pg_dist_partition` shows. -/
def distributed (q : Question) : Bool := q.io.partitionOk && q.catalogs.distributed q.relid

end Question

/-- The first group id but -2, which stands for none. -/
def groupSeen (qs : List Question) : Int32 := ((qs.find? fun q => q.groupId ≠ -2).map Question.groupId).getD (-2)

/-- If that is positive: what the first question on the relation showed, from there on. -/
def statusSeen (qs : List Question) (relid : Oid) : Option Bool :=
  if 0 < groupSeen qs then
    ((qs.dropWhile fun q => q.groupId = -2).find? fun q => q.relid = relid).map Question.distributed
  else none

/-- The question of a call of backend `i`. -/
def Node.question (i : Nat) (s : Node) : NodeLabel → Option Question
  | .call j io relid relAlias =>
    if j = i ∧ ¬ s.LookedUp relid ∧ ¬ s.catalogs.ShardNamed relid relAlias then some ⟨io, s.catalogs, relid⟩
    else none
  | _ => none

/-- The questions of backend `i` in a history. -/
def questions (s₀ : Node) (done : List NodeLabel) (i : Nat) : List Question :=
  (Run.outputs nodeStep (Node.question i) s₀ done).reduceOption

/-- After the history `done`, and if no name decides: what lookups and scans have shown is
what the catalogs say by now. -/
def ShownAsNow (s₀ : Node) (done : List NodeLabel) : NodeLabel → Prop
  | .call i io relid relAlias =>
    let s := done.foldl nodeStep s₀
    s.catalogs.ShardNamed relid relAlias ∨
      ((s.LookedUp relid ∨ statusSeen (questions s₀ done i ++ [⟨io, s.catalogs, relid⟩]) relid = some true) ↔
        (s.cache.registered relid = true ∨ 0 < s.catalogs.groupId ∧ s.catalogs.distributed relid = true))
  | _ => True

/-! ## What a backend has learned -/

/-- The caches of a backend that has asked these. -/
def Backend.learned (qs : List Question) : Backend := ⟨groupSeen qs, statusSeen qs⟩

section
variable {qs : List Question} {q : Question} {relid : Oid}

theorem groupSeen_eq_none : groupSeen qs = -2 ↔ ∀ q ∈ qs, q.groupId = -2 := by
  unfold groupSeen
  cases hfind : qs.find? fun q => q.groupId ≠ -2 with
  | none =>
    simp only [List.find?_eq_none, decide_eq_true_eq, not_not] at hfind
    exact ⟨fun _ => hfind, fun _ => rfl⟩
  | some q =>
    have hne : q.groupId ≠ -2 := by simpa using List.find?_some hfind
    exact ⟨fun h => absurd h hne, fun h => absurd (h q (List.mem_of_find?_eq_some hfind)) hne⟩

theorem groupSeen_snoc (qs : List Question) (q : Question) :
    groupSeen (qs ++ [q]) = if groupSeen qs ≠ -2 then groupSeen qs else q.groupId := by
  by_cases hnone : groupSeen qs = -2
  · have hfind : (qs.find? fun q => q.groupId ≠ -2) = none := by
      simpa [List.find?_eq_none] using groupSeen_eq_none.mp hnone
    rw [if_neg (by simpa using hnone), groupSeen, List.find?_append, hfind, Option.none_or, List.find?_singleton]
    split
    · rfl
    · next h =>
      have h : q.groupId = -2 := by simpa using h
      rw [h]
      rfl
  · rw [if_pos hnone]
    unfold groupSeen at hnone ⊢
    cases hfind : qs.find? fun q => q.groupId ≠ -2 with
    | none =>
      rw [hfind] at hnone
      exact absurd rfl hnone
    | some q' => rw [List.find?_append, hfind, Option.some_or]

theorem dropWhile_snoc (hseen : groupSeen qs ≠ -2) :
    (qs ++ [q]).dropWhile (fun q => q.groupId = -2) = qs.dropWhile (fun q => q.groupId = -2) ++ [q] := by
  rw [List.dropWhile_append, if_neg]
  intro hall
  simp only [List.isEmpty_iff, List.dropWhile_eq_nil_iff, decide_eq_true_eq] at hall
  exact hseen (groupSeen_eq_none.mpr hall)

/-- The status of a relation that has been asked for is kept. -/
theorem statusSeen_snoc (qs : List Question) (q : Question) (relid : Oid) :
    statusSeen (qs ++ [q]) relid =
      if 0 < groupSeen (qs ++ [q]) then
        (statusSeen qs relid).or (if q.relid = relid then some q.distributed else none)
      else none := by
  rw [statusSeen]
  split
  · next hpos =>
    rw [groupSeen_snoc] at hpos
    by_cases hseen : groupSeen qs = -2
    · have hdrop : (qs ++ [q]).dropWhile (fun q => q.groupId = -2) = [q] := by
        rw [if_neg (by simpa using hseen)] at hpos
        have hq : q.groupId ≠ -2 := by
          intro h
          rw [h] at hpos
          exact absurd hpos (by decide)
        rw [List.dropWhile_append_of_pos (by simpa using groupSeen_eq_none.mp hseen)]
        simp [hq]
      rw [hdrop, statusSeen, hseen, if_neg (by decide), Option.none_or, List.find?_singleton]
      split
      · next h => rw [if_pos (by simpa using h), Option.map_some]
      · next h => rw [if_neg (by simpa using h), Option.map_none]
    · rw [if_pos hseen] at hpos
      rw [dropWhile_snoc hseen, List.find?_append, Option.map_or, statusSeen, if_pos hpos, List.find?_singleton]
      congr 1
      split
      · next h => rw [if_pos (by simpa using h), Option.map_some]
      · next h => rw [if_neg (by simpa using h), Option.map_none]
  · rfl

theorem getLocalCitusGroupId_learned (qs : List Question) (q : Question) :
    getLocalCitusGroupId q.io q.catalogs (Backend.learned qs) =
      (groupSeen (qs ++ [q]), ⟨groupSeen (qs ++ [q]), statusSeen qs⟩) := by
  rw [getLocalCitusGroupId, groupSeen_snoc]
  by_cases hseen : groupSeen qs = -2
  · simp [Backend.learned, hseen, Question.groupId]
  · simp [Backend.learned, hseen]

theorem statusSeen_of_not_pos (h : ¬ 0 < groupSeen qs) : statusSeen qs = fun _ => none := by
  funext relid
  rw [statusSeen, if_neg h]

theorem getCitusDistTableStatus_learned (hpos : 0 < groupSeen (qs ++ [q])) :
    getCitusDistTableStatus q.io q.catalogs q.relid ⟨groupSeen (qs ++ [q]), statusSeen qs⟩ =
      (decide (statusSeen (qs ++ [q]) q.relid = some true), Backend.learned (qs ++ [q])) := by
  have hsnoc : ∀ r, statusSeen (qs ++ [q]) r =
      (statusSeen qs r).or (if q.relid = r then some q.distributed else none) := by
    intro r
    rw [statusSeen_snoc, if_pos hpos]
  unfold getCitusDistTableStatus
  split
  · next isDist hst =>
    -- the status is kept, and no other is entered
    have hst : statusSeen qs q.relid = some isDist := hst
    have hsame : statusSeen (qs ++ [q]) = statusSeen qs := by
      funext r
      rw [hsnoc]
      by_cases hr : q.relid = r
      · rw [← hr, hst, Option.some_or]
      · rw [if_neg hr, Option.or_none]
    rw [Backend.learned, hsame, hst]
    cases isDist <;> rfl
  · next hst =>
    have hst : statusSeen qs q.relid = none := hst
    have hnew : statusSeen (qs ++ [q]) = Function.update (statusSeen qs) q.relid (some q.distributed) := by
      funext r
      rw [hsnoc]
      by_cases hr : r = q.relid
      · rw [hr, Function.update_self, hst, Option.none_or, if_pos rfl]
      · rw [Function.update_of_ne hr, if_neg (Ne.symm hr), Option.or_none]
    rw [Backend.learned, hnew, Function.update_self]
    show (q.distributed, (⟨_, Function.update (statusSeen qs) q.relid (some q.distributed)⟩ : Backend)) = _
    cases q.distributed <;> rfl

/-- A question is answered from what its backend has been shown, with this question, and
that is what the backend knows then. -/
theorem shouldWrite_learned {cache : MetadataCache} {relAlias : Option RelName} (hmap : cache.mapped q.relid = false)
    (hname : ¬ q.catalogs.ShardNamed q.relid relAlias) :
    shouldWritePartWAL q.io cache q.catalogs q.relid relAlias (Backend.learned qs) =
      (decide (statusSeen (qs ++ [q]) q.relid = some true), Backend.learned (qs ++ [q])) := by
  obtain ⟨halias, htable⟩ := not_or.mp (shardNamed_iff.not.mp hname)
  rw [shouldWritePartWAL, hmap, if_neg Bool.false_ne_true, if_neg halias, if_neg htable,
    getLocalCitusGroupId_learned]
  simp only []
  by_cases hpos : 0 < groupSeen (qs ++ [q])
  · rw [if_pos hpos, getCitusDistTableStatus_learned hpos]
  · -- no status is known while the group id is not positive
    have hnone := statusSeen_of_not_pos hpos
    have hold : statusSeen qs = fun _ => none := by
      apply statusSeen_of_not_pos
      rw [groupSeen_snoc] at hpos
      split at hpos
      · exact hpos
      · next h =>
        rw [not_not.mp h]
        decide
    rw [if_neg hpos, Backend.learned, hnone, hold]
    rfl

end

/-! ## Histories -/

/-- A server that has just started, with these tables and catalogs. -/
def Node.started (preloaded : Bool) (t : Tables) (cat : Catalogs) : Node :=
  ⟨MetadataCache.started preloaded t, cat, fun _ => Backend.start⟩

/-- What the caches hold after a history. -/
structure Node.Remembers (s₀ : Node) (done : List NodeLabel) (s : Node) : Prop where
  reached : s = done.foldl nodeStep s₀
  partitions : s.cache.generation.isSome = true →
    s.cache.partitions.Holding getPartitionPrimary fun primary => 0 ≤ primary
  backends : ∀ i, s.backends i = Backend.learned (questions s₀ done i)

section
variable {s₀ s : Node} {done : List NodeLabel} {relid : Oid}

/-- What `GetPartitionPrimary` stores is what it finds. -/
theorem found_primary (loaded : Option PartitionMapEntry) :
    0 ≤ getPartitionPrimary.answer loaded ↔ loaded.any getPartitionPrimary.stores = true := by
  cases loaded with
  | none => decide
  | some l => exact (decide_eq_true_iff).symm

theorem Node.Remembers.mapped_iff (h : s₀.Remembers done s) : s.cache.mapped relid = true ↔ s.LookedUp relid := by
  rw [MetadataCache.mapped, Bool.and_eq_true, decide_eq_true_eq, Node.LookedUp]
  exact and_congr_right fun hgen => (h.partitions hgen).mem_iff relid

theorem questions_snoc (s₀ : Node) (done : List NodeLabel) (l : NodeLabel) (i : Nat) :
    questions s₀ (done ++ [l]) i =
      questions s₀ done i ++ ((done.foldl nodeStep s₀).question i l).toList := by
  rw [questions, Run.outputs_append, List.reduceOption_append, Run.outputs, Run.outputs, questions]
  cases (done.foldl nodeStep s₀).question i l <;> rfl

theorem remembers_started (preloaded : Bool) (t : Tables) (cat : Catalogs) :
    (Node.started preloaded t cat).Remembers [] (Node.started preloaded t cat) where
  reached := rfl
  partitions _ := Cache.holding_empty rfl rfl
  backends _ := rfl

/-- What is no call asks nothing. -/
theorem Node.Remembers.quiet (h : s₀.Remembers done s) {l : NodeLabel} (hnone : ∀ i, s.question i l = none) (i : Nat) :
    s.backends i = Backend.learned (questions s₀ (done ++ [l]) i) := by
  rw [questions_snoc, ← h.reached, hnone, Option.toList_none, List.append_nil]
  exact h.backends i

/-- The backend that calls learns from its question, if it has to ask one. -/
theorem Node.Remembers.called (h : s₀.Remembers done s) (j : Nat) (io : ScanCatalogs) (relAlias : Option RelName)
    (i : Nat) : (nodeStep s (.call j io relid relAlias)).backends i =
      Backend.learned (questions s₀ (done ++ [.call j io relid relAlias]) i) := by
  have hbackends : (nodeStep s (.call j io relid relAlias)).backends = Function.update s.backends j
      (shouldWritePartWAL io s.cache s.catalogs relid relAlias (s.backends j)).2 := rfl
  rw [questions_snoc, ← h.reached, hbackends]
  by_cases hi : i = j
  · subst hi
    rw [Function.update_self, h.backends]
    by_cases hdec : s.LookedUp relid ∨ s.catalogs.ShardNamed relid relAlias
    · have hnone : s.question i (.call i io relid relAlias) = none :=
        if_neg fun hasked => hdec.elim hasked.2.1 hasked.2.2
      rw [shouldWrite_decided (hdec.imp_left h.mapped_iff.mpr), hnone, Option.toList_none, List.append_nil]
    · obtain ⟨hlooked, hname⟩ := not_or.mp hdec
      have hasked : s.question i (.call i io relid relAlias) = some ⟨io, s.catalogs, relid⟩ :=
        if_pos ⟨rfl, hlooked, hname⟩
      have hmap : s.cache.mapped relid = false := Bool.eq_false_iff.mpr fun hm => hlooked (h.mapped_iff.mp hm)
      rw [hasked, Option.toList_some]
      exact congrArg Prod.snd (shouldWrite_learned (q := ⟨io, s.catalogs, relid⟩) hmap hname)
  · have hnone : s.question i (.call j io relid relAlias) = none := if_neg fun hasked => hi hasked.1.symm
    rw [Function.update_of_ne hi, h.backends, hnone, Option.toList_none, List.append_nil]

/-- One step: a lookup finds its partition, or a question is asked. -/
theorem Node.Remembers.step (h : s₀.Remembers done s) (l : NodeLabel) :
    s₀.Remembers (done ++ [l]) (nodeStep s l) := by
  have hreached : nodeStep s l = (done ++ [l]).foldl nodeStep s₀ := by
    rw [List.foldl_append, List.foldl_cons, List.foldl_nil, ← h.reached]
  cases l with
  | cache l =>
    refine ⟨hreached, fun hgen => ?_, h.quiet fun _ => rfl⟩
    cases l with
    | partition st => exact (h.partitions hgen).step found_primary hgen st
    | node st => exact h.partitions hgen
    | invalidate =>
      have hgen : s.cache.generation.isSome = true := (Option.isSome_map).symm.trans hgen
      exact ⟨(h.partitions hgen).mem_iff, (h.partitions hgen).hits⟩
  | rename relid name => exact ⟨hreached, h.partitions, h.quiet fun _ => rfl⟩
  | setLocalGroup rows => exact ⟨hreached, h.partitions, h.quiet fun _ => rfl⟩
  | setDistPartition relids => exact ⟨hreached, h.partitions, h.quiet fun _ => rfl⟩
  | call j io relid relAlias => exact ⟨hreached, h.partitions, h.called j io relAlias⟩

/-- After a history, a call answers as the catalogs say if what the history has shown is so. -/
theorem Node.Remembers.answersRight_iff (h : s₀.Remembers done s) (l : NodeLabel) :
    AnswersRight s l ↔ ShownAsNow s₀ done l := by
  cases l with
  | call i io relid relAlias =>
    simp only [AnswersRight, ShownAsNow, ← h.reached, Node.Captured]
    by_cases hname : s.catalogs.ShardNamed relid relAlias
    · rw [shouldWrite_decided (Or.inr hname)]
      simp [hname]
    · by_cases hlooked : s.LookedUp relid
      · rw [shouldWrite_decided (Or.inl (h.mapped_iff.mpr hlooked))]
        simp [hname, hlooked]
      · have hmap : s.cache.mapped relid = false := Bool.eq_false_iff.mpr fun hm => hlooked (h.mapped_iff.mp hm)
        rw [h.backends, shouldWrite_learned (q := ⟨io, s.catalogs, relid⟩) hmap hname]
        simp [hname, hlooked]
  | cache l => exact Iff.rfl
  | rename relid name => exact Iff.rfl
  | setLocalGroup rows => exact Iff.rfl
  | setDistPartition relids => exact Iff.rfl

end

/-- **Capture.** In every history of a server, all calls answer as the catalogs say if and
only if at each call that no name decides the relation is registered, or distributed on a
worker, exactly when a lookup has found it since the server started or the first scans of
the calling backend showed it so. -/
theorem calls_right_iff (preloaded : Bool) (t : Tables) (cat : Catalogs) (ls : List NodeLabel) :
    Run.Along nodeStep AnswersRight (Node.started preloaded t cat) ls ↔
      ∀ done l rest, ls = done ++ l :: rest → ShownAsNow (Node.started preloaded t cat) done l := by
  have hremembers : ∀ done, (Node.started preloaded t cat).Remembers done
      (done.foldl nodeStep (Node.started preloaded t cat)) := fun done =>
    Run.run_history nodeStep (remembers_started preloaded t cat) (fun _ _ l h _ => h.step l)
      (Run.along_of_forall nodeStep (C := fun _ => True) fun _ _ => trivial)
  rw [Run.along_iff_forall]
  exact forall_congr' fun done => forall_congr' fun l => forall_congr' fun rest =>
    imp_congr_right fun _ => (hremembers done).answersRight_iff l

/-! ## Runs -/

/-- Just started, with no Citus and nothing registered. -/
def Node.bare : Node := Node.started true ⟨fun _ => none, fun _ => none⟩ ⟨fun _ => none, none, none⟩

/-- A row of partition 600 is inserted, changed or, with `none`, deleted. -/
def change600 (row : Option PartitionMapRow) : NodeLabel := .cache (.partition (.change 600 row))

/-- The first lookup. -/
def lookUp600 : List NodeLabel :=
  [.cache (.partition (.begin 600)), .cache (.partition (.advance 0 true)),
    .cache (.partition (.advance 0 true)), .cache (.partition (.advance 0 true))]

def call600 : NodeLabel := .call 0 ⟨true, true⟩ 600 (some "orders".toList)

/-- Registered, looked up, and asked for. -/
example : Run.Along nodeStep AnswersRight Node.bare (change600 (some (primaryRow 1)) :: lookUp600 ++ [call600]) := by
  decide +kernel

/-- Registered, but not looked up before it is asked for; and removed after a lookup. -/
theorem registered_not_captured :
    ¬ Run.Along nodeStep AnswersRight Node.bare [change600 (some (primaryRow 1)), call600] ∧
      ¬ Run.Along nodeStep AnswersRight Node.bare
        (change600 (some (primaryRow 1)) :: lookUp600 ++ [change600 none, call600]) := by
  decide +kernel

end PartDist
