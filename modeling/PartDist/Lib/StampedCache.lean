import Mathlib.Order.Basic
import PartDist.Lib.FixedHash

/-!
# Caches stamped with a generation

A table whose rows change and a cache of it, used by any number of lookups.  A
lookup probes the cache; on a miss it loads the row from the table, and stores what
it loaded under the generation that is current by then.  An invalidation moves on to
a new generation, and entries of older ones no longer count.

The table keeps all versions of a row, so that "the row current at the last
invalidation, or a newer one" can be said (`Lookup.Fresh`).

* `Inv.step`, `Inv.invalidate`: what a step of a lookup, a change and an invalidation
  preserve, as long as nothing older than the last invalidation is stored.
* `Inv.fresh`: under this invariant every lookup that has returned is fresh.

Lookups that do not overlap find a coherent cache, one whose hits are what a load
gives, and keep it so.

* `Coherent.lookup_iff`: such a lookup returns what a load of the row gives if and only
  if the hash has room for it.
* `keys_lookup`, `Within.lookup`: the entries that lookups leave in the hash.
* `Steady.step`, `Steady.lookup`: the entry of a row that does not change.

`Holding.step`: entries are never removed, so that the hash has the keys that some lookup
has found.
-/

namespace StampedCache

/-- A kind of cache: keys `κ`, rows `ρ`, what a load makes of a row `δ`, entries `ε`,
generations `γ`, results `α`. -/
structure Kind (κ ρ δ ε γ α : Type) where
  capacity : Nat
  load : κ → ρ → Option δ
  stores : δ → Bool
  entry : κ → δ → γ → ε
  stamp : ε → γ
  valid : ε → Bool
  hit : ε → α
  answer : Option δ → α
  stamp_entry : ∀ k l g, stamp (entry k l g) = g
  hit_entry : ∀ k l g, stores l = true → hit (entry k l g) = answer (some l)

/-- Where a lookup stands: before its probe; before the load; before storing what it
loaded, which is version `version` of the row; or it has returned, or ended in an error. -/
inductive LookupState (δ α : Type)
  | probing
  | loading
  | storing (loaded : Option δ) (version : Nat)
  | returned (result : α)
  | failed

/-- How a lookup ends. -/
def LookupState.ended {δ α : Type} : Option α → LookupState δ α
  | some r => .returned r
  | none => .failed

/-- `since` is the version that was current at the last invalidation before it began. -/
structure Lookup (κ δ α : Type) where
  key : κ
  since : Nat
  state : LookupState δ α

/-- `table` has the versions of each row, oldest first, `invalidated` the number of them at
the last invalidation. -/
structure Cache (κ ρ δ ε α : Type) where
  table : κ → List (Option ρ)
  hash : Finmap fun _ : κ => ε
  invalidated : κ → Nat
  lookups : List (Lookup κ δ α)

inductive Step (κ ρ : Type)
  | change (k : κ) (row : Option ρ)
  | begin (k : κ)
  | advance (i : Nat) (loadOk : Bool)

/-- Version `n` of a row, if it exists then; before the first change it does not. -/
def versionAt {ρ : Type} (versions : List (Option ρ)) (n : Nat) : Option ρ :=
  ((versions.take n).getLast?).join

section
variable {κ ρ δ ε γ α : Type} (kind : Kind κ ρ δ ε γ α)

/-- What a lookup of `k` returns on a row. -/
def Kind.result (k : κ) (row : Option ρ) : α := kind.answer (row.bind (kind.load k))

namespace Cache

def setLookup (c : Cache κ ρ δ ε α) (i : Nat) (lk : Lookup κ δ α) (state : LookupState δ α) :
    Cache κ ρ δ ε α :=
  { c with lookups := c.lookups.set i { lk with state := state } }

/-- Entries are not touched. -/
def invalidate (c : Cache κ ρ δ ε α) : Cache κ ρ δ ε α :=
  { c with invalidated := fun k => (c.table k).length }

/-- Nothing in the table, the cache and in flight. -/
def empty : Cache κ ρ δ ε α := ⟨fun _ => [], ∅, fun _ => 0, []⟩

/-- The version of the row that a step is about to store. -/
def stores (c : Cache κ ρ δ ε α) : Step κ ρ → Option (κ × Nat)
  | .advance i _ => (c.lookups[i]?).bind fun lk =>
    match lk.state with
    | .storing loaded version => if loaded.any kind.stores then some (lk.key, version) else none
    | _ => none
  | _ => none

/-- What a step stores is not older than the last invalidation. -/
def StoresCurrent (c : Cache κ ρ δ ε α) (st : Step κ ρ) : Prop :=
  ∀ x ∈ c.stores kind st, c.invalidated x.1 ≤ x.2

instance (c : Cache κ ρ δ ε α) (st : Step κ ρ) : Decidable (c.StoresCurrent kind st) :=
  inferInstanceAs (Decidable (∀ x ∈ c.stores kind st, _))

end Cache

variable [DecidableEq κ] [DecidableEq γ]

/-- What a hit returns. -/
def Kind.probe (gen : γ) (hash : Finmap fun _ : κ => ε) (k : κ) : Option α :=
  match hash.lookup k with
  | some e => if kind.valid e = true ∧ kind.stamp e = gen then some (kind.hit e) else none
  | none => none

/-- Enters what was loaded; a full hash raises an error. -/
def Kind.enter (gen : γ) (hash : Finmap fun _ : κ => ε) (k : κ) (l : δ) :
    Option (Finmap fun _ : κ => ε) :=
  if k ∈ hash ∨ hash.keys.card < kind.capacity then some (hash.insert k (kind.entry k l gen)) else none

namespace Cache

/-- The next step of lookup number `i`.  Without a generation there is no cache. -/
def lookupStep (gen : Option γ) (loadOk : Bool) (i : Nat) (lk : Lookup κ δ α) (c : Cache κ ρ δ ε α) :
    Cache κ ρ δ ε α :=
  match lk.state with
  | .probing =>
    match gen.bind fun g => kind.probe g c.hash lk.key with
    | some r => c.setLookup i lk (.returned r)
    | none => c.setLookup i lk .loading
  | .loading =>
    if loadOk then
      c.setLookup i lk (.storing
        ((versionAt (c.table lk.key) (c.table lk.key).length).bind (kind.load lk.key))
        (c.table lk.key).length)
    else c.setLookup i lk .failed
  | .storing loaded _ =>
    match gen, loaded.filter kind.stores with
    | some g, some l =>
      match kind.enter g c.hash lk.key l with
      | some hash => { c.setLookup i lk (.returned (kind.answer loaded)) with hash := hash }
      | none => c.setLookup i lk .failed
    | _, _ => c.setLookup i lk (.returned (kind.answer loaded))
  | .returned _ => c
  | .failed => c

def step (gen : Option γ) (c : Cache κ ρ δ ε α) : Step κ ρ → Cache κ ρ δ ε α
  | .change k row => { c with table := Function.update c.table k (c.table k ++ [row]) }
  | .begin k => { c with lookups := c.lookups ++ [⟨k, c.invalidated k, .probing⟩] }
  | .advance i loadOk =>
    match c.lookups[i]? with
    | some lk => c.lookupStep kind gen loadOk i lk
    | none => c

/-- What a load of the row gives by now. -/
def fetch (c : Cache κ ρ δ ε α) (k : κ) : Option δ :=
  (versionAt (c.table k) (c.table k).length).bind (kind.load k)

/-- A lookup with no other step in between; it returns nothing when it raises an error. -/
def lookup (gen : Option γ) (loadOk : Bool) (k : κ) (c : Cache κ ρ δ ε α) : Option α × Cache κ ρ δ ε α :=
  match gen.bind fun g => kind.probe g c.hash k with
  | some r => (some r, c)
  | none =>
    if loadOk then
      match gen, (c.fetch kind k).filter kind.stores with
      | some g, some l =>
        match kind.enter g c.hash k l with
        | some hash => (some (kind.answer (c.fetch kind k)), { c with hash := hash })
        | none => (none, c)
      | _, _ => (some (kind.answer (c.fetch kind k)), c)
    else (none, c)

/-- What it returns, if it does not raise an error. -/
def answer (gen : Option γ) (c : Cache κ ρ δ ε α) (k : κ) : α :=
  match gen.bind fun g => kind.probe g c.hash k with
  | some r => r
  | none => kind.answer (c.fetch kind k)

end Cache

end

/-! ## What lookups return -/

section
variable {κ ρ δ ε γ α : Type} {kind : Kind κ ρ δ ε γ α}

/-- What the lookup has loaded or returned is from a version of its row that is not
older than the last invalidation before it began. -/
def Lookup.Sound (kind : Kind κ ρ δ ε γ α) (versions : List (Option ρ)) (lk : Lookup κ δ α) : Prop :=
  match lk.state with
  | .storing loaded n =>
    n ≤ versions.length ∧ lk.since ≤ n ∧ loaded = (versionAt versions n).bind (kind.load lk.key)
  | .returned r =>
    ∃ n, n ≤ versions.length ∧ lk.since ≤ n ∧ r = kind.result lk.key (versionAt versions n)
  | _ => True

def Lookup.returned? (lk : Lookup κ δ α) : Option α :=
  match lk.state with
  | .returned r => some r
  | _ => none

/-- The same, of what it has returned. -/
def Lookup.Fresh (kind : Kind κ ρ δ ε γ α) (versions : List (Option ρ)) (lk : Lookup κ δ α) : Prop :=
  ∀ r ∈ lk.returned?, ∃ n, n ≤ versions.length ∧
    (lk.since ≤ n ∧ r = kind.result lk.key (versionAt versions n))

instance [DecidableEq α] (versions : List (Option ρ)) (lk : Lookup κ δ α) :
    Decidable (lk.Fresh kind versions) :=
  inferInstanceAs (Decidable (∀ r ∈ lk.returned?, _))

theorem versionAt_append {versions new : List (Option ρ)} {n : Nat} (hn : n ≤ versions.length) :
    versionAt (versions ++ new) n = versionAt versions n := by
  rw [versionAt, List.take_append_of_le_length hn, versionAt]

theorem Lookup.Sound.fresh {versions : List (Option ρ)} {lk : Lookup κ δ α}
    (h : lk.Sound kind versions) : lk.Fresh kind versions := by
  intro r hr
  unfold Lookup.returned? at hr
  split at hr
  · next hst =>
    obtain rfl := Option.some.inj hr
    unfold Lookup.Sound at h
    rw [hst] at h
    exact h
  · cases hr

/-- Later versions change nothing. -/
theorem Lookup.Sound.append {versions : List (Option ρ)} {lk : Lookup κ δ α}
    (h : lk.Sound kind versions) (new : List (Option ρ)) : lk.Sound kind (versions ++ new) := by
  unfold Lookup.Sound at h ⊢
  split
  · next hst =>
    rw [hst] at h
    obtain ⟨hn, hsince, hl⟩ := h
    refine ⟨?_, hsince, by rw [versionAt_append hn]; exact hl⟩
    rw [List.length_append]
    omega
  · next hst =>
    rw [hst] at h
    obtain ⟨n, hn, hsince, hr⟩ := h
    refine ⟨n, ?_, hsince, by rw [versionAt_append hn]; exact hr⟩
    rw [List.length_append]
    omega
  · trivial

/-- An entry of a hash something was entered in is the new one or an old one. -/
theorem Kind.lookup_enter [DecidableEq κ] (kind : Kind κ ρ δ ε γ α) {g : γ} {hash hash' : Finmap fun _ : κ => ε}
    {k : κ} {l : δ} (henter : kind.enter g hash k l = some hash') :
    ∀ k' e, hash'.lookup k' = some e → (k' = k ∧ e = kind.entry k l g) ∨ hash.lookup k' = some e := by
  unfold Kind.enter at henter
  split at henter
  · obtain rfl := Option.some.inj henter
    intro k' e he
    by_cases hk : k' = k
    · subst hk
      rw [Finmap.lookup_insert] at he
      exact Or.inl ⟨rfl, (Option.some.inj he).symm⟩
    · rw [Finmap.lookup_insert_of_ne _ hk] at he
      exact Or.inr he
  · cases henter

namespace Cache

variable [DecidableEq κ] [Preorder γ]

/-- The invariant: an entry of the current generation comes from a version not older
than the last invalidation. -/
structure Inv (kind : Kind κ ρ δ ε γ α) (gen : Option γ) (c : Cache κ ρ δ ε α) : Prop where
  invalidated_le : ∀ k, c.invalidated k ≤ (c.table k).length
  stamps : ∀ g ∈ gen, ∀ k e, c.hash.lookup k = some e → kind.stamp e ≤ g
  entries : ∀ g ∈ gen, ∀ k e, c.hash.lookup k = some e → kind.stamp e = g →
    ∃ n, n ≤ (c.table k).length ∧ c.invalidated k ≤ n ∧
      kind.hit e = kind.result k (versionAt (c.table k) n)
  since_le : ∀ lk ∈ c.lookups, lk.since ≤ c.invalidated lk.key
  sound : ∀ lk ∈ c.lookups, lk.Sound kind (c.table lk.key)

variable {gen : Option γ} {c : Cache κ ρ δ ε α}

theorem inv_empty (kind : Kind κ ρ δ ε γ α) (gen : Option γ) : (empty : Cache κ ρ δ ε α).Inv kind gen :=
  ⟨fun _ => Nat.le_refl 0, (fun _ _ _ _ h => nomatch h), (fun _ _ _ _ h => nomatch h),
    (fun _ h => nomatch h), (fun _ h => nomatch h)⟩

theorem Inv.fresh (hc : c.Inv kind gen) : ∀ lk ∈ c.lookups, lk.Fresh kind (c.table lk.key) :=
  fun lk hlk => (hc.sound lk hlk).fresh

theorem Inv.setLookup (hc : c.Inv kind gen) {i : Nat} {lk : Lookup κ δ α} (hlk : lk ∈ c.lookups)
    {state : LookupState δ α} (hstate : ({ lk with state := state } : Lookup κ δ α).Sound kind (c.table lk.key)) :
    (c.setLookup i lk state).Inv kind gen := by
  refine ⟨hc.invalidated_le, hc.stamps, hc.entries, fun lk' h => ?_, fun lk' h => ?_⟩
  · rcases List.mem_or_eq_of_mem_set h with h | rfl
    · exact hc.since_le lk' h
    · exact hc.since_le lk hlk
  · rcases List.mem_or_eq_of_mem_set h with h | rfl
    · exact hc.sound lk' h
    · exact hstate

/-- An entry made of a version not older than the last invalidation. -/
theorem Inv.enter [DecidableEq γ] (hc : c.Inv kind gen) {g : γ} (hg : g ∈ gen) {k : κ} {l : δ} {n : Nat}
    {hash : Finmap fun _ : κ => ε} (hn : n ≤ (c.table k).length) (hinv : c.invalidated k ≤ n)
    (hl : some l = (versionAt (c.table k) n).bind (kind.load k)) (hst : kind.stores l = true)
    (henter : kind.enter g c.hash k l = some hash) : ({ c with hash := hash } : Cache κ ρ δ ε α).Inv kind gen := by
  have hcases := kind.lookup_enter henter
  refine ⟨hc.invalidated_le, fun g' hg' k' e he => ?_, fun g' hg' k' e he hstamp => ?_, hc.since_le, hc.sound⟩
  · rcases hcases k' e he with ⟨rfl, rfl⟩ | he
    · rw [kind.stamp_entry, Option.mem_unique hg hg']
    · exact hc.stamps g' hg' k' e he
  · rcases hcases k' e he with ⟨rfl, rfl⟩ | he
    · exact ⟨n, hn, hinv, by rw [kind.hit_entry _ _ _ hst, hl]; rfl⟩
    · exact hc.entries g' hg' k' e he hstamp

theorem Inv.change [DecidableEq γ] (hc : c.Inv kind gen) (k : κ) (row : Option ρ) :
    (c.step kind gen (.change k row)).Inv kind gen := by
  have htable : ∀ k', ∃ new, (c.step kind gen (.change k row)).table k' = c.table k' ++ new := by
    intro k'
    by_cases hk : k' = k
    · subst hk
      exact ⟨[row], Function.update_self ..⟩
    · exact ⟨[], by rw [List.append_nil]; exact Function.update_of_ne hk ..⟩
  have hlen : ∀ k', (c.table k').length ≤ ((c.step kind gen (.change k row)).table k').length := by
    intro k'
    obtain ⟨new, hnew⟩ := htable k'
    rw [hnew, List.length_append]
    exact Nat.le_add_right _ _
  refine ⟨fun k' => (hc.invalidated_le k').trans (hlen k'), hc.stamps, fun g hg k' e he hstamp => ?_,
    hc.since_le, fun lk hlk => ?_⟩
  · obtain ⟨n, hn, hinv, hhit⟩ := hc.entries g hg k' e he hstamp
    refine ⟨n, hn.trans (hlen k'), hinv, ?_⟩
    obtain ⟨new, hnew⟩ := htable k'
    rw [hnew, versionAt_append hn]
    exact hhit
  · obtain ⟨new, hnew⟩ := htable lk.key
    rw [hnew]
    exact (hc.sound lk hlk).append new

theorem Inv.lookupStep [DecidableEq γ] (hc : c.Inv kind gen) {i : Nat} {lk : Lookup κ δ α}
    (hi : c.lookups[i]? = some lk)
    {loadOk : Bool} (hcur : c.StoresCurrent kind (.advance i loadOk)) :
    (c.lookupStep kind gen loadOk i lk).Inv kind gen := by
  have hlk := List.mem_of_getElem? hi
  have hsince := hc.since_le lk hlk
  have hsound := hc.sound lk hlk
  unfold Cache.lookupStep
  unfold Lookup.Sound at hsound
  split
  · split
    · next r hr =>
      obtain ⟨g, hg, hprobe⟩ := Option.bind_eq_some_iff.mp hr
      unfold Kind.probe at hprobe
      split at hprobe
      · next e he =>
        split at hprobe
        · next hvalid =>
          obtain rfl := Option.some.inj hprobe
          obtain ⟨n, hn, hinv, hhit⟩ := hc.entries g hg lk.key e he hvalid.2
          exact hc.setLookup hlk ⟨n, hn, hsince.trans hinv, hhit⟩
        · cases hprobe
      · cases hprobe
    · exact hc.setLookup hlk trivial
  · split
    · exact hc.setLookup hlk ⟨Nat.le_refl _, hsince.trans (hc.invalidated_le _), rfl⟩
    · exact hc.setLookup hlk trivial
  · next loaded n hst =>
    rw [hst] at hsound
    obtain ⟨hn, hle, hloaded⟩ := hsound
    have hret : (c.setLookup i lk (.returned (kind.answer loaded))).Inv kind gen :=
      hc.setLookup hlk ⟨n, hn, hle, by rw [hloaded]; rfl⟩
    split
    · next g l hl =>
      obtain ⟨rfl, hstores⟩ := Option.filter_eq_some_iff.mp hl
      have hcur : c.invalidated lk.key ≤ n :=
        hcur (lk.key, n) (by simp [Cache.stores, hi, hst, hstores])
      split
      · next hash henter =>
        exact hret.enter rfl hn hcur hloaded hstores henter
      · exact hc.setLookup hlk trivial
    · exact hret
  · exact hc
  · exact hc

/-- A step that stores nothing older than the last invalidation. -/
theorem Inv.step [DecidableEq γ] (hc : c.Inv kind gen) {st : Step κ ρ} (hcur : c.StoresCurrent kind st) :
    (c.step kind gen st).Inv kind gen := by
  cases st with
  | change k row => exact hc.change k row
  | begin k =>
    refine ⟨hc.invalidated_le, hc.stamps, hc.entries, fun lk hlk => ?_, fun lk hlk => ?_⟩
    · rcases List.mem_append.mp hlk with hlk | hlk
      · exact hc.since_le lk hlk
      · obtain rfl := List.mem_singleton.mp hlk
        exact Nat.le_refl _
    · rcases List.mem_append.mp hlk with hlk | hlk
      · exact hc.sound lk hlk
      · obtain rfl := List.mem_singleton.mp hlk
        trivial
  | advance i loadOk =>
    simp only [Cache.step]
    cases hi : c.lookups[i]? with
    | some lk => exact hc.lookupStep hi hcur
    | none => exact hc

/-- No entry is of the new generation. -/
theorem Inv.invalidate (hc : c.Inv kind gen) {gen' : Option γ}
    (hgen : ∀ g' ∈ gen', ∃ g ∈ gen, g < g') : c.invalidate.Inv kind gen' := by
  refine ⟨fun k => Nat.le_refl _, fun g' hg' k e he => ?_, fun g' hg' k e he hstamp => ?_,
    fun lk hlk => (hc.since_le lk hlk).trans (hc.invalidated_le _), hc.sound⟩
  · obtain ⟨g, hg, hlt⟩ := hgen g' hg'
    exact (hc.stamps g hg k e he).trans hlt.le
  · obtain ⟨g, hg, hlt⟩ := hgen g' hg'
    exact absurd hstamp ((hc.stamps g hg k e he).trans_lt hlt).ne

end Cache

end

/-! ## Whole lookups -/

section
variable {κ ρ δ ε γ α : Type} [DecidableEq κ] [DecidableEq γ] {kind : Kind κ ρ δ ε γ α}
variable {gen : Option γ} {c : Cache κ ρ δ ε α}

theorem Kind.probe_enter {g : γ} {hash hash' : Finmap fun _ : κ => ε} {k : κ} {l : δ}
    (hvalid : kind.valid (kind.entry k l g) = true) (henter : kind.enter g hash k l = some hash') (k' : κ) :
    kind.probe g hash' k' = if k' = k then some (kind.hit (kind.entry k l g)) else kind.probe g hash k' := by
  unfold Kind.enter at henter
  split at henter
  · obtain rfl := Option.some.inj henter
    by_cases hk : k' = k
    · subst hk
      rw [if_pos rfl, Kind.probe, Finmap.lookup_insert]
      exact if_pos ⟨hvalid, kind.stamp_entry k' l g⟩
    · rw [if_neg hk, Kind.probe, Finmap.lookup_insert_of_ne _ hk, Kind.probe]
  · cases henter

namespace Cache

/-- What a lookup does to the hash: nothing, or it enters what it has loaded. -/
theorem lookup_cases (kind : Kind κ ρ δ ε γ α) (gen : Option γ) (c : Cache κ ρ δ ε α) (loadOk : Bool) (k : κ) :
    (c.lookup kind gen loadOk k).2 = c ∨ ∃ g ∈ gen, ∃ l hash, kind.probe g c.hash k = none ∧
      c.fetch kind k = some l ∧ kind.stores l = true ∧
      kind.enter g c.hash k l = some hash ∧ (c.lookup kind gen loadOk k).2 = { c with hash := hash } := by
  unfold lookup
  split
  · exact Or.inl rfl
  · next hprobe =>
    split
    · split
      · next g l hl =>
        obtain ⟨hloaded, hstores⟩ := Option.filter_eq_some_iff.mp hl
        split
        · next hash henter => exact Or.inr ⟨g, rfl, l, hash, hprobe, hloaded, hstores, henter, rfl⟩
        · exact Or.inl rfl
      · exact Or.inl rfl
    · exact Or.inl rfl

theorem lookup_answer {loadOk : Bool} {k : κ} {r : α} (h : (c.lookup kind gen loadOk k).1 = some r) :
    r = c.answer kind gen k := by
  unfold answer
  unfold lookup at h
  cases hprobe : gen.bind fun g => kind.probe g c.hash k with
  | some r' =>
    rw [hprobe] at h
    exact (Option.some.inj h).symm
  | none =>
    rw [hprobe] at h
    simp only at h
    split at h
    · split at h
      · split at h
        · exact (Option.some.inj h).symm
        · cases h
      · exact (Option.some.inj h).symm
    · cases h

/-- Lookups change no answer. -/
theorem answer_lookup (hvalid : ∀ k l g, kind.valid (kind.entry k l g) = true) (loadOk : Bool) (k k' : κ) :
    (c.lookup kind gen loadOk k).2.answer kind gen k' = c.answer kind gen k' := by
  obtain heq | ⟨g, hg, l, hash, hprobe, hl, hstores, henter, heq⟩ := lookup_cases kind gen c loadOk k
  · rw [heq]
  · obtain rfl := hg
    rw [heq]
    unfold answer
    simp only [Option.bind_some, Kind.probe_enter (hvalid k l g) henter]
    by_cases hk : k' = k
    · subst hk
      rw [if_pos rfl, hprobe, kind.hit_entry _ _ _ hstores, hl]
    · rw [if_neg hk]
      rfl

/-- The lookup just begun, in its state. -/
def withLookup (c : Cache κ ρ δ ε α) (k : κ) (state : LookupState δ α) : Cache κ ρ δ ε α :=
  { c with lookups := c.lookups ++ [⟨k, c.invalidated k, state⟩] }

theorem step_withLookup (k : κ) (state : LookupState δ α) (loadOk : Bool) :
    (c.withLookup k state).step kind gen (.advance c.lookups.length loadOk) =
      (c.withLookup k state).lookupStep kind gen loadOk c.lookups.length ⟨k, c.invalidated k, state⟩ := by
  have hi : (c.withLookup k state).lookups[c.lookups.length]? = some ⟨k, c.invalidated k, state⟩ :=
    List.getElem?_concat_length ..
  simp only [step, hi]

omit [DecidableEq κ] in
theorem setLookup_withLookup (k : κ) (state state' : LookupState δ α) :
    (c.withLookup k state).setLookup c.lookups.length ⟨k, c.invalidated k, state⟩ state' =
      c.withLookup k state' := by
  simp [withLookup, setLookup]

/-- A whole lookup is a lookup begun and advanced to its end. -/
theorem lookup_steps (loadOk : Bool) (k : κ) :
    [Step.begin k, .advance c.lookups.length loadOk, .advance c.lookups.length loadOk,
        .advance c.lookups.length loadOk].foldl (step kind gen) c =
      (c.lookup kind gen loadOk k).2.withLookup k (.ended (c.lookup kind gen loadOk k).1) := by
  have hbegin : c.step kind gen (.begin k) = c.withLookup k .probing := rfl
  simp only [List.foldl_cons, List.foldl_nil, hbegin, step_withLookup]
  unfold lookup
  cases hprobe : gen.bind fun g => kind.probe g c.hash k with
  | some r =>
    have hhit : (c.withLookup k .probing).lookupStep kind gen loadOk c.lookups.length
        ⟨k, c.invalidated k, .probing⟩ = c.withLookup k (.returned r) := by
      rw [lookupStep]
      simp only [withLookup, hprobe]
      exact setLookup_withLookup k .probing (.returned r)
    rw [hhit, step_withLookup, lookupStep, step_withLookup, lookupStep]
    rfl
  | none =>
    have hmiss : (c.withLookup k .probing).lookupStep kind gen loadOk c.lookups.length
        ⟨k, c.invalidated k, .probing⟩ = c.withLookup k .loading := by
      rw [lookupStep]
      simp only [withLookup, hprobe]
      exact setLookup_withLookup k .probing .loading
    rw [hmiss, step_withLookup]
    cases loadOk with
    | false =>
      have hfail : (c.withLookup k .loading).lookupStep kind gen false c.lookups.length
          ⟨k, c.invalidated k, .loading⟩ = c.withLookup k .failed :=
        setLookup_withLookup k .loading .failed
      rw [hfail, step_withLookup, lookupStep]
      rfl
    | true =>
      have hload : (c.withLookup k .loading).lookupStep kind gen true c.lookups.length
          ⟨k, c.invalidated k, .loading⟩ =
            c.withLookup k (.storing (c.fetch kind k) (c.table k).length) :=
        setLookup_withLookup k .loading _
      rw [hload, step_withLookup, lookupStep]
      have hhash : (c.withLookup k (.storing (c.fetch kind k) (c.table k).length)).hash = c.hash := rfl
      simp only [hhash, if_true]
      split
      · split
        · rw [setLookup_withLookup]
          rfl
        · exact setLookup_withLookup k _ .failed
      · exact setLookup_withLookup k _ _

end Cache

end

/-! ## One lookup at a time -/

section
variable {κ ρ δ ε γ α : Type} [DecidableEq κ] [DecidableEq γ] {kind : Kind κ ρ δ ε γ α}
variable {gen : Option γ} {c : Cache κ ρ δ ε α}

namespace Cache

/-- The table by now. -/
def rows (c : Cache κ ρ δ ε α) (k : κ) : Option ρ := versionAt (c.table k) (c.table k).length

/-- What a hit returns is what a load gives by now. -/
def Coherent (kind : Kind κ ρ δ ε γ α) (gen : Option γ) (c : Cache κ ρ δ ε α) : Prop :=
  ∀ g ∈ gen, ∀ k r, kind.probe g c.hash k = some r → r = kind.answer (c.fetch kind k)

/-- The key that a lookup of `k` has in the hash in the end. -/
def loaded (kind : Kind κ ρ δ ε γ α) (c : Cache κ ρ δ ε α) (k : κ) : Finset κ :=
  if (c.fetch kind k).any kind.stores then {k} else ∅

/-- What a lookup of `k` loads can be stored. -/
def RoomFor (kind : Kind κ ρ δ ε γ α) (gen : Option γ) (c : Cache κ ρ δ ε α) (k : κ) : Prop :=
  gen.isSome = true → (c.fetch kind k).any kind.stores = true → FixedHash.Place kind.capacity c.hash k

/-- What a lookup leaves, if there is one. -/
def lookedUp (kind : Kind κ ρ δ ε γ α) (gen : Option γ) (c : Cache κ ρ δ ε α) : Option κ → Cache κ ρ δ ε α
  | some k => (c.lookup kind gen true k).2
  | none => c

/-- The keys and the stamps of all entries are among these. -/
def Within (kind : Kind κ ρ δ ε γ α) (keys : Finset κ) (stamps : Set γ) (c : Cache κ ρ δ ε α) : Prop :=
  ∀ k e, c.hash.lookup k = some e → k ∈ keys ∧ kind.stamp e ∈ stamps

end Cache

omit [DecidableEq κ] [DecidableEq γ] in
theorem Kind.not_stored (kind : Kind κ ρ δ ε γ α) {loaded : Option δ} (h : loaded.filter kind.stores = none) :
    loaded.any kind.stores = false := by
  rw [Option.any_eq_false]
  intro l hl
  exact Bool.eq_false_iff.mpr (Option.filter_eq_none_iff.mp h l hl)

omit [DecidableEq γ] in
theorem Kind.enter_of_room {g : γ} {hash : Finmap fun _ : κ => ε} {k : κ} {l : δ}
    (h : FixedHash.Place kind.capacity hash k) :
    kind.enter g hash k l = some (hash.insert k (kind.entry k l g)) := if_pos h

theorem Kind.mem_of_probe {g : γ} {hash : Finmap fun _ : κ => ε} {k : κ} {r : α}
    (h : kind.probe g hash k = some r) : k ∈ hash := by
  unfold Kind.probe at h
  split at h
  · next he => exact Finmap.mem_of_lookup_eq_some he
  · cases h

namespace Cache

@[simp] theorem lookup_table (loadOk : Bool) (k : κ) : (c.lookup kind gen loadOk k).2.table = c.table := by
  obtain heq | ⟨_, _, _, _, _, _, _, _, heq⟩ := lookup_cases kind gen c loadOk k <;> rw [heq]

@[simp] theorem lookup_fetch (loadOk : Bool) (k k' : κ) :
    (c.lookup kind gen loadOk k).2.fetch kind k' = c.fetch kind k' := by
  rw [fetch, fetch, lookup_table]

/-- Of a coherent cache a lookup whose load succeeds returns what the load gives, if and
only if that can be stored. -/
theorem Coherent.lookup_iff (hc : c.Coherent kind gen) (k : κ) :
    (c.lookup kind gen true k).1 = some (kind.answer (c.fetch kind k)) ↔ c.RoomFor kind gen k := by
  unfold lookup RoomFor
  cases hgen : gen with
  | none => simp
  | some g =>
    simp only [Option.bind_some, Option.isSome_some, true_imp_iff, if_true]
    cases hprobe : kind.probe g c.hash k with
    | some r =>
      have hr : r = kind.answer (c.fetch kind k) := hc g hgen k r hprobe
      exact ⟨fun _ _ => Or.inl (Kind.mem_of_probe hprobe), fun _ => by rw [hr]⟩
    | none =>
      cases hl : (c.fetch kind k).filter kind.stores with
      | none =>
        simp [kind.not_stored hl]
      | some l =>
        obtain ⟨hfetch, hstores⟩ := Option.filter_eq_some_iff.mp hl
        have hany : (c.fetch kind k).any kind.stores = true := by rw [hfetch]; exact hstores
        rw [hany]
        by_cases hroom : FixedHash.Place kind.capacity c.hash k
        · simp [Kind.enter_of_room hroom, hroom]
        · have hfull : kind.enter g c.hash k l = none := if_neg hroom
          simp [hfull, hroom]

theorem Coherent.answer_eq (hc : c.Coherent kind gen) (k : κ) :
    c.answer kind gen k = kind.answer (c.fetch kind k) := by
  unfold answer
  split
  · next r h =>
    obtain ⟨g, hg, hprobe⟩ := Option.bind_eq_some_iff.mp h
    exact hc g hg k r hprobe
  · rfl

theorem Coherent.lookup_full (hc : c.Coherent kind gen) {k : κ} (hroom : ¬ c.RoomFor kind gen k) :
    (c.lookup kind gen true k).1 = none := by
  cases h : (c.lookup kind gen true k).1 with
  | none => rfl
  | some r =>
    have hr : r = kind.answer (c.fetch kind k) := (lookup_answer h).trans (hc.answer_eq k)
    exact absurd ((hc.lookup_iff k).mp (by rw [h, hr])) hroom

/-- Lookups keep a cache coherent. -/
theorem Coherent.lookup (hvalid : ∀ k l g, kind.valid (kind.entry k l g) = true) (hc : c.Coherent kind gen)
    (loadOk : Bool) (k : κ) : (c.lookup kind gen loadOk k).2.Coherent kind gen := by
  intro g hg k' r hprobe
  have hanswer : (c.lookup kind gen loadOk k).2.answer kind gen k' = r := by
    obtain rfl := hg
    rw [answer, Option.bind_some, hprobe]
  rw [lookup_fetch, ← hanswer, answer_lookup hvalid loadOk k k', hc.answer_eq]

theorem Coherent.lookedUp (hvalid : ∀ k l g, kind.valid (kind.entry k l g) = true) (hc : c.Coherent kind gen)
    (k? : Option κ) : (c.lookedUp kind gen k?).Coherent kind gen := by
  cases k? with
  | some k => exact hc.lookup hvalid true k
  | none => exact hc

@[simp] theorem lookedUp_table (k? : Option κ) : (c.lookedUp kind gen k?).table = c.table := by
  cases k? with
  | some k => exact lookup_table true k
  | none => rfl

@[simp] theorem lookedUp_rows (k? : Option κ) : (c.lookedUp kind gen k?).rows = c.rows := by
  unfold rows
  rw [lookedUp_table]

theorem rows_change (k : κ) (row : Option ρ) :
    (c.step kind gen (.change k row)).rows = Function.update c.rows k row := by
  funext k'
  simp only [rows, step]
  by_cases hk : k' = k
  · subst hk
    rw [Function.update_self, Function.update_self, versionAt, List.take_length, List.getLast?_append]
    rfl
  · rw [Function.update_of_ne hk, Function.update_of_ne hk, rows]

/-- An entry after a lookup is an old one, or of what was loaded and of the generation. -/
theorem lookup_hash {loadOk : Bool} {k k' : κ} {e : ε}
    (h : (c.lookup kind gen loadOk k).2.hash.lookup k' = some e) :
    c.hash.lookup k' = some e ∨ (k' ∈ c.loaded kind k ∧ kind.stamp e ∈ gen) := by
  obtain heq | ⟨g, hg, l, hash, -, hfetch, hstores, henter, heq⟩ := lookup_cases kind gen c loadOk k
  · rw [heq] at h
    exact Or.inl h
  · rw [heq] at h
    rcases kind.lookup_enter henter k' e h with ⟨rfl, rfl⟩ | h
    · refine Or.inr ⟨?_, by rw [kind.stamp_entry]; exact hg⟩
      rw [loaded, hfetch, Option.any_some, if_pos hstores]
      exact Finset.mem_singleton_self k'
    · exact Or.inl h

theorem keys_lookup {g : γ} {k : κ} (hroom : c.RoomFor kind (some g) k) :
    (c.lookup kind (some g) true k).2.hash.keys = c.hash.keys ∪ c.loaded kind k := by
  unfold lookup loaded
  simp only [Option.bind_some, if_true]
  cases hprobe : kind.probe g c.hash k with
  | some r =>
    have hk : k ∈ c.hash.keys := Finmap.mem_keys.mpr (Kind.mem_of_probe hprobe)
    have hsub : (if (c.fetch kind k).any kind.stores then {k} else ∅) ⊆ c.hash.keys := by
      split
      · exact Finset.singleton_subset_iff.mpr hk
      · exact Finset.empty_subset _
    exact (Finset.union_eq_left.mpr hsub).symm
  | none =>
    cases hl : (c.fetch kind k).filter kind.stores with
    | none =>
      simp [kind.not_stored hl]
    | some l =>
      obtain ⟨hfetch, hstores⟩ := Option.filter_eq_some_iff.mp hl
      have hany : (c.fetch kind k).any kind.stores = true := by rw [hfetch]; exact hstores
      have hin : FixedHash.Place kind.capacity c.hash k := hroom rfl hany
      simp only [Kind.enter_of_room hin, hany, if_true]
      exact FixedHash.keys_insert ..

omit [DecidableEq γ] in
/-- While there are no more keys than fit, there is room if and only if they still fit with the
key of the lookup. -/
theorem roomFor_iff {g : γ} {k : κ} (hfits : c.hash.keys.card ≤ kind.capacity) :
    c.RoomFor kind (some g) k ↔ (c.hash.keys ∪ c.loaded kind k).card ≤ kind.capacity := by
  unfold RoomFor loaded
  cases (c.fetch kind k).any kind.stores with
  | false => simpa using hfits
  | true =>
    simp only [Option.isSome_some, true_imp_iff, if_true]
    exact FixedHash.place_iff hfits

/-! ## The entries a run of lookups leaves -/

variable {keys : Finset κ} {stamps : Set γ}

omit [DecidableEq γ] in
theorem within_empty (h : c.hash = ∅) : c.Within kind keys stamps := by
  intro k e he
  rw [h, Finmap.lookup_empty] at he
  cases he

omit [DecidableEq γ] in
theorem Within.mono {stamps' : Set γ} (h : c.Within kind keys stamps) (hsub : stamps ⊆ stamps') :
    c.Within kind keys stamps' :=
  fun k e he => ⟨(h k e he).1, hsub (h k e he).2⟩

theorem Within.lookup (h : c.Within kind keys stamps) (hgen : ∀ g ∈ gen, g ∈ stamps) {k : κ}
    (hk : c.loaded kind k ⊆ keys) (loadOk : Bool) : (c.lookup kind gen loadOk k).2.Within kind keys stamps := by
  intro k' e he
  rcases lookup_hash he with he | ⟨hloaded, hstamp⟩
  · exact h k' e he
  · exact ⟨hk hloaded, hgen _ hstamp⟩

theorem Within.lookedUp (h : c.Within kind keys stamps) (hgen : ∀ g ∈ gen, g ∈ stamps) {k? : Option κ}
    (hk : ∀ k ∈ k?, c.loaded kind k ⊆ keys) : (c.lookedUp kind gen k?).Within kind keys stamps := by
  cases k? with
  | some k => exact h.lookup hgen (hk k rfl) true
  | none => exact h

omit [DecidableEq γ] in
/-- As many keys as fit leave room for each of them. -/
theorem Within.roomFor (h : c.Within kind keys stamps) (hfits : keys.card ≤ kind.capacity) {k : κ}
    (hk : c.loaded kind k ⊆ keys) : c.RoomFor kind gen k := by
  intro _ hstores
  rw [loaded, if_pos hstores, Finset.singleton_subset_iff] at hk
  by_cases hin : k ∈ c.hash
  · exact Or.inl hin
  · have hsub : c.hash.keys ⊂ keys := by
      rw [Finset.ssubset_iff_of_subset]
      · exact ⟨k, hk, by rwa [Finmap.mem_keys]⟩
      · intro k' hk'
        obtain ⟨e, he⟩ := Finmap.mem_iff.mp (Finmap.mem_keys.mp hk')
        exact (h k' e he).1
    exact Or.inr (lt_of_lt_of_le (Finset.card_lt_card hsub) hfits)

/-- No entry is of a generation that has not been current. -/
theorem Within.coherent (h : c.Within kind keys stamps) (hgen : ∀ g ∈ gen, g ∉ stamps) : c.Coherent kind gen := by
  intro g hg k r hprobe
  unfold Kind.probe at hprobe
  split at hprobe
  · next e he =>
    split at hprobe
    · next hvalid => exact absurd (hvalid.2 ▸ (h k e he).2) (hgen g hg)
    · cases hprobe
  · cases hprobe

end Cache

end

/-! ## A row that does not change -/

section
variable {κ ρ δ ε γ α : Type} [DecidableEq κ] {kind : Kind κ ρ δ ε γ α}
variable {gen : Option γ} {c : Cache κ ρ δ ε α} {k : κ} {l : δ}

/-- Not a change of the row of `k`. -/
def Step.Spares (k : κ) : Step κ ρ → Prop
  | .change k' _ => k' ≠ k
  | .begin _ => True
  | .advance _ _ => True

namespace Cache

/-- A load of the row gives `l`, and so it did whenever the row was loaded. -/
structure Steady (kind : Kind κ ρ δ ε γ α) (k : κ) (l : δ) (c : Cache κ ρ δ ε α) : Prop where
  fetch : c.fetch kind k = some l
  entry : ∀ e, c.hash.lookup k = some e → ∃ g, e = kind.entry k l g
  storing : ∀ lk ∈ c.lookups, lk.key = k → ∀ loaded n, lk.state = .storing loaded n → loaded = some l

theorem Steady.setLookup (h : c.Steady kind k l) {i : Nat} {lk : Lookup κ δ α} {state : LookupState δ α}
    (hstate : lk.key = k → ∀ loaded n, state = .storing loaded n → loaded = some l) :
    (c.setLookup i lk state).Steady kind k l := by
  refine ⟨h.fetch, h.entry, fun lk' hlk' hkey loaded n hst => ?_⟩
  rcases List.mem_or_eq_of_mem_set hlk' with hlk' | rfl
  · exact h.storing lk' hlk' hkey loaded n hst
  · exact hstate hkey loaded n hst

theorem Steady.enter (h : c.Steady kind k l) {g : γ} {k' : κ} {l' : δ} {hash : Finmap fun _ : κ => ε}
    (hl : k' = k → l' = l) (henter : kind.enter g c.hash k' l' = some hash) :
    ({ c with hash := hash } : Cache κ ρ δ ε α).Steady kind k l := by
  refine ⟨h.fetch, fun e he => ?_, h.storing⟩
  rcases kind.lookup_enter henter k e he with ⟨hk, rfl⟩ | he
  · rw [hl hk.symm, ← hk]
    exact ⟨g, rfl⟩
  · exact h.entry e he

theorem Steady.invalidate (h : c.Steady kind k l) : c.invalidate.Steady kind k l := ⟨h.fetch, h.entry, h.storing⟩

variable [DecidableEq γ]

theorem Steady.lookupStep (h : c.Steady kind k l) {i : Nat} {lk : Lookup κ δ α} (hi : c.lookups[i]? = some lk)
    (loadOk : Bool) : (c.lookupStep kind gen loadOk i lk).Steady kind k l := by
  have hlk := List.mem_of_getElem? hi
  -- only a load leads to a state that stores
  have hplain : ∀ state : LookupState δ α, (∀ loaded n, state ≠ .storing loaded n) →
      (c.setLookup i lk state).Steady kind k l :=
    fun state hne => h.setLookup fun _ loaded n hst => absurd hst (hne loaded n)
  unfold Cache.lookupStep
  split
  · split
    · exact hplain _ (fun _ _ hst => by cases hst)
    · exact hplain _ (fun _ _ hst => by cases hst)
  · split
    · refine h.setLookup fun hkey loaded n hst => ?_
      cases hst
      rw [hkey]
      exact h.fetch
    · exact hplain _ (fun _ _ hst => by cases hst)
  · next loaded n hst =>
    split
    · next g l' hl' =>
      obtain ⟨rfl, -⟩ := Option.filter_eq_some_iff.mp hl'
      split
      · next hash henter =>
        have hret := hplain (.returned (kind.answer (some l'))) (fun _ _ hst => by cases hst)
        exact hret.enter (fun hk => Option.some.inj (h.storing lk hlk hk _ n hst)) henter
      · exact hplain _ (fun _ _ hst => by cases hst)
    · exact hplain _ (fun _ _ hst => by cases hst)
  · exact h
  · exact h

/-- Every step but a change of the row. -/
theorem Steady.step (h : c.Steady kind k l) {st : Step κ ρ} (hst : st.Spares k) :
    (c.step kind gen st).Steady kind k l := by
  cases st with
  | change k' row =>
    have htable : (c.step kind gen (.change k' row)).table k = c.table k := Function.update_of_ne (Ne.symm hst) _ _
    refine ⟨?_, h.entry, h.storing⟩
    rw [Cache.fetch, htable]
    exact h.fetch
  | begin k' =>
    refine ⟨h.fetch, h.entry, fun lk hlk hkey loaded n hst => ?_⟩
    rcases List.mem_append.mp hlk with hlk | hlk
    · exact h.storing lk hlk hkey loaded n hst
    · obtain rfl := List.mem_singleton.mp hlk
      cases hst
  | advance i loadOk =>
    simp only [Cache.step]
    cases hi : c.lookups[i]? with
    | some lk => exact h.lookupStep hi loadOk
    | none => exact h

/-- After a lookup that finds room the entry is of the generation; otherwise the lookup ends in
an error. -/
theorem Steady.lookup (h : c.Steady kind k l) (hstores : kind.stores l = true) (g : γ) :
    (c.RoomFor kind (some g) k → (c.lookup kind (some g) true k).1 = some (kind.answer (some l)) ∧
      (c.lookup kind (some g) true k).2.hash.lookup k = some (kind.entry k l g)) ∧
    (¬ c.RoomFor kind (some g) k → (c.lookup kind (some g) true k).1 = none) := by
  have hroom : c.RoomFor kind (some g) k ↔ FixedHash.Place kind.capacity c.hash k := by
    unfold RoomFor
    rw [h.fetch, Option.any_some, hstores]
    exact ⟨fun hr => hr rfl rfl, fun hr _ _ => hr⟩
  rw [hroom]
  unfold Cache.lookup
  simp only [Option.bind_some, if_true, h.fetch]
  cases hprobe : kind.probe g c.hash k with
  | some r =>
    have hin := Kind.mem_of_probe hprobe
    unfold Kind.probe at hprobe
    split at hprobe
    · next e he =>
      split at hprobe
      · next hvalid =>
        obtain rfl := Option.some.inj hprobe
        obtain ⟨g', rfl⟩ := h.entry e he
        have hg : g' = g := (kind.stamp_entry k l g').symm.trans hvalid.2
        subst hg
        refine ⟨fun _ => ⟨?_, he⟩, fun hfull => absurd (Or.inl hin) hfull⟩
        rw [kind.hit_entry _ _ _ hstores]
      · cases hprobe
    · cases hprobe
  | none =>
    have hfilter : (some l).filter kind.stores = some l := Option.filter_eq_some_iff.mpr ⟨rfl, hstores⟩
    simp only [hfilter]
    constructor
    · intro hplace
      simp only [Kind.enter_of_room hplace, true_and]
      exact Finmap.lookup_insert _
    · intro hfull
      have hnone : kind.enter g c.hash k l = none := if_neg hfull
      simp only [hnone]

end Cache

end

/-! ## Keys that were found -/

section
variable {κ ρ δ ε γ α : Type} {kind : Kind κ ρ δ ε γ α} {found : α → Prop}
variable {gen : Option γ} {c : Cache κ ρ δ ε α} {k : κ}

namespace Cache

/-- A lookup of `k` has returned a value that counts as found. -/
def FoundBy (found : α → Prop) (c : Cache κ ρ δ ε α) (k : κ) : Prop :=
  ∃ lk ∈ c.lookups, lk.key = k ∧ ∃ r ∈ lk.returned?, found r

instance [DecidableEq κ] [DecidablePred found] (c : Cache κ ρ δ ε α) (k : κ) : Decidable (c.FoundBy found k) :=
  inferInstanceAs (Decidable (∃ lk ∈ c.lookups, lk.key = k ∧ ∃ r ∈ lk.returned?, found r))

/-- One more lookup has returned, or is on its way. -/
theorem foundBy_setLookup {i : Nat} {lk : Lookup κ δ α} (hi : c.lookups[i]? = some lk) (hlk : lk.returned? = none)
    (state : LookupState δ α) : (c.setLookup i lk state).FoundBy found k ↔
      c.FoundBy found k ∨ lk.key = k ∧ ∃ r ∈ ({ lk with state := state } : Lookup κ δ α).returned?, found r := by
  obtain ⟨hlt, -⟩ := List.getElem?_eq_some_iff.mp hi
  constructor
  · rintro ⟨lk', hlk', hkey, hr⟩
    rcases List.mem_or_eq_of_mem_set hlk' with hlk' | rfl
    · exact Or.inl ⟨lk', hlk', hkey, hr⟩
    · exact Or.inr ⟨hkey, hr⟩
  · rintro (⟨lk', hlk', hkey, r, hr, hfound⟩ | ⟨hkey, hr⟩)
    · obtain ⟨j, hj⟩ := List.mem_iff_getElem?.mp hlk'
      have hne : i ≠ j := by
        rintro rfl
        obtain rfl := Option.some.inj (hi.symm.trans hj)
        rw [hlk] at hr
        cases hr
      refine ⟨lk', List.mem_iff_getElem?.mpr ⟨j, ?_⟩, hkey, r, hr, hfound⟩
      exact (List.getElem?_set_ne hne).trans hj
    · exact ⟨_, List.mem_iff_getElem?.mpr ⟨i, List.getElem?_set_self hlt⟩, hkey, hr⟩

variable [DecidableEq κ]

/-- The hash has the keys that lookups have found, and a hit counts as found. -/
structure Holding (kind : Kind κ ρ δ ε γ α) (found : α → Prop) (c : Cache κ ρ δ ε α) : Prop where
  mem_iff : ∀ k, k ∈ c.hash ↔ c.FoundBy found k
  hits : ∀ k e, c.hash.lookup k = some e → found (kind.hit e)

theorem holding_empty (hhash : c.hash = ∅) (hlookups : c.lookups = []) : c.Holding kind found := by
  refine ⟨fun k => ⟨fun hk => ?_, fun ⟨lk, hlk, _⟩ => ?_⟩, fun k e he => ?_⟩
  · rw [hhash] at hk
    exact absurd hk Finmap.notMem_empty
  · rw [hlookups] at hlk
    cases hlk
  · rw [hhash, Finmap.lookup_empty] at he
    cases he

/-- A lookup goes on without having found anything new. -/
theorem Holding.setLookup (h : c.Holding kind found) {i : Nat} {lk : Lookup κ δ α} (hi : c.lookups[i]? = some lk)
    (hlk : lk.returned? = none) {state : LookupState δ α}
    (hstate : ∀ r ∈ ({ lk with state := state } : Lookup κ δ α).returned?, found r → lk.key ∈ c.hash) :
    (c.setLookup i lk state).Holding kind found := by
  refine ⟨fun k => ?_, h.hits⟩
  rw [foundBy_setLookup hi hlk, ← h.mem_iff]
  constructor
  · exact Or.inl
  · rintro (hk | ⟨rfl, r, hr, hfound⟩)
    · exact hk
    · exact hstate r hr hfound

variable [DecidableEq γ]

theorem Holding.lookupStep (h : c.Holding kind found)
    (hfound : ∀ loaded, found (kind.answer loaded) ↔ loaded.any kind.stores = true) (hgen : gen.isSome = true)
    {i : Nat} {lk : Lookup κ δ α} (hi : c.lookups[i]? = some lk) (loadOk : Bool) :
    (c.lookupStep kind gen loadOk i lk).Holding kind found := by
  obtain ⟨g, rfl⟩ := Option.isSome_iff_exists.mp hgen
  unfold Cache.lookupStep
  split
  · next hst =>
    have hnone : lk.returned? = none := by rw [Lookup.returned?, hst]
    split
    · next r hr => exact h.setLookup hi hnone fun _ _ _ => Kind.mem_of_probe hr
    · exact h.setLookup hi hnone fun _ hr => by cases hr
  · next hst =>
    have hnone : lk.returned? = none := by rw [Lookup.returned?, hst]
    split
    · exact h.setLookup hi hnone fun _ hr => by cases hr
    · exact h.setLookup hi hnone fun _ hr => by cases hr
  · next loaded n hst =>
    have hnone : lk.returned? = none := by rw [Lookup.returned?, hst]
    split
    · next g' l hg' hl =>
      obtain ⟨rfl, hstores⟩ := Option.filter_eq_some_iff.mp hl
      obtain rfl := Option.some.inj hg'
      have hnew : found (kind.answer (some l)) := (hfound (some l)).mpr hstores
      split
      · next hash henter =>
        have hkeys : ∀ k, k ∈ hash ↔ k = lk.key ∨ k ∈ c.hash := by
          unfold Kind.enter at henter
          split at henter
          · obtain rfl := Option.some.inj henter
            intro k
            exact Finmap.mem_insert
          · cases henter
        refine ⟨fun k => ?_, fun k e he => ?_⟩
        · rw [hkeys, h.mem_iff]
          refine Iff.trans ?_ (foundBy_setLookup hi hnone _).symm
          constructor
          · rintro (rfl | hk)
            · exact Or.inr ⟨rfl, _, rfl, hnew⟩
            · exact Or.inl hk
          · rintro (hk | ⟨rfl, -⟩)
            · exact Or.inr hk
            · exact Or.inl rfl
        · rcases kind.lookup_enter henter k e he with ⟨-, rfl⟩ | he
          · rw [kind.hit_entry _ _ _ hstores]
            exact hnew
          · exact h.hits k e he
      · exact h.setLookup hi hnone fun _ hr => by cases hr
    · next hnot =>
      -- what is not stored does not count as found
      refine h.setLookup hi hnone fun r hr hr' => ?_
      obtain rfl := Option.some.inj hr
      have hany := (hfound loaded).mp hr'
      cases hl : loaded.filter kind.stores with
      | some l => exact absurd hl (hnot g l rfl)
      | none => exact absurd (kind.not_stored hl) (by rw [hany]; decide)
  · exact h
  · exact h

theorem Holding.step (h : c.Holding kind found)
    (hfound : ∀ loaded, found (kind.answer loaded) ↔ loaded.any kind.stores = true) (hgen : gen.isSome = true)
    (st : Step κ ρ) : (c.step kind gen st).Holding kind found := by
  cases st with
  | change k row => exact ⟨h.mem_iff, h.hits⟩
  | begin k =>
    refine ⟨fun k' => (h.mem_iff k').trans ⟨?_, ?_⟩, h.hits⟩
    · rintro ⟨lk, hlk, hfnd⟩
      exact ⟨lk, List.mem_append_left _ hlk, hfnd⟩
    · rintro ⟨lk, hlk, hkey, r, hr, hfnd⟩
      rcases List.mem_append.mp hlk with hlk | hlk
      · exact ⟨lk, hlk, hkey, r, hr, hfnd⟩
      · obtain rfl := List.mem_singleton.mp hlk
        cases hr
  | advance i loadOk =>
    simp only [Cache.step]
    cases hi : c.lookups[i]? with
    | some lk => exact h.lookupStep hfound hgen hi loadOk
    | none => exact h

end Cache

end

end StampedCache
