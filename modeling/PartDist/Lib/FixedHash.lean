import Mathlib.Data.Finmap

/-!
# Hash tables of a fixed size

A finite map that holds at most `capacity` keys: a key that is not in it can be entered
only while there is a place left.

* `place_iff`: in terms of the number of keys.
* `enterAll_iff`, `keys_enterAll`: a list of keys can be entered if and only if they and
  those that are there are no more than the capacity.
-/

namespace FixedHash

variable {κ ε : Type} [DecidableEq κ]

/-- `k` is in the table, or there is a place for it. -/
def Place (capacity : Nat) (hash : Finmap fun _ : κ => ε) (k : κ) : Prop :=
  k ∈ hash ∨ hash.keys.card < capacity

instance (capacity : Nat) (hash : Finmap fun _ : κ => ε) (k : κ) : Decidable (Place capacity hash k) :=
  inferInstanceAs (Decidable (_ ∨ _))

variable {capacity : Nat} {hash hash' : Finmap fun _ : κ => ε} {k : κ}

theorem keys_insert (hash : Finmap fun _ : κ => ε) (k : κ) (e : ε) :
    (hash.insert k e).keys = hash.keys ∪ {k} := by
  ext k'
  rw [Finmap.mem_keys, Finmap.mem_insert, Finset.mem_union, Finset.mem_singleton, Finmap.mem_keys]
  exact or_comm

theorem place_iff (hfits : hash.keys.card ≤ capacity) :
    Place capacity hash k ↔ (hash.keys ∪ {k}).card ≤ capacity := by
  by_cases hk : k ∈ hash
  · have hin : hash.keys ∪ {k} = hash.keys := by
      rw [Finset.union_eq_left, Finset.singleton_subset_iff]
      exact Finmap.mem_keys.mpr hk
    rw [hin]
    exact ⟨fun _ => hfits, fun _ => Or.inl hk⟩
  · have hcard : (hash.keys ∪ {k}).card = hash.keys.card + 1 := by
      rw [Finset.union_comm, ← Finset.insert_eq, Finset.card_insert_of_notMem]
      rwa [Finmap.mem_keys]
    rw [hcard]
    exact ⟨fun h => h.resolve_left hk, Or.inr⟩

/-! ## Entering keys -/

/-- `enter` puts an entry of the key in its place, whatever the entry, and fails if there is none. -/
structure Enters (capacity : Nat)
    (enter : κ → (Finmap fun _ : κ => ε) → Option (Finmap fun _ : κ => ε)) : Prop where
  isSome : ∀ k hash, (enter k hash).isSome = true ↔ Place capacity hash k
  keys : ∀ k hash, ∀ hash' ∈ enter k hash, hash'.keys = hash.keys ∪ {k}

/-- Enters the keys in turn, up to the first that fails; whether none does. -/
def enterAll (enter : κ → (Finmap fun _ : κ => ε) → Option (Finmap fun _ : κ => ε)) :
    List κ → (Finmap fun _ : κ => ε) → Bool × Finmap fun _ : κ => ε
  | [], hash => (true, hash)
  | k :: ks, hash =>
    match enter k hash with
    | some hash' => enterAll enter ks hash'
    | none => (false, hash)

variable {enter : κ → (Finmap fun _ : κ => ε) → Option (Finmap fun _ : κ => ε)} {ks ks' : List κ}

omit [DecidableEq κ] in
theorem enterAll_append (h : (enterAll enter (ks ++ ks') hash).1 = true) : (enterAll enter ks hash).1 = true := by
  induction ks generalizing hash with
  | nil => rfl
  | cons k ks ih =>
    rw [List.cons_append, enterAll] at h
    rw [enterAll]
    cases hk : enter k hash with
    | none =>
      rw [hk] at h
      cases h
    | some hash' =>
      rw [hk] at h
      exact ih h

omit [DecidableEq κ] in
/-- Each key that passes a filter can be entered in its turn if and only if all of them can. -/
theorem forall_turn_iff {α : Type} {key : α → κ} {p : α → Bool} (as : List α) :
    (∀ i a, as[i]? = some a → p a = true → (enterAll enter (((as.take (i + 1)).filter p).map key) hash).1 = true) ↔
      (enterAll enter ((as.filter p).map key) hash).1 = true := by
  constructor
  · intro h
    induction as using List.reverseRecOn with
    | nil => rfl
    | append_singleton as a ih =>
      by_cases hp : p a = true
      · have hlast := h as.length a List.getElem?_concat_length hp
        rwa [List.take_of_length_le (by simp)] at hlast
      · rw [List.filter_append, List.filter_cons_of_neg hp, List.filter_nil, List.append_nil]
        apply ih
        intro i b hb hpb
        have hi : i < as.length := (List.getElem?_eq_some_iff.mp hb).1
        have hturn := h i b (by rw [List.getElem?_append_left hi]; exact hb) hpb
        rwa [List.take_append_of_le_length hi] at hturn
  · intro h i a _ _
    rw [← List.take_append_drop (i + 1) as, List.filter_append, List.map_append] at h
    exact enterAll_append h

theorem keys_enterAll (henter : Enters capacity enter) (h : (enterAll enter ks hash).1 = true) :
    (enterAll enter ks hash).2.keys = hash.keys ∪ ks.toFinset := by
  induction ks generalizing hash with
  | nil => rw [List.toFinset_nil, Finset.union_empty, enterAll]
  | cons k ks ih =>
    rw [enterAll] at h ⊢
    cases hk : enter k hash with
    | none =>
      rw [hk] at h
      cases h
    | some hash' =>
      rw [hk] at h
      rw [ih h, henter.keys k hash hash' hk, Finset.union_assoc, ← Finset.insert_eq, List.toFinset_cons]

theorem enterAll_iff (henter : Enters capacity enter) (hfits : hash.keys.card ≤ capacity) :
    (enterAll enter ks hash).1 = true ↔ (hash.keys ∪ ks.toFinset).card ≤ capacity := by
  induction ks generalizing hash with
  | nil => simpa [enterAll] using hfits
  | cons k ks ih =>
    have hcons : hash.keys ∪ (k :: ks).toFinset = hash.keys ∪ {k} ∪ ks.toFinset := by
      rw [List.toFinset_cons, Finset.insert_eq, Finset.union_assoc]
    have hplace := (henter.isSome k hash).trans (place_iff hfits)
    rw [enterAll, hcons]
    cases hk : enter k hash with
    | none =>
      rw [hk] at hplace
      refine ⟨fun h => (by cases h), fun h => ?_⟩
      have hfull := hplace.mpr ((Finset.card_le_card Finset.subset_union_left).trans h)
      cases hfull
    | some hash' =>
      rw [hk] at hplace
      have hkeys := henter.keys k hash hash' hk
      rw [← hkeys]
      exact ih (by rw [hkeys]; exact hplace.mp rfl)

end FixedHash
