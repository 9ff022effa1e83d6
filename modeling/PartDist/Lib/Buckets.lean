import Mathlib.Data.List.Basic
import Mathlib.Order.Lattice

/-!
# Buckets in order

A list kept in buckets, one for each value of a key `f`, and read back bucket by
bucket in the order of the keys: `gather f S l` for the keys `S`.  Inside a bucket
the order of the list is kept.

* `gather_of_sorted`: a list whose keys never decrease is read back as it is.
* `gather_prefix_iff`: what is read back is the beginning of the list exactly when
  whatever is read comes after nothing unread and after no greater key.
-/

namespace Buckets

variable {α κ : Type}

/-- What each bucket has first comes before all that it has second, when whatever has a
second part is followed by nothing first. -/
theorem flatMap_append_of_pairwise {S : List κ} {A B : κ → List α}
    (hS : S.Pairwise fun s t => B s = [] ∨ A t = []) :
    (S.flatMap fun s => A s ++ B s) = S.flatMap A ++ S.flatMap B := by
  induction S with
  | nil => rfl
  | cons s S ih =>
    obtain ⟨hs, hS⟩ := List.pairwise_cons.mp hS
    rw [List.flatMap_cons, List.flatMap_cons, List.flatMap_cons, ih hS]
    by_cases hB : B s = []
    · rw [hB, List.append_nil, List.nil_append, List.append_assoc]
    · have hA : S.flatMap A = [] := List.flatMap_eq_nil_iff.mpr fun t ht => (hs t ht).resolve_left hB
      rw [hA, List.append_nil, List.nil_append, List.append_assoc]

/-- Empty buckets need not be read. -/
theorem flatMap_filter_of_nil {S : List κ} {p : κ → Bool} {A : κ → List α}
    (hA : ∀ s ∈ S, p s = false → A s = []) : (S.filter p).flatMap A = S.flatMap A := by
  induction S with
  | nil => rfl
  | cons s S ih =>
    have ih := ih fun t ht => hA t (List.mem_cons_of_mem s ht)
    cases hs : p s with
    | true => rw [List.filter_cons_of_pos hs, List.flatMap_cons, List.flatMap_cons, ih]
    | false =>
      rw [List.filter_cons_of_neg (by simp [hs]), List.flatMap_cons, hA s List.mem_cons_self hs, List.nil_append, ih]

variable [LinearOrder κ] (f : α → κ)

def gather (S : List κ) (l : List α) : List α := S.flatMap fun s => l.filter fun a => f a = s

variable {f} {S : List κ} {l : List α} {a : α}

theorem mem_gather : a ∈ gather f S l ↔ a ∈ l ∧ f a ∈ S := by
  simp only [gather, List.mem_flatMap, List.mem_filter, decide_eq_true_eq]
  constructor
  · rintro ⟨s, hs, ha, rfl⟩
    exact ⟨ha, hs⟩
  · rintro ⟨ha, hs⟩
    exact ⟨f a, hs, ha, rfl⟩

theorem gather_eq_nil : gather f S l = [] ↔ ∀ a ∈ l, f a ∉ S := by
  rw [List.eq_nil_iff_forall_not_mem]
  exact ⟨fun h a ha hs => h a (mem_gather.mpr ⟨ha, hs⟩), fun h a ha => h a (mem_gather.mp ha).1 (mem_gather.mp ha).2⟩

theorem gather_cons_of_notMem (ha : f a ∉ S) : gather f S (a :: l) = gather f S l := by
  apply List.flatMap_congr
  intro s hs
  refine List.filter_cons_of_neg ?_
  rw [decide_eq_true_eq]
  rintro rfl
  exact ha hs

/-- A first element whose key is least among those read is read first. -/
theorem gather_cons_of_le (hS : S.Pairwise (· < ·)) (ha : f a ∈ S) (hle : ∀ b ∈ l, f b ∈ S → f a ≤ f b) :
    gather f S (a :: l) = a :: gather f S l := by
  obtain ⟨S₁, S₂, rfl⟩ := List.append_of_mem ha
  obtain ⟨-, hS₂, hlt⟩ := List.pairwise_append.mp hS
  have hfront : f a ∉ S₁ := fun h => lt_irrefl _ (hlt _ h _ List.mem_cons_self)
  have hback : f a ∉ S₂ := fun h => lt_irrefl _ ((List.pairwise_cons.mp hS₂).1 _ h)
  -- the buckets before that of `a` are empty
  have hnil : gather f S₁ l = [] := gather_eq_nil.mpr fun b hb hs =>
    absurd (hlt _ hs _ List.mem_cons_self) (not_lt_of_ge (hle b hb (List.mem_append_left _ hs)))
  have hsplit : ∀ l, gather f (S₁ ++ f a :: S₂) l =
      gather f S₁ l ++ (l.filter (fun b => f b = f a) ++ gather f S₂ l) := fun l => by
    rw [gather, List.flatMap_append, List.flatMap_cons]
    rfl
  rw [hsplit, hsplit, gather_cons_of_notMem hfront, gather_cons_of_notMem hback, hnil,
    List.filter_cons_of_pos (by simp)]
  rfl

theorem gather_of_sorted (hS : S.Pairwise (· < ·)) (hsub : ∀ a ∈ l, f a ∈ S)
    (hl : l.Pairwise fun a b => f a ≤ f b) : gather f S l = l := by
  induction l with
  | nil => exact gather_eq_nil.mpr fun a ha => nomatch ha
  | cons a l ih =>
    obtain ⟨hle, hl⟩ := List.pairwise_cons.mp hl
    rw [gather_cons_of_le hS (hsub a List.mem_cons_self) fun b hb _ => hle b hb,
      ih (fun b hb => hsub b (List.mem_cons_of_mem a hb)) hl]

theorem gather_sorted (hS : S.Pairwise (· < ·)) (l : List α) :
    (gather f S l).Pairwise fun a b => f a ≤ f b := by
  refine List.pairwise_flatMap.mpr ⟨fun s _ => ?_, hS.imp fun hlt a ha b hb => ?_⟩
  · refine List.pairwise_of_forall_mem_list fun a ha b hb => ?_
    rw [of_decide_eq_true (List.mem_filter.mp ha).2, of_decide_eq_true (List.mem_filter.mp hb).2]
  · rw [of_decide_eq_true (List.mem_filter.mp ha).2, of_decide_eq_true (List.mem_filter.mp hb).2]
    exact le_of_lt hlt

/-- Nothing is read twice. -/
theorem gather_perm (hS : S.Nodup) (l : List α) : (gather f S l).Perm (l.filter fun a => f a ∈ S) := by
  induction S with
  | nil => simp [gather]
  | cons s S ih =>
    obtain ⟨hs, hS⟩ := List.nodup_cons.mp hS
    have hown : (l.filter fun a => f a ∈ s :: S).filter (fun a => f a = s) = l.filter fun a => f a = s := by
      rw [List.filter_filter]
      refine List.filter_congr fun a _ => ?_
      by_cases h : f a = s <;> simp [h]
    have hrest : (l.filter fun a => f a ∈ s :: S).filter (fun a => !decide (f a = s)) =
        l.filter fun a => f a ∈ S := by
      rw [List.filter_filter]
      refine List.filter_congr fun a _ => ?_
      by_cases h : f a = s
      · simp [h, hs]
      · simp [h]
    have hsplit := List.filter_append_perm (fun a => decide (f a = s)) (l.filter fun a => f a ∈ s :: S)
    rw [hown, hrest] at hsplit
    exact ((ih hS).append_left _).trans hsplit

theorem gather_prefix_iff (hS : S.Pairwise (· < ·)) :
    gather f S l <+: l ↔ l.Pairwise fun a b => f b ∈ S → f a ∈ S ∧ f a ≤ f b := by
  constructor
  · rintro ⟨rest, hrest⟩
    -- the rest has no key that is read
    have hlen := (gather_perm (f := f) (hS.imp ne_of_lt) l).length_eq
    have hunread : rest.filter (fun a => f a ∈ S) = [] := by
      have hall : (gather f S l).filter (fun a => f a ∈ S) = gather f S l :=
        List.filter_eq_self.mpr fun a ha => decide_eq_true (mem_gather.mp ha).2
      have hparts := congrArg (fun l : List α => (l.filter fun a => f a ∈ S).length) hrest
      simp only [List.filter_append, List.length_append, hall] at hparts
      exact List.length_eq_zero_iff.mp (by omega)
    have hnot : ∀ b ∈ rest, f b ∉ S := fun b hb hs => by
      have hmem : b ∈ rest.filter fun a => f a ∈ S := List.mem_filter.mpr ⟨hb, decide_eq_true hs⟩
      rw [hunread] at hmem
      cases hmem
    have hsorted := gather_sorted (f := f) hS l
    rw [← hrest]
    refine List.pairwise_append.mpr ⟨?_, ?_, fun a _ b hb hs => absurd hs (hnot b hb)⟩
    · exact hsorted.imp_of_mem fun ha _ hle _ => ⟨(mem_gather.mp ha).2, hle⟩
    · exact List.pairwise_of_forall_mem_list fun a _ b hb hs => absurd hs (hnot b hb)
  · intro hl
    induction l with
    | nil =>
      have hnil : gather f S ([] : List α) = [] := gather_eq_nil.mpr fun a ha => nomatch ha
      simp [hnil]
    | cons a l ih =>
      obtain ⟨ha, hl⟩ := List.pairwise_cons.mp hl
      by_cases hs : f a ∈ S
      · rw [gather_cons_of_le hS hs fun b hb hb' => (ha b hb hb').2]
        exact List.cons_prefix_cons.mpr ⟨rfl, ih hl⟩
      · have hnil : gather f S (a :: l) = [] := by
          rw [gather_cons_of_notMem hs]
          exact gather_eq_nil.mpr fun b hb hb' => hs (ha b hb hb').1
        rw [hnil]
        exact List.nil_prefix

end Buckets
