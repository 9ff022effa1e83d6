import Mathlib.Data.List.Induction
import Mathlib.Data.List.Perm.Basic
import Mathlib.Data.List.Pairwise

/-!
# Insertion sort in an array

    for (i = 1; i < n; i++)
    {
        tmp = a[i];
        j   = i - 1;
        while (j >= 0 && after(a[j], tmp)) { a[j + 1] = a[j]; j--; }
        a[j + 1] = tmp;
    }

* `shiftLoop_spec`: the `while` loop puts `tmp` behind the last element that does not
  come after it.
* `insertionLoops_spec`: the loops stay within the array, and leave its first `n` elements
  sorted and the others alone.
-/

namespace InsertionSort

variable {α : Type} (after : α → α → Bool)

/-- `a[i] = x;`  An index outside the array gives `none`. -/
def store (a : List α) (i : Nat) (x : α) : Option (List α) := if i < a.length then some (a.set i x) else none

/-- The `while` loop and the assignment behind it; the first argument is `j + 1`. -/
def shiftLoop (tmp : α) : Nat → List α → Option (List α)
  | 0, a => store a 0 tmp
  | j + 1, a => do
    let x ← a[j]?
    if after x tmp then shiftLoop tmp j (← store a (j + 1) x) else store a (j + 1) tmp

def insertAt (a : List α) (i : Nat) : Option (List α) := do
  let tmp ← a[i]?
  shiftLoop after tmp i a

def insertionLoops (n : Nat) (a : List α) : Option (List α) := (List.range' 1 (n - 1)).foldlM (insertAt after) a

theorem store_append (p rest : List α) (x y : α) : store (p ++ x :: rest) p.length y = some (p ++ y :: rest) := by
  rw [store, if_pos (by rw [List.length_append, List.length_cons]; omega), List.set_append_right _ _ (Nat.le_refl _),
    Nat.sub_self, List.set_cons_zero]

/-- The slot behind `p` is free. -/
theorem shiftLoop_spec (tmp : α) (p rest : List α) (x : α) :
    ∃ q r, p = q ++ r ∧ (∀ y ∈ r, after y tmp = true) ∧ (∀ y ∈ q.getLast?, after y tmp = false) ∧
      shiftLoop after tmp p.length (p ++ x :: rest) = some (q ++ tmp :: (r ++ rest)) := by
  induction p using List.reverseRecOn generalizing x rest with
  | nil => exact ⟨[], [], rfl, (fun y hy => by cases hy), (fun y hy => by cases hy), store_append [] rest x tmp⟩
  | append_singleton p y ih =>
    have hread : (p ++ [y] ++ x :: rest)[p.length]? = some y := by simp
    have hstore : ∀ z, store (p ++ [y] ++ x :: rest) (p.length + 1) z = some (p ++ [y] ++ z :: rest) := by
      intro z
      have h := store_append (p ++ [y]) rest x z
      rwa [List.length_append, List.length_singleton] at h
    rw [List.length_append, List.length_singleton, shiftLoop, hread]
    simp only [Option.bind_eq_bind, Option.bind_some]
    by_cases hy : after y tmp = true
    · obtain ⟨q, r, hsplit, hr, hq, hloop⟩ := ih (y :: rest) y
      refine ⟨q, r ++ [y], by rw [hsplit, List.append_assoc], fun z hz => ?_, hq, ?_⟩
      · rcases List.mem_append.mp hz with hz | hz
        · exact hr z hz
        · exact List.mem_singleton.mp hz ▸ hy
      · rw [if_pos hy, hstore, Option.bind_some, List.append_assoc, List.singleton_append, hloop, List.append_assoc,
          List.singleton_append]
    · refine ⟨p ++ [y], [], (List.append_nil _).symm, (fun z hz => by cases hz), fun z hz => ?_, ?_⟩
      · rw [List.getLast?_append_of_ne_nil _ (List.cons_ne_nil _ _)] at hz
        obtain rfl := Option.some.inj hz
        exact eq_false_of_ne_true hy
      · rw [if_neg hy, hstore, List.nil_append]

section
variable (hasymm : ∀ a b, after a b = true → after b a = false)
  (hneg : ∀ a b c, after a b = false → after b c = false → after a c = false)

include hasymm hneg

/-- Inserting into a sorted prefix keeps it sorted. -/
theorem insertAt_spec (p rest : List α) (x : α) (hp : p.Pairwise fun a b => after a b = false) :
    ∃ q, insertAt after (p ++ x :: rest) p.length = some (q ++ rest) ∧ q.Perm (p ++ [x]) ∧
      q.Pairwise fun a b => after a b = false := by
  obtain ⟨q, r, rfl, hr, hq, hloop⟩ := shiftLoop_spec after x p rest x
  obtain ⟨hq', hr', hqr⟩ := List.pairwise_append.mp hp
  -- what is in front of the last element that stays does not come after it
  have hfront : ∀ a ∈ q, after a x = false := by
    intro a ha
    obtain ⟨q', b, rfl⟩ : ∃ q' b, q = q' ++ [b] :=
      ⟨q.dropLast, q.getLast (List.ne_nil_of_mem ha), (List.dropLast_append_getLast _).symm⟩
    have hb : after b x = false := hq b (by simp)
    rcases List.mem_append.mp ha with ha | ha
    · exact hneg a b x ((List.pairwise_append.mp hq').2.2 a ha b List.mem_cons_self) hb
    · exact List.mem_singleton.mp ha ▸ hb
  refine ⟨q ++ x :: r, ?_, ?_, ?_⟩
  · have hread : (q ++ r ++ x :: rest)[(q ++ r).length]? = some x := by simp
    rw [insertAt, hread]
    simp only [Option.bind_eq_bind, Option.bind_some]
    rw [hloop, List.append_assoc, List.cons_append]
  · have h : (r ++ [x]).Perm (x :: r) := List.perm_append_singleton x r
    rw [List.append_assoc]
    exact (h.symm.append_left q)
  · rw [List.pairwise_append, List.pairwise_cons]
    refine ⟨hq', ⟨fun a ha => hasymm a x (hr a ha), hr'⟩, fun a ha b hb => ?_⟩
    rcases List.mem_cons.mp hb with rfl | hb
    · exact hfront a ha
    · exact hqr a ha b hb

/-- The outer loop, with `p` sorted. -/
theorem insertionLoops_from (p xs rest : List α) (hp : p.Pairwise fun a b => after a b = false) :
    ∃ q, (List.range' p.length xs.length).foldlM (insertAt after) (p ++ (xs ++ rest)) = some (q ++ rest) ∧
      q.Perm (p ++ xs) ∧ q.Pairwise fun a b => after a b = false := by
  induction xs generalizing p with
  | nil => exact ⟨p, rfl, (List.append_nil p).symm ▸ List.Perm.refl p, hp⟩
  | cons x xs ih =>
    obtain ⟨p', hinsert, hperm, hp'⟩ := insertAt_spec after hasymm hneg p (xs ++ rest) x hp
    have hlen : p'.length = p.length + 1 := hperm.length_eq.trans (by simp)
    obtain ⟨q, hloop, hq, hsorted⟩ := ih p' hp'
    refine ⟨q, ?_, ?_, hsorted⟩
    · rw [List.length_cons, List.range'_succ, List.foldlM_cons, List.cons_append, hinsert]
      rw [hlen] at hloop
      exact hloop
    · calc q.Perm (p' ++ xs) := hq
        _ |>.Perm (p ++ [x] ++ xs) := hperm.append_right xs
        _ = p ++ x :: xs := by rw [List.append_assoc, List.singleton_append]

theorem insertionLoops_spec (l rest : List α) :
    ∃ q, insertionLoops after l.length (l ++ rest) = some (q ++ rest) ∧ q.Perm l ∧
      q.Pairwise fun a b => after a b = false := by
  cases l with
  | nil => exact ⟨[], rfl, List.Perm.refl _, List.Pairwise.nil⟩
  | cons x xs => exact insertionLoops_from after hasymm hneg [x] xs rest (List.pairwise_singleton _ x)

end

end InsertionSort
