import Mathlib.Data.List.Perm.Basic
import Mathlib.Data.List.Pairwise

/-!
# Exchange sort

    for (i = 0; i < n - 1; i++)
        for (j = i + 1; j < n; j++)
            if (before(a[j], a[i])) swap(a[i], a[j]);

`sweep` is the inner loop for one `i`: the element in slot `i` meets every later
one and changes places with those that come before it.  For a strict weak order
the result is a sorted permutation (`exchangeSort_perm`, `exchangeSort_sorted`).

`exchangeLoops` has the two loops and the assignments of a swap; they stay within the
array and leave that result in it (`exchangeLoops_eq`).
-/

namespace ExchangeSort

variable {α : Type} (before : α → α → Bool)

/-- The slot's final element and the elements after it. -/
def sweep : α → List α → α × List α
  | x, [] => (x, [])
  | x, y :: ys =>
    if before y x then ((sweep y ys).1, x :: (sweep y ys).2)
    else ((sweep x ys).1, y :: (sweep x ys).2)

def sortFrom : Nat → List α → List α
  | _, [] => []
  | 0, l => l
  | n + 1, x :: xs => (sweep before x xs).1 :: sortFrom n (sweep before x xs).2

def exchangeSort (l : List α) : List α := sortFrom before l.length l

theorem sweep_perm (x : α) (l : List α) :
    ((sweep before x l).1 :: (sweep before x l).2).Perm (x :: l) := by
  induction l generalizing x with
  | nil => exact List.Perm.refl _
  | cons y ys ih =>
    rw [sweep]
    split
    · calc ((sweep before y ys).1 :: x :: (sweep before y ys).2).Perm
            (x :: (sweep before y ys).1 :: (sweep before y ys).2) := List.Perm.swap ..
        _ |>.Perm (x :: y :: ys) := (ih y).cons x
    · calc ((sweep before x ys).1 :: y :: (sweep before x ys).2).Perm
            (y :: (sweep before x ys).1 :: (sweep before x ys).2) := List.Perm.swap ..
        _ |>.Perm (y :: x :: ys) := (ih x).cons y
        _ |>.Perm (x :: y :: ys) := List.Perm.swap ..

theorem length_sweep (x : α) (l : List α) : (sweep before x l).2.length = l.length := by
  have h := (sweep_perm before x l).length_eq
  simpa using h

theorem sortFrom_perm (n : Nat) (l : List α) : (sortFrom before n l).Perm l := by
  induction n generalizing l with
  | zero => cases l <;> exact List.Perm.refl _
  | succ n ih =>
    cases l with
    | nil => exact List.Perm.refl _
    | cons x xs =>
      rw [sortFrom]
      exact ((ih _).cons _).trans (sweep_perm before x xs)

theorem exchangeSort_perm (l : List α) : (exchangeSort before l).Perm l :=
  sortFrom_perm before _ l

theorem mem_exchangeSort {l : List α} {a : α} : a ∈ exchangeSort before l ↔ a ∈ l :=
  (exchangeSort_perm before l).mem_iff

section
variable (hasymm : ∀ a b, before a b = true → before b a = false)
  (hneg : ∀ a b c, before b a = false → before c b = false → before c a = false)

include hasymm hneg

theorem sweep_first (x : α) (l : List α) :
    ∀ y ∈ (sweep before x l).2, before y (sweep before x l).1 = false := by
  induction l generalizing x with
  | nil => intro y hy; cases hy
  | cons y ys ih =>
    have hself : ∀ a, before a a = false := by
      intro a
      cases h : before a a with
      | false => rfl
      | true => exact (h.symm.trans (hasymm a a h))
    -- the element a sweep starts from never comes before the one it ends with
    have hstart : ∀ a, before a (sweep before a ys).1 = false := by
      intro a
      have hmem := (sweep_perm before a ys).mem_iff.mpr List.mem_cons_self
      rcases List.mem_cons.mp hmem with h | h
      · rw [← h]; exact hself a
      · exact ih a a h
    rw [sweep]
    split
    · next hb =>
      intro z hz
      rcases List.mem_cons.mp hz with rfl | hz
      · exact hneg _ _ _ (hstart y) (hasymm _ _ hb)
      · exact ih y z hz
    · next hb =>
      intro z hz
      rcases List.mem_cons.mp hz with rfl | hz
      · exact hneg _ _ _ (hstart x) (by simpa using hb)
      · exact ih x z hz

theorem sortFrom_sorted (n : Nat) (l : List α) (hn : l.length ≤ n) :
    (sortFrom before n l).Pairwise fun a b => before b a = false := by
  induction n generalizing l with
  | zero =>
    have : l = [] := List.length_eq_zero_iff.mp (by omega)
    subst this; exact List.Pairwise.nil
  | succ n ih =>
    cases l with
    | nil => exact List.Pairwise.nil
    | cons x xs =>
      rw [sortFrom, List.pairwise_cons]
      have hlen := length_sweep before x xs
      simp only [List.length_cons] at hn
      refine ⟨fun y hy => ?_, ih _ (by omega)⟩
      exact sweep_first before hasymm hneg x xs y ((sortFrom_perm before n _).mem_iff.mp hy)

theorem exchangeSort_sorted (l : List α) :
    (exchangeSort before l).Pairwise fun a b => before b a = false :=
  sortFrom_sorted before hasymm hneg _ l (Nat.le_refl _)

end

/-! ## Another order on other elements -/

section
variable {β : Type} {before : α → α → Bool} {before' : β → β → Bool} {f : α → β}

theorem sweep_map {x : α} {l : List α} (h : ∀ a ∈ x :: l, ∀ b ∈ x :: l, before' (f a) (f b) = before a b) :
    sweep before' (f x) (l.map f) = (f (sweep before x l).1, (sweep before x l).2.map f) := by
  induction l generalizing x with
  | nil => rfl
  | cons y ys ih =>
    have hy : y ∈ x :: y :: ys := List.mem_cons_of_mem x List.mem_cons_self
    have htail : ∀ a ∈ y :: ys, a ∈ x :: y :: ys := fun a ha => List.mem_cons_of_mem x ha
    have hskip : ∀ a ∈ x :: ys, a ∈ x :: y :: ys := by
      intro a ha
      rcases List.mem_cons.mp ha with rfl | ha
      · exact List.mem_cons_self
      · exact htail a (List.mem_cons_of_mem y ha)
    rw [List.map_cons, sweep, sweep, h y hy x List.mem_cons_self]
    split
    · rw [ih fun a ha b hb => h a (htail a ha) b (htail b hb)]
      rfl
    · rw [ih fun a ha b hb => h a (hskip a ha) b (hskip b hb)]
      rfl

theorem sortFrom_map {n : Nat} {l : List α} (h : ∀ a ∈ l, ∀ b ∈ l, before' (f a) (f b) = before a b) :
    sortFrom before' n (l.map f) = (sortFrom before n l).map f := by
  induction n generalizing l with
  | zero => cases l <;> rfl
  | succ n ih =>
    cases l with
    | nil => rfl
    | cons x xs =>
      have hmem : ∀ a ∈ (sweep before x xs).2, a ∈ x :: xs := fun a ha =>
        (sweep_perm before x xs).mem_iff.mp (List.mem_cons_of_mem _ ha)
      rw [List.map_cons, sortFrom, sweep_map h, sortFrom, List.map_cons]
      rw [ih fun a ha b hb => h a (hmem a ha) b (hmem b hb)]

/-- Elements that compare as what they are made from are sorted as these. -/
theorem exchangeSort_map {l : List α} (h : ∀ a ∈ l, ∀ b ∈ l, before' (f a) (f b) = before a b) :
    exchangeSort before' (l.map f) = (exchangeSort before l).map f := by
  rw [exchangeSort, List.length_map, sortFrom_map h, exchangeSort]

end

/-! ## The loops -/

section
variable (copy : α → α)

/-- `copy(tmp, a[i]); copy(a[i], a[j]); copy(a[j], tmp);`  An index outside the array
gives `none`. -/
def swap (a : List α) (i j : Nat) : Option (List α) := do
  let tmp := copy (← a[i]?)
  let a := a.set i (copy (← a[j]?))
  return a.set j (copy tmp)

def compareSwap (i : Nat) (a : List α) (j : Nat) : Option (List α) := do
  if before (← a[j]?) (← a[i]?) then swap copy a i j else return a

/-- `for (j = i + 1; j < n; j++)`. -/
def innerLoop (n : Nat) (a : List α) (i : Nat) : Option (List α) :=
  (List.range' (i + 1) (n - (i + 1))).foldlM (compareSwap before copy i) a

/-- `for (i = 0; i < n - 1; i++)`. -/
def exchangeLoops (a : List α) : Option (List α) :=
  (List.range (a.length - 1)).foldlM (innerLoop before copy a.length) a

variable {copy} (hcopy : ∀ x, copy x = x)

include hcopy

/-- Slot `i` holds `x`, slot `j` is the one behind `passed`. -/
theorem compareSwap_at (sorted passed rest : List α) (x y : α) :
    compareSwap before copy sorted.length (sorted ++ x :: (passed ++ y :: rest)) (sorted.length + 1 + passed.length) =
      some (if before y x then sorted ++ y :: (passed ++ x :: rest)
        else sorted ++ x :: (passed ++ y :: rest)) := by
  have hi : (sorted ++ x :: (passed ++ y :: rest))[sorted.length]? = some x := by simp
  have hj : ∀ z, (sorted ++ z :: (passed ++ y :: rest))[sorted.length + 1 + passed.length]? = some y := by
    intro z
    rw [List.getElem?_append_right (by omega), Nat.add_assoc, Nat.add_sub_cancel_left, Nat.add_comm,
      List.getElem?_cons_succ, List.getElem?_append_right (Nat.le_refl _), Nat.sub_self]
    rfl
  have hset : ((sorted ++ x :: (passed ++ y :: rest)).set sorted.length y).set (sorted.length + 1 + passed.length) x =
      sorted ++ y :: (passed ++ x :: rest) := by
    rw [List.set_append_right _ _ (Nat.le_refl _), Nat.sub_self, List.set_cons_zero,
      List.set_append_right _ _ (by omega), Nat.add_assoc, Nat.add_sub_cancel_left, Nat.add_comm,
      List.set_cons_succ, List.set_append_right _ _ (Nat.le_refl _), Nat.sub_self, List.set_cons_zero]
  rw [compareSwap, hi, hj]
  simp only [Option.bind_eq_bind, Option.bind_some]
  split
  · simp only [swap, hi, hj, hcopy, Option.bind_eq_bind, Option.bind_some, hset, Option.pure_def]
  · rfl

/-- The inner loop, from the slot behind `passed` on, sweeps what is left. -/
theorem innerLoop_from (sorted passed rest : List α) (x : α) :
    (List.range' (sorted.length + 1 + passed.length) rest.length).foldlM (compareSwap before copy sorted.length)
        (sorted ++ x :: (passed ++ rest)) =
      some (sorted ++ (sweep before x rest).1 :: (passed ++ (sweep before x rest).2)) := by
  induction rest generalizing passed x with
  | nil => rfl
  | cons y ys ih =>
    have hlen : ∀ z : α, sorted.length + 1 + passed.length + 1 = sorted.length + 1 + (passed ++ [z]).length := by
      intro z
      rw [List.length_append, List.length_singleton]
      omega
    have hsplit : ∀ (z : α) (l : List α), passed ++ z :: l = passed ++ [z] ++ l := fun z l => by simp
    rw [List.length_cons, List.range'_succ, List.foldlM_cons, compareSwap_at before hcopy, sweep]
    simp only [Option.bind_eq_bind, Option.bind_some]
    split
    · rw [hlen x, hsplit x, ih, List.append_assoc, List.singleton_append]
    · rw [hlen y, hsplit y, ih, List.append_assoc, List.singleton_append]

theorem innerLoop_eq (sorted rest : List α) (x : α) :
    innerLoop before copy (sorted ++ x :: rest).length (sorted ++ x :: rest) sorted.length =
      some (sorted ++ (sweep before x rest).1 :: (sweep before x rest).2) := by
  have hcount : (sorted ++ x :: rest).length - (sorted.length + 1) = rest.length := by
    rw [List.length_append, List.length_cons]
    omega
  rw [innerLoop, hcount]
  exact innerLoop_from before hcopy sorted [] rest x

/-- The outer loop, with `sorted` in place. -/
theorem exchangeLoops_from (n : Nat) (sorted rest : List α) (hn : rest.length = n) :
    (List.range' sorted.length (n - 1)).foldlM (innerLoop before copy (sorted ++ rest).length) (sorted ++ rest) =
      some (sorted ++ sortFrom before n rest) := by
  induction n generalizing sorted rest with
  | zero =>
    obtain rfl := List.length_eq_zero_iff.mp hn
    rfl
  | succ n ih =>
    obtain ⟨x, xs, rfl⟩ := List.exists_cons_of_length_eq_add_one hn
    have hxs : xs.length = n := Nat.succ.inj hn
    cases n with
    | zero =>
      obtain rfl := List.length_eq_zero_iff.mp hxs
      rfl
    | succ n =>
      have hlen := length_sweep before x xs
      have hstep := ih (sorted ++ [(sweep before x xs).1]) (sweep before x xs).2 (by omega)
      have htotal : (sorted ++ [(sweep before x xs).1] ++ (sweep before x xs).2).length =
          (sorted ++ x :: xs).length := by
        simp only [List.length_append, List.length_cons, List.length_nil]
        omega
      rw [htotal] at hstep
      simp only [List.append_assoc, List.singleton_append, List.length_append, List.length_singleton] at hstep
      rw [Nat.add_sub_cancel, List.range'_succ, List.foldlM_cons, innerLoop_eq before hcopy]
      simp only [Option.bind_eq_bind, Option.bind_some, List.length_append]
      exact hstep

/-- Every index of the loops lies in the array, and they leave it sorted. -/
theorem exchangeLoops_eq (a : List α) : exchangeLoops before copy a = some (exchangeSort before a) := by
  have h := exchangeLoops_from before hcopy a.length [] a rfl
  rw [exchangeLoops, List.range_eq_range']
  exact h

end

end ExchangeSort
