import Mathlib.Order.Basic
import Mathlib.Order.Lattice
import Mathlib.Data.List.Pairwise
import Mathlib.Tactic.Order

/-!
# High-water marks

A consumer that keeps an element only if its key is above every key kept so
far.  `accepted m l` is what it keeps of `l` from mark `m` on, `mark m l` the
mark it ends with.

* `accepted_of_increasing`: nothing above the first mark is lost when the keys
  come in strictly increasing order.
* `accepted_eq_self_iff`: everything is kept exactly when the keys come in
  strictly increasing order, all above the mark.
-/

namespace HighWater

variable {α κ : Type} [LinearOrder κ] (key : α → κ)

def accepted : κ → List α → List α
  | _, [] => []
  | m, a :: as => if m < key a then a :: accepted (key a) as else accepted m as

def mark : κ → List α → κ
  | m, [] => m
  | m, a :: as => mark (max m (key a)) as

/-- Keys in strictly increasing order. -/
def Increasing (l : List α) : Prop := l.Pairwise fun a b => key a < key b

theorem Increasing.eq_of_key {l : List α} (hl : Increasing key l) {a b : α} (ha : a ∈ l) (hb : b ∈ l)
    (hk : key a = key b) : a = b := by
  induction l with
  | nil => cases ha
  | cons c l ih =>
    obtain ⟨hc, hl⟩ := List.pairwise_cons.mp hl
    rcases List.mem_cons.mp ha with rfl | ha' <;> rcases List.mem_cons.mp hb with rfl | hb'
    · rfl
    · exact absurd hk (hc b hb').ne
    · exact absurd hk.symm (hc a ha').ne
    · exact ih hl ha' hb'

theorem Increasing.nodup {l : List α} (hl : Increasing key l) : l.Nodup :=
  hl.imp fun hlt heq => by rw [heq] at hlt; exact absurd hlt (lt_irrefl _)

@[simp] theorem accepted_nil (m : κ) : accepted key m [] = [] := rfl

theorem accepted_cons_of_lt {m : κ} {a : α} (h : m < key a) (as : List α) :
    accepted key m (a :: as) = a :: accepted key (key a) as := by
  rw [accepted, if_pos h]

theorem accepted_cons_of_le {m : κ} {a : α} (h : key a ≤ m) (as : List α) :
    accepted key m (a :: as) = accepted key m as := by
  rw [accepted, if_neg (not_lt.mpr h)]

theorem accepted_append (m : κ) (l l' : List α) :
    accepted key m (l ++ l') = accepted key m l ++ accepted key (mark key m l) l' := by
  induction l generalizing m with
  | nil => rfl
  | cons a as ih =>
    rcases lt_or_ge m (key a) with h | h
    · rw [List.cons_append, accepted_cons_of_lt key h, accepted_cons_of_lt key h, ih, mark,
        max_eq_right h.le, List.cons_append]
    · rw [List.cons_append, accepted_cons_of_le key h, accepted_cons_of_le key h, ih, mark,
        max_eq_left h]

theorem accepted_sublist (m : κ) (l : List α) : (accepted key m l).Sublist l := by
  induction l generalizing m with
  | nil => exact List.Sublist.refl _
  | cons a as ih =>
    rw [accepted]
    split
    · exact (ih _).cons_cons a
    · exact (ih m).cons a

/-- What is kept lies above the mark, in strictly increasing order. -/
theorem accepted_increasing (m : κ) (l : List α) :
    (∀ a ∈ accepted key m l, m < key a) ∧ Increasing key (accepted key m l) := by
  induction l generalizing m with
  | nil => exact ⟨(fun a ha => nomatch ha), List.Pairwise.nil⟩
  | cons b bs ih =>
    rw [accepted]
    split
    · next h =>
      obtain ⟨habove, hinc⟩ := ih (key b)
      refine ⟨fun a ha => ?_, List.pairwise_cons.mpr ⟨habove, hinc⟩⟩
      rcases List.mem_cons.mp ha with rfl | ha
      · exact h
      · exact h.trans (habove a ha)
    · exact ih m

theorem accepted_eq_nil {m : κ} {l : List α} (h : ∀ a ∈ l, key a ≤ m) : accepted key m l = [] := by
  induction l with
  | nil => rfl
  | cons a as ih =>
    rw [accepted_cons_of_le key (h a List.mem_cons_self)]
    exact ih fun b hb => h b (List.mem_cons_of_mem a hb)

theorem accepted_eq_self {m : κ} {l : List α} (hm : ∀ a ∈ l, m < key a) (hl : Increasing key l) :
    accepted key m l = l := by
  induction l generalizing m with
  | nil => rfl
  | cons a as ih =>
    obtain ⟨ha, has⟩ := List.pairwise_cons.mp hl
    rw [accepted_cons_of_lt key (hm a List.mem_cons_self), ih ha has]

/-- **Nothing is lost** exactly when the keys arrive in order. -/
theorem accepted_eq_self_iff {m : κ} {l : List α} :
    accepted key m l = l ↔ (∀ a ∈ l, m < key a) ∧ Increasing key l := by
  constructor
  · intro h
    have hinc := accepted_increasing key m l
    rwa [h] at hinc
  · rintro ⟨hm, hl⟩
    exact accepted_eq_self key hm hl

/-- On keys in order, the consumer is a filter at its first mark. -/
theorem accepted_of_increasing {l : List α} (hl : Increasing key l) (m : κ) :
    accepted key m l = l.filter fun a => decide (m < key a) := by
  induction l with
  | nil => rfl
  | cons a as ih =>
    obtain ⟨ha, has⟩ := List.pairwise_cons.mp hl
    rcases lt_or_ge m (key a) with h | h
    · have hrest : as.filter (fun b => decide (m < key b)) = as :=
        List.filter_eq_self.mpr fun b hb => decide_eq_true (h.trans (ha b hb))
      rw [accepted_cons_of_lt key h, accepted_eq_self key ha has,
        List.filter_cons_of_pos (by simpa using h), hrest]
    · rw [accepted_cons_of_le key h, ih has,
        List.filter_cons_of_neg (by simpa using h)]

/-- The final mark is the first one, or the key of the last element kept. -/
theorem mark_eq (m : κ) (l : List α) :
    (accepted key m l = [] ∧ mark key m l = m) ∨
      ∃ l' a, accepted key m l = l' ++ [a] ∧ mark key m l = key a := by
  induction l generalizing m with
  | nil => exact Or.inl ⟨rfl, rfl⟩
  | cons b bs ih =>
    rcases lt_or_ge m (key b) with h | h
    · rw [accepted_cons_of_lt key h, mark, max_eq_right h.le]
      right
      rcases ih (key b) with ⟨hnil, hmark⟩ | ⟨l', a, hacc, hmark⟩
      · exact ⟨[], b, by rw [hnil]; rfl, hmark⟩
      · exact ⟨b :: l', a, by rw [hacc]; rfl, hmark⟩
    · rw [accepted_cons_of_le key h, mark, max_eq_left h]
      exact ih m

end HighWater
