import Mathlib.Data.List.Basic

/-!
# Ring buffers

    buf[head] = x; head = (head + 1) % cap;

`window` is what the buffer holds, from the oldest element to the newest.

* `window_pushAll`: after any number of pushes, the last `cap` elements of what was in
  the buffer and what was pushed.
* `slots_perm_last`: from a fresh buffer on, the first slots hold the last elements pushed.
-/

structure RingBuffer (α : Type) (cap : Nat) where
  buf : List α
  head : Nat
  length_buf : buf.length = cap
  head_lt : head < cap

namespace RingBuffer

variable {α : Type} {cap : Nat}

def fresh (x : α) (cap : Nat) (hcap : 0 < cap) : RingBuffer α cap where
  buf := List.replicate cap x
  head := 0
  length_buf := List.length_replicate
  head_lt := hcap

def push (r : RingBuffer α cap) (x : α) : RingBuffer α cap where
  buf := r.buf.set r.head x
  head := (r.head + 1) % cap
  length_buf := by rw [List.length_set, r.length_buf]
  head_lt := Nat.mod_lt _ (Nat.zero_lt_of_lt r.head_lt)

/-- `buf[i] = x;` -/
def store (r : RingBuffer α cap) (i : Nat) (x : α) : RingBuffer α cap where
  buf := r.buf.set i x
  head := r.head
  length_buf := by rw [List.length_set, r.length_buf]
  head_lt := r.head_lt

/-- `head = i % cap;` -/
def turnTo (r : RingBuffer α cap) (i : Nat) : RingBuffer α cap where
  buf := r.buf
  head := i % cap
  length_buf := r.length_buf
  head_lt := Nat.mod_lt _ (Nat.zero_lt_of_lt r.head_lt)

def pushAll (r : RingBuffer α cap) (xs : List α) : RingBuffer α cap := xs.foldl push r

def window (r : RingBuffer α cap) : List α := r.buf.drop r.head ++ r.buf.take r.head

@[simp] theorem length_window (r : RingBuffer α cap) : r.window.length = cap := by
  have hlen := r.length_buf
  have hlt := r.head_lt
  simp only [window, List.length_append, List.length_drop, List.length_take]
  omega

theorem window_perm (r : RingBuffer α cap) : r.window.Perm r.buf := by
  have h : r.window.Perm (r.buf.take r.head ++ r.buf.drop r.head) := List.perm_append_comm
  rwa [List.take_append_drop] at h

/-- The oldest element goes, whether the head wraps around or not. -/
theorem window_push (r : RingBuffer α cap) (x : α) : (r.push x).window = r.window.tail ++ [x] := by
  have hlen := r.length_buf
  have hlt : r.head < r.buf.length := by
    rw [hlen]
    exact r.head_lt
  have hset : r.buf.set r.head x = r.buf.take r.head ++ x :: r.buf.drop (r.head + 1) :=
    List.set_eq_take_append_cons_drop.trans (if_pos hlt)
  have htake : (r.buf.take r.head).length = r.head := List.length_take_of_le (Nat.le_of_lt hlt)
  have htail : r.window.tail = r.buf.drop (r.head + 1) ++ r.buf.take r.head := by
    rw [window, List.drop_eq_getElem_cons hlt, List.cons_append, List.tail_cons]
  have hpush : (r.push x).window = (r.buf.set r.head x).drop ((r.head + 1) % cap) ++
      (r.buf.set r.head x).take ((r.head + 1) % cap) := rfl
  rw [htail, hpush, hset]
  rcases Nat.lt_or_eq_of_le (Nat.succ_le_of_lt r.head_lt) with hin | hend
  · have hdrop : (r.buf.take r.head ++ x :: r.buf.drop (r.head + 1)).drop (r.head + 1) = r.buf.drop (r.head + 1) := by
      rw [← List.drop_drop, List.drop_left' htake, List.drop_one, List.tail_cons]
    have htake' : (r.buf.take r.head ++ x :: r.buf.drop (r.head + 1)).take (r.head + 1) =
        r.buf.take r.head ++ [x] := by
      rw [List.take_append, htake, List.take_of_length_le (by omega), Nat.add_sub_cancel_left]
      rfl
    rw [Nat.mod_eq_of_lt hin, hdrop, htake', List.append_assoc]
  · have hnil : r.buf.drop (r.head + 1) = [] := List.drop_eq_nil_of_le (by omega)
    have hmod : (r.head + 1) % cap = 0 := by rw [show r.head + 1 = cap from hend, Nat.mod_self]
    rw [hmod, hnil, List.drop_zero, List.take_zero, List.append_nil, List.nil_append]

theorem window_pushAll (r : RingBuffer α cap) (xs : List α) :
    (r.pushAll xs).window = (r.window ++ xs).drop xs.length := by
  induction xs generalizing r with
  | nil => rw [List.append_nil, List.length_nil, List.drop_zero]; rfl
  | cons x xs ih =>
    have hstep : (r.pushAll (x :: xs)).window = ((r.push x).window ++ xs).drop xs.length := ih (r.push x)
    have hpos : 0 < r.window.length := by
      rw [length_window]
      exact Nat.zero_lt_of_lt r.head_lt
    obtain ⟨y, ys, hwindow⟩ := List.exists_cons_of_length_pos hpos
    rw [hstep, window_push, hwindow, List.tail_cons, List.length_cons, List.cons_append, List.drop_succ_cons,
      List.append_assoc, List.singleton_append]

theorem head_pushAll (r : RingBuffer α cap) (xs : List α) : (r.pushAll xs).head = (r.head + xs.length) % cap := by
  induction xs generalizing r with
  | nil => exact (Nat.mod_eq_of_lt r.head_lt).symm
  | cons x xs ih =>
    have hstep : (r.pushAll (x :: xs)).head = ((r.head + 1) % cap + xs.length) % cap := ih (r.push x)
    rw [hstep, Nat.mod_add_mod, List.length_cons, Nat.add_assoc, Nat.add_comm 1]

/-- As long as the head has not wrapped around, the slots below it hold what was pushed. -/
theorem take_pushAll {r : RingBuffer α cap} (hhead : r.head = 0) {xs : List α} (hfew : xs.length ≤ cap) :
    (r.pushAll xs).buf.take xs.length = xs := by
  have hwindow := window_pushAll r xs
  have hhead' := head_pushAll r xs
  have hlen := (r.pushAll xs).length_buf
  rw [hhead, Nat.zero_add] at hhead'
  rw [List.drop_append_of_le_length (by rw [length_window]; exact hfew), window, hhead'] at hwindow
  rcases Nat.lt_or_eq_of_le hfew with hlt | heq
  · rw [Nat.mod_eq_of_lt hlt] at hwindow
    exact (List.append_inj_right hwindow (by rw [List.length_drop, List.length_drop, length_window, hlen]))
  · have hdrop : r.window.drop xs.length = [] := List.drop_eq_nil_of_le (by rw [length_window]; omega)
    have hmod : xs.length % cap = 0 := by rw [heq, Nat.mod_self]
    rw [hmod, hdrop, List.drop_zero, List.take_zero, List.append_nil, List.nil_append] at hwindow
    rw [hwindow, List.take_length]

/-- **The last `n`.** On both sides of the first wrap. -/
theorem slots_perm_last {r : RingBuffer α cap} (hhead : r.head = 0) (xs : List α) :
    ((r.pushAll xs).buf.take (min xs.length cap)).Perm (xs.drop (xs.length - min xs.length cap)) := by
  rcases Nat.le_total xs.length cap with hfew | hmany
  · rw [Nat.min_eq_left hfew, take_pushAll hhead hfew, Nat.sub_self, List.drop_zero]
  · have hwindow := window_pushAll r xs
    have hdrop : (r.window ++ xs).drop xs.length = xs.drop (xs.length - cap) := by
      rw [List.drop_append, length_window, List.drop_eq_nil_of_le (by rw [length_window]; exact hmany), List.nil_append]
    rw [Nat.min_eq_right hmany, List.take_of_length_le (Nat.le_of_eq (r.pushAll xs).length_buf), ← hdrop, ← hwindow]
    exact (window_perm _).symm

end RingBuffer
