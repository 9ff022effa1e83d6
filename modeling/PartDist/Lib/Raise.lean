import Mathlib.Data.List.Basic

/-!
# Code that can raise an error

`EStateM ε σ` is a state that outlives an error.  A loop over a list, each element
with its position; a clean-up that runs in either case; and the state in which an
element finds its turn.

* `forEach_returns`: a loop returns if and only if its body does, at every element.
* `forEach_keeps`: what the body keeps, the loop keeps.
-/

namespace EStateM

variable {ε σ α β : Type}

def Result.state : Result ε σ α → σ
  | .ok _ s => s
  | .error _ s => s

def Result.value? : Result ε σ α → Option α
  | .ok a _ => some a
  | .error _ _ => none

def Result.raised? : Result ε σ α → Option ε
  | .ok _ _ => none
  | .error e _ => some e

@[simp] theorem Result.state_ok (a : α) (s : σ) : (.ok a s : Result ε σ α).state = s := rfl

@[simp] theorem Result.state_error (e : ε) (s : σ) : (.error e s : Result ε σ α).state = s := rfl

@[simp] theorem Result.value?_ok (a : α) (s : σ) : (.ok a s : Result ε σ α).value? = some a := rfl

@[simp] theorem Result.value?_error (e : ε) (s : σ) : (.error e s : Result ε σ α).value? = none := rfl

/-- Either there is a value or an error. -/
theorem Result.raised?_eq_none {r : Result ε σ α} : r.raised? = none ↔ r.value?.isSome := by
  cases r with
  | ok a s => exact ⟨fun _ => rfl, fun _ => rfl⟩
  | error e s => exact ⟨(fun h => nomatch h), (fun h => nomatch h)⟩

theorem Result.eq_ok {r : Result ε σ α} {a : α} (h : r.value? = some a) : r = .ok a r.state := by
  cases r with
  | ok b s => rw [Option.some.inj h, Result.state_ok]
  | error e s => cases h

/-- A clean-up, also after an error. -/
def finallyDo (x : EStateM ε σ α) (cleanUp : σ → σ) : EStateM ε σ α := fun s =>
  match x s with
  | .ok a s' => .ok a (cleanUp s')
  | .error e s' => .error e (cleanUp s')

@[simp] theorem finallyDo_value (x : EStateM ε σ α) (cleanUp : σ → σ) (s : σ) :
    ((finallyDo x cleanUp).run s).value? = (x.run s).value? := by
  unfold EStateM.run finallyDo
  split
  · next h => rw [h]; rfl
  · next h => rw [h]; rfl

@[simp] theorem finallyDo_state (x : EStateM ε σ α) (cleanUp : σ → σ) (s : σ) :
    ((finallyDo x cleanUp).run s).state = cleanUp (x.run s).state := by
  unfold EStateM.run finallyDo
  split
  · next h => rw [h]; rfl
  · next h => rw [h]; rfl

/-! ## Loops -/

/-- The body gets the position, counted from `n`. -/
def forEach (body : Nat → α → EStateM ε σ Unit) : Nat → List α → EStateM ε σ Unit
  | _, [] => pure ()
  | n, a :: as => do
    body n a
    forEach body (n + 1) as

/-- The state that element number `i` finds. -/
def turn (body : Nat → α → EStateM ε σ Unit) (n : Nat) (as : List α) (s : σ) (i : Nat) : σ :=
  ((forEach body n (as.take i)).run s).state

variable {body : Nat → α → EStateM ε σ Unit} {n : Nat} {a : α} {as : List α} {s : σ}

theorem forEach_cons_ok {u : Unit} {s' : σ} (h : (body n a).run s = .ok u s') :
    (forEach body n (a :: as)).run s = (forEach body (n + 1) as).run s' := by
  rw [forEach, run_bind, h]

theorem forEach_cons_error {e : ε} {s' : σ} (h : (body n a).run s = .error e s') :
    (forEach body n (a :: as)).run s = .error e s' := by
  rw [forEach, run_bind, h]

theorem forEach_singleton (body : Nat → α → EStateM ε σ Unit) (n : Nat) (a : α) :
    forEach body n [a] = body n a := by
  funext s
  show (forEach body n [a]).run s = (body n a).run s
  cases h : (body n a).run s with
  | ok u s' => rw [forEach_cons_ok h]; rfl
  | error e s' => rw [forEach_cons_error h]

@[simp] theorem turn_zero : turn body n as s 0 = s := rfl

theorem turn_succ {u : Unit} {s' : σ} (h : (body n a).run s = .ok u s') (i : Nat) :
    turn body n (a :: as) s (i + 1) = turn body (n + 1) as s' i := by
  rw [turn, List.take_succ_cons, forEach_cons_ok h, turn]

/-- The loop returns if and only if the body does in every turn. -/
theorem forEach_returns : ((forEach body n as).run s).value?.isSome = true ↔
    ∀ i a, as[i]? = some a → ((body (n + i) a).run (turn body n as s i)).value?.isSome = true := by
  induction as generalizing n s with
  | nil => exact ⟨(fun _ _ _ h => nomatch h), fun _ => rfl⟩
  | cons a as ih =>
    cases h : (body n a).run s with
    | error e s' =>
      rw [forEach_cons_error h]
      refine ⟨(fun hn => nomatch hn), fun hall => ?_⟩
      have h0 := hall 0 a rfl
      rw [turn_zero, Nat.add_zero, h] at h0
      cases h0
    | ok u s' =>
      rw [forEach_cons_ok h, ih]
      constructor
      · intro hall i b hb
        cases i with
        | zero =>
          obtain rfl := Option.some.inj hb
          rw [turn_zero, Nat.add_zero, h]
          rfl
        | succ i =>
          rw [turn_succ h, Nat.add_comm i 1, ← Nat.add_assoc]
          exact hall i b hb
      · intro hall i b hb
        have hi := hall (i + 1) b hb
        rwa [turn_succ h, Nat.add_comm i 1, ← Nat.add_assoc] at hi

/-- What the body keeps, whether it raises or not. -/
theorem forEach_keeps {P : σ → Prop} (hbody : ∀ n a s, P s → P ((body n a).run s).state) (hs : P s) :
    P ((forEach body n as).run s).state := by
  induction as generalizing n s with
  | nil => exact hs
  | cons a as ih =>
    have ha := hbody n a s hs
    cases h : (body n a).run s with
    | error e s' =>
      rw [forEach_cons_error h]
      rwa [h] at ha
    | ok u s' =>
      rw [forEach_cons_ok h]
      rw [h] at ha
      exact ih ha

theorem turn_keeps {P : σ → Prop} (hbody : ∀ n a s, P s → P ((body n a).run s).state) (hs : P s) (i : Nat) :
    P (turn body n as s i) :=
  forEach_keeps hbody hs

end EStateM
