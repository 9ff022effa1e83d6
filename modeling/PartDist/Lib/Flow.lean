import PartDist.Lib.Raise

/-!
# Control flow of C

A statement is a state transformer that ends normally or in a jump: a `continue`
that looks for its loop, an error that looks for its handler, a fault that ends the
process.  `do { .. } while (0)` is a loop as well, and a `continue` inside it gets no
further; so none gets out of a `PG_TRY` block.
-/

namespace Flow

/-! ## Statements -/

inductive Jump
  | continues
  | raises
  | faults
deriving DecidableEq

abbrev Stmt (σ α : Type) := EStateM Jump σ α

variable {σ : Type}

/-- `do { body } while (0)`. -/
def doWhile0 (body : Stmt σ Unit) : Stmt σ Unit := fun s =>
  match body s with
  | .error .continues s' => .ok () s'
  | r => r

/-- `if (sigsetjmp(buf, 0) == 0) { body } else { handler }`. -/
def sigsetjmp (body handler : Stmt σ Unit) : Stmt σ Unit := fun s =>
  match body s with
  | .error .raises s' => handler s'
  | r => r

/-- `PG_TRY(); { body } PG_CATCH(); { handler } PG_END_TRY();`. -/
def pgTry (body handler : Stmt σ Unit) : Stmt σ Unit := doWhile0 (sigsetjmp body handler)

/-- One turn of a `while` loop: the state after it, and whether the loop goes on. -/
def turnOf (body : Stmt σ Unit) (s : σ) : σ × Bool :=
  match body s with
  | .ok _ s' => (s', true)
  | .error .continues s' => (s', true)
  | .error _ s' => (s', false)

/-! ## `PG_TRY` -/

section
variable {body handler : Stmt σ Unit} {s s' s'' : σ}

theorem pgTry_ok (h : body.run s = .ok () s') : (pgTry body handler).run s = .ok () s' := by
  unfold EStateM.run at h ⊢
  simp only [pgTry, doWhile0, sigsetjmp, h]

/-- A handler that ends normally, or that tries to go on with the loop around. -/
theorem pgTry_caught (h : body.run s = .error .raises s')
    (hh : handler.run s' = .ok () s'' ∨ handler.run s' = .error .continues s'') :
    (pgTry body handler).run s = .ok () s'' := by
  unfold EStateM.run at h hh ⊢
  rcases hh with hh | hh
  · simp only [pgTry, doWhile0, sigsetjmp, h, hh]
  · simp only [pgTry, doWhile0, sigsetjmp, h, hh]

end

/-! ## Sequences -/

section
variable {α β : Type} {x : Stmt σ α} {f : α → Stmt σ β} {s s' : σ}

theorem bind_ok {a : α} (h : x.run s = .ok a s') : (x >>= f).run s = (f a).run s' := by
  rw [EStateM.run_bind, h]

theorem bind_error {j : Jump} (h : x.run s = .error j s') : (x >>= f).run s = .error j s' := by
  rw [EStateM.run_bind, h]

end

end Flow
