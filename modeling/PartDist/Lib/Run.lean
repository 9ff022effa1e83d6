import Mathlib.Data.List.Basic

/-!
# Runs of a step function

A run is a list of labels folded through `step : σ → ε → σ`.  `Along step P s es`
says that `P` holds before each step of the run, of the state and the label; it
is how a run is restricted to steps that meet a condition.

* `run_history`: an invariant of the state and the labels taken so far.
* `run_invariant`: an invariant of the state.
* `along_of_history`: under such an invariant one condition gives another.
* `outputs_simulate`: two systems in lockstep put out the same.
-/

namespace Run

variable {σ ε : Type} (step : σ → ε → σ) {P Q : σ → ε → Prop} {s : σ}

/-- `P` holds before every step of the run. -/
def Along (P : σ → ε → Prop) : σ → List ε → Prop
  | _, [] => True
  | s, e :: es => P s e ∧ Along P (step s e) es

instance [∀ s e, Decidable (P s e)] (s : σ) (es : List ε) : Decidable (Along step P s es) :=
  go s es
where
  go : (s : σ) → (es : List ε) → Decidable (Along step P s es)
    | _, [] => isTrue trivial
    | s, e :: es => @instDecidableAnd _ _ inferInstance (go (step s e) es)

@[simp] theorem along_nil : Along step P s [] := trivial

@[simp] theorem along_cons {e : ε} {es : List ε} :
    Along step P s (e :: es) ↔ P s e ∧ Along step P (step s e) es := Iff.rfl

theorem along_append {es es' : List ε} :
    Along step P s (es ++ es') ↔ Along step P s es ∧ Along step P (es.foldl step s) es' := by
  induction es generalizing s with
  | nil => simp
  | cons e es ih => simp only [List.cons_append, along_cons, List.foldl_cons, ih, and_assoc]

theorem along_snoc {l : List ε} {e : ε} :
    Along step P s (l ++ [e]) ↔ Along step P s l ∧ P (l.foldl step s) e := by
  rw [along_append, along_cons]
  simp

/-- An invariant of the state and of the labels taken so far. -/
theorem run_history {I : List ε → σ → Prop} (hinit : I [] s)
    (hstep : ∀ done s e, I done s → P s e → I (done ++ [e]) (step s e)) {es : List ε}
    (h : Along step P s es) : I es (es.foldl step s) := by
  -- from any point of the run to its end
  have key : ∀ (todo done : List ε) (s : σ), I done s → Along step P s todo →
      I (done ++ todo) (todo.foldl step s) := by
    intro todo
    induction todo with
    | nil => intro done s hs _; rw [List.append_nil]; exact hs
    | cons e todo ih =>
      intro done s hs halong
      have := ih (done ++ [e]) (step s e) (hstep done s e hs halong.1) halong.2
      rwa [List.append_assoc] at this
  exact key es [] s hinit h

theorem run_invariant {I : σ → Prop} (hinit : I s)
    (hstep : ∀ s e, I s → P s e → I (step s e)) {es : List ε} (h : Along step P s es) :
    I (es.foldl step s) :=
  run_history step (I := fun _ s => I s) hinit (fun _ s e => hstep s e) h

/-- A condition that holds under an invariant kept along the run. -/
theorem along_of_history {I : List ε → σ → Prop} (hinit : I [] s)
    (hstep : ∀ done s e, I done s → P s e → I (done ++ [e]) (step s e))
    (hQ : ∀ done s e, I done s → P s e → Q s e) {es : List ε} (h : Along step P s es) :
    Along step Q s es := by
  have key : ∀ (todo done : List ε) (s : σ), I done s → Along step P s todo →
      Along step Q s todo := by
    intro todo
    induction todo with
    | nil => exact fun _ _ _ _ => trivial
    | cons e todo ih =>
      exact fun done s hs halong =>
        ⟨hQ done s e hs halong.1, ih (done ++ [e]) _ (hstep done s e hs halong.1) halong.2⟩
  exact key es [] s hinit h

theorem along_mono (hPQ : ∀ s e, P s e → Q s e) {es : List ε} (h : Along step P s es) :
    Along step Q s es :=
  along_of_history step (I := fun _ _ => True) trivial (fun _ _ _ _ _ => trivial)
    (fun _ s e _ => hPQ s e) h

/-- A condition on the labels alone. -/
theorem along_of_forall {C : ε → Prop} {es : List ε} (h : ∀ e ∈ es, C e) :
    Along step (fun _ e => C e) s es := by
  induction es generalizing s with
  | nil => trivial
  | cons e es ih =>
    exact ⟨h e List.mem_cons_self, ih fun e' he' => h e' (List.mem_cons_of_mem e he')⟩

theorem forall_of_along {C : ε → Prop} {es : List ε} (h : Along step (fun _ e => C e) s es) :
    ∀ e ∈ es, C e := by
  induction es generalizing s with
  | nil => exact fun e he => nomatch he
  | cons e es ih =>
    intro e' he'
    rcases List.mem_cons.mp he' with rfl | he'
    · exact h.1
    · exact ih h.2 e' he'

theorem along_and {es : List ε} (hP : Along step P s es) (hQ : Along step Q s es) :
    Along step (fun s e => P s e ∧ Q s e) s es := by
  induction es generalizing s with
  | nil => trivial
  | cons e es ih => exact ⟨⟨hP.1, hQ.1⟩, ih hP.2 hQ.2⟩

/-- The condition at every point of the run. -/
theorem along_iff_forall {es : List ε} :
    Along step P s es ↔ ∀ done e rest, es = done ++ e :: rest → P (done.foldl step s) e := by
  constructor
  · rintro h done e rest rfl
    exact ((along_append step).mp h).2.1
  · induction es generalizing s with
    | nil => exact fun _ => trivial
    | cons e es ih =>
      intro h
      refine ⟨h [] e es rfl, ih fun done e' rest hes => ?_⟩
      rw [← List.foldl_cons]
      exact h (e :: done) e' rest (by rw [hes, List.cons_append])

/-- Two conditions that are the same under an invariant. -/
theorem along_iff {I : σ → Prop} (hI : I s) (hiff : ∀ s e, I s → (P s e ↔ Q s e))
    (hstep : ∀ s e, I s → P s e → I (step s e)) {es : List ε} : Along step P s es ↔ Along step Q s es := by
  induction es generalizing s with
  | nil => exact Iff.rfl
  | cons e es ih =>
    rw [along_cons, along_cons, ← hiff s e hI]
    exact and_congr_right fun hP => ih (hstep s e hI hP)

/-! ## Outputs -/

/-- What the run puts out before each step. -/
def outputs {β : Type} (out : σ → ε → β) : σ → List ε → List β
  | _, [] => []
  | s, e :: es => out s e :: outputs out (step s e) es

theorem outputs_append {β : Type} (out : σ → ε → β) {es es' : List ε} :
    outputs step out s (es ++ es') = outputs step out s es ++ outputs step out (es.foldl step s) es' := by
  induction es generalizing s with
  | nil => rfl
  | cons e es ih => rw [List.cons_append, outputs, outputs, ih, List.cons_append, List.foldl_cons]

/-- A relation of the states of two systems that their steps keep and that makes them put
out the same. -/
theorem outputs_simulate {τ β : Type} {step' : τ → ε → τ} {P : τ → ε → Prop} {out : σ → ε → β} {out' : τ → ε → β}
    {R : σ → τ → Prop} (hstep : ∀ s t e, R s t → P t e → R (step s e) (step' t e))
    (hout : ∀ s t e, R s t → P t e → out s e = out' t e) {t : τ} {es : List ε} (hR : R s t)
    (h : Along step' P t es) : outputs step out s es = outputs step' out' t es := by
  induction es generalizing s t with
  | nil => rfl
  | cons e es ih =>
    rw [outputs, outputs, hout s t e hR h.1, ih (hstep s t e hR h.1) h.2]

end Run
