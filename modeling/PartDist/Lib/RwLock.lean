import Mathlib.Data.List.Induction
import Mathlib.Logic.Function.Basic
import PartDist.Lib.Run

/-!
# Critical sections under a reader-writer lock

Processes share a store that they touch only under a lock; a section takes the lock in
shared or exclusive mode, makes its accesses to the store one after the other, and releases
the lock.  Between sections a process works on its own registers.

`completed` lets every section that is under way run to its end.  If sections in shared
mode only read, this takes every run of lock operations and single accesses (`step`) to a
run in which a section is one step (`wholeStep`):

* `Safe.step`: mutual exclusion, and that what is under way in shared mode only reads.
* `completed_run`: the simulation.
* `completed_invariant`: so an invariant need only be kept by whole sections.
-/

namespace RwLock

variable {π σ ρ ε : Type} [DecidableEq π]

inductive Mode
  | shared
  | exclusive
deriving DecidableEq

/-- One access: what it does to the store and to the registers of its process. -/
abbrev Access (σ ρ : Type) := σ → ρ → σ × ρ

structure Section (σ ρ : Type) where
  mode : Mode
  accesses : List (Access σ ρ)

/-- The section that a process with the given registers enters next, if that is what it
does next; and what it does otherwise, given what it learns from elsewhere. -/
structure Program (σ ρ ε : Type) where
  enters : ρ → Option (Section σ ρ)
  act : ε → ρ → ρ

/-- `rest p` are the accesses that `p` still has to make in the section it is in. -/
structure State (π σ ρ : Type) where
  store : σ
  regs : π → ρ
  writer : Option π
  readers : List π
  rest : π → List (Access σ ρ)

def State.start (store : σ) (regs : π → ρ) : State π σ ρ := ⟨store, regs, none, [], fun _ => []⟩

inductive Label (π ε : Type)
  | enter (p : π)
  | access (p : π)
  | leave (p : π)
  | act (p : π) (e : ε)

def runAccesses : List (Access σ ρ) → σ → ρ → σ × ρ
  | [], st, r => (st, r)
  | a :: as, st, r => runAccesses as (a st r).1 (a st r).2

theorem runAccesses_append {as bs : List (Access σ ρ)} {st st' : σ} {r r' : ρ} (h : runAccesses as st r = (st', r')) :
    runAccesses (as ++ bs) st r = runAccesses bs st' r' := by
  induction as generalizing st r with
  | nil =>
    obtain ⟨rfl, rfl⟩ := Prod.mk.inj h
    rfl
  | cons a as ih => exact ih h

/-- `p` holds the lock. -/
def State.Inside (s : State π σ ρ) (p : π) : Prop := s.writer = some p ∨ p ∈ s.readers

instance (s : State π σ ρ) (p : π) : Decidable (s.Inside p) := inferInstanceAs (Decidable (_ ∨ _))

/-- A process that is not inside gets the lock when its mode goes with those who have it. -/
def State.enter (s : State π σ ρ) (p : π) (c : Section σ ρ) : State π σ ρ :=
  match c.mode with
  | .exclusive =>
    if s.writer = none ∧ s.readers = [] then { s with writer := some p, rest := Function.update s.rest p c.accesses }
    else s
  | .shared =>
    if s.writer = none then { s with readers := p :: s.readers, rest := Function.update s.rest p c.accesses } else s

def step (prog : Program σ ρ ε) (s : State π σ ρ) : Label π ε → State π σ ρ
  | .enter p =>
    if s.Inside p then s
    else match prog.enters (s.regs p) with
      | some c => s.enter p c
      | none => s
  | .access p =>
    match s.rest p with
    | a :: as =>
      { s with
        store := (a s.store (s.regs p)).1
        regs := Function.update s.regs p (a s.store (s.regs p)).2
        rest := Function.update s.rest p as }
    | [] => s
  | .leave p =>
    if s.rest p = [] then
      if s.writer = some p then { s with writer := none } else { s with readers := s.readers.erase p }
    else s
  | .act p e => if s.Inside p then s else { s with regs := Function.update s.regs p (prog.act e (s.regs p)) }

def run (prog : Program σ ρ ε) (s : State π σ ρ) (ls : List (Label π ε)) : State π σ ρ := ls.foldl (step prog) s

/-! ## Sections as one step -/

/-- The store and the registers, with no section under way. -/
structure Whole (π σ ρ : Type) where
  store : σ
  regs : π → ρ

def wholeStep (prog : Program σ ρ ε) (s : Whole π σ ρ) : Label π ε → Whole π σ ρ
  | .enter p =>
    match prog.enters (s.regs p) with
    | some c =>
      { store := (runAccesses c.accesses s.store (s.regs p)).1
        regs := Function.update s.regs p (runAccesses c.accesses s.store (s.regs p)).2 }
    | none => s
  | .access _ => s
  | .leave _ => s
  | .act p e => { s with regs := Function.update s.regs p (prog.act e (s.regs p)) }

def wholeRun (prog : Program σ ρ ε) (s : Whole π σ ρ) (ls : List (Label π ε)) : Whole π σ ρ :=
  ls.foldl (wholeStep prog) s

/-- Every section under way is run to its end. -/
def State.completed (s : State π σ ρ) : Whole π σ ρ where
  store := match s.writer with
    | some p => (runAccesses (s.rest p) s.store (s.regs p)).1
    | none => s.store
  regs := fun p => (runAccesses (s.rest p) s.store (s.regs p)).2

/-! ## Mutual exclusion -/

def Reads (as : List (Access σ ρ)) : Prop := ∀ a ∈ as, ∀ st r, (a st r).1 = st

/-- Sections in shared mode only read. -/
def Program.SharedReads (prog : Program σ ρ ε) : Prop :=
  ∀ r, ∀ c ∈ prog.enters r, c.mode = .shared → Reads c.accesses

structure Safe (s : State π σ ρ) : Prop where
  alone : s.writer ≠ none → s.readers = []
  nodup : s.readers.Nodup
  outside : ∀ p, ¬ s.Inside p → s.rest p = []
  reads : ∀ p ∈ s.readers, Reads (s.rest p)

section
variable {prog : Program σ ρ ε} {s : State π σ ρ} {as : List (Access σ ρ)} {p : π}

omit [DecidableEq π] in
theorem safe_start (store : σ) (regs : π → ρ) : Safe (State.start store regs) :=
  ⟨fun h => absurd rfl h, List.nodup_nil, fun _ _ => rfl, fun _ hp => absurd hp List.not_mem_nil⟩

theorem Reads.store (h : Reads as) (st : σ) (r : ρ) : (runAccesses as st r).1 = st := by
  induction as generalizing st r with
  | nil => rfl
  | cons a as ih =>
    rw [runAccesses, ih fun b hb => h b (List.mem_cons_of_mem a hb)]
    exact h a List.mem_cons_self st r

omit [DecidableEq π] in
theorem Safe.not_inside_of_writer (hs : Safe s) {q : π} (hw : s.writer = some p) (hq : q ≠ p) : ¬ s.Inside q := by
  rintro (h | h)
  · exact hq (Option.some.inj (h.symm.trans hw))
  · rw [hs.alone (by rw [hw]; exact Option.some_ne_none p)] at h
    exact absurd h List.not_mem_nil

/-- Who is not the writer does not change the store by its next access. -/
theorem Safe.access_store (hs : Safe s) {a : Access σ ρ} (hrest : s.rest p = a :: as) (hw : s.writer ≠ some p)
    (st : σ) (r : ρ) : (a st r).1 = st := by
  have hin : s.Inside p := by
    by_contra hout
    rw [hs.outside p hout] at hrest
    cases hrest
  have hreads := hs.reads p (hin.resolve_left hw)
  rw [hrest] at hreads
  exact hreads a List.mem_cons_self st r

theorem Safe.step (hprog : prog.SharedReads) (hs : Safe s) (l : Label π ε) : Safe (step prog s l) := by
  cases l with
  | enter p =>
    simp only [RwLock.step]
    split
    · exact hs
    · next hout =>
      cases hc : prog.enters (s.regs p) with
      | none => exact hs
      | some c =>
        dsimp only
        unfold State.enter
        cases hm : c.mode with
        | exclusive =>
          dsimp only
          split
          · next hfree =>
            refine ⟨fun _ => hfree.2, hs.nodup, fun q hq => ?_, fun q hq => ?_⟩
            · have hqp : q ≠ p := fun h => hq (Or.inl (by rw [h]))
              show Function.update s.rest p c.accesses q = []
              rw [Function.update_of_ne hqp]
              refine hs.outside q fun h => ?_
              rcases h with h | h
              · rw [hfree.1] at h
                cases h
              · exact hq (Or.inr h)
            · rw [hfree.2] at hq
              exact absurd hq List.not_mem_nil
          · exact hs
        | shared =>
          dsimp only
          split
          · next hfree =>
            have hp : p ∉ s.readers := fun h => hout (Or.inr h)
            refine ⟨fun h => absurd hfree h, List.nodup_cons.mpr ⟨hp, hs.nodup⟩, fun q hq => ?_, fun q hq => ?_⟩
            · have hqp : q ≠ p := fun h => hq (Or.inr (by rw [h]; exact List.mem_cons_self))
              show Function.update s.rest p c.accesses q = []
              rw [Function.update_of_ne hqp]
              exact hs.outside q fun h => hq (h.imp id (List.mem_cons_of_mem p))
            · show Reads (Function.update s.rest p c.accesses q)
              rcases List.mem_cons.mp hq with rfl | hq
              · rw [Function.update_self]
                exact hprog _ c hc hm
              · rw [Function.update_of_ne fun h => hp (by rw [← h]; exact hq)]
                exact hs.reads q hq
          · exact hs
  | access p =>
    simp only [RwLock.step]
    cases hrest : s.rest p with
    | nil => exact hs
    | cons a as =>
      dsimp only
      refine ⟨hs.alone, hs.nodup, fun q hq => ?_, fun q hq => ?_⟩
      · have hq' := hs.outside q hq
        have hqp : q ≠ p := by
          rintro rfl
          rw [hq'] at hrest
          cases hrest
        show Function.update s.rest p as q = []
        rw [Function.update_of_ne hqp]
        exact hq'
      · show Reads (Function.update s.rest p as q)
        by_cases hqp : q = p
        · subst hqp
          rw [Function.update_self]
          have hreads := hs.reads q hq
          rw [hrest] at hreads
          exact fun b hb => hreads b (List.mem_cons_of_mem a hb)
        · rw [Function.update_of_ne hqp]
          exact hs.reads q hq
  | leave p =>
    simp only [RwLock.step]
    split
    · next hdone =>
      split
      · next hw =>
        refine ⟨fun h => absurd rfl h, hs.nodup, fun q hq => ?_, hs.reads⟩
        by_cases hqp : q = p
        · rw [hqp]
          exact hdone
        · exact hs.outside q (hs.not_inside_of_writer hw hqp)
      · refine ⟨fun h => ?_, hs.nodup.erase p, fun q hq => ?_, fun q hq => hs.reads q (List.mem_of_mem_erase hq)⟩
        · show s.readers.erase p = []
          rw [hs.alone h]
          rfl
        · by_cases hqp : q = p
          · rw [hqp]
            exact hdone
          · exact hs.outside q fun h => hq (h.imp id fun hmem => (List.mem_erase_of_ne hqp).mpr hmem)
    · exact hs
  | act p e =>
    simp only [RwLock.step]
    split
    · exact hs
    · exact ⟨hs.alone, hs.nodup, hs.outside, hs.reads⟩

/-! ## Simulation -/

/-- The process that gets the lock has its whole section before it. -/
theorem completed_enter (hs : Safe s) (hout : ¬ s.Inside p) {c : Section σ ρ} (hc : prog.enters (s.regs p) = some c)
    (hreads : c.mode = .shared → Reads c.accesses) :
    (s.enter p c).completed = s.completed ∨ (s.enter p c).completed = wholeStep prog s.completed (.enter p) := by
  have hp : s.completed.regs p = s.regs p := by
    simp only [State.completed, hs.outside p hout, runAccesses]
  have hregs : ∀ q, (runAccesses (Function.update s.rest p c.accesses q) s.store (s.regs q)).2 =
      Function.update s.completed.regs p (runAccesses c.accesses s.store (s.regs p)).2 q := by
    intro q
    by_cases hqp : q = p
    · subst hqp
      rw [Function.update_self, Function.update_self]
    · rw [Function.update_of_ne hqp, Function.update_of_ne hqp]
      rfl
  unfold State.enter
  cases hm : c.mode with
  | exclusive =>
    dsimp only
    split
    · next hfree =>
      right
      have hstore : s.completed.store = s.store := by simp only [State.completed, hfree.1]
      simp only [wholeStep, hp, hc, hstore]
      simp only [State.completed, Function.update_self, Whole.mk.injEq, true_and]
      exact funext hregs
    · exact Or.inl rfl
  | shared =>
    dsimp only
    split
    · next hfree =>
      right
      have hstore : s.completed.store = s.store := by simp only [State.completed, hfree]
      simp only [wholeStep, hp, hc, hstore, (hreads hm).store]
      simp only [State.completed, hfree, Whole.mk.injEq, true_and]
      exact funext hregs
    · exact Or.inl rfl

/-- A single access is part of the section that has been counted as made. -/
theorem completed_access (hs : Safe s) (p : π) : (step prog s (.access p)).completed = s.completed := by
  simp only [RwLock.step]
  cases hrest : s.rest p with
  | nil => rfl
  | cons a as =>
    dsimp only
    have hself : ∀ st r, runAccesses (s.rest p) st r = runAccesses as (a st r).1 (a st r).2 := fun st r => by
      rw [hrest, runAccesses]
    have hother : ∀ q, q ≠ p → runAccesses (s.rest q) (a s.store (s.regs p)).1 (s.regs q) =
        ((a s.store (s.regs p)).1, (runAccesses (s.rest q) s.store (s.regs q)).2) ∨
        (a s.store (s.regs p)).1 = s.store := by
      intro q hq
      by_cases hw : s.writer = some p
      · left
        rw [hs.outside q (hs.not_inside_of_writer hw hq)]
        rfl
      · exact Or.inr (hs.access_store hrest hw _ _)
    simp only [State.completed, Whole.mk.injEq]
    constructor
    · cases hw : s.writer with
      | none => exact hs.access_store hrest (by rw [hw]; exact fun h => by cases h) _ _
      | some q =>
        dsimp only
        by_cases hqp : q = p
        · subst hqp
          rw [Function.update_self, Function.update_self, hself]
        · have hsame := hs.access_store hrest (by rw [hw]; exact fun h => hqp (Option.some.inj h)) s.store (s.regs p)
          rw [Function.update_of_ne hqp, Function.update_of_ne hqp, hsame]
    · funext q
      by_cases hqp : q = p
      · subst hqp
        rw [Function.update_self, Function.update_self, hself]
      · rw [Function.update_of_ne hqp, Function.update_of_ne hqp]
        rcases hother q hqp with h | h
        · rw [h]
        · rw [h]

theorem completed_leave (p : π) : (step prog s (.leave p)).completed = s.completed := by
  simp only [RwLock.step]
  split
  · next hdone =>
    split
    · next hw => simp only [State.completed, hw, hdone, runAccesses]
    · rfl
  · rfl

theorem completed_act (hs : Safe s) (p : π) (e : ε) :
    (step prog s (.act p e)).completed = s.completed ∨
      (step prog s (.act p e)).completed = wholeStep prog s.completed (.act p e) := by
  simp only [RwLock.step]
  split
  · exact Or.inl rfl
  · next hout =>
    right
    have hp : s.completed.regs p = s.regs p := by
      simp only [State.completed, hs.outside p hout, runAccesses]
    simp only [wholeStep, hp]
    simp only [State.completed, Whole.mk.injEq]
    constructor
    · cases hw : s.writer with
      | none => rfl
      | some q =>
        have hqp : q ≠ p := fun h => hout (Or.inl (by rw [hw, h]))
        dsimp only
        rw [Function.update_of_ne hqp]
    · funext q
      by_cases hqp : q = p
      · subst hqp
        rw [Function.update_self, Function.update_self, hs.outside q hout]
        rfl
      · rw [Function.update_of_ne hqp, Function.update_of_ne hqp]

/-- A step is one with whole sections, or none. -/
theorem completed_step (hprog : prog.SharedReads) (hs : Safe s) (l : Label π ε) :
    (step prog s l).completed = s.completed ∨ (step prog s l).completed = wholeStep prog s.completed l := by
  cases l with
  | enter p =>
    simp only [RwLock.step]
    split
    · exact Or.inl rfl
    · next hout =>
      cases hc : prog.enters (s.regs p) with
      | none => exact Or.inl rfl
      | some c => exact completed_enter hs hout hc fun hm => hprog _ c hc hm
  | access p => exact Or.inl (completed_access hs p)
  | leave p => exact Or.inl (completed_leave p)
  | act p e => exact completed_act hs p e

/-- **Atomic sections.** Every run of lock operations and single accesses is, with the
sections under way completed, a run of whole sections: those of the processes in the order
in which they got the lock. -/
theorem completed_run (hprog : prog.SharedReads) (hs : Safe s) (ls : List (Label π ε)) :
    ∃ ls', ls'.Sublist ls ∧ (run prog s ls).completed = wholeRun prog s.completed ls' ∧ Safe (run prog s ls) := by
  induction ls using List.reverseRecOn with
  | nil => exact ⟨[], List.Sublist.refl _, rfl, hs⟩
  | append_singleton ls l ih =>
    obtain ⟨ls', hsub, hrun, hsafe⟩ := ih
    have hsnoc : run prog s (ls ++ [l]) = step prog (run prog s ls) l := List.foldl_concat ..
    rw [hsnoc]
    have hnext := hsafe.step hprog l
    rcases completed_step hprog hsafe l with h | h
    · exact ⟨ls', hsub.trans (List.sublist_append_left _ _), h.trans hrun, hnext⟩
    · refine ⟨ls' ++ [l], hsub.append (List.Sublist.refl _), ?_, hnext⟩
      rw [h, hrun]
      exact (List.foldl_concat ..).symm

omit [DecidableEq π] in
theorem Safe.completed_regs (hs : Safe s) {p : π} (hp : ¬ s.Inside p) : s.completed.regs p = s.regs p := by
  have hrest : s.rest p = [] := hs.outside p hp
  simp only [State.completed, hrest, runAccesses]

/-- What whole sections and the steps between them keep holds of every run, with the sections
under way completed. -/
theorem completed_invariant (hprog : prog.SharedReads) (hs : Safe s) {I : Whole π σ ρ → Prop} (hI : I s.completed)
    {ls : List (Label π ε)} (hstep : ∀ l ∈ ls, ∀ w, I w → I (wholeStep prog w l)) :
    I (run prog s ls).completed ∧ Safe (run prog s ls) := by
  obtain ⟨ls', hsub, hrun, hsafe⟩ := completed_run hprog hs ls
  refine ⟨?_, hsafe⟩
  rw [hrun]
  refine Run.run_invariant (wholeStep prog) (P := fun _ l => l ∈ ls) hI (fun w l hw hl => hstep l hl w hw) ?_
  exact Run.along_of_forall (wholeStep prog) fun l hl => hsub.subset hl

end

end RwLock
