import Mathlib.Data.List.Basic
import Mathlib.Logic.Function.Basic
import Mathlib.Order.Basic

/-!
# Tables with a primary key

The rows of a table by their primary key, and the statements that write them: `INSERT` with
`ON CONFLICT`, `UPDATE` and `DELETE`, each row by row, through the table's column checks, its
trigger before an update and the uniqueness of the key.  A statement that fails leaves no
table.

* `exec_writes`: a statement is a sequence of writes of single rows, so what is transitive
  and holds across each of them holds across the statement.
* `exec_unwritten`: a row whose key is not written is as it was.
* `Schema.Versioned.exec`: if the trigger raises a version, a row that stays in the table is
  the same or has a higher version.
-/

/-- The rows by key. -/
structure PkTable {κ τ : Type} (key : τ → κ) where
  find : κ → Option τ
  keyed : ∀ k, ∀ r ∈ find k, key r = k

namespace PkTable

variable {κ τ β : Type} [DecidableEq κ]

section
variable {key : τ → κ}

def empty : PkTable key := ⟨fun _ => none, fun _ _ h => by cases h⟩

def put (t : PkTable key) (r : τ) : PkTable key where
  find := Function.update t.find (key r) (some r)
  keyed k r' h := by
    by_cases hk : k = key r
    · subst hk
      rw [Function.update_self] at h
      exact congrArg key (Option.some.inj h).symm
    · rw [Function.update_of_ne hk] at h
      exact t.keyed k r' h

def erase (t : PkTable key) (k : κ) : PkTable key where
  find := Function.update t.find k none
  keyed k' r h := by
    by_cases hk : k' = k
    · subst hk
      rw [Function.update_self] at h
      cases h
    · rw [Function.update_of_ne hk] at h
      exact t.keyed k' r h

variable {t : PkTable key} {r : τ} {k k' : κ}

@[simp] theorem find_put_self : (t.put r).find (key r) = some r := Function.update_self ..

theorem find_put_of_ne (h : k ≠ key r) : (t.put r).find k = t.find k := Function.update_of_ne h ..

@[simp] theorem find_erase_self : (t.erase k).find k = none := Function.update_self ..

theorem find_erase_of_ne (h : k' ≠ k) : (t.erase k).find k' = t.find k' := Function.update_of_ne h ..

end

/-! ## Statements -/

/-- What a table makes of the values given for a row: `check` puts in the defaults and checks
the constraints, `beforeUpdate` is the trigger, from the old row and the new values. -/
structure Schema (κ τ β : Type) where
  key : τ → κ
  check : β → Option τ
  beforeUpdate : τ → β → Option β

inductive OnConflict (τ β : Type)
  | error
  | doNothing
  | doUpdate (set : τ → τ → β)

/-- `scan` are the keys of the rows that satisfy the `WHERE`, in the order of the scan. -/
inductive Statement (κ τ β : Type)
  | insert (values : List β) (onConflict : OnConflict τ β)
  | update (scan : List κ) (set : τ → β)
  | delete (scan : List κ)

/-- A statement in progress, with the keys it has written. -/
structure Command {κ τ : Type} (key : τ → κ) where
  table : PkTable key
  written : List κ

/-- What the new row is, from the values that are set. -/
def Schema.updated (sch : Schema κ τ β) (old : τ) (v : β) : Option τ := (sch.beforeUpdate old v).bind sch.check

def updateRow (sch : Schema κ τ β) (c : Command sch.key) (old : τ) (v : β) : Option (Command sch.key) :=
  match sch.updated old v with
  | none => none
  | some new =>
    if sch.key new ≠ sch.key old ∧ (c.table.find (sch.key new)).isSome then none
    else some ⟨(c.table.erase (sch.key old)).put new, sch.key old :: sch.key new :: c.written⟩

/-- `ON CONFLICT DO UPDATE` fails at a row that the statement has written itself. -/
def insertRow (sch : Schema κ τ β) (onConflict : OnConflict τ β) (c : Command sch.key) (v : β) :
    Option (Command sch.key) :=
  match sch.check v with
  | none => none
  | some r =>
    match c.table.find (sch.key r) with
    | none => some ⟨c.table.put r, sch.key r :: c.written⟩
    | some old =>
      match onConflict with
      | .error => none
      | .doNothing => some c
      | .doUpdate set => if sch.key r ∈ c.written then none else updateRow sch c old (set old r)

def deleteRow (sch : Schema κ τ β) (c : Command sch.key) (k : κ) : Command sch.key :=
  ⟨c.table.erase k, k :: c.written⟩

def exec (sch : Schema κ τ β) (t : PkTable sch.key) : Statement κ τ β → Option (Command sch.key)
  | .insert values onConflict => values.foldlM (insertRow sch onConflict) ⟨t, []⟩
  | .update scan set =>
    scan.foldlM (fun c k => match c.table.find k with
      | some old => updateRow sch c old (set old)
      | none => some c) ⟨t, []⟩
  | .delete scan => some (scan.foldl (deleteRow sch) ⟨t, []⟩)

/-! ## The rows that a statement writes -/

/-- The statement can set `old` to these values. -/
def Statement.Sets (sch : Schema κ τ β) : Statement κ τ β → τ → β → Prop
  | .insert _ (.doUpdate set), old, v => ∃ r, sch.key r = sch.key old ∧ v = set old r
  | .insert _ _, _, _ => False
  | .update scan set, old, v => sch.key old ∈ scan ∧ v = set old
  | .delete _, _, _ => False

def Statement.deletes : Statement κ τ β → List κ
  | .delete scan => scan
  | .insert _ _ | .update _ _ => []

/-- One row is written. -/
inductive RowWrite (sch : Schema κ τ β) (st : Statement κ τ β) (c : Command sch.key) : Command sch.key → Prop
  | insert (r : τ) (hfree : c.table.find (sch.key r) = none) :
    RowWrite sch st c ⟨c.table.put r, sch.key r :: c.written⟩
  | update (old : τ) (v : β) (new : τ) (hold : c.table.find (sch.key old) = some old) (hset : st.Sets sch old v)
    (hnew : sch.updated old v = some new)
    (hfree : sch.key new = sch.key old ∨ c.table.find (sch.key new) = none) :
    RowWrite sch st c ⟨(c.table.erase (sch.key old)).put new, sch.key old :: sch.key new :: c.written⟩
  | delete (k : κ) (hk : k ∈ st.deletes) : RowWrite sch st c (deleteRow sch c k)

section
variable {sch : Schema κ τ β} {st : Statement κ τ β} {t : PkTable sch.key} {c c' : Command sch.key}

theorem updateRow_writes {old : τ} {v : β} (hold : c.table.find (sch.key old) = some old)
    (hset : st.Sets sch old v) (h : updateRow sch c old v = some c') : RowWrite sch st c c' := by
  unfold updateRow at h
  split at h
  · cases h
  · next new hnew =>
    split at h
    · cases h
    · next hfree =>
      obtain rfl := Option.some.inj h
      refine .update old v new hold hset hnew ?_
      rcases Decidable.not_and_iff_not_or_not.mp hfree with hkey | hnone
      · exact Or.inl (not_not.mp hkey)
      · exact Or.inr (Option.not_isSome_iff_eq_none.mp hnone)

theorem insertRow_writes {values : List β} {onConflict : OnConflict τ β} {v : β}
    (h : insertRow sch onConflict c v = some c') :
    c' = c ∨ RowWrite sch (.insert values onConflict) c c' := by
  unfold insertRow at h
  split at h
  · cases h
  · next r hr =>
    split at h
    · next hfree =>
      obtain rfl := Option.some.inj h
      exact Or.inr (.insert r hfree)
    · next old hold =>
      have hkey : sch.key old = sch.key r := c.table.keyed _ _ hold
      split at h
      · cases h
      · exact Or.inl (Option.some.inj h).symm
      · next set =>
        split at h
        · cases h
        · refine Or.inr (updateRow_writes ?_ ⟨r, hkey.symm, rfl⟩ h)
          rw [hkey]
          exact hold

variable {R : Command sch.key → Command sch.key → Prop}

theorem foldlM_writes (hrefl : ∀ c, R c c) (htrans : ∀ c₁ c₂ c₃, R c₁ c₂ → R c₂ c₃ → R c₁ c₃)
    (hrow : ∀ c c', RowWrite sch st c c' → R c c') {α : Type} {f : Command sch.key → α → Option (Command sch.key)}
    {as : List α} (hstep : ∀ c₁, ∀ a ∈ as, ∀ c₂, f c₁ a = some c₂ → c₂ = c₁ ∨ RowWrite sch st c₁ c₂)
    {c c' : Command sch.key} (h : as.foldlM f c = some c') : R c c' := by
  induction as generalizing c with
  | nil =>
    obtain rfl := Option.some.inj h
    exact hrefl c
  | cons a as ih =>
    rw [List.foldlM_cons] at h
    obtain ⟨c₁, hc₁, h⟩ := Option.bind_eq_some_iff.mp h
    have htail := ih (fun c₂ b hb => hstep c₂ b (List.mem_cons_of_mem a hb)) h
    rcases hstep c a List.mem_cons_self c₁ hc₁ with rfl | hw
    · exact htail
    · exact htrans c c₁ c' (hrow c c₁ hw) htail

/-- What is transitive and holds across each row that is written holds across the statement. -/
theorem exec_writes (hrefl : ∀ c, R c c) (htrans : ∀ c₁ c₂ c₃, R c₁ c₂ → R c₂ c₃ → R c₁ c₃)
    (hrow : ∀ c c', RowWrite sch st c c' → R c c') (h : exec sch t st = some c) : R ⟨t, []⟩ c := by
  cases st with
  | insert values onConflict => exact foldlM_writes hrefl htrans hrow (fun _ _ _ _ h => insertRow_writes h) h
  | update scan set =>
    refine foldlM_writes hrefl htrans hrow (fun c₁ k hk c₂ h => ?_) h
    split at h
    · next old hold =>
      have hkey : sch.key old = k := c₁.table.keyed _ _ hold
      subst hkey
      exact Or.inr (updateRow_writes hold ⟨hk, rfl⟩ h)
    · exact Or.inl (Option.some.inj h).symm
  | delete scan =>
    have hfold : scan.foldlM (fun c k => some (deleteRow sch c k)) ⟨t, []⟩ = some c := (List.foldlM_pure ..).trans h
    refine foldlM_writes hrefl htrans hrow ?_ hfold
    intro c₁ k hk c₂ h
    obtain rfl := Option.some.inj h
    exact Or.inr (.delete k hk)

theorem RowWrite.unwritten (h : RowWrite sch st c c') :
    c.written ⊆ c'.written ∧ ∀ k ∉ c'.written, c'.table.find k = c.table.find k := by
  cases h with
  | insert r hfree =>
    refine ⟨List.subset_cons_self .., fun k hk => find_put_of_ne fun h => hk ?_⟩
    exact h ▸ List.mem_cons_self
  | update old v new hold hset hnew hfree =>
    refine ⟨List.Subset.trans (List.subset_cons_self ..) (List.subset_cons_self ..), fun k hk => ?_⟩
    rw [List.mem_cons, List.mem_cons, not_or, not_or] at hk
    exact (find_put_of_ne hk.2.1).trans (find_erase_of_ne hk.1)
  | delete k hk =>
    refine ⟨List.subset_cons_self .., fun k' hk' => find_erase_of_ne fun h => hk' ?_⟩
    exact h ▸ List.mem_cons_self

/-- Only rows whose keys are written change. -/
theorem exec_unwritten (h : exec sch t st = some c) {k : κ} (hk : k ∉ c.written) : c.table.find k = t.find k := by
  refine (exec_writes (R := fun c c' => c.written ⊆ c'.written ∧ ∀ k ∉ c'.written, c'.table.find k = c.table.find k)
    (fun _ => ⟨List.Subset.refl _, fun _ _ => rfl⟩) ?_ (fun _ _ => RowWrite.unwritten) h).2 k hk
  intro c₁ c₂ c₃ h₁₂ h₂₃
  exact ⟨List.Subset.trans h₁₂.1 h₂₃.1, fun k hk => (h₂₃.2 k hk).trans (h₁₂.2 k fun hk' => hk (h₂₃.1 hk'))⟩

/-! ## Versions -/

/-- The trigger raises the version of every row that is updated. -/
def Schema.Versioned {ν : Type} [LT ν] (sch : Schema κ τ β) (version : τ → ν) : Prop :=
  ∀ old v new, sch.updated old v = some new → version old < version new

/-- The statement neither deletes the row under `k` nor gives it another key. -/
def Statement.Keeps (sch : Schema κ τ β) (k : κ) (st : Statement κ τ β) : Prop :=
  k ∉ st.deletes ∧ ∀ old v new, sch.key old = k → st.Sets sch old v → sch.updated old v = some new → sch.key new = k

/-- The row under `k`, if there is one, is still there, as it was or with a higher version. -/
def Newer {ν : Type} [LT ν] {key : τ → κ} (version : τ → ν) (k : κ) (t t' : PkTable key) : Prop :=
  ∀ r ∈ t.find k, ∃ r' ∈ t'.find k, r' = r ∨ version r < version r'

variable {ν : Type} [Preorder ν] {version : τ → ν} {k : κ}

omit [DecidableEq κ] in
theorem Newer.trans {key : τ → κ} {t₁ t₂ t₃ : PkTable key} (h₁ : Newer version k t₁ t₂)
    (h₂ : Newer version k t₂ t₃) : Newer version k t₁ t₃ := by
  intro r hr
  obtain ⟨r₂, hr₂, h₂₁⟩ := h₁ r hr
  obtain ⟨r₃, hr₃, h₃₂⟩ := h₂ r₂ hr₂
  refine ⟨r₃, hr₃, ?_⟩
  rcases h₂₁ with rfl | h₂₁
  · exact h₃₂
  · rcases h₃₂ with rfl | h₃₂
    · exact Or.inr h₂₁
    · exact Or.inr (h₂₁.trans h₃₂)

theorem RowWrite.newer (hsch : sch.Versioned version) (hst : st.Keeps sch k) (h : RowWrite sch st c c') :
    Newer version k c.table c'.table := by
  intro r hr
  cases h with
  | insert r' hfree =>
    have hne : k ≠ sch.key r' := by
      rintro rfl
      rw [hfree] at hr
      cases hr
    exact ⟨r, (find_put_of_ne hne).trans hr, Or.inl rfl⟩
  | update old v new hold hset hnew hfree =>
    by_cases hk : sch.key old = k
    · have hkey : sch.key new = k := hst.2 old v new hk hset hnew
      have hold' : some old = some r := by rw [← hold, hk]; exact hr
      refine ⟨new, ?_, Or.inr (Option.some.inj hold' ▸ hsch old v new hnew)⟩
      rw [← hkey]
      exact find_put_self
    · -- the key that the row takes is free, so it is not `k`
      have hne : k ≠ sch.key new := by
        rintro rfl
        rcases hfree with h | h
        · exact hk h.symm
        · rw [h] at hr
          cases hr
      exact ⟨r, (find_put_of_ne hne).trans ((find_erase_of_ne (Ne.symm hk)).trans hr), Or.inl rfl⟩
  | delete k' hk' =>
    have hne : k ≠ k' := fun h => hst.1 (h ▸ hk')
    exact ⟨r, (find_erase_of_ne hne).trans hr, Or.inl rfl⟩

theorem Schema.Versioned.exec (hsch : sch.Versioned version) (hst : st.Keeps sch k)
    (h : exec sch t st = some c) : Newer version k t c.table :=
  exec_writes (R := fun c c' => Newer version k c.table c'.table) (fun _ r hr => ⟨r, hr, Or.inl rfl⟩)
    (fun _ _ _ => Newer.trans) (fun _ _ => RowWrite.newer hsch hst) h

end
end PkTable
