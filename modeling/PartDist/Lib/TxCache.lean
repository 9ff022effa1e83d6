import PartDist.Lib.StampedCache
import PartDist.Lib.Run

/-!
# A shared cache of a transactional table

Sessions change rows in transactions.  A change is the session's own until the
transaction commits; a load sees the session's own changes, else a committed version
of the row.  The hash is not part of any transaction: what one session stores there
every session finds, whatever becomes of the transaction.

* `TxCache.Inv.step`: every entry comes from a committed version, as long as nothing is
  stored that is a change of the storing session's own.
* `TxCache.hits_known`: then every hit, in every run, does.
-/

namespace StampedCache

/-- A lookup that has missed: before its load, or before storing what it loaded, which is
the session's own change of the row if `own` is set. -/
inductive InFlight (κ δ : Type)
  | loading (k : κ)
  | storing (k : κ) (loaded : Option δ) (own : Bool)

/-- `own` has the changes of the open transaction, oldest first. -/
structure TxSession (κ ρ δ : Type) where
  own : κ → List (Option ρ)
  lookup : Option (InFlight κ δ)

def TxSession.idle {κ ρ δ : Type} : TxSession κ ρ δ := ⟨fun _ => [], none⟩

/-- `committed` has the committed versions of each row, oldest first. -/
structure TxCache (κ ρ δ ε γ : Type) where
  generation : Option γ
  hash : Finmap fun _ : κ => ε
  committed : κ → List (Option ρ)
  sessions : Nat → TxSession κ ρ δ

/-- Steps of session `i`; `version` is the committed version that the load's snapshot
shows. -/
inductive TxStep (κ ρ : Type)
  | write (i : Nat) (k : κ) (row : Option ρ)
  | lookup (i : Nat) (k : κ)
  | load (i : Nat) (version : Nat) (ok : Bool)
  | store (i : Nat)
  | invalidate
  | commit (i : Nat)
  | abort (i : Nat)

namespace TxCache

section
variable {κ ρ δ ε γ α : Type} (kind : Kind κ ρ δ ε γ α) [DecidableEq κ] [DecidableEq γ]

def setSession (c : TxCache κ ρ δ ε γ) (i : Nat) (s : TxSession κ ρ δ) : TxCache κ ρ δ ε γ :=
  { c with sessions := Function.update c.sessions i s }

/-- What a lookup returns from the cache. -/
def hit (c : TxCache κ ρ δ ε γ) (k : κ) : Option α := c.generation.bind fun g => kind.probe g c.hash k

/-- The row that session `i` sees. -/
def visible (c : TxCache κ ρ δ ε γ) (i : Nat) (k : κ) (version : Nat) : Option ρ :=
  match ((c.sessions i).own k).getLast? with
  | some row => row
  | none => versionAt (c.committed k) version

/-- A session whose lookup is in flight takes no other step but to abort, which an error
of the lookup makes it do. -/
def step (next : γ → γ) (c : TxCache κ ρ δ ε γ) : TxStep κ ρ → TxCache κ ρ δ ε γ
  | .write i k row =>
    let s := c.sessions i
    match s.lookup with
    | none => c.setSession i { s with own := Function.update s.own k (s.own k ++ [row]) }
    | some _ => c
  | .lookup i k =>
    let s := c.sessions i
    match s.lookup, c.hit kind k with
    | none, none => c.setSession i { s with lookup := some (.loading k) }
    | _, _ => c
  | .load i version ok =>
    let s := c.sessions i
    match s.lookup with
    | some (.loading k) =>
      if ok then
        c.setSession i { s with
          lookup := some (.storing k ((c.visible i k version).bind (kind.load k)) (!(s.own k).isEmpty)) }
      else c.setSession i TxSession.idle
    | _ => c
  | .store i =>
    let s := c.sessions i
    match s.lookup with
    | some (.storing k loaded _) =>
      match c.generation, loaded.filter kind.stores with
      | some g, some l =>
        match kind.enter g c.hash k l with
        | some hash => { c.setSession i { s with lookup := none } with hash := hash }
        | none => c.setSession i TxSession.idle
      | _, _ => c.setSession i { s with lookup := none }
    | _ => c
  | .invalidate => { c with generation := c.generation.map next }
  | .commit i =>
    let s := c.sessions i
    match s.lookup with
    | none => { c.setSession i TxSession.idle with
        committed := fun k => c.committed k ++ ((s.own k).getLast?).toList }
    | some _ => c
  | .abort i => c.setSession i TxSession.idle

/-- Session `i` may know the result `r` of a lookup of `k`: it is what a committed version
of the row gives, or a change of its own. -/
def Known (c : TxCache κ ρ δ ε γ) (i : Nat) (k : κ) (r : α) : Prop :=
  ∃ row, (row ∈ c.committed k ∨ row ∈ (c.sessions i).own k) ∧
    ∃ l, row.bind (kind.load k) = some l ∧ r = kind.answer (some l)

/-- A lookup that finds its row in the cache returns what the session may know. -/
def HitsKnown (c : TxCache κ ρ δ ε γ) : TxStep κ ρ → Prop
  | .lookup i k => (c.sessions i).lookup.isNone → ∀ r ∈ c.hit kind k, c.Known kind i k r
  | _ => True

/-- What is stored is not a change of the storing session's own. -/
def StoresCommitted (c : TxCache κ ρ δ ε γ) : TxStep κ ρ → Prop
  | .store i =>
    match (c.sessions i).lookup with
    | some (.storing _ loaded own) => c.generation.isSome → loaded.any kind.stores = true → own = false
    | _ => True
  | _ => True

/-- What is stored, or about to be stored though not the session's own, comes from a
committed version. -/
structure Inv (c : TxCache κ ρ δ ε γ) : Prop where
  entries : ∀ k e, c.hash.lookup k = some e → ∃ row ∈ c.committed k, ∃ l, row.bind (kind.load k) = some l ∧
    kind.hit e = kind.answer (some l)
  loaded : ∀ i k l, (c.sessions i).lookup = some (.storing k (some l) false) →
    ∃ row ∈ c.committed k, row.bind (kind.load k) = some l

end

section
variable {κ ρ δ ε γ α : Type} {kind : Kind κ ρ δ ε γ α} [DecidableEq κ] [DecidableEq γ]
variable {c : TxCache κ ρ δ ε γ}

theorem mem_of_versionAt {versions : List (Option ρ)} {n : Nat} {r : ρ} (h : versionAt versions n = some r) :
    some r ∈ versions := by
  unfold versionAt at h
  have hlast : (versions.take n).getLast? = some (some r) := Option.join_eq_some_iff.mp h
  exact List.mem_of_mem_take (List.mem_of_getLast? hlast)

omit [DecidableEq γ] in
theorem Inv.setSession (hc : c.Inv kind) {i : Nat} {s : TxSession κ ρ δ}
    (hs : ∀ k l, s.lookup = some (.storing k (some l) false) →
      ∃ row ∈ c.committed k, row.bind (kind.load k) = some l) : (c.setSession i s).Inv kind := by
  refine ⟨hc.entries, fun j k l hj => ?_⟩
  by_cases hij : j = i
  · subst hij
    simp only [TxCache.setSession, Function.update_self] at hj
    exact hs k l hj
  · simp only [TxCache.setSession, Function.update_of_ne hij] at hj
    exact hc.loaded j k l hj

theorem Inv.step (hc : c.Inv kind) (next : γ → γ) {st : TxStep κ ρ} (hst : c.StoresCommitted kind st) :
    (c.step kind next st).Inv kind := by
  have hidle : ∀ i, (c.setSession i TxSession.idle).Inv kind := fun i => hc.setSession (fun _ _ h => nomatch h)
  cases st with
  | write i k row =>
    simp only [TxCache.step]
    split
    · next hs => exact hc.setSession (fun k' l h => by rw [hs] at h; cases h)
    · exact hc
  | lookup i k =>
    simp only [TxCache.step]
    split
    · exact hc.setSession (fun _ _ h => nomatch h)
    · exact hc
  | load i version ok =>
    simp only [TxCache.step]
    split
    · next k hs =>
      split
      · refine hc.setSession fun k' l h => ?_
        obtain ⟨rfl, hl, hown⟩ := InFlight.storing.inj (Option.some.inj h)
        have hnil : (c.sessions i).own k = [] := by simpa using hown
        obtain ⟨r, hr, hload⟩ := Option.bind_eq_some_iff.mp hl
        rw [visible, hnil] at hr
        exact ⟨some r, mem_of_versionAt hr, hload⟩
      · exact hidle i
    · exact hc
  | store i =>
    simp only [TxCache.step]
    split
    · next k loaded own hs =>
      have hdone : (c.setSession i { c.sessions i with lookup := none }).Inv kind :=
        hc.setSession (fun _ _ h => nomatch h)
      split
      · next g l hg hl =>
        split
        · next hash henter =>
          obtain ⟨rfl, hstores⟩ := Option.filter_eq_some_iff.mp hl
          have hown : own = false := by
            simp only [StoresCommitted, hs] at hst
            exact hst (by rw [hg]; rfl) hstores
          obtain ⟨row, hrow, hload⟩ := hc.loaded i k l (hown ▸ hs)
          refine ⟨fun k' e he => ?_, hdone.loaded⟩
          rcases kind.lookup_enter henter k' e he with ⟨rfl, rfl⟩ | he
          · exact ⟨row, hrow, l, hload, kind.hit_entry _ _ _ hstores⟩
          · exact hc.entries k' e he
        · exact hidle i
      · exact hdone
    · exact hc
  | invalidate => exact ⟨hc.entries, hc.loaded⟩
  | commit i =>
    simp only [TxCache.step]
    split
    · refine ⟨fun k e he => ?_, fun j k l hj => ?_⟩
      · obtain ⟨row, hrow, hl⟩ := hc.entries k e he
        exact ⟨row, List.mem_append_left _ hrow, hl⟩
      · obtain ⟨row, hrow, hl⟩ := (hidle i).loaded j k l hj
        exact ⟨row, List.mem_append_left _ hrow, hl⟩
    · exact hc
  | abort i => exact hidle i

theorem Inv.hits_known (hc : c.Inv kind) (st : TxStep κ ρ) : c.HitsKnown kind st := by
  cases st with
  | lookup i k =>
    intro _ r hr
    obtain ⟨g, hg, hprobe⟩ := Option.bind_eq_some_iff.mp hr
    unfold Kind.probe at hprobe
    split at hprobe
    · next e he =>
      split at hprobe
      · obtain rfl := Option.some.inj hprobe
        obtain ⟨row, hrow, l, hl, hhit⟩ := hc.entries k e he
        exact ⟨row, Or.inl hrow, l, hl, hhit⟩
      · cases hprobe
    · cases hprobe
  | write => trivial
  | load => trivial
  | store => trivial
  | invalidate => trivial
  | commit => trivial
  | abort => trivial

/-- In every run that stores only what comes from committed versions every hit does. -/
theorem Inv.hits_known_run (hc : c.Inv kind) (next : γ → γ) {sts : List (TxStep κ ρ)}
    (hsts : Run.Along (TxCache.step kind next) (StoresCommitted kind) c sts) :
    Run.Along (TxCache.step kind next) (HitsKnown kind) c sts :=
  Run.along_of_history _ (I := fun _ c => c.Inv kind) hc (fun _ _ _ hc hst => hc.step next hst)
    (fun _ _ st hc _ => hc.hits_known st) hsts

end

end TxCache

end StampedCache
