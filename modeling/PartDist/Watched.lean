import PartDist.AppendOnly

/-!
# A directory that is read while it is written

Scans of a partition directory take no lock: they list it and then read one file after the
other while the worker creates files and appends to them, also in the middle of a record.

A run of `watchedStep` is any order of the rounds of a process, of the system calls they
make on the directory and of those of a scan.  A round has made all its calls when the next
one begins.

* `Watched.inv_run`: what every such order preserves.
-/

namespace PartDist

/-! ## Algorithm -/

/-- A process that works on a directory in rounds, beside a scan of it.  `seen` is what the
calls it has made so far have left; the directory of `state` is the one at the end of its
round. -/
structure Watched (σ ρ : Type) where
  state : σ
  seen : Dir
  scan : Option ρ

/-- The process makes the remaining calls of its round and begins the next one; it makes
sure that file `s` is there and writes the next `n` bytes of it; a scan takes the names; it
makes its next call. -/
inductive Watched.Label (ι : Type)
  | round (i : ι)
  | call (s n : Nat)
  | list (rd : Readdir)
  | read

/-- What a scan does when it takes the names, and with each call after that. -/
structure Scanner (ρ : Type) where
  start : Readdir → Dir → ρ
  next : Dir → ρ → ρ

/-- `n` more of the bytes that file `s` is to have in the end. -/
def Dir.towards (d d' : Dir) (s n : Nat) : Dir :=
  if s ∈ d'.names then (d.openCreate s).append s (((d'.content s).drop (d.content s).length).take n) else d

section
variable {σ ρ ι : Type} (work : σ → ι → σ) (dir : σ → Dir) (sn : Scanner ρ)

def watchedStep (w : Watched σ ρ) : Watched.Label ι → Watched σ ρ
  | .round i => { w with state := work w.state i, seen := dir w.state }
  | .call s n => { w with seen := w.seen.towards (dir w.state) s n }
  | .list rd => { w with scan := some (sn.start rd w.seen) }
  | .read => { w with scan := w.scan.map (sn.next w.seen) }

def watchedRun (s : σ) (ls : List (Watched.Label ι)) : Watched σ ρ := ls.foldl (watchedStep work dir sn) ⟨s, dir s, none⟩

end

/-- The rounds that have begun. -/
def Watched.Label.round? {ι : Type} : Watched.Label ι → Option ι
  | .round i => some i
  | _ => none

def roundsOf {ι : Type} (ls : List (Watched.Label ι)) : List ι := ls.filterMap Watched.Label.round?

/-! ## Runs -/

/-- The calls of a round lie between its ends, and a scan that stands in the relation `R` to
the directory keeps it. -/
structure Tracks {ρ : Type} (B : Dir → Dir → Prop) (sn : Scanner ρ) (R : ρ → Dir → Prop) : Prop where
  refl : ∀ d, B d d
  towards : ∀ d d' s n, B d d' → B d (d.towards d' s n) ∧ B (d.towards d' s n) d'
  start : ∀ rd d, R (sn.start rd d) d
  grow : ∀ sc d d', R sc d → B d d' → R sc d'
  next : ∀ sc d, R sc d → R (sn.next d sc) d

section
variable {σ ρ ι : Type} {work : σ → ι → σ} {dir : σ → Dir} {sn : Scanner ρ} {B : Dir → Dir → Prop}
  {R : ρ → Dir → Prop} {w : Watched σ ρ}

structure Watched.Inv (dir : σ → Dir) (B : Dir → Dir → Prop) (R : ρ → Dir → Prop) (w : Watched σ ρ) : Prop where
  behind : B w.seen (dir w.state)
  scans : ∀ sc ∈ w.scan, R sc w.seen

theorem Watched.Inv.step (hR : Tracks B sn R) (hw : w.Inv dir B R) {l : Watched.Label ι}
    (hl : ∀ i ∈ l.round?, B (dir w.state) (dir (work w.state i))) : (watchedStep work dir sn w l).Inv dir B R := by
  cases l with
  | round i => exact ⟨hl i rfl, fun sc hsc => hR.grow sc _ _ (hw.scans sc hsc) hw.behind⟩
  | call s n =>
    obtain ⟨hfrom, hto⟩ := hR.towards _ _ s n hw.behind
    exact ⟨hto, fun sc hsc => hR.grow sc _ _ (hw.scans sc hsc) hfrom⟩
  | list rd =>
    refine ⟨hw.behind, fun sc hsc => ?_⟩
    obtain rfl := Option.some.inj hsc
    exact hR.start rd w.seen
  | read =>
    refine ⟨hw.behind, fun sc hsc => ?_⟩
    obtain ⟨sc', hsc', rfl⟩ := Option.mem_map.mp hsc
    exact hR.next sc' w.seen (hw.scans sc' hsc')

theorem watchedRun_state (work : σ → ι → σ) (dir : σ → Dir) (sn : Scanner ρ) (s : σ) (ls : List (Watched.Label ι)) :
    (watchedRun work dir sn s ls).state = (roundsOf ls).foldl work s := by
  induction ls using List.reverseRecOn with
  | nil => rfl
  | append_singleton ls l ih =>
    rw [watchedRun, List.foldl_append, roundsOf, List.filterMap_append, List.foldl_append, ← roundsOf, ← ih]
    cases l <;> rfl

/-- The run lemma: it is enough that each round meets `B`. -/
theorem Watched.inv_run (work : σ → ι → σ) (dir : σ → Dir) (hR : Tracks B sn R) (s : σ) (ls : List (Watched.Label ι))
    (hrounds : ∀ done i, done ++ [i] <+: roundsOf ls → B (dir (done.foldl work s)) (dir (work (done.foldl work s) i))) :
    (watchedRun work dir sn s ls).Inv dir B R := by
  have key : ∀ ls', ls' <+: ls → (watchedRun work dir sn s ls').Inv dir B R := by
    intro ls'
    induction ls' using List.reverseRecOn with
    | nil => exact fun _ => ⟨hR.refl _, fun _ hsc => absurd hsc (Option.not_mem_none _)⟩
    | append_singleton done l ih =>
      intro hpre
      rw [watchedRun, List.foldl_append]
      refine (ih ((List.prefix_append done [l]).trans hpre)).step hR fun i hi => ?_
      rw [watchedRun_state]
      apply hrounds
      have hround : roundsOf (done ++ [l]) = roundsOf done ++ [i] := by
        rw [roundsOf, roundsOf, List.filterMap_append, List.filterMap_cons_some hi]
        rfl
      rw [← hround]
      exact hpre.filterMap _
  exact key ls List.prefix_rfl

end

/-! ## Directories that grow -/

section
variable {d d' : Dir}

/-- Every file is still there, with its bytes and perhaps more. -/
abbrev Dir.Grows (d d' : Dir) : Prop := Dir.Keeps (fun _ => True) d d'

theorem Dir.Grows.towards (h : Dir.Grows d d') (s n : Nat) :
    Dir.Grows d (d.towards d' s n) ∧ Dir.Grows (d.towards d' s n) d' := by
  unfold Dir.towards
  split
  · next hs =>
    refine ⟨((Dir.Keeps.refl _ d).openCreate s).append s _, fun t _ ht => ?_, fun t _ => ?_⟩
    · rw [names_append, Finset.mem_insert, names_openCreate, Finset.mem_insert] at ht
      rcases ht with rfl | rfl | ht
      · exact hs
      · exact hs
      · exact h.names t trivial ht
    · rw [Dir.content_append, Dir.content_openCreate]
      split
      · next hts =>
        subst hts
        obtain ⟨new, hnew⟩ := h.content t trivial
        rw [← hnew, List.drop_left, List.prefix_append_right_inj]
        exact List.take_prefix n new
      · rw [List.append_nil]
        exact h.content t trivial
  · exact ⟨Dir.Keeps.refl _ d, h⟩

end

/-- A step that is no cleanup of the partition. -/
theorem keeps_spared {segsz : WalSegSize} {pid : Oid} {s : Server} {ls done : List Label} {l : Label}
    (hls : ∀ p keepPtr rd unlinkOk, .cleanup p keepPtr rd unlinkOk ∈ ls → p ≠ pid) (hpre : done ++ [l] <+: ls) :
    Dir.Grows (s.demux.parwal pid) ((serverStep segsz s l).demux.parwal pid) := by
  have hl : l ∈ ls := hpre.subset (by simp)
  refine Server.keeps_step (Dir.Keeps.refl _ _) fun t _ => ?_
  cases l with
  | cleanup p keepPtr rd unlinkOk => exact fun hp => absurd hp (hls p _ _ _ hl)
  | _ => trivial

/-- Record 1 is on disk, record 2 to be read from pg_wal. -/
def secondRecord : Server :=
  { Server.boot [insertedRecord (buildHeader 7 1 0 2)] fun _ => Dir.empty.append 1 (buildHeader 7 1 0 1).encode with
    running := true, startPos := 0, endRecPtr := 0 }

end PartDist
