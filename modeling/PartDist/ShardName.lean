import PartDist.Lib.CString
import PartDist.ShouldWrite

/-!
# The scan of a shard name

`IsCitusShardName` (partition_wal.c) character by character: `strrchr`, a pointer that
moves up to the terminator, and the difference of two pointers.

* `scanShardName_eq`: every read stays within the string, and the scan returns what
  `isCitusShardName` says of its characters.
* `scanShardName_grammar`: that is true of the strings `<prefix>_<digits>` with four
  digits or more, and of no others.
-/

namespace PartDist

/-! ## Algorithm -/

/-- `while (*p)`, at most `fuel` times: where `p` ends, or nothing for `return false`.
`none` is a read outside the string. -/
def scanDigits (name : CString) : Nat → Nat → Option (Option Nat)
  | 0, _ => none
  | fuel + 1, p => do
    let c ← name.read p
    if c = '\x00' then some (some p)
    else if c < '0' ∨ '9' < c then some none
    else scanDigits name fuel (p + 1)

/-- `none` is a read outside the string; as an argument it is NULL. -/
def scanShardName : Option CString → Option Bool
  | none => some false
  | some name => do
    if (← name.read 0) = '\x00' then return false
    match name.strrchr '_' with
    | none => return false
    | some underscore =>
      if (← name.read (underscore + 1)) = '\x00' then return false
      match ← scanDigits name (name.chars.length + 1) (underscore + 1) with
      | none => return false
      | some p => return decide (4 ≤ (p : Int) - (underscore + 1 : Nat))

/-! ## Lemmas -/

section
variable {name : CString} {c : Char} {cs : List Char} {p : Nat}

theorem isDigit_iff : c.isDigit = true ↔ ¬ (c < '0' ∨ '9' < c) := by
  rw [not_or, not_lt, not_lt, Char.isDigit, Bool.and_eq_true, decide_eq_true_eq, decide_eq_true_eq]
  exact Iff.rfl

/-- The two forms of `strrchr`: a position, and what follows it. -/
theorem strrchr_eq_drop : strrchr c cs = (CString.lastIdxOf c cs).map fun p => cs.drop (p + 1) := by
  induction cs with
  | nil => rfl
  | cons d ds ih =>
    rw [strrchr, CString.lastIdxOf, ih]
    cases CString.lastIdxOf c ds with
    | some p => rfl
    | none =>
      by_cases hd : d = c
      · simp only [Option.map_none, if_pos hd, Option.map_some]
        rfl
      · simp only [Option.map_none, if_neg hd]

/-- From a pointer into the string the loop reaches the terminator, or leaves at the
first character that is no digit. -/
theorem scanDigits_eq {fuel : Nat} (hp : p ≤ name.chars.length) (hfuel : name.chars.length < fuel + p) :
    scanDigits name fuel p =
      some (if (name.chars.drop p).all Char.isDigit then some name.chars.length else none) := by
  induction fuel generalizing p with
  | zero => omega
  | succ fuel ih =>
    rw [scanDigits]
    rcases Nat.lt_or_eq_of_le hp with hlt | rfl
    · have hchar : name.chars[p] ≠ '\x00' := fun h => name.noNul (h ▸ List.getElem_mem hlt)
      rw [CString.read_of_lt hlt, List.drop_eq_getElem_cons hlt, List.all_cons]
      simp only [Option.bind_eq_bind, Option.bind_some, if_neg hchar]
      by_cases hdigit : name.chars[p].isDigit = true
      · rw [if_neg (isDigit_iff.mp hdigit), ih (by omega) (by omega), hdigit, Bool.true_and]
      · have hstop := not_not.mp fun h => hdigit (isDigit_iff.mpr h)
        rw [if_pos hstop, eq_false_of_ne_true hdigit, Bool.false_and]
        rfl
    · rw [CString.read_eq_nul.mpr rfl, List.drop_length]
      rfl

theorem scanShardName_eq (name : Option CString) :
    scanShardName name = some (isCitusShardName (name.map CString.chars)) := by
  cases name with
  | none => rfl
  | some name =>
    simp only [scanShardName, Option.map_some, isCitusShardName, Option.bind_eq_bind]
    by_cases hempty : name.chars = []
    · have hread : name.read 0 = some '\x00' := CString.read_eq_nul.mpr (by rw [hempty]; rfl)
      rw [hread, if_pos hempty]
      rfl
    · have hpos : 0 < name.chars.length := List.length_pos_iff.mpr hempty
      have hchar : name.chars[0] ≠ '\x00' := fun h => name.noNul (h ▸ List.getElem_mem hpos)
      rw [CString.read_of_lt hpos, if_neg hempty, strrchr_eq_drop, CString.strrchr]
      simp only [Option.bind_some, if_neg hchar]
      cases hlast : CString.lastIdxOf '_' name.chars with
      | none => rfl
      | some underscore =>
        have hlt := CString.lastIdxOf_lt hlast
        simp only [Option.map_some]
        by_cases hend : underscore + 1 = name.chars.length
        · have hdrop : name.chars.drop (underscore + 1) = [] := by rw [hend, List.drop_length]
          rw [CString.read_eq_nul.mpr hend, hdrop]
          rfl
        · have hin : underscore + 1 < name.chars.length := by omega
          have hchar : name.chars[underscore + 1] ≠ '\x00' := fun h => name.noNul (h ▸ List.getElem_mem hin)
          have hne : name.chars.drop (underscore + 1) ≠ [] := by
            intro h
            have := List.drop_eq_nil_iff.mp h
            omega
          rw [CString.read_of_lt hin, if_neg hne, scanDigits_eq (by omega) (by omega)]
          simp only [Option.bind_some, if_neg hchar]
          by_cases hall : (name.chars.drop (underscore + 1)).all Char.isDigit = true
          · rw [if_pos hall, hall, Bool.true_and, List.length_drop]
            have hdiff : (4 : Int) ≤ (name.chars.length : Int) - (underscore + 1 : Nat) ↔
                4 ≤ name.chars.length - (underscore + 1) := by omega
            simp only [hdiff]
            rfl
          · rw [if_neg hall, eq_false_of_ne_true hall, Bool.false_and]
            rfl

end

/-- **Shard names.** The scan ends within the string, NULL included, and returns true if
and only if the string is a prefix, an underscore and at least four decimal digits. -/
theorem scanShardName_grammar (name : Option CString) :
    ∃ result, scanShardName name = some result ∧
      (result = true ↔ ∃ s, name = some s ∧ ∃ table digits, s.chars = table ++ '_' :: digits ∧
        4 ≤ digits.length ∧ ∀ c ∈ digits, '0' ≤ c ∧ c ≤ '9') := by
  refine ⟨isCitusShardName (name.map CString.chars), scanShardName_eq name, ?_⟩
  have hdigit : ∀ c : Char, c.isDigit = true ↔ '0' ≤ c ∧ c ≤ '9' := by
    intro c
    rw [isDigit_iff, not_or, not_lt, not_lt]
  cases name with
  | none =>
    constructor
    · intro h
      cases h
    · rintro ⟨s, hs, -⟩
      cases hs
  | some s =>
    simp only [Option.map_some, isCitusShardName_iff, ShardForm, hdigit]
    constructor
    · intro h
      exact ⟨s, rfl, h⟩
    · rintro ⟨t, ht, h⟩
      obtain rfl := Option.some.inj ht
      exact h

end PartDist
