import Mathlib.Data.List.GetD
import Mathlib.Data.List.Lex
import Mathlib.Data.List.TakeWhile
import Mathlib.Data.Char
import Mathlib.Tactic.Ring

/-!
# C strings

The characters before the terminator, and the functions of string.h and stdio.h on
them.  `strcmp` orders strings as lists of characters; numbers printed with `%0<w>X`
compare as the numbers, and are read back digit by digit.
-/

/-- `noNul`: the terminator is not one of the characters. -/
structure CString where
  chars : List Char
  noNul : '\x00' ∉ chars
deriving DecidableEq

namespace CString

theorem ext_chars {s t : CString} (h : s.chars = t.chars) : s = t := by
  cases s
  cases t
  simp only [mk.injEq]
  exact h

/-- The string of a literal. -/
def ofString (s : String) (h : '\x00' ∉ s.toList := by decide) : CString := ⟨s.toList, h⟩

/-- `s + t`. -/
def append (s t : CString) : CString where
  chars := s.chars ++ t.chars
  noNul h := (List.mem_append.mp h).elim s.noNul t.noNul

instance : Append CString := ⟨append⟩

@[simp] theorem append_chars (s t : CString) : (s ++ t).chars = s.chars ++ t.chars := rfl

/-- `*(s + p)`: a character, the terminator behind the last one, and nothing beyond. -/
def read (s : CString) (p : Nat) : Option Char :=
  if p < s.chars.length then s.chars[p]? else if p = s.chars.length then some '\x00' else none

theorem read_eq_nul {s : CString} {p : Nat} : s.read p = some '\x00' ↔ p = s.chars.length := by
  unfold read
  split
  · next hp =>
    constructor
    · intro h
      exact absurd (List.mem_of_getElem? h) s.noNul
    · intro h
      omega
  · next hp =>
    split
    · next hlen => exact ⟨fun _ => hlen, fun _ => rfl⟩
    · next hlen =>
      constructor
      · intro h
        cases h
      · intro h
        exact absurd h hlen

theorem read_of_lt {s : CString} {p : Nat} (hp : p < s.chars.length) : s.read p = some s.chars[p] := by
  rw [read, if_pos hp, List.getElem?_eq_getElem hp]

/-- `snprintf(buf, size, "%s", s)` and `strlcpy(buf, s, size)`. -/
def truncate (size : Nat) (s : CString) : CString where
  chars := s.chars.take (size - 1)
  noNul h := s.noNul (List.mem_of_mem_take h)

theorem truncate_eq {size : Nat} {s : CString} (h : s.chars.length < size) : s.truncate size = s :=
  ext_chars (List.take_of_length_le (Nat.le_sub_one_of_lt h))

/-! ## Comparison -/

/-- The difference of the first two characters that differ. -/
def strcmpFrom : List Char → List Char → Int
  | [], [] => 0
  | [], d :: _ => -(d.toNat : Int)
  | c :: _, [] => c.toNat
  | c :: cs, d :: ds => if c = d then strcmpFrom cs ds else (c.toNat : Int) - d.toNat

def strcmp (s t : CString) : Int := strcmpFrom s.chars t.chars

theorem toNat_pos {c : Char} (h : c ≠ '\x00') : 0 < c.toNat := by
  rw [Nat.pos_iff_ne_zero]
  intro h0
  exact h (Char.toNat_inj.mp h0)

theorem strcmpFrom_iff {cs ds : List Char} (hc : '\x00' ∉ cs) (hd : '\x00' ∉ ds) :
    (strcmpFrom cs ds < 0 ↔ cs < ds) ∧ (strcmpFrom cs ds = 0 ↔ cs = ds) := by
  induction cs generalizing ds with
  | nil =>
    cases ds with
    | nil => simp [strcmpFrom]
    | cons d ds =>
      have hpos := toNat_pos (c := d) fun h => hd (h ▸ List.mem_cons_self)
      simp only [strcmpFrom, List.nil_lt_cons, iff_true]
      exact ⟨by omega, ⟨fun h => by omega, fun h => by cases h⟩⟩
  | cons c cs ih =>
    cases ds with
    | nil =>
      have hpos := toNat_pos (c := c) fun h => hc (h ▸ List.mem_cons_self)
      simp only [strcmpFrom, List.not_lt_nil, iff_false]
      exact ⟨by omega, ⟨fun h => by omega, fun h => by cases h⟩⟩
    | cons d ds =>
      have hd' : '\x00' ∉ ds := fun h => hd (List.mem_cons_of_mem d h)
      obtain ⟨hlt, heq⟩ := ih (fun h => hc (List.mem_cons_of_mem c h)) hd'
      rw [strcmpFrom, List.cons_lt_cons_iff, List.cons_eq_cons]
      by_cases hcd : c = d
      · subst hcd
        rw [if_pos rfl, hlt, heq]
        exact ⟨⟨fun h => Or.inr ⟨rfl, h⟩, fun h => h.resolve_left (lt_irrefl c) |>.2⟩,
          ⟨fun h => ⟨rfl, h⟩, And.right⟩⟩
      · rw [if_neg hcd]
        have hne : c.toNat ≠ d.toNat := fun h => hcd (Char.toNat_inj.mp h)
        have hval : c < d ↔ c.toNat < d.toNat := Iff.rfl
        refine ⟨⟨fun h => Or.inl (hval.mpr (by omega)), fun h => ?_⟩, ⟨fun h => by omega, fun h => absurd h.1 hcd⟩⟩
        rcases h with h | h
        · have := hval.mp h
          omega
        · exact absurd h.1 hcd

theorem strcmp_neg_iff {s t : CString} : strcmp s t < 0 ↔ s.chars < t.chars :=
  (strcmpFrom_iff s.noNul t.noNul).1

theorem strcmp_eq_zero_iff {s t : CString} : strcmp s t = 0 ↔ s = t :=
  (strcmpFrom_iff s.noNul t.noNul).2.trans ⟨ext_chars, congrArg chars⟩

theorem strcmp_pos_iff {s t : CString} : 0 < strcmp s t ↔ t.chars < s.chars := by
  have hneg := strcmp_neg_iff (s := s) (t := t)
  have hzero := (strcmpFrom_iff s.noNul t.noNul).2
  rcases lt_trichotomy s.chars t.chars with h | h | h
  · have := hneg.mpr h
    exact ⟨fun h' => by omega, fun h' => absurd (h.trans h') (lt_irrefl _)⟩
  · have : strcmp s t = 0 := hzero.mpr h
    exact ⟨fun h' => by omega, fun h' => absurd (h ▸ h') (lt_irrefl _)⟩
  · have hn : ¬ strcmp s t < 0 := fun h' => absurd (h.trans (hneg.mp h')) (lt_irrefl _)
    have hz : strcmp s t ≠ 0 := fun h' => absurd (hzero.mp h' ▸ h) (lt_irrefl _)
    exact ⟨fun _ => h, fun _ => by omega⟩

/-! ## Characters of a set -/

/-- `strspn(s, accept)`: how many characters at the start are in `accept`. -/
def strspn (s : CString) (accept : List Char) : Nat := (s.chars.takeWhile (accept.contains ·)).length

theorem strspn_eq_length {s : CString} {accept : List Char} :
    strspn s accept = s.chars.length ↔ ∀ c ∈ s.chars, c ∈ accept := by
  have hall : (s.chars.takeWhile (accept.contains ·)).length = s.chars.length ↔
      s.chars.takeWhile (accept.contains ·) = s.chars :=
    ⟨fun h => (List.takeWhile_prefix _).eq_of_length h, fun h => congrArg List.length h⟩
  rw [strspn, hall, List.takeWhile_eq_self_iff]
  simp only [List.contains_iff_mem]

/-- The last place of `c` in the list. -/
def lastIdxOf (c : Char) : List Char → Option Nat
  | [] => none
  | d :: ds =>
    match lastIdxOf c ds with
    | some p => some (p + 1)
    | none => if d = c then some 0 else none

/-- `strrchr(s, c)`, counted from the start of `s`; `none` is NULL. -/
def strrchr (s : CString) (c : Char) : Option Nat := lastIdxOf c s.chars

theorem lastIdxOf_lt {c : Char} {cs : List Char} {p : Nat} (h : lastIdxOf c cs = some p) : p < cs.length := by
  induction cs generalizing p with
  | nil => cases h
  | cons d ds ih =>
    unfold lastIdxOf at h
    split at h
    · next q hq =>
      obtain rfl := Option.some.inj h
      have := ih hq
      simp only [List.length_cons]
      omega
    · split at h
      · obtain rfl := Option.some.inj h
        exact Nat.succ_pos _
      · cases h

theorem lastIdxOf_of_notMem {c : Char} {cs : List Char} (h : c ∉ cs) : lastIdxOf c cs = none := by
  induction cs with
  | nil => rfl
  | cons d ds ih =>
    rw [lastIdxOf, ih fun hmem => h (List.mem_cons_of_mem d hmem)]
    refine if_neg fun hd => h ?_
    rw [hd]
    exact List.mem_cons_self

theorem lastIdxOf_append {c : Char} (pre : List Char) {rest : List Char} (h : c ∉ rest) :
    lastIdxOf c (pre ++ c :: rest) = some pre.length := by
  induction pre with
  | nil =>
    rw [List.nil_append, lastIdxOf, lastIdxOf_of_notMem h]
    exact if_pos rfl
  | cons d ds ih => rw [List.cons_append, lastIdxOf, ih, List.length_cons]

/-! ## Hexadecimal numbers -/

def hexDigits : List Char := "0123456789ABCDEF".toList

def hexDigit (n : Nat) : Char := hexDigits.getD n '0'

/-- The last `w` hexadecimal digits of `n`: what `%0<w>X` prints of a number below `16 ^ w`. -/
def printHex : Nat → Nat → List Char
  | 0, _ => []
  | w + 1, n => printHex w (n / 16) ++ [hexDigit (n % 16)]

/-- What `%<w>X` reads from `w` digits. -/
def readHex (cs : List Char) : Nat := cs.foldl (fun n c => 16 * n + hexDigits.idxOf c) 0

theorem hexDigit_mem {n : Nat} (h : n < 16) : hexDigit n ∈ hexDigits := by
  rw [hexDigit, List.getD_eq_getElem _ _ (by exact h)]
  exact List.getElem_mem _

theorem idxOf_hexDigit {n : Nat} (h : n < 16) : hexDigits.idxOf (hexDigit n) = n := by
  have hnodup : hexDigits.Nodup := by decide
  rw [hexDigit, List.getD_eq_getElem _ _ (by exact h)]
  exact hnodup.idxOf_getElem n h

theorem hexDigit_lt_iff {m n : Nat} (hm : m < 16) (hn : n < 16) : hexDigit m < hexDigit n ↔ m < n := by
  have hall : ∀ m < 16, ∀ n < 16, hexDigit m < hexDigit n ↔ m < n := by decide
  exact hall m hm n hn

@[simp] theorem length_printHex (w n : Nat) : (printHex w n).length = w := by
  induction w generalizing n with
  | zero => rfl
  | succ w ih => rw [printHex, List.length_append, ih, List.length_singleton]

theorem mem_printHex {w n : Nat} {c : Char} (hc : c ∈ printHex w n) : c ∈ hexDigits := by
  induction w generalizing n with
  | zero => cases hc
  | succ w ih =>
    rcases List.mem_append.mp hc with h | h
    · exact ih h
    · rw [List.mem_singleton.mp h]
      exact hexDigit_mem (Nat.mod_lt _ (by decide))

theorem readHex_printHex {w n : Nat} (hn : n < 16 ^ w) : readHex (printHex w n) = n := by
  induction w generalizing n with
  | zero =>
    rw [pow_zero] at hn
    obtain rfl : n = 0 := by omega
    rfl
  | succ w ih =>
    have hread := ih (n := n / 16) (by rw [pow_succ] at hn; omega)
    unfold readHex at hread ⊢
    rw [printHex, List.foldl_append, hread, List.foldl_cons, List.foldl_nil,
      idxOf_hexDigit (Nat.mod_lt _ (by decide))]
    omega

/-- Behind parts of the same length the rest decides if the parts are the same. -/
theorem append_lt_append {a a' b b' : List Char} (hlen : a.length = a'.length) :
    a ++ b < a' ++ b' ↔ a < a' ∨ a = a' ∧ b < b' := by
  induction a generalizing a' with
  | nil =>
    obtain rfl := List.length_eq_zero_iff.mp hlen.symm
    simp
  | cons c cs ih =>
    cases a' with
    | nil => cases hlen
    | cons d ds =>
      rw [List.cons_append, List.cons_append, List.cons_lt_cons_iff, List.cons_lt_cons_iff,
        ih (Nat.succ.inj hlen), List.cons_eq_cons]
      tauto

theorem printHex_lt_iff {w m n : Nat} (hm : m < 16 ^ w) (hn : n < 16 ^ w) :
    printHex w m < printHex w n ↔ m < n := by
  induction w generalizing m n with
  | zero =>
    rw [pow_zero] at hm hn
    simp only [printHex, List.not_lt_nil, false_iff]
    omega
  | succ w ih =>
    rw [pow_succ] at hm hn
    have hinj : printHex w (m / 16) = printHex w (n / 16) ↔ m / 16 = n / 16 := by
      constructor
      · intro h
        rw [← readHex_printHex (w := w) (n := m / 16) (by omega), h, readHex_printHex (by omega)]
      · intro h
        rw [h]
    have hlast : [hexDigit (m % 16)] < [hexDigit (n % 16)] ↔ m % 16 < n % 16 := by
      rw [List.cons_lt_cons_iff, hexDigit_lt_iff (Nat.mod_lt _ (by decide)) (Nat.mod_lt _ (by decide))]
      simp
    rw [printHex, printHex, append_lt_append (by simp), ih (by omega) (by omega), hinj, hlast]
    omega

end CString
