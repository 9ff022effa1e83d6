import Mathlib.Data.Nat.Log
import PartDist.Lib.CString

/-!
# Formats of numbers and text

What `printf` prints for a format of text and unsigned numbers, and a scanner that reads it
back.  Numbers have no fixed width, so it is the characters between them that keep them apart.

* `Format.scan_print`: where no number runs into what is behind it, the numbers are read back.
-/

namespace Printf

open CString

/-- How a number is printed, which characters are its digits and what they stand for. -/
structure Conversion where
  print : Nat → List Char
  digit : Char → Bool
  value : List Char → Nat
  print_ne_nil : ∀ n, print n ≠ []
  digit_print : ∀ n, ∀ c ∈ print n, digit c = true
  value_print : ∀ n, value (print n) = n

namespace Conversion

/-- `%u`, `%lu`. -/
def unsigned : Conversion where
  print n := Nat.toDigits 10 n
  digit := Char.isDigit
  value cs := Nat.ofDigitChars 10 cs 0
  print_ne_nil _ := Nat.toDigits_ne_nil
  digit_print _ _ hc := Nat.isDigit_of_mem_toDigits (by decide) (by decide) hc
  value_print _ := Nat.ofDigitChars_ten_toDigits

/-- `%X`, and `%0<w>X`: at least `w` digits. -/
def hex (w : Nat) : Conversion where
  print n := printHex (max w (Nat.log 16 n + 1)) n
  digit := hexDigits.contains
  value := readHex
  print_ne_nil n h := by
    have hlen := congrArg List.length h
    rw [length_printHex, List.length_nil] at hlen
    omega
  digit_print n c hc := List.contains_iff_mem.mpr (mem_printHex hc)
  value_print n := by
    have hlt : n < 16 ^ (Nat.log 16 n + 1) := Nat.lt_pow_succ_log_self (by decide) n
    exact readHex_printHex (hlt.trans_le (Nat.pow_le_pow_right (by decide) (Nat.le_max_right w _)))

/-- The digits at the start, and what is behind them. -/
def scan (k : Conversion) (cs : List Char) : Option (Nat × List Char) :=
  if cs.takeWhile k.digit = [] then none else some (k.value (cs.takeWhile k.digit), cs.dropWhile k.digit)

/-- No digit comes next. -/
def EndsAt (k : Conversion) (rest : List Char) : Prop := ∀ c ∈ rest.head?, k.digit c = false

theorem scan_print (k : Conversion) (n : Nat) {rest : List Char} (hrest : k.EndsAt rest) :
    k.scan (k.print n ++ rest) = some (n, rest) := by
  have htake : rest.takeWhile k.digit = [] ∧ rest.dropWhile k.digit = rest := by
    cases rest with
    | nil => exact ⟨rfl, rfl⟩
    | cons c cs =>
      have hc : k.digit c = false := hrest c rfl
      exact ⟨List.takeWhile_cons_of_neg (by simp [hc]), List.dropWhile_cons_of_neg (by simp [hc])⟩
  have hprinted : (k.print n ++ rest).takeWhile k.digit = k.print n := by
    rw [List.takeWhile_append_of_pos (k.digit_print n), htake.1, List.append_nil]
  rw [scan, hprinted, if_neg (k.print_ne_nil n), k.value_print, List.dropWhile_append_of_pos (k.digit_print n), htake.2]

end Conversion

inductive Directive
  | text (cs : List Char)
  | number (k : Conversion)

abbrev Format := List Directive

namespace Format

def print : Format → List Nat → List Char
  | [], _ => []
  | .text cs :: f, ns => cs ++ print f ns
  | .number k :: f, n :: ns => k.print n ++ print f ns
  | .number _ :: _, [] => []

/-- The numbers, and what is behind the last piece. -/
def scan : Format → List Char → Option (List Nat × List Char)
  | [], cs => some ([], cs)
  | .text t :: f, cs => if t <+: cs then scan f (cs.drop t.length) else none
  | .number k :: f, cs => do
    let (n, cs) ← k.scan cs
    let (ns, cs) ← scan f cs
    return (n :: ns, cs)

def arity : Format → Nat
  | [] => 0
  | .text _ :: f => arity f
  | .number _ :: f => arity f + 1

/-- No number runs into what is behind it, `rest` being behind the last piece. -/
def Separated : Format → List Char → Prop
  | [], _ => True
  | .text _ :: f, rest => Separated f rest
  | .number k :: f, rest => (∀ ns, k.EndsAt (print f ns ++ rest)) ∧ Separated f rest

/-- Text that does not start with a digit keeps numbers apart. -/
theorem endsAt_text {k : Conversion} {c : Char} (hc : k.digit c = false) (cs : List Char) (f : Format)
    (rest : List Char) (ns : List Nat) : k.EndsAt (print (.text (c :: cs) :: f) ns ++ rest) := by
  intro d hd
  obtain rfl := Option.some.inj hd
  exact hc

/-- **Round trip.** -/
theorem scan_print {f : Format} {ns : List Nat} {rest : List Char} (hf : f.Separated rest)
    (hns : ns.length = f.arity) : f.scan (f.print ns ++ rest) = some (ns, rest) := by
  induction f generalizing ns with
  | nil =>
    obtain rfl := List.eq_nil_of_length_eq_zero hns
    rfl
  | cons d f ih =>
    cases d with
    | text cs =>
      have hprefix : cs <+: cs ++ (print f ns ++ rest) := List.prefix_append _ _
      rw [print, List.append_assoc, scan, if_pos hprefix, List.drop_left]
      exact ih hf hns
    | number k =>
      obtain ⟨n, ns, rfl⟩ : ∃ n ns', ns = n :: ns' := List.exists_cons_of_length_eq_add_one hns
      rw [print, List.append_assoc, scan, k.scan_print n (hf.1 ns)]
      simp only [Option.bind_eq_bind, Option.bind_some, ih hf.2 (Nat.succ.inj hns)]
      rfl

end Format

end Printf
