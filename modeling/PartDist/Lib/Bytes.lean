import Mathlib.Data.List.Basic
import Mathlib.Tactic.Ring

/-!
# Byte strings: little-endian fields and fixed-size blocks

`leBytes n v` stores the number `v` in `n` bytes, low byte first; `leNat` reads
it back.  `blocks k bs` is what a loop of `read(fd, buf, k)` calls returns: the
consecutive `k`-byte blocks of `bs`, up to the first short read.
-/

abbrev Bytes := List UInt8

namespace Bytes

/-! ## Little-endian fields -/

def leBytes : Nat → Nat → Bytes
  | 0, _ => []
  | n + 1, v => UInt8.ofNat v :: leBytes n (v / 256)

def leNat : Bytes → Nat
  | [] => 0
  | b :: bs => b.toNat + 256 * leNat bs

@[simp] theorem length_leBytes (n v : Nat) : (leBytes n v).length = n := by
  induction n generalizing v with
  | zero => rfl
  | succ n ih => simp [leBytes, ih]

theorem leNat_leBytes (n v : Nat) : leNat (leBytes n v) = v % 256 ^ n := by
  induction n generalizing v with
  | zero => simp [leBytes, leNat, Nat.mod_one]
  | succ n ih =>
    have hb : (UInt8.ofNat v).toNat = v % 256 := by simp
    rw [leBytes, leNat, ih, hb, Nat.pow_succ, Nat.mul_comm (256 ^ n), Nat.mod_mul]

theorem leNat_leBytes_of_lt {n v : Nat} (h : v < 256 ^ n) : leNat (leBytes n v) = v := by
  rw [leNat_leBytes, Nat.mod_eq_of_lt h]

theorem leNat_lt (bs : Bytes) : leNat bs < 256 ^ bs.length := by
  induction bs with
  | nil => simp [leNat]
  | cons b bs ih =>
    have hb := b.toNat_lt
    rw [leNat, List.length_cons, Nat.pow_succ]
    omega

theorem leBytes_leNat (bs : Bytes) : leBytes bs.length (leNat bs) = bs := by
  induction bs with
  | nil => rfl
  | cons b bs ih =>
    have hb := b.toNat_lt
    rw [List.length_cons, leBytes, leNat]
    have hdiv : (b.toNat + 256 * leNat bs) / 256 = leNat bs := by omega
    have hlow : UInt8.ofNat (b.toNat + 256 * leNat bs) = b := by
      apply UInt8.toNat_inj.mp
      simp only [UInt8.toNat_ofNat']
      omega
    rw [hdiv, hlow, ih]

theorem leBytes_inj {n v v' : Nat} (hv : v < 256 ^ n) (hv' : v' < 256 ^ n)
    (h : leBytes n v = leBytes n v') : v = v' := by
  rw [← leNat_leBytes_of_lt hv, h, leNat_leBytes_of_lt hv']

/-! ## Fixed-size blocks -/

/-- At most `fuel` successive reads of `k` bytes each; a short read ends the loop. -/
def readLoop (k : Nat) : Nat → Bytes → List Bytes
  | 0, _ => []
  | fuel + 1, bs => if bs.length < k then [] else bs.take k :: readLoop k fuel (bs.drop k)

def blocks (k : Nat) (bs : Bytes) : List Bytes := readLoop k bs.length bs

theorem readLoop_short {k fuel : Nat} {bs : Bytes} (h : bs.length < k) :
    readLoop k fuel bs = [] := by
  cases fuel with
  | zero => rfl
  | succ fuel => rw [readLoop, if_pos h]

/-- Fuel beyond the length of the string changes nothing. -/
theorem readLoop_fuel {k : Nat} (hk : 0 < k) :
    ∀ (fuel fuel' : Nat) (bs : Bytes), bs.length ≤ fuel → bs.length ≤ fuel' →
      readLoop k fuel bs = readLoop k fuel' bs := by
  intro fuel
  induction fuel with
  | zero =>
    intro fuel' bs h _
    rw [readLoop_short (by omega), readLoop_short (by omega)]
  | succ fuel ih =>
    intro fuel' bs h h'
    by_cases hs : bs.length < k
    · rw [readLoop_short hs, readLoop_short hs]
    · cases fuel' with
      | zero => omega
      | succ fuel' =>
        rw [readLoop, readLoop, if_neg hs, if_neg hs]
        congr 1
        apply ih
        · simp; omega
        · simp; omega

theorem blocks_short {k : Nat} {bs : Bytes} (h : bs.length < k) : blocks k bs = [] :=
  readLoop_short h

@[simp] theorem blocks_nil (k : Nat) : blocks k [] = [] := rfl

theorem blocks_eq_cons {k : Nat} (hk : 0 < k) {bs : Bytes} (h : k ≤ bs.length) :
    blocks k bs = bs.take k :: blocks k (bs.drop k) := by
  have hpos : bs.length = (bs.length - 1) + 1 := by omega
  unfold blocks
  rw [hpos, readLoop, if_neg (by omega)]
  congr 1
  apply readLoop_fuel hk
  · simp; omega
  · exact Nat.le_refl _

theorem blocks_append_left {k : Nat} (hk : 0 < k) {b : Bytes} (hb : b.length = k) (bs : Bytes) :
    blocks k (b ++ bs) = b :: blocks k bs := by
  rw [blocks_eq_cons hk (by simp; omega), List.take_left' hb, List.drop_left' hb]

/-- Induction over a byte string read `k` bytes at a time: the torn tail, then
one whole block in front. -/
theorem blocks_induction {k : Nat} (hk : 0 < k) {motive : Bytes → Prop}
    (short : ∀ bs : Bytes, bs.length < k → motive bs)
    (block : ∀ b bs : Bytes, b.length = k → motive bs → motive (b ++ bs)) (bs : Bytes) :
    motive bs := by
  induction hn : bs.length using Nat.strong_induction_on generalizing bs with
  | _ n ih =>
    by_cases hs : bs.length < k
    · exact short bs hs
    · rw [← List.take_append_drop k bs]
      exact block _ _ (by simp; omega) (ih (bs.drop k).length (by simp; omega) _ rfl)

/-- Blocks that are whole come back whatever follows them. -/
theorem blocks_append {k : Nat} (hk : 0 < k) {a : Bytes} (ha : k ∣ a.length) (b : Bytes) :
    blocks k (a ++ b) = blocks k a ++ blocks k b := by
  induction a using blocks_induction hk with
  | short a hs =>
    have : a = [] := List.length_eq_zero_iff.mp (Nat.eq_zero_of_dvd_of_lt ha hs)
    subst this; simp
  | block c a hc ih =>
    have hd : k ∣ a.length := by
      rw [List.length_append, hc] at ha
      exact (Nat.dvd_add_right (Nat.dvd_refl k)).mp ha
    rw [List.append_assoc, blocks_append_left hk hc, blocks_append_left hk hc, ih hd,
      List.cons_append]

theorem blocks_single {k : Nat} (hk : 0 < k) {b : Bytes} (hb : b.length = k) :
    blocks k b = [b] := by
  have h := blocks_append_left hk hb []
  rwa [List.append_nil, blocks_nil] at h

theorem length_of_mem_blocks {k : Nat} (hk : 0 < k) {bs b : Bytes} (hb : b ∈ blocks k bs) :
    b.length = k := by
  induction bs using blocks_induction hk with
  | short bs hs => rw [blocks_short hs] at hb; cases hb
  | block c bs hc ih =>
    rw [blocks_append_left hk hc] at hb
    rcases List.mem_cons.mp hb with rfl | hb
    · exact hc
    · exact ih hb

/-- The number of whole blocks is the length divided by the block size. -/
theorem length_blocks {k : Nat} (hk : 0 < k) (bs : Bytes) :
    (blocks k bs).length = bs.length / k := by
  induction bs using blocks_induction hk with
  | short bs hs => rw [blocks_short hs, Nat.div_eq_of_lt hs]; rfl
  | block c bs hc ih =>
    rw [blocks_append_left hk hc, List.length_cons, ih, List.length_append, hc,
      Nat.add_div_left _ hk]

/-- The whole blocks and the torn tail make up the string. -/
theorem flatten_blocks_append_tail {k : Nat} (hk : 0 < k) (bs : Bytes) :
    (blocks k bs).flatten ++ bs.drop (bs.length - bs.length % k) = bs := by
  induction bs using blocks_induction hk with
  | short bs hs => rw [blocks_short hs, Nat.mod_eq_of_lt hs]; simp
  | block c bs hc ih =>
    have hle := Nat.mod_le bs.length k
    have hoff : (c ++ bs).length - (c ++ bs).length % k = c.length + (bs.length - bs.length % k) := by
      rw [List.length_append, hc, Nat.add_mod_left]; omega
    rw [blocks_append_left hk hc, List.flatten_cons, hoff, ← List.drop_drop, List.drop_left,
      List.append_assoc, ih]

end Bytes
