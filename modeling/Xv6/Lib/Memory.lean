/-
**Flat memory.**

A memory gives the byte at every address. The operations are the ones of C code on pointers:

* `Memory.le n`, `Memory.setLe n`: a little-endian integer of `n` bytes;
* `Memory.fill`: `memset`;
* `Memory.move`: `memmove`, also between ranges that overlap;
* `Memory.write`: a list of bytes;
* `Memory.read`: the bytes of a range.

Each write has one lemma that reads it back and one that says what it leaves alone.
-/

import Xv6.Lib.Bytes

namespace Lib

open Function

/-- The byte at every address. -/
abbrev Memory := Nat → Byte

namespace Memory

variable (m : Memory) {a b n k x : Nat}

/-- The unsigned integer in the `n` bytes from `a` on. -/
def le : Nat → Memory → Nat → Nat
  | 0, _, _ => 0
  | n + 1, m, a => (m a).toNat + 256 * le n m (a + 1)

/-- Store an unsigned integer in the `n` bytes from `a` on. -/
def setLe : Nat → Memory → Nat → Nat → Memory
  | 0, m, _, _ => m
  | n + 1, m, a, v => update (setLe n m (a + 1) (v / 256)) a (BitVec.ofNat 8 v)

/-- `memset(a, v, n)` -/
def fill (a n : Nat) (v : Byte) : Memory := fun x => if a ≤ x ∧ x < a + n then v else m x

/-- `memmove(dst, src, n)` -/
def move (dst src n : Nat) : Memory :=
  fun x => if dst ≤ x ∧ x < dst + n then m (src + (x - dst)) else m x

def write (a : Nat) (bytes : List Byte) : Memory := fun x =>
  if a ≤ x then (bytes[x - a]?).getD (m x) else m x

def read (a n : Nat) : List Byte := (List.range n).map fun j => m (a + j)

/-! ### Integers -/

theorem le_lt (n : Nat) : ∀ a, le n m a < 256 ^ n := by
  induction n with
  | zero => exact fun _ => Nat.one_pos
  | succ n ih =>
    intro a
    have low := (m a).isLt
    have high := ih (a + 1)
    rw [le, Nat.pow_succ]
    omega

variable {m}

theorem le_congr {other : Memory} : ∀ {n a : Nat}, (∀ x, a ≤ x → x < a + n → other x = m x) →
    le n other a = le n m a := by
  intro n
  induction n with
  | zero => exact fun _ => rfl
  | succ n ih =>
    intro a same
    rw [le, le, same a (Nat.le_refl _) (by omega),
      ih fun x low high => same x (by omega) (by omega)]

theorem setLe_outside : ∀ {n a v : Nat}, x < a ∨ a + n ≤ x → setLe n m a v x = m x := by
  intro n
  induction n with
  | zero => exact fun _ => rfl
  | succ n ih =>
    intro a v outside
    rw [setLe, update_of_ne (by omega), ih (by omega)]

theorem le_setLe_same : ∀ {n a v : Nat}, le n (setLe n m a v) a = v % 256 ^ n := by
  intro n
  induction n with
  | zero => exact fun {a v} => (Nat.mod_one v).symm
  | succ n ih =>
    intro a v
    have tail : le n (setLe (n + 1) m a v) (a + 1) = v / 256 % 256 ^ n := by
      rw [← ih]
      refine le_congr fun x low _ => ?_
      rw [setLe, update_of_ne (by omega)]
    rw [le, tail, setLe, update_self, BitVec.toNat_ofNat, Nat.pow_succ 256 n,
      Nat.mul_comm (256 ^ n) 256, Nat.mod_mul]

theorem le_setLe_ne {v : Nat} (apart : b + n ≤ a ∨ a + k ≤ b) : le n (setLe k m a v) b = le n m b :=
  le_congr fun _ _ _ => setLe_outside (by omega)

theorem le_of_digits : ∀ {n a v : Nat}, (∀ j < n, m (a + j) = BitVec.ofNat 8 (v / 256 ^ j)) →
    le n m a = v % 256 ^ n := by
  intro n
  induction n with
  | zero => exact fun {a v} _ => (Nat.mod_one v).symm
  | succ n ih =>
    intro a v digits
    have first := digits 0 (by omega)
    rw [Nat.add_zero, Nat.pow_zero, Nat.div_one] at first
    have rest : le n m (a + 1) = v / 256 % 256 ^ n := ih fun j below => by
      rw [Nat.add_assoc, digits (1 + j) (by omega), Nat.pow_add, Nat.pow_one,
        Nat.div_div_eq_div_mul]
    rw [le, first, rest, BitVec.toNat_ofNat, show 256 ^ (n + 1) = 256 * 256 ^ n from Nat.pow_succ',
      Nat.mod_mul]

/-! ### Ranges -/

theorem fill_inside {v : Byte} (low : a ≤ x) (high : x < a + n) : m.fill a n v x = v :=
  if_pos ⟨low, high⟩

theorem fill_outside {v : Byte} (outside : x < a ∨ a + n ≤ x) : m.fill a n v x = m x :=
  if_neg (by omega)

theorem le_zero : ∀ {n a : Nat}, (∀ x, a ≤ x → x < a + n → m x = 0) → le n m a = 0 := by
  intro n
  induction n with
  | zero => exact fun _ => rfl
  | succ n ih =>
    intro a zero
    rw [le, zero a (Nat.le_refl _) (by omega), ih fun x low high => zero x (by omega) (by omega)]
    rfl

theorem move_inside {dst src : Nat} (low : dst ≤ x) (high : x < dst + n) :
    m.move dst src n x = m (src + (x - dst)) := if_pos ⟨low, high⟩

theorem move_outside {dst src : Nat} (outside : x < dst ∨ dst + n ≤ x) : m.move dst src n x = m x :=
  if_neg (by omega)

theorem write_inside {bytes : List Byte} (inside : k < bytes.length) :
    m.write a bytes (a + k) = bytes[k] := by
  unfold write
  rw [if_pos (Nat.le_add_right a k), Nat.add_sub_cancel_left, List.getElem?_eq_getElem inside]
  rfl

theorem write_outside {bytes : List Byte} (outside : x < a ∨ a + bytes.length ≤ x) :
    m.write a bytes x = m x := by
  unfold write
  split
  · rw [List.getElem?_eq_none (by omega)]
    rfl
  · rfl

theorem length_read : (m.read a n).length = n := by
  rw [read, List.length_map, List.length_range]

theorem getElem?_read (inside : k < n) : (m.read a n)[k]? = some (m (a + k)) := by
  rw [read, List.getElem?_map, List.getElem?_range inside]
  rfl

theorem read_write (bytes : List Byte) : (m.write a bytes).read a bytes.length = bytes := by
  refine List.ext_getElem? fun k => ?_
  by_cases inside : k < bytes.length
  · rw [getElem?_read inside, write_inside inside, List.getElem?_eq_getElem inside]
  · rw [List.getElem?_eq_none (by rw [length_read]; omega), List.getElem?_eq_none (by omega)]

theorem read_congr {other : Memory} (same : ∀ x, a ≤ x → x < a + n → other x = m x) :
    other.read a n = m.read a n :=
  List.map_congr_left fun j member => same _ (by omega) (by have := List.mem_range.mp member; omega)

end Memory

end Lib
