/-
**Numerals.**

A numeral is a list of digits, the most significant first.

* `value`: what it says, with `value_snoc` for a reader and `value_cons` for a fixed width;
* `numeral`: the digits of a number without leading zeros, with `numeral_step` for a writer that
  finds the last digit first;
* `padded`: a fixed number of digits.
-/

import Mathlib

namespace Lib

variable {b d k n : Nat} {ds : List Nat}

def value (b : Nat) (ds : List Nat) : Nat := Nat.ofDigits b ds.reverse

def numeral (b n : Nat) : List Nat := if n = 0 then [0] else (b.digits n).reverse

/-- The last `k` digits of a number. -/
def padded (b : Nat) : Nat → Nat → List Nat
  | 0, _ => []
  | k + 1, n => n / b ^ k % b :: padded b k n

/-! ### Values -/

theorem value_snoc (b : Nat) (ds : List Nat) (d : Nat) :
    value b (ds ++ [d]) = value b ds * b + d := by
  unfold value
  rw [List.reverse_append, List.reverse_singleton, List.singleton_append, Nat.ofDigits_cons,
    Nat.mul_comm, Nat.add_comm]

theorem value_cons (b d : Nat) (ds : List Nat) :
    value b (d :: ds) = d * b ^ ds.length + value b ds := by
  unfold value
  rw [List.reverse_cons, Nat.ofDigits_append, Nat.ofDigits_singleton, List.length_reverse,
    Nat.mul_comm, Nat.add_comm]

/-! ### The numeral of a number -/

/-- **The last digit of a numeral**, and the numeral of the rest. -/
theorem numeral_step (base : 1 < b) (n : Nat) :
    numeral b n = if n / b = 0 then [n % b] else numeral b (n / b) ++ [n % b] := by
  unfold numeral
  by_cases zero : n = 0
  · rw [zero, if_pos rfl, Nat.zero_div, if_pos rfl, Nat.zero_mod]
  · rw [if_neg zero, Nat.digits_def' base (Nat.pos_of_ne_zero zero), List.reverse_cons]
    by_cases last : n / b = 0
    · rw [if_pos last, last, Nat.digits_zero]
      rfl
    · rw [if_neg last, if_neg last]

theorem value_numeral (b n : Nat) : value b (numeral b n) = n := by
  unfold numeral value
  by_cases zero : n = 0
  · rw [zero, if_pos rfl, List.reverse_singleton, Nat.ofDigits_singleton]
  · rw [if_neg zero, List.reverse_reverse, Nat.ofDigits_digits]

theorem numeral_ne_nil (b n : Nat) : numeral b n ≠ [] := by
  unfold numeral
  by_cases zero : n = 0
  · rw [if_pos zero]
    exact List.cons_ne_nil _ _
  · rw [if_neg zero, ne_eq, List.reverse_eq_nil_iff, Nat.digits_eq_nil_iff_eq_zero]
    exact zero

theorem lt_of_mem_numeral (base : 1 < b) (member : d ∈ numeral b n) : d < b := by
  unfold numeral at member
  by_cases zero : n = 0
  · rw [if_pos zero, List.mem_singleton] at member
    omega
  · rw [if_neg zero, List.mem_reverse] at member
    exact Nat.digits_lt_base base member

theorem length_numeral_le (base : 1 < b) (some : 0 < k) (small : n < b ^ k) :
    (numeral b n).length ≤ k := by
  unfold numeral
  by_cases zero : n = 0
  · rw [if_pos zero]
    exact some
  · rw [if_neg zero, List.length_reverse]
    exact (Nat.digits_length_le_iff base n).mpr small

/-- A larger number has at least as many digits. -/
theorem length_numeral_mono {m : Nat} (base : 1 < b) (le : m ≤ n) :
    (numeral b m).length ≤ (numeral b n).length := by
  have some : 0 < (numeral b n).length := List.length_pos_of_ne_nil (numeral_ne_nil b n)
  refine length_numeral_le base some (Nat.lt_of_le_of_lt le ?_)
  unfold numeral
  by_cases zero : n = 0
  · rw [zero]
    exact Nat.pow_pos (by omega)
  · rw [if_neg zero, List.length_reverse]
    exact Nat.lt_base_pow_length_digits base

/-! ### A fixed number of digits -/

theorem length_padded (b n : Nat) : ∀ k, (padded b k n).length = k
  | 0 => rfl
  | k + 1 => congrArg Nat.succ (length_padded b n k)

theorem lt_of_mem_padded (base : 0 < b) (member : d ∈ padded b k n) : d < b := by
  induction k with
  | zero => cases member
  | succ k ih =>
    rcases List.mem_cons.mp member with rfl | later
    · exact Nat.mod_lt _ base
    · exact ih later

theorem padded_mod {j : Nat} (n : Nat) (enough : k ≤ j) :
    padded b k (n % b ^ j) = padded b k n := by
  induction k with
  | zero => rfl
  | succ k ih =>
    have same : n % b ^ j / b ^ k % b = n / b ^ k % b := by
      obtain ⟨i, rfl⟩ := Nat.exists_eq_add_of_lt enough
      rw [show k + i + 1 = k + (i + 1) by omega, Nat.pow_add, Nat.mod_mul_right_div_self,
        Nat.mod_mod_of_dvd _ (Dvd.intro_left _ (Nat.pow_succ ..).symm)]
    rw [padded, padded, ih (by omega), same]

/-- **Fixed digits say the number**, up to a power of the base. -/
theorem value_padded (b n : Nat) : ∀ k, value b (padded b k n) = n % b ^ k
  | 0 => by rw [Nat.pow_zero, Nat.mod_one]; rfl
  | k + 1 => by
    rw [padded, value_cons, length_padded, value_padded b n k, Nat.pow_succ, Nat.mod_mul,
      Nat.mul_comm, Nat.add_comm]

end Lib
