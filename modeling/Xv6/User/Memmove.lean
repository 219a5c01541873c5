/-
**`memmove`** (`kernel/string.c`, `user/ulib.c`).

Two functions of one name. Each copies upwards or downwards, byte by byte, and they choose the
direction by different tests. Pointers are 64 bits wide and wrap; the count is 32 bits wide,
unsigned in the kernel and signed in the library.
-/

import Xv6.Lib.Memory

namespace Xv6

open Lib Function

/-! ### The program -/

/-- `while(n-- > 0) *d++ = *s++;` -/
def moveForward (m : Memory) (d s : Nat) : Nat → Memory
  | 0 => m
  | n + 1 => moveForward (update m d (m s)) ((d + 1) % 2 ^ 64) ((s + 1) % 2 ^ 64) n

/-- `while(n-- > 0) *--d = *--s;` -/
def moveBackward (m : Memory) (d s : Nat) : Nat → Memory
  | 0 => m
  | n + 1 =>
    let d := (d + 2 ^ 64 - 1) % 2 ^ 64
    let s := (s + 2 ^ 64 - 1) % 2 ^ 64
    moveBackward (update m d (m s)) d s n

def Kernel.memmove (m : Memory) (dst src : Nat) (n : BitVec 32) : Memory :=
  if n = 0 then m
  else if src < dst ∧ (src + n.toNat) % 2 ^ 64 > dst then
    moveBackward m ((dst + n.toNat) % 2 ^ 64) ((src + n.toNat) % 2 ^ 64) n.toNat
  else moveForward m dst src n.toNat

def User.memmove (m : Memory) (dst src : Nat) (n : BitVec 32) : Memory :=
  if src > dst then moveForward m dst src n.toInt.toNat
  else moveBackward m ((dst + n.toInt) % 2 ^ 64).toNat
    ((src + n.toInt) % 2 ^ 64).toNat n.toInt.toNat

/-! ### The loops -/

/-- Upwards, a byte is read before it is overwritten if the destination is below the source, or
apart. -/
theorem moveForward_eq :
    ∀ {n d s : Nat} {m : Memory}, d + n < 2 ^ 64 → s + n < 2 ^ 64 → d ≤ s ∨ s + n ≤ d →
    moveForward m d s n = m.move d s n := by
  intro n
  induction n with
  | zero =>
    intro d s m _ _ _
    funext x
    exact (Memory.move_outside (by omega)).symm
  | succ n ih =>
    intro d s m inD inS safe
    rw [moveForward, Nat.mod_eq_of_lt (by omega), Nat.mod_eq_of_lt (by omega),
      ih (by omega) (by omega) (by omega)]
    funext x
    by_cases later : d + 1 ≤ x ∧ x < d + 1 + n
    · rw [Memory.move_inside later.1 later.2, Memory.move_inside (by omega) (by omega),
        update_of_ne (by omega)]
      congr 1
      omega
    · rw [Memory.move_outside (by omega)]
      by_cases first : x = d
      · rw [first, update_self, Memory.move_inside (Nat.le_refl d) (by omega), Nat.sub_self,
          Nat.add_zero]
      · rw [update_of_ne first, Memory.move_outside (by omega)]

/-- Downwards, if the source is below the destination. -/
theorem moveBackward_eq : ∀ {n d s : Nat} {m : Memory}, d + n < 2 ^ 64 → s + n < 2 ^ 64 → s ≤ d →
    moveBackward m (d + n) (s + n) n = m.move d s n := by
  intro n
  induction n with
  | zero =>
    intro d s m _ _ _
    funext x
    exact (Memory.move_outside (by omega)).symm
  | succ n ih =>
    intro d s m inD inS safe
    have down (p : Nat) (inside : p + (n + 1) < 2 ^ 64) : (p + (n + 1) + 2 ^ 64 - 1) % 2 ^ 64 = p +
      n := by omega
    simp only [moveBackward, down d inD, down s inS]
    rw [ih (by omega) (by omega) safe]
    funext x
    by_cases earlier : d ≤ x ∧ x < d + n
    · rw [Memory.move_inside earlier.1 earlier.2, Memory.move_inside (by omega) (by omega),
        update_of_ne (by omega)]
    · rw [Memory.move_outside (by omega)]
      by_cases last : x = d + n
      · rw [last, update_self, Memory.move_inside (by omega) (by omega), Nat.add_sub_cancel_left]
      · rw [update_of_ne last, Memory.move_outside (by omega)]

variable {m : Memory} {dst src : Nat} {n : BitVec 32}

theorem Kernel.memmove_eq (inDst : dst + n.toNat < 2 ^ 64) (inSrc : src + n.toNat < 2 ^ 64) :
    Kernel.memmove m dst src n = m.move dst src n.toNat := by
  unfold Kernel.memmove
  rw [Nat.mod_eq_of_lt inDst, Nat.mod_eq_of_lt inSrc]
  split_ifs with none overlap
  · funext x
    rw [none]
    exact (Memory.move_outside (show x < dst ∨ dst + 0 ≤ x by omega)).symm
  · exact moveBackward_eq inDst inSrc overlap.1.le
  · exact moveForward_eq inDst inSrc (by omega)

theorem User.memmove_eq (count : n.toNat < 2 ^ 31) (inDst : dst + n.toNat < 2 ^ 64)
    (inSrc : src + n.toNat < 2 ^ 64) : User.memmove m dst src n = m.move dst src n.toNat := by
  have signed : n.toInt = n.toNat := BitVec.toInt_eq_toNat_of_lt (by omega)
  have add (p : Nat) (inside : p + n.toNat < 2 ^ 64) : (((p : Int) + n.toNat) % 2 ^ 64).toNat = p +
    n.toNat := by omega
  unfold User.memmove
  rw [signed, Int.toNat_natCast, add dst inDst, add src inSrc]
  split_ifs with above
  · exact moveForward_eq inDst inSrc (.inl above.le)
  · exact moveBackward_eq inDst inSrc (Nat.le_of_not_lt above)

/-! ### The result -/

/-- `after` is `before` with the bytes of the source, as they were, in the destination. -/
structure Snapshot (before after : Memory) (dst src n : Nat) : Prop where
  copied : ∀ i < n, after (dst + i) = before (src + i)
  kept : ∀ x, x < dst ∨ dst + n ≤ x → after x = before x

theorem snapshot_move (m : Memory) (dst src n : Nat) : Snapshot m (m.move dst src n) dst src n where
  copied i inside := by
    rw [Memory.move_inside (Nat.le_add_right dst i) (by omega), Nat.add_sub_cancel_left]
  kept _ outside := Memory.move_outside outside

/-- **`memmove` copies a snapshot of the source**, in the kernel and in the library, and they agree.
Memory ends below 2⁶⁴, so the pointer past the last byte of a range is above the others. -/
theorem memmove_snapshot (m : Memory) (dst src : Nat) (n : BitVec 32)
    (inDst : dst + n.toNat < 2 ^ 64) (inSrc : src + n.toNat < 2 ^ 64) :
    Snapshot m (Kernel.memmove m dst src n) dst src n.toNat ∧
    (n.toNat < 2 ^ 31 → Snapshot m (User.memmove m dst src n) dst src n.toNat ∧
      User.memmove m dst src n = Kernel.memmove m dst src n) := by
  have kernel := Kernel.memmove_eq (m := m) inDst inSrc
  refine ⟨kernel ▸ snapshot_move m dst src n.toNat, fun count => ?_⟩
  have user := User.memmove_eq (m := m) count inDst inSrc
  exact ⟨user ▸ snapshot_move m dst src n.toNat, user.trans kernel.symm⟩

theorem memmove_up :
    Snapshot (fun x => BitVec.ofNat 8 x) (Kernel.memmove (fun x => BitVec.ofNat 8 x) 11 10 3) 11 10
    3 ∧
    User.memmove (fun x => BitVec.ofNat 8 x) 11 10 3 13 = 12 := by
  have moved := memmove_snapshot (fun x => BitVec.ofNat 8 x) 11 10 3 (by decide) (by decide)
  exact ⟨moved.1, (moved.2 (by decide)).1.copied 2 (by decide)⟩

end Xv6
