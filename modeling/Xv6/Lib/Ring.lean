/-
**Ring buffers with free-running counters.**

A ring of `size` slots with two counters of `w` bits that are only ever incremented and wrap modulo
`2 ^ w`; the slot of a counter is its value modulo `size`. With `size` a divisor of `2 ^ w` below
it, the ring is a queue of at most `size` elements (`Holds`): the counters tell an empty ring from a
full one, `put` appends and `take` removes the front, and neither touches another element of the
queue. A writer may also fill the slot first (`stage`) and move the counter later (`publish`), or
take back what it put last (`unput`).
-/

import Mathlib

namespace Lib.Ring

open Function

variable {A : Type*} {w size : Nat} [NeZero size]

def slot (size : Nat) [NeZero size] (counter : BitVec w) : Fin size := Fin.ofNat size counter.toNat

/-- **The ring holds a queue.** -/
structure Holds (data : Fin size → A) (nread nwrite : BitVec w) (queue : List A) : Prop where
  fits : queue.length ≤ size
  counters : nwrite = nread + BitVec.ofNat w queue.length
  slots : ∀ k (inside : k < queue.length), data (slot size (nread + BitVec.ofNat w k)) = queue[k]

theorem holds_nil (data : Fin size → A) (counter : BitVec w) : Holds data counter counter [] where
  fits := Nat.zero_le _
  counters := (BitVec.add_zero counter).symm
  slots := fun _ inside => absurd inside (Nat.not_lt_zero _)

section Wrapping

variable (wraps : size ∣ 2 ^ w)

include wraps

theorem slot_add (counter : BitVec w) (k : Nat) :
    (slot size (counter + BitVec.ofNat w k)).val = (counter.toNat + k) % size := by
  show (counter + BitVec.ofNat w k).toNat % size = _
  rw [BitVec.toNat_add, BitVec.toNat_ofNat, Nat.add_mod_mod, Nat.mod_mod_of_dvd _ wraps]

/-- Counters less than one revolution apart have different slots. -/
theorem slot_injective (counter : BitVec w) {i j : Nat} (first : i < size) (second : j < size)
    (same : slot size (counter + BitVec.ofNat w i) = slot size (counter + BitVec.ofNat w j)) :
    i = j := by
  have values := congrArg Fin.val same
  rw [slot_add wraps, slot_add wraps] at values
  have congruent : i ≡ j [MOD size] := Nat.ModEq.add_left_cancel' counter.toNat values
  rwa [Nat.ModEq, Nat.mod_eq_of_lt first, Nat.mod_eq_of_lt second] at congruent

variable {data : Fin size → A} {nread nwrite : BitVec w} {queue : List A} {a : A}

/-- Writing the slot of the write counter touches no element of the queue. -/
theorem Holds.stage (holds : Holds data nread nwrite queue) (room : queue.length < size) (a : A) :
    Holds (update data (slot size nwrite) a) nread nwrite queue where
  fits := holds.fits
  counters := holds.counters
  slots := by
    intro k inside
    have other : slot size (nread + BitVec.ofNat w k) ≠ slot size nwrite := by
      rw [holds.counters]
      intro same
      have last : k = queue.length := slot_injective wraps nread (by omega) room same
      omega
    rw [update_of_ne other]
    exact holds.slots k inside

omit wraps in
/-- The element staged at the write counter joins the queue when the counter moves on. -/
theorem Holds.publish (holds : Holds data nread nwrite queue) (room : queue.length < size)
    (staged : data (slot size nwrite) = a) : Holds data nread (nwrite + 1) (queue ++ [a]) where
  fits := by
    rw [List.length_append, List.length_singleton]
    exact room
  counters := by
    rw [List.length_append, List.length_singleton, BitVec.ofNat_add, ← BitVec.add_assoc,
      ← holds.counters]
    rfl
  slots := by
    intro k inside
    rw [List.length_append, List.length_singleton] at inside
    by_cases last : k = queue.length
    · subst last
      rw [← holds.counters, staged, List.getElem_concat_length rfl]
    · have earlier : k < queue.length := by omega
      rw [holds.slots k earlier, List.getElem_append_left earlier]

/-- **An element is put at the write counter.** -/
theorem Holds.put (holds : Holds data nread nwrite queue) (room : queue.length < size) (a : A) :
    Holds (update data (slot size nwrite) a) nread (nwrite + 1) (queue ++ [a]) := by
  apply Holds.publish (holds.stage wraps room a) room
  exact update_self ..

omit wraps in
theorem Holds.take (holds : Holds data nread nwrite (a :: queue)) :
    data (slot size nread) = a ∧ Holds data (nread + 1) nwrite queue := by
  have shift : ∀ k, nread + 1 + BitVec.ofNat w k = nread + BitVec.ofNat w (k + 1) := by
    intro k
    rw [BitVec.ofNat_add, BitVec.add_assoc, BitVec.add_comm 1]
    rfl
  refine ⟨?_, ⟨?_, ?_, ?_⟩⟩
  · have front := holds.slots 0 (Nat.succ_pos _)
    rwa [BitVec.add_zero] at front
  · exact (Nat.le_succ _).trans holds.fits
  · rw [shift]
    exact holds.counters
  · intro k inside
    rw [shift]
    exact holds.slots (k + 1) (Nat.succ_lt_succ inside)

omit wraps in
theorem Holds.unput (holds : Holds data nread nwrite (queue ++ [a])) :
    data (slot size (nwrite - 1)) = a ∧ Holds data nread (nwrite - 1) queue := by
  have fits := holds.fits
  rw [List.length_append, List.length_singleton] at fits
  have back : nwrite - 1 = nread + BitVec.ofNat w queue.length := by
    rw [holds.counters, List.length_append, List.length_singleton, BitVec.ofNat_add,
      ← BitVec.add_assoc]
    exact BitVec.add_sub_cancel _ _
  refine ⟨?_, ⟨by omega, back, ?_⟩⟩
  · have last := holds.slots queue.length (by simp)
    rw [back, last, List.getElem_concat_length rfl]
  · intro k inside
    have longer : k < (queue ++ [a]).length := by
      rw [List.length_append, List.length_singleton]
      omega
    rw [holds.slots k longer, List.getElem_append_left inside]

end Wrapping

section Counting

variable (small : size < 2 ^ w) {data : Fin size → A} {nread nwrite : BitVec w} {queue : List A}

include small

theorem Holds.length_eq (holds : Holds data nread nwrite queue) :
    (nwrite - nread).toNat = queue.length := by
  have fits := holds.fits
  rw [holds.counters, BitVec.add_comm, BitVec.add_sub_cancel, BitVec.toNat_ofNat,
    Nat.mod_eq_of_lt (by omega)]

theorem Holds.empty_iff (holds : Holds data nread nwrite queue) : nread = nwrite ↔ queue = [] := by
  constructor
  · rintro rfl
    have length := holds.length_eq small
    rw [BitVec.sub_self] at length
    exact List.length_eq_zero_iff.mp length.symm
  · rintro rfl
    rw [holds.counters]
    exact (BitVec.add_zero nread).symm

theorem Holds.full_iff (holds : Holds data nread nwrite queue) :
    nwrite = nread + BitVec.ofNat w size ↔ queue.length = size := by
  constructor
  · intro apart
    have length := holds.length_eq small
    rw [apart, BitVec.add_comm, BitVec.add_sub_cancel, BitVec.toNat_ofNat,
      Nat.mod_eq_of_lt small] at length
    exact length.symm
  · intro full
    rw [holds.counters, full]

end Counting

end Lib.Ring
