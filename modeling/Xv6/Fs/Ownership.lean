/-
**Every data block has one owner** (`kernel/fs.c`).

A place is an inode number with an index: 0 to `NDIRECT` for `addrs`, the next `NINDIRECT` for the
entries of the indirect block. `Vol.owner` gives the block number that stands at a place of an
allocated inode. `Owned nodes s`: every data block is either free in the bitmap or stands at exactly
one place, everything before the data blocks is marked, and a file has no hole below its size. The
inodes are an argument, since a function works on the in-memory copy of its inode and writes it back
at the end.

`Meter A n o` bounds what was given to `log_write`: blocks of `A` and at most `n` others.
-/

import Xv6.Fs.Layout
import Xv6.Lib.Owners

namespace Xv6

open Lib Function

namespace Vol

/-! ### Places -/

def Dinode.indirect (d : Dinode) : Nat := d.addrs (Fin.last NDIRECT)

def Dinode.slot (d : Dinode) (entry : Nat → Nat → Nat) (k : Nat) : Nat :=
  if direct : k < NDIRECT + 1 then d.addrs ⟨k, direct⟩
  else if k < NDIRECT + 1 + NINDIRECT ∧ d.indirect ≠ 0 then entry d.indirect (k - (NDIRECT + 1))
  else 0

/-- The index of the `n`th block of a file. -/
def fileSlot (n : Nat) : Nat := if n < NDIRECT then n else n + 1

def owner (s : Vol) (nodes : Nat → Dinode) (p : Nat × Nat) : Option Nat :=
  if p.1 < s.sb.ninodes ∧ (nodes p.1).type ≠ 0 ∧ (nodes p.1).slot s.entry p.2 ≠ 0 then
    some ((nodes p.1).slot s.entry p.2)
  else none

/-- The dinode with one block number replaced. -/
def Dinode.setAddr (d : Dinode) (k : Fin (NDIRECT + 1)) (b : Nat) : Dinode :=
  { d with addrs := update d.addrs k b }

section Places

variable {s t : Vol} {nodes : Nat → Dinode} {d : Dinode} {x b k j : Nat} {e e' : Nat → Nat → Nat}

theorem slot_addr (direct : k < NDIRECT + 1) : d.slot e k = d.addrs ⟨k, direct⟩ := by
  rw [Dinode.slot, dif_pos direct]

theorem slot_indirect : d.slot e NDIRECT = d.indirect := slot_addr (by decide)

theorem slot_entry (inside : j < NINDIRECT) :
    d.slot e (NDIRECT + 1 + j) = if d.indirect = 0 then 0 else e d.indirect j := by
  rw [Dinode.slot, dif_neg (by omega), Nat.add_sub_cancel_left]
  by_cases none : d.indirect = 0
  · rw [if_neg (fun both => both.2 none), if_pos none]
  · rw [if_pos ⟨by omega, none⟩, if_neg none]

theorem slot_congr (same : d.indirect ≠ 0 → ∀ j, e' d.indirect j = e d.indirect j) :
    d.slot e' k = d.slot e k := by
  unfold Dinode.slot
  split
  · rfl
  · split
    · exact same (by tauto) _
    · rfl

theorem owner_eq_some {p : Nat × Nat} :
    s.owner nodes p = some b ↔ p.1 < s.sb.ninodes ∧ (nodes p.1).type ≠ 0 ∧
      (nodes p.1).slot s.entry p.2 = b ∧ b ≠ 0 := by
  unfold owner
  split
  · rename_i all
    rw [Option.some.injEq]
    exact ⟨fun same => ⟨all.1, all.2.1, same, same ▸ all.2.2⟩, fun parts => parts.2.2.1⟩
  · rename_i missing
    constructor
    · intro nothing
      cases nothing
    · intro parts
      refine absurd ⟨parts.1, parts.2.1, ?_⟩ missing
      rw [parts.2.2.1]
      exact parts.2.2.2

theorem owner_congr (sb : t.sb = s.sb)
    (same : ∀ y c, s.owner nodes (y, NDIRECT) = some c → ∀ j, t.entry c j = s.entry c j) :
    t.owner nodes = s.owner nodes := by
  funext p
  by_cases alive : p.1 < s.sb.ninodes ∧ (nodes p.1).type ≠ 0
  · have slots : (nodes p.1).slot t.entry p.2 = (nodes p.1).slot s.entry p.2 :=
      slot_congr fun some => same p.1 _ (owner_eq_some.2 ⟨alive.1, alive.2, slot_indirect, some⟩)
    unfold owner
    rw [slots, sb]
  · unfold owner
    rw [if_neg (fun all => alive ⟨sb ▸ all.1, all.2.1⟩),
      if_neg (fun all => alive ⟨all.1, all.2.1⟩)]

theorem slot_setAddr {k : Fin (NDIRECT + 1)} {m : Nat}
    (fresh : k = Fin.last NDIRECT → d.indirect = 0 ∧ ∀ j, e b j = 0) :
    (d.setAddr k b).slot e m = if m = k.val then b else d.slot e m := by
  by_cases direct : m < NDIRECT + 1
  · rw [slot_addr direct, slot_addr direct]
    by_cases same : m = k.val
    · have index : (⟨m, direct⟩ : Fin (NDIRECT + 1)) = k := Fin.ext same
      rw [if_pos same, index]
      show update d.addrs k b k = b
      rw [update_self]
    · rw [if_neg same]
      have index : (⟨m, direct⟩ : Fin (NDIRECT + 1)) ≠ k := fun eq => same (congrArg Fin.val eq)
      exact update_of_ne index _ _
  · have different : m ≠ k.val := fun same => direct (same ▸ k.isLt)
    rw [if_neg different]
    unfold Dinode.slot
    rw [dif_neg direct, dif_neg direct]
    by_cases last : k = Fin.last NDIRECT
    · -- a new indirect block is empty, and there was none before
      obtain ⟨none, empty⟩ := fresh last
      have now : (d.setAddr k b).indirect = b := by
        subst last
        show update d.addrs (Fin.last NDIRECT) b (Fin.last NDIRECT) = b
        rw [update_self]
      rw [now, empty, ite_self, if_neg (fun both => both.2 none)]
    · have kept : (d.setAddr k b).indirect = d.indirect :=
        update_of_ne (Ne.symm last) _ _
      rw [kept]

theorem owner_setAddr {k : Fin (NDIRECT + 1)} (inside : x < s.sb.ninodes)
    (alive : (nodes x).type ≠ 0) (some : b ≠ 0)
    (fresh : k = Fin.last NDIRECT → (nodes x).indirect = 0 ∧ ∀ j, s.entry b j = 0) :
    s.owner (update nodes x ((nodes x).setAddr k b)) =
      update (s.owner nodes) (x, k.val) (.some b) := by
  funext p
  obtain ⟨y, m⟩ := p
  by_cases same : y = x
  · subst same
    have slots := slot_setAddr (m := m) fresh
    unfold owner
    simp only [update_self, slots]
    by_cases index : m = k.val
    · subst index
      rw [update_self, if_pos rfl, if_pos ⟨inside, alive, some⟩]
    · have place : (y, m) ≠ (y, k.val) := fun eq => index (Prod.mk.inj eq).2
      rw [update_of_ne place, if_neg index]
      rfl
  · have place : (y, m) ≠ (x, k.val) := fun eq => same (Prod.mk.inj eq).1
    rw [update_of_ne place]
    unfold owner
    simp only [update_of_ne same]

theorem owner_putEntry (inside : x < s.sb.ninodes) (alive : (nodes x).type ≠ 0)
    (index : j < NINDIRECT) (some : b ≠ 0) (fits : b < 2 ^ 32) (indirect : (nodes x).indirect ≠ 0)
    (alone : ∀ y, s.owner nodes (y, NDIRECT) = .some (nodes x).indirect → y = x) :
    (s.putEntry (nodes x).indirect j b).owner nodes =
      update (s.owner nodes) (x, NDIRECT + 1 + j) (.some b) := by
  have here : (s.putEntry (nodes x).indirect j b).entry (nodes x).indirect =
      update (s.entry (nodes x).indirect) j b := entry_putEntry index fits
  funext p
  obtain ⟨y, m⟩ := p
  by_cases same : y = x
  · subst same
    by_cases atJ : m = NDIRECT + 1 + j
    · subst atJ
      rw [update_self, owner_eq_some]
      refine ⟨inside, alive, ?_, some⟩
      rw [slot_entry index, if_neg indirect, here, update_self]
    · have place : (y, m) ≠ (y, NDIRECT + 1 + j) := fun eq => atJ (Prod.mk.inj eq).2
      have slots : (nodes y).slot (s.putEntry (nodes y).indirect j b).entry m =
          (nodes y).slot s.entry m := by
        unfold Dinode.slot
        split
        · rfl
        · rw [here]
          have other : m - (NDIRECT + 1) ≠ j := by omega
          rw [update_of_ne other]
      rw [update_of_ne place]
      unfold owner
      simp only [slots, sb_putEntry]
  · have place : (y, m) ≠ (x, NDIRECT + 1 + j) := fun eq => same (Prod.mk.inj eq).1
    rw [update_of_ne place]
    by_cases live : y < s.sb.ninodes ∧ (nodes y).type ≠ 0
    · have slots : (nodes y).slot (s.putEntry (nodes x).indirect j b).entry m =
          (nodes y).slot s.entry m := by
        refine slot_congr fun nonzero i => entry_store_ne fun equal => same (alone y ?_)
        exact owner_eq_some.2 ⟨live.1, live.2, slot_indirect.trans equal, indirect⟩
      unfold owner
      simp only [slots, sb_putEntry]
    · unfold owner
      rw [if_neg (fun all => live ⟨all.1, all.2.1⟩), if_neg (fun all => live ⟨all.1, all.2.1⟩)]

end Places

/-! ### The invariant -/

/-- **Every data block is free or at one place.** -/
structure Owned (nodes : Nat → Dinode) (s : Vol) : Prop where
  layout : s.sb.Layout
  owns : Owns (s.owner nodes) s.Free s.sb.InData
  /-- boot block, superblock, log, inodes and bitmap are marked -/
  marked : ∀ b < s.sb.dataStart, ¬ s.Free b
  /-- a file has all its blocks below its size -/
  full : ∀ x, x < s.sb.ninodes → (nodes x).type ≠ 0 → ∀ n, n * BSIZE < (nodes x).size →
    s.owner nodes (x, fileSlot n) ≠ none
  /-- what was changed without `log_write` is file data -/
  clean : ∀ b, s.Dirty b → s.sb.InData b ∧ ∀ x, s.owner nodes (x, NDIRECT) ≠ some b

end Vol

end Xv6
