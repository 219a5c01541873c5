/-
**Radix trees in a store.**

The nodes of such a tree lie in a store, and the entry `i` of the node `t` is `child t i`. `node d
k` is the node at depth `d` whose path from the root, read as a number in base `w`, is `k`: the path
of a node at depth `d + 1` is `k / w` and then `k % w`.

A store into one entry of one node changes the tree at one place, when every node stands at one
place and the new node is empty:

* `node_congr`: no entry of a node has changed;
* `node_set`: one entry has a new value.
-/

import Mathlib

namespace Lib.Radix

variable {T : Type*} {child child' : T → Nat → Option T} {w : Nat} {root t : T} {n d₀ k₀ i : Nat}

/-- The node at a depth, by the number that its path spells. -/
def node (child : T → Nat → Option T) (w : Nat) (root : T) : Nat → Nat → Option T
  | 0, k => if k = 0 then some root else none
  | d + 1, k => (node child w root d (k / w)).bind fun t => child t (k % w)

theorem node_succ (d k : Nat) :
    node child w root (d + 1) k = (node child w root d (k / w)).bind fun t => child t (k % w) := rfl

theorem path_entry (index : i < w) {k k' : Nat} : k' = k * w + i ↔ k' / w = k ∧ k' % w = i := by
  constructor
  · rintro rfl
    rw [Nat.mul_comm, Nat.mul_add_div (by omega), Nat.mul_add_mod, Nat.div_eq_of_lt index,
      Nat.mod_eq_of_lt index]
    exact ⟨Nat.add_zero _, rfl⟩
  · rintro ⟨rfl, rfl⟩
    rw [Nat.mul_comm]
    exact (Nat.div_add_mod k' w).symm

theorem node_entry {k : Nat} {d : Nat} (at_ : node child w root d k = some t) (index : i < w) :
    node child w root (d + 1) (k * w + i) = child t i := by
  obtain ⟨quotient, remainder⟩ := (path_entry index).mp (Eq.refl (k * w + i))
  rw [node_succ, quotient, remainder, at_]
  rfl

theorem node_below {d : Nat} : ∀ {e k : Nat}, node child w root d (k / w ^ e) = none →
    node child w root (d + e) k = none := by
  intro e
  induction e with
  | zero =>
    intro k missing
    rwa [Nat.pow_zero, Nat.div_one] at missing
  | succ e ih =>
    intro k missing
    rw [Nat.pow_succ, Nat.mul_comm, ← Nat.div_div_eq_div_mul] at missing
    rw [← Nat.add_assoc, node_succ, ih missing]
    rfl

/-- The tree depends on the entries of its inner nodes only. -/
theorem node_congr (wide : 0 < w)
    (same : ∀ d < n, ∀ k t, node child w root d k = some t → ∀ i < w, child' t i = child t i) :
    ∀ d ≤ n, ∀ k, node child' w root d k = node child w root d k := by
  intro d
  induction d with
  | zero => exact fun _ _ => rfl
  | succ d ih =>
    intro inside k
    rw [node_succ, node_succ, ih (by omega)]
    cases at_ : node child w root d (k / w) with
    | none => rfl
    | some t => exact same d inside _ t at_ _ (Nat.mod_lt _ wide)

/-- **One entry of one node gets a new value.** An inner entry was empty, and what it points to now
has no entries. -/
theorem node_set {new : Option T} (index : i < w)
    (alone : ∀ d < n, ∀ k, node child w root d k = some t → d = d₀ ∧ k = k₀)
    (at_ : node child w root d₀ k₀ = some t) (now : child' t i = new)
    (same : ∀ d < n, ∀ k u, node child w root d k = some u → ∀ j < w, ¬ (u = t ∧ j = i) →
      child' u j = child u j)
    (inner : d₀ + 1 < n → child t i = none ∧ ∀ c, new = some c → ∀ j < w, child' c j = none) :
    ∀ d ≤ n, ∀ k, node child' w root d k = if d = d₀ + 1 ∧
      k = k₀ * w + i then new else node child w root d k := by
  have wide : 0 < w := by omega
  have old : ∀ k, k = k₀ * w + i → node child w root (d₀ + 1) k = child t i := by
    rintro _ rfl
    exact node_entry at_ index
  intro d
  induction d with
  | zero =>
    intro _ k
    rw [if_neg (by omega)]
    rfl
  | succ d ih =>
    intro inside k
    have short := Nat.mod_lt k wide
    rw [node_succ, node_succ, ih (by omega)]
    by_cases below : d = d₀ + 1 ∧ k / w = k₀ * w + i
    · -- below the new node
      obtain ⟨empty, fresh⟩ := inner (by omega)
      rw [if_pos below, if_neg (by omega), below.1, old _ below.2, empty]
      cases isNew : new with
      | none => rfl
      | some c => exact fresh c isNew _ short
    · rw [if_neg below]
      have split : k = k₀ * w + i ↔ k / w = k₀ ∧ k % w = i := path_entry index
      by_cases here : d = d₀ ∧ k / w = k₀
      · rw [here.1, here.2, at_]
        show child' t (k % w) = if _ then new else child t (k % w)
        by_cases entry : k % w = i
        · rw [if_pos ⟨rfl, split.mpr ⟨here.2, entry⟩⟩, entry, now]
        · rw [if_neg (fun both => entry (split.mp both.2).2)]
          exact same d₀ (by omega) k₀ t at_ _ short fun both => entry both.2
      · rw [if_neg (fun both => here ⟨by omega, (split.mp both.2).1⟩)]
        cases found : node child w root d (k / w) with
        | none => rfl
        | some u =>
          refine same d inside _ u found _ short fun both => here ?_
          rw [both.1] at found
          exact alone d inside _ found

end Lib.Radix
