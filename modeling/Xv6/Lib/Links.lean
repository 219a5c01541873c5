/-
**Graphs of links.**

Each node has a list of links, and a link leads to a node. `inDegree` counts the links to a node and
`Reach` says that links lead from one node to another. `Adds` is the change of a graph by one link,
read forwards for a new link and backwards for one that goes away.
-/

import Mathlib

set_option linter.unusedSectionVars false

namespace Lib

variable {V L : Type*} [DecidableEq V] (dest : L → V)

def inDegree (nodes : Finset V) (links : V → List L) (v : V) : Nat :=
  ∑ u ∈ nodes, (links u).countP fun l => dest l = v

def Reach (links : V → List L) : V → V → Prop :=
  Relation.ReflTransGen fun u v => ∃ l ∈ links u, dest l = v

/-- The second graph has one more link, from `u`. -/
structure Adds (links links' : V → List L) (u : V) (l : L) : Prop where
  here : (links' u).Perm (l :: links u)
  other : ∀ v, v ≠ u → links' v = links v

variable {dest} {nodes : Finset V} {links links' : V → List L} {u v r : V} {l : L}

theorem inDegree_pos :
    0 < inDegree dest nodes links v ↔ ∃ u ∈ nodes, ∃ l ∈ links u, dest l = v := by
  unfold inDegree
  rw [Finset.sum_pos_iff]
  simp only [List.countP_pos_iff, decide_eq_true_eq]

theorem inDegree_eq_zero :
    inDegree dest nodes links v = 0 ↔ ∀ u ∈ nodes, ∀ l ∈ links u, dest l ≠ v := by
  rw [← Nat.le_zero, ← not_lt, inDegree_pos]
  push Not
  rfl

theorem Adds.mem (adds : Adds links links' u l) {w : V} {k : L} (member : k ∈ links w) :
    k ∈ links' w := by
  by_cases same : w = u
  · subst same
    exact adds.here.mem_iff.mpr (List.mem_cons_of_mem _ member)
  · rw [adds.other w same]
    exact member

theorem Adds.mem_cases (adds : Adds links links' u l) {w : V} {k : L} (member : k ∈ links' w) :
    k ∈ links w ∨ (w = u ∧ k = l) := by
  by_cases same : w = u
  · subst same
    obtain new | old := List.mem_cons.mp (adds.here.mem_iff.mp member)
    · exact Or.inr ⟨rfl, new⟩
    · exact Or.inl old
  · rw [adds.other w same] at member
    exact Or.inl member

theorem Adds.mem_self (adds : Adds links links' u l) : l ∈ links' u :=
  adds.here.mem_iff.mpr List.mem_cons_self

theorem inDegree_change (other : ∀ w, w ≠ u → links' w = links w) (inside : u ∈ nodes) :
    inDegree dest nodes links' v + (links u).countP (fun l => dest l = v) =
      inDegree dest nodes links v + (links' u).countP fun l => dest l = v := by
  unfold inDegree
  rw [← Finset.add_sum_erase _ _ inside, ← Finset.add_sum_erase _ _ inside,
    Finset.sum_congr rfl fun w member => by rw [other w (Finset.ne_of_mem_erase member)]]
  omega

theorem Adds.inDegree (adds : Adds links links' u l) (inside : u ∈ nodes) :
    Lib.inDegree dest nodes links' v = Lib.inDegree dest nodes links v + if dest l =
      v then 1 else 0 := by
  have change : Lib.inDegree dest nodes links' v + _ = _ := inDegree_change adds.other inside
  rw [adds.here.countP_eq, List.countP_cons] at change
  simp only [decide_eq_true_eq] at change
  omega

theorem inDegree_clear (gone : links' u = []) (other : ∀ w, w ≠ u → links' w = links w)
    (inside : u ∈ nodes) :
    inDegree dest nodes links' v + (links u).countP (fun l => dest l = v) =
      inDegree dest nodes links v := by
  rw [inDegree_change other inside, gone, List.countP_nil, Nat.add_zero]

theorem Adds.reach (adds : Adds links links' u l) (reach : Reach dest links r v) :
    Reach dest links' r v := by
  refine Relation.ReflTransGen.mono ?_ r v reach
  rintro a b ⟨k, member, leads⟩
  exact ⟨k, adds.mem member, leads⟩

/-- A link to a node without links is on no path to another node. -/
theorem Adds.reach_of_sink (adds : Adds links links' u l) (sink : links' (dest l) = [])
    (reach : Reach dest links' r v) : v = dest l ∨ Reach dest links r v := by
  induction reach with
  | refl => exact Or.inr Relation.ReflTransGen.refl
  | tail _ edge ih =>
    obtain ⟨k, member, leads⟩ := edge
    obtain isSink | before := ih
    · subst isSink
      rw [sink] at member
      cases member
    · obtain old | ⟨_, rfl⟩ := adds.mem_cases member
      · exact Or.inr (before.tail ⟨k, old, leads⟩)
      · exact Or.inl leads.symm

end Lib
