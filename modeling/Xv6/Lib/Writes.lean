/-
**Ordered writes to a store, cut off at any point.**

A program that updates a store through single atomic writes leaves, when it is cut off, the store
after some initial segment of its writes. `applyWrites ws d` is the store `d` after the writes
`ws`; a cut after `k` of them is `applyWrites (ws.take k) d`.

* `applyWrites_cut`: a property of stores that every write of the program preserves holds at
  every cut.
* `applyWrites_of_not_mem`, `applyWrites_of_mem`: what one address holds after a list of writes to
  distinct addresses.
-/

import Mathlib

namespace Lib

open Function

variable {A V : Type} [DecidableEq A] {ws : List (A × V)}

/-- The store after a list of writes, first write first. -/
def applyWrites (ws : List (A × V)) (d : A → V) : A → V :=
  ws.foldl (fun store w => update store w.1 w.2) d

@[simp] theorem applyWrites_nil (d : A → V) : applyWrites [] d = d := rfl

@[simp] theorem applyWrites_cons (w : A × V) (ws : List (A × V)) (d : A → V) :
    applyWrites (w :: ws) d = applyWrites ws (update d w.1 w.2) := rfl

theorem applyWrites_append (ws vs : List (A × V)) (d : A → V) :
    applyWrites (ws ++ vs) d = applyWrites vs (applyWrites ws d) := List.foldl_append

/-- **A property that each write preserves holds after all of them.** -/
theorem applyWrites_inv {P : (A → V) → Prop} (step : ∀ w ∈ ws, ∀ d, P d → P (update d w.1 w.2)) :
    ∀ {d : A → V}, P d → P (applyWrites ws d) := by
  induction ws with
  | nil => exact fun initial => initial
  | cons w ws ih =>
    intro d initial
    exact ih (fun v member => step v (List.mem_cons_of_mem _ member))
      (step w List.mem_cons_self d initial)

/-- **A property that each write preserves holds at every cut.** -/
theorem applyWrites_cut {P : (A → V) → Prop}
    (step : ∀ w ∈ ws, ∀ d, P d → P (update d w.1 w.2)) (k : Nat) {d : A → V}
    (initial : P d) : P (applyWrites (ws.take k) d) :=
  applyWrites_inv (fun w member => step w (List.mem_of_mem_take member)) initial

theorem applyWrites_of_not_mem {a : A} (absent : ∀ w ∈ ws, w.1 ≠ a)
    (d : A → V) : applyWrites ws d a = d a :=
  applyWrites_inv (P := fun store => store a = d a)
    (fun w member store same => by rw [update_of_ne (absent w member).symm, same]) rfl

/-- With distinct addresses, every address written holds the value written to it. -/
theorem applyWrites_of_mem (distinct : (ws.map Prod.fst).Nodup) {w : A × V}
    (member : w ∈ ws) : ∀ d : A → V, applyWrites ws d w.1 = w.2 := by
  induction ws with
  | nil => cases member
  | cons v ws ih =>
    intro d
    rw [List.map_cons, List.nodup_cons] at distinct
    rw [applyWrites_cons]
    rcases List.mem_cons.mp member with rfl | later
    · rw [applyWrites_of_not_mem, update_self]
      intro other inside same
      exact distinct.1 (same ▸ List.mem_map_of_mem inside)
    · exact ih distinct.2 later _

end Lib
