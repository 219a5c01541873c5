/-
**Resources with one owner each.**

`own p` is the resource that the place `p` holds, if any; `free` are the resources nobody holds.
`Owns own free area`: inside `area` every resource is either free or held by exactly one place, and
no place holds a resource from outside. A resource moves by `Owns.put` and `Owns.clear`.
-/

import Xv6.Lib.Update

namespace Lib

open Function

variable {P R : Type*}

/-- **Every resource is free or has exactly one owner.** -/
structure Owns (own : P → Option R) (free area : R → Prop) : Prop where
  once : ∀ {p q : P} {r : R}, own p = some r → own q = some r → p = q
  inside : ∀ {p : P} {r : R}, own p = some r → area r
  free_iff : ∀ {r : R}, area r → (free r ↔ ∀ p, own p ≠ some r)

namespace Owns

variable {own own' : P → Option R} {free free' area : R → Prop} {p : P} {r : R}

theorem not_free (owns : Owns own free area) (holds : own p = some r) : ¬ free r := fun isFree =>
  (owns.free_iff (owns.inside holds)).1 isFree p holds

variable [DecidableEq P]

theorem put (owns : Owns own free area) (vacant : own p = none) (isFree : free r) (inside : area r)
    (now : ∀ x, area x → (free' x ↔ free x ∧ x ≠ r)) : Owns (update own p (some r)) free' area := by
  have unheld : ∀ q, own q ≠ some r := (owns.free_iff inside).1 isFree
  refine ⟨fun {a b x} first second => ?_, fun {a x} holds => ?_, fun {x} xInside => ?_⟩
  · by_cases atA : a = p
    · by_cases atB : b = p
      · exact atA.trans atB.symm
      · rw [atA, update_self] at first
        rw [update_of_ne atB, ← Option.some.inj first] at second
        exact absurd second (unheld b)
    · rw [update_of_ne atA] at first
      by_cases atB : b = p
      · rw [atB, update_self] at second
        rw [← Option.some.inj second] at first
        exact absurd first (unheld a)
      · rw [update_of_ne atB] at second
        exact owns.once first second
  · revert holds
    exact update_ind (fun same => Option.some.inj same ▸ inside) fun _ => owns.inside
  · rw [now x xInside, owns.free_iff xInside]
    constructor
    · intro unheldNow q
      exact update_ind (fun same => unheldNow.2 (Option.some.inj same).symm) fun _ => unheldNow.1 q
    · intro unheldNow
      constructor
      · intro q holds
        have elsewhere : q ≠ p := fun same => by rw [same, vacant] at holds; cases holds
        exact unheldNow q (by rw [update_of_ne elsewhere]; exact holds)
      · intro same
        exact unheldNow p (by rw [update_self, same])

end Owns

end Lib
