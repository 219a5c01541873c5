/-
**Values of an updated function.**

What holds of `update f a v` at a point, from what holds of the new value and of `f` elsewhere.
-/

import Mathlib

namespace Lib

open Function

variable {A B : Type*} [DecidableEq A] {f : A → B} {a x : A} {v w : B}

/-- The case split on whether `x` is the point that was set. -/
@[elab_as_elim]
theorem update_ind {motive : A → B → Prop} (new : motive a v) (old : x ≠ a → motive x (f x)) :
    motive x (update f a v x) := by
  by_cases here : x = a
  · subst here
    rw [update_self]
    exact new
  · rw [update_of_ne here]
    exact old here

/-- A value that is not the new one was there before. -/
theorem of_update_eq (here : update f a v x = w) (other : v ≠ w) : x ≠ a ∧ f x = w := by
  revert here
  exact update_ind (fun here => absurd here other) fun apart here => ⟨apart, here⟩

end Lib
