/-
**Counting who refers to what.**

`holders f b` is the number of places that refer to `b`, for a table `f` of references on a finite
set of places. `holders_update` is what it becomes when one place changes.
-/

import Xv6.Lib.Update

set_option linter.unusedSectionVars false

namespace Lib

open Function

variable {A B : Type*} [Fintype A] [DecidableEq A] [DecidableEq B]

def holders (f : A → Option B) (b : B) : Int :=
  ((Finset.univ.filter fun a => f a = some b).card : Int)

theorem holders_nonneg (f : A → Option B) (b : B) : 0 ≤ holders f b := Int.natCast_nonneg _

variable {f : A → Option B} {a : A} {b : B}

theorem holders_pos (refers : f a = some b) : 0 < holders f b := by
  unfold holders
  have member : a ∈ Finset.univ.filter fun a => f a = some b := by simp [refers]
  exact Int.natCast_pos.mpr (Finset.card_pos.mpr ⟨a, member⟩)

theorem holders_eq_zero (none : ∀ a, f a ≠ some b) : holders f b = 0 := by
  unfold holders
  rw [Finset.filter_false_of_mem fun a _ => none a]
  rfl

theorem holders_eq_one (only : ∀ x, f x = some b ↔ x = a) : holders f b = 1 := by
  unfold holders
  have single : (Finset.univ.filter fun x => f x = some b) = {a} := by
    ext x
    simp [only]
  rw [single, Finset.card_singleton]
  rfl

theorem holders_split (f : A → Option B) (a : A) (b : B) :
    holders f b = (((Finset.univ.filter fun x => f x = some b).erase a).card : Int) +
      (if f a = some b then 1 else 0) := by
  unfold holders
  split_ifs with refers
  · rw [← Finset.card_erase_add_one (show a ∈ Finset.univ.filter fun x => f x = some b by
      simp [refers])]
    push_cast
    rfl
  · rw [Finset.erase_eq_of_notMem (by simp [refers]), Int.add_zero]

/-- One reference to `b`. -/
def one (b : B) : B → Int := Pi.single b 1

theorem sub_one_eq (k : B → Int) (b : B) : k - one b = k + Pi.single b (-1) := by
  funext c
  by_cases same : c = b
  · subst same
    simp only [one, Pi.sub_apply, Pi.add_apply, Pi.single_eq_same]
    omega
  · simp [one, same]

/-- The references that a place with the content `v` makes. -/
def oneOf : Option B → B → Int
  | some b => one b
  | none => 0

@[simp] theorem oneOf_some (b : B) : oneOf (some b) = one b := rfl

@[simp] theorem oneOf_none : oneOf (none : Option B) = 0 := rfl

theorem oneOf_apply (v : Option B) (b : B) : oneOf v b = if v = some b then 1 else 0 := by
  cases v with
  | none => rfl
  | some c =>
    rw [oneOf_some, one, Pi.single_apply]
    exact if_congr (by rw [Option.some_inj, eq_comm]) rfl rfl

theorem holders_update (f : A → Option B) (a : A) (v : Option B) :
    holders (update f a v) = holders f - oneOf (f a) + oneOf v := by
  funext b
  have others : (Finset.univ.filter fun x => update f a v x = some b).erase a =
      (Finset.univ.filter fun x => f x = some b).erase a := by
    ext x
    by_cases same : x = a <;> simp [same]
  rw [Pi.add_apply, Pi.sub_apply, oneOf_apply, oneOf_apply, holders_split _ a b,
    holders_split f a b, others, update_self]
  omega

theorem holders_take (free : f a = none) (b : B) :
    holders (update f a (some b)) = update (holders f) b (holders f b + 1) := by
  funext c
  rw [holders_update, free, Pi.add_apply, Pi.sub_apply, oneOf_apply, oneOf_apply]
  exact update_ind (by simp) fun other => by simp [Ne.symm other]

theorem holders_drop (refers : f a = some b) :
    holders (update f a none) = update (holders f) b (holders f b - 1) := by
  funext c
  rw [holders_update, refers, Pi.add_apply, Pi.sub_apply, oneOf_apply, oneOf_apply]
  exact update_ind (by simp) fun other => by simp [Ne.symm other]

end Lib
