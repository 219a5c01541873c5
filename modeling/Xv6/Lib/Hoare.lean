/-
**Pre- and postconditions for programs with a state and exceptions.**

`Triple pre x post fails`: from a state with `pre`, the program `x` either returns a value and a
state with `post`, or ends in an exception with `fails`. The rules follow the ways a program is put
together; a specification of a function is proved once and used by name where the function is
called.
-/

import Mathlib

namespace Lib

variable {S E A B : Type}

/-- Programs with a state that end in a value or in an exception. -/
abbrev Prog (S E A : Type) := StateT S (Except E) A

/-! ### Running a program -/

section Runs

variable (s : S)

@[simp] theorem run_bind (x : Prog S E A) (f : A → Prog S E B) : (x >>= f) s = match x s with
      | .ok (a, t) => f a t
      | .error e => .error e := by
  show (x s >>= fun r => f r.1 r.2) = _
  cases x s with
  | ok r => rfl
  | error e => rfl

@[simp] theorem run_map (x : Prog S E A) (f : A → B) : (f <$> x) s = match x s with
      | .ok (a, t) => .ok (f a, t)
      | .error e => .error e := by
  show (x s >>= fun r => pure (f r.1, r.2)) = _
  cases x s with
  | ok r => rfl
  | error e => rfl

@[simp] theorem run_pure (a : A) : (pure a : Prog S E A) s = .ok (a, s) := rfl

@[simp] theorem run_get : (get : Prog S E S) s = .ok (s, s) := rfl

@[simp] theorem run_modify (f : S → S) : (modify f : Prog S E Unit) s = .ok ((), f s) := rfl

@[simp] theorem run_throw (e : E) : (throw e : Prog S E A) s = .error e := rfl

@[simp] theorem run_ite (c : Prop) [Decidable c] (x y : Prog S E A) :
    (if c then x else y) s = if c then x s else y s := by
  split_ifs <;> rfl

end Runs

variable {x : Prog S E A} {s : S}

theorem run_bind_ok {f : A → Prog S E B} {u : S} {b : B} (done : (x >>= f) s = .ok (b, u)) :
    ∃ a t, x s = .ok (a, t) ∧ f a t = .ok (b, u) := by
  rw [run_bind] at done
  cases ends : x s with
  | ok r =>
    rw [ends] at done
    exact ⟨r.1, r.2, rfl, done⟩
  | error e =>
    rw [ends] at done
    cases done

/-- A run, from what is seen of its result. -/
theorem run_observed (observe : A → S → B) {seen : B}
    (done : (x s).toOption.map (fun r => observe r.1 r.2) = some seen) :
    ∃ a t, x s = .ok (a, t) ∧ observe a t = seen := by
  cases ends : x s with
  | ok r =>
    rw [ends] at done
    exact ⟨r.1, r.2, rfl, Option.some.inj done⟩
  | error e =>
    rw [ends] at done
    cases done

/-! ### Triples -/

/-- **The triple**; unless a condition on failures is given, the program may fail. -/
def Triple (pre : S → Prop) (x : Prog S E A) (post : A → S → Prop)
    (fails : E → Prop := fun _ => True) : Prop :=
  ∀ s, pre s → match x s with
    | .ok (a, t) => post a t
    | .error e => fails e

/-- The triple from a known state. -/
abbrev From (s : S) (x : Prog S E A) (post : A → S → Prop) (fails : E → Prop := fun _ => True) :
    Prop :=
  Triple (fun t => t = s) x post fails

namespace Triple

variable {pre : S → Prop} {post : A → S → Prop} {fails : E → Prop} {x : Prog S E A}
  {g : Unit → Prog S E A}
  {f : A → Prog S E B} {last : B → S → Prop} {s t : S} {a : A} {e : E}
  {before : S → Prop} {after : A → S → Prop}

theorem pure (holds : ∀ s, pre s → post a s) : Triple pre (Pure.pure a : Prog S E A) post fails :=
  fun s here => holds s here

theorem bind {middle : A → S → Prop} (first : Triple pre x middle fails)
    (rest : ∀ a, Triple (middle a) (f a) last fails) : Triple pre (x >>= f) last fails := by
  intro s here
  have one := first s here
  show match (x s >>= fun r => f r.1 r.2) with
    | .ok (b, t) => last b t
    | .error e => fails e
  revert one
  cases x s with
  | ok r => exact fun one => rest r.1 r.2 one
  | error e => exact fun one => one

theorem weaken {less : E → Prop} (triple : Triple pre x post fails)
    (stronger : ∀ s, before s → pre s) (weaker : ∀ a s, post a s → after a s)
    (more : ∀ e, fails e → less e) : Triple before x after less := by
  intro s here
  have one := triple s (stronger s here)
  revert one
  cases x s with
  | ok r => exact weaker r.1 r.2
  | error e => exact more e

theorem of_pre (triple : Triple pre x post fails)
    (stronger : ∀ s, before s → pre s) : Triple before x post fails :=
  triple.weaken stronger (fun _ _ holds => holds) (fun _ holds => holds)

theorem known (triple : Triple pre x post fails) (here : pre s) : From s x post fails :=
  triple.of_pre fun _ same => same ▸ here

theorem to_post (triple : Triple pre x post fails)
    (weaker : ∀ a s, post a s → after a s) : Triple pre x after fails :=
  triple.weaken (fun _ holds => holds) weaker (fun _ holds => holds)

theorem to_fails {less : E → Prop} (triple : Triple pre x post fails)
    (more : ∀ e, fails e → less e) : Triple pre x post less :=
  triple.weaken (fun _ holds => holds) (fun _ _ holds => holds) more

theorem any (triple : Triple pre x post fails) : Triple pre x post :=
  triple.to_fails fun _ _ => trivial

theorem and (triple : Triple pre x post fails) (other : Triple before x after) :
    Triple (fun s => pre s ∧ before s) x (fun a s => post a s ∧ after a s) fails := by
  intro s here
  have one := triple s here.1
  have two := other s here.2
  revert one two
  cases x s with
  | ok r => exact fun one two => ⟨one, two⟩
  | error e => exact fun one _ => one

theorem unknown : Triple pre x fun _ _ => True := by
  intro s _
  cases x s with
  | ok r => trivial
  | error e => trivial

theorem throw (holds : ∀ s, pre s → fails e) : Triple pre (throw e : Prog S E A) post fails :=
  fun s here => holds s here

theorem throw_bind {f : B → Prog S E A} (holds : ∀ s, pre s → fails e) :
    Triple pre (MonadExcept.throw e >>= f) post fails := by
  intro s here
  rw [run_bind]
  exact holds s here

theorem throws {f : B → Prog S E A} : Triple pre (MonadExcept.throw e >>= f) post :=
  throw_bind fun _ _ => trivial

theorem ite {c : Prop} [Decidable c] {y : Prog S E A} (yes : c → Triple pre x post fails)
    (no : ¬ c → Triple pre y post fails) : Triple pre (if c then x else y) post fails := by
  by_cases holds : c
  · rw [if_pos holds]
    exact yes holds
  · rw [if_neg holds]
    exact no holds

theorem get_bind {f : S → Prog S E A} (rest : ∀ s, pre s → From s (f s) post fails) :
    Triple pre (get >>= f) post fails := by
  intro s here
  rw [run_bind, run_get]
  exact rest s here s rfl

/-- A program that ends in a known state. -/
theorem done (holds : post a s) : From s (Pure.pure a) post fails :=
  pure fun _ same => same ▸ holds

theorem get_known {f : S → Prog S E A} (rest : From s (f s) post fails) :
    From s (get >>= f) post fails :=
  get_bind fun _ same => same ▸ rest

theorem modify {f : S → S} {after : Unit → S → Prop} (holds : ∀ s, pre s → after () (f s)) :
    Triple pre (modify f : Prog S E Unit) after fails :=
  fun s here => holds s here

theorem modify_bind (middle : S → Prop) {f : S → S} (change : ∀ s, pre s → middle (f s))
    (rest : Triple middle (g ()) post fails) :
    Triple pre (MonadStateOf.modifyGet (fun s => ((), f s)) >>= g) post fails := by
  intro s here
  exact rest (f s) (change s here)

theorem each (rest : ∀ s, pre s → From s x post fails) : Triple pre x post fails :=
  fun s here => rest s here s rfl

theorem modify_known {f : S → S} (rest : From (f s) (g ()) post fails) :
    From s (MonadStateOf.modifyGet (fun s => ((), f s)) >>= g) post fails :=
  modify_bind (fun t => t = f s) (fun _ same => same ▸ rfl) rest

theorem run_known (done : x s = .ok (a, t)) (rest : From t (f a) last fails) :
    From s (x >>= f) last fails := by
  rintro u rfl
  rw [run_bind, done]
  exact rest t rfl

theorem of_fact {fact : Prop} (triple : fact → Triple pre x post fails) :
    Triple (fun s => fact ∧ pre s) x post fails :=
  fun s here => triple here.1 s here.2

theorem ok (triple : Triple pre x post fails) (here : pre s) (done : x s = .ok (a, t)) :
    post a t := by
  have one := triple s here
  rw [done] at one
  exact one

/-- A program that cannot fail returns. -/
theorem returns (triple : Triple pre x post fails) (here : pre s) (never : ∀ e, ¬ fails e) :
    ∃ a t, x s = .ok (a, t) ∧ post a t := by
  have one := triple s here
  cases done : x s with
  | ok r =>
    rw [done] at one
    exact ⟨r.1, r.2, rfl, one⟩
  | error e =>
    rw [done] at one
    exact absurd one (never e)

theorem error (triple : Triple pre x post fails) (here : pre s) (done : x s = .error e) :
    fails e := by
  have one := triple s here
  rw [done] at one
  exact one

end Triple

end Lib
