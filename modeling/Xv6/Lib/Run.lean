/-
**Runs of a labelled step relation.**

`Run step s trace t`: the events of `trace`, in order, lead from `s` to `t`. Safety properties of a
system are invariants of its runs, possibly together with the history that led to a state:

* `Run.history_inv`: a property of (history, state) that one step preserves holds along every run;
* `Run.inv`: the same for a property of states alone.
-/

import Xv6.Lib.Update

namespace Lib

variable {S E : Type*} {step : S → E → S → Prop}

/-- The events of `trace`, in order, lead from one state to another. -/
inductive Run (step : S → E → S → Prop) (s : S) : List E → S → Prop
  | nil : Run step s [] s
  | snoc {trace : List E} {t u : S} {e : E} :
      Run step s trace t → step t e u → Run step s (trace ++ [e]) u

/-- **Invariants of a state and its history.** -/
theorem Run.history_inv {P : List E → S → Prop} {s : S} (initial : P [] s)
    (preserved : ∀ {trace : List E} {t u : S} {e : E}, P trace t → step t e u → P (trace ++ [e]) u)
    {trace : List E} {t : S} (run : Run step s trace t) : P trace t := by
  induction run with
  | nil => exact initial
  | snoc _ last ih => exact preserved ih last

/-- **Invariants of states.** -/
theorem Run.inv {P : S → Prop} {s : S} (initial : P s)
    (preserved : ∀ {t u : S} {e : E}, P t → step t e u → P u) {trace : List E} {t : S}
    (run : Run step s trace t) : P t :=
  Run.history_inv (P := fun _ => P) initial preserved run

theorem Run.append {s t u : S} {first second : List E} (run : Run step s first t)
    (rest : Run step t second u) : Run step s (first ++ second) u := by
  induction rest with
  | nil => rwa [List.append_nil]
  | snoc _ last ih =>
    rw [← List.append_assoc]
    exact ih.snoc last

theorem Run.mono {other : S → E → S → Prop} {s t : S} {trace : List E} (run : Run step s trace t)
    (weaker : ∀ {s t : S} {e : E}, step s e t → other s e t) : Run other s trace t := by
  induction run with
  | nil => exact .nil
  | snoc _ last ih => exact ih.snoc (weaker last)

theorem of_guard {guard : Prop} [Decidable guard] {s t : S}
    (step : (if guard then some s else none) = some t) : guard ∧ s = t := by
  obtain ⟨holds, same⟩ := Option.ite_none_right_eq_some.mp step
  exact ⟨holds, Option.some.inj same⟩

theorem of_guard_ok {guard : Prop} [Decidable guard] {F : Type*} {s t : S}
    (step : (if guard then some (Except.ok s) else none) = some (.ok t : Except F S)) :
    guard ∧ s = t := by
  obtain ⟨holds, same⟩ := of_guard step
  exact ⟨holds, Except.ok.inj same⟩

def execAll (exec : S → E → Option S) : List E → S → Option S
  | [], s => some s
  | e :: rest, s => (exec s e).bind (execAll exec rest)

theorem run_of_execAll {exec : S → E → Option S} {trace : List E} :
    ∀ {s t : S}, execAll exec trace s = some t →
      Run (fun s e t => exec s e = some t) s trace t := by
  induction trace with
  | nil =>
    intro s t done
    cases done
    exact .nil
  | cons e rest ih =>
    intro s t done
    obtain ⟨u, first, later⟩ := Option.bind_eq_some_iff.mp done
    have one : Run (fun s e t => exec s e = some t) s ([] ++ [e]) u := Run.nil.snoc first
    exact one.append (ih later)

/-- A run, from what is seen of the state that executing it gives. -/
theorem run_of_observed {A : Type*} {exec : S → E → Option S} (observe : S → A) {trace : List E}
    {s : S} {seen : A} (done : (execAll exec trace s).map observe = some seen) :
    ∃ t, Run (fun s e t => exec s e = some t) s trace t ∧ observe t = seen := by
  obtain ⟨t, executed, same⟩ := Option.map_eq_some_iff.mp done
  exact ⟨t, run_of_execAll executed, same⟩

end Lib
