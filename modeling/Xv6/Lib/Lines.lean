/-
**Lines.**

A list is a sequence of lines, each ended by a separator, and a rest without one. `splitLines` gives
both. The lines of `a ++ b` are those of `a`, and then those of the rest of `a` followed by `b`
(`splitLines_append`): this is what a program that reads its input in pieces relies on.
-/

import Mathlib

namespace Lib

variable {A : Type} [DecidableEq A] {sep : A}

/-- The lines of a list without their separators, and the rest. -/
def splitLines (sep : A) : List A → List (List A) × List A
  | [] => ([], [])
  | c :: cs =>
    if c = sep then ([] :: (splitLines sep cs).1, (splitLines sep cs).2)
    else
      match splitLines sep cs with
      | ([], rest) => ([], c :: rest)
      | (line :: lines, rest) => ((c :: line) :: lines, rest)

theorem splitLines_rest {l : List A} (none : sep ∉ l) : splitLines sep l = ([], l) := by
  induction l with
  | nil => rfl
  | cons c cs ih =>
    rw [List.mem_cons, not_or] at none
    rw [splitLines, if_neg (Ne.symm none.1), ih none.2]

theorem splitLines_line {line more : List A} (none : sep ∉ line) :
    splitLines sep (line ++ sep :: more) =
      (line :: (splitLines sep more).1, (splitLines sep more).2) := by
  induction line with
  | nil => exact if_pos rfl
  | cons c cs ih =>
    rw [List.mem_cons, not_or] at none
    rw [List.cons_append, splitLines, if_neg (Ne.symm none.1), ih none.2]

theorem splitLines_append (a b : List A) : splitLines sep (a ++ b) =
    ((splitLines sep a).1 ++ (splitLines sep ((splitLines sep a).2 ++ b)).1,
      (splitLines sep ((splitLines sep a).2 ++ b)).2) := by
  induction a with
  | nil => rfl
  | cons c cs ih =>
    by_cases ends : c = sep
    · rw [List.cons_append, splitLines, splitLines, if_pos ends, if_pos ends, ih]
      rfl
    · rw [List.cons_append, splitLines, splitLines, if_neg ends, if_neg ends, ih]
      cases first : splitLines sep cs with
      | mk lines rest =>
        cases lines with
        | cons line lines => rfl
        | nil =>
          show _ = ((splitLines sep (c :: (rest ++ b))).1, (splitLines sep (c :: (rest ++ b))).2)
          rw [splitLines, if_neg ends]
          rfl

/-- **Line by line**: a list without a separator, or a line and what follows it. -/
theorem lines_induction (sep : A) {motive : List A → Prop} (rest : ∀ l, sep ∉ l → motive l)
    (line : ∀ front more, sep ∉ front → motive more → motive (front ++ sep :: more)) (l : List A) :
    motive l := by
  induction len : l.length using Nat.strongRecOn generalizing l with
  | _ n ih =>
    by_cases member : sep ∈ l
    · obtain ⟨front, more, rfl, none⟩ := List.eq_append_cons_of_mem member
      rw [List.length_append, List.length_cons] at len
      exact line front more none (ih more.length (by omega) more rfl)
    · exact rest l member

theorem splitLines_notMem (l : List A) : sep ∉ (splitLines sep l).2 := by
  induction l using lines_induction sep with
  | rest l none =>
    rw [splitLines_rest none]
    exact none
  | line front more none ih =>
    rw [splitLines_line none]
    exact ih

theorem mem_of_splitLines {x : A} (l : List A) : x ∈ (splitLines sep l).2 → x ∈ l := by
  induction l using lines_induction sep with
  | rest l none =>
    rw [splitLines_rest none]
    exact id
  | line front more none ih =>
    rw [splitLines_line none]
    exact fun member => List.mem_append_right _ (List.mem_cons_of_mem _ (ih member))

theorem length_lt_of_splitLines (l : List A) :
    ∀ line ∈ (splitLines sep l).1, line.length < l.length := by
  induction l using lines_induction sep with
  | rest l none =>
    rw [splitLines_rest none]
    exact nofun
  | line front more none ih =>
    rw [splitLines_line none, List.length_append, List.length_cons]
    refine List.forall_mem_cons.mpr ⟨by omega, fun line member => ?_⟩
    have := ih line member
    omega

end Lib
