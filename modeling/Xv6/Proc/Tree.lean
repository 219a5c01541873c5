/-
**The tree of processes.**

Following `p->parent` from a process that has run leads to `initproc`, in every interleaving of
`fork`, `exit`, `reparent`, `wait` and `kill`: no parent pointers form a cycle, and `exit` leaves no
process without a parent. A parent is older than its child (`order`), in the order in which
`allocproc` handed out the processes; `initproc`, to which `reparent` gives the orphans, is the
oldest.
-/

import Xv6.Proc.LifeCycle

namespace Xv6

open Lib Function Relation

namespace Life

variable {n : Nat} {init : Fin n} {s t : Life n} {e : LifeEvent n}

attribute [local simp] next goto

/-- **What makes the parent pointers a tree.** -/
structure TreeInv (init : Fin n) (s : Life n) : Prop where
  order : ∀ i q, s.parent i = some q → s.uid q < s.uid i
  forking : ∀ p i, s.pc p = .forkAlloced i → s.uid p < s.uid i
  /-- `fork` sets the parent before the child is `RUNNABLE` -/
  parented : ∀ p i, s.pc p = .forkParented i → s.parent i ≠ none
  settled : ∀ i, i ≠ init → s.state i ≠ .unused → s.state i ≠ .used → s.parent i ≠ none
  grown : ∀ i q, s.parent i = some q → s.state q ≠ .used

theorem treeInv_boot (init : Fin n) : TreeInv init (boot init) := by
  constructor <;> simp [boot]
  grind

section

variable (tree : TreeInv init s) (inv : LifeInv init s) (hist : HistoryInv init s)
  (step : Step init s e t)

include tree inv hist step

theorem TreeInv.order_step (i q : Fin n) (child : t.parent i = some q) : t.uid q < t.uid i := by
  have inUse : ∀ i q, s.parent i = some q → s.state i ≠ .unused := by
    intro i q child free
    rw [inv.unusedParent i free] at child
    cases child
  rcases parent_of_step step child with old | rfl | ⟨rfl, p, status, rfl⟩
  · rw [uid_of_step step (inv.parentAlive i q old).1, uid_of_step step (inUse i q old)]
    exact tree.order i q old
  · rw [step.2]
    exact tree.forking q i step.1.1.2
  · rw [step.2]
    show s.uid q < s.uid i
    rw [hist.uidInit]
    exact Nat.zero_lt_of_lt (tree.order i p step.1.2)

theorem TreeInv.forking_step (p i : Fin n) (there : t.pc p = .forkAlloced i) :
    t.uid p < t.uid i := by
  rcases pc_of_step step p with same | ⟨a, b, path, -, isB⟩
  · rw [same] at there
    have used := inv.forked p i (there ▸ rfl)
    rw [uid_of_step step (inv.inUse (there ▸ trivial)), uid_of_step step (used ▸ nofun)]
    exact tree.forking p i there
  · rw [there] at isB
    subst isB
    cases path
    have other : p ≠ i := by
      rintro rfl
      exact absurd (step.1.1.1.symm.trans step.1.2) nofun
    rw [step.2]
    show update s.uid i s.nextuid p < update s.uid i s.nextuid i
    rw [update_self, update_of_ne other]
    exact hist.uidLt p

omit hist

theorem TreeInv.parented_step (p i : Fin n) (there : t.pc p = .forkParented i) :
    t.parent i ≠ none := by
  intro none
  rcases pc_of_step step p with same | ⟨a, b, path, -, isB⟩
  · rcases orphan_of_step step none with before | free
    · exact tree.parented p i (same ▸ there) before
    · exact absurd ((inv.forked_step step p i (there ▸ rfl)).symm.trans free) nofun
  · rw [there] at isB
    subst isB
    cases path
    simp [step.2] at none

omit inv in
theorem TreeInv.settled_step (i : Fin n) (other : i ≠ init) (inUse : t.state i ≠ .unused)
    (used : t.state i ≠ .used) : t.parent i ≠ none := by
  intro none
  rcases orphan_of_step step none with before | free
  · rcases state_of_step step i with same | ⟨x, y, turn, isX, isY⟩
    · exact tree.settled i other (same ▸ inUse) (same ▸ used) before
    · cases turn with
      | alloc => exact used isY
      | reaped => exact inUse isY
      | forked p => exact tree.parented p i step.1.2 before
      | _ => exact tree.settled i other (isX ▸ nofun) (isX ▸ nofun) before
  · exact inUse free

theorem TreeInv.grown_step (i q : Fin n) (child : t.parent i = some q) : t.state q ≠ .used := by
  intro used
  rcases parent_of_step step child with old | rfl | ⟨rfl, -⟩
  · rcases state_of_step step q with same | ⟨x, y, turn, isX, isY⟩
    · exact tree.grown i q old (same ▸ used)
    · rw [used] at isY
      subst isY
      cases turn
      exact (inv.parentAlive i q old).1 isX
  · rw [step.2] at used
    exact absurd (step.1.1.1.symm.trans used) nofun
  · exact (inv.initAlive_step step).2.1 used

end

theorem TreeInv.step (tree : TreeInv init s) (inv : LifeInv init s) (hist : HistoryInv init s)
    (step : Step init s e t) : TreeInv init t where
  order := tree.order_step inv hist step
  forking := tree.forking_step inv hist step
  parented := tree.parented_step inv step
  settled := tree.settled_step step
  grown := tree.grown_step inv step

/-- **The processes form a tree with `initproc` as its root.** -/
theorem process_tree {trace : List (LifeEvent n)} (run : Run (Step init) (boot init) trace s) :
    (∀ i, s.state i ≠ .unused → s.state i ≠ .used →
      ReflTransGen (fun i q => s.parent i = some q) i init) ∧
    ∀ i, ¬ TransGen (fun i q => s.parent i = some q) i i := by
  obtain ⟨inv, hist, tree⟩ :=
    Run.inv (P := fun s => LifeInv init s ∧ HistoryInv init s ∧ TreeInv init s)
      ⟨lifeInv_boot init, historyInv_boot init, treeInv_boot init⟩
      (fun all step => ⟨all.1.step step, all.2.1.step all.1 step, all.2.2.step all.1 all.2.1 step⟩)
      run
  refine ⟨fun i => ?_, fun i loop => ?_⟩
  · induction i using (measure s.uid).wf.induction with
    | _ i ih =>
      intro inUse used
      by_cases root : i = init
      · rw [root]
      · cases child : s.parent i with
        | none => exact absurd child (tree.settled i root inUse used)
        | some q =>
          exact (ih q (tree.order i q child) (inv.parentAlive i q child).1
            (tree.grown i q child)).head child
  · have older : ∀ {q}, TransGen (fun i q => s.parent i = some q) i q → s.uid q < s.uid i := by
      intro q chain
      induction chain with
      | single child => exact tree.order _ _ child
      | tail _ child ih => exact (tree.order _ _ child).trans ih
    exact (older loop).false

/-- The child of `initproc`, in its first steps. -/
theorem process_tree_childOfInit :
    ∃ s : Life 2, Run (Step 0) (boot 0) ((childOfInit 0 1).take 4) s ∧
    ReflTransGen (fun i q => s.parent i = some q) 1 0 := by
  have done : (execAll (exec 0) ((childOfInit 0 1).take 4) (boot 0)).map (fun s => s.state 1) =
    some .runnable := by
    decide
  obtain ⟨s, executed, runnable⟩ := run_of_observed (fun s : Life 2 => s.state 1) done
  have run : Run (Step 0) (boot 0) ((childOfInit 0 1).take 4) s := executed.mono step_of_exec
  refine ⟨s, run, (process_tree run).1 1 ?_ ?_⟩ <;> rw [runnable] <;> decide

end Life

end Xv6
