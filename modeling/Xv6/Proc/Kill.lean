/-
**`kill`, and who is forced to exit** (`kernel/proc.c`, `kernel/trap.c`).

`Life.kill` is the loop of `kill` on a process table. `TrapEvent` adds to the sections of
`Xv6.Proc.Life` the two places where `usertrap` touches `killed`: an unexpected trap sets it, and
the check before the return to user space ends in `exit(-1)`.

`freeproc` leaves an unused slot with `pid` 0 and `killed` 0, and `allocproc` counts on it.
`kill(0)` finds such a slot: it returns 0, and the process that is given the slot next is killed
from birth (`kill_zero_hits_unused`). `Aimed` excludes this.
-/

import Xv6.Proc.LifeCycle

namespace Xv6

open Lib Function

/-- A section of the life cycle, or one of the two places of `usertrap`. -/
inductive TrapEvent (n : Nat)
  | life (e : LifeEvent n)
  /-- an unexpected trap: `p->killed = 1` -/
  | unexpected (p : Fin n)
  /-- `if(p->killed) exit(-1)`, up to where `exit` takes `wait_lock` -/
  | forcedExit (p : Fin n)

namespace Life

variable {n : Nat} {init : Fin n} {s t : Life n} {e : TrapEvent n}

attribute [local simp] Enabled next At SleepsOn goto setState wakeSlot freeproc nameProc
attribute [local grind =] update_apply

def killSlot (s : Life n) (i : Fin n) : Life n :=
  { s with
    killed := update s.killed i true
    state := fun x => if x = i ∧ s.state i = .sleeping then .runnable else s.state x }

def killFrom (s : Life n) (pid : Int) : List (Fin n) → Int × Life n
  | [] => (-1, s)
  | i :: rest => if s.pid i = pid then (0, s.killSlot i) else s.killFrom pid rest

def kill (s : Life n) (pid : Int) : Int × Life n := s.killFrom pid (List.finRange n)

/-- A step of the life cycle with its traps. -/
def TrapStep (init : Fin n) (s : Life n) : TrapEvent n → Life n → Prop
  | .life e, t => Step init s e t
  | .unexpected p, t => s.At p .user ∧ t = { s with killed := update s.killed p true }
  | .forcedExit p, t => s.killed p = true ∧ Step init s (.exitLock p (-1)) t

/-- **The condition on a step**: `kill(0)` is not called while there is an unused slot. -/
def Aimed (s : Life n) : TrapEvent n → Prop
  | .life (.kill pid _) => pid = 0 → ∀ i, s.state i ≠ .unused
  | _ => True

def AimedStep (init : Fin n) (s : Life n) (e : TrapEvent n) (t : Life n) : Prop :=
  s.Aimed e ∧ TrapStep init s e t

/-! ### Unused slots -/

/-- **What `allocproc` counts on.** -/
structure SlotInv (s : Life n) : Prop where
  nextpid : 0 < s.nextpid
  live : ∀ i, s.state i ≠ .unused → 0 < s.pid i
  unused : ∀ i, s.state i = .unused → s.pid i = 0 ∧ s.killed i = false

theorem slotInv_boot (init : Fin n) : SlotInv (boot init) where
  nextpid := Int.zero_lt_one.trans (Int.lt_succ 1)
  live := by
    intro i live
    have state : update (fun _ => ProcState.unused) init .runnable i ≠ .unused := live
    show 0 < update (fun _ => (0 : Int)) init 1 i
    revert state
    refine update_ind (fun _ => ?_) fun _ unused => absurd rfl unused
    rw [update_self]
    exact Int.one_pos
  unused := by
    intro i unused
    have state : update (fun _ => ProcState.unused) init .runnable i = .unused := unused
    refine ⟨?_, rfl⟩
    show update (fun _ => (0 : Int)) init 1 i = 0
    rw [update_of_ne (of_update_eq state nofun).1]

section

variable (step : TrapStep init s e t) {i : Fin n}

include step

/-- Only `kill` and an unexpected trap set the flag, and only `freeproc` changes the pid of a live
process. -/
theorem killed_of_step (killed : t.killed i = true) :
    s.killed i = true ∨ e = .life (.kill (s.pid i) i) ∨ e = .unexpected i := by
  cases e with
  | life e =>
    obtain ⟨enabled, rfl⟩ := step
    cases e with
    | kill pid j =>
      by_cases same : i = j
      · subst same
        exact .inr (.inl (by rw [enabled.1]))
      · exact .inl ((update_of_ne same _ _).symm.trans killed)
    | forkFail | waitReap => exact .inl (of_update_eq killed Bool.false_ne_true).2
    | _ => exact .inl killed
  | unexpected p =>
    obtain ⟨-, rfl⟩ := step
    by_cases same : i = p
    · subst same
      exact Or.inr (Or.inr rfl)
    · exact Or.inl ((update_of_ne same _ _).symm.trans killed)
  | forcedExit p =>
    obtain ⟨-, -, rfl⟩ := step
    exact Or.inl killed

theorem TrapStep.lifeInv (inv : LifeInv init s) : LifeInv init t := by
  cases e with
  | life e => exact inv.step step
  | unexpected p =>
    obtain ⟨-, rfl⟩ := step
    exact { inv with }
  | forcedExit p => exact inv.step step.2

/-- A slot that stays in use keeps its process: its number and its pid. -/
theorem TrapStep.same_process (before : s.state i ≠ .unused) (after : t.state i ≠ .unused) :
    t.uid i = s.uid i ∧ t.pid i = s.pid i := by
  cases e with
  | life e =>
    refine ⟨uid_of_step step before, ?_⟩
    obtain ⟨enabled, rfl⟩ := step
    cases e with
    | forkAlloc p j | forkFail p j =>
      have other : i ≠ j := by
        rintro rfl
        exact before enabled.2
      simp [other]
    | waitReap p j =>
      refine update_of_ne ?_ _ _
      rintro rfl
      exact after (update_self _ _ _)
    | _ => rfl
  | unexpected p =>
    obtain ⟨-, rfl⟩ := step
    exact ⟨rfl, rfl⟩
  | forcedExit p =>
    obtain ⟨-, -, rfl⟩ := step
    exact ⟨rfl, rfl⟩

theorem TrapStep.new_process (inv : LifeInv init s) (before : s.state i = .unused)
    (after : t.state i ≠ .unused) :
    (∃ p, e = .life (.forkAlloc p i)) ∧ t.pid i = s.nextpid ∧ t.killed i = s.killed i := by
  cases e with
  | life e =>
    rcases state_of_step step i with same | ⟨x, y, turn, isX, -⟩
    · exact absurd (same.trans before) after
    · rw [before] at isX
      subst isX
      cases turn with
      | alloc p =>
        rw [step.2]
        exact ⟨⟨p, rfl⟩, update_self _ _ _, rfl⟩
      | forked p => exact absurd (before.symm.trans (inv.forked p i (step.1.2 ▸ rfl))) nofun
  | unexpected p =>
    obtain ⟨-, rfl⟩ := step
    exact absurd before after
  | forcedExit p =>
    obtain ⟨-, -, rfl⟩ := step
    exact absurd before after

/-- A slot that is unused after a step has been freed or left alone, or `kill` has hit it. -/
theorem TrapStep.unused_slot (after : t.state i = .unused) : t.pid i = 0 ∧ t.killed i = false ∨
      s.state i = .unused ∧ t.pid i = s.pid i ∧
      (t.killed i = s.killed i ∨ e = .life (.kill (s.pid i) i)) := by
  cases e with
  | life e =>
    rcases unused_of_step step after with before | ⟨p, havekids, addr, rfl⟩
    · obtain ⟨enabled, rfl⟩ := step
      cases e with
      | forkAlloc p j =>
        exact .inr ⟨before, update_of_ne (of_update_eq after nofun).1 _ _, .inl rfl⟩
      | forkFail p j =>
        by_cases same : i = j
        · simp [same]
        · simp [same, before]
      | kill pid j =>
        refine .inr ⟨before, rfl, ?_⟩
        by_cases same : i = j
        · subst same
          exact .inr (by rw [enabled.1])
        · exact .inl (update_of_ne same _ _)
      | waitReap p j =>
        by_cases same : i = j
        · simp [same]
        · simp [same, before]
      | _ => exact .inr ⟨before, rfl, .inl rfl⟩
    · rw [step.2]
      exact .inl ⟨update_self _ _ _, update_self _ _ _⟩
  | unexpected p =>
    obtain ⟨⟨running, -⟩, rfl⟩ := step
    have other : i ≠ p := by
      rintro rfl
      exact absurd (running.symm.trans after) nofun
    exact Or.inr ⟨after, rfl, Or.inl (update_of_ne other _ _)⟩
  | forcedExit p =>
    obtain ⟨-, -, rfl⟩ := step
    exact Or.inr ⟨after, rfl, Or.inl rfl⟩

theorem TrapStep.nextpid_le : s.nextpid ≤ t.nextpid := by
  cases e with
  | life e =>
    obtain ⟨-, rfl⟩ := step
    cases e <;> simp
  | unexpected p =>
    obtain ⟨-, rfl⟩ := step
    exact le_refl _
  | forcedExit p =>
    obtain ⟨-, -, rfl⟩ := step
    exact le_refl _

end

theorem SlotInv.step (slots : SlotInv s) (inv : LifeInv init s) (step : AimedStep init s e t) :
    SlotInv t where
  nextpid := slots.nextpid.trans_le step.2.nextpid_le
  live := by
    intro i after
    by_cases before : s.state i = .unused
    · rw [(step.2.new_process inv before after).2.1]
      exact slots.nextpid
    · rw [(step.2.same_process before after).2]
      exact slots.live i before
  unused := by
    intro i after
    obtain done | ⟨before, pid, killed | hit⟩ := step.2.unused_slot after
    · exact done
    · rw [pid, killed]
      exact slots.unused i before
    · -- `kill` found an unused slot, so it was called with pid 0
      have aimed : s.Aimed (.life (.kill (s.pid i) i)) := hit ▸ step.1
      exact absurd before (aimed (slots.unused i before).1 i)

/-! ### The loop of `kill` -/

theorem killFrom_cases (s : Life n) (pid : Int) (slots : List (Fin n)) :
    (∃ i ∈ slots, s.pid i = pid ∧ s.killFrom pid slots = (0, s.killSlot i)) ∨
      (∀ i ∈ slots, s.pid i ≠ pid) ∧ s.killFrom pid slots = (-1, s) := by
  induction slots with
  | nil => exact Or.inr ⟨nofun, rfl⟩
  | cons i rest ih =>
    by_cases found : s.pid i = pid
    · exact Or.inl ⟨i, List.mem_cons_self, found, if_pos found⟩
    · have skips : s.killFrom pid (i :: rest) = s.killFrom pid rest := if_neg found
      rw [skips]
      obtain ⟨j, member, hit⟩ | ⟨none, missed⟩ := ih
      · exact Or.inl ⟨j, List.mem_cons_of_mem i member, hit⟩
      · refine Or.inr ⟨fun j member => ?_, missed⟩
        obtain rfl | later := List.mem_cons.mp member
        · exact found
        · exact none j later

/-- `kill` sets the flag of one slot with the pid, or there is none and it changes nothing. -/
theorem kill_cases (s : Life n) (pid : Int) :
    (∃ i, s.pid i = pid ∧ s.kill pid = (0, s.killSlot i)) ∨ (∀ i, s.pid i ≠ pid) ∧
      s.kill pid = (-1, s) := by
  obtain ⟨i, _, hit⟩ | ⟨none, missed⟩ := s.killFrom_cases pid (List.finRange n)
  · exact Or.inl ⟨i, hit⟩
  · exact Or.inr ⟨fun i => none i (List.mem_finRange i), missed⟩

/-- **What `kill(pid)` may do to a process table.** -/
structure KillsOnlyLive (s : Life n) (pid : Int) : Prop where
  returns : (s.kill pid).1 = 0 ↔ ∃ i, s.state i ≠ .unused ∧ s.pid i = pid
  /-- the fields of an unused slot stay as they are -/
  unused : ∀ i, s.state i = .unused → (s.kill pid).2.state i = .unused ∧
    (s.kill pid).2.killed i = s.killed i ∧ (s.kill pid).2.pid i = s.pid i ∧
    (s.kill pid).2.parent i = s.parent i ∧ (s.kill pid).2.chan i = s.chan i ∧
    (s.kill pid).2.xstate i = s.xstate i
  /-- the flag of one process with that pid is set, or no flag at all -/
  only : (s.kill pid).2.killed = s.killed ∨ ∃ i, s.state i ≠ .unused ∧ s.pid i = pid ∧
    (s.kill pid).2.killed = update s.killed i true

/-- **`kill` affects only live processes, except for pid 0 and an unused slot.** -/
theorem SlotInv.kill_iff (slots : SlotInv s) (pid : Int) :
    s.KillsOnlyLive pid ↔ (pid = 0 → ∀ i, s.state i ≠ .unused) := by
  constructor
  · rintro only rfl i unused
    obtain ⟨j, _, hit⟩ | ⟨none, _⟩ := s.kill_cases 0
    · have zero : (s.kill 0).1 = 0 := by rw [hit]
      obtain ⟨k, live, pid⟩ := only.returns.mp zero
      exact absurd pid (slots.live k live).ne'
    · exact none i (slots.unused i unused).1
  · intro aimed
    obtain ⟨i, pid_eq, hit⟩ | ⟨none, missed⟩ := s.kill_cases pid
    · have live : s.state i ≠ .unused := by
        intro unused
        exact aimed (pid_eq.symm.trans (slots.unused i unused).1) i unused
      refine ⟨?_, fun j unused => ?_, Or.inr ⟨i, live, pid_eq, ?_⟩⟩
      · rw [hit]
        exact ⟨fun _ => ⟨i, live, pid_eq⟩, fun _ => rfl⟩
      · have other : j ≠ i := by
          rintro rfl
          exact live unused
        rw [hit]
        refine ⟨?_, update_of_ne other _ _, rfl, rfl, rfl, rfl⟩
        show (if j = i ∧ s.state i = .sleeping then _ else s.state j) = _
        rw [if_neg fun both => other both.1, unused]
      · rw [hit]
        rfl
    · refine ⟨?_, fun j unused => ?_, Or.inl ?_⟩
      · rw [missed]
        exact ⟨nofun, fun ⟨i, _, pid_eq⟩ => absurd pid_eq (none i)⟩
      · rw [missed]
        exact ⟨unused, rfl, rfl, rfl, rfl, rfl⟩
      · rw [missed]

/-! ### Who is forced to exit -/

/-- In the history, the process that is now in slot `i` was killed by its pid or trapped. -/
def Caused (init : Fin n) (trace : List (TrapEvent n)) (s : Life n) (i : Fin n) : Prop :=
  ∃ before e after u, trace = before ++ e :: after ∧ Run (AimedStep init) (boot init) before u ∧
    u.state i ≠ .unused ∧ u.uid i = s.uid i ∧ (e = .life (.kill (s.pid i) i) ∨ e = .unexpected i)

structure KillInv (init : Fin n) (trace : List (TrapEvent n)) (s : Life n) : Prop where
  run : Run (AimedStep init) (boot init) trace s
  life : LifeInv init s
  slots : SlotInv s
  caused : ∀ i, s.killed i = true → Caused init trace s i

theorem killInv_boot (init : Fin n) : KillInv init [] (boot init) where
  run := .nil
  life := lifeInv_boot init
  slots := slotInv_boot init
  caused := nofun

theorem KillInv.step {trace : List (TrapEvent n)} (inv : KillInv init trace s)
    (step : AimedStep init s e t) : KillInv init (trace ++ [e]) t where
  run := inv.run.snoc step
  life := step.2.lifeInv inv.life
  slots := inv.slots.step inv.life step
  caused := by
    intro i killed
    have after : t.state i ≠ .unused := by
      intro unused
      rw [((inv.slots.step inv.life step).unused i unused).2] at killed
      cases killed
    have before : s.state i ≠ .unused := by
      intro unused
      rw [(step.2.new_process inv.life unused after).2.2, (inv.slots.unused i unused).2] at killed
      cases killed
    obtain ⟨uid, pid⟩ := step.2.same_process before after
    obtain already | now := killed_of_step step.2 killed
    · obtain ⟨first, cause, rest, u, split, run, live, same, kind⟩ := inv.caused i already
      refine ⟨first, cause, rest ++ [e], u, ?_, run, live, same.trans uid.symm, pid ▸ kind⟩
      rw [split, List.append_assoc, List.cons_append]
    · exact ⟨trace, e, [], s, rfl, inv.run, before, uid.symm, pid ▸ now⟩

/-- **`kill` only affects live processes.** In every state reached by steps none of which is
`kill(0)` with an unused slot around: `kill(pid)` does what it should exactly if `pid` is not 0 or
all slots are in use; `allocproc` hands out processes that are not killed; and a process forced to
exit by `usertrap` has been killed by its own pid in its lifetime, or has taken an unexpected trap.
-/
theorem kill_only_live {trace : List (TrapEvent n)}
    (run : Run (AimedStep init) (boot init) trace s) :
    (∀ pid, s.KillsOnlyLive pid ↔ (pid = 0 → ∀ i, s.state i ≠ .unused)) ∧
    (∀ p i t, TrapStep init s (.life (.forkAlloc p i)) t → t.killed i = false) ∧
    ∀ p t, TrapStep init s (.forcedExit p) t → Caused init trace s p := by
  have inv : KillInv init trace s := Run.history_inv (killInv_boot init) KillInv.step run
  refine ⟨inv.slots.kill_iff, fun p i t step => ?_, fun p t step => inv.caused p step.1⟩
  obtain ⟨⟨-, unused⟩, rfl⟩ := step
  exact (inv.slots.unused i unused).2

/-! ### Runs that execute -/

def trapExec (init : Fin n) (s : Life n) : TrapEvent n → Option (Life n)
  | .life e => exec init s e
  | .unexpected p => if s.At p .user then some { s with killed := update s.killed p true } else none
  | .forcedExit p => if s.killed p = true then exec init s (.exitLock p (-1)) else none

theorem TrapStep.of_exec (done : trapExec init s e = some t) : TrapStep init s e t := by
  cases e with
  | life e => exact step_of_exec done
  | unexpected p =>
    simp only [trapExec] at done
    split_ifs at done with here
    exact ⟨here, (Option.some.inj done).symm⟩
  | forcedExit p =>
    simp only [trapExec] at done
    split_ifs at done with killed
    exact ⟨killed, step_of_exec done⟩

instance (s : Life n) (e : TrapEvent n) : Decidable (s.Aimed e) := by
  unfold Aimed
  split <;> infer_instance

/-- One aimed step, as a partial function. -/
def aimedExec (init : Fin n) (s : Life n) (e : TrapEvent n) : Option (Life n) :=
  if s.Aimed e then trapExec init s e else none

theorem AimedStep.of_exec (done : aimedExec init s e = some t) : AimedStep init s e t := by
  unfold aimedExec at done
  split_ifs at done with aimed
  exact ⟨aimed, TrapStep.of_exec done⟩

/-- `initproc` forks, and the child is killed by its pid: it is forced to exit, with that cause. -/
theorem kill_only_live_child : ∃ s : Life 2,
    Run (AimedStep 0) (boot 0) [.life (.schedule 0), .life (.forkAlloc 0 1),
      .life (.forkParent 0 1), .life (.forkDone 0 1), .life (.kill 2 1), .life (.schedule 1)] s ∧
    (∃ t, TrapStep 0 s (.forcedExit 1) t) ∧
    Caused 0 [.life (.schedule 0), .life (.forkAlloc 0 1), .life (.forkParent 0 1),
      .life (.forkDone 0 1), .life (.kill 2 1), .life (.schedule 1)] s 1 := by
  obtain ⟨s, run, seen⟩ := run_of_observed (fun s : Life 2 => (trapExec 0 s (.forcedExit 1)).isSome)
    (show
      (execAll (aimedExec 0) [.life (.schedule 0), .life (.forkAlloc 0 1), .life (.forkParent 0 1),
      .life (.forkDone 0 1), .life (.kill 2 1), .life (.schedule 1)] (boot 0)).map _ = some true by
      decide)
  obtain ⟨t, done⟩ := Option.isSome_iff_exists.mp seen
  have run := run.mono AimedStep.of_exec
  have forced : TrapStep 0 s (.forcedExit 1) t := TrapStep.of_exec done
  exact ⟨s, run, ⟨t, forced⟩, (kill_only_live run).2.2 1 t forced⟩

/-- **`kill(0)` hits an unused slot.** It returns 0 with no process of that pid around, and the
process that is given the slot next is forced to exit, though nobody has killed it by its pid and it
has not trapped. -/
theorem kill_zero_hits_unused :
    ((boot (0 : Fin 2)).kill 0).1 = 0 ∧
    (∀ i, (boot (0 : Fin 2)).state i ≠ .unused → (boot (0 : Fin 2)).pid i ≠ 0) ∧
    ∃ s t : Life 2,
      Run (TrapStep 0) (boot 0) [.life (.kill 0 1), .life (.schedule 0), .life (.forkAlloc 0 1),
        .life (.forkParent 0 1), .life (.forkDone 0 1), .life (.schedule 1)] s ∧
      s.pid 1 = 2 ∧ TrapStep 0 s (.forcedExit 1) t := by
  refine ⟨by decide, by decide, ?_⟩
  obtain ⟨s, run, seen⟩ :=
    run_of_observed (fun s : Life 2 => (s.pid 1, (trapExec 0 s (.forcedExit 1)).isSome))
    (show (execAll (trapExec 0) [.life (.kill 0 1), .life (.schedule 0), .life (.forkAlloc 0 1),
        .life (.forkParent 0 1), .life (.forkDone 0 1), .life (.schedule 1)] (boot 0)).map _ =
      some (2, true) by decide)
  obtain ⟨pid, forced⟩ := Prod.mk.inj seen
  obtain ⟨t, done⟩ := Option.isSome_iff_exists.mp forced
  exact ⟨s, t, run.mono TrapStep.of_exec, pid, TrapStep.of_exec done⟩

end Life

end Xv6
