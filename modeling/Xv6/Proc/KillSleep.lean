/-
**`kill` and the loops that sleep** (`kernel/proc.c`, `kernel/pipe.c`, `kernel/console.c`,
`kernel/sysproc.c`): `piperead`, `pipewrite`, `consoleread`, `sys_sleep` and `wait` test
`p->killed` under the lock of their condition and then call `sleep`.

The steps are the test of the condition, the read of `p->killed`, and the sections under a
`p->lock`: `sleep` up to the switch, one slot of `wakeup`, and `kill`. What the loops wait for may
be changed by anybody at any time (`SleepEvent.other`).

`kill` sets the flag and wakes a process that is `SLEEPING`. A process that has read the flag but
has not yet taken its `p->lock` in `sleep` is not: it goes to sleep killed (`killed_asleep`, for
each of the five loops). `Seen` excludes a `kill` in that window.
-/

import Xv6.Pipe.Step
import Xv6.Console.Line

namespace Xv6

open Lib Function

/-- What the scan of `wait` finds. -/
inductive Kids
  | none
  | alive
  | zombie
  deriving DecidableEq

structure WaitData (P : Type) where
  pi : PipePage
  cons : Cons
  ticks : BitVec 32
  /-- the children of each process -/
  kids : P → Kids

/-- A call that is in its loop. -/
inductive LoopCall
  | piperead
  /-- `i` of `n` bytes are written -/
  | pipewrite (n i : Int)
  | consoleread
  | sysSleep (ticks0 n : BitVec 32)
  | wait
  deriving DecidableEq

/-- The lock that a loop passes to `sleep`. -/
inductive CondLock
  /-- `pi->lock` -/
  | pipe
  /-- `cons.lock` -/
  | cons
  /-- `tickslock` -/
  | ticks
  /-- `wait_lock` -/
  | wait
  deriving DecidableEq

namespace LoopCall

variable {P : Type}

def lock : LoopCall → CondLock
  | .piperead | .pipewrite _ _ => .pipe
  | .consoleread => .cons
  | .sysSleep _ _ => .ticks
  | .wait => .wait

/-- What a call does when it has taken the lock: `ticks0 = ticks`. -/
def start (d : WaitData P) : LoopCall → LoopCall
  | .sysSleep _ n => .sysSleep d.ticks n
  | .pipewrite n _ => .pipewrite n 0
  | c => c

/-- What is tested before `p->killed`: with `false` the loop is left. -/
def Waits (d : WaitData P) (p : P) : LoopCall → Prop
  | .piperead => d.pi.Empty ∧ d.pi.writeopen = true
  | .pipewrite n i => i < n ∧ d.pi.readopen = true
  | .consoleread => d.cons.r = d.cons.w
  | .sysSleep ticks0 n => (d.ticks - ticks0).toNat < n.toNat
  | .wait => d.kids p = .alive

/-- What is tested between `p->killed` and `sleep`. -/
def Sleeps (d : WaitData P) : LoopCall → Prop
  | .pipewrite _ _ => d.pi.Full
  | _ => True

instance (d : WaitData P) (p : P) (c : LoopCall) : Decidable (c.Waits d p) := by
  cases c <;> unfold Waits <;> infer_instance

instance (d : WaitData P) (c : LoopCall) : Decidable (c.Sleeps d) := by
  cases c <;> unfold Sleeps <;> infer_instance

end LoopCall

inductive SleepPc
  /-- in none of the loops -/
  | out
  /-- holding the lock, at the test of the condition -/
  | top (c : LoopCall)
  /-- at the read of `p->killed` -/
  | check (c : LoopCall)
  /-- `p->killed` was 0, and `sleep` has not taken `p->lock` yet -/
  | passed (c : LoopCall)
  /-- `SLEEPING` on the channel of the loop -/
  | asleep (c : LoopCall)
  /-- `RUNNABLE`, and then running up to `acquire(lk)` -/
  | woken (c : LoopCall)
  deriving DecidableEq

/-- What `wakeup` and `kill` do to a process. -/
def SleepPc.wake : SleepPc → SleepPc
  | .asleep c => .woken c
  | pc => pc

inductive SleepEvent (P : Type)
  /-- a call takes the lock -/
  | enter (p : P) (c : LoopCall)
  /-- the test of the condition -/
  | test (p : P)
  /-- the read of `p->killed` -/
  | readKilled (p : P)
  /-- one byte of `pipewrite`; `none` if `copyin` fails -/
  | byte (p : P) (ch : Option Byte)
  /-- `sleep`, from `acquire(&p->lock)` to the switch -/
  | sleep (p : P)
  /-- the end of `sleep`: `acquire(lk)` -/
  | relock (p : P)
  /-- one slot of a `wakeup` on the channel -/
  | wakeup (p : P)
  | kill (p : P)
  /-- somebody changes what the loops wait for -/
  | other (d : WaitData P)

/-- The processes and what they wait for. -/
structure SleepSys (P : Type) where
  data : WaitData P
  /-- the holders of the locks -/
  lock : CondLock → Option P
  killed : P → Bool
  pc : P → SleepPc

namespace SleepSys

variable {P : Type} [DecidableEq P] {s : SleepSys P}

def goto (s : SleepSys P) (p : P) (pc : SleepPc) : SleepSys P :=
  { s with pc := update s.pc p pc }

/-- `acquire(lk)` -/
def acquire (s : SleepSys P) (p : P) (c : LoopCall) : SleepSys P :=
  { s.goto p (.top c) with lock := update s.lock c.lock (some p) }

/-- `release(lk)`, after which the process goes on at `pc`. -/
def release (s : SleepSys P) (p : P) (c : LoopCall) (pc : SleepPc) : SleepSys P :=
  { s.goto p pc with lock := update s.lock c.lock none }

def exec (s : SleepSys P) : SleepEvent P → Option (SleepSys P)
  | .enter p c =>
    if s.pc p = .out ∧ s.lock c.lock = none then some (s.acquire p (c.start s.data)) else none
  | .test p =>
    match s.pc p with
    | .top c => if c.Waits s.data p then some (s.goto p (.check c)) else some (s.release p c .out)
    | _ => none
  | .readKilled p =>
    match s.pc p with
    | .check c => if s.killed p then some (s.release p c .out) else some (s.goto p (.passed c))
    | _ => none
  | .byte p ch =>
    match s.pc p with
    | .passed (.pipewrite n i) =>
      if s.data.pi.Full then none
      else match ch with
        | none => some (s.release p (.pipewrite n i) .out)
        | some ch =>
          some { s.goto p (.top (.pipewrite n (i + 1))) with
            data := { s.data with pi := s.data.pi.put ch } }
    | _ => none
  | .sleep p =>
    match s.pc p with
    | .passed c => if c.Sleeps s.data then some (s.release p c (.asleep c)) else none
    | _ => none
  | .relock p =>
    match s.pc p with
    | .woken c => if s.lock c.lock = none then some (s.acquire p c) else none
    | _ => none
  | .wakeup p => some (s.goto p (s.pc p).wake)
  | .kill p =>
    some { s.goto p (s.pc p).wake with killed := update s.killed p true }
  | .other d => some { s with data := d }

def Step (s : SleepSys P) (e : SleepEvent P) (t : SleepSys P) : Prop := s.exec e = some t

def initial (d : WaitData P) : SleepSys P where
  data := d
  lock := fun _ => none
  killed := fun _ => false
  pc := fun _ => .out

/-- **The condition on a step**: no process is killed between its read of `p->killed` and its
`acquire(&p->lock)` in `sleep`. -/
def Seen (s : SleepSys P) : SleepEvent P → Prop
  | .kill p => ∀ c, s.pc p ≠ .passed c
  | _ => True

def SeenStep (s : SleepSys P) (e : SleepEvent P) (t : SleepSys P) : Prop := s.Seen e ∧ Step s e t

/-- **A killed process is not behind the test.** -/
def Awake (s : SleepSys P) : Prop :=
  ∀ p, s.killed p = true → ∀ c, s.pc p ≠ .passed c ∧ s.pc p ≠ .asleep c

/-- Where a step can put a process: it stays, is woken, or moves by its own step. -/
theorem Awake.move (awake : Awake s) {p : P} {pc : SleepPc}
    (fits : s.killed p = true → ∀ c, pc ≠ .passed c ∧ pc ≠ .asleep c) : Awake (s.goto p pc) := by
  intro q
  show _ → ∀ c, update s.pc p pc q ≠ .passed c ∧ update s.pc p pc q ≠ .asleep c
  exact update_ind fits fun _ => awake q

theorem Awake.step {t : SleepSys P} {e : SleepEvent P} (awake : Awake s) (step : SeenStep s e t) :
    Awake t := by
  obtain ⟨seen, done⟩ := step
  unfold Step exec at done
  cases e with
  | enter p c =>
    obtain ⟨guard, rfl⟩ := of_guard done
    exact awake.move fun _ _ => ⟨nofun, nofun⟩
  | test p =>
    simp only at done
    split at done
    · split at done
      · cases done
        exact awake.move fun _ _ => ⟨nofun, nofun⟩
      · cases done
        exact awake.move fun _ _ => ⟨nofun, nofun⟩
    · cases done
  | readKilled p =>
    simp only at done
    split at done
    · split at done
      · cases done
        exact awake.move fun _ _ => ⟨nofun, nofun⟩
      · rename_i spared
        cases done
        exact awake.move fun killed => absurd killed spared
    · cases done
  | byte p ch =>
    simp only at done
    split at done
    · split at done
      · cases done
      · split at done
        · cases done
          exact awake.move fun _ _ => ⟨nofun, nofun⟩
        · cases done
          exact awake.move fun _ _ => ⟨nofun, nofun⟩
    · cases done
  | sleep p =>
    simp only at done
    split at done
    · rename_i c passed
      obtain ⟨guard, rfl⟩ := of_guard done
      -- it passed the test, so it is not killed
      exact awake.move fun killed => absurd passed (awake p killed c).1
    · cases done
  | relock p =>
    simp only at done
    split at done
    · split at done
      · cases done
        exact awake.move fun _ _ => ⟨nofun, nofun⟩
      · cases done
    · cases done
  | wakeup p =>
    cases done
    refine awake.move fun killed c => ?_
    have before := awake p killed c
    revert before
    cases s.pc p with
    | asleep => exact fun _ => ⟨nofun, nofun⟩
    | _ => exact id
  | kill p =>
    cases done
    intro q killed c
    by_cases same : q = p
    · subst same
      have window := seen c
      simp only [goto, update_self]
      revert window
      cases s.pc q with
      | passed => exact fun window => ⟨window, nofun⟩
      | _ => exact fun _ => ⟨nofun, nofun⟩
    · simp only [goto, update_of_ne same] at killed ⊢
      exact awake q killed c
  | other d =>
    cases done
    exact awake

/-- `exec`, for the steps that meet the condition. -/
def seenExec (s : SleepSys P) (e : SleepEvent P) : Option (SleepSys P) :=
  match e with
  | .kill p =>
    match s.pc p with
    | .passed _ => none
    | _ => s.exec e
  | e => s.exec e

theorem seenStep_of_exec {t : SleepSys P} {e : SleepEvent P} (done : s.seenExec e = some t) :
    SeenStep s e t := by
  unfold seenExec at done
  split at done
  · split at done
    · cases done
    · rename_i p _ outside
      exact ⟨outside, done⟩
  · rename_i other
    refine ⟨?_, done⟩
    cases e with
    | kill p => exact absurd rfl (other p)
    | _ => trivial

/-- **A killed process does not sleep in one of these loops**, if no `kill` falls between the test
of a loop and its `sleep`. -/
theorem killed_never_sleeps {d : WaitData P} {trace : List (SleepEvent P)} {s : SleepSys P}
    (run : Run SeenStep (initial d) trace s) {p : P} (killed : s.killed p = true) (c : LoopCall) :
    s.pc p ≠ .asleep c := by
  have fresh : Awake (initial d : SleepSys P) := fun _ spared => Bool.noConfusion spared
  have awake : Awake s := Run.inv fresh Awake.step run
  exact (awake p killed c).2

/-- A `kill` that finds the process asleep, and one that the loop's own test sees. -/
def seenKills : List (SleepEvent Bool) :=
  [.enter true .piperead, .test true, .readKilled true, .sleep true, .kill true, .relock true,
    .test true, .enter false .consoleread, .test false, .kill false, .readKilled false]

/-- Nothing to read in the pipe and on the console, and children that run. -/
def idleData : WaitData Bool where
  pi := { data := fun _ => 0, nread := 0, nwrite := 0, readopen := true, writeopen := true }
  cons := { buf := fun _ => 0, r := 0, w := 0, e := 0 }
  ticks := 0
  kids := fun _ => .alive

theorem killed_never_sleeps_seenKills :
    ∃ s : SleepSys Bool, Run SeenStep (initial idleData) seenKills s ∧ s.killed true = true ∧
      ∀ c, s.pc true ≠ .asleep c := by
  obtain ⟨s, run, seen⟩ := run_of_observed (fun s : SleepSys Bool => s.killed true)
    (show (execAll seenExec seenKills (initial idleData)).map (fun s => s.killed true) =
      some true by
      decide)
  have steps := run.mono seenStep_of_exec
  exact ⟨s, steps, seen, killed_never_sleeps steps seen⟩

/-! ### The window -/

/-- A `kill` between the test of `p->killed` and `sleep`. -/
def missedKill (p : P) (c : LoopCall) : List (SleepEvent P) :=
  [.enter p c, .test p, .readKilled p, .kill p, .sleep p]

/-- **The missed `kill`**: whenever a loop has to wait, a `kill` in the window leaves the process
`SLEEPING` and killed. -/
theorem run_missedKill {d : WaitData P} {p : P} {c : LoopCall} (waits : (c.start d).Waits d p)
    (sleeps : (c.start d).Sleeps d) :
    ∃ s, Run Step (initial d) (missedKill p c) s ∧ s.killed p = true ∧
      s.pc p = .asleep (c.start d) := by
  have done : (execAll exec (missedKill p c) (initial d)).map (fun s => (s.killed p, s.pc p)) =
      some (true, .asleep (c.start d)) := by
    simp [missedKill, execAll, exec, initial, acquire, release, goto, SleepPc.wake, waits, sleeps]
  obtain ⟨s, run, seen⟩ := run_of_observed (fun s : SleepSys P => (s.killed p, s.pc p)) done
  exact ⟨s, run, congrArg Prod.fst seen, congrArg Prod.snd seen⟩

/-- A pipe that is full, for `pipewrite`. -/
def fullData : WaitData Bool :=
  { idleData with pi := { idleData.pi with nwrite := BitVec.ofNat 32 PIPESIZE } }

/-- A killed process can be asleep in the loop of `c`. -/
def SleepsKilled (c : LoopCall) : Prop :=
  ∃ d trace s, Run Step (initial d : SleepSys Bool) trace s ∧ s.killed true = true ∧
    s.pc true = .asleep c

/-- In each of the five loops a killed process can be asleep. -/
theorem killed_asleep :
    SleepsKilled .piperead ∧ SleepsKilled (.pipewrite 1 0) ∧ SleepsKilled .consoleread ∧
      SleepsKilled (.sysSleep 0 10) ∧ SleepsKilled .wait := by
  refine ⟨⟨idleData, missedKill true .piperead, ?_⟩,
    ⟨fullData, missedKill true (.pipewrite 1 0), ?_⟩,
    ⟨idleData, missedKill true .consoleread, ?_⟩, ⟨idleData, missedKill true (.sysSleep 0 10), ?_⟩,
    ⟨idleData, missedKill true .wait, ?_⟩⟩
  all_goals exact run_missedKill (by decide) (by decide)

end SleepSys

end Xv6
