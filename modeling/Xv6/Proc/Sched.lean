/-
**Scheduling** (`kernel/proc.c`, `kernel/spinlock.c`, `kernel/trap.c`): any number of CPUs that run
`scheduler`, and the kernel threads of the processes that they switch to.

A CPU executes one thread: its scheduler, or the kernel thread of a process (`Thread`). `swtch` is
two steps, which store the registers of the old thread and load those of the new one; `p->lock` is
taken by the thread before it and released by the thread after it. The steps between are sections
under a `p->lock` or another spinlock, with the nesting of `push_off` and `pop_off`, and interrupts.

A thread is at `KPoint.kernel` anywhere in the kernel where it does not hold its own `p->lock`. It
may take and release spinlocks there; a system call and an interrupt handler end with none. The
sections of `wakeup`, `kill`, `fork` and `wait` under the lock of another process are one step each.
Pids, parents and `p->killed` play no part here (`Xv6.Proc.Life` has them).

`stamp` and `resumed` are not in the source. They number the contexts that are saved for a process
and record which of them were loaded.
-/

import Xv6.Proc.Life
import Xv6.Lib.Count

namespace Xv6

open Lib
open Function (update)

/-- Who called `sched`. -/
inductive SchedCaller (L : Type)
  /-- `yield`, from `usertrap` or from `kerneltrap` -/
  | yield (user : Bool)
  /-- `sleep(chan, lk)` -/
  | sleep (lk : L)
  | exit
  deriving DecidableEq

/-- The state that the caller gave the process. -/
def SchedCaller.state {L : Type} : SchedCaller L → ProcState
  | .yield _ => .runnable
  | .sleep _ => .sleeping
  | .exit => .zombie

inductive Resume (L : Type)
  | forkret
  /-- in `sched`, with its `intena` -/
  | sched (caller : SchedCaller L) (intena : Bool)
  deriving DecidableEq

inductive KPoint (L : Type)
  /-- in user space -/
  | user
  /-- in `usertrap`, or at the start or the end of a system call -/
  | trap
  /-- in the kernel -/
  | kernel
  /-- in `kerneltrap` -/
  | handler
  /-- `yield` is called -/
  | yielding (user : Bool)
  /-- in `sleep`, which has taken `p->lock` -/
  | sleepLocked (lk : L) (chan : Nat)
  /-- in `exit`, which has taken `wait_lock` -/
  | exiting
  /-- in `exit`, a zombie that holds `p->lock` and `wait_lock` -/
  | exitLocked
  /-- `sched` is called -/
  | sched (caller : SchedCaller L)
  /-- in `swtch`, before the registers are stored in `p->context` -/
  | saving (caller : SchedCaller L) (intena : Bool)
  /-- in `swtch`, before the registers are loaded from `mycpu()->context` -/
  | leaving
  /-- after `swtch` -/
  | resumed (r : Resume L)
  deriving DecidableEq

inductive Thread (L : Type) (n : Nat)
  /-- the scheduler, at the top of its loop -/
  | top
  /-- the scheduler, before slot `k` -/
  | scan (k : Nat)
  /-- `kerneltrap` on the stack of the scheduler -/
  | idleHandler (k : Nat)
  /-- the scheduler in `swtch`, before the registers are stored in `c->context` -/
  | switchTo (p : Fin n)
  /-- the scheduler in `swtch`, before the registers are loaded from `p->context` -/
  | loadProc (p : Fin n)
  /-- the scheduler, after `swtch` -/
  | back (p : Fin n)
  /-- the kernel thread of a process -/
  | run (p : Fin n) (point : KPoint L)
  deriving DecidableEq

/-- The ways in which a switch can fail. -/
inductive SchedPanic
  /-- `panic("sched p->lock")` -/
  | schedLock
  /-- `panic("sched locks")` -/
  | schedLocks
  /-- `panic("sched running")` -/
  | schedRunning
  /-- `panic("sched interruptible")` -/
  | schedInterruptible
  /-- `panic("zombie exit")` -/
  | zombieExit
  /-- registers are loaded where none were stored -/
  | noContext
  deriving DecidableEq

/-- The CPUs, the process table and the spinlocks. -/
structure Sched (C L : Type) (n : Nat) where
  state : Fin n → ProcState
  chan : Fin n → Option Nat
  /-- the CPU that holds `p->lock` -/
  lock : Fin n → Option C
  /-- the CPU that holds another spinlock -/
  lk : L → Option C
  /-- `p->context` -/
  context : Fin n → Option (Resume L)
  /-- `c->proc` -/
  proc : C → Option (Fin n)
  /-- Depth of push_off() nesting. -/
  noff : C → Int
  /-- Were interrupts enabled before push_off()? -/
  intena : C → Bool
  /-- `intr_get()` -/
  intr : C → Bool
  /-- `c->context`: the slot at which the scheduler goes on -/
  cpuContext : C → Option (Fin n)
  thread : C → Thread L n
  panicked : Option SchedPanic
  /-- the number of the context saved last -/
  stamp : Fin n → Nat
  /-- the contexts that were loaded -/
  resumed : List (Fin n × Nat)

/-- One step of CPU `c`. -/
inductive SchedEvent (C L : Type) (n : Nat)
  /-- `intr_on()` at the top of the loop of `scheduler` -/
  | loop (c : C)
  /-- the end of the table -/
  | endScan (c : C)
  /-- a slot that is not `RUNNABLE` -/
  | pass (c : C) (p : Fin n)
  /-- a slot that is -/
  | pick (c : C) (p : Fin n)
  | saveCpu (c : C) (p : Fin n)
  | loadProc (c : C) (p : Fin n)
  /-- the scheduler after `swtch` -/
  | finish (c : C) (p : Fin n)
  /-- an interrupt in the scheduler -/
  | idleInterrupt (c : C) (k : Nat)
  | idleReturn (c : C) (k : Nat)
  /-- `usertrapret` -/
  | toUser (c : C) (p : Fin n)
  /-- a trap from user space -/
  | trap (c : C) (p : Fin n)
  /-- `intr_on()` in `usertrap` -/
  | intrOn (c : C) (p : Fin n)
  /-- a system call starts to work -/
  | enterCall (c : C) (p : Fin n)
  /-- and ends -/
  | endCall (c : C) (p : Fin n)
  /-- an interrupt in the kernel -/
  | interrupt (c : C) (p : Fin n)
  | handlerReturn (c : C) (p : Fin n)
  /-- `usertrap` calls `yield` -/
  | userTimer (c : C) (p : Fin n)
  /-- `kerneltrap` calls `yield` -/
  | kernelTimer (c : C) (p : Fin n)
  /-- `yield` up to `sched` -/
  | yield (c : C) (p : Fin n) (user : Bool)
  | acquire (c : C) (l : L)
  | release (c : C) (l : L)
  /-- `acquire(&p->lock)` in `sleep` -/
  | sleepLock (c : C) (p : Fin n) (l : L) (chan : Nat)
  /-- `sleep` from there to `sched` -/
  | sleepMark (c : C) (p : Fin n) (l : L) (chan : Nat)
  /-- `acquire(&wait_lock)` in `exit` -/
  | exitLock (c : C) (p : Fin n)
  /-- `exit` takes `p->lock` -/
  | exitZombie (c : C) (p : Fin n)
  /-- `release(&wait_lock)` in `exit` -/
  | exitUnlock (c : C) (p : Fin n)
  /-- the tests of `sched` -/
  | sched (c : C) (p : Fin n) (caller : SchedCaller L)
  | saveProc (c : C) (p : Fin n) (caller : SchedCaller L) (intena : Bool)
  | loadCpu (c : C) (p : Fin n)
  /-- a thread after `swtch`, up to the release of `p->lock` -/
  | resume (c : C) (p : Fin n) (r : Resume L)
  /-- one slot of `wakeup(chan)` whose process sleeps on it -/
  | wakeup (c : C) (chan : Nat) (q : Fin n)
  /-- `kill` at its slot, of a process that sleeps -/
  | kill (c : C) (q : Fin n)
  /-- `fork`: `allocproc` and what follows under the lock of the child -/
  | forkAlloc (c : C) (q : Fin n)
  /-- `fork`: the child becomes `RUNNABLE` -/
  | forkReady (c : C) (q : Fin n)
  /-- `wait` frees a zombie -/
  | reap (c : C) (q : Fin n)
  /-- a section under the lock of `q` that leaves the process as it is -/
  | touch (c : C) (q : Fin n)

namespace Thread

variable {L : Type} {n : Nat}

/-- The thread is in the kernel, where it may take the lock of another process. -/
def Working : Thread L n → Prop
  | .idleHandler _ | .run _ .kernel | .run _ .handler | .run _ .exiting => True
  | _ => False

def Locking : Thread L n → Prop
  | .idleHandler _ | .run _ .kernel | .run _ .handler => True
  | _ => False

instance (t : Thread L n) : Decidable t.Working := by
  unfold Working
  split <;> infer_instance

instance (t : Thread L n) : Decidable t.Locking := by
  unfold Locking
  split <;> infer_instance

end Thread

namespace Sched

variable {C L : Type} {n : Nat} [DecidableEq C] [DecidableEq L]

/-! ### Spinlocks -/

def pushOff (s : Sched C L n) (c : C) : Sched C L n :=
  { s with
    intr := update s.intr c false
    intena := if s.noff c = 0 then update s.intena c (s.intr c) else s.intena
    noff := update s.noff c (s.noff c + 1) }

def popOff (s : Sched C L n) (c : C) : Sched C L n :=
  { s with
    noff := update s.noff c (s.noff c - 1)
    intr := if s.noff c - 1 = 0 ∧ s.intena c = true then update s.intr c true else s.intr }

def acquireProc (s : Sched C L n) (c : C) (p : Fin n) : Sched C L n :=
  { s.pushOff c with lock := update s.lock p (some c) }

/-- `release(&p->lock)` -/
def releaseProc (s : Sched C L n) (c : C) (p : Fin n) : Sched C L n :=
  { s with lock := update s.lock p none }.popOff c

/-- `acquire(l)`, when the lock is free. -/
def acquire (s : Sched C L n) (c : C) (l : L) : Sched C L n :=
  { s.pushOff c with lk := update s.lk l (some c) }

def release (s : Sched C L n) (c : C) (l : L) : Sched C L n :=
  { s with lk := update s.lk l none }.popOff c

/-! ### Steps -/

def goto (s : Sched C L n) (c : C) (t : Thread L n) : Sched C L n :=
  { s with thread := update s.thread c t }

def setState (s : Sched C L n) (p : Fin n) (st : ProcState) : Sched C L n :=
  { s with state := update s.state p st }

/-- `intr_on()` and `intr_off()`, and what a trap and `sret` do to the flag. -/
def setIntr (s : Sched C L n) (c : C) (on : Bool) : Sched C L n :=
  { s with intr := update s.intr c on }

def panic (s : Sched C L n) (e : SchedPanic) : Sched C L n := { s with panicked := some e }

/-- A section under the lock of `q`, which gives it the state `st`. -/
def underLock (s : Sched C L n) (c : C) (q : Fin n) (st : ProcState) : Sched C L n :=
  ((s.acquireProc c q).setState q st).releaseProc c q

/-- No spinlock other than a `p->lock` is held. -/
def Bare (s : Sched C L n) (c : C) : Prop := ∀ l, s.lk l ≠ some c

instance [Fintype L] (s : Sched C L n) (c : C) : Decidable (s.Bare c) :=
  inferInstanceAs (Decidable (∀ _, _))

/-- `sched`, up to `swtch`. -/
def callSched (s : Sched C L n) (c : C) (p : Fin n) (caller : SchedCaller L) : Sched C L n :=
  if s.lock p ≠ some c then s.panic .schedLock
  else if s.noff c ≠ 1 then s.panic .schedLocks
  else if s.state p = .running then s.panic .schedRunning
  else if s.intr c = true then s.panic .schedInterruptible
  else s.goto c (.run p (.saving caller (s.intena c)))

/-- What follows `swtch` in a thread that is resumed. -/
def callResume (s : Sched C L n) (c : C) (p : Fin n) : Resume L → Sched C L n
  | .forkret => (s.releaseProc c p).goto c (.run p .kernel)
  | .sched (.yield user) intena =>
    ({ s with intena := update s.intena c intena }.releaseProc c p).goto c
      (.run p (if user then .trap else .handler))
  -- `acquire(lk)` at the end of `sleep` is a step of its own, like any other
  | .sched (.sleep _) intena =>
    ({ s with
      intena := update s.intena c intena
      chan := update s.chan p none }.releaseProc c p).goto c (.run p .kernel)
  | .sched .exit _ => s.panic .zombieExit

def Enabled (s : Sched C L n) (waitLock : L) : SchedEvent C L n → Prop
  | .loop c => s.thread c = .top
  | .endScan c => s.thread c = .scan n
  | .pass c p => s.thread c = .scan p ∧ s.lock p = none ∧ s.state p ≠ .runnable
  | .pick c p => s.thread c = .scan p ∧ s.lock p = none ∧ s.state p = .runnable
  | .saveCpu c p => s.thread c = .switchTo p
  | .loadProc c p => s.thread c = .loadProc p
  | .finish c p => s.thread c = .back p
  | .idleInterrupt c k => s.thread c = .scan k ∧ s.intr c = true
  | .idleReturn c k => s.thread c = .idleHandler k ∧ s.Bare c
  | .toUser c p | .intrOn c p | .enterCall c p | .userTimer c p => s.thread c = .run p .trap
  | .trap c p => s.thread c = .run p .user
  | .endCall c p => s.thread c = .run p .kernel ∧ s.Bare c
  | .interrupt c p => s.thread c = .run p .kernel ∧ s.intr c = true
  | .handlerReturn c p => s.thread c = .run p .handler ∧ s.Bare c
  | .kernelTimer c p => s.thread c = .run p .handler ∧ s.Bare c ∧ s.state p = .running
  | .yield c p user => s.thread c = .run p (.yielding user) ∧ s.lock p = none
  | .acquire c l => (s.thread c).Locking ∧ s.lk l = none
  | .release c l => (s.thread c).Locking ∧ s.lk l = some c
  | .sleepLock c p l _ => s.thread c = .run p .kernel ∧ s.lk l = some c ∧ s.lock p = none
  | .sleepMark c p l chan => s.thread c = .run p (.sleepLocked l chan)
  | .exitLock c p => s.thread c = .run p .trap ∧ s.lk waitLock = none
  | .exitZombie c p => s.thread c = .run p .exiting ∧ s.lock p = none
  | .exitUnlock c p => s.thread c = .run p .exitLocked
  | .sched c p caller => s.thread c = .run p (.sched caller)
  | .saveProc c p caller intena => s.thread c = .run p (.saving caller intena)
  | .loadCpu c p => s.thread c = .run p .leaving
  | .resume c p r => s.thread c = .run p (.resumed r)
  | .wakeup c chan q => (s.thread c).Working ∧ s.proc c ≠ some q ∧ s.lock q = none ∧
      s.state q = .sleeping ∧ s.chan q = some chan
  | .kill c q => (s.thread c).Working ∧ s.lock q = none ∧ s.state q = .sleeping
  | .forkAlloc c q => (s.thread c).Working ∧ s.lock q = none ∧ s.state q = .unused
  | .forkReady c q => (s.thread c).Working ∧ s.lock q = none ∧ s.state q = .used
  | .reap c q => (s.thread c).Working ∧ s.lock q = none ∧ s.state q = .zombie
  | .touch c q => (s.thread c).Working ∧ s.lock q = none

def next (s : Sched C L n) (waitLock : L) : SchedEvent C L n → Sched C L n
  | .loop c => (s.setIntr c true).goto c (.scan 0)
  | .endScan c => s.goto c .top
  | .pass c p => (s.underLock c p (s.state p)).goto c (.scan (p + 1))
  | .pick c p =>
    { ((s.acquireProc c p).setState p .running).goto c (.switchTo p) with
      proc := update s.proc c (some p) }
  | .saveCpu c p => { s.goto c (.loadProc p) with cpuContext := update s.cpuContext c (some p) }
  | .loadProc c p =>
    match s.context p with
    | some r => { s.goto c (.run p (.resumed r)) with resumed := s.resumed ++ [(p, s.stamp p)] }
    | none => s.panic .noContext
  | .finish c p =>
    ({ s with proc := update s.proc c none }.releaseProc c p).goto c (.scan (p + 1))
  | .idleInterrupt c k => (s.setIntr c false).goto c (.idleHandler k)
  | .idleReturn c k => (s.setIntr c true).goto c (.scan k)
  | .toUser c p => (s.setIntr c false).goto c (.run p .user)
  | .trap c p => (s.setIntr c false).goto c (.run p .trap)
  | .intrOn c _ => s.setIntr c true
  | .enterCall c p => s.goto c (.run p .kernel)
  | .endCall c p => s.goto c (.run p .trap)
  | .interrupt c p => (s.setIntr c false).goto c (.run p .handler)
  | .handlerReturn c p => (s.setIntr c true).goto c (.run p .kernel)
  | .userTimer c p => s.goto c (.run p (.yielding true))
  | .kernelTimer c p => s.goto c (.run p (.yielding false))
  | .yield c p user =>
    ((s.acquireProc c p).setState p .runnable).goto c (.run p (.sched (.yield user)))
  | .acquire c l => s.acquire c l
  | .release c l => s.release c l
  | .sleepLock c p l chan => (s.acquireProc c p).goto c (.run p (.sleepLocked l chan))
  | .sleepMark c p l chan =>
    { ((s.release c l).setState p .sleeping).goto c (.run p (.sched (.sleep l))) with
      chan := update s.chan p (some chan) }
  | .exitLock c p => (s.acquire c waitLock).goto c (.run p .exiting)
  | .exitZombie c p => ((s.acquireProc c p).setState p .zombie).goto c (.run p .exitLocked)
  | .exitUnlock c p => (s.release c waitLock).goto c (.run p (.sched .exit))
  | .sched c p caller => s.callSched c p caller
  | .saveProc c p caller intena =>
    { s.goto c (.run p .leaving) with
      context := update s.context p (some (.sched caller intena))
      stamp := update s.stamp p (s.stamp p + 1) }
  | .loadCpu c _ =>
    match s.cpuContext c with
    | some q => s.goto c (.back q)
    | none => s.panic .noContext
  | .resume c p r => s.callResume c p r
  | .wakeup c _ q | .kill c q | .forkReady c q => s.underLock c q .runnable
  | .forkAlloc c q =>
    { s.underLock c q .used with
      context := update s.context q (some .forkret)
      stamp := update s.stamp q (s.stamp q + 1) }
  | .reap c q => s.underLock c q .unused
  | .touch c q => s.underLock c q (s.state q)

/-- The condition on the callers of `sleep`: they hold only the lock that they pass. -/
def SleepCaller (s : Sched C L n) : SchedEvent C L n → Prop
  | .sleepLock c _ l _ => ∀ other, s.lk other = some c → other = l
  | _ => True

/-- One step, with a caller of `sleep` that holds only the lock that it passes. -/
def Step (waitLock : L) (s : Sched C L n) (e : SchedEvent C L n) (t : Sched C L n) : Prop :=
  s.Enabled waitLock e ∧ s.SleepCaller e ∧ t = s.next waitLock e

instance [Fintype L] (s : Sched C L n) (waitLock : L) (e : SchedEvent C L n) :
    Decidable (s.Enabled waitLock e) := by
  cases e <;> unfold Enabled <;> infer_instance

instance [Fintype L] (s : Sched C L n) (e : SchedEvent C L n) : Decidable (s.SleepCaller e) := by
  cases e <;> unfold SleepCaller <;> infer_instance

def exec [Fintype L] (waitLock : L) (s : Sched C L n) (e : SchedEvent C L n) :
    Option (Sched C L n) :=
  if s.Enabled waitLock e ∧ s.SleepCaller e then some (s.next waitLock e) else none

theorem Step.of_exec [Fintype L] {waitLock : L} {s t : Sched C L n} {e : SchedEvent C L n}
    (done : exec waitLock s e = some t) : Step waitLock s e t := by
  unfold exec at done
  obtain ⟨allowed, rfl⟩ := of_guard done
  exact ⟨allowed.1, allowed.2, rfl⟩

/-- After `userinit`, every CPU at the start of `scheduler`. -/
def initial (init : Fin n) : Sched C L n where
  state := update (fun _ => .unused) init .runnable
  chan := fun _ => none
  lock := fun _ => none
  lk := fun _ => none
  context := update (fun _ => none) init (some .forkret)
  proc := fun _ => none
  noff := fun _ => 0
  intena := fun _ => false
  intr := fun _ => false
  cpuContext := fun _ => none
  thread := fun _ => .top
  panicked := none
  stamp := fun _ => 0
  resumed := []

end Sched

end Xv6
