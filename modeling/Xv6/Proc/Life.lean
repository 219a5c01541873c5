/-
**The life cycle of processes** (`kernel/proc.c`): `fork`, `exit`, `reparent`, `wait`, `sleep`,
`wakeup` and `kill`, interleaved by any number of processes.

The steps are the sections under `wait_lock` and under a `p->lock`. `wait_lock` is held across the
inner `p->lock` sections of `exit` and `wait`, so its holder is part of the state; the loops of
`reparent`, `wakeup` and `wait` take one step per slot. `p->lock` is held across steps in one place:
`exit` takes it, marks the process `ZOMBIE`, releases `wait_lock` and calls `sched`; the lock is
released by the scheduler after the switch (`Pc.sched`, `Pc.switched`, `Pc.off`).

`Life.Enabled` is what a step tests and `Life.next` what it changes. The process table has `n`
slots and slot `init` holds `initproc`. Each process gets a number of its own when `allocproc`
hands out its slot (`uid`), and exits and reaps are recorded, so that statements can speak about a
process after its slot has been reused.
-/

import Xv6.Params
import Xv6.Lib.Run

namespace Xv6

open Function

/-- `enum procstate` -/
inductive ProcState
  | unused
  | used
  | sleeping
  | runnable
  | running
  | zombie
  deriving DecidableEq

/-- A channel: the address of a `struct proc`, or any other address. -/
inductive Chan (n : Nat)
  | proc (p : Fin n)
  | other (address : Nat)
  deriving DecidableEq

/-- Where a process is between two of its critical sections. -/
inductive Pc (n : Nat)
  /-- outside the functions below -/
  | user
  /-- in `sleep`, called from elsewhere than `wait` -/
  | asleep
  /-- in `fork`: the child is allocated, its parent not set -/
  | forkAlloced (child : Fin n)
  /-- in `fork`: the parent is set, the child not yet `RUNNABLE` -/
  | forkParented (child : Fin n)
  /-- in `reparent`, at slot `k` -/
  | exitReparent (k : Nat) (status : Int)
  /-- in `wakeup(initproc)` at slot `j`, called for slot `k` of `reparent` -/
  | exitWakeInit (k j : Nat) (status : Int)
  /-- in `wakeup(p->parent)`, at slot `j` -/
  | exitWakeParent (j : Nat) (status : Int)
  /-- a zombie on its own kernel stack, holding `p->lock` -/
  | sched
  /-- a zombie whose CPU is back in `scheduler`, which holds `p->lock` -/
  | switched
  /-- a zombie that nothing runs and whose lock is free -/
  | off
  /-- in the scan of `wait`, at slot `k` -/
  | waitScan (k : Nat) (havekids : Bool) (addr : Nat)
  /-- in `sleep(p, &wait_lock)` -/
  | waitSleep (addr : Nat)
  /-- woken, about to take `wait_lock` again -/
  | waitRelock (addr : Nat)
  deriving DecidableEq

/-- The process holds `wait_lock` between two steps. -/
def Pc.HoldsWaitLock {n : Nat} : Pc n → Prop
  | .exitReparent _ _ | .exitWakeInit _ _ _ | .exitWakeParent _ _ | .waitScan _ _ _ => True
  | _ => False

/-- In the middle of `fork`, `exit` or the scan of `wait`: neither asleep, nor unused, nor dead. -/
def Pc.Active {n : Nat} : Pc n → Prop
  | .forkAlloced _ | .forkParented _ | .exitReparent _ _ | .exitWakeInit _ _ _
  | .exitWakeParent _ _ | .waitScan _ _ _ | .waitRelock _ => True
  | _ => False

/-- In `exit`, before the process is a zombie. -/
def Pc.Exiting {n : Nat} : Pc n → Prop
  | .exitReparent _ _ | .exitWakeInit _ _ _ | .exitWakeParent _ _ => True
  | _ => False

/-- `p->lock` is held between two steps. -/
def Pc.HoldsLock {n : Nat} (pc : Pc n) : Prop := pc = .sched ∨ pc = .switched

instance {n : Nat} (pc : Pc n) : Decidable pc.HoldsWaitLock := by
  cases pc <;> unfold Pc.HoldsWaitLock <;> infer_instance

instance {n : Nat} (pc : Pc n) : Decidable pc.HoldsLock :=
  inferInstanceAs (Decidable (_ ∨ _))

/-- A process that called `exit`. -/
structure ExitRecord where
  uid : Nat
  pid : Int
  status : Int
  /-- the parent at that moment -/
  parent : Option Nat
  deriving DecidableEq

/-- A process that `wait` returned: which one, the values delivered, and the caller. -/
structure ReapRecord where
  uid : Nat
  pid : Int
  status : Int
  caller : Nat
  deriving DecidableEq

structure Life (n : Nat) where
  state : Fin n → ProcState
  chan : Fin n → Option (Chan n)
  killed : Fin n → Bool
  xstate : Fin n → Int
  pid : Fin n → Int
  parent : Fin n → Option (Fin n)
  pc : Fin n → Pc n
  /-- the holder of `wait_lock` -/
  waitLock : Option (Fin n)
  nextpid : Int
  /-- the process in a slot, numbered in the order of allocation -/
  uid : Fin n → Nat
  nextuid : Nat
  exited : List ExitRecord
  reaped : List ReapRecord

/-- The critical sections, each with the process that runs it and the branch it takes. -/
inductive LifeEvent (n : Nat)
  /-- `scheduler` picks a `RUNNABLE` process -/
  | schedule (p : Fin n)
  | yield (p : Fin n)
  /-- `sleep` from elsewhere than `wait` -/
  | sleep (p : Fin n) (address : Nat)
  /-- `sleep` returns there -/
  | resume (p : Fin n)
  /-- one slot of a `wakeup` made elsewhere -/
  | wakeup (c : Chan n) (i : Fin n)
  /-- one slot of the loop of `kill` -/
  | kill (pid : Int) (i : Fin n)
  /-- `allocproc` and the copying that `fork` does under the child's lock -/
  | forkAlloc (p i : Fin n)
  /-- the same, out of memory: `freeproc` -/
  | forkFail (p i : Fin n)
  /-- `np->parent = p` -/
  | forkParent (p i : Fin n)
  /-- `np->state = RUNNABLE` -/
  | forkDone (p i : Fin n)
  /-- `exit` takes `wait_lock` -/
  | exitLock (p : Fin n) (status : Int)
  /-- `reparent` passes a slot that is not a child -/
  | exitSkip (p k : Fin n) (status : Int)
  /-- `pp->parent = initproc` -/
  | exitTake (p k : Fin n) (status : Int)
  /-- one slot of `wakeup(initproc)` -/
  | exitWakeInit (p : Fin n) (k : Nat) (j : Fin n) (status : Int)
  /-- `wakeup(initproc)` returns -/
  | exitWokenInit (p : Fin n) (k : Nat) (status : Int)
  /-- `reparent` returns -/
  | exitReparented (p : Fin n) (status : Int)
  /-- one slot of `wakeup(p->parent)` -/
  | exitWakeParent (p j : Fin n) (status : Int)
  /-- `p->state = ZOMBIE` under `p->lock`, then `wait_lock` is released -/
  | exitZombie (p : Fin n) (status : Int)
  /-- `swtch` to the scheduler -/
  | exitSwitch (p : Fin n)
  /-- the scheduler releases `p->lock` -/
  | exitRelease (p : Fin n)
  /-- `wait` takes `wait_lock` -/
  | waitLock (p : Fin n) (addr : Nat)
  /-- the scan passes a slot that is not a child -/
  | waitSkip (p k : Fin n) (havekids : Bool) (addr : Nat)
  /-- the scan passes a child that is not a zombie -/
  | waitAlive (p k : Fin n) (havekids : Bool) (addr : Nat)
  /-- a zombie child whose status cannot be copied out -/
  | waitCopyFail (p k : Fin n) (havekids : Bool) (addr : Nat)
  /-- a zombie child is freed and returned -/
  | waitReap (p k : Fin n) (havekids : Bool) (addr : Nat)
  /-- no children, or killed -/
  | waitNone (p : Fin n) (havekids : Bool) (addr : Nat)
  /-- `sleep(p, &wait_lock)` -/
  | waitSleep (p : Fin n) (addr : Nat)
  /-- `p->chan = 0` after being scheduled again -/
  | waitTidy (p : Fin n) (addr : Nat)
  /-- `acquire(lk)` at the end of `sleep` -/
  | waitRelock (p : Fin n) (addr : Nat)

namespace Life

variable {n : Nat}

/-- A process runs its next section: it is on a CPU and at the given point. -/
def At (s : Life n) (p : Fin n) (pc : Pc n) : Prop := s.state p = .running ∧ s.pc p = pc

/-- `p->lock` can be acquired. -/
def LockFree (s : Life n) (p : Fin n) : Prop := ¬ (s.pc p).HoldsLock

/-- What `wakeup(chan)` tests in one slot. -/
def SleepsOn (s : Life n) (i : Fin n) (c : Option (Chan n)) : Prop :=
  s.state i = .sleeping ∧ s.chan i = c

instance (s : Life n) (p : Fin n) (pc : Pc n) : Decidable (s.At p pc) :=
  inferInstanceAs (Decidable (_ ∧ _))

instance (s : Life n) (p : Fin n) : Decidable (s.LockFree p) := inferInstanceAs (Decidable (¬ _))

instance (s : Life n) (i : Fin n) (c : Option (Chan n)) : Decidable (s.SleepsOn i c) :=
  inferInstanceAs (Decidable (_ ∧ _))

/-- The test a section makes; a section that needs a lock is enabled when the lock is free. -/
def Enabled (init : Fin n) (s : Life n) : LifeEvent n → Prop
  | .schedule p => s.state p = .runnable ∧ s.LockFree p
  | .yield p => s.state p = .running ∧ ¬ (s.pc p).HoldsWaitLock ∧ s.LockFree p
  | .sleep p _ => s.At p .user
  | .resume p => s.At p .asleep
  | .wakeup _ i => s.LockFree i
  | .kill pid i => s.pid i = pid ∧ s.LockFree i
  | .forkAlloc p i => s.At p .user ∧ s.state i = .unused
  | .forkFail p i => s.At p .user ∧ s.state i = .unused
  | .forkParent p i => s.At p (.forkAlloced i) ∧ s.waitLock = none
  | .forkDone p i => s.At p (.forkParented i)
  | .exitLock p _ => s.At p .user ∧ p ≠ init ∧ s.waitLock = none
  | .exitSkip p k status => s.At p (.exitReparent k status) ∧ s.parent k ≠ some p
  | .exitTake p k status => s.At p (.exitReparent k status) ∧ s.parent k = some p
  | .exitWakeInit p k j status => s.At p (.exitWakeInit k j status) ∧ s.LockFree j
  | .exitWokenInit p k status => s.At p (.exitWakeInit k n status)
  | .exitReparented p status => s.At p (.exitReparent n status)
  | .exitWakeParent p j status => s.At p (.exitWakeParent j status) ∧ s.LockFree j
  | .exitZombie p status => s.At p (.exitWakeParent n status)
  | .exitSwitch p => s.pc p = .sched
  | .exitRelease p => s.pc p = .switched
  | .waitLock p _ => s.At p .user ∧ s.waitLock = none
  | .waitSkip p k havekids addr => s.At p (.waitScan k havekids addr) ∧ s.parent k ≠ some p
  | .waitAlive p k havekids addr => s.At p (.waitScan k havekids addr) ∧ s.parent k = some p ∧
      s.LockFree k ∧ s.state k ≠ .zombie
  | .waitCopyFail p k havekids addr => s.At p (.waitScan k havekids addr) ∧
      s.parent k = some p ∧ s.LockFree k ∧ s.state k = .zombie ∧ addr ≠ 0
  | .waitReap p k havekids addr => s.At p (.waitScan k havekids addr) ∧ s.parent k = some p ∧
      s.LockFree k ∧ s.state k = .zombie
  | .waitNone p havekids addr => s.At p (.waitScan n havekids addr) ∧
      (havekids = false ∨ s.killed p = true)
  | .waitSleep p addr => s.At p (.waitScan n true addr) ∧ s.killed p = false
  | .waitTidy p addr => s.At p (.waitSleep addr)
  | .waitRelock p addr => s.At p (.waitRelock addr) ∧ s.waitLock = none

def goto (s : Life n) (p : Fin n) (pc : Pc n) : Life n :=
  { s with pc := update s.pc p pc }

def setState (s : Life n) (p : Fin n) (st : ProcState) : Life n :=
  { s with state := update s.state p st }

/-- One slot of `wakeup(chan)`: a process sleeping on the channel, other than the caller `me`,
becomes `RUNNABLE`. -/
def wakeSlot (s : Life n) (me : Option (Fin n)) (i : Fin n) (c : Option (Chan n)) : Life n :=
  { s with state := fun x =>
      if x = i ∧ me ≠ some i ∧ s.SleepsOn i c then .runnable else s.state x }

/-- `freeproc`, as far as the process table is concerned. -/
def freeproc (s : Life n) (i : Fin n) : Life n :=
  { s with
    pid := update s.pid i 0
    parent := update s.parent i none
    chan := update s.chan i none
    killed := update s.killed i false
    xstate := update s.xstate i 0
    state := update s.state i .unused }

/-- The part of `allocproc` that names the process. -/
def nameProc (s : Life n) (i : Fin n) : Life n :=
  { s with
    pid := update s.pid i s.nextpid
    nextpid := s.nextpid + 1
    uid := update s.uid i s.nextuid
    nextuid := s.nextuid + 1 }

def next (init : Fin n) (s : Life n) : LifeEvent n → Life n
  | .schedule p => s.setState p .running
  | .yield p => s.setState p .runnable
  | .sleep p address =>
    { s.setState p .sleeping with
      chan := update s.chan p (some (.other address))
      pc := update s.pc p .asleep }
  | .resume p => { s.goto p .user with chan := update s.chan p none }
  | .wakeup c i => s.wakeSlot none i (some c)
  | .kill _ i =>
    { s with
      killed := update s.killed i true
      state := fun x => if x = i ∧ s.state i = .sleeping then .runnable else s.state x }
  | .forkAlloc p i =>
    (((s.nameProc i).setState i .used).goto i .user).goto p (.forkAlloced i)
  | .forkFail _ i => (s.nameProc i).freeproc i
  | .forkParent p i =>
    { s.goto p (.forkParented i) with parent := update s.parent i (some p) }
  | .forkDone p i => (s.setState i .runnable).goto p .user
  | .exitLock p status => { s.goto p (.exitReparent 0 status) with waitLock := some p }
  | .exitSkip p k status => s.goto p (.exitReparent (k + 1) status)
  | .exitTake p k status =>
    { s.goto p (.exitWakeInit k 0 status) with
      parent := update s.parent k (some init) }
  | .exitWakeInit p k j status =>
    (s.wakeSlot (some p) j (some (.proc init))).goto p (.exitWakeInit k (j + 1) status)
  | .exitWokenInit p k status => s.goto p (.exitReparent (k + 1) status)
  | .exitReparented p status => s.goto p (.exitWakeParent 0 status)
  | .exitWakeParent p j status =>
    (s.wakeSlot (some p) j ((s.parent p).map .proc)).goto p (.exitWakeParent (j + 1) status)
  | .exitZombie p status =>
    { (s.setState p .zombie).goto p .sched with
      xstate := update s.xstate p status
      waitLock := none
      exited := ⟨s.uid p, s.pid p, status, (s.parent p).map s.uid⟩ :: s.exited }
  | .exitSwitch p => s.goto p .switched
  | .exitRelease p => s.goto p .off
  | .waitLock p addr => { s.goto p (.waitScan 0 false addr) with waitLock := some p }
  | .waitSkip p k havekids addr => s.goto p (.waitScan (k + 1) havekids addr)
  | .waitAlive p k _ addr => s.goto p (.waitScan (k + 1) true addr)
  | .waitCopyFail p _ _ _ => { s.goto p .user with waitLock := none }
  | .waitReap p k _ _ =>
    { (s.freeproc k).goto p .user with
      waitLock := none
      reaped := ⟨s.uid k, s.pid k, s.xstate k, s.uid p⟩ :: s.reaped }
  | .waitNone p _ _ => { s.goto p .user with waitLock := none }
  | .waitSleep p addr =>
    { (s.setState p .sleeping).goto p (.waitSleep addr) with
      chan := update s.chan p (some (.proc p))
      waitLock := none }
  | .waitTidy p addr => { s.goto p (.waitRelock addr) with chan := update s.chan p none }
  | .waitRelock p addr => { s.goto p (.waitScan 0 false addr) with waitLock := some p }

def Step (init : Fin n) (s : Life n) (e : LifeEvent n) (t : Life n) : Prop :=
  s.Enabled init e ∧ t = s.next init e

/-- The table as `userinit` leaves it: `initproc` is the only process. -/
def boot (init : Fin n) : Life n where
  state := update (fun _ => .unused) init .runnable
  chan := fun _ => none
  killed := fun _ => false
  xstate := fun _ => 0
  pid := update (fun _ => 0) init 1
  parent := fun _ => none
  pc := fun _ => .user
  waitLock := none
  nextpid := 2
  uid := fun _ => 0
  nextuid := 1
  exited := []
  reaped := []

end Life

end Xv6
