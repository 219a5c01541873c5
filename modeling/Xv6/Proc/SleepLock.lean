/-
**Sleep locks** (`kernel/sleeplock.c`): `acquiresleep` and `releasesleep` on one lock, with `sleep`,
`wakeup` and `kill` of `kernel/proc.c`, interleaved by any number of processes.

The steps are the sections under `lk->lk` and under a `p->lock`. `sleep` takes `p->lock` while it
holds `lk->lk` and keeps it until the process is `SLEEPING` and the scheduler lets it go; in
between, neither `wakeup` nor `kill` can look at the process (`SlPc.HoldsProcLock`). `wakeup` is
called with `lk->lk` held and takes one step per slot of the process table.

`SlInv` is kept by every step. The part that no wakeup is lost is `SlInv.sleepers`: while the lock
is free, every process on its way to sleep is still ahead of the scan of a `wakeup`.
-/

import Xv6.Lib.Run

namespace Xv6

open Lib Function

/-- Where a process is with respect to the sleep lock. -/
inductive SlPc
  /-- in neither function -/
  | idle
  /-- at `while (lk->locked)`, holding `lk->lk` -/
  | test
  /-- in `sleep`, holding `lk->lk` and `p->lock` -/
  | doze
  /-- in `sleep`, `lk->lk` released, `p->lock` held -/
  | dropped
  /-- `SLEEPING` on `lk`, `p->lock` released by the scheduler -/
  | asleep
  /-- `RUNNABLE` after a wakeup or a kill -/
  | woken
  /-- running again, at `acquire(lk)` in `sleep` -/
  | relock
  /-- between its `acquiresleep` and its `releasesleep` -/
  | held
  /-- in `releasesleep`, holding `lk->lk`, in `wakeup(lk)` at slot `j` -/
  | waking (j : Nat)
  deriving DecidableEq

def SlPc.HoldsLock : SlPc → Prop
  | .test | .doze | .waking _ => True
  | _ => False

def SlPc.HoldsProcLock : SlPc → Prop
  | .doze | .dropped => True
  | _ => False

/-- On the way to sleep, or asleep, with `lk->lk` released. -/
def SlPc.Sleeper : SlPc → Prop
  | .dropped | .asleep => True
  | _ => False

instance (pc : SlPc) : Decidable pc.HoldsProcLock := by
  cases pc <;> unfold SlPc.HoldsProcLock <;> infer_instance

def SlPc.wake : SlPc → SlPc
  | .asleep => .woken
  | pc => pc

inductive SlEvent (n : Nat)
  /-- `acquiresleep` takes `lk->lk` -/
  | acquire (p : Fin n)
  /-- the test of `lk->locked`: take the lock, or call `sleep`, which takes `p->lock` -/
  | test (p : Fin n)
  /-- `release(lk)` in `sleep` -/
  | drop (p : Fin n)
  /-- `p->state = SLEEPING`, and the switch to the scheduler -/
  | sleep (p : Fin n)
  /-- the scheduler runs it again -/
  | run (p : Fin n)
  /-- `acquire(lk)` at the end of `sleep` -/
  | relock (p : Fin n)
  /-- `releasesleep` takes `lk->lk` and clears the lock -/
  | release (p : Fin n)
  /-- one slot of `wakeup(lk)` -/
  | wake (p j : Fin n)
  /-- `wakeup` is done and `lk->lk` released -/
  | done (p : Fin n)
  /-- `kill` of a process, by anybody -/
  | kill (p : Fin n)

/-- `struct sleeplock`, with the processes. -/
structure SleepLock (n : Nat) where
  /-- the holder of `lk->lk` -/
  lk : Option (Fin n)
  locked : Bool
  pid : Int
  pc : Fin n → SlPc

namespace SleepLock

variable {n : Nat}

def goto (s : SleepLock n) (p : Fin n) (pc : SlPc) : SleepLock n :=
  { s with pc := update s.pc p pc }

def Enabled (s : SleepLock n) : SlEvent n → Prop
  | .acquire p => s.pc p = .idle ∧ s.lk = none
  | .test p => s.pc p = .test
  | .drop p => s.pc p = .doze
  | .sleep p => s.pc p = .dropped
  | .run p => s.pc p = .woken
  | .relock p => s.pc p = .relock ∧ s.lk = none
  | .release p => s.pc p = .held ∧ s.lk = none
  | .wake p j => s.pc p = .waking j ∧ (j ≠ p → ¬ (s.pc j).HoldsProcLock)
  | .done p => s.pc p = .waking n
  | .kill p => ¬ (s.pc p).HoldsProcLock

instance (s : SleepLock n) (e : SlEvent n) : Decidable (s.Enabled e) := by
  cases e <;> unfold Enabled <;> infer_instance

/-- What a section changes; `pids` are the processes' pids. -/
def next (pids : Fin n → Int) (s : SleepLock n) : SlEvent n → SleepLock n
  | .acquire p => { s.goto p .test with lk := some p }
  | .test p =>
    if s.locked then s.goto p .doze
    else { s.goto p .held with locked := true, pid := pids p, lk := none }
  | .drop p => { s.goto p .dropped with lk := none }
  | .sleep p => s.goto p .asleep
  | .run p => s.goto p .relock
  | .relock p => { s.goto p .test with lk := some p }
  | .release p => { s.goto p (.waking 0) with lk := some p, locked := false, pid := 0 }
  | .wake p j =>
    -- `p != myproc()`
    if j = p then s.goto p (.waking (j + 1)) else (s.goto j (s.pc j).wake).goto p (.waking (j + 1))
  | .done p => { s.goto p .idle with lk := none }
  | .kill p => s.goto p (s.pc p).wake

def Step (pids : Fin n → Int) (s : SleepLock n) (e : SlEvent n) (t : SleepLock n) : Prop :=
  s.Enabled e ∧ t = s.next pids e

def exec (pids : Fin n → Int) (s : SleepLock n) (e : SlEvent n) : Option (SleepLock n) :=
  if s.Enabled e then some (s.next pids e) else none

theorem Step.of_exec {pids : Fin n → Int} {s t : SleepLock n} {e : SlEvent n}
    (done : s.exec pids e = some t) : Step pids s e t := by
  unfold exec at done
  obtain ⟨guard, rfl⟩ := of_guard done
  exact ⟨‹_›, rfl⟩

def initial : SleepLock n where
  lk := none
  locked := false
  pid := 0
  pc := fun _ => .idle

def holdingsleep (pids : Fin n → Int) (s : SleepLock n) (p : Fin n) : Bool :=
  s.locked && s.pid = pids p

/-! ### The invariant -/

/-- **What every section keeps.** -/
structure SlInv (pids : Fin n → Int) (s : SleepLock n) : Prop where
  lk : ∀ p, (s.pc p).HoldsLock → s.lk = some p
  /-- the lock is taken exactly while a process is between the two calls -/
  holder : s.locked = true → ∃ p, s.pc p = .held
  held : ∀ p, s.pc p = .held → s.locked = true ∧ s.pid = pids p
  alone : ∀ p q, s.pc p = .held → s.pc q = .held → p = q
  doze : ∀ p, s.pc p = .doze → s.locked = true
  /-- who is about to sleep on a free lock will be reached by the scan of a `wakeup` -/
  sleepers : s.locked = false → ∀ q, (s.pc q).Sleeper → ∃ p j, s.pc p = .waking j ∧ j ≤ q.val

theorem slInv_initial (pids : Fin n → Int) : SlInv pids (initial : SleepLock n) where
  lk := nofun
  holder := nofun
  held := nofun
  alone := nofun
  doze := nofun
  sleepers := nofun

variable {pids : Fin n → Int} {s t : SleepLock n} {e : SlEvent n} {p : Fin n}

theorem goto_pc (s : SleepLock n) (p : Fin n) (pc : SlPc) : (s.goto p pc).pc = update s.pc p pc :=
  rfl

theorem SlInv.one_lk (inv : SlInv pids s) {q : Fin n} (first : (s.pc p).HoldsLock)
    (second : (s.pc q).HoldsLock) : p = q :=
  Option.some.inj ((inv.lk p first).symm.trans (inv.lk q second))

/-- A process moves to a point where it neither holds the lock nor scans, and did not before. -/
theorem SlInv.move (inv : SlInv pids s) {pc : SlPc} (lk : Option (Fin n))
    (mine : pc.HoldsLock → lk = some p) (others : ∀ q, q ≠ p → (s.pc q).HoldsLock → lk = some q)
    (wasFree : s.pc p ≠ .held ∧ ∀ j, s.pc p ≠ .waking j) (isFree : pc ≠ .held)
    (doze : pc = .doze → s.locked = true)
    (sleeper : pc.Sleeper → s.locked = true ∨ (s.pc p).Sleeper) :
    SlInv pids { s.goto p pc with lk := lk } where
  lk q := show (update s.pc p pc q).HoldsLock → _ from update_ind mine (others q)
  holder taken := by
    obtain ⟨q, isHeld⟩ := inv.holder taken
    have other : q ≠ p := fun same => wasFree.1 (same ▸ isHeld)
    exact ⟨q, (update_of_ne other _ _).trans isHeld⟩
  held q isHeld := inv.held q (of_update_eq isHeld isFree).2
  alone q r first second :=
  inv.alone q r (of_update_eq first isFree).2 (of_update_eq second isFree).2
  doze q := show update s.pc p pc q = .doze → _ from update_ind doze fun _ => inv.doze q
  sleepers free q sleeps := by
    have before : (s.pc q).Sleeper := by
      revert sleeps
      show (update s.pc p pc q).Sleeper → _
      refine update_ind (fun sleeps => ?_) fun _ sleeps => sleeps
      exact (sleeper sleeps).resolve_left (Bool.eq_false_iff.mp free)
    obtain ⟨r, j, wakes, ahead⟩ := inv.sleepers free q before
    have other : r ≠ p := fun same => wasFree.2 j (same ▸ wakes)
    exact ⟨r, j, (update_of_ne other _ _).trans wakes, ahead⟩

theorem SlInv.take (inv : SlInv pids s) (here : s.pc p = .test) (free : s.locked = false) :
    SlInv pids { s.goto p .held with locked := true, pid := pids p, lk := none } := by
  have unheld : ∀ q, s.pc q ≠ .held := fun q isHeld => by
    rw [(inv.held q isHeld).1] at free
    cases free
  have only : ∀ q, update s.pc p .held q = .held → q = p :=
    fun q => update_ind (fun _ => rfl) fun _ isHeld => absurd isHeld (unheld q)
  refine ⟨fun q => ?_, fun _ => ⟨p, update_self _ _ _⟩, fun q isHeld => ?_,
    fun q r first second => (only q first).trans (only r second).symm, fun _ _ => rfl, nofun⟩
  · -- nobody else holds `lk->lk`
    show (update s.pc p .held q).HoldsLock → _
    refine update_ind nofun fun other holds => ?_
    exact absurd (inv.one_lk holds (by rw [here]; trivial)) other
  · have same := only q isHeld
    exact ⟨rfl, by rw [same]⟩

/-- **The lock is given up**, and the scan of `wakeup` starts before every sleeper. -/
theorem SlInv.release (inv : SlInv pids s) (here : s.pc p = .held) (free : s.lk = none) :
    SlInv pids { s.goto p (.waking 0) with lk := some p, locked := false, pid := 0 } := by
  have unheld : ∀ q, update s.pc p (.waking 0) q ≠ .held :=
    fun q => update_ind nofun fun other isHeld => other (inv.alone q p isHeld here)
  have nobody : ∀ q, ¬ (s.pc q).HoldsLock := fun q holds => by
    rw [inv.lk q holds] at free
    cases free
  refine ⟨fun q => ?_, nofun, fun q isHeld => absurd isHeld (unheld q),
    fun q _ first _ => absurd first (unheld q), fun q dozes => ?_, fun _ q _ => ?_⟩
  · show (update s.pc p (.waking 0) q).HoldsLock → _
    exact update_ind (fun _ => rfl) fun _ holds => absurd holds (nobody q)
  · exact absurd (by rw [(of_update_eq dozes nofun).2]; trivial) (nobody q)
  · exact ⟨p, 0, update_self _ _ _, Nat.zero_le _⟩

theorem wake_of_ne {pc : SlPc} (awake : pc ≠ .asleep) : pc.wake = pc := by
  cases pc with
  | asleep => exact absurd rfl awake
  | _ => rfl

theorem SlInv.wakeOne (inv : SlInv pids s) (q : Fin n) : SlInv pids (s.goto q (s.pc q).wake) := by
  by_cases sleeps : s.pc q = .asleep
  · rw [sleeps]
    exact inv.move s.lk nofun (fun r _ holds => inv.lk r holds)
      ⟨by rw [sleeps]; nofun, by rw [sleeps]; nofun⟩ nofun nofun nofun
  · rw [wake_of_ne sleeps, goto, update_eq_self]
    exact inv

/-- **The scan passes a slot** whose process does not sleep, nor is about to. -/
theorem SlInv.scan (inv : SlInv pids s) {j : Nat} (here : s.pc p = .waking j)
    (passed : ∀ q : Fin n, q.val = j → ¬ (s.pc q).Sleeper) :
    SlInv pids (s.goto p (.waking (j + 1))) := by
  have free : s.pc p ≠ .held := by
    rw [here]
    nofun
  refine ⟨fun q => ?_, fun taken => ?_, fun q isHeld => inv.held q (of_update_eq isHeld nofun).2,
    fun q r first second =>
      inv.alone q r (of_update_eq first nofun).2 (of_update_eq second nofun).2,
    fun q dozes => inv.doze q (of_update_eq dozes nofun).2, fun isFree q sleeps => ?_⟩
  · rw [goto_pc]
    exact update_ind (fun _ => inv.lk p (by rw [here]; trivial)) fun _ => inv.lk q
  · obtain ⟨q, isHeld⟩ := inv.holder taken
    have other : q ≠ p := fun same => free (same ▸ isHeld)
    exact ⟨q, (update_of_ne other _ _).trans isHeld⟩
  · have other : q ≠ p := fun same => by
      rw [goto_pc, same, update_self] at sleeps
      exact sleeps
    rw [goto_pc, update_of_ne other] at sleeps
    obtain ⟨r, k, wakes, ahead⟩ := inv.sleepers isFree q sleeps
    have same : r = p := inv.one_lk (by rw [wakes]; trivial) (by rw [here]; trivial)
    rw [same, here] at wakes
    cases wakes
    have later : q.val ≠ j := fun there => passed q there sleeps
    exact ⟨p, j + 1, update_self _ _ _, by omega⟩

theorem SlInv.step (inv : SlInv pids s) (step : Step pids s e t) : SlInv pids t := by
  obtain ⟨enabled, rfl⟩ := step
  cases e with
  | acquire p =>
    obtain ⟨idle, free⟩ := enabled
    refine inv.move (some p) (fun _ => rfl) (fun q _ holds => ?_)
      ⟨by rw [idle]; nofun, by rw [idle]; nofun⟩
      nofun nofun nofun
    rw [inv.lk q holds] at free
    cases free
  | test p =>
    have here : s.pc p = .test := enabled
    have mine : s.lk = some p := inv.lk p (by rw [here]; trivial)
    rw [next]
    split
    · rename_i taken
      exact inv.move s.lk (fun _ => mine) (fun q _ holds => inv.lk q holds)
        ⟨by rw [here]; nofun, by rw [here]; nofun⟩ nofun (fun _ => taken) nofun
    · rename_i free
      exact inv.take here (Bool.eq_false_iff.mpr free)
  | drop p =>
    have here : s.pc p = .doze := enabled
    refine inv.move none nofun (fun q other holds => ?_) ⟨by rw [here]; nofun, by rw [here]; nofun⟩
      nofun nofun fun _ => .inl (inv.doze p here)
    exact absurd (inv.one_lk holds (by rw [here]; trivial)) other
  | sleep p =>
    have here : s.pc p = .dropped := enabled
    exact inv.move s.lk nofun (fun q _ holds => inv.lk q holds)
      ⟨by rw [here]; nofun, by rw [here]; nofun⟩ nofun nofun fun _ => .inr (by rw [here]; trivial)
  | run p =>
    have here : s.pc p = .woken := enabled
    exact inv.move s.lk nofun (fun q _ holds => inv.lk q holds)
      ⟨by rw [here]; nofun, by rw [here]; nofun⟩ nofun nofun nofun
  | relock p =>
    obtain ⟨here, free⟩ := enabled
    refine inv.move (some p) (fun _ => rfl) (fun q _ holds => ?_)
      ⟨by rw [here]; nofun, by rw [here]; nofun⟩
      nofun nofun nofun
    rw [inv.lk q holds] at free
    cases free
  | release p => exact inv.release enabled.1 enabled.2
  | wake p j =>
    obtain ⟨here, unlocked⟩ := enabled
    rw [next]
    split
    · rename_i same
      refine inv.scan here fun q there => ?_
      rw [Fin.ext there, same, here]
      exact id
    · rename_i other
      have still : (s.goto j (s.pc j).wake).pc p = .waking j := by
        rw [goto_pc, update_of_ne (Ne.symm other)]
        exact here
      refine (inv.wakeOne j).scan still fun q there sleeps => ?_
      -- the slot that was looked at: it was not locked, and if it slept it was woken
      rw [goto_pc, Fin.ext there, update_self] at sleeps
      have free := unlocked other
      revert sleeps free
      cases s.pc j with
      | dropped => exact fun _ free => free trivial
      | _ => exact fun sleeps _ => sleeps
  | done p =>
    have here : s.pc p = .waking n := enabled
    refine ⟨fun q => ?_, fun taken => ?_, fun q isHeld => inv.held q (of_update_eq isHeld nofun).2,
      fun q r first second =>
        inv.alone q r (of_update_eq first nofun).2 (of_update_eq second nofun).2,
      fun q dozes => inv.doze q (of_update_eq dozes nofun).2, fun free q sleeps => ?_⟩
    · show (update s.pc p .idle q).HoldsLock → _
      exact update_ind nofun
        fun other holds => absurd (inv.one_lk holds (by rw [here]; trivial)) other
    · obtain ⟨q, isHeld⟩ := inv.holder taken
      have other : q ≠ p := fun same => by
        rw [same, here] at isHeld
        cases isHeld
      exact ⟨q, (update_of_ne other _ _).trans isHeld⟩
    · -- the scan is past every slot, so there was nobody left to be woken
      exfalso
      have other : q ≠ p := fun same => by
        simp only [next, goto_pc, same, update_self] at sleeps
        exact sleeps
      simp only [next, goto_pc, update_of_ne other] at sleeps
      obtain ⟨r, k, wakes, ahead⟩ := inv.sleepers free q sleeps
      have same : r = p := inv.one_lk (by rw [wakes]; trivial) (by rw [here]; trivial)
      rw [same, here] at wakes
      cases wakes
      exact Nat.not_le_of_lt q.isLt ahead
  | kill p => exact inv.wakeOne p

/-- **The sleep lock**: after any sections of any processes, at most one process is between its
`acquiresleep` and its `releasesleep`; the lock is taken exactly while there is one, with its pid,
so `holdingsleep` is true exactly for it; and no process sleeps on a lock that is free. -/
theorem sleep_lock (distinct : Function.Injective pids) {trace : List (SlEvent n)}
    (run : Run (Step pids) initial trace s) :
    (∀ p q, s.pc p = .held → s.pc q = .held → p = q) ∧
    (s.locked = true → ∃ p, s.pc p = .held ∧ s.pid = pids p) ∧
    (∀ p, s.holdingsleep pids p = true ↔ s.pc p = .held) ∧
    (s.lk = none → s.locked = false → ∀ p, s.pc p ≠ .asleep) := by
  have inv : SlInv pids s := Run.inv (slInv_initial pids) SlInv.step run
  refine ⟨inv.alone, fun taken => ?_, fun p => ?_, fun unlocked free p sleeps => ?_⟩
  · obtain ⟨p, isHeld⟩ := inv.holder taken
    exact ⟨p, isHeld, (inv.held p isHeld).2⟩
  · rw [holdingsleep, Bool.and_eq_true, decide_eq_true_iff]
    constructor
    · rintro ⟨taken, same⟩
      obtain ⟨q, isHeld⟩ := inv.holder taken
      have isP : q = p := distinct ((inv.held q isHeld).2.symm.trans same)
      exact isP ▸ isHeld
    · exact inv.held p
  · obtain ⟨q, j, wakes, -⟩ := inv.sleepers free p (by rw [sleeps]; trivial)
    rw [inv.lk q (by rw [wakes]; trivial)] at unlocked
    cases unlocked

/-- Process `p` takes the lock, process `q` sleeps on it, is killed, sleeps again, and gets the lock
when process `p` gives it up. -/
def handOver (p q : Fin 2) : List (SlEvent 2) :=
  [.acquire p, .test p, .acquire q, .test q, .drop q, .sleep q, .kill q, .run q, .relock q, .test q,
    .drop q, .release p, .wake p p, .sleep q, .wake p q, .done p, .run q, .relock q, .test q]

theorem sleep_lock_handOver : ∃ s : SleepLock 2,
    Run (Step fun p => p.val + 1) initial (handOver 0 1) s ∧ s.pc 1 = .held ∧
      (∀ p, s.holdingsleep (fun p => p.val + 1) p = true ↔ s.pc p = .held) := by
  obtain ⟨s, run, seen⟩ := run_of_observed (fun s : SleepLock 2 => s.pc 1)
    (show (execAll (exec fun p => p.val + 1) (handOver 0 1) initial).map (fun s => s.pc 1) =
      some .held by decide)
  have steps := run.mono Step.of_exec
  have distinct : Function.Injective fun p : Fin 2 => (p.val + 1 : Int) := by
    intro p q same
    simp only at same
    omega
  exact ⟨s, steps, seen, (sleep_lock distinct steps).2.2.1⟩

end SleepLock

end Xv6
