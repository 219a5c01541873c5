/-
**Scheduling exclusivity**: over every run of the CPUs, a process is executed by one CPU at a time
and `sched` finds what it tests for.

The invariant has three parts, each over the fields that it is about.

* `LocksFit`: which locks a CPU holds follows from the thread that it executes (`Thread.heldLock`,
  `Thread.Holding`), `noff` counts them, and interrupts are off while it is positive.
* `RunsFit`: `c->proc` is the process of the thread, no two CPUs execute the same process, and its
  state is the one that belongs to the point it is at (`Thread.Fits`).
* `ContextsFit`: a process that no CPU executes and that may run again has a saved context that was
  not loaded yet.

`p->lock` is held exactly while the state may be another than `RUNNING` with a CPU on the process:
this is what `Thread.running_of_unlocked` says, and why a section under a free lock of a process
that is `SLEEPING`, `RUNNABLE` or `ZOMBIE` meets no CPU that executes it.
-/

import Xv6.Proc.Sched

set_option linter.unusedSectionVars false

namespace Xv6

open Lib
open Function (update update_self update_of_ne update_eq_self update_apply update_idem)

/-- A context that may be loaded: not that of `exit`. -/
def Resume.Alive {L : Type} : Resume L → Prop
  | .sched .exit _ => False
  | _ => True

namespace Thread

variable {L : Type} {n : Nat}

/-- The process that the thread belongs to, or that the scheduler is switching to or from. -/
def process : Thread L n → Option (Fin n)
  | .top | .scan _ | .idleHandler _ => none
  | .switchTo p | .loadProc p | .back p | .run p _ => some p

/-- The `p->lock` that is held at this point. -/
def heldLock : Thread L n → Option (Fin n)
  | .switchTo p | .loadProc p | .back p => some p
  | .run p (.sleepLocked _ _) | .run p .exitLocked | .run p (.sched _) | .run p (.saving _ _)
  | .run p .leaving | .run p (.resumed _) => some p
  | _ => none

/-- The other spinlocks that are held at this point: any, the one that is passed to `sleep`,
`wait_lock`, or none. -/
def Holding (waitLock : L) (held : L → Prop) : Thread L n → Prop
  | .idleHandler _ | .run _ .kernel | .run _ .handler => True
  | .run _ (.sleepLocked lk _) => ∀ l, held l ↔ l = lk
  | .run _ .exiting | .run _ .exitLocked => ∀ l, held l ↔ l = waitLock
  | _ => ∀ l, ¬ held l

/-- The process whose registers are in the CPU, from the load of its context to the next save. -/
def live : Thread L n → Option (Fin n)
  | .run _ .leaving => none
  | .run p _ => some p
  | _ => none

/-- The slot that the scheduler of the CPU will go on with. -/
def returnsTo : Thread L n → Option (Fin n)
  | .loadProc p | .run p _ => some p
  | _ => none

/-- The states that the process of a thread can have at this point. -/
def Fits (st : ProcState) : Thread L n → Prop
  | .top | .scan _ | .idleHandler _ => True
  | .switchTo _ | .loadProc _ => st = .running
  | .back _ | .run _ .leaving => st = .runnable ∨ st = .sleeping ∨ st = .zombie
  | .run _ .exitLocked => st = .zombie
  | .run _ (.sched caller) | .run _ (.saving caller _) => st = caller.state
  | .run _ (.resumed r) => st = .running ∧ r.Alive
  | .run _ _ => st = .running

variable {t : Thread L n} {p : Fin n}

theorem process_of_heldLock (held : t.heldLock = some p) : t.process = some p := by
  unfold heldLock at held
  split at held <;> first | exact held | cases held

theorem process_of_live (isLive : t.live = some p) : t.process = some p := by
  unfold live at isLive
  split at isLive <;> first | exact isLive | cases isLive

theorem running_of_unlocked {st : ProcState} (here : t.process = some p)
    (unlocked : t.heldLock = none) (fits : t.Fits st) : st = .running := by
  cases t with
  | top | scan k | idleHandler k => cases here
  | switchTo q | loadProc q | back q => cases unlocked
  | run q point =>
    cases point with
    | user | trap | kernel | handler | yielding | exiting => exact fits
    | sleepLocked | exitLocked | sched | saving | leaving | resumed => cases unlocked

theorem Locking.holding (locking : t.Locking) (waitLock : L) (held : L → Prop) :
    t.Holding waitLock held := by
  unfold Locking at locking
  split at locking
  · trivial
  · trivial
  · trivial
  · cases locking

end Thread

namespace Sched

variable {C L : Type} {n : Nat} [DecidableEq C] [DecidableEq L] [Fintype L]

/-! ### Locks -/

structure LocksFit (waitLock : L) (thread : C → Thread L n) (lock : Fin n → Option C)
    (lk : L → Option C) (noff : C → Int) (intr : C → Bool) : Prop where
  held : ∀ c p, lock p = some c ↔ (thread c).heldLock = some p
  holding : ∀ c, (thread c).Holding waitLock fun l => lk l = some c
  count : ∀ c, noff c = holders lk c + holders lock c
  quiet : ∀ c, 0 < noff c → intr c = false

namespace LocksFit

variable {waitLock : L} {thread : C → Thread L n} {lock : Fin n → Option C} {lk : L → Option C}
  {noff : C → Int} {intr : C → Bool} {c : C} {p : Fin n} {l : L} {t : Thread L n}

section

variable (fit : LocksFit waitLock thread lock lk noff intr)

include fit

/-- A CPU at a point where it holds no lock has interrupts as they were before `push_off`. -/
theorem noff_eq_zero (unlocked : (thread c).heldLock = none) (bare : ∀ l, lk l ≠ some c) :
    noff c = 0 := by
  rw [fit.count c, holders_eq_zero bare, holders_eq_zero]
  · rfl
  · intro q held
    rw [fit.held, unlocked] at held
    cases held

theorem noff_eq_one (held : (thread c).heldLock = some p) (bare : ∀ l, lk l ≠ some c) :
    noff c = 1 := by
  have only : ∀ q, lock q = some c ↔ q = p := by
    intro q
    rw [fit.held, held, Option.some_inj]
    exact eq_comm
  rw [fit.count c, holders_eq_zero bare, holders_eq_one only]
  rfl

theorem holding_goto (holding : t.Holding waitLock fun l => lk l = some c) (d : C) :
    (update thread c t d).Holding waitLock fun l => lk l = some d := by
  exact update_ind holding fun _ => fit.holding d

theorem held_goto (same : t.heldLock = (thread c).heldLock) (d : C) (p : Fin n) :
    lock p = some d ↔ (update thread c t d).heldLock = some p := by
  refine update_ind ?_ fun _ => fit.held d p
  rw [same]
  exact fit.held c p

theorem goto (same : t.heldLock = (thread c).heldLock)
    (holding : t.Holding waitLock fun l => lk l = some c) :
    LocksFit waitLock (update thread c t) lock lk noff intr :=
  ⟨fit.held_goto same, fit.holding_goto holding, fit.count, fit.quiet⟩

theorem setIntr {on : Bool} (allowed : on = true → noff c = 0) :
    LocksFit waitLock thread lock lk noff (update intr c on) where
  held := fit.held
  holding := fit.holding
  count := fit.count
  quiet d := by
    refine update_ind (fun positive => ?_) fun _ => fit.quiet d
    cases on with
    | false => rfl
    | true =>
      rw [allowed rfl] at positive
      cases positive

end

theorem quiet_push (quiet : ∀ d, 0 < noff d → intr d = false) (c : C) :
    ∀ d, 0 < update noff c (noff c + 1) d → update intr c false d = false := by
  intro d
  refine update_ind (fun _ => update_self ..) fun here => ?_
  rw [update_of_ne here]
  exact quiet d

theorem quiet_pop (quiet : ∀ d, 0 < noff d → intr d = false) (c : C) (intena : Bool) :
    ∀ d, 0 < update noff c (noff c - 1) d →
      (if noff c - 1 = 0 ∧ intena = true then update intr c true else intr) d = false := by
  intro d
  refine update_ind (fun positive => ?_) fun here positive => ?_
  · rw [if_neg (by omega)]
    exact quiet c (by omega)
  · have same := quiet d positive
    split
    · rwa [update_of_ne here]
    · exact same

theorem count_push {a b : C → Int} {k : Int} {d : C} (count : noff d = a d + b d)
    (atC : noff c + k = a c + (b c + k)) :
    update noff c (noff c + k) d = a d + update b c (b c + k) d := by
  revert count
  refine update_ind (fun _ => ?_) fun here count => ?_
  · rw [update_self]
    exact atC
  · rw [update_of_ne here]
    exact count

section

variable (fit : LocksFit waitLock thread lock lk noff intr)

include fit

theorem acquireProc (free : lock p = none) (unlocked : (thread c).heldLock = none)
    (takes : t.heldLock = some p) (holding : t.Holding waitLock fun l => lk l = some c) :
    LocksFit waitLock (update thread c t) (update lock p (some c)) lk
      (update noff c (noff c + 1)) (update intr c false) where
  held d q := by
    have before := fit.held d q
    by_cases here : d = c
    · subst here
      rw [update_self, takes, Option.some_inj]
      rw [unlocked] at before
      refine update_ind (by simp) fun same => ?_
      exact ⟨fun held => absurd (before.mp held) nofun, fun isP => absurd isP.symm same⟩
    · rw [update_of_ne here]
      revert before
      refine update_ind (fun before => ?_) fun _ before => before
      refine ⟨fun held => absurd (Option.some.inj held).symm here, fun held => ?_⟩
      rw [before.mpr held] at free
      cases free
  holding := fit.holding_goto holding
  count d := by
    rw [holders_take free]
    exact count_push (fit.count d) (by rw [fit.count c]; omega)
  quiet := quiet_push fit.quiet c

theorem releaseProc (held : (thread c).heldLock = some p) (drops : t.heldLock = none)
    (holding : t.Holding waitLock fun l => lk l = some c) (intena : Bool) :
    LocksFit waitLock (update thread c t) (update lock p none) lk
      (update noff c (noff c - 1))
      (if noff c - 1 = 0 ∧ intena = true then update intr c true else intr) where
  held d q := by
    have before := fit.held d q
    have owner := (fit.held c p).mpr held
    by_cases here : d = c
    · subst here
      rw [update_self, drops]
      rw [held, Option.some_inj] at before
      exact update_ind (by simp) fun same => ⟨fun held => absurd (before.mp held).symm same, nofun⟩
    · rw [update_of_ne here]
      revert before
      refine update_ind (fun before => ⟨nofun, fun held => ?_⟩) fun _ before => before
      rw [before.mpr held, Option.some_inj] at owner
      exact absurd owner here
  holding := fit.holding_goto holding
  count d := by
    rw [holders_drop ((fit.held c p).mpr held)]
    exact count_push (fit.count d) (by rw [fit.count c]; omega)
  quiet := quiet_pop fit.quiet c intena

/-- What the other CPUs hold does not change with a lock that is free or held by this one. -/
theorem holding_set {v : Option C} (notOther : ∀ d, d ≠ c → lk l ≠ some d)
    (mine : v = none ∨ v = some c) (holding : t.Holding waitLock fun k => update lk l v k = some c)
    (d : C) : (update thread c t d).Holding waitLock fun k => update lk l v k = some d := by
  by_cases here : d = c
  · subst here
    rw [update_self]
    exact holding
  have same : (fun k => update lk l v k = some d) = fun k => lk k = some d := by
    funext k
    refine update_ind ?_ fun _ => rfl
    have before := notOther d here
    obtain rfl | rfl := mine
    · simp [before]
    · simp [before, Ne.symm here]
  rw [update_of_ne here, same]
  exact fit.holding d

theorem acquire (free : lk l = none) (same : t.heldLock = (thread c).heldLock)
    (holding : t.Holding waitLock fun k => update lk l (some c) k = some c) :
    LocksFit waitLock (update thread c t) lock (update lk l (some c))
      (update noff c (noff c + 1)) (update intr c false) where
  held := fit.held_goto same
  holding := fit.holding_set (fun _ _ => by rw [free]; nofun) (.inr rfl) holding
  count d := by
    rw [holders_take free]
    have swapped := (fit.count d).trans (add_comm _ _)
    exact (count_push swapped (by rw [fit.count c]; omega)).trans (add_comm _ _)
  quiet := quiet_push fit.quiet c

theorem release (held : lk l = some c) (same : t.heldLock = (thread c).heldLock)
    (holding : t.Holding waitLock fun k => update lk l none k = some c) (intena : Bool) :
    LocksFit waitLock (update thread c t) lock (update lk l none) (update noff c (noff c - 1))
      (if noff c - 1 = 0 ∧ intena = true then update intr c true else intr) where
  held := fit.held_goto same
  holding := by
    refine fit.holding_set (fun e other isE => ?_) (.inl rfl) holding
    rw [held] at isE
    exact other (Option.some.inj isE).symm
  count d := by
    rw [holders_drop held]
    have swapped := (fit.count d).trans (add_comm _ _)
    exact (count_push swapped (by rw [fit.count c]; omega)).trans (add_comm _ _)
  quiet := quiet_pop fit.quiet c intena

theorem underLock (free : lock p = none) (intena : Bool) :
    LocksFit waitLock thread (update (update lock p (some c)) p none) lk
      (update (update noff c (noff c + 1)) c
        (update noff c (noff c + 1) c - 1))
      (if update noff c (noff c + 1) c - 1 = 0 ∧ intena = true then
        update (update intr c false) c true else update intr c false) := by
  have sameLock : update (update lock p (some c)) p none = lock := by
    rw [update_idem, ← free, update_eq_self]
  have sameNoff : update (update noff c (noff c + 1)) c
      (update noff c (noff c + 1) c - 1) = noff := by
    rw [update_self, update_idem, Int.add_sub_cancel, update_eq_self]
  rw [sameLock, sameNoff, update_self, Int.add_sub_cancel]
  refine ⟨fit.held, fit.holding, fit.count, ?_⟩
  split
  · rename_i bottom
    rw [update_idem]
    exact (fit.setIntr fun _ => bottom.1).quiet
  · have off : LocksFit waitLock thread lock lk noff (update intr c false) :=
      fit.setIntr nofun
    exact off.quiet

end

end LocksFit

/-! ### Processes -/

structure RunsFit (thread : C → Thread L n) (proc : C → Option (Fin n)) (state : Fin n → ProcState)
    (cpuContext : C → Option (Fin n)) : Prop where
  proc : ∀ c, proc c = (thread c).process
  alone : ∀ {c d p}, (thread c).process = some p → (thread d).process = some p → c = d
  fits : ∀ {c p}, (thread c).process = some p → (thread c).Fits (state p)
  placed : ∀ p, state p = .running → ∃ c, (thread c).process = some p
  returns : ∀ {c p}, (thread c).returnsTo = some p → cpuContext c = some p

namespace RunsFit

variable {thread : C → Thread L n} {proc : C → Option (Fin n)} {state : Fin n → ProcState}
  {cpuContext : C → Option (Fin n)} {c : C} {p q : Fin n} {t : Thread L n} {st : ProcState}

section

variable (fit : RunsFit thread proc state cpuContext)

include fit

/-- **One CPU moves.** What it executes has to fit `c->proc`, the states and `c->context` then, and
no process that another CPU executes changes. -/
theorem step {proc' cpuContext' : C → Option (Fin n)} {state' : Fin n → ProcState}
    (mine : proc' c = t.process)
    (theirs : ∀ d, d ≠ c → proc' d = proc d ∧ cpuContext' d = cpuContext d ∧
      ∀ q, (thread d).process = some q → t.process ≠ some q ∧ state' q = state q)
    (fits : ∀ q, t.process = some q → t.Fits (state' q))
    (placed : ∀ q, state' q = .running → t.process = some q ∨ ∃ d, d ≠ c ∧
      (thread d).process = some q)
    (returns : ∀ {q}, t.returnsTo = some q → cpuContext' c = some q) :
    RunsFit (update thread c t) proc' state' cpuContext' := by
  have self : update thread c t c = t := update_self ..
  have rest : ∀ {d}, d ≠ c → update thread c t d = thread d := fun other => update_of_ne other ..
  refine ⟨fun d => ?_, fun {d e q} first second => ?_, fun {d q} onD => ?_, fun q running => ?_,
    fun {d q} back => ?_⟩
  · exact update_ind mine fun other => (theirs d other).1.trans (fit.proc d)
  · by_cases firstC : d = c
    · by_cases secondC : e = c
      · rw [firstC, secondC]
      · rw [firstC, self] at first
        rw [rest secondC] at second
        exact absurd first ((theirs e secondC).2.2 q second).1
    · rw [rest firstC] at first
      by_cases secondC : e = c
      · rw [secondC, self] at second
        exact absurd second ((theirs d firstC).2.2 q first).1
      · rw [rest secondC] at second
        exact fit.alone first second
  · revert onD
    refine update_ind (fits q) fun other onD => ?_
    rw [((theirs d other).2.2 q onD).2]
    exact fit.fits onD
  · rcases placed q running with here | ⟨d, other, onD⟩
    · exact ⟨c, by rwa [self]⟩
    · exact ⟨d, by rwa [rest other]⟩
  · revert back
    exact update_ind returns fun other back => (theirs d other).2.1.trans (fit.returns back)

theorem placed_elsewhere (running : state q = .running) (notHere : (thread c).process ≠ some q) :
    ∃ d, d ≠ c ∧ (thread d).process = some q := by
  obtain ⟨d, onD⟩ := fit.placed q running
  exact ⟨d, fun isC => notHere (isC ▸ onD), onD⟩

theorem move (here : (thread c).process = some p) (stays : t.process = some p) (fits : t.Fits st)
    (returns : ∀ {q}, t.returnsTo = some q → cpuContext c = some q) :
    RunsFit (update thread c t) proc (update state p st) cpuContext := by
  refine fit.step ((fit.proc c).trans (here.trans stays.symm))
    (fun d other => ⟨rfl, rfl, fun q onD => ?_⟩)
    (fun q onC => ?_) (fun q running => ?_) returns
  · have notP : q ≠ p := fun isP => other (fit.alone onD (isP ▸ here))
    rw [stays, update_of_ne notP]
    exact ⟨fun isQ => notP (Option.some.inj isQ).symm, rfl⟩
  · cases stays.symm.trans onC
    rwa [update_self]
  · by_cases isP : q = p
    · exact .inl (isP ▸ stays)
    · rw [update_of_ne isP] at running
      exact .inr
        (fit.placed_elsewhere running fun onC => isP (Option.some.inj (onC.symm.trans here)))

theorem goto (same : t.process = (thread c).process) (fits : ∀ st, (thread c).Fits st → t.Fits st)
    (returns : ∀ {q}, t.returnsTo = some q → cpuContext c = some q) :
    RunsFit (update thread c t) proc state cpuContext := by
  refine fit.step ((fit.proc c).trans same.symm)
    (fun d other => ⟨rfl, rfl, fun q onD => ⟨fun onC => ?_, rfl⟩⟩)
    (fun q onC => fits _ (fit.fits (same.symm.trans onC))) (fun q running => ?_) returns
  · exact other (fit.alone onD (same.symm.trans onC))
  · by_cases onC : t.process = some q
    · exact .inl onC
    · exact .inr (fit.placed_elsewhere running (same ▸ onC))

theorem saveCpu (here : thread c = .switchTo p) :
    RunsFit (update thread c (.loadProc p)) proc state (update cpuContext c (some p)) := by
  have unsaved : RunsFit thread proc state (update cpuContext c (some p)) := by
    refine ⟨fit.proc, fit.alone, fit.fits, fit.placed, fun {d q} back => ?_⟩
    have other : d ≠ c := by
      intro isC
      rw [isC, here] at back
      cases back
    rw [update_of_ne other]
    exact fit.returns back
  refine unsaved.goto (by rw [here]; rfl) (by rw [here]; exact fun _ => id) fun back => ?_
  rw [update_self]
  exact back

theorem pick (idle : (thread c).process = none) (nowhere : ∀ d, (thread d).process ≠ some p) :
    RunsFit (update thread c (.switchTo p)) (update proc c (some p))
      (update state p .running) cpuContext := by
  refine fit.step (update_self ..) (fun d other => ⟨update_of_ne other .., rfl, fun q onD => ?_⟩)
    (fun q onC => ?_) (fun q running => ?_) nofun
  · have notP : p ≠ q := fun isP => nowhere d (isP ▸ onD)
    exact ⟨fun isP => notP (Option.some.inj isP), update_of_ne notP.symm ..⟩
  · cases onC
    rw [update_self]
    rfl
  · by_cases isP : q = p
    · exact .inl (isP ▸ rfl)
    · rw [update_of_ne isP] at running
      exact .inr (fit.placed_elsewhere running (by rw [idle]; nofun))

theorem finish (here : (thread c).process = some p) (stopped : state p ≠ .running) (k : Nat) :
    RunsFit (update thread c (.scan k)) (update proc c none) state cpuContext := by
  refine fit.step (update_self ..)
    (fun d other => ⟨update_of_ne other .., rfl, fun q onD => ⟨nofun, rfl⟩⟩) nofun
    (fun q running => .inr (fit.placed_elsewhere running fun onC => ?_)) nofun
  cases here.symm.trans onC
  exact stopped running

theorem setState (nowhere : ∀ d, (thread d).process ≠ some q) (stopped : st ≠ .running) :
    RunsFit thread proc (update state q st) cpuContext := by
  refine ⟨fit.proc, fit.alone, fun {d r} onD => ?_, fun r running => ?_, fit.returns⟩
  · have other : r ≠ q := fun isQ => nowhere d (isQ ▸ onD)
    rw [update_of_ne other]
    exact fit.fits onD
  · exact fit.placed r (of_update_eq running stopped).2

end

end RunsFit

/-! ### Contexts -/

/-- The saved context of a process may be loaded. -/
def Ready (context : Fin n → Option (Resume L)) (stamp : Fin n → Nat) (resumed : List (Fin n × Nat))
    (p : Fin n) : Prop :=
  ∃ r, context p = some r ∧ r.Alive ∧ (p, stamp p) ∉ resumed

/-- **The contexts of the processes that no CPU executes.** -/
structure ContextsFit (thread : C → Thread L n) (state : Fin n → ProcState)
    (context : Fin n → Option (Resume L)) (stamp : Fin n → Nat) (resumed : List (Fin n × Nat)) :
    Prop where
  ready : ∀ p, (∀ c, (thread c).live ≠ some p) → state p ≠ .unused → state p ≠ .zombie →
    Ready context stamp resumed p
  past : ∀ e ∈ resumed, e.2 ≤ stamp e.1
  once : resumed.Nodup

namespace ContextsFit

variable {thread : C → Thread L n} {state : Fin n → ProcState} {context : Fin n → Option (Resume L)}
  {stamp : Fin n → Nat} {resumed : List (Fin n × Nat)} {c : C} {p : Fin n} {t : Thread L n}
  {st : ProcState} {r : Resume L}

section

variable (fit : ContextsFit thread state context stamp resumed)

include fit

theorem goto (same : t.live = (thread c).live) :
    ContextsFit (update thread c t) state context stamp resumed := by
  refine ⟨fun p off => fit.ready p fun d onD => off d ?_, fit.past, fit.once⟩
  rw [← onD]
  exact update_ind same fun _ => rfl

theorem setState (before : st ≠ .unused → st ≠ .zombie → state p ≠ .unused ∧ state p ≠ .zombie) :
    ContextsFit thread (update state p st) context stamp resumed := by
  refine ⟨fun q off => ?_, fit.past, fit.once⟩
  revert off
  refine update_ind (fun off used alive => ?_) fun _ => fit.ready q
  exact fit.ready p off (before used alive).1 (before used alive).2

theorem load (idle : (thread c).live = none) (loads : t.live = some p)
    (fresh : (p, stamp p) ∉ resumed) :
    ContextsFit (update thread c t) state context stamp (resumed ++ [(p, stamp p)]) := by
  refine ⟨fun q off used alive => ?_, fun e member => ?_, ?_⟩
  · have other : q ≠ p := by
      intro isP
      refine off c ?_
      rw [update_self, loads, isP]
    have offBefore : ∀ d, (thread d).live ≠ some q := by
      intro d onD
      refine off d ?_
      revert onD
      exact update_ind (fun onC => nomatch idle.symm.trans onC) fun _ => id
    obtain ⟨r, saved, isAlive, unread⟩ := fit.ready q offBefore used alive
    refine ⟨r, saved, isAlive, fun member => ?_⟩
    obtain old | new := List.mem_append.mp member
    · exact unread old
    · exact other (congrArg Prod.fst (List.mem_singleton.mp new))
  · obtain old | new := List.mem_append.mp member
    · exact fit.past e old
    · rw [List.mem_singleton.mp new]
  · exact List.Nodup.append fit.once (List.nodup_singleton _)
      (List.disjoint_singleton.mpr fresh)

/-- A context is stored: by a thread that leaves the CPU, or by `allocproc`. -/
theorem store {thread' : C → Thread L n}
    (others : ∀ q, q ≠ p → (∀ d, (thread' d).live ≠ some q) → ∀ d, (thread d).live ≠ some q)
    (alive : st ≠ .zombie → r.Alive) :
    ContextsFit thread' (update state p st) (update context p (some r))
      (update stamp p (stamp p + 1)) resumed := by
  refine ⟨fun q off used isAlive => ?_, fun e member => ?_, fit.once⟩
  · by_cases isP : q = p
    · subst isP
      rw [update_self] at isAlive
      refine ⟨r, update_self .., alive isAlive, fun member => ?_⟩
      have bound := fit.past _ member
      rw [update_self] at bound
      simp only at bound
      omega
    · rw [update_of_ne isP] at used isAlive
      rw [Ready, update_of_ne isP, update_of_ne isP]
      exact fit.ready q (others q isP off) used isAlive
  · have bound := fit.past e member
    revert bound
    exact update_ind Nat.le_succ_of_le fun _ => id

end

end ContextsFit

/-! ### Steps -/

structure SchedInv (waitLock : L) (s : Sched C L n) : Prop where
  locks : LocksFit waitLock s.thread s.lock s.lk s.noff s.intr
  runs : RunsFit s.thread s.proc s.state s.cpuContext
  contexts : ContextsFit s.thread s.state s.context s.stamp s.resumed
  calm : s.panicked = none

theorem schedInv_initial (waitLock : L) (init : Fin n) :
    SchedInv waitLock (initial init : Sched C L n) := by
  refine ⟨⟨fun _ _ => ⟨nofun, nofun⟩, nofun, fun _ => ?_, fun _ _ => rfl⟩,
    ⟨fun _ => rfl, nofun, nofun, fun p running => ?_, nofun⟩,
    ⟨fun p _ used _ => ?_, nofun, ?_⟩, rfl⟩
  · show (0 : Int) = holders (fun _ => none) _ + holders (fun _ => none) _
    rw [holders_eq_zero (by nofun), holders_eq_zero (by nofun)]
    rfl
  · simp only [initial, update_apply] at running
    split at running <;> cases running
  · by_cases isInit : p = init
    · exact ⟨.forkret, by simp [initial, isInit], trivial, List.not_mem_nil⟩
    · exact absurd (by simp [initial, isInit]) used
  · exact List.nodup_nil

namespace SchedInv

variable {waitLock : L} {s : Sched C L n} {c : C} {p q : Fin n} {old t : Thread L n}
  {st : ProcState}

section

variable (inv : SchedInv waitLock s)

include inv

/-- A process whose lock is free and that is not `RUNNING` is not executed by any CPU. -/
theorem nowhere (free : s.lock q = none) (stopped : s.state q ≠ .running) (d : C) :
    (s.thread d).process ≠ some q := by
  intro onD
  refine stopped (Thread.running_of_unlocked onD ?_ (inv.runs.fits onD))
  cases held : (s.thread d).heldLock with
  | none => rfl
  | some r =>
    -- the only lock that it can hold is that of its process
    cases onD.symm.trans (Thread.process_of_heldLock held)
    rw [(inv.locks.held d q).mpr held] at free
    cases free

theorem relock (here : s.thread c = old) {lock : Fin n → Option C} {lk : L → Option C}
    {noff : C → Int} {intr intena : C → Bool} {chan : Fin n → Option Nat}
    (locks : LocksFit waitLock (update s.thread c t) lock lk noff intr)
    (process : t.process = old.process) (fits : ∀ st, old.Fits st → t.Fits st)
    (returns : ∀ {p}, t.returnsTo = some p → old.returnsTo = some p) (live : t.live = old.live) :
    SchedInv waitLock { s with
      thread := update s.thread c t, lock := lock, lk := lk, noff := noff, intr := intr,
      intena := intena, chan := chan } := by
  subst here
  exact ⟨locks, inv.runs.goto process fits fun back => inv.runs.returns (returns back),
    inv.contexts.goto live, inv.calm⟩

theorem goto (here : s.thread c = old) (process : t.process = old.process)
    (held : t.heldLock = old.heldLock) (holding : t.Holding waitLock fun l => s.lk l = some c)
    (fits : ∀ st, old.Fits st → t.Fits st)
    (returns : ∀ {p}, t.returnsTo = some p → old.returnsTo = some p) (live : t.live = old.live) :
    SchedInv waitLock (s.goto c t) := by
  subst here
  exact inv.relock rfl (inv.locks.goto held holding) process fits returns live

theorem intrOff (c : C) : SchedInv waitLock (s.setIntr c false) :=
  ⟨inv.locks.setIntr nofun, inv.runs, inv.contexts, inv.calm⟩

theorem intrOn (here : s.thread c = old) (unlocked : old.heldLock = none) (bare : s.Bare c) :
    SchedInv waitLock (s.setIntr c true) :=
  ⟨inv.locks.setIntr fun _ => inv.locks.noff_eq_zero (here ▸ unlocked) bare, inv.runs, inv.contexts,
    inv.calm⟩

theorem holding (here : s.thread c = old) : old.Holding waitLock fun l => s.lk l = some c := by
  subst here
  exact inv.locks.holding c

/-- The state of a process that is executed fits the point it is at. -/
theorem fits (here : s.thread c = old) (process : old.process = some p) : old.Fits (s.state p) := by
  subst here
  exact inv.runs.fits process

theorem bare (here : s.thread c = old)
    (nothing : ∀ held, old.Holding waitLock held → ∀ l, ¬ held l) : s.Bare c :=
  nothing _ (inv.holding here)

theorem underLock (free : s.lock q = none)
    (runs : RunsFit s.thread s.proc (update s.state q st) s.cpuContext)
    (contexts : ContextsFit s.thread (update s.state q st) s.context s.stamp s.resumed) :
    SchedInv waitLock (s.underLock c q st) :=
  ⟨inv.locks.underLock free _, runs, contexts, inv.calm⟩

theorem other (free : s.lock q = none) (stopped : s.state q ≠ .running) (stays : st ≠ .running)
    (before : st ≠ .unused → st ≠ .zombie → s.state q ≠ .unused ∧ s.state q ≠ .zombie) :
    SchedInv waitLock (s.underLock c q st) :=
  inv.underLock free (inv.runs.setState (inv.nowhere free stopped) stays)
    (inv.contexts.setState before)

theorem touch (free : s.lock q = none) : SchedInv waitLock (s.underLock c q (s.state q)) :=
  inv.underLock free (by rw [update_eq_self]; exact inv.runs)
    (by rw [update_eq_self]; exact inv.contexts)

end

variable {l : L}

theorem released (exactly : ∀ k, s.lk k = some c ↔ k = l) (k : L) :
    ¬ update s.lk l none k = some c :=
  update_ind nofun fun other held => other ((exactly k).mp held)

section

variable (inv : SchedInv waitLock s)

include inv

theorem take (here : s.thread c = old) (process : old.process = some p)
    (unlocked : old.heldLock = none) (free : s.lock p = none) (stays : t.process = some p)
    (takes : t.heldLock = some p) (holding : t.Holding waitLock fun l => s.lk l = some c)
    (fits : t.Fits st) (returns : ∀ {q}, t.returnsTo = some q → old.returnsTo = some q)
    (live : t.live = old.live) :
    SchedInv waitLock (((s.acquireProc c p).setState p st).goto c t) := by
  subst here
  have running := Thread.running_of_unlocked process unlocked (inv.runs.fits process)
  refine ⟨inv.locks.acquireProc free unlocked takes holding,
    inv.runs.move process stays fits fun back => inv.runs.returns (returns back),
    (inv.contexts.goto live).setState fun _ _ => ?_, inv.calm⟩
  rw [running]
  exact ⟨nofun, nofun⟩

theorem give (here : s.thread c = old) (held : old.heldLock = some p)
    (process : t.process = old.process) (drops : t.heldLock = none)
    (holding : t.Holding waitLock fun l => s.lk l = some c) (fits : ∀ st, old.Fits st → t.Fits st)
    (returns : ∀ {q}, t.returnsTo = some q → old.returnsTo = some q) (live : t.live = old.live)
    (chan : Fin n → Option Nat) (intena : C → Bool) :
    SchedInv waitLock (({ s with chan := chan, intena := intena }.releaseProc c p).goto c t) := by
  subst here
  exact inv.relock rfl (inv.locks.releaseProc held drops holding _) process fits returns live

theorem pick {k : Nat} (here : s.thread c = .scan k) (free : s.lock p = none)
    (runnable : s.state p = .runnable) :
    SchedInv waitLock { ((s.acquireProc c p).setState p .running).goto c (.switchTo p) with
      proc := update s.proc c (some p) } := by
  have bare := inv.holding here
  have away := inv.nowhere free (by rw [runnable]; nofun)
  refine ⟨inv.locks.acquireProc free (by rw [here]; rfl) rfl bare,
    inv.runs.pick (by rw [here]; rfl) away, ?_, inv.calm⟩
  refine (inv.contexts.goto (by rw [here]; rfl)).setState fun _ _ => ?_
  rw [runnable]
  exact ⟨nofun, nofun⟩

theorem ready (here : s.thread c = .loadProc p) :
    s.state p = .running ∧ Ready s.context s.stamp s.resumed p := by
  have onC : (s.thread c).process = some p := by rw [here]; rfl
  have running : s.state p = .running := inv.fits here rfl
  refine ⟨running,
    inv.contexts.ready p (fun d live => ?_) (by rw [running]; nofun) (by rw [running]; nofun)⟩
  have isC := inv.runs.alone (Thread.process_of_live live) onC
  rw [isC, here] at live
  cases live

theorem loadProc (here : s.thread c = .loadProc p) :
    SchedInv waitLock (s.next waitLock (.loadProc c p)) := by
  obtain ⟨running, r, saved, alive, fresh⟩ := inv.ready here
  have loaded : s.next waitLock (.loadProc c p) =
      { s.goto c (.run p (.resumed r)) with resumed := s.resumed ++ [(p, s.stamp p)] } := by
    simp only [next, saved]
  have onC : (s.thread c).process = some p := by rw [here]; rfl
  have bare := inv.holding here
  have runs : RunsFit (update s.thread c (.run p (.resumed r))) s.proc
    (update s.state p .running) s.cpuContext := by
    refine inv.runs.move onC rfl ⟨rfl, alive⟩ fun back => inv.runs.returns ?_
    rw [here]
    exact back
  rw [loaded]
  refine ⟨inv.locks.goto (by rw [here]; rfl) bare, ?_,
    inv.contexts.load (by rw [here]; rfl) rfl fresh, inv.calm⟩
  rw [← running, update_eq_self] at runs
  exact runs

theorem finish (here : s.thread c = .back p) : SchedInv waitLock
      (({ s with proc := update s.proc c none }.releaseProc c p).goto c (.scan (p + 1))) := by
  have bare := inv.holding here
  have onC : (s.thread c).process = some p := by rw [here]; rfl
  have fits := inv.fits here rfl
  have stopped : s.state p ≠ .running := by
    intro running
    rw [running] at fits
    obtain wrong | wrong | wrong := fits
    all_goals cases wrong
  exact ⟨inv.locks.releaseProc (t := .scan (p + 1)) (by rw [here]; rfl) rfl bare _,
    inv.runs.finish onC stopped _, inv.contexts.goto (by rw [here]; rfl), inv.calm⟩

theorem callSched {caller : SchedCaller L} (here : s.thread c = .run p (.sched caller)) :
    SchedInv waitLock (s.callSched c p caller) := by
  have bare := inv.holding here
  have held : s.lock p = some c := (inv.locks.held c p).mpr (by rw [here]; rfl)
  have depth : s.noff c = 1 := inv.locks.noff_eq_one (by rw [here]; rfl) bare
  have stopped : s.state p ≠ .running := by
    rw [show s.state p = caller.state from inv.fits here rfl]
    cases caller <;> nofun
  have quiet : s.intr c = false := inv.locks.quiet c (by omega)
  have passed : s.callSched c p caller = s.goto c (.run p (.saving caller (s.intena c))) := by
    simp [Sched.callSched, held, depth, stopped, quiet]
  rw [passed]
  exact inv.goto here rfl rfl bare (fun _ => id) id rfl

theorem saveProc {caller : SchedCaller L} {intena : Bool}
    (here : s.thread c = .run p (.saving caller intena)) :
    SchedInv waitLock (s.next waitLock (.saveProc c p caller intena)) := by
  have bare := inv.holding here
  have given : s.state p = caller.state := inv.fits here rfl
  have contexts : ContextsFit (update s.thread c (.run p .leaving))
      (update s.state p (s.state p))
      (update s.context p (some (.sched caller intena)))
      (update s.stamp p (s.stamp p + 1)) s.resumed := by
    refine inv.contexts.store (fun q other off d live => ?_) fun alive => ?_
    · refine off d ?_
      by_cases isC : d = c
      · rw [isC, here] at live
        exact absurd (Option.some.inj live).symm other
      · rwa [update_of_ne isC]
    · rw [given] at alive
      cases caller with
      | exit => exact alive rfl
      | _ => trivial
  rw [update_eq_self] at contexts
  refine ⟨inv.locks.goto (by rw [here]; rfl) bare,
    inv.runs.goto (by rw [here]; rfl) (fun st fits => ?_) (fun back => inv.runs.returns ?_),
    contexts, inv.calm⟩
  · rw [here] at fits
    have same : st = caller.state := fits
    rw [same]
    cases caller with
    | yield => exact .inl rfl
    | sleep => exact .inr (.inl rfl)
    | exit => exact .inr (.inr rfl)
  · rw [here]
    exact back

/-- The scheduler's registers are loaded: it goes on with the slot that it had taken. -/
theorem loadCpu (here : s.thread c = .run p .leaving) :
    SchedInv waitLock (s.next waitLock (.loadCpu c p)) := by
  have bare := inv.holding here
  have saved : s.cpuContext c = some p := inv.runs.returns (by rw [here]; rfl)
  have loaded : s.next waitLock (.loadCpu c p) = s.goto c (.back p) := by
    simp only [next, saved]
  rw [loaded]
  exact inv.goto here rfl rfl bare (fun _ => id) nofun rfl

theorem callResume {r : Resume L} (here : s.thread c = .run p (.resumed r)) :
    SchedInv waitLock (s.callResume c p r) := by
  have bare := inv.holding here
  cases r with
  | forkret =>
    exact inv.give (t := .run p .kernel) here rfl rfl rfl trivial
      (fun _ => And.left) id rfl s.chan s.intena
  | sched caller intena =>
    cases caller with
    | yield user =>
      cases user with
      | true =>
        exact inv.give (t := .run p .trap) here rfl rfl rfl bare (fun _ => And.left) id rfl s.chan _
      | false =>
        exact inv.give (t := .run p .handler) here rfl rfl rfl trivial
          (fun _ => And.left) id rfl s.chan _
    | sleep l =>
      exact inv.give (t := .run p .kernel) here rfl rfl rfl trivial (fun _ => And.left) id rfl _ _
    | exit => exact absurd (inv.fits here rfl).2 id

theorem sleepLock (here : s.thread c = .run p .kernel) (held : s.lk l = some c)
    (free : s.lock p = none) (only : ∀ other, s.lk other = some c → other = l) (chan : Nat) :
    SchedInv waitLock ((s.acquireProc c p).goto c (.run p (.sleepLocked l chan))) := by
  refine inv.relock here (inv.locks.acquireProc free ?_ rfl ?_) rfl (fun _ => id) id rfl
  · rw [here]
    rfl
  · exact fun k => ⟨only k, fun isL => isL ▸ held⟩

theorem sleepMark {chan : Nat} (here : s.thread c = .run p (.sleepLocked l chan)) :
    SchedInv waitLock (s.next waitLock (.sleepMark c p l chan)) := by
  have onC : (s.thread c).process = some p := by rw [here]; rfl
  have exactly : ∀ k, s.lk k = some c ↔ k = l := inv.holding here
  have running : s.state p = .running := inv.fits here rfl
  refine ⟨inv.locks.release ((exactly l).mpr rfl) (by rw [here]; rfl) (by exact released exactly) _,
    inv.runs.move onC rfl rfl fun back => inv.runs.returns ?_,
    (inv.contexts.goto (by rw [here]; rfl)).setState fun _ _ => ?_, inv.calm⟩
  · rw [here]
    exact back
  · rw [running]
    exact ⟨nofun, nofun⟩

theorem exitLock (here : s.thread c = .run p .trap) (free : s.lk waitLock = none) :
    SchedInv waitLock ((s.acquire c waitLock).goto c (.run p .exiting)) := by
  have bare : s.Bare c := inv.holding here
  refine inv.relock here (inv.locks.acquire free (by rw [here]; rfl) fun k => ?_) rfl
    (fun _ => id) id rfl
  show update s.lk waitLock (some c) k = some c ↔ _
  exact update_ind (by simp) fun other => iff_of_false (bare k) other

theorem exitUnlock (here : s.thread c = .run p .exitLocked) :
    SchedInv waitLock ((s.release c waitLock).goto c (.run p (.sched .exit))) := by
  have exactly : ∀ k, s.lk k = some c ↔ k = waitLock := inv.holding here
  have locks := inv.locks.release (t := .run p (.sched .exit)) ((exactly waitLock).mpr rfl)
    (by rw [here]; rfl)
    (by exact released exactly) (s.intena c)
  exact inv.relock here locks rfl (fun _ => id) id rfl

theorem acquire (locking : (s.thread c).Locking) (free : s.lk l = none) :
    SchedInv waitLock (s.acquire c l) := by
  have locks := inv.locks.acquire (t := s.thread c) free rfl (locking.holding _ _)
  rw [update_eq_self] at locks
  exact ⟨locks, inv.runs, inv.contexts, inv.calm⟩

theorem release (locking : (s.thread c).Locking) (held : s.lk l = some c) :
    SchedInv waitLock (s.release c l) := by
  have locks := inv.locks.release (t := s.thread c) held rfl (locking.holding _ _) (s.intena c)
  rw [update_eq_self] at locks
  exact ⟨locks, inv.runs, inv.contexts, inv.calm⟩

theorem forkAlloc (free : s.lock q = none) (unused : s.state q = .unused) :
    SchedInv waitLock (s.next waitLock (.forkAlloc c q)) := by
  have away := inv.nowhere free (by rw [unused]; nofun)
  exact ⟨inv.locks.underLock free _, inv.runs.setState away nofun,
    inv.contexts.store (fun _ _ off => off) fun _ => trivial, inv.calm⟩

end

theorem step {e : SchedEvent C L n} {t : Sched C L n} (inv : SchedInv waitLock s)
    (step : Step waitLock s e t) : SchedInv waitLock t := by
  obtain ⟨enabled, caller, rfl⟩ := step
  cases e with
  | loop c =>
    have bare := inv.bare enabled fun _ => id
    exact (inv.intrOn enabled rfl bare).goto enabled rfl rfl bare (fun _ => id) nofun rfl
  | endScan c =>
    exact inv.goto enabled rfl rfl (inv.bare enabled fun _ => id) (fun _ => id) nofun rfl
  | pass c p =>
    obtain ⟨here, free, -⟩ := enabled
    exact (inv.touch free).goto here rfl rfl (inv.bare here fun _ => id) (fun _ => id) nofun rfl
  | pick c p => exact inv.pick enabled.1 enabled.2.1 enabled.2.2
  | saveCpu c p =>
    exact ⟨inv.locks.goto (by rw [enabled]; rfl) (inv.bare enabled fun _ => id),
      inv.runs.saveCpu enabled, inv.contexts.goto (by rw [enabled]; rfl), inv.calm⟩
  | loadProc c p => exact inv.loadProc enabled
  | finish c p => exact inv.finish enabled
  | idleInterrupt c k =>
    exact (inv.intrOff c).goto enabled.1 rfl rfl trivial (fun _ => id) nofun rfl
  | idleReturn c k =>
    obtain ⟨here, bare⟩ := enabled
    exact (inv.intrOn here rfl bare).goto here rfl rfl bare (fun _ => id) nofun rfl
  | toUser c p | trap c p =>
    exact (inv.intrOff c).goto enabled rfl rfl (inv.bare enabled fun _ => id) (fun _ => id) id rfl
  | intrOn c p =>
    have bare := inv.bare enabled fun _ => id
    exact inv.intrOn enabled rfl bare
  | enterCall c p => exact inv.goto enabled rfl rfl trivial (fun _ => id) id rfl
  | endCall c p => exact inv.goto enabled.1 rfl rfl enabled.2 (fun _ => id) id rfl
  | interrupt c p => exact (inv.intrOff c).goto enabled.1 rfl rfl trivial (fun _ => id) id rfl
  | handlerReturn c p =>
    obtain ⟨here, bare⟩ := enabled
    exact (inv.intrOn here rfl bare).goto here rfl rfl trivial (fun _ => id) id rfl
  | userTimer c p =>
    exact inv.goto enabled rfl rfl (inv.bare enabled fun _ => id) (fun _ => id) id rfl
  | kernelTimer c p => exact inv.goto enabled.1 rfl rfl enabled.2.1 (fun _ => id) id rfl
  | yield c p user =>
    obtain ⟨here, free⟩ := enabled
    exact inv.take here rfl rfl free rfl rfl (inv.bare here fun _ => id) rfl id rfl
  | acquire c l => exact inv.acquire enabled.1 enabled.2
  | release c l => exact inv.release enabled.1 enabled.2
  | sleepLock c p l chan => exact inv.sleepLock enabled.1 enabled.2.1 enabled.2.2 caller chan
  | sleepMark c p l chan => exact inv.sleepMark enabled
  | exitLock c p => exact inv.exitLock enabled.1 enabled.2
  | exitZombie c p =>
    obtain ⟨here, free⟩ := enabled
    have waiting : ∀ l, s.lk l = some c ↔ l = waitLock := inv.holding here
    exact inv.take here rfl rfl free rfl rfl waiting rfl id rfl
  | exitUnlock c p => exact inv.exitUnlock enabled
  | sched c p caller => exact inv.callSched enabled
  | saveProc c p caller intena => exact inv.saveProc enabled
  | loadCpu c p => exact inv.loadCpu enabled
  | resume c p r => exact inv.callResume enabled
  | wakeup c chan q =>
    obtain ⟨-, -, free, sleeping, -⟩ := enabled
    exact inv.other free (by rw [sleeping]; nofun) nofun fun _ _ => by
      rw [sleeping]; exact ⟨nofun, nofun⟩
  | kill c q =>
    obtain ⟨-, free, sleeping⟩ := enabled
    exact inv.other free (by rw [sleeping]; nofun) nofun fun _ _ => by
      rw [sleeping]; exact ⟨nofun, nofun⟩
  | forkAlloc c q => exact inv.forkAlloc enabled.2.1 enabled.2.2
  | forkReady c q =>
    obtain ⟨-, free, used⟩ := enabled
    exact inv.other free (by rw [used]; nofun) nofun fun _ _ => by rw [used]; exact ⟨nofun, nofun⟩
  | reap c q =>
    obtain ⟨-, free, zombie⟩ := enabled
    exact inv.other free (by rw [zombie]; nofun) nofun fun isUsed _ => absurd rfl isUsed
  | touch c q => exact inv.touch enabled.2

end SchedInv

/-- **Scheduling exclusivity**, over every run of any number of CPUs whose callers of `sleep` hold
only the lock that they pass:

* a process whose lock is free is `RUNNING` exactly if it is the `c->proc` of one CPU, and `c->proc`
  is always the process of the thread that the CPU executes;
* no two CPUs have the registers of one process, and no saved context was loaded twice;
* a process whose context is about to be loaded is `RUNNING`, so neither a zombie nor unused;
* at every `swtch` into the scheduler the process is not `RUNNING` and its lock is the only one
  held;
* `sched` has not panicked, and no zombie has come back from it. -/
theorem scheduling_exclusive {waitLock : L} {init : Fin n} {trace : List (SchedEvent C L n)}
    {s : Sched C L n} (run : Run (Step waitLock) (initial init) trace s) :
    (∀ p, s.lock p = none → (s.state p = .running ↔ ∃! c, s.proc c = some p)) ∧
    (∀ c, s.proc c = (s.thread c).process) ∧
    (∀ p c d, (s.thread c).live = some p → (s.thread d).live = some p → c = d) ∧
    s.resumed.Nodup ∧
    (∀ c p, s.thread c = .loadProc p → s.state p = .running) ∧
    (∀ c p caller intena, s.thread c = .run p (.saving caller intena) →
      s.state p ≠ .running ∧ (∀ q, s.lock q = some c ↔ q = p) ∧ s.Bare c ∧ s.noff c = 1) ∧
    s.panicked = none := by
  have inv : SchedInv waitLock s := Run.inv (schedInv_initial waitLock init) SchedInv.step run
  refine ⟨fun p free => ⟨fun running => ?_, fun taken => ?_⟩, inv.runs.proc,
    fun p c d onC onD => ?_,
    inv.contexts.once, fun c p here => (inv.ready here).1, fun c p caller intena here => ?_,
    inv.calm⟩
  · obtain ⟨c, onC⟩ := inv.runs.placed p running
    refine ⟨c, (inv.runs.proc c).trans onC, fun d onD => ?_⟩
    exact inv.runs.alone ((inv.runs.proc d).symm.trans onD) onC
  · obtain ⟨c, onC, -⟩ := taken
    by_contra stopped
    exact inv.nowhere free stopped c ((inv.runs.proc c).symm.trans onC)
  · exact inv.runs.alone (Thread.process_of_live onC) (Thread.process_of_live onD)
  · have bare := inv.bare here fun _ => id
    have held : (s.thread c).heldLock = some p := by rw [here]; rfl
    refine ⟨?_, fun q => ?_, bare, inv.locks.noff_eq_one held bare⟩
    · rw [show s.state p = caller.state from inv.fits here rfl]
      cases caller <;> nofun
    · rw [inv.locks.held, held, Option.some_inj]
      exact eq_comm

/-- Process `p` forks process `q`, which runs on the other CPU; process `p` sleeps, is woken by
process `q` and runs again, and process `q` exits. -/
def twoCpus (p q : Fin 2) : List (SchedEvent Bool Bool 2) :=
  [.loop true, .pick true p, .saveCpu true p, .loadProc true p, .resume true p .forkret,
    .forkAlloc true q, .forkReady true q,
    .loop false, .pass false p, .pick false q, .saveCpu false q, .loadProc false q,
    .resume false q .forkret,
    .acquire true true, .sleepLock true p true 5, .sleepMark true p true 5,
    .sched true p (.sleep true), .saveProc true p (.sleep true) true, .loadCpu true p,
    .finish true p, .wakeup false 5 p,
    .pass true q, .endScan true, .loop true, .pick true p, .saveCpu true p, .loadProc true p,
    .endCall false q, .exitLock false q, .exitZombie false q, .exitUnlock false q,
    .sched false q .exit]

theorem scheduling_exclusive_twoCpus : ∃ s : Sched Bool Bool 2,
    Run (Step false) (initial 0) (twoCpus 0 1) s ∧
      s.thread true = .run 0 (.resumed (.sched (.sleep true) true)) ∧
      s.thread false = .run 1 (.saving .exit true) ∧ s.noff false = 1 ∧ s.panicked = none := by
  obtain ⟨s, run, seen⟩ := run_of_observed
    (fun s : Sched Bool Bool 2 => (s.thread true, s.thread false))
    (show (execAll (exec false) (twoCpus 0 1) (initial 0)).map
        (fun s => (s.thread true, s.thread false)) =
      some (.run 0 (.resumed (.sched (.sleep true) true)), .run 1 (.saving .exit true)) by
      decide +kernel)
  have steps := run.mono Step.of_exec
  have leaves : s.thread false = .run 1 (.saving .exit true) := congrArg Prod.snd seen
  obtain ⟨-, -, -, -, -, switch, calm⟩ := scheduling_exclusive steps
  exact ⟨s, steps, congrArg Prod.fst seen, leaves, (switch _ _ _ _ leaves).2.2.2, calm⟩

end Sched

end Xv6
