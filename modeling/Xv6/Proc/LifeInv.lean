/-
**Invariants of the process life cycle.**

The first part says once what a section can do. `Path` is the control flow: the process that runs
the section, where it is before it and where after it. `Turn` is the state diagram of a process.
With `parent_of_step` and `chan_of_step` they give, for every field and every step, what the field
was before (`pc_of_step`, `state_of_step`). The invariant `LifeInv` is then carried from state to
state by these facts and by the exclusion that `wait_lock` gives.

* `LifeInv.parentAlive`: a parent is neither unused nor a zombie. `exit` empties its list of
  children under `wait_lock` before it becomes a zombie, and only `fork` of the process itself could
  add one.
* `LifeInv.noLostChild`: a process asleep in `wait` has no zombie child, unless some `exit` is just
  handing one to `initproc` and has yet to reach its slot in `wakeup(initproc)`.
-/

import Xv6.Proc.Life

namespace Xv6

open Lib Function

/-- In `fork`, with slot `i` for the child. -/
def Pc.Forks {n : Nat} : Pc n → Fin n → Prop
  | .forkAlloced j, i | .forkParented j, i => j = i
  | _, _ => False

/-- In `exit`, with slot `i` passed by `reparent`. -/
def Pc.Passed {n : Nat} : Pc n → Fin n → Prop
  | .exitReparent k _, i => i.val < k
  | .exitWakeInit k _ _, i => i.val ≤ k
  | .exitWakeParent _ _, _ => True
  | _, _ => False

namespace Life

variable {n : Nat} {init : Fin n} {s t : Life n} {e : LifeEvent n} {p q i : Fin n} {a b : Pc n}

attribute [local simp] Enabled next At SleepsOn goto setState wakeSlot freeproc nameProc

/-! ### What a section can do -/

/-- **The control flow**: a section takes a process from one point to another. The slot that
`allocproc` hands out starts afresh. -/
inductive Path : LifeEvent n → Fin n → Pc n → Pc n → Prop
  | sleep p addr : Path (.sleep p addr) p .user .asleep
  | resume p : Path (.resume p) p .asleep .user
  | fresh p i a : Path (.forkAlloc p i) i a .user
  | forkAlloc p i : Path (.forkAlloc p i) p .user (.forkAlloced i)
  | forkParent p i : Path (.forkParent p i) p (.forkAlloced i) (.forkParented i)
  | forkDone p i : Path (.forkDone p i) p (.forkParented i) .user
  | exitLock p st : Path (.exitLock p st) p .user (.exitReparent 0 st)
  | exitSkip p k st : Path (.exitSkip p k st) p (.exitReparent k st) (.exitReparent (k + 1) st)
  | exitTake p k st : Path (.exitTake p k st) p (.exitReparent k st) (.exitWakeInit k 0 st)
  | exitWakeInit p k j st :
      Path (.exitWakeInit p k j st) p (.exitWakeInit k j st) (.exitWakeInit k (j + 1) st)
  | exitWokenInit p k st :
      Path (.exitWokenInit p k st) p (.exitWakeInit k n st) (.exitReparent (k + 1) st)
  | exitReparented p st :
      Path (.exitReparented p st) p (.exitReparent n st) (.exitWakeParent 0 st)
  | exitWakeParent p j st :
      Path (.exitWakeParent p j st) p (.exitWakeParent j st) (.exitWakeParent (j + 1) st)
  | exitZombie p st : Path (.exitZombie p st) p (.exitWakeParent n st) .sched
  | exitSwitch p : Path (.exitSwitch p) p .sched .switched
  | exitRelease p : Path (.exitRelease p) p .switched .off
  | waitLock p addr : Path (.waitLock p addr) p .user (.waitScan 0 false addr)
  | waitSkip p k kids addr :
      Path (.waitSkip p k kids addr) p (.waitScan k kids addr) (.waitScan (k + 1) kids addr)
  | waitAlive p k kids addr :
      Path (.waitAlive p k kids addr) p (.waitScan k kids addr) (.waitScan (k + 1) true addr)
  | waitCopyFail p k kids addr :
      Path (.waitCopyFail p k kids addr) p (.waitScan k kids addr) .user
  | waitReap p k kids addr : Path (.waitReap p k kids addr) p (.waitScan k kids addr) .user
  | waitNone p kids addr : Path (.waitNone p kids addr) p (.waitScan n kids addr) .user
  | waitSleep p addr : Path (.waitSleep p addr) p (.waitScan n true addr) (.waitSleep addr)
  | waitTidy p addr : Path (.waitTidy p addr) p (.waitSleep addr) (.waitRelock addr)
  | waitRelock p addr : Path (.waitRelock p addr) p (.waitRelock addr) (.waitScan 0 false addr)

/-- **The states of a process** and the sections that change them. -/
inductive Turn : LifeEvent n → Fin n → ProcState → ProcState → Prop
  | schedule p : Turn (.schedule p) p .runnable .running
  | yield p : Turn (.yield p) p .running .runnable
  | sleep p addr : Turn (.sleep p addr) p .running .sleeping
  | waitSleep p addr : Turn (.waitSleep p addr) p .running .sleeping
  | wake e i : Turn e i .sleeping .runnable
  | alloc p i : Turn (.forkAlloc p i) i .unused .used
  | forked p i old : Turn (.forkDone p i) i old .runnable
  | exits p st : Turn (.exitZombie p st) p .running .zombie
  | reaped p i kids addr : Turn (.waitReap p i kids addr) i .zombie .unused

theorem goto_or (path : Path e p a b) (here : s.pc p = a) (q : Fin n) :
    update s.pc p b q = s.pc q ∨ ∃ a b', Path e q a b' ∧ s.pc q = a ∧ update s.pc p b q = b' := by
  by_cases same : q = p
  · subst same
    exact .inr ⟨a, b, path, here, update_self _ _ _⟩
  · exact .inl (update_of_ne same _ _)

/-- A process stays where it is, or goes along a path. -/
theorem pc_of_step (step : Step init s e t) (q : Fin n) :
    t.pc q = s.pc q ∨ ∃ a b, Path e q a b ∧ s.pc q = a ∧ t.pc q = b := by
  obtain ⟨enabled, rfl⟩ := step
  cases e with
  | schedule | yield | wakeup | kill | forkFail => exact .inl rfl
  | forkAlloc p i =>
    by_cases isP : q = p
    · subst isP
      exact .inr ⟨_, _, .forkAlloc q i, enabled.1.2, update_self _ _ _⟩
    by_cases isI : q = i
    · subst isI
      exact .inr ⟨_, _, .fresh p q _, rfl, (update_of_ne isP _ _).trans (update_self _ _ _)⟩
    · exact .inl ((update_of_ne isP _ _).trans (update_of_ne isI _ _))
  | exitSwitch | exitRelease => exact goto_or (by constructor) enabled q
  | sleep | resume | forkDone | exitWokenInit | exitReparented | exitZombie | waitTidy =>
    exact goto_or (by constructor) enabled.2 q
  | forkParent | exitLock | exitSkip | exitTake | exitWakeInit | exitWakeParent | waitLock
  | waitSkip
  | waitAlive | waitCopyFail | waitReap | waitNone | waitSleep | waitRelock =>
    exact goto_or (by constructor) enabled.1.2 q

theorem set_or {old new : ProcState} (turn : Turn e p old new) (here : s.state p = old)
    (i : Fin n) :
    update s.state p new i = s.state i ∨
      ∃ x y, Turn e i x y ∧ s.state i = x ∧ update s.state p new i = y := by
  by_cases same : i = p
  · subst same
    exact .inr ⟨old, new, turn, here, update_self _ _ _⟩
  · exact .inl (update_of_ne same _ _)

theorem wake_or {c : Prop} [Decidable c] (asleep : c → s.state i = .sleeping) :
    (if c then .runnable else s.state i) = s.state i ∨
      ∃ x y, Turn e i x y ∧ s.state i = x ∧ (if c then .runnable else s.state i) = y := by
  by_cases wakes : c
  · exact .inr ⟨_, _, .wake e i, asleep wakes, if_pos wakes⟩
  · exact .inl (if_neg wakes)

/-- A process keeps its state, or takes a turn. -/
theorem state_of_step (step : Step init s e t) (i : Fin n) :
    t.state i = s.state i ∨ ∃ x y, Turn e i x y ∧ s.state i = x ∧ t.state i = y := by
  obtain ⟨enabled, rfl⟩ := step
  cases e with
  | schedule | yield | sleep | exitZombie => exact set_or (by constructor) enabled.1 i
  | waitSleep => exact set_or (.waitSleep _ _) enabled.1.1 i
  | forkAlloc p j => exact set_or (.alloc p j) enabled.2 i
  | forkFail p j =>
    refine .inl ?_
    show update s.state j .unused i = s.state i
    exact update_ind enabled.2.symm fun _ => rfl
  | forkDone p j => exact set_or (.forked p j _) rfl i
  | waitReap => exact set_or (.reaped _ _ _ _) enabled.2.2.2 i
  | kill pid j => exact wake_or fun wakes => wakes.1 ▸ wakes.2
  | wakeup | exitWakeInit | exitWakeParent => exact wake_or fun wakes => wakes.1 ▸ wakes.2.2.1
  | _ => exact .inl rfl

/-- Only `exit` makes a process a zombie. -/
theorem zombie_of_step (step : Step init s e t) (dead : t.state i = .zombie) :
    s.state i = .zombie ∨ ∃ status, e = .exitZombie i status := by
  rcases state_of_step step i with same | ⟨x, y, turn, -, isY⟩
  · exact .inl (same ▸ dead)
  · rw [dead] at isY
    subst isY
    cases turn
    exact .inr ⟨_, rfl⟩

/-- Only `wait` frees a slot. -/
theorem unused_of_step (step : Step init s e t) (free : t.state i = .unused) :
    s.state i = .unused ∨ ∃ p havekids addr, e = .waitReap p i havekids addr := by
  rcases state_of_step step i with same | ⟨x, y, turn, -, isY⟩
  · exact .inl (same ▸ free)
  · rw [free] at isY
    subst isY
    cases turn
    exact .inr ⟨_, _, _, rfl⟩

/-- A parent is set by `fork`, and by `exit` for the children. -/
theorem parent_of_step (step : Step init s e t) (child : t.parent i = some q) :
    s.parent i = some q ∨ e = .forkParent q i ∨ q = init ∧ ∃ p status,
      e = .exitTake p i status := by
  obtain ⟨enabled, rfl⟩ := step
  cases e with
  | forkFail | waitReap => exact .inl (of_update_eq child nofun).2
  | forkParent p j =>
    by_cases same : i = j
    · subst same
      have set : update s.parent i (some p) i = some q := child
      rw [update_self] at set
      cases set
      exact .inr (.inl rfl)
    · exact .inl ((update_of_ne same _ _).symm.trans child)
  | exitTake p k status =>
    by_cases same : i = k
    · subst same
      have set : update s.parent i (some init) i = some q := child
      rw [update_self] at set
      cases set
      exact .inr (.inr ⟨rfl, p, status, rfl⟩)
    · exact .inl ((update_of_ne same _ _).symm.trans child)
  | _ => exact .inl child

/-- A slot loses its parent when it is freed. -/
theorem orphan_of_step (step : Step init s e t) (gone : t.parent i = none) :
    s.parent i = none ∨ t.state i = .unused := by
  obtain ⟨enabled, rfl⟩ := step
  cases e with
  | forkFail p j | waitReap p j =>
    by_cases same : i = j
    · subst same
      exact .inr (update_self _ _ _)
    · exact .inl ((update_of_ne same _ _).symm.trans gone)
  | forkParent | exitTake => exact .inl (of_update_eq gone nofun).2
  | _ => exact .inl gone

/-- A slot gets a new number while it is not in use. -/
theorem uid_of_step (step : Step init s e t) (inUse : s.state i ≠ .unused) : t.uid i = s.uid i := by
  obtain ⟨enabled, rfl⟩ := step
  cases e with
  | forkAlloc p j | forkFail p j =>
    refine update_of_ne ?_ _ _
    rintro rfl
    exact inUse enabled.2
  | _ => rfl

/-- What a process sleeps on is not changed by the others. -/
theorem chan_of_step {addr : Nat} (step : Step init s e t)
    (asleep : s.state p = .sleeping) (waits : s.pc p = .waitSleep addr) : t.chan p = s.chan p := by
  obtain ⟨enabled, rfl⟩ := step
  have elsewhere {q : Fin n} {b : Pc n} (here : s.pc q = b) (ne : b ≠ .waitSleep addr) : p ≠ q := by
    rintro rfl
    exact ne (here.symm.trans waits)
  have other {q : Fin n} {x : ProcState} (here : s.state q = x) (ne : x ≠ .sleeping) : p ≠ q := by
    rintro rfl
    exact ne (here.symm.trans asleep)
  cases e with
  | sleep | resume => exact update_of_ne (elsewhere enabled.2 nofun) _ _
  | waitTidy q a => exact update_of_ne (other enabled.1 nofun) _ _
  | waitSleep => exact update_of_ne (elsewhere enabled.1.2 nofun) _ _
  | forkFail => exact update_of_ne (other enabled.2 nofun) _ _
  | waitReap => exact update_of_ne (other enabled.2.2.2 nofun) _ _
  | _ => rfl

/-- A process goes to sleep in `wait` only at the end of a scan. -/
theorem waitSleep_of_step {addr : Nat} (step : Step init s e t) (there : t.pc p = .waitSleep addr)
    (asleep : t.state p = .sleeping) :
    s.pc p = .waitSleep addr ∧ s.state p = .sleeping ∨ e = .waitSleep p addr := by
  rcases pc_of_step step p with same | ⟨a, b, path, -, isB⟩
  · rcases state_of_step step p with sameState | ⟨x, y, turn, -, isY⟩
    · exact .inl ⟨same ▸ there, sameState ▸ asleep⟩
    · rw [asleep] at isY
      subst isY
      cases turn with
      | sleep addr' =>
        simp [step.2] at there
      | waitSleep addr' =>
        rw [step.2] at there
        have isAddr := (update_self _ _ _).symm.trans there
        cases isAddr
        exact .inr rfl
  · rw [there] at isB
    subst isB
    cases path
    exact .inr rfl

theorem exitWakeInit_of_step {k j : Nat} {status : Int} (step : Step init s e t)
    (there : s.pc q = .exitWakeInit k j status) (taken : s.state q ≠ .unused) :
    t.pc q = .exitWakeInit k j status ∨ j = n ∨
      ∃ i : Fin n, i.val = j ∧ e = .exitWakeInit q k i status := by
  rcases pc_of_step step q with same | ⟨a, b, path, isA, -⟩
  · exact .inl (same.trans there)
  · rw [there] at isA
    subst isA
    cases path with
    | fresh p => exact absurd step.1.2 taken
    | exitWakeInit => exact .inr (.inr ⟨_, rfl, rfl⟩)
    | exitWokenInit => exact .inr (.inl rfl)

/-! ### The invariant -/

structure LifeInv (init : Fin n) (s : Life n) : Prop where
  holder : ∀ p, (s.pc p).HoldsWaitLock ↔ s.waitLock = some p
  active : ∀ p, (s.pc p).Active → s.state p = .running ∨ s.state p = .runnable
  zombiePc : ∀ p, s.state p = .zombie → s.pc p = .sched ∨ s.pc p = .switched ∨ s.pc p = .off
  locked : ∀ p, (s.pc p).HoldsLock → s.state p = .zombie
  initAlive : s.state init ≠ .unused ∧ s.state init ≠ .used ∧ s.state init ≠ .zombie
  exiting : ∀ p, (s.pc p).Exiting → p ≠ init
  forked : ∀ p i, (s.pc p).Forks i → s.state i = .used
  forkOnce : ∀ p q i, (s.pc p).Forks i → (s.pc q).Forks i → p = q
  unusedParent : ∀ i, s.state i = .unused → s.parent i = none
  parentAlive : ∀ i q, s.parent i = some q → s.state q ≠ .unused ∧ s.state q ≠ .zombie
  childless : ∀ p i, (s.pc p).Passed i → s.parent i ≠ some p
  scanned : ∀ p k havekids addr i, s.pc p = .waitScan k havekids addr →
    s.parent i = some p → s.state i = .zombie → k ≤ i.val
  sleepChan : ∀ p addr, s.pc p = .waitSleep addr → s.state p = .sleeping →
    s.chan p = some (.proc p)
  wokenParent : ∀ p j status q addr, s.pc p = .exitWakeParent j status → s.parent p = some q →
    q.val < j → s.pc q = .waitSleep addr → s.state q ≠ .sleeping
  noLostChild : ∀ p addr i, s.pc p = .waitSleep addr → s.state p = .sleeping →
    s.parent i = some p → s.state i = .zombie →
      p = init ∧ ∃ q k j status, s.pc q = .exitWakeInit k j status ∧ j ≤ init.val

theorem lifeInv_boot (init : Fin n) : LifeInv init (boot init) := by
  have states : (boot init).state = update (fun _ => .unused) init .runnable := rfl
  constructor
  case initAlive =>
    rw [states, update_self]
    exact ⟨nofun, nofun, nofun⟩
  case zombiePc =>
    intro i dead
    rw [states] at dead
    exact absurd (of_update_eq dead nofun).2 nofun
  all_goals simp [boot, Pc.HoldsWaitLock, Pc.Active, Pc.HoldsLock, Pc.Exiting, Pc.Forks, Pc.Passed]

/-! ### Preservation: points and states -/

section Shape

variable (inv : LifeInv init s)

include inv

omit inv in
theorem active_of_holds {pc : Pc n} (holds : pc.HoldsWaitLock) : pc.Active := by
  cases pc with
  | exitReparent | exitWakeInit | exitWakeParent | waitScan => trivial
  | _ => exact False.elim holds

omit inv in
theorem exiting_of_passed {pc : Pc n} (passed : pc.Passed i) : pc.Exiting := by
  cases pc with
  | exitReparent | exitWakeInit | exitWakeParent => trivial
  | _ => exact False.elim passed

/-- A process in the middle of a call is not unused. -/
theorem LifeInv.inUse (active : (s.pc p).Active) : s.state p ≠ .unused := by
  rcases inv.active p active with running | runnable
  · rw [running]
    exact nofun
  · rw [runnable]
    exact nofun

/-- Two processes do not hold `wait_lock`. -/
theorem LifeInv.exclusive (first : (s.pc p).HoldsWaitLock) (second : (s.pc q).HoldsWaitLock) :
    p = q :=
  Option.some.inj (((inv.holder p).mp first).symm.trans ((inv.holder q).mp second))

theorem LifeInv.holder_goto (same : b.HoldsWaitLock ↔ (s.pc p).HoldsWaitLock) (q : Fin n) :
    (update s.pc p b q).HoldsWaitLock ↔ s.waitLock = some q := by
  rw [← inv.holder q]
  exact update_ind same fun _ => Iff.rfl

theorem LifeInv.holder_take (free : s.waitLock = none) (holds : b.HoldsWaitLock) (q : Fin n) :
    (update s.pc p b q).HoldsWaitLock ↔ some p = some q := by
  refine update_ind ⟨fun _ => rfl, fun _ => holds⟩ fun other => ?_
  rw [inv.holder q, free]
  exact ⟨nofun, fun same => absurd (Option.some.inj same).symm other⟩

theorem LifeInv.holder_drop (held : (s.pc p).HoldsWaitLock) (gone : ¬ b.HoldsWaitLock) (q : Fin n) :
    (update s.pc p b q).HoldsWaitLock ↔ none = some q := by
  refine update_ind ⟨fun holds => absurd holds gone, nofun⟩ fun other => ?_
  exact ⟨fun holds => absurd (inv.exclusive holds held) other, nofun⟩

variable (step : Step init s e t)

include step

theorem LifeInv.holder_step (q : Fin n) : (t.pc q).HoldsWaitLock ↔ t.waitLock = some q := by
  obtain ⟨enabled, rfl⟩ := step
  have at_ {p : Fin n} {a : Pc n} (here : s.pc p = a) (holds : a.HoldsWaitLock) :
      (s.pc p).HoldsWaitLock := here ▸ holds
  have stays {p : Fin n} {a b : Pc n} (here : s.pc p = a) (same : b.HoldsWaitLock ↔
    a.HoldsWaitLock) :
      b.HoldsWaitLock ↔ (s.pc p).HoldsWaitLock := here ▸ same
  cases e with
  | schedule | yield | wakeup | kill | forkFail => exact inv.holder q
  | forkAlloc p i =>
    have idle : ¬ (s.pc i).HoldsWaitLock := fun holds => inv.inUse (active_of_holds holds) enabled.2
    have fresh : ∀ q, (update s.pc i .user q).HoldsWaitLock ↔ s.waitLock = some q := fun q => by
      rw [← inv.holder q]
      exact update_ind ⟨False.elim, fun holds => absurd holds idle⟩ fun _ => Iff.rfl
    show (update (update s.pc i .user) p (.forkAlloced i) q).HoldsWaitLock ↔ _
    refine update_ind ?_ fun _ => fresh q
    show False ↔ s.waitLock = some p
    rw [← inv.holder p, enabled.1.2]
    exact Iff.rfl
  | exitLock => exact inv.holder_take enabled.2.2 (by trivial) q
  | waitLock | waitRelock => exact inv.holder_take enabled.2 (by trivial) q
  | exitZombie => exact inv.holder_drop (at_ enabled.2 trivial) (by exact id) q
  | waitCopyFail | waitReap | waitNone | waitSleep =>
    exact inv.holder_drop (at_ enabled.1.2 trivial) (by exact id) q
  | sleep | resume | forkDone | exitWokenInit | exitReparented | waitTidy =>
    exact inv.holder_goto (by exact stays enabled.2 Iff.rfl) q
  | exitSwitch | exitRelease => exact inv.holder_goto (by exact stays enabled Iff.rfl) q
  | forkParent | exitSkip | exitTake | exitWakeInit | exitWakeParent | waitSkip | waitAlive =>
    exact inv.holder_goto (by exact stays enabled.1.2 Iff.rfl) q

theorem LifeInv.active_step (p : Fin n) (active : (t.pc p).Active) :
    t.state p = .running ∨ t.state p = .runnable := by
  have before : s.state p = .running ∨ s.state p = .runnable := by
    rcases pc_of_step step p with same | ⟨a, b, path, -, isB⟩
    · exact inv.active p (same ▸ active)
    · -- a process that goes on in a call is running
      rw [isB] at active
      cases path <;> first
        | exact False.elim active
        | exact .inl step.1.1.1
        | exact .inl step.1.1
  rcases state_of_step step p with same | ⟨x, y, turn, isX, isY⟩
  · rwa [same]
  · rw [isX] at before
    rw [isY]
    -- a process that falls asleep or exits is at another point
    cases turn with
    | schedule => exact .inl rfl
    | yield | wake | forked => exact .inr rfl
    | alloc | reaped => exact before.elim nofun nofun
    | sleep | waitSleep | exits =>
      rw [step.2] at active
      simp [Pc.Active] at active

theorem LifeInv.zombiePc_step (p : Fin n) (dead : t.state p = .zombie) :
    t.pc p = .sched ∨ t.pc p = .switched ∨ t.pc p = .off := by
  rcases zombie_of_step step dead with before | ⟨status, rfl⟩
  · have points := inv.zombiePc p before
    rcases pc_of_step step p with same | ⟨a, b, path, isA, isB⟩
    · rwa [same]
    · rw [isA] at points
      rw [isB]
      cases path with
      | fresh => exact absurd (before.symm.trans step.1.2) nofun
      | exitSwitch => exact .inr (.inl rfl)
      | exitRelease => exact .inr (.inr rfl)
      | _ => simp at points
  · simp [step.2]

theorem LifeInv.locked_step (p : Fin n) (holds : (t.pc p).HoldsLock) : t.state p = .zombie := by
  rcases pc_of_step step p with same | ⟨a, b, path, isA, isB⟩
  · rw [same] at holds
    have dead := inv.locked p holds
    rcases state_of_step step p with sameState | ⟨x, y, turn, isX, -⟩
    · rwa [sameState]
    · rw [dead] at isX
      subst isX
      cases turn with
      | forked q => exact absurd (dead.symm.trans (inv.forked q p (step.1.2 ▸ rfl))) nofun
      | reaped => exact absurd holds step.1.2.2.1
  · rw [isB] at holds
    cases path with
    | exitZombie =>
      simp [step.2]
    | exitSwitch =>
      rw [step.2]
      exact inv.locked p (.inl isA)
    | _ => simp [Pc.HoldsLock] at holds

theorem LifeInv.exiting_step (p : Fin n) (out : (t.pc p).Exiting) : p ≠ init := by
  rcases pc_of_step step p with same | ⟨a, b, path, isA, isB⟩
  · exact inv.exiting p (same ▸ out)
  · rw [isB] at out
    cases path with
    | exitLock => exact step.1.2.1
    | exitSkip | exitTake | exitWakeInit | exitWokenInit | exitReparented | exitWakeParent =>
      exact inv.exiting p (isA ▸ trivial)
    | _ => exact False.elim out

theorem LifeInv.initAlive_step :
    t.state init ≠ .unused ∧ t.state init ≠ .used ∧ t.state init ≠ .zombie := by
  have before := inv.initAlive
  rcases state_of_step step init with same | ⟨x, y, turn, isX, isY⟩
  · rwa [same]
  · rw [isX] at before
    rw [isY]
    cases turn with
    | alloc => exact absurd rfl before.1
    | reaped => exact absurd rfl before.2.2
    | exits =>
      have exiting : (s.pc init).Exiting := step.1.2 ▸ trivial
      exact absurd rfl (inv.exiting init exiting)
    | _ => exact ⟨nofun, nofun, nofun⟩

theorem LifeInv.forked_step (p i : Fin n) (forks : (t.pc p).Forks i) : t.state i = .used := by
  rcases pc_of_step step p with same | ⟨a, b, path, isA, isB⟩
  · rw [same] at forks
    have used := inv.forked p i forks
    rcases state_of_step step i with sameState | ⟨x, y, turn, isX, -⟩
    · rwa [sameState]
    · rw [used] at isX
      subst isX
      cases turn with
      | forked q =>
        -- the process that ends the `fork` of a child is the one that began it
        obtain rfl := inv.forkOnce p q i forks (step.1.2 ▸ rfl)
        simp [step.2, step.1.2] at same
  · rw [isB] at forks
    cases path with
    | forkAlloc p j =>
      obtain rfl : j = i := forks
      simp [step.2]
    | forkParent p j =>
      rw [step.2]
      exact inv.forked p i (isA ▸ forks)
    | _ => exact False.elim forks

theorem LifeInv.forkOnce_step (p q i : Fin n) (first : (t.pc p).Forks i)
    (second : (t.pc q).Forks i) : p = q := by
  -- a process at such a point was at one before, or runs this section
  have earlier (p : Fin n) (here : (t.pc p).Forks i) : (s.pc p).Forks i ∨ e = .forkAlloc p i := by
    rcases pc_of_step step p with same | ⟨a, b, path, isA, isB⟩
    · exact .inl (same ▸ here)
    · rw [isB] at here
      cases path with
      | forkAlloc p j =>
        obtain rfl : j = i := here
        exact .inr rfl
      | forkParent => exact .inl (isA ▸ here)
      | _ => exact False.elim here
  have fresh {p q : Fin n} (old : (s.pc p).Forks i) (new : e = .forkAlloc q i) : False := by
    subst new
    exact absurd ((inv.forked p i old).symm.trans step.1.2) nofun
  rcases earlier p first with oldP | newP
  · rcases earlier q second with oldQ | newQ
    · exact inv.forkOnce p q i oldP oldQ
    · exact (fresh oldP newQ).elim
  · rcases earlier q second with oldQ | newQ
    · exact (fresh oldQ newP).elim
    · cases newP.symm.trans newQ
      rfl

theorem LifeInv.unusedParent_step (i : Fin n) (free : t.state i = .unused) : t.parent i = none := by
  rcases unused_of_step step free with before | ⟨p, havekids, addr, rfl⟩
  · have orphan := inv.unusedParent i before
    cases child : t.parent i with
    | none => rfl
    | some q =>
      rcases parent_of_step step child with old | rfl | ⟨-, p, status, rfl⟩
      · exact absurd (orphan.symm.trans old) nofun
      · exact absurd (before.symm.trans (inv.forked q i (step.1.1.2 ▸ rfl))) nofun
      · exact absurd (orphan.symm.trans step.1.2) nofun
  · simp [step.2]

theorem LifeInv.sleepChan_step (p : Fin n) (addr : Nat) (there : t.pc p = .waitSleep addr)
    (asleep : t.state p = .sleeping) : t.chan p = some (.proc p) := by
  rcases waitSleep_of_step step there asleep with ⟨wasThere, wasAsleep⟩ | rfl
  · rw [chan_of_step step wasAsleep wasThere]
    exact inv.sleepChan p addr wasThere wasAsleep
  · simp [step.2]

end Shape

/-! ### Preservation: parents, zombies and sleepers -/

section Family

variable (inv : LifeInv init s) (step : Step init s e t)

include inv step

/-- Two processes do not hold `wait_lock`, one before and one after a step that is not its own. -/
theorem LifeInv.alone (q : Fin n) (there : t.pc p = b) (after : b.HoldsWaitLock)
    (before : (s.pc q).HoldsWaitLock) (stays : ∀ a, ¬ Path e p a b) : p = q := by
  rcases pc_of_step step p with same | ⟨a, b', path, -, isB⟩
  · refine inv.exclusive ?_ before
    rw [← same, there]
    exact after
  · rw [isB] at there
    exact absurd (there ▸ path) (stays a)

theorem LifeInv.parentAlive_step (i q : Fin n) (child : t.parent i = some q) :
    t.state q ≠ .unused ∧ t.state q ≠ .zombie := by
  rcases parent_of_step step child with old | rfl | ⟨rfl, -⟩
  · obtain ⟨inUse, living⟩ := inv.parentAlive i q old
    refine ⟨fun free => ?_, fun dead => ?_⟩
    · rcases unused_of_step step free with before | ⟨p, havekids, addr, rfl⟩
      · exact inUse before
      · exact living step.1.2.2.2
    · rcases zombie_of_step step dead with before | ⟨status, rfl⟩
      · exact living before
      · -- a process about to be a zombie has given all its children away
        exact inv.childless q i (step.1.2 ▸ trivial) old
  · have running : t.state q = .running := by
      rw [step.2]
      exact step.1.1.1
    rw [running]
    exact ⟨nofun, nofun⟩
  · have init := inv.initAlive_step step
    exact ⟨init.1, init.2.2⟩

theorem LifeInv.childless_step (p i : Fin n) (passed : (t.pc p).Passed i) :
    t.parent i ≠ some p := by
  intro child
  have exiting := exiting_of_passed passed
  have notInit := inv.exiting_step step p exiting
  rcases parent_of_step step child with old | rfl | ⟨isInit, -⟩
  · refine absurd old ?_
    rcases pc_of_step step p with same | ⟨a, b, path, isA, isB⟩
    · exact inv.childless p i (same ▸ passed)
    · have before (was : a.Passed i) : s.parent i ≠ some p := inv.childless p i (isA ▸ was)
      rw [isB] at passed
      cases path with
      | exitLock => exact absurd passed (Nat.not_lt_zero _)
      | exitSkip p k status =>
        rcases Nat.lt_succ_iff_lt_or_eq.mp passed with below | same
        · exact before below
        · rw [Fin.ext same]
          exact step.1.2
      | exitTake p k status =>
        rcases Nat.lt_or_eq_of_le passed with below | same
        · exact before below
        · -- the child at this slot now has `initproc` as its parent
          rw [step.2, Fin.ext same] at child
          have set : update s.parent k (some init) k = some p := child
          rw [update_self] at set
          exact absurd (Option.some.inj set).symm notInit
      | exitWakeInit => exact before passed
      | exitWokenInit => exact before (Nat.le_of_lt_succ passed)
      | exitReparented => exact before i.isLt
      | exitWakeParent => exact before trivial
      | _ => exact False.elim passed
  · simp [step.2, Pc.Exiting] at exiting
  · exact notInit isInit

theorem LifeInv.scanned_step (p : Fin n) (k : Nat) (havekids : Bool) (addr : Nat) (i : Fin n)
    (there : t.pc p = .waitScan k havekids addr) (child : t.parent i = some p)
    (dead : t.state i = .zombie) : k ≤ i.val := by
  rcases zombie_of_step step dead with wasDead | ⟨status, rfl⟩
  · rcases parent_of_step step child with old | rfl | ⟨-, q, status, rfl⟩
    · rcases pc_of_step step p with same | ⟨a, b, path, isA, isB⟩
      · exact inv.scanned p k havekids addr i (same ▸ there) old wasDead
      · rw [there] at isB
        subst isB
        cases path with
        | waitLock | waitRelock => exact Nat.zero_le _
        | waitSkip p m =>
          have passed := inv.scanned p m _ _ i isA old wasDead
          have other : m ≠ i := fun same => step.1.2 (same ▸ old)
          exact Nat.lt_of_le_of_ne passed (Fin.val_ne_of_ne other)
        | waitAlive p m =>
          have passed := inv.scanned p m _ _ i isA old wasDead
          have other : m ≠ i := fun same => step.1.2.2.2 (same ▸ wasDead)
          exact Nat.lt_of_le_of_ne passed (Fin.val_ne_of_ne other)
    · simp [step.2] at there
    · -- the process that gives its child away holds `wait_lock`
      obtain rfl := inv.alone step q there trivial (step.1.1.2 ▸ trivial) nofun
      simp [step.2] at there
  · -- and so does a process that is about to be a zombie
    obtain rfl := inv.alone step i there trivial (step.1.2 ▸ trivial) nofun
    simp [step.2] at there

theorem LifeInv.wokenParent_step (p : Fin n) (j : Nat) (status : Int) (q : Fin n) (addr : Nat)
    (there : t.pc p = .exitWakeParent j status) (parent : t.parent p = some q)
    (passed : q.val < j) (waiting : t.pc q = .waitSleep addr) : t.state q ≠ .sleeping := by
  intro asleep
  rcases waitSleep_of_step step waiting asleep with ⟨wasThere, wasAsleep⟩ | rfl
  · rcases parent_of_step step parent with old | rfl | ⟨-, r, st, rfl⟩
    · rcases pc_of_step step p with same | ⟨a, b, path, isA, isB⟩
      · exact inv.wokenParent p j status q addr (same ▸ there) old passed wasThere wasAsleep
      · rw [there] at isB
        subst isB
        cases path with
        | exitReparented => exact absurd passed (Nat.not_lt_zero _)
        | exitWakeParent p m =>
          rcases Nat.lt_succ_iff_lt_or_eq.mp passed with before | here
          · exact inv.wokenParent p m _ q addr isA old before wasThere wasAsleep
          · -- this is the slot of the parent, which sleeps on its own channel
            obtain rfl : q = m := Fin.ext here
            have chan := inv.sleepChan q addr wasThere wasAsleep
            have other : p ≠ q := by
              rintro rfl
              exact absurd (isA.symm.trans wasThere) nofun
            rw [step.2] at asleep
            simp [wasAsleep, chan, old, other] at asleep
    · simp [step.2] at waiting
    · obtain rfl := inv.alone step r there trivial (step.1.1.2 ▸ trivial) nofun
      simp [step.2] at there
  · obtain rfl := inv.alone step q there trivial (step.1.1.2 ▸ trivial) nofun
    exact absurd (there.symm.trans waiting) nofun

theorem LifeInv.noLostChild_step (p : Fin n) (addr : Nat) (i : Fin n)
    (there : t.pc p = .waitSleep addr) (asleep : t.state p = .sleeping)
    (child : t.parent i = some p) (dead : t.state i = .zombie) :
    p = init ∧ ∃ q k j status, t.pc q = .exitWakeInit k j status ∧ j ≤ init.val := by
  rcases waitSleep_of_step step there asleep with ⟨wasThere, wasAsleep⟩ | rfl
  · rcases zombie_of_step step dead with wasDead | ⟨status, rfl⟩
    · rcases parent_of_step step child with wasChild | rfl | ⟨rfl, q, status, rfl⟩
      · obtain ⟨rfl, q, k, j, status, waking, ahead⟩ :=
          inv.noLostChild p addr i wasThere wasAsleep wasChild wasDead
        refine ⟨rfl, ?_⟩
        have exiting : (s.pc q).Exiting := by rw [waking]; trivial
        have notFree : s.state q ≠ .unused := inv.inUse (waking ▸ trivial)
        rcases exitWakeInit_of_step step waking notFree with same | rfl | ⟨m, rfl, rfl⟩
        · exact ⟨q, k, j, status, same, ahead⟩
        · exact absurd p.isLt (by omega)
        · -- the slot of `initproc` itself is not passed asleep
          have notHere : m ≠ p := by
            rintro rfl
            have chan := inv.sleepChan m addr wasThere wasAsleep
            have other : q ≠ m := inv.exiting q exiting
            rw [step.2] at asleep
            simp [wasAsleep, chan, other] at asleep
          refine ⟨q, k, m + 1, status, by rw [step.2]; simp, ?_⟩
          have different : m.val ≠ p.val := fun same => notHere (Fin.ext same)
          omega
      · rw [step.1.1.2] at wasThere
        cases wasThere
      · exact ⟨rfl, q, i, 0, status, by rw [step.2]; simp, Nat.zero_le _⟩
    · -- a new zombie has woken its parent
      have parent : s.parent i = some p := by
        rw [step.2] at child
        exact child
      exact absurd wasAsleep (inv.wokenParent i n status p addr step.1.2 parent p.isLt wasThere)
  · -- a scan that ends in `sleep` has seen no zombie child
    have parent : s.parent i = some p := by
      rw [step.2] at child
      exact child
    have other : i ≠ p := by
      rintro rfl
      rw [asleep] at dead
      cases dead
    have wasDead : s.state i = .zombie := by
      rw [step.2] at dead
      simpa [other] using dead
    exact absurd (inv.scanned p n true addr i step.1.1.2 parent wasDead) (by omega)

end Family

theorem LifeInv.step (inv : LifeInv init s) (step : Step init s e t) : LifeInv init t where
  holder := inv.holder_step step
  active := inv.active_step step
  zombiePc := inv.zombiePc_step step
  locked := inv.locked_step step
  initAlive := inv.initAlive_step step
  exiting := inv.exiting_step step
  forked := inv.forked_step step
  forkOnce := inv.forkOnce_step step
  unusedParent := inv.unusedParent_step step
  parentAlive := inv.parentAlive_step step
  childless := inv.childless_step step
  scanned := inv.scanned_step step
  sleepChan := inv.sleepChan_step step
  wokenParent := inv.wokenParent_step step
  noLostChild := inv.noLostChild_step step

end Life
end Xv6
