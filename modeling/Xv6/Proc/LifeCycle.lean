/-
**Exits and reaps: every exited process is returned by `wait` once, with its own pid and status.**

The history of a run is kept in the lists `exited` and `reaped`. `HistoryInv` ties them to the
process table: a zombie is an exit not yet reaped, its slot still holds the pid and the status, and
its parent pointer is the parent at exit time or `initproc`. Only four kinds of sections touch any
of this (`LifeEvent.Records`; `Quiet` covers the others): taking a slot, failing to, the last
section of `exit`, and the reaping section of `wait`.
-/

import Xv6.Proc.LifeInv

namespace Xv6

open Lib Function

/-- The sections that the history depends on. -/
def LifeEvent.Records {n : Nat} : LifeEvent n → Prop
  | .forkAlloc _ _ | .forkFail _ _ | .exitZombie _ _ | .waitReap _ _ _ _ => True
  | _ => False

namespace Life

variable {n : Nat} {init : Fin n} {s t : Life n} {e : LifeEvent n}

attribute [local simp] Enabled next At SleepsOn goto setState wakeSlot freeproc nameProc
attribute [local grind =] update_apply

/-! ### Sections that leave the history alone -/

/-- Nothing that the history speaks about changes, except that zombies may be handed to
`initproc`. -/
structure Quiet (init : Fin n) (s t : Life n) : Prop where
  exited : t.exited = s.exited
  reaped : t.reaped = s.reaped
  uid : t.uid = s.uid
  nextuid : t.nextuid = s.nextuid
  pid : t.pid = s.pid
  xstate : t.xstate = s.xstate
  zombie : ∀ i, t.state i = .zombie ↔ s.state i = .zombie
  unused : ∀ i, t.state i = .unused ↔ s.state i = .unused
  parent : ∀ i q, t.state i = .zombie → t.parent i = some q → s.parent i = some q ∨ q = init

theorem LifeInv.quiet (inv : LifeInv init s) (step : Step init s e t) (silent : ¬ e.Records) :
    Quiet init s t := by
  have frame : t.exited = s.exited ∧ t.reaped = s.reaped ∧ t.uid = s.uid ∧
      t.nextuid = s.nextuid ∧ t.pid = s.pid ∧ t.xstate = s.xstate := by
    rw [step.2]
    cases e with
    | forkAlloc | forkFail | exitZombie | waitReap => exact absurd trivial silent
    | _ => exact ⟨rfl, rfl, rfl, rfl, rfl, rfl⟩
  obtain ⟨exited, reaped, uid, nextuid, pid, xstate⟩ := frame
  -- the child that `fork` makes runnable is neither a zombie nor unused
  have used {p i : Fin n} (enabled : s.Enabled init (.forkDone p i)) : s.state i = .used :=
    inv.forked p i (enabled.2 ▸ rfl)
  have living : ∀ i, s.state i = .zombie → t.state i = .zombie := by
    intro i dead
    rcases state_of_step step i with same | ⟨x, y, turn, isX, -⟩
    · rwa [same]
    · rw [dead] at isX
      subst isX
      cases turn with
      | forked => exact absurd (dead.symm.trans (used step.1)) nofun
      | reaped => exact absurd trivial silent
  have free : ∀ i, s.state i = .unused → t.state i = .unused := by
    intro i free
    rcases state_of_step step i with same | ⟨x, y, turn, isX, -⟩
    · rwa [same]
    · rw [free] at isX
      subst isX
      cases turn with
      | alloc => exact absurd trivial silent
      | forked => exact absurd (free.symm.trans (used step.1)) nofun
  refine ⟨exited, reaped, uid, nextuid, pid, xstate, fun i => ⟨fun dead => ?_, living i⟩,
    fun i => ⟨fun unused => ?_, free i⟩, fun i q dead child => ?_⟩
  · rcases zombie_of_step step dead with before | ⟨status, rfl⟩
    · exact before
    · exact absurd trivial silent
  · rcases unused_of_step step unused with before | ⟨p, havekids, addr, rfl⟩
    · exact before
    · exact absurd trivial silent
  · rcases parent_of_step step child with before | rfl | ⟨same, -⟩
    · exact .inl before
    · -- the child of a `fork` in progress is not a zombie
      have used := inv.forked q i (step.1.1.2 ▸ rfl)
      rw [step.2] at dead
      simp [used] at dead
    · exact .inr same

/-! ### The history -/

/-- How the history and the process table fit together. -/
structure HistoryInv (init : Fin n) (s : Life n) : Prop where
  uidLt : ∀ i, s.uid i < s.nextuid
  uidInit : s.uid init = 0
  uidInj : ∀ i j, s.state i ≠ .unused → s.state j ≠ .unused → s.uid i = s.uid j → i = j
  exitedLt : ∀ x ∈ s.exited, x.uid < s.nextuid
  exitedOnce : (s.exited.map ExitRecord.uid).Nodup
  livingNotExited : ∀ i, s.state i ≠ .unused → s.state i ≠ .zombie →
    ∀ x ∈ s.exited, x.uid ≠ s.uid i
  zombieRecord : ∀ i, s.state i = .zombie → ∃ x ∈ s.exited, x.uid = s.uid i ∧ x.pid = s.pid i ∧
    x.status = s.xstate i ∧ ∀ q, s.parent i = some q → x.parent = some (s.uid q) ∨ q = init
  reapedRecord : ∀ r ∈ s.reaped, ∃ x ∈ s.exited, x.uid = r.uid ∧ x.pid = r.pid ∧
    x.status = r.status ∧ (x.parent = some r.caller ∨ r.caller = s.uid init)
  reapedOnce : (s.reaped.map ReapRecord.uid).Nodup
  notReaped : ∀ i, s.state i ≠ .unused → ∀ r ∈ s.reaped, r.uid ≠ s.uid i
  pending : ∀ x ∈ s.exited, (∃ r ∈ s.reaped, r.uid = x.uid) ∨
    ∃ i, s.state i = .zombie ∧ s.uid i = x.uid

theorem historyInv_boot (init : Fin n) : HistoryInv init (boot init) := by
  constructor <;> simp [boot]
  all_goals grind

section

variable (hist : HistoryInv init s) {i p : Fin n}

include hist

theorem HistoryInv.quiet (same : Quiet init s t) : HistoryInv init t := by
  refine ⟨?_, ?_, ?_, ?_, ?_, ?_, ?_, ?_, ?_, ?_, ?_⟩
  · rw [same.uid, same.nextuid]
    exact hist.uidLt
  · rw [same.uid]
    exact hist.uidInit
  · intro i j hi hj
    rw [same.uid]
    exact hist.uidInj i j (mt (same.unused i).mpr hi) (mt (same.unused j).mpr hj)
  · rw [same.exited, same.nextuid]
    exact hist.exitedLt
  · rw [same.exited]
    exact hist.exitedOnce
  · intro i inUse living
    rw [same.exited, same.uid]
    exact hist.livingNotExited i (mt (same.unused i).mpr inUse) (mt (same.zombie i).mpr living)
  · intro i dead
    obtain ⟨x, member, uid, pid, status, parent⟩ := hist.zombieRecord i ((same.zombie i).mp dead)
    rw [same.exited, same.uid, same.pid, same.xstate]
    refine ⟨x, member, uid, pid, status, fun q child => ?_⟩
    rcases same.parent i q dead child with before | isInit
    · exact parent q before
    · exact .inr isInit
  · rw [same.reaped, same.exited, same.uid]
    exact hist.reapedRecord
  · rw [same.reaped]
    exact hist.reapedOnce
  · intro i inUse
    rw [same.reaped, same.uid]
    exact hist.notReaped i (mt (same.unused i).mpr inUse)
  · intro x member
    rw [same.exited] at member
    rw [same.reaped, same.uid]
    rcases hist.pending x member with reaped | ⟨i, dead, uid⟩
    · exact .inl reaped
    · exact .inr ⟨i, (same.zombie i).mpr dead, uid⟩

/-- Naming a slot that is not in use, as `allocproc` does, keeps the history apart from it. -/
theorem HistoryInv.named (inv : LifeInv init s) (free : s.state i = .unused)
    (frame : t.exited = s.exited ∧ t.reaped = s.reaped ∧
      t.uid = update s.uid i s.nextuid ∧ t.nextuid = s.nextuid + 1)
    (others : ∀ j, j ≠ i → t.state j = s.state j ∧ t.pid j = s.pid j ∧
      t.xstate j = s.xstate j ∧ t.parent j = s.parent j) (living : t.state i ≠ .zombie) :
    HistoryInv init t := by
  obtain ⟨exited, reaped, uid, nextuid⟩ := frame
  have notInit : i ≠ init := fun same => inv.initAlive.1 (same ▸ free)
  have uidOf : ∀ j, j ≠ i → t.uid j = s.uid j := fun j other => by
    rw [uid, update_of_ne other]
  have uidHere : t.uid i = s.nextuid := by rw [uid, update_self]
  have fresh : ∀ j, j ≠ i → t.uid j ≠ t.uid i := fun j other => by
    rw [uidOf j other, uidHere]
    exact (hist.uidLt j).ne
  have zombies : ∀ j, t.state j = .zombie → j ≠ i ∧ s.state j = .zombie := fun j dead => by
    have other : j ≠ i := fun same => living (same ▸ dead)
    exact ⟨other, (others j other).1 ▸ dead⟩
  refine ⟨?_, ?_, ?_, ?_, ?_, ?_, ?_, ?_, ?_, ?_, ?_⟩
  · intro j
    by_cases same : j = i
    · rw [same, uidHere, nextuid]
      exact Nat.lt_succ_self _
    · rw [uidOf j same, nextuid]
      exact (hist.uidLt j).trans (Nat.lt_succ_self _)
  · rw [uidOf init notInit.symm]
    exact hist.uidInit
  · intro j k hj hk same
    by_cases ji : j = i
    · by_cases ki : k = i
      · rw [ji, ki]
      · rw [ji] at same
        exact absurd same.symm (fresh k ki)
    · by_cases ki : k = i
      · rw [ki] at same
        exact absurd same (fresh j ji)
      · rw [uidOf j ji, uidOf k ki] at same
        rw [(others j ji).1] at hj
        rw [(others k ki).1] at hk
        exact hist.uidInj j k hj hk same
  · rw [exited, nextuid]
    exact fun x member => (hist.exitedLt x member).trans (Nat.lt_succ_self _)
  · rw [exited]
    exact hist.exitedOnce
  · intro j inUse alive x member
    rw [exited] at member
    by_cases same : j = i
    · rw [same, uidHere]
      exact (hist.exitedLt x member).ne
    · rw [(others j same).1] at inUse alive
      rw [uidOf j same]
      exact hist.livingNotExited j inUse alive x member
  · intro j dead
    obtain ⟨other, wasDead⟩ := zombies j dead
    obtain ⟨x, member, xuid, pid, status, parent⟩ := hist.zombieRecord j wasDead
    refine ⟨x, exited ▸ member, ?_, ?_, ?_, fun q child => ?_⟩
    · rw [xuid, uidOf j other]
    · rw [pid, (others j other).2.1]
    · rw [status, (others j other).2.2.1]
    · rw [(others j other).2.2.2] at child
      rw [uidOf q fun same => (inv.parentAlive j q child).1 (same ▸ free)]
      exact parent q child
  · intro r member
    rw [reaped] at member
    rw [exited, uidOf init notInit.symm]
    exact hist.reapedRecord r member
  · rw [reaped]
    exact hist.reapedOnce
  · intro j inUse r member
    rw [reaped] at member
    by_cases same : j = i
    · obtain ⟨x, inside, xuid, -⟩ := hist.reapedRecord r member
      rw [same, uidHere, ← xuid]
      exact (hist.exitedLt x inside).ne
    · rw [(others j same).1] at inUse
      rw [uidOf j same]
      exact hist.notReaped j inUse r member
  · intro x member
    rw [exited] at member
    rw [reaped]
    rcases hist.pending x member with done | ⟨j, dead, xuid⟩
    · exact .inl done
    · have other : j ≠ i := by
        rintro rfl
        rw [free] at dead
        cases dead
      refine .inr ⟨j, ?_, ?_⟩
      · rw [(others j other).1, dead]
      · rw [uidOf j other, xuid]

theorem HistoryInv.forkAlloc (inv : LifeInv init s) (step : Step init s (.forkAlloc p i) t) :
    HistoryInv init t := by
  obtain ⟨⟨running, free⟩, rfl⟩ := step
  refine hist.named inv free ⟨rfl, rfl, rfl, rfl⟩ (fun j other => ?_) ?_
  · simp [other]
  · simp

theorem HistoryInv.forkFail (inv : LifeInv init s) (step : Step init s (.forkFail p i) t) :
    HistoryInv init t := by
  obtain ⟨⟨running, free⟩, rfl⟩ := step
  refine hist.named inv free ⟨rfl, rfl, rfl, rfl⟩ (fun j other => ?_) ?_
  · simp [other]
  · simp

theorem HistoryInv.exitZombie {status : Int} (step : Step init s (.exitZombie p status) t) :
    HistoryInv init t := by
  obtain ⟨⟨running, here⟩, rfl⟩ := step
  have alive : s.state p ≠ .unused ∧ s.state p ≠ .zombie := by
    rw [running]
    exact ⟨nofun, nofun⟩
  have living : ∀ j, j ≠ p → (next init s (.exitZombie p status)).state j = s.state j :=
    fun j other => update_of_ne other _ _
  have inUse : ∀ j, (next init s (.exitZombie p status)).state j ≠ .unused →
      s.state j ≠ .unused := by
    intro j used
    by_cases same : j = p
    · rw [same]
      exact alive.1
    · rwa [living j same] at used
  have newRecord : ∀ x ∈ s.exited, x.uid ≠ s.uid p := hist.livingNotExited p alive.1 alive.2
  refine ⟨hist.uidLt, hist.uidInit, fun i j hi hj => hist.uidInj i j (inUse i hi) (inUse j hj),
    ?_, ?_, ?_, ?_, ?_, hist.reapedOnce, fun j used => hist.notReaped j (inUse j used), ?_⟩
  · intro x member
    rcases List.mem_cons.mp member with rfl | before
    · exact hist.uidLt p
    · exact hist.exitedLt x before
  · refine List.nodup_cons.mpr ⟨fun member => ?_, hist.exitedOnce⟩
    obtain ⟨x, before, same⟩ := List.mem_map.mp member
    exact newRecord x before same
  · intro j used notDead x member
    have other : j ≠ p := by
      rintro rfl
      exact notDead (update_self _ _ _)
    rw [living j other] at used notDead
    rcases List.mem_cons.mp member with rfl | before
    · exact fun same => other (hist.uidInj p j alive.1 used same).symm
    · exact hist.livingNotExited j used notDead x before
  · intro j dead
    by_cases same : j = p
    · subst same
      refine ⟨_, List.mem_cons_self, rfl, rfl, (update_self j status s.xstate).symm,
        fun q child => ?_⟩
      left
      show (s.parent j).map s.uid = some (s.uid q)
      rw [show s.parent j = some q from child]
      rfl
    · rw [living j same] at dead
      obtain ⟨x, member, uid, pid, xstatus, parent⟩ := hist.zombieRecord j dead
      refine ⟨x, List.mem_cons_of_mem _ member, uid, pid, ?_, parent⟩
      exact xstatus.trans (update_of_ne same _ _).symm
  · intro r member
    obtain ⟨x, inside, rest⟩ := hist.reapedRecord r member
    exact ⟨x, List.mem_cons_of_mem _ inside, rest⟩
  · intro x member
    rcases List.mem_cons.mp member with rfl | before
    · exact .inr ⟨p, update_self _ _ _, rfl⟩
    · rcases hist.pending x before with done | ⟨i, dead, uid⟩
      · exact .inl done
      · refine .inr ⟨i, ?_, uid⟩
        show update s.state p .zombie i = .zombie
        exact update_ind rfl fun _ => dead

theorem HistoryInv.waitReap {k : Fin n} {havekids : Bool} {addr : Nat}
    (step : Step init s (.waitReap p k havekids addr) t) : HistoryInv init t := by
  obtain ⟨⟨⟨running, here⟩, child, -, dead⟩, rfl⟩ := step
  have deadInUse : s.state k ≠ .unused := by rw [dead]; exact nofun
  have freed : (next init s (.waitReap p k havekids addr)).state k = .unused :=
    update_self _ _ _
  have others : ∀ j, j ≠ k → (next init s (.waitReap p k havekids addr)).state j = s.state j :=
    fun j other => update_of_ne other _ _
  have inUse : ∀ j, (next init s (.waitReap p k havekids addr)).state j ≠ .unused →
      j ≠ k ∧ s.state j ≠ .unused := by
    intro j used
    have other : j ≠ k := by
      rintro rfl
      exact used freed
    rw [others j other] at used
    exact ⟨other, used⟩
  refine ⟨hist.uidLt, hist.uidInit,
    fun i j hi hj => hist.uidInj i j (inUse i hi).2 (inUse j hj).2, hist.exitedLt,
    hist.exitedOnce, ?_, ?_, ?_, ?_, ?_, ?_⟩
  · intro j used notDead
    obtain ⟨other, wasUsed⟩ := inUse j used
    rw [others j other] at notDead
    exact hist.livingNotExited j wasUsed notDead
  · intro j jDead
    have other : j ≠ k := by
      rintro rfl
      rw [freed] at jDead
      cases jDead
    rw [others j other] at jDead
    obtain ⟨x, member, uid, pid, status, parent⟩ := hist.zombieRecord j jDead
    refine ⟨x, member, uid, ?_, ?_, fun q isChild => parent q ?_⟩
    · exact pid.trans (update_of_ne other _ _).symm
    · exact status.trans (update_of_ne other _ _).symm
    · exact (update_of_ne other _ _).symm.trans isChild
  · intro r member
    rcases List.mem_cons.mp member with rfl | before
    · obtain ⟨x, inside, uid, pid, status, parent⟩ := hist.zombieRecord k dead
      refine ⟨x, inside, uid, pid, status, ?_⟩
      rcases parent p child with atExit | isInit
      · exact .inl atExit
      · exact .inr (congrArg s.uid isInit)
    · exact hist.reapedRecord r before
  · refine List.nodup_cons.mpr ⟨fun member => ?_, hist.reapedOnce⟩
    obtain ⟨r, before, same⟩ := List.mem_map.mp member
    exact hist.notReaped k deadInUse r before same
  · intro j used r member
    obtain ⟨other, wasUsed⟩ := inUse j used
    rcases List.mem_cons.mp member with rfl | before
    · exact fun same => other (hist.uidInj k j deadInUse wasUsed same).symm
    · exact hist.notReaped j wasUsed r before
  · intro x member
    rcases hist.pending x member with ⟨r, inside, uid⟩ | ⟨i, iDead, uid⟩
    · exact .inl ⟨r, List.mem_cons_of_mem _ inside, uid⟩
    · by_cases same : i = k
      · exact .inl ⟨_, List.mem_cons_self, same ▸ uid⟩
      · exact .inr ⟨i, by rw [others i same, iDead], uid⟩

theorem HistoryInv.step (inv : LifeInv init s) (step : Step init s e t) : HistoryInv init t := by
  by_cases records : e.Records
  · cases e with
    | forkAlloc p i => exact hist.forkAlloc inv step
    | forkFail p i => exact hist.forkFail inv step
    | exitZombie p status => exact hist.exitZombie step
    | waitReap p k havekids addr => exact hist.waitReap step
    | _ => exact absurd records id
  · exact hist.quiet (inv.quiet step records)

end

/-! ### The life cycle -/

/-- The process table of two states is the same, all fields of all slots. -/
structure SameTable (s t : Life n) : Prop where
  state : t.state = s.state
  chan : t.chan = s.chan
  killed : t.killed = s.killed
  xstate : t.xstate = s.xstate
  pid : t.pid = s.pid
  parent : t.parent = s.parent

structure LifeCycle (init : Fin n) (s : Life n) : Prop where
  /-- (a) the parent of a process in use is neither unused nor a zombie -/
  parents : ∀ i q, s.state i ≠ .unused → s.parent i = some q →
    s.state q ≠ .unused ∧ s.state q ≠ .zombie
  /-- (b) a slot is freed only by the reaping section of `wait`, and only if it is a zombie that has
  left its kernel stack -/
  frees : ∀ e t i, Step init s e t → s.state i ≠ .unused → t.state i = .unused →
    (∃ p havekids addr, e = .waitReap p i havekids addr) ∧ s.state i = .zombie ∧ s.pc i = .off
  /-- (b) no process exits twice, and none is returned twice -/
  once : (s.exited.map ExitRecord.uid).Nodup ∧ (s.reaped.map ReapRecord.uid).Nodup
  /-- (b) what `wait` returns is an exit, with its pid and status, to the parent at exit time or to
  `initproc` -/
  returned : ∀ r ∈ s.reaped, ∃ x ∈ s.exited, x.uid = r.uid ∧ x.pid = r.pid ∧
    x.status = r.status ∧ (x.parent = some r.caller ∨ r.caller = s.uid init)
  /-- (b) no exit is lost: it has been returned, or its zombie is there with its pid and status -/
  kept : ∀ x ∈ s.exited, (∃ r ∈ s.reaped, r.uid = x.uid) ∨
    ∃ i, s.state i = .zombie ∧ s.uid i = x.uid ∧ s.pid i = x.pid ∧ s.xstate i = x.status
  /-- (c) when `wait_lock` is free, nobody sleeps in `wait` with a zombie child -/
  awake : s.waitLock = none → ∀ p addr i, s.pc p = .waitSleep addr → s.state p = .sleeping →
    s.parent i = some p → s.state i ≠ .zombie
  /-- (d) a `wait` whose `copyout` fails changes no process and reaps nothing -/
  copyFail : ∀ p k havekids addr t, Step init s (.waitCopyFail p k havekids addr) t →
    SameTable s t ∧ t.state k = .zombie ∧ t.reaped = s.reaped

/-- **Every run of any number of processes keeps the life cycle.** -/
theorem life_cycle {trace : List (LifeEvent n)} {s : Life n}
    (run : Run (Step init) (boot init) trace s) : LifeCycle init s := by
  obtain ⟨inv, hist⟩ : LifeInv init s ∧ HistoryInv init s :=
    Run.inv (P := fun s => LifeInv init s ∧ HistoryInv init s)
      ⟨lifeInv_boot init, historyInv_boot init⟩
      (fun both step => ⟨both.1.step step, both.2.step both.1 step⟩) run
  refine ⟨fun i q _ => inv.parentAlive i q, fun e t i step inUse freed => ?_,
    ⟨hist.exitedOnce, hist.reapedOnce⟩, hist.reapedRecord, fun x member => ?_,
    fun free p addr i there asleep child dead => ?_, fun p k havekids addr t step => ?_⟩
  · rcases unused_of_step step freed with before | ⟨p, havekids, addr, rfl⟩
    · exact absurd before inUse
    · obtain ⟨⟨-, -, lockFree, dead⟩, -⟩ := step
      refine ⟨⟨p, havekids, addr, rfl⟩, dead, ?_⟩
      rcases inv.zombiePc i dead with onStack | switched | off
      · exact absurd (.inl onStack) lockFree
      · exact absurd (.inr switched) lockFree
      · exact off
  · rcases hist.pending x member with done | ⟨i, dead, uid⟩
    · exact .inl done
    · obtain ⟨y, inside, yuid, pid, status, -⟩ := hist.zombieRecord i dead
      have same : y = x := List.inj_on_of_nodup_map hist.exitedOnce inside member (yuid.trans uid)
      subst same
      exact .inr ⟨i, dead, uid, pid.symm, status.symm⟩
  · obtain ⟨-, q, k, j, status, waking, -⟩ := inv.noLostChild p addr i there asleep child dead
    have holds : (s.pc q).HoldsWaitLock := by rw [waking]; trivial
    rw [(inv.holder q).mp holds] at free
    cases free
  · obtain ⟨⟨-, -, -, dead, -⟩, rfl⟩ := step
    exact ⟨⟨rfl, rfl, rfl, rfl, rfl, rfl⟩, dead, rfl⟩

/-! ### A run that executes -/

instance (init : Fin n) (s : Life n) (e : LifeEvent n) : Decidable (s.Enabled init e) := by
  cases e <;> unfold Enabled <;> infer_instance

def exec (init : Fin n) (s : Life n) (e : LifeEvent n) : Option (Life n) :=
  if s.Enabled init e then some (s.next init e) else none

theorem step_of_exec {init : Fin n} {s t : Life n} {e : LifeEvent n}
    (done : exec init s e = some t) : Step init s e t := by
  unfold exec at done
  split at done
  · exact ⟨‹_›, (Option.some.inj done).symm⟩
  · cases done

/-- `initproc` forks and waits; the child `q` exits with status 7 and is reaped. -/
def childOfInit (init q : Fin 2) : List (LifeEvent 2) :=
  [.schedule init, .forkAlloc init q, .forkParent init q, .forkDone init q, .waitLock init 0,
    .waitSkip init init false 0, .waitAlive init q false 0, .waitSleep init 0, .schedule q,
    .exitLock q 7, .exitSkip q init 7, .exitSkip q q 7, .exitReparented q 7,
    .exitWakeParent q init 7, .exitWakeParent q q 7, .exitZombie q 7, .exitSwitch q, .exitRelease q,
    .schedule init, .waitTidy init 0, .waitRelock init 0, .waitSkip init init false 0,
    .waitReap init q false 0]

/-- The child of `initproc` is returned with its pid and its status. -/
theorem life_cycle_childOfInit : ∃ s, Run (Step 0) (boot 0) (childOfInit 0 1) s ∧
    s.reaped = [⟨1, 2, 7, 0⟩] ∧ LifeCycle 0 s := by
  have done : (execAll (exec 0) (childOfInit 0 1) (boot 0)).map Life.reaped =
    some [⟨1, 2, 7, 0⟩] := by
    decide
  obtain ⟨s, executed, reaped⟩ := run_of_observed Life.reaped done
  have run : Run (Step 0) (boot 0) (childOfInit 0 1) s := executed.mono step_of_exec
  exact ⟨s, run, reaped, life_cycle run⟩

end Life

end Xv6
