/-
**The group-commit protocol** (`kernel/log.c`): which operations a commit contains.

The sections under `log.lock` are the functions of `LogState` (`Xv6.Log.Operations`). Here
`commit()` is a step of its own, between the section of `end_op` that starts it and the one that
ends it, and the system keeps the history: every operation has a number and the blocks it has passed
to `log_write`, and every commit records the blocks of the header and the operations that had ended
before it.

* `CtlInv`: `outstanding` counts the operations in progress; a commit excludes them; somebody asleep
  in `begin_op` has an `end_op` or a commit to wait for.
* `OpsInv`: the header lists exactly the blocks of the operations since the last commit, and every
  operation that has ended is in one commit, or in the one to come.
-/

import Xv6.Log.Operations
import Xv6.Lib.Run

set_option linter.unusedSectionVars false

namespace Xv6

open Lib Function

/-- An operation: its number, and the blocks it has passed to `log_write`. -/
structure OpRecord where
  id : Nat
  writes : List Nat
  deriving DecidableEq

/-- A commit: the blocks of `log.lh`, and the operations that had ended since the commit before. -/
structure CommitRecord where
  blocks : List Nat
  ops : List OpRecord
  deriving DecidableEq

/-- What a process is doing with the log. -/
inductive GroupProc
  /-- not in an operation -/
  | idle
  /-- `SLEEPING` in `begin_op` -/
  | sleeping
  /-- woken in `begin_op`, about to test again -/
  | woken
  /-- between `begin_op` and `end_op` -/
  | inOp (op : OpRecord)
  /-- in `end_op`, before or in `commit()` -/
  | committing
  /-- in `end_op`, after `commit()` -/
  | committed
  deriving DecidableEq

/-- From the first section of `end_op` to the last one. -/
def GroupProc.Commits (proc : GroupProc) : Prop := proc = .committing ∨ proc = .committed

/-- What a process does with the log, without where it is in `begin_op` or `end_op`. -/
def GroupProc.role : GroupProc → LogRole
  | .inOp _ => .inOp
  | .committing | .committed => .commits
  | .idle | .sleeping | .woken => .idle

inductive GroupEvent (P : Type)
  /-- enter `begin_op`, or test again after a wakeup -/
  | beginOp (p : P)
  | logWrite (p : P) (blockno : Nat)
  /-- the first section of `end_op` -/
  | endOp (p : P)
  /-- `commit()` -/
  | commit (p : P)
  /-- the last section of `end_op` -/
  | commitDone (p : P)
  /-- `kill` makes a sleeper runnable -/
  | kill (p : P)

/-- The log, the processes, the panic that stopped the system, if any, and the history. -/
structure GroupSys (P : Type) where
  log : LogState
  procs : P → GroupProc
  panicked : Option LogPanic
  nextOp : Nat
  /-- the operations that have ended since the last commit -/
  ended : List OpRecord
  commits : List CommitRecord

namespace GroupSys

variable {P : Type} [DecidableEq P]

def setProc (s : GroupSys P) (p : P) (proc : GroupProc) : GroupSys P :=
  { s with procs := update s.procs p proc }

def wokenProc : GroupProc → GroupProc
  | .sleeping => .woken
  | proc => proc

def wakeup (s : GroupSys P) : GroupSys P := { s with procs := fun p => wokenProc (s.procs p) }

/-- An operation that `begin_op` admits. -/
def enter (s : GroupSys P) (p : P) (log : LogState) : GroupSys P :=
  { s.setProc p (.inOp ⟨s.nextOp, []⟩) with log := log, nextOp := s.nextOp + 1 }

def write (s : GroupSys P) (p : P) (op : OpRecord) (blockno : Nat) (log : LogState) : GroupSys P :=
  { s.setProc p (.inOp { op with writes := op.writes ++ [blockno] }) with log := log }

/-- The end of an operation that leaves the commit to others. -/
def leave (s : GroupSys P) (p : P) (op : OpRecord) (log : LogState) : GroupSys P :=
  { (s.setProc p .idle).wakeup with log := log, ended := s.ended ++ [op] }

/-- The end of an operation that starts the commit. -/
def startCommit (s : GroupSys P) (p : P) (op : OpRecord) (log : LogState) : GroupSys P :=
  { s.setProc p .committing with log := log, ended := s.ended ++ [op] }

/-- `commit()`; it leaves `log.lh.n = 0`, also where there is nothing to write. -/
def commit (s : GroupSys P) (p : P) : GroupSys P :=
  { s.setProc p .committed with
    log := { s.log with lh := [] }
    ended := []
    commits := s.commits ++ [⟨s.log.lh, s.ended⟩] }

/-- The last section of `end_op`. -/
def commitDone (s : GroupSys P) (p : P) : GroupSys P :=
  { (s.setProc p .idle).wakeup with log := { s.log with committing := false } }

def exec (s : GroupSys P) (e : GroupEvent P) : Option (GroupSys P) :=
  if s.panicked.isSome then none
  else match e with
  | .beginOp p =>
    if s.procs p = .idle ∨ s.procs p = .woken then
      match s.log.beginOp with
      | none => some (s.setProc p .sleeping)
      | some log => some (s.enter p log)
    else none
  | .logWrite p blockno =>
    match s.procs p with
    | .inOp op =>
      match s.log.logWrite blockno with
      | .error panic => some { s with panicked := some panic }
      | .ok (log, _) => some (s.write p op blockno log)
    | _ => none
  | .endOp p =>
    match s.procs p with
    | .inOp op =>
      match s.log.endOp with
      | .error panic => some { s with panicked := some panic }
      | .ok (log, true) => some (s.startCommit p op log)
      | .ok (log, false) => some (s.leave p op log)
    | _ => none
  | .commit p => if s.procs p = .committing then some (s.commit p) else none
  | .commitDone p => if s.procs p = .committed then some (s.commitDone p) else none
  | .kill p => if s.procs p = .sleeping then some (s.setProc p .woken) else none

def Step (s : GroupSys P) (e : GroupEvent P) (t : GroupSys P) : Prop := s.exec e = some t

/-- The log as `initlog` leaves it, wherever it is, and no process in an operation. -/
def initial (P : Type) (area : Log) : GroupSys P where
  log := ⟨area, 0, false, []⟩
  procs := fun _ => .idle
  panicked := none
  nextOp := 0
  ended := []
  commits := []

/-! ### What one step does -/

/-- **The steps of the system**, with everything they test and change. -/
inductive Does (s : GroupSys P) : GroupEvent P → GroupSys P → Prop
  | sleep (p : P) (waiting : s.procs p = .idle ∨ s.procs p = .woken)
      (refused : s.log.beginOp = none) : Does s (.beginOp p) (s.setProc p .sleeping)
  | enter (p : P) (log : LogState) (waiting : s.procs p = .idle ∨ s.procs p = .woken)
      (admitted : s.log.beginOp = some log) : Does s (.beginOp p) (s.enter p log)
  | writePanic (p : P) (blockno : Nat) (op : OpRecord) (panic : LogPanic)
      (inside : s.procs p = .inOp op) (fails : s.log.logWrite blockno = .error panic) :
      Does s (.logWrite p blockno) { s with panicked := some panic }
  | write (p : P) (blockno : Nat) (op : OpRecord) (log : LogState) (pinned : Bool)
      (inside : s.procs p = .inOp op) (writes : s.log.logWrite blockno = .ok (log, pinned)) :
      Does s (.logWrite p blockno) (s.write p op blockno log)
  | endPanic (p : P) (op : OpRecord) (panic : LogPanic) (inside : s.procs p = .inOp op)
      (fails : s.log.endOp = .error panic) : Does s (.endOp p) { s with panicked := some panic }
  | startCommit (p : P) (op : OpRecord) (log : LogState) (inside : s.procs p = .inOp op)
      (last : s.log.endOp = .ok (log, true)) : Does s (.endOp p) (s.startCommit p op log)
  | leave (p : P) (op : OpRecord) (log : LogState) (inside : s.procs p = .inOp op)
      (others : s.log.endOp = .ok (log, false)) : Does s (.endOp p) (s.leave p op log)
  | commit (p : P) (running : s.procs p = .committing) : Does s (.commit p) (s.commit p)
  | commitDone (p : P) (done : s.procs p = .committed) : Does s (.commitDone p) (s.commitDone p)
  | kill (p : P) (asleep : s.procs p = .sleeping) : Does s (.kill p) (s.setProc p .woken)

theorem Step.does {s t : GroupSys P} {e : GroupEvent P} (step : Step s e t) :
    s.panicked = none ∧ Does s e t := by
  unfold Step exec at step
  split at step
  · cases step
  rename_i alive
  refine ⟨by simpa using alive, ?_⟩
  cases e with
  | beginOp p =>
    simp only at step
    split at step
    case isFalse => cases step
    rename_i waiting
    split at step
    · cases step
      exact .sleep p waiting ‹_›
    · cases step
      exact .enter p _ waiting ‹_›
  | logWrite p blockno =>
    simp only at step
    split at step
    case h_2 => cases step
    rename_i op inside
    split at step
    · cases step
      exact .writePanic p blockno op _ inside ‹_›
    · cases step
      exact .write p blockno op _ _ inside ‹_›
  | endOp p =>
    simp only at step
    split at step
    case h_2 => cases step
    rename_i op inside
    split at step
    · cases step
      exact .endPanic p op _ inside ‹_›
    · cases step
      exact .startCommit p op _ inside ‹_›
    · cases step
      exact .leave p op _ inside ‹_›
  | commit p =>
    obtain ⟨guard, rfl⟩ := of_guard step
    exact .commit p ‹_›
  | commitDone p =>
    obtain ⟨guard, rfl⟩ := of_guard step
    exact .commitDone p ‹_›
  | kill p =>
    obtain ⟨guard, rfl⟩ := of_guard step
    exact .kill p ‹_›

/-! ### Roles -/

variable {s t : GroupSys P} {e : GroupEvent P} {op : OpRecord} {p q : P} {pinned : Bool}
  {blockno : Nat} {proc : GroupProc} {log : LogState}

def roles (s : GroupSys P) (p : P) : LogRole := (s.procs p).role

theorem roles_setProc (s : GroupSys P) (p : P) (proc : GroupProc) :
    (s.setProc p proc).roles = update s.roles p proc.role :=
  funext fun q => apply_update (fun _ => GroupProc.role) s.procs p proc q

theorem roles_wakeup (s : GroupSys P) : s.wakeup.roles = s.roles := by
  funext q
  show (wokenProc (s.procs q)).role = (s.procs q).role
  cases s.procs q <;> rfl

theorem roles_setProc_same (proc : GroupProc) (same : s.roles p = proc.role) :
    (s.setProc p proc).roles = s.roles := by
  rw [roles_setProc, ← same, update_eq_self]

theorem role_commits : proc.Commits ↔ proc.role = .commits := by
  cases proc <;> simp [GroupProc.Commits, GroupProc.role]

theorem role_inOp : proc.role = .inOp ↔ ∃ op, proc = .inOp op := by
  cases proc <;> simp [GroupProc.role]

theorem role_of_waiting (waiting : s.procs p = .idle ∨ s.procs p = .woken) : s.roles p = .idle := by
  unfold roles
  obtain same | same := waiting
  · rw [same]
    rfl
  · rw [same]
    rfl

theorem wokenProc_ne_sleeping (proc : GroupProc) : wokenProc proc ≠ .sleeping := by
  cases proc <;> exact nofun

theorem wokenProc_eq_inOp : wokenProc proc = .inOp op ↔ proc = .inOp op := by
  cases proc <;> simp [wokenProc]

theorem wokenProc_eq_committed : wokenProc proc = .committed ↔ proc = .committed := by
  cases proc <;> simp [wokenProc]

/-! ### Operations, commits and sleepers -/

/-- **The control of the protocol.** -/
structure CtlInv (s : GroupSys P) : Prop where
  control : ∃ ops, Control ops s.log s.roles
  empty : s.log.outstanding = 0 → s.log.committing = false → s.log.lh = []
  cleared : ∀ p, s.procs p = .committed → s.log.lh = []
  waiting : ∀ p, s.procs p = .sleeping → 0 < s.log.outstanding ∨ s.log.committing = true
  calm : s.panicked ≠ some .logCommitting ∧ s.panicked ≠ some .logWriteOutsideOfTrans

theorem ctlInv_initial (area : Log) : CtlInv (initial P area) where
  control := ⟨∅, Control.initial area⟩
  empty := fun _ _ => rfl
  cleared := nofun
  waiting := nofun
  calm := ⟨nofun, nofun⟩

theorem roles_inOp (inside : s.procs p = .inOp op) : s.roles p = .inOp :=
  congrArg GroupProc.role inside

section

variable (inv : CtlInv s)

include inv

theorem CtlInv.nonneg : 0 ≤ s.log.outstanding := inv.control.choose_spec.nonneg

theorem CtlInv.pos (inside : s.procs p = .inOp op) : 0 < s.log.outstanding :=
  inv.control.choose_spec.pos (roles_inOp inside)

theorem CtlInv.not_committing (inside : s.procs p = .inOp op) : s.log.committing = false :=
  inv.control.choose_spec.not_committing (roles_inOp inside)

theorem CtlInv.committer (commits : (s.procs p).Commits) : s.log.committing = true :=
  inv.control.choose_spec.committing.mpr ⟨p, role_commits.mp commits⟩

theorem CtlInv.no_committer (free : s.log.committing = false) (q : P) : ¬ (s.procs q).Commits :=
  fun commits => inv.control.choose_spec.none_commits free q (role_commits.mp commits)

theorem CtlInv.refused (refused : s.log.beginOp = none) :
    0 < s.log.outstanding ∨ s.log.committing = true := by
  by_contra idle
  push Not at idle
  have zero : s.log.outstanding = 0 := le_antisymm idle.1 inv.nonneg
  have free : s.log.committing = false := Bool.not_eq_true _ ▸ idle.2
  unfold LogState.beginOp at refused
  have room : ¬ ((([] : List Nat).length : Int) + (0 + 1) * MAXOPBLOCKS > LOGSIZE) := by decide
  rw [free, inv.empty zero free, zero, if_neg Bool.false_ne_true, if_neg room] at refused
  cases refused

theorem CtlInv.control_step (does : Does s e t) : ∃ ops, Control ops t.log t.roles := by
  obtain ⟨ops, control⟩ := inv.control
  cases does with
  | sleep p waiting _ =>
    rw [roles_setProc_same .sleeping (role_of_waiting waiting)]
    exact ⟨ops, control⟩
  | enter p log waiting admitted =>
    have entered := control.enter (role_of_waiting waiting) admitted
    rw [← show GroupProc.role (.inOp ⟨s.nextOp, []⟩) = .inOp from rfl, ← roles_setProc] at entered
    exact ⟨_, entered⟩
  | writePanic | endPanic => exact ⟨ops, control⟩
  | write p blockno op log pinned inside writes =>
    obtain ⟨outstanding, committing, -⟩ := LogState.logWrite_keeps writes
    have written := control.congr outstanding committing
    rw [← roles_setProc_same (.inOp _) (roles_inOp inside)] at written
    exact ⟨ops, written⟩
  | startCommit p op log inside last =>
    have started := control.start (roles_inOp inside) last
    rw [← show GroupProc.committing.role = .commits from rfl, ← roles_setProc] at started
    exact ⟨∅, started⟩
  | leave p op log inside others =>
    have left := control.leave (roles_inOp inside) others
    rw [← show GroupProc.idle.role = .idle from rfl, ← roles_setProc, ← roles_wakeup] at left
    exact ⟨_, left⟩
  | commit p running =>
    have commits : s.roles p = .commits := congrArg GroupProc.role running
    have committed : Control ops { s.log with lh := [] } s.roles := control.congr rfl rfl
    rw [← roles_setProc_same .committed commits] at committed
    exact ⟨ops, committed⟩
  | commitDone p done =>
    have freed : Control ops { s.log with committing := false } (update s.roles p .idle) :=
      control.finish (congrArg GroupProc.role done) rfl rfl
    rw [← show GroupProc.idle.role = .idle from rfl, ← roles_setProc, ← roles_wakeup] at freed
    exact ⟨ops, freed⟩
  | kill p asleep =>
    have idle : s.roles p = .idle := congrArg GroupProc.role asleep
    rw [roles_setProc_same .woken idle]
    exact ⟨ops, control⟩

theorem CtlInv.empty_step (does : Does s e t) (none : t.log.outstanding = 0)
    (free : t.log.committing = false) : t.log.lh = [] := by
  cases does with
  | enter p log _ admitted =>
    obtain ⟨_, _, rfl⟩ := LogState.beginOp_some admitted
    have nonneg := inv.nonneg
    have above : s.log.outstanding + 1 = 0 := none
    omega
  | write p blockno op log pinned inside writes =>
    have pos := inv.pos inside
    rw [← (LogState.logWrite_keeps writes).1, show log.outstanding = 0 from none] at pos
    exact absurd pos (lt_irrefl 0)
  | startCommit p op log _ last =>
    obtain ⟨_, _, rfl⟩ := LogState.endOp_last last
    cases free
  | leave p op log _ others =>
    obtain ⟨_, more, rfl⟩ := LogState.endOp_others others
    have last : s.log.outstanding - 1 = 0 := none
    omega
  | commit => rfl
  | commitDone p done => exact inv.cleared p done
  | _ => exact inv.empty none free

theorem CtlInv.cleared_step (does : Does s e t) (done : t.procs q = .committed) :
    t.log.lh = [] := by
  cases does with
  | sleep p | kill p => exact inv.cleared q (of_update_eq done nofun).2
  | enter p log _ admitted =>
    obtain ⟨_, _, rfl⟩ := LogState.beginOp_some admitted
    exact inv.cleared q (of_update_eq done nofun).2
  | write p blockno op log pinned inside writes | startCommit p op log inside last =>
    exact absurd (Or.inr (of_update_eq done nofun).2)
      (inv.no_committer (inv.not_committing inside) q)
  | leave p op log inside others =>
    exact absurd (Or.inr (of_update_eq (wokenProc_eq_committed.mp done) nofun).2)
      (inv.no_committer (inv.not_committing inside) q)
  | commit => rfl
  | commitDone p _ =>
    exact inv.cleared q (of_update_eq (wokenProc_eq_committed.mp done) nofun).2
  | writePanic | endPanic => exact inv.cleared q done

theorem CtlInv.waiting_step (does : Does s e t) (asleep : t.procs q = .sleeping) :
    0 < t.log.outstanding ∨ t.log.committing = true := by
  cases does with
  | sleep p _ refused => exact inv.refused refused
  | enter p log _ admitted =>
    obtain ⟨_, _, rfl⟩ := LogState.beginOp_some admitted
    have nonneg := inv.nonneg
    exact Or.inl (Int.lt_add_one_of_le nonneg)
  | write p blockno op log pinned inside writes =>
    refine Or.inl ?_
    show 0 < log.outstanding
    rw [(LogState.logWrite_keeps writes).1]
    exact inv.pos inside
  | startCommit p op log _ last =>
    obtain ⟨_, _, rfl⟩ := LogState.endOp_last last
    exact Or.inr rfl
  | leave | commitDone => exact absurd asleep (wokenProc_ne_sleeping _)
  | commit p running => exact Or.inr (inv.committer (Or.inl running))
  | kill p _ =>
    exact inv.waiting q (of_update_eq asleep nofun).2
  | writePanic | endPanic => exact inv.waiting q asleep

theorem CtlInv.calm_step (does : Does s e t) :
    t.panicked ≠ some .logCommitting ∧ t.panicked ≠ some .logWriteOutsideOfTrans := by
  cases does with
  | writePanic p blockno op panic inside fails =>
    refine ⟨fun same => ?_, fun same => ?_⟩
    · obtain rfl := Option.some.inj same
      exact LogState.logWrite_not_committing fails
    · obtain rfl := Option.some.inj same
      have few := LogState.logWrite_outside fails
      have pos := inv.pos inside
      omega
  | endPanic p op panic inside fails =>
    have busy := LogState.endOp_panic fails
    rw [inv.not_committing inside] at busy
    cases busy
  | _ => exact inv.calm

theorem CtlInv.step (does : Does s e t) : CtlInv t where
  control := inv.control_step does
  empty := inv.empty_step does
  cleared := fun _ done => inv.cleared_step does done
  waiting := fun _ asleep => inv.waiting_step does asleep
  calm := inv.calm_step does

end

/-! ### Operations and commits -/

/-- The operations that have ended, in order. -/
def finished (s : GroupSys P) : List OpRecord := s.commits.flatMap CommitRecord.ops ++ s.ended

/-- **The account of the operations.** -/
structure OpsInv (s : GroupSys P) : Prop where
  /-- the header lists the blocks of the operations since the last commit -/
  written : ∀ b, b ∈ s.log.lh ↔
    (∃ op ∈ s.ended, b ∈ op.writes) ∨ ∃ p op, s.procs p = .inOp op ∧ b ∈ op.writes
  /-- a commit has the blocks of its operations -/
  whole : ∀ c ∈ s.commits, ∀ b, b ∈ c.blocks ↔ ∃ op ∈ c.ops, b ∈ op.writes
  once : (s.finished.map OpRecord.id).Nodup
  numbered : ∀ op ∈ s.finished, op.id < s.nextOp
  running : ∀ p op, s.procs p = .inOp op → op.id < s.nextOp ∧ ∀ old ∈ s.finished, old.id ≠ op.id
  distinct : ∀ p q op other, s.procs p = .inOp op → s.procs q = .inOp other → op.id = other.id →
    p = q
  known : ∀ k < s.nextOp, (∃ p op, s.procs p = .inOp op ∧ op.id = k) ∨ ∃ op ∈ s.finished, op.id = k
  settled : s.log.outstanding = 0 → s.log.committing = false → s.ended = []
  cleared : ∀ p, s.procs p = .committed → s.ended = []

theorem opsInv_initial (area : Log) : OpsInv (initial P area) where
  written := by
    refine fun b => ⟨nofun, ?_⟩
    rintro (⟨_, member, _⟩ | ⟨_, _, wrong, _⟩)
    · cases member
    · cases wrong
  whole := nofun
  once := List.nodup_nil
  numbered := nofun
  running := nofun
  distinct := nofun
  known := nofun
  settled := fun _ _ => rfl
  cleared := fun _ _ => rfl

section

variable {outstanding : Int} {committing : Bool} {procs : P → GroupProc}
  {panicked : Option LogPanic}

/-- A step that touches neither the header, nor the history, nor any operation in progress. -/
theorem OpsInv.quiet (ops : OpsInv s) (inOp : ∀ p op, procs p = .inOp op ↔ s.procs p = .inOp op)
    (settled : outstanding = 0 → committing = false → s.ended = [])
    (cleared : ∀ p, procs p = .committed → s.ended = []) :
    OpsInv { s with log := { s.log with outstanding, committing }, procs, panicked } where
  written := by simpa only [inOp] using ops.written
  whole := ops.whole
  once := ops.once
  numbered := ops.numbered
  running := fun p op here => ops.running p op ((inOp p op).mp here)
  distinct := by simpa only [inOp] using ops.distinct
  known := by simpa only [inOp, finished] using ops.known
  settled := settled
  cleared := cleared

theorem inOp_setProc (proc : GroupProc) (before : s.roles p ≠ .inOp) (after : proc.role ≠ .inOp)
    (q : P) (op : OpRecord) : (s.setProc p proc).procs q = .inOp op ↔ s.procs q = .inOp op := by
  show update s.procs p proc q = _ ↔ _
  refine update_ind (iff_of_false ?_ ?_) fun _ => Iff.rfl
  · exact fun here => after (role_inOp.mpr ⟨op, here⟩)
  · exact fun here => before (roles_inOp here)

theorem OpsInv.enter (ops : OpsInv s) (inv : CtlInv s)
    (waiting : s.procs p = .idle ∨ s.procs p = .woken) (admitted : s.log.beginOp = some log) :
    OpsInv (s.enter p log) := by
  obtain ⟨_, _, grown⟩ := LogState.beginOp_some admitted
  have idle := role_of_waiting waiting
  have here : ∀ {q op}, (s.enter p log).procs q = .inOp op →
      q = p ∧ op = ⟨s.nextOp, []⟩ ∨ s.procs q = .inOp op := by
    intro q op
    show update s.procs p _ q = _ → _
    exact update_ind (fun new => .inl ⟨rfl, (GroupProc.inOp.inj new).symm⟩) fun _ => .inr
  have kept : ∀ {q op}, s.procs q = .inOp op → (s.enter p log).procs q = .inOp op := by
    intro q op before
    have other : q ≠ p := by
      rintro rfl
      cases idle.symm.trans (roles_inOp before)
    exact (update_of_ne other _ _).trans before
  constructor
  case written =>
    intro b
    show b ∈ log.lh ↔ _
    rw [grown]
    refine (ops.written b).trans (or_congr Iff.rfl ⟨?_, ?_⟩)
    · rintro ⟨q, op, before, member⟩
      exact ⟨q, op, kept before, member⟩
    · rintro ⟨q, op, inside, member⟩
      obtain ⟨_, rfl⟩ | before := here inside
      · cases member
      · exact ⟨q, op, before, member⟩
  case whole => exact ops.whole
  case once => exact ops.once
  case numbered => exact fun op member => Nat.lt_succ_of_lt (ops.numbered op member)
  case running =>
    intro q op inside
    obtain ⟨_, rfl⟩ | before := here inside
    · exact ⟨Nat.lt_succ_self _, fun old member => (ops.numbered old member).ne⟩
    · exact ⟨Nat.lt_succ_of_lt (ops.running q op before).1, (ops.running q op before).2⟩
  case distinct =>
    intro q r op other first second same
    obtain ⟨rfl, rfl⟩ | before := here first
    · obtain ⟨rfl, _⟩ | also := here second
      · rfl
      · exact absurd same.symm (ops.running r other also).1.ne
    · obtain ⟨rfl, rfl⟩ | also := here second
      · exact absurd same (ops.running q op before).1.ne
      · exact ops.distinct q r op other before also same
  case known =>
    intro k below
    obtain earlier | last := Nat.lt_succ_iff_lt_or_eq.mp below
    · obtain ⟨q, op, before, id⟩ | done := ops.known k earlier
      · exact Or.inl ⟨q, op, kept before, id⟩
      · exact Or.inr done
    · exact Or.inl ⟨p, ⟨s.nextOp, []⟩, update_self _ _ _, last.symm⟩
  case settled =>
    intro none _
    have nonneg := inv.nonneg
    have above : log.outstanding = 0 := none
    rw [grown] at above
    have above : s.log.outstanding + 1 = 0 := above
    omega
  case cleared =>
    intro q done
    exact ops.cleared q (of_update_eq done nofun).2

theorem OpsInv.write (ops : OpsInv s) (inv : CtlInv s) (inside : s.procs p = .inOp op)
    (writes : s.log.logWrite blockno = .ok (log, pinned)) : OpsInv (s.write p op blockno log) := by
  obtain ⟨outstanding, _, lh⟩ := LogState.logWrite_keeps writes
  have self : (s.write p op blockno log).procs p =
    .inOp { op with writes := op.writes ++ [blockno] } :=
    update_self _ _ _
  have others : ∀ {q}, q ≠ p → (s.write p op blockno log).procs q = s.procs q :=
    fun other => update_of_ne other _ _
  -- every operation in progress has the number it had before
  have before : ∀ {q now}, (s.write p op blockno log).procs q = .inOp now →
      ∃ was, s.procs q = .inOp was ∧ was.id = now.id := by
    intro q now
    show update s.procs p _ q = _ → _
    refine update_ind (fun here => ?_) fun _ here => ⟨now, here, rfl⟩
    cases here
    exact ⟨op, inside, rfl⟩
  constructor
  case written =>
    intro b
    refine (lh b).trans ((or_congr_left (ops.written b)).trans ?_)
    rw [or_assoc]
    refine or_congr Iff.rfl ⟨?_, ?_⟩
    · rintro (⟨q, was, here, member⟩ | rfl)
      · by_cases same : q = p
        · subst same
          obtain rfl := GroupProc.inOp.inj (here.symm.trans inside)
          exact ⟨q, _, self, List.mem_append_left _ member⟩
        · exact ⟨q, was, (others same).trans here, member⟩
      · exact ⟨p, _, self, List.mem_append_right _ (List.mem_singleton_self _)⟩
    · rintro ⟨q, now, here, member⟩
      by_cases same : q = p
      · subst same
        rw [self] at here
        obtain rfl := GroupProc.inOp.inj here
        obtain old | new := List.mem_append.mp member
        · exact Or.inl ⟨q, op, inside, old⟩
        · exact Or.inr (List.mem_singleton.mp new)
      · exact Or.inl ⟨q, now, (others same).symm.trans here, member⟩
  case whole => exact ops.whole
  case once => exact ops.once
  case numbered => exact ops.numbered
  case running =>
    intro q now here
    obtain ⟨was, there, id⟩ := before here
    rw [← id]
    exact ops.running q was there
  case distinct =>
    intro q r now other first second same
    obtain ⟨was, there, id⟩ := before first
    obtain ⟨also, elsewhere, number⟩ := before second
    exact ops.distinct q r was also there elsewhere (id.trans (same.trans number.symm))
  case known =>
    intro k below
    obtain ⟨q, was, there, id⟩ | done := ops.known k below
    · by_cases same : q = p
      · subst same
        obtain rfl := GroupProc.inOp.inj (there.symm.trans inside)
        exact Or.inl ⟨q, _, self, id⟩
      · exact Or.inl ⟨q, was, (others same).trans there, id⟩
    · exact Or.inr done
  case settled =>
    intro none _
    have pos := inv.pos inside
    rw [← outstanding, show log.outstanding = 0 from none] at pos
    exact absurd pos (lt_irrefl 0)
  case cleared =>
    intro q done
    exact ops.cleared q (of_update_eq done nofun).2

/-- An operation ends: the process is in it no longer, and it joins those to be committed. -/
theorem OpsInv.finish (ops : OpsInv s) (inside : s.procs p = .inOp op)
    (inOp : ∀ q other, procs q = .inOp other ↔ q ≠ p ∧ s.procs q = .inOp other)
    (settled : outstanding = 0 → committing ≠ false) (cleared : ∀ q, procs q ≠ .committed) :
    OpsInv { s with
      log := { s.log with outstanding, committing }, procs, ended := s.ended ++ [op] } := by
  have finished : s.commits.flatMap CommitRecord.ops ++ (s.ended ++ [op]) = s.finished ++ [op] :=
    (List.append_assoc _ _ _).symm
  obtain ⟨below, new⟩ := ops.running p op inside
  constructor
  case written =>
    intro b
    refine (ops.written b).trans ?_
    constructor
    · rintro (⟨old, member, writes⟩ | ⟨q, other, here, writes⟩)
      · exact Or.inl ⟨old, List.mem_append_left _ member, writes⟩
      · by_cases same : q = p
        · subst same
          obtain rfl := GroupProc.inOp.inj (here.symm.trans inside)
          exact Or.inl ⟨_, List.mem_append_right _ (List.mem_singleton_self _), writes⟩
        · exact Or.inr ⟨q, other, (inOp q other).mpr ⟨same, here⟩, writes⟩
    · rintro (⟨old, member, writes⟩ | ⟨q, other, here, writes⟩)
      · obtain before | last := List.mem_append.mp member
        · exact Or.inl ⟨old, before, writes⟩
        · obtain rfl := List.mem_singleton.mp last
          exact Or.inr ⟨p, old, inside, writes⟩
      · exact Or.inr ⟨q, other, ((inOp q other).mp here).2, writes⟩
  case whole => exact ops.whole
  case once =>
    rw [GroupSys.finished, finished, List.map_append]
    refine List.Nodup.append ops.once (List.nodup_singleton _)
      (List.disjoint_singleton.mpr fun member => ?_)
    obtain ⟨old, inList, id⟩ := List.mem_map.mp member
    exact new old inList id
  case numbered =>
    intro old member
    rw [GroupSys.finished, finished] at member
    obtain before | last := List.mem_append.mp member
    · exact ops.numbered old before
    · rw [List.mem_singleton.mp last]
      exact below
  case running =>
    intro q other here
    obtain ⟨apart, there⟩ := (inOp q other).mp here
    obtain ⟨less, fresh⟩ := ops.running q other there
    rw [GroupSys.finished, finished]
    refine ⟨less, fun old member => ?_⟩
    obtain before | last := List.mem_append.mp member
    · exact fresh old before
    · rw [List.mem_singleton.mp last]
      exact fun same => apart (ops.distinct q p other op there inside same.symm)
  case distinct =>
    intro q r one two first second same
    exact ops.distinct q r one two ((inOp q one).mp first).2 ((inOp r two).mp second).2 same
  case known =>
    intro k less
    rw [GroupSys.finished, finished]
    obtain ⟨q, other, there, id⟩ | ⟨old, member, id⟩ := ops.known k less
    · by_cases same : q = p
      · subst same
        obtain rfl := GroupProc.inOp.inj (there.symm.trans inside)
        exact Or.inr ⟨_, List.mem_append_right _ (List.mem_singleton_self _), id⟩
      · exact Or.inl ⟨q, other, (inOp q other).mpr ⟨same, there⟩, id⟩
    · exact Or.inr ⟨old, List.mem_append_left _ member, id⟩
  case settled => exact fun none free => absurd free (settled none)
  case cleared => exact fun q done => absurd done (cleared q)

end

theorem OpsInv.commit (ops : OpsInv s) (inv : CtlInv s) (running : s.procs p = .committing) :
    OpsInv (s.commit p) := by
  have busy := inv.committer (Or.inl running)
  have nobody : ∀ q op, s.procs q ≠ .inOp op := by
    intro q op inside
    rw [inv.not_committing inside] at busy
    cases busy
  have still : ∀ q op, (s.commit p).procs q ≠ .inOp op := by
    intro q op inside
    exact nobody q op (of_update_eq inside nofun).2
  have finished : (s.commit p).finished = s.finished := by
    show (s.commits ++ [(⟨s.log.lh, s.ended⟩ : CommitRecord)]).flatMap CommitRecord.ops ++ [] = _
    rw [List.flatMap_append, List.flatMap_singleton, List.append_nil]
    rfl
  constructor
  case written =>
    refine fun b => ⟨nofun, ?_⟩
    rintro (⟨_, member, _⟩ | ⟨q, op, inside, _⟩)
    · cases member
    · exact absurd inside (still q op)
  case whole =>
    intro c member b
    obtain before | last := List.mem_append.mp member
    · exact ops.whole c before b
    · rw [List.mem_singleton.mp last]
      refine (ops.written b).trans (or_iff_left ?_)
      rintro ⟨q, op, inside, _⟩
      exact nobody q op inside
  case once =>
    rw [finished]
    exact ops.once
  case numbered =>
    rw [finished]
    exact ops.numbered
  case running => exact fun q op inside => absurd inside (still q op)
  case distinct => exact fun q r op other first => absurd first (still q op)
  case known =>
    intro k less
    rw [finished]
    obtain ⟨q, op, inside, _⟩ | done := ops.known k less
    · exact absurd inside (nobody q op)
    · exact Or.inr done
  case settled => exact fun _ _ => rfl
  case cleared => exact fun _ _ => rfl

theorem OpsInv.step (ops : OpsInv s) (inv : CtlInv s) (does : Does s e t) : OpsInv t := by
  cases does with
  | sleep p waiting _ =>
    have outside : s.roles p ≠ .inOp := by
      rw [role_of_waiting waiting]
      exact nofun
    refine ops.quiet (inOp_setProc .sleeping outside nofun) ops.settled fun q done => ?_
    exact ops.cleared q (of_update_eq done nofun).2
  | enter p log waiting admitted => exact ops.enter inv waiting admitted
  | writePanic | endPanic => exact ops.quiet (fun _ _ => Iff.rfl) ops.settled ops.cleared
  | write p blockno op log pinned inside writes => exact ops.write inv inside writes
  | startCommit p op log inside last =>
    obtain ⟨free, _, rfl⟩ := LogState.endOp_last last
    refine ops.finish inside (fun q other => ⟨fun here => ?_, fun both => ?_⟩) nofun
      fun q done => ?_
    · exact of_update_eq here nofun
    · exact (update_of_ne both.1 _ _).trans both.2
    · exact inv.no_committer free q (Or.inr (of_update_eq done nofun).2)
  | leave p op log inside others =>
    obtain ⟨free, more, rfl⟩ := LogState.endOp_others others
    refine ops.finish inside (fun q other => ⟨fun here => ?_, fun both => ?_⟩) (fun none => ?_)
      fun q done => ?_
    · exact of_update_eq (wokenProc_eq_inOp.mp here) nofun
    · exact wokenProc_eq_inOp.mpr ((update_of_ne both.1 _ _).trans both.2)
    · omega
    · exact inv.no_committer free q (Or.inr (of_update_eq (wokenProc_eq_committed.mp done) nofun).2)
  | commit p running => exact ops.commit inv running
  | commitDone p done =>
    have outside : s.roles p ≠ .inOp := by
      rw [show s.roles p = _ from congrArg GroupProc.role done]
      exact nofun
    refine ops.quiet (fun q op => ?_) (fun _ _ => ops.cleared p done) fun _ _ => ops.cleared p done
    exact wokenProc_eq_inOp.trans (inOp_setProc .idle outside nofun q op)
  | kill p asleep =>
    have outside : s.roles p ≠ .inOp := by
      rw [show s.roles p = _ from congrArg GroupProc.role asleep]
      exact nofun
    refine ops.quiet (inOp_setProc .woken outside nofun) ops.settled fun q done => ?_
    exact ops.cleared q (of_update_eq done nofun).2

/-! ### The protocol -/

structure GroupCommit (s : GroupSys P) : Prop where
  /-- a commit excludes operations -/
  exclusive : s.log.committing = true → s.log.outstanding = 0
  /-- from the `end_op` that starts a commit to its end, `committing` is set and nobody is between
  `begin_op` and `end_op`, so that nobody calls `log_write` -/
  alone : ∀ p, (s.procs p).Commits → s.log.committing = true ∧ ∀ q op, s.procs q ≠ .inOp op
  /-- two panics are not reached -/
  calm : s.panicked ≠ some .logCommitting ∧ s.panicked ≠ some .logWriteOutsideOfTrans
  /-- nothing is left in the header between two transactions, and no operation uncommitted -/
  empty : s.log.outstanding = 0 → s.log.committing = false → s.log.lh = [] ∧ s.ended = []
  /-- somebody asleep in `begin_op` waits for an `end_op` or a commit -/
  waiting : ∀ p, s.procs p = .sleeping → 0 < s.log.outstanding ∨ s.log.committing = true
  /-- a commit has the blocks of its operations, all of them and no others -/
  whole : ∀ c ∈ s.commits, ∀ b, b ∈ c.blocks ↔ ∃ op ∈ c.ops, b ∈ op.writes
  /-- an operation is in progress, or it has ended and is in one commit or in the next one -/
  known : ∀ k < s.nextOp, (∃ p op, s.procs p = .inOp op ∧ op.id = k) ∨ ∃ op ∈ s.finished, op.id = k
  /-- and in no other one -/
  once : (s.finished.map OpRecord.id).Nodup

/-- **Every run of any number of processes keeps the protocol**, for a log of any size and any
number of `log_write`s in an operation. -/
theorem group_commit {area : Log} {trace : List (GroupEvent P)}
    (run : Run Step (initial P area) trace s) : GroupCommit s := by
  obtain ⟨inv, ops⟩ : CtlInv s ∧ OpsInv s :=
    Run.inv (P := fun s => CtlInv s ∧ OpsInv s) ⟨ctlInv_initial area, opsInv_initial area⟩
      (fun both step => ⟨both.1.step step.does.2, both.2.step both.1 step.does.2⟩) run
  refine ⟨inv.control.choose_spec.exclusive,
    fun p commits => ⟨inv.committer commits, fun q op inside => ?_⟩, inv.calm,
    fun none free => ⟨inv.empty none free, ops.settled none free⟩, inv.waiting, ops.whole,
      ops.known, ops.once⟩
  have busy := inv.committer commits
  rw [inv.not_committing inside] at busy
  cases busy

/-- Two operations share a commit, while a third process finds it running and sleeps. -/
theorem group_commit_shared : ∃ s : GroupSys (Fin 3),
    Run Step (initial (Fin 3) ⟨2, 30⟩) [.beginOp 0, .beginOp 1, .logWrite 0 45, .logWrite 1 46,
      .endOp 0, .logWrite 1 45, .endOp 1, .beginOp 2, .commit 1] s ∧
    s.commits = [⟨[45, 46], [⟨0, [45]⟩, ⟨1, [46, 45]⟩]⟩] ∧ s.procs 2 = .sleeping ∧
      GroupCommit s := by
  obtain ⟨s, run, seen⟩ := run_of_observed (fun s : GroupSys (Fin 3) => (s.commits, s.procs 2))
    (show
      (execAll exec [.beginOp 0, .beginOp 1, .logWrite 0 45, .logWrite 1 46, .endOp 0,
        .logWrite 1 45,
      .endOp 1, .beginOp 2, .commit 1] (initial (Fin 3) ⟨2, 30⟩)).map _ =
      some ([⟨[45, 46], [⟨0, [45]⟩, ⟨1, [46, 45]⟩]⟩], .sleeping) by decide)
  obtain ⟨commits, asleep⟩ := Prod.mk.inj seen
  exact ⟨s, run, commits, asleep, group_commit run⟩

end GroupSys

end Xv6
