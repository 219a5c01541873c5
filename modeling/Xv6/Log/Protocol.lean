/-
**Group commit** (`kernel/log.c`): `begin_op`, `log_write`, `end_op` and the commit, interleaved by
any number of processes.

`LogSys` adds to the log what each process is doing, and `LogSys.exec` is one step of one process. A
process inside an operation carries the distinct blocks it has logged; a step that would take it
over `MAXOPBLOCKS` is not a step of the system, which is the promise of the callers.

`begin_op` reserves `LOGSIZE` blocks, while the log area of `LOGSIZE` blocks has room for one less
beside its header (`reservation_sufficient`).
-/

import Xv6.Log.Operations
import Xv6.Lib.Run

set_option linter.unusedSectionVars false

namespace Xv6

open Lib

/-! ### The system of processes -/

/-- What a process is doing with the log. -/
inductive LogProc
  /-- not in an operation -/
  | idle
  /-- asleep in `begin_op` -/
  | sleeping
  /-- woken in `begin_op`, about to test again -/
  | woken
  /-- between `begin_op` and `end_op`, having logged these blocks -/
  | inOp (logged : List Nat)
  /-- in `end_op`, running `commit()` -/
  | committing
  deriving DecidableEq

inductive LogEvent (P : Type)
  /-- enter `begin_op`, or test again after a wakeup -/
  | beginOp (p : P)
  | logWrite (p : P) (blockno : Nat)
  | endOp (p : P)
  /-- `commit()` returns -/
  | commitDone (p : P)
  /-- `kill` makes a sleeper runnable -/
  | kill (p : P)

/-- The log, the processes and the panic that stopped the system, if any. -/
structure LogSys (P : Type) where
  log : LogState
  procs : P → LogProc
  panicked : Option LogPanic

namespace LogSys

variable {P : Type} [DecidableEq P]

def setProc (s : LogSys P) (p : P) (st : LogProc) : LogSys P :=
  { s with procs := Function.update s.procs p st }

def wakeup (s : LogSys P) : LogSys P :=
  { s with procs := fun p => if s.procs p = .sleeping then .woken else s.procs p }

/-- The test of `begin_op` by process `p`. -/
def stepBegin (s : LogSys P) (p : P) : LogSys P :=
  match s.log.beginOp with
  | none => s.setProc p .sleeping
  | some log => { s with log := log }.setProc p (.inOp [])

/-- The distinct blocks of an operation after one more `log_write`. -/
def addBlock (logged : List Nat) (blockno : Nat) : List Nat :=
  if blockno ∈ logged then logged else logged ++ [blockno]

def exec (s : LogSys P) (e : LogEvent P) : Option (LogSys P) :=
  if s.panicked.isSome then none
  else match e with
  | .beginOp p =>
    match s.procs p with
    | .idle | .woken => some (s.stepBegin p)
    | _ => none
  | .logWrite p blockno =>
    match s.procs p with
    | .inOp logged =>
      if (addBlock logged blockno).length ≤ MAXOPBLOCKS then
        match s.log.logWrite blockno with
        | .error panic => some { s with panicked := some panic }
        | .ok (log, _) => some ({ s with log := log }.setProc p (.inOp (addBlock logged blockno)))
      else none
    | _ => none
  | .endOp p =>
    match s.procs p with
    | .inOp _ =>
      match s.log.endOp with
      | .error panic => some { s with panicked := some panic }
      | .ok (log, true) => some ({ s with log := log }.setProc p .committing)
      | .ok (log, false) => some (({ s with log := log }.setProc p .idle).wakeup)
    | _ => none
  | .commitDone p =>
    match s.procs p with
    | .committing => some (({ s with log := s.log.commitDone }.setProc p .idle).wakeup)
    | _ => none
  | .kill p =>
    match s.procs p with
    | .sleeping => some (s.setProc p .woken)
    | _ => none

def Step (s : LogSys P) (e : LogEvent P) (t : LogSys P) : Prop := s.exec e = some t

/-- The log as `initlog` leaves it, with `log.size` the `sb.nlog` that `mkfs` writes, and no process
in an operation. -/
def initial (P : Type) (start : Nat) : LogSys P :=
  ⟨⟨⟨start, LOGSIZE⟩, 0, false, []⟩, fun _ => .idle, none⟩

end LogSys

/-! ### What one step does -/

namespace LogSys

variable {P : Type} [DecidableEq P]

/-- **The steps of the system**, with everything they test and change. -/
inductive Does (s : LogSys P) : LogEvent P → LogSys P → Prop
  | sleep (p : P) (waiting : s.procs p = .idle ∨ s.procs p = .woken)
      (refused : s.log.beginOp = none) : Does s (.beginOp p) (s.setProc p .sleeping)
  | enter (p : P) (log : LogState) (waiting : s.procs p = .idle ∨ s.procs p = .woken)
      (admitted : s.log.beginOp = some log) :
      Does s (.beginOp p) ({ s with log := log }.setProc p (.inOp []))
  | writePanic (p : P) (blockno : Nat) (logged : List Nat) (panic : LogPanic)
      (inside : s.procs p = .inOp logged)
      (budget : (addBlock logged blockno).length ≤ MAXOPBLOCKS)
      (fails : s.log.logWrite blockno = .error panic) :
      Does s (.logWrite p blockno) { s with panicked := some panic }
  | write (p : P) (blockno : Nat) (logged : List Nat) (log : LogState) (pinned : Bool)
      (inside : s.procs p = .inOp logged)
      (budget : (addBlock logged blockno).length ≤ MAXOPBLOCKS)
      (writes : s.log.logWrite blockno = .ok (log, pinned)) :
      Does s (.logWrite p blockno)
        ({ s with log := log }.setProc p (.inOp (addBlock logged blockno)))
  | endPanic (p : P) (logged : List Nat) (panic : LogPanic) (inside : s.procs p = .inOp logged)
      (fails : s.log.endOp = .error panic) :
      Does s (.endOp p) { s with panicked := some panic }
  | startCommit (p : P) (logged : List Nat) (log : LogState) (inside : s.procs p = .inOp logged)
      (last : s.log.endOp = .ok (log, true)) :
      Does s (.endOp p) ({ s with log := log }.setProc p .committing)
  | leave (p : P) (logged : List Nat) (log : LogState) (inside : s.procs p = .inOp logged)
      (others : s.log.endOp = .ok (log, false)) :
      Does s (.endOp p) (({ s with log := log }.setProc p .idle).wakeup)
  | commitDone (p : P) (running : s.procs p = .committing) :
      Does s (.commitDone p) (({ s with log := s.log.commitDone }.setProc p .idle).wakeup)
  | kill (p : P) (asleep : s.procs p = .sleeping) : Does s (.kill p) (s.setProc p .woken)

/-- Inversion of a step: the system had not panicked, and the step is one of `Does`. -/
theorem Step.does {s t : LogSys P} {e : LogEvent P} (step : Step s e t) :
    s.panicked = none ∧ Does s e t := by
  unfold Step exec at step
  split at step
  · cases step
  rename_i alive
  refine ⟨by simpa using alive, ?_⟩
  cases e with
  | beginOp p =>
    simp only at step
    split at step
    case h_3 => cases step
    all_goals
      rename_i waiting
      cases step
      unfold stepBegin
      split
      · exact .sleep p (by simp [waiting]) ‹_›
      · exact .enter p _ (by simp [waiting]) ‹_›
  | logWrite p blockno =>
    simp only at step
    split at step
    case h_2 => cases step
    rename_i logged inside
    split at step
    · split at step
      · cases step
        exact .writePanic p blockno logged _ inside ‹_› ‹_›
      · cases step
        exact .write p blockno logged _ _ inside ‹_› ‹_›
    · cases step
  | endOp p =>
    simp only at step
    split at step
    case h_2 => cases step
    rename_i logged inside
    split at step
    · cases step
      exact .endPanic p logged _ inside ‹_›
    · cases step
      exact .startCommit p logged _ inside ‹_›
    · cases step
      exact .leave p logged _ inside ‹_›
  | commitDone p =>
    simp only at step
    split at step
    case h_2 => cases step
    cases step
    exact .commitDone p ‹_›
  | kill p =>
    simp only at step
    split at step
    case h_2 => cases step
    cases step
    exact .kill p ‹_›

end LogSys

/-! ### The capacity of a transaction -/

section Capacity

variable {P : Type} [DecidableEq P]

open LogSys Function

namespace LogProc

/-- What a process does with the log, without where it waits in `begin_op`. -/
def role : LogProc → LogRole
  | .inOp _ => .inOp
  | .committing => .commits
  | .idle | .sleeping | .woken => .idle

/-- The blocks that a process has logged in its operation. -/
def blocks : LogProc → List Nat
  | .inOp logged => logged
  | _ => []

end LogProc

/-- A `log_write` leaves its operation below `MAXOPBLOCKS` blocks. -/
def LogSys.Thrifty (s : LogSys P) : LogEvent P → Prop
  | .logWrite p blockno => (addBlock (s.procs p).blocks blockno).length < MAXOPBLOCKS
  | _ => True

def LogSys.ThriftyStep (s : LogSys P) (e : LogEvent P) (t : LogSys P) : Prop :=
  Step s e t ∧ s.Thrifty e

def LogSys.roles (s : LogSys P) (p : P) : LogRole := (s.procs p).role

def LogSys.blocks (s : LogSys P) (p : P) : List Nat := (s.procs p).blocks

theorem roles_setProc (s : LogSys P) (p : P) (st : LogProc) :
    (s.setProc p st).roles = update s.roles p st.role :=
  funext fun q => apply_update (fun _ => LogProc.role) s.procs p st q

theorem blocks_setProc (s : LogSys P) (p : P) (st : LogProc) :
    (s.setProc p st).blocks = update s.blocks p st.blocks :=
  funext fun q => apply_update (fun _ => LogProc.blocks) s.procs p st q

/-- `wakeup` moves processes within `begin_op` only. -/
theorem wakeup_same (s : LogSys P) : s.wakeup.roles = s.roles ∧ s.wakeup.blocks = s.blocks := by
  refine ⟨funext fun q => ?_, funext fun q => ?_⟩
  all_goals
    simp only [roles, blocks, wakeup]
    split
    next asleep =>
      rw [asleep]
      rfl
    next => rfl

/-- What an operation may still log if it stays below `MAXOPBLOCKS` blocks. -/
def spare (logged : List Nat) : Nat := MAXOPBLOCKS - 1 - logged.length

/-- **The log covers what the operations in progress may still log.** -/
structure LogInv (start : Nat) (ops : Finset P) (log : LogState) (role : P → LogRole)
    (blocks : P → List Nat) : Prop extends Control ops log role where
  area : log.toLog = ⟨start, LOGSIZE⟩
  logged : ∀ p ∈ ops, blocks p ⊆ log.lh
  /-- nothing is logged before the first operation of a transaction -/
  clean : log.committing = false → ops = ∅ → log.lh = []
  room : log.lh.length + ∑ p ∈ ops, spare (blocks p) ≤ LOGSIZE - 2

theorem logInv_initial (start : Nat) :
    LogInv start ∅ (initial P start).log (initial P start).roles (initial P start).blocks where
  toControl := Control.initial _
  area := rfl
  logged := fun p member => absurd member (Finset.notMem_empty p)
  clean := fun _ _ => rfl
  room := Nat.zero_le _

/-- The panic needs a header that is full. -/
theorem logWrite_error {log : LogState} (size : log.size = LOGSIZE) {blockno : Nat}
    (fails : log.logWrite blockno = .error .tooBigATransaction) : LOGSIZE - 1 ≤ log.lh.length := by
  have value : LOGSIZE = 30 := rfl
  unfold LogState.logWrite at fails
  split at fails
  · omega
  · split at fails
    · cases fails
    · split at fails <;> cases fails

theorem sum_spare_le (ops : Finset P) (blocks : P → List Nat) :
    ∑ p ∈ ops, spare (blocks p) ≤ ops.card * (MAXOPBLOCKS - 1) :=
  Finset.sum_le_card_nsmul ops _ _ fun _ _ => Nat.sub_le _ _

/-- What is left to the operations when one of them logs. -/
theorem sum_spare_update {ops : Finset P} {p : P} (inside : p ∈ ops) (blocks : P → List Nat)
    (logged : List Nat) :
    ∑ q ∈ ops, spare (update blocks p logged q) + spare (blocks p) =
      ∑ q ∈ ops, spare (blocks q) + spare logged := by
  have moved : ∀ q, spare (update blocks p logged q) =
      update (fun q => spare (blocks q)) p (spare logged) q :=
    apply_update (fun _ => spare) blocks p logged
  rw [Finset.sum_congr rfl fun q _ => moved q, Finset.sum_update_of_mem inside,
    Finset.sum_eq_add_sum_sdiff_singleton_of_mem inside fun q => spare (blocks q)]
  omega

theorem sum_spare_other {ops : Finset P} {p : P} (outside : p ∉ ops) (blocks : P → List Nat)
    (logged : List Nat) :
    ∑ q ∈ ops, spare (update blocks p logged q) = ∑ q ∈ ops, spare (blocks q) := by
  refine Finset.sum_congr rfl fun q member => ?_
  rw [update_of_ne]
  rintro rfl
  exact outside member

namespace LogInv

variable {start : Nat} {ops : Finset P} {log log' : LogState} {role : P → LogRole}
  {blocks : P → List Nat} {p : P}

/-- **`begin_op` reserves.** Besides an operation in progress there are at most `LOGSIZE` blocks
for all of them, one less for each than `MAXOPBLOCKS`. -/
theorem enter (inv : LogInv start ops log role blocks) (idle : role p = .idle)
    (admitted : log.beginOp = some log') :
    LogInv start (insert p ops) log' (update role p .inOp) (update blocks p []) := by
  have control := inv.toControl.enter idle admitted
  have outside := inv.outside idle
  obtain ⟨free, fits, rfl⟩ := LogState.beginOp_some admitted
  refine ⟨control, inv.area, fun q member => ?_,
    fun _ none => absurd none (Finset.insert_ne_empty p ops), ?_⟩
  · refine update_ind (List.nil_subset _) fun other => ?_
    exact inv.logged q ((Finset.mem_insert.mp member).resolve_left other)
  · have most := sum_spare_le ops blocks
    have counted := inv.outstanding
    have new : spare (update blocks p [] p) = 9 := by rw [update_self]; rfl
    rw [Finset.sum_insert outside, sum_spare_other outside, new]
    simp only [MAXOPBLOCKS, LOGSIZE] at *
    rcases ops.eq_empty_or_nonempty with rfl | some
    · simp [inv.clean free rfl]
    · have := some.card_pos
      show log.lh.length + _ ≤ _
      omega

/-- A new block takes one of the blocks that its operation has left. -/
theorem write (inv : LogInv start ops log role blocks) (inside : role p = .inOp) {blockno : Nat}
    (thrifty : (addBlock (blocks p) blockno).length < MAXOPBLOCKS) {new : Bool}
    (writes : log.logWrite blockno = .ok (log', new)) :
    LogInv start ops log' role (update blocks p (addBlock (blocks p) blockno)) := by
  have member := (inv.members p).mpr inside
  have before := inv.logged p member
  have sum := sum_spare_update member blocks (addBlock (blocks p) blockno)
  have room := inv.room
  obtain ⟨count, busy, more⟩ := LogState.logWrite_keeps writes
  -- where the block goes: the header has it already, or gets it
  have outcome : log'.toLog = log.toLog ∧
      log'.lh.length + spare (addBlock (blocks p) blockno) ≤
        log.lh.length + spare (blocks p) := by
    cases new with
    | false =>
      obtain ⟨-, rfl⟩ := LogState.logWrite_again writes
      refine ⟨rfl, Nat.add_le_add_left (Nat.sub_le_sub_left ?_ _) _⟩
      unfold addBlock
      split <;> simp
    | true =>
      obtain ⟨fresh, rfl⟩ := LogState.logWrite_new writes
      have notYet : blockno ∉ blocks p := fun again => fresh (before again)
      have longer : (addBlock (blocks p) blockno).length = (blocks p).length + 1 := by
        simp [addBlock, notYet]
      refine ⟨rfl, ?_⟩
      simp only [spare, longer, List.length_append, List.length_singleton, MAXOPBLOCKS] at *
      omega
  refine ⟨inv.congr count busy, outcome.1.trans inv.area, fun q member => ?_,
    fun _ none => absurd none (Finset.ne_empty_of_mem member), by omega⟩
  refine update_ind (fun b logged => ?_) fun _ b logged =>
    (more b).mpr (.inl (inv.logged q member logged))
  unfold addBlock at logged
  split at logged
  · exact (more b).mpr (.inl (before logged))
  · refine (more b).mpr ((List.mem_append.mp logged).imp (fun old => before old) fun last => ?_)
    exact List.mem_singleton.mp last

/-- An operation ends: its reservation is given back. -/
theorem ends (inv : LogInv start ops log role blocks) {ops' : Finset P} {role' : P → LogRole}
    {outstanding : Int} {committing : Bool}
    (control : Control ops' { log with outstanding, committing } role')
    (fewer : ops' ⊆ ops.erase p) (others : committing = false → ops' ≠ ∅) :
    LogInv start ops' { log with outstanding, committing } role' (update blocks p []) := by
  have apart : p ∉ ops' := fun member => Finset.notMem_erase p ops (fewer member)
  have subset := fewer.trans (Finset.erase_subset p ops)
  refine ⟨control, inv.area, fun q member => ?_, fun free none => absurd none (others free), ?_⟩
  · exact update_ind (List.nil_subset _) fun _ => inv.logged q (subset member)
  · rw [sum_spare_other apart]
    exact (Nat.add_le_add_left (Finset.sum_le_sum_of_subset subset) _).trans inv.room

/-- The commit clears the header, while nobody is in an operation. -/
theorem commitDone (inv : LogInv start ops log role blocks) (running : role p = .commits) :
    LogInv start ops log.commitDone (update role p .idle) (update blocks p []) := by
  obtain rfl := inv.none_in_op running
  exact ⟨inv.finish running rfl rfl, inv.area,
    fun q member => absurd member (Finset.notMem_empty q), fun _ _ => rfl, Nat.zero_le _⟩

/-- **One step**, of an operation that stays below `MAXOPBLOCKS` blocks. -/
theorem step {s t : LogSys P} {e : LogEvent P} (inv : LogInv start ops s.log s.roles s.blocks)
    (step : ThriftyStep s e t) : (∃ ops', LogInv start ops' t.log t.roles t.blocks) ∧
      t.panicked ≠ some .tooBigATransaction := by
  obtain ⟨step, thrifty⟩ := step
  obtain ⟨alive, does⟩ := step.does
  have notYet : s.panicked ≠ some .tooBigATransaction := by rw [alive]; exact nofun
  have role : ∀ {q : P} {st : LogProc}, s.procs q = st → s.roles q = st.role := fun here =>
    congrArg LogProc.role here
  have logged : ∀ {q : P} {st : LogProc}, s.procs q = st → s.blocks q = st.blocks := fun here =>
    congrArg LogProc.blocks here
  -- a process that moves within `begin_op`
  have moves : ∀ {q : P} {st st' : LogProc}, s.procs q = st → st'.role = st.role →
      st'.blocks = st.blocks → LogInv start ops (s.setProc q st').log (s.setProc q st').roles
        (s.setProc q st').blocks := by
    intro q st st' here sameRole sameBlocks
    rw [roles_setProc, blocks_setProc, sameRole, sameBlocks, ← role here, ← logged here,
      update_eq_self, update_eq_self]
    exact inv
  cases does with
  | sleep p waiting _ => exact ⟨⟨ops, waiting.elim (moves · rfl rfl) (moves · rfl rfl)⟩, notYet⟩
  | kill p asleep => exact ⟨⟨ops, moves asleep rfl rfl⟩, notYet⟩
  | enter p log waiting admitted =>
    have idle : s.roles p = .idle := by rcases waiting with here | here <;> exact role here
    rw [roles_setProc, blocks_setProc]
    exact ⟨⟨_, inv.enter idle admitted⟩, notYet⟩
  | writePanic p blockno logged panic _ _ fails =>
    refine ⟨⟨ops, inv⟩, fun tooBig => ?_⟩
    cases Option.some.inj tooBig
    have full := logWrite_error (congrArg Log.size inv.area) fails
    have room := inv.room
    have value : LOGSIZE = 30 := rfl
    omega
  | write p blockno blocks log new inside _ writes =>
    simp only [Thrifty] at thrifty
    have written := inv.write (role inside) thrifty writes
    have still : update s.roles p .inOp = s.roles := by
      rw [← show s.roles p = .inOp from role inside, update_eq_self]
    rw [logged inside, ← still] at written
    rw [roles_setProc, blocks_setProc]
    exact ⟨⟨_, written⟩, notYet⟩
  | endPanic p logged panic _ fails =>
    refine ⟨⟨ops, inv⟩, fun tooBig => ?_⟩
    cases Option.some.inj tooBig
    unfold LogState.endOp at fails
    simp only at fails
    split at fails
    · cases fails
    · split at fails <;> cases fails
  | startCommit p logged log inside last =>
    have control := inv.start (role inside) last
    obtain ⟨-, -, rfl⟩ := LogState.endOp_last last
    rw [roles_setProc, blocks_setProc]
    exact ⟨⟨∅, inv.ends control (Finset.empty_subset _) nofun⟩, notYet⟩
  | leave p logged log inside others =>
    have control := inv.leave (role inside) others
    obtain ⟨-, more, rfl⟩ := LogState.endOp_others others
    rw [(wakeup_same _).1, (wakeup_same _).2, roles_setProc, blocks_setProc]
    refine ⟨⟨_, inv.ends control subset_rfl fun _ none => more ?_⟩, notYet⟩
    have count : s.log.outstanding - 1 = _ := control.outstanding
    rw [none, Finset.card_empty] at count
    omega
  | commitDone p running =>
    rw [(wakeup_same _).1, (wakeup_same _).2, roles_setProc, blocks_setProc]
    exact ⟨⟨ops, inv.commitDone (role running)⟩, notYet⟩

end LogInv

/-- The blocks to which `write_log` copies the transaction. -/
def LogState.logSlots (log : LogState) : List Nat :=
  (List.range log.lh.length).map fun tail => log.start + tail + 1

/-- **When the reservation of `begin_op` is sufficient.** Along every run of any number of
processes, from the log that `mkfs` lays out, in which every operation logs fewer than `MAXOPBLOCKS`
distinct blocks: `log_write` does not panic with `too big a transaction`, and every copy that
`write_log` makes lands in `[log.start + 1, log.start + log.size)`. -/
theorem reservation_sufficient {start : Nat} {trace : List (LogEvent P)} {s : LogSys P}
    (run : Run ThriftyStep (initial P start) trace s) : s.panicked ≠ some .tooBigATransaction ∧
      ∀ slot ∈ s.log.logSlots, s.log.start + 1 ≤ slot ∧ slot < s.log.start + s.log.size := by
  obtain ⟨⟨ops, inv⟩, alive⟩ :=
    Run.inv (P := fun s => (∃ ops, LogInv start ops s.log s.roles s.blocks) ∧
        s.panicked ≠ some .tooBigATransaction)
      ⟨⟨∅, logInv_initial start⟩, Option.some_ne_none _ ∘ Eq.symm⟩
      (fun before step => before.1.choose_spec.step step) run
  refine ⟨alive, fun slot member => ?_⟩
  obtain ⟨tail, inside, rfl⟩ := List.mem_map.mp member
  have size : s.log.size = LOGSIZE := congrArg Log.size inv.area
  have value : LOGSIZE = 30 := rfl
  have room := inv.room
  rw [List.mem_range] at inside
  omega

instance (s : LogSys P) (e : LogEvent P) : Decidable (s.Thrifty e) :=
  match e with
  | .logWrite _ _ => Nat.decLt _ _
  | .beginOp _ | .endOp _ | .commitDone _ | .kill _ => isTrue trivial

def LogSys.execThrifty (s : LogSys P) (e : LogEvent P) : Option (LogSys P) :=
  if s.Thrifty e then s.exec e else none

theorem thriftyStep_of_exec {s t : LogSys P} {e : LogEvent P} (done : s.execThrifty e = some t) :
    ThriftyStep s e t := by
  obtain ⟨thrifty, step⟩ := Option.ite_none_right_eq_some.mp done
  exact ⟨step, thrifty⟩

end Capacity

/-! ### Runs that execute -/

/-- Three operations at a time, each of which logs `n` blocks of its own. -/
def threeOperations (n : Nat) : List (LogEvent (Fin 3)) :=
  [.beginOp 0, .beginOp 1, .beginOp 2] ++
    (List.range (3 * n)).map fun i => .logWrite (Fin.ofNat 3 i) (100 + i)

/-- The theorem for three operations of nine blocks: 27 slots are written, all inside the log. -/
theorem reservation_sufficient_nine : ∃ s,
    Run LogSys.ThriftyStep (LogSys.initial (Fin 3) 2) (threeOperations 9) s ∧
      s.log.logSlots.length = 27 ∧
      ∀ slot ∈ s.log.logSlots, s.log.start + 1 ≤ slot ∧ slot < s.log.start + s.log.size := by
  obtain ⟨s, executed, slots⟩ := run_of_observed (fun s : LogSys (Fin 3) => s.log.logSlots.length)
    (by decide : (execAll LogSys.execThrifty (threeOperations 9) (LogSys.initial (Fin 3) 2)).map _ =
      some 27)
  have run := executed.mono thriftyStep_of_exec
  exact ⟨s, run, slots, (reservation_sufficient run).2⟩

/-- **The reservation is one block short.** Three operations that `begin_op` admits together and
that stay within their budget of `MAXOPBLOCKS` blocks end in the panic of `log_write`. -/
theorem three_full_operations_panic : ¬ ∀ (trace : List (LogEvent (Fin 3))) (s : LogSys (Fin 3)),
      Run LogSys.Step (LogSys.initial (Fin 3) 2) trace s →
      s.panicked ≠ some .tooBigATransaction := by
  intro safe
  obtain ⟨s, run, panic⟩ := run_of_observed LogSys.panicked
    (by decide : (execAll LogSys.exec (threeOperations 10) (LogSys.initial (Fin 3) 2)).map _ =
      some (some LogPanic.tooBigATransaction))
  exact safe (threeOperations 10) s run panic

end Xv6
