/-
**Operations and commits of the log** (`kernel/log.c`).

`struct log` is `LogState`; the sections under `log.lock` are its functions `beginOp`, `logWrite`
and `endOp`. Whatever else a system keeps track of, each of its processes has one of three roles,
and `Control` is what the sections keep of them.
-/

import Xv6.Log.Disk
import Xv6.Lib.Update

namespace Xv6

open Lib Function

/-- The panics of `log.c`. -/
inductive LogPanic
  /-- `"too big a transaction"` -/
  | tooBigATransaction
  /-- `"log_write outside of trans"` -/
  | logWriteOutsideOfTrans
  /-- `"log.committing"` -/
  | logCommitting
  deriving DecidableEq

/-- `struct log`: where the log is, and the transaction in progress. -/
structure LogState extends Log where
  /-- how many FS sys calls are executing -/
  outstanding : Int
  /-- in `commit()`, please wait -/
  committing : Bool
  /-- `lh.block[0..lh.n)` -/
  lh : List Nat

namespace LogState

/-- The test of `begin_op`; `none` means the caller sleeps on the log. -/
def beginOp (log : LogState) : Option LogState :=
  if log.committing then none
  else if log.lh.length + (log.outstanding + 1) * MAXOPBLOCKS > LOGSIZE then none
  else some { log with outstanding := log.outstanding + 1 }

/-- `log_write`; the flag says whether the block is new to the transaction and gets pinned. -/
def logWrite (log : LogState) (blockno : Nat) : Except LogPanic (LogState × Bool) :=
  if log.lh.length ≥ LOGSIZE ∨ (log.lh.length : Int) ≥ log.size - 1 then
    .error .tooBigATransaction
  else if log.outstanding < 1 then .error .logWriteOutsideOfTrans
  else if blockno ∈ log.lh then .ok (log, false)
  else .ok ({ log with lh := log.lh ++ [blockno] }, true)

/-- The first section of `end_op`; the flag is `do_commit`. -/
def endOp (log : LogState) : Except LogPanic (LogState × Bool) :=
  let log := { log with outstanding := log.outstanding - 1 }
  if log.committing then .error .logCommitting
  else if log.outstanding = 0 then .ok ({ log with committing := true }, true)
  else .ok (log, false)

/-- The end of a commit: `log.lh.n = 0`, then the last section of `end_op`. -/
def commitDone (log : LogState) : LogState := { log with lh := [], committing := false }

/-! ### What the sections do -/

variable {log log' : LogState} {b : Nat}

/-- `begin_op` admits an operation. -/
theorem beginOp_some (admitted : log.beginOp = some log') :
    log.committing = false ∧
      log.lh.length + (log.outstanding + 1) * MAXOPBLOCKS ≤ LOGSIZE ∧
      log' = { log with outstanding := log.outstanding + 1 } := by
  unfold LogState.beginOp at admitted
  split at admitted
  · cases admitted
  · split at admitted
    · cases admitted
    · rename_i free fits
      exact ⟨by simpa using free, not_lt.mp fits, (Option.some.inj admitted).symm⟩

/-- `log_write` of a block that is new to the transaction. -/
theorem logWrite_new (writes : log.logWrite b = .ok (log', true)) :
    b ∉ log.lh ∧ log' = { log with lh := log.lh ++ [b] } := by
  unfold LogState.logWrite at writes
  split at writes
  · cases writes
  split at writes
  · cases writes
  split at writes
  · cases writes
  · cases writes
    exact ⟨‹_›, rfl⟩

/-- `log_write` of a block that the transaction has already: absorption. -/
theorem logWrite_again (writes : log.logWrite b = .ok (log', false)) : b ∈ log.lh ∧ log' = log := by
  unfold LogState.logWrite at writes
  split at writes
  · cases writes
  split at writes
  · cases writes
  split at writes
  · cases writes
    exact ⟨‹_›, rfl⟩
  · cases writes

/-- The `end_op` that has to commit. -/
theorem endOp_last (ends : log.endOp = .ok (log', true)) :
    log.committing = false ∧ log.outstanding = 1 ∧
      log' = { log with outstanding := 0, committing := true } := by
  unfold LogState.endOp at ends
  simp only at ends
  split at ends
  · cases ends
  rename_i free
  split at ends
  · rename_i zero
    cases ends
    exact ⟨by simpa using free, by omega, by rw [zero]⟩
  · cases ends

/-- An `end_op` that leaves the commit to others. -/
theorem endOp_others (ends : log.endOp = .ok (log', false)) :
    log.committing = false ∧ log.outstanding ≠ 1 ∧
      log' = { log with outstanding := log.outstanding - 1 } := by
  unfold LogState.endOp at ends
  simp only at ends
  split at ends
  · cases ends
  rename_i free
  split at ends
  · cases ends
  · rename_i more
    cases ends
    exact ⟨by simpa using free, fun one => more (by rw [one]; rfl), rfl⟩

/-- `log_write` changes the header only, and adds the block to it. -/
theorem logWrite_keeps {pinned : Bool} (writes : log.logWrite b = .ok (log', pinned)) :
    log'.outstanding = log.outstanding ∧ log'.committing = log.committing ∧
      ∀ c, c ∈ log'.lh ↔ c ∈ log.lh ∨ c = b := by
  cases pinned with
  | true =>
    obtain ⟨_, rfl⟩ := logWrite_new writes
    exact ⟨rfl, rfl, fun c => by simp⟩
  | false =>
    obtain ⟨known, rfl⟩ := logWrite_again writes
    exact ⟨rfl, rfl, fun c => ⟨Or.inl, fun either => either.elim id fun same => same ▸ known⟩⟩

theorem logWrite_outside (fails : log.logWrite b = .error .logWriteOutsideOfTrans) :
    log.outstanding < 1 := by
  unfold LogState.logWrite at fails
  split at fails
  · cases fails
  split at fails
  · assumption
  · split at fails <;> cases fails

theorem logWrite_not_committing : log.logWrite b ≠ .error .logCommitting := by
  intro fails
  unfold LogState.logWrite at fails
  split at fails
  · cases fails
  split at fails
  · cases fails
  · split at fails <;> cases fails

theorem endOp_panic {panic : LogPanic} (fails : log.endOp = .error panic) :
    log.committing = true := by
  unfold LogState.endOp at fails
  simp only at fails
  split at fails
  · assumption
  · split at fails <;> cases fails

end LogState

/-! ### Who is in an operation and who commits -/

/-- What a process is doing with the log. -/
inductive LogRole
  | idle
  /-- between `begin_op` and `end_op` -/
  | inOp
  /-- from the first section of `end_op` that commits to the last one -/
  | commits
  deriving DecidableEq

/-- **Operations are counted, and a commit excludes them.** -/
structure Control {P : Type} (ops : Finset P) (log : LogState) (role : P → LogRole) : Prop where
  members : ∀ p, p ∈ ops ↔ role p = .inOp
  outstanding : log.outstanding = ops.card
  committing : log.committing = true ↔ ∃ p, role p = .commits
  alone : ∀ p q, role p = .commits → role q ≠ .idle → q = p

namespace Control

variable {P : Type} {ops : Finset P} {log log' : LogState} {role : P → LogRole} {p : P}

theorem initial (area : Log) : Control (P := P) ∅ ⟨area, 0, false, []⟩ fun _ => .idle where
  members := fun p => ⟨fun member => absurd member (Finset.notMem_empty p), nofun⟩
  outstanding := rfl
  committing := ⟨nofun, nofun⟩
  alone := nofun

variable (control : Control ops log role)

include control

theorem nonneg : 0 ≤ log.outstanding := by
  rw [control.outstanding]
  exact Int.natCast_nonneg _

theorem outside (idle : role p = .idle) : p ∉ ops := by
  intro member
  rw [(control.members p).mp member] at idle
  cases idle

/-- Nobody is in an operation while somebody commits. -/
theorem none_in_op (commits : role p = .commits) : ops = ∅ := by
  refine Finset.eq_empty_of_forall_notMem fun q member => ?_
  have inside := (control.members q).mp member
  rw [control.alone p q commits (inside ▸ nofun), commits] at inside
  cases inside

theorem exclusive (busy : log.committing = true) : log.outstanding = 0 := by
  obtain ⟨p, commits⟩ := control.committing.mp busy
  rw [control.outstanding, control.none_in_op commits]
  rfl

theorem pos (inside : role p = .inOp) : 0 < log.outstanding := by
  rw [control.outstanding]
  exact Int.natCast_pos.mpr (Finset.card_pos.mpr ⟨p, (control.members p).mpr inside⟩)

theorem not_committing (inside : role p = .inOp) : log.committing = false := by
  refine Bool.eq_false_iff.mpr fun busy => ?_
  have zero := control.exclusive busy
  have pos := control.pos inside
  omega

theorem none_commits (free : log.committing = false) (p : P) : role p ≠ .commits := by
  intro commits
  rw [control.committing.mpr ⟨p, commits⟩] at free
  cases free

/-- The other sections change neither `outstanding` nor `committing`. -/
theorem congr (outstanding : log'.outstanding = log.outstanding)
    (committing : log'.committing = log.committing) : Control ops log' role where
  members := control.members
  outstanding := outstanding.trans control.outstanding
  committing := by
    rw [committing]
    exact control.committing
  alone := control.alone

variable [DecidableEq P]

theorem enter (idle : role p = .idle) (admitted : log.beginOp = some log') :
    Control (insert p ops) log' (update role p .inOp) := by
  obtain ⟨free, -, rfl⟩ := LogState.beginOp_some admitted
  have outside := control.outside idle
  have quiet : ∀ q, update role p .inOp q ≠ .commits := fun q here =>
    control.none_commits free q (of_update_eq here nofun).2
  refine ⟨fun q => ?_, ?_, ?_, fun q _ commits => absurd commits (quiet q)⟩
  · rw [Finset.mem_insert, control.members]
    exact update_ind (by simp) fun other => by simp [other]
  · rw [Finset.card_insert_of_notMem outside, control.outstanding]
    rfl
  · rw [free]
    exact ⟨nofun, fun some => absurd some.choose_spec (quiet _)⟩

/-- The members after an operation has ended. -/
theorem members_leave (after : LogRole) (outside : after ≠ .inOp) (q : P) :
    q ∈ ops.erase p ↔ update role p after q = .inOp := by
  rw [Finset.mem_erase, control.members]
  exact update_ind (by simp [outside]) fun other => by simp [other]

theorem leave (inside : role p = .inOp) (others : log.endOp = .ok (log', false)) :
    Control (ops.erase p) log' (update role p .idle) := by
  obtain ⟨free, -, rfl⟩ := LogState.endOp_others others
  have quiet : ∀ q, update role p .idle q ≠ .commits := fun q here =>
    control.none_commits free q (of_update_eq here nofun).2
  refine ⟨control.members_leave .idle nofun, ?_, ?_, fun q _ commits => absurd commits (quiet q)⟩
  · have card := Finset.card_erase_add_one ((control.members p).mpr inside)
    have count := control.outstanding
    show log.outstanding - 1 = _
    omega
  · rw [free]
    exact ⟨nofun, fun some => absurd some.choose_spec (quiet _)⟩

/-- The last operation of a transaction ends, and its process commits alone. -/
theorem start (inside : role p = .inOp) (last : log.endOp = .ok (log', true)) :
    Control ∅ log' (update role p .commits) := by
  obtain ⟨free, one, rfl⟩ := LogState.endOp_last last
  have card := Finset.card_erase_add_one ((control.members p).mpr inside)
  have count := control.outstanding
  have none : ops.erase p = ∅ := Finset.card_eq_zero.mp (by omega)
  have members := control.members_leave (p := p) .commits nofun
  rw [none] at members
  refine ⟨members, rfl, ⟨fun _ => ⟨p, update_self _ _ _⟩, fun _ => rfl⟩, ?_⟩
  -- everybody else is idle
  have busy : ∀ q, update role p .commits q ≠ .idle → q = p := by
    intro q
    refine update_ind (fun _ => rfl) fun other busy => ?_
    cases here : role q with
    | idle => exact absurd here busy
    | commits => exact absurd here (control.none_commits free q)
    | inOp =>
      have member := (members q).mpr ((update_of_ne other _ _).trans here)
      exact absurd member (Finset.notMem_empty q)
  intro q r commits active
  have first : q = p := busy q (by rw [commits]; exact nofun)
  rw [busy r active, first]

/-- The last section of `end_op`, after a commit. -/
theorem finish (commits : role p = .commits) (outstanding : log'.outstanding = log.outstanding)
    (free : log'.committing = false) : Control ops log' (update role p .idle) := by
  have idle : ∀ q, update role p .idle q = .idle := by
    refine fun q => update_ind rfl fun other => ?_
    by_contra busy
    exact other (control.alone p q commits busy)
  refine ⟨fun q => ?_, outstanding.trans control.outstanding, ?_, fun q _ here => ?_⟩
  · rw [control.none_in_op commits, idle q]
    exact ⟨fun member => absurd member (Finset.notMem_empty q), nofun⟩
  · simp [free, idle]
  · rw [idle q] at here
    cases here

end Control

end Xv6
