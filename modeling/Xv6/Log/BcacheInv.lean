/-
**References, locks and pins of the buffer cache.**

`Does` lists what one step can do, with everything it tests. Two invariants stand over it, with one
lemma for each kind of step:

* `OpInv`: who is in an operation, who commits and where, and which logged blocks are still pinned;
* `RefInv`: one buffer for a block, `refcnt` counts the users of a buffer and its pin, the sleep
  lock is where the processes think it is.
-/

import Xv6.Log.Bcache

set_option linter.unusedSectionVars false

namespace Xv6

open Lib Function

namespace Cache

variable {P : Type} [DecidableEq P]

/-! ### What one step does -/

/-- **The steps**, with everything they test and change. -/
inductive Does (s : Cache P) : CacheEvent P → Cache P → Prop
  | hit (p : P) (b : Nat) (i : Fin NBUF) (asked : s.Commits p → s.instr p = some (.bread b))
      (found : s.cached b = some i) (unused : s.hold p i = .none) :
      Does s (.bget p b) ((s.incref i).setHold p i .waiting)
  | miss (p : P) (b : Nat) (i : Fin NBUF) (asked : s.Commits p → s.instr p = some (.bread b))
      (absent : s.cached b = none) (free : s.victim = some i) :
      Does s (.bget p b) ((s.recycle i b).setHold p i .waiting)
  | acquire (p : P) (i : Fin NBUF) (waits : s.hold p i = .waiting) (free : s.lock i = none) :
      Does s (.acquire p i)
        ({ s with lock := update s.lock i (some p) }.setHold p i .locked)
  | fill (p : P) (i : Fin NBUF) (locked : s.hold p i = .locked) :
      Does s (.fill p i)
        (({ s with
          data := update s.data i (if s.valid i then s.data i else s.disk (s.blockno i))
          valid := update s.valid i true }.setHold p i (.held .clean)).advance p)
  | modify (p : P) (i : Fin NBUF) (data : Block) (m : Mod) (held : s.hold p i = .held m)
      (inside : s.op p = .inOp) : Does s (.modify p i data) (s.store p i data)
  | logNew (p : P) (i : Fin NBUF) (log : LogState) (m : Mod) (held : s.hold p i = .held m)
      (inside : s.op p = .inOp) (writes : s.log.logWrite (s.blockno i) = .ok (log, true)) :
      Does s (.logWrite p i)
        (({ s with log := log, pinned := s.pinned ++ [s.blockno i] }.incref i).setHold p i
          (.held .logged))
  | logAgain (p : P) (i : Fin NBUF) (log : LogState) (m : Mod) (held : s.hold p i = .held m)
      (inside : s.op p = .inOp) (writes : s.log.logWrite (s.blockno i) = .ok (log, false)) :
      Does s (.logWrite p i) ({ s with log := log }.setHold p i (.held .logged))
  | release (p : P) (i : Fin NBUF) (m : Mod) (held : s.hold p i = .held m)
      (asked : s.Commits p → s.instr p = some (.brelse (s.blockno i)))
      (logged : ¬ s.Commits p → m ≠ .dirty) :
      Does s (.releasesleep p i)
        (({ s with
          lock := update s.lock i none
          last := update s.last (s.blockno i) (s.data i) }.setHold p i
            .releasing).advance p)
  | decref (p : P) (i : Fin NBUF) (leaves : s.hold p i = .releasing) :
      Does s (.decref p i)
        ({ s with
          refcnt := update s.refcnt i (s.refcnt i - 1)
          lru := if s.refcnt i = 1 then i :: s.lru.erase i else s.lru }.setHold p i .none)
  | beginOp (p : P) (log : LogState) (idle : s.op p = .idle) (admitted : s.log.beginOp = some log) :
      Does s (.beginOp p) { s with log := log, op := update s.op p .inOp }
  | startCommit (p : P) (log : LogState) (inside : s.op p = .inOp)
      (settled : ∀ i, s.hold p i = .none ∨ s.hold p i = .held .clean)
      (last : s.log.endOp = .ok (log, true)) :
      Does s (.endOp p)
        { s with log := log, op := update s.op p (.commit (Stage.start log) 0) }
  | leave (p : P) (log : LogState) (inside : s.op p = .inOp)
      (settled : ∀ i, s.hold p i = .none ∨ s.hold p i = .held .clean)
      (others : s.log.endOp = .ok (log, false)) :
      Does s (.endOp p) { s with log := log, op := update s.op p .idle }
  | memmove (p : P) (dst src : Nat) (i j : Fin NBUF) (asked : s.instr p = some (.memmove dst src))
      (foundDst : s.cached dst = some i) (foundSrc : s.cached src = some j) :
      Does s (.commit p) ((s.store p i (s.data j)).advance p)
  | putHead (p : P) (b : Nat) (i : Fin NBUF) (asked : s.instr p = some (.putHead b))
      (found : s.cached b = some i) :
      Does s (.commit p) ((s.store p i (Xv6.putHead s.log.lh (s.data i))).advance p)
  | bwrite (p : P) (b : Nat) (i : Fin NBUF) (asked : s.instr p = some (.bwrite b))
      (found : s.cached b = some i) :
      Does s (.commit p)
        (({ s with disk := update s.disk (s.blockno i) (s.data i) }.setHold p i
          (.held .written)).advance p)
  | bunpin (p : P) (b : Nat) (i : Fin NBUF) (asked : s.instr p = some (.bunpin b))
      (found : s.cached b = some i) :
      Does s (.commit p)
        ({ s with
          refcnt := update s.refcnt i (s.refcnt i - 1)
          pinned := s.pinned.erase b }.advance p)
  | clear (p : P) (asked : s.instr p = some .clear) :
      Does s (.commit p) ({ s with log := { s.log with lh := [] } }.advance p)
  | commitDone (p : P) (finished : s.op p = .commit .done 0) :
      Does s (.commitDone p)
        { s with log := s.log.commitDone, op := update s.op p .idle }

variable {s t : Cache P} {i : Fin NBUF} {b k : Nat} {p : P} {op : Op}
  {log : LogState} {stage : Stage}

theorem bget_does (asked : s.Commits p → s.instr p = some (.bread b)) (step : s.bget p b = some t) :
    Does s (.bget p b) t := by
  unfold bget at step
  split at step
  · split at step
    · cases step
      exact .hit p b _ asked ‹_› ‹_›
    · cases step
  · split at step
    · cases step
      exact .miss p b _ asked ‹_› ‹_›
    · cases step

theorem run_does {instr : Instr} (asked : s.instr p = some instr) (step : s.run p instr = some t) :
    Does s (.commit p) (t.advance p) := by
  cases instr with
  | bread _ => cases step
  | brelse _ => cases step
  | clear =>
    cases step
    exact .clear p asked
  | memmove dst src =>
    simp only [run] at step
    split at step
    · cases step
      exact .memmove p dst src _ _ asked ‹_› ‹_›
    · cases step
  | putHead b =>
    simp only [run] at step
    split at step
    · cases step
      exact .putHead p b _ asked ‹_›
    · cases step
  | bwrite b =>
    simp only [run] at step
    split at step
    · cases step
      exact .bwrite p b _ asked ‹_›
    · cases step
  | bunpin b =>
    simp only [run] at step
    split at step
    · cases step
      exact .bunpin p b _ asked ‹_›
    · cases step

theorem Step.does {e : CacheEvent P} (step : Step s e t) : Does s e t := by
  unfold Step at step
  cases e with
  | bget p b =>
    simp only [exec] at step
    split at step
    · exact bget_does ‹_› step
    · cases step
  | acquire p i =>
    obtain ⟨guard, rfl⟩ := of_guard step
    exact .acquire p i guard.1 guard.2
  | fill p i =>
    obtain ⟨guard, rfl⟩ := of_guard step
    exact .fill p i ‹_›
  | modify p i data =>
    simp only [exec] at step
    split at step
    · split at step
      · cases step
        exact .modify p i data _ ‹_› ‹_›
      · cases step
    · cases step
  | logWrite p i =>
    simp only [exec] at step
    split at step
    · split at step
      · split at step
        · cases step
          exact .logNew p i _ _ ‹_› ‹_› ‹_›
        · cases step
          exact .logAgain p i _ _ ‹_› ‹_› ‹_›
        · cases step
      · cases step
    · cases step
  | releasesleep p i =>
    simp only [exec] at step
    split at step
    · split at step
      · rename_i guard
        cases step
        exact .release p i _ ‹_› guard.1 guard.2
      · cases step
    · cases step
  | decref p i =>
    obtain ⟨guard, rfl⟩ := of_guard step
    exact .decref p i ‹_›
  | beginOp p =>
    simp only [exec] at step
    split at step
    · split at step
      · cases step
        exact .beginOp p _ ‹_› ‹_›
      · cases step
    · cases step
  | endOp p =>
    simp only [exec] at step
    split at step
    · rename_i guard
      split at step
      · cases step
        exact .startCommit p _ guard.1 guard.2 ‹_›
      · cases step
        exact .leave p _ guard.1 guard.2 ‹_›
      · cases step
    · cases step
  | commit p =>
    simp only [exec] at step
    split at step
    · obtain ⟨u, ran, rfl⟩ := Option.map_eq_some_iff.mp step
      exact run_does ‹_› ran
    · cases step
  | commitDone p =>
    obtain ⟨guard, rfl⟩ := of_guard step
    exact .commitDone p ‹_›

/-! ### Operations and commits -/

/-- The iteration and the statement exist, and the loop variable is below `log.lh.n`. -/
def StageOk (log : LogState) (k : Nat) : Stage → Prop
  | .writeLog tail => tail < log.lh.length ∧ k < 6
  | .writeHead => 0 < log.lh.length ∧ k < 4
  | .install tail => tail < log.lh.length ∧ k < 7
  | .clear => k < 1
  | .clearHead => log.lh = [] ∧ k < 4
  | .done => log.lh = [] ∧ k = 0

/-- How many entries of the header `install_trans` has unpinned. -/
def unpinned (log : LogState) (k : Nat) : Stage → Nat
  | .install tail => if k ≤ 4 then tail else tail + 1
  | .clear => log.lh.length
  | _ => 0

def roles (s : Cache P) (p : P) : LogRole := (s.op p).role

/-- **Who is in an operation, who commits, and what is pinned.** -/
structure OpInv (s : Cache P) : Prop where
  control : ∃ ops, Control ops s.log s.roles
  nodup : s.log.lh.Nodup
  stage : ∀ p stage k, s.op p = .commit stage k → StageOk s.log k stage
  quiet : (∀ p, ¬ s.Commits p) → s.pinned = s.log.lh
  pins : ∀ p stage k, s.op p = .commit stage k → s.pinned = s.log.lh.drop (unpinned s.log k stage)

theorem advance_ok (ok : StageOk log k stage)
    (kept : ∀ b, (stage.body log)[k]? ≠ some (.bunpin b)) (notClear : stage ≠ .clear) :
    ∃ stage' k', (Op.commit stage k).advance log = .commit stage' k' ∧ StageOk log k' stage' ∧
      unpinned log k' stage' = unpinned log k stage := by
  cases stage with
  | clear => exact absurd rfl notClear
  | writeLog tail =>
    obtain ⟨inside, bound⟩ := ok
    by_cases more : k + 1 < 6
    · exact ⟨.writeLog tail, k + 1, by simp [Op.advance, Stage.body, more], ⟨inside, more⟩, rfl⟩
    by_cases again : tail + 1 < log.lh.length
    · exact ⟨.writeLog (tail + 1), 0, by simp [Op.advance, Stage.body, Stage.next, more, again],
        ⟨again, by omega⟩, rfl⟩
    · exact ⟨.writeHead, 0, by simp [Op.advance, Stage.body, Stage.next, more, again],
        ⟨by omega, by omega⟩, rfl⟩
  | writeHead =>
    obtain ⟨inside, bound⟩ := ok
    by_cases more : k + 1 < 4
    · exact ⟨.writeHead, k + 1, by simp [Op.advance, Stage.body, more], ⟨inside, more⟩, rfl⟩
    · exact ⟨.install 0, 0, by simp [Op.advance, Stage.body, Stage.next, more],
        ⟨inside, by omega⟩, rfl⟩
  | install tail =>
    obtain ⟨inside, bound⟩ := ok
    have notUnpin : k ≠ 4 := by
      rintro rfl
      exact kept _ rfl
    by_cases more : k + 1 < 7
    · refine ⟨.install tail, k + 1, by simp [Op.advance, Stage.body, more], ⟨inside, more⟩, ?_⟩
      simp only [unpinned]
      split_ifs <;> omega
    by_cases again : tail + 1 < log.lh.length
    · refine ⟨.install (tail + 1), 0, by simp [Op.advance, Stage.body, Stage.next, more, again],
        ⟨again, by omega⟩, ?_⟩
      simp only [unpinned]
      split_ifs <;> omega
    · refine ⟨.clear, 0, by simp [Op.advance, Stage.body, Stage.next, more, again],
        Nat.zero_lt_one, ?_⟩
      simp only [unpinned]
      split_ifs <;> omega
  | clearHead =>
    obtain ⟨empty, bound⟩ := ok
    by_cases more : k + 1 < 4
    · exact ⟨.clearHead, k + 1, by simp [Op.advance, Stage.body, more], ⟨empty, more⟩, rfl⟩
    · exact ⟨.done, 0, by simp [Op.advance, Stage.body, Stage.next, more], ⟨empty, rfl⟩, rfl⟩
  | done =>
    obtain ⟨empty, rfl⟩ := ok
    exact ⟨.done, 0, by simp [Op.advance, Stage.body, Stage.next], ⟨empty, rfl⟩, rfl⟩

@[simp] theorem advance_eq_inOp : op.advance log = .inOp ↔ op = .inOp := by
  cases op <;> simp only [Op.advance]
  split_ifs <;> simp

@[simp] theorem advance_eq_idle : op.advance log = .idle ↔ op = .idle := by
  cases op <;> simp only [Op.advance]
  split_ifs <;> simp

theorem advance_of_not_commits (outside : ¬ s.Commits p) (log : LogState) :
    (s.op p).advance log = s.op p := by
  cases same : s.op p with
  | commit stage k => exact absurd ⟨stage, k, same⟩ outside
  | idle => rfl
  | inOp => rfl

theorem commits_iff : s.Commits p ↔ s.op p ≠ .idle ∧ s.op p ≠ .inOp := by
  unfold Commits
  cases s.op p <;> simp

theorem instr_eq_some {instr : Instr} (asked : s.instr p = some instr) :
    ∃ stage k, s.op p = .commit stage k ∧ (stage.body s.log)[k]? = some instr := by
  unfold Cache.instr at asked
  split at asked
  · exact ⟨_, _, ‹_›, asked⟩
  · cases asked

theorem body_bunpin (asked : (stage.body log)[k]? = some (.bunpin b)) :
    ∃ tail, stage = .install tail ∧ k = 4 ∧ b = log.block tail := by
  cases stage <;> rcases k with _ | _ | _ | _ | _ | _ | _ | k <;> simp [Stage.body] at asked ⊢
  exact asked.symm

theorem body_clear (asked : (stage.body log)[k]? = some .clear) : stage = .clear ∧ k = 0 := by
  cases stage <;> rcases k with _ | _ | _ | _ | _ | _ | _ | k <;> simp [Stage.body] at asked ⊢

section OpSteps

variable {s t : Cache P} {p : P} {b : Nat} {ops : Finset P}

theorem roles_reop (s : Cache P) (log : LogState) (p : P) (op : Op) :
    roles { s with log := log, op := update s.op p op } = update s.roles p op.role :=
  funext fun q => apply_update (fun _ => Op.role) s.op p op q

theorem commits_role : s.Commits p ↔ s.roles p = .commits := by
  unfold Commits roles
  cases s.op p <;> simp [Op.role]

theorem OpInv.alone (inv : OpInv s) (p q : P) (commits : s.Commits p) (busy : s.op q ≠ .idle) :
    q = p := by
  obtain ⟨ops, control⟩ := inv.control
  refine control.alone p q (commits_role.mp commits) fun idle => busy ?_
  unfold roles at idle
  revert idle
  cases s.op q <;> simp [Op.role]

/-- While nobody commits, only the header matters. -/
theorem opInv_of_quiet (control : Control ops t.log t.roles) (free : t.log.committing = false)
    (nodup : t.log.lh.Nodup) (pinned : t.pinned = t.log.lh) : OpInv t := by
  have quiet : ∀ q stage k, t.op q ≠ .commit stage k := fun q stage k same =>
    control.none_commits free q (commits_role.mp ⟨stage, k, same⟩)
  exact ⟨⟨ops, control⟩, nodup, fun q stage k same => absurd same (quiet q stage k),
    fun _ => pinned, fun q stage k same => absurd same (quiet q stage k)⟩

/-- The process that commits is the only one of which `stage` and `pins` speak. -/
theorem opInv_of_commit (control : Control ops t.log t.roles) (here : t.op p = .commit stage k)
    (nodup : t.log.lh.Nodup) (ok : StageOk t.log k stage)
    (pins : t.pinned = t.log.lh.drop (unpinned t.log k stage)) : OpInv t := by
  have only : ∀ q stage' k', t.op q = .commit stage' k' → stage' = stage ∧ k' = k := by
    intro q stage' k' same
    have active : t.roles q = .commits := commits_role.mp ⟨stage', k', same⟩
    obtain rfl := control.alone p q (commits_role.mp ⟨stage, k, here⟩) (by rw [active]; exact nofun)
    rw [here] at same
    cases same
    exact ⟨rfl, rfl⟩
  refine ⟨⟨ops, control⟩, nodup, fun q stage' k' same => ?_, fun none => ?_,
    fun q stage' k' same => ?_⟩
  · obtain ⟨rfl, rfl⟩ := only q stage' k' same
    exact ok
  · exact absurd ⟨stage, k, here⟩ (none p)
  · obtain ⟨rfl, rfl⟩ := only q stage' k' same
    exact pins

/-- The committing process goes to its next statement; `log` and `pinned` may change with it. -/
theorem OpInv.advances (inv : OpInv s) {pinned : List Nat} (stage' : Stage) (k' : Nat)
    (here : s.op p = .commit stage k) (sameOutstanding : log.outstanding = s.log.outstanding)
    (sameCommitting : log.committing = s.log.committing) (nodup : log.lh.Nodup)
    (ok : StageOk log k' stage') (pins : pinned = log.lh.drop (unpinned log k' stage')) :
    OpInv { s with log := log, pinned := pinned, op := update s.op p (.commit stage' k') } := by
  obtain ⟨ops, control⟩ := inv.control
  have moved := control.congr sameOutstanding sameCommitting
  rw [← update_eq_self p s.roles, commits_role.mp ⟨stage, k, here⟩,
    ← show (Op.commit stage' k').role = .commits from rfl, ← roles_reop s log] at moved
  exact opInv_of_commit moved (update_self _ _ _) nodup ok pins

theorem advance_eq_self (outside : ¬ s.Commits p) : s.advance p = s := by
  unfold Cache.advance
  rw [advance_of_not_commits outside, update_eq_self]

theorem OpInv.advance (inv : OpInv s) (kept : ∀ stage k, s.op p = .commit stage k →
      stage ≠ .clear ∧ ∀ b, (stage.body s.log)[k]? ≠ some (.bunpin b)) : OpInv (s.advance p) := by
  by_cases committer : s.Commits p
  · obtain ⟨stage, k, here⟩ := committer
    obtain ⟨notClear, notUnpin⟩ := kept stage k here
    obtain ⟨stage', k', next, ok, same⟩ := advance_ok (inv.stage p stage k here) notUnpin notClear
    unfold Cache.advance
    rw [here, next]
    exact inv.advances stage' k' here rfl rfl inv.nodup ok (same ▸ inv.pins p stage k here)
  · rwa [advance_eq_self committer]

theorem OpInv.bunpin (inv : OpInv s) (asked : s.instr p = some (.bunpin b)) :
    OpInv ({ s with pinned := s.pinned.erase b }.advance p) := by
  obtain ⟨stage, k, here, asked⟩ := instr_eq_some asked
  obtain ⟨tail, rfl, rfl, rfl⟩ := body_bunpin asked
  obtain ⟨inside, -⟩ := inv.stage p _ _ here
  -- the entry that is unpinned is the first of those still pinned
  have first : s.pinned = s.log.block tail :: s.log.lh.drop (tail + 1) := by
    rw [inv.pins p _ _ here]
    show s.log.lh.drop tail = _
    rw [List.drop_eq_getElem_cons inside, LogState.block, List.getD_eq_getElem _ _ inside]
  unfold Cache.advance
  show OpInv { s with
    pinned := s.pinned.erase _, op := update s.op p ((s.op p).advance s.log) }
  rw [here]
  refine inv.advances (.install tail) 5 here rfl rfl inv.nodup ⟨inside, by decide⟩ ?_
  rw [first, List.erase_cons_head]
  rfl

theorem OpInv.clear (inv : OpInv s) (asked : s.instr p = some .clear) :
    OpInv ({ s with log := { s.log with lh := [] } }.advance p) := by
  obtain ⟨stage, k, here, asked⟩ := instr_eq_some asked
  obtain ⟨rfl, rfl⟩ := body_clear asked
  unfold Cache.advance
  show OpInv { s with log := { s.log with lh := [] }, op := update s.op p ((s.op p).advance _) }
  rw [here]
  refine inv.advances .clearHead 0 here rfl rfl List.nodup_nil ⟨rfl, by decide⟩ ?_
  rw [inv.pins p _ _ here]
  exact List.drop_length

theorem OpInv.none_commits (inv : OpInv s) (free : s.log.committing = false) (p : P) :
    ¬ s.Commits p :=
  fun commits => inv.control.choose_spec.none_commits free p (commits_role.mp commits)

theorem roles_inOp (inside : s.op p = .inOp) : s.roles p = .inOp := congrArg Op.role inside

theorem OpInv.not_commits_of_inOp (inv : OpInv s) (inside : s.op p = .inOp) (q : P) :
    ¬ s.Commits q :=
  inv.none_commits (inv.control.choose_spec.not_committing (roles_inOp inside)) q

theorem OpInv.logNew (inv : OpInv s) (inside : s.op p = .inOp)
    (writes : s.log.logWrite b = .ok (log, true)) :
    OpInv { s with log := log, pinned := s.pinned ++ [b] } := by
  obtain ⟨fresh, rfl⟩ := LogState.logWrite_new writes
  obtain ⟨ops, control⟩ := inv.control
  refine opInv_of_quiet (control.congr rfl rfl) (control.not_committing (roles_inOp inside)) ?_ ?_
  · exact List.nodup_append.mpr ⟨inv.nodup, List.nodup_singleton b, by
      intro c member d last
      rw [List.mem_singleton.mp last]
      rintro rfl
      exact fresh member⟩
  · show s.pinned ++ [b] = s.log.lh ++ [b]
    rw [inv.quiet (inv.not_commits_of_inOp inside)]

theorem OpInv.beginOp (inv : OpInv s) (idle : s.op p = .idle)
    (admitted : s.log.beginOp = some log) :
    OpInv { s with log := log, op := update s.op p .inOp } := by
  obtain ⟨ops, control⟩ := inv.control
  have entered := control.enter (congrArg Op.role idle) admitted
  rw [← show Op.inOp.role = .inOp from rfl, ← roles_reop s log] at entered
  obtain ⟨free, -, rfl⟩ := LogState.beginOp_some admitted
  exact opInv_of_quiet entered free inv.nodup (inv.quiet (inv.none_commits free))

theorem OpInv.leave (inv : OpInv s) (inside : s.op p = .inOp)
    (others : s.log.endOp = .ok (log, false)) :
    OpInv { s with log := log, op := update s.op p .idle } := by
  obtain ⟨ops, control⟩ := inv.control
  have left := control.leave (roles_inOp inside) others
  rw [← show Op.idle.role = .idle from rfl, ← roles_reop s log] at left
  obtain ⟨free, -, rfl⟩ := LogState.endOp_others others
  exact opInv_of_quiet left free inv.nodup (inv.quiet (inv.none_commits free))

theorem OpInv.startCommit (inv : OpInv s) (inside : s.op p = .inOp)
    (last : s.log.endOp = .ok (log, true)) :
    OpInv { s with log := log, op := update s.op p (.commit (Stage.start log) 0) } := by
  obtain ⟨ops, control⟩ := inv.control
  have started := control.start (roles_inOp inside) last
  rw [← show (Op.commit (Stage.start log) 0).role = .commits from rfl,
    ← roles_reop s log] at started
  obtain ⟨free, -, rfl⟩ := LogState.endOp_last last
  refine opInv_of_commit started (update_self _ _ _) inv.nodup ?_ ?_
  · show StageOk _ 0 (Stage.start s.log)
    unfold Stage.start
    split_ifs with some
    · exact ⟨some, by decide⟩
    · exact ⟨List.length_eq_zero_iff.mp (Nat.eq_zero_of_not_pos some), rfl⟩
  · show s.pinned = s.log.lh.drop (unpinned _ 0 (Stage.start s.log))
    have zero : unpinned { s.log with outstanding := 0, committing := true } 0
        (Stage.start s.log) = 0 := by
      unfold Stage.start
      split_ifs <;> rfl
    rw [zero, List.drop_zero]
    exact inv.quiet (inv.none_commits free)

theorem OpInv.commitDone (inv : OpInv s) (finished : s.op p = .commit .done 0) :
    OpInv { s with log := s.log.commitDone, op := update s.op p .idle } := by
  obtain ⟨empty, -⟩ := inv.stage p _ _ finished
  obtain ⟨ops, control⟩ := inv.control
  have freed : Control ops s.log.commitDone (update s.roles p .idle) :=
    control.finish (commits_role.mp ⟨_, _, finished⟩) rfl rfl
  rw [← show Op.idle.role = .idle from rfl, ← roles_reop s s.log.commitDone] at freed
  refine opInv_of_quiet freed rfl List.nodup_nil ?_
  show s.pinned = []
  rw [inv.pins p _ _ finished, empty]
  rfl

end OpSteps

/-! ### References, locks and pins -/

def handles [Fintype P] (s : Cache P) (i : Fin NBUF) : Nat :=
  (Finset.univ.filter fun p => s.hold p i ≠ .none).card

/-- The reference that `bpin` took. -/
def pins (s : Cache P) (i : Fin NBUF) : Nat :=
  if s.dev i = ROOTDEV ∧ s.blockno i ∈ s.pinned then 1 else 0

/-- **One buffer for a block, counted and locked as its users think.** -/
structure RefInv [Fintype P] (s : Cache P) : Prop where
  listed : ∀ i, i ∈ s.lru
  unique : ∀ i j b, s.Carries i b → s.Carries j b → i = j
  root : ∀ p i, s.hold p i ≠ .none → s.dev i = ROOTDEV
  lock : ∀ p i, s.lock i = some p ↔ (s.hold p i).locks = true
  counted : ∀ i, s.refcnt i = s.handles i + s.pins i
  pinnedValid : ∀ b ∈ s.pinned, ∃ i, s.Carries i b ∧ s.valid i = true
  heldValid : ∀ p i m, s.hold p i = .held m → s.valid i = true

theorem cached_some (found : s.cached b = some i) : s.Carries i b := by
  have holds := List.find?_some found
  simpa using holds

theorem victim_some (free : s.victim = some i) : s.refcnt i = 0 := by
  have holds := List.find?_some free
  simpa using holds

section RefSteps

variable [Fintype P] {s t : Cache P} {i : Fin NBUF} {b : Nat} {h : Hold} {p : P} {m : Mod}

theorem RefInv.not_cached (inv : RefInv s) (absent : s.cached b = none) (i : Fin NBUF) :
    ¬ s.Carries i b := by
  have none := List.find?_eq_none.mp absent i (inv.listed i)
  simpa using none

theorem RefInv.holder_unique (inv : RefInv s) {q : P} (first : (s.hold p i).locks = true)
    (second : (s.hold q i).locks = true) : q = p := by
  have same := ((inv.lock q i).mpr second).symm.trans ((inv.lock p i).mpr first)
  exact Option.some.inj same

theorem RefInv.idle_of_refcnt (inv : RefInv s) (free : s.refcnt i = 0) :
    (∀ p, s.hold p i = .none) ∧ ¬ (s.dev i = ROOTDEV ∧ s.blockno i ∈ s.pinned) := by
  have total := inv.counted i
  rw [free] at total
  have noHandle : s.handles i = 0 := by omega
  have noPin : s.pins i = 0 := by omega
  constructor
  · intro p
    by_contra used
    have empty := Finset.card_eq_zero.mp noHandle
    have member : p ∈ (∅ : Finset P) := by
      rw [← empty]
      simp [used]
    simp at member
  · intro pinned
    simp [pins, pinned] at noPin

theorem handles_setHold (s : Cache P) (p : P) (i j : Fin NBUF) (h : Hold) :
    (s.setHold p i h).handles j + (if j = i ∧ s.hold p i ≠ .none then 1 else 0) =
      s.handles j + (if j = i ∧ h ≠ .none then 1 else 0) := by
  by_cases same : j = i
  · subst same
    have others : ∀ h', (Finset.univ.filter fun q => (s.setHold p j h').hold q j ≠ .none).erase p =
        (Finset.univ.filter fun q => s.hold q j ≠ .none).erase p := by
      intro h'
      ext q
      by_cases actor : q = p
      · simp [actor]
      · simp [setHold, actor]
    have count : ∀ (u : Cache P), u.handles j =
        ((Finset.univ.filter fun q => u.hold q j ≠ .none).erase p).card +
          (if u.hold p j ≠ .none then 1 else 0) := by
      intro u
      unfold handles
      by_cases used : u.hold p j = .none
      · rw [Finset.erase_eq_of_notMem (by simp [used])]
        simp [used]
      · rw [if_pos used, Finset.card_erase_add_one (by simp [used])]
    rw [count (s.setHold p j h), count s, others h]
    have now : (s.setHold p j h).hold p j = h := by simp [setHold]
    rw [now]
    simp only [true_and]
    omega
  · have unchanged : (s.setHold p i h).handles j = s.handles j := by
      unfold handles
      simp [setHold, same]
    simp [unchanged, same]

theorem hold_setHold (s : Cache P) (p q : P) (i j : Fin NBUF) (h : Hold) :
    (s.setHold p i h).hold q j = if q = p ∧ j = i then h else s.hold q j := rfl

theorem setHold_self (same : s.hold p i = h) : s.setHold p i h = s := by
  unfold setHold
  congr
  funext q j
  split_ifs with both
  · rw [both.1, both.2, same]
  · rfl

theorem locks_of_held (held : h = .held m) : h.locks = true := by
  rw [held]
  rfl

section

variable (inv : RefInv s)

include inv

theorem RefInv.lock_kept (same : h.locks = (s.hold p i).locks) (q : P) (j : Fin NBUF) :
    s.lock j = some q ↔ ((s.setHold p i h).hold q j).locks = true := by
  rw [hold_setHold]
  split_ifs with actor
  · obtain ⟨rfl, rfl⟩ := actor
    rw [inv.lock, same]
  · exact inv.lock q j

theorem RefInv.root_kept (isRoot : h ≠ .none → s.dev i = ROOTDEV) (q : P) (j : Fin NBUF)
    (busy : (s.setHold p i h).hold q j ≠ .none) : s.dev j = ROOTDEV := by
  rw [hold_setHold] at busy
  split_ifs at busy with actor
  · rw [actor.2]
    exact isRoot busy
  · exact inv.root q j busy

theorem RefInv.valid_kept (filled : ∀ m, h = .held m → s.valid i = true) (q : P) (j : Fin NBUF)
    (m : Mod) (held : (s.setHold p i h).hold q j = .held m) : s.valid j = true := by
  rw [hold_setHold] at held
  split_ifs at held with actor
  · rw [actor.2]
    exact filled m held
  · exact inv.heldValid q j m held

/-- A process that keeps a reference goes to another stage with its buffer. -/
theorem RefInv.rehold {lock : Fin NBUF → Option P} {valid : Fin NBUF → Bool}
    (used : s.hold p i ≠ .none) (stays : h ≠ .none)
    (locks : ∀ q j, lock j = some q ↔ ((s.setHold p i h).hold q j).locks = true)
    (stillValid : ∀ j, s.valid j = true → valid j = true)
    (filled : ∀ m, h = .held m → valid i = true) :
    RefInv ({ s with lock := lock, valid := valid }.setHold p i h) := by
  constructor
  · exact inv.listed
  · exact inv.unique
  · exact inv.root_kept fun _ => inv.root p i used
  · exact locks
  · intro j
    have count := handles_setHold s p i j h
    simp only [used, stays, ne_eq, not_false_eq_true, and_true] at count
    show s.refcnt j = (s.setHold p i h).handles j + s.pins j
    rw [inv.counted j]
    omega
  · intro b member
    obtain ⟨j, carried, isValid⟩ := inv.pinnedValid b member
    exact ⟨j, carried, stillValid j isValid⟩
  · intro q j m held
    rw [hold_setHold] at held
    split_ifs at held with actor
    · rw [actor.2]
      exact filled m held
    · exact stillValid j (inv.heldValid q j m held)

theorem RefInv.remod (held : s.hold p i = .held m) (m' : Mod) : RefInv (s.setHold p i (.held m')) :=
  inv.rehold (by simp [held]) (by simp) (inv.lock_kept (by rw [held]; rfl)) (fun _ => id)
    fun _ _ => inv.heldValid p i m held

/-- Nobody else has the lock of a buffer that is free, or that the process itself has. -/
theorem RefInv.relock {lock : Option P} (others : ∀ q, q ≠ p → (s.hold q i).locks = false)
    (mine : lock = some p ↔ h.locks = true) (only : ∀ q, lock = some q → q = p) (q : P)
    (j : Fin NBUF) :
    update s.lock i lock j = some q ↔ ((s.setHold p i h).hold q j).locks = true := by
  rw [hold_setHold]
  refine update_ind ?_ fun other => ?_
  · by_cases actor : q = p
    · rw [actor, if_pos ⟨rfl, rfl⟩]
      exact mine
    · rw [if_neg fun both => actor both.1, others q actor]
      exact ⟨fun same => absurd (only q same) actor, nofun⟩
  · rw [if_neg fun both => other both.2]
    exact inv.lock q j

theorem RefInv.acquire (waits : s.hold p i = .waiting) (free : s.lock i = none) :
    RefInv ({ s with lock := update s.lock i (some p) }.setHold p i .locked) := by
  have others (q : P) : (s.hold q i).locks = false := by
    refine Bool.eq_false_iff.mpr fun also => ?_
    rw [(inv.lock q i).mpr also] at free
    cases free
  refine inv.rehold (by simp [waits]) (by simp) ?_ (fun _ valid => valid) nofun
  exact inv.relock (fun q _ => others q) ⟨fun _ => rfl, fun _ => rfl⟩
    fun q same => (Option.some.inj same).symm

theorem RefInv.release {last : Disk} (held : s.hold p i = .held m) : RefInv (({ s with
      lock := update s.lock i none
      last := last }.setHold p i .releasing).advance p) := by
  have others (q : P) (actor : q ≠ p) : (s.hold q i).locks = false :=
    Bool.eq_false_iff.mpr fun also => actor (inv.holder_unique (locks_of_held held) also)
  have released : RefInv ({ s with lock := update s.lock i none }.setHold p i .releasing) :=
    inv.rehold (by simp [held]) (by simp) (inv.relock others ⟨nofun, nofun⟩ nofun)
      (fun _ valid => valid) nofun
  exact { released with }

theorem RefInv.hit (found : s.cached b = some i) (unused : s.hold p i = .none) :
    RefInv ((s.incref i).setHold p i .waiting) := by
  obtain ⟨isRoot, -⟩ := cached_some found
  constructor
  · exact inv.listed
  · exact inv.unique
  · exact inv.root_kept fun _ => isRoot
  · exact inv.lock_kept (by rw [unused]; rfl)
  · intro j
    have count := handles_setHold (s.incref i) p i j .waiting
    have unchanged : (s.incref i).handles j = s.handles j := rfl
    have free : (s.incref i).hold p i = .none := unused
    rw [unchanged, free] at count
    show update s.refcnt i (s.refcnt i + 1) j = _ + s.pins j
    revert count
    refine update_ind (fun count => ?_) fun other count => ?_
    · simp at count
      rw [inv.counted, count]
      omega
    · simp [other] at count
      rw [inv.counted, count]
  · exact inv.pinnedValid
  · exact inv.valid_kept nofun

theorem RefInv.miss (absent : s.cached b = none) (free : s.victim = some i) :
    RefInv ((s.recycle i b).setHold p i .waiting) := by
  obtain ⟨unused, unpinned⟩ := inv.idle_of_refcnt (victim_some free)
  have fresh := inv.not_cached absent
  have carries : ∀ j c, j ≠ i →
      (((s.recycle i b).setHold p i .waiting).Carries j c ↔ s.Carries j c) := by
    intro j c other
    simp [Carries, setHold, recycle, other]
  have given : ∀ c, ((s.recycle i b).setHold p i .waiting).Carries i c ↔ c = b := by
    intro c
    simp [Carries, setHold, recycle, eq_comm]
  -- a pinned block has a buffer, so the block that was not cached is not pinned
  have notPinned : b ∉ s.pinned := by
    intro member
    obtain ⟨j, carried, -⟩ := inv.pinnedValid b member
    exact fresh j carried
  constructor
  · exact inv.listed
  · intro j k c first second
    by_cases firstHere : j = i <;> by_cases secondHere : k = i
    · rw [firstHere, secondHere]
    · subst firstHere
      rw [given] at first
      subst first
      exact absurd ((carries k c secondHere).mp second) (fresh k)
    · subst secondHere
      rw [given] at second
      subst second
      exact absurd ((carries j c firstHere).mp first) (fresh j)
    · exact inv.unique j k c ((carries j c firstHere).mp first) ((carries k c secondHere).mp second)
  · intro q j busy
    show update s.dev i ROOTDEV j = ROOTDEV
    exact update_ind rfl
      fun other => inv.root q j (by simpa [hold_setHold, other, recycle] using busy)
  · exact inv.lock_kept (by rw [unused]; rfl)
  · intro j
    have count := handles_setHold (s.recycle i b) p i j .waiting
    have unchanged : (s.recycle i b).handles j = s.handles j := rfl
    have none : (s.recycle i b).hold p i = .none := unused p
    rw [unchanged, none] at count
    show update s.refcnt i 1 j = _ + _
    by_cases here : j = i
    · subst here
      have before := inv.counted j
      rw [victim_some free] at before
      have pin : ((s.recycle j b).setHold p j .waiting).pins j = 0 := by
        simp [Cache.pins, setHold, recycle, notPinned]
      simp at count
      rw [update_self, count, pin]
      omega
    · have pin : ((s.recycle i b).setHold p i .waiting).pins j = s.pins j := by
        simp [Cache.pins, setHold, recycle, here]
      simp [here] at count
      rw [update_of_ne here, inv.counted, count, pin]
  · intro c member
    obtain ⟨j, carried, isValid⟩ := inv.pinnedValid c member
    have other : j ≠ i := by
      rintro rfl
      exact unpinned ⟨carried.1, by rw [carried.2]; exact member⟩
    refine ⟨j, (carries j c other).mpr carried, ?_⟩
    show update s.valid i false j = true
    rw [update_of_ne other]
    exact isValid
  · intro q j m held
    have other : j ≠ i := by
      rintro rfl
      rw [hold_setHold] at held
      split_ifs at held
      have : s.hold q j = .held m := held
      rw [unused q] at this
      cases this
    show update s.valid i false j = true
    rw [update_of_ne other]
    exact inv.heldValid q j m (by simpa [hold_setHold, other, recycle] using held)

theorem RefInv.decref {lru : List (Fin NBUF)} (leaves : s.hold p i = .releasing)
    (listed : ∀ j, j ∈ lru) :
    RefInv ({ s with
      refcnt := update s.refcnt i (s.refcnt i - 1)
      lru := lru }.setHold p i .none) := by
  constructor
  · exact listed
  · exact inv.unique
  · exact inv.root_kept fun busy => absurd rfl busy
  · exact inv.lock_kept (by rw [leaves]; rfl)
  · intro j
    have count := handles_setHold s p i j .none
    show update s.refcnt i (s.refcnt i - 1) j = (s.setHold p i .none).handles j + s.pins j
    revert count
    refine update_ind (fun count => ?_) fun other count => ?_
    · simp [leaves] at count
      rw [inv.counted, ← count]
      omega
    · simp [other] at count
      rw [inv.counted, count]
  · exact inv.pinnedValid
  · exact inv.valid_kept nofun

theorem RefInv.logNew (held : s.hold p i = .held m) (fresh : s.blockno i ∉ s.pinned) :
    RefInv (({ s with log := log, pinned := s.pinned ++ [s.blockno i] }.incref i).setHold p i
      (.held .logged)) := by
  have isRoot : s.dev i = ROOTDEV := inv.root p i (by simp [held])
  constructor
  · exact inv.listed
  · exact inv.unique
  · exact inv.root_kept fun _ => isRoot
  · exact inv.lock_kept (by rw [held]; rfl)
  · intro j
    have count := handles_setHold s p i j (.held .logged)
    simp only [held, ne_eq, reduceCtorEq, not_false_eq_true, and_true] at count
    have handles :
      (({ s with log := log, pinned := s.pinned ++ [s.blockno i] }.incref i).setHold p i
        (.held .logged)).handles j = s.handles j := by
      show (s.setHold p i (.held .logged)).handles j = _
      omega
    rw [handles]
    show update s.refcnt i (s.refcnt i + 1) j = _ + (if s.dev j = ROOTDEV ∧
      s.blockno j ∈ s.pinned ++ [s.blockno i] then 1 else 0)
    have before := inv.counted j
    by_cases here : j = i
    · subst here
      have none : s.pins j = 0 := by simp [Cache.pins, fresh]
      rw [update_self, if_pos ⟨isRoot, by simp⟩]
      omega
    · have same : (if s.dev j = ROOTDEV ∧ s.blockno j ∈ s.pinned ++ [s.blockno i] then 1 else 0) =
          s.pins j := by
        unfold Cache.pins
        refine if_congr (and_congr_right fun root => ?_) rfl rfl
        have different : s.blockno j ≠ s.blockno i := by
          intro equal
          exact here (inv.unique j i (s.blockno i) ⟨root, equal⟩ ⟨isRoot, rfl⟩)
        simp [different]
      rw [update_of_ne here, same]
      exact before
  · intro b member
    rcases List.mem_append.mp member with old | new
    · exact inv.pinnedValid b old
    · rw [List.mem_singleton.mp new]
      exact ⟨i, ⟨isRoot, rfl⟩, inv.heldValid p i m held⟩
  · exact inv.valid_kept fun _ _ => inv.heldValid p i m held

theorem RefInv.bunpin (found : s.cached b = some i) (pinned : b ∈ s.pinned)
    (nodup : s.pinned.Nodup) :
    RefInv ({ s with
      refcnt := update s.refcnt i (s.refcnt i - 1)
      pinned := s.pinned.erase b }.advance p) := by
  have carries := cached_some found
  constructor
  · exact inv.listed
  · exact inv.unique
  · exact inv.root
  · exact inv.lock
  · intro j
    show update s.refcnt i (s.refcnt i - 1) j = s.handles j + (if s.dev j = ROOTDEV ∧
      s.blockno j ∈ s.pinned.erase b then 1 else 0)
    have before := inv.counted j
    by_cases here : j = i
    · subst here
      have one : s.pins j = 1 := by
        unfold Cache.pins
        rw [if_pos ⟨carries.1, by rw [carries.2]; exact pinned⟩]
      have gone : ¬ (s.dev j = ROOTDEV ∧ s.blockno j ∈ s.pinned.erase b) := by
        rw [carries.2]
        exact fun both => nodup.not_mem_erase both.2
      rw [update_self, if_neg gone]
      omega
    · have same : (if s.dev j = ROOTDEV ∧ s.blockno j ∈ s.pinned.erase b then 1 else 0) =
          s.pins j := by
        unfold Cache.pins
        refine if_congr (and_congr_right fun root => ?_) rfl rfl
        have different : s.blockno j ≠ b := by
          intro equal
          exact here (inv.unique j i b ⟨root, equal⟩ carries)
        exact List.mem_erase_of_ne different
      rw [update_of_ne here, same]
      exact before
  · intro c member
    exact inv.pinnedValid c (List.mem_of_mem_erase member)
  · exact inv.heldValid

end

end RefSteps

end Cache

end Xv6
