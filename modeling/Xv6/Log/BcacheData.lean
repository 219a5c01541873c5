/-
**What the buffers hold.**

`Stage.held` follows the statements of `commit()` and says which buffers the committing process
holds before each of them; `CommitInv` is that it really holds those. With it, `DataInv` relates the
three places where the contents of a block can be:

* a valid buffer nobody has changed since its `bread` has what the last `brelse` left;
* a valid buffer that is not pinned and not being changed has what the disk has;
* a block with no valid buffer is on the disk as the last `brelse` left it.
-/

import Xv6.Log.BcacheInv

set_option linter.unusedSectionVars false

namespace Xv6

open Lib Function

/-! ### The buffers of the committing process -/

/-- The buffers held after a statement, by block. -/
def Instr.track (held : Nat → Option Mod) : Instr → Nat → Option Mod
  | .bread b => update held b (some .clean)
  | .memmove dst _ => update held dst (some .dirty)
  | .putHead b => update held b (some .dirty)
  | .bwrite b => update held b (some .written)
  | .brelse b => update held b none
  | .bunpin _ | .clear => held

/-- The buffers held before statement `k` of an iteration. -/
def Stage.held (log : LogState) (k : Nat) (stage : Stage) : Nat → Option Mod :=
  ((stage.body log).take k).foldl Instr.track fun _ => none

namespace Cache

variable {k : Nat} {stage : Stage} {instr : Instr}

theorem held_succ {log : LogState} (here : (stage.body log)[k]? = some instr) :
    stage.held log (k + 1) = instr.track (stage.held log k) := by
  unfold Stage.held
  rw [List.take_add_one, here, List.foldl_append]
  rfl

theorem held_end (log : LogState) (stage : Stage) :
    stage.held log (stage.body log).length = fun _ => none := by
  unfold Stage.held
  rw [List.take_length]
  funext b
  cases stage <;> simp only [Stage.body, Instr.track, update_apply, List.foldl_cons, List.foldl_nil]
  all_goals split_ifs <;> rfl

theorem held_advance {log : LogState} {stage' : Stage} {k' : Nat}
    (here : (stage.body log)[k]? = some instr)
    (next : (Op.commit stage k).advance log = .commit stage' k') :
    stage'.held log k' = instr.track (stage.held log k) := by
  rw [← held_succ here]
  unfold Op.advance at next
  simp only at next
  split_ifs at next with more
  · cases next
    rfl
  · have bound : k < (stage.body log).length := by
      by_contra outside
      rw [List.getElem?_eq_none (not_lt.mp outside)] at here
      cases here
    have last : k + 1 = (stage.body log).length := by omega
    rw [last, held_end]
    cases next
    rfl

/-- How the process has to hold the buffers that a statement is about. -/
def Expects (log : LogState) (stage : Stage) (k : Nat) : Instr → Prop
  | .memmove dst src => stage.held log k dst = some .clean ∧ stage.held log k src = some .clean
  | .putHead b => stage.held log k b = some .clean
  | .bwrite b => stage.held log k b = some .dirty
  | .bunpin b => stage.held log k b = some .written
  | .brelse b => stage.held log k b ≠ some .dirty
  | _ => True

theorem held_at {log : LogState} (here : (stage.body log)[k]? = some instr) :
    Expects log stage k instr := by
  cases stage <;> rcases k with _ | _ | _ | _ | _ | _ | _ | k <;> cases here <;>
    simp [Expects, Stage.body, Stage.held, Instr.track, update_apply]
  all_goals split_ifs <;> simp

variable {P : Type} [DecidableEq P]

/-- A process that has to hold a block as `expected`, and is about to run `instr`, has this stage
with the block's buffer. It may have come into `commit()` with buffers it only reads. -/
def Tracks (instr : Option Instr) (b : Nat) (h : Hold) : Option Mod → Prop
  | some m => h = .held m
  | none => h = .none ∨ h = .releasing ∨ h = .held .clean ∨
      (instr = some (.bread b) ∧ (h = .waiting ∨ h = .locked))

/-- The process holds the buffers that its place in `commit()` says. -/
structure Follows (s : Cache P) (p : P) (stage : Stage) (k : Nat) : Prop where
  tracked : ∀ i, s.dev i = ROOTDEV →
    Tracks ((stage.body s.log)[k]?) (s.blockno i) (s.hold p i) (stage.held s.log k (s.blockno i))
  present : ∀ b m, stage.held s.log k b = some m → ∃ i, s.Carries i b

/-- **The committing process holds what it thinks it holds.** -/
def CommitInv (s : Cache P) : Prop :=
  ∀ p stage k, s.op p = .commit stage k → s.Follows p stage k

section CommitSteps

variable [Fintype P] {s t : Cache P} {i : Fin NBUF} {h : Hold} {k b : Nat} {p : P}

theorem Follows.holds {m : Mod} (follows : s.Follows p stage k) (found : s.cached b = some i)
    (expected : stage.held s.log k b = some m) : s.hold p i = .held m := by
  obtain ⟨root, same⟩ := cached_some found
  have tracked := follows.tracked i root
  rw [same, expected] at tracked
  exact tracked

theorem Follows.at_bread (follows : s.Follows p stage k) (root : s.dev i = ROOTDEV)
    (reading : s.hold p i = .waiting ∨ s.hold p i = .locked) :
    (stage.body s.log)[k]? = some (.bread (s.blockno i)) ∧
      stage.held s.log k (s.blockno i) = none := by
  have tracked := follows.tracked i root
  cases expected : stage.held s.log k (s.blockno i) with
  | some m =>
    rw [expected] at tracked
    rcases reading with waits | locked
    · simp [Tracks, waits] at tracked
    · simp [Tracks, locked] at tracked
  | none =>
    rw [expected] at tracked
    refine ⟨?_, rfl⟩
    rcases reading with waits | locked
    · simpa [Tracks, waits] using tracked
    · simpa [Tracks, locked] using tracked

/-- What the process has to hold stays so in the next statement, which reads no block. -/
theorem Tracks.next {instr' : Option Instr} {expected : Option Mod}
    (tracks : Tracks instr' b h expected) (notRead : instr' ≠ some (.bread b))
    (instr : Option Instr) : Tracks instr b h expected := by
  cases expected with
  | some m => exact tracks
  | none =>
    rcases tracks with none | leaves | clean | ⟨reading, -⟩
    · exact .inl none
    · exact .inr (.inl leaves)
    · exact .inr (.inr (.inl clean))
    · exact absurd reading notRead

theorem Follows.advance (refs : RefInv s) {stage' : Stage} {k' : Nat}
    (follows : s.Follows p stage k) (here : (stage.body s.log)[k]? = some instr)
    (next : (Op.commit stage k).advance s.log = .commit stage' k') (root : s.dev i = ROOTDEV)
    (done : Tracks none (s.blockno i) h (instr.track (stage.held s.log k) (s.blockno i)))
    (others : ∀ b, b ≠ s.blockno i →
      instr.track (stage.held s.log k) b = stage.held s.log k b ∧ instr ≠ .bread b) :
    (s.setHold p i h).Follows p stage' k' where
  tracked := by
    intro j rootJ
    show Tracks _ (s.blockno j) _ (stage'.held s.log k' (s.blockno j))
    rw [held_advance here next, hold_setHold]
    by_cases same : j = i
    · subst same
      rw [if_pos ⟨rfl, rfl⟩]
      exact done.next nofun _
    · rw [if_neg fun both => same both.2]
      have different : s.blockno j ≠ s.blockno i := by
        intro equal
        exact same (refs.unique j i _ ⟨rootJ, equal⟩ ⟨root, rfl⟩)
      obtain ⟨unchanged, notRead⟩ := others _ different
      rw [unchanged]
      refine (follows.tracked j rootJ).next ?_ _
      rw [here]
      exact fun reading => notRead (Option.some.inj reading)
  present := by
    intro b m expected
    replace expected : stage'.held s.log k' b = some m := expected
    rw [held_advance here next] at expected
    by_cases same : b = s.blockno i
    · exact ⟨i, root, same.symm⟩
    · rw [(others b same).1] at expected
      exact follows.present b m expected

/-- Another process does not follow what this one holds. -/
theorem Follows.other {q : P} (follows : s.Follows q stage k) (actor : q ≠ p) :
    (s.setHold p i h).Follows q stage k where
  tracked := by
    intro j root
    rw [hold_setHold, if_neg fun both => actor both.1]
    exact follows.tracked j root
  present := follows.present

theorem commitInv_of_quiet (quiet : ∀ p, ¬ t.Commits p) : CommitInv t :=
  fun p stage k here => absurd ⟨stage, k, here⟩ (quiet p)

section

variable (commit : CommitInv s) {lock : Fin NBUF → Option P} {refcnt : Fin NBUF → Nat}
  {lru : List (Fin NBUF)} {valid : Fin NBUF → Bool} {data : Fin NBUF → Block} {disk last : Disk}
  {pinned : List Nat}

include commit

theorem CommitInv.restage (now : ∀ stage k, s.op p = .commit stage k →
      Tracks ((stage.body s.log)[k]?) (s.blockno i) h (stage.held s.log k (s.blockno i))) :
    CommitInv ({ s with lock := lock, refcnt := refcnt, lru := lru }.setHold p i h) := by
  intro q stage k here
  have follows := commit q stage k here
  by_cases actor : q = p
  · subst actor
    refine ⟨fun j root => ?_, follows.present⟩
    rw [hold_setHold]
    split_ifs with same
    · rw [same.2]
      exact now stage k here
    · exact follows.tracked j root
  · exact { follows.other actor with }

/-- The process runs a statement about buffer `i`. -/
theorem CommitInv.advance (refs : RefInv s) (asked : s.Commits p → s.instr p = some instr)
    (root : s.dev i = ROOTDEV)
    (done : ∀ (stage : Stage) k, (stage.body s.log)[k]? = some instr →
      Tracks none (s.blockno i) h (instr.track (stage.held s.log k) (s.blockno i)))
    (others : ∀ b ≠ s.blockno i, instr ≠ .bread b ∧ ∀ held, instr.track held b = held b) :
    CommitInv (({ s with
      lock := lock, refcnt := refcnt, valid := valid, data := data, disk := disk, last := last
      pinned := pinned }.setHold p i h).advance p) := by
  intro q stage' k'
  show update s.op p ((s.op p).advance s.log) q = .commit stage' k' → _
  refine update_ind (fun next => ?_) fun actor here => ?_
  · cases here : s.op p with
    | idle | inOp =>
      rw [here] at next
      cases next
    | commit stage k =>
      rw [here] at next
      have atInstr := asked ⟨stage, k, here⟩
      rw [Cache.instr, here] at atInstr
      replace atInstr : (stage.body s.log)[k]? = some instr := atInstr
      exact { (commit p stage k here).advance refs atInstr next root (done stage k atInstr)
        fun b other => ⟨(others b other).2 _, (others b other).1⟩ with }
  · exact { (commit q stage' k' here).other actor with }

end

theorem CommitInv.miss (commit : CommitInv s) (refs : RefInv s)
    (asked : s.Commits p → s.instr p = some (.bread b)) (absent : s.cached b = none)
    (free : s.victim = some i) : CommitInv ((s.recycle i b).setHold p i .waiting) := by
  obtain ⟨unused, -⟩ := refs.idle_of_refcnt (victim_some free)
  intro q stage k here
  have before : s.op q = .commit stage k := here
  have follows := commit q stage k before
  -- nobody can have to hold a block that is not cached
  have notHeld : stage.held s.log k b = none := by
    cases expected : stage.held s.log k b with
    | none => rfl
    | some m =>
      obtain ⟨j, carries⟩ := follows.present b m expected
      exact absurd carries (refs.not_cached absent j)
  constructor
  · intro j root
    show Tracks ((stage.body s.log)[k]?) (update s.blockno i b j) _
      (stage.held s.log k (update s.blockno i b j))
    by_cases here' : j = i
    · subst here'
      rw [update_self, notHeld, hold_setHold]
      split_ifs with actor
      · refine .inr (.inr (.inr ⟨?_, .inl rfl⟩))
        have reads := asked ⟨stage, k, by rw [← actor.1]; exact before⟩
        rw [← actor.1, instr, before] at reads
        exact reads
      · exact .inl (unused q)
    · rw [update_of_ne here', hold_setHold, if_neg fun both => here' both.2]
      refine follows.tracked j ?_
      simpa [setHold, recycle, here'] using root
  · intro c m expected
    replace expected : stage.held s.log k c = some m := expected
    obtain ⟨j, carries⟩ := follows.present c m expected
    have other : j ≠ i := by
      rintro rfl
      have tracked := follows.tracked j carries.1
      rw [carries.2, expected] at tracked
      have held : s.hold q j = .held m := tracked
      rw [unused q] at held
      cases held
    exact ⟨j, by simpa [Carries, setHold, recycle, other] using carries⟩

theorem CommitInv.startCommit {log : LogState}
    (ops : OpInv { s with log := log, op := update s.op p (.commit (Stage.start log) 0) })
    (settled : ∀ i, s.hold p i = .none ∨ s.hold p i = .held .clean) :
    CommitInv { s with log := log, op := update s.op p (.commit (Stage.start log) 0) } := by
  intro q stage k here
  have committer : q = p :=
    ops.alone p q ⟨_, 0, update_self _ _ _⟩ (by rw [here]; exact nofun)
  subst committer
  have start : update s.op q (.commit (Stage.start log) 0) q = .commit stage k := here
  rw [update_self] at start
  cases start
  constructor
  · intro i _
    rcases settled i with none | clean
    · exact .inl none
    · exact .inr (.inr (.inl clean))
  · intro b m expected
    cases expected

theorem CommitInv.clear (commit : CommitInv s) (ops : OpInv s) (asked : s.instr p = some .clear) :
    CommitInv ({ s with log := { s.log with lh := [] } }.advance p) := by
  obtain ⟨stage, k, here, asked⟩ := instr_eq_some asked
  obtain ⟨rfl, rfl⟩ := body_clear asked
  have follows := commit p _ _ here
  intro q stage' k' there
  have committer : q = p := by
    by_contra other
    have same : s.op q = .commit stage' k' := by
      rw [← there]
      exact (update_of_ne other _ _).symm
    exact other (ops.alone p q ⟨_, _, here⟩ (by rw [same]; exact nofun))
  subst committer
  have next : Op.commit .clearHead 0 = .commit stage' k' := by
    rw [← there]
    show _ = update s.op q ((s.op q).advance _) q
    rw [update_self, here]
    rfl
  cases next
  constructor
  · intro i root
    exact (follows.tracked i root).next nofun _
  · intro b m expected
    cases expected

end CommitSteps

/-! ### The contents -/

/-- **Where the contents of a block are.** -/
structure DataInv (s : Cache P) : Prop where
  fresh : ∀ i, s.dev i = ROOTDEV → s.valid i = true → (∀ p, (s.hold p i).modified = false) →
    s.data i = s.last (s.blockno i)
  synced : ∀ i, s.dev i = ROOTDEV → s.valid i = true → s.blockno i ∉ s.pinned →
    (∀ p, s.hold p i ≠ .held .dirty) → s.data i = s.disk (s.blockno i)
  uncached : ∀ b, (∀ i, s.Carries i b → s.valid i = false) → s.disk b = s.last b
  written : ∀ p i, s.hold p i = .held .written → s.data i = s.disk (s.blockno i) ∧ s.Commits p
  logged : ∀ p i, s.hold p i = .held .logged → s.blockno i ∈ s.pinned ∧ s.op p = .inOp
  dirty : ∀ p i, s.hold p i = .held .dirty → s.op p = .inOp ∨ s.Commits p

section DataSteps

variable [Fintype P] {s t : Cache P} {i : Fin NBUF} {refcnt : Fin NBUF → Nat} {m : Mod} {p : P}
  {h : Hold} {b : Nat}

/-- A step that changes who waits for a buffer or has left it, but no contents. -/
theorem DataInv.restage (data : DataInv s) {lock : Fin NBUF → Option P} {lru : List (Fin NBUF)}
    (before : (s.hold p i).modified = false) (after : h.modified = false) :
    DataInv ({ s with lock := lock, refcnt := refcnt, lru := lru }.setHold p i h) := by
  have modified : ∀ q j, ((s.setHold p i h).hold q j).modified = (s.hold q j).modified := by
    intro q j
    rw [hold_setHold]
    split_ifs with same
    · rw [same.1, same.2, before, after]
    · rfl
  have changedBefore : ∀ q j m, m ≠ .clean → (s.setHold p i h).hold q j = .held m →
      s.hold q j = .held m := by
    intro q j m changed held
    rw [hold_setHold] at held
    split_ifs at held
    · rw [held] at after
      cases m with
      | clean => exact absurd rfl changed
      | dirty | logged | written => cases after
    · exact held
  have notDirty : ∀ q j, s.hold q j = .held .dirty → (s.setHold p i h).hold q j = .held .dirty := by
    intro q j held
    rw [hold_setHold, if_neg]
    · exact held
    · rintro ⟨rfl, rfl⟩
      rw [held] at before
      cases before
  constructor
  · intro j root valid unmodified
    exact data.fresh j root valid fun q => (modified q j).symm.trans (unmodified q)
  · intro j root valid unpinned clean
    exact data.synced j root valid unpinned fun q held => clean q (notDirty q j held)
  · exact data.uncached
  · intro q j held
    exact data.written q j (changedBefore q j _ (by simp) held)
  · intro q j held
    exact data.logged q j (changedBefore q j _ (by simp) held)
  · intro q j held
    exact data.dirty q j (changedBefore q j _ (by simp) held)

theorem DataInv.reop (data : DataInv s) (log : LogState) (op : P → Op)
    (inOp : ∀ p i, (s.hold p i).modified = true → s.op p = .inOp → op p = .inOp)
    (commits : ∀ p i, (s.hold p i).modified = true → s.Commits p → ∃ stage k,
      op p = .commit stage k) :
    DataInv { s with log := log, op := op } where
  fresh := data.fresh
  synced := data.synced
  uncached := data.uncached
  written := by
    intro p i held
    obtain ⟨same, committer⟩ := data.written p i held
    exact ⟨same, commits p i (by rw [show s.hold p i = _ from held]; rfl) committer⟩
  logged := by
    intro p i held
    obtain ⟨pinned, inside⟩ := data.logged p i held
    exact ⟨pinned, inOp p i (by rw [show s.hold p i = _ from held]; rfl) inside⟩
  dirty := by
    intro p i held
    have modified : (s.hold p i).modified = true := by rw [show s.hold p i = _ from held]; rfl
    exact (data.dirty p i held).imp (inOp p i modified) (commits p i modified)

theorem DataInv.advance (data : DataInv t) (p : P) : DataInv (t.advance p) := by
  refine data.reop t.log (update t.op p ((t.op p).advance t.log)) ?_ ?_
  · exact fun q _ _ => update_ind advance_eq_inOp.mpr fun _ inside => inside
  · intro q _ _
    refine update_ind ?_ fun _ commits => commits
    rintro ⟨stage, k, here⟩
    rw [here]
    unfold Op.advance
    simp only
    split_ifs
    · exact ⟨_, _, rfl⟩
    · exact ⟨_, _, rfl⟩

theorem RefInv.others_unmodified (refs : RefInv s) {q : P} (locked : (s.hold p i).locks = true)
    (other : q ≠ p) : (s.hold q i).modified = false := by
  cases held : s.hold q i with
  | held m => exact absurd (refs.holder_unique locked (locks_of_held held)) other
  | none => rfl
  | waiting => rfl
  | locked => rfl
  | releasing => rfl

section

variable (data : DataInv s)

include data

/-- **An evicted block is on the disk** as its last `brelse` left it. -/
theorem DataInv.evicted (refs : RefInv s) (free : s.refcnt i = 0) (root : s.dev i = ROOTDEV) :
    s.disk (s.blockno i) = s.last (s.blockno i) := by
  obtain ⟨unused, unpinned⟩ := refs.idle_of_refcnt free
  cases valid : s.valid i with
  | true =>
    have onDisk := data.synced i root valid (fun member => unpinned ⟨root, member⟩) fun p held => by
      rw [unused p] at held
      cases held
    rw [← onDisk]
    refine data.fresh i root valid fun p => ?_
    rw [unused p]
    rfl
  | false =>
    refine data.uncached _ fun j carries => ?_
    rw [refs.unique j i _ carries ⟨root, rfl⟩]
    exact valid

theorem DataInv.miss (refs : RefInv s) (free : s.victim = some i) :
    DataInv ((s.recycle i b).setHold p i .waiting) := by
  obtain ⟨unused, -⟩ := refs.idle_of_refcnt (victim_some free)
  have held : ∀ q j m, ((s.recycle i b).setHold p i .waiting).hold q j = .held m →
      j ≠ i ∧ s.hold q j = .held m := by
    intro q j m same
    rw [hold_setHold] at same
    split_ifs at same with actor
    replace same : s.hold q j = .held m := same
    refine ⟨?_, same⟩
    rintro rfl
    rw [unused q] at same
    cases same
  have kept : ∀ q j, j ≠ i → ((s.recycle i b).setHold p i .waiting).hold q j = s.hold q j := by
    intro q j other
    rw [hold_setHold, if_neg fun both => other both.2]
    rfl
  constructor
  · intro j root valid unmodified
    have other : j ≠ i := by
      rintro rfl
      simp [setHold, recycle] at valid
    simp only [setHold, recycle, update_of_ne other] at root valid ⊢
    refine data.fresh j root valid fun q => ?_
    rw [← kept q j other]
    exact unmodified q
  · intro j root valid unpinned clean
    have other : j ≠ i := by
      rintro rfl
      simp [setHold, recycle] at valid
    simp only [setHold, recycle, update_of_ne other] at root valid unpinned ⊢
    refine data.synced j root valid unpinned fun q => ?_
    rw [← kept q j other]
    exact clean q
  · intro c none
    show s.disk c = s.last c
    by_cases victim : s.Carries i c
    · rw [← victim.2]
      exact data.evicted refs (victim_some free) victim.1
    · refine data.uncached c fun j carries => ?_
      have other : j ≠ i := by
        rintro rfl
        exact victim carries
      have invalid := none j (by simpa [Carries, setHold, recycle, other] using carries)
      simpa [setHold, recycle, other] using invalid
  · intro q j same
    obtain ⟨other, before⟩ := held q j _ same
    simp only [setHold, recycle, update_of_ne other]
    exact data.written q j before
  · intro q j same
    obtain ⟨other, before⟩ := held q j _ same
    simp only [setHold, recycle, update_of_ne other]
    exact data.logged q j before
  · intro q j same
    exact data.dirty q j (held q j _ same).2

/-- **The holder of a buffer's sleep lock** may change the buffer, its block on the disk and what
the last `brelse` left; what has to hold of the buffer afterwards depends on the new stage `h` only.
-/
theorem DataInv.own (refs : RefInv s) {lock : Fin NBUF → Option P} {log : LogState}
    {valid' : Fin NBUF → Bool} {data' : Fin NBUF → Block} {disk last : Disk} {pinned' : List Nat}
    (locked : (s.hold p i).locks = true) (pinned : ∀ b ∈ s.pinned, b ∈ pinned')
    (valid : valid' i = true) (validOther : ∀ j, j ≠ i → valid' j = s.valid j)
    (dataOther : ∀ j, j ≠ i → data' j = s.data j)
    (diskOther : ∀ b, b ≠ s.blockno i → disk b = s.disk b)
    (lastOther : ∀ b, b ≠ s.blockno i → last b = s.last b)
    (fresh : h.modified = false → data' i = last (s.blockno i))
    (synced : s.blockno i ∉ pinned' → h ≠ .held .dirty → data' i = disk (s.blockno i))
    (written : h = .held .written → data' i = disk (s.blockno i) ∧ s.Commits p)
    (logged : h = .held .logged → s.blockno i ∈ pinned' ∧ s.op p = .inOp)
    (dirty : h = .held .dirty → s.op p = .inOp ∨ s.Commits p) :
    DataInv ({ s with
      disk := disk, valid := valid', refcnt := refcnt, data := data', lock := lock, log := log
      pinned := pinned', last := last }.setHold p i h) := by
  have root : s.dev i = ROOTDEV := refs.root p i (by
    intro none
    rw [none] at locked
    cases locked)
  have mine : (s.setHold p i h).hold p i = h := if_pos ⟨rfl, rfl⟩
  have others : ∀ q j, ¬ (q = p ∧ j = i) → (s.setHold p i h).hold q j = s.hold q j :=
    fun q j other => if_neg other
  -- another buffer carries another block
  have block : ∀ j, s.dev j = ROOTDEV → j ≠ i → s.blockno j ≠ s.blockno i := by
    intro j rootJ other equal
    exact other (refs.unique j i _ ⟨rootJ, equal⟩ ⟨root, rfl⟩)
  -- a changed buffer is the holder's, or another buffer
  have elsewhere : ∀ q j m, (s.setHold p i h).hold q j = .held m → ¬ (q = p ∧ j = i) →
      s.hold q j = .held m ∧ j ≠ i := by
    intro q j m held other
    rw [others q j other] at held
    refine ⟨held, ?_⟩
    rintro rfl
    exact other ⟨refs.holder_unique locked (locks_of_held held), rfl⟩
  constructor
  · intro j rootJ validJ unmodified
    by_cases here : j = i
    · subst here
      exact fresh (by rw [← mine]; exact unmodified p)
    · refine (dataOther j here).trans (Eq.trans ?_ (lastOther _ (block j rootJ here)).symm)
      refine data.fresh j rootJ ((validOther j here).symm.trans validJ) fun q => ?_
      rw [← others q j fun both => here both.2]
      exact unmodified q
  · intro j rootJ validJ unpinned clean
    by_cases here : j = i
    · subst here
      exact synced unpinned (by rw [← mine]; exact clean p)
    · refine (dataOther j here).trans (Eq.trans ?_ (diskOther _ (block j rootJ here)).symm)
      refine data.synced j rootJ ((validOther j here).symm.trans validJ)
        (fun member => unpinned (pinned _ member)) fun q => ?_
      rw [← others q j fun both => here both.2]
      exact clean q
  · intro b none
    have other : b ≠ s.blockno i := by
      rintro rfl
      exact absurd (valid.symm.trans (none i ⟨root, rfl⟩)) nofun
    refine (diskOther b other).trans (Eq.trans ?_ (lastOther b other).symm)
    refine data.uncached b fun j carries => ?_
    have different : j ≠ i := by
      rintro rfl
      exact other carries.2.symm
    rw [← validOther j different]
    exact none j carries
  · intro q j held
    by_cases here : q = p ∧ j = i
    · obtain ⟨rfl, rfl⟩ := here
      exact written (mine.symm.trans held)
    · obtain ⟨before, different⟩ := elsewhere q j .written held here
      have rootJ := refs.root q j (by rw [before]; simp)
      obtain ⟨onDisk, commits⟩ := data.written q j before
      exact ⟨(dataOther j different).trans
        (onDisk.trans (diskOther _ (block j rootJ different)).symm), commits⟩
  · intro q j held
    by_cases here : q = p ∧ j = i
    · obtain ⟨rfl, rfl⟩ := here
      exact logged (mine.symm.trans held)
    · exact (data.logged q j (elsewhere q j .logged held here).1).imp_left (pinned _)
  · intro q j held
    by_cases here : q = p ∧ j = i
    · obtain ⟨rfl, rfl⟩ := here
      exact dirty (mine.symm.trans held)
    · exact data.dirty q j (elsewhere q j .dirty held here).1

/-- **`bread` returns what the last `brelse` left.** -/
theorem DataInv.bread_returns (refs : RefInv s) (locked : s.hold p i = .locked) :
    (if s.valid i then s.data i else s.disk (s.blockno i)) = s.last (s.blockno i) := by
  have root : s.dev i = ROOTDEV := refs.root p i (by simp [locked])
  split_ifs with valid
  · refine data.fresh i root valid fun q => ?_
    by_cases same : q = p
    · rw [same, locked]
      rfl
    · exact refs.others_unmodified (by rw [locked]; rfl) same
  · refine data.uncached _ fun j carries => ?_
    rw [refs.unique j i _ carries ⟨root, rfl⟩]
    simpa using valid

theorem DataInv.fill (refs : RefInv s) (locked : s.hold p i = .locked) : DataInv ({ s with
      data := update s.data i (if s.valid i then s.data i else s.disk (s.blockno i))
      valid := update s.valid i true }.setHold p i (.held .clean)) := by
  have root : s.dev i = ROOTDEV := refs.root p i (by simp [locked])
  have mine : (s.hold p i).locks = true := by rw [locked]; rfl
  refine data.own refs mine (fun _ member => member) (update_self _ _ _)
    (fun j other => update_of_ne other _ _) (fun j other => update_of_ne other _ _)
    (fun _ _ => rfl) (fun _ _ => rfl) ?_ ?_ nofun
    nofun nofun
  · intro _
    show update s.data i _ i = _
    rw [update_self]
    exact data.bread_returns refs locked
  · intro unpinned _
    show update s.data i _ i = _
    rw [update_self]
    split_ifs with valid
    · refine data.synced i root valid unpinned fun q held => ?_
      by_cases same : q = p
      · rw [same, locked] at held
        cases held
      · have unmodified := refs.others_unmodified mine same
        rw [held] at unmodified
        cases unmodified
    · rfl

theorem DataInv.store (refs : RefInv s) {contents : Block} (held : s.hold p i = .held m)
    (allowed : s.op p = .inOp ∨ s.Commits p) : DataInv (s.store p i contents) :=
  data.own refs (locks_of_held held) (fun _ member => member)
    (refs.heldValid p i m held) (fun _ _ => rfl) (fun _ other => update_of_ne other _ _)
    (fun _ _ => rfl) (fun _ _ => rfl) nofun
    (fun _ clean => absurd rfl clean) nofun
    nofun (fun _ => allowed)

theorem DataInv.log (refs : RefInv s) {log : LogState} {pinned : List Nat}
    (held : s.hold p i = .held m) (inside : s.op p = .inOp) (more : ∀ b ∈ s.pinned, b ∈ pinned)
    (here : s.blockno i ∈ pinned) :
    DataInv ({ s with log := log, pinned := pinned, refcnt := refcnt }.setHold p i
      (.held .logged)) :=
  data.own refs (locks_of_held held) more (refs.heldValid p i m held)
    (fun _ _ => rfl) (fun _ _ => rfl) (fun _ _ => rfl) (fun _ _ => rfl)
    nofun (fun absent _ => absurd here absent)
    nofun (fun _ => ⟨here, inside⟩) nofun

theorem DataInv.release (refs : RefInv s) (held : s.hold p i = .held m) (settled : m ≠ .dirty) :
    DataInv ({ s with
      lock := update s.lock i none
      last := update s.last (s.blockno i) (s.data i) }.setHold p i .releasing) := by
  have root : s.dev i = ROOTDEV := refs.root p i (by simp [held])
  refine data.own refs (locks_of_held held) (fun _ member => member)
    (refs.heldValid p i m held) (fun _ _ => rfl) (fun _ _ => rfl) (fun _ _ => rfl)
    (fun b other => update_of_ne other _ _) ?_ ?_ nofun
    nofun nofun
  · intro _
    show s.data i = update s.last (s.blockno i) (s.data i) (s.blockno i)
    rw [update_self]
  · intro unpinned _
    refine data.synced i root (refs.heldValid p i m held) unpinned fun q dirty => ?_
    have same := refs.holder_unique (locks_of_held held) (locks_of_held dirty)
    rw [same, held] at dirty
    exact settled (Hold.held.inj dirty)

theorem DataInv.bwrite (refs : RefInv s) (held : s.hold p i = .held m) (committer : s.Commits p) :
    DataInv ({ s with disk := update s.disk (s.blockno i) (s.data i) }.setHold p i
      (.held .written)) := by
  have onDisk : s.data i = update s.disk (s.blockno i) (s.data i) (s.blockno i) := by
    rw [update_self]
  exact data.own refs (locks_of_held held) (fun _ member => member)
    (refs.heldValid p i m held) (fun _ _ => rfl) (fun _ _ => rfl)
    (fun b other => update_of_ne other _ _) (fun _ _ => rfl)
    nofun (fun _ _ => onDisk) (fun _ => ⟨onDisk, committer⟩)
    nofun nofun

theorem DataInv.bunpin (refs : RefInv s) (ops : OpInv s) (found : s.cached b = some i)
    (installed : s.hold p i = .held .written) :
    DataInv { s with refcnt := refcnt, pinned := s.pinned.erase b } where
  fresh := data.fresh
  synced := by
    intro j root valid unpinned clean
    by_cases same : s.blockno j = b
    · rw [refs.unique j i b ⟨root, same⟩ (cached_some found)]
      exact (data.written p i installed).1
    · refine data.synced j root valid (fun member => unpinned ?_) clean
      exact (List.mem_erase_of_ne same).mpr member
  uncached := data.uncached
  written := data.written
  logged := by
    intro q j held
    have inside := (data.logged q j held).2
    exact absurd (data.written p i installed).2 (ops.not_commits_of_inOp inside p)
  dirty := data.dirty

end

end DataSteps

end Cache

end Xv6
