/-
**The buffer cache and the log behave as one array of blocks.**

`CacheInv` puts the invariants together and `CacheInv.step` is one step of any process. `CopyInv`
follows the contents through `commit()`: what `write_log` copies and what `install_trans` copies
back is what the last `brelse` left. `cache_is_block_array` is the result, over every run from a
cache that nobody uses.
-/

import Xv6.Log.BcacheData

set_option linter.unusedSectionVars false

namespace Xv6

open Lib Function

namespace Cache

variable {P : Type} [DecidableEq P] [Fintype P] {s t : Cache P}

structure CacheInv (s : Cache P) : Prop where
  ops : OpInv s
  refs : RefInv s
  commit : CommitInv s
  data : DataInv s

/-! ### One step -/

variable {i j : Fin NBUF} {e : CacheEvent P} {b k tail dst src : Nat} {p q : P} {contents : Block}
  {h : Hold}
  {m : Mod} {stage : Stage} {instr : Instr}

theorem unmodified_of_settled (settled : h = .none ∨ h = .held .clean) : h.modified = false := by
  rcases settled with none | clean
  · rw [none]
    rfl
  · rw [clean]
    rfl

/-- The statements other than `bunpin` and `log.lh.n = 0` keep `OpInv` when the process goes on. -/
theorem kept_of_instr (asked : s.Commits p → s.instr p = some instr)
    (notUnpin : ∀ b, instr ≠ .bunpin b) (notClear : instr ≠ .clear) :
    ∀ stage k, s.op p = .commit stage k →
      stage ≠ .clear ∧ ∀ b, (stage.body s.log)[k]? ≠ some (.bunpin b) := by
  intro stage k here
  have atInstr := asked ⟨stage, k, here⟩
  rw [Cache.instr, here] at atInstr
  replace atInstr : (stage.body s.log)[k]? = some instr := atInstr
  constructor
  · rintro rfl
    cases k with
    | zero =>
      cases atInstr
      exact notClear rfl
    | succ k => simp [Stage.body] at atInstr
  · intro b same
    rw [same] at atInstr
    exact notUnpin b (Option.some.inj atInstr).symm

section

variable (inv : CacheInv s)

include inv

/-- The buffers a process holds when it begins an iteration of `commit()` are unchanged ones. -/
theorem CacheInv.unmodified_at_start (begins : s.op p = .commit stage 0)
    (i : Fin NBUF) : (s.hold p i).modified = false := by
  by_cases used : s.hold p i = .none
  · rw [used]
    rfl
  · rcases (inv.commit p _ _ begins).tracked i (inv.refs.root p i used) with
      none | leaves | clean | ⟨-, waits | locked⟩
    · rw [none]
      rfl
    · rw [leaves]
      rfl
    · rw [clean]
      rfl
    · rw [waits]
      rfl
    · rw [locked]
      rfl

theorem CacheInv.at_instr (asked : s.instr p = some instr) :
    ∃ stage k, s.op p = .commit stage k ∧ (stage.body s.log)[k]? = some instr ∧
      s.Follows p stage k := by
  obtain ⟨stage, k, here, atInstr⟩ := instr_eq_some asked
  exact ⟨stage, k, here, atInstr, inv.commit p stage k here⟩

theorem CacheInv.reop_settled (inside : s.op p = .inOp)
    (settled : ∀ i, s.hold p i = .none ∨ s.hold p i = .held .clean) (log : LogState) (op : Op) :
    DataInv { s with log := log, op := update s.op p op } := by
  refine inv.data.reop _ _ (fun q i modified within => ?_) fun q _ _ commits => ?_
  · have other : q ≠ p := by
      rintro rfl
      rw [unmodified_of_settled (settled i)] at modified
      cases modified
    rwa [update_of_ne other]
  · exact absurd commits (inv.ops.not_commits_of_inOp inside q)

theorem CacheInv.fill (locked : s.hold p i = .locked) : CacheInv (({ s with
      data := update s.data i (if s.valid i then s.data i else s.disk (s.blockno i))
      valid := update s.valid i true }.setHold p i (.held .clean)).advance p) := by
  have root : s.dev i = ROOTDEV := inv.refs.root p i (by simp [locked])
  have asked : s.Commits p → s.instr p = some (.bread (s.blockno i)) := by
    rintro ⟨stage, k, here⟩
    rw [instr, here]
    exact ((inv.commit p stage k here).at_bread root (.inr locked)).1
  have refs : RefInv ({ s with valid := update s.valid i true }.setHold p i (.held .clean)) :=
    inv.refs.rehold (by simp [locked]) (by simp) (inv.refs.lock_kept (by rw [locked]; rfl))
      (fun j valid => show update s.valid i true j = true from update_ind rfl fun _ => valid)
      fun _ _ => update_self _ _ _
  refine ⟨?_, { refs with }, ?_, (inv.data.fill inv.refs locked).advance p⟩
  · exact OpInv.advance { inv.ops with } (kept_of_instr asked (by simp) (by simp))
  · refine inv.commit.advance inv.refs asked root ?_ fun b other => ?_
    · simp [Instr.track, Tracks]
    · exact ⟨fun same => other (Instr.bread.inj same).symm, fun _ => update_of_ne other _ _⟩

theorem CacheInv.release (held : s.hold p i = .held m)
    (asked : s.Commits p → s.instr p = some (.brelse (s.blockno i)))
    (logged : ¬ s.Commits p → m ≠ .dirty) :
    CacheInv (({ s with
      lock :=
  update s.lock i none
      last := update s.last (s.blockno i) (s.data i) }.setHold p i
        .releasing).advance p) := by
  have root : s.dev i = ROOTDEV := inv.refs.root p i (by simp [held])
  -- `commit()` writes every buffer it has changed before it releases it
  have settled : m ≠ .dirty := by
    by_cases committer : s.Commits p
    · rintro rfl
      obtain ⟨stage, k, here, atInstr, follows⟩ := inv.at_instr (asked committer)
      have tracked := follows.tracked i root
      rw [held] at tracked
      cases expected : stage.held s.log k (s.blockno i) with
      | some m =>
        rw [expected] at tracked
        have same : Hold.held .dirty = .held m := tracked
        exact held_at atInstr (by rw [expected, Hold.held.inj same])
      | none =>
        rw [expected] at tracked
        simp [Tracks] at tracked
    · exact logged committer
  refine ⟨?_, inv.refs.release held, ?_, (inv.data.release inv.refs held settled).advance p⟩
  · exact OpInv.advance { inv.ops with } (kept_of_instr asked (by simp) (by simp))
  · refine inv.commit.advance inv.refs asked root ?_ fun b other => ?_
    · simp [Instr.track, Tracks]
    · exact ⟨by simp, fun _ => update_of_ne other _ _⟩

theorem CacheInv.store (asked : s.instr p = some instr)
    (found : s.cached b = some i) (changes : ∀ held, instr.track held = update held b (some .dirty))
    (holds : s.hold p i = .held .clean) : CacheInv ((s.store p i contents).advance p) := by
  obtain ⟨stage, k, here, atInstr, follows⟩ := inv.at_instr asked
  obtain ⟨root, same⟩ := cached_some found
  have notRead : ∀ c, instr ≠ .bread c := by
    rintro c rfl
    have tracks := congrFun (changes fun _ => none) c
    simp [Instr.track, update_apply] at tracks
  have notUnpin : ∀ c, instr ≠ .bunpin c := by
    rintro c rfl
    have tracks := congrFun (changes fun _ => none) b
    simp [Instr.track] at tracks
  have notClear : instr ≠ .clear := by
    rintro rfl
    have tracks := congrFun (changes fun _ => none) b
    simp [Instr.track] at tracks
  refine ⟨?_, ?_, ?_, (inv.data.store inv.refs holds (.inr ⟨stage, k, here⟩)).advance p⟩
  · exact OpInv.advance { inv.ops with } (kept_of_instr (fun _ => asked) notUnpin notClear)
  · exact { inv.refs.remod holds .dirty with }
  · refine inv.commit.advance inv.refs (fun _ => asked) root (fun _ _ _ => ?_)
      fun c other => ⟨notRead c, fun _ => ?_⟩
    · rw [changes, same, update_self]
      rfl
    · rw [changes, update_of_ne (same ▸ other)]

theorem CacheInv.bwrite (asked : s.instr p = some (.bwrite b)) (found : s.cached b = some i) :
    CacheInv (({ s with disk := update s.disk (s.blockno i) (s.data i) }.setHold p i
      (.held .written)).advance p) := by
  obtain ⟨stage, k, here, atInstr, follows⟩ := inv.at_instr asked
  obtain ⟨root, same⟩ := cached_some found
  have holds := follows.holds found (held_at atInstr)
  refine ⟨?_, ?_, ?_, (inv.data.bwrite inv.refs holds ⟨stage, k, here⟩).advance p⟩
  · exact OpInv.advance { inv.ops with } (kept_of_instr (fun _ => asked) nofun nofun)
  · exact { inv.refs.remod holds .written with }
  · refine inv.commit.advance inv.refs (fun _ => asked) root (fun _ _ _ => ?_)
      fun c other => ⟨nofun, fun _ => update_of_ne (same ▸ other) _ _⟩
    rw [Instr.track, same, update_self]
    rfl

theorem CacheInv.bunpin (asked : s.instr p = some (.bunpin b)) (found : s.cached b = some i) :
    CacheInv ({ s with
      refcnt := update s.refcnt i (s.refcnt i - 1)
      pinned := s.pinned.erase b }.advance p) := by
  obtain ⟨stage, k, here, atInstr, follows⟩ := inv.at_instr asked
  obtain ⟨root, same⟩ := cached_some found
  have holds := follows.holds found (held_at atInstr)
  obtain ⟨tail, rfl, rfl, rfl⟩ := body_bunpin atInstr
  obtain ⟨inside, -⟩ := inv.ops.stage p _ _ here
  have still : s.pinned = s.log.lh.drop tail := inv.ops.pins p _ _ here
  have member : s.log.block tail ∈ s.pinned := by
    rw [still, List.drop_eq_getElem_cons inside, LogState.block, List.getD_eq_getElem _ _ inside]
    exact List.mem_cons_self
  have nodup : s.pinned.Nodup := by
    rw [still]
    exact inv.ops.nodup.sublist (List.drop_sublist _ _)
  refine ⟨{ inv.ops.bunpin asked with }, inv.refs.bunpin found member nodup, ?_,
    (inv.data.bunpin inv.refs inv.ops found holds).advance p⟩
  have next : CommitInv (({ s with
      refcnt := update s.refcnt i (s.refcnt i - 1)
      pinned := s.pinned.erase (s.log.block tail) }.setHold p i (.held .written)).advance p) := by
    refine inv.commit.advance inv.refs (fun _ => asked) root (fun _ _ there => ?_)
      fun _ _ => ⟨by simp, fun _ => rfl⟩
    rw [Instr.track, same, held_at there]
    rfl
  rwa [setHold_self (by exact holds)] at next

theorem CacheInv.step (step : Step s e t) : CacheInv t := by
  cases step.does with
  | hit p b i asked found unused =>
    refine ⟨{ inv.ops with }, inv.refs.hit found unused, ?_,
      inv.data.restage (by rw [unused]; rfl) rfl⟩
    · refine inv.commit.restage fun stage k here => ?_
      obtain ⟨root, same⟩ := cached_some found
      have tracked := (inv.commit p stage k here).tracked i root
      have reads := asked ⟨stage, k, here⟩
      rw [instr, here] at reads
      replace reads : (stage.body s.log)[k]? = some (.bread b) := reads
      rw [same] at tracked ⊢
      cases expected : stage.held s.log k b with
      | some m =>
        rw [expected, unused] at tracked
        cases tracked
      | none => exact .inr (.inr (.inr ⟨reads, .inl rfl⟩))
  | miss p b i asked absent free =>
    exact ⟨{ inv.ops with }, inv.refs.miss absent free,
      inv.commit.miss inv.refs asked absent free, inv.data.miss inv.refs free⟩
  | acquire p i waits free =>
    refine ⟨{ inv.ops with }, inv.refs.acquire waits free, ?_,
      inv.data.restage (by rw [waits]; rfl) rfl⟩
    · refine inv.commit.restage fun stage k here => ?_
      have root := inv.refs.root p i (by simp [waits])
      obtain ⟨reads, none⟩ := (inv.commit p stage k here).at_bread root (.inl waits)
      rw [none]
      exact .inr (.inr (.inr ⟨reads, .inr rfl⟩))
  | fill p i locked => exact inv.fill locked
  | modify p i data m held inside =>
    exact ⟨{ inv.ops with }, { inv.refs.remod held .dirty with },
      commitInv_of_quiet fun q => inv.ops.not_commits_of_inOp inside q,
      inv.data.store inv.refs held (.inl inside)⟩
  | logNew p i log m held inside writes =>
    have quiet := inv.ops.not_commits_of_inOp inside
    have fresh : s.blockno i ∉ s.pinned := by
      rw [inv.ops.quiet quiet]
      exact (LogState.logWrite_new writes).1
    refine ⟨{ inv.ops.logNew inside writes with }, inv.refs.logNew held fresh,
      commitInv_of_quiet quiet, ?_⟩
    exact inv.data.log inv.refs held inside (fun _ => List.mem_append_left _)
      (List.mem_append_right _ (List.mem_singleton_self _))
  | logAgain p i log m held inside writes =>
    have quiet := inv.ops.not_commits_of_inOp inside
    obtain ⟨member, rfl⟩ := LogState.logWrite_again writes
    refine ⟨{ inv.ops with }, { inv.refs.remod held .logged with }, commitInv_of_quiet quiet, ?_⟩
    exact inv.data.log inv.refs held inside (fun _ old => old)
      (by rw [inv.ops.quiet quiet]; exact member)
  | release p i m held asked logged => exact inv.release held asked logged
  | decref p i leaves =>
    refine ⟨{ inv.ops with }, inv.refs.decref leaves ?_, ?_,
      inv.data.restage (by rw [leaves]; rfl) rfl⟩
    · intro j
      split_ifs
      · by_cases same : j = i
        · rw [same]
          exact List.mem_cons_self
        · exact List.mem_cons_of_mem _ ((List.mem_erase_of_ne same).mpr (inv.refs.listed j))
      · exact inv.refs.listed j
    · refine inv.commit.restage fun stage k here => ?_
      have root := inv.refs.root p i (by simp [leaves])
      have tracked := (inv.commit p stage k here).tracked i root
      cases expected : stage.held s.log k (s.blockno i) with
      | some m =>
        rw [expected, leaves] at tracked
        cases tracked
      | none => exact .inl rfl
  | beginOp p log idle admitted =>
    have free := (LogState.beginOp_some admitted).1
    have ops := inv.ops.beginOp idle admitted
    refine ⟨ops, { inv.refs with }, ?_, ?_⟩
    · refine commitInv_of_quiet fun q => ops.not_commits_of_inOp (p := p) ?_ q
      exact update_self _ _ _
    · refine inv.data.reop _ _ ?_ ?_
      · exact fun q _ _ inside => update_ind rfl fun _ => inside
      · intro q _ _ commits
        exact absurd commits (inv.ops.none_commits free q)
  | startCommit p log inside settled last =>
    have ops := inv.ops.startCommit inside last
    exact ⟨ops, { inv.refs with }, CommitInv.startCommit ops settled,
      inv.reop_settled inside settled _ _⟩
  | leave p log inside settled others =>
    have ops := inv.ops.leave inside others
    have free : log.committing = false := by
      rw [(LogState.endOp_others others).2.2]
      exact (LogState.endOp_others others).1
    exact ⟨ops, { inv.refs with }, commitInv_of_quiet (ops.none_commits free),
      inv.reop_settled inside settled _ _⟩
  | memmove p dst src i j asked foundDst foundSrc =>
    obtain ⟨stage, k, here, atInstr, follows⟩ := inv.at_instr asked
    exact inv.store asked foundDst (fun _ => rfl) (follows.holds foundDst (held_at atInstr).1)
  | putHead p b i asked found =>
    obtain ⟨stage, k, here, atInstr, follows⟩ := inv.at_instr asked
    exact inv.store asked found (fun _ => rfl) (follows.holds found (held_at atInstr))
  | bwrite p b i asked found => exact inv.bwrite asked found
  | bunpin p b i asked found => exact inv.bunpin asked found
  | clear p asked =>
    refine ⟨inv.ops.clear asked, { inv.refs with }, inv.commit.clear inv.ops asked, ?_⟩
    have cleared : DataInv { s with log := { s.log with lh := [] }, op := s.op } :=
      inv.data.reop _ _ (fun _ _ _ inside => inside) (fun _ _ _ commits => commits)
    exact cleared.advance p
  | commitDone p finished =>
    have ops := inv.ops.commitDone finished
    refine ⟨ops, { inv.refs with }, commitInv_of_quiet (ops.none_commits rfl), ?_⟩
    refine inv.data.reop _ _ ?_ ?_
    · intro q _ _ inside
      exact absurd ⟨_, _, finished⟩ (inv.ops.not_commits_of_inOp inside p)
    · intro q i modified commits
      have same : q = p := inv.ops.alone p q ⟨_, _, finished⟩ (commits_iff.mp commits).1
      rw [same, inv.unmodified_at_start finished i] at modified
      cases modified

end

/-! ### The contents on their way through `commit()` -/

/-- No logged block is in the log area. -/
def Outside (log : LogState) : Prop := ∀ b ∈ log.lh, ¬ log.InArea b

/-- How many log blocks `write_log` has finished. -/
def copied (log : LogState) : Stage → Nat
  | .writeLog tail => tail
  | .writeHead | .install _ => log.lh.length
  | _ => 0

/-- The committing process has copied, and is copying, what the last `brelse` left. -/
structure Copies (s : Cache P) (p : P) (stage : Stage) : Prop where
  saved : ∀ j, j < copied s.log stage → s.last (s.log.slot j) = s.last (s.log.block j)
  moving : ∀ i tail, stage = .writeLog tail ∨ stage = .install tail →
    (s.hold p i).modified = true → s.data i = s.last (s.log.block tail)

structure CopyInv (s : Cache P) : Prop where
  fits : s.log.lh.length < s.log.size
  copies : Outside s.log → ∀ p stage k, s.op p = .commit stage k → s.Copies p stage

theorem block_mem {log : LogState} (inside : tail < log.lh.length) : log.block tail ∈ log.lh := by
  rw [LogState.block, List.getD_eq_getElem _ _ inside]
  exact List.getElem_mem inside

section Areas

variable {log : LogState} (outside : Outside log) (fits : log.lh.length < log.size)
  {tail j : Nat} (inside : tail < log.lh.length) (below : j < log.lh.length)

include fits inside in
theorem slot_in_area : log.InArea (log.slot tail) := by
  unfold LogState.slot
  exact ⟨by omega, by omega⟩

include fits in
theorem start_in_area : log.InArea log.start := ⟨le_refl _, by omega⟩

include outside fits inside below in
theorem block_ne_slot : log.block j ≠ log.slot tail := by
  intro same
  refine outside _ (block_mem below) ?_
  rw [same]
  exact slot_in_area fits inside

end Areas

theorem body_brelse {log : LogState} (asked : (stage.body log)[k]? = some (.brelse b)) :
    (∃ tail, stage = .writeLog tail ∧ k = 4 ∧ b = log.block tail) ∨
    (∃ tail, stage = .writeLog tail ∧ k = 5 ∧ b = log.slot tail) ∨
    (∃ tail, stage = .install tail ∧ k = 5 ∧ b = log.slot tail) ∨
    (∃ tail, stage = .install tail ∧ k = 6 ∧ b = log.block tail) ∨
    ((stage = .writeHead ∨ stage = .clearHead) ∧ k = 3 ∧ b = log.start) := by
  cases stage <;> rcases k with _ | _ | _ | _ | _ | _ | _ | k <;> simp [Stage.body] at asked ⊢ <;>
    exact asked.symm

theorem copied_le {log : LogState} (ok : StageOk log k stage) :
    copied log stage ≤ log.lh.length := by
  cases stage with
  | writeLog tail => exact ok.1.le
  | writeHead | install => exact le_refl _
  | clear | clearHead | done => exact Nat.zero_le _

theorem copied_next {log : LogState} (other : ∀ tail, stage ≠ .writeLog tail) :
    copied log (stage.next log) ≤ copied log stage := by
  cases stage with
  | writeLog tail => exact absurd rfl (other tail)
  | install tail =>
    simp only [Stage.next]
    split_ifs
    · exact le_refl _
    · exact Nat.zero_le _
  | writeHead => exact le_refl _
  | clear => exact le_refl _
  | clearHead => exact le_refl _
  | done => exact le_refl _

theorem copied_next_writeLog {log : LogState} (inside : tail < log.lh.length) :
    copied log (Stage.next log (.writeLog tail)) = tail + 1 := by
  simp only [Stage.next]
  split_ifs with more
  · rfl
  · show log.lh.length = tail + 1
    omega

theorem Copies.advance (copies : t.Copies p stage) (here : t.op p = .commit stage k)
    (ok : StageOk t.log k stage) (after : CacheInv (t.advance p))
    (finished : ∀ tail, stage = .writeLog tail → k = 5 →
      t.last (t.log.slot tail) = t.last (t.log.block tail))
    {stage' : Stage} {k' : Nat} (there : (t.advance p).op p = .commit stage' k') :
    (t.advance p).Copies p stage' := by
  have next : (Op.commit stage k).advance t.log = .commit stage' k' := by
    rw [← there, ← here]
    show _ = update t.op p ((t.op p).advance t.log) p
    rw [update_self]
  unfold Op.advance at next
  simp only at next
  split_ifs at next with more
  · cases next
    exact ⟨copies.saved, copies.moving⟩
  · cases next
    refine ⟨?_, ?_⟩
    · intro j below
      replace below : j < copied t.log (stage.next t.log) := below
      show t.last (t.log.slot j) = t.last (t.log.block j)
      by_cases logging : ∃ tail, stage = .writeLog tail
      · obtain ⟨tail, rfl⟩ := logging
        rw [copied_next_writeLog ok.1] at below
        by_cases last : j = tail
        · have lastStatement : k = 5 := by
            have bound := ok.2
            simp only [Stage.body, List.length_cons, List.length_nil] at more
            omega
          rw [last]
          exact finished tail rfl lastStatement
        · exact copies.saved j (show j < tail by omega)
      · exact copies.saved j
          (lt_of_lt_of_le below (copied_next fun tail same => logging ⟨tail, same⟩))
    · intro i tail _ modified
      rw [after.unmodified_at_start there i] at modified
      cases modified

/-- A step of a process that does not commit, or that leaves the contents alone. -/
theorem CopyInv.frame (copy : CopyInv s) (sameLog : t.log = s.log) (sameOp : t.op = s.op)
    (sameLast : t.last = s.last)
    (kept : ∀ p i, s.Commits p → (t.hold p i).modified = true →
      (s.hold p i).modified = true ∧ t.data i = s.data i) : CopyInv t where
  fits := by
    rw [sameLog]
    exact copy.fits
  copies := by
    intro outside p stage k here
    rw [sameLog] at outside
    rw [sameOp] at here
    have copies := copy.copies outside p stage k here
    refine ⟨?_, ?_⟩
    · rw [sameLog, sameLast]
      exact copies.saved
    · intro i tail place modified
      obtain ⟨before, same⟩ := kept p i ⟨stage, k, here⟩ modified
      rw [same, sameLog, sameLast]
      exact copies.moving i tail place before

theorem logWrite_fits {log log' : LogState} (writes : log.logWrite b = .ok (log', true)) :
    log'.lh.length < log'.size := by
  obtain ⟨-, rfl⟩ := LogState.logWrite_new writes
  unfold LogState.logWrite at writes
  split at writes
  · cases writes
  · rename_i room
    simp only [List.length_append, List.length_cons, List.length_nil]
    omega

theorem copyInv_of_quiet (fits : t.log.lh.length < t.log.size) (quiet : ∀ p, ¬ t.Commits p) :
    CopyInv t :=
  ⟨fits, fun _ p stage k here => absurd ⟨stage, k, here⟩ (quiet p)⟩

theorem Copies.store (copies : s.Copies p stage)
    (same : ∀ tail, stage = .writeLog tail ∨ stage = .install tail →
      contents = s.last (s.log.block tail)) : (s.store p i contents).Copies p stage where
  saved := copies.saved
  moving := by
    intro j tail place modified
    show update s.data i contents j = s.last (s.log.block tail)
    refine update_ind (same tail place) fun other => copies.moving j tail place ?_
    have kept : (s.store p i contents).hold p j = s.hold p j := if_neg fun both => other both.2
    rw [← kept]
    exact modified

theorem body_memmove {log : LogState} (asked : (stage.body log)[k]? = some (.memmove dst src)) :
    k = 2 ∧ ((∃ tail, stage = .writeLog tail ∧ src = log.block tail) ∨
      ∃ tail, stage = .install tail ∧ src = log.slot tail) := by
  cases stage <;> rcases k with _ | _ | _ | _ | _ | _ | _ | k <;> simp [Stage.body] at asked ⊢ <;>
    exact asked.2.symm

theorem not_brelse {log : LogState} (asked : (stage.body log)[k]? = some instr)
    (other : ∀ b, instr ≠ .brelse b) {A : Nat → Prop} (tail : Nat) (place : stage = .writeLog tail)
    (last : k = 5) : A tail := by
  subst place last
  cases asked
  exact absurd rfl (other _)

/-- A buffer that its holder has not changed has what the last `brelse` left. -/
theorem CacheInv.clean_fresh (inv : CacheInv s) (clean : s.hold p i = .held .clean) :
    s.data i = s.last (s.blockno i) := by
  refine inv.data.fresh i (inv.refs.root p i (by simp [clean])) (inv.refs.heldValid p i _ clean) ?_
  intro q
  by_cases same : q = p
  · rw [same, clean]
    rfl
  · exact inv.refs.others_unmodified (locks_of_held clean) same

theorem CacheInv.kept_other (inv : CacheInv s) (locked : (s.hold p i).locks = true)
    (unchanged : h.modified = false) (modified : ((s.setHold p i h).hold q j).modified = true) :
    j ≠ i ∧ (s.hold q j).modified = true := by
  rw [hold_setHold] at modified
  split_ifs at modified with same
  · rw [unchanged] at modified
    cases modified
  · refine ⟨?_, modified⟩
    rintro rfl
    have other : q ≠ p := fun actor => same ⟨actor, rfl⟩
    rw [inv.refs.others_unmodified locked other] at modified
    cases modified

theorem modified_of_setHold (unchanged : h.modified = false)
    (modified : ((s.setHold p i h).hold q j).modified = true) : (s.hold q j).modified = true := by
  rw [hold_setHold] at modified
  split_ifs at modified
  · rw [unchanged] at modified
    cases modified
  · exact modified

section

variable (copy : CopyInv s) (inv : CacheInv s)

include copy inv

/-- The log block that `write_log` has written has the contents of its home block. -/
theorem CopyInv.slot_moved (outside : Outside s.log) (here : s.op p = .commit (.writeLog tail) 5)
    (used : s.hold p i ≠ .none) (atSlot : s.blockno i = s.log.slot tail) :
    s.data i = s.last (s.log.block tail) := by
  have ok := inv.ops.stage p _ _ here
  have apart := block_ne_slot outside copy.fits ok.1 ok.1
  have expected : Stage.held s.log 5 (.writeLog tail) (s.log.slot tail) = some .written := by
    simp [Stage.held, Stage.body, Instr.track, apart.symm]
  have tracked := (inv.commit p _ _ here).tracked i (inv.refs.root p i used)
  rw [atSlot, expected] at tracked
  refine (copy.copies outside p _ _ here).moving i tail (.inl rfl) ?_
  rw [show s.hold p i = .held .written from tracked]
  rfl

/-- **What `brelse` in `commit()` leaves**: the same as before, or a block of the log area. -/
theorem CopyInv.brelse (outside : Outside s.log)
    (here : s.op p = .commit stage k) (held : s.hold p i = .held m)
    (asked : (stage.body s.log)[k]? = some (.brelse (s.blockno i))) :
    s.data i = s.last (s.blockno i) ∨
    (∃ tail, stage = .writeLog tail ∧ k = 5 ∧ s.blockno i = s.log.slot tail ∧
      s.data i = s.last (s.log.block tail)) ∨
    ((stage = .writeHead ∨ stage = .clearHead) ∧ s.blockno i = s.log.start) := by
  have ok := inv.ops.stage p stage k here
  have root : s.dev i = ROOTDEV := inv.refs.root p i (by simp [held])
  have tracked := (inv.commit p stage k here).tracked i root
  rcases body_brelse asked with ⟨tail, rfl, rfl, same⟩ | ⟨tail, rfl, rfl, same⟩ |
    ⟨tail, rfl, rfl, same⟩ | ⟨tail, rfl, rfl, same⟩ | ⟨place, -, same⟩
  · -- the home block that `write_log` has read
    have apart := block_ne_slot outside copy.fits ok.1 ok.1
    have expected : Stage.held s.log 4 (.writeLog tail) (s.log.block tail) = some .clean := by
      simp [Stage.held, Stage.body, Instr.track, apart]
    rw [same, expected] at tracked
    exact .inl (inv.clean_fresh tracked)
  · exact .inr (.inl ⟨tail, rfl, rfl, same, copy.slot_moved inv outside here (by simp [held]) same⟩)
  · have apart := block_ne_slot outside copy.fits ok.1 ok.1
    have expected : Stage.held s.log 5 (.install tail) (s.log.slot tail) = some .clean := by
      simp [Stage.held, Stage.body, Instr.track, apart.symm]
    rw [same, expected] at tracked
    exact .inl (inv.clean_fresh tracked)
  · -- the home block that `install_trans` has written
    have apart := block_ne_slot outside copy.fits ok.1 ok.1
    have expected : Stage.held s.log 6 (.install tail) (s.log.block tail) = some .written := by
      simp [Stage.held, Stage.body, Instr.track, apart]
    rw [same, expected] at tracked
    left
    rw [same]
    refine (copy.copies outside p _ _ here).moving i tail (.inr rfl) ?_
    rw [show s.hold p i = .held .written from tracked]
    rfl
  · exact .inr (.inr ⟨place, same⟩)

/-- Blocks outside the log area keep their contents. -/
theorem CopyInv.home_kept (outside : Outside s.log) (here : s.op p = .commit stage k)
    (held : s.hold p i = .held m) (asked : (stage.body s.log)[k]? = some (.brelse (s.blockno i)))
    (home : ¬ s.log.InArea b) : update s.last (s.blockno i) (s.data i) b = s.last b := by
  rcases copy.brelse inv outside here held asked with same | ⟨tail, rfl, rfl, atSlot, -⟩ |
    ⟨-, atStart⟩
  · rw [same, update_eq_self]
  · refine update_of_ne ?_ _ _
    rintro rfl
    rw [atSlot] at home
    exact home (slot_in_area copy.fits (inv.ops.stage p _ _ here).1)
  · refine update_of_ne ?_ _ _
    rintro rfl
    rw [atStart] at home
    exact home (start_in_area copy.fits)

/-- And so do the log blocks that are finished. -/
theorem CopyInv.slot_kept (outside : Outside s.log) (here : s.op p = .commit stage k)
    (held : s.hold p i = .held m) (asked : (stage.body s.log)[k]? = some (.brelse (s.blockno i)))
    {n : Nat} (below : n < copied s.log stage) :
    update s.last (s.blockno i) (s.data i) (s.log.slot n) = s.last (s.log.slot n) := by
  rcases copy.brelse inv outside here held asked with same | ⟨tail, rfl, rfl, atSlot, -⟩ |
    ⟨-, atStart⟩
  · rw [same, update_eq_self]
  · rw [atSlot]
    replace below : n < tail := below
    refine update_of_ne ?_ _ _
    unfold LogState.slot
    omega
  · rw [atStart]
    refine update_of_ne ?_ _ _
    unfold LogState.slot
    omega

theorem CopyInv.committer (here : s.op p = .commit stage k)
    (sameLog : t.log = s.log) (sameOp : t.op = s.op) (after : CacheInv (t.advance p))
    (copies : Outside s.log → s.Copies p stage → t.Copies p stage)
    (finished : Outside s.log → ∀ tail, stage = .writeLog tail → k = 5 →
      t.last (s.log.slot tail) = t.last (s.log.block tail)) : CopyInv (t.advance p) where
  fits := by
    show t.log.lh.length < t.log.size
    rw [sameLog]
    exact copy.fits
  copies := by
    intro outside q stage' k' there
    replace outside : Outside s.log := by
      rw [← sameLog]
      exact outside
    have running : (t.advance p).Commits p := by
      rw [commits_iff]
      show update t.op p ((t.op p).advance t.log) p ≠ _ ∧
        update t.op p ((t.op p).advance t.log) p ≠ _
      rw [update_self, sameOp, ne_eq, ne_eq, advance_eq_idle, advance_eq_inOp, here]
      exact ⟨nofun, nofun⟩
    have committer : q = p := after.ops.alone p q running (by
      rw [there]
      exact nofun)
    subst committer
    refine (copies outside (copy.copies outside q stage k here)).advance
      (by rw [sameOp]; exact here) ?_ after ?_ there
    · rw [sameLog]
      exact inv.ops.stage q stage k here
    · rw [sameLog]
      exact finished outside

/-- `memmove` copies what the last `brelse` of its source left. -/
theorem CopyInv.memmove (asked : s.instr p = some (.memmove dst src))
    (found : s.cached src = some j) (after : CacheInv ((s.store p i (s.data j)).advance p)) :
    CopyInv ((s.store p i (s.data j)).advance p) := by
  obtain ⟨stage, k, here, atInstr, follows⟩ := inv.at_instr asked
  have source : s.data j = s.last src := by
    rw [inv.clean_fresh (follows.holds found (held_at atInstr).2), (cached_some found).2]
  refine copy.committer inv here rfl rfl after ?_ fun _ => not_brelse atInstr nofun
  intro _ copies
  refine copies.store fun tail place => ?_
  rw [source]
  obtain ⟨-, ⟨tail', rfl, rfl⟩ | ⟨tail', rfl, rfl⟩⟩ := body_memmove atInstr
  · rcases place with same | same
    · rw [Stage.writeLog.inj same]
    · cases same
  · rcases place with same | same
    · cases same
    · rw [← Stage.install.inj same]
      exact copies.saved tail' (inv.ops.stage p _ _ here).1

theorem CopyInv.putHead (asked : s.instr p = some (.putHead b))
    (after : CacheInv ((s.store p i contents).advance p)) :
    CopyInv ((s.store p i contents).advance p) := by
  obtain ⟨stage, k, here, atInstr, -⟩ := inv.at_instr asked
  refine copy.committer inv here rfl rfl after ?_ fun _ => not_brelse atInstr nofun
  refine fun _ copies => copies.store fun tail place => ?_
  rcases place with rfl | rfl <;> rcases k with _ | _ | _ | _ | _ | _ | _ | k <;>
    simp [Stage.body] at atInstr

theorem CopyInv.bwrite {disk : Disk} (asked : s.instr p = some (.bwrite b))
    (found : s.cached b = some i) :
    let t := ({ s with disk := disk }.setHold p i (.held .written)).advance p
    CacheInv t → CopyInv t := by
  intro t after
  obtain ⟨stage, k, here, atInstr, follows⟩ := inv.at_instr asked
  have holds := follows.holds found (held_at atInstr)
  refine copy.committer inv here rfl rfl after ?_ fun _ => not_brelse atInstr nofun
  refine fun _ copies => ⟨copies.saved, fun j tail place modified => copies.moving j tail place ?_⟩
  rw [hold_setHold] at modified
  split_ifs at modified with same
  · rw [same.2, holds]
    rfl
  · exact modified

theorem CopyInv.bunpin {refcnt : Fin NBUF → Nat} {pinned : List Nat}
    (asked : s.instr p = some (.bunpin b)) :
    let t := { s with refcnt := refcnt, pinned := pinned }.advance p
    CacheInv t → CopyInv t := by
  intro t after
  obtain ⟨stage, k, here, atInstr, -⟩ := inv.at_instr asked
  exact copy.committer inv here rfl rfl after (fun _ copies => ⟨copies.saved, copies.moving⟩)
    fun _ => not_brelse atInstr nofun

theorem CopyInv.fill {valid : Fin NBUF → Bool} (locked : s.hold p i = .locked) :
    let t := ({ s with data := update s.data i contents, valid := valid }.setHold p i
      (.held .clean)).advance p
    CacheInv t → CopyInv t := by
  intro t after
  have mine : (s.hold p i).locks = true := by rw [locked]; rfl
  have kept : ∀ q j, ((s.setHold p i (.held .clean)).hold q j).modified = true →
      (s.hold q j).modified = true ∧ update s.data i contents j = s.data j := by
    intro q j modified
    obtain ⟨other, before⟩ := inv.kept_other mine (h := .held .clean) rfl modified
    exact ⟨before, update_of_ne other _ _⟩
  by_cases committer : s.Commits p
  · obtain ⟨stage, k, here⟩ := committer
    have root : s.dev i = ROOTDEV := inv.refs.root p i (by simp [locked])
    have atInstr := ((inv.commit p stage k here).at_bread root (.inr locked)).1
    refine copy.committer inv here rfl rfl after ?_ fun _ => not_brelse atInstr nofun
    refine fun _ copies => ⟨copies.saved, fun j tail place modified => ?_⟩
    obtain ⟨before, same⟩ := kept p j modified
    exact same.trans (copies.moving j tail place before)
  · refine copy.frame rfl ?_ rfl fun q j _ modified => kept q j modified
    show update s.op p ((s.op p).advance s.log) = s.op
    rw [advance_of_not_commits committer, update_eq_self]

theorem CopyInv.release (held : s.hold p i = .held m)
    (asked : s.Commits p → s.instr p = some (.brelse (s.blockno i))) :
    let t := ({ s with
      lock := update s.lock i none
      last := update s.last (s.blockno i) (s.data i) }.setHold p i .releasing).advance p
    CacheInv t → CopyInv t := by
  intro t after
  have kept : ∀ q j, ((s.setHold p i .releasing).hold q j).modified = true →
      (s.hold q j).modified = true := by
    intro q j modified
    exact (inv.kept_other (locks_of_held held) (h := .releasing) rfl modified).2
  by_cases committer : s.Commits p
  · obtain ⟨stage, k, here, atInstr, -⟩ := inv.at_instr (asked committer)
    have ok := inv.ops.stage p stage k here
    have sameBlock : Outside s.log → ∀ {n}, n < s.log.lh.length →
        update s.last (s.blockno i) (s.data i) (s.log.block n) = s.last (s.log.block n) :=
      fun outside n below =>
        copy.home_kept inv outside here held atInstr (outside _ (block_mem below))
    refine copy.committer inv here rfl rfl after (fun outside copies => ⟨?_, ?_⟩) ?_
    · intro n below
      show update s.last _ _ (s.log.slot n) = update s.last _ _ (s.log.block n)
      rw [copy.slot_kept inv outside here held atInstr below,
        sameBlock outside (below.trans_le (copied_le ok))]
      exact copies.saved n below
    · intro j tail place modified
      show s.data j = update s.last _ _ (s.log.block tail)
      rw [sameBlock outside (by rcases place with rfl | rfl <;> exact ok.1)]
      exact copies.moving j tail place (kept p j modified)
    · intro outside tail place last
      subst place last
      have atSlot : s.blockno i = s.log.slot tail :=
        (Instr.brelse.inj (Option.some.inj atInstr)).symm
      show update s.last _ _ (s.log.slot tail) = update s.last _ _ (s.log.block tail)
      rw [sameBlock outside ok.1, atSlot, update_self]
      exact copy.slot_moved inv outside here (by simp [held]) atSlot
  · -- a process outside `commit()` cannot have changed a buffer while another commits
    have sameOp : update s.op p ((s.op p).advance s.log) = s.op := by
      rw [advance_of_not_commits committer, update_eq_self]
    by_cases running : ∃ q, s.Commits q
    · obtain ⟨q, commits⟩ := running
      have notIn : s.op p ≠ .inOp := fun inside => inv.ops.not_commits_of_inOp inside q commits
      have clean : m = .clean := by
        cases m with
        | clean => rfl
        | dirty => rcases inv.data.dirty p i held with inside | commits
                   · exact absurd inside notIn
                   · exact absurd commits committer
        | logged => exact absurd (inv.data.logged p i held).2 notIn
        | written => exact absurd (inv.data.written p i held).2 committer
      rw [clean] at held
      refine copy.frame rfl sameOp ?_ fun r j _ modified => ⟨kept r j modified, rfl⟩
      show update s.last (s.blockno i) (s.data i) = s.last
      rw [inv.clean_fresh held, update_eq_self]
    · refine copyInv_of_quiet copy.fits fun q commits => running ⟨q, ?_⟩
      obtain ⟨stage, k, there⟩ := commits
      exact ⟨stage, k, (congrFun sameOp q).symm.trans there⟩

theorem CopyInv.step (step : Step s e t) : CopyInv t := by
  have after := inv.step step
  cases step.does with
  | hit p b i asked found unused | miss p b i asked absent free | acquire p i waits free
  | decref p i leaves =>
    exact copy.frame rfl rfl rfl fun q j _ modified => ⟨modified_of_setHold rfl modified, rfl⟩
  | fill p i locked => exact copy.fill inv locked after
  | modify p i data m held inside =>
    exact copyInv_of_quiet copy.fits fun q => inv.ops.not_commits_of_inOp inside q
  | logNew p i log m held inside writes =>
    exact copyInv_of_quiet (logWrite_fits writes) fun q => inv.ops.not_commits_of_inOp inside q
  | logAgain p i log m held inside writes =>
    obtain ⟨-, rfl⟩ := LogState.logWrite_again writes
    exact copyInv_of_quiet copy.fits fun q => inv.ops.not_commits_of_inOp inside q
  | release p i m held asked logged => exact copy.release inv held asked after
  | beginOp p log idle admitted =>
    obtain ⟨-, -, rfl⟩ := LogState.beginOp_some admitted
    exact copyInv_of_quiet copy.fits fun q =>
      after.ops.not_commits_of_inOp (p := p) (update_self _ _ _) q
  | startCommit p log inside settled last =>
    obtain ⟨-, -, rfl⟩ := LogState.endOp_last last
    refine ⟨copy.fits, fun _ q stage k here => ?_⟩
    have committer : q = p := after.ops.alone p q ⟨_, 0, update_self _ _ _⟩ (by
      rw [here]
      exact nofun)
    subst committer
    have start : update s.op q _ q = .commit stage k := here
    rw [update_self] at start
    cases start
    refine ⟨?_, ?_⟩
    · intro j below
      exfalso
      revert below
      unfold Stage.start
      split_ifs <;> exact Nat.not_lt_zero j
    · intro i tail _ modified
      rw [show _ = s.hold q i from rfl, unmodified_of_settled (settled i)] at modified
      cases modified
  | leave p log inside settled others =>
    obtain ⟨free, -, rfl⟩ := LogState.endOp_others others
    exact copyInv_of_quiet copy.fits (after.ops.none_commits free)
  | memmove p dst src i j asked foundDst foundSrc => exact copy.memmove inv asked foundSrc after
  | putHead p b i asked found => exact copy.putHead inv asked after
  | bwrite p b i asked found => exact copy.bwrite inv asked found after
  | bunpin p b i asked found => exact copy.bunpin inv asked after
  | clear p asked =>
    obtain ⟨stage, k, here, atInstr⟩ := instr_eq_some asked
    obtain ⟨rfl, rfl⟩ := body_clear atInstr
    refine ⟨Nat.lt_of_le_of_lt (Nat.zero_le _) copy.fits, fun _ q stage k => ?_⟩
    show update s.op p ((s.op p).advance _) q = .commit stage k → _
    rw [here]
    refine update_ind (fun there => ?_) fun other also => ?_
    · cases there
      exact ⟨fun j below => absurd below (Nat.not_lt_zero j),
        fun i tail place => by rcases place with absurd | absurd <;> cases absurd⟩
    · exact absurd (inv.ops.alone p q ⟨_, _, here⟩ (by
        rw [also]
        exact nofun)) other
  | commitDone p finished =>
    exact copyInv_of_quiet (Nat.lt_of_le_of_lt (Nat.zero_le _) copy.fits)
      (after.ops.none_commits rfl)

end

/-! ### Runs -/

/-- **A cache that nobody uses**, as `binit` leaves it, or as `initlog` leaves it after it has read
the log: no references, no operation, an empty header, and buffers that agree with the disk. -/
structure Unused (s : Cache P) : Prop where
  listed : ∀ i, i ∈ s.lru
  unique : ∀ i j b, s.Carries i b → s.Carries j b → i = j
  refcnt : ∀ i, s.refcnt i = 0
  lock : ∀ i, s.lock i = none
  hold : ∀ p i, s.hold p i = .none
  idle : ∀ p, s.op p = .idle
  outstanding : s.log.outstanding = 0
  committing : s.log.committing = false
  empty : s.log.lh = []
  unpinned : s.pinned = []
  data : ∀ i, s.dev i = ROOTDEV → s.valid i = true → s.data i = s.disk (s.blockno i)
  last : s.last = s.disk
  /-- the log area has a header block -/
  area : 0 < s.log.size

theorem Unused.not_commits (unused : Unused s) (p : P) : ¬ s.Commits p := by
  rintro ⟨stage, k, here⟩
  rw [unused.idle p] at here
  cases here

theorem Unused.cacheInv (unused : Unused s) : CacheInv s where
  ops := by
    have idle : s.roles = fun _ => .idle := funext fun p => congrArg Op.role (unused.idle p)
    have control : Control ∅ s.log s.roles := by
      rw [idle]
      exact (Control.initial s.log.toLog).congr unused.outstanding unused.committing
    refine opInv_of_quiet control unused.committing ?_ ?_
    · rw [unused.empty]
      exact List.nodup_nil
    · rw [unused.empty, unused.unpinned]
  refs := by
    refine ⟨unused.listed, unused.unique, ?_, ?_, ?_, ?_, ?_⟩
    · intro p i used
      exact absurd (unused.hold p i) used
    · intro p i
      rw [unused.lock i, unused.hold p i]
      exact ⟨nofun, nofun⟩
    · intro i
      simp [unused.refcnt i, handles, pins, unused.hold, unused.unpinned]
    · intro b member
      rw [unused.unpinned] at member
      cases member
    · intro p i m held
      rw [unused.hold p i] at held
      cases held
  commit := commitInv_of_quiet unused.not_commits
  data := by
    refine ⟨?_, ?_, ?_, ?_, ?_, ?_⟩
    · intro i root valid _
      rw [unused.last]
      exact unused.data i root valid
    · intro i root valid _ _
      exact unused.data i root valid
    · intro b _
      rw [unused.last]
    all_goals
      intro p i held
      rw [unused.hold p i] at held
      cases held

theorem Unused.copyInv (unused : Unused s) : CopyInv s := by
  refine copyInv_of_quiet ?_ unused.not_commits
  rw [unused.empty]
  exact unused.area

theorem inv_of_run {first : Cache P} (unused : Unused first) {trace : List (CacheEvent P)}
    (run : Run Step first trace s) : CacheInv s ∧ CopyInv s :=
  run.inv (P := fun s => CacheInv s ∧ CopyInv s) ⟨unused.cacheInv, unused.copyInv⟩
    fun both step => ⟨both.1.step step, both.2.step both.1 step⟩

/-- **One array of blocks**: what holds of every state of the cache, and of every step from it.
The contents of the array are `last`. -/
structure BlockArray (s : Cache P) : Prop where
  /-- one buffer for a block -/
  unique : ∀ i j b, s.Carries i b → s.Carries j b → i = j
  /-- the header has no block twice -/
  distinct : s.log.lh.Nodup
  /-- a block of the header is pinned until `install_trans` has unpinned it -/
  pinned : ∀ b ∈ s.log.lh, b ∈ s.pinned ∨ ∃ p stage k, s.op p = .commit stage k ∧
    b ∈ s.log.lh.take (unpinned s.log k stage)
  /-- a pinned block has a valid buffer, with a reference -/
  cached : ∀ b ∈ s.pinned, ∃ i, s.Carries i b ∧ s.valid i = true ∧ 1 ≤ s.refcnt i
  /-- no step gives the buffer of a pinned block to another block -/
  kept : ∀ e t, Step s e t → ∀ b ∈ s.pinned, ∀ i, s.Carries i b → t.Carries i b
  /-- an unlocked valid buffer that is not in the header agrees with the disk -/
  synced : ∀ i, s.dev i = ROOTDEV → s.valid i = true → s.lock i = none → s.blockno i ∉ s.log.lh →
    s.data i = s.disk (s.blockno i)
  /-- `bread` returns the contents of the array -/
  reads : ∀ p i t, Step s (.fill p i) t → t.data i = s.last (s.blockno i)
  /-- `brelse` stores into the array, and nothing else does -/
  stores : ∀ p i t, Step s (.releasesleep p i) t →
    t.last = update s.last (s.blockno i) (s.data i)
  silent : ∀ e t, Step s e t → (∀ p i, e ≠ .releasesleep p i) → t.last = s.last
  /-- the `brelse`s of `commit()` leave every block outside the log area as it was -/
  transparent : Outside s.log → ∀ p i t, s.Commits p → Step s (.releasesleep p i) t →
    ∀ b, ¬ s.log.InArea b → t.last b = s.last b
  /-- `write_log` writes the contents of the array to the log -/
  copies : Outside s.log → ∀ p tail t, s.op p = .commit (.writeLog tail) 3 →
    Step s (.commit p) t → t.disk (s.log.slot tail) = s.last (s.log.block tail)

theorem CacheInv.pinned_or_unpinned (inv : CacheInv s) (member : b ∈ s.log.lh) :
    b ∈ s.pinned ∨ ∃ p stage k, s.op p = .commit stage k ∧
      b ∈ s.log.lh.take (unpinned s.log k stage) := by
  by_cases running : ∃ p, s.Commits p
  · obtain ⟨p, stage, k, here⟩ := running
    rw [← List.take_append_drop (unpinned s.log k stage) s.log.lh, List.mem_append] at member
    rcases member with done | waits
    · exact .inr ⟨p, stage, k, here, done⟩
    · left
      rw [inv.ops.pins p stage k here]
      exact waits
  · left
    rw [inv.ops.quiet fun p commits => running ⟨p, commits⟩]
    exact member

theorem CacheInv.pinned_cached (inv : CacheInv s) (member : b ∈ s.pinned) :
    ∃ i, s.Carries i b ∧ s.valid i = true ∧ 1 ≤ s.refcnt i := by
  obtain ⟨i, carries, valid⟩ := inv.refs.pinnedValid b member
  refine ⟨i, carries, valid, ?_⟩
  have pin : s.pins i = 1 := if_pos ⟨carries.1, by rw [carries.2]; exact member⟩
  rw [inv.refs.counted i, pin]
  omega

/-- Only the second loop of `bget` gives a buffer to another block, and it takes one with no
reference. -/
theorem CacheInv.carries_kept (inv : CacheInv s) (step : Step s e t) (member : b ∈ s.pinned)
    (carries : s.Carries i b) : t.Carries i b := by
  cases step.does with
  | miss p c j asked absent free =>
    have other : i ≠ j := by
      rintro rfl
      refine (inv.refs.idle_of_refcnt (victim_some free)).2 ⟨carries.1, ?_⟩
      rw [carries.2]
      exact member
    simpa [Carries, setHold, recycle, other] using carries
  | _ => exact carries

theorem CacheInv.unlocked_synced (inv : CacheInv s) (root : s.dev i = ROOTDEV)
    (valid : s.valid i = true) (unlocked : s.lock i = none) (absent : s.blockno i ∉ s.log.lh) :
    s.data i = s.disk (s.blockno i) := by
  refine inv.data.synced i root valid (fun member => absent ?_) fun p held => ?_
  · by_cases running : ∃ p, s.Commits p
    · obtain ⟨p, stage, k, here⟩ := running
      rw [inv.ops.pins p stage k here] at member
      exact List.mem_of_mem_drop member
    · rw [inv.ops.quiet fun p commits => running ⟨p, commits⟩] at member
      exact member
  · have locked := (inv.refs.lock p i).mpr (locks_of_held held)
    rw [unlocked] at locked
    cases locked

theorem fill_reads (inv : CacheInv s) (step : Step s (.fill p i) t) :
    t.data i = s.last (s.blockno i) := by
  cases step.does with
  | fill _ _ locked =>
    show update s.data i _ i = _
    rw [update_self]
    exact inv.data.bread_returns inv.refs locked

theorem releasesleep_stores (step : Step s (.releasesleep p i) t) :
    t.last = update s.last (s.blockno i) (s.data i) := by
  cases step.does with
  | release => rfl

theorem last_kept (step : Step s e t) (other : ∀ p i, e ≠ .releasesleep p i) : t.last = s.last := by
  cases step.does with
  | release p i => exact absurd rfl (other p i)
  | _ => rfl

theorem CopyInv.transparent (copy : CopyInv s) (inv : CacheInv s) (outside : Outside s.log)
    (commits : s.Commits p) (step : Step s (.releasesleep p i) t) (home : ¬ s.log.InArea b) :
    t.last b = s.last b := by
  cases step.does with
  | release _ _ m held asked logged =>
    obtain ⟨stage, k, here, atInstr, -⟩ := inv.at_instr (asked commits)
    exact copy.home_kept inv outside here held atInstr home

theorem CopyInv.writes_log (copy : CopyInv s) (inv : CacheInv s) (outside : Outside s.log)
    (here : s.op p = .commit (.writeLog tail) 3) (step : Step s (.commit p) t) :
    t.disk (s.log.slot tail) = s.last (s.log.block tail) := by
  have atInstr : s.instr p = some (.bwrite (s.log.slot tail)) := by
    rw [instr, here]
    rfl
  cases step.does with
  | bwrite _ b i asked found =>
    obtain rfl : s.log.slot tail = b := by
      rw [atInstr] at asked
      exact Instr.bwrite.inj (Option.some.inj asked)
    have place : (Stage.body s.log (.writeLog tail))[3]? = some (.bwrite (s.log.slot tail)) := rfl
    have holds := (inv.commit p _ _ here).holds found (held_at place)
    show update s.disk (s.blockno i) (s.data i) (s.log.slot tail) = _
    rw [(cached_some found).2, update_self]
    refine (copy.copies outside p _ _ here).moving i tail (.inl rfl) ?_
    rw [holds]
    rfl
  | memmove _ _ _ _ _ asked | putHead _ _ _ asked | bunpin _ _ _ asked | clear _ asked =>
    rw [atInstr] at asked
    cases asked

/-- **The buffer cache and the log behave as one array of blocks**, whatever any number of processes
do: in every state of every run, and at every step from it. -/
theorem cache_is_block_array {first : Cache P} (unused : Unused first) {trace : List (CacheEvent P)}
    (run : Run Step first trace s) : BlockArray s := by
  obtain ⟨inv, copy⟩ := inv_of_run unused run
  exact
    { unique := inv.refs.unique
      distinct := inv.ops.nodup
      pinned := fun b => inv.pinned_or_unpinned
      cached := fun b => inv.pinned_cached
      kept := fun e t step b member i => inv.carries_kept step member
      synced := fun i root valid => inv.unlocked_synced root valid
      reads := fun p i t => fill_reads inv
      stores := fun p i t => releasesleep_stores
      silent := fun e t => last_kept
      transparent := fun outside p i t commits step b => copy.transparent inv outside commits step
      copies := fun outside p tail t => copy.writes_log inv outside }

/-- The cache after `binit`, with `log` set up over an empty header. -/
def binit (P : Type) (disk : Disk) (log : Log) : Cache P where
  disk := disk
  dev := fun _ => 0
  blockno := fun _ => 0
  valid := fun _ => false
  refcnt := fun _ => 0
  data := fun _ => Bytes.zero
  lru := (List.finRange NBUF).reverse
  lock := fun _ => none
  log := ⟨log, 0, false, []⟩
  hold := fun _ _ => .none
  op := fun _ => .idle
  pinned := []
  last := disk

theorem binit_unused (disk : Disk) {log : Log} (area : 0 < log.size) :
    Unused (binit P disk log) where
  listed := fun i => List.mem_reverse.mpr (List.mem_finRange i)
  unique := fun i j b carries => absurd carries.1 (show (0 : Nat) ≠ ROOTDEV by decide)
  refcnt := fun _ => rfl
  lock := fun _ => rfl
  hold := fun _ _ => rfl
  idle := fun _ => rfl
  outstanding := rfl
  committing := rfl
  empty := rfl
  unpinned := rfl
  data := fun i root => absurd root (show (0 : Nat) ≠ ROOTDEV by decide)
  last := rfl
  area := area

/-! ### A run with a commit and an eviction -/

def nthBuf (i : Nat) : Fin NBUF := ⟨i % NBUF, Nat.mod_lt i nbuf_pos⟩

/-- `bread` of a block, in buffer `i`. -/
def breadSteps (b i : Nat) : List (CacheEvent Unit) :=
  [.bget () b, .acquire () (nthBuf i), .fill () (nthBuf i)]

def brelseSteps (i : Nat) : List (CacheEvent Unit) :=
  [.releasesleep () (nthBuf i), .decref () (nthBuf i)]

def changeSteps (b i : Nat) (v : Byte) : List (CacheEvent Unit) :=
  breadSteps b i ++ [.modify () (nthBuf i) (Bytes.zero.setByte 0 v), .logWrite () (nthBuf i)] ++
    brelseSteps i

/-- `write_head`, in buffer 4. -/
def headSteps : List (CacheEvent Unit) :=
  breadSteps 2 4 ++ [.commit (), .commit ()] ++ brelseSteps 4

/-- An iteration of `write_log` for block `b` in buffer `i`, with log block `slot` in buffer `j`. -/
def writeLogSteps (b i slot j : Nat) : List (CacheEvent Unit) :=
  breadSteps slot j ++ breadSteps b i ++ [.commit (), .commit ()] ++ brelseSteps i ++ brelseSteps j

/-- The same iteration of `install_trans`. -/
def installSteps (b i slot j : Nat) : List (CacheEvent Unit) :=
  breadSteps slot j ++ breadSteps b i ++ [.commit (), .commit (), .commit ()] ++ brelseSteps j ++
    brelseSteps i

/-- An operation changes blocks 45 and 46 and commits. -/
def commitTwoBlocks : List (CacheEvent Unit) :=
  [.beginOp ()] ++ changeSteps 45 0 7 ++ changeSteps 46 1 9 ++ [.endOp ()] ++
    writeLogSteps 45 0 3 2 ++ writeLogSteps 46 1 4 3 ++ headSteps ++
    installSteps 45 0 3 2 ++ installSteps 46 1 4 3 ++ [.commit ()] ++ headSteps ++ [.commitDone ()]

/-- Reads of other blocks take every buffer but two; then block 45 is looked up again. -/
def evictAndReread : List (CacheEvent Unit) :=
  ((List.range 25).flatMap fun n => breadSteps (100 + n) (n + 5) ++ brelseSteps (n + 5)) ++
    breadSteps 125 2 ++ brelseSteps 2 ++ breadSteps 126 0 ++ brelseSteps 0 ++
    [.bget () 45, .acquire () (nthBuf 3)]

/-- The buffer of block 45 was given to another block, and the next read returns what the operation
wrote. -/
theorem cache_is_block_array_twoBlocks : ∃ s t,
    Run Step (binit Unit (fun _ => Bytes.zero) ⟨2, LOGSIZE⟩)
      (commitTwoBlocks ++ evictAndReread) s ∧
    s.pinned = [] ∧ s.valid (nthBuf 3) = false ∧ Step s (.fill () (nthBuf 3)) t ∧
    (t.data (nthBuf 3)).byte 0 = 7 ∧ BlockArray s := by
  obtain ⟨s, run, seen⟩ := @run_of_observed _ _ _ exec
    (fun s : Cache Unit => (s.pinned, s.valid (nthBuf 3), s.hold () (nthBuf 3),
      (s.last (s.blockno (nthBuf 3))).byte 0)) (commitTwoBlocks ++ evictAndReread)
    (binit Unit (fun _ => Bytes.zero) ⟨2, LOGSIZE⟩) ([], false, .locked, 7) (by decide +kernel)
  simp only [Prod.mk.injEq] at seen
  obtain ⟨pinned, invalid, locked, stored⟩ := seen
  have array := cache_is_block_array (binit_unused _ (by decide)) run
  have fills : Step s (.fill () (nthBuf 3)) _ := if_pos locked
  refine ⟨s, _, run, pinned, invalid, fills, ?_, array⟩
  rw [array.reads _ _ _ fills]
  exact stored

end Cache

end Xv6
