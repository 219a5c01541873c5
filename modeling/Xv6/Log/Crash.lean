/-
**Crash atomicity of the redo log** (`kernel/log.c`, `commit` and `recover_from_log`).

A commit is cut off after any number of its `bwrite`s; then any number of boots run
`recover_from_log` and are cut off in turn; then one boot completes. The disk passes through three
kinds of states, whatever the cuts:

* `Uncommitted`: the header is empty and no home block has changed;
* `Committed`: the header names the transaction, the log holds its new contents, and every home
  block is old or new;
* `Installed`: the header is empty again and every home block is new.

The first `write_head` is the only write that leaves `Uncommitted`. From `Committed` on, commit and
recovery make the same writes (`installClear`), each of which stays in `Committed` except the last.
-/

import Xv6.Log.Disk

namespace Xv6

open Lib Function

/-- A transaction that `log_write` can have recorded in `log.lh`: distinct blocks outside the log
area, within the capacity of the log and of the header. -/
structure Txn (log : Log) where
  /-- `log.lh.block[0..n)` -/
  blocks : List Nat
  distinct : blocks.Nodup
  /-- `log.lh.n <= log.size - 1` -/
  room : blocks.length + 1 ≤ log.size
  /-- `log.lh.block` has `LOGSIZE` entries -/
  fits : blocks.length ≤ LOGSIZE
  /-- block numbers are unsigned ints -/
  narrow : ∀ b ∈ blocks, b < 2 ^ 32
  outside : ∀ b ∈ blocks, ¬ log.InArea b

/-- The disk that a function leaves when it is cut off after `k` of its writes. -/
def crashAfter (k : Nat) (before after : Io) : Disk :=
  applyWrites ((after.writes.drop before.writes.length).take k) before.disk

/-- Any number of boots whose `recover_from_log` is cut off, then one that completes. -/
inductive Reboots (log : Log) : Disk → Disk → Prop
  | complete (d : Disk) : Reboots log d (recoverFromLog log (Io.boot d)).disk
  | interrupted (d : Disk) (k : Nat) {d' : Disk} :
      Reboots log (crashAfter k (Io.boot d) (recoverFromLog log (Io.boot d))) d' → Reboots log d d'

theorem crashAfter_of_performs {ws : List (Nat × Block)} {io io' : Io} (run : io.Performs ws io')
    (k : Nat) : crashAfter k io io' = applyWrites (ws.take k) io.disk := by
  rw [crashAfter, run.writes, List.drop_left]

section Transaction

variable {log : Log} (txn : Txn log) (pre new : Disk)

/-- Nothing of the transaction is visible: an empty header, unchanged home blocks. -/
structure Uncommitted (log : Log) (pre d : Disk) : Prop where
  head : headN (d log.start) = 0
  home : ∀ b, ¬ log.InArea b → d b = pre b

/-- The transaction is in the log and may be partly installed. -/
structure Committed (d : Disk) : Prop where
  head : getHead (d log.start) = txn.blocks
  copies : ∀ (i : Nat) (inside : i < txn.blocks.length),
    d (log.start + i + 1) = new txn.blocks[i]
  home : ∀ b ∈ txn.blocks, d b = pre b ∨ d b = new b
  others : ∀ b, b ∉ txn.blocks → ¬ log.InArea b → d b = pre b

/-- The transaction is at its home blocks and the log is empty. -/
structure Installed (d : Disk) : Prop where
  head : headN (d log.start) = 0
  home : ∀ b ∈ txn.blocks, d b = new b
  others : ∀ b, b ∉ txn.blocks → ¬ log.InArea b → d b = pre b

/-! ### Home blocks and log blocks are apart -/

namespace Txn

include txn in
theorem start_inArea : log.InArea log.start := ⟨le_rfl, by have := txn.room; omega⟩

variable {i b : Nat}

theorem slot_inArea (inside : i < txn.blocks.length) : log.InArea (log.start + i + 1) :=
  ⟨by omega, by have := txn.room; omega⟩

theorem ne_start (member : b ∈ txn.blocks) : b ≠ log.start := by
  rintro rfl
  exact txn.outside _ member txn.start_inArea

theorem ne_slot (member : b ∈ txn.blocks) (inside : i < txn.blocks.length) :
    b ≠ log.start + i + 1 := by
  rintro rfl
  exact txn.outside _ member (txn.slot_inArea inside)

end Txn

/-! ### The writes of `write_log` -/

variable {data : Nat → Block} {lh : List Nat} {w : Nat × Block} {d : Disk}

theorem mem_logWrites : w ∈ logWrites log data 0 lh ↔
    ∃ (i : Nat) (inside : i < lh.length), (log.start + i + 1, data lh[i]) = w := by
  rw [logWrites_eq, List.mem_mapIdx]
  simp only [Nat.zero_add]

theorem logWrites_distinct : ∀ tail, ((logWrites log data tail lh).map Prod.fst).Nodup := by
  induction lh with
  | nil => exact fun _ => List.nodup_nil
  | cons b rest ih =>
    intro tail
    rw [logWrites, List.map_cons, List.nodup_cons]
    refine ⟨fun member => ?_, ih _⟩
    obtain ⟨w, inside, same⟩ := List.mem_map.mp member
    rw [logWrites_eq] at inside
    obtain ⟨i, _, rfl⟩ := List.mem_mapIdx.mp inside
    simp only at same
    omega

/-! ### Until the header is written -/

theorem Uncommitted.logWrite (state : Uncommitted log pre d) {i : Nat}
    (inside : i < txn.blocks.length) (v : Block) :
    Uncommitted log pre (update d (log.start + i + 1) v) := by
  refine ⟨?_, fun b out => ?_⟩
  · rw [update_of_ne (by omega)]
    exact state.head
  · rw [update_of_ne, state.home b out]
    rintro rfl
    exact out (txn.slot_inArea inside)

theorem uncommitted_cut (state : Uncommitted log pre d) (k : Nat) :
    Uncommitted log pre (applyWrites ((logWrites log new 0 txn.blocks).take k) d) := by
  refine applyWrites_cut (fun w member e here => ?_) k state
  obtain ⟨i, inside, rfl⟩ := mem_logWrites.mp member
  exact here.logWrite txn pre inside _

/-- **The commit point.** Writing the header after all of `write_log` commits the transaction. -/
theorem committed_of_header (state : Uncommitted log pre d) (head : Block) :
    Committed txn pre new (update (applyWrites (logWrites log new 0 txn.blocks) d)
      log.start (putHead txn.blocks head)) := by
  have logged : Uncommitted log pre (applyWrites (logWrites log new 0 txn.blocks) d) := by
    refine applyWrites_inv (fun w member e here => ?_) state
    obtain ⟨i, inside, rfl⟩ := mem_logWrites.mp member
    exact here.logWrite txn pre inside _
  refine ⟨?_, fun i inside => ?_, fun b member => Or.inl ?_, fun b _ out => ?_⟩
  · rw [update_self]
    exact getHead_putHead txn.fits txn.narrow
  · rw [update_of_ne (by omega)]
    exact applyWrites_of_mem (logWrites_distinct 0) (mem_logWrites.mpr ⟨i, inside, rfl⟩) d
  · rw [update_of_ne (txn.ne_start member)]
    exact logged.home b (txn.outside b member)
  · rw [update_of_ne, logged.home b out]
    rintro rfl
    exact out txn.start_inArea

/-! ### From the header on -/

theorem Committed.homeWrite (state : Committed txn pre new d) {b : Nat} (member : b ∈ txn.blocks) :
    Committed txn pre new (update d b (new b)) := by
  refine ⟨?_, fun i inside => ?_, fun x here => ?_, fun x absent out => ?_⟩
  · rw [update_of_ne (txn.ne_start member).symm]
    exact state.head
  · rw [update_of_ne (txn.ne_slot member inside).symm]
    exact state.copies i inside
  · exact update_ind (Or.inr rfl) fun _ => state.home x here
  · rw [update_of_ne, state.others x absent out]
    rintro rfl
    exact absent member

/-- The writes that install a committed transaction and clear the header. Commit and recovery both
end with them. -/
def installClear (head : Block) : List (Nat × Block) :=
  txn.blocks.map (fun b => (b, new b)) ++ [(log.start, putHead [] head)]

theorem homeWrites_eq_installs {data : Nat → Block}
    (copies : ∀ (i : Nat) (inside : i < txn.blocks.length),
      data (log.start + i + 1) = new txn.blocks[i]) :
    homeWrites log data 0 txn.blocks = txn.blocks.map fun b => (b, new b) := by
  rw [homeWrites_eq]
  refine List.ext_getElem (by simp) fun i inside _ => ?_
  rw [List.length_mapIdx] at inside
  simp [copies i inside]

variable {d : Disk}

theorem installed_of_clear (state : Committed txn pre new d) (head : Block) :
    Installed txn pre new (applyWrites (installClear txn new head) d) := by
  have home : Committed txn pre new (applyWrites (txn.blocks.map fun b => (b, new b)) d) := by
    refine applyWrites_inv (fun w member e here => ?_) state
    obtain ⟨b, inside, rfl⟩ := List.mem_map.mp member
    exact here.homeWrite txn pre new inside
  rw [installClear, applyWrites_append, applyWrites_cons, applyWrites_nil]
  refine ⟨?_, fun b member => ?_, fun b absent out => ?_⟩
  · rw [update_self]
    exact headN_putHead (Nat.zero_le _)
  · rw [update_of_ne (txn.ne_start member)]
    have distinct : ((txn.blocks.map fun b => (b, new b)).map Prod.fst).Nodup := by
      rw [List.map_map]
      exact (List.map_id _).symm ▸ txn.distinct
    exact applyWrites_of_mem distinct (List.mem_map_of_mem (f := fun b => (b, new b)) member) d
  · rw [update_of_ne, home.others b absent out]
    rintro rfl
    exact out txn.start_inArea

theorem installClear_cut (state : Committed txn pre new d) (head : Block) (k : Nat) :
    Committed txn pre new (applyWrites ((installClear txn new head).take k) d) ∨
      Installed txn pre new (applyWrites ((installClear txn new head).take k) d) := by
  by_cases short : k ≤ txn.blocks.length
  · left
    rw [installClear, List.take_append_of_le_length (by rwa [List.length_map])]
    refine applyWrites_cut (fun w member e here => ?_) k state
    obtain ⟨b, inside, rfl⟩ := List.mem_map.mp member
    exact here.homeWrite txn pre new inside
  · right
    rw [List.take_of_length_le]
    · exact installed_of_clear txn pre new state head
    · rw [installClear, List.length_append, List.length_map, List.length_singleton]
      omega

end Transaction

/-! ### Recovery -/

section Recovery

variable {log : Log} {txn : Txn log} {pre new : Disk} {d d' : Disk}

theorem performs_recover (lh : List Nat)
    (outside : ∀ b ∈ lh, ∀ i < lh.length, b ≠ log.start + i + 1)
    (head : getHead (d log.start) = lh) :
    ∃ headBlock, (Io.boot d).Performs
      (homeWrites log d 0 lh ++ [(log.start, putHead [] headBlock)])
      (recoverFromLog log (Io.boot d)) := by
  have apart : ∀ b ∈ lh, ∀ i < 0 + lh.length, b ≠ log.start + i + 1 := by rwa [Nat.zero_add]
  have install : ((Io.boot d).bread log.start).Performs (homeWrites log d 0 lh)
    (installFrom log 0 lh _) :=
    performs_installFrom (fun i _ => by rw [Io.buf_bread, Io.buf_boot]) apart
  have clear := performs_writeHead log [] (installFrom log 0 lh ((Io.boot d).bread log.start))
  refine ⟨(installFrom log 0 lh ((Io.boot d).bread log.start)).buf log.start, ?_⟩
  rw [recoverFromLog, Io.buf_bread, Io.buf_boot, head]
  exact (install.trans clear).bread

theorem Committed.performs_recover (state : Committed txn pre new d) :
    ∃ headBlock,
      (Io.boot d).Performs (installClear txn new headBlock) (recoverFromLog log (Io.boot d)) := by
  obtain ⟨headBlock, run⟩ := Xv6.performs_recover txn.blocks
    (fun _ member _ inside => txn.ne_slot member inside) state.head
  refine ⟨headBlock, ?_⟩
  rwa [homeWrites_eq_installs txn new state.copies] at run

theorem performs_recover_empty (empty : headN (d log.start) = 0) :
    ∃ headBlock,
      (Io.boot d).Performs [(log.start, putHead [] headBlock)]
      (recoverFromLog log (Io.boot d)) := by
  obtain ⟨headBlock, run⟩ := Xv6.performs_recover []
    (fun _ member => absurd member List.not_mem_nil) (getHead_of_headN_zero empty)
  exact ⟨headBlock, run⟩

/-- A property of disks that rewriting the header with `n = 0` keeps. -/
def KeptByClear (log : Log) (P : Disk → Prop) : Prop :=
  ∀ (d : Disk) (head : Block), P d → P (update d log.start (putHead [] head))

/-- With an empty header, every property that clearing keeps survives any sequence of boots. -/
theorem reboots_of_empty {P : Disk → Prop} (empty : ∀ d, P d → headN (d log.start) = 0)
    (kept : KeptByClear log P) (run : Reboots log d d') : P d → P d' := by
  induction run with
  | complete d =>
    intro state
    obtain ⟨head, writes⟩ := performs_recover_empty (empty d state)
    rw [writes.disk]
    exact kept d head state
  | interrupted d k _ ih =>
    intro state
    obtain ⟨head, writes⟩ := performs_recover_empty (empty d state)
    rw [crashAfter_of_performs writes] at ih
    refine ih ?_
    cases k with
    | zero => exact state
    | succ k =>
      rw [List.take_succ_cons, List.take_nil]
      exact kept d head state

theorem Uncommitted.kept (txn : Txn log) : KeptByClear log (Uncommitted log pre) := by
  intro d head state
  refine ⟨?_, fun b out => ?_⟩
  · rw [update_self]
    exact headN_putHead (Nat.zero_le _)
  · rw [update_of_ne, state.home b out]
    rintro rfl
    exact out txn.start_inArea

theorem Installed.kept : KeptByClear log (Installed txn pre new) := by
  intro d head state
  refine ⟨?_, fun b member => ?_, fun b absent out => ?_⟩
  · rw [update_self]
    exact headN_putHead (Nat.zero_le _)
  · rw [update_of_ne (txn.ne_start member)]
    exact state.home b member
  · rw [update_of_ne, state.others b absent out]
    rintro rfl
    exact out txn.start_inArea

/-- **Recovery of a committed transaction installs it**, however often it is interrupted. -/
theorem installed_of_reboots (run : Reboots log d d') :
    Committed txn pre new d ∨ Installed txn pre new d → Installed txn pre new d' := by
  induction run with
  | complete d =>
    rintro (state | state)
    · obtain ⟨head, writes⟩ := state.performs_recover
      rw [writes.disk]
      exact installed_of_clear txn pre new state head
    · exact reboots_of_empty (fun _ s => s.head) Installed.kept (.complete d) state
  | interrupted d k rest ih =>
    rintro (state | state)
    · obtain ⟨head, writes⟩ := state.performs_recover
      refine ih ?_
      rw [crashAfter_of_performs writes]
      exact installClear_cut txn pre new state head k
    · exact reboots_of_empty (fun _ s => s.head) Installed.kept (.interrupted d k rest) state

end Recovery

/-! ### Commit -/

section Commit

variable {log : Log} (txn : Txn log)

theorem performs_commit (io : Io) (some : 0 < txn.blocks.length) :
    ∃ head clearHead, io.Performs
      (logWrites log io.buf 0 txn.blocks ++
        (log.start, putHead txn.blocks head) :: installClear txn io.buf clearHead)
      (commit log txn.blocks io) := by
  have apart : ∀ b ∈ txn.blocks, ∀ i < 0 + txn.blocks.length, b ≠ log.start + i + 1 :=
    fun _ member i inside => txn.ne_slot member (by rwa [Nat.zero_add] at inside)
  have logged : io.Performs (logWrites log io.buf 0 txn.blocks) _ :=
    performs_writeLogFrom (fun _ _ => rfl) apart
  have header := performs_writeHead log txn.blocks (writeLogFrom log 0 txn.blocks io)
  have both := logged.trans header
  have install : (writeHead log txn.blocks (writeLogFrom log 0 txn.blocks io)).Performs
    (homeWrites log _ 0 txn.blocks) _ := performs_installFrom (fun _ _ => rfl) apart
  rw [homeWrites_eq_installs txn io.buf] at install
  · have clear := performs_writeHead log []
      (installFrom log 0 txn.blocks (writeHead log txn.blocks (writeLogFrom log 0 txn.blocks io)))
    have whole := both.trans (install.trans clear)
    rw [List.append_assoc] at whole
    rw [commit, if_pos some]
    exact ⟨_, _, whole⟩
  · intro i inside
    rw [both.buf, applyWrites_append, applyWrites_cons, applyWrites_nil,
      update_of_ne (by omega)]
    exact applyWrites_of_mem (logWrites_distinct 0) (mem_logWrites.mpr ⟨i, inside, rfl⟩) _

theorem commit_cut (io : Io) (empty : headN (io.disk log.start) = 0) (k : Nat) :
    (k ≤ txn.blocks.length ∧
      Uncommitted log io.disk (crashAfter k io (commit log txn.blocks io))) ∨
    (txn.blocks.length < k ∧
      (Committed txn io.disk io.buf (crashAfter k io (commit log txn.blocks io)) ∨
        Installed txn io.disk io.buf (crashAfter k io (commit log txn.blocks io)))) := by
  have initial : Uncommitted log io.disk io.disk := ⟨empty, fun _ _ => rfl⟩
  rcases Nat.eq_zero_or_pos txn.blocks.length with none | some
  · -- an empty transaction writes nothing
    have quiet : crashAfter k io (commit log txn.blocks io) = io.disk := by
      have same : commit log txn.blocks io = io := if_neg (by omega)
      rw [crashAfter, same, List.drop_length, List.take_nil, applyWrites_nil]
    have noBlock : ∀ b, b ∉ txn.blocks := by
      rw [List.length_eq_zero_iff.mp none]
      exact fun _ => List.not_mem_nil
    rw [quiet]
    rcases Nat.eq_zero_or_pos k with zero | pos
    · exact .inl ⟨by omega, initial⟩
    · exact .inr ⟨by omega, .inr ⟨empty, fun b member => absurd member (noBlock b),
        fun _ _ _ => rfl⟩⟩
  · obtain ⟨head, clearHead, run⟩ := performs_commit txn io some
    rw [crashAfter_of_performs run]
    have length : (logWrites log io.buf 0 txn.blocks).length = txn.blocks.length := by
      rw [logWrites_eq, List.length_mapIdx]
    rcases Nat.lt_or_ge txn.blocks.length k with long | short
    · refine .inr ⟨long, ?_⟩
      obtain ⟨m, rfl⟩ : ∃ m, k = (logWrites log io.buf 0 txn.blocks).length + (m + 1) :=
        ⟨k - txn.blocks.length - 1, by omega⟩
      rw [List.take_length_add_append, List.take_succ_cons, applyWrites_append, applyWrites_cons]
      exact installClear_cut txn io.disk io.buf
        (committed_of_header txn io.disk io.buf initial head) clearHead m
    · refine .inl ⟨short, ?_⟩
      rw [List.take_append_of_le_length (by omega)]
      exact uncommitted_cut txn io.disk io.buf initial k

/-- **Crash atomicity.** `io.disk` is the disk before the commit and `io.buf` the data of the
buffers. Cut the commit after any number `k` of its writes, let any number of boots be cut off
during recovery, and let one complete: the blocks of the transaction are all old or all new, they
are all new if the first `write_head` was made (`k` exceeds the number of logged blocks), no block
outside the transaction and the log differs, and the header is empty. -/
theorem commit_crash_atomic (io : Io) (empty : headN (io.disk log.start) = 0) (k : Nat)
    (d : Disk) (reboots : Reboots log (crashAfter k io (commit log txn.blocks io)) d) :
    ((∀ b ∈ txn.blocks, d b = io.disk b) ∨ (∀ b ∈ txn.blocks, d b = io.buf b)) ∧
    (∀ b, b ∉ txn.blocks → ¬ log.InArea b → d b = io.disk b) ∧
    headN (d log.start) = 0 ∧
    (txn.blocks.length < k → ∀ b ∈ txn.blocks, d b = io.buf b) := by
  rcases commit_cut txn io empty k with ⟨short, state⟩ | ⟨_, state⟩
  · have final := reboots_of_empty (fun _ s => s.head) (Uncommitted.kept txn) reboots state
    exact ⟨.inl fun b member => final.home b (txn.outside b member),
      fun b _ out => final.home b out, final.head, fun long => absurd long (by omega)⟩
  · have final := installed_of_reboots reboots state
    exact ⟨.inr final.home, final.others, final.head, fun _ => final.home⟩

/-- Two blocks through the log that `mkfs` lays out. -/
def twoBlockTxn : Txn ⟨2, 30⟩ where
  blocks := [45, 46]
  distinct := by decide
  room := by decide
  fits := by decide
  narrow := by decide
  outside := by
    intro b member
    rcases List.mem_pair.mp member with rfl | rfl
    · exact fun inside => absurd inside.2 (by decide)
    · exact fun inside => absurd inside.2 (by decide)

/-- A blank disk; blocks 45 and 46 have modified buffers. -/
def twoBlockIo : Io :=
  ⟨fun _ => Bytes.zero, update (update (fun _ => none) 45 (some (Bytes.zero.setByte 0 7))) 46
    (some (Bytes.zero.setByte 0 9)), []⟩

/-- A crash when the first of the blocks has been installed, and a boot that is cut off during
recovery: both blocks are new, and block 47 is as it was. -/
theorem commit_crash_atomic_twoBlocks : ∃ d,
    Reboots ⟨2, 30⟩ (crashAfter 4 twoBlockIo (commit ⟨2, 30⟩ twoBlockTxn.blocks twoBlockIo)) d ∧
      headN (d 2) = 0 ∧ d 45 = Bytes.zero.setByte 0 7 ∧ d 46 = Bytes.zero.setByte 0 9 ∧
      d 47 = Bytes.zero := by
  refine ⟨_, .interrupted _ 1 (.complete _), ?_⟩
  obtain ⟨_, others, head, new⟩ :=
    commit_crash_atomic twoBlockTxn twoBlockIo (Bytes.le32_zero 0) 4 _
    (.interrupted _ 1 (.complete _))
  refine ⟨head, new (by decide) 45 (by decide), new (by decide) 46 (by decide), ?_⟩
  exact others 47 (by decide) fun inside => absurd inside.2 (by decide)

end Commit

end Xv6
