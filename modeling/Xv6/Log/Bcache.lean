/-
**The buffer cache and the log, with every process that uses them** (`kernel/bio.c`,
`kernel/log.c`).

A step is one section under `bcache.lock`, under a buffer's sleep lock or under `log.lock`, or one
access to the disk. `bread` is `bget` (the reference is taken), then `acquire` (the sleep lock),
then `fill` (the disk read if `valid` is 0); `brelse` is `releasesleep`, then `decref`. Between them
any other process may run.

A process outside `commit()` may read any block, may change and log a block while it is between
`begin_op` and `end_op`, calls `log_write` on a buffer it has changed before it releases it, and
releases the buffers it has changed before it calls `end_op`. The
process that commits runs the statements of `write_log`, `write_head`, `install_trans` and
`write_head` one by one: `Stage` is the iteration it is in, `Stage.body` the statements of that
iteration in source order, and `k` the next statement.

`last b` is the contents that the most recent `brelse` of block `b` left, and `pinned` the blocks
whose pin is in force; no step reads either.
-/

import Xv6.Log.Operations
import Xv6.Lib.Run

namespace Xv6

open Function

/-- What a process has done with a buffer since its `bread` returned. -/
inductive Mod
  | clean
  /-- changed, neither logged nor written since -/
  | dirty
  /-- passed to `log_write` -/
  | logged
  /-- changed and passed to `bwrite`, in `commit()` -/
  | written
  deriving DecidableEq

/-- The stage of one process with one buffer. -/
inductive Hold
  | none
  /-- in `bget`: counted in `refcnt`, waiting for the sleep lock -/
  | waiting
  /-- in `bread`: the sleep lock is taken, `valid` not yet tested -/
  | locked
  /-- `bread` has returned -/
  | held (m : Mod)
  /-- in `brelse`: the sleep lock is released, `refcnt` not yet decremented -/
  | releasing
  deriving DecidableEq

/-- The process has changed or logged the buffer and not released it. -/
def Hold.modified : Hold → Bool
  | .held .clean => false
  | .held _ => true
  | _ => false

/-- The process has the buffer's sleep lock. -/
def Hold.locks : Hold → Bool
  | .locked | .held _ => true
  | _ => false

/-- An iteration of a loop of `commit()`, or a statement between loops. -/
inductive Stage
  | writeLog (tail : Nat)
  | writeHead
  | install (tail : Nat)
  /-- `log.lh.n = 0` -/
  | clear
  | clearHead
  | done
  deriving DecidableEq

/-- The statements of `commit()` and of the functions it calls. -/
inductive Instr
  | bread (b : Nat)
  /-- `memmove(dst->data, src->data, BSIZE)` -/
  | memmove (dst src : Nat)
  /-- fill in the header block -/
  | putHead (b : Nat)
  | bwrite (b : Nat)
  | bunpin (b : Nat)
  | brelse (b : Nat)
  /-- `log.lh.n = 0` -/
  | clear
  deriving DecidableEq

/-- `log.lh.block[tail]` -/
def LogState.block (log : LogState) (tail : Nat) : Nat := log.lh.getD tail 0

/-- The log block for index `tail`. -/
def LogState.slot (log : LogState) (tail : Nat) : Nat := log.start + tail + 1

/-- The statements of one iteration, in source order. -/
def Stage.body (log : LogState) : Stage → List Instr
  | .writeLog tail =>
    [.bread (log.slot tail), .bread (log.block tail), .memmove (log.slot tail) (log.block tail),
      .bwrite (log.slot tail), .brelse (log.block tail), .brelse (log.slot tail)]
  | .writeHead => [.bread log.start, .putHead log.start, .bwrite log.start, .brelse log.start]
  | .install tail =>
    [.bread (log.slot tail), .bread (log.block tail), .memmove (log.block tail) (log.slot tail),
      .bwrite (log.block tail), .bunpin (log.block tail), .brelse (log.slot tail),
      .brelse (log.block tail)]
  | .clear => [.clear]
  | .clearHead => [.bread log.start, .putHead log.start, .bwrite log.start, .brelse log.start]
  | .done => []

def Stage.next (log : LogState) : Stage → Stage
  | .writeLog tail => if tail + 1 < log.lh.length then .writeLog (tail + 1) else .writeHead
  | .writeHead => .install 0
  | .install tail => if tail + 1 < log.lh.length then .install (tail + 1) else .clear
  | .clear => .clearHead
  | .clearHead => .done
  | .done => .done

def Stage.start (log : LogState) : Stage := if log.lh.length > 0 then .writeLog 0 else .done

/-- What a process is doing with the log. -/
inductive Op
  | idle
  /-- between `begin_op` and `end_op` -/
  | inOp
  /-- in `commit()`, about to run statement `k` of an iteration -/
  | commit (stage : Stage) (k : Nat)
  deriving DecidableEq

/-- What a process does with the log, without where it is in `commit()`. -/
def Op.role : Op → LogRole
  | .idle => .idle
  | .inOp => .inOp
  | .commit _ _ => .commits

/-- The next statement of `commit()`; elsewhere nothing changes. -/
def Op.advance (log : LogState) : Op → Op
  | .commit stage k =>
    if k + 1 < (stage.body log).length then .commit stage (k + 1) else .commit (stage.next log) 0
  | op => op

/-- The disk, the buffer cache, the log and the processes. -/
structure Cache (P : Type) where
  disk : Disk
  dev : Fin NBUF → Nat
  blockno : Fin NBUF → Nat
  valid : Fin NBUF → Bool
  refcnt : Fin NBUF → Nat
  data : Fin NBUF → Block
  /-- the buffers from `head.next` on -/
  lru : List (Fin NBUF)
  /-- the holder of each buffer's sleep lock -/
  lock : Fin NBUF → Option P
  log : LogState
  hold : P → Fin NBUF → Hold
  op : P → Op
  /-- what `log_write` has pinned and `install_trans` has not yet unpinned -/
  pinned : List Nat
  last : Disk

inductive CacheEvent (P : Type)
  | bget (p : P) (b : Nat)
  | acquire (p : P) (i : Fin NBUF)
  | fill (p : P) (i : Fin NBUF)
  | modify (p : P) (i : Fin NBUF) (data : Block)
  | logWrite (p : P) (i : Fin NBUF)
  | releasesleep (p : P) (i : Fin NBUF)
  | decref (p : P) (i : Fin NBUF)
  | beginOp (p : P)
  | endOp (p : P)
  /-- one statement of `commit()` other than `bread` and `brelse` -/
  | commit (p : P)
  | commitDone (p : P)

namespace Cache

variable {P : Type} [DecidableEq P]

/-- The buffer carries block `b` of the root device. -/
def Carries (s : Cache P) (i : Fin NBUF) (b : Nat) : Prop := s.dev i = ROOTDEV ∧ s.blockno i = b

instance (s : Cache P) (i : Fin NBUF) (b : Nat) : Decidable (s.Carries i b) :=
  inferInstanceAs (Decidable (_ ∧ _))

/-- The first loop of `bget`: from the most recently used buffer on. -/
def cached (s : Cache P) (b : Nat) : Option (Fin NBUF) := s.lru.find? fun i => s.Carries i b

/-- The second loop of `bget`: from the least recently used buffer back. -/
def victim (s : Cache P) : Option (Fin NBUF) := s.lru.reverse.find? fun i => s.refcnt i = 0

def setHold (s : Cache P) (p : P) (i : Fin NBUF) (h : Hold) : Cache P :=
  { s with hold := fun q j => if q = p ∧ j = i then h else s.hold q j }

def incref (s : Cache P) (i : Fin NBUF) : Cache P :=
  { s with refcnt := update s.refcnt i (s.refcnt i + 1) }

def recycle (s : Cache P) (i : Fin NBUF) (b : Nat) : Cache P :=
  { s with
    dev := update s.dev i ROOTDEV
    blockno := update s.blockno i b
    valid := update s.valid i false
    refcnt := update s.refcnt i 1 }

/-- `bget`, up to `acquiresleep`. With no free buffer it panics. -/
def bget (s : Cache P) (p : P) (b : Nat) : Option (Cache P) :=
  match s.cached b with
  | some i => if s.hold p i = .none then some ((s.incref i).setHold p i .waiting) else none
  | none =>
    match s.victim with
    | some i => some ((s.recycle i b).setHold p i .waiting)
    | none => none

/-- The next statement of the committing process. -/
def instr (s : Cache P) (p : P) : Option Instr :=
  match s.op p with
  | .commit stage k => (stage.body s.log)[k]?
  | _ => none

def advance (s : Cache P) (p : P) : Cache P :=
  { s with op := update s.op p ((s.op p).advance s.log) }

def Commits (s : Cache P) (p : P) : Prop := ∃ stage k, s.op p = .commit stage k

instance (s : Cache P) (p : P) : Decidable (s.Commits p) :=
  match h : s.op p with
  | .idle => isFalse (by rintro ⟨_, _, same⟩; rw [h] at same; cases same)
  | .inOp => isFalse (by rintro ⟨_, _, same⟩; rw [h] at same; cases same)
  | .commit stage k => isTrue ⟨stage, k, h⟩

def store (s : Cache P) (p : P) (i : Fin NBUF) (data : Block) : Cache P :=
  { s with data := update s.data i data }.setHold p i (.held .dirty)

/-- A statement of `commit()` other than `bread` and `brelse`. -/
def run (s : Cache P) (p : P) : Instr → Option (Cache P)
  | .memmove dst src =>
    match s.cached dst, s.cached src with
    | some i, some j => some (s.store p i (s.data j))
    | _, _ => none
  | .putHead b =>
    match s.cached b with
    | some i => some (s.store p i (putHead s.log.lh (s.data i)))
    | none => none
  | .bwrite b =>
    match s.cached b with
    | some i =>
      some ({ s with disk := update s.disk (s.blockno i) (s.data i) }.setHold p i
        (.held .written))
    | none => none
  | .bunpin b =>
    match s.cached b with
    | some i => some { s with
        refcnt := update s.refcnt i (s.refcnt i - 1)
        pinned := s.pinned.erase b }
    | none => none
  | .clear => some { s with log := { s.log with lh := [] } }
  | .bread _ | .brelse _ => none

def exec (s : Cache P) : CacheEvent P → Option (Cache P)
  | .bget p b =>
    if s.Commits p → s.instr p = some (.bread b) then s.bget p b else none
  | .acquire p i =>
    if s.hold p i = .waiting ∧ s.lock i = none then
      some ({ s with lock := update s.lock i (some p) }.setHold p i .locked)
    else none
  | .fill p i =>
    if s.hold p i = .locked then
      some (({ s with
        data := update s.data i (if s.valid i then s.data i else s.disk (s.blockno i))
        valid := update s.valid i true }.setHold p i (.held .clean)).advance p)
    else none
  | .modify p i data =>
    match s.hold p i with
    | .held _ => if s.op p = .inOp then some (s.store p i data) else none
    | _ => none
  | .logWrite p i =>
    match s.hold p i with
    | .held _ =>
      if s.op p = .inOp then
        match s.log.logWrite (s.blockno i) with
        | .ok (log, true) =>
          some (({ s with log := log, pinned := s.pinned ++ [s.blockno i] }.incref i).setHold p i
            (.held .logged))
        | .ok (log, false) => some ({ s with log := log }.setHold p i (.held .logged))
        | .error _ => none
      else none
    | _ => none
  | .releasesleep p i =>
    match s.hold p i with
    | .held m =>
      if (s.Commits p → s.instr p = some (.brelse (s.blockno i))) ∧
          (¬ s.Commits p → m ≠ .dirty) then
        some (({ s with
          lock := update s.lock i none
          last := update s.last (s.blockno i) (s.data i) }.setHold p i
            .releasing).advance p)
      else none
    | _ => none
  | .decref p i =>
    if s.hold p i = .releasing then
      some ({ s with
        refcnt := update s.refcnt i (s.refcnt i - 1)
        lru := if s.refcnt i = 1 then i :: s.lru.erase i else s.lru }.setHold p i .none)
    else none
  | .beginOp p =>
    if s.op p = .idle then
      match s.log.beginOp with
      | some log => some { s with log := log, op := update s.op p .inOp }
      | none => none
    else none
  | .endOp p =>
    if s.op p = .inOp ∧ ∀ i, s.hold p i = .none ∨ s.hold p i = .held .clean then
      match s.log.endOp with
      | .ok (log, true) =>
        some { s with log := log, op := update s.op p (.commit (Stage.start log) 0) }
      | .ok (log, false) => some { s with log := log, op := update s.op p .idle }
      | .error _ => none
    else none
  | .commit p =>
    match s.instr p with
    | some i => (s.run p i).map fun t => t.advance p
    | none => none
  | .commitDone p =>
    if s.op p = .commit .done 0 then
      some { s with log := s.log.commitDone, op := update s.op p .idle }
    else none

def Step (s : Cache P) (e : CacheEvent P) (t : Cache P) : Prop := s.exec e = some t

end Cache

end Xv6
