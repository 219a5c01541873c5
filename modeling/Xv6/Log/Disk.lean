/-
**The redo log on disk** (`kernel/log.c`): `write_log`, `write_head`, `read_head`,
`install_trans`, `commit` and `recover_from_log`, with every `bwrite` recorded in program order.

`Io` is what these functions act on: the disk, the cached copies of blocks and the writes made so
far. A block's buffer is its cached copy if there is one, else what `bread` would load from the
disk (`Io.buf`). Reference counts and recycling of buffers are the subject of `Xv6.Log.Bcache`.

Every function here `Performs` a list of writes: it appends them to the record, and they are the
whole difference between the buffers and the disk before it and after it.
-/

import Xv6.Params
import Xv6.Lib.Writes

namespace Xv6

open Lib Function

/-- The fields of `struct log` that place the log on the disk: the header is block `start`, the
logged blocks follow it. -/
structure Log where
  /-- `log.start` -/
  start : Nat
  /-- `log.size` -/
  size : Nat

def Log.InArea (log : Log) (b : Nat) : Prop := log.start ≤ b ∧ b < log.start + log.size

/-! ### The header block -/

/-- `hb->block[i] = log.lh.block[i]`, from index `i` on. -/
def putBlocks : Nat → List Nat → Block → Block
  | _, [], b => b
  | i, x :: rest, b => putBlocks (i + 1) rest (b.setLe32 (4 + 4 * i) x)

/-- The header block with `n` and the first `n` block numbers overwritten by `lh`. -/
def putHead (lh : List Nat) (b : Block) : Block := putBlocks 0 lh (b.setLe32 0 lh.length)

def headN (b : Block) : Nat := b.le32 0

/-- The block numbers that `read_head` takes from a header block. `n` is an `int`, so a value with
the sign bit set reads no entry. -/
def getHead (b : Block) : List Nat :=
  if headN b < 2 ^ 31 then (List.range (headN b)).map fun i => b.le32 (4 + 4 * i) else []

variable {lh : List Nat} {data : Nat → Block} {b : Block}

theorem le32_putBlocks_before {off : Nat} :
    ∀ {i : Nat} {b : Block}, off + 4 ≤ 4 + 4 * i → (putBlocks i lh b).le32 off = b.le32 off := by
  induction lh with
  | nil => exact fun _ => rfl
  | cons x rest ih =>
    intro i b before
    rw [putBlocks, ih (by omega), Bytes.le32_setLe32_ne _ _ (by omega)]

theorem le32_putBlocks :
    ∀ (i : Nat) (b : Block) {j : Nat} (inside : j < lh.length), 8 + 4 * (i + j) ≤ BSIZE →
      (putBlocks i lh b).le32 (4 + 4 * (i + j)) = lh[j] % 4294967296 := by
  induction lh with
  | nil => exact fun _ _ _ inside => absurd inside (Nat.not_lt_zero _)
  | cons x rest ih =>
    intro i b j inside room
    rw [putBlocks]
    cases j with
    | zero =>
      rw [le32_putBlocks_before (by omega), Nat.add_zero, Bytes.le32_setLe32_same _ _ (by omega)]
      rfl
    | succ j =>
      have next := ih (i + 1) (b.setLe32 (4 + 4 * i) x) (Nat.lt_of_succ_lt_succ inside) (by omega)
      rw [show i + (j + 1) = i + 1 + j by omega, next]
      rfl

theorem headN_putHead (fits : lh.length ≤ LOGSIZE) : headN (putHead lh b) = lh.length := by
  have small : lh.length ≤ 30 := fits
  rw [headN, putHead, le32_putBlocks_before (by omega),
    Bytes.le32_setLe32_same _ _ (by unfold BSIZE; omega), Nat.mod_eq_of_lt (by omega)]

/-- **The header round trip**: `read_head` gets back what `write_head` wrote. -/
theorem getHead_putHead (fits : lh.length ≤ LOGSIZE) (narrow : ∀ x ∈ lh, x < 2 ^ 32) :
    getHead (putHead lh b) = lh := by
  have small : lh.length ≤ 30 := fits
  have count := headN_putHead (b := b) fits
  unfold getHead
  rw [count, if_pos (by omega)]
  apply List.ext_getElem (by simp)
  intro i _ inside
  have entry := le32_putBlocks 0 (b.setLe32 0 lh.length) inside (by unfold BSIZE; omega)
  rw [Nat.zero_add] at entry
  rw [List.getElem_map, List.getElem_range, putHead, entry, Nat.mod_eq_of_lt]
  exact narrow _ (List.getElem_mem inside)

theorem getHead_of_headN_zero (empty : headN b = 0) : getHead b = [] := by
  unfold getHead
  rw [empty]
  rfl

/-! ### Buffers and writes -/

/-- The disk, the cached blocks and the `bwrite`s made so far, oldest first. -/
structure Io where
  /-- the on-disk blocks -/
  disk : Disk
  /-- the buffers with `valid` set -/
  cache : Nat → Option Block
  /-- the record of `bwrite`s -/
  writes : List (Nat × Block)

namespace Io

/-- The data of the buffer that `bread` returns for a block. -/
def buf (io : Io) (b : Nat) : Block := (io.cache b).getD (io.disk b)

/-- `bread`: the block is cached afterwards. -/
def bread (io : Io) (b : Nat) : Io :=
  { io with cache := update io.cache b (some (io.buf b)) }

def setBuf (io : Io) (b : Nat) (data : Block) : Io :=
  { io with cache := update io.cache b (some data) }

def bwrite (io : Io) (b : Nat) : Io :=
  { io with disk := update io.disk b (io.buf b), writes := io.writes ++ [(b, io.buf b)] }

/-- A machine that has just started: nothing is cached. -/
def boot (d : Disk) : Io := ⟨d, fun _ => none, []⟩

@[simp] theorem buf_boot (d : Disk) : (boot d).buf = d := rfl

@[simp] theorem buf_bread (io : Io) (b : Nat) : (io.bread b).buf = io.buf := by
  funext x
  by_cases same : x = b <;> simp [buf, bread, same]

@[simp] theorem buf_setBuf (io : Io) (b : Nat) (data : Block) :
    (io.setBuf b data).buf = update io.buf b data := by
  funext x
  by_cases same : x = b <;> simp [buf, setBuf, same]

/-- The two effects of a function that stores into buffers and writes them out: `ws` are its
writes, and they are also what it changes in the buffers. -/
structure Performs (ws : List (Nat × Block)) (io io' : Io) : Prop where
  disk : io'.disk = applyWrites ws io.disk
  buf : io'.buf = applyWrites ws io.buf
  writes : io'.writes = io.writes ++ ws

theorem Performs.nil (io : Io) : Performs [] io io := ⟨rfl, rfl, (List.append_nil _).symm⟩

variable {ws : List (Nat × Block)}

theorem Performs.trans {vs : List (Nat × Block)} {a b c : Io} (first : Performs ws a b)
    (second : Performs vs b c) : Performs (ws ++ vs) a c := by
  refine ⟨?_, ?_, ?_⟩
  · rw [second.disk, first.disk, applyWrites_append]
  · rw [second.buf, first.buf, applyWrites_append]
  · rw [second.writes, first.writes, List.append_assoc]

theorem Performs.bread {io io' : Io} {b : Nat} (rest : Performs ws (io.bread b) io') :
    Performs ws io io' :=
  ⟨rest.disk, by rw [rest.buf, buf_bread], rest.writes⟩

theorem performs_setBuf_bwrite (io : Io) (b : Nat) (data : Block) :
    Performs [(b, data)] io ((io.setBuf b data).bwrite b) := by
  have stored : (io.setBuf b data).buf b = data := by
    rw [buf_setBuf, update_self]
  refine ⟨?_, ?_, ?_⟩
  · show update io.disk b ((io.setBuf b data).buf b) = _
    rw [stored]
    rfl
  · funext x
    show (update io.cache b (some data) x).getD
      (update io.disk b ((io.setBuf b data).buf b) x) = update io.buf b data x
    by_cases same : x = b <;> simp [buf, same]
  · show io.writes ++ [(b, (io.setBuf b data).buf b)] = _
    rw [stored]

end Io

/-! ### `log.c` -/

/-- The loop of `write_log` from `tail` on: copy modified blocks from the cache to the log. -/
def writeLogFrom (log : Log) : Nat → List Nat → Io → Io
  | _, [], io => io
  | tail, b :: rest, io =>
    let io := (io.bread (log.start + tail + 1)).bread b
    let io := io.setBuf (log.start + tail + 1) (io.buf b)
    writeLogFrom log (tail + 1) rest (io.bwrite (log.start + tail + 1))

def writeLog (log : Log) (lh : List Nat) (io : Io) : Io := writeLogFrom log 0 lh io

/-- `write_head`: the point at which the current transaction commits. -/
def writeHead (log : Log) (lh : List Nat) (io : Io) : Io :=
  let io := io.bread log.start
  let io := io.setBuf log.start (putHead lh (io.buf log.start))
  io.bwrite log.start

/-- The loop of `install_trans` from `tail` on: copy logged blocks to their home location. -/
def installFrom (log : Log) : Nat → List Nat → Io → Io
  | _, [], io => io
  | tail, b :: rest, io =>
    let io := (io.bread (log.start + tail + 1)).bread b
    let io := io.setBuf b (io.buf (log.start + tail + 1))
    installFrom log (tail + 1) rest (io.bwrite b)

def installTrans (log : Log) (lh : List Nat) (io : Io) : Io := installFrom log 0 lh io

def commit (log : Log) (lh : List Nat) (io : Io) : Io :=
  if lh.length > 0 then
    writeHead log [] (installTrans log lh (writeHead log lh (writeLog log lh io)))
  else io

/-- `recover_from_log`: `read_head`, `install_trans(1)`, then clear the header. -/
def recoverFromLog (log : Log) (io : Io) : Io :=
  let io := io.bread log.start
  writeHead log [] (installTrans log (getHead (io.buf log.start)) io)

/-! ### The writes each function makes -/

/-- The writes of `write_log`, given the data of the buffers. -/
def logWrites (log : Log) (data : Nat → Block) : Nat → List Nat → List (Nat × Block)
  | _, [] => []
  | tail, b :: rest => (log.start + tail + 1, data b) :: logWrites log data (tail + 1) rest

/-- The writes of `install_trans`, given the data of the buffers. -/
def homeWrites (log : Log) (data : Nat → Block) : Nat → List Nat → List (Nat × Block)
  | _, [] => []
  | tail, b :: rest => (b, data (log.start + tail + 1)) :: homeWrites log data (tail + 1) rest

theorem logWrites_eq (log : Log) (data : Nat → Block) (lh : List Nat) :
    ∀ tail, logWrites log data tail lh = lh.mapIdx
      fun i b => (log.start + (tail + i) + 1, data b) := by
  induction lh with
  | nil => exact fun _ => rfl
  | cons b rest ih =>
    intro tail
    rw [logWrites, ih, List.mapIdx_cons]
    simp only [Nat.add_zero, Nat.add_assoc, Nat.add_comm 1]

theorem homeWrites_eq (log : Log) (data : Nat → Block) (lh : List Nat) :
    ∀ tail, homeWrites log data tail lh = lh.mapIdx
      fun i b => (b, data (log.start + (tail + i) + 1)) := by
  induction lh with
  | nil => exact fun _ => rfl
  | cons b rest ih =>
    intro tail
    rw [homeWrites, ih, List.mapIdx_cons]
    simp only [Nat.add_zero, Nat.add_assoc, Nat.add_comm 1]

/-- `write_log` performs `logWrites` of the cached data. The home blocks lie outside the log, so no
write of the loop changes the data a later iteration copies. -/
theorem performs_writeLogFrom {log : Log} :
    ∀ {tail : Nat} {io : Io}, (∀ b ∈ lh, data b = io.buf b) →
    (∀ b ∈ lh, ∀ i < tail + lh.length, b ≠ log.start + i + 1) →
      io.Performs (logWrites log data tail lh) (writeLogFrom log tail lh io) := by
  induction lh with
  | nil => exact fun _ _ => .nil _
  | cons b rest ih =>
    intro tail io same outside
    rw [List.length_cons] at outside
    have step := (Io.performs_setBuf_bwrite
      ((io.bread (log.start + tail + 1)).bread b) (log.start + tail + 1) (io.buf b)).bread.bread
    rw [logWrites, writeLogFrom, Io.buf_bread, Io.buf_bread, same b List.mem_cons_self]
    refine step.trans (ih (fun x member => (same x (List.mem_cons_of_mem _ member)).trans ?_)
      fun x member i inside => outside x (List.mem_cons_of_mem _ member) i (by omega))
    rw [step.buf, applyWrites_cons, applyWrites_nil]
    exact (update_of_ne (outside x (List.mem_cons_of_mem _ member) tail (by omega)) _ _).symm

theorem performs_installFrom {log : Log} : ∀ {tail : Nat} {io : Io},
    (∀ i < lh.length, data (log.start + (tail + i) + 1) = io.buf (log.start + (tail + i) + 1)) →
    (∀ b ∈ lh, ∀ i < tail + lh.length, b ≠ log.start + i + 1) →
      io.Performs (homeWrites log data tail lh) (installFrom log tail lh io) := by
  induction lh with
  | nil => exact fun _ _ => .nil _
  | cons b rest ih =>
    intro tail io same outside
    rw [List.length_cons] at outside
    have step := (Io.performs_setBuf_bwrite
      ((io.bread (log.start + tail + 1)).bread b) b (io.buf (log.start + tail + 1))).bread.bread
    have here : data (log.start + tail + 1) = io.buf (log.start + tail + 1) :=
      same 0 (Nat.zero_lt_succ _)
    rw [homeWrites, installFrom, Io.buf_bread, Io.buf_bread, here]
    refine step.trans (ih (fun i inside => ?_)
      fun x member i inside => outside x (List.mem_cons_of_mem _ member) i (by omega))
    rw [show tail + 1 + i = tail + (i + 1) by omega, same (i + 1) (Nat.succ_lt_succ inside),
      step.buf, applyWrites_cons, applyWrites_nil]
    exact (update_of_ne (outside b List.mem_cons_self _ (by omega)).symm _ _).symm

theorem performs_writeHead (log : Log) (lh : List Nat) (io : Io) :
    io.Performs [(log.start, putHead lh (io.buf log.start))] (writeHead log lh io) := by
  have step :=
    (Io.performs_setBuf_bwrite (io.bread log.start) log.start (putHead lh (io.buf log.start))).bread
  rw [writeHead, Io.buf_bread]
  exact step

end Xv6
