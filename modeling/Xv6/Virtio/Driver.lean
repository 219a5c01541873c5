/-
**The disk driver and its device** (`kernel/virtio_disk.c`).

Any number of processes are inside `virtio_disk_rw`, `virtio_disk_intr` runs at any time, and the
device takes the published chains and completes them in any order. A step is one stretch of a call
that nothing can interrupt: the driver's stretches lie between two points at which `vdisk_lock` is
taken or given up, cut once more at the store that publishes a request, because the device does not
take the lock; the device's steps are taking a head from the avail ring, completing it (the status
byte and the used slot), and publishing the completion.

The driver's callers hold the sleep lock of their buffer, so that no two calls are about the same
buffer at one time; `owner` records who holds it.

The state also records the history: the head and the buffer of every request published, what the
device took and reported, as pairs of the request's number and its head, and the buffers whose flag
`virtio_disk_intr` cleared.
-/

import Xv6.Params
import Xv6.Lib.Ring
import Xv6.Lib.Run

namespace Xv6

open Lib Function

/-- `NUM`: how many descriptors there are (`kernel/virtio.h`). -/
def NUM : Nat := 8

instance : NeZero NUM := ⟨by decide⟩

def VRING_DESC_F_NEXT : BitVec 16 := 1

/-- `VRING_DESC_F_WRITE`: the device writes (vs read). -/
def VRING_DESC_F_WRITE : BitVec 16 := 2

def VIRTIO_BLK_T_IN : Nat := 0

def VIRTIO_BLK_T_OUT : Nat := 1

/-- What the address in a descriptor points to. -/
inductive DmaAddr (B : Type)
  | null
  /-- `&disk.ops[i]` -/
  | op (i : Nat)
  /-- `b->data` -/
  | data (b : B)
  /-- `&disk.info[i].status` -/
  | status (i : Nat)
  deriving DecidableEq

/-- `struct virtq_desc` -/
structure VirtqDesc (B : Type) where
  addr : DmaAddr B
  len : Nat
  flags : BitVec 16
  next : Nat
  deriving DecidableEq

def VirtqDesc.zero {B : Type} : VirtqDesc B := ⟨.null, 0, 0, 0⟩

/-- `struct virtio_blk_req` -/
structure VirtioBlkReq where
  type : Nat
  reserved : Nat
  sector : Nat
  deriving DecidableEq

/-- An element of `disk.info`. -/
structure OpInfo (B : Type) where
  b : Option B
  status : BitVec 8

/-- The three descriptors of a request, `idx[0]` to `idx[2]`. -/
structure Chain where
  head : Nat
  data : Nat
  status : Nat
  deriving DecidableEq

def Chain.descs (c : Chain) : List Nat := [c.head, c.data, c.status]

/-- Where a process is in `virtio_disk_rw`. -/
inductive RwPc (B : Type)
  /-- not in the call -/
  | idle
  /-- at the top of the allocating loop -/
  | alloc (b : B) (write : Bool) (blockno : Nat)
  /-- `SLEEPING` on `&disk.free[0]` -/
  | allocSleep (b : B) (write : Bool) (blockno : Nat)
  /-- `RUNNABLE`, about to take `vdisk_lock` again -/
  | allocWoken (b : B) (write : Bool) (blockno : Nat)
  /-- the avail slot is written, the avail index not yet -/
  | publish (b : B) (c : Chain)
  /-- at the test of `b->disk`; `r` is the number of the request -/
  | test (b : B) (c : Chain) (r : Nat)
  /-- `SLEEPING` on `b` -/
  | wait (b : B) (c : Chain) (r : Nat)
  /-- `RUNNABLE`, about to take `vdisk_lock` again -/
  | woken (b : B) (c : Chain) (r : Nat)
  deriving DecidableEq

def RwPc.HoldsLock {B : Type} : RwPc B → Prop
  | .alloc _ _ _ | .publish _ _ | .test _ _ _ => True
  | _ => False

/-- Who holds `vdisk_lock`. -/
inductive LockHolder (P : Type)
  | rw (p : P)
  | intr
  deriving DecidableEq

/-- The ways to stop: the panics of the source, a null pointer, and a loop that does not end. -/
inductive VirtioPanic
  | freeDesc1
  | freeDesc2
  | intrStatus
  | nullBuf
  | endless
  deriving DecidableEq

/-- One step of a process, the interrupt handler or the device. -/
inductive VirtioEvent (P B : Type)
  /-- `virtio_disk_rw` takes the lock -/
  | start (p : P) (b : B) (write : Bool) (blockno : Nat)
  /-- one pass of the allocating loop, up to the store into the avail ring -/
  | tryAlloc (p : P)
  /-- `disk.avail->idx += 1` -/
  | publish (p : P)
  /-- the test of `b->disk`, and the end of the call when it is clear -/
  | test (p : P)
  /-- `sleep` takes the lock again -/
  | relock (p : P)
  /-- `virtio_disk_intr` takes the lock -/
  | intrStart
  /-- the test of its loop, with the body or the end of the handler -/
  | intrLoop
  /-- the device takes the next head from the avail ring -/
  | devTake
  /-- the device completes a request: its status byte and the used slot -/
  | devWrite (k h : Nat)
  /-- the device moves the used index -/
  | devPublish
  /-- `kill` makes a sleeping process runnable -/
  | kill (p : P)

/-- The driver, its callers and the device. -/
structure VirtioSys (P B : Type) where
  /-- `disk.desc` -/
  desc : Nat → VirtqDesc B
  /-- `disk.avail->ring` -/
  availRing : Fin NUM → Nat
  /-- `disk.avail->idx` -/
  availIdx : BitVec 16
  /-- the `id`s of `disk.used->ring` -/
  usedRing : Fin NUM → Nat
  /-- `disk.used->idx` -/
  usedIdx : BitVec 16
  /-- `disk.free` -/
  free : Nat → Bool
  /-- `disk.used_idx`: we've looked this far in the used ring -/
  seenIdx : BitVec 16
  /-- `disk.info` -/
  info : Nat → OpInfo B
  /-- `disk.ops` -/
  ops : Nat → VirtioBlkReq
  /-- `disk.vdisk_lock` -/
  lock : Option (LockHolder P)
  /-- `b->disk` -/
  disk : B → Bool
  /-- the process that holds the sleep lock of a buffer for the driver -/
  owner : B → Option P
  pc : P → RwPc B
  /-- how far the device has read the avail ring -/
  devIdx : BitVec 16
  /-- the requests the device has taken and not completed -/
  taken : List (Nat × Nat)
  /-- the request in the used slot that is not published yet -/
  reporting : Option (Nat × Nat)
  /-- the requests published so far: head and buffer -/
  issued : List (Nat × B)
  /-- how many requests the device has taken -/
  took : Nat
  /-- the completions published so far -/
  reported : List (Nat × Nat)
  /-- the buffers whose flag the handler has cleared -/
  cleared : List B

namespace VirtioSys

variable {P B : Type} [DecidableEq P] [DecidableEq B]

def goto (s : VirtioSys P B) (p : P) (pc : RwPc B) : VirtioSys P B :=
  { s with pc := update s.pc p pc }

/-- `acquire(&disk.vdisk_lock)` by `p`, which then goes on at `pc`. -/
def acquire (s : VirtioSys P B) (p : P) (pc : RwPc B) : VirtioSys P B :=
  { s.goto p pc with lock := some (.rw p) }

/-- `release(&disk.vdisk_lock)` by `p`, which then goes on at `pc`. -/
def release (s : VirtioSys P B) (p : P) (pc : RwPc B) : VirtioSys P B :=
  { s.goto p pc with lock := none }

def wokenAlloc : RwPc B → RwPc B
  | .allocSleep b write blockno => .allocWoken b write blockno
  | pc => pc

/-- What `wakeup(b)` does to one process. -/
def wokenOn (b : B) : RwPc B → RwPc B
  | .wait b' c r => if b' = b then .woken b' c r else .wait b' c r
  | pc => pc

/-- What `kill` does to a sleeping process. -/
def wokenKilled : RwPc B → RwPc B
  | .allocSleep b write blockno => .allocWoken b write blockno
  | .wait b c r => .woken b c r
  | pc => pc

/-! ### Descriptors -/

def allocDesc (s : VirtioSys P B) : Option (VirtioSys P B × Nat) :=
  match (List.range NUM).find? fun i => s.free i with
  | some i => some ({ s with free := update s.free i false }, i)
  | none => none

def freeDesc (s : VirtioSys P B) (i : Nat) : Except VirtioPanic (VirtioSys P B) :=
  if NUM ≤ i then .error .freeDesc1
  else if s.free i = true then .error .freeDesc2
  else .ok { s with
    desc := update s.desc i .zero
    free := update s.free i true
    pc := fun p => wokenAlloc (s.pc p) }

/-- `free_chain`: free a chain of descriptors, with a bound on the passes of its loop. -/
def freeChain : Nat → VirtioSys P B → Nat → Except VirtioPanic (VirtioSys P B)
  | 0, _, _ => .error .endless
  | fuel + 1, s, i =>
    let flag := (s.desc i).flags
    let nxt := (s.desc i).next
    match s.freeDesc i with
    | .error e => .error e
    | .ok t => if flag &&& VRING_DESC_F_NEXT ≠ 0 then freeChain fuel t nxt else .ok t

/-- The inner loop of `alloc3_desc`: free what was allocated so far. -/
def freeDescs : List Nat → VirtioSys P B → Except VirtioPanic (VirtioSys P B)
  | [], s => .ok s
  | i :: rest, s =>
    match s.freeDesc i with
    | .error e => .error e
    | .ok t => freeDescs rest t

def alloc3Desc (s : VirtioSys P B) : Except VirtioPanic (VirtioSys P B × Option Chain) :=
  match s.allocDesc with
  | none => .ok (s, none)
  | some (s₁, head) =>
    match s₁.allocDesc with
    | none => (freeDescs [head] s₁).map (·, none)
    | some (s₂, data) =>
      match s₂.allocDesc with
      | none => (freeDescs [head, data] s₂).map (·, none)
      | some (s₃, status) => .ok (s₃, some ⟨head, data, status⟩)

/-- The three descriptors as `virtio_disk_rw` fills them in. -/
def formatted (c : Chain) (b : B) (write : Bool) : Nat → VirtqDesc B → VirtqDesc B := fun i old =>
  if i = c.status then ⟨.status c.head, 1, VRING_DESC_F_WRITE, 0⟩
  else if i = c.data then
    ⟨.data b, BSIZE, (if write then 0 else VRING_DESC_F_WRITE) ||| VRING_DESC_F_NEXT, c.status⟩
  else if i = c.head then ⟨.op c.head, 16, VRING_DESC_F_NEXT, c.data⟩
  else old

/-- `virtio_disk_rw` from the allocation to the store into the avail ring. -/
def format (s : VirtioSys P B) (c : Chain) (b : B) (write : Bool) (blockno : Nat) : VirtioSys P B :=
  { s with
    ops := update s.ops c.head
      ⟨if write then VIRTIO_BLK_T_OUT else VIRTIO_BLK_T_IN, 0, blockno * (BSIZE / 512)⟩
    desc := fun i => formatted c b write i (s.desc i)
    info := update s.info c.head ⟨some b, 0xff⟩
    disk := update s.disk b true
    availRing := update s.availRing (Ring.slot NUM s.availIdx) c.head }

def clearInfo (s : VirtioSys P B) (i : Nat) : VirtioSys P B :=
  { s with info := update s.info i { s.info i with b := none } }

/-- The device's store of the status byte at the end of the chain with head `h`. -/
def writeStatus (s : VirtioSys P B) (h : Nat) : VirtioSys P B :=
  match (s.desc (s.desc (s.desc h).next).next).addr with
  | .status i => { s with info := update s.info i { s.info i with status := 0 } }
  | _ => s

/-! ### Steps -/

/-- One step, or the panic it ends in. `none` is a step that cannot be taken. -/
def exec (s : VirtioSys P B) : VirtioEvent P B → Option (Except VirtioPanic (VirtioSys P B))
  | .start p b write blockno =>
    if s.pc p = .idle ∧ s.lock = none ∧ s.owner b = none then
      some (.ok { s.acquire p (.alloc b write blockno) with owner := update s.owner b (some p) })
    else none
  | .tryAlloc p =>
    match s.pc p with
    | .alloc b write blockno =>
      match s.alloc3Desc with
      | .error e => some (.error e)
      | .ok (t, none) => some (.ok (t.release p (.allocSleep b write blockno)))
      | .ok (t, some c) => some (.ok ((t.format c b write blockno).goto p (.publish b c)))
    | _ => none
  | .publish p =>
    match s.pc p with
    | .publish b c =>
      some (.ok { s.goto p (.test b c s.issued.length) with
        availIdx := s.availIdx + 1, issued := s.issued ++ [(c.head, b)] })
    | _ => none
  | .test p =>
    match s.pc p with
    | .test b c r =>
      if s.disk b = true then some (.ok (s.release p (.wait b c r)))
      else match freeChain NUM (s.clearInfo c.head) c.head with
        | .error e => some (.error e)
        | .ok t => some (.ok { t.release p .idle with owner := update t.owner b none })
    | _ => none
  | .relock p =>
    match s.pc p with
    | .allocWoken b write blockno =>
      if s.lock = none then some (.ok (s.acquire p (.alloc b write blockno))) else none
    | .woken b c r => if s.lock = none then some (.ok (s.acquire p (.test b c r))) else none
    | _ => none
  | .intrStart => if s.lock = none then some (.ok { s with lock := some .intr }) else none
  | .intrLoop =>
    if s.lock = some .intr then
      if s.seenIdx ≠ s.usedIdx then
        let id := s.usedRing (Ring.slot NUM s.seenIdx)
        if (s.info id).status ≠ 0 then some (.error .intrStatus)
        else match (s.info id).b with
          | none => some (.error .nullBuf)
          | some b => some (.ok { s with
              disk := update s.disk b false
              pc := fun p => wokenOn b (s.pc p)
              seenIdx := s.seenIdx + 1
              cleared := s.cleared ++ [b] })
      else some (.ok { s with lock := none })
    else none
  | .devTake =>
    if s.devIdx ≠ s.availIdx then
      some (.ok { s with
        devIdx := s.devIdx + 1
        taken := s.taken ++ [(s.took, s.availRing (Ring.slot NUM s.devIdx))]
        took := s.took + 1 })
    else none
  | .devWrite k h =>
    if (k, h) ∈ s.taken ∧ s.reporting = none then
      some (.ok { s.writeStatus h with
        taken := s.taken.erase (k, h)
        reporting := some (k, h)
        usedRing := update s.usedRing (Ring.slot NUM s.usedIdx) h })
    else none
  | .devPublish =>
    match s.reporting with
    | some entry => some (.ok { s with
        usedIdx := s.usedIdx + 1, reporting := none, reported := s.reported ++ [entry] })
    | none => none
  | .kill p => some (.ok (s.goto p (wokenKilled (s.pc p))))

def Step (s : VirtioSys P B) (e : VirtioEvent P B) (t : VirtioSys P B) : Prop :=
  s.exec e = some (.ok t)

def complete (s : VirtioSys P B) (e : VirtioEvent P B) : Option (VirtioSys P B) :=
  match s.exec e with
  | some (.ok t) => some t
  | _ => none

theorem Step.of_complete {s t : VirtioSys P B} {e : VirtioEvent P B}
    (done : s.complete e = some t) : Step s e t := by
  unfold complete at done
  split at done
  · rename_i executed
    cases done
    exact executed
  · cases done

/-- The driver as `virtio_disk_init` leaves it, before any call; its buffers hold anything. -/
def initial (disk : B → Bool) : VirtioSys P B where
  desc := fun _ => .zero
  availRing := fun _ => 0
  availIdx := 0
  usedRing := fun _ => 0
  usedIdx := 0
  free := fun i => i < NUM
  seenIdx := 0
  info := fun _ => ⟨none, 0⟩
  ops := fun _ => ⟨0, 0, 0⟩
  lock := none
  disk := disk
  owner := fun _ => none
  pc := fun _ => .idle
  devIdx := 0
  taken := []
  reporting := none
  issued := []
  took := 0
  reported := []
  cleared := []

/-! ### What one step does -/

/-- **The steps of the system**, with everything they test and change. -/
inductive Does (s : VirtioSys P B) : VirtioEvent P B → VirtioSys P B → Prop
  | start (p : P) (b : B) (write : Bool) (blockno : Nat) (idle : s.pc p = .idle)
      (free : s.lock = none) (unowned : s.owner b = none) :
      Does s (.start p b write blockno)
        { s.acquire p (.alloc b write blockno) with owner := update s.owner b (some p) }
  | allocFails (p : P) (b : B) (write : Bool) (blockno : Nat) (t : VirtioSys P B)
      (here : s.pc p = .alloc b write blockno) (failed : s.alloc3Desc = .ok (t, none)) :
      Does s (.tryAlloc p) (t.release p (.allocSleep b write blockno))
  | allocates (p : P) (b : B) (write : Bool) (blockno : Nat) (t : VirtioSys P B) (c : Chain)
      (here : s.pc p = .alloc b write blockno) (got : s.alloc3Desc = .ok (t, some c)) :
      Does s (.tryAlloc p) ((t.format c b write blockno).goto p (.publish b c))
  | publish (p : P) (b : B) (c : Chain) (here : s.pc p = .publish b c) :
      Does s (.publish p) { s.goto p (.test b c s.issued.length) with
        availIdx := s.availIdx + 1, issued := s.issued ++ [(c.head, b)] }
  | waits (p : P) (b : B) (c : Chain) (r : Nat) (here : s.pc p = .test b c r)
      (busy : s.disk b = true) : Does s (.test p) (s.release p (.wait b c r))
  | returns (p : P) (b : B) (c : Chain) (r : Nat) (t : VirtioSys P B) (here : s.pc p = .test b c r)
      (done : s.disk b = false) (freed : freeChain NUM (s.clearInfo c.head) c.head = .ok t) :
      Does s (.test p) { t.release p .idle with owner := update t.owner b none }
  | relockAlloc (p : P) (b : B) (write : Bool) (blockno : Nat)
      (here : s.pc p = .allocWoken b write blockno) (free : s.lock = none) :
      Does s (.relock p) (s.acquire p (.alloc b write blockno))
  | relockTest (p : P) (b : B) (c : Chain) (r : Nat) (here : s.pc p = .woken b c r)
      (free : s.lock = none) : Does s (.relock p) (s.acquire p (.test b c r))
  | intrStart (free : s.lock = none) : Does s .intrStart { s with lock := some .intr }
  | intrClears (b : B) (held : s.lock = some .intr) (more : s.seenIdx ≠ s.usedIdx)
      (ok : (s.info (s.usedRing (Ring.slot NUM s.seenIdx))).status = 0)
      (buf : (s.info (s.usedRing (Ring.slot NUM s.seenIdx))).b = some b) :
      Does s .intrLoop { s with
        disk := update s.disk b false
        pc := fun p => wokenOn b (s.pc p)
        seenIdx := s.seenIdx + 1
        cleared := s.cleared ++ [b] }
  | intrEnds (held : s.lock = some .intr) (seen : s.seenIdx = s.usedIdx) :
    Does s .intrLoop { s with lock := none }
  | devTake (more : s.devIdx ≠ s.availIdx) :
      Does s .devTake { s with
        devIdx := s.devIdx + 1
        taken := s.taken ++ [(s.took, s.availRing (Ring.slot NUM s.devIdx))]
        took := s.took + 1 }
  | devWrite (k h : Nat) (mine : (k, h) ∈ s.taken) (silent : s.reporting = none) :
      Does s (.devWrite k h) { s.writeStatus h with
        taken := s.taken.erase (k, h)
        reporting := some (k, h)
        usedRing := update s.usedRing (Ring.slot NUM s.usedIdx) h }
  | devPublish (entry : Nat × Nat) (pending : s.reporting = some entry) :
      Does s .devPublish { s with
        usedIdx := s.usedIdx + 1, reporting := none, reported := s.reported ++ [entry] }
  | kill (p : P) : Does s (.kill p) (s.goto p (wokenKilled (s.pc p)))

theorem Step.does {s t : VirtioSys P B} {e : VirtioEvent P B} (step : Step s e t) : Does s e t := by
  unfold Step exec at step
  cases e with
  | start p b write blockno =>
    obtain ⟨enabled, rfl⟩ := of_guard_ok step
    exact .start p b write blockno enabled.1 enabled.2.1 enabled.2.2
  | tryAlloc p =>
    simp only at step
    split at step
    case h_2 => cases step
    rename_i b write blockno here
    split at step
    · cases step
    · rename_i u failed
      cases step
      exact .allocFails p b write blockno u here failed
    · rename_i u c got
      cases step
      exact .allocates p b write blockno u c here got
  | publish p =>
    simp only at step
    split at step
    case h_2 => cases step
    rename_i b c here
    cases step
    exact .publish p b c here
  | test p =>
    simp only at step
    split at step
    case h_2 => cases step
    rename_i b c r here
    split_ifs at step with busy
    · cases step
      exact .waits p b c r here busy
    · split at step
      · cases step
      · rename_i u freed
        cases step
        exact .returns p b c r u here (by simpa using busy) freed
  | relock p =>
    simp only at step
    split at step
    · rename_i b write blockno here
      obtain ⟨free, rfl⟩ := of_guard_ok step
      exact .relockAlloc p b write blockno here free
    · rename_i b c r here
      obtain ⟨free, rfl⟩ := of_guard_ok step
      exact .relockTest p b c r here free
    · cases step
  | intrStart =>
    obtain ⟨free, rfl⟩ := of_guard_ok step
    exact .intrStart free
  | intrLoop =>
    simp only at step
    split_ifs at step with held more failed
    · cases step
    · split at step
      · cases step
      · rename_i b buf
        cases step
        exact .intrClears b held more (not_not.mp failed) buf
    · cases step
      exact .intrEnds held (not_not.mp more)
  | devTake =>
    obtain ⟨more, rfl⟩ := of_guard_ok step
    exact .devTake more
  | devWrite k h =>
    obtain ⟨enabled, rfl⟩ := of_guard_ok step
    exact .devWrite k h enabled.1 enabled.2
  | devPublish =>
    simp only at step
    split at step
    · rename_i entry pending
      cases step
      exact .devPublish entry pending
    · cases step
  | kill p =>
    cases step
    exact .kill p

end VirtioSys

end Xv6
