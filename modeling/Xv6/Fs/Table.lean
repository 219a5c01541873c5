/-
**The inode table** (`kernel/fs.c`): `iget`, `idup`, `ilock`, `iunlock`, `iput` and `ialloc`, with
the updates that are made under an inode's sleep lock, interleaved by any number of processes.

A step is one critical section under `itable.lock`, or one part of a section under a sleep lock;
`iput` is cut where it gives up `itable.lock` and between the writes of the dinode, since `ialloc`
takes neither lock. The buffer of a dinode's block is locked while `ilock`, `iupdate` and `ialloc`
use it, so each of them sees and changes the dinode at once.

Who has references is part of the state (`refs`, one occurrence for each reference). A process uses
references of its own, and may hand one to another process: open files are shared. It locks an inode
it has a reference to, and while it holds the lock it keeps a reference besides one that it puts.
The dinode that a process has changed in memory it writes with `iupdate` before it goes on. `readi`
does not: it calls `bmap`, which allocates a block where `addrs` has none.
-/

import Xv6.Fs.Inode
import Xv6.Lib.Run

namespace Xv6

open Lib Function

/-- `struct dinode` -/
structure DiskInode where
  type : FType
  major : BitVec 16
  minor : BitVec 16
  nlink : BitVec 16
  size : Nat
  addrs : Fin (NDIRECT + 1) → Nat

namespace DiskInode

/-- The element of `addrs` that `bmap` looks at for block `bn`: its own, or the indirect block's. -/
def slot (bn : Nat) : Fin (NDIRECT + 1) := ⟨min bn NDIRECT, by omega⟩

/-- What `bmap` does to the dinode, with `fresh` the block that `balloc` would return. -/
def bmap (d : DiskInode) (bn fresh : Nat) : DiskInode :=
  if d.addrs (slot bn) = 0 then { d with addrs := update d.addrs (slot bn) fresh } else d

/-- `bmap` for `k` blocks from `bn` on. -/
def bmaps (d : DiskInode) (fresh : Nat → Nat) (bn : Nat) : Nat → DiskInode
  | 0 => d
  | k + 1 => ((d.bmaps fresh bn k).bmap (bn + k) (fresh (bn + k)))

def truncated (d : DiskInode) : DiskInode := { d with size := 0, addrs := fun _ => 0 }

/-- What `ialloc` writes. -/
def allocated (type : FType) : DiskInode := ⟨type, 0, 0, 0, 0, fun _ => 0⟩

/-- `writei` from `off`: `k` blocks are mapped, and the bytes up to `stop` are written. -/
def written (d : DiskInode) (fresh : Nat → Nat) (off k stop : Nat) : DiskInode :=
  let mapped := d.bmaps fresh (off / BSIZE) k
  { mapped with size := max d.size stop }

/-- **Every block below the size is mapped.** -/
def Mapped (d : DiskInode) : Prop := ∀ bn, bn * BSIZE < d.size → d.addrs (slot bn) ≠ 0

end DiskInode

instance : NeZero NINODE := ⟨by decide⟩

/-- `struct inode`; `ip` has the fields that are copies of the dinode's. -/
structure TableEntry (P : Type) where
  dev : Nat
  inum : Nat
  ref : Int
  /-- who holds the sleep lock -/
  lock : Option P
  valid : Bool
  ip : DiskInode

/-- What a process is in the middle of with an entry. -/
inductive Work
  /-- `ilock`, with the sleep lock taken -/
  | locking
  /-- between a change of the fields and `iupdate` -/
  | dirty
  /-- `iput`: about to call `itrunc` -/
  | trunc
  /-- `iput`: about to write the dinode with type 0 -/
  | clear
  /-- `iput`: about to clear `valid` and release the sleep lock -/
  | invalidate
  /-- `iput`: about to take `itable.lock` again -/
  | drop
  deriving DecidableEq

inductive TablePc
  | idle
  | at (e : Fin NINODE) (w : Work)
  /-- `ialloc`, about to call `iget` -/
  | allocated (dev inum : Nat)
  deriving DecidableEq

/-- The ways to stop: the panics, and an `acquiresleep` that sleeps with `itable.lock` held. -/
inductive TablePanic
  | igetNoInodes
  | ilock
  | ilockNoType
  | iunlock
  | sleepsLocked
  deriving DecidableEq

inductive TableEvent (P : Type)
  | iget (p : P) (dev inum : Nat)
  | idup (p : P) (e : Fin NINODE)
  /-- a reference passes from `p` to `q` -/
  | give (p q : P) (e : Fin NINODE)
  /-- `ilock` up to `acquiresleep` -/
  | ilock (p : P) (e : Fin NINODE)
  /-- the rest of `ilock` -/
  | load (p : P)
  | iunlock (p : P) (e : Fin NINODE)
  /-- new values of `major`, `minor` and `nlink` -/
  | header (p : P) (e : Fin NINODE) (major minor nlink : BitVec 16)
  /-- `writei` up to `iupdate` -/
  | write (p : P) (e : Fin NINODE) (fresh : Nat → Nat) (off k stop : Nat)
  /-- `itrunc` up to `iupdate` -/
  | trunc (p : P) (e : Fin NINODE)
  | iupdate (p : P)
  /-- `readi` of `k` blocks from `bn` on -/
  | read (p : P) (e : Fin NINODE) (fresh : Nat → Nat) (bn k : Nat)
  /-- `iput` up to the release of `itable.lock` -/
  | iput (p : P) (e : Fin NINODE)
  /-- the next part of an `iput` that frees the inode -/
  | iputStep (p : P)
  /-- `ialloc` finds the dinode free and marks it allocated -/
  | ialloc (p : P) (dev inum : Nat) (type : FType)
  /-- the `iget` at the end of `ialloc` -/
  | iallocGet (p : P)

/-- The inode table, the dinodes and the processes. -/
structure TableSys (P : Type) where
  entry : Fin NINODE → TableEntry P
  /-- the dinodes as the buffer cache has them -/
  disk : Nat → Nat → DiskInode
  pc : P → TablePc
  /-- who has the references to an entry -/
  refs : Fin NINODE → List P

namespace TableSys

variable {P : Type} [DecidableEq P]

def diskOf (s : TableSys P) (e : Fin NINODE) : DiskInode := s.disk (s.entry e).dev (s.entry e).inum

/-- `p` goes to `pc` and changes entry `e`, its references and the dinodes. -/
def act (s : TableSys P) (p : P) (pc : TablePc) (e : Fin NINODE) (x : TableEntry P) (refs : List P)
    (disk : Nat → Nat → DiskInode) : TableSys P where
  entry := update s.entry e x
  disk := disk
  pc := update s.pc p pc
  refs := update s.refs e refs

def writeDisk (s : TableSys P) (dev inum : Nat) (d : DiskInode) : Nat → Nat → DiskInode :=
  update s.disk dev (update (s.disk dev) inum d)

/-- The first entry in use for the inode. -/
def lookup (s : TableSys P) (dev inum : Nat) : Option (Fin NINODE) :=
  (List.finRange NINODE).find? fun e => 0 < (s.entry e).ref ∧ (s.entry e).dev = dev ∧
    (s.entry e).inum = inum

def empty (s : TableSys P) : Option (Fin NINODE) :=
  (List.finRange NINODE).find? fun e => (s.entry e).ref = 0

def iget (s : TableSys P) (p : P) (dev inum : Nat) : Except TablePanic (TableSys P) :=
  match s.lookup dev inum with
  | some e =>
    .ok (s.act p .idle e { s.entry e with ref := (s.entry e).ref + 1 } (p :: s.refs e) s.disk)
  | none =>
    match s.empty with
    | none => .error .igetNoInodes
    | some e =>
      .ok
        (s.act p .idle e { s.entry e with dev := dev, inum := inum, ref := 1, valid := false }
          (p :: s.refs e) s.disk)

/-- `p` may put a reference to `e`: it has one, besides the one it needs for a lock it holds. -/
def MayPut (s : TableSys P) (p : P) (e : Fin NINODE) : Prop :=
  s.pc p = .idle ∧ p ∈ s.refs e ∧ ((s.entry e).lock = some p → 2 ≤ (s.refs e).count p)

instance (s : TableSys P) (p : P) (e : Fin NINODE) : Decidable (s.MayPut p e) :=
  inferInstanceAs (Decidable (_ ∧ _ ∧ (_ → _)))

/-- `p` holds the sleep lock of `e` and is not in the middle of anything. -/
def Using (s : TableSys P) (p : P) (e : Fin NINODE) : Prop :=
  s.pc p = .idle ∧ (s.entry e).lock = some p

instance (s : TableSys P) (p : P) (e : Fin NINODE) : Decidable (s.Using p e) :=
  inferInstanceAs (Decidable (_ ∧ _))

/-- One part of the section of `iput` that frees an inode. -/
def iputStep (s : TableSys P) (p : P) (e : Fin NINODE) : Work → Option (TableSys P)
  | .trunc =>
    let x := { s.entry e with ip := (s.entry e).ip.truncated }
    some (s.act p (.at e .clear) e x (s.refs e) (s.writeDisk x.dev x.inum x.ip))
  | .clear =>
    let x := { s.entry e with ip := { (s.entry e).ip with type := .free } }
    some (s.act p (.at e .invalidate) e x (s.refs e) (s.writeDisk x.dev x.inum x.ip))
  | .invalidate =>
    some (s.act p (.at e .drop) e { s.entry e with valid := false, lock := none } (s.refs e) s.disk)
  | .drop =>
    some (s.act p .idle e { s.entry e with ref := (s.entry e).ref - 1 } ((s.refs e).erase p) s.disk)
  | _ => none

/-- One step, or the panic it ends in. `none` is a step that cannot be taken. -/
def exec (s : TableSys P) : TableEvent P → Option (Except TablePanic (TableSys P))
  | .iget p dev inum => if s.pc p = .idle then some (s.iget p dev inum) else none
  | .idup p e =>
    if s.pc p = .idle ∧ p ∈ s.refs e then
      some
      (.ok (s.act p .idle e { s.entry e with ref := (s.entry e).ref + 1 } (p :: s.refs e) s.disk))
    else none
  | .give p q e =>
    if s.MayPut p e then some (.ok (s.act p .idle e (s.entry e) (q :: (s.refs e).erase p) s.disk))
      else none
  | .ilock p e =>
    if s.pc p = .idle ∧ p ∈ s.refs e then
      if (s.entry e).ref < 1 then some (.error .ilock)
      else if (s.entry e).lock = none then
        some (.ok (s.act p (.at e .locking) e { s.entry e with lock := some p } (s.refs e) s.disk))
      else none
    else none
  | .load p =>
    match s.pc p with
    | .at e .locking =>
      if (s.entry e).valid = true then some (.ok (s.act p .idle e (s.entry e) (s.refs e) s.disk))
      else if (s.diskOf e).type = .free then some (.error .ilockNoType)
      else some
        (.ok (s.act p .idle e { s.entry e with ip := s.diskOf e, valid := true } (s.refs e) s.disk))
    | _ => none
  | .iunlock p e =>
    if s.Using p e then
      if (s.entry e).ref < 1 then some (.error .iunlock)
      else some (.ok (s.act p .idle e { s.entry e with lock := none } (s.refs e) s.disk))
    else none
  | .header p e major minor nlink =>
    if s.Using p e then
      some (.ok (s.act p (.at e .dirty) e
        { s.entry e with
          ip := { (s.entry e).ip with major := major, minor := minor, nlink := nlink } }
        (s.refs e) s.disk))
    else none
  | .write p e fresh off k stop =>
    if s.Using p e ∧ off ≤ (s.entry e).ip.size ∧ stop ≤ (off / BSIZE + k) * BSIZE then
      some
      (.ok
        (s.act p (.at e .dirty) e { s.entry e with ip := (s.entry e).ip.written fresh off k stop }
        (s.refs e) s.disk))
    else none
  | .trunc p e =>
    if s.Using p e then
      some
      (.ok
        (s.act p (.at e .dirty) e { s.entry e with ip := (s.entry e).ip.truncated }
          (s.refs e) s.disk))
    else none
  | .iupdate p =>
    match s.pc p with
    | .at e .dirty =>
      some
        (.ok
          (s.act p .idle e (s.entry e) (s.refs e)
            (s.writeDisk (s.entry e).dev (s.entry e).inum (s.entry e).ip)))
    | _ => none
  | .read p e fresh bn k =>
    if s.Using p e ∧ (bn + k - 1) * BSIZE < (s.entry e).ip.size then
      some
      (.ok
        (s.act p .idle e { s.entry e with ip := (s.entry e).ip.bmaps fresh bn k }
          (s.refs e) s.disk))
    else none
  | .iput p e =>
    if s.MayPut p e then
      if (s.entry e).ref = 1 ∧ (s.entry e).valid = true ∧ (s.entry e).ip.nlink = 0 then
        if (s.entry e).lock = none then
          some (.ok (s.act p (.at e .trunc) e { s.entry e with lock := some p } (s.refs e) s.disk))
        else some (.error .sleepsLocked)
      else some
        (.ok
          (s.act p .idle e { s.entry e with ref := (s.entry e).ref - 1 }
            ((s.refs e).erase p) s.disk))
    else none
  | .iputStep p =>
    match s.pc p with
    | .at e w => (s.iputStep p e w).map .ok
    | _ => none
  | .ialloc p dev inum type =>
    if s.pc p = .idle ∧ type ≠ .free ∧ (s.disk dev inum).type = .free then
      some (.ok { s with
        disk := s.writeDisk dev inum (.allocated type)
        pc := update s.pc p (.allocated dev inum) })
    else none
  | .iallocGet p =>
    match s.pc p with
    | .allocated dev inum => some (s.iget p dev inum)
    | _ => none

/-- `balloc` does not return block 0, the boot block, which the bitmap marks in use. -/
def NonzeroBlocks : TableEvent P → Prop
  | .write _ _ fresh _ _ _ => ∀ bn, fresh bn ≠ 0
  | _ => True

def Step (s : TableSys P) (e : TableEvent P) (t : TableSys P) : Prop :=
  NonzeroBlocks e ∧ s.exec e = some (.ok t)

/-- A freshly booted table, over any dinodes. -/
def initial (disk : Nat → Nat → DiskInode) : TableSys P where
  entry := fun _ => ⟨0, 0, 0, none, false, .allocated .free⟩
  disk := disk
  pc := fun _ => .idle
  refs := fun _ => []

/-! ### What one step does -/

/-- **The steps of the system**, with everything they test and change. -/
inductive Does (s : TableSys P) : TableEvent P → TableSys P → Prop
  | iget (p : P) (dev inum : Nat) (t : TableSys P) (idle : s.pc p = .idle)
      (got : s.iget p dev inum = .ok t) : Does s (.iget p dev inum) t
  | idup (p : P) (e : Fin NINODE) (idle : s.pc p = .idle) (mine : p ∈ s.refs e) :
      Does s (.idup p e)
      (s.act p .idle e { s.entry e with ref := (s.entry e).ref + 1 } (p :: s.refs e) s.disk)
  | give (p q : P) (e : Fin NINODE) (may : s.MayPut p e) :
      Does s (.give p q e) (s.act p .idle e (s.entry e) (q :: (s.refs e).erase p) s.disk)
  | ilock (p : P) (e : Fin NINODE) (idle : s.pc p = .idle) (mine : p ∈ s.refs e)
      (free : (s.entry e).lock = none) :
      Does s (.ilock p e)
        (s.act p (.at e .locking) e { s.entry e with lock := some p } (s.refs e) s.disk)
  | loadValid (p : P) (e : Fin NINODE) (here : s.pc p = .at e .locking)
      (valid : (s.entry e).valid = true) :
      Does s (.load p) (s.act p .idle e (s.entry e) (s.refs e) s.disk)
  | load (p : P) (e : Fin NINODE) (here : s.pc p = .at e .locking)
      (typed : (s.diskOf e).type ≠ .free) :
      Does s (.load p)
        (s.act p .idle e { s.entry e with ip := s.diskOf e, valid := true } (s.refs e) s.disk)
  | iunlock (p : P) (e : Fin NINODE) (mine : s.Using p e) :
      Does s (.iunlock p e) (s.act p .idle e { s.entry e with lock := none } (s.refs e) s.disk)
  | header (p : P) (e : Fin NINODE) (major minor nlink : BitVec 16) (mine : s.Using p e) :
      Does s (.header p e major minor nlink) (s.act p (.at e .dirty) e
        { s.entry e with
          ip := { (s.entry e).ip with major := major, minor := minor, nlink := nlink } }
        (s.refs e) s.disk)
  | write (p : P) (e : Fin NINODE) (fresh : Nat → Nat) (off k stop : Nat) (mine : s.Using p e)
      (inside : off ≤ (s.entry e).ip.size) (reaches : stop ≤ (off / BSIZE + k) * BSIZE) :
      Does s (.write p e fresh off k stop) (s.act p (.at e .dirty) e
        { s.entry e with ip := (s.entry e).ip.written fresh off k stop } (s.refs e) s.disk)
  | trunc (p : P) (e : Fin NINODE) (mine : s.Using p e) :
      Does s (.trunc p e)
      (s.act p (.at e .dirty) e { s.entry e with ip := (s.entry e).ip.truncated } (s.refs e) s.disk)
  | iupdate (p : P) (e : Fin NINODE) (here : s.pc p = .at e .dirty) :
      Does s (.iupdate p) (s.act p .idle e (s.entry e) (s.refs e)
        (s.writeDisk (s.entry e).dev (s.entry e).inum (s.entry e).ip))
  | read (p : P) (e : Fin NINODE) (fresh : Nat → Nat) (bn k : Nat) (mine : s.Using p e)
      (below : (bn + k - 1) * BSIZE < (s.entry e).ip.size) :
      Does s (.read p e fresh bn k)
        (s.act p .idle e { s.entry e with ip := (s.entry e).ip.bmaps fresh bn k } (s.refs e) s.disk)
  | iputFrees (p : P) (e : Fin NINODE) (may : s.MayPut p e) (last : (s.entry e).ref = 1)
      (valid : (s.entry e).valid = true) (free : (s.entry e).lock = none) :
      Does s (.iput p e)
      (s.act p (.at e .trunc) e { s.entry e with lock := some p } (s.refs e) s.disk)
  | iputDrops (p : P) (e : Fin NINODE) (may : s.MayPut p e) :
      Does s (.iput p e)
        (s.act p .idle e { s.entry e with ref := (s.entry e).ref - 1 } ((s.refs e).erase p) s.disk)
  | iputStep (p : P) (e : Fin NINODE) (w : Work) (t : TableSys P) (here : s.pc p = .at e w)
      (goes : s.iputStep p e w = some t) : Does s (.iputStep p) t
  | ialloc (p : P) (dev inum : Nat) (type : FType) (idle : s.pc p = .idle) (typed : type ≠ .free)
      (free : (s.disk dev inum).type = .free) :
      Does s (.ialloc p dev inum type) { s with
        disk := s.writeDisk dev inum (.allocated type)
        pc := update s.pc p (.allocated dev inum) }
  | iallocGet (p : P) (dev inum : Nat) (t : TableSys P) (here : s.pc p = .allocated dev inum)
      (got : s.iget p dev inum = .ok t) : Does s (.iallocGet p) t

theorem does_of_exec {s t : TableSys P} {e : TableEvent P} (step : s.exec e = some (.ok t)) :
    Does s e t := by
  unfold exec at step
  cases e with
  | iget p dev inum =>
    obtain ⟨idle, got⟩ := of_guard step
    exact .iget p dev inum t idle got
  | idup p e =>
    obtain ⟨enabled, rfl⟩ := of_guard_ok step
    exact .idup p e enabled.1 enabled.2
  | give p q e =>
    obtain ⟨may, rfl⟩ := of_guard_ok step
    exact .give p q e may
  | ilock p e =>
    simp only at step
    split_ifs at step with enabled _ free
    · cases step
    cases step
    exact .ilock p e enabled.1 enabled.2 free
  | load p =>
    simp only at step
    split at step
    case h_2 => cases step
    rename_i e here
    split_ifs at step with valid typed
    · cases step
      exact .loadValid p e here valid
    · cases step
    · cases step
      exact .load p e here typed
  | iunlock p e =>
    simp only at step
    split_ifs at step with mine
    · cases step
    cases step
    exact .iunlock p e mine
  | header p e major minor nlink =>
    obtain ⟨mine, rfl⟩ := of_guard_ok step
    exact .header p e major minor nlink mine
  | write p e fresh off k stop =>
    obtain ⟨enabled, rfl⟩ := of_guard_ok step
    exact .write p e fresh off k stop enabled.1 enabled.2.1 enabled.2.2
  | trunc p e =>
    obtain ⟨mine, rfl⟩ := of_guard_ok step
    exact .trunc p e mine
  | iupdate p =>
    simp only at step
    split at step
    case h_2 => cases step
    rename_i e here
    cases step
    exact .iupdate p e here
  | read p e fresh bn k =>
    obtain ⟨enabled, rfl⟩ := of_guard_ok step
    exact .read p e fresh bn k enabled.1 enabled.2
  | iput p e =>
    simp only at step
    split_ifs at step with may last free
    · cases step
      exact .iputFrees p e may last.1 last.2.1 free
    · cases step
    · cases step
      exact .iputDrops p e may
  | iputStep p =>
    simp only at step
    split at step
    case h_2 => cases step
    rename_i e w here
    obtain ⟨u, goes, same⟩ := Option.map_eq_some_iff.mp step
    cases same
    exact .iputStep p e w t here goes
  | ialloc p dev inum type =>
    obtain ⟨enabled, rfl⟩ := of_guard_ok step
    exact .ialloc p dev inum type enabled.1 enabled.2.1 enabled.2.2
  | iallocGet p =>
    simp only at step
    split at step
    case h_2 => cases step
    rename_i dev inum here
    exact .iallocGet p dev inum t here (Option.some.inj step)

end TableSys

end Xv6
