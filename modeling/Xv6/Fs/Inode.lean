/-
**Inodes, as the system calls see them** (`kernel/fs.c`, `kernel/file.h`).

The disk is the dinodes with, for a directory, its entries in order; a free entry has `inum` 0. The
inode table has the in-memory copies with their reference counts and locks. One device is in use, so
`dev` is left out; the blocks that hold the contents are the subject of `Xv6.Fs.Block`.

A function is a program over the state `Fs` of the file system and the processes' files that may end
in a panic. `deadlock` stands for a sleep lock that its own holder asks for again: such a call does
not return.
-/

import Xv6.Params
import Xv6.Lib.Hoare

namespace Xv6

open Lib

/-- The types of an inode; on disk 0, `T_DIR`, `T_FILE` and `T_DEVICE`. -/
inductive FType
  | free
  | dir
  | file
  | device
  deriving DecidableEq

/-- A name of at most `DIRSIZ` characters. -/
abbrev Name := List Byte

/-- `struct dirent` -/
structure Dirent where
  inum : Nat
  name : Name
  deriving DecidableEq

/-- `struct dinode`, with the entries of a directory. -/
structure Dinode where
  type : FType
  major : BitVec 16
  minor : BitVec 16
  nlink : BitVec 16
  entries : List Dirent
  deriving DecidableEq

/-- `struct inode`, an entry of the inode table. -/
structure Inode where
  inum : Nat
  ref : Int
  locked : Bool
  valid : Bool
  type : FType
  major : BitVec 16
  minor : BitVec 16
  nlink : BitVec 16
  deriving DecidableEq

/-- `FD_NONE`, `FD_PIPE`, `FD_INODE` and `FD_DEVICE`. -/
inductive FdType
  | none
  | pipe
  | inode
  | device
  deriving DecidableEq

/-- `struct file`; `pipe` is the page of the pipe. -/
structure File where
  type : FdType
  ref : Int
  readable : Bool
  writable : Bool
  pipe : Nat
  ip : Fin NINODE
  off : Nat
  major : BitVec 16

/-- The two ends of a `struct pipe`. -/
structure Pipe where
  readopen : Bool
  writeopen : Bool
  deriving DecidableEq

/-- The panics of the file system calls. -/
inductive FsPanic
  /-- `"iget: no inodes"` -/
  | igetNoInodes
  /-- `"ialloc: no inodes"` -/
  | iallocNoInodes
  /-- `"ilock"` -/
  | ilock
  /-- `"ilock: no type"` -/
  | ilockNoType
  /-- `"iunlock"` -/
  | iunlock
  /-- `"dirlookup not DIR"` -/
  | dirlookupNotDir
  /-- `"dirlink"` -/
  | dirlink
  /-- `"unlink: nlink < 1"` -/
  | unlinkNlink
  /-- `"create dots"` -/
  | createDots
  /-- `"create: dirlink"` -/
  | createDirlink
  /-- `"filedup"` -/
  | filedup
  /-- `"fileclose"` -/
  | fileclose
  /-- `"init exiting"` -/
  | initExiting
  /-- a process waits for a sleep lock that it holds -/
  | deadlock
  /-- a process uses a pointer it does not have -/
  | badPointer
  deriving DecidableEq

/-- The disk, the tables and what each process has. -/
structure Fs (P : Type) where
  /-- `sb.ninodes` -/
  ninodes : Nat
  disk : Nat → Dinode
  itable : Fin NINODE → Inode
  ftable : Fin NFILE → File
  /-- the pages that hold a pipe -/
  pipes : Nat → Option Pipe
  ofile : P → Fin NOFILE → Option (Fin NFILE)
  cwd : P → Option (Fin NINODE)
  initproc : P

abbrev FsM (P A : Type) := Prog (Fs P) FsPanic A

namespace Fs

variable {P : Type}

def setInode (s : Fs P) (i : Fin NINODE) (ip : Inode) : Fs P :=
  { s with itable := Function.update s.itable i ip }

def setDinode (s : Fs P) (inum : Nat) (d : Dinode) : Fs P :=
  { s with disk := Function.update s.disk inum d }

def holding (s : Fs P) (inum : Nat) : Option (Fin NINODE) :=
  (List.finRange NINODE).find? fun i => 0 < (s.itable i).ref ∧ (s.itable i).inum = inum

def emptySlot (s : Fs P) : Option (Fin NINODE) :=
  (List.finRange NINODE).find? fun i => (s.itable i).ref = 0

end Fs

variable {P : Type}

/-- Find the inode with number `inum` and return the in-memory copy. -/
def iget (inum : Nat) : FsM P (Fin NINODE) := do
  let s ← get
  match s.holding inum with
  | some i =>
    modify fun s => s.setInode i { s.itable i with ref := (s.itable i).ref + 1 }
    return i
  | none =>
    match s.emptySlot with
    | none => throw .igetNoInodes
    | some i =>
      modify fun s => s.setInode i { s.itable i with inum := inum, ref := 1, valid := false }
      return i

def idup (i : Fin NINODE) : FsM P (Fin NINODE) := do
  modify fun s => s.setInode i { s.itable i with ref := (s.itable i).ref + 1 }
  return i

def iupdate (i : Fin NINODE) : FsM P Unit :=
  modify fun s =>
    let ip := s.itable i
    s.setDinode ip.inum
      { s.disk ip.inum with
        type := ip.type, major := ip.major, minor := ip.minor, nlink := ip.nlink }

def ilock (i : Fin NINODE) : FsM P Unit := do
  let s ← get
  if (s.itable i).ref < 1 then throw .ilock
  if (s.itable i).locked then throw .deadlock
  modify fun s => s.setInode i { s.itable i with locked := true }
  if !(s.itable i).valid then
    let d := s.disk (s.itable i).inum
    modify fun s => s.setInode i { s.itable i with
      type := d.type, major := d.major, minor := d.minor, nlink := d.nlink, valid := true }
    if d.type = .free then throw .ilockNoType

def iunlock (i : Fin NINODE) : FsM P Unit := do
  let s ← get
  if !(s.itable i).locked ∨ (s.itable i).ref < 1 then throw .iunlock
  modify fun s => s.setInode i { s.itable i with locked := false }

def itrunc (i : Fin NINODE) : FsM P Unit := do
  modify fun s => s.setDinode (s.itable i).inum { s.disk (s.itable i).inum with entries := [] }
  iupdate i

/-- Drop a reference to an in-memory inode. -/
def iput (i : Fin NINODE) : FsM P Unit := do
  let s ← get
  if (s.itable i).ref = 1 ∧ (s.itable i).valid ∧ (s.itable i).nlink = 0 then
    -- inode has no links and no other references: truncate and free
    if (s.itable i).locked then throw .deadlock
    itrunc i
    modify fun s => s.setInode i { s.itable i with type := .free }
    iupdate i
    modify fun s => s.setInode i { s.itable i with valid := false }
  modify fun s => s.setInode i { s.itable i with ref := (s.itable i).ref - 1 }

def iunlockput (i : Fin NINODE) : FsM P Unit := do
  iunlock i
  iput i

def Fs.freeInum (s : Fs P) : Option Nat :=
  (List.range' 1 (s.ninodes - 1)).find? fun inum => (s.disk inum).type = .free

def ialloc (type : FType) : FsM P (Fin NINODE) := do
  let s ← get
  match s.freeInum with
  | none => throw .iallocNoInodes
  | some inum =>
    modify fun s => s.setDinode inum ⟨type, 0, 0, 0, []⟩
    iget inum

end Xv6
