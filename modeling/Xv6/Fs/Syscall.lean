/-
**The file system calls** (`kernel/sysfile.c`, `kernel/file.c`, `kernel/pipe.c`, and the parts of
`fork`, `exit` and `exec` that deal with files).

A call is a program with the calling process as an argument. A path is `none` if `argstr` fails.
What a call does not decide by itself is an argument: the page that `kalloc` gives, whether a
`copyout` succeeds, whether `exec` can load the file. `FsCall` lists the calls and `FsCall.Step` is
one completed call.
-/

import Xv6.Fs.Path

namespace Xv6

open Lib Function

variable {P : Type}

/-! ### Files -/

def Fs.setFile (s : Fs P) (f : Fin NFILE) (file : File) : Fs P :=
  { s with ftable := update s.ftable f file }

def filealloc : FsM P (Option (Fin NFILE)) := do
  let s ← get
  match (List.finRange NFILE).find? fun f => (s.ftable f).ref = 0 with
  | none => return none
  | some f =>
    modify fun s => s.setFile f { s.ftable f with ref := 1 }
    return some f

def filedup (f : Fin NFILE) : FsM P (Fin NFILE) := do
  let s ← get
  if (s.ftable f).ref < 1 then throw .filedup
  modify fun s => s.setFile f { s.ftable f with ref := (s.ftable f).ref + 1 }
  return f

/-- A pipe with one end closed, or `none` once both are. -/
def Pipe.close (pi : Pipe) (writable : Bool) : Option Pipe :=
  let pi : Pipe := ⟨pi.readopen && writable, pi.writeopen && !writable⟩
  if pi.readopen = false ∧ pi.writeopen = false then none else some pi

/-- Close one end of a pipe; the page is freed with the second. -/
def pipeclose (page : Nat) (writable : Bool) : FsM P Unit :=
  modify fun s =>
    { s with pipes := update s.pipes page ((s.pipes page).bind fun pi => pi.close writable) }

/-- Close a file: decrement its reference count, close when it reaches 0. -/
def fileclose (f : Fin NFILE) : FsM P Unit := do
  let s ← get
  let ff := s.ftable f
  if ff.ref < 1 then throw .fileclose
  if ff.ref - 1 > 0 then
    modify fun s => s.setFile f { ff with ref := ff.ref - 1 }
  else
    modify fun s => s.setFile f { ff with ref := 0, type := .none }
    match ff.type with
    | .pipe => pipeclose ff.pipe ff.writable
    | .inode | .device => iput ff.ip
    | .none => return ()

def Fs.setFd [DecidableEq P] (s : Fs P) (p : P) (fd : Fin NOFILE) (f : Option (Fin NFILE)) : Fs P :=
  { s with ofile := fun q g => if q = p ∧ g = fd then f else s.ofile q g }

variable [DecidableEq P]

def fdalloc (p : P) (f : Fin NFILE) : FsM P (Option (Fin NOFILE)) := do
  let s ← get
  match (List.finRange NOFILE).find? fun fd => s.ofile p fd = none with
  | none => return none
  | some fd =>
    modify fun s => s.setFd p fd (some f)
    return some fd

/-- Create a pipe in the page that `kalloc` gave, with its two files. -/
def pipealloc (page : Option Nat) : FsM P (Option (Fin NFILE × Fin NFILE)) := do
  match ← filealloc with
  | none => return none
  | some f0 =>
    match ← filealloc with
    | none =>
      fileclose f0
      return none
    | some f1 =>
      match page with
      | none =>
        fileclose f0
        fileclose f1
        return none
      | some pi =>
        modify fun s => { s with pipes := update s.pipes pi (some ⟨true, true⟩) }
        modify fun s => s.setFile f0
          { s.ftable f0 with type := .pipe, readable := true, writable := false, pipe := pi }
        modify fun s => s.setFile f1
          { s.ftable f1 with type := .pipe, readable := false, writable := true, pipe := pi }
        return some (f0, f1)

/-! ### System calls

`false`, or `none` for a descriptor, is the return value -1. -/

/-- Fetch a descriptor argument and the file it stands for. -/
def argfd (s : Fs P) (p : P) (fd : Int) : Option (Fin NOFILE × Fin NFILE) :=
  if range : 0 ≤ fd ∧ fd < NOFILE then
    let fd : Fin NOFILE := ⟨fd.toNat, by omega⟩
    (s.ofile p fd).map fun f => (fd, f)
  else none

def sysDup (p : P) (fd : Int) : FsM P Bool := do
  let s ← get
  match argfd s p fd with
  | none => return false
  | some (_, f) =>
    match ← fdalloc p f with
    | none => return false
    | some _ =>
      let _ ← filedup f
      return true

def sysClose (p : P) (fd : Int) : FsM P Bool := do
  let s ← get
  match argfd s p fd with
  | none => return false
  | some (fd, f) =>
    modify fun s => s.setFd p fd none
    fileclose f
    return true

def setNlink (i : Fin NINODE) (change : BitVec 16 → BitVec 16) : FsM P Unit := do
  modify fun s => s.setInode i { s.itable i with nlink := change (s.itable i).nlink }
  iupdate i

/-- The `bad` label of `sys_link`. -/
def linkBad (ip : Fin NINODE) : FsM P Bool := do
  ilock ip
  setNlink ip (· - 1)
  iunlockput ip
  return false

def sysLink (p : P) (old new : Option (List Byte)) : FsM P Bool := do
  match old, new with
  | some old, some new =>
    match ← namei p old with
    | none => return false
    | some ip =>
      ilock ip
      let s ← get
      if (s.itable ip).type = .dir then
        iunlockput ip
        return false
      setNlink ip (· + 1)
      iunlock ip
      match ← nameiparent p new with
      | none => linkBad ip
      | some (dp, name) =>
        ilock dp
        let s ← get
        if ← dirlink dp name (s.itable ip).inum then
          iunlockput dp
          iput ip
          return true
        else
          iunlockput dp
          linkBad ip
  | _, _ => return false

def sysUnlink (p : P) (path : Option (List Byte)) : FsM P Bool := do
  match path with
  | none => return false
  | some path =>
    match ← nameiparent p path with
    | none => return false
    | some (dp, name) =>
      ilock dp
      if name = dot ∨ name = dotdot then
        iunlockput dp
        return false
      match ← dirlookup dp name with
      | none =>
        iunlockput dp
        return false
      | some (ip, off) =>
        ilock ip
        let s ← get
        if (s.itable ip).nlink.toInt < 1 then throw .unlinkNlink
        if (s.itable ip).type = .dir ∧ !isdirempty s ip then
          iunlockput ip
          iunlockput dp
          return false
        writeEntry dp off ⟨0, []⟩
        if (s.itable ip).type = .dir then
          setNlink dp (· - 1)
        iunlockput dp
        setNlink ip (· - 1)
        iunlockput ip
        return true

/-- Create an inode and its entry; the inode is returned locked. -/
def create (p : P) (path : List Byte) (type : FType) (major minor : BitVec 16) :
    FsM P (Option (Fin NINODE)) := do
  match ← nameiparent p path with
  | none => return none
  | some (dp, name) =>
    ilock dp
    match ← dirlookup dp name with
    | some (ip, _) =>
      iunlockput dp
      ilock ip
      let s ← get
      if type = .file ∧ ((s.itable ip).type = .file ∨ (s.itable ip).type = .device) then
        return some ip
      iunlockput ip
      return none
    | none =>
      let ip ← ialloc type
      ilock ip
      modify fun s => s.setInode ip { s.itable ip with major := major, minor := minor, nlink := 1 }
      iupdate ip
      let s ← get
      if type = .dir then
        setNlink dp (· + 1)
        if !(← dirlink ip dot (s.itable ip).inum) then throw .createDots
        if !(← dirlink ip dotdot (s.itable dp).inum) then throw .createDots
      if !(← dirlink dp name (s.itable ip).inum) then throw .createDirlink
      iunlockput dp
      return some ip

structure OpenMode where
  wronly : Bool
  rdwr : Bool
  create : Bool
  trunc : Bool
  deriving DecidableEq

/-- `omode != O_RDONLY` -/
def OpenMode.notReadOnly (m : OpenMode) : Bool := m.wronly || m.rdwr || m.create || m.trunc

/-- The second half of `sys_open`, with the inode locked. -/
def openInode (p : P) (omode : OpenMode) (ip : Fin NINODE) : FsM P (Option (Fin NOFILE)) := do
  let s ← get
  let inode := s.itable ip
  if inode.type = .device ∧ (inode.major.toInt < 0 ∨ inode.major.toInt ≥ NDEV) then
    iunlockput ip
    return none
  match ← filealloc with
  | none =>
    iunlockput ip
    return none
  | some f =>
    match ← fdalloc p f with
    | none =>
      fileclose f
      iunlockput ip
      return none
    | some fd =>
      modify fun s => s.setFile f { s.ftable f with
        type := if inode.type = .device then .device else .inode
        major := if inode.type = .device then inode.major else (s.ftable f).major
        off := if inode.type = .device then (s.ftable f).off else 0
        ip := ip
        readable := !omode.wronly
        writable := omode.wronly || omode.rdwr }
      if omode.trunc ∧ inode.type = .file then itrunc ip
      iunlock ip
      return some fd

def sysOpen (p : P) (path : Option (List Byte)) (omode : OpenMode) : FsM P (Option (Fin NOFILE)) :=
  do
  match path with
  | none => return none
  | some path =>
    if omode.create then
      match ← create p path .file 0 0 with
      | none => return none
      | some ip => openInode p omode ip
    else
      match ← namei p path with
      | none => return none
      | some ip =>
        ilock ip
        let s ← get
        if (s.itable ip).type = .dir ∧ omode.notReadOnly then
          iunlockput ip
          return none
        openInode p omode ip

/-- `sys_mkdir` and `sys_mknod`: make an inode and let it go. -/
def makeNode (p : P) (path : Option (List Byte)) (type : FType) (major minor : BitVec 16) :
    FsM P Bool := do
  match path with
  | none => return false
  | some path =>
    match ← create p path type major minor with
    | none => return false
    | some ip =>
      iunlockput ip
      return true

def sysMkdir (p : P) (path : Option (List Byte)) : FsM P Bool := makeNode p path .dir 0 0

def sysMknod (p : P) (path : Option (List Byte)) (major minor : BitVec 16) : FsM P Bool :=
  makeNode p path .device major minor

def sysChdir (p : P) (path : Option (List Byte)) : FsM P Bool := do
  match path with
  | none => return false
  | some path =>
    match ← namei p path with
    | none => return false
    | some ip =>
      ilock ip
      let s ← get
      if (s.itable ip).type ≠ .dir then
        iunlockput ip
        return false
      iunlock ip
      match s.cwd p with
      | none => throw .badPointer
      | some old => iput old
      modify fun s => { s with cwd := update s.cwd p (some ip) }
      return true

/-- The files of `exec`: the program is read while its inode is locked, then let go, whether it
could be loaded or not. -/
def execFile (p : P) (path : Option (List Byte)) (loads : Bool) : FsM P Bool := do
  match path with
  | none => return false
  | some path =>
    match ← namei p path with
    | none => return false
    | some ip =>
      ilock ip
      iunlockput ip
      return loads

/-- `sys_pipe`; `copied` says whether both `copyout`s succeed. -/
def sysPipe (p : P) (page : Option Nat) (copied : Bool) : FsM P Bool := do
  match ← pipealloc page with
  | none => return false
  | some (rf, wf) =>
    match ← fdalloc p rf with
    | none =>
      fileclose rf
      fileclose wf
      return false
    | some fd0 =>
      match ← fdalloc p wf with
      | none =>
        modify fun s => s.setFd p fd0 none
        fileclose rf
        fileclose wf
        return false
      | some fd1 =>
        if copied then return true
        modify fun s => s.setFd p fd0 none
        modify fun s => s.setFd p fd1 none
        fileclose rf
        fileclose wf
        return false

/-- The loop of `fork` over the open files. -/
def forkFiles (p np : P) : List (Fin NOFILE) → FsM P Unit
  | [] => return ()
  | fd :: rest => do
    let s ← get
    match s.ofile p fd with
    | none => forkFiles p np rest
    | some f =>
      let f ← filedup f
      modify fun s => s.setFd np fd (some f)
      forkFiles p np rest

/-- The files of `fork`; there is no `np` if `allocproc` or `uvmcopy` fails. -/
def forkShare (p : P) (np : Option P) : FsM P Bool := do
  match np with
  | none => return false
  | some np =>
    forkFiles p np (List.finRange NOFILE)
    let s ← get
    match s.cwd p with
    | none => throw .badPointer
    | some i =>
      let i ← idup i
      modify fun s => { s with cwd := update s.cwd np (some i) }
      return true

/-- The loop of `exit` over the open files. -/
def exitFiles (p : P) : List (Fin NOFILE) → FsM P Unit
  | [] => return ()
  | fd :: rest => do
    let s ← get
    match s.ofile p fd with
    | none => exitFiles p rest
    | some f =>
      fileclose f
      modify fun s => s.setFd p fd none
      exitFiles p rest

def exitClose (p : P) : FsM P Unit := do
  let s ← get
  if p = s.initproc then throw .initExiting
  exitFiles p (List.finRange NOFILE)
  let s ← get
  match s.cwd p with
  | none => throw .badPointer
  | some i => iput i
  modify fun s => { s with cwd := update s.cwd p none }

/-- The system calls, each by a process and with its arguments. -/
inductive FsCall (P : Type)
  | open (p : P) (path : Option (List Byte)) (omode : OpenMode)
  | close (p : P) (fd : Int)
  | dup (p : P) (fd : Int)
  | pipe (p : P) (page : Option Nat) (copied : Bool)
  | fork (p : P) (np : Option P)
  | exec (p : P) (path : Option (List Byte)) (loads : Bool)
  | chdir (p : P) (path : Option (List Byte))
  | link (p : P) (old new : Option (List Byte))
  | unlink (p : P) (path : Option (List Byte))
  | mkdir (p : P) (path : Option (List Byte))
  | mknod (p : P) (path : Option (List Byte)) (major minor : BitVec 16)
  | exit (p : P)

def FsCall.caller : FsCall P → P
  | .open p _ _ | .close p _ | .dup p _ | .pipe p _ _ | .fork p _ | .exec p _ _ | .chdir p _
  | .link p _ _ | .unlink p _ | .mkdir p _ | .mknod p _ _ _ | .exit p => p

def FsCall.run : FsCall P → FsM P Unit
  | .open p path omode => do let _ ← sysOpen p path omode
  | .close p fd => do let _ ← sysClose p fd
  | .dup p fd => do let _ ← sysDup p fd
  | .pipe p page copied => do let _ ← sysPipe p page copied
  | .fork p np => do let _ ← forkShare p np
  | .exec p path loads => do let _ ← execFile p path loads
  | .chdir p path => do let _ ← sysChdir p path
  | .link p old new => do let _ ← sysLink p old new
  | .unlink p path => do let _ ← sysUnlink p path
  | .mkdir p path => do let _ ← sysMkdir p path
  | .mknod p path major minor => do let _ ← sysMknod p path major minor
  | .exit p => exitClose p

/-- A call can be made: its process runs, `allocproc` gives a slot that no process runs in, and
`kalloc` a page that is not in use. A process has a working directory until it exits. -/
def FsCall.Allowed (s : Fs P) : FsCall P → Prop
  | .fork p np => (s.cwd p).isSome ∧ ∀ q ∈ np, s.cwd q = none
  | .pipe p page _ => (s.cwd p).isSome ∧ ∀ pi ∈ page, s.pipes pi = none
  | call => (s.cwd call.caller).isSome

instance (s : Fs P) : (call : FsCall P) → Decidable (call.Allowed s)
  | .fork p np => inferInstanceAs (Decidable ((s.cwd p).isSome ∧ ∀ q ∈ np, s.cwd q = none))
  | .pipe p page _ =>
    inferInstanceAs (Decidable ((s.cwd p).isSome ∧ ∀ pi ∈ page, s.pipes pi = none))
  | .open p _ _ | .close p _ | .dup p _ | .exec p _ _ | .chdir p _ | .link p _ _ | .unlink p _
  | .mkdir p _
  | .mknod p _ _ _ | .exit p => inferInstanceAs (Decidable ((s.cwd p).isSome = true))

def FsCall.complete (s : Fs P) (call : FsCall P) : Option (Fs P) :=
  if call.Allowed s then
    match call.run s with
    | .ok (_, t) => some t
    | .error _ => none
  else none

def FsCall.Step (s : Fs P) (call : FsCall P) (t : Fs P) : Prop := FsCall.complete s call = some t

end Xv6
