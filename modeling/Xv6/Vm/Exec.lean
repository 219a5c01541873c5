/-
**Executing a file** (`kernel/exec.c`, `kernel/elf.h`).

The file is locked while `exec` reads it, so that it is a fixed string of bytes (`File`);
`File.readi` is what `readi` into kernel memory does with it. What `exec` holds of the file system
is counted in `FsRefs`. `goto bad` is a call of `execBad` with the page table, the size and the
inode at that point.
-/

import Xv6.Vm.Copy

namespace Xv6.Vm

open Lib

structure File where
  size : Nat
  byte : Nat → Byte
  small : size ≤ MAXFILE * BSIZE

/-- `readi` into kernel memory: the bytes that are read. -/
def File.readi (f : File) (off n : Nat) : List Byte :=
  if off > f.size ∨ (off + n) % 2 ^ 32 < off then []
  else
    let n := if (off + n) % 2 ^ 32 > f.size then f.size - off else n
    (List.range n).map fun j => f.byte (off + j)

/-- How many log operations the process is in, and how many references to the inode and locks of it
it holds. -/
structure FsRefs where
  ops : Nat
  refs : Nat
  locks : Nat
  deriving DecidableEq

namespace FsRefs

def beginOp (fs : FsRefs) : FsRefs := { fs with ops := fs.ops + 1 }

def endOp (fs : FsRefs) : FsRefs := { fs with ops := fs.ops - 1 }

def namei (fs : FsRefs) : FsRefs := { fs with refs := fs.refs + 1 }

def ilock (fs : FsRefs) : FsRefs := { fs with locks := fs.locks + 1 }

def iunlockput (fs : FsRefs) : FsRefs := { fs with locks := fs.locks - 1, refs := fs.refs - 1 }

end FsRefs

/-! ### `elf.h` -/

def ELF_MAGIC : Nat := 0x464C457F

def ELF_PROG_LOAD : Nat := 1

/-- `struct elfhdr`: the fields that `exec` reads -/
structure Elfhdr where
  magic : Nat
  entry : Nat
  phoff : Nat
  phnum : Nat
  deriving DecidableEq

/-- `sizeof(struct elfhdr)` -/
def ELFHDR_SIZE : Nat := 64

def Elfhdr.decode (m : Memory) : Elfhdr where
  magic := Memory.le 4 m 0
  entry := Memory.le 8 m 24
  phoff := Memory.le 8 m 32
  phnum := Memory.le 2 m 56

/-- `struct proghdr`: the fields that `exec` reads -/
structure Proghdr where
  type : Nat
  off : Nat
  vaddr : Nat
  filesz : Nat
  memsz : Nat
  deriving DecidableEq

/-- `sizeof(struct proghdr)` -/
def PROGHDR_SIZE : Nat := 56

def Proghdr.decode (m : Memory) : Proghdr where
  type := Memory.le 4 m 0
  off := Memory.le 8 m 8
  vaddr := Memory.le 8 m 16
  filesz := Memory.le 8 m 32
  memsz := Memory.le 8 m 40

/-- Bytes that have been read, as memory. -/
def bytesAt (bytes : List Byte) : Memory := fun i => bytes.getD i 0

def leBytes (n v : Nat) : List Byte := (List.range n).map fun i => BitVec.ofNat 8 (v / 256 ^ i)

section Model

variable [KernelImage]

def loadsegLoop (pagetable va : Nat) (f : File) (offset sz : Nat) : Nat → Nat → VmM Int
  | 0, _ => return 0
  | fuel + 1, i => do
    if i < sz then
      let pa ← walkaddr pagetable ((va + i) % 2 ^ 64)
      if pa = 0 then throw .loadsegAddress
      let n := if sz - i < PGSIZE then sz - i else PGSIZE
      let bytes := f.readi ((offset + i) % 2 ^ 32) n
      modify fun s => { s with mem := s.mem.write pa bytes }
      if bytes.length ≠ n then return -1
      else loadsegLoop pagetable va f offset sz fuel ((i + PGSIZE) % 2 ^ 32)
    else return 0

def loadseg (pagetable va : Nat) (f : File) (offset sz : Nat) : VmM Int :=
  loadsegLoop pagetable va f offset sz (sz / PGSIZE + 1) 0

/-- Load `n` program headers, the first one at `off`: whether all went well, and the size. -/
def loadHeaders (pagetable : Nat) (f : File) : Nat → Nat → Nat → VmM (Bool × Nat)
  | 0, _, sz => return (true, sz)
  | n + 1, off, sz => do
    let bytes := f.readi off PROGHDR_SIZE
    if bytes.length ≠ PROGHDR_SIZE then return (false, sz)
    else
      let ph := Proghdr.decode (bytesAt bytes)
      if ph.type ≠ ELF_PROG_LOAD then loadHeaders pagetable f n ((off + PROGHDR_SIZE) % 2 ^ 32) sz
      else if ph.memsz < ph.filesz then return (false, sz)
      else if (ph.vaddr + ph.memsz) % 2 ^ 64 < ph.vaddr then return (false, sz)
      else
        let sz1 ← uvmalloc pagetable sz ((ph.vaddr + ph.memsz) % 2 ^ 64)
        if sz1 = 0 then return (false, sz)
        else if ph.vaddr % PGSIZE ≠ 0 then return (false, sz1)
        else if (← loadseg pagetable ph.vaddr f (ph.off % 2 ^ 32) (ph.filesz % 2 ^ 32)) < 0 then
          return (false, sz1)
        else loadHeaders pagetable f n ((off + PROGHDR_SIZE) % 2 ^ 32) sz1

/-- Push the argument strings: the stack pointer and `ustack`, or `none` for `goto bad`. -/
def pushArgs (pagetable stackbase : Nat) :
    List (List Byte) → Nat → Nat → List Nat → VmM (Option (Nat × List Nat))
  | [], _, sp, ustack => return some (sp, ustack)
  | arg :: rest, argc, sp, ustack => do
    if MAXARG ≤ argc then return none
    else
      let sp := (sp + 2 ^ 64 - (arg.length + 1)) % 2 ^ 64
      let sp := sp - sp % 16
      if sp < stackbase then return none
      else if (← copyout pagetable sp (arg ++ [0])) < 0 then return none
      else pushArgs pagetable stackbase rest (argc + 1) sp (ustack ++ [sp])

/-- Build the stack in the page below `sz`: the stack pointer, or `none` for `goto bad`. -/
def pushStack (pagetable sz : Nat) (argv : List (List Byte)) : VmM (Option Nat) := do
  let stackbase := sz - PGSIZE
  match ← pushArgs pagetable stackbase argv 0 sz [] with
  | none => return none
  | some (sp, ustack) =>
    let array := (ustack ++ [0]).flatMap (leBytes 8)
    let sp := (sp + 2 ^ 64 - array.length) % 2 ^ 64
    let sp := sp - sp % 16
    if sp < stackbase then return none
    else if (← copyout pagetable sp array) < 0 then return none
    else return some sp

/-- The part of a path after the last `/`. -/
def lastName (path : List Byte) : List Byte := (path.reverse.takeWhile (· ≠ 47)).reverse

def execBad (p : Proc) (fs : FsRefs) (pagetable sz : Nat) (ip : Bool) : VmM (Int × Proc × FsRefs) :=
  do
  if pagetable ≠ 0 then procFreepagetable pagetable sz
  if ip then return (-1, p, fs.iunlockput.endOp)
  else return (-1, p, fs)

/-- The offset of `epc` in a trapframe. -/
def EPC : Nat := 24

def SP : Nat := 48

def A1 : Nat := 120

def execCommit (p : Proc) (fs : FsRefs) (path : List Byte) (argc pagetable sz sp entry : Nat) :
    VmM (Int × Proc × FsRefs) := do
  modify fun s => s.store (p.trapframe + A1) sp
  modify fun s => s.store (p.trapframe + EPC) entry
  modify fun s => s.store (p.trapframe + SP) sp
  procFreepagetable p.pagetable p.sz
  return (argc, { p with name := (lastName path).take 15, pagetable, sz }, fs)

/-- Replace the program of the process `p`, with the file that the path names (if any): the result,
the process, and the references that it holds. -/
def exec (p : Proc) (fs : FsRefs) (file : Option File) (path : List Byte)
    (argv : List (List Byte)) :
    VmM (Int × Proc × FsRefs) :=
  do
  let fs := fs.beginOp
  match file with
  | none => return (-1, p, fs.endOp)
  | some f =>
    let fs := fs.namei.ilock
    let header := f.readi 0 ELFHDR_SIZE
    if header.length ≠ ELFHDR_SIZE then execBad p fs 0 0 true
    else
      let elf := Elfhdr.decode (bytesAt header)
      if elf.magic ≠ ELF_MAGIC then execBad p fs 0 0 true
      else
        let pagetable ← procPagetable p.trapframe
        if pagetable = 0 then execBad p fs 0 0 true
        else
          let (loaded, sz) ← loadHeaders pagetable f elf.phnum (elf.phoff % 2 ^ 32) 0
          if !loaded then execBad p fs pagetable sz true
          else
            let fs := fs.iunlockput.endOp
            let sz := PGROUNDUP sz
            let sz1 ← uvmalloc pagetable sz ((sz + 2 * PGSIZE) % 2 ^ 64)
            if sz1 = 0 then execBad p fs pagetable sz false
            else
              uvmclear pagetable (sz1 - 2 * PGSIZE)
              match ← pushStack pagetable sz1 argv with
              | none => execBad p fs pagetable sz1 false
              | some sp => execCommit p fs path argv.length pagetable sz1 sp elf.entry

end Model

end Xv6.Vm
