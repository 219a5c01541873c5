/-
**Constants of the kernel** (`kernel/param.h`, `kernel/fs.h`, `kernel/riscv.h`,
`kernel/memlayout.h`) and the type of a disk block.
-/

import Xv6.Lib.Bytes

namespace Xv6

/-! ### `param.h` -/

def NPROC : Nat := 64

def MAXARG : Nat := 32

def NOFILE : Nat := 16

def NFILE : Nat := 100

def NINODE : Nat := 50

theorem ninode_pos : 0 < NINODE := by decide

def NDEV : Nat := 10

def ROOTDEV : Nat := 1

/-- Maximum number of blocks any file-system operation writes. -/
def MAXOPBLOCKS : Nat := 10

/-- Maximum data blocks in the on-disk log. -/
def LOGSIZE : Nat := MAXOPBLOCKS * 3

def NBUF : Nat := MAXOPBLOCKS * 3

theorem nbuf_pos : 0 < NBUF := by decide

def FSSIZE : Nat := 1000

/-! ### `fs.h` -/

def BSIZE : Nat := 1024

def ROOTINO : Nat := 1

def NDIRECT : Nat := 12

def NINDIRECT : Nat := BSIZE / 4

def MAXFILE : Nat := NDIRECT + NINDIRECT

def DIRSIZ : Nat := 14

/-! ### `riscv.h` -/

def PGSIZE : Nat := 4096

/-- One beyond the highest possible virtual address. -/
def MAXVA : Nat := 2 ^ 38

/-! ### `memlayout.h` -/

def KERNBASE : Nat := 0x80000000

def PHYSTOP : Nat := KERNBASE + 128 * 1024 * 1024

/-- The trampoline page, at the highest address of every address space. -/
def TRAMPOLINE : Nat := MAXVA - PGSIZE

def TRAPFRAME : Nat := TRAMPOLINE - PGSIZE

/-! ### Disks -/

abbrev Block := Lib.Bytes BSIZE

/-- The contents of a disk, by block number. -/
abbrev Disk := Nat → Block

end Xv6
