/-
**Blocks, inodes and their contents on the disk** (`kernel/fs.c`): the block allocator, `bmap` and
`readi`, on blocks of bytes.

The state is a `Vol`: the disk, the cached copies of blocks, the log in memory and the inode table,
with the files of the running process. A block's buffer is its cached copy if there is one, else
what `bread` would load from the disk (`Vol.buf`).

A function is a program over this state. A panic keeps the state it happened in. `written` is not
read by any function: it collects the blocks that were given to `log_write` since `begin_op`.
-/

import Xv6.Fs.Path
import Xv6.Log.Operations

namespace Xv6

open Lib Function

/-- `struct superblock`, without the fields of the log. -/
structure Superblock where
  /-- size of the file system image in blocks -/
  size : Nat
  /-- number of data blocks -/
  nblocks : Nat
  ninodes : Nat
  /-- block number of the first inode block -/
  inodestart : Nat
  /-- block number of the first free map block -/
  bmapstart : Nat

def IPB : Nat := BSIZE / 64

def BPB : Nat := BSIZE * 8

/-- The block containing inode `i`. -/
def IBLOCK (i : Nat) (sb : Superblock) : Nat := i / IPB + sb.inodestart

/-- The block of the free map containing the bit for block `b`. -/
def BBLOCK (b : Nat) (sb : Superblock) : Nat := b / BPB + sb.bmapstart

def T_DIR : BitVec 16 := 1

def T_FILE : BitVec 16 := 2

def T_DEVICE : BitVec 16 := 3

/-- `struct dinode` -/
structure Vol.Dinode where
  type : BitVec 16
  major : BitVec 16
  minor : BitVec 16
  nlink : BitVec 16
  size : Nat
  addrs : Fin (NDIRECT + 1) → Nat

/-- `struct inode`, an entry of the inode table, with its copy of the dinode. -/
structure Vol.Inode where
  inum : Nat
  ref : Int
  locked : Bool
  valid : Bool
  copy : Vol.Dinode

/-- The disk as the running process sees it. -/
structure Vol where
  sb : Superblock
  disk : Disk
  /-- the data of the valid buffers -/
  cache : Nat → Option Block
  log : LogState
  written : Finset Nat
  itable : Fin NINODE → Vol.Inode
  ftable : Fin NFILE → File
  ofile : Fin NOFILE → Option (Fin NFILE)
  cwd : Fin NINODE

inductive VolPanic
  | log (e : LogPanic)
  /-- `"balloc: out of blocks"` -/
  | ballocOutOfBlocks
  /-- `"bmap: out of range"` -/
  | bmapOutOfRange
  deriving DecidableEq

abbrev VolM (A : Type) := Prog Vol (VolPanic × Vol) A

namespace Vol

/-! ### Buffers and the log -/

def buf (s : Vol) (b : Nat) : Block := (s.cache b).getD (s.disk b)

def setBuf (s : Vol) (b : Nat) (data : Block) : Vol :=
  { s with cache := update s.cache b (some data) }

def panic {A : Type} (e : VolPanic) : VolM A := do throw (e, ← get)

/-- The data of a locked buffer with the contents of the block. -/
def bread (b : Nat) : VolM Block := do return (← get).buf b

/-- Assign to the data of a locked buffer. -/
def put (b : Nat) (data : Block) : VolM Unit := modify fun s => s.setBuf b data

def logWrite (b : Nat) : VolM Unit := do
  match (← get).log.logWrite b with
  | .error e => panic (.log e)
  | .ok (log, _) => modify fun s => { s with log := log, written := insert b s.written }

/-! ### Blocks -/

def bzero (b : Nat) : VolM Unit := do
  put b Bytes.zero
  logWrite b

/-- The inner loop of `balloc`: the first clear bit of the bitmap block that starts with block `b`.
-/
def clearBitFrom (size b : Nat) (data : Block) : Option Nat :=
  (List.range (min BPB (size - b))).find? fun bi => data.bitClear bi

/-- The outer loop of `balloc`. -/
def ballocFrom : Nat → Nat → VolM Nat
  | 0, _ => panic .ballocOutOfBlocks
  | fuel + 1, b => do
    let sb := (← get).sb
    if b < sb.size then
      let data ← bread (BBLOCK b sb)
      match clearBitFrom sb.size b data with
      | some bi =>
        put (BBLOCK b sb) (data.setBit bi)
        logWrite (BBLOCK b sb)
        bzero (b + bi)
        return b + bi
      | none => ballocFrom fuel (b + BPB)
    else panic .ballocOutOfBlocks

def balloc : VolM Nat := do ballocFrom ((← get).sb.size / BPB + 1) 0

/-! ### Inodes -/

def getDinode (data : Block) (k : Nat) : Dinode where
  type := BitVec.ofNat 16 (data.le16 (64 * k))
  major := BitVec.ofNat 16 (data.le16 (64 * k + 2))
  minor := BitVec.ofNat 16 (data.le16 (64 * k + 4))
  nlink := BitVec.ofNat 16 (data.le16 (64 * k + 6))
  size := data.le32 (64 * k + 8)
  addrs := fun a => data.le32 (64 * k + 12 + 4 * a.val)

def putDinode (data : Block) (k : Nat) (d : Dinode) : Block :=
  let data := data.setLe16 (64 * k) d.type.toNat
  let data := data.setLe16 (64 * k + 2) d.major.toNat
  let data := data.setLe16 (64 * k + 4) d.minor.toNat
  let data := data.setLe16 (64 * k + 6) d.nlink.toNat
  let data := data.setLe32 (64 * k + 8) d.size
  data.setLe32s (64 * k + 12) (List.ofFn d.addrs)

def dinode (s : Vol) (inum : Nat) : Dinode := getDinode (s.buf (IBLOCK inum s.sb)) (inum % IPB)

def setInode (s : Vol) (i : Fin NINODE) (ip : Inode) : Vol :=
  { s with itable := update s.itable i ip }

/-- Change the fields that are on disk, in memory only. -/
def setCopy (s : Vol) (i : Fin NINODE) (d : Dinode) : Vol :=
  s.setInode i { s.itable i with copy := d }

/-! ### Inode content -/

def setAddr (s : Vol) (i : Fin NINODE) (k : Fin (NDIRECT + 1)) (addr : Nat) : Vol :=
  let d := (s.itable i).copy
  s.setCopy i { d with addrs := update d.addrs k addr }

/-- The entry of `ip->addrs`, with a new block if there is none yet. -/
def addrOrAlloc (i : Fin NINODE) (k : Fin (NDIRECT + 1)) : VolM Nat := do
  let addr := ((← get).itable i).copy.addrs k
  if addr = 0 then
    let addr ← balloc
    modify fun s => s.setAddr i k addr
    return addr
  else return addr

/-- The disk block address of the block `bn` in an inode, allocating one if there is none. -/
def bmap (i : Fin NINODE) (bn : Nat) : VolM Nat := do
  if direct : bn < NDIRECT then addrOrAlloc i ⟨bn, by omega⟩
  else if bn - NDIRECT < NINDIRECT then
    -- load indirect block, allocating if necessary
    let ind ← addrOrAlloc i (Fin.last NDIRECT)
    let a ← bread ind
    let addr := a.le32 (4 * (bn - NDIRECT))
    if addr = 0 then
      let addr ← balloc
      let a ← bread ind
      put ind (a.setLe32 (4 * (bn - NDIRECT)) addr)
      logWrite ind
      return addr
    else return addr
  else panic .bmapOutOfRange

end Vol

/-! ### Copies from and to user memory -/

/-- The memory of a process: which pages its page table maps for the user, and the bytes. -/
structure UserMem where
  mapped : Nat → Bool
  byte : Nat → Byte

namespace UserMem

def walkaddr (u : UserMem) (va : Nat) : Bool := va < MAXVA && u.mapped (va / PGSIZE)

/-- The loop of `copyin` and `copyout`: how many bytes are copied, and whether that is all. The
first argument is fuel; every round copies a byte. -/
def reach (u : UserMem) : Nat → Nat → Nat → Nat × Bool
  | 0, _, _ => (0, true)
  | fuel + 1, va, len =>
    if 0 < len then
      let va0 := va / PGSIZE * PGSIZE
      if u.walkaddr va0 then
        let n := min (PGSIZE - (va - va0)) len
        let rest := u.reach fuel (va0 + PGSIZE) (len - n)
        (n + rest.1, rest.2)
      else (0, false)
    else (0, true)

/-- Copy from user to kernel: the bytes that are copied, and whether that is all. -/
def copyin (u : UserMem) (srcva len : Nat) : List Byte × Bool :=
  let r := u.reach len srcva len
  ((List.range r.1).map fun j => u.byte (srcva + j), r.2)

/-- Copy from kernel to user: the bytes that arrive, and whether they are all. -/
def copyout (u : UserMem) (dstva : Nat) (bytes : List Byte) : List Byte × Bool :=
  let r := u.reach bytes.length dstva bytes.length
  (bytes.take r.1, r.2)

end UserMem

/-- Where `readi` puts its bytes. -/
inductive Dest
  | kernel
  | user (u : UserMem) (dst : Nat)

/-- `either_copyout`, after the first `tot` bytes. -/
def Dest.eitherCopyout (dst : Dest) (tot : Nat) (bytes : List Byte) : List Byte × Bool :=
  match dst with
  | .kernel => (bytes, true)
  | .user u dst => u.copyout (dst + tot) bytes

namespace Vol

/-! ### Reading -/

/-- The loop of `readi`, with the bytes that have arrived. -/
def readiLoop (i : Fin NINODE) (dst : Dest) (n : Nat) :
    Nat → Nat → Nat → List Byte → VolM (Int × List Byte)
  | 0, tot, _, got => return (tot, got)
  | fuel + 1, tot, off, got => do
    if tot < n then
      let data ← bread (← bmap i (off / BSIZE))
      let m := min (n - tot) (BSIZE - off % BSIZE)
      let sent := dst.eitherCopyout tot (data.slice (off % BSIZE) m)
      if sent.2 then readiLoop i dst n fuel (tot + m) (off + m) (got ++ sent.1)
      else return (-1, got ++ sent.1)
    else return (tot, got)

def readi (i : Fin NINODE) (dst : Dest) (off n : Nat) : VolM (Int × List Byte) := do
  let size := ((← get).itable i).copy.size
  if off > size ∨ (off + n) % 2 ^ 32 < off then return (0, [])
  else
    let n := if (off + n) % 2 ^ 32 > size then size - off else n
    readiLoop i dst n n 0 off []

/-! ### Directories -/

/-- A `struct dirent` with the name copied by `strncpy`. -/
def dirent (name : Name) (inum : Nat) : List Byte :=
  [BitVec.ofNat 8 inum, BitVec.ofNat 8 (inum / 256)] ++ name.take DIRSIZ ++
    List.replicate (DIRSIZ - name.length) 0

end Vol

end Xv6
