/-
**Building a file system image** (`mkfs/mkfs.c`).

The state is the image file with the counters `freeinode` and `freeblock`. A program ends in `Stop`
when `mkfs` calls `die` or an assertion fails. `xint` and `xshort` convert to the byte order of the
disk, which is how the accessors of `Lib.Bytes` store integers.

The kernel reads such an image with `readsb` and its own `IBLOCK`, `BBLOCK` and `struct dinode`, so
these are shared with `Xv6.Fs`.
-/

import Xv6.Fs.Ownership

namespace Xv6.Mkfs

open Lib Vol

def NINODES : Nat := 200

def nbitmap : Nat := FSSIZE / (BSIZE * 8) + 1

def ninodeblocks : Nat := NINODES / IPB + 1

def nlog : Nat := LOGSIZE

/-- Number of meta blocks (boot, sb, nlog, inode, bitmap). -/
def nmeta : Nat := 2 + nlog + ninodeblocks + nbitmap

def nblocks : Nat := FSSIZE - nmeta

def FSMAGIC : Nat := 0x10203040

/-- The superblock that `main` fills in. -/
def sb : Superblock where
  size := FSSIZE
  nblocks := nblocks
  ninodes := NINODES
  inodestart := 2 + nlog
  bmapstart := 2 + nlog + ninodeblocks

def superblock : Block :=
  Bytes.setLe32s Bytes.zero 0
    [FSMAGIC, sb.size, sb.nblocks, sb.ninodes, nlog, 2, sb.inodestart, sb.bmapstart]

def readsb (data : Block) : Superblock where
  size := data.le32 4
  nblocks := data.le32 8
  ninodes := data.le32 12
  inodestart := data.le32 24
  bmapstart := data.le32 28

/-- The image file, and the next free inode and block. -/
structure Image where
  disk : Disk
  /-- the length of the file in blocks -/
  sectors : Nat
  freeinode : Nat
  freeblock : Nat

/-- How `mkfs` ends early. -/
inductive Stop
  /-- `die`: `exit(1)` -/
  | die
  /-- a failed assertion -/
  | abort
  deriving DecidableEq

abbrev MkfsM (A : Type) := Prog Image Stop A

/-- The block at the file offset `sec * BSIZE`, which is an unsigned int. -/
def sector (sec : Nat) : Nat := sec * BSIZE % 2 ^ 32 / BSIZE

/-- Reading beyond the end of the file gives fewer bytes than asked for. -/
def rsect (sec : Nat) : MkfsM Block := do
  let s ← get
  if sector sec < s.sectors then return s.disk (sector sec) else throw .die

/-- Writing beyond the end of the file extends it. -/
def wsect (sec : Nat) (data : Block) : MkfsM Unit :=
  modify fun s =>
    { s with
      disk := Function.update s.disk (sector sec) data, sectors := max s.sectors (sector sec + 1) }

def winode (inum : Nat) (d : Vol.Dinode) : MkfsM Unit := do
  let data ← rsect (IBLOCK inum sb)
  wsect (IBLOCK inum sb) (putDinode data (inum % IPB) d)

def rinode (inum : Nat) : MkfsM Vol.Dinode := do
  return getDinode (← rsect (IBLOCK inum sb)) (inum % IPB)

def newNode (type : BitVec 16) : Vol.Dinode := ⟨type, 0, 0, 1, 0, fun _ => 0⟩

def ialloc (type : BitVec 16) : MkfsM Nat := do
  let inum := (← get).freeinode
  modify fun s => { s with freeinode := inum + 1 }
  winode inum (newNode type)
  return inum

/-- `freeblock++` -/
def newBlock : MkfsM Nat := do
  let b := (← get).freeblock
  modify fun s => { s with freeblock := b + 1 }
  return b

/-- The inode that `iappend` has loaded, with an indirect block. -/
def indirectOf (din : Vol.Dinode) : MkfsM Vol.Dinode := do
  if din.indirect = 0 then
    let b ← newBlock
    return din.setAddr (Fin.last NDIRECT) b
  else return din

/-- The entry for the block `fbn` in the indirect block, a new one if there is none. -/
def entryOf (din : Vol.Dinode) (fbn : Nat) : MkfsM (Vol.Dinode × Nat) := do
  let indirect ← rsect din.indirect
  if indirect.le32 (4 * (fbn - NDIRECT)) = 0 then
    let b ← newBlock
    wsect din.indirect (indirect.setLe32 (4 * (fbn - NDIRECT)) b)
    return (din, b)
  else return (din, indirect.le32 (4 * (fbn - NDIRECT)))

/-- The block `fbn` of the inode that `iappend` has loaded, a new one if there is none: the loaded
inode after that, and the number of the block. -/
def blockOf (din : Vol.Dinode) (fbn : Nat) : MkfsM (Vol.Dinode × Nat) := do
  if direct : fbn < NDIRECT then
    if din.addrs ⟨fbn, Nat.lt_succ_of_lt direct⟩ = 0 then
      let b ← newBlock
      return (din.setAddr ⟨fbn, Nat.lt_succ_of_lt direct⟩ b, b)
    else return (din, din.addrs ⟨fbn, Nat.lt_succ_of_lt direct⟩)
  else entryOf (← indirectOf din) fbn

/-- The loop of `iappend`: what is left to append stands in the last argument. -/
def iappendLoop : Nat → Vol.Dinode → Nat → List Byte → MkfsM (Vol.Dinode × Nat)
  | 0, din, off, _ => return (din, off)
  | fuel + 1, din, off, p => do
    if 0 < p.length then
      let fbn := off / BSIZE
      if fbn < MAXFILE then
        let (din, x) ← blockOf din fbn
        let n1 := min p.length ((fbn + 1) * BSIZE - off)
        let buf ← rsect x
        wsect x (buf.splice (off - fbn * BSIZE) (p.take n1))
        iappendLoop fuel din (off + n1) (p.drop n1)
      else throw .abort
    else return (din, off)

def iappend (inum : Nat) (p : List Byte) : MkfsM Unit := do
  let din ← rinode inum
  let (din, off) ← iappendLoop p.length din din.size p
  winode inum { din with size := off }

/-- The loop of `balloc`. -/
def usedBits : Nat → Block
  | 0 => Bytes.zero
  | used + 1 => (usedBits used).setBit used

def balloc (used : Nat) : MkfsM Unit := do
  if used < BSIZE * 8 then wsect sb.bmapstart (usedBits used) else throw .abort

def zeroBlocks : Nat → MkfsM Unit
  | 0 => return ()
  | n + 1 => do
    zeroBlocks n
    wsect n Bytes.zero

/-- An input file: `argv[i]`, and what `read` returns for it piece by piece, if it can be opened. -/
structure Input where
  arg : List Byte
  data : Option (List (List Byte))

/-- `"user/"` -/
def userDir : List Byte := [0x75, 0x73, 0x65, 0x72, 0x2f]

/-- The name without the leading `user/`. -/
def Input.shortname (f : Input) : List Byte :=
  if userDir.isPrefixOf f.arg then f.arg.drop 5 else f.arg

/-- The name in the root directory: a leading `_` is skipped. -/
def Input.name (f : Input) : List Byte :=
  if f.shortname.head? = some 0x5f then f.shortname.tail else f.shortname

/-- The pieces of a file are appended one by one. -/
def appendAll (inum : Nat) : List (List Byte) → MkfsM Unit
  | [] => return ()
  | chunk :: rest => do
    iappend inum chunk
    appendAll inum rest

def addFile (f : Input) : MkfsM Unit := do
  if f.shortname.contains slash then throw .abort
  match f.data with
  | none => throw .die
  | some chunks =>
    let inum ← ialloc T_FILE
    iappend ROOTINO (dirent f.name inum)
    appendAll inum chunks

def addFiles : List Input → MkfsM Unit
  | [] => return ()
  | f :: rest => do
    addFile f
    addFiles rest

/-- The root directory is extended to whole blocks. -/
def fixRoot : MkfsM Unit := do
  let din ← rinode ROOTINO
  winode ROOTINO { din with size := (din.size / BSIZE + 1) * BSIZE }

/-- The blocks are zeroed, and the superblock is written. -/
def format : MkfsM Unit := do
  modify fun s => { s with freeblock := nmeta }
  zeroBlocks FSSIZE
  wsect 1 superblock

def main (files : List Input) : MkfsM Unit := do
  format
  let rootino ← ialloc T_DIR
  if rootino ≠ ROOTINO then throw .abort
  iappend ROOTINO (dirent dot rootino)
  iappend ROOTINO (dirent dotdot rootino)
  addFiles files
  fixRoot
  balloc (← get).freeblock

def start : Image where
  disk := fun _ => Bytes.zero
  sectors := 0
  freeinode := 1
  freeblock := 0

end Xv6.Mkfs
