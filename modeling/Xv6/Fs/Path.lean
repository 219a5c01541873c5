/-
**Directories and path names** (`kernel/fs.c`).

`namex` walks the elements of a path, which `skipelem` takes off one by one.
-/

import Xv6.Fs.Inode

namespace Xv6

open Lib

variable {P : Type}

/-! ### Directories -/

/-- The entries a directory file can hold. -/
def MAXDIRENTS : Nat := MAXFILE * BSIZE / 16

/-- The entry that `dirlookup` stops at, with its index. -/
def findEntry (entries : List Dirent) (name : Name) : Option (Nat × Dirent) :=
  (entries.zipIdx.find? fun e => e.1.inum ≠ 0 ∧ e.1.name = name).map fun e => (e.2, e.1)

/-- The entry that is found is used and has the name. -/
theorem findEntry_some {entries : List Dirent} {name : Name} {off : Nat} {de : Dirent}
    (found : findEntry entries name = some (off, de)) :
    entries[off]? = some de ∧ de.inum ≠ 0 ∧ de.name = name := by
  obtain ⟨⟨e, k⟩, first, same⟩ := Option.map_eq_some_iff.mp found
  cases same
  have holds := List.find?_some first
  have member := List.mem_zipIdx_iff_getElem?.mp (List.mem_of_find?_eq_some first)
  simp only [ne_eq, decide_eq_true_eq] at holds
  exact ⟨member, holds⟩

theorem findEntry_none {entries : List Dirent} {name : Name} {e : Dirent}
    (absent : findEntry entries name = none) (member : e ∈ entries) (used : e.inum ≠ 0) :
    e.name ≠ name := by
  intro same
  obtain ⟨k, here⟩ := List.mem_iff_getElem?.mp member
  have none :=
    List.find?_eq_none.mp (Option.map_eq_none_iff.mp absent) (e, k)
    (List.mem_zipIdx_iff_getElem?.mpr here)
  simp [used, same] at none

/-- Look for an entry in a directory; the index of the entry is `*poff`. -/
def dirlookup (dp : Fin NINODE) (name : Name) : FsM P (Option (Fin NINODE × Nat)) := do
  let s ← get
  if (s.itable dp).type ≠ .dir then throw .dirlookupNotDir
  match findEntry (s.disk (s.itable dp).inum).entries name with
  | none => return none
  | some (off, de) =>
    let ip ← iget de.inum
    return some (ip, off)

/-- The entries with one written at an index that is at most their number. -/
def putEntry (entries : List Dirent) (off : Nat) (de : Dirent) : List Dirent :=
  if off < entries.length then entries.set off de else entries ++ [de]

/-- `writei` of one entry into a directory. -/
def writeEntry (dp : Fin NINODE) (off : Nat) (de : Dirent) : FsM P Unit := do
  modify fun s =>
    let d := s.disk (s.itable dp).inum
    s.setDinode (s.itable dp).inum { d with entries := putEntry d.entries off de }
  iupdate dp

/-- The first empty entry, or the end of the directory. -/
def emptyEntry (entries : List Dirent) : Nat := entries.findIdx fun de => de.inum = 0

/-- Write a new entry into a directory; `false` is the return value -1. -/
def dirlink (dp : Fin NINODE) (name : Name) (inum : Nat) : FsM P Bool := do
  match ← dirlookup dp name with
  | some (ip, _) =>
    iput ip
    return false
  | none =>
    let s ← get
    let off := emptyEntry (s.disk (s.itable dp).inum).entries
    if off ≥ MAXDIRENTS then throw .dirlink
    -- `de.inum` is a `ushort`
    writeEntry dp off ⟨inum % 2 ^ 16, name⟩
    return true

/-! ### Paths -/

def slash : Byte := 0x2f

def dot : Name := [0x2e]

def dotdot : Name := [0x2e, 0x2e]

/-- Copy the next path element into `name` and return the rest. -/
def skipelem (path : List Byte) : Option (Name × List Byte) :=
  match path.dropWhile (· = slash) with
  | [] => none
  | c :: rest =>
    let path := c :: rest
    some ((path.takeWhile (· ≠ slash)).take DIRSIZ,
      (path.dropWhile (· ≠ slash)).dropWhile (· = slash))

/-- The elements that repeated calls of `skipelem` give. -/
def elements : Nat → List Byte → List Name
  | 0, _ => []
  | fuel + 1, path =>
    match skipelem path with
    | none => []
    | some (name, rest) => name :: elements fuel rest

/-- The loop of `namex`. With `parent` it stops one level early and gives the last element. -/
def namexFrom (parent : Bool) (ip : Fin NINODE) : List Name → FsM P (Option (Fin NINODE × Name))
  | [] => do
    if parent then
      iput ip
      return none
    return some (ip, [])
  | name :: rest => do
    ilock ip
    let s ← get
    if (s.itable ip).type ≠ .dir then
      iunlockput ip
      return none
    if parent ∧ rest = [] then
      iunlock ip
      return some (ip, name)
    match ← dirlookup ip name with
    | none =>
      iunlockput ip
      return none
    | some (next, _) =>
      iunlockput ip
      namexFrom parent next rest

def namexStart (p : P) (path : List Byte) : FsM P (Fin NINODE) := do
  if path.head? = some slash then iget ROOTINO
  else
    let s ← get
    match s.cwd p with
    | some i => idup i
    | none => throw .badPointer

/-- Look up the inode for a path name, or its parent and the last element. -/
def namex (p : P) (path : List Byte) (parent : Bool) : FsM P (Option (Fin NINODE × Name)) := do
  let ip ← namexStart p path
  namexFrom parent ip (elements path.length path)

def namei (p : P) (path : List Byte) : FsM P (Option (Fin NINODE)) := do
  return (← namex p path false).map Prod.fst

def nameiparent (p : P) (path : List Byte) : FsM P (Option (Fin NINODE × Name)) := namex p path true

/-- Is the directory empty except for `.` and `..`? -/
def isdirempty (s : Fs P) (dp : Fin NINODE) : Bool :=
  ((s.disk (s.itable dp).inum).entries.drop 2).all fun de => de.inum = 0

end Xv6
