/-
**Physical memory and page tables** (`kernel/kalloc.c`, `kernel/vm.c`, `kernel/riscv.h`).

The state is a `Ram`: the bytes of physical memory, and the free list of `kalloc`. The kernel runs
with physical memory mapped at the same addresses, so a pointer is a physical address, and a page
table is the address of its root page. The free list is also kept in the pages themselves, as in the
source; the list in the state is what following the pointers gives (`Xv6.Vm.Kalloc`).

`grants` says which of the coming calls of `kalloc` get a page: another hart may have taken the last
one, so that a call can fail at any point.
-/

import Xv6.Params
import Xv6.Lib.Hoare
import Xv6.Lib.Memory

namespace Xv6.Vm

open Lib

/-- What the linker decides. -/
class KernelImage where
  /-- `end`, the first address after the kernel -/
  kend : Nat
  /-- the page of the trampoline code -/
  trampoline : Nat
  aligned : trampoline % PGSIZE = 0
  inText : KERNBASE ≤ trampoline ∧ trampoline + PGSIZE ≤ kend
  inRam : kend ≤ PHYSTOP

structure Ram where
  mem : Memory
  /-- `kmem.freelist` -/
  freelist : List Nat
  /-- whether the coming calls of `kalloc` find the list as it is, or empty -/
  grants : Nat → Bool

inductive VmPanic
  /-- `"kfree"` -/
  | kfree
  /-- `"walk"` -/
  | walk
  /-- `"mappages: size"` -/
  | mappagesSize
  /-- `"mappages: remap"` -/
  | mappagesRemap
  /-- `"uvmunmap: not aligned"` -/
  | uvmunmapNotAligned
  /-- `"uvmunmap: walk"` -/
  | uvmunmapWalk
  /-- `"uvmunmap: not mapped"` -/
  | uvmunmapNotMapped
  /-- `"uvmunmap: not a leaf"` -/
  | uvmunmapNotLeaf
  /-- `"freewalk: leaf"` -/
  | freewalkLeaf
  /-- the recursion of `freewalk` runs deeper than a page table -/
  | freewalkDepth
  /-- `"uvmcopy: pte should exist"` -/
  | uvmcopyPte
  /-- `"uvmcopy: page not present"` -/
  | uvmcopyPage
  /-- `"uvmclear"` -/
  | uvmclear
  /-- `"loadseg: address should exist"` -/
  | loadsegAddress
  deriving DecidableEq

abbrev VmM (A : Type) := Prog Ram VmPanic A

/-! ### `riscv.h` -/

def PGROUNDUP (sz : Nat) : Nat := (sz + PGSIZE - 1) % 2 ^ 64 / PGSIZE * PGSIZE

def PGROUNDDOWN (a : Nat) : Nat := a / PGSIZE * PGSIZE

def PTE_V : Nat := 1

def PTE_R : Nat := 2

def PTE_W : Nat := 4

def PTE_X : Nat := 8

def PTE_U : Nat := 16

/-- Shift a physical address to the right place for a PTE. -/
def PA2PTE (pa : Nat) : Nat := pa >>> 12 <<< 10

def PTE2PA (pte : Nat) : Nat := (pte >>> 10 <<< 12) % 2 ^ 64

def PTE_FLAGS (pte : Nat) : Nat := pte &&& 0x3FF

/-- The 9-bit page table index at a level. -/
def PX (level va : Nat) : Nat := va >>> (12 + 9 * level) &&& 0x1FF

namespace Ram

/-! ### `kalloc.c` -/

def load (s : Ram) (a : Nat) : Nat := Memory.le 8 s.mem a

def store (s : Ram) (a v : Nat) : Ram := { s with mem := Memory.setLe 8 s.mem a v }

/-- `memset(a, v, PGSIZE)` -/
def fillPage (s : Ram) (a : Nat) (v : Byte) : Ram := { s with mem := s.mem.fill a PGSIZE v }

def push (s : Ram) (pa : Nat) : Ram :=
  { (s.fillPage pa 1).store pa (s.freelist.headD 0) with freelist := pa :: s.freelist }

end Ram

section Machine

variable [KernelImage]

def kfree (pa : Nat) : VmM Unit := do
  if pa % PGSIZE ≠ 0 ∨ pa < KernelImage.kend ∨ PHYSTOP ≤ pa then throw .kfree
  modify fun s => s.push pa

def kalloc : VmM (Option Nat) := do
  let s ← get
  modify fun s => { s with grants := fun n => s.grants (n + 1) }
  match s.freelist with
  | [] => return none
  | r :: rest =>
    if s.grants 0 then
      modify fun s => { s with freelist := rest }
      modify fun s => s.fillPage r 5
      return some r
    else return none

/-! ### `vm.c` -/

def loadPte (pte : Nat) : VmM Nat := do return (← get).load pte

def storePte (pte v : Nat) : VmM Unit := modify fun s => s.store pte v

/-- The loop of `walk`, from a page-table page at a level on. -/
def walkFrom (alloc : Bool) (va : Nat) : Nat → Nat → VmM (Option Nat)
  | 0, pagetable => return some (pagetable + 8 * PX 0 va)
  | level + 1, pagetable => do
    let pte := pagetable + 8 * PX (level + 1) va
    let v ← loadPte pte
    if v &&& PTE_V ≠ 0 then walkFrom alloc va level (PTE2PA v)
    else if !alloc then return none
    else
      match ← kalloc with
      | none => return none
      | some pagetable =>
        modify fun s => s.fillPage pagetable 0
        storePte pte (PA2PTE pagetable ||| PTE_V)
        walkFrom alloc va level pagetable

/-- The address of the PTE for a virtual address. -/
def walk (pagetable va : Nat) (alloc : Bool) : VmM (Option Nat) := do
  if MAXVA ≤ va then throw .walk
  walkFrom alloc va 2 pagetable

/-- The physical address of a user page, or 0. -/
def walkaddr (pagetable va : Nat) : VmM Nat := do
  if MAXVA ≤ va then return 0
  else
    match ← walk pagetable va false with
    | none => return 0
    | some pte =>
      let v ← loadPte pte
      if v &&& PTE_V = 0 then return 0
      else if v &&& PTE_U = 0 then return 0
      else return PTE2PA v

/-- The loop of `mappages`. It ends in `walk` when `a` passes `MAXVA`. -/
def mappagesLoop (pagetable last perm : Nat) : Nat → Nat → Nat → VmM Int
  | 0, _, _ => throw .walk
  | fuel + 1, a, pa => do
    match ← walk pagetable a true with
    | none => return -1
    | some pte =>
      let v ← loadPte pte
      if v &&& PTE_V ≠ 0 then throw .mappagesRemap
      storePte pte (PA2PTE pa ||| perm ||| PTE_V)
      if a = last then return 0
      else mappagesLoop pagetable last perm fuel (a + PGSIZE) ((pa + PGSIZE) % 2 ^ 64)

/-- Create PTEs for the pages that overlap `size` bytes from `va` on. -/
def mappages (pagetable va size pa perm : Nat) : VmM Int := do
  if size = 0 then throw .mappagesSize
  mappagesLoop pagetable (PGROUNDDOWN ((va + size - 1) % 2 ^ 64)) perm (MAXVA / PGSIZE + 1)
    (PGROUNDDOWN va) pa

def uvmunmapLoop (pagetable limit : Nat) (doFree : Bool) : Nat → Nat → VmM Unit
  | 0, _ => return ()
  | fuel + 1, a => do
    if a < limit then
      match ← walk pagetable a false with
      | none => throw .uvmunmapWalk
      | some pte =>
        let v ← loadPte pte
        if v &&& PTE_V = 0 then throw .uvmunmapNotMapped
        if PTE_FLAGS v = PTE_V then throw .uvmunmapNotLeaf
        if doFree then kfree (PTE2PA v)
        storePte pte 0
        uvmunmapLoop pagetable limit doFree fuel (a + PGSIZE)
    else return ()

def uvmunmap (pagetable va npages : Nat) (doFree : Bool) : VmM Unit := do
  if va % PGSIZE ≠ 0 then throw .uvmunmapNotAligned
  uvmunmapLoop pagetable ((va + npages * PGSIZE) % 2 ^ 64) doFree npages va

def uvmcreate : VmM (Option Nat) := do
  match ← kalloc with
  | none => return none
  | some pagetable =>
    modify fun s => s.fillPage pagetable 0
    return some pagetable

/-- A 32-bit integer, converted to 64 bits. -/
def ofInt (n : Nat) : Nat := ((BitVec.ofNat 32 n).toInt % 2 ^ 64).toNat

def uvmdealloc (pagetable oldsz newsz : Nat) : VmM Nat := do
  if oldsz ≤ newsz then return oldsz
  else
    if PGROUNDUP newsz < PGROUNDUP oldsz then
      let npages := ofInt ((PGROUNDUP oldsz - PGROUNDUP newsz) / PGSIZE)
      uvmunmap pagetable (PGROUNDUP newsz) npages true
    return newsz

/-- The loop of `uvmalloc`; `oldsz` is rounded up. -/
def uvmallocLoop (pagetable oldsz newsz : Nat) : Nat → Nat → VmM Nat
  | 0, _ => return newsz
  | fuel + 1, a => do
    if a < newsz then
      match ← kalloc with
      | none =>
        let _ ← uvmdealloc pagetable a oldsz
        return 0
      | some mem =>
        modify fun s => s.fillPage mem 0
        if (← mappages pagetable a PGSIZE mem (PTE_W ||| PTE_X ||| PTE_R ||| PTE_U)) ≠ 0 then
          kfree mem
          let _ ← uvmdealloc pagetable a oldsz
          return 0
        else uvmallocLoop pagetable oldsz newsz fuel (a + PGSIZE)
    else return newsz

/-- Allocate PTEs and physical memory to grow a process from `oldsz` to `newsz`; 0 on error. -/
def uvmalloc (pagetable oldsz newsz : Nat) : VmM Nat := do
  if newsz < oldsz then return oldsz
  else
    let oldsz := PGROUNDUP oldsz
    uvmallocLoop pagetable oldsz newsz ((newsz - oldsz) / PGSIZE + 1) oldsz

/-- Run a program for every PTE of a page-table page. -/
def forPtes (f : Nat → VmM Unit) : List Nat → VmM Unit
  | [] => return ()
  | i :: rest => do
    f i
    forPtes f rest

/-- Recursively free page-table pages. The first argument bounds the depth of the recursion. -/
def freewalk : Nat → Nat → VmM Unit
  | 0, _ => throw .freewalkDepth
  | depth + 1, pagetable => do
    forPtes (fun i => do
      let pte ← loadPte (pagetable + 8 * i)
      if pte &&& PTE_V ≠ 0 ∧ pte &&& (PTE_R ||| PTE_W ||| PTE_X) = 0 then
        freewalk depth (PTE2PA pte)
        storePte (pagetable + 8 * i) 0
      else if pte &&& PTE_V ≠ 0 then throw .freewalkLeaf
      else return ()) (List.range 512)
    kfree pagetable

def uvmfree (pagetable sz : Nat) : VmM Unit := do
  if 0 < sz then uvmunmap pagetable 0 (PGROUNDUP sz / PGSIZE) true
  freewalk 4 pagetable

def uvmcopyLoop (old new sz : Nat) : Nat → Nat → VmM Int
  | 0, _ => return 0
  | fuel + 1, i => do
    if i < sz then
      match ← walk old i false with
      | none => throw .uvmcopyPte
      | some pte =>
        let v ← loadPte pte
        if v &&& PTE_V = 0 then throw .uvmcopyPage
        match ← kalloc with
        | none =>
          uvmunmap new 0 (i / PGSIZE) true
          return -1
        | some mem =>
          modify fun s => { s with mem := s.mem.move mem (PTE2PA v) PGSIZE }
          if (← mappages new i PGSIZE mem (PTE_FLAGS v)) ≠ 0 then
            kfree mem
            uvmunmap new 0 (i / PGSIZE) true
            return -1
          else uvmcopyLoop old new sz fuel (i + PGSIZE)
    else return 0

def uvmcopy (old new sz : Nat) : VmM Int := uvmcopyLoop old new sz (sz / PGSIZE + 1) 0

def uvmclear (pagetable va : Nat) : VmM Unit := do
  match ← walk pagetable va false with
  | none => throw .uvmclear
  | some pte =>
    let v ← loadPte pte
    storePte pte (v - (v &&& PTE_U))

/-- The loop of `copyout`. The first argument is fuel; every round copies a byte. -/
def copyoutLoop (pagetable : Nat) : Nat → Nat → List Byte → VmM Int
  | 0, _, _ => return 0
  | fuel + 1, dstva, src => do
    if 0 < src.length then
      let va0 := PGROUNDDOWN dstva
      let pa0 ← walkaddr pagetable va0
      if pa0 = 0 then return -1
      else
        let n := min (PGSIZE - (dstva - va0)) src.length
        modify fun s => { s with mem := s.mem.write (pa0 + (dstva - va0)) (src.take n) }
        copyoutLoop pagetable fuel ((va0 + PGSIZE) % 2 ^ 64) (src.drop n)
    else return 0

def copyout (pagetable dstva : Nat) (src : List Byte) : VmM Int :=
  copyoutLoop pagetable src.length dstva src

/-- The loop of `copyin`, with the bytes copied so far. -/
def copyinLoop (pagetable : Nat) : Nat → Nat → Nat → List Byte → VmM (Int × List Byte)
  | 0, _, _, dst => return (0, dst)
  | fuel + 1, srcva, len, dst => do
    if 0 < len then
      let va0 := PGROUNDDOWN srcva
      let pa0 ← walkaddr pagetable va0
      if pa0 = 0 then return (-1, dst)
      else
        let n := min (PGSIZE - (srcva - va0)) len
        let bytes := (← get).mem.read (pa0 + (srcva - va0)) n
        copyinLoop pagetable fuel ((va0 + PGSIZE) % 2 ^ 64) (len - n) (dst ++ bytes)
    else return (0, dst)

/-- Copy from user to kernel: the result, and the bytes that are copied. -/
def copyin (pagetable srcva len : Nat) : VmM (Int × List Byte) :=
  copyinLoop pagetable len srcva len []

end Machine

end Xv6.Vm
