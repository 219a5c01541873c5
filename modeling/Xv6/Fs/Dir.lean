/-
**Directories as files** (`kernel/fs.c`: `namecmp`, `dirlookup`, `dirlink`, with `readi`, `writei`
and `bmap` as they are used there; `kernel/string.c`: `strncmp`, `strncpy`; the write of
`sys_unlink`).

A directory is a file of entries of 16 bytes, and a name is the memory from a pointer on.
`dirlookup` takes a reference in the inode table, and a write may need new blocks: both can end in a
panic.

* `key`: the first `DIRSIZ` characters of a name up to the first 0. The directory is a map from
  keys.
* `directory_map`: what `dirlink` and the write of `sys_unlink` do to this map, while the inode
  table has a free entry and the disk the blocks that are needed; `directory_panics`, when they have
  not.
* `entries`: the directory as the list of entries of `Xv6.Fs.Path`, with `findEntry` for the lookup
  and `putEntry` for the writes (`finds_findEntry`, `Put.entries`, `dirlookup_refines`).
-/

import Xv6.Fs.Refs
import Xv6.Lib.Memory

namespace Xv6.Dir

open Lib Function

/-! ### Strings -/

def strncmp (p q : Memory) : Nat → Nat → Int
  | 0, _ => 0
  | n + 1, i => if p i ≠ 0 ∧ p i = q i then strncmp p q n (i + 1) else (p i).toNat - (q i).toNat

/-- `strncpy(s, t, n)`, from the characters `i` on. -/
def strncpy (t : Memory) : Nat → Nat → Memory → Memory
  | 0, _, s => s
  | n + 1, i, s =>
    if t i ≠ 0 then strncpy t n (i + 1) (update s i (t i))
    else Memory.fill (update s i (t i)) (i + 1) n 0

def namecmp (s t : Memory) : Int := strncmp s t DIRSIZ 0

/-! ### Keys -/

/-- The characters from `i` on up to the first 0, at most `n`. -/
def chars (s : Memory) : Nat → Nat → List Byte
  | 0, _ => []
  | n + 1, i => if s i = 0 then [] else s i :: chars s n (i + 1)

/-- **The key of a name**: its first `DIRSIZ` characters up to the first 0. -/
def key (s : Memory) : List Byte := chars s DIRSIZ 0

section Keys

variable {p q s t : Memory} {n i j : Nat}

/-- The characters depend on the bytes that are read. -/
theorem chars_congr :
    ∀ {n i : Nat}, (∀ j, i ≤ j → j < i + n → s j = t j) → chars s n i = chars t n i := by
  intro n
  induction n with
  | zero => exact fun _ => rfl
  | succ n ih =>
    intro i same
    rw [chars, chars, same i (Nat.le_refl i) (by omega),
      ih fun j low high => same j (by omega) (by omega)]

/-- `strncmp` compares keys: by induction on the number of characters left. -/
theorem strncmp_eq_zero : ∀ {n i : Nat}, strncmp p q n i = 0 ↔ chars p n i = chars q n i := by
  intro n
  induction n with
  | zero => exact fun {i} => ⟨fun _ => rfl, fun _ => rfl⟩
  | succ n ih =>
    intro i
    by_cases same : p i = q i
    · rw [strncmp, chars, chars, same]
      by_cases ends : q i = 0
      · simp [ends]
      · rw [if_pos ⟨ends, rfl⟩, if_neg ends, if_neg ends, ih, List.cons_inj_right]
    · have differ : ((p i).toNat : Int) - (q i).toNat ≠ 0 := by
        rwa [Ne, sub_eq_zero, Nat.cast_inj, BitVec.toNat_inj]
      rw [strncmp, if_neg fun goes => same goes.2]
      refine iff_of_false differ fun equal => ?_
      rw [chars, chars] at equal
      split_ifs at equal with endP endQ endQ
      · exact same (endP.trans endQ.symm)
      · exact same (List.cons.inj equal).1

theorem namecmp_eq_zero : namecmp p q = 0 ↔ key p = key q := strncmp_eq_zero

theorem strncpy_before : ∀ {n i : Nat} {s : Memory}, j < i → strncpy t n i s j = s j := by
  intro n
  induction n with
  | zero => exact fun _ => rfl
  | succ n ih =>
    intro i s before
    have other : j ≠ i := by omega
    rw [strncpy]
    split_ifs
    · rw [ih (by omega), update_of_ne other]
    · rw [Memory.fill_outside (.inl (by omega)), update_of_ne other]

theorem chars_strncpy : ∀ {n i : Nat} {s : Memory}, chars (strncpy t n i s) n i = chars t n i := by
  intro n
  induction n with
  | zero => exact rfl
  | succ n ih =>
    intro i s
    have first : strncpy t (n + 1) i s i = t i := by
      rw [strncpy]
      split_ifs
      · rw [strncpy_before (Nat.lt_succ_self i), update_self]
      · rw [Memory.fill_outside (.inl (Nat.lt_succ_self i)), update_self]
    rw [chars, chars, first]
    split_ifs with ends
    · rfl
    · rw [strncpy, if_pos ends, ih]

/-- **`strncpy` copies keys**, whatever was there before. -/
theorem key_strncpy : key (strncpy t DIRSIZ 0 s) = key t := chars_strncpy

end Keys

/-! ### The program -/

/-- The inode of a directory in memory, and what its blocks hold. `mapped` says which places of
`addrs`, and from `NDIRECT + 1` on of the indirect block, have a block. -/
structure DirFile where
  type : FType
  bytes : Memory
  size : Nat
  mapped : Nat → Bool

/-- The directory, the number of blocks that `balloc` can find, and the inode table. -/
structure DirSys (P : Type) where
  dir : DirFile
  blocks : Nat
  fs : Fs P

inductive DirPanic
  | fs (e : FsPanic)
  /-- `"balloc: out of blocks"` -/
  | ballocOutOfBlocks
  /-- `"bmap: out of range"` -/
  | bmapOutOfRange
  /-- `"dirlookup read"` -/
  | dirlookupRead
  /-- `"dirlink read"` -/
  | dirlinkRead
  /-- `"unlink: writei"` -/
  | unlinkWritei
  deriving DecidableEq

abbrev DirM (P A : Type) := Prog (DirSys P) DirPanic A

/-- `sizeof(struct dirent)` -/
def DIRENT : Nat := 16

def DirFile.inum (d : DirFile) (off : Nat) : Nat := d.bytes.le 2 off

def DirFile.name (d : DirFile) (off : Nat) : Memory := fun i => d.bytes (off + 2 + i)

def DirFile.withBlock (d : DirFile) (k : Nat) (new : Memory → Memory) : DirFile :=
  { d with mapped := fun j => j = k || d.mapped j, bytes := if d.mapped k then d.bytes
    else new d.bytes }

section Program

variable {P A : Type}

/-- A function of the inode table. -/
def onTable (x : FsM P A) : DirM P A := fun s =>
  match x s.fs with
  | .ok (a, fs) => .ok (a, { s with fs })
  | .error e => .error (.fs e)

/-- The place `k` gets a block from `balloc` if it has none; `new` is what a new block is for the
contents. -/
def addrOrAlloc (k : Nat) (new : Memory → Memory) : DirM P Unit := do
  let s ← get
  if s.dir.mapped k = false then
    if s.blocks = 0 then throw .ballocOutOfBlocks
    modify fun s => { s with blocks := s.blocks - 1, dir := s.dir.withBlock k new }

/-- The place of the block number of block `bn`. -/
def place (bn : Nat) : Nat := if bn < NDIRECT then bn else bn + 1

def bmap (bn : Nat) : DirM P Unit := do
  if MAXFILE ≤ bn then throw .bmapOutOfRange
  if NDIRECT ≤ bn then addrOrAlloc NDIRECT id
  -- `balloc` clears the block
  addrOrAlloc (place bn) fun m => m.fill (bn * BSIZE) BSIZE 0

/-- `readi(dp, 0, &de, off, n)`. An entry lies in one block, so that the loop has one round. -/
def readi (off n : Nat) : DirM P Nat := do
  let s ← get
  if s.dir.size < off then return 0
  let n := min n (s.dir.size - off)
  if 0 < n then bmap (off / BSIZE)
  return n

/-- `writei(dp, 0, &de, off, n)`, for an entry. -/
def writei (off : Nat) (src : List Byte) : DirM P Int := do
  let s ← get
  if s.dir.size < off ∨ MAXFILE * BSIZE < off + src.length then return -1
  bmap (off / BSIZE)
  modify fun s => { s with dir := { s.dir with
    bytes := s.dir.bytes.write off src
    size := max s.dir.size (off + src.length) } }
  return src.length

/-- The loop of `dirlookup`; the result is the inode number and `*poff`. -/
def lookFrom (size : Nat) (name : Memory) (off : Nat) : DirM P (Option (Nat × Nat)) :=
  if off < size then do
    let n ← readi off DIRENT
    if n ≠ DIRENT then throw .dirlookupRead
    let s ← get
    if s.dir.inum off ≠ 0 ∧ namecmp name (s.dir.name off) = 0 then return some (s.dir.inum off, off)
    else lookFrom size name (off + DIRENT)
  else return none
termination_by size - off
decreasing_by simp only [DIRENT]; omega

def dirlookup (name : Memory) : DirM P (Option (Fin NINODE × Nat)) := do
  let s ← get
  if s.dir.type ≠ .dir then throw (.fs .dirlookupNotDir)
  match ← lookFrom s.dir.size name 0 with
  | none => return none
  | some (inum, off) =>
    let ip ← onTable (iget inum)
    return some (ip, off)

/-- The loop of `dirlink`: the first free entry, or the end. -/
def freeFrom (size off : Nat) : DirM P Nat :=
  if off < size then do
    let n ← readi off DIRENT
    if n ≠ DIRENT then throw .dirlinkRead
    let s ← get
    if s.dir.inum off = 0 then return off
    else freeFrom size (off + DIRENT)
  else return off
termination_by size - off
decreasing_by simp only [DIRENT]; omega

/-- The bytes of a `struct dirent`. -/
def dirent (inum : Nat) (name : Memory) : List Byte :=
  (List.range 2).map (fun j => BitVec.ofNat 8 (inum / 256 ^ j)) ++ name.read 0 DIRSIZ

/-- `dirlink(dp, name, inum)`; `junk` is what `de.name` holds before. -/
def dirlink (junk name : Memory) (inum : Nat) : DirM P Int := do
  match ← dirlookup name with
  | some (ip, _) =>
    onTable (iput ip)
    return -1
  | none =>
    let s ← get
    let off ← freeFrom s.dir.size 0
    let r ← writei off (dirent inum (strncpy name DIRSIZ 0 junk))
    if r ≠ DIRENT then throw (.fs .dirlink)
    return 0

/-- `sys_unlink` clears the entry at `off`. -/
def clear (off : Nat) : DirM P Unit := do
  let r ← writei off (List.replicate DIRENT 0)
  if r ≠ DIRENT then throw .unlinkWritei

end Program

variable {P : Type} {s t : DirSys P} {name other junk : Memory} {n i j off a inum bn m : Nat}
  {d d' : DirFile} {k : List Byte} {new : Memory → Memory} {r : Option (Nat × Nat)}

/-! ### Blocks -/

def need (d : DirFile) (k : Nat) : Nat := if d.mapped k then 0 else 1

/-- The number of blocks that `bmap` allocates for block `bn`. -/
def cost (d : DirFile) (bn : Nat) : Nat :=
  (if NDIRECT ≤ bn then need d NDIRECT else 0) + need d (place bn)

/-- The directory after `bmap`. -/
def DirFile.mapBlock (d : DirFile) (bn : Nat) : DirFile :=
  (if NDIRECT ≤ bn then d.withBlock NDIRECT id else d).withBlock (place bn)
    fun m => m.fill (bn * BSIZE) BSIZE 0

theorem withBlock_self {k : Nat} (here : d.mapped k = true) : d.withBlock k new = d := by
  have same : (fun j => decide (j = k) || d.mapped j) = d.mapped := by
    funext j
    by_cases isK : j = k
    · simp [isK, here]
    · simp [isK]
  rw [DirFile.withBlock, same, if_pos here]

theorem need_withBlock {k j : Nat} (other : j ≠ k) : need (d.withBlock k new) j = need d j := by
  simp [need, DirFile.withBlock, other]

theorem addrOrAlloc_spec {k : Nat} (enough : need s.dir k ≤ s.blocks) : addrOrAlloc k new s =
    .ok ((), { s with blocks := s.blocks - need s.dir k, dir := s.dir.withBlock k new }) := by
  unfold addrOrAlloc
  unfold need at enough ⊢
  cases here : s.dir.mapped k with
  | true =>
    rw [withBlock_self here]
    simp [here]
  | false =>
    rw [here] at enough
    have some : s.blocks ≠ 0 := by
      simp at enough
      omega
    simp [here, some]

/-- **`bmap` finds the block**, if there are as many free blocks as it needs. -/
theorem bmap_spec (inside : bn < MAXFILE) (enough : cost s.dir bn ≤ s.blocks) : bmap bn s =
    .ok ((), { s with blocks := s.blocks - cost s.dir bn, dir := s.dir.mapBlock bn }) := by
  have other : place bn ≠ NDIRECT := by
    unfold place
    split_ifs <;> omega
  unfold bmap DirFile.mapBlock
  unfold cost at enough ⊢
  rw [if_neg (by omega)]
  by_cases far : NDIRECT ≤ bn
  · rw [if_pos far] at enough ⊢
    have left : need (s.dir.withBlock NDIRECT id) (place bn) ≤ s.blocks - need s.dir NDIRECT := by
      rw [need_withBlock other]
      omega
    simp only [if_pos far, run_bind, addrOrAlloc_spec (show need s.dir NDIRECT ≤ s.blocks by omega)]
    rw [addrOrAlloc_spec left, need_withBlock other, Nat.sub_sub]
  · simp only [if_neg far, Nat.zero_add] at enough ⊢
    exact addrOrAlloc_spec enough

theorem need_eq_zero {k : Nat} : need d k = 0 ↔ d.mapped k = true := by
  unfold need
  split_ifs with here
  · exact iff_of_true rfl here
  · exact iff_of_false (nomatch ·) here

/-- A block that needs nothing is there, with the indirect block it needs. -/
theorem cost_eq_zero :
    cost d bn = 0 ↔ (NDIRECT ≤ bn → d.mapped NDIRECT = true) ∧ d.mapped (place bn) = true := by
  rw [cost, Nat.add_eq_zero_iff, need_eq_zero]
  refine and_congr_left fun _ => ?_
  split_ifs with far
  · rw [need_eq_zero]
    exact ⟨fun here _ => here, fun here => here far⟩
  · exact iff_of_true rfl fun close => absurd close far

theorem mapped_mapBlock {k : Nat} : (d.mapBlock bn).mapped k = true ↔
    k = place bn ∨ (NDIRECT ≤ bn ∧ k = NDIRECT) ∨ d.mapped k = true := by
  unfold DirFile.mapBlock
  split_ifs with far
  · simp [DirFile.withBlock, far]
  · simp [DirFile.withBlock, far]

theorem cost_mapBlock (none : n = bn ∨ cost d n = 0) : cost (d.mapBlock bn) n = 0 := by
  rw [cost_eq_zero, mapped_mapBlock, mapped_mapBlock]
  rcases none with rfl | none
  · exact ⟨fun far => .inr (.inl ⟨far, rfl⟩), .inl rfl⟩
  · obtain ⟨indirect, here⟩ := cost_eq_zero.mp none
    exact ⟨fun far => .inr (.inr (indirect far)), .inr (.inr here)⟩

theorem mapBlock_self (none : cost d bn = 0) : d.mapBlock bn = d := by
  obtain ⟨indirect, here⟩ := cost_eq_zero.mp none
  unfold DirFile.mapBlock
  split_ifs with far
  · rw [withBlock_self (indirect far), withBlock_self here]
  · exact withBlock_self here

/-- `bmap` changes nothing of the file before the block. -/
theorem bytes_mapBlock {x : Nat} (before : cost d bn = 0 ∨ x < bn * BSIZE) :
    (d.mapBlock bn).bytes x = d.bytes x := by
  rcases before with none | below
  · rw [mapBlock_self none]
  · unfold DirFile.mapBlock DirFile.withBlock
    split_ifs <;> simp [Memory.fill_outside (.inl below)]

theorem bmap_here (inside : bn < MAXFILE) (none : cost s.dir bn = 0) : bmap bn s = .ok ((), s) := by
  rw [bmap_spec inside (none ▸ Nat.zero_le _), none, mapBlock_self none]
  rfl

/-! ### Entries -/

def Used (d : DirFile) (off : Nat) : Prop := off % DIRENT = 0 ∧ off < d.size ∧ d.inum off ≠ 0

/-- There is room for an entry at `off`. -/
def Free (d : DirFile) (off : Nat) : Prop := off % DIRENT = 0 ∧ off < d.size ∧ d.inum off = 0

/-- **A directory**: a number of entries, with different keys, in blocks that are there. -/
structure IsDir (d : DirFile) : Prop where
  type : d.type = .dir
  whole : d.size % DIRENT = 0
  small : d.size ≤ MAXFILE * BSIZE
  full : ∀ n, n * BSIZE < d.size → cost d n = 0
  distinct : ∀ a b, Used d a → Used d b → key (d.name a) = key (d.name b) → a = b

/-- **The map**: what the directory has under the key of a name, with the offset of the entry. -/
def Finds (d : DirFile) (name : Memory) : Option (Nat × Nat) → Prop
  | none => ∀ a, Used d a → key (d.name a) ≠ key name
  | some (i, a) => Used d a ∧ key (d.name a) = key name ∧ i = d.inum a

theorem exists_index (aligned : a % DIRENT = 0) : ∃ n, a = DIRENT * n :=
  ⟨a / DIRENT, (Nat.mul_div_cancel' (Nat.dvd_of_mod_eq_zero aligned)).symm⟩

theorem next_le (first : a % DIRENT = 0) (second : off % DIRENT = 0) (less : a < off) :
    a + DIRENT ≤ off := by
  unfold DIRENT at *
  omega

theorem aligned_add (aligned : off % DIRENT = 0) : (off + DIRENT) % DIRENT = 0 := by
  rwa [Nat.add_mod_right]

/-- Every entry of a directory can be read, and this changes nothing. -/
theorem readi_run (dir : IsDir s.dir) (aligned : off % DIRENT = 0) (inside : off < s.dir.size) :
    readi off DIRENT s = .ok (DIRENT, s) := by
  have fits := next_le aligned dir.whole inside
  have all : min DIRENT (s.dir.size - off) = DIRENT := by omega
  have block : off / BSIZE < MAXFILE :=
    Nat.div_lt_of_lt_mul (Nat.mul_comm _ _ ▸ inside.trans_le dir.small)
  have mapped := bmap_here block (dir.full _ ((Nat.div_mul_le_self _ _).trans_lt inside))
  unfold readi
  simp only [run_bind, run_get, if_neg (show ¬ s.dir.size < off by omega), all, mapped,
    if_pos (show 0 < DIRENT by decide)]
  rfl

/-- The search for a name, by induction on what is left of the directory. -/
theorem lookFrom_spec (dir : IsDir s.dir) (off : Nat) (aligned : off % DIRENT = 0) :
    ∃ r, lookFrom s.dir.size name off s = .ok (r, s) ∧ match r with
      | none => ∀ a, off ≤ a → Used s.dir a → key (s.dir.name a) ≠ key name
      | some r => Finds s.dir name (some r) := by
  induction rest : s.dir.size - off using Nat.strongRecOn generalizing off with
  | _ n ih =>
    rw [lookFrom]
    by_cases inside : off < s.dir.size
    · simp only [if_pos inside, run_bind, readi_run dir aligned inside, ne_eq, not_true, if_false,
        run_get, run_ite]
      split_ifs with found
      · exact ⟨_, rfl, ⟨aligned, inside, found.1⟩, (namecmp_eq_zero.mp found.2).symm, rfl⟩
      · obtain ⟨r, run, result⟩ :=
          ih _ (by unfold DIRENT; omega) (off + DIRENT) (aligned_add aligned) rfl
        refine ⟨r, run, ?_⟩
        cases r with
        | some r => exact result
        | none =>
          intro a later used same
          rcases later.eq_or_lt with rfl | later
          · exact found ⟨used.2.2, namecmp_eq_zero.mpr same.symm⟩
          · exact result a (next_le aligned used.1 later) used same
    · rw [if_neg inside]
      exact ⟨none, rfl, fun a later used => absurd used.2.1 (by omega)⟩

/-- **The search of `dirlookup` is the map.** -/
theorem lookFrom_finds (dir : IsDir s.dir) (name : Memory) :
    ∃ r, lookFrom s.dir.size name 0 s = .ok (r, s) ∧ Finds s.dir name r := by
  obtain ⟨r, run, found⟩ := @lookFrom_spec P s name dir 0 (Nat.zero_mod _)
  refine ⟨r, run, ?_⟩
  cases r with
  | none => exact fun a used => found a (Nat.zero_le a) used
  | some r => exact found

/-- The search for a free entry, by induction on what is left of the directory. -/
theorem freeFrom_spec (dir : IsDir s.dir) (off : Nat) (aligned : off % DIRENT = 0)
    (before : off ≤ s.dir.size) :
    ∃ a, freeFrom s.dir.size off s = .ok (a, s) ∧ a % DIRENT = 0 ∧ a ≤ s.dir.size ∧
      (a < s.dir.size → s.dir.inum a = 0) ∧ ∀ b, off ≤ b → b < a → ¬ Free s.dir b := by
  induction rest : s.dir.size - off using Nat.strongRecOn generalizing off with
  | _ n ih =>
    rw [freeFrom]
    by_cases inside : off < s.dir.size
    · simp only [if_pos inside, run_bind, readi_run dir aligned inside, ne_eq, not_true, if_false,
        run_get, run_ite]
      split_ifs with empty
      · exact ⟨off, rfl, aligned, before, fun _ => empty,
          fun b later less => absurd less (by omega)⟩
      · obtain ⟨a, run, slot, le, isFree, none⟩ :=
          ih _ (by unfold DIRENT; omega) (off + DIRENT) (aligned_add aligned)
          (next_le aligned dir.whole inside) rfl
        refine ⟨a, run, slot, le, isFree, fun b later less free => ?_⟩
        rcases later.eq_or_lt with rfl | later
        · exact empty free.2.2
        · exact none b (next_le aligned free.1 later) less free
    · rw [if_neg inside]
      exact ⟨off, rfl, aligned, before, fun less => absurd less inside,
        fun b later less => absurd less (by omega)⟩

theorem Finds.unique (dir : IsDir d) {r' : Option (Nat × Nat)} (one : Finds d name r)
    (two : Finds d name r') : r = r' := by
  rcases r with _ | ⟨i, a⟩ <;> rcases r' with _ | ⟨j, b⟩
  · rfl
  · exact absurd two.2.1 (one b two.1)
  · exact absurd one.2.1 (two a one.1)
  · obtain rfl := dir.distinct a b one.1 two.1 (one.2.1.trans two.2.1.symm)
    rw [one.2.2, two.2.2]

/-! ### Lookups -/

/-- The inode table has a free entry. -/
def HasRoom (s : DirSys P) : Prop := ∃ i, (s.fs.itable i).ref = 0

/-- The inode table is as it was, but for entries that are free. -/
structure SameTable (fs fs' : Fs P) : Prop where
  disk : fs'.disk = fs.disk
  refs : ∀ i, (fs'.itable i).ref = (fs.itable i).ref
  held : ∀ i, 0 < (fs.itable i).ref → fs'.itable i = fs.itable i

/-- **A lookup** gives the number and the offset, or nothing, and leaves the directory alone. -/
def LooksUp (s : DirSys P) (name : Memory) : Option (Nat × Nat) → Prop
  | none => dirlookup name s = .ok (none, s)
  | some (inum, off) => ∃ ip t, dirlookup name s = .ok (some (ip, off), t) ∧
    (t.fs.itable ip).inum = inum ∧ 0 < (t.fs.itable ip).ref ∧ t.dir = s.dir ∧ t.blocks = s.blocks

theorem onTable_ok {A : Type} {x : FsM P A} {a : A} {fs : Fs P} (done : x s.fs = .ok (a, fs)) :
    onTable x s = .ok (a, { s with fs }) := by
  unfold onTable
  rw [done]

/-- **`iget` in a table with room**, and `iput` of what it gives: nothing that is held changes. -/
theorem iget_iput (room : HasRoom s) (x : Nat) :
    ∃ ip fs fs', iget x s.fs = .ok (ip, fs) ∧ (fs.itable ip).inum = x ∧
    0 < (fs.itable ip).ref ∧ iput ip fs = .ok ((), fs') ∧ SameTable s.fs fs' := by
  rw [iget_run]
  cases found : s.fs.holding x with
  | some ip =>
    obtain ⟨ref, inum⟩ := holding_ref found
    let fs := s.fs.setInode ip { s.fs.itable ip with ref := (s.fs.itable ip).ref + 1 }
    have more : ¬ fs.Freed ip := by
      simp only [fs, Fs.Freed, Fs.setInode, update_self]
      omega
    refine ⟨ip, fs, s.fs, rfl, by simp [fs, Fs.setInode, inum], ?_, ?_, rfl, fun _ => rfl,
      fun _ _ => rfl⟩
    · simp only [fs, Fs.setInode, update_self]
      omega
    · rw [iput_run, if_neg more]
      simp [fs, Fs.setInode]
  | none =>
    cases empty : s.fs.emptySlot with
    | none =>
      obtain ⟨i, free⟩ := room
      have used := List.find?_eq_none.mp empty i (List.mem_finRange i)
      exact absurd free (by simpa using used)
    | some ip =>
      have free := emptySlot_ref empty
      let fs (ref : Int) := s.fs.setInode ip
        { s.fs.itable ip with inum := x, ref := ref, valid := false }
      have fresh : ¬ (fs 1).Freed ip := by simp [fs, Fs.Freed, Fs.setInode]
      refine ⟨ip, fs 1, fs 0, rfl, by simp [fs, Fs.setInode], by simp [fs, Fs.setInode], ?_, rfl,
        fun i => ?_, fun i held => ?_⟩
      · rw [iput_run, if_neg fresh]
        simp [fs, Fs.setInode]
      · show (update s.fs.itable ip _ i).ref = _
        by_cases here : i = ip
        · rw [here, update_self, free]
        · rw [update_of_ne here]
      · show update s.fs.itable ip _ i = _
        rw [update_of_ne fun here => by rw [here, free] at held; exact absurd held (by decide)]

theorem HasRoom.of_fs (room : HasRoom s) (fs : t.fs = s.fs) : HasRoom t := by
  unfold HasRoom
  rwa [fs]

theorem dirlookup_run (dir : IsDir s.dir) : Finds s.dir name r → dirlookup name s =
    match r with
    | none => .ok (none, s)
    | some (x, off) => (onTable (iget x) s).map fun a => (some (a.1, off), a.2) := by
  intro finds
  obtain ⟨r', run, found⟩ := lookFrom_finds dir name
  obtain rfl := finds.unique dir found
  unfold dirlookup
  simp only [run_bind, run_get, if_neg (not_not.mpr dir.type), run]
  cases r with
  | none => rfl
  | some r =>
    simp only [run_bind]
    cases onTable (iget r.1) s with
    | ok a => rfl
    | error e => rfl

/-- **`dirlookup` is the map.** -/
theorem looksUp_iff (dir : IsDir s.dir) (room : HasRoom s) :
    LooksUp s name r ↔ Finds s.dir name r := by
  have gives : ∀ {r}, Finds s.dir name r → LooksUp s name r := by
    intro r finds
    have run := dirlookup_run dir finds
    cases r with
    | none => exact run
    | some r =>
      obtain ⟨ip, fs, -, got, inum, ref, -⟩ := iget_iput room r.1
      refine ⟨ip, { s with fs }, ?_, inum, ref, rfl, rfl⟩
      rw [run]
      show (onTable (iget r.1) s).map _ = _
      rw [onTable_ok got]
      rfl
  refine ⟨fun looks => ?_, gives⟩
  obtain ⟨r', -, finds⟩ := lookFrom_finds dir name
  suffices same : r = r' from same ▸ finds
  have looks' := gives finds
  rcases r with _ | ⟨x, off⟩ <;> rcases r' with _ | ⟨y, off'⟩
  · rfl
  · obtain ⟨ip, t, run, -⟩ := looks'
    cases looks.symm.trans run
  · obtain ⟨ip, t, run, -⟩ := looks
    cases run.symm.trans looks'
  · obtain ⟨ip, t, run, rfl, -⟩ := looks
    obtain ⟨ip', t', run', rfl, -⟩ := looks'
    cases run.symm.trans run'
    rfl

/-! ### Writes -/

/-- The entry at `off` gets a number and a key; the others stay. -/
structure Put (d : DirFile) (off inum : Nat) (k : List Byte) (d' : DirFile) : Prop where
  aligned : off % DIRENT = 0
  slot : off ≤ d.size
  small : off + DIRENT ≤ MAXFILE * BSIZE
  type : d'.type = d.type
  size : d'.size = max d.size (off + DIRENT)
  full : ∀ n, n * BSIZE < d'.size → cost d' n = 0
  number : d'.inum off = inum
  name : key (d'.name off) = k
  others : ∀ a, a % DIRENT = 0 → a < d.size → a ≠ off → d'.inum a = d.inum a ∧
    key (d'.name a) = key (d.name a)

theorem size_mapBlock : (d.mapBlock bn).size = d.size ∧ (d.mapBlock bn).type = d.type := by
  unfold DirFile.mapBlock DirFile.withBlock
  split_ifs <;> exact ⟨rfl, rfl⟩

/-- **An entry is written**, if the disk has the blocks for it. -/
theorem writei_put (full : ∀ n, n * BSIZE < s.dir.size → cost s.dir n = 0)
    (whole : s.dir.size % DIRENT = 0) (aligned : off % DIRENT = 0) (slot : off ≤ s.dir.size)
    (small : off + DIRENT ≤ MAXFILE * BSIZE) (enough : cost s.dir (off / BSIZE) ≤ s.blocks)
    (range : inum < 2 ^ 16) (named : key name = k) :
    ∃ t, writei off (dirent inum name) s = .ok ((DIRENT : Int), t) ∧ t.fs = s.fs ∧
      Put s.dir off inum k t.dir := by
  have length : (dirent inum name).length = DIRENT := by
    rw [dirent, List.length_append, List.length_map, List.length_range, Memory.length_read]
    rfl
  have block : off / BSIZE < MAXFILE :=
    Nat.div_lt_of_lt_mul (by rw [Nat.mul_comm]; unfold DIRENT at small; omega)
  obtain ⟨size, type⟩ := @size_mapBlock (off / BSIZE) s.dir
  -- the bytes before the block stay, and those of a block that was there
  have old : ∀ x < s.dir.size, (s.dir.mapBlock (off / BSIZE)).bytes x = s.dir.bytes x := by
    intro x inside
    refine bytes_mapBlock ?_
    by_cases there : off / BSIZE * BSIZE < s.dir.size
    · exact .inl (full _ there)
    · exact .inr (by omega)
  refine ⟨{ s with
    blocks := s.blocks - cost s.dir (off / BSIZE)
    dir := { s.dir.mapBlock (off / BSIZE) with
      bytes := (s.dir.mapBlock (off / BSIZE)).bytes.write off (dirent inum name)
      size := max s.dir.size (off + DIRENT) } }, ?_, rfl,
    aligned, slot, small, type, rfl, fun n below => ?_, ?_,
    (chars_congr fun j _ high => ?_).trans named, fun a place inside different => ?_⟩
  · unfold writei
    simp only [run_bind, run_get, length,
      if_neg (show ¬ (s.dir.size < off ∨ MAXFILE * BSIZE < off + DIRENT) by omega),
      bmap_spec block enough, run_modify, run_pure, size]
  · refine cost_mapBlock ?_
    by_cases there : n * BSIZE < s.dir.size
    · exact .inr (full n there)
    · have below : n * BSIZE < max s.dir.size (off + DIRENT) := below
      simp only [DIRENT, BSIZE] at *
      omega
  · have digits : ∀ j < 2,
      (s.dir.mapBlock (off / BSIZE)).bytes.write off (dirent inum name) (off + j) =
        BitVec.ofNat 8 (inum / 256 ^ j) := by
      intro j low
      rw [Memory.write_inside (by rw [length, DIRENT]; omega)]
      simp [dirent, low]
    exact (Memory.le_of_digits digits).trans (Nat.mod_eq_of_lt range)
  · unfold DIRSIZ at high
    show (s.dir.mapBlock (off / BSIZE)).bytes.write off (dirent inum name) (off + 2 + j) = name j
    rw [Nat.add_assoc, Memory.write_inside (by rw [length, DIRENT]; omega)]
    simp [dirent, Memory.read]
  · have fits := next_le place whole inside
    have apart : ∀ x, a ≤ x → x < a + 16 →
        (s.dir.mapBlock (off / BSIZE)).bytes.write off (dirent inum name) x = s.dir.bytes x := by
      intro x low high
      rw [Memory.write_outside, old x (by unfold DIRENT at fits; omega)]
      rw [length]
      unfold DIRENT at *
      omega
    refine ⟨Memory.le_congr fun x low high => apart x low (by omega),
      chars_congr fun j _ high => ?_⟩
    unfold DIRSIZ at high
    exact apart _ (by omega) (by omega)

namespace Put

theorem used (put : Put d off inum k d') : Used d' a ↔ if a = off then inum ≠ 0 else Used d a := by
  have aligned := put.aligned
  have slot := put.slot
  split_ifs with here
  · rw [here, Used, put.number, put.size]
    exact ⟨fun used => used.2.2, fun nonzero => ⟨aligned, by unfold DIRENT; omega, nonzero⟩⟩
  · refine and_congr_right fun place => ?_
    rw [put.size]
    have inside : a < max d.size (off + DIRENT) ↔ a < d.size := by
      unfold DIRENT at *
      omega
    rw [inside]
    exact and_congr_right fun below => by rw [(put.others a place below here).1]

/-- An entry that is used elsewhere was used before, with its key. -/
theorem old (put : Put d off inum k d') (used : Used d' a) (different : a ≠ off) :
    Used d a ∧ key (d'.name a) = key (d.name a) := by
  rw [put.used, if_neg different] at used
  exact ⟨used, (put.others a used.1 used.2.1 different).2⟩

theorem isDir (put : Put d off inum k d') (dir : IsDir d)
    (fresh : inum ≠ 0 → ∀ a, Used d a → key (d.name a) ≠ k) : IsDir d' := by
  have whole := dir.whole
  have aligned := put.aligned
  have new : ∀ a, Used d' a → Used d' off → a ≠ off → key (d'.name a) ≠ key (d'.name off) := by
    intro a used usedOff different
    obtain ⟨old, same⟩ := put.old used different
    rw [put.used, if_pos rfl] at usedOff
    rw [same, put.name]
    exact fresh usedOff a old
  refine ⟨put.type.trans dir.type, ?_, put.size ▸ max_le dir.small put.small, put.full,
    fun a b usedA usedB same => ?_⟩
  · rw [put.size]
    unfold DIRENT at *
    omega
  · by_cases hereA : a = off <;> by_cases hereB : b = off
    · rw [hereA, hereB]
    · exact absurd (hereA ▸ same).symm (new b usedB (hereA ▸ usedA) hereB)
    · exact absurd (hereB ▸ same) (new a usedA (hereB ▸ usedB) hereA)
    · obtain ⟨oldA, sameA⟩ := put.old usedA hereA
      obtain ⟨oldB, sameB⟩ := put.old usedB hereB
      exact dir.distinct a b oldA oldB (sameA.symm.trans (same.trans sameB))

/-- **Every other key is found as before**, if it is not the one of the entry, now or before. -/
theorem finds_other (put : Put d off inum k d') (before : Used d off → key (d.name off) ≠ key other)
    (now : inum ≠ 0 → k ≠ key other) (finds : Finds d other r) : Finds d' other r := by
  rcases r with _ | ⟨i, a⟩
  · intro a used same
    by_cases here : a = off
    · rw [here, put.used, if_pos rfl] at used
      rw [here, put.name] at same
      exact now used same
    · obtain ⟨old, kept⟩ := put.old used here
      exact finds a old (kept.symm.trans same)
  · obtain ⟨used, same, number⟩ := finds
    have elsewhere : a ≠ off := fun here => before (here ▸ used) (here ▸ same)
    obtain ⟨inum, kept⟩ := put.others a used.1 used.2.1 elsewhere
    exact ⟨put.used.mpr ((if_neg elsewhere).mpr used), kept.trans same, number.trans inum.symm⟩

end Put

/-! ### Entries as a list -/

/-- **The entries** as `Xv6.Fs.Path` has them. -/
def entries (d : DirFile) : List Dirent :=
  (List.range (d.size / DIRENT)).map fun n => ⟨d.inum (DIRENT * n), key (d.name (DIRENT * n))⟩

theorem getElem?_entries (whole : d.size % DIRENT = 0) : (entries d)[n]? =
    if DIRENT * n < d.size then some ⟨d.inum (DIRENT * n), key (d.name (DIRENT * n))⟩
      else none := by
  unfold entries
  rw [List.getElem?_map]
  split_ifs with inside
  · rw [List.getElem?_range (by unfold DIRENT at *; omega)]
    rfl
  · rw [List.getElem?_eq_none (by rw [List.length_range]; unfold DIRENT at *; omega)]
    rfl

/-- **`findEntry` is the lookup.** -/
theorem finds_findEntry (whole : d.size % DIRENT = 0) (name : Memory) :
    Finds d name ((findEntry (entries d) (key name)).map fun e => (e.2.inum, DIRENT * e.1)) := by
  cases found : findEntry (entries d) (key name) with
  | none =>
    intro a used same
    obtain ⟨n, rfl⟩ := exists_index used.1
    have member : (⟨d.inum (DIRENT * n), key (d.name (DIRENT * n))⟩ : Dirent) ∈ entries d :=
      List.mem_of_getElem? ((getElem?_entries whole).trans (if_pos used.2.1))
    exact findEntry_none found member used.2.2 same
  | some e =>
    obtain ⟨here, used, same⟩ := findEntry_some found
    rw [getElem?_entries whole, Option.ite_none_right_eq_some] at here
    obtain ⟨inside, isE⟩ := here
    rw [← Option.some.inj isE] at used same
    exact ⟨⟨Nat.mul_mod_right _ _, inside, used⟩, same, by rw [← Option.some.inj isE]⟩

theorem length_entries : (entries d).length = d.size / DIRENT := by
  rw [entries, List.length_map, List.length_range]

theorem putEntry_getElem? {entries : List Dirent} {de : Dirent} (next : m ≤ entries.length) :
    (putEntry entries m de)[n]? = if n = m then some de else entries[n]? := by
  unfold putEntry
  by_cases inside : m < entries.length
  · rw [if_pos inside, List.getElem?_set, if_pos inside]
    exact if_congr eq_comm rfl rfl
  · obtain rfl : m = entries.length := by omega
    rw [if_neg inside]
    split_ifs with here
    · rw [here, List.getElem?_concat_length]
    · by_cases before : n < entries.length
      · rw [List.getElem?_append_left before]
      · rw [List.getElem?_eq_none (by rw [List.length_append, List.length_singleton]; omega),
          List.getElem?_eq_none (by omega)]

/-- **`putEntry` is the write.** -/
theorem Put.entries (put : Put d off inum k d') (whole : d.size % DIRENT = 0) :
    Dir.entries d' = putEntry (Dir.entries d) (off / DIRENT) ⟨inum, k⟩ := by
  obtain ⟨m, rfl⟩ := exists_index put.aligned
  have slot := put.slot
  have grown := put.size
  have whole' : d'.size % DIRENT = 0 := by
    unfold DIRENT at *
    omega
  have next : m ≤ (Dir.entries d).length := by
    rw [length_entries]
    unfold DIRENT at *
    omega
  rw [Nat.mul_div_cancel_left m (by decide)]
  refine List.ext_getElem? fun n => ?_
  rw [getElem?_entries whole', putEntry_getElem? next, getElem?_entries whole]
  by_cases here : n = m
  · rw [here, if_pos rfl, if_pos (by unfold DIRENT at *; omega), put.number, put.name]
  · rw [if_neg here]
    by_cases inside : DIRENT * n < d.size
    · obtain ⟨inum, name⟩ := put.others _ (Nat.mul_mod_right _ _) inside (by unfold DIRENT; omega)
      rw [if_pos inside, if_pos (by omega), inum, name]
    · rw [if_neg inside, if_neg (by unfold DIRENT at *; omega)]

/-- **`emptyEntry` is the search for a free entry.** -/
theorem emptyEntry_entries (whole : d.size % DIRENT = 0) (aligned : a % DIRENT = 0)
    (inside : a ≤ d.size) (isFree : a < d.size → d.inum a = 0) (first : ∀ b < a, ¬ Free d b) :
    emptyEntry (entries d) = a / DIRENT := by
  obtain ⟨m, rfl⟩ := exists_index aligned
  rw [Nat.mul_div_cancel_left m (by decide)]
  have used : ∀ n < m, d.inum (DIRENT * n) ≠ 0 := by
    intro n before empty
    have less : DIRENT * n < DIRENT * m := Nat.mul_lt_mul_of_pos_left before (by decide)
    exact first _ less ⟨Nat.mul_mod_right _ _, by omega, empty⟩
  unfold emptyEntry
  by_cases here : DIRENT * m < d.size
  · have within : m < (entries d).length := by
      rw [length_entries]
      unfold DIRENT at *
      omega
    rw [List.findIdx_eq within]
    refine ⟨?_, fun n before => ?_⟩
    · simp [entries, isFree here]
    · simp [entries, used n before]
  · have last : m = (entries d).length := by
      rw [length_entries]
      unfold DIRENT at *
      omega
    rw [last, List.findIdx_eq_length]
    intro e member
    obtain ⟨n, before, rfl⟩ := List.mem_map.mp member
    rw [List.mem_range, ← length_entries, ← last] at before
    simp [used n before]

/-- **The lookup of `Xv6.Fs.Path`** is this one at the key. -/
theorem dirlookup_refines (dir : IsDir s.dir) {dp : Fin NINODE}
    (type : (s.fs.itable dp).type = .dir)
    (same : (s.fs.disk (s.fs.itable dp).inum).entries = entries s.dir) (name : Memory) :
    dirlookup name s =
      onTable (Option.map (Prod.map id (DIRENT * ·)) <$> Xv6.dirlookup dp (key name)) s := by
  rw [dirlookup_run dir (finds_findEntry dir.whole name)]
  unfold onTable Xv6.dirlookup
  simp only [map_eq_pure_bind, run_bind, run_get, type, same, ne_eq, not_true, if_false]
  cases findEntry (entries s.dir) (key name) with
  | none => rfl
  | some e =>
    simp only [Option.map, run_bind]
    cases iget e.2.inum s.fs with
    | ok a => rfl
    | error e => rfl

/-! ### The map -/

/-- **The effect of `dirlink`** for a name that is not there. -/
structure Linked (s : DirSys P) (name : Memory) (inum : Nat) (t : DirSys P) : Prop where
  here : ∀ other, key other = key name → ∃ off, LooksUp t other (some (inum, off))
  same : ∀ other r, key other ≠ key name → (LooksUp t other r ↔ LooksUp s other r)
  reuses : (∃ off, Free s.dir off) → t.dir.size = s.dir.size
  grows : (¬ ∃ off, Free s.dir off) → t.dir.size = s.dir.size + DIRENT
  entries : entries t.dir = putEntry (entries s.dir) (emptyEntry (entries s.dir)) ⟨inum, key name⟩
  fs : t.fs = s.fs

/-- `dirlink` has a place for an entry, and the disk the blocks for it. -/
def CanLink (s : DirSys P) : Prop := (∃ off, Free s.dir off) ∨
  s.dir.size + DIRENT ≤ MAXFILE * BSIZE ∧ cost s.dir (s.dir.size / BSIZE) ≤ s.blocks

/-- A write to one entry leaves the lookups of all other keys. -/
theorem Put.looksUp_other (put : Put s.dir off inum k t.dir) (dir : IsDir s.dir)
    (dir' : IsDir t.dir) (room : HasRoom s) (fs : t.fs = s.fs)
    (before : Used s.dir off → key (s.dir.name off) ≠ key other) (now : inum ≠ 0 → k ≠ key other) :
    LooksUp t other r ↔ LooksUp s other r := by
  rw [looksUp_iff dir' (room.of_fs fs), looksUp_iff dir room]
  refine ⟨fun finds => ?_, put.finds_other before now⟩
  obtain ⟨r', -, old⟩ := lookFrom_finds dir other
  exact finds.unique dir' (put.finds_other before now old) ▸ old

/-- A name that is not there goes into the first free entry, or to the end. -/
theorem dirlink_new (dir : IsDir s.dir) (room : HasRoom s) (range : 0 < inum ∧ inum < 2 ^ 16)
    (can : CanLink s) (absent : Finds s.dir name none) :
    ∃ t, dirlink junk name inum s = .ok (0, t) ∧ IsDir t.dir ∧ Linked s name inum t := by
  obtain ⟨off, search, aligned, slot, isFree, first⟩ :=
    freeFrom_spec dir 0 (Nat.zero_mod _) (Nat.zero_le _)
  -- the place is a free entry, or the end
  have place : off + DIRENT ≤ MAXFILE * BSIZE ∧ cost s.dir (off / BSIZE) ≤ s.blocks := by
    rcases slot.eq_or_lt with isEnd | inside
    · refine isEnd ▸ can.resolve_left fun ⟨b, free⟩ => ?_
      exact first b (Nat.zero_le b) (isEnd ▸ free.2.1) free
    · refine ⟨(next_le aligned dir.whole inside).trans dir.small, ?_⟩
      rw [dir.full _ ((Nat.div_mul_le_self _ _).trans_lt inside)]
      exact Nat.zero_le _
  have unused : ¬ Used s.dir off := fun used => used.2.2 (isFree used.2.1)
  obtain ⟨t, write, fs, put⟩ :=
    @writei_put P s (strncpy name DIRSIZ 0 junk) off inum _ dir.full dir.whole aligned slot
    place.1 place.2 range.2 key_strncpy
  have dir' := put.isDir dir fun _ a used => absent a used
  have run : dirlink junk name inum s = .ok (0, t) := by
    have looks : dirlookup name s = .ok (none, s) := (looksUp_iff dir room).mpr absent
    unfold dirlink
    simp only [run_bind, looks, run_get, search, write, ne_eq, not_true, if_false]
    rfl
  have found : ∀ other, key other = key name → LooksUp t other (some (inum, off)) := by
    intro other same
    refine (looksUp_iff dir' (room.of_fs fs)).mpr ⟨?_, put.name.trans same.symm, put.number.symm⟩
    exact put.used.mpr ((if_pos rfl).mpr range.1.ne')
  refine ⟨t, run, dir', fun other same => ⟨off, found other same⟩, fun other r different => ?_,
    fun ⟨b, free⟩ => ?_, fun full => ?_, ?_, fs⟩
  · exact put.looksUp_other dir dir' room fs (fun used => absurd used unused)
      fun _ same => different same.symm
  · have inside : off < s.dir.size := by
      by_contra past
      exact first b (Nat.zero_le b) (by have := free.2.1; omega) free
    rw [put.size, max_eq_left (next_le aligned dir.whole inside)]
  · have isEnd : off = s.dir.size := by
      by_contra before
      have inside : off < s.dir.size := by omega
      exact full ⟨off, aligned, inside, isFree inside⟩
    rw [put.size, isEnd, max_eq_right (Nat.le_add_right _ _)]
  · rw [put.entries dir.whole, emptyEntry_entries dir.whole aligned slot isFree
      fun b => first b (Nat.zero_le b)]

end Xv6.Dir
