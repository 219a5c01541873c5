/-
**The layout of the disk** (`kernel/fs.h`): inode blocks, free map and data blocks do not overlap,
so a store into one of them leaves what the others hold.

What is read is `Vol.Free` (a bit of the free map), `Vol.dinode` and `Vol.entry` (an entry of an
indirect block); `Vol.putNode` and `Vol.putEntry` store the last two.
-/

import Xv6.Fs.Block

namespace Xv6

open Lib Function

def Superblock.dataStart (sb : Superblock) : Nat := sb.size - sb.nblocks

def Superblock.InData (sb : Superblock) (b : Nat) : Prop := sb.dataStart ≤ b ∧ b < sb.size

/-- **The areas follow one another**: inode blocks, free map, data blocks. Block numbers fit an
`int`. -/
structure Superblock.Layout (sb : Superblock) : Prop where
  inodes : sb.inodestart + (sb.ninodes + IPB - 1) / IPB ≤ sb.bmapstart
  bitmap : sb.bmapstart + (sb.size + BPB - 1) / BPB ≤ sb.dataStart
  data : sb.nblocks ≤ sb.size
  narrow : sb.size < 2 ^ 31

/-! ### Dinodes in an inode block -/

namespace Vol

structure Dinode.Fits (d : Dinode) : Prop where
  size : d.size < 2 ^ 32
  addrs : ∀ k, d.addrs k < 2 ^ 32

theorem getDinode_putDinode (data : Block) {k : Nat} {d : Dinode} (inside : k < IPB)
    (fits : d.Fits) : getDinode (putDinode data k d) k = d := by
  have room : 64 * k + 64 ≤ BSIZE := by
    simp only [IPB, BSIZE] at *
    omega
  have short : ∀ v : BitVec 16, BitVec.ofNat 16 (v.toNat % 65536) = v := fun v => by
    rw [Nat.mod_eq_of_lt v.isLt, BitVec.ofNat_toNat, BitVec.setWidth_eq]
  obtain ⟨type, major, minor, nlink, size, addrs⟩ := d
  have length : (List.ofFn addrs).length = 13 := List.length_ofFn
  simp only [getDinode, putDinode, Dinode.mk.injEq]
  refine ⟨?_, ?_, ?_, ?_, ?_, ?_⟩
  · rw [Bytes.le16_setLe32s_ne _ (by omega), Bytes.le16_setLe32_ne _ _ (by omega),
      Bytes.le16_setLe16_ne _ _ (by omega), Bytes.le16_setLe16_ne _ _ (by omega),
      Bytes.le16_setLe16_ne _ _ (by omega), Bytes.le16_setLe16_same _ _ (by omega), short]
  · rw [Bytes.le16_setLe32s_ne _ (by omega), Bytes.le16_setLe32_ne _ _ (by omega),
      Bytes.le16_setLe16_ne _ _ (by omega), Bytes.le16_setLe16_ne _ _ (by omega),
      Bytes.le16_setLe16_same _ _ (by omega), short]
  · rw [Bytes.le16_setLe32s_ne _ (by omega), Bytes.le16_setLe32_ne _ _ (by omega),
      Bytes.le16_setLe16_ne _ _ (by omega), Bytes.le16_setLe16_same _ _ (by omega), short]
  · rw [Bytes.le16_setLe32s_ne _ (by omega), Bytes.le16_setLe32_ne _ _ (by omega),
      Bytes.le16_setLe16_same _ _ (by omega), short]
  · rw [Bytes.le32_setLe32s_ne _ (by omega), Bytes.le32_setLe32_same _ _ (by omega),
      Nat.mod_eq_of_lt (by exact fits.size)]
  · funext a
    have inList : a.val < (List.ofFn addrs).length := by
      rw [List.length_ofFn]
      exact a.isLt
    rw [Bytes.le32_setLe32s _ inList (by omega), List.getElem_ofFn]
    exact Nat.mod_eq_of_lt (fits.addrs a)

theorem getDinode_putDinode_ne (data : Block) {j k : Nat} {d : Dinode} (different : j ≠ k) :
    getDinode (putDinode data k d) j = getDinode data j := by
  have length : (List.ofFn d.addrs).length = 13 := List.length_ofFn
  have short : ∀ off, off + 2 ≤ 64 * k ∨ 64 * k + 64 ≤ off →
      (putDinode data k d).le16 off = data.le16 off := by
    intro off apart
    simp only [putDinode]
    rw [Bytes.le16_setLe32s_ne _ (by omega), Bytes.le16_setLe32_ne _ _ (by omega),
      Bytes.le16_setLe16_ne _ _ (by omega), Bytes.le16_setLe16_ne _ _ (by omega),
      Bytes.le16_setLe16_ne _ _ (by omega), Bytes.le16_setLe16_ne _ _ (by omega)]
  have int : ∀ off, off + 4 ≤ 64 * k ∨ 64 * k + 64 ≤ off →
      (putDinode data k d).le32 off = data.le32 off := by
    intro off apart
    rw [Bytes.le32, Bytes.le32, short _ (by omega), short _ (by omega)]
  simp only [getDinode, Dinode.mk.injEq]
  refine ⟨?_, ?_, ?_, ?_, int _ (by omega), funext fun a => int _ ?_⟩
  · rw [short _ (by omega)]
  · rw [short _ (by omega)]
  · rw [short _ (by omega)]
  · rw [short _ (by omega)]
  · have := a.isLt
    simp only [NDIRECT] at this
    omega

/-! ### Stores -/

/-- The bit of a block is clear. -/
def Free (s : Vol) (b : Nat) : Prop := (s.buf (BBLOCK b s.sb)).bitClear (b % BPB) = true

def entry (s : Vol) (b j : Nat) : Nat := (s.buf b).le32 (4 * j)

/-- The buffer differs from the disk and is not recorded in the log. -/
def Dirty (s : Vol) (b : Nat) : Prop := b ∉ s.log.lh ∧ s.buf b ≠ s.disk b

def logged (log : LogState) (b : Nat) : LogState :=
  if b ∈ log.lh then log else { log with lh := log.lh ++ [b] }

/-- Assign to a buffer, then `log_write`. -/
def store (s : Vol) (b : Nat) (data : Block) : Vol :=
  { s.setBuf b data with log := logged s.log b, written := insert b s.written }

def putNode (s : Vol) (x : Nat) (d : Dinode) : Vol :=
  s.store (IBLOCK x s.sb) (putDinode (s.buf (IBLOCK x s.sb)) (x % IPB) d)

/-- Store an entry of an indirect block. -/
def putEntry (s : Vol) (b j v : Nat) : Vol := s.store b ((s.buf b).setLe32 (4 * j) v)

section Stores

variable (s : Vol) (b c j x : Nat) (data : Block) (d : Dinode) (i : Fin NINODE) (ip : Inode)

theorem buf_setBuf : (s.setBuf b data).buf = update s.buf b data := by
  funext c
  by_cases same : c = b
  · subst same
    simp [buf, setBuf]
  · simp [buf, setBuf, same]

@[simp] theorem buf_store : (s.store b data).buf = update s.buf b data := buf_setBuf s b data

@[simp] theorem sb_store : (s.store b data).sb = s.sb := rfl

@[simp] theorem sb_putEntry (v : Nat) : (s.putEntry b j v).sb = s.sb := rfl

end Stores

variable {s : Vol} {b c j x y v : Nat} {d : Dinode} {data : Block}

/-! #### What a store outside an area leaves -/

theorem dinode_of_buf {t : Vol} (sb : t.sb = s.sb)
    (same : t.buf (IBLOCK x s.sb) = s.buf (IBLOCK x s.sb)) : t.dinode x = s.dinode x := by
  unfold dinode
  rw [sb, same]

theorem entry_of_buf {t : Vol} (same : t.buf b = s.buf b) : t.entry b j = s.entry b j := by
  unfold entry
  rw [same]

theorem entry_store_ne (different : c ≠ b) : (s.store b data).entry c j = s.entry c j := by
  refine entry_of_buf ?_
  rw [buf_store, update_of_ne different]

/-! #### `putNode` and `putEntry` -/

theorem dinode_putNode (fits : d.Fits) : (s.putNode x d).dinode = update s.dinode x d := by
  funext y
  unfold dinode putNode
  rw [sb_store, buf_store]
  by_cases same : y = x
  · rw [same, update_self, update_self,
      getDinode_putDinode _ (Nat.mod_lt _ (by decide)) fits]
  · rw [update_of_ne same]
    by_cases block : IBLOCK y s.sb = IBLOCK x s.sb
    · have index : y % IPB ≠ x % IPB := by
        intro index
        simp only [IBLOCK] at block
        have hx := Nat.div_add_mod x IPB
        have hy := Nat.div_add_mod y IPB
        rw [Nat.add_right_cancel block, index] at hy
        exact same (hy.symm.trans hx)
      rw [block, update_self, getDinode_putDinode_ne _ index]
    · rw [update_of_ne block]

theorem entry_putEntry (inside : j < NINDIRECT) (fits : v < 2 ^ 32) :
    (s.putEntry b j v).entry b = update (s.entry b) j v := by
  have room : 4 * j + 4 ≤ BSIZE := by
    simp only [NINDIRECT, BSIZE] at *
    omega
  funext k
  unfold entry putEntry
  rw [buf_store, update_self]
  by_cases same : k = j
  · rw [same, update_self, Bytes.le32_setLe32_same _ _ room, Nat.mod_eq_of_lt (by exact fits)]
  · rw [update_of_ne same, Bytes.le32_setLe32_ne _ _ (by omega)]

end Vol

end Xv6
