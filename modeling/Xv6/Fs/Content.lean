/-
**Contents of files** (`kernel/fs.c`: `readi`).

`fileByte s d k` is the byte at offset `k` of the file with dinode `d`: the offset names a block of
the file, the block map of `d` its number on the disk. `readi` on a file without holes
(`Dinode.Full`) returns these bytes and changes nothing (`readi_spec`): `bmap` finds every block
that it asks for (`bmap_mapped`), so it never allocates one.
-/

import Xv6.Fs.Ownership

namespace Xv6

open Lib

/-! ### Copies to the user -/

namespace UserMem

theorem reach_all (u : UserMem) :
    ∀ fuel va len, len ≤ fuel → (u.reach fuel va len).2 = true → (u.reach fuel va len).1 = len := by
  intro fuel
  induction fuel with
  | zero =>
    intro va len enough _
    exact (Nat.le_zero.mp enough).symm
  | succ fuel ih =>
    intro va len enough done
    by_cases some : 0 < len
    · by_cases mapped : u.walkaddr (va / PGSIZE * PGSIZE) = true
      · simp only [reach, if_pos some, if_pos mapped] at done ⊢
        have page : 0 < PGSIZE - (va - va / PGSIZE * PGSIZE) := by
          simp only [PGSIZE]
          omega
        rw [ih _ _ (by omega) done]
        omega
      · simp only [reach, if_pos some, if_neg mapped] at done
        cases done
    · simp only [reach, if_neg some]
      exact (Nat.eq_zero_of_not_pos some).symm

end UserMem

/-- Every copy of at most `n` bytes succeeds. -/
def Dest.Takes (dst : Dest) (n : Nat) : Prop :=
  ∀ tot bytes, tot + bytes.length ≤ n → (dst.eitherCopyout tot bytes).2 = true

theorem Dest.takes_kernel (n : Nat) : Dest.kernel.Takes n := fun _ _ _ => rfl

theorem Dest.eitherCopyout_all {dst : Dest} {tot : Nat} {bytes : List Byte}
    (done : (dst.eitherCopyout tot bytes).2 = true) : (dst.eitherCopyout tot bytes).1 = bytes := by
  cases dst with
  | kernel => rfl
  | user u dst =>
    have all := u.reach_all bytes.length (dst + tot) bytes.length (Nat.le_refl _) done
    show bytes.take _ = bytes
    rw [all, List.take_length]

namespace Vol

theorem bread_known {s : Vol} {b : Nat} {B : Type} {post : B → Vol → Prop}
    {fails : VolPanic × Vol → Prop} {f : Block → VolM B} (rest : From s (f (s.buf b)) post fails) :
    From s (bread b >>= f) post fails := by
  intro t same
  subst same
  exact rest t rfl

theorem fileSlot_direct {bn : Nat} (direct : bn < NDIRECT) : fileSlot bn = bn := if_pos direct

theorem fileSlot_indirect {bn : Nat} (indirect : ¬ bn < NDIRECT) :
    fileSlot bn = NDIRECT + 1 + (bn - NDIRECT) := by
  rw [fileSlot, if_neg indirect]
  omega

theorem fileSlot_ne (bn : Nat) : fileSlot bn ≠ NDIRECT := by
  unfold fileSlot
  split <;> omega

/-! ### The bytes of a file -/

def fileByte (s : Vol) (d : Dinode) (k : Nat) : Byte :=
  (s.buf (d.slot s.entry (fileSlot (k / BSIZE)))).byte (k % BSIZE)

def fileBytes (s : Vol) (d : Dinode) (off len : Nat) : List Byte :=
  (List.range len).map fun j => s.fileByte d (off + j)

/-- Every block below the size has its number. -/
structure Dinode.Full (d : Dinode) (entry : Nat → Nat → Nat) : Prop where
  small : d.size ≤ MAXFILE * BSIZE
  mapped : ∀ n, n * BSIZE < d.size → d.slot entry (fileSlot n) ≠ 0

section Reading

variable {s : Vol} {i : Fin NINODE} {d : Dinode} {dst : Dest} {bn addr off n : Nat}
  {fails : VolPanic × Vol → Prop}

theorem fileBytes_add (off m k : Nat) :
    s.fileBytes d off (m + k) = s.fileBytes d off m ++ s.fileBytes d (off + m) k := by
  unfold fileBytes
  rw [List.range_add, List.map_append, List.map_map]
  simp only [Function.comp_def, Nat.add_assoc]

theorem slice_eq_fileBytes {m : Nat} (inside : m ≤ BSIZE - off % BSIZE) :
    (s.buf (d.slot s.entry (fileSlot (off / BSIZE)))).slice (off % BSIZE) m =
      s.fileBytes d off m := by
  unfold Bytes.slice fileBytes
  refine List.map_congr_left fun j below => ?_
  have below := List.mem_range.mp below
  have room := Nat.mod_lt off (show 0 < BSIZE by decide)
  have block : (off + j) / BSIZE = off / BSIZE ∧ (off + j) % BSIZE = off % BSIZE + j := by
    simp only [BSIZE] at *
    omega
  rw [fileByte, block.1, block.2]

theorem bmap_mapped (inside : bn < MAXFILE)
    (some : (s.itable i).copy.slot s.entry (fileSlot bn) ≠ 0) :
    From s (bmap i bn)
      (fun a t => a = (s.itable i).copy.slot s.entry (fileSlot bn) ∧ t = s) fails := by
  unfold bmap
  split
  case isTrue direct =>
    rw [fileSlot_direct direct, slot_addr (by omega)] at some ⊢
    refine .get_known (.ite (fun none => absurd none some) fun _ => ?_)
    exact .done ⟨rfl, rfl⟩
  case isFalse indirect =>
    have index : bn - NDIRECT < NINDIRECT := by
      simp only [MAXFILE] at inside
      omega
    rw [fileSlot_indirect indirect, slot_entry index] at some ⊢
    have loaded : (s.itable i).copy.indirect ≠ 0 := fun none => some (if_pos none)
    rw [if_neg loaded] at some ⊢
    rw [if_pos index]
    have finds : From s (addrOrAlloc i (Fin.last NDIRECT))
        (fun a t => a = (s.itable i).copy.indirect ∧ t = s) fails :=
      Triple.get_known (.ite (fun none => absurd none loaded) fun _ =>
        Triple.done ⟨rfl, rfl⟩)
    refine .bind finds fun ind => .of_fact fun isInd => bread_known ?_
    subst isInd
    exact .ite (fun none => absurd none some) fun _ => .done ⟨rfl, rfl⟩

/-- What `readi` returns: the bytes, or -1 if a copy fails. -/
def Reads (s : Vol) (d : Dinode) (dst : Dest) (off len : Nat) (r : Int × List Byte) : Prop :=
  (r.1 = -1 ∨ r = ((len : Int), s.fileBytes d off len)) ∧
    (dst.Takes len → r = ((len : Int), s.fileBytes d off len))

/-- **The loop of `readi`.** The first `tot` of the `n` bytes have arrived. -/
theorem readiLoop_spec (full : (s.itable i).copy.Full s.entry) (start : Nat)
    (inside : start + n ≤ (s.itable i).copy.size) :
    ∀ fuel tot, n ≤ tot + fuel → tot ≤ n →
      From s
        (readiLoop i dst n fuel tot (start + tot) (s.fileBytes (s.itable i).copy start tot))
        (fun r t => s.Reads (s.itable i).copy dst start n r ∧ t = s) fails := by
  intro fuel
  induction fuel with
  | zero =>
    intro tot enough below
    obtain rfl : tot = n := by omega
    exact .done ⟨⟨.inr rfl, fun _ => rfl⟩, rfl⟩
  | succ fuel ih =>
    intro tot enough below
    refine .ite (fun more => ?_) fun done => ?_
    · have room := Nat.mod_lt (start + tot) (show 0 < BSIZE by decide)
      have low := Nat.div_mul_le_self (start + tot) BSIZE
      have small := full.small
      have block : (start + tot) / BSIZE < MAXFILE := by
        rw [Nat.div_lt_iff_lt_mul (by decide)]
        omega
      refine .bind (bmap_mapped block (full.mapped _ (by omega))) fun addr => ?_
      refine .of_fact fun isAddr => bread_known ?_
      subst isAddr
      simp only [slice_eq_fileBytes (Nat.min_le_right (n - tot) (BSIZE - (start + tot) % BSIZE))]
      have length : (s.fileBytes (s.itable i).copy (start + tot)
          (min (n - tot) (BSIZE - (start + tot) % BSIZE))).length =
          min (n - tot) (BSIZE - (start + tot) % BSIZE) := by
        rw [fileBytes, List.length_map, List.length_range]
      refine .ite (fun sent => ?_) fun refused => ?_
      · rw [Dest.eitherCopyout_all sent, ← fileBytes_add, Nat.add_assoc]
        exact ih _ (by omega) (by omega)
      · refine .done ⟨⟨.inl rfl, fun takes => absurd (takes _ _ ?_) refused⟩, rfl⟩
        rw [length]
        omega
    · obtain rfl : tot = n := by omega
      exact .done ⟨⟨.inr rfl, fun _ => rfl⟩, rfl⟩

/-- **`readi` of a file without holes** returns its bytes from `off` up to `off + n` (an unsigned
sum) or the end of the file, and changes nothing. -/
theorem readi_spec (full : (s.itable i).copy.Full s.entry) (offFits : off < 2 ^ 32)
    (nFits : n < 2 ^ 32) :
    From s (readi i dst off n)
      (fun r t => s.Reads (s.itable i).copy dst off
        (min ((off + n) % 2 ^ 32) (s.itable i).copy.size - off) r ∧ t = s) fails := by
  refine .get_known (.ite (fun outside => ?_) fun inside => ?_)
  · have none : min ((off + n) % 2 ^ 32) (s.itable i).copy.size - off = 0 := by omega
    rw [none]
    exact .done ⟨⟨.inr rfl, fun _ => rfl⟩, rfl⟩
  · have some :
      (if (off + n) % 2 ^ 32 > (s.itable i).copy.size then (s.itable i).copy.size - off else n) =
        min ((off + n) % 2 ^ 32) (s.itable i).copy.size - off := by
      split <;> omega
    simp only [some]
    exact readiLoop_spec full off (by omega) _ 0 (by omega) (Nat.zero_le _)

end Reading

end Vol

end Xv6
