/-
**What `iappend` builds** (`mkfs/mkfs.c`).

`Built nodes files s` ties the image `s` to what its inodes are meant to hold: `files x` is the
content of inode `x`, with the number of blocks it takes. Blocks are handed out in order, so the
blocks in use are the ones below `freeblock`, and each of them stands at one place of one inode
(`Lib.Owns`). A block that is handed out is still zero, which makes a new indirect block empty.

The inodes are an argument: `iappend` works on a loaded inode and writes it back at the end. One
round of its loop is a place for the block (`blockOf_spec`) and a store into that block
(`Built.write`).
-/

import Xv6.Mkfs.Format
import Xv6.Fs.Content

namespace Xv6

open Lib Function

/-- The state of the kernel after it has booted from a disk with an empty log. -/
def Vol.boot (sb : Superblock) (disk : Disk) : Vol where
  sb := sb
  disk := disk
  cache := fun _ => none
  log := ⟨⟨2, LOGSIZE⟩, 0, false, []⟩
  written := ∅
  itable := fun _ => ⟨0, 0, false, false, ⟨0, 0, 0, 0, 0, fun _ => 0⟩⟩
  ftable := fun _ => ⟨.none, 0, false, false, 0, ⟨0, ninode_pos⟩, 0, 0⟩
  ofile := fun _ => none
  cwd := ⟨0, ninode_pos⟩

namespace Mkfs

/-- The image, as the kernel sees it. -/
def Image.vol (s : Image) : Vol := .boot sb s.disk

@[simp] theorem Image.buf_vol (s : Image) : s.vol.buf = s.disk := rfl

@[simp] theorem Image.sb_vol (s : Image) : s.vol.sb = sb := rfl

def Image.bump (s : Image) : Image := { s with freeblock := s.freeblock + 1 }

def Image.store (s : Image) (b : Nat) (data : Block) : Image :=
  { s with disk := update s.disk b data }

/-- An entry of an indirect block is set to the next free block. -/
def Image.putEntry (s : Image) (b j : Nat) : Image :=
  s.bump.store b ((s.disk b).setLe32 (4 * j) s.freeblock)

/-- An inode counts also before it has its type. -/
def live (nodes : Nat → Vol.Dinode) (x : Nat) : Vol.Dinode := { nodes x with type := T_FILE }

/-- The block at a place of the image. -/
def Image.own (s : Image) (nodes : Nat → Vol.Dinode) : Nat × Nat → Option Nat :=
  s.vol.owner (live nodes)

/-- What an inode is meant to hold, and the blocks that it has. -/
structure Plan where
  blocks : Nat
  indirect : Bool
  content : List Byte

def Plan.Has (p : Plan) (m : Nat) : Prop :=
  if m = NDIRECT then p.indirect = true else if m < NDIRECT then m < p.blocks else m - 1 < p.blocks

def Plan.need (p : Plan) : Nat := p.blocks + p.indirect.toNat

def used (files : Nat → Plan) : Nat := nmeta + ∑ x ∈ Finset.range NINODES, (files x).need

/-- **The image holds what was appended.** -/
structure Built (nodes : Nat → Vol.Dinode) (files : Nat → Plan) (s : Image) : Prop where
  sectors : s.sectors = FSSIZE
  boot : s.disk 0 = Bytes.zero
  super : s.disk 1 = superblock
  /-- blocks are handed out in order -/
  owns : Owns (s.own nodes) (fun b => s.freeblock ≤ b) (fun b => nmeta ≤ b)
  used : s.freeblock = used files
  zero : ∀ b, s.freeblock ≤ b → s.disk b = Bytes.zero
  has : ∀ x < NINODES, ∀ m, m < NDIRECT + 1 + NINDIRECT →
    (s.own nodes (x, m) ≠ none ↔ (files x).Has m)
  /-- beyond its content a file reads as zero -/
  bytes : ∀ x < NINODES, ∀ k, s.vol.fileByte (nodes x) k = (files x).content.getD k 0

section Basics

variable {nodes : Nat → Vol.Dinode} {files : Nat → Plan} {s t : Image} {x b m k : Nat}

theorem layout : sb.Layout := by
  constructor <;> decide

theorem own_eq_some :
    s.own nodes (x, m) = some b ↔ x < NINODES ∧ (nodes x).slot s.vol.entry m = b ∧ b ≠ 0 := by
  unfold Image.own
  rw [Vol.owner_eq_some]
  exact ⟨fun all => ⟨all.1, all.2.2⟩, fun all => ⟨all.1, (show T_FILE ≠ 0 by decide), all.2⟩⟩

theorem slot_eq_getD (inside : x < NINODES) :
    (nodes x).slot s.vol.entry m = (s.own nodes (x, m)).getD 0 := by
  by_cases none : (nodes x).slot s.vol.entry m = 0
  · have vacant : s.own nodes (x, m) = Option.none := by
      rw [Option.eq_none_iff_forall_ne_some]
      intro b at_
      obtain ⟨-, same, some⟩ := own_eq_some.mp at_
      exact some (same.symm.trans none)
    rw [vacant, none]
    rfl
  · rw [own_eq_some.mpr ⟨inside, rfl, none⟩]
    rfl

theorem sector_eq (small : b < 2 ^ 22) : sector b = b := by
  simp only [sector, BSIZE]
  omega

theorem used_update (files : Nat → Plan) (inside : x < NINODES) (p : Plan) :
    used (update files x p) + (files x).need = used files + p.need := by
  have member := Finset.mem_range.mpr inside
  have needs : ∀ y, (update files x p y).need = update (fun y => (files y).need) x p.need y :=
    fun y => apply_update (fun _ => Plan.need) files x p y
  unfold used
  rw [Finset.sum_congr rfl fun y _ => needs y, Finset.sum_update_of_mem member,
    Finset.sum_eq_add_sum_sdiff_singleton_of_mem member fun y => (files y).need]
  omega

section

variable (built : Built nodes files s)

include built

theorem Built.vacant (inside : x < NINODES) (index : m < NDIRECT + 1 + NINDIRECT)
    (hasNot : ¬ (files x).Has m) : s.own nodes (x, m) = none :=
  not_not.mp fun some => hasNot ((built.has x inside m index).mp some)

theorem Built.slot_eq_zero (inside : x < NINODES) (index : m < NDIRECT + 1 + NINDIRECT)
    (hasNot : ¬ (files x).Has m) : (nodes x).slot s.vol.entry m = 0 := by
  by_contra some
  have at_ := own_eq_some.mpr ⟨inside, rfl, some⟩
  rw [built.vacant inside index hasNot] at at_
  cases at_

theorem Built.slot_ne_zero (inside : x < NINODES) (index : m < NDIRECT + 1 + NINDIRECT)
    (has : (files x).Has m) : (nodes x).slot s.vol.entry m ≠ 0 := by
  obtain ⟨b, at_⟩ := Option.ne_none_iff_exists'.mp ((built.has x inside m index).mpr has)
  obtain ⟨-, same, some⟩ := own_eq_some.mp at_
  rw [same]
  exact some

theorem Built.freeblock_ge : nmeta ≤ s.freeblock := by
  rw [built.used]
  exact Nat.le_add_right _ _

theorem Built.freeblock_ne : s.freeblock ≠ 0 :=
  Nat.ne_of_gt (Nat.lt_of_lt_of_le (by decide) built.freeblock_ge)

theorem Built.put (inside : x < NINODES) {nodes' : Nat → Vol.Dinode} {p : Plan}
    (index : m < NDIRECT + 1 + NINDIRECT) (hasNot : ¬ (files x).Has m)
    (own : t.own nodes' = update (s.own nodes) (x, m) (some s.freeblock))
    (free : t.freeblock = s.freeblock + 1) (sectors : t.sectors = s.sectors)
    (low : ∀ b < nmeta, t.disk b = s.disk b) (high : ∀ b, s.freeblock ≤ b → t.disk b = s.disk b)
    (has : ∀ m', p.Has m' ↔ (files x).Has m' ∨ m' = m) (need : p.need = (files x).need + 1)
    (content : p.content = (files x).content)
    (bytes : ∀ y < NINODES, ∀ k, t.vol.fileByte (nodes' y) k = s.vol.fileByte (nodes y) k) :
    Built nodes' (update files x p) t where
  sectors := sectors.trans built.sectors
  boot := (low 0 (by decide)).trans built.boot
  super := (low 1 (by decide)).trans built.super
  owns := by
    rw [own]
    refine built.owns.put (built.vacant inside index hasNot) (Nat.le_refl _) built.freeblock_ge
      fun b _ => ?_
    rw [free]
    omega
  used := by
    have total := used_update files inside p
    rw [free, built.used]
    omega
  zero b above := by
    rw [free] at above
    rw [high b (by omega)]
    exact built.zero b (by omega)
  has y ok m' index' := by
    rw [own]
    by_cases same : (y, m') = (x, m)
    · obtain ⟨rfl, rfl⟩ := Prod.mk.inj same
      rw [update_self, update_self, has]
      exact ⟨fun _ => .inr rfl, fun _ => Option.some_ne_none _⟩
    · rw [update_of_ne same, built.has y ok m' index']
      revert same
      refine update_ind (fun same => ?_) fun _ _ => Iff.rfl
      have other : m' ≠ m := fun eq => same (by rw [eq])
      rw [has]
      exact ⟨.inl, fun either => either.resolve_right other⟩
  bytes y ok k := by
    rw [bytes y ok k, built.bytes y ok k]
    refine update_ind ?_ fun _ => rfl
    rw [content]

end

theorem live_update (nodes : Nat → Vol.Dinode) (d : Vol.Dinode) :
    live (update nodes x d) = update (live nodes) x { d with type := T_FILE } := by
  funext y
  exact apply_update (fun _ d => { d with type := T_FILE }) nodes x d y

/-- **`din.addrs[k] = xint(freeblock++)`** -/
theorem Built.putAddr (built : Built nodes files s) (inside : x < NINODES) {k : Fin (NDIRECT + 1)}
    {p : Plan} (hasNot : ¬ (files x).Has k.val) (has : ∀ m, p.Has m ↔ (files x).Has m ∨ m = k.val)
    (need : p.need = (files x).need + 1) (content : p.content = (files x).content) :
    Built (update nodes x ((nodes x).setAddr k s.freeblock)) (update files x p) s.bump ∧
      s.bump.own (update nodes x ((nodes x).setAddr k s.freeblock)) (x, k.val) =
        some s.freeblock := by
  have index : k.val < NDIRECT + 1 + NINDIRECT := Nat.lt_of_lt_of_le k.isLt (Nat.le_add_right _ _)
  have isZero := built.zero s.freeblock (Nat.le_refl _)
  have vacant : (nodes x).slot s.vol.entry k.val = 0 := built.slot_eq_zero inside index hasNot
  have fresh : k = Fin.last NDIRECT →
      (nodes x).indirect = 0 ∧ ∀ j, s.vol.entry s.freeblock j = 0 := by
    intro last
    refine ⟨?_, fun j => ?_⟩
    · rw [last] at vacant
      exact Vol.slot_indirect.symm.trans vacant
    · show (s.disk s.freeblock).le32 (4 * j) = 0
      rw [isZero, Bytes.le32_zero]
  have own : s.bump.own (update nodes x ((nodes x).setAddr k s.freeblock)) =
      update (s.own nodes) (x, k.val) (some s.freeblock) := by
    show s.vol.owner (live _) = _
    rw [live_update]
    exact Vol.owner_setAddr inside (show T_FILE ≠ 0 by decide) built.freeblock_ne fresh
  refine ⟨built.put inside index hasNot own rfl rfl (fun _ _ => rfl)
    (fun _ _ => rfl) has need content ?_, ?_⟩
  · intro y ok n
    by_cases same : y = x
    · subst same
      rw [update_self]
      show (s.disk (((nodes y).setAddr k s.freeblock).slot s.vol.entry _)).byte _ =
        (s.disk ((nodes y).slot s.vol.entry _)).byte _
      rw [Vol.slot_setAddr fresh]
      split
      case isTrue here => rw [here, vacant, isZero, built.boot]
      case isFalse => rfl
    · rw [update_of_ne same]
      rfl
  · rw [own, update_self]

theorem Built.own_lt (built : Built nodes files s) (at_ : s.own nodes (x, m) = some b) :
    nmeta ≤ b ∧ b < s.freeblock :=
  ⟨built.owns.inside at_, Nat.lt_of_not_le (built.owns.not_free at_)⟩

theorem Built.indirect_ne (built : Built nodes files s) (inside : x < NINODES)
    (some : (files x).indirect = true) : (nodes x).indirect ≠ 0 := by
  have held : (nodes x).slot s.vol.entry NDIRECT ≠ 0 :=
    built.slot_ne_zero inside (by decide) (by rw [Plan.Has, if_pos rfl]; exact some)
  rwa [Vol.slot_indirect] at held

theorem fileByte_vol (d : Vol.Dinode) : s.vol.fileByte d k =
    (s.disk (d.slot s.vol.entry (Vol.fileSlot (k / BSIZE)))).byte (k % BSIZE) := rfl

theorem Built.getD_ne (built : Built nodes files s) {y m' c : Nat}
    (at_ : s.own nodes (x, m) = some c) (other : (y, m') ≠ (x, m)) :
    (s.own nodes (y, m')).getD 0 ≠ c := by
  intro same
  cases held : s.own nodes (y, m') with
  | none =>
    rw [held] at same
    exact (own_eq_some.mp at_).2.2 same.symm
  | some c' =>
    rw [held] at same
    have same : c' = c := same
    exact other (built.owns.once (same ▸ held) at_)

/-- **`indirect[j] = xint(freeblock++)`** -/
theorem Built.putEntry (built : Built nodes files s) (inside : x < NINODES) {j : Nat} {p : Plan}
    (index : j < NINDIRECT) (some : (files x).indirect = true) (small : s.freeblock < 2 ^ 32)
    (hasNot : ¬ (files x).Has (NDIRECT + 1 + j))
    (has : ∀ m, p.Has m ↔ (files x).Has m ∨ m = NDIRECT + 1 + j)
    (need : p.need = (files x).need + 1) (content : p.content = (files x).content) :
    Built nodes (update files x p) (s.putEntry (nodes x).indirect j) ∧
      (s.putEntry (nodes x).indirect j).own nodes (x, NDIRECT + 1 + j) = .some s.freeblock := by
  have loaded : (nodes x).indirect ≠ 0 := built.indirect_ne inside some
  have at_ : s.own nodes (x, NDIRECT) = .some (nodes x).indirect :=
    own_eq_some.mpr ⟨inside, Vol.slot_indirect, loaded⟩
  have before := (built.own_lt at_).2
  have isZero := built.zero s.freeblock (Nat.le_refl _)
  have index' : NDIRECT + 1 + j < NDIRECT + 1 + NINDIRECT := by omega
  have own : (s.putEntry (nodes x).indirect j).own nodes =
      update (s.own nodes) (x, NDIRECT + 1 + j) (.some s.freeblock) := by
    have stored : (s.vol.putEntry (nodes x).indirect j s.freeblock).owner (live nodes) =
        update (s.own nodes) (x, NDIRECT + 1 + j) (.some s.freeblock) :=
      @Vol.owner_putEntry s.vol (live nodes) x s.freeblock j inside
        (show T_FILE ≠ 0 by decide) index
        built.freeblock_ne small loaded fun y there => (Prod.mk.inj (built.owns.once there at_)).1
    rw [← stored]
    refine Vol.owner_congr rfl fun y c _ i => Vol.entry_of_buf ?_
    rw [Vol.putEntry, Vol.buf_store]
    rfl
  refine ⟨built.put inside index' hasNot own rfl rfl (fun c low => ?_)
    (fun c high => ?_) has need content ?_, ?_⟩
  · have := built.owns.inside at_
    exact update_of_ne (by omega) _ _
  · exact update_of_ne (by omega) _ _
  · intro y ok n
    rw [fileByte_vol, fileByte_vol, slot_eq_getD ok, slot_eq_getD ok, own]
    by_cases here : (y, Vol.fileSlot (n / BSIZE)) = (x, NDIRECT + 1 + j)
    · rw [here, update_self, built.vacant inside index' hasNot]
      show (update s.disk (nodes x).indirect _ s.freeblock).byte _ = (s.disk 0).byte _
      rw [update_of_ne (by omega), isZero, built.boot]
    · rw [update_of_ne here]
      have other : (s.own nodes (y, Vol.fileSlot (n / BSIZE))).getD 0 ≠ (nodes x).indirect :=
        built.getD_ne at_ fun same => Vol.fileSlot_ne _ (Prod.mk.inj same).2
      show (update s.disk (nodes x).indirect _ _).byte _ = _
      rw [update_of_ne other]
  · rw [own, update_self]

theorem fileSlot_injective {n n' : Nat} (same : Vol.fileSlot n = Vol.fileSlot n') : n = n' := by
  unfold Vol.fileSlot at same
  split at same <;> split at same <;> omega

/-- **Bytes are appended in the block that holds the end of the file.** -/
theorem Built.write (built : Built nodes files s) (inside : x < NINODES) {c : Nat} {q : List Byte}
    (at_ : s.own nodes (x, Vol.fileSlot ((files x).content.length / BSIZE)) = some c)
    (room : q.length ≤ BSIZE - (files x).content.length % BSIZE) :
    Built nodes (update files x { files x with content := (files x).content ++ q })
      (s.store c ((s.disk c).splice ((files x).content.length % BSIZE) q)) := by
  obtain ⟨low, high⟩ := built.own_lt at_
  have own : (s.store c ((s.disk c).splice ((files x).content.length % BSIZE) q)).own nodes =
      s.own nodes := by
    refine Vol.owner_congr rfl fun y d there i => Vol.entry_of_buf ?_
    refine update_of_ne (fun same => ?_) _ _
    exact Vol.fileSlot_ne _ (Prod.mk.inj (built.owns.once at_ (same ▸ there))).2
  have needs := used_update files inside { files x with content := (files x).content ++ q }
  refine {
    sectors := built.sectors
    boot := (update_of_ne (by have : 0 < nmeta := by decide
                              omega) _ _).trans built.boot
    super := (update_of_ne (by have : 1 < nmeta := by decide
                               omega) _ _).trans built.super
    owns := own ▸ built.owns
    used := built.used.trans (Nat.add_right_cancel needs).symm
    zero := fun b above => ?_
    has := fun y ok m index => ?_
    bytes := fun y ok k => ?_ }
  · have above : s.freeblock ≤ b := above
    exact (update_of_ne (by omega) _ _).trans (built.zero b above)
  · rw [own, built.has y ok m index]
    exact update_ind Iff.rfl fun _ => Iff.rfl
  · have before := built.bytes y ok k
    rw [fileByte_vol, slot_eq_getD ok] at before ⊢
    rw [own]
    show (update s.disk c _ _).byte _ = _
    by_cases here : (y, Vol.fileSlot (k / BSIZE)) =
        (x, Vol.fileSlot ((files x).content.length / BSIZE))
    · obtain ⟨rfl, slots⟩ := Prod.mk.inj here
      have block := fileSlot_injective slots
      have small := Nat.mod_lt k (show 0 < BSIZE by decide)
      rw [slots, at_] at before ⊢
      rw [Option.getD_some] at before ⊢
      rw [update_self, update_self, Bytes.byte_splice _ small, before]
      have halves := Nat.div_add_mod k BSIZE
      have ends := Nat.div_add_mod (files y).content.length BSIZE
      rw [block] at halves
      split
      case isTrue after =>
        have beyond : (files y).content.length ≤ k := by omega
        have same : k % BSIZE - (files y).content.length % BSIZE = k - (files y).content.length :=
          by omega
        rw [List.getD_append_right _ _ _ _ beyond, List.getD_eq_default _ _ beyond, same,
          List.getD_eq_getElem?_getD]
      case isFalse early => rw [List.getD_append _ _ _ _ (by omega)]
    · rw [update_of_ne (built.getD_ne at_ here), before]
      by_cases same : y = x
      · subst same
        rw [update_self]
        have elsewhere : k / BSIZE ≠ (files y).content.length / BSIZE := fun eq => here (by rw [eq])
        by_cases early : k < (files y).content.length
        · rw [List.getD_append _ _ _ _ early]
        · have beyond : q.length ≤ k - (files y).content.length := by
            simp only [BSIZE] at *
            omega
          rw [List.getD_append_right _ _ _ _ (by omega), List.getD_eq_default _ _ (by omega),
            List.getD_eq_default _ _ beyond]
      · rw [update_of_ne same]

end Basics

/-! ### One round of the loop -/

theorem Plan.has_fileSlot (p : Plan) (n : Nat) : p.Has (Vol.fileSlot n) ↔ n < p.blocks := by
  rw [Plan.Has, if_neg (Vol.fileSlot_ne n)]
  unfold Vol.fileSlot
  split
  case isTrue direct => rfl
  case isFalse indirect => rw [if_neg (by omega), Nat.add_sub_cancel]

/-- The plan with one block more for the end of the file. -/
def Plan.grown (p : Plan) (fbn : Nat) : Plan :=
  { p with blocks := fbn + 1, indirect := decide (NDIRECT < fbn + 1) }

theorem Plan.has_grown {p : Plan} {fbn m : Nat} (blocks : p.blocks = fbn)
    (indirect : p.indirect = decide (NDIRECT < fbn + 1)) :
    (p.grown fbn).Has m ↔ p.Has m ∨ m = Vol.fileSlot fbn := by
  unfold Plan.Has Plan.grown Vol.fileSlot
  rw [indirect, blocks]
  simp only [decide_eq_true_eq]
  split_ifs <;> omega

theorem Plan.need_grown {p : Plan} {fbn : Nat} (blocks : p.blocks = fbn)
    (indirect : p.indirect = decide (NDIRECT < fbn + 1)) : (p.grown fbn).need = p.need + 1 := by
  show fbn + 1 + (decide (NDIRECT < fbn + 1)).toNat = p.blocks + p.indirect.toNat + 1
  rw [indirect, blocks]
  omega

theorem Plan.grown_eq_self {p : Plan} {fbn : Nat} (blocks : p.blocks = fbn + 1)
    (indirect : p.indirect = decide (NDIRECT < fbn + 1)) : p.grown fbn = p := by
  unfold Plan.grown
  rw [← indirect, ← blocks]

def Plan.of (content : List Byte) : Plan where
  blocks := (content.length + BSIZE - 1) / BSIZE
  indirect := decide (NDIRECT < (content.length + BSIZE - 1) / BSIZE)
  content := content

theorem Plan.need_le {p q : Plan} (blocks : p.blocks ≤ q.blocks)
    (indirect : p.indirect = decide (NDIRECT < p.blocks))
    (indirect' : q.indirect = decide (NDIRECT < q.blocks)) : p.need ≤ q.need := by
  have bits : (decide (NDIRECT < p.blocks)).toNat ≤ (decide (NDIRECT < q.blocks)).toNat := by
    refine Bool.toNat_le_toNat fun isTrue => ?_
    rw [decide_eq_true_eq] at isTrue ⊢
    omega
  unfold Plan.need
  rw [indirect, indirect']
  omega

section Round

variable {nodes : Nat → Vol.Dinode} {files : Nat → Plan} {s t : Image} {x b m k fbn : Nat}
  {A : Type}
  {post : A → Image → Prop} {fails : Stop → Prop}

theorem rsect_spec (sectors : s.sectors = FSSIZE) (small : b < 2 ^ 22) :
    From s (rsect b) (fun data t => (b < FSSIZE ∧ data = s.disk b) ∧ t = s)
      fun _ => FSSIZE ≤ b := by
  refine .get_known ?_
  rw [sector_eq small, sectors]
  refine .ite (fun inside => ?_) fun outside => ?_
  · exact .done ⟨⟨inside, rfl⟩, rfl⟩
  · exact .throw fun _ _ => Nat.le_of_not_lt outside

theorem rsect_known {f : Block → MkfsM A} (sectors : s.sectors = FSSIZE) (inside : b < FSSIZE)
    (rest : From s (f (s.disk b)) post fails) : From s (rsect b >>= f) post fails := by
  have small : b < 2 ^ 22 := Nat.lt_trans inside (by decide)
  refine .bind ((rsect_spec sectors small).to_fails fun _ outside => absurd inside (Nat.not_lt.mpr outside)) fun data => ?_
  exact .of_fact fun found => found.2 ▸ rest

theorem wsect_spec (sectors : s.sectors = FSSIZE) (inside : b < FSSIZE) (data : Block) :
    From s (wsect b data) (fun _ t => t = s.store b data) fails := by
  refine .modify fun t same => ?_
  subst same
  have small : b < 2 ^ 22 := Nat.lt_trans inside (by decide)
  rw [sector_eq small, sectors, Nat.max_eq_left (by omega), ← sectors]
  rfl

theorem newBlock_known {f : Nat → MkfsM A} (rest : From s.bump (f s.freeblock) post fails) :
    From s (newBlock >>= f) post fails := by
  intro t same
  subst same
  exact rest _ rfl

/-- What `blockOf` leaves: the block has a place in the loaded inode. -/
structure Placed (nodes : Nat → Vol.Dinode) (files : Nat → Plan) (x fbn : Nat) (s : Image)
    (r : Vol.Dinode × Nat) (t : Image) : Prop where
  built : Built (update nodes x r.1) (update files x ((files x).grown fbn)) t
  own : t.own (update nodes x r.1) (x, Vol.fileSlot fbn) = some r.2
  node : ∃ addrs, r.1 = { nodes x with addrs := addrs }
  near : r.2 ≤ FSSIZE
  full : r.2 < FSSIZE → t.freeblock ≤ FSSIZE
  low : ∀ c < nmeta, t.disk c = s.disk c
  freeinode : t.freeinode = s.freeinode

/-- **`entryOf`** of an inode that has its indirect block. -/
theorem entryOf_spec (built : Built nodes files s) (inside : x < NINODES)
    (indirect : ¬ fbn < NDIRECT) (small : fbn < MAXFILE) (full : s.freeblock ≤ FSSIZE)
    (some : (files x).indirect = true)
    (blocks : (files x).blocks = fbn ∨ (files x).blocks = fbn + 1) :
    From s (entryOf (nodes x) fbn) (Placed nodes files x fbn s) fails := by
  have index : fbn - NDIRECT < NINDIRECT := by
    simp only [MAXFILE] at small
    omega
  have loaded : (nodes x).indirect ≠ 0 := built.indirect_ne inside some
  have at_ : s.own nodes (x, NDIRECT) = .some (nodes x).indirect :=
    own_eq_some.mpr ⟨inside, Vol.slot_indirect, loaded⟩
  have before := (built.own_lt at_).2
  have slot : (nodes x).slot s.vol.entry (Vol.fileSlot fbn) =
      (s.disk (nodes x).indirect).le32 (4 * (fbn - NDIRECT)) := by
    rw [Vol.fileSlot_indirect indirect, Vol.slot_entry index, if_neg loaded]
    rfl
  have slots : Vol.fileSlot fbn < NDIRECT + 1 + NINDIRECT := by
    rw [Vol.fileSlot_indirect indirect]
    omega
  refine rsect_known built.sectors (by omega) (.ite (fun none => ?_) fun used => ?_)
  · have hasNot : ¬ (files x).Has (Vol.fileSlot fbn) := fun has =>
      built.slot_ne_zero inside slots has (slot.trans none)
    have grows := hasNot
    rw [Plan.has_fileSlot] at grows
    rw [Vol.fileSlot_indirect indirect] at hasNot
    refine newBlock_known (.bind (wsect_spec (by exact built.sectors) (by omega) _) fun _ => ?_)
    refine .done ?_
    have fits : s.freeblock < 2 ^ 32 := Nat.lt_of_le_of_lt full (by decide)
    have blocks : (files x).blocks = fbn := by omega
    have indirects : (files x).indirect = decide (NDIRECT < fbn + 1) := by
      rw [some, decide_eq_true (by omega)]
    have has : ∀ m, ((files x).grown fbn).Has m ↔
        (files x).Has m ∨ m = NDIRECT + 1 + (fbn - NDIRECT) := fun m => by
      rw [Plan.has_grown blocks indirects, Vol.fileSlot_indirect indirect]
    obtain ⟨now, own⟩ := built.putEntry inside index some fits hasNot has
      (Plan.need_grown blocks indirects) rfl
    refine ⟨?_, ?_, ⟨_, rfl⟩, full, fun small => small, fun c low => ?_, rfl⟩
    · rw [update_eq_self]
      exact now
    · rw [update_eq_self, Vol.fileSlot_indirect indirect]
      exact own
    · have := built.owns.inside at_
      exact update_of_ne (by omega) _ _
  · have has : (files x).Has (Vol.fileSlot fbn) := by
      by_contra hasNot
      exact used (slot.symm.trans (built.slot_eq_zero inside slots hasNot))
    rw [Plan.has_fileSlot] at has
    have same : (files x).grown fbn = files x := by
      refine Plan.grown_eq_self (by omega) ?_
      rw [some, decide_eq_true (by omega)]
    refine .pure fun t isS => ?_
    subst isS
    have own : t.own nodes (x, Vol.fileSlot fbn) = _ := own_eq_some.mpr ⟨inside, slot, used⟩
    have near := (built.own_lt own).2
    refine ⟨?_, ?_, ⟨_, rfl⟩, by omega, fun _ => full, fun _ _ => rfl, rfl⟩
    · rw [same, update_eq_self, update_eq_self]
      exact built
    · rw [update_eq_self]
      exact own

theorem Plan.has_indirect (p : Plan) : p.Has NDIRECT ↔ p.indirect = true := by
  rw [Plan.Has, if_pos rfl]

/-- **`indirectOf`** makes the indirect block if there is none. -/
theorem indirectOf_spec (built : Built nodes files s) (inside : x < NINODES) :
    From s (indirectOf (nodes x)) (fun din t => Built (update nodes x din)
          (update files x { files x with indirect := true }) t ∧
        (∃ addrs, din = { nodes x with addrs := addrs }) ∧ (∀ c, t.disk c = s.disk c) ∧
        t.freeinode = s.freeinode ∧
        (if (files x).indirect then t.freeblock = s.freeblock
          else t.freeblock = s.freeblock + 1 ∧ din.indirect = s.freeblock))
      fails := by
  refine .ite (fun none => ?_) fun some => ?_
  · have hasNot : ¬ (files x).Has NDIRECT := fun has =>
      built.slot_ne_zero inside (by decide) has (Vol.slot_indirect.trans none)
    have absent : (files x).indirect = false :=
      Bool.eq_false_iff.mpr fun has => hasNot ((Plan.has_indirect _).mpr has)
    refine newBlock_known (.done ?_)
    have has : ∀ m, Plan.Has { files x with indirect := true } m ↔ (files x).Has m ∨
      m = NDIRECT := by
      intro m
      unfold Plan.Has
      rw [absent]
      split_ifs <;> simp_all
    have need : Plan.need { files x with indirect := true } = (files x).need + 1 := by
      show (files x).blocks + 1 = (files x).blocks + (files x).indirect.toNat + 1
      rw [absent]
      rfl
    obtain ⟨now, -⟩ := built.putAddr (k := Fin.last NDIRECT) inside hasNot has need rfl
    refine ⟨now, ⟨_, rfl⟩, fun _ => rfl, rfl, ?_⟩
    rw [absent]
    refine ⟨rfl, ?_⟩
    show update (nodes x).addrs (Fin.last NDIRECT) s.freeblock (Fin.last NDIRECT) = s.freeblock
    rw [update_self]
  · have has : (files x).indirect = true := by
      rw [← Plan.has_indirect]
      by_contra hasNot
      exact some (Vol.slot_indirect.symm.trans (built.slot_eq_zero inside (by decide) hasNot))
    have same : ({ files x with indirect := true } : Plan) = files x := by rw [← has]
    refine .pure fun t isS => ?_
    subst isS
    rw [same, update_eq_self, update_eq_self, has]
    exact ⟨built, ⟨_, rfl⟩, fun _ => rfl, rfl, rfl⟩

theorem blockOf_spec (built : Built nodes files s) (inside : x < NINODES) (small : fbn < MAXFILE)
    (full : s.freeblock ≤ FSSIZE)
    (indirects : (files x).indirect = decide (NDIRECT < (files x).blocks))
    (blocks : (files x).blocks = fbn ∨ (files x).blocks = fbn + 1) :
    From s (blockOf (nodes x) fbn) (Placed nodes files x fbn s)
      fun _ => FSSIZE < used (update files x ((files x).grown fbn)) := by
  unfold blockOf
  split
  case isTrue direct =>
    have slot := Vol.slot_addr (d := nodes x) (e := s.vol.entry) (k := fbn) (by omega)
    have slots : Vol.fileSlot fbn = fbn := Vol.fileSlot_direct direct
    have index : fbn < NDIRECT + 1 + NINDIRECT := by omega
    refine .ite (fun none => ?_) fun used => ?_
    · have hasNot : ¬ (files x).Has fbn := fun has =>
        built.slot_ne_zero inside index has (slot.trans none)
      have grows : ¬ fbn < (files x).blocks := by
        rwa [← slots, Plan.has_fileSlot] at hasNot
      have same : (files x).blocks = fbn := by omega
      rw [same] at indirects
      have indirects : (files x).indirect = decide (NDIRECT < fbn + 1) := by
        rw [indirects]
        exact decide_eq_decide.mpr (by omega)
      refine newBlock_known (.pure fun t isS => ?_)
      subst isS
      obtain ⟨now, own⟩ := built.putAddr (k := ⟨fbn, by omega⟩) inside hasNot
        (fun m => by rw [Plan.has_grown same indirects, slots]) (Plan.need_grown same indirects) rfl
      refine ⟨now, ?_, ⟨_, rfl⟩, full, fun below => below, fun _ _ => rfl, rfl⟩
      rw [slots]
      exact own
    · have has : (files x).Has fbn := by
        by_contra hasNot
        exact used (slot.symm.trans (built.slot_eq_zero inside index hasNot))
      rw [← slots, Plan.has_fileSlot] at has
      have blocks : (files x).blocks = fbn + 1 := by omega
      rw [blocks] at indirects
      refine .pure fun t isS => ?_
      subst isS
      have own : t.own nodes (x, fbn) = _ := own_eq_some.mpr ⟨inside, slot, used⟩
      have near := (built.own_lt own).2
      refine ⟨?_, ?_, ⟨_, rfl⟩, by omega, fun _ => full, fun _ _ => rfl, rfl⟩
      · rw [Plan.grown_eq_self blocks indirects, update_eq_self, update_eq_self]
        exact built
      · rw [update_eq_self, slots]
        exact own
  case isFalse indirect =>
    refine .bind (indirectOf_spec built inside) fun din => .each fun t found => ?_
    obtain ⟨now, ⟨addrs, node⟩, disk, freeinode, free⟩ := found
    have atX : update nodes x din x = din := update_self _ _ _
    have plan : update files x { files x with indirect := true } x =
      { files x with indirect := true } := update_self _ _ _
    by_cases room : t.freeblock ≤ FSSIZE
    · have finds : From t (entryOf (update nodes x din x) fbn) _
          fun _ => FSSIZE < used (update files x ((files x).grown fbn)) :=
        entryOf_spec now inside indirect small room (by rw [plan]) (by rw [plan]; exact blocks)
      rw [atX] at finds
      refine finds.to_post ?_
      rintro r u ⟨built', own, ⟨addrs', node'⟩, near, full', low, freeinode'⟩
      rw [update_idem] at built' own
      rw [plan, update_idem] at built'
      refine ⟨built', own, ⟨addrs', ?_⟩, near, full', fun c below => (low c below).trans (disk c),
        freeinode'.trans freeinode⟩
      rw [node', atX, node]
    · -- the indirect block was the last one
      have new : t.freeblock = s.freeblock + 1 ∧ din.indirect = s.freeblock := by
        split at free
        · omega
        · exact free
      have more := used_update files inside { files x with indirect := true }
      have most := used_update files inside ((files x).grown fbn)
      have needs : Plan.need { files x with indirect := true } ≤ ((files x).grown fbn).need := by
        show (files x).blocks + 1 ≤ fbn + 1 + (decide (NDIRECT < fbn + 1)).toNat
        rw [decide_eq_true (by omega)]
        show (files x).blocks + 1 ≤ fbn + 1 + 1
        omega
      have total := now.used
      have narrow : din.indirect < 2 ^ 22 := by
        have : FSSIZE < 2 ^ 22 := by decide
        omega
      refine .bind ((rsect_spec now.sectors narrow).to_fails fun _ _ => by omega) fun data => .of_fact fun found => ?_
      exact absurd found.1 (by omega)

end Round

/-! ### `iappend` -/

section Append

variable {nodes : Nat → Vol.Dinode} {files : Nat → Plan} {s t : Image} {x : Nat} {c : List Byte}

/-- What keeps bytes from being appended: the disk or the file is full. -/
def NoRoom (files : Nat → Plan) (x : Nat) (content : List Byte) : Prop :=
  FSSIZE < used (update files x (Plan.of content)) ∨ MAXFILE * BSIZE < content.length

/-- What the loop of `iappend` leaves. -/
structure Appended (nodes : Nat → Vol.Dinode) (files : Nat → Plan) (x : Nat) (content : List Byte)
    (s : Image) (r : Vol.Dinode × Nat) (t : Image) : Prop where
  built : Built (update nodes x r.1) (update files x (Plan.of content)) t
  off : r.2 = content.length
  small : content.length ≤ MAXFILE * BSIZE
  node : ∃ addrs, r.1 = { nodes x with addrs := addrs }
  full : t.freeblock ≤ FSSIZE
  low : ∀ b < nmeta, t.disk b = s.disk b
  freeinode : t.freeinode = s.freeinode

theorem Plan.grown_write {q : List Byte} (some : 0 < q.length)
    (room : q.length ≤ BSIZE - c.length % BSIZE) :
    ({ (Plan.of c).grown (c.length / BSIZE) with content := c ++ q } : Plan) =
      Plan.of (c ++ q) := by
  have blocks : ((c ++ q).length + BSIZE - 1) / BSIZE = c.length / BSIZE + 1 := by
    rw [List.length_append]
    simp only [BSIZE] at *
    omega
  unfold Plan.of Plan.grown
  rw [blocks]

/-- The second half of a round: the bytes are stored, and the rest is appended. -/
theorem writeRound_spec {fuel b : Nat} {p : List Byte} {din : Vol.Dinode} (inside : x < NINODES)
    (plan : files x = Plan.of c) (more : 0 < p.length)
    (placed : Placed nodes files x (c.length / BSIZE) s (din, b) t) (small : b < FSSIZE)
    (ih : ∀ {nodes : Nat → Vol.Dinode} {files : Nat → Plan} {s : Image} {c p : List Byte},
      p.length ≤ fuel → files x = Plan.of c → c.length ≤ MAXFILE * BSIZE → Built nodes files s →
      s.freeblock ≤ FSSIZE → From s (iappendLoop fuel (nodes x) c.length p)
        (Appended nodes files x (c ++ p) s) fun _ => NoRoom files x (c ++ p))
    (inFile : c.length / BSIZE < MAXFILE) (enough : p.length ≤ fuel + 1) :
    From t
      (do
        wsect b ((t.disk b).splice (c.length - c.length / BSIZE * BSIZE)
          (p.take (min p.length ((c.length / BSIZE + 1) * BSIZE - c.length))))
        iappendLoop fuel din (c.length + min p.length ((c.length / BSIZE + 1) * BSIZE - c.length))
          (p.drop (min p.length ((c.length / BSIZE + 1) * BSIZE - c.length))))
      (Appended nodes files x (c ++ p) s) fun _ => NoRoom files x (c ++ p) := by
  have halves := Nat.div_add_mod c.length BSIZE
  have below := Nat.mod_lt c.length (show 0 < BSIZE by decide)
  generalize isN1 : min p.length ((c.length / BSIZE + 1) * BSIZE - c.length) = n1
  have n1Pos : 0 < n1 ∧ n1 ≤ p.length ∧ n1 ≤ BSIZE - c.length % BSIZE := by
    simp only [BSIZE] at *
    omega
  have length : (p.take n1).length = n1 := List.length_take_of_le n1Pos.2.1
  have offset : c.length - c.length / BSIZE * BSIZE = c.length % BSIZE := by
    rw [Nat.mul_comm] at halves
    omega
  have content : (update files x ((files x).grown (c.length / BSIZE)) x).content = c := by
    rw [update_self, plan]
    rfl
  have written :=
    placed.built.write (q := p.take n1) (c := b) inside (by rw [content]; exact placed.own)
    (by rw [content, length]; exact n1Pos.2.2)
  rw [content, update_idem, update_self, plan,
    Plan.grown_write (by rw [length]; exact n1Pos.1) (by rw [length]; exact n1Pos.2.2)] at written
  refine .bind (wsect_spec placed.built.sectors small _) fun _ => ?_
  rw [offset]
  have stillSmall : (c ++ p.take n1).length ≤ MAXFILE * BSIZE := by
    rw [List.length_append, length]
    simp only [BSIZE] at *
    omega
  have rest := ih (p := p.drop n1) (by rw [List.length_drop]; omega) (update_self x _ files)
    stillSmall written (placed.full small)
  rw [update_self, List.length_append, length, List.append_assoc, List.take_append_drop] at rest
  refine rest.weaken (fun _ same => same) ?_ ?_
  · rintro r u ⟨built, off, small, ⟨addrs, node⟩, full, low, freeinode⟩
    rw [update_idem, update_idem] at built
    obtain ⟨addrs', node'⟩ := placed.node
    have node' : din = _ := node'
    refine ⟨built, off, small, ⟨addrs, ?_⟩, full, fun c' small' => ?_,
      freeinode.trans placed.freeinode⟩
    · rw [node, update_self, node']
    · refine (low c' small').trans (Eq.trans ?_ (placed.low c' small'))
      have := (placed.built.own_lt placed.own).1
      exact update_of_ne (by omega) _ _
  · intro _ noRoom
    unfold NoRoom at noRoom ⊢
    rwa [update_idem] at noRoom

theorem iappendLoop_spec (inside : x < NINODES) (fuel : Nat) :
    ∀ {nodes : Nat → Vol.Dinode} {files : Nat → Plan} {s : Image} {c p : List Byte},
      p.length ≤ fuel →
      files x = Plan.of c → c.length ≤ MAXFILE * BSIZE → Built nodes files s →
      s.freeblock ≤ FSSIZE →
      From s (iappendLoop fuel (nodes x) c.length p)
        (Appended nodes files x (c ++ p) s) fun _ => NoRoom files x (c ++ p) := by
  have finished : ∀ {nodes : Nat → Vol.Dinode} {files : Nat → Plan} {s : Image} {c p : List Byte},
      p = [] → files x = Plan.of c → c.length ≤ MAXFILE * BSIZE → Built nodes files s →
      s.freeblock ≤ FSSIZE → Appended nodes files x (c ++ p) s (nodes x, c.length) s := by
    rintro nodes files s c p rfl plan small built full
    refine ⟨?_, ?_, ?_, ⟨_, rfl⟩, full, fun _ _ => rfl, rfl⟩
    · rw [update_eq_self, List.append_nil, ← plan, update_eq_self]
      exact built
    · rw [List.append_nil]
    · rwa [List.append_nil]
  induction fuel with
  | zero =>
    intro nodes files s c p enough plan inFile built full
    exact .done (finished (List.length_eq_zero_iff.mp (Nat.le_zero.mp enough)) plan inFile built full)
  | succ fuel ih =>
    intro nodes files s c p enough plan inFile built full
    refine .ite (fun more => ?_) fun done => ?_
    · have halves := Nat.div_add_mod c.length BSIZE
      have small := Nat.mod_lt c.length (show 0 < BSIZE by decide)
      have length : (c ++ p).length = c.length + p.length := List.length_append
      refine .ite (fun below => ?_) fun above => ?_
      · have blocks : (files x).blocks = c.length / BSIZE ∨ (files x).blocks = c.length / BSIZE +
          1 := by
          rw [plan]
          show (c.length + BSIZE - 1) / BSIZE = _ ∨ (c.length + BSIZE - 1) / BSIZE = _
          simp only [BSIZE] at *
          omega
        have noRoom : FSSIZE < used (update files x ((files x).grown (c.length / BSIZE))) →
            NoRoom files x (c ++ p) := by
          intro tooMany
          have one := used_update files inside ((files x).grown (c.length / BSIZE))
          have all := used_update files inside (Plan.of (c ++ p))
          have needs : ((files x).grown (c.length / BSIZE)).need ≤ (Plan.of (c ++ p)).need := by
            refine Plan.need_le ?_ rfl rfl
            show c.length / BSIZE + 1 ≤ ((c ++ p).length + BSIZE - 1) / BSIZE
            simp only [BSIZE] at *
            omega
          exact .inl (by omega)
        refine .bind ((blockOf_spec built inside below full (by rw [plan]; rfl) blocks).weaken
          (fun _ same => same) (fun _ _ holds => holds) fun _ => noRoom) fun r => ?_
        refine .each fun t placed => ?_
        obtain ⟨din, b⟩ := r
        have inUse := placed.built.own_lt placed.own
        have narrow : b < 2 ^ 22 := Nat.lt_of_le_of_lt placed.near (by decide)
        refine .bind ((rsect_spec placed.built.sectors narrow).to_fails fun _ outside => noRoom ?_) fun data => .of_fact fun found => ?_
        · have total := placed.built.used
          omega
        · obtain ⟨small', rfl⟩ := found
          exact writeRound_spec inside plan more placed small' ih below enough
      · refine .throw fun _ _ => .inr ?_
        rw [length]
        have high := Nat.le_of_not_lt above
        rw [Nat.le_div_iff_mul_le (by decide)] at high
        omega
    · refine .done ?_
      exact finished (List.length_eq_zero_iff.mp (Nat.eq_zero_of_not_pos done)) plan inFile built
        full

end Append

end Mkfs

end Xv6
