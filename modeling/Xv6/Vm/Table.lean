/-
**Page tables in memory** (`kernel/vm.c`: `walk`).

A page table is a radix tree with 512 entries a node, in pages of physical memory (`Lib.Radix`).
What it is for is the function `Ram.pte`: the PTE of every virtual page, 0 where there is none.

`Table area root s`: every page of `area` is either on the free list or a page-table page at one
place of the tree. `area` stays the same while pages move between the two, so what is outside of it
is what the operations leave alone. `Becomes area root map s t` says what such an operation does:
the PTEs are `map` now, and nothing outside of `area` has changed.

* `Table.storeLeaf`, `Table.install`: the two kinds of stores;
* `walk_lookup`, `walk_spec`: `walk` without and with allocation.
-/

import Xv6.Vm.Machine
import Xv6.Lib.Radix
import Xv6.Lib.Owners

set_option linter.unusedSectionVars false

namespace Xv6.Vm

open Lib Function

/-! ### Bits of a PTE -/

section Bits

theorem and_PTE_V (v : Nat) : v &&& PTE_V = v % 2 := Nat.and_one_is_mod v

theorem PTE_FLAGS_eq (v : Nat) : PTE_FLAGS v = v % 1024 := Nat.and_two_pow_sub_one_eq_mod v 10

theorem PX_eq (level va : Nat) : PX level va = va / 2 ^ (12 + 9 * level) % 512 := by
  rw [PX, Nat.shiftRight_eq_div_pow]
  exact Nat.and_two_pow_sub_one_eq_mod _ 9

theorem PTE2PA_eq (v : Nat) : PTE2PA v = v / 1024 * 4096 % 2 ^ 64 := by
  rw [PTE2PA, Nat.shiftRight_eq_div_pow, Nat.shiftLeft_eq]

theorem PA2PTE_or (pa : Nat) {flags : Nat} (small : flags < 1024) :
    PA2PTE pa ||| flags = pa / 4096 * 1024 + flags := by
  rw [PA2PTE, Nat.shiftRight_eq_div_pow, Nat.shiftLeft_eq, Nat.mul_comm]
  exact (Nat.two_pow_add_eq_or_of_lt small _).symm

theorem or_PTE_V_lt {perm : Nat} (small : perm < 1024) : perm ||| PTE_V < 1024 :=
  Nat.or_lt_two_pow (n := 10) small (by decide)

theorem or_PTE_V_mod (perm : Nat) : (perm ||| PTE_V) % 2 = 1 := by
  rw [← Nat.and_one_is_mod]
  simp [PTE_V]

/-- What `mappages` stores. -/
def leafPte (pa perm : Nat) : Nat := PA2PTE pa ||| perm ||| PTE_V

variable {pa perm : Nat}

theorem leafPte_eq (small : perm < 1024) :
    leafPte pa perm = pa / 4096 * 1024 + (perm ||| PTE_V) := by
  rw [leafPte, Nat.or_assoc, PA2PTE_or pa (or_PTE_V_lt small)]

theorem leafPte_valid (small : perm < 1024) : leafPte pa perm % 2 = 1 := by
  have flag := or_PTE_V_mod perm
  rw [leafPte_eq small]
  omega

theorem PTE_FLAGS_leafPte (small : perm < 1024) : PTE_FLAGS (leafPte pa perm) = perm ||| PTE_V := by
  have flags := or_PTE_V_lt small
  rw [PTE_FLAGS_eq, leafPte_eq small]
  omega

theorem PTE2PA_leafPte (fits : pa < 2 ^ 64) (small : perm < 1024) :
    PTE2PA (leafPte pa perm) = PGROUNDDOWN pa := by
  have flags := or_PTE_V_lt small
  rw [PTE2PA_eq, leafPte_eq small, PGROUNDDOWN, PGSIZE]
  omega

theorem leafPte_lt (fits : pa < 2 ^ 64) (small : perm < 1024) : leafPte pa perm < 2 ^ 64 := by
  have flags := or_PTE_V_lt small
  rw [leafPte_eq small]
  omega

end Bits

/-! ### The tree -/

namespace Ram

def entry (s : Ram) (t i : Nat) : Nat := s.load (t + 8 * i)

def child (s : Ram) (t i : Nat) : Option Nat :=
  if s.entry t i % 2 = 1 then some (PTE2PA (s.entry t i)) else none

/-- A page-table page, by its depth and the index bits that lead to it. -/
def node (s : Ram) (root d k : Nat) : Option Nat := Radix.node s.child 512 root d k

def pte (s : Ram) (root vpn : Nat) : Nat :=
  match s.node root 2 (vpn / 512) with
  | none => 0
  | some t => s.entry t (vpn % 512)

def tables (s : Ram) (root : Nat) (place : Nat × Nat) : Option Nat :=
  if place.1 ≤ 2 then s.node root place.1 place.2 else none

end Ram

def InPage (p x : Nat) : Prop := p ≤ x ∧ x < p + PGSIZE

def Outside (area : Nat → Prop) (x : Nat) : Prop := ∀ p, area p → ¬ InPage p x

section Entries

variable {s t : Ram} {p q i j x : Nat}

theorem apart (aligned : p % PGSIZE = 0) (aligned' : q % PGSIZE = 0) (different : p ≠ q) :
    p + PGSIZE ≤ q ∨ q + PGSIZE ≤ p := by
  simp only [PGSIZE] at *
  omega

theorem InPage.unique (first : InPage p x) (second : InPage q x) (aligned : p % PGSIZE = 0)
    (aligned' : q % PGSIZE = 0) : p = q := by
  by_contra different
  obtain ⟨low, high⟩ := first
  obtain ⟨low', high'⟩ := second
  rcases apart aligned aligned' different with below | above
  · omega
  · omega

theorem entry_of_mem (same : ∀ x, InPage p x → t.mem x = s.mem x) (index : i < 512) :
    t.entry p i = s.entry p i := by
  refine Memory.le_congr fun x low high => same x ⟨by omega, ?_⟩
  simp only [PGSIZE]
  omega

theorem entry_store (aligned : p % PGSIZE = 0) (aligned' : q % PGSIZE = 0) (index : i < 512)
    (index' : j < 512) (v : Nat) :
    (s.store (p + 8 * i) v).entry q j = if q = p ∧ j = i then v % 2 ^ 64 else s.entry q j := by
  split
  · rename_i same
    rw [same.1, same.2]
    exact Memory.le_setLe_same
  · rename_i different
    refine Memory.le_setLe_ne ?_
    by_cases page : q = p
    · have entry : j ≠ i := fun equal => different ⟨page, equal⟩
      omega
    · have := apart aligned' aligned page
      simp only [PGSIZE] at this
      omega

theorem inPage_entry (index : i < 512) (low : p + 8 * i ≤ x) (high : x < p + 8 * i + 8) :
    InPage p x := by
  refine ⟨by omega, ?_⟩
  simp only [PGSIZE]
  omega

theorem mem_store (index : i < 512) (v : Nat) (outside : ¬ InPage p x) :
    (s.store (p + 8 * i) v).mem x = s.mem x := by
  refine Memory.setLe_outside ?_
  by_contra inside
  exact outside (inPage_entry index (by omega) (by omega))

theorem node_zero (s : Ram) (root : Nat) : s.node root 0 0 = some root := rfl

theorem node_entry {root d k : Nat} (at_ : s.node root d k = some p) (index : i < 512) :
    s.node root (d + 1) (k * 512 + i) = s.child p i := Radix.node_entry at_ index

theorem child_of_entry (same : t.entry p i = s.entry p i) : t.child p i = s.child p i := by
  unfold Ram.child
  rw [same]

theorem node_congr {root : Nat}
    (same : ∀ d < 2, ∀ k p, s.node root d k = some p → ∀ i < 512, t.entry p i = s.entry p i) :
    ∀ d ≤ 2, ∀ k, t.node root d k = s.node root d k :=
  Radix.node_congr (by decide)
    fun d inner k p at_ i index => child_of_entry (same d inner k p at_ i index)

theorem tables_congr {root : Nat} (same : ∀ d ≤ 2, ∀ k, t.node root d k = s.node root d k) :
    t.tables root = s.tables root := by
  funext place
  unfold Ram.tables
  split
  · exact same _ ‹_› _
  · rfl

end Entries

section Table

variable [KernelImage]

/-- A page that `kalloc` manages. -/
def IsPage (p : Nat) : Prop := p % PGSIZE = 0 ∧ KernelImage.kend ≤ p ∧ p < PHYSTOP

/-- **Every page of the area is free or at one place of the tree.** -/
structure Table (area : Nat → Prop) (root : Nat) (s : Ram) : Prop where
  pages : ∀ p, area p → IsPage p
  owns : Owns (s.tables root) (fun p => p ∈ s.freelist) area
  free : ∀ p ∈ s.freelist, area p
  nodup : s.freelist.Nodup
  /-- an entry that points to a page-table page has no other flag than `PTE_V` -/
  plain : ∀ d < 2, ∀ k p, s.node root d k = some p → ∀ i < 512, s.entry p i % 2 = 1 →
    s.entry p i % 1024 = 1

variable {area : Nat → Prop} {root : Nat} {s t u : Ram} {p q d k d' k' i v : Nat}

theorem IsPage.pos (page : IsPage p) : 0 < p := by
  have text := (KernelImage.inText).1
  have image := (KernelImage.inText).2
  have := page.2.1
  simp only [KERNBASE, PGSIZE] at *
  omega

theorem IsPage.fits (page : IsPage p) : p < 2 ^ 64 := Nat.lt_trans page.2.2 (by decide)

namespace Table

section

variable (table : Table area root s)

include table

theorem inArea (shallow : d ≤ 2) (at_ : s.node root d k = some p) : area p :=
  table.owns.inside (show s.tables root (d, k) = some p by
    rw [Ram.tables, if_pos shallow]; exact at_)

theorem isPage (shallow : d ≤ 2) (at_ : s.node root d k = some p) : IsPage p :=
  table.pages p (table.inArea shallow at_)

theorem notFree (shallow : d ≤ 2) (at_ : s.node root d k = some p) : p ∉ s.freelist :=
  table.owns.not_free (show s.tables root (d, k) = some p by
    rw [Ram.tables, if_pos shallow]; exact at_)

theorem alone (shallow : d ≤ 2) (at_ : s.node root d k = some p) (shallow' : d' ≤ 2)
    (at_' : s.node root d' k' = some p) : d = d' ∧ k = k' := by
  have same :=
    table.owns.once (show s.tables root (d, k) = some p by
      rw [Ram.tables, if_pos shallow]; exact at_)
    (show s.tables root (d', k') = some p by rw [Ram.tables, if_pos shallow']; exact at_')
  exact Prod.mk.inj same

theorem with_free {area' : Nat → Prop}
    (same : ∀ d < 2, ∀ k p, s.node root d k = some p → ∀ i < 512, t.entry p i = s.entry p i)
    (pages : ∀ p, area' p → IsPage p) (owns : Owns (s.tables root) (fun p => p ∈ t.freelist) area')
    (free : ∀ p ∈ t.freelist, area' p) (nodup : t.freelist.Nodup) : Table area' root t := by
  have nodes := node_congr same
  refine ⟨pages, ?_, free, nodup, fun d inner k p at_ i index valid => ?_⟩
  · rw [tables_congr nodes]
    exact owns
  · rw [nodes d (by omega)] at at_
    rw [same d inner k p at_ i index] at valid ⊢
    exact table.plain d inner k p at_ i index valid

theorem congr (free : t.freelist = s.freelist)
    (same : ∀ d < 2, ∀ k p, s.node root d k = some p → ∀ i < 512, t.entry p i = s.entry p i) :
    Table area root t := by
  refine table.with_free same table.pages ?_ ?_ ?_
  · rw [free]
    exact table.owns
  · rw [free]
    exact table.free
  · rw [free]
    exact table.nodup

end

end Table

/-- **The PTEs are `map` now**, page-table pages may have been added, and nothing outside of the
area has changed. -/
structure Becomes (area : Nat → Prop) (root : Nat) (map : Nat → Nat) (s t : Ram) : Prop where
  pte : ∀ v, t.pte root v = map v
  node : ∀ d ≤ 2, ∀ k p, s.node root d k = some p → t.node root d k = some p
  free : t.freelist <:+ s.freelist
  mem : ∀ x, Outside area x → t.mem x = s.mem x

namespace Becomes

variable {map map' : Nat → Nat}

theorem refl (area : Nat → Prop) (root : Nat) (s : Ram) : Becomes area root (s.pte root) s s :=
  ⟨fun _ => rfl, fun _ _ _ _ at_ => at_, List.suffix_rfl, fun _ _ => rfl⟩

theorem trans (first : Becomes area root map s t) (second : Becomes area root map' t u) :
    Becomes area root map' s u where
  pte := second.pte
  node d shallow k p at_ := second.node d shallow k p (first.node d shallow k p at_)
  free := second.free.trans first.free
  mem x outside := (second.mem x outside).trans (first.mem x outside)

theorem then_same (first : Becomes area root map s t)
    (second : Becomes area root (t.pte root) t u) : Becomes area root map s u := by
  have := first.trans second
  rwa [funext first.pte] at this

end Becomes

/-! ### Stores into the tree -/

theorem Table.storeLeaf (table : Table area root s) (at_ : s.node root 2 k = some p)
    (index : i < 512) (v : Nat) : Table area root (s.store (p + 8 * i) v) ∧
      Becomes area root (update (s.pte root) (k * 512 + i) (v % 2 ^ 64)) s
        (s.store (p + 8 * i) v) := by
  have page := table.isPage (Nat.le_refl 2) at_
  have inner : ∀ d < 2, ∀ k p', s.node root d k = some p' → ∀ j < 512,
      (s.store (p + 8 * i) v).entry p' j = s.entry p' j := by
    intro d inner k' p' at_' j index'
    rw [entry_store page.1 (table.isPage (by omega) at_').1 index index', if_neg]
    rintro ⟨rfl, -⟩
    have := table.alone (by omega) at_' (Nat.le_refl 2) at_
    omega
  have nodes := node_congr inner
  refine ⟨table.congr rfl inner, fun u => ?_, fun d shallow k' p' at_' => ?_, List.suffix_rfl,
    fun x outside => mem_store index v fun inside =>
      outside p (table.inArea (Nat.le_refl 2) at_) inside⟩
  · by_cases here : u = k * 512 + i
    · have split : u / 512 = k ∧ u % 512 = i := by omega
      rw [here, update_self, ← here, Ram.pte, nodes 2 (Nat.le_refl 2), split.1, at_, split.2]
      show (s.store (p + 8 * i) v).entry p i = _
      rw [entry_store page.1 page.1 index index, if_pos ⟨rfl, rfl⟩]
    · rw [update_of_ne here, Ram.pte, Ram.pte, nodes 2 (Nat.le_refl 2)]
      cases at_' : s.node root 2 (u / 512) with
      | none => rfl
      | some q =>
        show (s.store (p + 8 * i) v).entry q (u % 512) = s.entry q (u % 512)
        have page' := table.isPage (Nat.le_refl 2) at_'
        rw [entry_store page.1 page'.1 index (Nat.mod_lt _ (by decide)), if_neg]
        rintro ⟨rfl, entry⟩
        have := table.alone (Nat.le_refl 2) at_' (Nat.le_refl 2) at_
        omega
  · rw [nodes d shallow]
    exact at_'

/-- The page `q` was cleared, and the entry `i` of the page `p` points to it. -/
structure Linked (p i q : Nat) (s t : Ram) : Prop where
  cleared : ∀ j < 512, t.entry q j = 0
  entry : ∀ p' j, p' % PGSIZE = 0 → p' ≠ q → j < 512 →
    t.entry p' j = if p' = p ∧ j = i then q / 4096 * 1024 + 1 else s.entry p' j
  mem : ∀ x, ¬ InPage p x → ¬ InPage q x → t.mem x = s.mem x

theorem linked (page : IsPage p) (page' : IsPage q) (different : p ≠ q) (index : i < 512)
    (stored : t.mem = Memory.setLe 8 ((s.mem.fill q PGSIZE 5).fill q PGSIZE 0) (p + 8 * i)
      (PA2PTE q ||| PTE_V)) :
    Linked p i q s t := by
  have word : PA2PTE q ||| PTE_V = q / 4096 * 1024 + 1 := PA2PTE_or q (by decide)
  have narrow : q / 4096 * 1024 + 1 < 2 ^ 64 := by
    have := page'.fits
    omega
  let cleared : Ram := { t with mem := (s.mem.fill q PGSIZE 5).fill q PGSIZE 0 }
  have isStore : t = cleared.store (p + 8 * i) (q / 4096 * 1024 + 1) := by
    rw [← word]
    unfold Ram.store
    rw [← stored]
  have outsideQ : ∀ x, ¬ InPage q x → cleared.mem x = s.mem x := by
    intro x notQ
    have outside : x < q ∨ q + PGSIZE ≤ x := by
      by_contra inside
      exact notQ ⟨by omega, by omega⟩
    show ((s.mem.fill q PGSIZE 5).fill q PGSIZE 0) x = s.mem x
    rw [Memory.fill_outside outside, Memory.fill_outside outside]
  refine ⟨fun j index' => ?_, fun p' j aligned notQ index' => ?_, fun x notP notQ => ?_⟩
  · rw [isStore, entry_store page.1 page'.1 index index',
      if_neg (fun both => different both.1.symm)]
    exact Memory.le_zero
      fun x low high => Memory.fill_inside (by omega) (inPage_entry index' low high).2
  · rw [isStore, entry_store page.1 aligned index index', Nat.mod_eq_of_lt narrow]
    split
    · rfl
    · exact entry_of_mem (fun x inside => outsideQ x fun inside' =>
        notQ (inside.unique inside' aligned page'.1)) index'
  · rw [isStore, mem_store index _ notP, outsideQ x notQ]

theorem Table.node_linked (table : Table area root s) (linked : Linked p i q s t) (inner : d < 2)
    (at_ : s.node root d k = some p) (index : i < 512) (empty : s.entry p i % 2 = 0)
    (isFree : q ∈ s.freelist) :
    ∀ d' ≤ 2, ∀ k', t.node root d' k' = if d' = d + 1 ∧
      k' = k * 512 + i then some q else s.node root d' k' := by
  have pageQ := table.pages q (table.free q isFree)
  have notQ : ∀ d ≤ 2, ∀ k p', s.node root d k = some p' → p' ≠ q := fun d shallow k p' at_' same =>
    table.notFree shallow at_' (same ▸ isFree)
  have entryNew : t.entry p i = q / 4096 * 1024 + 1 := by
    rw [linked.entry p i (table.isPage (by omega) at_).1 (notQ d (by omega) k p at_) index]
    exact if_pos ⟨rfl, rfl⟩
  have childNew : t.child p i = some q := by
    unfold Ram.child
    rw [entryNew, if_pos (by omega), PTE2PA_eq]
    have aligned := pageQ.1
    have fits := pageQ.fits
    simp only [PGSIZE] at aligned
    congr 1
    omega
  refine Radix.node_set index (fun d' inner' k' at_' => table.alone (by omega) at_' (by omega) at_)
    at_
    childNew (fun d' inner' k' p' at_' j index' notHere => child_of_entry ?_)
    fun _ => ⟨if_neg (by omega), fun c isNew j index' => ?_⟩
  · rw [linked.entry p' j (table.isPage (by omega) at_').1 (notQ d' (by omega) k' p' at_') index',
      if_neg notHere]
  · cases isNew
    unfold Ram.child
    rw [linked.cleared j index']
    rfl

/-- **A new page-table page**, taken from the free list. -/
theorem Table.install {rest : List Nat} (table : Table area root s) (linked : Linked p i q s t)
    (inner : d < 2) (at_ : s.node root d k = some p) (index : i < 512) (empty : s.entry p i % 2 = 0)
    (first : s.freelist = q :: rest) (popped : t.freelist = rest) :
    Table area root t ∧ Becomes area root (s.pte root) s t ∧
      t.node root (d + 1) (k * 512 + i) = some q := by
  have isFree : q ∈ s.freelist := first ▸ List.mem_cons_self
  have inArea := table.free q isFree
  have notQ : ∀ d ≤ 2, ∀ k p', s.node root d k = some p' → p' ≠ q := fun d shallow k p' at_' same =>
    table.notFree shallow at_' (same ▸ isFree)
  have nodes := table.node_linked linked inner at_ index empty isFree
  have vacant : s.node root (d + 1) (k * 512 + i) = none :=
    (node_entry at_ index).trans (if_neg (by omega))
  have places : t.tables root = update (s.tables root) (d + 1, k * 512 + i) (some q) := by
    funext place
    by_cases here : place = (d + 1, k * 512 + i)
    · rw [here, update_self, Ram.tables, if_pos (show d + 1 ≤ 2 by omega),
        nodes _ (show d + 1 ≤ 2 by omega), if_pos ⟨rfl, rfl⟩]
    · rw [update_of_ne here]
      unfold Ram.tables
      split
      · rw [nodes _ ‹_›, if_neg (fun both => here (Prod.ext both.1 both.2))]
      · rfl
  have nodup := table.nodup
  rw [first, List.nodup_cons] at nodup
  refine ⟨⟨table.pages, ?_, ?_, ?_, ?_⟩, ⟨fun v => ?_, fun d' shallow k' p' at_' => ?_, ?_,
    fun x outside => ?_⟩, ?_⟩
  · rw [places]
    refine table.owns.put ?_ isFree inArea fun x _ => ?_
    · rw [Ram.tables, if_pos (show d + 1 ≤ 2 by omega)]
      exact vacant
    · rw [popped, first, List.mem_cons]
      constructor
      · exact fun member => ⟨.inr member, fun same => nodup.1 (same ▸ member)⟩
      · rintro ⟨same | member, notSame⟩
        · exact absurd same notSame
        · exact member
  · intro p' member
    refine table.free p' ?_
    rw [first, ← popped]
    exact List.mem_cons_of_mem _ member
  · rw [popped]
    exact nodup.2
  · intro d' inner' k' p' at_' j index' valid
    rw [nodes d' (by omega)] at at_'
    split at at_'
    · cases at_'
      rw [linked.cleared j index'] at valid
      cases valid
    · rw [linked.entry p' j (table.isPage (by omega) at_').1 (notQ d' (by omega) k' p' at_') index']
        at valid ⊢
      split
      · omega
      · rename_i notHere
        rw [if_neg notHere] at valid
        exact table.plain d' inner' k' p' at_' j index' valid
  · unfold Ram.pte
    rw [nodes 2 (Nat.le_refl 2)]
    by_cases here : 2 = d + 1 ∧ v / 512 = k * 512 + i
    · -- the entries of the new page are zero
      have old : s.node root 2 (v / 512) = none := by
        rw [here.2, here.1]
        exact vacant
      rw [if_pos here, old]
      exact linked.cleared _ (Nat.mod_lt _ (by decide))
    · rw [if_neg here]
      cases at_' : s.node root 2 (v / 512) with
      | none => rfl
      | some p' =>
        show t.entry p' (v % 512) = s.entry p' (v % 512)
        rw [linked.entry p' _ (table.isPage (Nat.le_refl 2) at_').1
          (notQ 2 (Nat.le_refl 2) _ p' at_')
          (Nat.mod_lt _ (by decide)), if_neg]
        rintro ⟨rfl, -⟩
        have := table.alone (Nat.le_refl 2) at_' (by omega) at_
        omega
  · rw [nodes d' shallow, if_neg]
    · exact at_'
    · rintro ⟨rfl, rfl⟩
      rw [vacant] at at_'
      cases at_'
  · rw [popped, first]
    exact List.suffix_cons q rest
  · exact linked.mem x (outside p (table.inArea (by omega) at_)) (outside q inArea)
  · rw [nodes (d + 1) (by omega), if_pos ⟨rfl, rfl⟩]

/-! ### `walk` -/

variable {va : Nat} {fails : VmPanic → Prop}

def Ram.skip (s : Ram) : Ram := { s with grants := fun n => s.grants (n + 1) }

def Ram.pop (s : Ram) (p : Nat) (rest : List Nat) : Ram :=
  Ram.fillPage { s.skip with freelist := rest } p 5

theorem kalloc_spec : From s kalloc (fun r t => (r = none ∧ t = s.skip) ∨
    ∃ p rest, s.freelist = p :: rest ∧ r = some p ∧ t = s.pop p rest) fails := by
  obtain ⟨mem, freelist, grants⟩ := s
  refine .get_known (.modify_known ?_)
  cases freelist with
  | nil => exact .done (.inl ⟨rfl, rfl⟩)
  | cons p rest =>
    refine .ite (fun _ => ?_) fun _ => .done (.inl ⟨rfl, rfl⟩)
    exact .modify_known (.modify_known (.done (.inr ⟨p, rest, rfl, rfl, rfl⟩)))

theorem loadPte_known {A : Type} {a : Nat} {f : Nat → VmM A} {post : A → Ram → Prop}
    (rest : From s (f (s.load a)) post fails) : From s (loadPte a >>= f) post fails :=
  Triple.bind (.get_known (.pure fun _ same => ⟨rfl, same⟩)) fun _ =>
    Triple.of_fact fun same => same ▸ rest

theorem PX_vpn (level : Nat) : PX level va = va / PGSIZE / 512 ^ level % 512 := by
  rw [PX_eq, Nat.pow_add, Nat.pow_mul, Nat.div_div_eq_div_mul]
  rfl

theorem path_succ (level : Nat) : va / PGSIZE / 512 ^ level =
    va / PGSIZE / 512 ^ (level + 1) * 512 + PX level va := by
  rw [PX_vpn, Nat.pow_succ, ← Nat.div_div_eq_div_mul, Nat.mul_comm]
  exact (Nat.div_add_mod _ _).symm

/-- **`walk` without allocation** finds the entry, and changes nothing. -/
theorem walkFrom_lookup (s : Ram) : ∀ {level d t : Nat}, d + level = 2 →
    s.node root d (va / PGSIZE / 512 ^ (level + 1)) = some t →
      From s (walkFrom false va level t)
        (fun r u => r = (s.node root 2 (va / PGSIZE / 512)).map
          (fun p => p + 8 * (va / PGSIZE % 512)) ∧
          u = s) fails := by
  intro level
  induction level with
  | zero =>
    intro d t depth at_
    obtain rfl : d = 2 := by omega
    refine .done ⟨?_, rfl⟩
    rw [Nat.zero_add, Nat.pow_one] at at_
    rw [at_, PX_vpn, Nat.pow_zero, Nat.div_one]
    rfl
  | succ level ih =>
    intro d t depth at_
    have index : PX (level + 1) va < 512 := by
      rw [PX_vpn]
      exact Nat.mod_lt _ (by decide)
    have below := node_entry at_ index
    rw [← path_succ] at below
    refine loadPte_known (.ite (fun valid => ?_) fun invalid => ?_)
    · rw [and_PTE_V] at valid
      refine ih (by omega) (below.trans (if_pos ?_))
      show s.load _ % 2 = 1
      omega
    · rw [and_PTE_V, not_not] at invalid
      have none : s.node root (d + 1) (va / PGSIZE / 512 / 512 ^ level) = none := by
        rw [Nat.div_div_eq_div_mul, ← Nat.pow_succ', below]
        exact if_neg (show ¬ s.load _ % 2 = 1 by omega)
      have missing := Radix.node_below none
      rw [show d + 1 + level = 2 by omega] at missing
      refine .done ⟨?_, rfl⟩
      rw [Ram.node, missing]
      rfl

theorem walk_lookup (s : Ram) (low : va < MAXVA) : From s (walk root va false)
    (fun r u => r = (s.node root 2 (va / PGSIZE / 512)).map (fun p => p + 8 * (va / PGSIZE % 512)) ∧
      u = s) fails := by
  have top : va / PGSIZE / 512 ^ 3 = 0 := by
    simp only [MAXVA, PGSIZE] at *
    omega
  refine .ite (fun high => absurd high (by omega)) fun _ => walkFrom_lookup s rfl ?_
  rw [top]
  exact node_zero s root

/-- **`walk` with allocation** finds the entry, adding the pages that it needs, or it runs out of
them. -/
theorem walkFrom_alloc : ∀ {level d p : Nat} {s : Ram}, d + level = 2 → Table area root s →
    s.node root d (va / PGSIZE / 512 ^ (level + 1)) = some p →
      From s (walkFrom true va level p)
        (fun r t => Table area root t ∧ Becomes area root (s.pte root) s t ∧
          ∀ a, r = some a → ∃ p, t.node root 2 (va / PGSIZE / 512) = some p ∧
            a = p + 8 * (va / PGSIZE % 512)) fails := by
  intro level
  induction level with
  | zero =>
    intro d p s depth table at_
    obtain rfl : d = 2 := by omega
    rw [Nat.zero_add, Nat.pow_one] at at_
    refine .done ⟨table, Becomes.refl area root _, fun a isA => ⟨p, at_, ?_⟩⟩
    rw [← Option.some.inj isA, PX_vpn, Nat.pow_zero, Nat.div_one]
  | succ level ih =>
    intro d p s depth table at_
    have index : PX (level + 1) va < 512 := by
      rw [PX_vpn]
      exact Nat.mod_lt _ (by decide)
    have below := node_entry at_ index
    rw [← path_succ] at below
    refine loadPte_known (.ite (fun valid => ?_) fun invalid => ?_)
    · rw [and_PTE_V] at valid
      refine ih (by omega) table (below.trans (if_pos ?_))
      show s.load _ % 2 = 1
      omega
    · rw [and_PTE_V, not_not] at invalid
      refine .bind kalloc_spec fun r => .each fun t taken => ?_
      rcases taken with ⟨rfl, rfl⟩ | ⟨q, rest, first, rfl, rfl⟩
      · exact .done ⟨⟨table.pages, table.owns, table.free, table.nodup, table.plain⟩,
          ⟨fun _ => rfl, fun _ _ _ _ at_ => at_, List.suffix_rfl, fun _ _ => rfl⟩, nofun⟩
      · have isFree : q ∈ s.freelist := first ▸ List.mem_cons_self
        have pageQ := table.pages q (table.free q isFree)
        have different : p ≠ q := fun same => table.notFree (by omega) at_ (same ▸ isFree)
        refine .modify_known (.modify_known ?_)
        obtain ⟨table', becomes, new⟩ := table.install
          (t :=
            ((s.pop q rest).fillPage q 0).store (p + 8 * PX (level + 1) va) (PA2PTE q ||| PTE_V))
          (linked (table.isPage (by omega) at_) pageQ different index rfl)
          (by omega) at_ index invalid
          first rfl
        rw [← path_succ] at new
        refine (ih (by omega) table' new).to_post ?_
        rintro r u ⟨table'', becomes', found⟩
        exact ⟨table'', becomes.then_same becomes', found⟩

theorem walk_spec (table : Table area root s) (low : va < MAXVA) :
    From s (walk root va true)
      (fun r t => Table area root t ∧ Becomes area root (s.pte root) s t ∧
        ∀ a, r = some a → ∃ p, t.node root 2 (va / PGSIZE / 512) = some p ∧
          a = p + 8 * (va / PGSIZE % 512)) fails := by
  have top : va / PGSIZE / 512 ^ 3 = 0 := by
    simp only [MAXVA, PGSIZE] at *
    omega
  refine .ite (fun high => absurd high (by omega)) fun _ => walkFrom_alloc rfl table ?_
  rw [top]
  exact node_zero s root


theorem walk_high {A : Type} {alloc : Bool} {f : Option Nat → VmM A} {pre : Ram → Prop}
    {post : A → Ram → Prop} (high : MAXVA ≤ va) (panics : fails .walk) :
    Triple pre (walk root va alloc >>= f) post fails := by
  have walks : Triple pre (walk root va alloc) (fun _ _ => False) fails :=
    Triple.ite (fun _ => .throw_bind fun _ _ => panics) fun low => absurd high low
  exact .bind walks fun _ _ none => none.elim

end Table

end Xv6.Vm
