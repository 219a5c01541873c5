/-
**User address spaces** (`kernel/vm.c`).

`Space whole root live extra s`: the pages of `whole` are the free pages, the page-table pages of
`root`, and the pages that it maps at the virtual pages `live`, every one of them once. What else
the table maps is `extra` (trampoline and trapframe). While memory is allocated and freed, `whole`
stays the same; a page that the code holds in a variable is taken out of it for that time. `Keeps`
says what stays: everything outside of `whole`, and the user pages that are not removed.
-/

import Xv6.Vm.Mapping

set_option linter.unusedSectionVars false

namespace Xv6.Vm

open Lib Function

def RWXU : Nat := PTE_W ||| PTE_X ||| PTE_R ||| PTE_U

/-- The flags of the guard page below the stack. -/
def RWX : Nat := PTE_W ||| PTE_X ||| PTE_R

def FRAMES : Nat := (PHYSTOP - KERNBASE) / PGSIZE

def Ram.page (s : Ram) (root v : Nat) : Nat := PTE2PA (s.pte root v)

def UserPte (pte : Nat) : Prop := pte = leafPte (PTE2PA pte) RWXU ∨ pte = leafPte (PTE2PA pte) RWX

/-- The pages that are free or in the page table. -/
def Pool (whole : Nat → Prop) (root : Nat) (live : Nat → Prop) (s : Ram) (p : Nat) : Prop :=
  whole p ∧ ∀ v, live v → s.page root v ≠ p

section Space

variable [KernelImage]

structure Space (whole : Nat → Prop) (root : Nat) (live : Nat → Prop) (extra : Nat → Nat)
    (s : Ram) :
    Prop where
  table : Table (Pool whole root live s) root s
  pages : ∀ p, whole p → IsPage p
  user : ∀ v, live v → whole (s.page root v) ∧ UserPte (s.pte root v)
  once : ∀ v w, live v → live w → s.page root v = s.page root w → v = w
  rest : ∀ v, ¬ live v → s.pte root v = extra v
  apart : ∀ v, live v → extra v = 0

structure Keeps (whole : Nat → Prop) (root : Nat) (live : Nat → Prop) (s t : Ram) : Prop where
  mem : ∀ x, Outside whole x → t.mem x = s.mem x
  pte : ∀ v, live v → t.pte root v = s.pte root v
  user : ∀ v, live v → ∀ x, InPage (s.page root v) x → t.mem x = s.mem x

variable {whole live live' : Nat → Prop} {root : Nat} {extra extra' : Nat → Nat} {s t u : Ram}
  {p q v w x n : Nat} {area : Nat → Prop} {fails : VmPanic → Prop}

namespace Keeps

theorem refl : Keeps whole root live s s := ⟨fun _ _ => rfl, fun _ _ => rfl, fun _ _ _ _ => rfl⟩

theorem page (keeps : Keeps whole root live s t) (isLive : live v) :
    t.page root v = s.page root v := by
  unfold Ram.page
  rw [keeps.pte v isLive]

theorem trans (first : Keeps whole root live s t) (second : Keeps whole root live t u) :
    Keeps whole root live s u where
  mem x outside := (second.mem x outside).trans (first.mem x outside)
  pte v isLive := (second.pte v isLive).trans (first.pte v isLive)
  user v isLive x inside := by
    rw [second.user v isLive x (by rw [first.page isLive]; exact inside),
      first.user v isLive x inside]

theorem mono (keeps : Keeps whole root live s t) (fewer : ∀ v, live' v → live v) :
    Keeps whole root live' s t :=
  ⟨keeps.mem, fun v isLive => keeps.pte v (fewer v isLive),
    fun v isLive => keeps.user v (fewer v isLive)⟩

end Keeps

/-! ### Pages of the table -/

/-- The page-table pages have the same entries. -/
def SameTable (root : Nat) (s t : Ram) : Prop :=
  ∀ d ≤ 2, ∀ k p, s.node root d k = some p → ∀ i < 512, t.entry p i = s.entry p i

namespace SameTable

theorem node (same : SameTable root s t) : ∀ d ≤ 2, ∀ k, t.node root d k = s.node root d k :=
  node_congr fun d inner k p at_ => same d (Nat.le_of_lt inner) k p at_

theorem pte (same : SameTable root s t) (v : Nat) : t.pte root v = s.pte root v := by
  unfold Ram.pte
  rw [same.node 2 (Nat.le_refl 2)]
  cases at_ : s.node root 2 (v / 512) with
  | none => rfl
  | some p => exact same 2 (Nat.le_refl 2) _ p at_ _ (Nat.mod_lt _ (by decide))

end SameTable

theorem Table.sameTable (table : Table area root s) (same : ∀ x, ¬ InPage p x → t.mem x = s.mem x)
    (aligned : p % PGSIZE = 0) (other : ∀ d ≤ 2, ∀ k, s.node root d k ≠ some p) :
    SameTable root s t := by
  intro d shallow k q at_ i index
  refine entry_of_mem (fun x inside => same x fun inside' => other d shallow k ?_) index
  rw [at_, inside.unique inside' (table.isPage shallow at_).1 aligned]

theorem mem_fillPage {b : Byte} (outside : ¬ InPage p x) : (s.fillPage p b).mem x = s.mem x := by
  refine Memory.fill_outside ?_
  by_contra inside
  exact outside ⟨by omega, by omega⟩

theorem mem_push (outside : ¬ InPage p x) : (s.push p).mem x = s.mem x := by
  have same : (s.push p).mem x = (s.fillPage p 1).mem x := by
    refine Memory.setLe_outside ?_
    by_contra inside
    exact outside ⟨by omega, by simp only [PGSIZE]; omega⟩
  rw [same, mem_fillPage outside]

theorem Table.pop {rest : List Nat} (table : Table area root s) (first : s.freelist = p :: rest) :
    Table (fun q => area q ∧ q ≠ p) root (s.pop p rest) ∧ SameTable root s (s.pop p rest) := by
  have isFree : p ∈ s.freelist := first ▸ List.mem_cons_self
  have page := table.pages p (table.free p isFree)
  have same : SameTable root s (s.pop p rest) :=
    table.sameTable (fun x outside => mem_fillPage outside)
    page.1 fun d shallow k at_ => table.notFree shallow at_ isFree
  have nodup := table.nodup
  rw [first, List.nodup_cons] at nodup
  refine ⟨table.with_free (fun d inner => same d (Nat.le_of_lt inner))
    (fun q inside => table.pages q inside.1)
    ⟨table.owns.once, fun {place q} held => ?_, fun {q} inside => ?_⟩ (fun q member => ?_) nodup.2,
    same⟩
  · exact ⟨table.owns.inside held, fun same => table.owns.not_free held (same ▸ isFree)⟩
  · rw [← table.owns.free_iff inside.1, first, List.mem_cons]
    exact ⟨.inr, fun member => member.resolve_left inside.2⟩
  · have member : q ∈ rest := member
    exact ⟨table.free q (first ▸ List.mem_cons_of_mem _ member),
      fun same => nodup.1 (same ▸ member)⟩

theorem Table.push (table : Table area root s) (page : IsPage p) (taken : ¬ area p) :
    Table (fun q => area q ∨ q = p) root (s.push p) ∧ SameTable root s (s.push p) := by
  have same : SameTable root s (s.push p) :=
    table.sameTable (fun x outside => mem_push outside) page.1
    fun d shallow k at_ => taken (table.inArea shallow at_)
  have notFree : p ∉ s.freelist := fun member => taken (table.free p member)
  refine ⟨table.with_free (fun d inner => same d (Nat.le_of_lt inner)) (fun q inside => ?_)
    ⟨table.owns.once, fun {place q} held => .inl (table.owns.inside held), fun {q} inside => ?_⟩
    (fun q member => ?_) (List.nodup_cons.mpr ⟨notFree, table.nodup⟩), same⟩
  · rcases inside with inside | rfl
    · exact table.pages q inside
    · exact page
  · show q ∈ p :: s.freelist ↔ _
    rw [List.mem_cons]
    by_cases isP : q = p
    · exact ⟨fun _ place held => taken (isP ▸ table.owns.inside held), fun _ => .inl isP⟩
    · rw [← table.owns.free_iff (inside.resolve_right isP)]
      exact ⟨fun either => either.resolve_left isP, .inr⟩
  · exact (List.mem_cons.mp member).elim .inr fun member => .inl (table.free q member)

theorem Table.with_area {area' : Nat → Prop} (table : Table area root s)
    (same : ∀ p, area' p ↔ area p) : Table area' root s := by
  rwa [show area' = area from funext fun p => propext (same p)]

theorem Space.with_live (space : Space whole root live extra s) (same : ∀ v, live' v ↔ live v) :
    Space whole root live' extra s := by
  rwa [show live' = live from funext fun v => propext (same v)]

theorem Keeps.with_live (keeps : Keeps whole root live s t) (same : ∀ v, live' v ↔ live v) :
    Keeps whole root live' s t := by
  rwa [show live' = live from funext fun v => propext (same v)]

/-! ### User pages -/

theorem leafPte_user {flags : Nat} (page : IsPage p) (user : flags = RWXU ∨ flags = RWX) :
    PTE2PA (leafPte p flags) = p ∧ UserPte (leafPte p flags) := by
  have small : flags < 1024 := by
    rcases user with rfl | rfl <;> decide
  have frame : PTE2PA (leafPte p flags) = p := by
    rw [PTE2PA_leafPte page.fits small, PGROUNDDOWN, Nat.mul_comm]
    have := Nat.div_add_mod p PGSIZE
    have := page.1
    omega
  refine ⟨frame, ?_⟩
  unfold UserPte
  rw [frame]
  rcases user with rfl | rfl
  · exact .inl rfl
  · exact .inr rfl

theorem UserPte.leaf {pte : Nat} (user : UserPte pte) : Leaf pte := by
  have bits : ∀ flags, flags = RWXU ∨ flags = RWX → ∀ pa, Leaf (leafPte pa flags) := by
    intro flags either pa
    have small : flags < 1024 := by
      rcases either with rfl | rfl <;> decide
    have more : flags ||| PTE_V ≠ 1 := by
      rcases either with rfl | rfl <;> decide
    refine ⟨leafPte_valid small, ?_⟩
    rw [← PTE_FLAGS_eq, PTE_FLAGS_leafPte small]
    exact more
  rcases user with isPte | isPte
  · rw [isPte]
    exact bits _ (.inl rfl) _
  · rw [isPte]
    exact bits _ (.inr rfl) _

namespace Space

theorem page_isPage (space : Space whole root live extra s) (isLive : live v) :
    IsPage (s.page root v) :=
  space.pages _ (space.user v isLive).1

theorem outside_user (space : Space whole root live extra s) (isLive : live v)
    (inside : InPage (s.page root v) x) : Outside (Pool whole root live s) x :=
  fun p pool inside' =>
  pool.2 v isLive (inside.unique inside' (space.page_isPage isLive).1 (space.pages p pool.1).1)

theorem outside_pool (outside : Outside whole x) : Outside (Pool whole root live s) x :=
  fun p pool =>
  outside p pool.1

/-- **An operation on the table** that leaves the frames of the user pages. -/
theorem reflag {map : Nat → Nat} (space : Space whole root live extra s)
    (table : Table (Pool whole root live s) root t)
    (becomes : Becomes (Pool whole root live s) root map s t)
    (frames : ∀ v, live v → PTE2PA (map v) = s.page root v ∧ UserPte (map v))
    (rest : ∀ v, ¬ live v → map v = extra' v) (apart : ∀ v, live v → extra' v = 0) :
    Space whole root live extra' t ∧ (∀ v, live v → t.page root v = s.page root v) ∧
      (∀ x, Outside whole x → t.mem x = s.mem x) ∧
      ∀ v, live v → ∀ x, InPage (s.page root v) x → t.mem x = s.mem x := by
  have pages : ∀ v, live v → t.page root v = s.page root v := fun v isLive => by
    unfold Ram.page
    rw [becomes.pte v]
    exact (frames v isLive).1
  have pool : ∀ p, Pool whole root live t p ↔ Pool whole root live s p := fun p =>
    and_congr_right fun _ => forall₂_congr fun v isLive => by rw [pages v isLive]
  refine ⟨⟨table.with_area pool, space.pages, fun v isLive => ?_, fun v w first second equal => ?_,
    fun v dead => (becomes.pte v).trans (rest v dead), apart⟩, pages,
    fun x outside => becomes.mem x (outside_pool outside),
    fun v isLive x inside => becomes.mem x (space.outside_user isLive inside)⟩
  · rw [pages v isLive, becomes.pte v]
    exact ⟨(space.user v isLive).1, (frames v isLive).2⟩
  · rw [pages v first, pages w second] at equal
    exact space.once v w first second equal

theorem becomes {map : Nat → Nat} (space : Space whole root live extra s)
    (table : Table (Pool whole root live s) root t)
    (becomes : Becomes (Pool whole root live s) root map s t)
    (same : ∀ v, live v → map v = s.pte root v) (rest : ∀ v, ¬ live v → map v = extra' v)
    (apart : ∀ v, live v → extra' v = 0) :
    Space whole root live extra' t ∧ Keeps whole root live s t := by
  obtain ⟨space', -, mem, user⟩ := space.reflag table becomes
    (fun v isLive => same v isLive ▸ ⟨rfl, (space.user v isLive).2⟩) rest apart
  exact ⟨space', mem, fun v isLive => (becomes.pte v).trans (same v isLive), user⟩

theorem sameTable {whole' : Nat → Prop} (space : Space whole root live extra s)
    (same : SameTable root s t) (table : Table (Pool whole' root live s) root t)
    (pages : ∀ p, whole' p → IsPage p) (user : ∀ v, live v → whole' (s.page root v)) :
    Space whole' root live extra t := by
  have frames : t.page root = s.page root := funext fun v => by
    unfold Ram.page
    rw [same.pte]
  refine ⟨table.with_area fun q => ?_, pages, fun v isLive => ?_, fun v w => ?_,
    fun v dead => (same.pte v).trans (space.rest v dead), space.apart⟩
  · unfold Pool
    rw [frames]
  · rw [frames, same.pte]
    exact ⟨user v isLive, (space.user v isLive).2⟩
  · rw [frames]
    exact space.once v w

/-- **A page leaves the free list**; the code holds it now. -/
theorem pop {rest : List Nat} (space : Space whole root live extra s)
    (first : s.freelist = p :: rest) :
    whole p ∧ Space (fun q => whole q ∧ q ≠ p) root live extra (s.pop p rest) ∧
      Keeps whole root live s (s.pop p rest) := by
  have isFree : p ∈ s.freelist := first ▸ List.mem_cons_self
  have inPool := space.table.free p isFree
  obtain ⟨table, same⟩ := space.table.pop first
  refine ⟨inPool.1, space.sameTable same (table.with_area fun q => ?_)
    (fun q inside => space.pages q inside.1)
    fun v isLive => ⟨(space.user v isLive).1, inPool.2 v isLive⟩,
    ⟨fun x outside => mem_fillPage (outside p inPool.1), fun v _ => same.pte v,
      fun v isLive x inside => mem_fillPage (space.outside_user isLive inside p inPool)⟩⟩
  unfold Pool
  tauto

theorem page_ne (space : Space (fun q => whole q ∧ q ≠ p) root live extra s) (isLive : live v) :
    s.page root v ≠ p := (space.user v isLive).1.2

theorem keeps_held (space : Space (fun q => whole q ∧ q ≠ p) root live extra s) (inside : whole p)
    (page : IsPage p) (same : SameTable root s t) (mem : ∀ x, ¬ InPage p x → t.mem x = s.mem x) :
    Keeps whole root live s t :=
  ⟨fun x outside => mem x (outside p inside), fun v _ => same.pte v, fun _ isLive x within =>
    mem x
      fun within' =>
        space.page_ne isLive (within.unique within' (space.page_isPage isLive).1 page.1)⟩

theorem keeps_more (keeps : Keeps (fun q => whole q ∧ q ≠ p) root live s t) :
    Keeps whole root live s t :=
  ⟨fun x outside => keeps.mem x fun q member => outside q member.1, keeps.pte, keeps.user⟩

theorem push (space : Space (fun q => whole q ∧ q ≠ p) root live extra s) (inside : whole p)
    (page : IsPage p) :
    Space whole root live extra (s.push p) ∧ Keeps whole root live s (s.push p) := by
  obtain ⟨table, same⟩ := space.table.push page fun pool => pool.1.2 rfl
  refine ⟨space.sameTable same (table.with_area fun q => ?_) (fun q member => ?_)
    fun v isLive => (space.user v isLive).1.1,
    space.keeps_held inside page same fun x outside => mem_push outside⟩
  · constructor
    · intro pool
      by_cases isP : q = p
      · exact .inr isP
      · exact .inl ⟨⟨pool.1, isP⟩, pool.2⟩
    · rintro (pool | rfl)
      · exact ⟨pool.1.1, pool.2⟩
      · exact ⟨inside, fun v isLive => space.page_ne isLive⟩
  · by_cases isP : q = p
    · exact isP ▸ page
    · exact space.pages q ⟨member, isP⟩

theorem write (space : Space (fun q => whole q ∧ q ≠ p) root live extra s) (inside : whole p)
    (page : IsPage p) (free : t.freelist = s.freelist) (mem : ∀ x, ¬ InPage p x →
      t.mem x = s.mem x) :
    Space (fun q => whole q ∧ q ≠ p) root live extra t ∧ Keeps whole root live s t := by
  have same : SameTable root s t := space.table.sameTable mem page.1 fun d shallow k at_ =>
    (space.table.inArea shallow at_).1.2 rfl
  exact ⟨space.sameTable same (space.table.congr free fun d inner => same d (Nat.le_of_lt inner))
    space.pages
    fun v isLive => (space.user v isLive).1, space.keeps_held inside page same mem⟩

theorem skip (space : Space whole root live extra s) :
    Space whole root live extra s.skip ∧ Keeps whole root live s s.skip :=
  ⟨space.sameTable (fun _ _ _ _ _ _ _ => rfl)
    (space.table.congr rfl fun _ _ _ _ _ _ _ => rfl) space.pages
    fun v isLive => (space.user v isLive).1, fun _ _ => rfl, fun _ _ => rfl, fun _ _ _ _ => rfl⟩

/-! ### The number of pages -/

theorem frame_lt (page : IsPage p) : (p - KERNBASE) / PGSIZE < FRAMES := by
  have below : p < KERNBASE + FRAMES * PGSIZE := page.2.2
  have positive : 0 < FRAMES * PGSIZE := by decide
  rw [Nat.div_lt_iff_lt_mul (by decide)]
  omega

theorem frame_unique (first : IsPage p) (second : IsPage q)
    (equal : (p - KERNBASE) / PGSIZE = (q - KERNBASE) / PGSIZE) : p = q := by
  obtain ⟨aligned, above, _⟩ := first
  obtain ⟨aligned', above', _⟩ := second
  have := KernelImage.inText
  simp only [PGSIZE, KERNBASE] at *
  omega

theorem pages_few {f : Nat → Nat} (pages : ∀ v < n, IsPage (f v))
    (once : ∀ v < n, ∀ w < n, f v = f w → v = w) : n ≤ FRAMES := by
  have frames : ∀ v < n, (f v - KERNBASE) / PGSIZE < FRAMES :=
    fun v below => frame_lt (pages v below)
  have unique : ∀ v < n, ∀ w < n, (f v - KERNBASE) / PGSIZE = (f w - KERNBASE) / PGSIZE → v = w :=
    fun v below w below' equal =>
      once v below w below' (frame_unique (pages v below) (pages w below') equal)
  generalize FRAMES = m at *
  have bound : (Finset.range n).card ≤ (Finset.range m).card := by
    refine Finset.card_le_card_of_injOn (fun v => (f v - KERNBASE) / PGSIZE) (fun v member => ?_) ?_
    · exact Finset.mem_coe.mpr (Finset.mem_range.mpr (frames v (Finset.mem_range.mp member)))
    · exact fun v member w member' equal =>
        unique v (Finset.mem_range.mp member) w (Finset.mem_range.mp member') equal
  rwa [Finset.card_range, Finset.card_range] at bound

/-- **There are not more user pages than physical ones.** -/
theorem few (space : Space whole root live extra s) (all : ∀ v < n, live v) : n ≤ FRAMES :=
  pages_few (fun v below => space.page_isPage (all v below)) fun v below w below' =>
    space.once v w (all v below) (all w below')

theorem few_held (space : Space (fun q => whole q ∧ q ≠ p) root live extra s) (page : IsPage p)
    (all : ∀ v < n, live v) : n < FRAMES := by
  refine pages_few (f := fun v => if v < n then s.page root v else p) (fun v _ => ?_)
    fun v _ w _ equal => ?_
  · split
    · exact space.page_isPage (all v ‹_›)
    · exact page
  · split at equal <;> split at equal
    · exact space.once v w (all v ‹_›) (all w ‹_›) equal
    · exact absurd equal (space.page_ne (all v ‹_›))
    · exact absurd equal.symm (space.page_ne (all w ‹_›))
    · omega

/-! ### One page -/

theorem mappages_one {perm : Nat} (space : Space whole root live extra s) (dead : ¬ live v)
    (unmapped : extra v = 0) (low : v * PGSIZE < MAXVA) (fits : p < 2 ^ 64) :
    From s (mappages root (v * PGSIZE) PGSIZE p perm)
      (fun r t => Table (Pool whole root live s) root t ∧
        (r = 0 ∧ Becomes (Pool whole root live s) root
            (update (s.pte root) v (leafPte p perm % 2 ^ 64)) s t ∨
          r = -1 ∧ Becomes (Pool whole root live s) root (s.pte root) s t)) fails := by
  have first : v * PGSIZE / PGSIZE = v := Nat.mul_div_cancel v (by decide)
  have final : (v * PGSIZE + PGSIZE - 1) / PGSIZE = v := by
    simp only [PGSIZE]
    omega
  have inside : v * PGSIZE + PGSIZE ≤ MAXVA := by
    simp only [PGSIZE, MAXVA] at *
    omega
  have free : ∀ u, v * PGSIZE / PGSIZE ≤ u → u ≤ (v * PGSIZE + PGSIZE - 1) / PGSIZE →
      s.pte root u % 2 = 0 := by
    intro u above below
    rw [first] at above
    rw [final] at below
    rw [show u = v by omega, space.rest v dead, unmapped]
  refine (mappages_spec space.table (by decide) inside fits free).to_post ?_
  rw [first, final]
  rintro r t ⟨m, table, becomes, ends⟩
  refine ⟨table, ?_⟩
  rcases ends with ⟨done, isOne⟩ | ⟨failed, isNone⟩
  · obtain rfl : m = 1 := by omega
    rw [mapped_one fits] at becomes
    exact .inl ⟨done, becomes⟩
  · obtain rfl : m = 0 := by omega
    rw [mapped_zero] at becomes
    exact .inr ⟨failed, becomes⟩

/-- **A held page is mapped**, or there is no memory for the page table. -/
theorem mapPage {perm : Nat} (space : Space (fun q => whole q ∧ q ≠ p) root live extra s)
    (inside : whole p) (page : IsPage p) (dead : ¬ live v) (unmapped : extra v = 0)
    (low : v * PGSIZE < MAXVA) (frame : PTE2PA (leafPte p perm) = p)
    (user : UserPte (leafPte p perm)) (small : perm < 1024) :
    From s (mappages root (v * PGSIZE) PGSIZE p perm)
      (fun r t => Keeps whole root live s t ∧ (∀ x, InPage p x → t.mem x = s.mem x) ∧
        (r = 0 ∧ Space whole root (fun w => live w ∨ w = v) extra t ∧
          t.pte root v = leafPte p perm ∨
          r = -1 ∧ Space (fun q => whole q ∧ q ≠ p) root live extra t)) fails := by
  have held : ∀ x, InPage p x → Outside (Pool (fun q => whole q ∧ q ≠ p) root live s) x :=
    fun x within q pool within' => pool.1.2 (within'.unique within (space.pages q pool.1).1 page.1)
  refine (space.mappages_one dead unmapped low page.fits).to_post ?_
  rintro r t ⟨table, ⟨done, becomes⟩ | ⟨failed, becomes⟩⟩
  · rw [Nat.mod_eq_of_lt (leafPte_lt page.fits small)] at becomes
    have here : t.pte root v = leafPte p perm := by rw [becomes.pte, update_self]
    have ptes : ∀ w, w ≠ v → t.pte root w = s.pte root w := fun w other => by
      rw [becomes.pte, update_of_ne other]
    have notV : ∀ w, live w → w ≠ v := fun w isLive same => dead (same ▸ isLive)
    have frames : ∀ w, live w → t.page root w = s.page root w := fun w isLive => by
      unfold Ram.page
      rw [ptes w (notV w isLive)]
    have frameV : t.page root v = p := by
      unfold Ram.page
      rw [here, frame]
    refine ⟨⟨fun x outside => becomes.mem x fun q pool => outside q pool.1.1,
      fun w isLive => ptes w (notV w isLive),
      fun w isLive x within => becomes.mem x (space.outside_user isLive within)⟩,
      fun x within => becomes.mem x (held x within), .inl ⟨done, ?_, here⟩⟩
    refine ⟨table.with_area fun q => ?_, fun q member => ?_, fun w either => ?_,
      fun w w' either either' equal => ?_, fun w neither => ?_, fun w either => ?_⟩
    · constructor
      · intro pool
        refine ⟨⟨pool.1, fun isP => pool.2 v (.inr rfl) (frameV.trans isP.symm)⟩,
          fun w isLive => ?_⟩
        rw [← frames w isLive]
        exact pool.2 w (.inl isLive)
      · rintro ⟨⟨member, notP⟩, other⟩
        refine ⟨member, fun w either => ?_⟩
        rcases either with isLive | rfl
        · rw [frames w isLive]
          exact other w isLive
        · rw [frameV]
          exact fun same => notP same.symm
    · by_cases isP : q = p
      · exact isP ▸ page
      · exact space.pages q ⟨member, isP⟩
    · rcases either with isLive | rfl
      · rw [frames w isLive, ptes w (notV w isLive)]
        exact ⟨(space.user w isLive).1.1, (space.user w isLive).2⟩
      · rw [frameV, here]
        exact ⟨inside, user⟩
    · rcases either with isLive | rfl
      · rw [frames w isLive] at equal
        rcases either' with isLive' | rfl
        · rw [frames w' isLive'] at equal
          exact space.once w w' isLive isLive' equal
        · exact absurd (equal.trans frameV) (space.page_ne isLive)
      · rcases either' with isLive' | rfl
        · rw [frames w' isLive', frameV] at equal
          exact absurd equal.symm (space.page_ne isLive')
        · rfl
    · rw [not_or] at neither
      rw [ptes w neither.2]
      exact space.rest w neither.1
    · rcases either with isLive | rfl
      · exact space.apart w isLive
      · exact unmapped
  · obtain ⟨space', keeps⟩ := space.becomes table becomes (fun _ _ => rfl) space.rest space.apart
    exact ⟨keeps_more keeps, fun x within => becomes.mem x (held x within), .inr ⟨failed, space'⟩⟩

/-- **A page that is not user memory** is mapped. -/
theorem mapExtra {perm : Nat} (space : Space whole root live extra s) (dead : ¬ live v)
    (unmapped : extra v = 0) (low : v * PGSIZE < MAXVA) (fits : p < 2 ^ 64) :
    From s (mappages root (v * PGSIZE) PGSIZE p perm)
      (fun r t => Keeps whole root live s t ∧
        (r = 0 ∧ Space whole root live (update extra v (leafPte p perm % 2 ^ 64)) t ∨
          r = -1 ∧ Space whole root live extra t)) fails := by
  refine (space.mappages_one dead unmapped low fits).to_post ?_
  rintro r t ⟨table, ⟨done, becomes⟩ | ⟨failed, becomes⟩⟩
  · have notV : ∀ w, live w → w ≠ v := fun w isLive same => dead (same ▸ isLive)
    obtain ⟨space', keeps⟩ := space.becomes table becomes
      (fun w isLive => update_of_ne (notV w isLive) _ _)
      (fun w gone => by
        refine update_ind ?_ fun other => ?_
        · rw [update_self]
        · rw [update_of_ne other]
          exact space.rest w gone)
      fun w isLive => (update_of_ne (notV w isLive) _ _).trans (space.apart w isLive)
    exact ⟨keeps, .inl ⟨done, space'⟩⟩
  · obtain ⟨space', keeps⟩ := space.becomes table becomes (fun _ _ => rfl) space.rest space.apart
    exact ⟨keeps, .inr ⟨failed, space'⟩⟩

theorem unmapExtra (space : Space whole root live extra s) (dead : ¬ live v) (leaf : Leaf (extra v))
    (low : v * PGSIZE < MAXVA) :
    From s (uvmunmap root (v * PGSIZE) 1 false)
      (fun _ t => Space whole root live (update extra v 0) t ∧ Keeps whole root live s t ∧
        t.freelist = s.freelist) fails := by
  have narrow : (v + 1) * PGSIZE < 2 ^ 64 := by
    have small : PGSIZE < 2 ^ 38 := by decide
    rw [MAXVA] at low
    rw [Nat.add_mul, Nat.one_mul]
    omega
  have removable : Removable s root v 1 := fun w above below => by
    rw [show w = v by omega, space.rest v dead]
    exact ⟨low, leaf⟩
  refine (uvmunmap_spec space.table narrow).weaken (fun _ same => same) ?_
    fun _ bad => absurd removable bad
  rintro _ t ⟨-, table, becomes, free⟩
  have notV : ∀ w, live w → w ≠ v := fun w isLive same => dead (same ▸ isLive)
  obtain ⟨space', keeps⟩ := space.becomes table becomes
    (fun w isLive => if_neg fun inside => notV w isLive (by omega))
    (fun w gone => show _ = update extra v 0 w by
      refine update_ind (if_pos (by omega)) fun other => ?_
      rw [← space.rest w gone]
      exact if_neg (by omega))
    fun w isLive => (update_of_ne (notV w isLive) _ _).trans (space.apart w isLive)
  exact ⟨space', keeps, free⟩

theorem unmapPage (space : Space whole root live extra s) (isLive : live v)
    (at_ : s.node root 2 (v / 512) = some q) :
    let t := (s.push (s.page root v)).store (q + 8 * (v % 512)) 0
    Space whole root (fun w => live w ∧ w ≠ v) extra t ∧
      Keeps whole root (fun w => live w ∧ w ≠ v) s t ∧
      t.freelist = s.page root v :: s.freelist := by
  intro t
  have page := space.page_isPage isLive
  obtain ⟨table, same⟩ := space.table.push page fun pool => pool.2 v isLive rfl
  obtain ⟨table', stored⟩ := table.storePte ((same.node 2 (Nat.le_refl 2) _).trans at_) 0
  have ptes : ∀ w, w ≠ v → t.pte root w = s.pte root w := fun w other => by
    rw [stored.pte, update_of_ne other, same.pte]
  have frames : ∀ w, w ≠ v → t.page root w = s.page root w := fun w other => by
    unfold Ram.page
    rw [ptes w other]
  have mem : ∀ x, Outside (Pool whole root live s) x → ¬ InPage (s.page root v) x →
    t.mem x = s.mem x := by
    intro x outside notV
    refine (stored.mem x fun p pool => ?_).trans (mem_push notV)
    rcases pool with pool | rfl
    · exact outside p pool
    · exact notV
  refine ⟨⟨table'.with_area fun p => ?_, space.pages, fun w both => ?_,
    fun w w' both both' equal => ?_, fun w gone => ?_, fun w both => space.apart w both.1⟩,
    ⟨fun x outside => mem x (outside_pool outside) (outside _ (space.user v isLive).1),
      fun w both => ptes w both.2, fun w both x within => mem x (space.outside_user both.1 within)
        fun within' =>
        both.2 (space.once w v both.1 isLive
          (within.unique within' (space.page_isPage both.1).1 page.1))⟩, rfl⟩
  · constructor
    · rintro ⟨member, other⟩
      by_cases isP : p = s.page root v
      · exact .inr isP
      · refine .inl ⟨member, fun w isLive' => ?_⟩
        by_cases same : w = v
        · exact fun equal => isP (same ▸ equal.symm)
        · rw [← frames w same]
          exact other w ⟨isLive', same⟩
    · rintro (pool | rfl)
      · refine ⟨pool.1, fun w both => ?_⟩
        rw [frames w both.2]
        exact pool.2 w both.1
      · refine ⟨(space.user v isLive).1, fun w both equal => both.2 ?_⟩
        rw [frames w both.2] at equal
        exact space.once w v both.1 isLive equal
  · rw [frames w both.2, ptes w both.2]
    exact space.user w both.1
  · rw [frames w both.2, frames w' both'.2] at equal
    exact space.once w w' both.1 both'.1 equal
  · by_cases isV : w = v
    · rw [isV, stored.pte, update_self, space.apart v isLive, Nat.zero_mod]
    · rw [ptes w isV]
      exact space.rest w fun isLive' => gone ⟨isLive', isV⟩

end Space

end Space

end Xv6.Vm
