/-
**The memory of a process** (`kernel/proc.c`: `proc_pagetable`, `proc_freepagetable`, `freeproc`,
`growproc`).

`Shape whole p s` is what the memory of a process looks like: the pages below its size are user
memory, the trampoline and the trapframe are mapped at the top, and nothing else is. `procPagetable`
makes such a table and `procFreepagetable` frees it; `growproc` keeps the shape.

`growproc` adds in 32 bits without a sign: a request to shrink by more than the size wraps around,
is a size that is larger than the old one, and succeeds with no effect.
-/

import Xv6.Vm.Freewalk
import Xv6.Proc.Life

set_option linter.unusedSectionVars false

namespace Xv6.Vm

open Lib Function

/-- `struct proc`, without what belongs to files and to the scheduler. A pointer is an address, or
0. -/
structure Proc where
  state : ProcState
  pid : Int
  killed : Bool
  xstate : Int
  /-- size of process memory -/
  sz : Nat
  /-- user page table -/
  pagetable : Nat
  trapframe : Nat
  name : List Byte
  deriving DecidableEq

def Proc.unused : Proc :=
  { state := .unused, pid := 0, killed := false, xstate := 0, sz := 0, pagetable := 0,
    trapframe := 0, name := [] }

section Model

variable [KernelImage]

/-- Create a user page table for a process with no user memory, but with the trampoline and the
trapframe. -/
def procPagetable (trapframe : Nat) : VmM Nat := do
  match ← uvmcreate with
  | none => return 0
  | some pagetable =>
    if (← mappages pagetable TRAMPOLINE PGSIZE KernelImage.trampoline (PTE_R ||| PTE_X)) < 0 then
      uvmfree pagetable 0
      return 0
    else if (← mappages pagetable TRAPFRAME PGSIZE trapframe (PTE_R ||| PTE_W)) < 0 then
      uvmunmap pagetable TRAMPOLINE 1 false
      uvmfree pagetable 0
      return 0
    else return pagetable

def procFreepagetable (pagetable sz : Nat) : VmM Unit := do
  uvmunmap pagetable TRAMPOLINE 1 false
  uvmunmap pagetable TRAPFRAME 1 false
  uvmfree pagetable sz

def freeproc (p : Proc) : VmM Proc := do
  if p.trapframe ≠ 0 then kfree p.trapframe
  if p.pagetable ≠ 0 then procFreepagetable p.pagetable p.sz
  return Proc.unused

/-- Grow or shrink user memory by `n` bytes: 0 on success, -1 on failure, and the process. The size
is a `uint` here. -/
def growproc (p : Proc) (n : Int) : VmM (Int × Proc) := do
  let sz := p.sz % 2 ^ 32
  let newsz := ((sz + n) % 2 ^ 32).toNat
  if 0 < n then
    let sz := (← uvmalloc p.pagetable sz newsz) % 2 ^ 32
    if sz = 0 then return (-1, p)
    else return (0, { p with sz })
  else if n < 0 then
    let sz := (← uvmdealloc p.pagetable sz newsz) % 2 ^ 32
    return (0, { p with sz })
  else return (0, { p with sz })

end Model

def trampolinePage : Nat := TRAMPOLINE / PGSIZE

def trapframePage : Nat := TRAPFRAME / PGSIZE

section Process

variable [KernelImage]

def procExtra (trapframe : Nat) : Nat → Nat :=
  update (update (fun _ => 0) trampolinePage
    (leafPte KernelImage.trampoline (PTE_R ||| PTE_X))) trapframePage
    (leafPte trapframe (PTE_R ||| PTE_W))

structure Shape (whole : Nat → Prop) (p : Proc) (s : Ram) : Prop where
  space : Space whole p.pagetable (fun v => v < npages p.sz) (procExtra p.trapframe) s
  trapframe : IsPage p.trapframe
  /-- the trapframe is a page of its own -/
  own : ¬ whole p.trapframe

variable {whole live : Nat → Prop} {root trapframe : Nat} {s t u : Ram} {p : Proc}
  {q v x n sz : Nat}
  {fails : VmPanic → Prop} {extra : Nat → Nat}

theorem trampolinePage_mul : trampolinePage * PGSIZE = TRAMPOLINE := by decide

theorem trapframePage_mul : trapframePage * PGSIZE = TRAPFRAME := by decide

theorem trampoline_fits : KernelImage.trampoline < 2 ^ 64 := by
  have text := KernelImage.inText
  have ram : KernelImage.kend < 2 ^ 64 := Nat.lt_of_le_of_lt KernelImage.inRam (by decide)
  omega

theorem procExtra_low (low : v < trapframePage) : procExtra trapframe v = 0 := by
  have order : trapframePage < trampolinePage := by decide
  unfold procExtra
  rw [update_of_ne (by omega), update_of_ne (by omega)]

theorem procExtra_clear : ∀ w < FRAMES, procExtra trapframe w = 0 := fun _ low =>
  procExtra_low (Nat.lt_trans low (by decide))

theorem Space.with_whole {whole' : Nat → Prop} (space : Space whole root live extra s)
    (same : ∀ p, whole' p ↔ whole p) : Space whole' root live extra s := by
  rwa [show whole' = whole from funext fun p => propext (same p)]

attribute [local irreducible] freewalk

/-! ### `proc_pagetable` -/

theorem uvmcreate_space (list : FreeList s) : From s uvmcreate
    (fun r t => (r = none ∧ AllFree (fun p => p ∈ s.freelist) s t) ∨ ∃ root, r = some root ∧
      Space (fun p => p ∈ s.freelist) root (fun v => v < npages 0) (fun _ => 0) t ∧
      ∀ x, Outside (fun p => p ∈ s.freelist) x → t.mem x = s.mem x) fails := by
  refine (uvmcreate_spec list).to_post ?_
  rintro r t (⟨isNone, mem, free⟩ | ⟨root, isRoot, table, zero, mem⟩)
  · exact .inl ⟨isNone, ⟨free ▸ list.nodup, fun p => by rw [free], fun x _ => by rw [mem]⟩⟩
  · have none : ∀ v, ¬ v < npages 0 := fun v => Nat.not_lt_zero v
    refine .inr
      ⟨root, isRoot, ⟨table.with_area fun p => ?_, list.pages, fun v below => absurd below (none v),
      fun v w below => absurd below (none v), fun v _ => zero v, fun _ _ => rfl⟩, mem⟩
    exact ⟨fun pool => pool.1, fun member => ⟨member, fun v below => absurd below (none v)⟩⟩

theorem AllFree.after {area : Nat → Prop} (all : AllFree area t u)
    (same : ∀ x, Outside area x → t.mem x = s.mem x) : AllFree area s u :=
  ⟨all.nodup, all.free, fun x outside => (all.mem x outside).trans (same x outside)⟩

theorem Space.root_isPage (space : Space whole root live extra s) : IsPage root :=
  space.table.isPage (Nat.zero_le 2) (node_zero s root)

theorem leaf_leafPte {pa perm : Nat} (small : perm < 1024) (more : perm ||| PTE_V ≠ 1) :
    Leaf (leafPte pa perm) :=
  ⟨leafPte_valid small, by rwa [← PTE_FLAGS_eq, PTE_FLAGS_leafPte small]⟩

/-- **`proc_pagetable`** makes a table for a process without user memory; when it fails, the pages
are free again. -/
theorem procPagetable_spec (list : FreeList s) (fits : trapframe < 2 ^ 64) :
    From s (procPagetable trapframe)
      (fun r t => r = 0 ∧ AllFree (fun p => p ∈ s.freelist) s t ∨
        r ≠ 0 ∧ Space (fun p => p ∈ s.freelist) r (fun v => v < npages 0) (procExtra trapframe) t ∧
          ∀ x, Outside (fun p => p ∈ s.freelist) x → t.mem x = s.mem x) fails := by
  refine .bind (uvmcreate_space list) fun r => .each fun t created => ?_
  rcases created with ⟨rfl, all⟩ | ⟨root, rfl, space, mem⟩
  · exact .done (.inl ⟨rfl, all⟩)
  · have none : ∀ v, ¬ v < npages 0 := fun v => Nat.not_lt_zero v
    have first :=
      @Space.mapExtra _ _ _ root _ t KernelImage.trampoline trampolinePage fails
      (PTE_R ||| PTE_X) space
      (none _) rfl (by decide) trampoline_fits
    rw [trampolinePage_mul, Nat.mod_eq_of_lt (leafPte_lt trampoline_fits (by decide))] at first
    refine .bind first fun r => .each fun u maps => ?_
    obtain ⟨keeps, ⟨rfl, space₁⟩ | ⟨rfl, space₁⟩⟩ := maps
    · refine .ite (fun negative => absurd negative (by decide)) fun _ => ?_
      have empty :
        update (fun _ => 0) trampolinePage (leafPte KernelImage.trampoline (PTE_R ||| PTE_X))
          trapframePage = 0 := update_of_ne (by decide) _ _
      have second :=
        @Space.mapExtra _ _ _ root _ u trapframe trapframePage fails (PTE_R ||| PTE_W) space₁
        (none _) empty (by decide) fits
      rw [trapframePage_mul, Nat.mod_eq_of_lt (leafPte_lt fits (by decide))] at second
      refine .bind second fun r => .each fun w maps => ?_
      obtain ⟨keeps', ⟨rfl, space₂⟩ | ⟨rfl, space₂⟩⟩ := maps
      · refine .ite (fun negative => absurd negative (by decide)) fun _ => .pure fun t' same => ?_
        subst same
        exact .inr ⟨space₂.root_isPage.pos.ne', space₂, fun x outside =>
          (keeps'.mem x outside).trans ((keeps.mem x outside).trans (mem x outside))⟩
      · refine .ite (fun _ => ?_) fun positive => absurd (by decide) positive
        have remove := @Space.unmapExtra _ _ _ root _ w trampolinePage fails space₂ (none _)
          (by rw [update_self]; exact leaf_leafPte (by decide) (by decide)) (by decide)
        rw [trampolinePage_mul] at remove
        refine .bind remove fun _ => .each fun w' removed => ?_
        rw [update_idem, update_eq_self] at removed
        refine .bind (uvmfree_spec removed.1) fun _ => .pure fun v all => .inl ⟨rfl, ?_⟩
        exact all.after fun x outside => (removed.2.1.mem x outside).trans
          ((keeps'.mem x outside).trans ((keeps.mem x outside).trans (mem x outside)))
    · refine .ite (fun _ => ?_) fun positive => absurd (by decide) positive
      refine .bind (uvmfree_spec space₁) fun _ => .pure fun v all => .inl ⟨rfl, ?_⟩
      exact all.after fun x outside => (keeps.mem x outside).trans (mem x outside)

/-! ### `proc_freepagetable` and `freeproc` -/

theorem procExtra_trampoline :
    procExtra trapframe trampolinePage = leafPte KernelImage.trampoline (PTE_R ||| PTE_X) := by
  unfold procExtra
  rw [update_of_ne (by decide), update_self]

theorem procExtra_trapframe :
    procExtra trapframe trapframePage = leafPte trapframe (PTE_R ||| PTE_W) := by
  unfold procExtra
  rw [update_self]

theorem procExtra_removed :
    update (update (procExtra trapframe) trampolinePage 0) trapframePage 0 = fun _ => 0 := by
  funext v
  refine update_ind rfl fun isTrapframe => update_ind rfl fun isTrampoline => ?_
  unfold procExtra
  rw [update_of_ne isTrapframe, update_of_ne isTrampoline]

theorem procFreepagetable_spec
    (space : Space whole root (fun v => v < npages sz) (procExtra trapframe) s) :
    From s (procFreepagetable root sz) (fun _ t => AllFree whole s t) fails := by
  have few : npages sz ≤ FRAMES := space.few fun v below => below
  have high : FRAMES < trapframePage := by decide
  have order : trapframePage < trampolinePage := by decide
  have first := @Space.unmapExtra _ _ _ root _ s trampolinePage fails space (by omega)
    (by rw [procExtra_trampoline]; exact leaf_leafPte (by decide) (by decide)) (by decide)
  rw [trampolinePage_mul] at first
  refine .bind first fun _ => .each fun t removed => ?_
  obtain ⟨space₁, keeps₁, -⟩ := removed
  have leaf : Leaf (update (procExtra trapframe) trampolinePage 0 trapframePage) := by
    rw [update_of_ne (by decide), procExtra_trapframe]
    exact leaf_leafPte (by decide) (by decide)
  have second := @Space.unmapExtra _ _ _ root _ t trapframePage fails space₁ (by omega) leaf
    (by decide)
  rw [trapframePage_mul, procExtra_removed] at second
  refine .bind second fun _ => .each fun u removed => ?_
  obtain ⟨space₂, keeps₂, -⟩ := removed
  refine (uvmfree_spec space₂).to_post fun _ v all => all.after fun x outside => ?_
  exact (keeps₂.mem x outside).trans (keeps₁.mem x outside)

theorem Space.push_own (space : Space whole root live extra s) (page : IsPage q)
    (own : ¬ whole q) : Space (fun p => whole p ∨ p = q) root live extra (s.push q) ∧
      Keeps (fun p => whole p ∨ p = q) root live s (s.push q) := by
  have held : Space (fun p => (whole p ∨ p = q) ∧ p ≠ q) root live extra s := space.with_whole
    fun p =>
    ⟨fun both => both.1.resolve_right both.2,
      fun inside => ⟨.inl inside, fun same => own (same ▸ inside)⟩⟩
  exact @Space.push _ (fun p => whole p ∨ p = q) live root extra s q held (.inr rfl) page

theorem freeproc_spec (shape : Shape whole p s) : From s (freeproc p)
      (fun r t => r = Proc.unused ∧ AllFree (fun q => whole q ∨ q = p.trapframe) s t) fails := by
  have nonzero := shape.trapframe.pos.ne'
  have table := shape.space.root_isPage.pos.ne'
  refine .ite (fun _ => ?_) fun zero => absurd nonzero zero
  refine .bind (kfree_spec shape.trapframe) fun _ => .each fun t pushed => ?_
  subst pushed
  obtain ⟨space, keeps⟩ := shape.space.push_own shape.trapframe shape.own
  refine .ite (fun _ => ?_) fun zero => absurd table zero
  refine .bind (procFreepagetable_spec space) fun _ => .pure fun t all => ⟨rfl, ?_⟩
  exact all.after keeps.mem

/-! ### `growproc` -/

/-- **The size of `p` has changed by `n`.** -/
structure Grown (whole : Nat → Prop) (p : Proc) (n : Int) (q : Proc) (s t : Ram) : Prop where
  size : (q.sz : Int) = p.sz + n
  same : q = { p with sz := q.sz }
  shape : Shape whole q t
  /-- the pages that stay are as they were -/
  keeps : Keeps whole p.pagetable (fun v => v < npages p.sz ∧ v < npages q.sz) s t
  /-- new pages are zero -/
  fresh : ∀ v, npages p.sz ≤ v → v < npages q.sz → Fresh t p.pagetable v
  /-- the pages above are not mapped -/
  above : ∀ v, npages q.sz ≤ v → v < trapframePage → t.pte p.pagetable v = 0
  /-- and those that were are free -/
  freed : ∀ v, npages q.sz ≤ v → v < npages p.sz → s.page p.pagetable v ∈ t.freelist

/-- **Nothing that the process can see has changed.** -/
structure Intact (whole : Nat → Prop) (p : Proc) (s t : Ram) : Prop where
  shape : Shape whole p t
  pte : ∀ v, t.pte p.pagetable v = s.pte p.pagetable v
  keeps : Keeps whole p.pagetable (fun v => v < npages p.sz) s t

theorem Shape.resize (shape : Shape whole p s)
    (space : Space whole p.pagetable (fun v => v < npages n) (procExtra p.trapframe) t) :
    Shape whole { p with sz := n } t :=
  ⟨space, shape.trapframe, shape.own⟩

theorem Shape.above (shape : Shape whole p s) (high : npages p.sz ≤ v) (low : v < trapframePage) :
    s.pte p.pagetable v = 0 :=
  (shape.space.rest v (by omega)).trans (procExtra_low low)

/-- A request that is not below the size is carried out, or nothing happens. -/
theorem growproc_spec {n : Int} (shape : Shape whole p s) (isInt : -2 ^ 31 ≤ n ∧ n < 2 ^ 31)
    (enough : -(p.sz : Int) ≤ n) :
    From s (growproc p n) (fun r t => r.1 = 0 ∧ Grown whole p n r.2 s t ∨
      r.1 = -1 ∧ r.2 = p ∧ Intact whole p s t) fails := by
  have size := shape.space.size_le
  rw [FRAMES_mul] at size
  have narrow : p.sz % 2 ^ 32 = p.sz := Nat.mod_eq_of_lt (by omega)
  have newsz : ((p.sz + n) % 2 ^ 32).toNat = (p.sz + n).toNat := by
    rw [Int.emod_eq_of_lt (by omega) (by omega)]
  unfold growproc
  dsimp only
  rw [narrow, newsz]
  generalize isNew : (p.sz + n).toNat = m
  have narrow' : m % 2 ^ 32 = m := Nat.mod_eq_of_lt (by omega)
  refine .ite (fun positive => ?_) fun _ => .ite (fun negative => ?_) fun zero => ?_
  · refine .bind (uvmalloc_spec shape.space procExtra_clear (by omega)) fun r => .each
      fun t outcome => ?_
    rcases outcome with ⟨rfl, space, keeps, fresh⟩ | ⟨rfl, space, keeps⟩
    · rw [narrow']
      have bigger := npages_mono (show p.sz ≤ r by omega)
      have space' : Space whole p.pagetable (fun v => v < npages r) (procExtra p.trapframe) t :=
        space.with_live fun v => by omega
      have shape' := shape.resize space'
      refine .ite (fun zero => absurd zero (by omega)) fun _ => .done (.inl ⟨rfl, ?_⟩)
      exact ⟨by show ((r : Nat) : Int) = p.sz + n; omega, rfl, shape', keeps.mono
        fun v both => both.1, fresh, fun v high low => shape'.above high low, fun v high below => by
          have : npages r ≤ v := high
          omega⟩
    · refine .ite (fun _ => .done (.inr ⟨rfl, rfl, ?_⟩)) fun nonzero => absurd rfl nonzero
      refine ⟨shape.resize space, fun v => ?_, keeps⟩
      by_cases below : v < npages p.sz
      · exact keeps.pte v below
      · rw [space.rest v below, shape.space.rest v below]
  · refine .bind (uvmdealloc_spec shape.space (by omega)) fun r => .each fun t outcome => ?_
    obtain ⟨rfl, removed⟩ := outcome
    rw [narrow']
    have smaller := npages_mono (show r ≤ p.sz by omega)
    have space' : Space whole p.pagetable (fun v => v < npages r) (procExtra p.trapframe) t :=
      removed.space.with_live fun v => by omega
    have shape' := shape.resize space'
    refine .done (.inl ⟨rfl, ?_⟩)
    refine ⟨by show ((r : Nat) : Int) = p.sz + n; omega, rfl, shape', removed.keeps.mono
      fun v both => ⟨both.1, fun gone => ?_⟩,
      fun v high below => ?_, fun v high low => shape'.above high low, fun v high below =>
        removed.freed v ⟨high, below⟩⟩
    · have : v < npages r := both.2
      omega
    · have : v < npages r := below
      omega
  · obtain rfl : n = 0 := by omega
    obtain rfl : m = p.sz := by omega
    refine .done (.inl ⟨rfl, ?_⟩)
    refine ⟨by show (p.sz : Int) = p.sz + 0; omega, rfl, shape, Keeps.refl, fun v high below => ?_,
      fun v high low => shape.above high low, fun v high below => ?_⟩
    · have : v < npages p.sz := below
      omega
    · have : npages p.sz ≤ v := high
      omega

/-- **A request below the size wraps around**: it is not carried out, and it is no failure. -/
theorem growproc_wraps {n : Int} (shape : Shape whole p s) (isInt : -2 ^ 31 ≤ n)
    (below : n < -(p.sz : Int)) : growproc p n s = .ok ((0, p), s) := by
  have size := shape.space.size_le
  rw [FRAMES_mul] at size
  have narrow : p.sz % 2 ^ 32 = p.sz := Nat.mod_eq_of_lt (by omega)
  have newsz : p.sz ≤ ((p.sz + n) % 2 ^ 32).toNat := by omega
  unfold growproc uvmdealloc
  dsimp only
  rw [narrow, if_neg (by omega), if_pos (by omega), if_pos newsz]
  rw [pure_bind, run_pure, narrow]

/-- **`growproc` is exact or has no effect**, and for a request below the size it is neither: it
reports success and does nothing. -/
theorem growproc_exact {n : Int} (shape : Shape whole p s) (isInt : -2 ^ 31 ≤ n ∧ n < 2 ^ 31) :
    ∃ r q t, growproc p n s = .ok ((r, q), t) ∧
      ((r = 0 ∧ Grown whole p n q s t ∨ r = -1 ∧ q = p ∧ Intact whole p s t) ↔
        -(p.sz : Int) ≤ n) := by
  by_cases enough : -(p.sz : Int) ≤ n
  · obtain ⟨⟨r, q⟩, t, done, outcome⟩ := (growproc_spec shape isInt enough).returns rfl fun _ => id
    exact ⟨r, q, t, done, iff_of_true outcome enough⟩
  · refine ⟨0, p, s, growproc_wraps shape isInt.1 (Int.not_le.mp enough), iff_of_false ?_ enough⟩
    rintro (⟨-, grown⟩ | ⟨isFailed, -⟩)
    · have := grown.size
      omega
    · cases isFailed

end Process

def roomyRam : Ram where
  mem := fun _ => 0
  freelist := (List.range 16).map fun i => 0x80030000 + 0x1000 * i
  grants := fun _ => true

section Sample

attribute [local instance] smallKernel

attribute [local irreducible] freewalk growproc

theorem roomyRam_freeList : FreeList roomyRam := by
  constructor
  · decide
  · unfold IsPage
    decide

/-- A new process, with a page below the free ones as its trapframe. -/
def newProc (pagetable : Nat) : Proc :=
  { Proc.unused with state := .used, pid := 1, pagetable, trapframe := 0x8002c000 }

/-- A process that has asked for 5000 bytes. -/
def sampleProc : VmM (Int × Proc) := do
  let pagetable ← procPagetable 0x8002c000
  if pagetable = 0 then return (-1, Proc.unused)
  else growproc (newProc pagetable) 5000

structure Sample (free : List Nat) (p : Proc) (s : Ram) : Prop where
  size : p.sz = 5000
  state : p.state = .used
  shape : Shape (fun q => q ∈ free) p s
  fresh : ∀ v < 2, Fresh s p.pagetable v

theorem sampleProc_spec {s : Ram} (list : FreeList s) (own : 0x8002c000 ∉ s.freelist) :
    From s sampleProc (fun r t => r.1 = 0 → Sample s.freelist r.2 t) := by
  have page : IsPage 0x8002c000 := by
    unfold IsPage
    decide
  refine .bind (procPagetable_spec list (by decide)) fun r => .each fun t outcome => ?_
  rcases outcome with ⟨rfl, -⟩ | ⟨nonzero, space, -⟩
  · refine .ite (fun _ => .pure fun _ _ zero => ?_) fun nonzero => absurd rfl nonzero
    cases zero
  · refine .ite (fun zero => absurd zero nonzero) fun _ => ?_
    have shape : Shape (fun q => q ∈ s.freelist) (newProc r) t := ⟨space, page, own⟩
    have grow := @growproc_spec _ (fun q => q ∈ s.freelist) t (newProc r) (fun _ => True) 5000 shape
      (by decide) (show -((0 : Nat) : Int) ≤ 5000 by decide)
    refine .to_post grow ?_
    intro r' t' outcome zero
    rcases outcome with ⟨-, grown⟩ | ⟨failed, -⟩
    · have size : r'.2.sz = 5000 := Int.ofNat.inj grown.size
      refine ⟨size, by rw [grown.same]; rfl, grown.shape, fun v below => ?_⟩
      have none : npages (newProc r).sz = 0 := show npages 0 = 0 from rfl
      have fresh := grown.fresh v (none ▸ Nat.zero_le v) (by rwa [size])
      rwa [grown.same]
    · rw [zero] at failed
      cases failed

/-- What such a process does next, by evaluation. -/
theorem sample_run {α β : Type} {next : Proc → VmM α} (observe : α → β) {seen : β}
    (done :
      ((sampleProc >>= fun r => next r.2 >>= fun a => pure (r.1, observe a)) roomyRam).toOption.map
      (fun r => r.1) =
      some (0, seen)) :
    ∃ p s a t, Sample roomyRam.freelist p s ∧ next p s = .ok (a, t) ∧ observe a = seen := by
  obtain ⟨result, t, run, isSeen⟩ := run_observed (fun r _ => r) done
  obtain ⟨r, s, first, run⟩ := run_bind_ok run
  obtain ⟨a, u, second, run⟩ := run_bind_ok run
  cases run
  obtain ⟨zero, isSeen⟩ := Prod.mk.inj isSeen
  exact ⟨r.2, s, a, t, (sampleProc_spec roomyRam_freeList (by decide)).ok rfl first zero, second,
    isSeen⟩

theorem sample : ∃ p s, Sample roomyRam.freelist p s := by
  obtain ⟨p, s, -, -, sample, -⟩ :=
    @sample_run Unit Unit (fun _ => pure ()) id () (by decide +kernel)
  exact ⟨p, s, sample⟩

/-- It asks for 5000 bytes more, for which it needs a third page. -/
theorem growproc_exact_more : ∃ whole p s q t, Shape whole p s ∧ p.sz = 5000 ∧
    growproc p 5000 s = .ok ((0, q), t) ∧ Grown whole p 5000 q s t := by
  obtain ⟨p, s, ⟨r, q⟩, t, sample, run, isZero⟩ :=
    @sample_run _ _ (fun p => growproc p 5000) (fun r => r.1) 0 (by decide +kernel)
  obtain rfl : r = 0 := isZero
  obtain ⟨r, q', t', same, exact⟩ :=
    growproc_exact sample.shape (show -2 ^ 31 ≤ (5000 : Int) ∧ (5000 : Int) < 2 ^ 31 by decide)
  obtain ⟨rfl⟩ := Except.ok.inj (run.symm.trans same)
  rcases exact.mpr (by omega) with ⟨-, grown⟩ | ⟨isFailed, -⟩
  · exact ⟨_, p, s, q, t, sample.shape, sample.size, run, grown⟩
  · cases isFailed

/-- Asked to give back 6000 bytes, it keeps the 5000 that it has, and the call succeeds. -/
theorem growproc_too_low : ∃ whole p s, Shape whole p s ∧ p.sz = 5000 ∧
    growproc p (-6000) s = .ok ((0, p), s) ∧ (p.sz : Int) ≠ (5000 : Int) + (-6000) := by
  obtain ⟨p, s, sample⟩ := sample
  have size := sample.size
  exact ⟨_, p, s, sample.shape, size, growproc_wraps sample.shape (by decide) (by omega), by omega⟩

end Sample

end Xv6.Vm
