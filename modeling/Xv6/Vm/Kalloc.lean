/-
**The page allocator** (`kernel/kalloc.c`) on its linked list, for any number of harts.

The steps are the sections under `kmem.lock`. `kalloc` and `kfree` fill a page while they hold it
outside the lock, so a `memset` is a sequence of writes to a held page, as are the writes of whoever
got the page from `kalloc`. At boot the kernel holds every page, and `kinit` frees them one by one.
-/

import Xv6.Vm.Grow

namespace Xv6.Vm

open Lib Function

structure Kmem where
  mem : Memory
  /-- `kmem.freelist` -/
  freelist : Nat
  /-- the pages that `kalloc` has returned, or that `kinit` has not freed yet -/
  held : List Nat

inductive KmemEvent
  /-- the section of `kalloc` -/
  | take
  /-- the section of `kfree` -/
  | give (pa : Nat)
  /-- `memset` on a held page -/
  | fill (pa : Nat) (v : Byte)
  /-- a byte of a held page is written -/
  | write (a : Nat) (v : Byte)

/-- The pages that the loop of `freerange` passes to `kfree`, from `p` on. -/
def freerange (p : Nat) : List Nat :=
  if p + PGSIZE ≤ PHYSTOP then p :: freerange (p + PGSIZE) else []
termination_by PHYSTOP - p
decreasing_by
  simp only [PGSIZE] at *
  omega

theorem mem_freerange {p q : Nat} :
    q ∈ freerange p ↔ q + PGSIZE ≤ PHYSTOP ∧ ∃ k, q = p + k * PGSIZE := by
  fun_induction freerange p with
  | case1 p more ih =>
    rw [List.mem_cons, ih]
    constructor
    · rintro (rfl | ⟨inside, k, rfl⟩)
      · exact ⟨more, 0, by simp⟩
      · exact ⟨inside, k + 1, by ring⟩
    · rintro ⟨inside, _ | k, rfl⟩
      · exact Or.inl (by simp)
      · exact Or.inr ⟨inside, k, by ring⟩
  | case2 p done =>
    refine ⟨fun member => absurd member List.not_mem_nil, ?_⟩
    rintro ⟨inside, k, rfl⟩
    exact absurd (by omega) done

theorem nodup_freerange (p : Nat) : (freerange p).Nodup := by
  fun_induction freerange p with
  | case1 p more ih =>
    refine List.nodup_cons.mpr ⟨fun again => ?_, ih⟩
    obtain ⟨_, k, same⟩ := mem_freerange.mp again
    simp only [PGSIZE] at same
    omega
  | case2 => exact List.nodup_nil

namespace Kmem

/-- `r->next` -/
def next (mem : Memory) (r : Nat) : Nat := mem.le 8 r

def exec (s : Kmem) : KmemEvent → Option Kmem
  | .take =>
    some (if s.freelist = 0 then s
      else { s with freelist := next s.mem s.freelist, held := s.freelist :: s.held })
  | .give pa =>
    if pa ∈ s.held then some ⟨Memory.setLe 8 s.mem pa s.freelist, pa, s.held.erase pa⟩ else none
  | .fill pa v => if pa ∈ s.held then some { s with mem := s.mem.fill pa PGSIZE v } else none
  | .write a v => if PGROUNDDOWN a ∈ s.held then some { s with mem := update s.mem a v } else none

def Step (s : Kmem) (e : KmemEvent) (t : Kmem) : Prop := s.exec e = some t

/-- The list that starts at `r` and follows the links. -/
def Spells (mem : Memory) : Nat → List Nat → Prop
  | r, [] => r = 0
  | r, p :: rest => r = p ∧ Spells mem (next mem p) rest

variable {mem : Memory}

theorem Spells.congr {mem' : Memory} : ∀ {free : List Nat} {r : Nat}, Spells mem r free →
    (∀ p ∈ free, next mem' p = next mem p) → Spells mem' r free
  | [], _, spells, _ => spells
  | p :: _, _, spells, same => by
    refine ⟨spells.1, ?_⟩
    rw [same p List.mem_cons_self]
    exact spells.2.congr fun q member => same q (List.mem_cons_of_mem p member)

theorem Spells.head {r : Nat} {free : List Nat} (spells : Spells mem r free) :
    free.headD 0 = r := by
  cases free with
  | nil => exact spells.symm
  | cons => exact spells.1.symm

section

variable [KernelImage]

/-- `freerange(end, (void*)PHYSTOP)` -/
def kinit : List Nat := freerange (PGROUNDUP KernelImage.kend)

theorem mem_kinit {p : Nat} : p ∈ kinit ↔ IsPage p := by
  have inRam := KernelImage.inRam
  have narrow : PHYSTOP + PGSIZE ≤ 2 ^ 64 := by decide
  have whole : PHYSTOP % PGSIZE = 0 := by decide
  rw [kinit, mem_freerange, PGROUNDUP_eq (by omega), IsPage]
  simp only [npages, PGSIZE] at *
  constructor
  · rintro ⟨inside, k, rfl⟩
    omega
  · rintro ⟨aligned, low, high⟩
    exact ⟨by omega, p / 4096 - (KernelImage.kend + 4096 - 1) / 4096, by omega⟩

def boot (mem : Memory) : Kmem := ⟨mem, 0, kinit⟩

/-- **Every page is in the list or held, once.** -/
def Inv (s : Kmem) (free : List Nat) : Prop :=
  Spells s.mem s.freelist free ∧ (free ++ s.held).Perm kinit

variable {s t : Kmem} {e : KmemEvent} {free : List Nat} {p q : Nat}

theorem Inv.take {rest : List Nat} (inv : Inv s (p :: rest)) :
    Inv { s with freelist := next s.mem s.freelist, held := s.freelist :: s.held } rest := by
  obtain ⟨⟨first, spells⟩, perm⟩ := inv
  exact ⟨first ▸ spells, first ▸ List.perm_middle.trans perm⟩

namespace Inv

variable (inv : Inv s free)

include inv

theorem nodup : (free ++ s.held).Nodup := inv.2.nodup_iff.mpr (nodup_freerange _)

theorem isPage : IsPage p ↔ p ∈ free ∨ p ∈ s.held := by
  rw [← mem_kinit, ← inv.2.mem_iff, List.mem_append]

theorem small : s.freelist < 256 ^ 8 := by
  cases free with
  | nil =>
    rw [show s.freelist = 0 from inv.1]
    decide
  | cons p rest =>
    rw [inv.1.1]
    exact (inv.isPage.mpr (Or.inl List.mem_cons_self)).fits

/-- Links of free pages stay when other pages are written. -/
theorem frame (isFree : p ∈ free) (isHeld : q ∈ s.held)
    (same : ∀ x, PGROUNDDOWN x ≠ q → mem x = s.mem x) : next mem p = next s.mem p := by
  refine Memory.le_congr fun x low high => same x ?_
  rintro rfl
  have apart : p ≠ PGROUNDDOWN x := (List.nodup_append.mp inv.nodup).2.2 p isFree _ isHeld
  have aligned := (inv.isPage.mpr (Or.inl isFree)).1
  simp only [PGROUNDDOWN, PGSIZE] at apart aligned
  omega

theorem written (isHeld : q ∈ s.held) (same : ∀ x, PGROUNDDOWN x ≠ q → mem x = s.mem x) :
    Inv { s with mem := mem } free :=
  ⟨inv.1.congr fun _ isFree => inv.frame isFree isHeld same, inv.2⟩

theorem fill (isHeld : p ∈ s.held) (v : Byte) :
    Inv { s with mem := s.mem.fill p PGSIZE v } free := by
  refine inv.written isHeld fun x other => Memory.fill_outside ?_
  have aligned := (inv.isPage.mpr (Or.inr isHeld)).1
  simp only [PGROUNDDOWN, PGSIZE] at *
  omega

theorem give (isHeld : p ∈ s.held) :
    Inv ⟨Memory.setLe 8 s.mem p s.freelist, p, s.held.erase p⟩ (p :: free) := by
  have aligned := (inv.isPage.mpr (Or.inr isHeld)).1
  refine ⟨⟨rfl, ?_⟩, ?_⟩
  · show Spells _ (next (Memory.setLe 8 s.mem p s.freelist) p) free
    rw [next, Memory.le_setLe_same, Nat.mod_eq_of_lt inv.small]
    refine (inv.written isHeld fun x other => Memory.setLe_outside ?_).1
    simp only [PGROUNDDOWN, PGSIZE] at *
    omega
  · have erased : (free ++ p :: s.held.erase p).Perm (free ++ s.held) :=
      (List.perm_cons_erase isHeld).symm.append_left free
    exact (List.perm_middle.symm.trans erased).trans inv.2

theorem step (step : Step s e t) : ∃ free', Inv t free' := by
  cases e with
  | take =>
    obtain rfl := Option.some.inj step
    split
    next => exact ⟨free, inv⟩
    next some =>
      cases free with
      | nil => exact absurd inv.1 some
      | cons p rest => exact ⟨rest, inv.take⟩
  | give pa =>
    obtain ⟨isHeld, rfl⟩ := of_guard step
    exact ⟨pa :: free, inv.give isHeld⟩
  | fill pa v =>
    obtain ⟨isHeld, rfl⟩ := of_guard step
    exact ⟨free, inv.fill isHeld v⟩
  | write a v =>
    obtain ⟨isHeld, rfl⟩ := of_guard step
    refine ⟨free, inv.written isHeld fun x other => update_of_ne ?_ _ _⟩
    rintro rfl
    exact other rfl

end Inv

theorem inv_boot (mem : Memory) : Inv (boot mem) [] := ⟨rfl, List.Perm.refl kinit⟩

theorem inv_of_run {trace : List KmemEvent} (run : Run Step (boot mem) trace s) :
    ∃ free, Inv s free :=
  Run.inv (P := fun s => ∃ free, Inv s free) ⟨[], inv_boot mem⟩
    (fun inv => inv.choose_spec.step) run

/-- **The list of free pages.** In every state that calls of `kalloc` and `kfree` and writes to
pages that are not free can reach, the links from `kmem.freelist` on lead through the free pages to
0; every page between the end of the kernel and `PHYSTOP` is in this list or held, and none is twice
in the list or both. So `kalloc` returns a page that nobody holds, `kfree` does not panic, and
`kalloc` fails only when every page is held. -/
theorem pages_partitioned {mem : Memory} {trace : List KmemEvent}
    (run : Run Step (boot mem) trace s) :
    ∃ free, Spells s.mem s.freelist free ∧ (free ++ s.held).Nodup ∧
      (∀ p, IsPage p ↔ p ∈ free ∨ p ∈ s.held) ∧
      (s.freelist = 0 → free = []) := by
  obtain ⟨free, inv⟩ := inv_of_run run
  refine ⟨free, inv.1, inv.nodup, fun p => inv.isPage, fun zero => ?_⟩
  cases free with
  | nil => rfl
  | cons p rest =>
    have page := inv.isPage.mpr (Or.inl List.mem_cons_self)
    exact absurd (inv.1.1.symm.trans zero) page.pos.ne'

/-- The steps of `kfree`. -/
def kfreeSteps (pa : Nat) : List KmemEvent := [.fill pa 1, .give pa]

omit [KernelImage] in
theorem run_kfree (isHeld : p ∈ s.held) : Run Step s (kfreeSteps p)
    ⟨Memory.setLe 8 (s.mem.fill p PGSIZE 1) p s.freelist, p, s.held.erase p⟩ := by
  refine (Run.nil.snoc (if_pos isHeld)).snoc (t := { s with mem := s.mem.fill p PGSIZE 1 }) ?_
  exact if_pos isHeld

omit [KernelImage] in
theorem run_kfrees : ∀ {pages : List Nat} {s : Kmem}, s.held = pages →
    ∃ t, Run Step s (pages.flatMap kfreeSteps) t ∧ t.held = []
  | [], s, empty => ⟨s, .nil, empty⟩
  | p :: rest, s, more => by
    have first := run_kfree (s := s) (more ▸ List.mem_cons_self : p ∈ s.held)
    rw [more, List.erase_cons_head] at first
    obtain ⟨t, run, empty⟩ := run_kfrees (s := ⟨_, p, rest⟩) rfl
    exact ⟨t, first.append run, empty⟩

/-- **`kinit` frees every page.** -/
theorem kinit_frees (mem : Memory) : ∃ s free, Run Step (boot mem) (kinit.flatMap kfreeSteps) s ∧
    Spells s.mem s.freelist free ∧ free.Nodup ∧ ∀ p, IsPage p ↔ p ∈ free := by
  obtain ⟨s, run, empty⟩ := run_kfrees (s := boot mem) rfl
  obtain ⟨free, inv⟩ := inv_of_run run
  have nodup := inv.nodup
  rw [empty, List.append_nil] at nodup
  refine ⟨s, free, run, inv.1, nodup, fun p => ?_⟩
  rw [inv.isPage, empty]
  simp

/-- The allocator of `Xv6.Vm.Machine` has the list itself in its state. -/
def Refines (s : Kmem) (r : Ram) : Prop := Inv s r.freelist ∧ s.mem = r.mem

/-- **The linked list implements the list.** `kfree` of a held page, and `kalloc` when no other hart
takes the page, do the same to the pointers and the memory as to the list. -/
theorem kmem_refines {r : Ram} (same : Refines s r) :
    (∀ p ∈ s.held, ∃ t r', Run Step s (kfreeSteps p) t ∧ kfree p r = .ok ((), r') ∧ Refines t r') ∧
    (r.grants 0 = true → ∃ t r', Refines t r' ∧
      (s.freelist = 0 ∧ t = s ∧ kalloc r = .ok (none, r') ∨
        Run Step s [.take, .fill s.freelist 5] t ∧ kalloc r = .ok (some s.freelist, r'))) := by
  obtain ⟨mem, free, grants⟩ := r
  obtain ⟨inv, rfl⟩ := same
  refine ⟨fun p isHeld => ?_, fun granted => ?_⟩
  · have page := inv.isPage.mpr (Or.inr isHeld)
    obtain ⟨_, r', done, rfl⟩ := Triple.returns (kfree_spec page) rfl fun _ => id
    refine ⟨_, _, run_kfree isHeld, done, (inv.fill isHeld 1).give isHeld, ?_⟩
    show _ = Memory.setLe 8 (s.mem.fill p PGSIZE 1) p (free.headD 0)
    rw [inv.1.head]
  · cases free with
    | nil => exact ⟨s, Ram.skip ⟨s.mem, [], grants⟩, ⟨inv, rfl⟩, Or.inl ⟨inv.1, rfl, rfl⟩⟩
    | cons p rest =>
      have first : s.freelist = p := inv.1.1
      have pos := (inv.isPage.mpr (Or.inl List.mem_cons_self)).pos
      let t : Kmem := { s with freelist := next s.mem s.freelist, held := s.freelist :: s.held }
      have taken : Step s .take t := congrArg some (if_neg (first ▸ pos.ne'))
      have filled : Step t (.fill s.freelist 5) { t with mem := t.mem.fill s.freelist PGSIZE 5 } :=
        if_pos List.mem_cons_self
      refine ⟨_, Ram.pop ⟨s.mem, p :: rest, grants⟩ p rest,
        ⟨inv.take.fill List.mem_cons_self 5, ?_⟩, Or.inr ⟨(Run.nil.snoc taken).snoc filled, ?_⟩⟩
      · rw [first]
        rfl
      · have granted : grants 0 = true := granted
        simp [kalloc, granted, first]
        rfl

end

attribute [local instance] smallKernel in
theorem pages_partitioned_kinit :
    ∃ s free, Run Step (boot fun _ => 0) (kinit.flatMap kfreeSteps) s ∧
    Spells s.mem s.freelist free ∧ (free ++ s.held).Nodup := by
  obtain ⟨s, run, _⟩ := run_kfrees (s := boot fun _ => 0) rfl
  obtain ⟨free, spells, nodup, _⟩ := pages_partitioned run
  exact ⟨s, free, run, spells, nodup⟩

theorem kfree_push [KernelImage] {r r' : Ram} (page : IsPage p) (done : kfree p r = .ok ((), r')) :
    r' = r.push p := by
  have spec : From r (kfree p) (fun _ t => t = r.push p) fun _ => False :=
    kfree_spec page
  exact spec.ok rfl done

attribute [local instance] smallKernel in
/-- Two pages are freed, and `kalloc` returns the second one. -/
theorem kmem_refines_twoPages : ∃ t u r₁ r₂ r₃,
    Run Step (boot fun _ => 0) (kfreeSteps 0x80020000 ++ kfreeSteps 0x80021000) t ∧
    kfree 0x80020000 ⟨fun _ => 0, [], fun _ => true⟩ = .ok ((), r₁) ∧
    kfree 0x80021000 r₁ = .ok ((), r₂) ∧ Refines t r₂ ∧
    Run Step t [.take, .fill 0x80021000 5] u ∧ kalloc r₂ = .ok (some 0x80021000, r₃) ∧
    Refines u r₃ := by
  have first : IsPage 0x80020000 := by unfold IsPage; decide
  have second : IsPage 0x80021000 := by unfold IsPage; decide
  have same : Refines (boot fun _ => 0) ⟨fun _ => 0, [], fun _ => true⟩ := ⟨inv_boot _, rfl⟩
  obtain ⟨s, r₁, run₁, free₁, same₁⟩ := (kmem_refines same).1 _ (mem_kinit.mpr first)
  obtain rfl := kfree_push first free₁
  have isHeld : 0x80021000 ∈ s.held := (same₁.1.isPage.mp second).resolve_left (by decide)
  obtain ⟨t, r₂, run₂, free₂, same₂⟩ := (kmem_refines same₁).1 _ isHeld
  obtain rfl := kfree_push second free₂
  have next : t.freelist = 0x80021000 := same₂.1.1.1
  obtain ⟨u, r₃, same₃, none | some⟩ := (kmem_refines same₂).2 rfl
  · exact absurd (next.symm.trans none.1) (by decide)
  · rw [next] at some
    exact ⟨t, u, _, _, r₃, run₁.append run₂, free₁, free₂, same₂, some.1, some.2, same₃⟩

end Kmem

end Xv6.Vm
