/-
**Copying the memory of a process** (`kernel/vm.c`: `uvmcopy`; `kernel/proc.c`: `allocproc`,
`fork`).

Two address spaces share nothing but free pages. What happens to one of them changes memory in its
own pages and in free ones only, so the other one stays as it is (`Space.beside`).
-/

import Xv6.Vm.Process

set_option linter.unusedSectionVars false

namespace Xv6.Vm

open Lib Function

section Model

variable [KernelImage]

/-- Look for an unused slot and make it ready: its index, and the process table. -/
def allocproc (procs : Nat → Proc) (pid : Int) : VmM (Option Nat × (Nat → Proc)) := do
  match (List.range NPROC).find? fun i => (procs i).state = .unused with
  | none => return (none, procs)
  | some i =>
    let p := { procs i with pid, state := .used }
    match ← kalloc with
    | none =>
      let p ← freeproc { p with trapframe := 0 }
      return (none, update procs i p)
    | some trapframe =>
      let pagetable ← procPagetable trapframe
      let p := { p with trapframe, pagetable }
      if pagetable = 0 then
        let p ← freeproc p
        return (none, update procs i p)
      else return (some i, update procs i p)

/-- `sizeof(struct trapframe)` -/
def TRAPFRAME_SIZE : Nat := 288

def A0 : Nat := 112

/-- Create a new process, a copy of the process in the slot `cur`: the pid, or -1, and the process
table. -/
def fork (procs : Nat → Proc) (cur : Nat) (pid : Int) : VmM (Int × (Nat → Proc)) := do
  let p := procs cur
  match ← allocproc procs pid with
  | (none, procs) => return (-1, procs)
  | (some i, procs) =>
    let np := procs i
    if (← uvmcopy p.pagetable np.pagetable p.sz) < 0 then
      let np ← freeproc np
      return (-1, update procs i np)
    else
      modify fun s => { s with mem := s.mem.move np.trapframe p.trapframe TRAPFRAME_SIZE }
      modify fun s => s.store (np.trapframe + A0) 0
      return (np.pid, update procs i { np with sz := p.sz, name := p.name, state := .runnable })

end Model

section Beside

variable [KernelImage] {whole area live : Nat → Prop} {root : Nat} {extra : Nat → Nat} {s t u : Ram}
  {v w x n : Nat} {fails : VmPanic → Prop}

/-! ### Two address spaces -/

theorem Space.page_not_free (space : Space whole root live extra s) (isLive : live v) :
    s.page root v ∉ s.freelist := fun member => (space.table.free _ member).2 v isLive rfl

theorem Space.outside_area (space : Space whole root live extra s) (pages : ∀ q, area q → IsPage q)
    (shared : ∀ q, whole q → area q → q ∈ s.freelist) {p : Nat} (inside : whole p)
    (taken : p ∉ s.freelist) (within : InPage p x) : Outside area x :=
  fun q member within' =>
  taken
    (shared p inside (within.unique within' (space.pages p inside).1 (pages q member).1 ▸ member))

/-- **Changes in an area** that shares only free pages with an address space leave its table and its
pages. -/
theorem Space.beside_same (space : Space whole root live extra s) (pages : ∀ q, area q → IsPage q)
    (shared : ∀ q, whole q → area q → q ∈ s.freelist)
    (mem : ∀ x, Outside area x → t.mem x = s.mem x) :
    SameTable root s t ∧ ∀ v, live v → ∀ x, InPage (s.page root v) x → t.mem x = s.mem x := by
  constructor
  · intro d shallow k q at_ i index
    refine entry_of_mem (fun x within => mem x ?_) index
    exact space.outside_area pages shared (space.table.inArea shallow at_).1
      (space.table.notFree shallow at_) within
  · exact fun v isLive x within => mem x
      (space.outside_area pages shared (space.user v isLive).1 (space.page_not_free isLive) within)

theorem Space.beside (space : Space whole root live extra s) (pages : ∀ q, area q → IsPage q)
    (shared : ∀ q, whole q → area q → q ∈ s.freelist)
    (mem : ∀ x, Outside area x → t.mem x = s.mem x) (inside : ∀ q ∈ t.freelist, area q)
    (nodup : t.freelist.Nodup) :
    Space (fun q => whole q ∧ q ∉ s.freelist ∨ q ∈ t.freelist) root live extra t := by
  obtain ⟨same, -⟩ := space.beside_same pages shared mem
  have apart : ∀ q ∈ t.freelist, whole q → q ∈ s.freelist := fun q member isWhole =>
    shared q isWhole (inside q member)
  have isPage : ∀ q, whole q ∧ q ∉ s.freelist ∨ q ∈ t.freelist → IsPage q := by
    rintro q (both | member)
    · exact space.pages q both.1
    · exact pages q (inside q member)
  refine space.sameTable same (space.table.with_free (fun d inner => same d (Nat.le_of_lt inner))
    (fun q pool => isPage q pool.1) ⟨space.table.owns.once, fun {place q} held => ?_,
      fun {q} pool => ?_⟩
    (fun q member => ?_) nodup) isPage
    fun v isLive => .inl ⟨(space.user v isLive).1, space.page_not_free isLive⟩
  · have pool := space.table.owns.inside held
    exact ⟨.inl ⟨pool.1, space.table.owns.not_free held⟩, pool.2⟩
  · constructor
    · intro member place held
      exact space.table.owns.not_free held (apart q member (space.table.owns.inside held).1)
    · intro unheld
      rcases pool.1 with ⟨isWhole, taken⟩ | member
      · exact absurd ((space.table.owns.free_iff ⟨isWhole, pool.2⟩).mpr unheld) taken
      · exact member
  · refine ⟨.inr member, fun v isLive isPage => ?_⟩
    exact space.page_not_free isLive (apart _ (isPage ▸ member) (space.user v isLive).1 )

end Beside

section Uvmcopy

variable [KernelImage] {whole area : Nat → Prop} {old new sz : Nat} {extra extra' : Nat → Nat}
  {s₀ s t u : Ram}
  {v w x n : Nat} {fails : VmPanic → Prop}

/-! ### `uvmcopy` -/

theorem UserPte.flags {pte : Nat} (user : UserPte pte) : ∃ flags, (flags = RWXU ∨ flags = RWX) ∧
    PTE_FLAGS pte = flags ||| PTE_V := by
  rcases user with isPte | isPte
  · exact ⟨RWXU, .inl rfl, by rw [isPte, PTE_FLAGS_leafPte (by decide)]⟩
  · exact ⟨RWX, .inr rfl, by rw [isPte, PTE_FLAGS_leafPte (by decide)]⟩

theorem leafPte_or_PTE_V (pa perm : Nat) : leafPte pa (perm ||| PTE_V) = leafPte pa perm := by
  unfold leafPte
  rw [Nat.or_assoc, Nat.or_assoc, Nat.or_self, ← Nat.or_assoc]

/-- **The page is a copy**: the same flags, and the same bytes in another frame. -/
structure Copied (old : Nat) (s : Ram) (new : Nat) (t : Ram) (v : Nat) : Prop where
  flags : PTE_FLAGS (t.pte new v) = PTE_FLAGS (s.pte old v)
  bytes : ∀ o < PGSIZE, t.mem (t.page new v + o) = s.mem (s.page old v + o)

theorem Copied.keeps {live : Nat → Prop} (copied : Copied old s₀ new s v)
    (keeps : Keeps whole new live s t) (isLive : live v) : Copied old s₀ new t v := by
  refine ⟨(congrArg PTE_FLAGS (keeps.pte v isLive)).trans copied.flags, fun o below => ?_⟩
  rw [keeps.page isLive, keeps.user v isLive _ ⟨Nat.le_add_right _ _, by omega⟩]
  exact copied.bytes o below

/-- What `uvmcopy` has done with the child's pages. -/
def CopyOutcome (area : Nat → Prop) (new : Nat) (extra : Nat → Nat) (old n : Nat) (s₀ : Ram)
    (r : Int) (t : Ram) :
    Prop :=
  (∀ x, Outside area x → t.mem x = s₀.mem x) ∧
    (r = 0 ∧ Space area new (fun v => v < n) extra t ∧ (∀ v < n, Copied old s₀ new t v) ∨
      r = -1 ∧ Space area new (fun v => v < npages 0) extra t)

theorem uvmcopy_undo (space : Space area new (fun v => v < n) extra s)
    (mem : ∀ x, Outside area x → s.mem x = s₀.mem x) :
    From s (uvmunmap new 0 (n * PGSIZE / PGSIZE) true)
      (fun _ t => (∀ x, Outside area x → t.mem x = s₀.mem x) ∧
        Space area new (fun v => v < npages 0) extra t) fails := by
  have few := space.few fun v below => below
  have low : (0 + n) * PGSIZE ≤ MAXVA := by
    rw [Nat.zero_add]
    exact Nat.le_trans (Nat.mul_le_mul_right PGSIZE few) (by decide)
  have unmap := @uvmunmap_free _ _ _ new _ s 0 n fails space low fun w _ below => by omega
  rw [Nat.zero_mul] at unmap
  rw [Nat.mul_div_cancel _ (by decide)]
  refine unmap.to_post
    fun _ t removed => ⟨fun x outside => (removed.keeps.mem x outside).trans (mem x outside), ?_⟩
  refine removed.space.with_live
    fun v => ⟨fun below => absurd below (Nat.not_lt_zero v), fun both => ?_⟩
  exact absurd ⟨Nat.zero_le v, by omega⟩ both.2

theorem uvmcopyLoop_spec (parent : Space whole old (fun v => v < npages sz) extra' s₀)
    (shared : ∀ q, whole q → area q → q ∈ s₀.freelist) (clear : ∀ w < FRAMES, extra w = 0) :
    ∀ {fuel n : Nat} {s : Ram}, Space area new (fun v => v < n) extra s → n ≤ npages sz →
      npages sz ≤ n + fuel →
      (∀ x, Outside area x → s.mem x = s₀.mem x) → (∀ v < n, Copied old s₀ new s v) →
      From s (uvmcopyLoop old new sz fuel (n * PGSIZE))
        (CopyOutcome area new extra old (npages sz) s₀) fails := by
  intro fuel
  induction fuel with
  | zero =>
    intro n s space below enough mem copied
    obtain rfl : n = npages sz := by omega
    exact .done ⟨mem, .inl ⟨rfl, space, copied⟩⟩
  | succ fuel ih =>
    intro n s space below enough mem copied
    refine .ite (fun more => ?_) fun done => .pure fun t same => ?_
    · have isLive : n < npages sz := lt_npages.mp more
      obtain ⟨sameTable, sameBytes⟩ := parent.beside_same space.pages shared mem
      have user := (parent.user n isLive).2
      have leaf := user.leaf
      obtain ⟨flags, either, isFlags⟩ := user.flags
      have few := parent.few fun v below => below
      have low : n * PGSIZE < MAXVA :=
        Nat.lt_of_lt_of_le (Nat.mul_lt_mul_of_pos_right (Nat.lt_of_lt_of_le isLive few) (by decide))
          (by decide)
      have vpn : n * PGSIZE / PGSIZE = n := Nat.mul_div_cancel n (by decide)
      refine .bind (walk_lookup s low) fun r => .of_fact fun found => ?_
      rw [vpn] at found
      cases at_ : s.node old 2 (n / 512) with
      | none =>
        have zero : s.pte old n = 0 := by rw [Ram.pte, at_]
        rw [← sameTable.pte n, zero] at leaf
        cases leaf.1
      | some q =>
        rw [found, at_]
        refine loadPte_known ?_
        rw [← pte_of_node at_, sameTable.pte n, and_PTE_V]
        refine .ite (fun invalid => absurd leaf.1 (by omega)) fun _ => ?_
        refine .bind kalloc_spec fun r => .each fun t taken => ?_
        rcases taken with ⟨rfl, rfl⟩ | ⟨p, rest, first, rfl, rfl⟩
        · obtain ⟨space₁, keeps₁⟩ := space.skip
          refine .bind
            (uvmcopy_undo space₁ fun x outside => (keeps₁.mem x outside).trans (mem x outside))
            fun _ => .pure fun t back => ⟨back.1, .inr ⟨rfl, back.2⟩⟩
        · obtain ⟨inside, space₁, keeps₁⟩ := space.pop first
          have page := space.pages p inside
          let filled : Ram :=
            { s.pop p rest with mem := (s.pop p rest).mem.move p (PTE2PA (s₀.pte old n)) PGSIZE }
          have moved : ∀ x, ¬ InPage p x → filled.mem x = (s.pop p rest).mem x := fun x outside =>
            Memory.move_outside (by unfold InPage at outside; omega)
          obtain ⟨space₂, keeps₂⟩ := @Space.write _ _ _ _ _ _ filled _ space₁ inside page rfl moved
          obtain ⟨frame, isUser⟩ := leafPte_user page either
          have small : flags ||| PTE_V < 1024 := by rcases either with rfl | rfl <;> decide
          have bytes : ∀ o < PGSIZE, filled.mem (p + o) = s₀.mem (s₀.page old n + o) := by
            intro o offset
            have within : InPage (s₀.page old n) (s₀.page old n + o) :=
              ⟨Nat.le_add_right _ _, by omega⟩
            have outside := parent.outside_area space.pages shared (parent.user n isLive).1
              (parent.page_not_free isLive) within
            have isMove : filled.mem (p + o) = (s.pop p rest).mem (s₀.page old n + (p + o - p)) :=
              Memory.move_inside (Nat.le_add_right _ _) (by omega)
            rw [isMove, Nat.add_sub_cancel_left, keeps₁.mem _ outside, mem _ outside]
          rw [isFlags]
          have few' := space₂.few_held page fun w below => below
          refine .modify_known (.bind (space₂.mapPage inside page (by omega) (clear n few') low
            (by rw [leafPte_or_PTE_V]; exact frame) (by rw [leafPte_or_PTE_V]; exact isUser) small)
            fun r => .each fun t maps => ?_)
          obtain ⟨keeps₃, held, ends⟩ := maps
          have keeps := keeps₁.trans (keeps₂.trans keeps₃)
          have mem' : ∀ x, Outside area x → t.mem x = s₀.mem x := fun x outside =>
            (keeps.mem x outside).trans (mem x outside)
          rcases ends with ⟨rfl, space₃, here⟩ | ⟨rfl, space₃⟩
          · refine .ite (fun failed => absurd rfl failed) fun _ => ?_
            rw [leafPte_or_PTE_V] at here
            have isPage : t.page new n = p := by rw [Ram.page, here, frame]
            have space₄ : Space area new (fun w => w < n + 1) extra t := space₃.with_live
              fun w => by omega
            have copied' : ∀ v < n + 1, Copied old s₀ new t v := by
              intro v below
              by_cases isN : v = n
              · subst isN
                refine ⟨?_, fun o offset => ?_⟩
                · rw [here, isFlags, PTE_FLAGS_leafPte (by rcases either with rfl | rfl <;> decide)]
                · rw [isPage, held (p + o) ⟨Nat.le_add_right _ _, by omega⟩]
                  exact bytes o offset
              · exact (copied v (by omega)).keeps keeps (by omega)
            have next := @ih (n + 1) t space₄ isLive (by omega) mem' copied'
            rwa [Nat.add_mul n 1 PGSIZE, Nat.one_mul] at next
          · refine .ite (fun _ => ?_) fun ok => absurd (by decide) ok
            refine .bind (kfree_spec page) fun _ => .each fun u freed => ?_
            subst freed
            obtain ⟨space₄, keeps₄⟩ := space₃.push inside page
            exact .bind
              (uvmcopy_undo space₄ fun x outside => (keeps₄.mem x outside).trans (mem' x outside))
              fun _ => .pure fun t back => ⟨back.1, .inr ⟨rfl, back.2⟩⟩
    · subst same
      rw [lt_npages] at done
      obtain rfl : n = npages sz := by omega
      exact ⟨mem, .inl ⟨rfl, space, copied⟩⟩

/-- **`uvmcopy`** gives the child a copy of every page, or it leaves the child without pages. -/
theorem uvmcopy_spec (parent : Space whole old (fun v => v < npages sz) extra' s)
    (child : Space area new (fun v => v < npages 0) extra s)
    (shared : ∀ q, whole q → area q → q ∈ s.freelist) (clear : ∀ w < FRAMES, extra w = 0) :
    From s (uvmcopy old new sz)
      (CopyOutcome area new extra old (npages sz) s) fails := by
  have enough : npages sz ≤ npages 0 + (sz / PGSIZE + 1) := by
    simp only [npages, PGSIZE]
    omega
  have loop := @uvmcopyLoop_spec _ whole area old new sz extra extra' s fails parent shared clear
    (sz / PGSIZE + 1)
    (npages 0) s child (Nat.zero_le _) enough (fun _ _ => rfl)
    fun v below => absurd below (Nat.not_lt_zero v)
  exact loop

end Uvmcopy

section Fork

variable [KernelImage] {whole area : Nat → Prop} {procs procs' : Nat → Proc} {cur i : Nat}
  {pid : Int} {p : Proc}
  {s t u : Ram} {fails : VmPanic → Prop} {extra : Nat → Nat}

/-! ### `allocproc` and `fork` -/

theorem Shape.freeList (shape : Shape whole p s) : FreeList s :=
  ⟨shape.space.table.nodup, fun q member => shape.space.pages q (shape.space.table.free q member).1⟩

/-- The process table: a slot that is not used has no pages. -/
def SlotsClear (procs : Nat → Proc) : Prop :=
  ∀ i < NPROC, (procs i).state = .unused → procs i = Proc.unused

theorem freeproc_empty (noTrapframe : p.trapframe = 0) (noTable : p.pagetable = 0) :
    From s (freeproc p) (fun r t => r = Proc.unused ∧ t = s) fails := by
  refine .ite (fun some => absurd noTrapframe some) fun _ =>
    Triple.ite (fun some => absurd noTable some) fun _ => .done ⟨rfl, rfl⟩

theorem freeproc_trapframe (page : IsPage p.trapframe) (noTable : p.pagetable = 0) :
    From s (freeproc p) (fun r t => r = Proc.unused ∧
      t = s.push p.trapframe) fails := by
  refine .ite (fun _ => ?_) fun zero => absurd page.pos.ne' zero
  exact .bind (kfree_spec page) fun _ => .ite (fun some => absurd noTable some) fun _ =>
    Triple.done ⟨rfl, rfl⟩

/-- A process that `allocproc` has set up. -/
def freshProc (pid : Int) (trapframe pagetable : Nat) : Proc :=
  { Proc.unused with pid, state := .used, trapframe, pagetable }

/-- A new process: in a slot that was not used, with a page table without user memory. -/
structure Started (procs : Nat → Proc) (pid : Int) (s : Ram) (i : Nat) (procs' : Nat → Proc)
    (t : Ram) : Prop where
  index : i < NPROC
  slot : (procs i).state = .unused
  fresh : ∃ trapframe pagetable rest, s.freelist = trapframe :: rest ∧
    procs' = update procs i (freshProc pid trapframe pagetable) ∧
    Shape (fun q => q ∈ rest) (freshProc pid trapframe pagetable) t
  mem : ∀ x, Outside (fun q => q ∈ s.freelist) x → t.mem x = s.mem x

theorem allocproc_spec (list : FreeList s) (slots : SlotsClear procs) :
    From s (allocproc procs pid)
      (fun r t => (r.1 = none ∧ r.2 = procs ∧ AllFree (fun q => q ∈ s.freelist) s t) ∨
        ∃ i, r.1 = some i ∧ Started procs pid s i r.2 t) fails := by
  unfold allocproc
  cases found : (List.range NPROC).find? fun i => (procs i).state = .unused with
  | none =>
    exact .done (.inl ⟨rfl, rfl, list.nodup, fun _ => Iff.rfl, fun _ _ => rfl⟩)
  | some i =>
    have index := List.mem_range.mp (List.mem_of_find?_eq_some found)
    have chosen := List.find?_some found
    have state : (procs i).state = .unused := of_decide_eq_true chosen
    have isClear := slots i index state
    have back : update procs i Proc.unused = procs := by rw [← isClear, update_eq_self]
    dsimp only
    rw [isClear]
    refine .bind kalloc_spec fun r => .each fun t taken => ?_
    rcases taken with ⟨rfl, rfl⟩ | ⟨trapframe, rest, first, rfl, rfl⟩
    · refine .bind (freeproc_empty rfl rfl) fun r => .of_fact fun isR => .pure fun t same =>
        .inl ⟨rfl, isR ▸ back, ?_⟩
      subst same
      exact ⟨list.nodup, fun _ => Iff.rfl, fun _ _ => rfl⟩
    · have nodup := list.nodup
      rw [first, List.nodup_cons] at nodup
      have page : IsPage trapframe := list.pages trapframe (first ▸ List.mem_cons_self)
      have list' : FreeList (s.pop trapframe rest) :=
        ⟨nodup.2, fun q member => list.pages q (first ▸ List.mem_cons_of_mem _ member)⟩
      have popped : ∀ x, Outside (fun q => q ∈ s.freelist) x →
        (s.pop trapframe rest).mem x = s.mem x :=
        fun x outside => mem_fillPage (outside trapframe (first ▸ List.mem_cons_self))
      have inner : ∀ x, Outside (fun q => q ∈ s.freelist) x → Outside (fun q => q ∈ rest) x :=
        fun x outside q member => outside q (first ▸ List.mem_cons_of_mem _ member)
      refine .bind (procPagetable_spec list' page.fits) fun r => .each fun t created => ?_
      rcases created with ⟨rfl, all⟩ | ⟨nonzero, space, mem⟩
      · refine .ite (fun _ => ?_) fun nonzero => absurd rfl nonzero
        refine .bind (freeproc_trapframe page rfl) fun r => .of_fact fun isR => .pure fun u same =>
          .inl ⟨rfl, isR ▸ back, ?_⟩
        subst same
        refine ⟨List.nodup_cons.mpr ⟨fun member => nodup.1 ((all.free trapframe).mp member),
          all.nodup⟩, fun q => ?_, fun x outside => ?_⟩
        · rw [first, List.mem_cons]
          exact List.mem_cons.trans (or_congr_right (all.free q))
        · rw [mem_push (outside trapframe (first ▸ List.mem_cons_self)),
            all.mem x (inner x outside), popped x outside]
      · refine .ite (fun zero => absurd zero nonzero) fun _ => .done (.inr ⟨i, rfl, ?_⟩)
        exact ⟨index, state, ⟨trapframe, r, rest, first, rfl, ⟨space, page, nodup.1⟩⟩,
          fun x outside => (mem x (inner x outside)).trans (popped x outside)⟩

/-- **Writes of one process** are not seen by another one that shares only free pages with it. -/
theorem Space.invisible {live live' : Nat → Prop} {root root' : Nat} {extra' : Nat → Nat}
    (mine : Space area root' live' extra' s) (other : Space whole root live extra s)
    (shared : ∀ q, whole q → area q → q ∈ s.freelist)
    (writes : ∀ x, (∀ v, live' v → ¬ InPage (s.page root' v) x) → t.mem x = s.mem x) :
    (∀ v, t.pte root v = s.pte root v) ∧ ∀ v, live v → ∀ x, InPage (s.page root v) x →
      t.mem x = s.mem x := by
  obtain ⟨same, bytes⟩ :=
    @Space.beside_same _ whole (fun q => ∃ v, live' v ∧ s.page root' v = q) live root extra s t
    other (fun q ⟨v, isLive, isPage⟩ => isPage ▸ mine.page_isPage isLive)
    (fun q isWhole ⟨v, isLive, isPage⟩ => shared q isWhole (isPage ▸ (mine.user v isLive).1))
    fun x outside => writes x fun v isLive => outside _ ⟨v, isLive, rfl⟩
  exact ⟨same.pte, bytes⟩

structure MemoryCopied (whole area : Nat → Prop) (p : Proc) (new : Nat) (extra : Nat → Nat)
    (s : Ram) (r : Int)
    (t : Ram) : Prop where
  result : r = 0 ∨ r = -1
  /-- the parent is as it was -/
  parent : Shape (fun q => whole q ∧ q ∉ s.freelist ∨ q ∈ t.freelist) p t
  pte : ∀ v, t.pte p.pagetable v = s.pte p.pagetable v
  bytes : ∀ v < npages p.sz, ∀ x, InPage (s.page p.pagetable v) x → t.mem x = s.mem x
  /-- the child has got the pages below the size, each in a frame of its own, besides what it had -/
  child : r = 0 → Space area new (fun v => v < npages p.sz) extra t
  copied : r = 0 → ∀ v < npages p.sz, Copied p.pagetable s new t v
  /-- in other frames than the parent -/
  apart : r = 0 → ∀ v < npages p.sz, ∀ w < npages p.sz, t.page new v ≠ t.page p.pagetable w
  /-- so that neither sees what the other one writes -/
  invisible : r = 0 → ∀ u : Ram,
    (∀ x, (∀ v < npages p.sz, ¬ InPage (t.page new v) x) → u.mem x = t.mem x) →
    (∀ v, u.pte p.pagetable v = t.pte p.pagetable v) ∧
      ∀ v < npages p.sz, ∀ x, InPage (t.page p.pagetable v) x → u.mem x = t.mem x
  invisible' : r = 0 → ∀ u : Ram,
    (∀ x, (∀ v < npages p.sz, ¬ InPage (t.page p.pagetable v) x) → u.mem x = t.mem x) →
    (∀ v, u.pte new v = t.pte new v) ∧ ∀ v < npages p.sz, ∀ x, InPage (t.page new v) x →
    u.mem x = t.mem x
  /-- the child has got no page -/
  none : r = -1 → Space area new (fun v => v < npages 0) extra t
  /-- what was free is free, or a page-table page of the child -/
  freed : r = -1 → ∀ q ∈ s.freelist, q ∈ t.freelist ∨ ∃ place, t.tables new place = some q

theorem CopyOutcome.memoryCopied {new : Nat} {r : Int} (shape : Shape whole p s)
    (child : Space area new (fun v => v < npages 0) extra s)
    (shared : ∀ q, whole q → area q → q ∈ s.freelist) (own : ¬ area p.trapframe)
    (outcome : CopyOutcome area new extra p.pagetable (npages p.sz) s r t) :
    MemoryCopied whole area p new extra s r t := by
  obtain ⟨mem, ends⟩ := outcome
  obtain ⟨same, bytes⟩ := shape.space.beside_same child.pages shared mem
  have inside : (∀ q ∈ t.freelist, area q) ∧ t.freelist.Nodup := by
    rcases ends with ⟨-, space, -⟩ | ⟨-, space⟩
    · exact ⟨fun q member => (space.table.free q member).1, space.table.nodup⟩
    · exact ⟨fun q member => (space.table.free q member).1, space.table.nodup⟩
  have parent := shape.space.beside child.pages shared mem inside.1 inside.2
  have shared' : ∀ q, whole q ∧ q ∉ s.freelist ∨ q ∈ t.freelist → area q → q ∈ t.freelist := by
    rintro q (both | member) isArea
    · exact absurd (shared q both.1 isArea) both.2
    · exact member
  have parentShape : Shape (fun q => whole q ∧ q ∉ s.freelist ∨ q ∈ t.freelist) p t := by
    refine ⟨parent, shape.trapframe, ?_⟩
    rintro (both | member)
    · exact shape.own both.1
    · exact own (inside.1 _ member)
  rcases ends with ⟨rfl, space, copied⟩ | ⟨rfl, space⟩
  · refine ⟨.inl rfl, parentShape, same.pte, bytes, fun _ => space, fun _ => copied,
      fun _ v below w below' equal => ?_,
      fun _ u writes => space.invisible parent shared' writes, fun _ u writes => ?_, nofun, nofun⟩
    · have isArea := (space.user v below).1
      rw [equal] at isArea
      exact parent.page_not_free below' (shared' _ (parent.user w below').1 isArea)
    · exact parent.invisible space (fun q isArea isWhole => shared' q isWhole isArea) writes
  · refine ⟨.inr rfl, parentShape, same.pte, bytes, nofun, nofun, nofun, nofun, nofun,
      fun _ => space, fun _ q member => ?_⟩
    have isArea := (child.table.free q member).1
    by_cases isFree : q ∈ t.freelist
    · exact .inl isFree
    · have free := space.table.owns.free_iff
        ⟨isArea, fun v below => absurd below (Nat.not_lt_zero v)⟩
      exact .inr (not_forall_not.mp (mt free.mpr isFree))

theorem Space.elsewhere {live : Nat → Prop} {root q : Nat} (space : Space whole root live extra s)
    (page : IsPage q) (own : ¬ whole q) (free : t.freelist = s.freelist)
    (mem : ∀ x, ¬ InPage q x → t.mem x = s.mem x) :
    Space whole root live extra t ∧ Keeps (fun p => whole p ∨ p = q) root live s t := by
  have same : SameTable root s t := space.table.sameTable mem page.1 fun d shallow k at_ =>
    own (space.table.inArea shallow at_).1
  refine ⟨space.sameTable same (space.table.congr free fun d inner => same d (Nat.le_of_lt inner))
    space.pages
    fun v isLive => (space.user v isLive).1,
      ⟨fun x outside => mem x (outside q (.inr rfl)), fun v _ => same.pte v,
      fun v isLive x within => mem x fun within' => own ?_⟩⟩
  rw [← within.unique within' (space.page_isPage isLive).1 page.1]
  exact (space.user v isLive).1

theorem Copied.before {old new v : Nat} (copied : Copied old t new u v)
    (pte : t.pte old v = s.pte old v) (bytes : ∀ x, InPage (s.page old v) x → t.mem x = s.mem x) :
    Copied old s new u v := by
  refine ⟨copied.flags.trans (congrArg PTE_FLAGS pte), fun o offset => ?_⟩
  have frame : t.page old v = s.page old v := congrArg PTE2PA pte
  rw [copied.bytes o offset, frame]
  exact bytes _ ⟨Nat.le_add_right _ _, by omega⟩

structure Forked (procs : Nat → Proc) (cur : Nat) (pid : Int) (s : Ram) (procs' : Nat → Proc)
    (t : Ram) : Prop where
  child : ∃ i < NPROC, ∃ np rest, (procs i).state = .unused ∧ procs' = update procs i np ∧
    np.pid = pid ∧ np.state = .runnable ∧ np.sz = (procs cur).sz ∧ np.name = (procs cur).name ∧
    s.freelist = np.trapframe :: rest ∧ Shape (fun q => q ∈ rest) np t ∧
    ∀ v < npages np.sz, Copied (procs cur).pagetable s np.pagetable t v
  pte : ∀ v, t.pte (procs cur).pagetable v = s.pte (procs cur).pagetable v
  bytes : ∀ v < npages (procs cur).sz, ∀ x, InPage (s.page (procs cur).pagetable v) x →
    t.mem x = s.mem x

def copyTrapframe (p np : Proc) (s : Ram) : Ram :=
  Ram.store { s with mem := s.mem.move np.trapframe p.trapframe TRAPFRAME_SIZE }
    (np.trapframe + A0) 0

theorem mem_copyTrapframe {np : Proc} {x : Nat} (outside : ¬ InPage np.trapframe x) :
    (copyTrapframe p np s).mem x = s.mem x := by
  have apart : x < np.trapframe ∨ np.trapframe + PGSIZE ≤ x := by
    unfold InPage at outside
    omega
  simp only [PGSIZE] at apart
  refine (Memory.setLe_outside ?_).trans (Memory.move_outside ?_)
  · simp only [A0]
    omega
  · simp only [TRAPFRAME_SIZE]
    omega

theorem fork_run {procs₁ : Nat → Proc} {t₁ t₂ : Ram} {c : Int}
    (alloc : allocproc procs pid s = .ok ((some i, procs₁), t₁))
    (copy : uvmcopy (procs cur).pagetable (procs₁ i).pagetable (procs cur).sz t₁ = .ok (c, t₂)) :
    fork procs cur pid s = if c < 0 then match freeproc (procs₁ i) t₂ with
        | .ok (np, t) => .ok ((-1, update procs₁ i np), t)
        | .error e => .error e
      else .ok (((procs₁ i).pid, update procs₁ i { procs₁ i with
          sz := (procs cur).sz, name := (procs cur).name, state := .runnable }),
        copyTrapframe (procs cur) (procs₁ i) t₂) := by
  unfold fork
  dsimp only
  rw [run_bind, alloc]
  dsimp only
  rw [run_bind, copy]
  dsimp only
  rw [run_ite, run_bind]
  refine if_congr Iff.rfl ?_ rfl
  cases freeproc (procs₁ i) t₂ with
  | ok r => rfl
  | error e => rfl

/-- **`fork`**: after a failure the slot is unused and every page is released. -/
theorem fork_outcome (shape : Shape whole (procs cur) s) (slots : SlotsClear procs) (pid : Int) :
    ∃ a t₁, allocproc procs pid s = .ok (a, t₁) ∧
      (a.1 = none → ∃ t, fork procs cur pid s = .ok ((-1, procs), t) ∧
        AllFree (fun q => q ∈ s.freelist) s t) ∧
      ∀ i, a.1 = some i → ∃ c t₂,
        uvmcopy (procs cur).pagetable (a.2 i).pagetable (procs cur).sz t₁ = .ok (c, t₂) ∧
        (c = -1 → ∃ t, fork procs cur pid s = .ok ((-1, procs), t) ∧
          AllFree (fun q => q ∈ s.freelist) s t) ∧
        (c ≠ -1 → ∃ procs' t, fork procs cur pid s = .ok ((pid, procs'), t) ∧
          Forked procs cur pid s procs' t) := by
  have list := shape.freeList
  have allocs : From s (allocproc procs pid) _ fun _ => False :=
    allocproc_spec list slots
  obtain ⟨⟨found, procs₁⟩, t₁, alloc, outcome⟩ := allocs.returns rfl fun _ => id
  refine ⟨_, t₁, alloc, ?_, ?_⟩
  · rintro rfl
    rcases outcome with ⟨-, same, all⟩ | ⟨i, isSome, -⟩
    · have same : procs₁ = procs := same
      subst same
      refine ⟨t₁, ?_, all⟩
      unfold fork
      dsimp only
      rw [run_bind, alloc]
      rfl
    · cases isSome
  · rintro i rfl
    obtain ⟨j, isSome, started⟩ := outcome.resolve_left fun none => nomatch none.1
    cases isSome
    obtain ⟨trapframe, pagetable, rest, first, isProcs, fresh⟩ := started.fresh
    have isNew : procs₁ i = (freshProc pid trapframe pagetable) := by
      have isProcs : procs₁ = _ := isProcs
      rw [isProcs, update_self]
    dsimp only
    rw [isNew]
    have rests : ∀ q ∈ rest, q ∈ s.freelist := fun q member => first ▸ List.mem_cons_of_mem _ member
    have inside : ∀ q ∈ t₁.freelist, q ∈ rest := fun q member => (fresh.space.table.free q member).1
    have own : ¬ (fun q => q ∈ rest) (procs cur).trapframe := fun member =>
      shape.own (shape.space.table.free _ (rests _ member)).1
    have parent := shape.space.beside list.pages (fun q _ member => member) started.mem
      (fun q member => rests q (inside q member)) fresh.space.table.nodup
    obtain ⟨same, bytes⟩ :=
      shape.space.beside_same list.pages (fun q _ member => member) started.mem
    have copies :
      From t₁ (uvmcopy (procs cur).pagetable pagetable (procs cur).sz) _
      fun _ => False :=
      uvmcopy_spec parent fresh.space (fun q either member => either.elim
        (fun both => absurd (rests q member) both.2) id) procExtra_clear
    obtain ⟨c, t₂, copy, mem, ends⟩ := copies.returns rfl fun _ => id
    have copy' : uvmcopy (procs cur).pagetable (procs₁ i).pagetable (procs cur).sz t₁ =
      .ok (c, t₂) := by
      rw [isNew]
      exact copy
    have run := fork_run alloc copy'
    rw [isNew] at run
    refine ⟨c, t₂, copy, fun failed => ?_, fun done => ?_⟩
    · have space₂ := (ends.resolve_left fun ok => by omega).2
      rw [if_pos (by omega)] at run
      have frees : From t₂ (freeproc _) _ fun _ => False :=
        freeproc_spec (p := freshProc pid trapframe pagetable) ⟨space₂, fresh.trapframe, fresh.own⟩
      obtain ⟨np, t₃, freed, isUnused, all⟩ := frees.returns rfl fun _ => id
      rw [freed] at run
      refine ⟨t₃, run.trans ?_, all.nodup, fun q => ?_, fun x outside => ?_⟩
      · have same : update procs₁ i np = procs := by
          have isProcs : procs₁ = _ := isProcs
          rw [isProcs, update_idem, isUnused, ← slots i started.index started.slot, update_eq_self]
        show Except.ok ((-1, update procs₁ i np), t₃) = _
        rw [same]
      · rw [all.free q, first, List.mem_cons]
        exact or_comm
      · have inner : Outside (fun q => q ∈ rest) x := fun q member => outside q (rests q member)
        rw [all.mem x ?_, mem x inner, started.mem x outside]
        rintro q (member | rfl)
        · exact inner q member
        · exact outside _ (first ▸ List.mem_cons_self)
    · obtain ⟨isZero, space₂, copied⟩ := ends.resolve_right fun failed => done failed.1
      rw [if_neg (by omega)] at run
      obtain ⟨space₃, keeps₃⟩ := space₂.elsewhere
        (t := copyTrapframe (procs cur) (freshProc pid trapframe pagetable) t₂) fresh.trapframe
        fresh.own rfl
        fun x outside => mem_copyTrapframe outside
      have mem₃ : ∀ x, Outside (fun q => q ∈ s.freelist) x →
          (copyTrapframe (procs cur) (freshProc pid trapframe pagetable) t₂).mem x = s.mem x := by
        intro x outside
        have notIn : ¬ InPage (freshProc pid trapframe pagetable).trapframe x :=
          outside trapframe (first ▸ List.mem_cons_self)
        rw [mem_copyTrapframe notIn, mem x fun q member => outside q (rests q member),
          started.mem x outside]
      obtain ⟨same₃, bytes₃⟩ := shape.space.beside_same list.pages (fun q _ member => member) mem₃
      let np : Proc := { freshProc pid trapframe pagetable with
        sz := (procs cur).sz, name := (procs cur).name, state := .runnable }
      refine ⟨_, _, run, ⟨⟨i, started.index, np, rest, started.slot, ?_, rfl, rfl, rfl, rfl, first,
        ⟨space₃, fresh.trapframe, fresh.own⟩, fun v below => ?_⟩, same₃.pte, bytes₃⟩⟩
      · have isProcs : procs₁ = _ := isProcs
        rw [isProcs, update_idem]
      · exact ((copied v below).before (same.pte v) (bytes v below)).keeps keeps₃ below

/-- **`fork` copies memory faithfully.** The first part is `uvmcopy`, for every parent and every
child page table without user memory that share only free pages; the second one is `fork`. -/
theorem fork_copies_memory :
    (∀ {whole area : Nat → Prop} {p : Proc} {new : Nat} {extra : Nat → Nat} {s : Ram},
      Shape whole p s →
      Space area new (fun v => v < npages 0) extra s → (∀ w < FRAMES, extra w = 0) →
      (∀ q, whole q → area q → q ∈ s.freelist) → ¬ area p.trapframe →
      ∃ r t, uvmcopy p.pagetable new p.sz s = .ok (r, t) ∧
        MemoryCopied whole area p new extra s r t) ∧
    ∀ {whole : Nat → Prop} {procs : Nat → Proc} {cur : Nat} {s : Ram} (pid : Int),
      Shape whole (procs cur) s →
      SlotsClear procs → ∃ a t₁, allocproc procs pid s = .ok (a, t₁) ∧
        (a.1 = none → ∃ t, fork procs cur pid s = .ok ((-1, procs), t) ∧
          AllFree (fun q => q ∈ s.freelist) s t) ∧
        ∀ i, a.1 = some i → ∃ c t₂,
          uvmcopy (procs cur).pagetable (a.2 i).pagetable (procs cur).sz t₁ = .ok (c, t₂) ∧
          (c = -1 → ∃ t, fork procs cur pid s = .ok ((-1, procs), t) ∧
            AllFree (fun q => q ∈ s.freelist) s t) ∧
          (c ≠ -1 → ∃ procs' t, fork procs cur pid s = .ok ((pid, procs'), t) ∧
            Forked procs cur pid s procs' t) := by
  constructor
  · intro whole area p new extra s shape child clear shared own
    have copies : From s (uvmcopy p.pagetable new p.sz) _ fun _ => False :=
      uvmcopy_spec shape.space child shared clear
    obtain ⟨r, t, done, outcome⟩ := copies.returns rfl fun _ => id
    exact ⟨r, t, done, outcome.memoryCopied shape child shared own⟩
  · intro whole procs cur s pid shape slots
    exact fork_outcome shape slots pid

end Fork

section Sample

attribute [local instance] smallKernel

/-- The process forks: the child in slot 1 gets the pid 7 and a copy of the two pages. -/
theorem fork_copies_memory_one : ∃ whole p s procs' t, Shape whole p s ∧ p.sz = 5000 ∧
    fork (update (fun _ => Proc.unused) 0 p) 0 7 s = .ok ((7, procs'), t) ∧
    Forked (update (fun _ => Proc.unused) 0 p) 0 7 s procs' t := by
  obtain ⟨p, s, ⟨r, procs'⟩, t, sample, run, isPid⟩ :=
    @sample_run _ _ (fun p => fork (update (fun _ => Proc.unused) 0 p) 0 7) (fun r => r.1) 7
      (by decide +kernel)
  obtain rfl : r = 7 := isPid
  have here : update (fun _ => Proc.unused) 0 p 0 = p := rfl
  have slots : SlotsClear (update (fun _ => Proc.unused) 0 p) := by
    intro i _ unused
    by_cases first : i = 0
    · rw [first, here, sample.state] at unused
      cases unused
    · rw [update_of_ne first]
  have shape := sample.shape
  have fails : ∀ t', fork (update (fun _ => Proc.unused) 0 p) 0 7 s ≠
      .ok ((-1, update (fun _ => Proc.unused) 0 p), t') := fun t' failed => by
    cases run.symm.trans failed
  obtain ⟨a, t₁, -, none, some⟩ := fork_copies_memory.2 7 (by rw [here]; exact shape) slots
  cases isSlot : a.1 with
  | none =>
    obtain ⟨t', failed, -⟩ := none isSlot
    exact absurd failed (fails t')
  | some i =>
    obtain ⟨c, t₂, -, failed, done⟩ := some i isSlot
    by_cases isFailed : c = -1
    · obtain ⟨t', failed, -⟩ := failed isFailed
      exact absurd failed (fails t')
    · obtain ⟨procs'', t', same, forked⟩ := done isFailed
      cases run.symm.trans same
      exact ⟨_, p, s, procs', t, shape, sample.size, run, forked⟩

end Sample

end Xv6.Vm
