/-
**Page tables are finite maps** (`kernel/vm.c`: `mappages`, `uvmunmap`, `walkaddr`).

The loops of `mappages` and `uvmunmap` store one PTE after another; what they do to the whole map is
`mapped` and `unmapped`. `page_table_map` is the result for every table that was built from an empty
one: `mappages`, `uvmunmap` and `walkaddr` act on the function that translates addresses
(`FiniteMap`).
-/

import Xv6.Vm.Table
import Xv6.Lib.Run

set_option linter.unusedSectionVars false

namespace Xv6.Vm

open Lib Function

section Mapping

variable [KernelImage] {area : Nat → Prop} {root : Nat} {s t u : Ram} {p q d k d' k' i v va : Nat}
  {fails : VmPanic → Prop}

/-! ### `mappages` and `uvmunmap` -/

theorem pte_of_node {vpn : Nat} (at_ : s.node root 2 (vpn / 512) = some p) :
    s.pte root vpn = s.load (p + 8 * (vpn % 512)) := by
  unfold Ram.pte
  rw [at_]
  rfl

theorem Table.storePte {vpn : Nat} (table : Table area root s)
    (at_ : s.node root 2 (vpn / 512) = some p) (v : Nat) :
    Table area root (s.store (p + 8 * (vpn % 512)) v) ∧
      Becomes area root (update (s.pte root) vpn (v % 2 ^ 64)) s
        (s.store (p + 8 * (vpn % 512)) v) := by
  have stores := table.storeLeaf at_ (Nat.mod_lt vpn (by decide)) v
  rwa [show vpn / 512 * 512 + vpn % 512 = vpn by omega] at stores

/-- The map with `m` pages from `v` on at consecutive frames. -/
def mapped (map : Nat → Nat) (v m pa perm : Nat) (u : Nat) : Nat :=
  if v ≤ u ∧ u < v + m then leafPte ((pa + (u - v) * PGSIZE) % 2 ^ 64) perm % 2 ^ 64 else map u

variable {map : Nat → Nat} {m pa perm last : Nat}

theorem mapped_zero : mapped map v 0 pa perm = map := by
  funext u
  exact if_neg (by omega)

theorem mapped_one (fits : pa < 2 ^ 64) :
    mapped map v 1 pa perm = update map v (leafPte pa perm % 2 ^ 64) := by
  funext u
  refine update_ind ?_ fun other => ?_
  · rw [mapped, if_pos (by omega), Nat.sub_self, Nat.zero_mul, Nat.add_zero, Nat.mod_eq_of_lt fits]
  · rw [mapped, if_neg (by omega)]

theorem mapped_mapped :
    mapped (mapped map v 1 pa perm) (v + 1) m ((pa + PGSIZE) % 2 ^ 64) perm =
      mapped map v (m + 1) pa perm := by
  funext u
  unfold mapped
  by_cases first : u = v
  · rw [if_neg (by omega), if_pos (by omega), if_pos (by omega)]
  · by_cases later : v + 1 ≤ u ∧ u < v + 1 + m
    · rw [if_pos later, if_pos (by omega), Nat.mod_add_mod, Nat.add_assoc, Nat.add_comm PGSIZE]
      rw [show (u - (v + 1)) * PGSIZE + PGSIZE = (u - v) * PGSIZE by
        rw [← Nat.succ_mul]
        congr 1
        omega]
    · rw [if_neg later, if_neg (by omega), if_neg (by omega)]

/-- **The loop of `mappages`** maps the pages up to the last one, or as many as there is memory for.
It panics at a page that is mapped, or at `MAXVA`. -/
theorem mappagesLoop_spec : ∀ {fuel v pa : Nat} {s : Ram}, Table area root s →
    MAXVA ≤ (v + fuel) * PGSIZE → pa < 2 ^ 64 →
      From s (mappagesLoop root last perm fuel (v * PGSIZE) pa)
        (fun r t => ∃ m, Table area root t ∧
          Becomes area root (mapped (s.pte root) v m pa perm) s t ∧
          (∀ j, v ≤ j → j < v + m → j * PGSIZE = last → r = 0 ∧ j + 1 = v + m) ∧
          (r = 0 ∧ 0 < m ∧ (v + m - 1) * PGSIZE = last ∨ r = -1))
        fun _ => ∃ u, v ≤ u ∧ (MAXVA ≤ u * PGSIZE ∨ s.pte root u % 2 = 1) ∧
          ∀ j, v ≤ j → j < u → j * PGSIZE ≠ last := by
  intro fuel
  induction fuel with
  | zero =>
    intro v pa s _ high _
    exact .throw fun _ _ => ⟨v, Nat.le_refl v, .inl high, fun _ _ _ => by omega⟩
  | succ fuel ih =>
    intro v pa s table enough fits
    by_cases low : v * PGSIZE < MAXVA
    · have vpn : v * PGSIZE / PGSIZE = v := Nat.mul_div_cancel v (by decide)
      refine .bind (walk_spec table low) fun r => .each fun t walked => ?_
      rw [vpn] at walked
      obtain ⟨table', same, found⟩ := walked
      cases r with
      | none =>
        refine .pure fun u isU => ?_
        subst isU
        refine ⟨0, table', ?_, fun j low high => by omega, .inr rfl⟩
        rw [mapped_zero]
        exact same
      | some a =>
        obtain ⟨p, at_, rfl⟩ := found a rfl
        have old := (pte_of_node at_).symm.trans (same.pte v)
        refine loadPte_known ?_
        rw [old, and_PTE_V]
        refine .ite (fun valid => .throw_bind fun _ _ => ?_) fun invalid => ?_
        · exact ⟨v, Nat.le_refl v, .inr (by omega), fun _ _ _ => by omega⟩
        · obtain ⟨table'', stored⟩ := table'.storePte at_ (PA2PTE pa ||| perm ||| PTE_V)
          have first := same.trans stored
          rw [funext same.pte] at first
          have one : Becomes area root (mapped (s.pte root) v 1 pa perm) s _ :=
            mapped_one fits ▸ first
          refine .modify_known (.ite (fun done => ?_) fun more => ?_)
          · refine .pure fun u isU => ?_
            subst isU
            exact ⟨1, table'', one, fun j low high _ => ⟨rfl, by omega⟩, .inl ⟨rfl, by omega, done⟩⟩
          · have next := @ih (v + 1) ((pa + PGSIZE) % 2 ^ 64) _ table''
              (by rw [Nat.add_right_comm]; exact enough) (Nat.mod_lt _ (by decide))
            rw [Nat.add_mul v 1 PGSIZE, Nat.one_mul, funext one.pte] at next
            simp only [mapped_mapped] at next
            refine next.weaken (fun _ same => same) ?_ ?_
            · rintro r u ⟨m, table₃, becomes, early, ends⟩
              refine ⟨m + 1, table₃, one.trans becomes, fun j low high isLast => ?_, ?_⟩
              · have later : j ≠ v := fun same => more (same ▸ isLast)
                have := early j (by omega) (by omega) isLast
                omega
              · rw [show v + 1 + m - 1 = v + (m + 1) - 1 by omega] at ends
                rcases ends with ⟨done, -, isLast⟩ | failed
                · exact .inl ⟨done, by omega, isLast⟩
                · exact .inr failed
            · rintro e ⟨u, above, bad, before⟩
              have next : mapped (s.pte root) v 1 pa perm u = s.pte root u := if_neg (by omega)
              refine ⟨u, by omega, next ▸ bad, fun j low high => ?_⟩
              by_cases first : j = v
              · exact first ▸ more
              · exact before j (by omega) high
    · exact walk_high (by omega) ⟨v, Nat.le_refl v, .inl (by omega), fun _ _ _ => by omega⟩

/-- **`mappages`**, for a range below `MAXVA` that is not mapped. -/
theorem mappages_spec (table : Table area root s) {size : Nat} (some : 0 < size)
    (low : va + size ≤ MAXVA) (fits : pa < 2 ^ 64)
    (free : ∀ u, va / PGSIZE ≤ u → u ≤ (va + size - 1) / PGSIZE → s.pte root u % 2 = 0) :
    From s (mappages root va size pa perm)
      (fun r t => ∃ m, Table area root t ∧
        Becomes area root (mapped (s.pte root) (va / PGSIZE) m pa perm) s t ∧
        (r = 0 ∧ m = (va + size - 1) / PGSIZE + 1 - va / PGSIZE ∨
          r = -1 ∧ m < (va + size - 1) / PGSIZE + 1 - va / PGSIZE)) fails := by
  have narrow : (va + size - 1) % 2 ^ 64 = va + size - 1 := by
    simp only [MAXVA] at low
    omega
  have ordered : va / PGSIZE ≤ (va + size - 1) / PGSIZE := Nat.div_le_div_right (by omega)
  have high : (va + size - 1) / PGSIZE * PGSIZE < MAXVA := by
    have := Nat.div_mul_le_self (va + size - 1) PGSIZE
    omega
  refine .ite (fun none => absurd none (by omega)) fun _ => ?_
  rw [narrow, PGROUNDDOWN, PGROUNDDOWN]
  generalize (va + size - 1) / PGSIZE = final at *
  generalize va / PGSIZE = first at *
  refine (mappagesLoop_spec table ?_ fits).weaken (fun _ same => same) ?_ ?_
  · simp only [MAXVA, PGSIZE]
    omega
  · rintro r t ⟨m, table', becomes, early, ends⟩
    refine ⟨m, table', becomes, ?_⟩
    rcases ends with ⟨done, positive, isLast⟩ | failed
    · have := Nat.eq_of_mul_eq_mul_right (show 0 < PGSIZE by decide) isLast
      exact .inl ⟨done, by omega⟩
    · refine .inr ⟨failed, ?_⟩
      by_contra many
      have := early final ordered (by omega) rfl
      omega
  · rintro e ⟨u, above, bad, before⟩
    have inside : u ≤ final := by
      by_contra beyond
      exact before _ ordered (by omega) rfl
    rcases bad with tooHigh | valid
    · have := Nat.mul_le_mul_right PGSIZE inside
      omega
    · have := free u above inside
      omega

/-- The map without `m` pages from `v` on. -/
def unmapped (map : Nat → Nat) (v m : Nat) (u : Nat) : Nat := if v ≤ u ∧ u < v + m then 0 else map u

/-- `uvmunmap` accepts the page. -/
def Leaf (pte : Nat) : Prop := pte % 2 = 1 ∧ pte % 1024 ≠ 1

theorem unmapped_zero : unmapped map v 0 = map := by
  funext u
  exact if_neg (by omega)

theorem unmapped_unmapped : unmapped (update map v 0) (v + 1) m = unmapped map v (m + 1) := by
  funext u
  unfold unmapped
  by_cases first : u = v
  · rw [if_neg (by omega), if_pos (by omega), first, update_self]
  · rw [update_of_ne first]
    exact if_congr (by omega) rfl rfl

/-- `uvmunmap` can remove the pages. -/
def Removable (s : Ram) (root v n : Nat) : Prop :=
  ∀ u, v ≤ u → u < v + n → u * PGSIZE < MAXVA ∧ Leaf (s.pte root u)

theorem uvmunmapLoop_spec {limit : Nat} :
    ∀ {fuel v n : Nat} {s : Ram}, Table area root s → n ≤ fuel →
    (∀ u, v ≤ u → u < v + n → u * PGSIZE < limit) → (n = fuel ∨ limit ≤ (v + n) * PGSIZE) →
      From s (uvmunmapLoop root limit false fuel (v * PGSIZE))
        (fun _ t => Removable s root v n ∧ Table area root t ∧
          Becomes area root (unmapped (s.pte root) v n) s t ∧ t.freelist = s.freelist)
        fun _ => ¬ Removable s root v n := by
  intro fuel
  induction fuel with
  | zero =>
    intro v n s table few _ _
    obtain rfl : n = 0 := by omega
    rw [unmapped_zero]
    exact .done ⟨fun u low high => by omega, table, Becomes.refl area root s, rfl⟩
  | succ fuel ih =>
    intro v n s table few inside stop
    cases n with
    | zero =>
      refine .ite (fun more => ?_) fun _ => .done ?_
      · simp only [Nat.add_zero] at stop
        omega
      · rw [unmapped_zero]
        exact ⟨fun u low high => by omega, table, Becomes.refl area root s, rfl⟩
    | succ n =>
      have here : v < v + (n + 1) := by omega
      refine .ite (fun _ => ?_) fun done => absurd (inside v (Nat.le_refl v) here) done
      by_cases low : v * PGSIZE < MAXVA
      · have vpn : v * PGSIZE / PGSIZE = v := Nat.mul_div_cancel v (by decide)
        refine .bind (walk_lookup s low) fun r => .of_fact fun found => ?_
        rw [vpn] at found
        cases at_ : s.node root 2 (v / 512) with
        | none =>
          rw [found, at_]
          refine .throw fun _ _ all => ?_
          have leaf := (all v (Nat.le_refl v) here).2.1
          rw [Ram.pte, at_] at leaf
          cases leaf
        | some p =>
          rw [found, at_]
          refine loadPte_known ?_
          rw [← pte_of_node at_, and_PTE_V, PTE_FLAGS_eq]
          refine .ite (fun invalid => .throw_bind fun _ _ all => ?_) fun valid => ?_
          · have := (all v (Nat.le_refl v) here).2.1
            omega
          refine .ite (fun table => .throw_bind fun _ _ all => ?_) fun leaf => ?_
          · exact (all v (Nat.le_refl v) here).2.2 table
          obtain ⟨table', stored⟩ := table.storePte at_ 0
          refine .modify_known ?_
          rw [← Nat.succ_mul]
          have next :=
            ih table' (show n ≤ fuel by omega) (fun u above below => inside u (by omega) (by omega))
            (show n = fuel ∨ limit ≤ (v + 1 + n) * PGSIZE by
              rw [show v + 1 + n = v + (n + 1) by omega]
              omega)
          have later : ∀ u, v + 1 ≤ u → update (s.pte root) v 0 u = s.pte root u := fun u above =>
            update_of_ne (by omega) _ _
          rw [Removable, funext stored.pte, Nat.zero_mod, unmapped_unmapped] at next
          refine next.weaken (fun _ same => same) ?_ ?_
          · rintro _ t ⟨all, table'', becomes, free⟩
            refine ⟨fun u above below => ?_, table'', stored.trans becomes, free⟩
            by_cases first : u = v
            · rw [first]
              exact ⟨low, by omega, leaf⟩
            · have rest := all u (by omega) (by omega)
              rwa [later u (by omega)] at rest
          · intro e bad all
            refine bad fun u above below => ?_
            rw [later u above]
            exact all u (by omega) (by omega)
      · exact walk_high (by omega) fun all => low (all v (Nat.le_refl v) here).1

/-- **`uvmunmap`** without `do_free`: it returns when every page of the range is a leaf, and then
they are gone. -/
theorem uvmunmap_spec (table : Table area root s) {v n : Nat} (narrow : (v + n) * PGSIZE < 2 ^ 64) :
    From s (uvmunmap root (v * PGSIZE) n false)
      (fun _ t => Removable s root v n ∧ Table area root t ∧
        Becomes area root (unmapped (s.pte root) v n) s t ∧ t.freelist = s.freelist)
      fun _ => ¬ Removable s root v n := by
  refine .ite (fun odd => absurd (Nat.mul_mod_left v PGSIZE) odd) fun _ => ?_
  rw [← Nat.add_mul, Nat.mod_eq_of_lt narrow]
  exact uvmunmapLoop_spec table (Nat.le_refl n)
    (fun u _ below => Nat.mul_lt_mul_of_pos_right below (by decide)) (.inl rfl)

/-! ### The map -/

/-- **The translation** of an address: the frame, and the flags. -/
def Ram.translate (s : Ram) (root va : Nat) : Option (Nat × Nat) :=
  if va < MAXVA ∧ s.pte root (va / PGSIZE) % 2 = 1 then
    some (PTE2PA (s.pte root (va / PGSIZE)), PTE_FLAGS (s.pte root (va / PGSIZE)))
  else none

theorem walkaddr_spec (s : Ram) (root va : Nat) : From s (walkaddr root va)
    (fun r t => r = (match s.translate root va with
      | some (pa, flags) => if flags &&& PTE_U = 0 then 0 else pa
      | none => 0) ∧ t = s) fails := by
  refine .ite (fun high => ?_) fun low => ?_
  · refine .done ⟨?_, rfl⟩
    rw [Ram.translate, if_neg (by omega)]
  · refine .bind (walk_lookup s (by omega)) fun r => .of_fact fun found => ?_
    cases at_ : s.node root 2 (va / PGSIZE / 512) with
    | none =>
      rw [found, at_]
      refine .done ⟨?_, rfl⟩
      have none : s.pte root (va / PGSIZE) = 0 := by rw [Ram.pte, at_]
      rw [Ram.translate, none, if_neg (by omega)]
    | some p =>
      rw [found, at_]
      refine loadPte_known ?_
      rw [← pte_of_node at_, and_PTE_V]
      have flag : PTE_FLAGS (s.pte root (va / PGSIZE)) &&& PTE_U =
        s.pte root (va / PGSIZE) &&& PTE_U := by
        rw [PTE_FLAGS, Nat.and_assoc]
        rfl
      refine .ite (fun invalid => ?_) fun valid => ?_
      · refine .done ⟨?_, rfl⟩
        rw [Ram.translate, if_neg (by omega)]
      have translates : s.translate root va = _ := if_pos ⟨by omega, by omega⟩
      rw [translates]
      refine .ite (fun kernel => ?_) fun user => ?_
      · exact .done ⟨by rw [← flag] at kernel; exact (if_pos kernel).symm, rfl⟩
      · exact .done ⟨by rw [← flag] at user; exact (if_neg user).symm, rfl⟩

structure FreeList (s : Ram) : Prop where
  nodup : s.freelist.Nodup
  pages : ∀ p ∈ s.freelist, IsPage p

theorem node_of_empty (zero : ∀ j < 512, s.entry root j = 0) :
    ∀ d k, s.node root d k = if d = 0 ∧ k = 0 then some root else none := by
  intro d
  induction d with
  | zero => exact fun k => if_congr (by omega) rfl rfl
  | succ d ih =>
    intro k
    have missing : s.child root (k % 512) = none := by
      rw [Ram.child, zero _ (Nat.mod_lt _ (by decide))]
      rfl
    have above : s.node root (d + 1) k = (s.node root d (k / 512)).bind
      fun t => s.child t (k % 512) := rfl
    rw [if_neg (by omega), above, ih]
    split
    · rw [Option.bind_some, missing]
    · rw [Option.bind_none]

theorem Table.empty (pages : ∀ p, area p → IsPage p) (nodup : s.freelist.Nodup)
    (only : ∀ p, area p ↔ p ∈ s.freelist ∨ p = root) (taken : root ∉ s.freelist)
    (zero : ∀ j < 512, s.entry root j = 0) : Table area root s ∧ ∀ v, s.pte root v = 0 := by
  have nodes := node_of_empty zero
  have places : ∀ place p, s.tables root place = some p → place = (0, 0) ∧ p = root := by
    intro place p held
    unfold Ram.tables at held
    split at held
    · rw [nodes] at held
      split at held
      · rename_i first
        exact ⟨Prod.ext first.1 first.2, (Option.some.inj held).symm⟩
      · cases held
    · cases held
  refine ⟨⟨pages, ⟨fun {a b p} first second => ?_, fun {a p} held => ?_, fun {p} inside => ?_⟩,
    fun p member => (only p).mpr (.inl member), nodup, fun d _ k p at_ i index valid => ?_⟩,
      fun v => ?_⟩
  · exact (places a p first).1.trans (places b p second).1.symm
  · exact (only p).mpr (.inr (places a p held).2)
  · constructor
    · intro member place held
      exact taken ((places place p held).2 ▸ member)
    · intro unheld
      rcases (only p).mp inside with member | isRoot
      · exact member
      · exact absurd (isRoot ▸ rfl) (unheld (0, 0))
  · rw [nodes] at at_
    split at at_
    · rw [← Option.some.inj at_, zero i index] at valid
      cases valid
    · cases at_
  · unfold Ram.pte
    rw [nodes, if_neg (by omega)]

theorem uvmcreate_spec (list : FreeList s) : From s uvmcreate
    (fun r t => (r = none ∧ t.mem = s.mem ∧ t.freelist = s.freelist) ∨ ∃ root, r = some root ∧
      Table (fun p => p ∈ s.freelist) root t ∧ (∀ v, t.pte root v = 0) ∧
      ∀ x, Outside (fun p => p ∈ s.freelist) x → t.mem x = s.mem x) fails := by
  refine .bind kalloc_spec fun r => .each fun t taken => ?_
  rcases taken with ⟨rfl, rfl⟩ | ⟨q, rest, first, rfl, rfl⟩
  · exact .done (.inl ⟨rfl, rfl, rfl⟩)
  · refine .modify_known (.done (.inr ⟨q, rfl, ?_⟩))
    have nodup := list.nodup
    rw [first, List.nodup_cons] at nodup
    have zero : ∀ j < 512, ((s.pop q rest).fillPage q 0).entry q j = 0 := fun j index =>
      Memory.le_zero fun x low high => Memory.fill_inside (by omega) (inPage_entry index low high).2
    have made : Table (fun p => p ∈ s.freelist) q ((s.pop q rest).fillPage q 0) ∧ _ :=
      Table.empty list.pages nodup.2 (fun p => by rw [first, List.mem_cons, or_comm]; rfl) nodup.1
        zero
    refine ⟨made.1, made.2, fun x outside => ?_⟩
    have notIn : ¬ InPage q x := outside q (first ▸ List.mem_cons_self)
    have apart : x < q ∨ q + PGSIZE ≤ x := by
      by_contra inside
      exact notIn ⟨by omega, by omega⟩
    show ((s.mem.fill q PGSIZE 5).fill q PGSIZE 0) x = s.mem x
    rw [Memory.fill_outside apart, Memory.fill_outside apart]

inductive TableEvent
  | walk (va : Nat)
  | mappages (va size pa perm : Nat)
  | uvmunmap (va npages : Nat)

def TableEvent.exec (root : Nat) : TableEvent → VmM Unit
  | .walk va => do let _ ← Vm.walk root va true
  | .mappages va size pa perm => do let _ ← Vm.mappages root va size (pa % 2 ^ 64) perm
  | .uvmunmap va npages => Vm.uvmunmap root va npages false

def TableStep (root : Nat) (s : Ram) (e : TableEvent) (t : Ram) : Prop :=
  e.exec root s = .ok ((), t)

theorem Table.exec (table : Table area root s) (e : TableEvent) :
    From s (e.exec root) (fun _ t => Table area root t) := by
  cases e with
  | walk va =>
    by_cases low : va < MAXVA
    · exact .bind (walk_spec table low) fun _ => .pure fun _ walked => walked.1
    · exact walk_high (by omega) trivial
  | mappages va size pa perm =>
    refine .bind (.ite (fun _ => .throws) fun _ => ?_) fun _ => .pure
      fun _ kept => kept
    refine (mappagesLoop_spec table ?_ (Nat.mod_lt _ (by decide))).weaken (fun _ same => same)
      (fun _ _ done => done.choose_spec.1) fun _ _ => trivial
    simp only [MAXVA, PGSIZE]
    omega
  | uvmunmap va npages =>
    refine .ite (fun _ => .throws) fun aligned => ?_
    rw [not_not] at aligned
    have start : va = va / PGSIZE * PGSIZE := by
      have := Nat.div_add_mod va PGSIZE
      rw [Nat.mul_comm]
      omega
    have whole : (va + npages * PGSIZE) % 2 ^ 64 = (va + npages * PGSIZE) % 2 ^ 64 / PGSIZE *
      PGSIZE := by
      simp only [PGSIZE] at *
      omega
    generalize va / PGSIZE = v at start
    rw [whole]
    generalize (va + npages * PGSIZE) % 2 ^ 64 / PGSIZE = l
    rw [start]
    refine (uvmunmapLoop_spec table (Nat.min_le_left npages (l - v))
      (fun u above below => ?_) ?_).weaken
      (fun _ same => same) (fun _ _ done => done.2.1) fun _ _ => trivial
    · exact Nat.mul_lt_mul_of_pos_right (by omega) (by decide)
    · by_cases all : npages ≤ l - v
      · exact .inl (Nat.min_eq_left all)
      · exact .inr (Nat.mul_le_mul_right _ (by omega))

/-- The `m` pages from the page of `va` on translate to consecutive frames now, and every other page
as before. -/
def Maps (root va m pa perm : Nat) (s t : Ram) : Prop :=
  ∀ x, t.translate root x =
    if PGROUNDDOWN va ≤ x ∧ x < PGROUNDDOWN va + m * PGSIZE then
      some ((PGROUNDDOWN pa + (x / PGSIZE - va / PGSIZE) * PGSIZE) % 2 ^ 64, perm ||| PTE_V)
    else s.translate root x

structure FiniteMap (root : Nat) (s : Ram) : Prop where
  /-- `mappages` maps the range, or it runs out of memory and maps a part of it from the start -/
  mappages : ∀ va size pa perm, 0 < size → va + size ≤ MAXVA → pa < 2 ^ 64 → perm < 2 ^ 10 →
    (∀ x, PGROUNDDOWN va ≤ x → x < PGROUNDDOWN (va + size - 1) + PGSIZE →
      s.translate root x = none) →
    ∃ r t m, Vm.mappages root va size pa perm s = .ok (r, t) ∧ Maps root va m pa perm s t ∧
      (r = 0 ∧ PGROUNDDOWN va + m * PGSIZE = PGROUNDDOWN (va + size - 1) + PGSIZE ∨
        r = -1 ∧ PGROUNDDOWN va + m * PGSIZE ≤ PGROUNDDOWN (va + size - 1))
  /-- `uvmunmap` removes the pages, and it returns when they are all mapped -/
  uvmunmap : ∀ va npages, va % PGSIZE = 0 → va + npages * PGSIZE < 2 ^ 64 →
    (∀ t, Vm.uvmunmap root va npages false s = .ok ((), t) → ∀ x, t.translate root x =
      if va ≤ x ∧ x < va + npages * PGSIZE then none else s.translate root x) ∧
    ((∀ x, va ≤ x → x < va + npages * PGSIZE → ∃ pa flags, s.translate root x = some (pa, flags) ∧
      flags ≠ PTE_V) → ∃ t, Vm.uvmunmap root va npages false s = .ok ((), t))
  /-- `walkaddr` finds the user pages -/
  walkaddr : ∀ va, Vm.walkaddr root va s = .ok (match s.translate root va with
    | some (pa, flags) => if flags &&& PTE_U = 0 then 0 else pa
    | none => 0, s)
  /-- and nothing from `MAXVA` on -/
  walkaddr_high : ∀ va, MAXVA ≤ va → Vm.walkaddr root va s = .ok (0, s)

section Map

theorem Becomes.translate (becomes : Becomes area root map s t) (x : Nat) : t.translate root x =
    if x < MAXVA ∧ map (x / PGSIZE) % 2 = 1 then
      some (PTE2PA (map (x / PGSIZE)), PTE_FLAGS (map (x / PGSIZE))) else none := by
  unfold Ram.translate
  rw [becomes.pte]

theorem inside_iff {x : Nat} : (PGROUNDDOWN va ≤ x ∧ x < PGROUNDDOWN va + m * PGSIZE) ↔
    va / PGSIZE ≤ x / PGSIZE ∧ x / PGSIZE < va / PGSIZE + m := by
  simp only [PGROUNDDOWN, PGSIZE]
  omega

theorem Becomes.maps (becomes : Becomes area root (mapped (s.pte root) (va / PGSIZE) m pa perm) s t)
    (small : perm < 2 ^ 10) (low : PGROUNDDOWN va + m * PGSIZE ≤ MAXVA) :
    Maps root va m pa perm s t := by
  intro x
  rw [becomes.translate]
  by_cases inside : PGROUNDDOWN va ≤ x ∧ x < PGROUNDDOWN va + m * PGSIZE
  · have frame : (pa + (x / PGSIZE - va / PGSIZE) * PGSIZE) % 2 ^ 64 < 2 ^ 64 :=
      Nat.mod_lt _ (by decide)
    have value : mapped (s.pte root) (va / PGSIZE) m pa perm (x / PGSIZE) =
        leafPte ((pa + (x / PGSIZE - va / PGSIZE) * PGSIZE) % 2 ^ 64) perm := by
      rw [mapped, if_pos (inside_iff.mp inside), Nat.mod_eq_of_lt (leafPte_lt frame small)]
    rw [if_pos inside, value, if_pos ⟨by omega, leafPte_valid small⟩, PTE2PA_leafPte frame small,
      PTE_FLAGS_leafPte small]
    congr 2
    simp only [PGROUNDDOWN, PGSIZE]
    omega
  · rw [if_neg inside, mapped, if_neg (fun both => inside (inside_iff.mpr both))]
    rfl

theorem Table.finiteMap (table : Table area root s) : FiniteMap root s where
  mappages va size pa perm some low fits small free := by
    have unmapped : ∀ u, va / PGSIZE ≤ u → u ≤ (va + size - 1) / PGSIZE → s.pte root u % 2 = 0 := by
      intro u above below
      have page : u * PGSIZE / PGSIZE = u := Nat.mul_div_cancel u (by decide)
      have none := free (u * PGSIZE) (Nat.mul_le_mul_right _ above)
        (Nat.lt_of_le_of_lt (Nat.mul_le_mul_right _ below) (Nat.lt_add_of_pos_right (by decide)))
      have high : u * PGSIZE < MAXVA := by
        have := Nat.mul_le_mul_right PGSIZE below
        have := Nat.div_mul_le_self (va + size - 1) PGSIZE
        omega
      rw [Ram.translate, page] at none
      by_contra valid
      rw [if_pos ⟨high, by omega⟩] at none
      cases none
    have maps : From s (Vm.mappages root va size pa perm) _ fun _ => False :=
      mappages_spec table some low fits unmapped
    obtain ⟨r, t, done, m, -, becomes, ends⟩ := maps.returns rfl fun _ => id
    have ordered : va / PGSIZE ≤ (va + size - 1) / PGSIZE := Nat.div_le_div_right (by omega)
    have inside : PGROUNDDOWN va + m * PGSIZE ≤ PGROUNDDOWN (va + size - 1) + PGSIZE := by
      simp only [PGROUNDDOWN, PGSIZE] at *
      omega
    refine ⟨r, t, m, done, becomes.maps small ?_, ?_⟩
    · simp only [PGROUNDDOWN, PGSIZE, MAXVA] at *
      omega
    · simp only [PGROUNDDOWN, PGSIZE] at *
      omega
  uvmunmap va npages aligned narrow := by
    have start : va = va / PGSIZE * PGSIZE := by
      have := Nat.div_add_mod va PGSIZE
      rw [Nat.mul_comm]
      omega
    generalize va / PGSIZE = v at start
    subst start
    have inside : ∀ x, (v * PGSIZE ≤ x ∧ x < v * PGSIZE + npages * PGSIZE) ↔
        v ≤ x / PGSIZE ∧ x / PGSIZE < v + npages := fun x => by
      simp only [PGSIZE]
      omega
    have unmaps := uvmunmap_spec table (v := v) (n := npages) (by rw [Nat.add_mul]; exact narrow)
    refine ⟨fun t done x => ?_, fun leaves => ?_⟩
    · obtain ⟨-, -, becomes, -⟩ := unmaps.ok rfl done
      rw [becomes.translate, unmapped]
      by_cases here : v * PGSIZE ≤ x ∧ x < v * PGSIZE + npages * PGSIZE
      · rw [if_pos here, if_pos ((inside x).mp here), if_neg (by omega)]
      · rw [if_neg here, if_neg (fun both => here ((inside x).mpr both))]
        rfl
    · have removable : Removable s root v npages := by
        intro u above below
        have page : u * PGSIZE / PGSIZE = u := Nat.mul_div_cancel u (by decide)
        have within := (inside (u * PGSIZE)).mpr (by rw [page]; exact ⟨above, below⟩)
        obtain ⟨pa, flags, translates, notPlain⟩ := leaves (u * PGSIZE) within.1 within.2
        rw [Ram.translate, page] at translates
        split at translates
        · rename_i valid
          refine ⟨valid.1, valid.2, fun plain => notPlain ?_⟩
          rw [← (Prod.mk.inj (Option.some.inj translates)).2, PTE_FLAGS_eq, plain]
          rfl
        · cases translates
      obtain ⟨_, t, done, -⟩ := unmaps.returns rfl fun _ bad => bad removable
      exact ⟨t, done⟩
  walkaddr va := by
    have looks : From s (Vm.walkaddr root va) _ fun _ => False :=
      walkaddr_spec s root va
    obtain ⟨r, t, done, isR, rfl⟩ := looks.returns rfl fun _ => id
    rw [done, isR]
  walkaddr_high va high := by
    have looks : From s (Vm.walkaddr root va) _ fun _ => False :=
      walkaddr_spec s root va
    obtain ⟨r, t, done, isR, rfl⟩ := looks.returns rfl fun _ => id
    rw [Ram.translate, if_neg (by omega)] at isR
    rw [done, isR]

end Map

/-- **Page tables implement a finite map**, for every table that was built from an empty one by
`walk`, `mappages` and `uvmunmap`. -/
theorem page_table_map {s₀ s₁ : Ram} (list : FreeList s₀)
    (created : uvmcreate s₀ = .ok (some root, s₁)) {trace : List TableEvent}
    (run : Run (TableStep root) s₁ trace s) : FiniteMap root s := by
  have start : Table (fun p => p ∈ s₀.freelist) root s₁ := by
    have creates : From s₀ uvmcreate _ fun _ => False := uvmcreate_spec list
    rcases creates.ok rfl created with ⟨none, -⟩ | ⟨root', same, table, -⟩
    · cases none
    · exact Option.some.inj same ▸ table
  have kept : Table (fun p => p ∈ s₀.freelist) root s :=
    Run.inv start (fun table step => (table.exec _).ok rfl step) run
  exact kept.finiteMap

end Mapping

/-- A kernel that ends at `0x80020000`. -/
@[reducible] def smallKernel : KernelImage where
  kend := 0x80020000
  trampoline := 0x80007000
  aligned := by decide
  inText := by decide
  inRam := by decide

def smallRam : Ram where
  mem := fun _ => 0
  freelist := [0x80020000, 0x80021000, 0x80022000, 0x80023000]
  grants := fun _ => true

section Sample

attribute [local instance] smallKernel

theorem page_table_map_onePage : ∃ s₁ s, uvmcreate smallRam = .ok (some 0x80020000, s₁) ∧
    Run (TableStep 0x80020000) s₁ [.mappages 0x3000 1 0x87654321 (PTE_R ||| PTE_U)] s ∧
    walkaddr 0x80020000 0x3abc s = .ok (0x87654000, s) ∧
    walkaddr 0x80020000 0x4abc s = .ok (0, s) := by
  let s₁ := (smallRam.pop 0x80020000 smallRam.freelist.tail).fillPage 0x80020000 0
  have created : uvmcreate smallRam = .ok (some 0x80020000, s₁) := rfl
  let event : TableEvent := .mappages 0x3000 1 0x87654321 (PTE_R ||| PTE_U)
  let observe : Unit → Ram → Option (Nat × Nat) × Option (Nat × Nat) := fun _ t =>
    (t.translate 0x80020000 0x3abc, t.translate 0x80020000 0x4abc)
  have done : (event.exec 0x80020000 s₁).toOption.map (fun r => observe r.1 r.2) =
      some (some (0x87654000, PTE_R ||| PTE_U ||| PTE_V), none) := by decide +kernel
  obtain ⟨_, s, step, seen⟩ := run_observed observe done
  have step : TableStep 0x80020000 s₁ event s := step
  have run := Run.nil.snoc step
  have list : FreeList smallRam := by
    constructor
    · decide
    · unfold IsPage
      decide
  have map := page_table_map list created run
  have found := map.walkaddr 0x3abc
  have absent := map.walkaddr 0x4abc
  rw [(Prod.mk.inj seen).1] at found
  rw [(Prod.mk.inj seen).2] at absent
  exact ⟨s₁, s, created, run, found, absent⟩

end Sample

end Xv6.Vm
