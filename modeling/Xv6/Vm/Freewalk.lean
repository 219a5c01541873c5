/-
**Freeing a page table** (`kernel/vm.c`: `freewalk`, `uvmfree`).

`Ram.below d p` lists the page-table pages of the subtree at `p` that is `d` levels high, in the
order in which `freewalk` frees them. When nothing is mapped below (`Ram.Bare`), `freewalk` puts
these pages on the free list and touches nothing else (`freewalk_spec`). The pages of a whole table
are the ones that a `Table` counts (`Table.mem_below`), so that afterwards every page of the area is
free.
-/

import Xv6.Vm.Grow

set_option linter.unusedSectionVars false

namespace Xv6.Vm

open Lib

def Ram.below (s : Ram) : Nat → Nat → List Nat
  | 0, p => [p]
  | d + 1, p => (List.range 512).flatMap (fun i => (s.child p i).elim [] (s.below d)) ++ [p]

def Ram.branch (s : Ram) (d p i : Nat) : List Nat := (s.child p i).elim [] (s.below d)

def Ram.Bare (s : Ram) : Nat → Nat → Prop
  | 0, p => ∀ i < 512, s.entry p i % 2 = 0
  | d + 1, p => ∀ i < 512, s.entry p i % 2 = 1 →
      s.entry p i % 1024 = 1 ∧ s.Bare d (PTE2PA (s.entry p i))

section Below

variable {s t u : Ram} {p q d i x : Nat}

theorem below_succ (s : Ram) (d p : Nat) :
    s.below (d + 1) p = (List.range 512).flatMap (s.branch d p) ++ [p] :=
  rfl

theorem branch_none (at_ : s.child p i = none) : s.branch d p i = [] := by
  rw [Ram.branch, at_, Option.elim_none]

theorem branch_some (at_ : s.child p i = some q) : s.branch d p i = s.below d q := by
  rw [Ram.branch, at_, Option.elim_some]

theorem mem_below_self : ∀ d, p ∈ s.below d p
  | 0 => List.mem_cons_self
  | _ + 1 => List.mem_append_right _ List.mem_cons_self

theorem child_valid (valid : s.entry p i % 2 = 1) : s.child p i = some (PTE2PA (s.entry p i)) :=
  if_pos valid

theorem child_invalid (invalid : s.entry p i % 2 = 0) : s.child p i = none := if_neg (by omega)

theorem mem_below_child (index : i < 512) (at_ : s.child p i = some q) {r : Nat}
    (inside : r ∈ s.below d q) : r ∈ s.below (d + 1) p := by
  rw [below_succ]
  refine List.mem_append_left _ (List.mem_flatMap.mpr ⟨i, List.mem_range.mpr index, ?_⟩)
  rwa [branch_some at_]

theorem below_succ_congr (child : ∀ i < 512, t.child p i = s.child p i)
    (branch : ∀ i < 512, ∀ q, s.child p i = some q → t.below d q = s.below d q) :
    t.below (d + 1) p = s.below (d + 1) p := by
  have each : ∀ i ∈ List.range 512, t.branch d p i = s.branch d p i := by
    intro i member
    have index := List.mem_range.mp member
    cases at_ : s.child p i with
    | none => rw [branch_none at_, branch_none ((child i index).trans at_)]
    | some q => rw [branch_some at_, branch_some ((child i index).trans at_), branch i index q at_]
  rw [below_succ, below_succ, List.flatMap_congr each]

theorem below_congr : ∀ {d p : Nat}, (∀ q ∈ s.below d p, ∀ x, InPage q x → t.mem x = s.mem x) →
    t.below d p = s.below d p ∧ (s.Bare d p → t.Bare d p) := by
  intro d
  induction d with
  | zero =>
    intro p same
    refine ⟨rfl, fun bare i index => ?_⟩
    rw [entry_of_mem (same p (mem_below_self 0)) index]
    exact bare i index
  | succ d ih =>
    intro p same
    have entries : ∀ i < 512, t.entry p i = s.entry p i := fun i index =>
      entry_of_mem (same p (mem_below_self (d + 1))) index
    have branch : ∀ i < 512, ∀ q, s.child p i = some q →
        t.below d q = s.below d q ∧ (s.Bare d q → t.Bare d q) := fun i index q at_ =>
      ih fun r inside => same r (mem_below_child index at_ inside)
    refine ⟨below_succ_congr (fun i index => child_of_entry (entries i index))
      fun i index q at_ => (branch i index q at_).1, fun bare i index valid => ?_⟩
    rw [entries i index] at valid ⊢
    exact ⟨(bare i index valid).1, (branch i index _ (child_valid valid)).2 (bare i index valid).2⟩

end Below

section Freewalk

variable [KernelImage] {whole area : Nat → Prop} {root : Nat} {extra : Nat → Nat} {s t u : Ram}
  {p q d k i v x n : Nat} {fails : VmPanic → Prop}

/-- The pages are free now, and nothing else has changed. -/
structure Released (pages : List Nat) (s t : Ram) : Prop where
  free : t.freelist.Perm (pages ++ s.freelist)
  mem : ∀ x, (∀ q ∈ pages, ¬ InPage q x) → t.mem x = s.mem x

/-- An address in an entry of a page, or in the pages that belong to the entry. -/
def Branch (p : Nat) (sub : Nat → List Nat) (i x : Nat) : Prop :=
  (∃ q ∈ sub i, InPage q x) ∨ (p + 8 * i ≤ x ∧ x < p + 8 * i + 8)

/-- Every page of the subtrees stands once. -/
structure Apart (p : Nat) (sub : Nat → List Nat) : Prop where
  pages : ∀ i < 512, ∀ q ∈ sub i, q % PGSIZE = 0
  page : p % PGSIZE = 0
  once : ∀ i < 512, ∀ j < 512, ∀ q ∈ sub i, q ∈ sub j → i = j
  other : ∀ i < 512, p ∉ sub i

theorem Apart.branch {sub : Nat → List Nat} (apart : Apart p sub) {j : Nat} (index : i < 512)
    (index' : j < 512) (different : i ≠ j) (inside : Branch p sub i x) : ¬ Branch p sub j x := by
  rcases inside with ⟨q, member, within⟩ | ⟨low, high⟩
  · rintro (⟨q', member', within'⟩ | ⟨low, high⟩)
    · have same :=
        within.unique within' (apart.pages i index q member) (apart.pages j index' q' member')
      exact different (apart.once i index j index' q member (same ▸ member'))
    · have same :=
        within.unique (inPage_entry index' low high) (apart.pages i index q member) apart.page
      exact apart.other i index (same ▸ member)
  · rintro (⟨q', member', within'⟩ | ⟨low', high'⟩)
    · have same :=
        within'.unique (inPage_entry index low high) (apart.pages j index' q' member') apart.page
      exact apart.other j index' (same ▸ member')
    · omega

theorem forPtes_spec {body : Nat → VmM Unit} {sub : Nat → List Nat} (apart : Apart p sub)
    (each : ∀ i < 512, ∀ u, (∀ x, Branch p sub i x → u.mem x = s.mem x) →
      From u (body i) (fun _ t => t.freelist.Perm (sub i ++ u.freelist) ∧
        ∀ x, ¬ Branch p sub i x → t.mem x = u.mem x) fails) :
    ∀ (is : List Nat) (u : Ram), is.Nodup → (∀ i ∈ is, i < 512) →
      (∀ i ∈ is, ∀ x, Branch p sub i x → u.mem x = s.mem x) →
      From u (forPtes body is)
      (fun _ t => t.freelist.Perm (is.flatMap sub ++ u.freelist) ∧
        ∀ x, (∀ i ∈ is, ¬ Branch p sub i x) → t.mem x = u.mem x) fails := by
  intro is
  induction is with
  | nil =>
    intro u _ _ _
    exact .done ⟨.refl _, fun x _ => rfl⟩
  | cons i is ih =>
    intro u nodup small intact
    obtain ⟨fresh, nodup'⟩ := List.nodup_cons.mp nodup
    have index := small i List.mem_cons_self
    refine .bind (each i index u (intact i List.mem_cons_self)) fun _ => .each fun t done => ?_
    obtain ⟨free, mem⟩ := done
    refine (ih t nodup' (fun j member => small j (List.mem_cons_of_mem i member))
      fun j member x inside => ?_).to_post
      ?_
    · have different : j ≠ i := fun same => fresh (same ▸ member)
      rw [mem x (apart.branch (small j (List.mem_cons_of_mem i member)) index different inside)]
      exact intact j (List.mem_cons_of_mem i member) x inside
    · rintro _ t' ⟨free', mem'⟩
      refine ⟨?_, fun x outside => ?_⟩
      · rw [List.flatMap_cons, List.append_assoc]
        exact free'.trans ((free.append_left _).trans (List.perm_append_comm_assoc _ _ _))
      · rw [mem' x fun j member => outside j (List.mem_cons_of_mem i member),
          mem x (outside i List.mem_cons_self)]

theorem plain_flags {pte : Nat} (plain : pte % 1024 = 1) :
    pte &&& PTE_V ≠ 0 ∧ pte &&& (PTE_R ||| PTE_W ||| PTE_X) = 0 := by
  have flags : pte &&& 0x3FF = 1 := by rw [← plain, ← PTE_FLAGS_eq, PTE_FLAGS]
  refine ⟨by rw [and_PTE_V]; omega, ?_⟩
  calc pte &&& (PTE_R ||| PTE_W ||| PTE_X) = pte &&& (0x3FF &&& 14) := rfl
    _ = 0 := by rw [← Nat.and_assoc, flags]; rfl

def freePte (depth pagetable i : Nat) : VmM Unit := do
  let pte ← loadPte (pagetable + 8 * i)
  if pte &&& PTE_V ≠ 0 ∧ pte &&& (PTE_R ||| PTE_W ||| PTE_X) = 0 then
    freewalk depth (PTE2PA pte)
    storePte (pagetable + 8 * i) 0
  else if pte &&& PTE_V ≠ 0 then throw .freewalkLeaf
  else return ()

theorem freewalk_succ (depth p : Nat) : freewalk (depth + 1) p =
    forPtes (freePte depth p) (List.range 512) >>= fun _ => kfree p := rfl

def FreesPte (p : Nat) (sub : Nat → List Nat) (i : Nat) (u t : Ram) : Prop :=
  t.freelist.Perm (sub i ++ u.freelist) ∧ ∀ x, ¬ Branch p sub i x → t.mem x = u.mem x

theorem entry_of_branch {sub : Nat → List Nat} (intact : ∀ x, Branch p sub i x →
    u.mem x = s.mem x) : u.entry p i = s.entry p i :=
  Memory.le_congr fun x low high => intact x (.inr ⟨low, high⟩)

theorem freePte_invalid {depth : Nat} {sub : Nat → List Nat} (none : sub i = [])
    (invalid : s.entry p i % 2 = 0) (intact : ∀ x, Branch p sub i x → u.mem x = s.mem x) :
    From u (freePte depth p i) (fun _ t => FreesPte p sub i u t) fails := by
  have load : u.load (p + 8 * i) % 2 = 0 :=
    (congrArg (· % 2) (entry_of_branch intact)).trans invalid
  refine loadPte_known ?_
  rw [and_PTE_V, load]
  refine .ite (fun valid => absurd rfl valid.1) fun _ => .ite (fun valid => absurd rfl valid)
    fun _ => .done ?_
  exact ⟨by rw [none]; exact .refl _, fun _ _ => rfl⟩

theorem freewalk_branches {depth : Nat} {sub : Nat → List Nat} (apart : Apart p sub)
    (page : IsPage p) (each : ∀ i < 512, ∀ u, (∀ x, Branch p sub i x → u.mem x = s.mem x) →
      From u (freePte depth p i) (fun _ t => FreesPte p sub i u t) fails) :
    From s (freewalk (depth + 1) p)
      (fun _ t => Released ((List.range 512).flatMap sub ++ [p]) s t) fails := by
  rw [freewalk_succ]
  have nodup : (List.range 512).Nodup := List.nodup_range
  have small : ∀ i ∈ List.range 512, i < 512 := fun i member => List.mem_range.mp member
  generalize List.range 512 = all at *
  have loop := forPtes_spec apart each all s nodup small fun _ _ _ _ => rfl
  refine .bind loop fun _ => .each fun t done => ?_
  obtain ⟨free, mem⟩ := done
  refine (kfree_spec page).to_post fun _ u pushed => ?_
  subst pushed
  refine ⟨?_, fun x outside => ?_⟩
  · rw [List.append_assoc, List.singleton_append]
    exact (free.cons p).trans List.perm_middle.symm
  · have notIn : ¬ InPage p x := outside p (List.mem_append_right _ List.mem_cons_self)
    refine (mem_push notIn).trans (mem x fun i member inside => ?_)
    rcases inside with ⟨q, isSub, within⟩ | ⟨low, high⟩
    · exact outside q (List.mem_append_left _ (List.mem_flatMap.mpr ⟨i, member, isSub⟩)) within
    · exact notIn (inPage_entry (small i member) low high)

theorem Apart.of_nodup {sub : Nat → List Nat} (nodup : ((List.range 512).flatMap sub ++ [p]).Nodup)
    (pages : ∀ q ∈ (List.range 512).flatMap sub ++ [p], IsPage q) : Apart p sub := by
  obtain ⟨parts, -, apart⟩ := List.nodup_append.mp nodup
  have inside : ∀ i < 512, ∀ q ∈ sub i, q ∈ (List.range 512).flatMap sub := fun i index q member =>
    List.mem_flatMap.mpr ⟨i, List.mem_range.mpr index, member⟩
  refine ⟨fun i index q member => (pages q (List.mem_append_left _ (inside i index q member))).1,
    (pages p (List.mem_append_right _ List.mem_cons_self)).1,
    fun i index j index' q member member' => ?_,
    fun i index member => apart p (inside i index p member) p List.mem_cons_self rfl⟩
  by_contra different
  have symmetric : Std.Symm (Function.onFun List.Disjoint sub) :=
    ⟨fun _ _ disjoint => disjoint.symm⟩
  have disjoint := (List.nodup_flatMap.mp parts).2.forall (List.mem_range.mpr index)
    (List.mem_range.mpr index') different
  exact disjoint member member'

/-- **`freewalk`** frees the page-table pages of a subtree where nothing is mapped. -/
theorem freewalk_spec : ∀ {d fuel p : Nat} {s : Ram}, d < fuel → s.Bare d p → (s.below d p).Nodup →
    (∀ q ∈ s.below d p, IsPage q) →
      From s (freewalk fuel p) (fun _ t => Released (s.below d p) s t) fails := by
  intro d
  induction d with
  | zero =>
    intro fuel p s enough bare nodup pages
    obtain _ | depth := fuel
    · omega
    have page := pages p (mem_below_self 0)
    have apart : Apart p (fun _ => []) :=
      ⟨fun _ _ _ member => absurd member List.not_mem_nil, page.1,
      fun _ _ _ _ _ member => absurd member List.not_mem_nil, fun _ _ => List.not_mem_nil⟩
    have each : ∀ i < 512, ∀ u, (∀ x, Branch p (fun _ => []) i x → u.mem x = s.mem x) →
        From u (freePte depth p i)
        (fun _ t => FreesPte p (fun _ => []) i u t) fails :=
      fun i index u intact => freePte_invalid rfl (bare i index) intact
    have free := @freewalk_branches _ s p fails depth (fun _ => []) apart page each
    have nothing : (List.range 512).flatMap (fun _ => ([] : List Nat)) = [] :=
      List.flatMap_eq_nil_iff.mpr fun _ _ => rfl
    rwa [nothing] at free
  | succ d ih =>
    intro fuel p s enough bare nodup pages
    obtain _ | depth := fuel
    · omega
    have page := pages p (mem_below_self (d + 1))
    rw [below_succ] at nodup
    rw [below_succ] at pages
    rw [below_succ]
    have apart := Apart.of_nodup nodup pages
    have parts := List.nodup_flatMap.mp (List.nodup_append.mp nodup).1
    refine @freewalk_branches _ s p fails depth (s.branch d p) apart page fun i index u intact => ?_
    rcases Nat.mod_two_eq_zero_or_one (s.entry p i) with invalid | valid
    · exact freePte_invalid (branch_none (child_invalid invalid)) invalid intact
    · have at_ := child_valid valid
      have isSub : s.branch d p i = s.below d (PTE2PA (s.entry p i)) := branch_some at_
      have same := below_congr (s := s) (t := u) (d := d) (p := PTE2PA (s.entry p i))
        fun q member x within =>
        intact x (.inl ⟨q, isSub ▸ member, within⟩)
      refine loadPte_known ?_
      have load : u.load (p + 8 * i) = s.entry p i := entry_of_branch intact
      rw [load]
      refine .ite (fun _ => ?_) fun other => absurd (plain_flags (bare i index valid).1) other
      have sub := parts.1 i (List.mem_range.mpr index)
      rw [isSub] at sub
      have walk := @ih depth _ u (by omega) (same.2 (bare i index valid).2) (same.1 ▸ sub)
        fun q member =>
        pages q (mem_below_child index at_ (same.1 ▸ member))
      refine .bind walk fun _ => .each fun t released => .modify fun _ isT => ?_
      subst isT
      rw [same.1] at released
      refine ⟨?_, fun x outside => ?_⟩
      · rw [isSub]
        exact released.free
      · have notEntry : x < p + 8 * i ∨ p + 8 * i + 8 ≤ x := by
          by_contra inside
          exact outside (.inr ⟨by omega, by omega⟩)
        refine (Memory.setLe_outside notEntry).trans (released.mem x fun q member within => ?_)
        exact outside (.inl ⟨q, isSub ▸ member, within⟩)

attribute [local irreducible] freewalk

/-! ### The whole table -/

theorem node_of_mem_below : ∀ {e d k p : Nat}, s.node root d k = some p → q ∈ s.below e p →
    ∃ d' k', d ≤ d' ∧ d' ≤ d + e ∧ s.node root d' k' = some q ∧ k' / 512 ^ (d' - d) = k := by
  intro e
  induction e with
  | zero =>
    intro d k p at_ member
    rw [List.mem_singleton.mp member]
    exact ⟨d, k, Nat.le_refl d, Nat.le_refl d, at_, by rw [Nat.sub_self, Nat.pow_zero, Nat.div_one]⟩
  | succ e ih =>
    intro d k p at_ member
    rw [below_succ] at member
    rcases List.mem_append.mp member with inside | isP
    · obtain ⟨i, range, inside⟩ := List.mem_flatMap.mp inside
      have index := List.mem_range.mp range
      cases child : s.child p i with
      | none =>
        rw [branch_none child] at inside
        exact absurd inside List.not_mem_nil
      | some p' =>
        rw [branch_some child] at inside
        obtain ⟨d', k', low, high, found, path⟩ := ih ((node_entry at_ index).trans child) inside
        refine ⟨d', k', by omega, by omega, found, ?_⟩
        rw [show d' - d = d' - (d + 1) + 1 by omega, Nat.pow_succ, ← Nat.div_div_eq_div_mul, path]
        omega
    · rw [List.mem_singleton.mp isP]
      exact ⟨d, k, Nat.le_refl d, by omega, at_, by rw [Nat.sub_self, Nat.pow_zero, Nat.div_one]⟩

/-- A place of the tree, as a page of the subtree at the root. -/
theorem mem_below_of_node : ∀ {d k p e : Nat}, s.node root d k = some p → ∀ q ∈ s.below e p,
    q ∈ s.below (d + e) root := by
  intro d
  induction d with
  | zero =>
    intro k p e at_ q member
    have top : s.node root 0 k = if k = 0 then some root else none := rfl
    rw [top] at at_
    split at at_
    · rwa [Nat.zero_add, Option.some.inj at_]
    · cases at_
  | succ d ih =>
    intro k p e at_ q member
    have above : s.node root (d + 1) k = (s.node root d (k / 512)).bind
      fun t => s.child t (k % 512) := rfl
    rw [above] at at_
    obtain ⟨p', found, child⟩ := Option.bind_eq_some_iff.mp at_
    have := ih found q (mem_below_child (Nat.mod_lt k (by decide)) child member)
    rwa [show d + (e + 1) = d + 1 + e by omega] at this

namespace Table

theorem nodup_below (table : Table area root s) : ∀ {e d k p : Nat}, d + e = 2 →
    s.node root d k = some p → (s.below e p).Nodup := by
  intro e
  induction e with
  | zero => exact fun _ _ => List.nodup_singleton _
  | succ e ih =>
    intro d k p height at_
    have place : ∀ i < 512, ∀ q ∈ s.branch e p i, ∃ d' k', d + 1 ≤ d' ∧ d' ≤ 2 ∧
        s.node root d' k' = some q ∧ k' / 512 ^ (d' - (d + 1)) = k * 512 + i := by
      intro i index q member
      cases child : s.child p i with
      | none =>
        rw [branch_none child] at member
        exact absurd member List.not_mem_nil
      | some p' =>
        rw [branch_some child] at member
        obtain ⟨d', k', low, high, found, path⟩ :=
          node_of_mem_below ((node_entry at_ index).trans child) member
        exact ⟨d', k', low, by omega, found, path⟩
    rw [below_succ]
    refine List.nodup_append.mpr ⟨List.nodup_flatMap.mpr ⟨fun i range => ?_, ?_⟩,
      List.nodup_singleton _, ?_⟩
    · have index := List.mem_range.mp range
      cases child : s.child p i with
      | none =>
        rw [branch_none child]
        exact List.nodup_nil
      | some p' =>
        rw [branch_some child]
        exact ih (by omega) ((node_entry at_ index).trans child)
    · refine List.nodup_range.pairwise_of_forall_ne
        fun i range j range' different q member member' => ?_
      obtain ⟨d₁, k₁, low₁, high₁, found₁, path₁⟩ := place i (List.mem_range.mp range) q member
      obtain ⟨d₂, k₂, low₂, high₂, found₂, path₂⟩ := place j (List.mem_range.mp range') q member'
      obtain ⟨rfl, rfl⟩ := table.alone high₁ found₁ high₂ found₂
      exact different (by omega)
    · intro q inside r isP equal
      obtain ⟨i, range, member⟩ := List.mem_flatMap.mp inside
      obtain ⟨d', k', low, high, found, -⟩ := place i (List.mem_range.mp range) q member
      rw [equal, List.mem_singleton.mp isP] at found
      have := table.alone (by omega) at_ high found
      omega

theorem bare (table : Table area root s) (none : ∀ v, s.pte root v % 2 = 0) :
    ∀ {e d k p : Nat}, d + e = 2 →
    s.node root d k = some p → s.Bare e p := by
  intro e
  induction e with
  | zero =>
    intro d k p height at_ i index
    obtain rfl : d = 2 := height
    have pte : s.pte root (k * 512 + i) = s.entry p i := by
      rw [Ram.pte, show (k * 512 + i) / 512 = k by omega, at_, show (k * 512 + i) % 512 = i by
        omega]
    rw [← pte]
    exact none _
  | succ e ih =>
    intro d k p height at_ i index valid
    exact ⟨table.plain d (by omega) k p at_ i index valid,
      ih (by omega) ((node_entry at_ index).trans (child_valid valid))⟩

end Table

structure AllFree (area : Nat → Prop) (s t : Ram) : Prop where
  nodup : t.freelist.Nodup
  free : ∀ p, p ∈ t.freelist ↔ area p
  mem : ∀ x, Outside area x → t.mem x = s.mem x

theorem Table.freewalk (table : Table area root s) (none : ∀ v, s.pte root v % 2 = 0) :
    From s (freewalk 4 root) (fun _ t => AllFree area s t) fails := by
  have top := node_zero s root
  have inArea : ∀ q ∈ s.below 2 root, area q ∧ q ∉ s.freelist := by
    intro q member
    obtain ⟨d, k, -, shallow, found, -⟩ := node_of_mem_below top member
    exact ⟨table.inArea (by omega) found, table.notFree (by omega) found⟩
  refine (freewalk_spec (by decide) (table.bare none rfl top) (table.nodup_below rfl top)
    fun q member => table.pages q (inArea q member).1).to_post ?_
  rintro _ t ⟨free, mem⟩
  refine ⟨free.nodup_iff.mpr ?_, fun p => ?_, fun x outside => mem x
    fun q member => outside q (inArea q member).1⟩
  · refine List.nodup_append.mpr ⟨table.nodup_below rfl top, table.nodup,
      fun q member r isFree equal => ?_⟩
    exact (inArea q member).2 (equal ▸ isFree)
  · rw [free.mem_iff, List.mem_append]
    constructor
    · rintro (member | isFree)
      · exact (inArea p member).1
      · exact table.free p isFree
    · intro inside
      by_cases isFree : p ∈ s.freelist
      · exact .inr isFree
      · rw [table.owns.free_iff inside] at isFree
        obtain ⟨⟨d, k⟩, held⟩ := not_forall_not.mp isFree
        unfold Ram.tables at held
        split at held
        · rename_i shallow
          have member := mem_below_of_node held p (mem_below_self (2 - d))
          rw [show d + (2 - d) = 2 by have : d ≤ 2 := shallow; omega] at member
          exact .inl member
        · cases held

/-- **`uvmfree`** frees the user pages and the table, when nothing else is mapped. -/
theorem uvmfree_spec {sz : Nat} (space : Space whole root (fun v => v < npages sz) (fun _ => 0) s) :
    From s (uvmfree root sz) (fun _ t => AllFree whole s t) fails := by
  have finish : ∀ {u : Ram}, Space whole root (fun _ => False) (fun _ => 0) u →
      (∀ x, Outside whole x → u.mem x = s.mem x) →
      From u (freewalk 4 root) (fun _ t => AllFree whole s t) fails := by
    intro u space same
    have table : Table whole root u := space.table.with_area
      fun p => ⟨fun inside => ⟨inside, fun _ => False.elim⟩, fun pool => pool.1⟩
    refine (table.freewalk fun v => by rw [space.rest v id]).to_post fun _ t all => ?_
    exact ⟨all.nodup, all.free, fun x outside => (all.mem x outside).trans (same x outside)⟩
  have few := space.few fun v below => below
  have size := space.size_le
  rw [FRAMES_mul] at size
  refine .ite (fun some => ?_) fun none => ?_
  · have low : (0 + npages sz) * PGSIZE ≤ MAXVA := by
      rw [Nat.zero_add]
      exact Nat.le_trans (Nat.mul_le_mul_right PGSIZE few) (by decide)
    have unmap := @uvmunmap_free _ _ _ root _ s 0 (npages sz) fails space low fun w _ below => by
      omega
    rw [Nat.zero_mul] at unmap
    rw [PGROUNDUP_eq (by simp only [PGSIZE]; omega), Nat.mul_div_cancel _ (by decide)]
    refine .bind unmap fun _ => .each fun u removed => finish ?_ removed.keeps.mem
    exact removed.space.with_live fun v => ⟨False.elim, fun both => both.2 ⟨by omega, by omega⟩⟩
  · refine finish (space.with_live fun v => ⟨False.elim, fun below => ?_⟩) fun _ _ => rfl
    rw [← lt_npages] at below
    omega

end Freewalk

end Xv6.Vm
