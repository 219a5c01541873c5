/-
**Growing and shrinking a process** (`kernel/vm.c`: `uvmunmap`, `uvmdealloc`, `uvmalloc`;
`kernel/proc.c`: `growproc`).
-/

import Xv6.Vm.Space

set_option linter.unusedSectionVars false

namespace Xv6.Vm

open Lib

section Grow

variable [KernelImage] {whole live live' : Nat → Prop} {root : Nat} {extra : Nat → Nat}
  {s t u : Ram}
  {p q v w x n : Nat} {fails : VmPanic → Prop}

/-! ### `uvmunmap` and `uvmdealloc` -/

theorem kfree_spec (page : IsPage p) : From s (kfree p) (fun _ t => t = s.push p) fails := by
  refine .ite (fun bad => ?_) fun _ => .modify fun t same => same ▸ rfl
  obtain ⟨aligned, above, below⟩ := page
  omega

/-- The pages `gone` are removed and free. -/
structure Removed (whole : Nat → Prop) (root : Nat) (live : Nat → Prop) (extra : Nat → Nat)
    (gone : Nat → Prop) (s t : Ram) : Prop where
  space : Space whole root (fun w => live w ∧ ¬ gone w) extra t
  keeps : Keeps whole root (fun w => live w ∧ ¬ gone w) s t
  freed : ∀ w, gone w → s.page root w ∈ t.freelist
  free : ∀ p ∈ s.freelist, p ∈ t.freelist

theorem uvmunmapLoop_free {limit : Nat} : ∀ {n v : Nat} {live : Nat → Prop} {s : Ram},
    Space whole root live extra s → (v + n) * PGSIZE = limit → limit ≤ MAXVA →
    (∀ w, v ≤ w → w < v + n → live w) →
      From s (uvmunmapLoop root limit true n (v * PGSIZE))
        (fun _ t => Removed whole root live extra (fun w => v ≤ w ∧ w < v + n) s t) fails := by
  intro n
  induction n with
  | zero =>
    intro v live s space _ _ _
    refine .done ?_
    have all : ∀ w, (live w ∧ ¬ (v ≤ w ∧ w < v + 0)) ↔ live w := fun w => ⟨fun both => both.1,
      fun isLive => ⟨isLive, by omega⟩⟩
    exact ⟨space.with_live all, Keeps.refl, fun w gone => by omega, fun p member => member⟩
  | succ n ih =>
    intro v live s space isLimit low inside
    have isLive := inside v (Nat.le_refl v) (by omega)
    have more : v * PGSIZE < limit := isLimit ▸ Nat.mul_lt_mul_of_pos_right (by omega) (by decide)
    have leaf := (space.user v isLive).2.leaf
    refine .ite (fun _ => ?_) fun done => absurd more done
    have vpn : v * PGSIZE / PGSIZE = v := Nat.mul_div_cancel v (by decide)
    refine .bind (walk_lookup s (Nat.lt_of_lt_of_le more low)) fun r => .of_fact fun found => ?_
    rw [vpn] at found
    cases at_ : s.node root 2 (v / 512) with
    | none =>
      have zero : s.pte root v = 0 := by rw [Ram.pte, at_]
      rw [zero] at leaf
      cases leaf.1
    | some q =>
      rw [found, at_]
      refine loadPte_known ?_
      rw [← pte_of_node at_, and_PTE_V, PTE_FLAGS_eq]
      refine .ite (fun invalid => absurd leaf.1 (by omega)) fun _ => ?_
      refine .ite (fun table => absurd table leaf.2) fun _ => ?_
      refine .bind (kfree_spec (space.page_isPage isLive)) fun _ => .modify_known ?_
      obtain ⟨space', keeps, free⟩ := space.unmapPage isLive at_
      rw [← Nat.succ_mul]
      have next :=
        ih space' (show (v + 1 + n) * PGSIZE = limit by rw [← isLimit]; congr 1; omega) low
        fun w above below => ⟨inside w (by omega) (by omega), by omega⟩
      refine next.to_post ?_
      rintro _ t ⟨final, kept, freed, more⟩
      have same : ∀ w, (live w ∧ ¬ (v ≤ w ∧ w < v + (n + 1))) ↔
          (live w ∧ w ≠ v) ∧ ¬ (v + 1 ≤ w ∧ w < v + 1 + n) := fun w =>
        ⟨fun both => ⟨⟨both.1, by omega⟩, by omega⟩, fun both => ⟨both.1.1, by omega⟩⟩
      refine ⟨final.with_live same, ((keeps.mono fun w both => both.1).trans kept).with_live same,
        fun w gone => ?_, fun p member => more p (free ▸ List.mem_cons_of_mem _ member)⟩
      by_cases first : w = v
      · exact first ▸ more _ (free ▸ List.mem_cons_self)
      · rw [← keeps.page ⟨inside w gone.1 gone.2, first⟩]
        exact freed w ⟨by omega, by omega⟩

theorem uvmunmap_free (space : Space whole root live extra s) (low : (v + n) * PGSIZE ≤ MAXVA)
    (inside : ∀ w, v ≤ w → w < v + n → live w) :
    From s (uvmunmap root (v * PGSIZE) n true)
      (fun _ t => Removed whole root live extra (fun w => v ≤ w ∧ w < v + n) s t) fails := by
  refine .ite (fun odd => absurd (Nat.mul_mod_left v PGSIZE) odd) fun _ => ?_
  have narrow : (v + n) * PGSIZE < 2 ^ 64 := Nat.lt_of_le_of_lt low (by decide)
  rw [← Nat.add_mul, Nat.mod_eq_of_lt narrow]
  exact uvmunmapLoop_free space rfl low inside

def npages (sz : Nat) : Nat := (sz + PGSIZE - 1) / PGSIZE

theorem PGROUNDUP_eq {sz : Nat} (narrow : sz + PGSIZE ≤ 2 ^ 64) :
    PGROUNDUP sz = npages sz * PGSIZE := by
  rw [PGROUNDUP, npages, Nat.mod_eq_of_lt (by simp only [PGSIZE] at *; omega)]

theorem npages_mul (n : Nat) : npages (n * PGSIZE) = n := by
  simp only [npages, PGSIZE]
  omega

theorem npages_mono {a b : Nat} (smaller : a ≤ b) : npages a ≤ npages b :=
  Nat.div_le_div_right (by omega)

theorem lt_npages {sz : Nat} : v * PGSIZE < sz ↔ v < npages sz := by
  simp only [npages, PGSIZE]
  omega

theorem Space.size_le {sz : Nat} (space : Space whole root (fun v => v < npages sz) extra s) :
    sz ≤ FRAMES * PGSIZE := by
  have few : npages sz ≤ FRAMES := space.few fun v below => below
  by_contra large
  exact absurd (lt_npages.mp (Nat.lt_of_not_le large)) (by omega)

theorem FRAMES_mul : FRAMES * PGSIZE = 2 ^ 27 := by decide

theorem ofInt_of_lt (small : n < 2 ^ 31) : ofInt n = n := by
  have signed : (BitVec.ofNat 32 n).toInt = n := by
    rw [BitVec.toInt_eq_toNat_of_lt]
    · rw [BitVec.toNat_ofNat, Nat.mod_eq_of_lt (by omega)]
    · rw [BitVec.toNat_ofNat, Nat.mod_eq_of_lt (by omega)]
      omega
  rw [ofInt, signed]
  omega

theorem uvmdealloc_spec {oldsz newsz : Nat}
    (space : Space whole root (fun v => v < npages oldsz) extra s) (smaller : newsz ≤ oldsz) :
    From s (uvmdealloc root oldsz newsz) (fun r t => r = newsz ∧
      Removed whole root (fun v => v < npages oldsz) extra
        (fun w => npages newsz ≤ w ∧ w < npages oldsz) s t) fails := by
  have few : npages oldsz ≤ FRAMES := space.few fun v below => below
  have size := space.size_le
  have mono := npages_mono smaller
  have nothing : npages oldsz ≤ npages newsz → Removed whole root (fun v => v < npages oldsz) extra
      (fun w => npages newsz ≤ w ∧ w < npages oldsz) s s := fun equal =>
    have all : ∀ w, (w < npages oldsz ∧ ¬ (npages newsz ≤ w ∧ w < npages oldsz)) ↔
      w < npages oldsz :=
      fun w => by omega
    ⟨space.with_live all, Keeps.refl, fun w gone => by omega, fun p member => member⟩
  refine .ite (fun equal => .done ?_) fun _ => ?_
  · obtain rfl : newsz = oldsz := by omega
    exact ⟨rfl, nothing (Nat.le_refl _)⟩
  · rw [FRAMES_mul] at size
    rw [PGROUNDUP_eq (by simp only [PGSIZE]; omega), PGROUNDUP_eq (by simp only [PGSIZE]; omega)]
    refine .ite (fun less => ?_) fun equal => .done ?_
    · have low : npages oldsz * PGSIZE ≤ MAXVA :=
        Nat.le_trans (Nat.mul_le_mul_right PGSIZE few) (by decide)
      have count : ofInt ((npages oldsz * PGSIZE - npages newsz * PGSIZE) / PGSIZE) =
          npages oldsz - npages newsz := by
        rw [← Nat.sub_mul, Nat.mul_div_cancel _ (by decide)]
        exact ofInt_of_lt (Nat.lt_of_le_of_lt (Nat.sub_le _ _) (Nat.lt_of_le_of_lt few (by decide)))
      rw [count]
      have unmap :=
        @uvmunmap_free _ _ _ root extra s (npages newsz) (npages oldsz - npages newsz) fails space
      rw [Nat.add_sub_cancel' mono] at unmap
      exact .bind (unmap low fun w _ below => below) fun _ => .pure fun t removed => ⟨rfl, removed⟩
    · refine ⟨rfl, nothing ?_⟩
      by_contra more
      exact equal (Nat.mul_lt_mul_of_pos_right (by omega) (by decide))

/-! ### `uvmalloc` -/

/-- A new page: readable, writable and zero. -/
structure Fresh (t : Ram) (root w : Nat) : Prop where
  pte : t.pte root w = leafPte (t.page root w) RWXU
  zero : ∀ x, InPage (t.page root w) x → t.mem x = 0

theorem Fresh.keeps (fresh : Fresh s root w) (keeps : Keeps whole root live s t) (isLive : live w) :
    Fresh t root w := by
  constructor
  · rw [keeps.page isLive, keeps.pte w isLive]
    exact fresh.pte
  · intro x inside
    rw [keeps.page isLive] at inside
    exact (keeps.user w isLive x inside).trans (fresh.zero x inside)

/-- The outcome of an allocation of the pages from `v` to `m`: they are all new, or the pages from
`n` on are gone again. -/
def Allocated (whole : Nat → Prop) (root : Nat) (extra : Nat → Nat) (n v m newsz : Nat) (s : Ram)
    (r : Nat) (t : Ram) : Prop :=
  r = newsz ∧ Space whole root (fun w => w < max v m) extra t ∧
    Keeps whole root (fun w => w < v) s t ∧
      (∀ w, v ≤ w → w < m → Fresh t root w) ∨
    r = 0 ∧ Space whole root (fun w => w < n) extra t ∧ Keeps whole root (fun w => w < n) s t

theorem uvmdealloc_back (space : Space whole root (fun w => w < v) extra s) (more : n ≤ v) :
    From s (uvmdealloc root (v * PGSIZE) (n * PGSIZE))
      (fun _ t => Space whole root (fun w => w < n) extra t ∧ Keeps whole root (fun w => w < n) s t)
      fails := by
  have dealloc := @uvmdealloc_spec _ whole root extra s fails (v * PGSIZE) (n * PGSIZE)
  rw [npages_mul, npages_mul] at dealloc
  refine (dealloc space (Nat.mul_le_mul_right _ more)).to_post ?_
  rintro _ t ⟨-, removed⟩
  have same : ∀ w, w < n ↔ w < v ∧ ¬ (n ≤ w ∧ w < v) := fun w => by omega
  exact ⟨removed.space.with_live same, removed.keeps.with_live same⟩

theorem uvmallocLoop_spec {newsz : Nat} (clear : ∀ w < FRAMES, extra w = 0) :
    ∀ {fuel v : Nat} {s : Ram},
    Space whole root (fun w => w < v) extra s → n ≤ v → npages newsz ≤ v + fuel →
      From s (uvmallocLoop root (n * PGSIZE) newsz fuel (v * PGSIZE))
        (Allocated whole root extra n v (npages newsz) newsz s) fails := by
  intro fuel
  have done : ∀ {v : Nat} {s : Ram}, Space whole root (fun w => w < v) extra s → npages newsz ≤ v →
      Allocated whole root extra n v (npages newsz) newsz s newsz s := fun space enough =>
    .inl ⟨rfl, space.with_live fun w => by omega, Keeps.refl, fun w above below => by omega⟩
  induction fuel with
  | zero =>
    intro v s space _ enough
    exact .done (done space enough)
  | succ fuel ih =>
    intro v s space more enough
    refine .ite (fun below => ?_) fun finished => .done ?_
    · refine .bind kalloc_spec fun r => .each fun t taken => ?_
      rcases taken with ⟨rfl, rfl⟩ | ⟨p, rest, first, rfl, rfl⟩
      · obtain ⟨space', keeps⟩ := space.skip
        refine .bind (uvmdealloc_back space' more) fun _ => .pure
          fun t back => .inr ⟨rfl, back.1, ?_⟩
        exact (keeps.mono fun w below => by omega).trans back.2
      · obtain ⟨inside, space₁, keeps₁⟩ := space.pop first
        have page := space.pages p inside
        obtain ⟨space₂, keeps₂⟩ :=
          @Space.write _ _ _ _ _ _ ((s.pop p rest).fillPage p 0) _ space₁ inside page rfl
          fun x outside => mem_fillPage outside
        have few := space₂.few_held page fun w below => below
        have low : v * PGSIZE < MAXVA :=
          Nat.lt_trans (Nat.mul_lt_mul_of_pos_right few (by decide)) (by decide)
        obtain ⟨frame, user⟩ := leafPte_user page (.inl rfl)
        refine .modify_known (.bind (space₂.mapPage inside page (by omega) (clear v few) low frame
          user (by decide)) fun r => .each fun t maps => ?_)
        obtain ⟨keeps₃, held, ends⟩ := maps
        have keeps := keeps₁.trans (keeps₂.trans keeps₃)
        rcases ends with ⟨rfl, space₃, here⟩ | ⟨rfl, space₃⟩
        · refine .ite (fun failed => absurd rfl failed) fun _ => ?_
          replace here : t.pte root v = leafPte p RWXU := here
          have isPage : t.page root v = p := by rw [Ram.page, here, frame]
          have fresh : Fresh t root v := by
            refine ⟨by rw [isPage, here], fun x within => ?_⟩
            rw [isPage] at within
            rw [held x within]
            exact Memory.fill_inside within.1 within.2
          have space₄ : Space whole root (fun w => w < v + 1) extra t := space₃.with_live
            fun w => by omega
          have next := @ih (v + 1) t space₄ (by omega) (by omega)
          rw [Nat.add_mul v 1 PGSIZE, Nat.one_mul] at next
          refine next.to_post fun r u outcome => ?_
          rcases outcome with ⟨isSize, space₅, keeps₅, all⟩ | ⟨failed, space₅, keeps₅⟩
          · have bigger : v < npages newsz := lt_npages.mp below
            refine .inl ⟨isSize, space₅.with_live fun w => by omega,
              keeps.trans (keeps₅.mono fun w below => by omega), fun w above below => ?_⟩
            by_cases isV : w = v
            · exact isV ▸ fresh.keeps keeps₅ (Nat.lt_succ_self v)
            · exact all w (by omega) below
          · exact .inr ⟨failed, space₅, (keeps.mono fun w below => by omega).trans keeps₅⟩
        · refine .ite (fun _ => ?_) fun ok => absurd (by decide) ok
          refine .bind (kfree_spec page) fun _ => .each fun u freed => ?_
          subst freed
          obtain ⟨space₄, keeps₄⟩ := space₃.push inside page
          refine .bind (uvmdealloc_back space₄ more) fun _ => .pure fun t back =>
            .inr ⟨rfl, back.1, ?_⟩
          exact ((keeps.trans keeps₄).mono fun w below => by omega).trans back.2
    · rw [lt_npages] at finished
      exact done space (by omega)

/-- **`uvmalloc`** maps new zeroed pages up to the new size, or it returns 0 and leaves the pages
that were there. -/
theorem uvmalloc_spec {oldsz newsz : Nat}
    (space : Space whole root (fun v => v < npages oldsz) extra s)
    (clear : ∀ w < FRAMES, extra w = 0) (bigger : oldsz ≤ newsz) :
    From s (uvmalloc root oldsz newsz)
      (Allocated whole root extra (npages oldsz) (npages oldsz) (npages newsz) newsz s) fails := by
  have size := space.size_le
  rw [FRAMES_mul] at size
  refine .ite (fun smaller => absurd smaller (by omega)) fun _ => ?_
  rw [PGROUNDUP_eq (by simp only [PGSIZE]; omega)]
  refine uvmallocLoop_spec clear space (Nat.le_refl _) ?_
  generalize npages oldsz = n
  simp only [npages, PGSIZE]
  omega

end Grow

end Xv6.Vm
