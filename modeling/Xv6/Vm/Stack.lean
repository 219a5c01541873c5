/-
**The stack of a new program** (`kernel/exec.c`).

`exec` puts two pages above the program. The lower one loses `PTE_U`; into the upper one go the
argument strings and the array of pointers to them. `Stacked` is the address space while that
happens.

* `Loading.uvmclear`: the guard page;
* `pushArgs_spec`, `pushStack_spec`: what the stack page holds then (`ArgStack`).
-/

import Xv6.Vm.Load

set_option linter.unusedSectionVars false

namespace Xv6.Vm

open Lib Function

section Stack

variable [KernelImage] {area : Nat → Prop} {root trapframe b va : Nat} {s₀ s t : Ram} {img : Memory}
  {fails : VmPanic → Prop}

/-- **The address space with its stack**: the guard page is page `b`, the stack is the next one. -/
structure Stacked (area : Nat → Prop) (root trapframe : Nat) (s₀ : Ram) (img : Memory) (b : Nat)
    (s : Ram) : Prop
    extends Image area root trapframe s₀ img ((b + 2) * PGSIZE) s where
  guard : s.pte root b = leafPte (s.page root b) RWX
  user : ∀ v < b + 2, v ≠ b → s.UserPage root v

/-! ### The guard page -/

theorem leafPte_clear (pa : Nat) :
    leafPte pa RWXU - (leafPte pa RWXU &&& PTE_U) = leafPte pa RWX := by
  rw [leafPte_and_PTE_U (by decide), leafPte_eq (by decide), leafPte_eq (by decide)]
  have user : RWXU ||| PTE_V = 31 := by decide
  have flag : (RWXU ||| PTE_V) &&& PTE_U = 16 := by decide
  have kernel : RWX ||| PTE_V = 15 := by decide
  omega

theorem Loading.uvmclear (loading : Loading area root trapframe s₀ img ((b + 2) * PGSIZE) s) :
    From s (uvmclear root (b * PGSIZE))
      (fun _ t => Stacked area root trapframe s₀ img b t) fails := by
  have count := npages_mul (b + 2)
  have live : b < npages ((b + 2) * PGSIZE) := by omega
  have low : b * PGSIZE < MAXVA := by
    have bound := loading.bound
    have large : 2 ^ 27 < MAXVA := by decide
    rw [count, Nat.add_mul] at bound
    omega
  have isPte := loading.user b live
  have page := loading.space.page_isPage live
  refine .bind (walk_lookup s low) fun r => .of_fact fun found => ?_
  rw [Nat.mul_div_cancel b (show 0 < PGSIZE by decide)] at found
  cases at_ : s.node root 2 (b / 512) with
  | none =>
    have valid := (loading.userPage live).1
    rw [Ram.pte, at_] at valid
    cases valid
  | some p =>
    rw [found, at_]
    refine loadPte_known ?_
    rw [← pte_of_node at_, isPte, leafPte_clear]
    obtain ⟨table, becomes⟩ := loading.space.table.storePte at_ (leafPte (s.page root b) RWX)
    rw [Nat.mod_eq_of_lt (leafPte_lt page.fits (by decide))] at becomes
    obtain ⟨frame, user⟩ := leafPte_user page (.inr rfl)
    have frames : ∀ v, v < npages ((b + 2) * PGSIZE) →
        PTE2PA (update (s.pte root) b (leafPte (s.page root b) RWX) v) = s.page root v ∧
          UserPte (update (s.pte root) b (leafPte (s.page root b) RWX) v) := by
      intro v below
      exact update_ind ⟨frame, user⟩ fun _ => ⟨rfl, (loading.space.user v below).2⟩
    obtain ⟨space, pages, mem, users⟩ := loading.space.reflag table becomes frames
      (fun v dead => by
        rw [update_of_ne (by rintro rfl; exact dead live)]
        exact loading.space.rest v dead)
      loading.space.apart
    refine .modify fun t same => ?_
    subst same
    refine ⟨⟨space, fun x outside => (mem x outside).trans (loading.mem x outside),
      fun a below => ?_⟩, ?_, ?_⟩
    · have isLive := page_lt below
      unfold Ram.uaddr
      rw [pages _ isLive]
      exact (users _ isLive _ (inPage_uaddr t root a)).trans (loading.bytes a below)
    · rw [pages b live, becomes.pte, update_self]
    · intro v below other
      have isLive : v < npages ((b + 2) * PGSIZE) := by omega
      unfold Ram.UserPage
      rw [becomes.pte, update_of_ne other]
      exact loading.userPage isLive

/-! ### Writing to the stack -/

theorem Stacked.copyout {src : List Byte} (stacked : Stacked area root trapframe s₀ img b s)
    (low : (b + 1) * PGSIZE ≤ va) (high : va + src.length ≤ (b + 2) * PGSIZE) :
    From s (copyout root va src)
      (fun r t => r = 0 ∧ Stacked area root trapframe s₀ (img.write va src) b t) fails := by
  have count := npages_mul (b + 2)
  have bound := stacked.bound
  rw [count] at bound
  have large : 2 ^ 27 < MAXVA := by decide
  have all : ((s.userMem root).reach src.length va src.length).2 = true := by
    refine (UserMem.reach_ok (Nat.le_refl _)).mpr fun i below => ⟨by omega, ?_⟩
    have page : (va + i) / PGSIZE = b + 1 :=
      Nat.div_eq_of_lt_le (by omega) (by rw [Nat.succ_mul, Nat.add_mul] at *; omega)
    rw [page]
    exact decide_eq_true (stacked.user (b + 1) (by omega) (by omega))
  have isAll := (@UserMem.reaches (s.userMem root) src.length va src.length (Nat.le_refl _)).all all
  refine (copyout_spec procExtra_quiet stacked.space).to_post ?_
  unfold UserMem.copyout
  dsimp only
  rw [all, isAll, List.take_length]
  rintro r t ⟨rfl, written⟩
  obtain ⟨image, ptes⟩ := stacked.toImage.written written (by rw [count]; exact high)
  refine ⟨rfl, image, ?_, ?_⟩
  · unfold Ram.page
    rw [ptes]
    exact stacked.guard
  · unfold Ram.UserPage
    simp only [ptes]
    exact stacked.user

/-! ### The argument strings -/

/-- **The strings on the stack**, from the first one, below `sp`, to the last one, at `sp'`. -/
inductive Pushed (img : Memory) : Nat → List (List Byte) → List Nat → Nat → Prop
  | nil (sp : Nat) : Pushed img sp [] [] sp
  | cons {sp addr sp' : Nat} {arg : List Byte} {rest : List (List Byte)} {addrs : List Nat} :
      addr + (arg.length + 1) ≤ sp → img.read addr (arg.length + 1) = arg ++ [0] →
      Pushed img addr rest addrs sp' → Pushed img sp (arg :: rest) (addr :: addrs) sp'

namespace Pushed

variable {sp sp' : Nat} {argv : List (List Byte)} {addrs : List Nat}

section

variable (pushed : Pushed img sp argv addrs sp')

include pushed

theorem le : sp' ≤ sp := by
  induction pushed with
  | nil sp => exact Nat.le_refl sp
  | cons below _ _ ih => omega

theorem length : addrs.length = argv.length := by
  induction pushed with
  | nil sp => rfl
  | cons _ _ _ ih => rw [List.length_cons, List.length_cons, ih]

theorem strings : ∀ (i ptr : Nat) (arg : List Byte),
    addrs[i]? = some ptr → argv[i]? = some arg → img.read ptr (arg.length + 1) = arg ++ [0] := by
  induction pushed with
  | nil sp => exact fun i ptr arg at_ => nomatch at_
  | cons _ isString _ ih =>
    intro i ptr arg isPtr isArg
    cases i with
    | zero =>
      cases isPtr
      cases isArg
      exact isString
    | succ i => exact ih i ptr arg isPtr isArg

theorem within :
    ∀ piece ∈ addrs.zip (argv.map fun arg => arg.length + 1), sp' ≤ piece.1 ∧
      piece.1 + piece.2 ≤ sp := by
  induction pushed with
  | nil sp => exact nofun
  | cons below _ rest ih =>
    intro piece member
    rw [List.map_cons, List.zip_cons_cons] at member
    rcases List.mem_cons.mp member with rfl | later
    · exact ⟨rest.le, below⟩
    · have := ih piece later
      omega

theorem le_of_mem : ∀ ptr ∈ addrs, ptr ≤ sp := by
  induction pushed with
  | nil sp => exact nofun
  | cons below _ _ ih =>
    intro ptr member
    rcases List.mem_cons.mp member with rfl | later
    · omega
    · have := ih ptr later
      omega

theorem apart :
    (addrs.zip (argv.map fun arg => arg.length + 1)).Pairwise fun one other => other.1 + other.2 ≤
      one.1 := by
  induction pushed with
  | nil sp => exact .nil
  | cons _ _ rest ih =>
    rw [List.map_cons, List.zip_cons_cons]
    exact .cons (fun other later => (rest.within other later).2) ih

theorem congr {img' : Memory} (same : ∀ a, sp' ≤ a → a < sp → img' a = img a) :
    Pushed img' sp argv addrs sp' := by
  induction pushed with
  | nil sp => exact .nil sp
  | cons below isString rest ih =>
    have above := rest.le
    refine .cons below ?_ (ih fun a low high => same a low (by omega))
    rw [← isString]
    exact Memory.read_congr fun x low high => same x (by omega) (by omega)

end

end Pushed

theorem push_sp {sp len : Nat} (wide : sp < 2 ^ 64) (fits : len ≤ sp) :
    (sp + 2 ^ 64 - len) % 2 ^ 64 = sp - len := by
  rw [show sp + 2 ^ 64 - len = sp - len + 2 ^ 64 by omega, Nat.add_mod_right]
  exact Nat.mod_eq_of_lt (by omega)

theorem Stacked.bad {A : Type} {done : Option A → Ram → Prop}
    (stacked : Stacked area root trapframe s₀ img b s) :
    From s (pure none : VmM (Option A))
      (fun r t => (r = none ∧ ∃ img', Stacked area root trapframe s₀ img' b t) ∨ done r t) fails :=
  .done (.inl ⟨rfl, img, stacked⟩)

theorem pushArgs_spec :
    ∀ {argv : List (List Byte)} {argc sp : Nat} {ustack : List Nat} {img : Memory} {s : Ram},
    (∀ arg ∈ argv, arg.length < PGSIZE) → (b + 1) * PGSIZE ≤ sp → sp ≤ (b + 2) * PGSIZE →
    Stacked area root trapframe s₀ img b s →
    From s (pushArgs root ((b + 1) * PGSIZE) argv argc sp ustack)
      (fun r t => (r = none ∧ ∃ img', Stacked area root trapframe s₀ img' b t) ∨
        ∃ sp' addrs img', r = some (sp', ustack ++ addrs) ∧
          Stacked area root trapframe s₀ img' b t ∧
          Pushed img' sp argv addrs sp' ∧ (b + 1) * PGSIZE ≤ sp' ∧
          ∀ a, a < sp' ∨ sp ≤ a → img' a = img a) fails := by
  intro argv
  induction argv with
  | nil =>
    intro argc sp ustack img s _ low _ stacked
    refine .done (.inr ⟨sp, [], img, ?_, stacked, .nil sp, low, fun _ _ => rfl⟩)
    rw [List.append_nil]
  | cons arg rest ih =>
    intro argc sp ustack img s short low high stacked
    have bound := stacked.bound
    rw [npages_mul] at bound
    refine .ite (fun _ => stacked.bad) fun _ => ?_
    have len := short arg List.mem_cons_self
    have enough : arg.length + 1 ≤ sp := by
      rw [Nat.succ_mul] at low
      omega
    rw [push_sp (by omega) enough]
    dsimp only
    have down := Nat.mod_le (sp - (arg.length + 1)) 16
    generalize isAddr : sp - (arg.length + 1) - (sp - (arg.length + 1)) % 16 = addr
    have below : addr + (arg.length + 1) ≤ sp := by omega
    refine .ite (fun _ => stacked.bad) fun inside => ?_
    have count : (arg ++ [0]).length = arg.length + 1 := List.length_append
    refine .bind (stacked.copyout (Nat.le_of_not_lt inside) (by omega)) fun r =>
      Triple.each fun t outcome => ?_
    obtain ⟨rfl, stacked₁⟩ := outcome
    refine .ite (fun negative => absurd negative (by decide)) fun _ => ?_
    refine (ih (fun other member => short other (List.mem_cons_of_mem _ member))
      (Nat.le_of_not_lt inside)
      (by omega) stacked₁).to_post ?_
    rintro r t (failed | ⟨sp', addrs, img', rfl, stacked', pushed, low', same⟩)
    · exact .inl failed
    · have above := pushed.le
      refine .inr ⟨sp', addr :: addrs, img', by rw [List.append_assoc]; rfl, stacked',
        .cons below ?_ pushed, low', fun a outside => ?_⟩
      · have string := Memory.read_write (m := img) (a := addr) (arg ++ [0])
        rw [count] at string
        rw [← string]
        exact Memory.read_congr fun x at_ _ => same x (.inr at_)
      · rw [same a (by omega), Memory.write_outside (by omega)]

/-! ### The pointers -/

theorem length_leBytes (n v : Nat) : (leBytes n v).length = n := by
  rw [leBytes, List.length_map, List.length_range]

theorem length_words (words : List Nat) :
    (words.flatMap (leBytes 8)).length = 8 * words.length := by
  induction words with
  | nil => rfl
  | cons v words ih =>
    rw [List.flatMap_cons, List.length_append, length_leBytes, ih, List.length_cons]
    omega

theorem le_words {m : Memory} : ∀ {words : List Nat} {a : Nat},
    (∀ k byte, (words.flatMap (leBytes 8))[k]? = some byte → m (a + k) = byte) →
    ∀ i v, words[i]? = some v → Memory.le 8 m (a + 8 * i) = v % 2 ^ 64 := by
  intro words
  induction words with
  | nil => exact fun _ i v at_ => nomatch at_
  | cons w words ih =>
    intro a bytes i v at_
    rw [List.flatMap_cons] at bytes
    cases i with
    | zero =>
      obtain rfl : w = v := Option.some.inj at_
      refine Memory.le_of_digits fun j below => bytes j _ ?_
      rw [List.getElem?_append_left (by rw [length_leBytes]; exact below), leBytes,
        List.getElem?_map, List.getElem?_range below]
      rfl
    | succ i =>
      rw [show a + 8 * (i + 1) = a + 8 + 8 * i by omega]
      refine ih (fun k byte isByte => ?_) i v at_
      rw [Nat.add_assoc]
      refine bytes (8 + k) byte ?_
      rw [List.getElem?_append_right (by rw [length_leBytes]; omega), length_leBytes,
        Nat.add_sub_cancel_left]
      exact isByte

/-- The pieces of the stack: the array, and the strings. -/
def pieces (sp : Nat) (argv : List (List Byte)) (ptrs : List Nat) : List (Nat × Nat) :=
  (sp, 8 * (argv.length + 1)) :: ptrs.zip (argv.map fun arg => arg.length + 1)

/-- **The arguments on the stack**, between `low` and `high`. -/
structure ArgStack (img : Memory) (low high sp : Nat) (argv : List (List Byte)) (ptrs : List Nat) :
    Prop where
  aligned : sp % 16 = 0
  count : ptrs.length = argv.length
  pointers : ∀ i ptr : Nat, ptrs[i]? = some ptr → Memory.le 8 img (sp + 8 * i) = ptr
  last : Memory.le 8 img (sp + 8 * argv.length) = 0
  strings : ∀ (i ptr : Nat) (arg : List Byte), ptrs[i]? = some ptr → argv[i]? = some arg →
    img.read ptr (arg.length + 1) = arg ++ [0]
  apart : (pieces sp argv ptrs).Pairwise fun one other => one.1 + one.2 ≤ other.1 ∨
    other.1 + other.2 ≤ one.1
  inside : ∀ piece ∈ pieces sp argv ptrs, low ≤ piece.1 ∧ piece.1 + piece.2 ≤ high

omit [KernelImage] in
theorem ArgStack.congr {img' : Memory} {low high sp : Nat} {argv : List (List Byte)}
    {ptrs : List Nat} (args : ArgStack img low high sp argv ptrs)
    (same : ∀ a, low ≤ a → a < high → img' a = img a) : ArgStack img' low high sp argv ptrs := by
  have array := args.inside _ List.mem_cons_self
  dsimp only at array
  have word : ∀ i ≤ argv.length, Memory.le 8 img' (sp + 8 * i) = Memory.le 8 img (sp + 8 * i) :=
    fun i inside =>
    Memory.le_congr fun x above below => same x (by omega) (by omega)
  refine ⟨args.aligned, args.count, fun i ptr at_ => ?_, ?_, fun i ptr arg isPtr isArg => ?_,
    args.apart, args.inside⟩
  · have inside := (List.getElem?_eq_some_iff.mp at_).1
    rw [word i (by rw [← args.count]; omega)]
    exact args.pointers i ptr at_
  · rw [word _ (Nat.le_refl _)]
    exact args.last
  · have piece : (ptr, arg.length + 1) ∈ ptrs.zip (argv.map fun arg => arg.length + 1) := by
      refine List.mem_of_getElem? (i := i) ?_
      rw [List.getElem?_zip_eq_some, List.getElem?_map, isArg]
      exact ⟨isPtr, rfl⟩
    have within := args.inside _ (List.mem_cons_of_mem _ piece)
    dsimp only at within
    rw [← args.strings i ptr arg isPtr isArg]
    exact Memory.read_congr fun x above below => same x (by omega) (by omega)

theorem Pushed.argStack {sp low high sp₀ : Nat} {argv : List (List Byte)} {ptrs : List Nat}
    (pushed : Pushed img high argv ptrs sp₀) (wide : high < 2 ^ 64) (aligned : sp % 16 = 0)
    (above : low ≤ sp) (below : sp + 8 * (argv.length + 1) ≤ sp₀)
    (array : ∀ i v : Nat, (ptrs ++ [0])[i]? = some v → Memory.le 8 img (sp + 8 * i) = v % 2 ^ 64) :
    ArgStack img low high sp argv ptrs where
  aligned := aligned
  count := pushed.length
  pointers i ptr at_ := by
    have inside : i < ptrs.length := (List.getElem?_eq_some_iff.mp at_).1
    rw [array i ptr (by rwa [List.getElem?_append_left inside])]
    have found : ptr ≤ high := by
      have := pushed.le_of_mem ptr (List.mem_of_getElem? at_)
      omega
    exact Nat.mod_eq_of_lt (by omega)
  last := array _ 0 (by rw [← pushed.length]; exact List.getElem?_concat_length)
  strings := pushed.strings
  apart := .cons (fun piece later => .inl (by have := pushed.within piece later; omega))
    (pushed.apart.imp fun ordered => .inr ordered)
  inside piece member := by
    rcases List.mem_cons.mp member with rfl | later
    · have := pushed.le
      exact ⟨above, by omega⟩
    · have := pushed.within piece later
      omega

theorem pushStack_spec {argv : List (List Byte)} (short : ∀ arg ∈ argv, arg.length < PGSIZE)
    (few : argv.length < MAXARG) (stacked : Stacked area root trapframe s₀ img b s) :
    From s (pushStack root ((b + 2) * PGSIZE) argv)
      (fun r t => (r = none ∧ ∃ img', Stacked area root trapframe s₀ img' b t) ∨
        ∃ sp ptrs img', r = some sp ∧ Stacked area root trapframe s₀ img' b t ∧
          ArgStack img' ((b + 1) * PGSIZE) ((b + 2) * PGSIZE) sp argv ptrs ∧
          ∀ a < (b + 1) * PGSIZE, img' a = img a) fails := by
  have bound := stacked.bound
  rw [npages_mul] at bound
  have base : (b + 2) * PGSIZE - PGSIZE = (b + 1) * PGSIZE := by
    rw [Nat.succ_mul (b + 1), Nat.add_sub_cancel]
  have page : PGSIZE ≤ (b + 1) * PGSIZE := by
    rw [Nat.succ_mul]
    exact Nat.le_add_left _ _
  have order : (b + 1) * PGSIZE ≤ (b + 2) * PGSIZE := Nat.mul_le_mul_right _ (by omega)
  unfold pushStack
  rw [base]
  refine .bind (pushArgs_spec short order (Nat.le_refl _) stacked) fun r => .each
    fun t outcome => ?_
  rcases outcome with ⟨rfl, img', stacked'⟩ | ⟨sp₀, ptrs, img₁, rfl, stacked₁, pushed, low, same⟩
  · exact stacked'.bad
  · have high := pushed.le
    have count : (([] ++ ptrs ++ [0]).flatMap (leBytes 8)).length = 8 * (argv.length + 1) := by
      rw [length_words, List.nil_append, List.length_append, pushed.length, List.length_singleton]
    have small : 8 * (argv.length + 1) ≤ PGSIZE :=
      Nat.le_trans (Nat.mul_le_mul_left 8 few) (by decide)
    dsimp only
    rw [count, push_sp (by omega) (by omega)]
    have down := Nat.mod_le (sp₀ - 8 * (argv.length + 1)) 16
    generalize isSp : sp₀ - 8 * (argv.length + 1) - (sp₀ - 8 * (argv.length + 1)) % 16 = sp
    refine .ite (fun _ => stacked₁.bad) fun inside => ?_
    refine .bind (stacked₁.copyout (Nat.le_of_not_lt inside) (by omega)) fun r =>
      Triple.each fun t outcome => ?_
    obtain ⟨rfl, stacked₂⟩ := outcome
    refine .ite (fun negative => absurd negative (by decide)) fun _ => ?_
    refine .pure fun u isU => .inr ⟨sp, ptrs, _, rfl, isU ▸ stacked₂, ?_, fun a below => ?_⟩
    · refine (pushed.congr fun a above _ => Memory.write_outside (by omega)).argStack (by omega)
        (by omega)
        (Nat.le_of_not_lt inside) (by omega) ?_
      refine le_words fun k byte isByte => ?_
      obtain ⟨within, rfl⟩ := List.getElem?_eq_some_iff.mp isByte
      exact Memory.write_inside within
    · rw [Memory.write_outside (by omega)]
      exact same a (by omega)

end Stack

end Xv6.Vm
