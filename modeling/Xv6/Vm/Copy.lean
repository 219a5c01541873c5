/-
**Copies between the kernel and a user** (`kernel/vm.c`: `copyout`, `copyin`).

What a copy can reach is the `UserMem` of a page table (`Ram.userMem`): the pages below `MAXVA` that
are mapped with `PTE_V` and `PTE_U`, and the bytes behind them. `UserMem.reach` says how far a copy
gets, `copyin_spec` and `copyout_spec` that the loops get exactly that far. `user_copies` puts it
together: the result, the bytes, and that no byte behind a page without `PTE_U` is read or written.
-/

import Xv6.Vm.Process
import Xv6.Fs.Block

set_option linter.unusedSectionVars false

namespace Xv6

open Lib

/-! ### How far a copy gets -/

namespace UserMem

variable {u : UserMem} {va len fuel k : Nat}

def Accessible (u : UserMem) (va : Nat) : Prop := va < MAXVA ∧ u.mapped (va / PGSIZE) = true

theorem walkaddr_iff : u.walkaddr (va / PGSIZE * PGSIZE) = true ↔ u.Accessible va := by
  have aligned : MAXVA = 2 ^ 26 * PGSIZE := by decide
  have low : va / PGSIZE * PGSIZE < MAXVA ↔ va < MAXVA := by
    rw [aligned, Nat.mul_lt_mul_right (by decide), Nat.div_lt_iff_lt_mul (by decide)]
  unfold walkaddr Accessible
  rw [Bool.and_eq_true, decide_eq_true_iff, low, Nat.mul_div_cancel _ (by decide)]

theorem Accessible.same_page (accessible : u.Accessible va) (same : k / PGSIZE = va / PGSIZE) :
    u.Accessible k := by
  rw [← walkaddr_iff, same, walkaddr_iff]
  exact accessible

/-- **A copy gets to the first page that the user cannot access.** -/
structure Reaches (u : UserMem) (va len : Nat) (r : Nat × Bool) : Prop where
  le : r.1 ≤ len
  before : ∀ i < r.1, u.Accessible (va + i)
  all : r.2 = true → r.1 = len
  stop : r.2 = false → r.1 < len ∧ ¬ u.Accessible (va + r.1)
  page : r.2 = false → r.1 = 0 ∨ (va + r.1) % PGSIZE = 0

theorem reaches : ∀ {fuel va len : Nat}, len ≤ fuel → Reaches u va len (u.reach fuel va len) := by
  intro fuel
  induction fuel with
  | zero =>
    intro va len enough
    obtain rfl : len = 0 := by omega
    exact ⟨Nat.le_refl 0, fun i below => absurd below (Nat.not_lt_zero i), fun _ => rfl,
      (by simp [reach]), fun _ => .inl rfl⟩
  | succ fuel ih =>
    intro va len enough
    unfold reach
    by_cases some : 0 < len
    · rw [if_pos some]
      dsimp only
      by_cases mapped : u.walkaddr (va / PGSIZE * PGSIZE) = true
      · rw [if_pos mapped]
        have accessible := walkaddr_iff.mp mapped
        have offset : va - va / PGSIZE * PGSIZE = va % PGSIZE := by
          have := Nat.div_add_mod va PGSIZE
          rw [Nat.mul_comm] at this
          omega
        have inside : va % PGSIZE < PGSIZE := Nat.mod_lt va (by decide)
        rw [offset]
        generalize isN : min (PGSIZE - va % PGSIZE) len = n
        have rest := @ih (va / PGSIZE * PGSIZE + PGSIZE) (len - n) (by omega)
        generalize u.reach fuel (va / PGSIZE * PGSIZE + PGSIZE) (len - n) = r at rest
        have here : ∀ i < n, u.Accessible (va + i) := fun i below => accessible.same_page (by
          simp only [PGSIZE] at *
          omega)
        by_cases whole : n = PGSIZE - va % PGSIZE
        · have next : va / PGSIZE * PGSIZE + PGSIZE = va + n := by
            simp only [PGSIZE] at *
            omega
          rw [next] at rest
          refine ⟨by have := rest.le; show n + r.1 ≤ len; omega, fun i below => ?_, fun done => ?_,
            fun failed => ?_, fun failed => ?_⟩
          · by_cases first : i < n
            · exact here i first
            · have := rest.before (i - n) (by have : i < n + r.1 := below; omega)
              rwa [show va + n + (i - n) = va + i by omega] at this
          · have := rest.all done
            show n + r.1 = len
            omega
          · have := rest.stop failed
            rw [Nat.add_assoc] at this
            exact ⟨by show n + r.1 < len; omega, this.2⟩
          · right
            show (va + (n + r.1)) % PGSIZE = 0
            rcases rest.page failed with zero | aligned
            · rw [zero]
              simp only [PGSIZE] at *
              omega
            · rwa [Nat.add_assoc] at aligned
        · -- the last page of the copy
          obtain rfl : n = len := by omega
          have none : r.1 = 0 := by
            have := rest.le
            omega
          have ok : r.2 = true := by
            by_contra failed
            have := (rest.stop (Bool.eq_false_iff.mpr failed)).1
            omega
          refine ⟨by show n + r.1 ≤ n; omega,
            fun i below => here i (by have : i < n + r.1 := below; omega),
            fun _ => by show n + r.1 = n; omega, fun failed => ?_, fun failed => ?_⟩
          · rw [ok] at failed
            cases failed
          · rw [ok] at failed
            cases failed
      · rw [if_neg mapped]
        exact ⟨Nat.zero_le len, fun i below => absurd below (Nat.not_lt_zero i), (by simp),
          fun _ => ⟨some, fun accessible => mapped (walkaddr_iff.mpr accessible)⟩,
            fun _ => .inl rfl⟩
    · rw [if_neg some]
      exact ⟨Nat.zero_le len, fun i below => absurd below (Nat.not_lt_zero i), fun _ => by
        show 0 = len; omega, (by simp), fun _ => .inl rfl⟩

theorem reach_ok (enough : len ≤ fuel) :
    (u.reach fuel va len).2 = true ↔ ∀ i < len, u.Accessible (va + i) := by
  have reaches := @reaches u fuel va len enough
  constructor
  · intro done i below
    exact reaches.before i (by rwa [reaches.all done])
  · intro accessible
    by_contra failed
    have stop := reaches.stop (Bool.eq_false_iff.mpr failed)
    exact stop.2 (accessible _ stop.1)

theorem reach_zero (u : UserMem) : ∀ fuel va, u.reach fuel va 0 = (0, true)
  | 0, _ => rfl
  | _ + 1, _ => rfl

theorem reach_congr {u' : UserMem} (same : u'.mapped = u.mapped) : ∀ fuel va len,
    u'.reach fuel va len = u.reach fuel va len := by
  intro fuel
  induction fuel with
  | zero => exact fun _ _ => rfl
  | succ fuel ih =>
    intro va len
    unfold reach walkaddr
    simp only [same, ih]

end UserMem

namespace Vm

section Copy

/-! ### What the user can access -/

def Ram.UserPage (s : Ram) (root v : Nat) : Prop :=
  s.pte root v % 2 = 1 ∧ s.pte root v &&& PTE_U ≠ 0

instance (s : Ram) (root v : Nat) : Decidable (s.UserPage root v) :=
  inferInstanceAs (Decidable (_ ∧ _))

/-- The physical address of a byte of the user. -/
def Ram.uaddr (s : Ram) (root va : Nat) : Nat := s.page root (va / PGSIZE) + va % PGSIZE

def Ram.userMem (s : Ram) (root : Nat) : UserMem where
  mapped v := decide (s.UserPage root v)
  byte va := s.mem (s.uaddr root va)

variable [KernelImage] {whole live : Nat → Prop} {root : Nat} {extra : Nat → Nat} {s t u : Ram}
  {v w x va len k n : Nat} {p : Proc} {fails : VmPanic → Prop} {bytes : List Byte} {ok : Bool}

/-- No frame behind a user page has the address 0. -/
def Ram.Nonzero (s : Ram) (root : Nat) : Prop := ∀ v, s.UserPage root v → s.page root v ≠ 0

theorem walkaddr_user (nonzero : s.Nonzero root) : From s (walkaddr root va)
    (fun r t => t = s ∧
      ((s.userMem root).walkaddr va = true ∧ r = s.page root (va / PGSIZE) ∧ r ≠ 0 ∨
      (s.userMem root).walkaddr va = false ∧ r = 0)) fails := by
  have flag : PTE_FLAGS (s.pte root (va / PGSIZE)) &&& PTE_U =
    s.pte root (va / PGSIZE) &&& PTE_U := by
    rw [PTE_FLAGS, Nat.and_assoc]
    rfl
  refine (walkaddr_spec s root va).to_post ?_
  rintro r t ⟨isR, same⟩
  refine ⟨same, ?_⟩
  have mapped : (s.userMem root).walkaddr va = true ↔ va < MAXVA ∧
    s.UserPage root (va / PGSIZE) := by
    unfold UserMem.walkaddr
    rw [Bool.and_eq_true, decide_eq_true_iff]
    exact and_congr_right fun _ => decide_eq_true_iff
  by_cases valid : va < MAXVA ∧ s.pte root (va / PGSIZE) % 2 = 1
  · have translates : s.translate root va = _ := if_pos valid
    rw [translates] at isR
    dsimp only at isR
    rw [flag] at isR
    by_cases user : s.pte root (va / PGSIZE) &&& PTE_U = 0
    · rw [if_pos user] at isR
      exact .inr ⟨Bool.eq_false_iff.mpr fun walks => (mapped.mp walks).2.2 user, isR⟩
    · rw [if_neg user] at isR
      have isPage : s.UserPage root (va / PGSIZE) := ⟨valid.2, user⟩
      exact .inl ⟨mapped.mpr ⟨valid.1, isPage⟩, isR, isR ▸ nonzero _ isPage⟩
  · have translates : s.translate root va = none := if_neg valid
    rw [translates] at isR
    exact .inr
      ⟨Bool.eq_false_iff.mpr fun walks => valid ⟨(mapped.mp walks).1, (mapped.mp walks).2.1⟩, isR⟩

theorem mod_sub (va : Nat) : va - va / PGSIZE * PGSIZE = va % PGSIZE := by
  have := Nat.div_add_mod va PGSIZE
  rw [Nat.mul_comm] at this
  omega

theorem uaddr_add (inside : va % PGSIZE + k < PGSIZE) :
    s.uaddr root (va + k) = s.uaddr root va + k := by
  have page : (va + k) / PGSIZE = va / PGSIZE := by
    simp only [PGSIZE] at *
    omega
  have offset : (va + k) % PGSIZE = va % PGSIZE + k := by
    simp only [PGSIZE] at *
    omega
  rw [Ram.uaddr, Ram.uaddr, page, offset, Nat.add_assoc]

/-- The next page, as an offset of the copy, unless the copy ends in this page. -/
theorem next_page (isN : min (PGSIZE - va % PGSIZE) len = n) :
    va / PGSIZE * PGSIZE + PGSIZE = va + n ∨ len - n = 0 := by
  simp only [PGSIZE] at *
  omega

theorem next_narrow (low : va < MAXVA) :
    (va / PGSIZE * PGSIZE + PGSIZE) % 2 ^ 64 = va / PGSIZE * PGSIZE + PGSIZE := by
  have := Nat.div_mul_le_self va PGSIZE
  have small : PGSIZE < 2 ^ 38 := by decide
  rw [MAXVA] at low
  exact Nat.mod_eq_of_lt (by omega)

/-! ### `copyin` -/

theorem copyinLoop_spec (nonzero : s.Nonzero root) : ∀ {fuel va len : Nat} {dst : List Byte},
    From s (copyinLoop root fuel va len dst)
      (fun r t => t = s ∧ r = (if ((s.userMem root).reach fuel va len).2 then 0 else -1,
        dst ++ (List.range ((s.userMem root).reach fuel va len).1).map
        fun j => s.mem (s.uaddr root (va + j))))
      fails := by
  intro fuel
  induction fuel with
  | zero =>
    intro va len dst
    refine .done ⟨rfl, ?_⟩
    rw [UserMem.reach, if_pos rfl, List.range_zero, List.map_nil, List.append_nil]
  | succ fuel ih =>
    intro va len dst
    rw [UserMem.reach]
    refine .ite (fun some => ?_) fun none => ?_
    · rw [if_pos some]
      dsimp only
      refine .bind (walkaddr_user nonzero) fun pa0 => .each fun t outcome => ?_
      obtain ⟨rfl, ⟨walks, isPage, found⟩ | ⟨fails, rfl⟩⟩ := outcome
      · refine .ite (fun zero => absurd zero found) fun _ => .get_known ?_
        unfold PGROUNDDOWN at walks ⊢
        rw [if_pos walks, mod_sub, next_narrow (UserMem.walkaddr_iff.mp walks).1]
        generalize isN : min (PGSIZE - va % PGSIZE) len = n
        refine .to_post ih ?_
        rintro r u ⟨same, isR⟩
        refine ⟨same, isR.trans ?_⟩
        rw [PGROUNDDOWN, Nat.mul_div_cancel _ (show 0 < PGSIZE by decide)] at isPage
        have bytes : t.mem.read (pa0 + va % PGSIZE) n =
            (List.range n).map fun j => t.mem (t.uaddr root (va + j)) := by
          refine List.map_congr_left fun j member => ?_
          rw [uaddr_add (by have := List.mem_range.mp member; omega), Ram.uaddr, isPage]
        rcases next_page isN with next | last
        · rw [next, bytes, List.append_assoc, List.range_add, List.map_append, List.map_map]
          simp only [Function.comp_def, Nat.add_assoc]
        · rw [last, UserMem.reach_zero, bytes, List.range_zero, List.map_nil, List.append_nil]
          rfl
      · refine .ite (fun _ => .done ⟨rfl, ?_⟩) fun nonzero => absurd rfl nonzero
        unfold PGROUNDDOWN at fails
        rw [if_neg (Bool.eq_false_iff.mp fails), List.range_zero, List.map_nil, List.append_nil]
        rfl
    · refine .done ⟨rfl, ?_⟩
      rw [if_neg none, if_pos rfl, List.range_zero, List.map_nil, List.append_nil]

theorem copyin_spec (nonzero : s.Nonzero root) : From s (copyin root va len)
      (fun r t => t = s ∧ r = (if ((s.userMem root).copyin va len).2 then 0 else -1,
        ((s.userMem root).copyin va len).1)) fails :=
  copyinLoop_spec nonzero

/-! ### `copyout` -/

theorem Space.touch (space : Space whole root live extra s) (free : t.freelist = s.freelist)
    (mem : ∀ x, (∀ v, live v → ¬ InPage (s.page root v) x) → t.mem x = s.mem x) :
    Space whole root live extra t ∧ ∀ v, t.pte root v = s.pte root v := by
  have same : SameTable root s t := by
    intro d shallow k q at_ i index
    refine entry_of_mem (fun x inside => mem x fun v isLive within => ?_) index
    exact (space.table.inArea shallow at_).2 v isLive
      (within.unique inside (space.page_isPage isLive).1 (space.table.isPage shallow at_).1)
  exact ⟨space.sameTable same (space.table.congr free fun d inner => same d (Nat.le_of_lt inner))
    space.pages
    fun v isLive => (space.user v isLive).1, same.pte⟩

/-- Besides user memory, no page is mapped for the user. -/
def Quiet (extra : Nat → Nat) : Prop := ∀ v, extra v % 2 = 1 → extra v &&& PTE_U = 0

theorem Space.userPage_live (space : Space whole root live extra s) (quiet : Quiet extra)
    (user : s.UserPage root v) : live v := by
  by_contra dead
  obtain ⟨valid, user⟩ := user
  rw [space.rest v dead] at valid user
  exact user (quiet v valid)

theorem Space.nonzero (space : Space whole root live extra s) (quiet : Quiet extra) :
    s.Nonzero root :=
  fun _ user => (space.page_isPage (space.userPage_live quiet user)).pos.ne'

theorem inPage_uaddr (s : Ram) (root va : Nat) :
    InPage (s.page root (va / PGSIZE)) (s.uaddr root va) := by
  have := Nat.mod_lt va (show 0 < PGSIZE by decide)
  unfold InPage Ram.uaddr
  omega

theorem Space.uaddr_inj (space : Space whole root live extra s) (first : live (va / PGSIZE))
    (second : live (w / PGSIZE)) (equal : s.uaddr root va = s.uaddr root w) : va = w := by
  have inside := inPage_uaddr s root va
  rw [equal] at inside
  have frames :=
    inside.unique (inPage_uaddr s root w) (space.page_isPage first).1 (space.page_isPage second).1
  have pages := space.once _ _ first second frames
  unfold Ram.uaddr at equal
  rw [frames] at equal
  have here := Nat.div_add_mod va PGSIZE
  have there := Nat.div_add_mod w PGSIZE
  rw [pages] at here
  omega

/-- **The bytes are written** from a user address on, and nothing else. -/
structure Written (root va : Nat) (bytes : List Byte) (s t : Ram) : Prop where
  free : t.freelist = s.freelist
  grants : t.grants = s.grants
  inside : ∀ i b, bytes[i]? = some b → t.mem (s.uaddr root (va + i)) = b
  outside : ∀ x, (∀ i < bytes.length, x ≠ s.uaddr root (va + i)) → t.mem x = s.mem x

theorem Written.of_nil (free : t.freelist = s.freelist) (grants : t.grants = s.grants)
    (mem : t.mem = s.mem) : Written root va [] s t :=
  ⟨free, grants, fun _ _ at_ => (nomatch List.getElem?_nil.symm.trans at_), fun _ _ => by rw [mem]⟩

theorem Written.nil : Written root va [] s s := of_nil rfl rfl rfl

theorem Written.append {a b : List Byte} (first : Written root va a s t)
    (second : Written root (va + a.length) b t u) (same : t.uaddr root = s.uaddr root)
    (apart : ∀ i < a.length, ∀ j < b.length,
      s.uaddr root (va + i) ≠ s.uaddr root (va + a.length + j)) :
    Written root va (a ++ b) s u := by
  have outside := second.outside
  rw [same] at outside
  refine ⟨second.free.trans first.free, second.grants.trans first.grants, fun i byte at_ => ?_,
    fun x others => ?_⟩
  · by_cases before : i < a.length
    · rw [List.getElem?_append_left before] at at_
      rw [outside _ fun j below => apart i before j below]
      exact first.inside i byte at_
    · rw [List.getElem?_append_right (by omega)] at at_
      have written := second.inside (i - a.length) byte at_
      rwa [same, show va + a.length + (i - a.length) = va + i by omega] at written
  · rw [List.length_append] at others
    rw [outside x fun j below => by
      rw [Nat.add_assoc]
      exact others (a.length + j) (by omega)]
    exact first.outside x fun i below => others i (by omega)

theorem Written.page (inside : va % PGSIZE + bytes.length ≤ PGSIZE) :
    Written root va bytes s { s with mem := s.mem.write (s.uaddr root va) bytes } := by
  refine ⟨rfl, rfl, fun i b at_ => ?_, fun x others => Memory.write_outside ?_⟩
  · obtain ⟨below, rfl⟩ := List.getElem?_eq_some_iff.mp at_
    rw [uaddr_add (by omega)]
    exact Memory.write_inside below
  · by_contra within
    refine others (x - s.uaddr root va) (by omega) ?_
    rw [uaddr_add (by omega)]
    omega

theorem Space.written (space : Space whole root live extra s)
    (written : Written root va bytes s t) (users : ∀ i < bytes.length, live ((va + i) / PGSIZE)) :
    Space whole root live extra t ∧ ∀ v, t.pte root v = s.pte root v :=
  space.touch written.free fun x others => written.outside x fun i below isX =>
    others _ (users i below) (isX ▸ inPage_uaddr s root (va + i))

theorem userMem_mapped (ptes : ∀ v, t.pte root v = s.pte root v) :
    (t.userMem root).mapped = (s.userMem root).mapped := by
  funext w
  refine decide_eq_decide.mpr ?_
  unfold Ram.UserPage
  rw [ptes]

theorem uaddr_congr (ptes : ∀ v, t.pte root v = s.pte root v) : t.uaddr root = s.uaddr root := by
  funext w
  unfold Ram.uaddr Ram.page
  rw [ptes]

theorem copyoutLoop_spec (quiet : Quiet extra) : ∀ {fuel va : Nat} {src : List Byte} {s : Ram},
    Space whole root live extra s → src.length ≤ fuel →
    From s (copyoutLoop root fuel va src)
      (fun r t => r = (if ((s.userMem root).reach fuel va src.length).2 then 0 else -1) ∧
        Written root va (src.take ((s.userMem root).reach fuel va src.length).1) s t) fails := by
  intro fuel
  induction fuel with
  | zero =>
    intro va src s _ _
    exact .done ⟨rfl, Written.nil⟩
  | succ fuel ih =>
    intro va src s space enough
    have reaches := @UserMem.reaches (s.userMem root) (fuel + 1) va src.length enough
    rw [UserMem.reach] at reaches ⊢
    refine .ite (fun some => ?_) fun none => ?_
    · rw [if_pos some] at reaches ⊢
      dsimp only at reaches ⊢
      refine .bind (walkaddr_user (space.nonzero quiet)) fun pa0 => .each fun t outcome => ?_
      obtain ⟨rfl, ⟨walks, isPage, found⟩ | ⟨fails, rfl⟩⟩ := outcome
      · refine .ite (fun zero => absurd zero found) fun _ => .modify_known ?_
        unfold PGROUNDDOWN at walks isPage ⊢
        rw [if_pos walks] at reaches ⊢
        rw [Nat.mul_div_cancel _ (show 0 < PGSIZE by decide)] at isPage
        rw [mod_sub] at reaches ⊢
        rw [next_narrow (UserMem.walkaddr_iff.mp walks).1]
        generalize isN : min (PGSIZE - va % PGSIZE) src.length = n at reaches ⊢
        have start : pa0 + va % PGSIZE = t.uaddr root va := by rw [isPage, Ram.uaddr]
        have length : (src.take n).length = n := by
          rw [List.length_take]
          omega
        have offset := Nat.mod_lt va (show 0 < PGSIZE by decide)
        have positive : 0 < n := by omega
        have inPage : va % PGSIZE + n ≤ PGSIZE := by omega
        have first : Written root va (src.take n) t _ := Written.page (by rw [length]; exact inPage)
        have users : ∀ i, i < n + ((t.userMem root).reach fuel (va / PGSIZE * PGSIZE + PGSIZE)
            (src.length - n)).1 → live ((va + i) / PGSIZE) := fun i below =>
          space.userPage_live quiet (of_decide_eq_true (reaches.before i below).2)
        rw [start]
        generalize isT : ({ t with mem := t.mem.write (t.uaddr root va) (src.take n) } : Ram) =
          t₁ at first ⊢
        obtain ⟨space₁, ptes⟩ := space.written first fun i below => users i (by omega)
        have next :=
          @ih (va / PGSIZE * PGSIZE + PGSIZE) (src.drop n) t₁ space₁
          (by rw [List.length_drop]; omega)
        rw [UserMem.reach_congr (userMem_mapped ptes), List.length_drop] at next
        refine next.to_post ?_
        rintro r u ⟨isR, second⟩
        refine ⟨isR, ?_⟩
        rw [List.take_add]
        refine first.append ?_ (uaddr_congr ptes) ?_
        · rw [length]
          rcases next_page isN with isNext | last
          · rwa [← isNext]
          · rw [last, UserMem.reach_zero, List.take_zero] at second ⊢
            refine Written.of_nil second.free second.grants (funext fun x => second.outside x
              fun i below => ?_)
            exact absurd below (Nat.not_lt_zero i)
        · intro i before j after equal
          rw [length] at before equal
          rw [List.length_take] at after
          have :=
            space.uaddr_inj (users i (by omega))
            (by rw [Nat.add_assoc]; exact users (n + j) (by omega)) equal
          omega
      · refine .ite (fun _ => .done ?_) fun nonzero => absurd rfl nonzero
        unfold PGROUNDDOWN at fails
        rw [if_neg (Bool.eq_false_iff.mp fails)]
        exact ⟨rfl, Written.nil⟩
    · refine .done ?_
      rw [if_neg none]
      exact ⟨rfl, Written.nil⟩

theorem copyout_spec {src : List Byte} (quiet : Quiet extra)
    (space : Space whole root live extra s) :
    From s (copyout root va src)
      (fun r t => r = (if ((s.userMem root).copyout va src).2 then 0 else -1) ∧
        Written root va ((s.userMem root).copyout va src).1 s t) fails :=
  copyoutLoop_spec quiet space (Nat.le_refl _)

/-! ### Pages without `PTE_U` -/

/-- The byte is behind a page that is mapped, but not for the user. -/
def Ram.Hidden (s : Ram) (root x : Nat) : Prop :=
  ∃ v, s.pte root v % 2 = 1 ∧ s.pte root v &&& PTE_U = 0 ∧ InPage (s.page root v) x

theorem procExtra_cases {trapframe : Nat} (valid : procExtra trapframe v % 2 = 1) :
    procExtra trapframe v = leafPte KernelImage.trampoline (PTE_R ||| PTE_X) ∨
      procExtra trapframe v = leafPte trapframe (PTE_R ||| PTE_W) := by
  by_cases isTrapframe : v = trapframePage
  · exact .inr (isTrapframe ▸ procExtra_trapframe)
  · by_cases isTrampoline : v = trampolinePage
    · exact .inl (isTrampoline ▸ procExtra_trampoline)
    · unfold procExtra at valid
      rw [Function.update_of_ne isTrapframe, Function.update_of_ne isTrampoline] at valid
      cases valid

theorem leafPte_and_PTE_U {pa perm : Nat} (small : perm < 1024) :
    leafPte pa perm &&& PTE_U = (perm ||| PTE_V) &&& PTE_U := by
  have flags : leafPte pa perm &&& PTE_U = PTE_FLAGS (leafPte pa perm) &&& PTE_U := by
    rw [PTE_FLAGS, Nat.and_assoc]
    rfl
  rw [flags, PTE_FLAGS_leafPte small]

theorem procExtra_quiet {trapframe : Nat} : Quiet (procExtra trapframe) := by
  intro v valid
  rcases procExtra_cases valid with isPte | isPte
  · rw [isPte, leafPte_and_PTE_U (by decide)]
    decide
  · rw [isPte, leafPte_and_PTE_U (by decide)]
    decide

/-- The frame of such a page is not a page of user memory or of the page table, nor free. -/
theorem Shape.extra_outside (shape : Shape whole p s) (dead : ¬ v < npages p.sz)
    (valid : s.pte p.pagetable v % 2 = 1) (inside : InPage (s.page p.pagetable v) x) :
    Outside whole x := by
  have frame : ∀ {pa perm : Nat}, pa % PGSIZE = 0 → pa < 2 ^ 64 → perm < 1024 →
    PTE2PA (leafPte pa perm) = pa := by
    intro pa perm aligned fits small
    rw [PTE2PA_leafPte fits small, PGROUNDDOWN, Nat.mul_comm]
    have := Nat.div_add_mod pa PGSIZE
    omega
  have isExtra := shape.space.rest v dead
  rw [isExtra] at valid
  unfold Ram.page at inside
  intro q member within
  have page := shape.space.pages q member
  rcases procExtra_cases valid with isPte | isPte
  · rw [isExtra, isPte, frame KernelImage.aligned trampoline_fits (by decide)] at inside
    have text := KernelImage.inText.2
    have above := page.2.1
    unfold InPage at inside within
    omega
  · rw [isExtra, isPte, frame shape.trapframe.1 shape.trapframe.fits (by decide)] at inside
    exact shape.own (within.unique inside page.1 shape.trapframe.1 ▸ member)

/-- **A byte behind a page without `PTE_U`** is in no page of the table, and in no page that the
user can access. -/
theorem Shape.hidden (shape : Shape whole p s) (hidden : s.Hidden p.pagetable x) :
    Outside (Pool whole p.pagetable (fun v => v < npages p.sz) s) x ∧
      ∀ w, s.UserPage p.pagetable w → ¬ InPage (s.page p.pagetable w) x := by
  obtain ⟨v, valid, kernel, inside⟩ := hidden
  by_cases isLive : v < npages p.sz
  · refine ⟨shape.space.outside_user isLive inside, fun w user within => ?_⟩
    have isLive' := shape.space.userPage_live procExtra_quiet user
    have same := shape.space.once v w isLive isLive'
      (inside.unique within (shape.space.page_isPage isLive).1 (shape.space.page_isPage isLive').1)
    exact user.2 (same ▸ kernel)
  · have outside := shape.extra_outside isLive valid inside
    refine ⟨Space.outside_pool outside, fun w user => outside _ ?_⟩
    exact (shape.space.user w (shape.space.userPage_live procExtra_quiet user)).1

/-- The states differ behind pages without `PTE_U` only. -/
structure SameButHidden (root : Nat) (s t : Ram) : Prop where
  free : t.freelist = s.freelist
  mem : ∀ x, ¬ s.Hidden root x → t.mem x = s.mem x

theorem Shape.same_but_hidden (shape : Shape whole p s) (same : SameButHidden p.pagetable s t) :
    Shape whole p t ∧ (∀ v, t.pte p.pagetable v = s.pte p.pagetable v) ∧ ∀ va,
      (s.userMem p.pagetable).Accessible va →
        t.mem (t.uaddr p.pagetable va) = s.mem (s.uaddr p.pagetable va) := by
  have table : SameTable p.pagetable s t := by
    intro d shallow k q at_ i index
    refine entry_of_mem (fun x inside => same.mem x fun hidden => ?_) index
    exact (shape.hidden hidden).1 q (shape.space.table.inArea shallow at_) inside
  refine ⟨⟨shape.space.sameTable table (shape.space.table.congr same.free fun d inner =>
      table d (Nat.le_of_lt inner)) shape.space.pages fun v isLive => (shape.space.user v isLive).1,
    shape.trapframe, shape.own⟩, table.pte, fun va accessible => ?_⟩
  rw [uaddr_congr table.pte]
  refine same.mem _ fun hidden => ?_
  exact (shape.hidden hidden).2 _ (of_decide_eq_true accessible.2) (inPage_uaddr s p.pagetable va)

/-! ### The result -/

/-- The page has a byte in `[va, va + len)`. -/
def Overlaps (v va len : Nat) : Prop := 0 < len ∧ v * PGSIZE < va + len ∧ va < (v + 1) * PGSIZE

/-- The page is below `MAXVA` and mapped with `PTE_V` and `PTE_U`. -/
def Ram.Good (s : Ram) (root v : Nat) : Prop := v * PGSIZE < MAXVA ∧ s.UserPage root v

theorem good_iff : (s.userMem root).Accessible va ↔ s.Good root (va / PGSIZE) := by
  rw [← UserMem.walkaddr_iff]
  unfold UserMem.walkaddr
  rw [Bool.and_eq_true, decide_eq_true_iff, Nat.mul_div_cancel _ (by decide)]
  exact and_congr_right fun _ => decide_eq_true_iff

theorem accessible_iff : (∀ i < len, (s.userMem root).Accessible (va + i)) ↔
    ∀ v, Overlaps v va len → s.Good root v := by
  constructor
  · rintro bytes v ⟨some, low, high⟩
    have byte := bytes (v * PGSIZE - va) (by omega)
    have inV : (va + (v * PGSIZE - va)) / PGSIZE = v := by
      simp only [PGSIZE] at *
      omega
    rwa [good_iff, inV] at byte
  · intro pages i below
    rw [good_iff]
    refine pages _ ⟨by omega, ?_, ?_⟩
    · have := Nat.div_mul_le_self (va + i) PGSIZE
      omega
    · simp only [PGSIZE]
      omega

structure CopiesOut (whole : Nat → Prop) (p : Proc) (s : Ram) (va : Nat) (src : List Byte) (r : Int)
    (t : Ram) :
    Prop where
  returns : copyout p.pagetable va src s = .ok (r, t)
  result : r = 0 ∨ r = -1
  succeeds : r = 0 ↔ ∀ v, Overlaps v va src.length → s.Good p.pagetable v
  /-- all of the bytes arrive, and nothing else changes -/
  writes : r = 0 → Written p.pagetable va src s t
  /-- the bytes before the first page that fails the test arrive, and nothing else changes -/
  partly : r = -1 → ∃ k < src.length, (∀ v, Overlaps v va k → s.Good p.pagetable v) ∧
    ¬ s.Good p.pagetable ((va + k) / PGSIZE) ∧ Written p.pagetable va (src.take k) s t
  /-- the page table stays -/
  keeps : Shape whole p t ∧ ∀ v, t.pte p.pagetable v = s.pte p.pagetable v
  /-- the bytes can be read back -/
  back : r = 0 → copyin p.pagetable va src.length t = .ok ((0, src), t)
  /-- nothing behind a page without `PTE_U` is written -/
  confined : ∀ x, s.Hidden p.pagetable x → t.mem x = s.mem x
  /-- or read -/
  blind : ∀ s', SameButHidden p.pagetable s s' → ∃ t', copyout p.pagetable va src s' = .ok (r, t')

structure CopiesIn (p : Proc) (s : Ram) (va len : Nat) (r : Int) (bytes : List Byte) : Prop where
  returns : copyin p.pagetable va len s = .ok ((r, bytes), s)
  result : r = 0 ∨ r = -1
  succeeds : r = 0 ↔ ∀ v, Overlaps v va len → s.Good p.pagetable v
  reads : r = 0 → bytes = (List.range len).map fun i => s.mem (s.uaddr p.pagetable (va + i))
  /-- nothing behind a page without `PTE_U` is read -/
  blind : ∀ s', SameButHidden p.pagetable s s' → copyin p.pagetable va len s' = .ok ((r, bytes), s')

theorem Shape.copyin (shape : Shape whole p s) (va len : Nat) :
    copyin p.pagetable va len s = .ok ((if ((s.userMem p.pagetable).copyin va len).2 then 0 else -1,
      ((s.userMem p.pagetable).copyin va len).1), s) := by
  have spec :=
    @copyin_spec _ p.pagetable s va len (fun _ => False) (shape.space.nonzero procExtra_quiet)
  obtain ⟨r, t, done, rfl, rfl⟩ := spec.returns rfl fun _ => id
  exact done

theorem result_zero : (if ok then (0 : Int) else -1) = 0 ↔ ok = true := by
  cases ok <;> decide

theorem result_failed (failed : (if ok then (0 : Int) else -1) = -1) : ok = false := by
  cases ok
  · rfl
  · cases failed

theorem result_cases :
    (if ok then (0 : Int) else -1) = 0 ∨ (if ok then (0 : Int) else -1) = -1 := by
  cases ok <;> decide

theorem Shape.copiesIn (shape : Shape whole p s) (va len : Nat) :
    ∃ r bytes, CopiesIn p s va len r bytes := by
  have reaches := @UserMem.reaches (s.userMem p.pagetable) len va len (Nat.le_refl len)
  refine ⟨_, _, ⟨shape.copyin va len, result_cases, ?_, fun done => ?_, fun s' same => ?_⟩⟩
  · rw [result_zero, ← accessible_iff]
    exact UserMem.reach_ok (Nat.le_refl len)
  · have all := reaches.all (result_zero.mp done)
    show (List.range ((s.userMem p.pagetable).reach len va len).1).map _ = _
    rw [all]
    rfl
  · obtain ⟨shape', ptes, bytes⟩ := shape.same_but_hidden same
    have far : (s'.userMem p.pagetable).reach len va len =
      (s.userMem p.pagetable).reach len va len :=
      UserMem.reach_congr (userMem_mapped ptes) len va len
    have equal : (s'.userMem p.pagetable).copyin va len =
      (s.userMem p.pagetable).copyin va len := by
      unfold UserMem.copyin
      rw [far]
      refine Prod.ext (List.map_congr_left fun j member => ?_) rfl
      exact bytes (va + j) (reaches.before j (List.mem_range.mp member))
    rw [shape'.copyin va len, equal]

theorem Shape.copyout (shape : Shape whole p s) (va : Nat) (src : List Byte) :
    ∃ t, copyout p.pagetable va src s =
        .ok (if ((s.userMem p.pagetable).reach src.length va src.length).2 then 0 else -1, t) ∧
      Written p.pagetable va (src.take ((s.userMem p.pagetable).reach src.length va src.length).1) s
      t := by
  have spec :=
    @copyout_spec _ whole _ p.pagetable _ s va (fun _ => False) src procExtra_quiet shape.space
  obtain ⟨r, t, done, isR, written⟩ := spec.returns rfl fun _ => id
  exact ⟨t, isR ▸ done, written⟩

theorem Shape.copyin_written (shape : Shape whole p t)
    (ptes : ∀ v, t.pte p.pagetable v = s.pte p.pagetable v)
    (written : Written p.pagetable va bytes s t)
    (accessible : ∀ i < bytes.length, (s.userMem p.pagetable).Accessible (va + i)) :
    Vm.copyin p.pagetable va bytes.length t = .ok ((0, bytes), t) := by
  have far : (t.userMem p.pagetable).reach bytes.length va bytes.length = (bytes.length, true) := by
    rw [UserMem.reach_congr (userMem_mapped ptes)]
    have ok := (UserMem.reach_ok (Nat.le_refl bytes.length)).mpr accessible
    exact Prod.ext (UserMem.reaches (Nat.le_refl bytes.length) |>.all ok) ok
  rw [shape.copyin]
  unfold UserMem.copyin
  rw [far]
  refine congrArg (fun l => Except.ok ((0, l), t)) (List.ext_getElem? fun i => ?_)
  by_cases below : i < bytes.length
  · rw [List.getElem?_map, List.getElem?_range below, List.getElem?_eq_getElem below]
    show some (t.mem (t.uaddr p.pagetable (va + i))) = _
    rw [uaddr_congr ptes, written.inside i _ (List.getElem?_eq_getElem below)]
  · rw [List.getElem?_eq_none (by rw [List.length_map, List.length_range]; omega),
      List.getElem?_eq_none (by omega)]

theorem Shape.copiesOut (shape : Shape whole p s) (va : Nat) (src : List Byte) :
    ∃ r t, CopiesOut whole p s va src r t := by
  have reaches := @UserMem.reaches (s.userMem p.pagetable) src.length va src.length (Nat.le_refl _)
  have ok := @UserMem.reach_ok (s.userMem p.pagetable) va src.length src.length (Nat.le_refl _)
  obtain ⟨t, done, written⟩ := shape.copyout va src
  have blind : ∀ s', SameButHidden p.pagetable s s' → ∃ t', Vm.copyout p.pagetable va src s' =
      .ok (if ((s.userMem p.pagetable).reach src.length va src.length).2 then 0 else -1, t') := by
    intro s' same
    obtain ⟨shape', ptes, -⟩ := shape.same_but_hidden same
    obtain ⟨t', done', -⟩ := shape'.copyout va src
    rw [UserMem.reach_congr (userMem_mapped ptes)] at done'
    exact ⟨t', done'⟩
  generalize (s.userMem p.pagetable).reach src.length va src.length = far at *
  have length : (src.take far.1).length = far.1 := by
    rw [List.length_take]
    exact Nat.min_eq_left reaches.le
  have users : ∀ i < (src.take far.1).length, s.UserPage p.pagetable ((va + i) / PGSIZE) :=
    fun i below =>
    of_decide_eq_true (reaches.before i (by rwa [length] at below)).2
  have whole_written : far.2 = true → Written p.pagetable va src s t := fun isOk => by
    rwa [reaches.all isOk, List.take_length] at written
  obtain ⟨space, ptes⟩ := shape.space.written written fun i below =>
    shape.space.userPage_live procExtra_quiet (users i below)
  have shape' : Shape whole p t := ⟨space, shape.trapframe, shape.own⟩
  refine ⟨_, t,
    ⟨done, result_cases, ?_, fun zero => whole_written (result_zero.mp zero), fun failed => ?_,
    ⟨shape', ptes⟩, fun zero => ?_, fun x hidden => ?_, blind⟩⟩
  · rw [result_zero, ← accessible_iff]
    exact ok
  · have stop := reaches.stop (result_failed failed)
    exact ⟨far.1, stop.1, accessible_iff.mp reaches.before, fun good => stop.2 (good_iff.mpr good),
      written⟩
  · have isOk := result_zero.mp zero
    exact shape'.copyin_written ptes (whole_written isOk) (ok.mp isOk)
  · refine written.outside x fun i below isX => ?_
    exact (shape.hidden hidden).2 _ (users i below) (isX ▸ inPage_uaddr s p.pagetable (va + i))

/-- **User copies are exact and confined**, for every process, every address and every length. -/
theorem user_copies (shape : Shape whole p s) (va : Nat) :
    (∀ src, ∃ r t, CopiesOut whole p s va src r t) ∧ ∀ len, ∃ r bytes,
      CopiesIn p s va len r bytes :=
  ⟨shape.copiesOut va, shape.copiesIn va⟩

end Copy

section Sample

attribute [local instance] smallKernel

theorem Fresh.userPage {s : Ram} {root v : Nat} (fresh : Fresh s root v) : s.UserPage root v := by
  refine ⟨fresh.pte ▸ leafPte_valid (by decide), ?_⟩
  rw [fresh.pte, leafPte_and_PTE_U (by decide)]
  decide

theorem Sample.good_iff {free : List Nat} {p : Proc} {s : Ram} {v : Nat}
    (sample : Sample free p s) : s.Good p.pagetable v ↔ v < 2 := by
  refine ⟨fun good => ?_, fun below => ⟨?_, (sample.fresh v below).userPage⟩⟩
  · have live : v < npages p.sz := sample.shape.space.userPage_live procExtra_quiet good.2
    rwa [sample.size] at live
  · have : 2 * PGSIZE ≤ MAXVA := by decide
    simp only [PGSIZE] at *
    omega

theorem Sample.zero {free : List Nat} {p : Proc} {s : Ram} {va : Nat} (sample : Sample free p s)
    (below : va < 2 * PGSIZE) : s.mem (s.uaddr p.pagetable va) = 0 :=
  (sample.fresh _ (Nat.div_lt_of_lt_mul (Nat.mul_comm 2 PGSIZE ▸ below))).zero _
    (inPage_uaddr s p.pagetable va)

/-- Three bytes over the end of the first page arrive, and three over the end of the last page do
not. -/
theorem user_copies_page : ∃ whole p s t t', Shape whole p s ∧ p.sz = 5000 ∧
    CopiesOut whole p s 4094 [104, 105, 106] 0 t ∧ CopiesIn p s 4094 3 0 [0, 0, 0] ∧
    CopiesOut whole p s 8190 [104, 105, 106] (-1) t' := by
  obtain ⟨p, s, sample⟩ := sample
  obtain ⟨out, inTo⟩ := user_copies sample.shape 4094
  obtain ⟨r, t, copies⟩ := out [104, 105, 106]
  obtain ⟨r', bytes, reads⟩ := inTo 3
  obtain ⟨r'', t', fails⟩ := (user_copies sample.shape 8190).1 [104, 105, 106]
  have good : ∀ v, Overlaps v 4094 3 → s.Good p.pagetable v := by
    rintro v ⟨-, low, -⟩
    refine sample.good_iff.mpr ?_
    simp only [PGSIZE] at low
    omega
  have bad : r'' ≠ 0 := fun zero => by
    have := sample.good_iff.mp (fails.succeeds.mp zero 2 ⟨by decide, by decide, by decide⟩)
    omega
  obtain rfl : r = 0 := copies.succeeds.mpr good
  obtain rfl : r' = 0 := reads.succeeds.mpr good
  obtain rfl : r'' = -1 := fails.result.resolve_left bad
  obtain rfl : bytes = [0, 0, 0] := by
    rw [reads.reads rfl]
    refine List.map_congr_left fun i member => sample.zero ?_
    have := List.mem_range.mp member
    simp only [PGSIZE]
    omega
  exact ⟨_, p, s, t, t', sample.shape, sample.size, copies, reads, fails⟩

end Sample

end Vm

end Xv6
