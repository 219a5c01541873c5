/-
**Strings of the user** (`kernel/vm.c`: `copyinstr`; `kernel/syscall.c`: `fetchstr`).

`copyinstr` walks the page table once for every page and copies byte by byte until a NUL or `max`.
`UserMem.fetch` is the same byte by byte over user memory, without pages.
-/

import Xv6.Vm.Copy

set_option linter.unusedSectionVars false

namespace Xv6

open Lib

/-! ### Byte by byte -/

namespace UserMem

variable {u : UserMem} {va max k : Nat}

/-- Copy bytes until a NUL, at most `max`; the result says whether there was one. -/
def fetch (u : UserMem) : Nat → Nat → List Byte × Bool
  | _, 0 => ([], false)
  | va, max + 1 =>
    if u.walkaddr (va / PGSIZE * PGSIZE) then
      if u.byte va = 0 then ([0], true)
        else (u.byte va :: (fetch u (va + 1) max).1, (fetch u (va + 1) max).2)
    else ([], false)

/-- The user can access a string of `k` bytes and its NUL. -/
structure StringAt (u : UserMem) (va k : Nat) : Prop where
  accessible : ∀ i < k + 1, u.Accessible (va + i)
  nonzero : ∀ i < k, u.byte (va + i) ≠ 0
  nul : u.byte (va + k) = 0

theorem StringAt.succ (here : u.Accessible va) (nonzero : u.byte va ≠ 0) :
    u.StringAt va (k + 1) ↔ u.StringAt (va + 1) k := by
  have move : ∀ i, va + (i + 1) = va + 1 + i := fun i => by omega
  constructor
  · intro string
    refine ⟨fun i below => ?_, fun i below => ?_, ?_⟩
    · exact move i ▸ string.accessible (i + 1) (by omega)
    · exact move i ▸ string.nonzero (i + 1) (by omega)
    · exact move k ▸ string.nul
  · intro string
    refine ⟨fun i below => ?_, fun i below => ?_, move k ▸ string.nul⟩
    · cases i with
      | zero => exact here
      | succ i => exact move i ▸ string.accessible i (by omega)
    · cases i with
      | zero => exact nonzero
      | succ i => exact move i ▸ string.nonzero i (by omega)

structure Fetched (u : UserMem) (va max : Nat) (r : List Byte × Bool) : Prop where
  found : r.2 = true ↔ ∃ k < max, u.StringAt va k
  bytes : ∀ k < max, u.StringAt va k → r.1 = (List.range (k + 1)).map fun i => u.byte (va + i)
  bound : r.1.length ≤ max

theorem fetched (u : UserMem) : ∀ max va, u.Fetched va max (u.fetch va max) := by
  intro max
  induction max with
  | zero =>
    intro va
    exact ⟨⟨nofun, fun ⟨_, below, _⟩ => absurd below (Nat.not_lt_zero _)⟩,
      fun _ below => absurd below (Nat.not_lt_zero _), Nat.le_refl 0⟩
  | succ max ih =>
    intro va
    unfold fetch
    by_cases walks : u.walkaddr (va / PGSIZE * PGSIZE) = true
    · have here := walkaddr_iff.mp walks
      rw [if_pos walks]
      by_cases nul : u.byte va = 0
      · rw [if_pos nul]
        have string : u.StringAt va 0 := by
          refine ⟨fun i below => ?_, nofun, nul⟩
          obtain rfl : i = 0 := by omega
          exact here
        refine ⟨⟨fun _ => ⟨0, Nat.succ_pos _, string⟩, fun _ => rfl⟩, fun k below other => ?_,
          Nat.succ_le_succ (Nat.zero_le _)⟩
        have first : k = 0 := by
          by_contra later
          exact other.nonzero 0 (Nat.pos_of_ne_zero later) nul
        rw [first]
        show [0] = [u.byte va]
        rw [nul]
      · rw [if_neg nul]
        have rest := ih (va + 1)
        refine ⟨rest.found.trans ⟨?_, ?_⟩, fun k below string => ?_, Nat.succ_le_succ rest.bound⟩
        · rintro ⟨k, below, string⟩
          exact ⟨k + 1, Nat.succ_lt_succ below, (StringAt.succ here nul).mpr string⟩
        · rintro ⟨k, below, string⟩
          cases k with
          | zero => exact absurd string.nul nul
          | succ k => exact ⟨k, Nat.lt_of_succ_lt_succ below, (StringAt.succ here nul).mp string⟩
        · cases k with
          | zero => exact absurd string.nul nul
          | succ k =>
            rw [rest.bytes k (Nat.lt_of_succ_lt_succ below) ((StringAt.succ here nul).mp string),
              List.range_succ_eq_map (n := k + 1), List.map_cons, List.map_map]
            refine congrArg (u.byte va :: ·) (List.map_congr_left fun i _ => ?_)
            show u.byte (va + 1 + i) = u.byte (va + (i + 1))
            congr 1
            omega
    · rw [if_neg walks]
      have none : ∀ k, ¬ u.StringAt va k := fun k string =>
        walks (walkaddr_iff.mpr (string.accessible 0 (Nat.succ_pos _)))
      exact ⟨⟨nofun, fun ⟨k, _, string⟩ => absurd string (none k)⟩,
        fun k _ string => absurd string (none k), Nat.zero_le _⟩

end UserMem

namespace Vm

/-! ### The program -/

section Machine

variable [KernelImage]

/-- The inner loop of `copyinstr`: `got_null`, `max` and `dst` after at most `n` bytes from `p` on.
-/
def copyinstrPage (mem : Memory) : Nat → Nat → Nat → List Byte → Bool × Nat × List Byte
  | 0, _, max, dst => (false, max, dst)
  | n + 1, p, max, dst =>
    if mem p = 0 then (true, max, dst ++ [0]) else copyinstrPage mem n (p + 1) (max - 1)
      (dst ++ [mem p])

/-- The outer loop of `copyinstr`, with the bytes written to `dst`. Every round without a NUL copies
a byte, so that `max` is fuel enough. -/
def copyinstrLoop (pagetable : Nat) : Nat → Nat → Nat → List Byte → VmM (Int × List Byte)
  | 0, _, _, dst => return (-1, dst)
  | fuel + 1, srcva, max, dst => do
    if 0 < max then
      let va0 := PGROUNDDOWN srcva
      let pa0 ← walkaddr pagetable va0
      if pa0 = 0 then return (-1, dst)
      else
        let n := min (PGSIZE - (srcva - va0)) max
        let (got_null, max, dst) := copyinstrPage (← get).mem n (pa0 + (srcva - va0)) max dst
        if got_null then return (0, dst)
        else copyinstrLoop pagetable fuel ((va0 + PGSIZE) % 2 ^ 64) max dst
    else return (-1, dst)

/-- Copy a string from user to kernel: the result, and the bytes that are written to `dst`. -/
def copyinstr (pagetable srcva max : Nat) : VmM (Int × List Byte) :=
  copyinstrLoop pagetable max srcva max []

/-- `strlen` of a buffer that starts with the bytes -/
def strlen (bytes : List Byte) : Nat := bytes.findIdx fun c => c == 0

/-- `fetchstr(addr, buf, max)`: the result, and the bytes that are written to `buf`. -/
def fetchstr (p : Proc) (addr : Nat) (max : BitVec 32) : VmM (Int × List Byte) := do
  let (err, buf) ← copyinstr p.pagetable addr (max.signExtend 64).toNat
  if err < 0 then return (err, buf) else return ((BitVec.ofNat 32 (strlen buf)).toInt, buf)

end Machine

/-! ### Page by page -/

section String

variable [KernelImage] {root va max n : Nat} {s : Ram} {u : UserMem} {p : Proc}
  {fails : VmPanic → Prop}

theorem copyinstrPage_spec {mem : Memory} : ∀ {n q va max : Nat} {dst : List Byte},
    (∀ i < n, u.Accessible (va + i) ∧ mem (q + i) = u.byte (va + i)) → n ≤ max →
    ∃ got rest text, copyinstrPage mem n q max dst = (got, rest, dst ++ text) ∧
      (got = true ∧ u.fetch va max = (text, true) ∨
        got = false ∧ rest = max - n ∧
          u.fetch va max =
          (text ++ (u.fetch (va + n) (max - n)).1, (u.fetch (va + n) (max - n)).2)) := by
  intro n
  induction n with
  | zero =>
    intro q va max dst _ _
    exact ⟨false, max, [], by rw [List.append_nil]; rfl, .inr ⟨rfl, rfl, rfl⟩⟩
  | succ n ih =>
    intro q va max dst page le
    obtain _ | max := max
    · omega
    obtain ⟨here, same⟩ := page 0 (Nat.succ_pos n)
    rw [Nat.add_zero, Nat.add_zero] at same
    have walks := UserMem.walkaddr_iff.mpr here
    rw [Nat.add_zero] at walks
    by_cases nul : u.byte va = 0
    · refine ⟨true, max + 1, [0], ?_, .inl ⟨rfl, ?_⟩⟩
      · rw [copyinstrPage, same, if_pos nul]
      · rw [UserMem.fetch, if_pos walks, if_pos nul]
    · have next := @ih (q + 1) (va + 1) max (dst ++ [u.byte va]) (fun i below => by
        have := page (i + 1) (by omega)
        rwa [show va + (i + 1) = va + 1 + i by omega, show q + (i + 1) = q + 1 + i by
          omega] at this) (by omega)
      obtain ⟨got, rest, text, run, outcome⟩ := next
      refine ⟨got, rest, u.byte va :: text, ?_, ?_⟩
      · rw [copyinstrPage, same, if_neg nul, Nat.add_sub_cancel, run, List.append_assoc]
        rfl
      · rw [UserMem.fetch, if_pos walks, if_neg nul]
        refine outcome.imp (fun ⟨isGot, fetched⟩ => ⟨isGot, ?_⟩)
          fun ⟨isGot, isRest, fetched⟩ => ⟨isGot, ?_, ?_⟩
        · rw [fetched]
        · rw [isRest, Nat.add_sub_add_right]
        · rw [fetched, Nat.add_sub_add_right, show va + (n + 1) = va + 1 + n by omega]
          rfl

theorem fetch_zero (u : UserMem) (va : Nat) : u.fetch va 0 = ([], false) := by
  unfold UserMem.fetch
  rfl

theorem copyinstrLoop_spec (nonzero : s.Nonzero root) :
    ∀ {fuel va max : Nat} {dst : List Byte}, max ≤ fuel →
    From s (copyinstrLoop root fuel va max dst)
      (fun r t => t = s ∧ r = (if ((s.userMem root).fetch va max).2 then 0 else -1,
        dst ++ ((s.userMem root).fetch va max).1)) fails := by
  intro fuel
  induction fuel with
  | zero =>
    intro va max dst enough
    obtain rfl : max = 0 := by omega
    refine .done ⟨rfl, ?_⟩
    rw [fetch_zero, List.append_nil]
    rfl
  | succ fuel ih =>
    intro va max dst enough
    refine .ite (fun some => ?_) fun none => ?_
    · dsimp only
      refine .bind (walkaddr_user nonzero) fun pa0 => .each fun t outcome => ?_
      unfold PGROUNDDOWN at outcome ⊢
      obtain ⟨rfl, ⟨walks, isPage, found⟩ | ⟨fails, rfl⟩⟩ := outcome
      · refine .ite (fun zero => absurd zero found) fun _ => .get_known ?_
        have low := (UserMem.walkaddr_iff.mp walks).1
        rw [mod_sub, next_narrow low]
        rw [Nat.mul_div_cancel _ (show 0 < PGSIZE by decide)] at isPage
        generalize isN : min (PGSIZE - va % PGSIZE) max = n
        have inside : va % PGSIZE < PGSIZE := Nat.mod_lt va (by decide)
        have page : ∀ i < n, (t.userMem root).Accessible (va + i) ∧
            t.mem (pa0 + va % PGSIZE + i) = (t.userMem root).byte (va + i) := by
          intro i below
          refine ⟨(UserMem.walkaddr_iff.mp walks).same_page ?_, ?_⟩
          · simp only [PGSIZE] at *
            omega
          · show _ = t.mem (t.uaddr root (va + i))
            rw [uaddr_add (by omega), Ram.uaddr, isPage]
        obtain ⟨got, rest, text, run, outcome⟩ :=
          @copyinstrPage_spec _ _ _ n _ va max dst page (by omega)
        rw [run]
        dsimp only
        rcases outcome with ⟨rfl, fetched⟩ | ⟨rfl, rfl, fetched⟩
        · refine .ite (fun _ => .done ⟨rfl, ?_⟩) fun no => absurd rfl no
          rw [fetched, if_pos rfl]
        · refine .ite (fun no => absurd no (by simp)) fun _ => .to_post (ih (by omega)) ?_
          rintro r u ⟨same, isR⟩
          refine ⟨same, isR.trans ?_⟩
          rw [fetched, List.append_assoc]
          rcases next_page isN with next | last
          · rw [next]
          · rw [last, fetch_zero, fetch_zero]
      · refine .ite (fun _ => .done ⟨rfl, ?_⟩) fun nonzero => absurd rfl nonzero
        obtain _ | max := max
        · omega
        rw [UserMem.fetch, if_neg (Bool.eq_false_iff.mp fails), List.append_nil]
        rfl
    · obtain rfl : max = 0 := by omega
      refine .done ⟨rfl, ?_⟩
      rw [fetch_zero, List.append_nil]
      rfl

theorem copyinstr_spec (nonzero : s.Nonzero root) (va max : Nat) : copyinstr root va max s =
    .ok ((if ((s.userMem root).fetch va max).2 then 0 else -1, ((s.userMem root).fetch va max).1),
      s) := by
  have spec := @copyinstrLoop_spec _ root s (fun _ => False) nonzero max va max [] (Nat.le_refl max)
  obtain ⟨r, t, done, rfl, rfl⟩ := spec.returns rfl fun _ => id
  exact done

/-! ### The result -/

/-- At the address is a string of `k` bytes with its NUL, on pages that the user can access. -/
structure Ram.StringAt (s : Ram) (root va k : Nat) : Prop where
  nul : s.mem (s.uaddr root (va + k)) = 0
  nonzero : ∀ i < k, s.mem (s.uaddr root (va + i)) ≠ 0
  pages : ∀ v, Overlaps v va (k + 1) → s.Good root v

theorem stringAt_iff {k : Nat} : (s.userMem root).StringAt va k ↔ s.StringAt root va k :=
  ⟨fun string => ⟨string.nul, string.nonzero, accessible_iff.mp string.accessible⟩,
    fun string => ⟨accessible_iff.mpr string.pages, string.nonzero, string.nul⟩⟩

/-- The bytes of a string with its NUL. -/
def Ram.string (s : Ram) (root va k : Nat) : List Byte :=
  (List.range (k + 1)).map fun i => s.mem (s.uaddr root (va + i))

theorem strlen_string {k : Nat} (string : s.StringAt root va k) :
    strlen (s.string root va k) = k := by
  unfold strlen Ram.string
  have long : k < ((List.range (k + 1)).map fun i => s.mem (s.uaddr root (va + i))).length := by
    rw [List.length_map, List.length_range]
    exact Nat.lt_succ_self k
  refine (List.findIdx_eq long).mpr ⟨?_, fun i below => ?_⟩
  · rw [List.getElem_map, List.getElem_range, string.nul]
    rfl
  · rw [List.getElem_map, List.getElem_range]
    exact beq_eq_false_iff_ne.mpr (string.nonzero i below)

theorem signExtend_toNat {limit : BitVec 32} (isMax : limit.toInt = max) :
    (limit.signExtend 64).toNat = max := by
  have positive : limit.msb = false := BitVec.msb_eq_false_iff_two_mul_lt.mpr (by
    rw [BitVec.toInt_eq_toNat_cond] at isMax
    split at isMax <;> omega)
  rw [BitVec.signExtend_eq_setWidth_of_msb_false positive, BitVec.toNat_setWidth_of_le (by decide)]
  rw [BitVec.toInt_eq_toNat_of_msb positive] at isMax
  exact Int.ofNat.inj isMax

structure FetchesString (s : Ram) (root va max : Nat) (r : Int) (bytes : List Byte) : Prop where
  returns : copyinstr root va max s = .ok ((r, bytes), s)
  result : r = 0 ∨ r = -1
  succeeds : r = 0 ↔ ∃ k < max, s.StringAt root va k
  /-- the string and its NUL are copied -/
  string : ∀ k < max, s.StringAt root va k → bytes = s.string root va k ∧ bytes.length = k + 1
  bounded : bytes.length ≤ max
  /-- there is no room for the NUL of a longer string -/
  long : (∀ i < max, s.mem (s.uaddr root (va + i)) ≠ 0) → r = -1
  /-- `fetchstr`, with the same limit as an `int` -/
  length : ∀ (p : Proc) (limit : BitVec 32), p.pagetable = root → limit.toInt = max → ∃ result,
    fetchstr p va limit s = .ok ((result, bytes), s) ∧ (r = -1 → result = -1) ∧
      ∀ k < max, s.StringAt root va k → result = k

/-- **Strings of the user**: for every page table whose user pages are not at the physical address
0. -/
theorem string_fetched (nonzero : s.Nonzero root) (va max : Nat) :
    ∃ r bytes, FetchesString s root va max r bytes := by
  have run := copyinstr_spec nonzero va max
  have fetched := (s.userMem root).fetched max va
  generalize (s.userMem root).fetch va max = result at run fetched
  obtain ⟨bytes, ok⟩ := result
  dsimp only at run
  have found : ok = true ↔ ∃ k < max, s.StringAt root va k := by
    simpa only [stringAt_iff] using fetched.found
  have string : ∀ k < max, s.StringAt root va k → bytes = s.string root va k :=
    fun k below string =>
    fetched.bytes k below (stringAt_iff.mpr string)
  refine ⟨_, bytes, run, ?_, result_zero.trans found, fun k below isString => ?_, fetched.bound,
    fun long => ?_, fun p limit isRoot isMax => ?_⟩
  · cases ok
    · exact .inr rfl
    · exact .inl rfl
  · have isBytes := string k below isString
    refine ⟨isBytes, ?_⟩
    rw [isBytes, Ram.string, List.length_map, List.length_range]
  · have none : ¬ ok = true := fun some => by
      obtain ⟨k, below, isString⟩ := found.mp some
      exact long k below isString.nul
    rw [if_neg none]
  · unfold fetchstr
    rw [run_bind, isRoot, signExtend_toNat isMax, run]
    dsimp only
    rw [run_ite]
    cases ok with
    | false =>
      rw [if_neg Bool.false_ne_true, if_pos (show (-1 : Int) < 0 by decide)]
      refine ⟨-1, rfl, fun _ => rfl, fun k below isString => ?_⟩
      exact absurd (found.mpr ⟨k, below, isString⟩) Bool.false_ne_true
    | true =>
      rw [if_pos rfl, if_neg (show ¬ (0 : Int) < 0 by decide)]
      refine ⟨_, rfl, (nomatch ·), fun k below isString => ?_⟩
      have small : max < 2 ^ 31 := by
        have := limit.toInt_lt
        omega
      rw [string k below isString, strlen_string isString, BitVec.toInt_eq_toNat_cond,
        BitVec.toNat_ofNat, Nat.mod_eq_of_lt (by omega), if_pos (by omega)]

end String

section Sample

attribute [local instance] smallKernel

/-- The string `hij` lies over the end of the first page; with room for four bytes it is fetched,
and with room for three it is rejected. -/
theorem string_fetched_page : ∃ whole p s bytes, Shape whole p s ∧
    FetchesString s p.pagetable 4094 4 0 [104, 105, 106, 0] ∧
      FetchesString s p.pagetable 4094 3 (-1) bytes := by
  obtain ⟨p, s, sample⟩ := sample
  have good : ∀ v, Overlaps v 4094 4 → s.Good p.pagetable v := by
    rintro v ⟨-, low, -⟩
    refine sample.good_iff.mpr ?_
    simp only [PGSIZE] at low
    omega
  obtain ⟨r, t, copies⟩ := sample.shape.copiesOut 4094 [104, 105, 106, 0]
  obtain rfl : r = 0 := copies.succeeds.mpr good
  have ptes := copies.keeps.2
  have written : ∀ i b, [104, 105, 106, 0][i]? = some b → t.mem (t.uaddr p.pagetable (4094 + i)) =
    b := by
    rw [uaddr_congr ptes]
    exact (copies.writes rfl).inside
  have string : t.StringAt p.pagetable 4094 3 := by
    refine ⟨written 3 0 rfl, fun i below => ?_, fun v overlaps => ?_⟩
    · interval_cases i
      · rw [written 0 104 rfl]
        decide
      · rw [written 1 105 rfl]
        decide
      · rw [written 2 106 rfl]
        decide
    · have user := good v overlaps
      unfold Ram.Good Ram.UserPage at user ⊢
      rwa [ptes]
  have nonzero := copies.keeps.1.space.nonzero procExtra_quiet
  obtain ⟨r, bytes, fetched⟩ := string_fetched nonzero 4094 4
  obtain ⟨r', bytes', rejected⟩ := string_fetched nonzero 4094 3
  obtain rfl : r = 0 := fetched.succeeds.mpr ⟨3, by decide, string⟩
  obtain rfl : r' = -1 := rejected.long string.nonzero
  have isString : bytes = [104, 105, 106, 0] := by
    rw [(fetched.string 3 (by decide) string).1]
    show [t.mem _, t.mem _, t.mem _, t.mem _] = _
    rw [written 0 104 rfl, written 1 105 rfl, written 2 106 rfl, written 3 0 rfl]
  exact ⟨_, p, t, bytes', copies.keeps.1, isString ▸ fetched, rejected⟩

end Sample

end Vm

end Xv6
