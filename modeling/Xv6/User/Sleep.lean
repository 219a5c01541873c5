/-
**The `sleep` program** (`user/sleep.c`: `main`; `user/ulib.c`: `atoi`; `kernel/sysproc.c`:
`sys_sleep`; `kernel/trap.c`: `clockintr`, `usertrap`).

`main` runs on the memory that `exec` leaves (`ArgStack`) and calls `sleep`; the system call waits
for the clock. The steps are those of the process, of the clock, of other wakeups, and of `kill`, in
any order. `ticks` has 32 bits and wraps; `since` counts the clock interrupts since `sys_sleep` has
read `ticks0`.

With one argument, `argv[2]` is the null pointer at the end of the array, so that `main` reads a
number from address 0 of the program and not its argument (`sleepMain_spec`).
-/

import Xv6.User.Grep
import Xv6.Vm.Stack
import Xv6.Lib.Numeral

namespace Xv6.User

open Lib Function
open Sh (chr)
open Vm (ArgStack)

/-! ### The program -/

/-- A load of the user; nothing, if the page cannot be accessed. -/
def loadByte (u : UserMem) (a : Nat) : Option Byte :=
  if u.walkaddr (a / PGSIZE * PGSIZE) then some (u.byte a) else none

/-- A load of a pointer; it is aligned, so that it lies in one page. -/
def loadPtr (u : UserMem) (a : Nat) : Option Nat :=
  if u.walkaddr (a / PGSIZE * PGSIZE) then some (Memory.le 8 u.byte a) else none

/-- `'0' <= c && c <= '9'` -/
def isDigit (c : Byte) : Bool := 48 ≤ c.toNat && c.toNat ≤ 57

/-- The loop of `atoi`, where `left` addresses are below `MAXVA`; nothing, if a load faults. -/
def atoiLoop (u : UserMem) : Nat → Nat → BitVec 32 → Option (BitVec 32)
  | 0, _, _ => none
  | left + 1, s, n => do
    let c ← loadByte u s
    if isDigit c then atoiLoop u left (s + 1) (n * 10 + c.setWidth 32 - 48) else return n

def atoi (u : UserMem) (s : Nat) : Option (BitVec 32) := atoiLoop u (MAXVA - s) s 0

/-- What `main` does first. -/
inductive SleepCall
  | exit (status : Int)
  | fault
  | sleep (n : BitVec 32)
  deriving DecidableEq

/-- `main`, up to its first system call. -/
def sleepMain (u : UserMem) (argc : Int) (argv : Nat) : SleepCall :=
  if argc ≠ 2 then .exit 1
  else
    match (loadPtr u (argv + 2 * 8)).bind (atoi u) with
    | some ticks => .sleep ticks
    | none => .fault

/-! ### The system call -/

inductive SleepPc
  | main
  /-- the system call, before `acquire(&tickslock)` -/
  | trap (n : BitVec 32)
  /-- at the test of the loop, with `tickslock` -/
  | held (n ticks0 : BitVec 32)
  /-- `killed` was 0, and `sleep` has not yet released `tickslock` -/
  | passed (n ticks0 : BitVec 32)
  | asleep (n ticks0 : BitVec 32)
  /-- in `sleep`, before it takes `tickslock` again -/
  | woken (n ticks0 : BitVec 32)
  /-- in `usertrap`, with the result of the system call -/
  | back (r : Int)
  /-- in `main`, with the result of the system call -/
  | user (r : Int)
  | exited (status : Int)
  deriving DecidableEq

structure SleepState where
  ticks : BitVec 32
  killed : Bool
  pc : SleepPc
  /-- clock interrupts since `ticks0 = ticks` -/
  since : Nat

inductive SleepEvent
  | clock
  | wakeup
  | kill
  /-- an interrupt while the process is in user mode -/
  | interrupt
  | run

def SleepPc.wake : SleepPc → SleepPc
  | .asleep n ticks0 => .woken n ticks0
  | pc => pc

def SleepPc.locks : SleepPc → Bool
  | .held _ _ => true
  | .passed _ _ => true
  | _ => false

def SleepPc.inUser : SleepPc → Bool
  | .main => true
  | .user _ => true
  | _ => false

section System

variable (u : UserMem) (argc : Int) (argv : Nat)

def SleepState.run (s : SleepState) : Option SleepState :=
  match s.pc with
  | .main =>
    match sleepMain u argc argv with
    | .exit status => some { s with pc := .exited status }
    | .fault => some { s with killed := true, pc := .exited (-1) }
    | .sleep n => some { s with pc := .trap n }
  | .trap n =>
    if s.killed then some { s with pc := .exited (-1) }
    else some { s with pc := .held n s.ticks, since := 0 }
  | .held n ticks0 =>
    -- both sides of the comparison are unsigned
    if s.ticks - ticks0 < n then
      if s.killed then some { s with pc := .back (-1) } else some { s with pc := .passed n ticks0 }
    else some { s with pc := .back 0 }
  | .passed n ticks0 => some { s with pc := .asleep n ticks0 }
  | .asleep _ _ => none
  | .woken n ticks0 => some { s with pc := .held n ticks0 }
  | .back r => some { s with pc := if s.killed then .exited (-1) else .user r }
  | .user r =>
    some { s with pc := if s.killed then .exited (-1) else .exited (if r < 0 then 1 else 0) }
  | .exited _ => none

def SleepState.step (s : SleepState) : SleepEvent → Option SleepState
  | .clock =>
    if s.pc.locks then none
      else some { s with ticks := s.ticks + 1, since := s.since + 1, pc := s.pc.wake }
  | .wakeup => some { s with pc := s.pc.wake }
  | .kill => some { s with killed := true, pc := s.pc.wake }
  | .interrupt => if s.pc.inUser && s.killed then some { s with pc := .exited (-1) } else some s
  | .run => s.run u argc argv

end System

/-- The process after `exec`, with any value of `ticks`. -/
def SleepState.start (ticks : BitVec 32) : SleepState := ⟨ticks, false, .main, 0⟩

def SleepRun (u : UserMem) (argc : Int) (argv : Nat) (ticks : BitVec 32) (trace : List SleepEvent)
    (t : SleepState) : Prop :=
  Run (fun s e t => SleepState.step u argc argv s e = some t) (SleepState.start ticks) trace t

/-! ### Numbers in memory -/

/-- **The decimal numerals.** -/
structure Decimal (s : List Byte) (n : Nat) : Prop where
  some : s ≠ []
  digits : ∀ c ∈ s, isDigit c = true
  value : Lib.value 10 (s.map fun c => c.toNat - 48) = n

/-- The user can read the text at an address, and the byte after it is not a digit. -/
structure Reads (u : UserMem) (a : Nat) (s : List Byte) : Prop where
  accessible : ∀ i ≤ s.length, u.Accessible (a + i)
  bytes : ∀ i c, s[i]? = Option.some c → u.byte (a + i) = c
  last : isDigit (u.byte (a + s.length)) = false

section Numbers

variable {u : UserMem} {a n : Nat} {s : List Byte}

theorem Reads.load (reads : Reads u a s) : loadByte u a = some (u.byte a) :=
  if_pos (UserMem.walkaddr_iff.mpr (reads.accessible 0 (Nat.zero_le _)))

theorem Reads.cons {c : Byte} (reads : Reads u a (c :: s)) : u.byte a = c ∧ Reads u (a + 1) s := by
  refine ⟨reads.bytes 0 c rfl, fun i le => ?_, fun i x at_ => ?_, ?_⟩
  · have := reads.accessible (i + 1) (by rw [List.length_cons]; omega)
    rwa [show a + 1 + i = a + (i + 1) by omega]
  · rw [show a + 1 + i = a + (i + 1) by omega]
    exact reads.bytes (i + 1) x at_
  · have := reads.last
    rwa [List.length_cons, show a + (s.length + 1) = a + 1 + s.length by omega] at this

theorem digit_step {c : Byte} (digit : isDigit c = true) (k : Nat) :
    BitVec.ofNat 32 k * 10 + c.setWidth 32 - 48 = BitVec.ofNat 32 (k * 10 + (c.toNat - 48)) := by
  unfold isDigit at digit
  rw [Bool.and_eq_true, decide_eq_true_iff, decide_eq_true_iff] at digit
  have ten : (10 : BitVec 32).toNat = 10 := rfl
  have zero : (48 : BitVec 32).toNat = 48 := rfl
  apply BitVec.eq_of_toNat_eq
  simp only [BitVec.toNat_sub, BitVec.toNat_add, BitVec.toNat_mul, BitVec.toNat_ofNat,
    BitVec.toNat_setWidth, ten, zero]
  omega

theorem atoiLoop_spec (digits : ∀ c ∈ s, isDigit c = true) :
    ∀ {left a : Nat} {front : List Byte}, Reads u a s →
    s.length < left →
    atoiLoop u left a (BitVec.ofNat 32 (value 10 (front.map fun c => c.toNat - 48))) =
      some (BitVec.ofNat 32 (value 10 ((front ++ s).map fun c => c.toNat - 48))) := by
  induction s with
  | nil =>
    intro left a front reads room
    obtain _ | left := left
    · omega
    rw [atoiLoop, reads.load]
    show (if isDigit (u.byte a) = true then _ else _) = _
    have last : isDigit (u.byte a) = false := reads.last
    rw [last, if_neg Bool.false_ne_true, List.append_nil]
    rfl
  | cons c s ih =>
    intro left a front reads room
    obtain _ | left := left
    · omega
    obtain ⟨isC, rest⟩ := reads.cons
    have digit := digits c List.mem_cons_self
    rw [atoiLoop, reads.load, isC]
    show (if isDigit c = true then _ else _) = _
    have next := @ih (fun x member => digits x (List.mem_cons_of_mem _ member)) left (a + 1)
      (front ++ [c]) rest
      (by rw [List.length_cons] at room; omega)
    rw [List.map_append, List.map_singleton, value_snoc] at next
    rw [if_pos digit, digit_step digit, next, List.append_assoc]
    rfl

/-- The number in memory at an address, in 32 bits: the digits there, possibly none, up to a byte
that is not a digit. -/
def NumberAt (u : UserMem) (a n : Nat) : Prop :=
  ∃ s, (∀ c ∈ s, isDigit c = true) ∧ Reads u a s ∧ value 10 (s.map fun c => c.toNat - 48) % 2 ^ 32 =
    n

/-- Where the loop of `atoi` ends, it has read digits and a byte that is none. -/
theorem atoiLoop_reads : ∀ {left a : Nat} {k n : BitVec 32}, atoiLoop u left a k = some n →
    ∃ s, (∀ c ∈ s, isDigit c = true) ∧ Reads u a s := by
  intro left
  induction left with
  | zero => exact nofun
  | succ left ih =>
    intro a k n done
    obtain ⟨c, load, rest⟩ := Option.bind_eq_some_iff.mp done
    obtain ⟨walks, rfl⟩ := of_guard load
    have here : u.Accessible a := UserMem.walkaddr_iff.mp walks
    split_ifs at rest with digit
    · obtain ⟨s, digits, reads⟩ := ih rest
      have move : ∀ i, a + (i + 1) = a + 1 + i := fun i => by omega
      refine ⟨u.byte a :: s, fun c member => ?_, fun i le => ?_, fun i c at_ => ?_, ?_⟩
      · rcases List.mem_cons.mp member with rfl | later
        · exact digit
        · exact digits c later
      · cases i with
        | zero => exact here
        | succ i => exact move i ▸ reads.accessible i (Nat.le_of_succ_le_succ le)
      · cases i with
        | zero => exact Option.some.inj at_
        | succ i => exact move i ▸ reads.bytes i c at_
      · rw [List.length_cons, move]
        exact reads.last
    · refine ⟨[], nofun, fun i le => ?_, fun i c at_ => (nomatch at_), Bool.eq_false_iff.mpr digit⟩
      rwa [Nat.le_zero.mp le]

/-- **`atoi`** gives the number, in 32 bits, and faults if there is none. -/
theorem atoi_eq_some {k : BitVec 32} : atoi u a = some k ↔ NumberAt u a k.toNat := by
  have gives : ∀ {s : List Byte}, (∀ c ∈ s, isDigit c = true) → Reads u a s →
      atoi u a = some (BitVec.ofNat 32 (value 10 (s.map fun c => c.toNat - 48))) := by
    intro s digits reads
    have below : a + s.length < MAXVA := (reads.accessible _ (Nat.le_refl _)).1
    exact @atoiLoop_spec u s digits (MAXVA - a) a [] reads (by omega)
  constructor
  · intro done
    obtain ⟨s, digits, reads⟩ := atoiLoop_reads done
    obtain rfl := Option.some.inj ((gives digits reads).symm.trans done)
    exact ⟨s, digits, reads, (BitVec.toNat_ofNat _ _).symm⟩
  · rintro ⟨s, digits, reads, isN⟩
    rw [gives digits reads]
    exact congrArg some (BitVec.eq_of_toNat_eq ((BitVec.toNat_ofNat _ _).trans isN))

end Numbers

/-! ### `main` -/

section Main

variable {u : UserMem} {low high sp n : Nat} {name s : List Byte} {ptrs : List Nat}

/-- With one argument, `argv[2]` is a null pointer: `main` calls `sleep` with the number at address
0. -/
theorem sleepMain_spec (args : ArgStack u.byte low high sp [name, s] ptrs)
    (accessible : ∀ a, low ≤ a → a < high → u.Accessible a) : sleepMain u 2 sp = match atoi u 0 with
      | some ticks => .sleep ticks
      | none => .fault := by
  have array := args.inside _ List.mem_cons_self
  dsimp only [List.length_cons, List.length_nil] at array
  have null : loadPtr u (sp + 2 * 8) = some 0 := by
    unfold loadPtr
    rw [if_pos (UserMem.walkaddr_iff.mpr (accessible _ (by omega) (by omega)))]
    exact congrArg some args.last
  rw [sleepMain, if_neg (not_not_intro rfl), null]
  rfl

end Main

/-! ### Every schedule -/

/-- The system call has been entered with the argument. -/
def SleepPc.Calls : SleepPc → BitVec 32 → Prop
  | .trap n, k => n = k
  | .held n _, k => n = k
  | .passed n _, k => n = k
  | .asleep n _, k => n = k
  | .woken n _, k => n = k
  | _, _ => False

/-- What holds in every state when `main` calls `sleep` with `n`. -/
def SleepState.Inv (n : BitVec 32) (s : SleepState) : Prop :=
  match s.pc with
  | .main => True
  | .trap k => k = n
  | .held k ticks0 => k = n ∧ s.ticks = ticks0 + BitVec.ofNat 32 s.since
  | .passed k ticks0 => k = n ∧ s.ticks = ticks0 + BitVec.ofNat 32 s.since
  | .asleep k ticks0 => k = n ∧ s.ticks = ticks0 + BitVec.ofNat 32 s.since
  | .woken k ticks0 => k = n ∧ s.ticks = ticks0 + BitVec.ofNat 32 s.since
  | .back r => r = -1 ∨ r = 0 ∧ n.toNat ≤ s.since
  | .user r => r = -1 ∨ r = 0 ∧ n.toNat ≤ s.since
  | .exited status => status = 0 → n.toNat ≤ s.since

section Runs

variable {u : UserMem} {argc : Int} {argv : Nat} {n : BitVec 32} {s t : SleepState}

theorem SleepState.Inv.wake (inv : s.Inv n) (killed : Bool) :
    SleepState.Inv n { s with killed, pc := s.pc.wake } := by
  obtain ⟨ticks, _, pc, since⟩ := s
  cases pc <;> exact inv

theorem SleepState.Inv.clock (inv : s.Inv n) (unlocked : s.pc.locks = false) :
    SleepState.Inv n { s with ticks := s.ticks + 1, since := s.since + 1, pc := s.pc.wake } := by
  obtain ⟨ticks, killed, pc, since⟩ := s
  have counted : ∀ {ticks0 : BitVec 32}, ticks = ticks0 + BitVec.ofNat 32 since →
      ticks + 1 = ticks0 + BitVec.ofNat 32 (since + 1) := by
    rintro ticks0 rfl
    rw [BitVec.ofNat_add, BitVec.add_assoc]
    rfl
  cases pc with
  | main => exact True.intro
  | trap k => exact inv
  | held | passed => cases unlocked
  | asleep k ticks0 | woken k ticks0 => exact ⟨inv.1, counted inv.2⟩
  | back r | user r => exact inv.imp_right fun zero => ⟨zero.1, Nat.le_succ_of_le zero.2⟩
  | exited status => exact fun zero => Nat.le_succ_of_le (inv zero)

theorem SleepState.Inv.run (calls : sleepMain u argc argv = .sleep n) (inv : s.Inv n)
    (step : s.run u argc argv = some t) : t.Inv n := by
  obtain ⟨ticks, killed, pc, since⟩ := s
  unfold SleepState.run at step
  cases pc with
  | main =>
    rw [calls] at step
    cases step
    exact rfl
  | trap k =>
    dsimp only at step
    split at step
    · cases step
      exact nofun
    · cases step
      exact ⟨inv, (BitVec.add_zero _).symm⟩
  | held k ticks0 =>
    obtain ⟨rfl, counted⟩ := inv
    dsimp only at step counted
    by_cases early : ticks - ticks0 < k
    · rw [if_pos early] at step
      split at step
      · cases step
        exact .inl rfl
      · cases step
        exact ⟨rfl, counted⟩
    · rw [if_neg early] at step
      cases step
      -- `ticks - ticks0` is the number of clock interrupts modulo 2³²
      have passed : k.toNat ≤ since := by
        rw [counted, BitVec.add_comm, BitVec.add_sub_cancel, BitVec.lt_def,
          BitVec.toNat_ofNat] at early
        exact Nat.le_trans (Nat.le_of_not_lt early) (Nat.mod_le _ _)
      exact .inr ⟨rfl, passed⟩
  | passed k ticks0 | woken k ticks0 =>
    cases step
    exact inv
  | asleep => cases step
  | back r =>
    cases step
    cases killed with
    | true => exact nofun
    | false => exact inv
  | user r =>
    cases step
    cases killed with
    | true => exact nofun
    | false =>
      rcases inv with rfl | ⟨rfl, passed⟩
      · exact nofun
      · exact fun _ => passed
  | exited => cases step

/-- **Every schedule**: a state of a run satisfies the invariant. -/
theorem sleeping_inv (calls : sleepMain u argc argv = .sleep n) {ticks : BitVec 32}
    {trace : List SleepEvent} (run : SleepRun u argc argv ticks trace t) : t.Inv n := by
  have initial : SleepState.Inv n (.start ticks) := True.intro
  refine Run.inv (P := SleepState.Inv n) initial (fun {s t e} inv step => ?_) run
  cases e with
  | clock =>
    unfold SleepState.step at step
    dsimp only at step
    split at step
    · cases step
    · next unlocked =>
      cases step
      exact inv.clock (Bool.eq_false_iff.mpr unlocked)
  | wakeup =>
    cases step
    exact inv.wake s.killed
  | kill =>
    cases step
    exact inv.wake true
  | interrupt =>
    unfold SleepState.step at step
    dsimp only at step
    split at step
    · cases step
      exact nofun
    · cases step
      exact inv
  | run => exact inv.run calls step

theorem SleepState.Inv.calls (inv : s.Inv n) {k : BitVec 32} (calls : s.pc.Calls k) : k = n := by
  obtain ⟨ticks, killed, pc, since⟩ := s
  cases pc with
  | trap => exact calls.symm.trans inv
  | held | passed | asleep | woken => exact calls.symm.trans inv.1
  | main | back | user | exited => exact calls.elim

theorem SleepState.Inv.exited (inv : s.Inv n) (exited : s.pc = .exited 0) : n.toNat ≤ s.since := by
  unfold SleepState.Inv at inv
  rw [exited] at inv
  exact inv rfl

end Runs

/-! ### The program with its argument -/

/-- The program sleeps for `n` ticks, on every schedule: `main` calls the system call with `n`, and
exits with status 0 only after that many clock interrupts. When the system call returns 0, `ticks`
has advanced by that number modulo 2³². -/
structure SleepsFor (u : UserMem) (sp n : Nat) (ticks : BitVec 32) : Prop where
  calls : sleepMain u 2 sp = .sleep (BitVec.ofNat 32 n)
  argument : ∀ {trace t}, SleepRun u 2 sp ticks trace t → ∀ {k}, t.pc.Calls k → k.toNat = n
  waits : ∀ {trace t}, SleepRun u 2 sp ticks trace t → t.pc = .exited 0 → n ≤ t.since
  advances : ∀ {trace t}, SleepRun u 2 sp ticks trace t → ∀ {k ticks0}, t.pc = .held k ticks0 →
    t.run u 2 sp = some { t with pc := .back 0 } → n ≤ (t.ticks - ticks0).toNat

/-- **`sleep` sleeps for `n` ticks** exactly if the memory of the program starts with the number
`n`, whatever the argument is. -/
theorem sleep_sleeps {u : UserMem} {low high sp n : Nat} {name s : List Byte} {ptrs : List Nat}
    (args : ArgStack u.byte low high sp [name, s] ptrs)
    (accessible : ∀ a, low ≤ a → a < high → u.Accessible a) (small : n < 2 ^ 31)
    (ticks : BitVec 32) : SleepsFor u sp n ticks ↔ NumberAt u 0 n := by
  have isN : (BitVec.ofNat 32 n).toNat = n := by
    rw [BitVec.toNat_ofNat, Nat.mod_eq_of_lt (by omega)]
  have called : sleepMain u 2 sp = .sleep (BitVec.ofNat 32 n) ↔ NumberAt u 0 n := by
    rw [sleepMain_spec args accessible]
    nth_rewrite 2 [← isN]
    rw [← atoi_eq_some]
    cases atoi u 0 <;> simp
  refine ⟨fun sleeps => called.mp sleeps.calls, fun number => ?_⟩
  have calls := called.mpr number
  refine ⟨calls, fun {trace t} run {k} isCall => ?_, fun {trace t} run exited => ?_,
    fun {trace t} run {k ticks0} held returns => ?_⟩
  · rw [(sleeping_inv calls run).calls isCall, isN]
  · rw [← isN]
    exact (sleeping_inv calls run).exited exited
  · have isK : k = BitVec.ofNat 32 n := (sleeping_inv calls run).calls (by rw [held]; rfl)
    rw [← isN, ← isK]
    by_contra early
    have less : t.ticks - ticks0 < k := BitVec.lt_def.mpr (Nat.lt_of_not_le early)
    unfold SleepState.run at returns
    rw [held] at returns
    dsimp only at returns
    rw [if_pos less] at returns
    split at returns
    · cases congrArg SleepState.pc (Option.some.inj returns)
    · cases congrArg SleepState.pc (Option.some.inj returns)

/-- The stack of `sleep 5`. -/
def sleepStack : Memory :=
  Memory.setLe 8 (Memory.setLe 8 (Memory.setLe 8
    (Memory.write (Memory.write (fun _ => 0) 0x2ff0 ("sleep".toList.map chr)) 0x2fe0 [chr '5'])
    0x2fc0 0x2ff0) 0x2fc8 0x2fe0) 0x2fd0 0

theorem sleepStack_args :
    ArgStack sleepStack 0x2000 0x3000 0x2fc0 ["sleep".toList.map chr, [chr '5']]
      [0x2ff0, 0x2fe0] := by
  refine ⟨by decide, rfl, fun i ptr at_ => ?_, by decide +kernel, fun i ptr arg isPtr isArg => ?_,
    by decide, by decide⟩
  · match i with
    | 0 =>
      obtain rfl : 0x2ff0 = ptr := Option.some.inj at_
      decide +kernel
    | 1 =>
      obtain rfl : 0x2fe0 = ptr := Option.some.inj at_
      decide +kernel
    | _ + 2 => cases at_
  · match i with
    | 0 =>
      obtain rfl : 0x2ff0 = ptr := Option.some.inj isPtr
      obtain rfl : "sleep".toList.map chr = arg := Option.some.inj isArg
      decide +kernel
    | 1 =>
      obtain rfl : 0x2fe0 = ptr := Option.some.inj isPtr
      obtain rfl : [chr '5'] = arg := Option.some.inj isArg
      decide +kernel
    | _ + 2 => cases isPtr

/-- A process with this stack and a program that starts with a byte. -/
def sleepMem (first : Byte) : UserMem where
  mapped v := v = 0 || v = 2
  byte := update sleepStack 0 first

theorem sleepMem_args (first : Byte) :
    ArgStack (sleepMem first).byte 0x2000 0x3000 0x2fc0 ["sleep".toList.map chr, [chr '5']]
      [0x2ff0, 0x2fe0] :=
  sleepStack_args.congr fun _ _ _ => update_of_ne (by omega) _ _

theorem sleepMem_accessible (first : Byte) (a : Nat) (low : 0x2000 ≤ a) (high : a < 0x3000) :
    (sleepMem first).Accessible a := by
  have page : a / PGSIZE = 2 := by
    unfold PGSIZE
    omega
  refine ⟨Nat.lt_trans high (by decide), ?_⟩
  rw [page]
  rfl

theorem decimal_five : Decimal [chr '5'] 5 := ⟨List.cons_ne_nil _ _, by decide, by decide⟩

theorem sleepMem_start (first : Byte) : Reads (sleepMem first) 0 [first] := by
  refine ⟨fun i le => ?_, fun i c at_ => ?_, ?_⟩
  · have : i ≤ 1 := le
    obtain rfl | rfl : i = 0 ∨ i = 1 := by omega
    · exact ⟨by decide, rfl⟩
    · exact ⟨by decide, rfl⟩
  · match i with
    | 0 => exact Option.some.inj at_
    | _ + 1 => cases at_
  · show isDigit (update sleepStack 0 first 1) = false
    rw [update_of_ne (by decide)]
    decide +kernel

/-- A program that starts with its argument, shortly before `ticks` wraps. -/
theorem sleep_sleeps_five : SleepsFor (sleepMem (chr '5')) 0x2fc0 5 (-1) :=
  (sleep_sleeps (sleepMem_args _) (sleepMem_accessible _) (by decide) (-1)).mpr
    ⟨[chr '5'], decimal_five.digits, sleepMem_start _, by decide⟩

/-- **`sleep 5` with an ordinary program**: `main` reads its own first instruction and not the
argument, the system call is for 0 ticks, and the program exits with status 0 without a clock
interrupt. -/
theorem sleep_returns :
    ArgStack (sleepMem 0x41).byte 0x2000 0x3000 0x2fc0 ["sleep".toList.map chr, [chr '5']]
    [0x2ff0, 0x2fe0] ∧
    (∀ a, 0x2000 ≤ a → a < 0x3000 → (sleepMem 0x41).Accessible a) ∧ Decimal [chr '5'] 5 ∧
    sleepMain (sleepMem 0x41) 2 0x2fc0 = .sleep 0 ∧
    ∃ t, SleepRun (sleepMem 0x41) 2 0x2fc0 0 [.run, .run, .run, .run, .run] t ∧ t.pc = .exited 0 ∧
      t.since = 0 := by
  refine ⟨sleepMem_args _, sleepMem_accessible _, decimal_five, by decide +kernel, ?_⟩
  obtain ⟨t, run, seen⟩ := @run_of_observed _ _ _ (SleepState.step (sleepMem 0x41) 2 0x2fc0)
    (fun t : SleepState => (t.pc, t.since)) [.run, .run, .run, .run, .run] (.start 0) (.exited 0, 0)
    (by decide +kernel)
  exact ⟨t, run, congrArg Prod.fst seen, congrArg Prod.snd seen⟩

end Xv6.User
