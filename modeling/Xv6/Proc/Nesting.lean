/-
**Interrupts and the nesting of `push_off`** (`kernel/spinlock.c`; `sched` and `scheduler` in
`kernel/proc.c`).

Any number of CPUs, each of which runs its scheduler or the kernel thread of a process. `noff` and
`intena` are fields of the CPU, but a thread that calls `sched` may go on elsewhere: `sched` keeps
`intena` on the stack of the thread, and both it and the scheduler switch with one lock, `p->lock`,
that the other side releases. Locks are released in any order. `acquire` is two steps: `push_off`,
and the lock when it is free.

A CPU changes the interrupt flag by itself only where `noff` is 0: the scheduler's `intr_on`, traps
and returns from them.

`direct`, `locks` and `opened` are not in the source: the calls of `push_off` and `acquire` that are
still unmatched, and the flag at the outermost `push_off` of a thread.
-/

import Xv6.Lib.Run

set_option linter.unusedSectionVars false

namespace Xv6.Nesting

open Lib Function

/-! ### The program -/

inductive NestPanic
  | acquire
  | release
  /-- `panic("pop_off - interruptible")` -/
  | popOffInterruptible
  | popOff
  /-- `panic("sched p->lock")` -/
  | schedLock
  /-- `panic("sched locks")` -/
  | schedLocks
  | schedRunning
  | schedInterruptible

structure Cpu (L P : Type) where
  /-- Depth of push_off() nesting. -/
  noff : Int
  /-- Were interrupts enabled before push_off()? -/
  intena : Bool
  /-- `intr_get()` -/
  intr : Bool
  /-- the process whose thread runs; `none` is the scheduler -/
  thread : Option P
  /-- the lock that the loop of `acquire` waits for -/
  spins : Option L
  direct : Nat
  locks : List L

/-- Where a thread that does not run goes on. -/
inductive Context
  | forkret
  /-- in `sched`, with its local `intena` -/
  | sched (intena : Bool)
  deriving DecidableEq

structure Nest (C L P : Type) where
  cpu : C → Cpu L P
  /-- `lk->cpu`, while `lk->locked` -/
  holder : L → Option C
  /-- `p->state == RUNNING` -/
  running : P → Bool
  /-- `p->context`, while the thread does not run -/
  context : P → Option Context
  opened : P → Option Bool

inductive NestEvent (C L P : Type)
  | pushOff (c : C)
  | popOff (c : C)
  /-- `acquire`, up to the loop -/
  | acquire (c : C) (l : L)
  /-- the loop of `acquire` ends -/
  | take (c : C) (l : L)
  | release (c : C) (l : L)
  | setIntr (c : C) (flag : Bool)
  | setState (p : P) (running : Bool)
  /-- `allocproc` -/
  | fork (p : P)
  | sched (c : C) (p : P)
  /-- `swtch` in `scheduler`, to where the thread goes on -/
  | swtch (c : C) (p : P) (r : Context)

variable {C L P : Type} {e : NestEvent C L P}

def Cpu.pushOff (k : Cpu L P) : Cpu L P :=
  { k with noff := k.noff + 1, intena := if k.noff = 0 then k.intr else k.intena, intr := false }

def Cpu.popOff (k : Cpu L P) : Except NestPanic (Cpu L P) :=
  if k.intr = true then .error .popOffInterruptible
  else if k.noff < 1 then .error .popOff
  else .ok { k with noff := k.noff - 1, intr := if k.noff - 1 = 0 ∧
    k.intena = true then true else k.intr }

namespace Nest

variable [DecidableEq C] [DecidableEq L] [DecidableEq P]

def setCpu (s : Nest C L P) (c : C) (k : Cpu L P) : Nest C L P := { s with cpu := update s.cpu c k }

/-- The thread of `c` calls `push_off`. -/
def opens (s : Nest C L P) (c : C) (p : P) : Option Bool :=
  if (s.cpu c).thread = some p ∧ (s.cpu c).noff = 0 then some (s.cpu c).intr else s.opened p

def next (s : Nest C L P) (plock : P → L) : NestEvent C L P → Except NestPanic (Nest C L P)
  | .pushOff c =>
    .ok { s.setCpu c { (s.cpu c).pushOff with direct := (s.cpu c).direct + 1 } with
      opened := s.opens c }
  | .popOff c => do
    let k ← (s.cpu c).popOff
    return s.setCpu c { k with direct := k.direct - 1 }
  | .acquire c l =>
    let t := s.setCpu c { (s.cpu c).pushOff with locks := l :: (s.cpu c).locks, spins := some l }
    if s.holder l = some c then .error .acquire else .ok { t with opened := s.opens c }
  | .take c l =>
    .ok { s.setCpu c { s.cpu c with spins := none } with holder := update s.holder l (some c) }
  | .release c l => do
    if s.holder l ≠ some c then throw .release
    let k ← (s.cpu c).popOff
    return { s.setCpu c { k with locks := k.locks.erase l } with holder := update s.holder l none }
  | .setIntr c flag => .ok (s.setCpu c { s.cpu c with intr := flag })
  | .setState p running => .ok { s with running := update s.running p running }
  | .fork p =>
    .ok { s with context := update s.context p (some .forkret), opened := update s.opened p none }
  | .sched c p =>
    if s.holder (plock p) ≠ some c then .error .schedLock
    else if (s.cpu c).noff ≠ 1 then .error .schedLocks
    else if s.running p = true then .error .schedRunning
    else if (s.cpu c).intr = true then .error .schedInterruptible
    else .ok { s.setCpu c { s.cpu c with thread := none } with
      context := update s.context p (some (.sched (s.cpu c).intena)) }
  | .swtch c p r =>
    -- a thread in `sched` stores its `intena` as soon as it goes on
    let intena := match r with
      | .sched intena => intena
      | .forkret => (s.cpu c).intena
    .ok { s.setCpu c { s.cpu c with thread := some p, intena := intena } with
      context := update s.context p none
      running := update s.running p true }

/-- The CPU holds one lock, and is not in a section of `push_off`. -/
def HoldsOnly (s : Nest C L P) (c : C) (l : L) : Prop :=
  (s.cpu c).direct = 0 ∧ (s.cpu c).locks = [l]

/-- When a step is taken: `pop_off` and `release` match an earlier call, and a switch is from a
context with one lock to a context that waits. -/
def Enabled (s : Nest C L P) (plock : P → L) : NestEvent C L P → Prop
  | .pushOff c | .acquire c _ => (s.cpu c).spins = none
  | .popOff c => (s.cpu c).spins = none ∧ 0 < (s.cpu c).direct
  | .take c l => (s.cpu c).spins = some l ∧ s.holder l = none
  | .release c l => (s.cpu c).spins = none ∧ l ∈ (s.cpu c).locks
  | .setIntr c _ => (s.cpu c).spins = none ∧ (s.cpu c).noff = 0
  | .setState _ _ => True
  | .fork p => ∀ c, (s.cpu c).thread ≠ some p
  | .sched c p => (s.cpu c).spins = none ∧ (s.cpu c).thread = some p ∧ s.HoldsOnly c (plock p)
  | .swtch c p r => (s.cpu c).spins = none ∧ (s.cpu c).thread = none ∧ s.HoldsOnly c (plock p) ∧
    s.context p = some r

def Step (plock : P → L) (s : Nest C L P) (e : NestEvent C L P) (t : Nest C L P) : Prop :=
  s.Enabled plock e ∧ s.next plock e = .ok t

instance [Fintype C] (s : Nest C L P) (plock : P → L) (e : NestEvent C L P) :
    Decidable (s.Enabled plock e) := by
  cases e <;> unfold Enabled HoldsOnly <;> infer_instance

def exec [Fintype C] (plock : P → L) (s : Nest C L P) (e : NestEvent C L P) : Option (Nest C L P) :=
  if s.Enabled plock e then (s.next plock e).toOption else none

theorem Step.of_exec [Fintype C] {plock : P → L} {s t : Nest C L P}
    (done : exec plock s e = some t) : Step plock s e t := by
  obtain ⟨can, done⟩ := Option.ite_none_right_eq_some.mp done
  cases made : s.next plock e with
  | error x => rw [made] at done; cases done
  | ok u => rw [made] at done; cases done; exact ⟨can, made⟩

/-- Every CPU at the start of `scheduler`, without processes. -/
def initial : Nest C L P where
  cpu := fun _ => ⟨0, false, false, none, none, 0, []⟩
  holder := fun _ => none
  running := fun _ => false
  context := fun _ => none
  opened := fun _ => none

end Nest

/-! ### One CPU -/

structure CpuOk (holder : L → Option C) (c : C) (k : Cpu L P) : Prop where
  off : 0 < k.noff → k.intr = false
  count : k.noff = k.direct + k.locks.length
  nodup : k.locks.Nodup
  held : ∀ l ∈ k.locks, holder l = some c ∨ k.spins = some l
  waits : ∀ l, k.spins = some l → l ∈ k.locks ∧ holder l ≠ some c

namespace CpuOk

variable {holder holder' : L → Option C} {c : C} {k : Cpu L P} {l : L}

theorem congr (ok : CpuOk holder c k) (same : ∀ l, holder' l = some c ↔ holder l = some c) :
    CpuOk holder' c k where
  off := ok.off
  count := ok.count
  nodup := ok.nodup
  held l member := (ok.held l member).imp_left (same l).mpr
  waits l spins := ⟨(ok.waits l spins).1, fun mine => (ok.waits l spins).2 ((same l).mp mine)⟩

theorem holds (ok : CpuOk holder c k) (free : k.spins = none) (member : l ∈ k.locks) :
    holder l = some c :=
  (ok.held l member).resolve_right fun spins => nomatch free.symm.trans spins

theorem pushOff (ok : CpuOk holder c k) :
    CpuOk holder c { k.pushOff with direct := k.direct + 1 } where
  off _ := rfl
  count := by
    have := ok.count
    simp only [Cpu.pushOff]
    omega
  nodup := ok.nodup
  held := ok.held
  waits := ok.waits

theorem acquire (ok : CpuOk holder c k) (free : k.spins = none) (other : holder l ≠ some c) :
    CpuOk holder c { k.pushOff with locks := l :: k.locks, spins := some l } where
  off _ := rfl
  count := by
    have := ok.count
    simp only [Cpu.pushOff, List.length_cons]
    omega
  nodup := List.nodup_cons.mpr ⟨fun member => other (ok.holds free member), ok.nodup⟩
  held l' member := (List.mem_cons.mp member).symm.imp (ok.holds free)
    fun same => congrArg some same.symm
  waits l' spins := by
    cases spins
    exact ⟨List.mem_cons_self, other⟩

theorem popOff_eq (ok : CpuOk holder c k) (pushed : 0 < k.noff) : k.popOff = .ok { k with
    noff := k.noff - 1, intr := if k.noff - 1 = 0 ∧ k.intena = true then true else k.intr } := by
  rw [Cpu.popOff, if_neg (by simp [ok.off pushed]), if_neg (by omega)]

theorem popOff {k' : Cpu L P} (ok : CpuOk holder c k) (pushed : 0 < k.direct)
    (popped : k.popOff = .ok k') : CpuOk holder c { k' with direct := k'.direct - 1 } := by
  have count := ok.count
  rw [ok.popOff_eq (by omega)] at popped
  cases popped
  refine ⟨fun more => ?_, by simp only; omega, ok.nodup, ok.held, ok.waits⟩
  simp only at more ⊢
  rw [if_neg (by omega), ok.off (by omega)]

variable [DecidableEq L]

theorem take (ok : CpuOk holder c k) (spins : k.spins = some l) :
    CpuOk (update holder l (some c)) c { k with spins := none } where
  off := ok.off
  count := ok.count
  nodup := ok.nodup
  held l' member := by
    refine .inl (update_ind rfl fun same => (ok.held l' member).resolve_right fun other => same ?_)
    exact Option.some_inj.mp (other.symm.trans spins)
  waits := nofun

theorem release {k' : Cpu L P} (ok : CpuOk holder c k) (free : k.spins = none)
    (member : l ∈ k.locks) (popped : k.popOff = .ok k') :
    CpuOk (update holder l none) c { k' with locks := k'.locks.erase l } := by
  have count := ok.count
  have positive := List.length_pos_of_mem member
  rw [ok.popOff_eq (by omega)] at popped
  cases popped
  refine ⟨fun more => ?_, ?_, ok.nodup.erase l, fun l' rest => .inl ?_,
    fun l' spins => nomatch free.symm.trans spins⟩
  · simp only at more ⊢
    rw [if_neg (by omega), ok.off (by omega)]
  · simp only [List.length_erase_of_mem member]
    omega
  · obtain ⟨different, before⟩ := ok.nodup.mem_erase_iff.mp rest
    rw [update_of_ne different]
    exact ok.holds free before

end CpuOk

/-! ### Threads -/

section Threads

variable [DecidableEq C] [DecidableEq P] {cpu : C → Cpu L P} {context : P → Option Context}
  {opened opened' : P → Option Bool} {c : C} {k : Cpu L P} {p : P}

/-- A thread runs in one place, and while it is in a section its `intena` is the flag it started
with. -/
structure ThreadOk (cpu : C → Cpu L P) (context : P → Option Context) (opened : P → Option Bool) :
    Prop where
  alone : ∀ c p, (cpu c).thread = some p → context p = none ∧ ∀ d, (cpu d).thread = some p → d = c
  intena : ∀ c p b, (cpu c).thread = some p → 0 < (cpu c).noff → opened p = some b →
    (cpu c).intena = b
  saved : ∀ p r b, context p = some r → opened p = some b → r = .sched b

namespace ThreadOk

theorem goOn (ok : ThreadOk cpu context opened) (thread : k.thread = (cpu c).thread)
    (others : ∀ p, (cpu c).thread ≠ some p → opened' p = opened p)
    (here : ∀ p b, (cpu c).thread = some p → 0 < k.noff → opened' p = some b → k.intena = b) :
    ThreadOk (update cpu c k) context opened' := by
  have threads : ∀ d, (update cpu c k d).thread = (cpu d).thread := fun d => update_ind thread
    fun _ => rfl
  refine ⟨fun d p runs => ?_, fun d p b runs pushed isOpen => ?_, fun p r b waits isOpen => ?_⟩
  · simp only [threads] at runs ⊢
    exact ok.alone d p runs
  · rw [threads] at runs
    revert runs pushed
    refine update_ind (fun runs pushed => here p b runs pushed isOpen) fun other runs pushed => ?_
    exact ok.intena d p b runs pushed
      (others p (fun also => other ((ok.alone c p also).2 d runs)) ▸ isOpen)
  · exact ok.saved p r b waits
      (others p (fun runs => nomatch (ok.alone c p runs).1.symm.trans waits) ▸ isOpen)

theorem fork (ok : ThreadOk cpu context opened) (idle : ∀ c, (cpu c).thread ≠ some p) :
    ThreadOk cpu (update context p (some .forkret)) (update opened p none) := by
  have other : ∀ c q, (cpu c).thread = some q → q ≠ p := fun c q runs same => idle c (same ▸ runs)
  refine ⟨fun c q runs => ?_, fun c q b runs pushed isOpen => ?_, fun q r b waits isOpen => ?_⟩
  · rw [update_of_ne (other c q runs)]
    exact ok.alone c q runs
  · exact ok.intena c q b runs pushed ((update_of_ne (other c q runs) _ _).symm.trans isOpen)
  · obtain ⟨other, isOpen⟩ := of_update_eq isOpen nofun
    exact ok.saved q r b ((update_of_ne other _ _).symm.trans waits) isOpen

theorem sched (ok : ThreadOk cpu context opened) (runs : (cpu c).thread = some p)
    (pushed : 0 < (cpu c).noff) (scheduler : k.thread = none) :
    ThreadOk (update cpu c k) (update context p (some (.sched (cpu c).intena))) opened := by
  -- a thread that still runs is another one, on another CPU
  have before : ∀ d q, (update cpu c k d).thread = some q → d ≠ c ∧ (cpu d).thread = some q ∧
    q ≠ p := by
    refine fun d q => update_ind (fun still => nomatch scheduler.symm.trans still)
      fun here still => ?_
    exact ⟨here, still, fun same => here ((ok.alone c p runs).2 d (same ▸ still))⟩
  refine ⟨fun d q still => ?_, fun d q b still inside isOpen => ?_, fun q r b waits isOpen => ?_⟩
  · obtain ⟨-, old, other⟩ := before d q still
    refine ⟨(update_of_ne other _ _).trans (ok.alone d q old).1, fun e also => ?_⟩
    exact (ok.alone d q old).2 e (before e q also).2.1
  · obtain ⟨here, old, -⟩ := before d q still
    rw [update_of_ne here] at inside ⊢
    exact ok.intena d q b old inside isOpen
  · revert waits isOpen
    refine update_ind (fun waits isOpen => ?_) fun _ => ok.saved q r b
    rw [← Option.some_inj.mp waits, ok.intena c p b runs pushed isOpen]

theorem swtch {r : Context} (ok : ThreadOk cpu context opened) (waits : context p = some r)
    (thread : k.thread = some p) (restored : ∀ b, r = .sched b → k.intena = b) :
    ThreadOk (update cpu c k) (update context p none) opened := by
  have before : ∀ d q, (update cpu c k d).thread = some q →
      d = c ∧ q = p ∨ d ≠ c ∧ (cpu d).thread = some q ∧ q ≠ p := by
    intro d q
    refine update_ind (fun runs => .inl ⟨rfl, Option.some_inj.mp (runs.symm.trans thread)⟩)
      fun here runs => ?_
    refine .inr ⟨here, runs, ?_⟩
    rintro rfl
    exact nomatch (ok.alone d q runs).1.symm.trans waits
  refine ⟨fun d q runs => ?_, fun d q b runs inside isOpen => ?_, fun q r' b waits' isOpen => ?_⟩
  · rcases before d q runs with ⟨rfl, rfl⟩ | ⟨-, old, other⟩
    · refine ⟨update_self _ _ _, fun e also => ?_⟩
      exact ((before e q also).resolve_right fun elsewhere => elsewhere.2.2 rfl).1
    · refine ⟨(update_of_ne other _ _).trans (ok.alone d q old).1, fun e also => ?_⟩
      exact (ok.alone d q old).2 e ((before e q also).resolve_left fun here => other here.2).2.1
  · rcases before d q runs with ⟨rfl, rfl⟩ | ⟨here, old, -⟩
    · rw [update_self]
      exact restored b (ok.saved q r b waits isOpen)
    · rw [update_of_ne here] at inside ⊢
      exact ok.intena d q b old inside isOpen
  · exact ok.saved q r' b (of_update_eq waits' nofun).2 isOpen

end ThreadOk

end Threads

/-! ### Runs -/

/-- A step of a CPU leaves no section, or the flag is what `intena` keeps when it leaves the last
one. -/
def Moves (k k' : Cpu L P) : Prop := k.noff ≤ k'.noff ∨ (k'.noff = 0 → k'.intr = k.intena)

structure NestInv (s : Nest C L P) : Prop where
  cpus : ∀ c, CpuOk s.holder c (s.cpu c)
  threads : ThreadOk s.cpu s.context s.opened

namespace NestInv

variable [DecidableEq C] {s t : Nest C L P} {c : C} {k : Cpu L P} {p : P} {l : L}

theorem change (inv : NestInv s) (cpu : t.cpu = update s.cpu c k) (ok : CpuOk t.holder c k)
    (others : ∀ d ≠ c, ∀ l, t.holder l = some d ↔ s.holder l = some d) (moves : Moves (s.cpu c) k)
    (threads : ThreadOk (update s.cpu c k) t.context t.opened) :
    NestInv t ∧ ∀ d, Moves (s.cpu d) (t.cpu d) := by
  refine ⟨⟨?_, cpu ▸ threads⟩, ?_⟩ <;> rw [cpu]
  · exact fun d => update_ind ok fun other => (inv.cpus d).congr (others d other)
  · exact fun d => update_ind moves fun _ => .inl (Int.le_refl _)

variable [DecidableEq P]

theorem push (inv : NestInv s) (k : Cpu L P) (ok : CpuOk s.holder c k)
    (thread : k.thread = (s.cpu c).thread) (noff : k.noff = (s.cpu c).noff + 1)
    (intena : k.intena = if (s.cpu c).noff = 0 then (s.cpu c).intr else (s.cpu c).intena) :
    NestInv { s.setCpu c k with opened := s.opens c } ∧ ∀ d,
      Moves (s.cpu d) (update s.cpu c k d) := by
  refine inv.change rfl ok (fun _ _ _ => Iff.rfl) (.inl (by omega))
    (inv.threads.goOn thread (fun p other => ?_) ?_)
  · exact if_neg fun runs => other runs.1
  · intro p b runs _ isOpen
    have count := (inv.cpus c).count
    simp only [Nest.opens, runs, true_and] at isOpen
    rw [intena]
    split_ifs at isOpen ⊢ with first
    · exact Option.some_inj.mp isOpen
    · exact inv.threads.intena c p b runs (by omega) isOpen

theorem goOn (inv : NestInv s) (thread : k.thread = (s.cpu c).thread)
    (intena : k.intena = (s.cpu c).intena) (noff : k.noff ≤ (s.cpu c).noff) :
    ThreadOk (update s.cpu c k) s.context s.opened :=
  inv.threads.goOn thread (fun _ _ => rfl) fun p b runs inside isOpen =>
    intena.trans (inv.threads.intena c p b runs (by omega) isOpen)

variable [DecidableEq L] {plock : P → L}

theorem popOff (inv : NestInv s) (pushed : 0 < (s.cpu c).noff) : ∃ k, (s.cpu c).popOff = .ok k ∧
    k.thread = (s.cpu c).thread ∧ k.intena = (s.cpu c).intena ∧ k.noff ≤ (s.cpu c).noff ∧
    (k.noff = 0 → k.intr = (s.cpu c).intena) := by
  refine ⟨_, (inv.cpus c).popOff_eq pushed, rfl, rfl, by simp only; omega, fun last => ?_⟩
  simp only at last ⊢
  simp [last, (inv.cpus c).off pushed]

theorem next_release (inv : NestInv s) (can : s.Enabled plock (.release c l)) :
    ∃ k, (s.cpu c).popOff = .ok k ∧
    s.next plock (.release c l) =
      .ok { s.setCpu c { k with locks := k.locks.erase l } with
        holder := update s.holder l none } := by
  have count := (inv.cpus c).count
  have positive := List.length_pos_of_mem can.2
  obtain ⟨k, popped, -⟩ := inv.popOff (c := c) (by omega)
  refine ⟨k, popped, ?_⟩
  simp only [Nest.next, (inv.cpus c).holds can.1 can.2, popped, bind, Except.bind, ne_eq, not_true,
    if_false]
  rfl

theorem next_sched (inv : NestInv s) (can : s.Enabled plock (.sched c p)) :
    s.next plock (.sched c p) =
    if s.running p = true then .error .schedRunning
      else .ok { s.setCpu c { s.cpu c with thread := none } with
      context := update s.context p (some (.sched (s.cpu c).intena)) } := by
  obtain ⟨free, -, direct, locks⟩ := can
  have count := (inv.cpus c).count
  rw [direct, locks] at count
  have one : (s.cpu c).noff = 1 := count
  have mine :=
    (inv.cpus c).holds (l := plock p) free (by rw [locks]; exact List.mem_singleton_self _)
  simp only [Nest.next, mine, one, (inv.cpus c).off (by omega), ne_eq, not_true, Bool.false_eq_true,
    if_false]

theorem step (inv : NestInv s) (step : Nest.Step plock s e t) :
    NestInv t ∧ ∀ c, Moves (s.cpu c) (t.cpu c) := by
  obtain ⟨can, done⟩ := step
  cases e with
  | pushOff c =>
    cases done
    exact inv.push _ (inv.cpus c).pushOff rfl rfl rfl
  | popOff c =>
    have count := (inv.cpus c).count
    have pushed := can.2
    obtain ⟨k, popped, thread, intena, noff, last⟩ := inv.popOff (c := c) (by omega)
    simp only [Nest.next, popped, bind, Except.bind] at done
    cases done
    exact inv.change rfl ((inv.cpus c).popOff can.2 popped) (fun _ _ _ => Iff.rfl) (.inr last)
      (inv.goOn thread intena noff)
  | acquire c l =>
    rw [Nest.next] at done
    split_ifs at done with mine
    cases done
    exact inv.push _ ((inv.cpus c).acquire can mine) rfl rfl rfl
  | take c l =>
    cases done
    refine inv.change rfl ((inv.cpus c).take can.1) (fun d other l' => ?_) (.inl (Int.le_refl _))
      (inv.goOn rfl rfl (Int.le_refl _))
    show update s.holder l _ l' = some d ↔ _
    exact update_ind (by simp [can.2, Ne.symm other]) fun _ => Iff.rfl
  | release c l =>
    have mine := (inv.cpus c).holds can.1 can.2
    have count := (inv.cpus c).count
    have positive := List.length_pos_of_mem can.2
    obtain ⟨k, popped, eq⟩ := inv.next_release can
    obtain ⟨k', popped', thread, intena, noff, last⟩ := inv.popOff (c := c) (by omega)
    cases popped.symm.trans popped'
    cases eq.symm.trans done
    refine inv.change rfl ((inv.cpus c).release can.1 can.2 popped) (fun d other l' => ?_)
      (.inr last)
      (inv.goOn thread intena noff)
    show update s.holder l _ l' = some d ↔ _
    exact update_ind (by simp [mine, Ne.symm other]) fun _ => Iff.rfl
  | setIntr c flag =>
    cases done
    have ok := inv.cpus c
    exact inv.change rfl ⟨fun pushed => absurd pushed (by simp only [can.2]; omega), ok.count,
      ok.nodup, ok.held, ok.waits⟩
      (fun _ _ _ => Iff.rfl) (.inl (Int.le_refl _)) (inv.goOn rfl rfl (Int.le_refl _))
  | setState p running =>
    cases done
    exact ⟨⟨inv.cpus, inv.threads⟩, fun _ => .inl (Int.le_refl _)⟩
  | fork p =>
    cases done
    exact ⟨⟨inv.cpus, inv.threads.fork can⟩, fun _ => .inl (Int.le_refl _)⟩
  | sched c p =>
    have count := (inv.cpus c).count
    have ok := inv.cpus c
    rw [inv.next_sched can] at done
    split_ifs at done
    cases done
    obtain ⟨-, runs, direct, locks⟩ := can
    rw [direct, locks] at count
    exact inv.change rfl ⟨ok.off, ok.count, ok.nodup, ok.held, ok.waits⟩ (fun _ _ _ => Iff.rfl)
      (.inl (Int.le_refl _))
      (inv.threads.sched runs (count ▸ Int.one_pos) rfl)
  | swtch c p r =>
    cases done
    have ok := inv.cpus c
    refine inv.change rfl ⟨ok.off, ok.count, ok.nodup, ok.held, ok.waits⟩ (fun _ _ _ => Iff.rfl)
      (.inl (Int.le_refl _))
      (inv.threads.swtch can.2.2.2 rfl ?_)
    rintro b rfl
    rfl

/-- What can still fail: a lock that the CPU holds is acquired again, or `sched` is called by a
process that is `RUNNING`. -/
theorem error {x : NestPanic} (inv : NestInv s) (can : s.Enabled plock e)
    (failed : s.next plock e = .error x) : x = .acquire ∨ x = .schedRunning := by
  cases e with
  | popOff c =>
    have count := (inv.cpus c).count
    have pushed := can.2
    obtain ⟨k, popped, -⟩ := inv.popOff (c := c) (by omega)
    simp only [Nest.next, popped, bind, Except.bind] at failed
    cases failed
  | release c l =>
    obtain ⟨k, -, eq⟩ := inv.next_release can
    cases eq.symm.trans failed
  | acquire c l =>
    rw [Nest.next] at failed
    split_ifs at failed
    cases failed
    exact .inl rfl
  | sched c p =>
    rw [inv.next_sched can] at failed
    split_ifs at failed
    cases failed
    exact .inr rfl
  | _ => cases failed

theorem initial : NestInv (Nest.initial : Nest C L P) :=
  ⟨fun _ => ⟨nofun, rfl, List.nodup_nil, nofun, nofun⟩, nofun, nofun, nofun⟩

end NestInv

variable [DecidableEq C] [DecidableEq L] [DecidableEq P]

end Xv6.Nesting
