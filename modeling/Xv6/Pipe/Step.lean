/-
**Pipes** (`kernel/pipe.c`): `pipewrite`, `piperead` and `pipeclose` on one pipe, interleaved by any
number of processes, with `kill` at any moment.

`pi->lock` is held across the loops of `pipewrite` and `piperead`, so its holder is part of the
state. `kill` does not take it and may set `killed` between any two steps: a step is one test of the
top of a loop or one pass through its body, not a whole critical section. What `copyin` and
`copyout` find in user memory is part of the event, so that it can be anything at any time.

The state also records the bytes that were put into the ring and the bytes that were taken out of
it. A call of `pipewrite` carries whether it has put bytes since it last called
`wakeup(&pi->nread)`.
-/

import Xv6.Params
import Xv6.Lib.Ring
import Xv6.Lib.Run

set_option linter.unusedSectionVars false

namespace Xv6

open Lib Function

def PIPESIZE : Nat := 512

instance : NeZero PIPESIZE := ⟨by decide⟩

/-- `struct pipe`, without its lock. -/
structure PipePage where
  data : Fin PIPESIZE → Byte
  /-- number of bytes read -/
  nread : BitVec 32
  /-- number of bytes written -/
  nwrite : BitVec 32
  /-- read fd is still open -/
  readopen : Bool
  /-- write fd is still open -/
  writeopen : Bool

namespace PipePage

def Empty (pi : PipePage) : Prop := pi.nread = pi.nwrite

def Full (pi : PipePage) : Prop := pi.nwrite = pi.nread + BitVec.ofNat 32 PIPESIZE

instance (pi : PipePage) : Decidable pi.Empty := inferInstanceAs (Decidable (_ = _))

instance (pi : PipePage) : Decidable pi.Full := inferInstanceAs (Decidable (_ = _))

/-- `pi->data[pi->nwrite++ % PIPESIZE] = ch` -/
def put (pi : PipePage) (ch : Byte) : PipePage :=
  { pi with data := update pi.data (Ring.slot PIPESIZE pi.nwrite) ch, nwrite := pi.nwrite + 1 }

/-- `pi->data[pi->nread % PIPESIZE]` -/
def front (pi : PipePage) : Byte := pi.data (Ring.slot PIPESIZE pi.nread)

/-- `pi->nread++` -/
def take (pi : PipePage) : PipePage := { pi with nread := pi.nread + 1 }

end PipePage

/-- Where a process is in its call; `n` is the length asked for and `i` the bytes done. -/
inductive PipePc
  /-- in none of the calls -/
  | idle
  /-- at the top of the loop of `pipewrite`; `owed`: it has put bytes since its last `wakeup` -/
  | writeTop (n i : Int) (owed : Bool)
  /-- past the test of `readopen` and `killed` -/
  | writeBody (n i : Int) (owed : Bool)
  /-- `SLEEPING` on `&pi->nwrite` -/
  | writeSleep (n i : Int)
  /-- `RUNNABLE`, about to take `pi->lock` again -/
  | writeWoken (n i : Int)
  /-- at the top of the first loop of `piperead` -/
  | readTop (n : Int)
  /-- past the test of `killed`, about to sleep -/
  | readDoze (n : Int)
  /-- `SLEEPING` on `&pi->nread` -/
  | readSleep (n : Int)
  /-- `RUNNABLE`, about to take `pi->lock` again -/
  | readWoken (n : Int)
  /-- at the top of the copying loop of `piperead` -/
  | readCopy (n i : Int)
  deriving DecidableEq

def PipePc.HoldsLock : PipePc → Prop
  | .writeTop _ _ _ | .writeBody _ _ _ | .readTop _ | .readDoze _ | .readCopy _ _ => True
  | _ => False

inductive PipeEvent (P : Type)
  /-- `pipewrite` takes the lock -/
  | write (p : P) (n : Int)
  /-- the test at the top of its loop -/
  | writeTest (p : P)
  /-- the body of its loop; `ch` is what `copyin` finds -/
  | writeBody (p : P) (ch : Option Byte)
  /-- `sleep` takes the lock again -/
  | writeRelock (p : P)
  /-- `piperead` takes the lock -/
  | read (p : P) (n : Int)
  /-- the test at the top of its first loop -/
  | readTest (p : P)
  /-- `sleep(&pi->nread, &pi->lock)` -/
  | readDoze (p : P)
  /-- `sleep` takes the lock again -/
  | readRelock (p : P)
  /-- one pass of the copying loop; `copied` tells whether `copyout` succeeds -/
  | readCopy (p : P) (copied : Bool)
  /-- `pipeclose` -/
  | close (p : P) (writable : Bool)
  /-- `kill` sets the flag of a process -/
  | kill (p : P)

structure PipeSys (P : Type) where
  pi : PipePage
  /-- the holder of `pi->lock` -/
  lock : Option P
  pc : P → PipePc
  killed : P → Bool
  /-- the page has been given back by `kfree` -/
  freed : Bool
  /-- the bytes put into the ring so far -/
  entered : List Byte
  /-- the bytes taken out of the ring so far -/
  taken : List Byte

namespace PipeSys

variable {P : Type} [DecidableEq P]

def goto (s : PipeSys P) (p : P) (pc : PipePc) : PipeSys P := { s with pc := update s.pc p pc }

def wokenReader : PipePc → PipePc
  | .readSleep n => .readWoken n
  | pc => pc

def wokenWriter : PipePc → PipePc
  | .writeSleep n i => .writeWoken n i
  | pc => pc

/-- `wakeup(&pi->nread)` -/
def wakeReaders (s : PipeSys P) : PipeSys P := { s with pc := fun p => wokenReader (s.pc p) }

/-- `wakeup(&pi->nwrite)` -/
def wakeWriters (s : PipeSys P) : PipeSys P := { s with pc := fun p => wokenWriter (s.pc p) }

def acquire (s : PipeSys P) (p : P) (pc : PipePc) : PipeSys P := { s.goto p pc with lock := some p }

def release (s : PipeSys P) (p : P) (pc : PipePc) : PipeSys P := { s.goto p pc with lock := none }

def endWrite (s : PipeSys P) (p : P) : PipeSys P := s.wakeReaders.release p .idle

def endRead (s : PipeSys P) (p : P) : PipeSys P := s.wakeWriters.release p .idle

def putByte (s : PipeSys P) (ch : Byte) : PipeSys P :=
  { s with pi := s.pi.put ch, entered := s.entered ++ [ch] }

def takeByte (s : PipeSys P) : PipeSys P :=
  { s with pi := s.pi.take, taken := s.taken ++ [s.pi.front] }

/-- `pipeclose` up to its last test: the end is marked closed and the other side woken. -/
def closeEnd (s : PipeSys P) : Bool → PipeSys P
  | true => { s with pi := { s.pi with writeopen := false } }.wakeReaders
  | false => { s with pi := { s.pi with readopen := false } }.wakeWriters

/-- `pipeclose`; the page goes when both ends are closed. -/
def close (s : PipeSys P) (writable : Bool) : PipeSys P :=
  let s := s.closeEnd writable
  { s with freed := s.pi.readopen = false ∧ s.pi.writeopen = false }

/-- One step, with the value of the call if it returns. `none` is a step the process cannot take. -/
def exec (s : PipeSys P) (e : PipeEvent P) : Option (PipeSys P × Option Int) :=
  if s.freed then none
  else match e with
  | .write p n =>
    if s.pc p = .idle ∧ s.lock = none then some (s.acquire p (.writeTop n 0 false), none) else none
  | .writeTest p =>
    match s.pc p with
    | .writeTop n i owed =>
      if i < n then
        if s.pi.readopen = false ∨ s.killed p = true then some (s.release p .idle, some (-1))
        else some (s.goto p (.writeBody n i owed), none)
      else some (s.endWrite p, some i)
    | _ => none
  | .writeBody p ch =>
    match s.pc p with
    | .writeBody n i _ =>
      if s.pi.Full then some (s.wakeReaders.release p (.writeSleep n i), none)
      else match ch with
        | none => some (s.endWrite p, some i)
        | some ch => some ((s.putByte ch).goto p (.writeTop n (i + 1) true), none)
    | _ => none
  | .writeRelock p =>
    match s.pc p with
    | .writeWoken n i => if s.lock = none then some (s.acquire p (.writeTop n i false), none)
      else none
    | _ => none
  | .read p n => if s.pc p = .idle ∧ s.lock = none then some (s.acquire p (.readTop n), none)
    else none
  | .readTest p =>
    match s.pc p with
    | .readTop n =>
      if s.pi.Empty ∧ s.pi.writeopen = true then
        if s.killed p = true then some (s.release p .idle, some (-1))
          else some (s.goto p (.readDoze n), none)
      else some (s.goto p (.readCopy n 0), none)
    | _ => none
  | .readDoze p =>
    match s.pc p with
    | .readDoze n => some (s.release p (.readSleep n), none)
    | _ => none
  | .readRelock p =>
    match s.pc p with
    | .readWoken n => if s.lock = none then some (s.acquire p (.readTop n), none) else none
    | _ => none
  | .readCopy p copied =>
    match s.pc p with
    | .readCopy n i =>
      if i < n then
        if s.pi.Empty then some (s.endRead p, some i)
        else if copied then some (s.takeByte.goto p (.readCopy n (i + 1)), none)
        else some (s.takeByte.endRead p, some i)
      else some (s.endRead p, some i)
    | _ => none
  | .close p writable => if s.pc p = .idle ∧
    s.lock = none then some (s.close writable, none) else none
  | .kill p =>
    some ({ s.goto p (wokenReader (wokenWriter (s.pc p))) with killed := update s.killed p true },
      none)

def Step (s : PipeSys P) (e : PipeEvent P) (t : PipeSys P) : Prop :=
  ∃ value, s.exec e = some (t, value)

/-- The state after a step, without the value that a call returns. -/
def complete (s : PipeSys P) (e : PipeEvent P) : Option (PipeSys P) := (s.exec e).map Prod.fst

theorem Step.of_complete {s t : PipeSys P} {e : PipeEvent P} (done : s.complete e = some t) :
    Step s e t := by
  obtain ⟨⟨u, value⟩, executed, same⟩ := Option.map_eq_some_iff.mp done
  cases same
  exact ⟨value, executed⟩

/-- The pipe as `pipealloc` leaves it; its page held anything before. -/
def initial (data : Fin PIPESIZE → Byte) (killed : P → Bool) : PipeSys P where
  pi := ⟨data, 0, 0, true, true⟩
  lock := none
  pc := fun _ => .idle
  killed := killed
  freed := false
  entered := []
  taken := []

end PipeSys

/-! ### What one step does -/

namespace PipeSys

variable {P : Type} [DecidableEq P]

/-- **The steps of the system**, with everything they test and change. -/
inductive Does (s : PipeSys P) : PipeEvent P → PipeSys P → Option Int → Prop
  | write (p : P) (n : Int) (idle : s.pc p = .idle) (free : s.lock = none) :
      Does s (.write p n) (s.acquire p (.writeTop n 0 false)) none
  | writeRefused (p : P) (n i : Int) (owed : Bool) (here : s.pc p = .writeTop n i owed)
      (more : i < n) (refused : s.pi.readopen = false ∨ s.killed p = true) :
      Does s (.writeTest p) (s.release p .idle) (some (-1))
  | writeGoes (p : P) (n i : Int) (owed : Bool) (here : s.pc p = .writeTop n i owed) (more : i < n)
      (opened : s.pi.readopen = true) (spared : s.killed p = false) :
      Does s (.writeTest p) (s.goto p (.writeBody n i owed)) none
  | writeDone (p : P) (n i : Int) (owed : Bool) (here : s.pc p = .writeTop n i owed)
      (done : n ≤ i) : Does s (.writeTest p) (s.endWrite p) (some i)
  | writeSleep (p : P) (ch : Option Byte) (n i : Int) (owed : Bool)
      (here : s.pc p = .writeBody n i owed) (full : s.pi.Full) :
      Does s (.writeBody p ch) (s.wakeReaders.release p (.writeSleep n i)) none
  | writeFault (p : P) (n i : Int) (owed : Bool) (here : s.pc p = .writeBody n i owed)
      (room : ¬ s.pi.Full) : Does s (.writeBody p none) (s.endWrite p) (some i)
  | writeByte (p : P) (ch : Byte) (n i : Int) (owed : Bool) (here : s.pc p = .writeBody n i owed)
      (room : ¬ s.pi.Full) :
      Does s (.writeBody p (some ch)) ((s.putByte ch).goto p (.writeTop n (i + 1) true)) none
  | writeRelock (p : P) (n i : Int) (here : s.pc p = .writeWoken n i) (free : s.lock = none) :
      Does s (.writeRelock p) (s.acquire p (.writeTop n i false)) none
  | read (p : P) (n : Int) (idle : s.pc p = .idle) (free : s.lock = none) :
      Does s (.read p n) (s.acquire p (.readTop n)) none
  | readRefused (p : P) (n : Int) (here : s.pc p = .readTop n) (empty : s.pi.Empty)
      (opened : s.pi.writeopen = true) (killed : s.killed p = true) :
      Does s (.readTest p) (s.release p .idle) (some (-1))
  | readWaits (p : P) (n : Int) (here : s.pc p = .readTop n) (empty : s.pi.Empty)
      (opened : s.pi.writeopen = true) (spared : s.killed p = false) :
      Does s (.readTest p) (s.goto p (.readDoze n)) none
  | readGoes (p : P) (n : Int) (here : s.pc p = .readTop n)
      (ready : ¬ s.pi.Empty ∨ s.pi.writeopen = false) :
      Does s (.readTest p) (s.goto p (.readCopy n 0)) none
  | readSleep (p : P) (n : Int) (here : s.pc p = .readDoze n) :
      Does s (.readDoze p) (s.release p (.readSleep n)) none
  | readRelock (p : P) (n : Int) (here : s.pc p = .readWoken n) (free : s.lock = none) :
      Does s (.readRelock p) (s.acquire p (.readTop n)) none
  | readDone (p : P) (copied : Bool) (n i : Int) (here : s.pc p = .readCopy n i)
      (last : n ≤ i ∨ s.pi.Empty) : Does s (.readCopy p copied) (s.endRead p) (some i)
  | readByte (p : P) (n i : Int) (here : s.pc p = .readCopy n i) (more : i < n)
      (left : ¬ s.pi.Empty) :
      Does s (.readCopy p true) (s.takeByte.goto p (.readCopy n (i + 1))) none
  | readFault (p : P) (n i : Int) (here : s.pc p = .readCopy n i) (more : i < n)
      (left : ¬ s.pi.Empty) : Does s (.readCopy p false) (s.takeByte.endRead p) (some i)
  | close (p : P) (writable : Bool) (idle : s.pc p = .idle) (free : s.lock = none) :
      Does s (.close p writable) (s.close writable) none
  | kill (p : P) :
      Does s (.kill p) { s.goto p (wokenReader (wokenWriter (s.pc p))) with
        killed := update s.killed p true } none

/-- Inversion of a step: the pipe is there, and the step is one of `Does`. -/
theorem does_of_exec {s t : PipeSys P} {e : PipeEvent P} {value : Option Int}
    (step : s.exec e = some (t, value)) : s.freed = false ∧ Does s e t value := by
  unfold exec at step
  split at step
  · cases step
  rename_i alive
  refine ⟨by simpa using alive, ?_⟩
  cases e with
  | write p n =>
    obtain ⟨enabled, same⟩ := of_guard step
    cases same
    exact .write p n enabled.1 enabled.2
  | writeTest p =>
    simp only at step
    split at step
    case h_2 => cases step
    rename_i n i owed here
    split at step
    · rename_i more
      split at step
      · rename_i refused
        cases step
        exact .writeRefused p n i owed here more refused
      · rename_i goes
        cases step
        rw [not_or, Bool.not_eq_false, Bool.not_eq_true] at goes
        exact .writeGoes p n i owed here more goes.1 goes.2
    · rename_i done
      cases step
      exact .writeDone p n i owed here (not_lt.mp done)
  | writeBody p ch =>
    simp only at step
    split at step
    case h_2 => cases step
    rename_i n i owed here
    split at step
    · rename_i full
      cases step
      exact .writeSleep p ch n i owed here full
    · rename_i room
      split at step
      · cases step
        exact .writeFault p n i owed here room
      · cases step
        exact .writeByte p _ n i owed here room
  | writeRelock p =>
    simp only at step
    split at step
    case h_2 => cases step
    rename_i n i here
    obtain ⟨free, same⟩ := of_guard step
    cases same
    exact .writeRelock p n i here free
  | read p n =>
    obtain ⟨enabled, same⟩ := of_guard step
    cases same
    exact .read p n enabled.1 enabled.2
  | readTest p =>
    simp only at step
    split at step
    case h_2 => cases step
    rename_i n here
    split at step
    · rename_i waits
      split at step
      · rename_i killed
        cases step
        exact .readRefused p n here waits.1 waits.2 killed
      · rename_i spared
        cases step
        exact .readWaits p n here waits.1 waits.2 (by simpa using spared)
    · rename_i ready
      cases step
      rw [not_and_or, Bool.not_eq_true] at ready
      exact .readGoes p n here ready
  | readDoze p =>
    simp only at step
    split at step
    case h_2 => cases step
    rename_i n here
    cases step
    exact .readSleep p n here
  | readRelock p =>
    simp only at step
    split at step
    case h_2 => cases step
    rename_i n here
    obtain ⟨free, same⟩ := of_guard step
    cases same
    exact .readRelock p n here free
  | readCopy p copied =>
    simp only at step
    split at step
    case h_2 => cases step
    rename_i n i here
    split at step
    · rename_i more
      split at step
      · rename_i empty
        cases step
        exact .readDone p copied n i here (Or.inr empty)
      · rename_i left
        cases copied with
        | true =>
          cases step
          exact .readByte p n i here more left
        | false =>
          cases step
          exact .readFault p n i here more left
    · rename_i done
      cases step
      exact .readDone p copied n i here (Or.inl (not_lt.mp done))
  | close p writable =>
    obtain ⟨enabled, same⟩ := of_guard step
    cases same
    exact .close p writable enabled.1 enabled.2
  | kill p =>
    cases step
    exact .kill p

end PipeSys

/-! ### Exclusion by `pi->lock` -/

def PipeEvent.proc {P : Type} : PipeEvent P → P
  | .write p _ | .writeTest p | .writeBody p _ | .writeRelock p | .read p _ | .readTest p
  | .readDoze p
  | .readRelock p | .readCopy p _ | .close p _ | .kill p => p

namespace PipeSys

variable {P : Type} [DecidableEq P] {s t : PipeSys P} {e : PipeEvent P} {value : Option Int}
  {pc : PipePc} {p : P}

@[simp] theorem goto_pc (s : PipeSys P) (p : P) (pc : PipePc) :
    (s.goto p pc).pc = update s.pc p pc :=
  rfl

@[simp] theorem acquire_pc (s : PipeSys P) (p : P) (pc : PipePc) :
    (s.acquire p pc).pc = update s.pc p pc :=
  rfl

@[simp] theorem release_pc (s : PipeSys P) (p : P) (pc : PipePc) :
    (s.release p pc).pc = update s.pc p pc :=
  rfl

@[simp] theorem wokenReader_holdsLock (pc : PipePc) :
    (wokenReader pc).HoldsLock ↔ pc.HoldsLock := by
  cases pc <;> rfl

@[simp] theorem wokenWriter_holdsLock (pc : PipePc) :
    (wokenWriter pc).HoldsLock ↔ pc.HoldsLock := by
  cases pc <;> rfl

theorem wokenReader_of_holdsLock (holds : pc.HoldsLock) : wokenReader pc = pc := by
  cases pc <;> first | rfl | exact holds.elim

theorem wokenWriter_of_holdsLock (holds : pc.HoldsLock) : wokenWriter pc = pc := by
  cases pc <;> first | rfl | exact holds.elim

/-- Who is in a critical section is the holder of the lock. -/
def LockInv (s : PipeSys P) : Prop := ∀ p, (s.pc p).HoldsLock → s.lock = some p

theorem LockInv.unique (inv : LockInv s) {q : P} (first : (s.pc p).HoldsLock)
    (second : (s.pc q).HoldsLock) : p = q :=
  Option.some.inj ((inv p first).symm.trans (inv q second))

theorem LockInv.acquire (inv : LockInv s) (free : s.lock = none) (p : P) (pc : PipePc) :
    LockInv (s.acquire p pc) := by
  intro q
  rw [acquire_pc]
  refine update_ind (fun _ => rfl) fun _ holds => ?_
  rw [inv q holds] at free
  cases free

theorem LockInv.goto (inv : LockInv s) (here : (s.pc p).HoldsLock) (pc : PipePc) :
    LockInv (s.goto p pc) := by
  intro q
  rw [goto_pc]
  exact update_ind (fun _ => inv p here) fun _ => inv q

theorem LockInv.release (inv : LockInv s) (here : (s.pc p).HoldsLock)
    (out : ¬ pc.HoldsLock) : LockInv (s.release p pc) := by
  intro q
  rw [release_pc]
  exact update_ind (fun holds => absurd holds out)
    fun other holds => absurd (inv.unique holds here) other

theorem LockInv.wakeReaders (inv : LockInv s) : LockInv s.wakeReaders :=
  fun q holds => inv q ((wokenReader_holdsLock _).mp holds)

theorem LockInv.wakeWriters (inv : LockInv s) : LockInv s.wakeWriters :=
  fun q holds => inv q ((wokenWriter_holdsLock _).mp holds)

theorem LockInv.close (inv : LockInv s) (writable : Bool) : LockInv (s.close writable) := by
  cases writable with
  | true => exact fun q holds => inv.wakeReaders q holds
  | false => exact fun q holds => inv.wakeWriters q holds

theorem LockInv.step (inv : LockInv s) (does : Does s e t value) : LockInv t := by
  cases does with
  | write p n _ free | writeRelock p n i _ free | read p n _ free | readRelock p n _ free =>
    exact inv.acquire free p _
  | writeRefused p n i owed here | readRefused p n here
  | readSleep p n here => exact inv.release (here ▸ trivial) id
  | writeGoes p n i owed here | readWaits p n here
  | readGoes p n here => exact inv.goto (here ▸ trivial) _
  | writeDone p n i owed here | writeSleep p ch n i owed here | writeFault p n i owed here =>
    exact inv.wakeReaders.release ((wokenReader_holdsLock _).mpr (here ▸ trivial)) id
  | writeByte p ch n i owed here _ =>
    have inside : (s.pc p).HoldsLock := here ▸ trivial
    exact LockInv.goto (s := s.putByte ch) inv inside _
  | readDone p copied n i here _ =>
    exact inv.wakeWriters.release ((wokenWriter_holdsLock _).mpr (here ▸ trivial)) id
  | readByte p n i here _ _ =>
    have inside : (s.pc p).HoldsLock := here ▸ trivial
    exact LockInv.goto (s := s.takeByte) inv inside _
  | readFault p n i here _ _ =>
    have taken : LockInv s.takeByte := inv
    have inside : (s.pc p).HoldsLock := here ▸ trivial
    exact taken.wakeWriters.release ((wokenWriter_holdsLock _).mpr inside) id
  | close p writable _ _ => exact inv.close writable
  | kill p =>
    intro q
    rw [goto_pc]
    refine update_ind (fun woken => ?_) fun _ => inv q
    exact inv p ((wokenWriter_holdsLock _).mp ((wokenReader_holdsLock _).mp woken))

/-- While a process is in its critical section, the steps of others change neither the pipe nor
where the process is. -/
theorem Does.frame (does : Does s e t value) (inv : LockInv s) {q : P} (holds : (s.pc q).HoldsLock)
    (other : e.proc ≠ q) : t.pi = s.pi ∧ t.pc q = s.pc q := by
  have taken : s.lock ≠ none := by
    rw [inv q holds]
    exact nofun
  have alone : ∀ {p}, (s.pc p).HoldsLock → e.proc = p → False :=
    fun inside same => other (same.trans (inv.unique inside holds))
  cases does with
  | write p n _ free | writeRelock p n i _ free | read p n _ free | readRelock p n _ free
  | close p writable _ free =>
    exact absurd free taken
  | kill p => exact ⟨rfl, update_of_ne (Ne.symm other) _ _⟩
  | writeRefused p n i owed here | writeGoes p n i owed here | writeDone p n i owed here
  | writeSleep p ch n i owed here | writeFault p n i owed here | writeByte p ch n i owed here
  | readRefused p n here | readWaits p n here | readGoes p n here | readSleep p n here
  | readDone p copied n i here
  | readByte p n i here | readFault p n i here => exact (alone (here ▸ trivial) rfl).elim

end PipeSys

end Xv6
