/-
**Wakeups on pipes.**

`WakeInv` says who still owes a wakeup. A reader asleep on `&pi->nread` faces an empty ring with its
write end open, or the holder of `pi->lock` is a `pipewrite` that has put bytes since its last
`wakeup(&pi->nread)`; a writer asleep on `&pi->nwrite` faces a full ring with its read end open, or
the holder is a `piperead` in its copying loop, which ends in `wakeup(&pi->nwrite)` on every path.

`pipewrite` has a path that does not pay: it returns from the test of `killed` at the top of its
loop without a wakeup, also when it has put bytes before (`Attentive`).
-/

import Xv6.Pipe.Fifo

set_option linter.unusedSectionVars false

namespace Xv6

open Lib Function

def PipePc.SleepsOnNread : PipePc → Prop
  | .readSleep _ => True
  | _ => False

instance (pc : PipePc) : Decidable pc.SleepsOnNread := by
  cases pc <;> unfold PipePc.SleepsOnNread <;> infer_instance

/-- In `pipewrite`, with bytes put since its last `wakeup(&pi->nread)`. -/
def PipePc.Owes : PipePc → Prop
  | .writeTop _ _ owed | .writeBody _ _ owed => owed = true
  | _ => False

/-- In the copying loop of `piperead`. -/
def PipePc.Copies : PipePc → Prop
  | .readCopy _ _ => True
  | _ => False

/-- What the holder of the lock has found in the pipe. Nobody closes the read end while it is held
by a writer that has put bytes. -/
def PipePc.Found (pi : PipePage) : PipePc → Prop
  | .readDoze _ => pi.writeopen = true ∧ pi.Empty
  | .writeBody _ _ _ => pi.readopen = true
  | .writeTop _ _ owed => owed = true → pi.readopen = true
  | _ => True

variable {pc v : PipePc} {n i : Int}

theorem PipePc.Owes.holdsLock (owes : pc.Owes) : pc.HoldsLock := by
  cases pc <;> trivial

theorem PipePc.Copies.holdsLock (copies : pc.Copies) : pc.HoldsLock := by
  cases pc <;> trivial

theorem PipePc.found_of_outside {pi : PipePage} (outside : ¬ pc.HoldsLock) : pc.Found pi := by
  cases pc <;> first | trivial | exact absurd trivial outside

namespace PipeSys

variable {P : Type} [DecidableEq P] {s t : PipeSys P} {e : PipeEvent P} {value : Option Int}

/-- **The condition on a step**: `pipewrite` does not find itself killed at the top of its loop,
after it has put bytes since its last wakeup, while a reader is asleep. -/
def Attentive (s : PipeSys P) : PipeEvent P → Prop
  | .writeTest p =>
    match s.pc p with
    | .writeTop n i true => i < n → s.killed p = true → ∀ q, ¬ (s.pc q).SleepsOnNread
    | _ => True
  | _ => True

def AttentiveStep (s : PipeSys P) (e : PipeEvent P) (t : PipeSys P) : Prop :=
  s.Attentive e ∧ Step s e t

/-- **Who owes a wakeup.** -/
structure WakeInv (s : PipeSys P) : Prop where
  lock : LockInv s
  found : ∀ p, (s.pc p).Found s.pi
  readers : ∀ p n, s.pc p = .readSleep n →
    s.pi.writeopen = true ∧ (s.pi.Empty ∨ ∃ q, (s.pc q).Owes)
  writers : ∀ p n i, s.pc p = .writeSleep n i →
    s.pi.readopen = true ∧ (s.pi.Full ∨ ∃ q, (s.pc q).Copies)

variable {p q : P}

theorem at_self (At : PipePc → Prop) {f : P → PipePc} (here : At pc) : At (update f p pc p) := by
  rwa [update_self]

/-- `kill` leaves a process in a critical section where it is. -/
theorem at_kill (At : PipePc → Prop) (inside : (s.pc q).HoldsLock) (here : At (s.pc q)) :
    At (update s.pc p (wokenReader (wokenWriter (s.pc p))) q) := by
  revert inside here
  refine update_ind (fun inside here => ?_) fun _ _ here => here
  rwa [wokenWriter_of_holdsLock inside, wokenReader_of_holdsLock inside]

section

variable {At : PipePc → Prop} (locked : ∀ {pc}, At pc → pc.HoldsLock)

include locked

/-- Nobody is at a point where the lock is held while it is free. -/
theorem LockInv.nobody (lock : LockInv s) (free : s.lock = none) : ¬ ∃ q, At (s.pc q) := by
  rintro ⟨q, here⟩
  rw [lock q (locked here)] at free
  cases free

/-- Where the holder of the lock is known, nobody is at another such point. -/
theorem LockInv.nobody_else (lock : LockInv s) (here : s.pc p = pc) (inside : pc.HoldsLock)
    (elsewhere : ¬ At pc) : ¬ ∃ q, At (s.pc q) := by
  rintro ⟨q, other⟩
  rw [lock.unique (locked other) (here ▸ inside), here] at other
  exact elsewhere other

end

theorem WakeInv.found_at (inv : WakeInv s) (here : s.pc p = pc) : pc.Found s.pi :=
  here ▸ inv.found p

/-- What the holder of the lock has found stays so until it goes on. -/
theorem WakeInv.found_step (inv : WakeInv s) (does : Does s e t value) (p : P) :
    (t.pc p).Found t.pi := by
  by_cases inside : (t.pc p).HoldsLock
  case neg => exact PipePc.found_of_outside inside
  obtain ⟨same, pipe⟩ | ⟨rfl, notKill, notClose⟩ := does.inside_cases inv.lock inside
  · rw [same, pipe]
    exact inv.found p
  cases does with
  | readWaits q m _ empty opened _ => exact at_self (PipePc.Found s.pi) ⟨opened, empty⟩
  | writeGoes q m j o _ _ opened _ => exact at_self (PipePc.Found s.pi) opened
  | writeByte q ch m j o before _ => exact at_self (PipePc.Found _) fun _ => inv.found_at before
  | close q writable => exact absurd rfl (notClose writable)
  | kill q => exact absurd rfl notKill
  | write | writeRelock => exact at_self (PipePc.Found s.pi) nofun
  | _ => exact at_self (PipePc.Found _) trivial

/-! ### Who is asleep -/

theorem readSleep_of_wokenWriter (asleep : wokenWriter pc = .readSleep n) : pc = .readSleep n := by
  cases pc <;> first | exact asleep | cases asleep

theorem writeSleep_of_wokenReader (asleep : wokenReader pc = .writeSleep n i) :
    pc = .writeSleep n i := by
  cases pc <;> first | exact asleep | cases asleep

theorem wokenReader_ne_readSleep (pc : PipePc) (n : Int) : wokenReader pc ≠ .readSleep n := by
  cases pc <;> exact nofun

theorem wokenWriter_ne_writeSleep (pc : PipePc) (n i : Int) : wokenWriter pc ≠ .writeSleep n i := by
  cases pc <;> exact nofun

theorem wokenReader_of_release (here : (s.wakeReaders.release q pc).pc p = v) (other : pc ≠ v) :
    wokenReader (s.pc p) = v :=
  (of_update_eq (f := s.wakeReaders.pc) here other).2

theorem wokenWriter_of_release (here : (s.wakeWriters.release q pc).pc p = v) (other : pc ≠ v) :
    wokenWriter (s.pc p) = v :=
  (of_update_eq (f := s.wakeWriters.pc) here other).2

theorem readers_awake (awake : pc ≠ .readSleep n) :
    (s.wakeReaders.release q pc).pc p ≠ .readSleep n :=
  fun asleep => wokenReader_ne_readSleep _ n (wokenReader_of_release asleep awake)

theorem writers_awake (awake : pc ≠ .writeSleep n i) :
    (s.wakeWriters.release q pc).pc p ≠ .writeSleep n i :=
  fun asleep => wokenWriter_ne_writeSleep _ n i (wokenWriter_of_release asleep awake)

/-- A reader that was asleep before a step which leaves the pipe, when nobody owes. -/
theorem WakeInv.reader_stays (inv : WakeInv s) (before : s.pc p = .readSleep n)
    (paid : ¬ ∃ q, (s.pc q).Owes) : s.pi.writeopen = true ∧ s.pi.Empty := by
  obtain ⟨opened, cause⟩ := inv.readers p n before
  exact ⟨opened, cause.resolve_right paid⟩

theorem WakeInv.writer_stays (inv : WakeInv s) (before : s.pc p = .writeSleep n i)
    (still : ¬ ∃ q, (s.pc q).Copies) : s.pi.readopen = true ∧ s.pi.Full := by
  obtain ⟨opened, cause⟩ := inv.writers p n i before
  exact ⟨opened, cause.resolve_right still⟩

theorem WakeInv.readers_step (inv : WakeInv s) (attentive : s.Attentive e) (does : Does s e t value)
    (asleep : t.pc p = .readSleep n) :
    t.pi.writeopen = true ∧ (t.pi.Empty ∨ ∃ q, (t.pc q).Owes) := by
  -- when nobody owes before the step, the ring is empty and a step that leaves it alone is harmless
  have settled : s.pc p = .readSleep n → (¬ ∃ q, (s.pc q).Owes) → t.pi = s.pi →
      t.pi.writeopen = true ∧ (t.pi.Empty ∨ ∃ q, (t.pc q).Owes) := by
    intro before paid same
    obtain ⟨opened, empty⟩ := inv.reader_stays before paid
    rw [same]
    exact ⟨opened, Or.inl empty⟩
  have paid : ∀ {q pc}, s.pc q = pc → pc.HoldsLock → ¬ pc.Owes → ¬ ∃ q, (s.pc q).Owes :=
    fun here inside no => inv.lock.nobody_else PipePc.Owes.holdsLock here inside no
  cases does with
  | write _ _ _ free | read _ _ _ free | writeRelock _ _ _ _ free | readRelock _ _ _ free =>
    exact settled (of_update_eq asleep nofun).2 (inv.lock.nobody PipePc.Owes.holdsLock free) rfl
  | writeRefused q m j owed here more refused =>
    have before : s.pc p = .readSleep n := (of_update_eq asleep nofun).2
    cases owed with
    | false => exact settled before (paid here trivial nofun) rfl
    | true =>
      -- the path without a wakeup
      have killed : s.killed q = true :=
        refused.resolve_left (by rw [inv.found_at here rfl]; exact nofun)
      have condition : s.Attentive (.writeTest q) := attentive
      simp only [Attentive, here] at condition
      exact absurd (before ▸ trivial : (s.pc p).SleepsOnNread) (condition more killed p)
  | writeGoes q m j owed here _ _ _ =>
    have before : s.pc p = .readSleep n := (of_update_eq asleep nofun).2
    cases owed with
    | false => exact settled before (paid here trivial nofun) rfl
    | true => exact ⟨(inv.readers p n before).1, Or.inr ⟨q, at_self PipePc.Owes rfl⟩⟩
  | writeDone | writeSleep | writeFault => exact absurd asleep (readers_awake nofun)
  | writeByte q ch m j owed _ _ =>
    have before : s.pc p = .readSleep n := (of_update_eq asleep nofun).2
    exact ⟨(inv.readers p n before).1, Or.inr ⟨q, at_self PipePc.Owes rfl⟩⟩
  | readRefused q m here | readWaits q m here | readGoes q m here =>
    exact settled (of_update_eq asleep nofun).2 (paid here trivial nofun) rfl
  | readSleep q m here =>
    obtain ⟨opened, empty⟩ := inv.found_at here
    exact ⟨opened, Or.inl empty⟩
  | readDone q copied m j here _ =>
    have before := readSleep_of_wokenWriter (wokenWriter_of_release asleep nofun)
    exact settled before (paid here trivial nofun) rfl
  | readByte q m j here _ left =>
    have before := (of_update_eq asleep nofun).2
    exact absurd (inv.reader_stays before (paid here trivial nofun)).2 left
  | readFault q m j here _ left =>
    have before := readSleep_of_wokenWriter (wokenWriter_of_release asleep nofun)
    exact absurd (inv.reader_stays before (paid here trivial nofun)).2 left
  | close q writable _ free =>
    cases writable with
    | true => exact absurd asleep (wokenReader_ne_readSleep _ n)
    | false =>
      obtain ⟨opened, empty⟩ :=
        inv.reader_stays (readSleep_of_wokenWriter asleep)
          (inv.lock.nobody PipePc.Owes.holdsLock free)
      exact ⟨opened, Or.inl empty⟩
  | kill q =>
    have before : s.pc p = .readSleep n := (of_update_eq asleep (wokenReader_ne_readSleep _ n)).2
    obtain ⟨opened, empty | ⟨r, owes⟩⟩ := inv.readers p n before
    · exact ⟨opened, Or.inl empty⟩
    · exact ⟨opened, Or.inr ⟨r, at_kill PipePc.Owes owes.holdsLock owes⟩⟩

theorem WakeInv.writers_step (inv : WakeInv s) (does : Does s e t value)
    (asleep : t.pc p = .writeSleep n i) :
    t.pi.readopen = true ∧ (t.pi.Full ∨ ∃ q, (t.pc q).Copies) := by
  have settled : s.pc p = .writeSleep n i → (¬ ∃ q, (s.pc q).Copies) → t.pi = s.pi →
      t.pi.readopen = true ∧ (t.pi.Full ∨ ∃ q, (t.pc q).Copies) := by
    intro before still same
    obtain ⟨opened, full⟩ := inv.writer_stays before still
    rw [same]
    exact ⟨opened, Or.inl full⟩
  -- another holder of the lock, at a point other than the copying loop
  have still : ∀ {q pc}, s.pc q = pc → pc.HoldsLock → ¬ pc.Copies → ¬ ∃ q, (s.pc q).Copies :=
    fun here inside no => inv.lock.nobody_else PipePc.Copies.holdsLock here inside no
  cases does with
  | write _ _ _ free | read _ _ _ free | writeRelock _ _ _ _ free | readRelock _ _ _ free =>
    exact settled (of_update_eq asleep nofun).2 (inv.lock.nobody PipePc.Copies.holdsLock free) rfl
  | writeRefused q m j owed here | writeGoes q m j owed here | readRefused q m here
  | readWaits q m here
  | readSleep q m here => exact settled (of_update_eq asleep nofun).2 (still here trivial nofun) rfl
  | writeDone q m j owed here | writeFault q m j owed here =>
    exact settled (writeSleep_of_wokenReader (wokenReader_of_release asleep nofun))
      (still here trivial nofun) rfl
  | writeSleep q ch m j owed here full => exact ⟨inv.found_at here, Or.inl full⟩
  | writeByte q ch m j owed here room =>
    have before : s.pc p = .writeSleep n i := (of_update_eq asleep nofun).2
    exact absurd (inv.writer_stays before (still here trivial nofun)).2 room
  | readGoes q m here _ =>
    have before : s.pc p = .writeSleep n i := (of_update_eq asleep nofun).2
    exact ⟨(inv.writers p n i before).1, Or.inr ⟨q, at_self PipePc.Copies trivial⟩⟩
  | readDone | readFault => exact absurd asleep (writers_awake nofun)
  | readByte q m j here _ _ =>
    have before : s.pc p = .writeSleep n i := (of_update_eq asleep nofun).2
    exact ⟨(inv.writers p n i before).1, Or.inr ⟨q, at_self PipePc.Copies trivial⟩⟩
  | close q writable _ free =>
    cases writable with
    | true =>
      obtain ⟨opened, full⟩ :=
        inv.writer_stays (writeSleep_of_wokenReader asleep)
          (inv.lock.nobody PipePc.Copies.holdsLock free)
      exact ⟨opened, Or.inl full⟩
    | false => exact absurd asleep (wokenWriter_ne_writeSleep _ n i)
  | kill q =>
    have awake : wokenReader (wokenWriter (s.pc q)) ≠ .writeSleep n i :=
      fun same => wokenWriter_ne_writeSleep _ n i (writeSleep_of_wokenReader same)
    have before : s.pc p = .writeSleep n i := (of_update_eq asleep awake).2
    obtain ⟨opened, full | ⟨r, copies⟩⟩ := inv.writers p n i before
    · exact ⟨opened, Or.inl full⟩
    · exact ⟨opened, Or.inr ⟨r, at_kill PipePc.Copies copies.holdsLock copies⟩⟩

theorem WakeInv.step (inv : WakeInv s) (attentive : s.Attentive e) (does : Does s e t value) :
    WakeInv t where
  lock := inv.lock.step does
  found := inv.found_step does
  readers := fun _ _ asleep => inv.readers_step attentive does asleep
  writers := fun _ _ _ asleep => inv.writers_step does asleep

theorem wakeInv_initial (data : Fin PIPESIZE → Byte) (killed : P → Bool) :
    WakeInv (initial data killed) where
  lock := fun _ holds => holds.elim
  found := fun _ => trivial
  readers := nofun
  writers := nofun

/-- **No wakeup is lost.** In every state reached by attentive steps in which `pi->lock` is free, a
process asleep on `&pi->nread` faces an empty ring whose write end is open, and a process asleep on
`&pi->nwrite` a full ring whose read end is open. -/
theorem no_lost_wakeup {data : Fin PIPESIZE → Byte} {killed : P → Bool} {trace : List (PipeEvent P)}
    (run : Run AttentiveStep (initial data killed) trace s) (free : s.lock = none) :
    (∀ p n, s.pc p = .readSleep n → s.pi.nread = s.pi.nwrite ∧ s.pi.writeopen = true) ∧
    ∀ p n i, s.pc p = .writeSleep n i →
      s.pi.nwrite = s.pi.nread + BitVec.ofNat 32 PIPESIZE ∧ s.pi.readopen = true := by
  have inv : WakeInv s := by
    refine Run.inv (wakeInv_initial data killed) (fun inv step => ?_) run
    obtain ⟨attentive, value, done⟩ := step
    exact inv.step attentive (does_of_exec done).2
  refine ⟨fun p n asleep => ?_, fun p n i asleep => ?_⟩
  · obtain ⟨opened, empty⟩ := inv.reader_stays asleep (inv.lock.nobody PipePc.Owes.holdsLock free)
    exact ⟨empty, opened⟩
  · obtain ⟨opened, full⟩ := inv.writer_stays asleep (inv.lock.nobody PipePc.Copies.holdsLock free)
    exact ⟨full, opened⟩

instance [Fintype P] (s : PipeSys P) (e : PipeEvent P) : Decidable (s.Attentive e) := by
  unfold Attentive
  split
  · split <;> infer_instance
  · infer_instance

def completeAttentive [Fintype P] (s : PipeSys P) (e : PipeEvent P) : Option (PipeSys P) :=
  if s.Attentive e then s.complete e else none

theorem AttentiveStep.of_complete [Fintype P] (done : s.completeAttentive e = some t) :
    AttentiveStep s e t := by
  unfold completeAttentive at done
  split_ifs at done with attentive
  exact ⟨attentive, Step.of_complete done⟩

/-- A writer is killed in the middle of its loop with nobody asleep; a reader then takes the byte
and sleeps on the empty ring. -/
theorem no_lost_wakeup_killedWriter :
    ∃ s : PipeSys (Fin 2), Run AttentiveStep (initial (fun _ => 0) fun _ => false)
      [.write 0 2, .writeTest 0, .writeBody 0 (some 0x61), .kill 0, .writeTest 0,
        .read 1 1, .readTest 1, .readCopy 1 true, .readCopy 1 true, .read 1 1, .readTest 1,
        .readDoze 1] s ∧
    s.lock = none ∧ s.pc 1 = .readSleep 1 ∧ s.pi.nread = s.pi.nwrite ∧ s.pi.writeopen = true := by
  obtain ⟨s, run, seen⟩ := run_of_observed (fun s : PipeSys (Fin 2) => (s.lock, s.pc 1))
    (show
      (execAll completeAttentive [.write 0 2, .writeTest 0, .writeBody 0 (some 0x61), .kill 0,
        .writeTest 0,
        .read 1 1, .readTest 1, .readCopy 1 true, .readCopy 1 true, .read 1 1, .readTest 1,
        .readDoze 1]
      (initial (fun _ => 0) fun _ => false)).map _ = some (none, .readSleep 1) by decide +kernel)
  obtain ⟨free, asleep⟩ := Prod.mk.inj seen
  have run := run.mono AttentiveStep.of_complete
  exact ⟨s, run, free, asleep, (no_lost_wakeup run free).1 1 1 asleep⟩

/-- **A wakeup is lost.** A reader sleeps on the empty ring; a writer puts one of its two bytes and
is killed; it returns from the top of its loop, and the reader sleeps on with a byte in the ring. -/
theorem killed_writer_loses_wakeup :
    ∃ s : PipeSys (Fin 2), Run Step (initial (fun _ => 0) fun _ => false)
      [.read 1 1, .readTest 1, .readDoze 1, .write 0 2, .writeTest 0, .writeBody 0 (some 0x61),
        .kill 0, .writeTest 0] s ∧
    s.lock = none ∧ s.pc 1 = .readSleep 1 ∧ s.pi.nread ≠ s.pi.nwrite := by
  obtain ⟨s, run, seen⟩ :=
    run_of_observed (fun s : PipeSys (Fin 2) => (s.lock, s.pc 1, s.pi.nread, s.pi.nwrite))
    (show (execAll complete
      [.read 1 1, .readTest 1, .readDoze 1, .write 0 2, .writeTest 0, .writeBody 0 (some 0x61),
        .kill 0, .writeTest 0] (initial (fun _ => 0) fun _ => false)).map _ = some
        (none, .readSleep 1, 0, 1) by
      decide +kernel)
  simp only [Prod.mk.injEq] at seen
  obtain ⟨free, asleep, nread, nwrite⟩ := seen
  refine ⟨s, run.mono Step.of_complete, free, asleep, ?_⟩
  rw [nread, nwrite]
  decide

end PipeSys

end Xv6
