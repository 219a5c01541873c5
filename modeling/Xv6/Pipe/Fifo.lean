/-
**A pipe is a FIFO channel of bytes.**

`Queued` relates the ring to the history: what was put is what was taken followed by a queue, and
the ring holds that queue (`Ring.Holds`). Only two steps touch it, one byte of `pipewrite` and one
byte of `piperead`; both are made when the tests on the counters allow them, wrapped or not.

`pipe_is_fifo` is over every run: any number of processes, any interleaving, any number of bytes.
-/

import Xv6.Pipe.Step

set_option linter.unusedSectionVars false

namespace Xv6

open Lib Function

namespace PipeSys

variable {P : Type} [DecidableEq P] {s t : PipeSys P} {e : PipeEvent P} {value : Option Int}

/-- **The refinement relation**: the ring holds what was put and not yet taken. -/
def Queued (s : PipeSys P) : Prop :=
  ∃ queue, s.entered = s.taken ++ queue ∧ Ring.Holds s.pi.data s.pi.nread s.pi.nwrite queue

theorem pipesize_dvd : PIPESIZE ∣ 2 ^ 32 := by decide

theorem pipesize_lt : PIPESIZE < 2 ^ 32 := by decide

theorem Queued.putByte (queued : Queued s) (room : ¬ s.pi.Full) (ch : Byte) :
    Queued (s.putByte ch) := by
  obtain ⟨queue, history, holds⟩ := queued
  have space : queue.length < PIPESIZE := by
    refine lt_of_le_of_ne holds.fits fun full => room ?_
    exact (holds.full_iff pipesize_lt).mpr full
  refine ⟨queue ++ [ch], ?_, holds.put pipesize_dvd space ch⟩
  show s.entered ++ [ch] = s.taken ++ (queue ++ [ch])
  rw [history, List.append_assoc]

theorem Queued.takeByte (queued : Queued s) (left : ¬ s.pi.Empty) : Queued s.takeByte := by
  obtain ⟨queue, history, holds⟩ := queued
  cases queue with
  | nil => exact absurd ((holds.empty_iff pipesize_lt).mpr rfl) left
  | cons ch queue =>
    obtain ⟨front, rest⟩ := holds.take
    refine ⟨queue, ?_, rest⟩
    show s.entered = s.taken ++ [s.pi.data (Ring.slot PIPESIZE s.pi.nread)] ++ queue
    rw [history, front, List.append_assoc]
    rfl

theorem Queued.step (queued : Queued s) (does : Does s e t value) : Queued t := by
  cases does with
  | writeByte p ch n i owed _ room => exact queued.putByte room ch
  | readByte p n i _ _ left | readFault p n i _ _ left => exact queued.takeByte left
  | close p writable _ _ =>
    cases writable with
    | true => exact queued
    | false => exact queued
  | _ => exact queued

theorem Does.pc_other (does : Does s e t value) {q : P} (other : e.proc ≠ q) :
    t.pc q = s.pc q ∨ t.pc q = wokenReader (s.pc q) ∨ t.pc q = wokenWriter (s.pc q) := by
  have apart : q ≠ e.proc := Ne.symm other
  cases does with
  | writeDone | writeSleep | writeFault => exact Or.inr (Or.inl (update_of_ne apart _ _))
  | readDone | readFault => exact Or.inr (Or.inr (update_of_ne apart _ _))
  | close p writable _ _ =>
    cases writable with
    | true => exact Or.inr (Or.inl rfl)
    | false => exact Or.inr (Or.inr rfl)
  | _ => exact Or.inl (update_of_ne apart _ _)

/-- A process that the step of another one leaves in a critical section was there before. -/
theorem Does.pc_of_holdsLock (does : Does s e t value) {q : P} (other : e.proc ≠ q)
    (holds : (t.pc q).HoldsLock) : t.pc q = s.pc q := by
  obtain same | woken | woken := does.pc_other other
  · exact same
  · rw [woken, wokenReader_holdsLock] at holds
    rw [woken, wokenReader_of_holdsLock holds]
  · rw [woken, wokenWriter_holdsLock] at holds
    rw [woken, wokenWriter_of_holdsLock holds]

/-- A process in a critical section was there before, with the pipe as it is, or has just made a
step of its own call. -/
theorem Does.inside_cases (does : Does s e t value) (lock : LockInv s) {q : P}
    (holds : (t.pc q).HoldsLock) :
    t.pc q = s.pc q ∧ t.pi = s.pi ∨ e.proc = q ∧ e ≠ .kill q ∧ ∀ writable,
      e ≠ .close q writable := by
  by_cases other : e.proc = q
  case neg =>
    have before := does.pc_of_holdsLock other holds
    rw [before] at holds
    exact Or.inl ⟨before, (does.frame lock holds other).1⟩
  subst other
  cases does with
  | close p writable idle _ =>
    exfalso
    cases writable with
    | true =>
      have woken : (wokenReader (s.pc p)).HoldsLock := holds
      rw [idle] at woken
      exact woken
    | false =>
      have woken : (wokenWriter (s.pc p)).HoldsLock := holds
      rw [idle] at woken
      exact woken
  | kill p =>
    have inside : (wokenReader (wokenWriter (s.pc p))).HoldsLock := by
      simpa only [goto_pc, PipeEvent.proc, update_self] using holds
    rw [wokenReader_holdsLock, wokenWriter_holdsLock] at inside
    refine Or.inl ⟨?_, rfl⟩
    rw [goto_pc, PipeEvent.proc, update_self, wokenWriter_of_holdsLock inside,
      wokenReader_of_holdsLock inside]
  | _ => exact Or.inr ⟨rfl, nofun, nofun⟩

theorem Does.readCopy_cases (does : Does s e t value) (lock : LockInv s) {q : P} {n i : Int}
    (here : t.pc q = .readCopy n i) :
    s.pc q = .readCopy n i ∧ t.pi = s.pi ∨
      i = 0 ∧ (¬ s.pi.Empty ∨ s.pi.writeopen = false) ∧ t.pi = s.pi ∨
      s.pc q = .readCopy n (i - 1) := by
  obtain ⟨same, pipe⟩ | ⟨rfl, notKill, notClose⟩ :=
    does.inside_cases lock (here ▸ trivial : (t.pc q).HoldsLock)
  · exact Or.inl ⟨same.symm.trans here, pipe⟩
  cases does with
  | readGoes p m _ ready =>
    rw [goto_pc, PipeEvent.proc, update_self] at here
    obtain ⟨-, rfl⟩ := PipePc.readCopy.inj here
    exact Or.inr (Or.inl ⟨rfl, ready, rfl⟩)
  | readByte p m j before _ _ =>
    rw [goto_pc, PipeEvent.proc, update_self] at here
    obtain ⟨rfl, rfl⟩ := PipePc.readCopy.inj here
    rw [PipeEvent.proc, before, add_sub_cancel_right]
    exact Or.inr (Or.inr rfl)
  | close p writable => exact absurd rfl (notClose writable)
  | kill p => exact absurd rfl notKill
  | _ => exact absurd ((update_self _ _ _).symm.trans here) nofun

structure FifoInv (s : PipeSys P) : Prop where
  lock : LockInv s
  queued : Queued s
  /-- the copying loop counts up from zero -/
  count : ∀ p n i, s.pc p = .readCopy n i → 0 ≤ i
  /-- it is entered when there is something to copy or nothing more to come -/
  ready : ∀ p n, s.pc p = .readCopy n 0 → ¬ s.pi.Empty ∨ s.pi.writeopen = false

theorem fifoInv_initial (data : Fin PIPESIZE → Byte) (killed : P → Bool) :
    FifoInv (initial data killed) where
  lock := fun _ holds => holds.elim
  queued := ⟨[], rfl, Ring.holds_nil data 0⟩
  count := nofun
  ready := nofun

theorem FifoInv.step (inv : FifoInv s) (does : Does s e t value) : FifoInv t where
  lock := inv.lock.step does
  queued := inv.queued.step does
  count := by
    intro p n i here
    obtain ⟨before, _⟩ | ⟨rfl, _⟩ | before := does.readCopy_cases inv.lock here
    · exact inv.count p n i before
    · exact le_refl 0
    · have earlier := inv.count p n _ before
      omega
  ready := by
    intro p n here
    obtain ⟨before, same⟩ | ⟨_, ready, same⟩ | before := does.readCopy_cases inv.lock here
    · rw [same]
      exact inv.ready p n before
    · rw [same]
      exact ready
    · have earlier := inv.count p n _ before
      omega

theorem fifoInv_of_run {data : Fin PIPESIZE → Byte} {killed : P → Bool} {trace : List (PipeEvent P)}
    (run : Run Step (initial data killed) trace s) : FifoInv s := by
  refine Run.inv (fifoInv_initial data killed) (fun inv step => ?_) run
  obtain ⟨value, done⟩ := step
  exact inv.step (does_of_exec done).2

/-- **Pipes are FIFO byte channels.** In every state that `pipewrite`, `piperead`, `pipeclose` and
`kill` can reach, by any number of processes and with any number of bytes: the counters are at most
`PIPESIZE` apart; the bytes taken are a prefix of the bytes put, and those between them are in the
ring, each in its slot; and a `piperead` for `n > 0` bytes that returns 0 has failed to copy out a
byte, or the ring is empty and the write end closed. -/
theorem pipe_is_fifo {data : Fin PIPESIZE → Byte} {killed : P → Bool} {trace : List (PipeEvent P)}
    (run : Run Step (initial data killed) trace s) :
    (s.pi.nwrite - s.pi.nread).toNat ≤ PIPESIZE ∧
    s.taken <+: s.entered ∧
    s.entered.length = s.taken.length + (s.pi.nwrite - s.pi.nread).toNat ∧
    (∀ k < (s.pi.nwrite - s.pi.nread).toNat,
      s.entered[s.taken.length + k]? =
      some (s.pi.data (Ring.slot PIPESIZE (s.pi.nread + BitVec.ofNat 32 k)))) ∧
    ∀ p n i copied t, s.pc p = .readCopy n i → 0 < n →
      s.exec (.readCopy p copied) = some (t, some 0) →
      copied = false ∧ ¬ s.pi.Empty ∨ s.pi.Empty ∧ s.pi.writeopen = false := by
  have inv := fifoInv_of_run run
  obtain ⟨queue, history, holds⟩ := inv.queued
  have length := holds.length_eq pipesize_lt
  rw [length]
  refine ⟨holds.fits, ⟨queue, history.symm⟩, ?_, fun k inside => ?_,
    fun p n i copied t here some done => ?_⟩
  · rw [history, List.length_append]
  · rw [history, List.getElem?_append_right (Nat.le_add_right _ _), Nat.add_sub_cancel_left,
      List.getElem?_eq_getElem inside, holds.slots k inside]
  · obtain ⟨_, does⟩ := does_of_exec done
    cases does with
    | readDone _ _ m j there last =>
      obtain ⟨rfl, rfl⟩ := PipePc.readCopy.inj (here.symm.trans there)
      have empty : s.pi.Empty := last.resolve_left (not_le.mpr some)
      exact Or.inr ⟨empty, (inv.ready p n here).resolve_left fun left => left empty⟩
    | readFault _ m j there _ left => exact Or.inl ⟨rfl, left⟩

theorem pipe_is_fifo_oneByte : ∃ s : PipeSys (Fin 2), Run Step (initial (fun _ => 0) fun _ => false)
      [.write 0 2, .writeTest 0, .writeBody 0 (some 0x61), .writeTest 0, .writeBody 0 (some 0x62),
        .writeTest 0, .read 1 1, .readTest 1, .readCopy 1 true] s ∧
    s.taken = [0x61] ∧ s.entered = [0x61, 0x62] ∧ s.taken <+: s.entered ∧
    s.entered[1]? = some (s.pi.data (Ring.slot PIPESIZE s.pi.nread)) := by
  obtain ⟨s, run, seen⟩ :=
    run_of_observed (fun s : PipeSys (Fin 2) => (s.taken, s.entered, s.pi.nread, s.pi.nwrite))
    (show (execAll complete
      [.write 0 2, .writeTest 0, .writeBody 0 (some 0x61), .writeTest 0, .writeBody 0 (some 0x62),
        .writeTest 0,
        .read 1 1, .readTest 1, .readCopy 1 true] (initial (fun _ => 0) fun _ => false)).map _ =
      some ([0x61], [0x61, 0x62], 1, 2) by decide)
  simp only [Prod.mk.injEq] at seen
  obtain ⟨taken, entered, nread, nwrite⟩ := seen
  have run := run.mono Step.of_complete
  obtain ⟨_, isPrefix, _, slots, _⟩ := pipe_is_fifo run
  refine ⟨s, run, taken, entered, isPrefix, ?_⟩
  have first := slots 0 (by rw [nread, nwrite]; decide)
  rwa [taken, BitVec.add_zero] at first

end PipeSys

end Xv6
