/-
**The console implements its line discipline.**

`Shows s l`: the ring from `r` to `e` holds the committed bytes followed by the edit line, and `w`
stands between them. One lemma for each section says that the ring and the specification stay in
this relation and end alike (`Shows.consoleintr`, `Shows.consoleread`); `Simulates` adds the
readers.

`console_line_discipline` is over every run: any number of readers, any characters, counters
anywhere.
-/

import Xv6.Console.Line

set_option linter.unusedSectionVars false

namespace Xv6

open Lib Function

theorem inputBuf_dvd : INPUT_BUF ∣ 2 ^ 32 := by decide

theorem inputBuf_lt : INPUT_BUF < 2 ^ 32 := by decide

structure Shows (s : Cons) (l : Line) : Prop where
  holds : Ring.Holds s.buf s.r s.e (l.queue ++ l.edit)
  committed : s.w = s.r + BitVec.ofNat 32 l.queue.length
  /-- a line feed is committed at once -/
  line : LF ∉ l.edit
  /-- a full buffer is committed -/
  full : l.length = INPUT_BUF → l.edit = []

namespace Shows

variable {s : Cons} {l : Line}

section

variable (shows : Shows s l)

include shows

theorem length_le : l.length ≤ INPUT_BUF := by
  have fits := shows.holds.fits
  rwa [List.length_append] at fits

theorem queue_length_lt : l.queue.length < 2 ^ 32 := by
  have fits := shows.length_le
  have small := inputBuf_lt
  unfold Line.length at fits
  omega

theorem toNat_sub : (s.e - s.r).toNat = l.length := by
  rw [shows.holds.length_eq inputBuf_lt, List.length_append]
  rfl

theorem toNat_committed : (s.w - s.r).toNat = l.queue.length := by
  rw [shows.committed, BitVec.add_comm, BitVec.add_sub_cancel, BitVec.toNat_ofNat,
    Nat.mod_eq_of_lt shows.queue_length_lt]

theorem empty_iff : s.r = s.w ↔ l.queue = [] := by
  constructor
  · intro same
    have none := shows.toNat_committed
    rw [← same, BitVec.sub_self] at none
    exact List.length_eq_zero_iff.mp none.symm
  · intro none
    rw [shows.committed, none]
    exact (BitVec.add_zero s.r).symm

theorem edit_iff : s.e = s.w ↔ l.edit = [] := by
  constructor
  · intro same
    have both := shows.toNat_sub
    rw [same, shows.toNat_committed] at both
    unfold Line.length at both
    exact List.length_eq_zero_iff.mp (by omega)
  · intro none
    have counters := shows.holds.counters
    rw [none, List.append_nil] at counters
    rw [counters, shows.committed]

/-! ### `consoleintr` -/

theorem erase {edit : List Byte} {c : Byte} (last : l.edit = edit ++ [c]) :
    s.char (s.e - 1) = c ∧ Shows { s with e := s.e - 1 } { l with edit := edit } := by
  have holds := shows.holds
  rw [last, ← List.append_assoc] at holds
  obtain ⟨char, rest⟩ := holds.unput
  have line := shows.line
  rw [last, List.mem_append] at line
  refine ⟨char, rest, shows.committed, fun inside => line (.inl inside), fun full => ?_⟩
  -- one byte is free now
  have fits := shows.length_le
  simp only [Line.length, last, List.length_append, List.length_singleton] at full fits
  omega

theorem killLine :
    ∀ fuel, l.edit.length ≤ fuel → Shows (Cons.killLine fuel s) { l with edit := [] } := by
  intro fuel
  induction fuel generalizing s l with
  | zero =>
    intro short
    have none : l.edit = [] := List.length_eq_zero_iff.mp (Nat.le_zero.mp short)
    rw [← none]
    exact shows
  | succ fuel ih =>
    intro short
    rw [Cons.killLine]
    rcases List.eq_nil_or_concat l.edit with none | ⟨edit, c, last⟩
    · rw [if_neg (fun both => both.1 (shows.edit_iff.mpr none)), ← none]
      exact shows
    · rw [List.concat_eq_append] at last
      obtain ⟨char, rest⟩ := shows.erase last
      have more : s.e ≠ s.w := by
        intro same
        rw [shows.edit_iff.mp same] at last
        exact List.append_ne_nil_of_right_ne_nil _ (List.cons_ne_nil _ _) last.symm
      have noFeed : s.char (s.e - 1) ≠ LF := by
        rw [char]
        rintro rfl
        exact shows.line (by rw [last]; simp)
      rw [if_pos ⟨more, noFeed⟩]
      rw [last, List.length_append, List.length_singleton] at short
      exact ih (l := { l with edit := edit }) rest (Nat.le_of_succ_le_succ short)

/-- A character is stored behind the edit line; the last one may commit it. -/
theorem store (room : l.length < INPUT_BUF) (c : Byte) :
    Ring.Holds (s.store c).buf (s.store c).r (s.store c).e (l.queue ++ (l.edit ++ [c])) := by
  rw [← List.append_assoc]
  refine shows.holds.put inputBuf_dvd ?_ c
  rw [List.length_append]
  exact room

theorem full_iff (room : l.length < INPUT_BUF) (c : Byte) :
    (s.store c).e = (s.store c).r + BitVec.ofNat 32 INPUT_BUF ↔ l.length + 1 = INPUT_BUF := by
  rw [(shows.store room c).full_iff inputBuf_lt]
  simp only [List.length_append, List.length_singleton, Line.length]
  omega

theorem consoleintr (c : Byte) :
    Shows (s.consoleintr c).1 (l.typed c).1 ∧ (s.consoleintr c).2 = (l.typed c).2 := by
  unfold Cons.consoleintr Line.typed
  by_cases isP : c = ctrlP
  · rw [if_pos isP, if_pos isP]
    exact ⟨shows, rfl⟩
  rw [if_neg isP, if_neg isP]
  by_cases isU : c = ctrlU
  · rw [if_pos isU, if_pos isU]
    refine ⟨shows.killLine INPUT_BUF ?_, rfl⟩
    have fits := shows.length_le
    unfold Line.length at fits
    omega
  rw [if_neg isU, if_neg isU]
  by_cases isErase : c = ctrlH ∨ c = DEL
  · rw [if_pos isErase, if_pos isErase]
    rcases List.eq_nil_or_concat l.edit with none | ⟨edit, d, last⟩
    · rw [if_neg (not_not.mpr (shows.edit_iff.mpr none)), none]
      refine ⟨?_, rfl⟩
      rw [List.dropLast_nil, ← none]
      exact shows
    · rw [List.concat_eq_append] at last
      have more : s.e ≠ s.w := by
        intro same
        rw [shows.edit_iff.mp same] at last
        exact List.append_ne_nil_of_right_ne_nil _ (List.cons_ne_nil _ _) last.symm
      rw [if_pos more, last, List.dropLast_concat]
      exact ⟨(shows.erase last).2, rfl⟩
  rw [if_neg isErase, if_neg isErase, shows.toNat_sub]
  by_cases stored : c ≠ 0 ∧ l.length < INPUT_BUF
  case neg =>
    rw [if_neg stored, if_neg stored]
    exact ⟨shows, rfl⟩
  rw [if_pos stored, if_pos stored]
  have holds := shows.store stored.2 (newline c)
  have fullIff := shows.full_iff stored.2 (newline c)
  simp only [fullIff]
  by_cases commits : newline c = LF ∨ newline c = ctrlD ∨ l.length + 1 = INPUT_BUF
  · rw [if_pos commits, if_pos commits]
    refine ⟨⟨?_, ?_, List.not_mem_nil, fun _ => rfl⟩, rfl⟩
    · rw [List.append_nil]
      exact holds
    · exact holds.counters
  · rw [if_neg commits, if_neg commits]
    refine ⟨⟨holds, shows.committed, ?_, fun full => absurd (.inr (.inr ?_)) commits⟩, rfl⟩
    · rw [List.mem_append, List.mem_singleton]
      rintro (before | now)
      · exact shows.line before
      · exact commits (.inl now.symm)
    · simp only [Line.length, List.length_append, List.length_singleton] at full ⊢
      omega

/-! ### `consoleread` -/

theorem take {queue : List Byte} {c : Byte} (first : l.queue = c :: queue) :
    s.char s.r = c ∧ Shows { s with r := s.r + 1 } { l with queue := queue } := by
  have holds := shows.holds
  rw [first, List.cons_append] at holds
  obtain ⟨char, rest⟩ := holds.take
  refine ⟨char, rest, ?_, shows.line, fun full => ?_⟩
  · show s.w = s.r + 1 + BitVec.ofNat 32 queue.length
    rw [shows.committed, first, List.length_cons, BitVec.add_assoc, BitVec.ofNat_add,
      BitVec.add_comm 1]
    rfl
  · have fits := shows.length_le
    unfold Line.length at full fits
    rw [first, List.length_cons] at fits
    simp only at full
    omega

end

theorem consoleread (killed : Bool) {target n : Nat} {got : List Byte} (shows : Shows s l)
    (count : got.length + n = target) :
    Shows (Cons.consoleread killed target n s got).1
      (Line.takes killed target l.edit n l.queue got).1 ∧
      (Cons.consoleread killed target n s got).2 =
        (Line.takes killed target l.edit n l.queue got).2 := by
  induction n generalizing s l got with
  | zero => exact ⟨shows, rfl⟩
  | succ n ih =>
    rw [Cons.consoleread]
    cases first : l.queue with
    | nil =>
      rw [if_pos (shows.empty_iff.mpr first), Line.takes]
      refine ⟨?_, rfl⟩
      rw [← first]
      exact shows
    | cons c queue =>
      have some : s.r ≠ s.w := fun same => by
        rw [shows.empty_iff.mp same] at first
        cases first
      obtain ⟨char, rest⟩ := shows.take first
      rw [if_neg some, Line.takes, char]
      simp only
      by_cases isD : c = ctrlD
      · rw [if_pos isD, if_pos isD]
        have value : (target : Int) - (n + 1) = got.length := by omega
        refine ⟨?_, by rw [value]⟩
        by_cases begun : got = []
        · have whole : ¬ n + 1 < target := by
            rw [begun, List.length_nil] at count
            omega
          rw [if_neg whole, if_pos begun]
          exact rest
        · have part : n + 1 < target := by
            have := List.length_pos_of_ne_nil begun
            omega
          rw [if_pos part, if_neg begun, ← first]
          -- the byte goes back: `r` is what it was
          have back : s.r + 1 - 1 = s.r := BitVec.add_sub_cancel _ _
          simp only [back]
          exact shows
      · rw [if_neg isD, if_neg isD]
        by_cases isFeed : c = LF
        · rw [if_pos isFeed, if_pos isFeed]
          have value : (target : Int) - n = got.length + 1 := by omega
          exact ⟨rest, by rw [value]⟩
        · rw [if_neg isFeed, if_neg isFeed]
          refine ih rest ?_
          rw [List.length_append, List.length_singleton]
          omega

end Shows

namespace Line

variable {killed : Bool} {target n : Nat} {edit queue got : List Byte}

theorem takes_sleeps {m : Nat} {kept : List Byte} (count : got.length + n = target)
    (sleeps : (takes killed target edit n queue got).2 = .sleeps m kept) :
    (takes killed target edit n queue got).1.queue = [] ∧ kept.length + m = target := by
  induction n generalizing queue got with
  | zero => cases sleeps
  | succ n ih =>
    cases queue with
    | nil =>
      rw [takes] at sleeps ⊢
      cases killed with
      | true => cases sleeps
      | false =>
        cases sleeps
        exact ⟨rfl, count⟩
    | cons c queue =>
      rw [takes] at sleeps ⊢
      by_cases isD : c = ctrlD
      · rw [if_pos isD] at sleeps
        cases sleeps
      · by_cases isFeed : c = LF
        · rw [if_neg isD, if_pos isFeed] at sleeps
          cases sleeps
        · rw [if_neg isD, if_neg isFeed] at sleeps ⊢
          refine ih ?_ sleeps
          rw [List.length_append, List.length_singleton]
          omega

theorem takes_nil : (takes killed target edit n [] got).1.queue = [] := by
  cases n with
  | zero => rfl
  | succ n => rfl

theorem typed_queue {l : Line} {c : Byte} (quiet : (l.typed c).2 = false) :
    (l.typed c).1.queue = l.queue := by
  revert quiet
  unfold typed
  simp only
  split_ifs <;> simp

end Line

/-! ### Runs -/

namespace ConsSys

variable {P : Type} [DecidableEq P]

/-- **The simulation**: the same readers, and the ring shows the line. -/
structure Simulates (s : ConsSys Cons P) (q : ConsSys Line P) : Prop where
  shows : Shows s.dev q.dev
  pc : s.pc = q.pc
  done : s.done = q.done
  /-- what a suspended read has delivered -/
  count : ∀ p target n got, q.pc p = .asleep target n got ∨ q.pc p = .woken target n got →
    got.length + n = target
  /-- nobody sleeps while there is something to read -/
  asleep : ∀ p target n got, q.pc p = .asleep target n got → q.dev.queue = []

variable {s t : ConsSys Cons P} {q : ConsSys Line P}

theorem wake_asleep {pc : ReaderPc} {target n : Nat} {got : List Byte} :
    pc.wake ≠ .asleep target n got := by
  cases pc <;> nofun

theorem wake_woken {pc : ReaderPc} {target n : Nat} {got : List Byte}
    (woken : pc.wake = .woken target n got) :
    pc = .asleep target n got ∨ pc = .woken target n got := by
  cases pc with
  | idle => cases woken
  | asleep => exact .inl (by cases woken; rfl)
  | woken => exact .inr woken

theorem Simulates.section (sim : Simulates s q) (p : P) (killed : Bool) {target n : Nat}
    {got : List Byte} (count : got.length + n = target) :
    Simulates (s.finish p target (Cons.ring.read killed target n s.dev got))
      (q.finish p target (Line.discipline.read killed target n q.dev got)) := by
  obtain ⟨shows, ends⟩ := sim.shows.consoleread killed count
  have slept : ∀ m kept, (Line.takes killed target q.dev.edit n q.dev.queue got).2 =
    .sleeps m kept →
      (Line.takes killed target q.dev.edit n q.dev.queue got).1.queue = [] ∧
        kept.length + m = target := fun m kept => Line.takes_sleeps count
  have stays : q.dev.queue = [] →
      (Line.takes killed target q.dev.edit n q.dev.queue got).1.queue = [] := fun none => by
    rw [none]
    exact Line.takes_nil
  show Simulates (s.finish p target (Cons.consoleread killed target n s.dev got))
    (q.finish p target (Line.takes killed target q.dev.edit n q.dev.queue got))
  revert shows ends slept stays
  generalize Cons.consoleread killed target n s.dev got = concrete
  generalize Line.takes killed target q.dev.edit n q.dev.queue got = abstract
  obtain ⟨dev, result⟩ := concrete
  obtain ⟨line, result'⟩ := abstract
  intro shows same slept stays
  simp only at same
  subst same
  cases result with
  | returned value kept =>
    refine ⟨shows, ?_, ?_, fun r target' m kept' => ?_, fun r target' m kept' at_ => ?_⟩
    · show update s.pc p .idle = update q.pc p .idle
      rw [sim.pc]
    · show s.done ++ _ = q.done ++ _
      rw [sim.done]
    · show update q.pc p .idle r = _ ∨ update q.pc p .idle r = _ → _
      exact update_ind (fun at_ => absurd at_ (by simp)) fun _ => sim.count r target' m kept'
    · exact stays (sim.asleep r target' m kept' (of_update_eq at_ nofun).2)
  | sleeps m kept =>
    obtain ⟨none, counted⟩ := slept m kept rfl
    refine ⟨shows, ?_, sim.done, fun r target' m' kept' => ?_, fun _ _ _ _ _ => none⟩
    · show update s.pc p _ = update q.pc p _
      rw [sim.pc]
    · show update q.pc p _ r = _ ∨ update q.pc p _ r = _ → _
      refine update_ind (fun at_ => ?_) fun _ => sim.count r target' m' kept'
      simp only [ReaderPc.asleep.injEq, reduceCtorEq, or_false] at at_
      obtain ⟨rfl, rfl, rfl⟩ := at_
      exact counted

/-- **Every section of the console is one of the specification.** -/
theorem Simulates.step (sim : Simulates s q) {e : ConsEvent P} (step : Step Cons.ring s e t) :
    ∃ q', Step Line.discipline q e q' ∧ Simulates t q' := by
  cases e with
  | intr c =>
    obtain ⟨shows, wakes⟩ := sim.shows.consoleintr c
    cases step
    refine ⟨_, rfl, shows, ?_, sim.done, fun p target n got at_ => ?_, fun p target n got at_ => ?_⟩
    · show s.woken (s.dev.consoleintr c).2 = q.woken (q.dev.typed c).2
      rw [wakes]
      cases (q.dev.typed c).2 with
      | true => exact funext fun p => congrArg (fun pc => (pc p).wake) sim.pc
      | false => exact sim.pc
    · have now : q.woken (q.dev.typed c).2 p = .asleep target n got ∨
          q.woken (q.dev.typed c).2 p = .woken target n got := at_
      refine sim.count p target n got ?_
      cases commits : (q.dev.typed c).2 with
      | true =>
        rw [commits] at now
        rcases now with slept | woken
        · exact absurd slept wake_asleep
        · exact wake_woken woken
      | false =>
        rw [commits] at now
        exact now
    · have now : q.woken (q.dev.typed c).2 p = .asleep target n got := at_
      show (q.dev.typed c).1.queue = []
      cases commits : (q.dev.typed c).2 with
      | true =>
        rw [commits] at now
        exact absurd now wake_asleep
      | false =>
        rw [commits] at now
        rw [Line.typed_queue commits]
        exact sim.asleep p target n got now
  | read p n killed =>
    unfold Step exec at step
    obtain ⟨idle, rfl⟩ := of_guard step
    refine ⟨_, ?_, sim.section p killed (Nat.zero_add _)⟩
    unfold Step exec
    simp only
    rw [if_pos (sim.pc ▸ idle)]
  | resume p killed =>
    unfold Step exec at step
    simp only at step
    split at step
    · rename_i target n got woken
      cases step
      rw [sim.pc] at woken
      refine ⟨_, ?_, sim.section p killed (sim.count p target n got (.inr woken))⟩
      unfold Step exec
      simp only
      rw [woken]
    · cases step
  | kill p =>
    cases step
    refine ⟨_, rfl, sim.shows, ?_, sim.done, fun r target n got => ?_, fun r target n got at_ => ?_⟩
    · show update s.pc p _ = update q.pc p _
      rw [sim.pc]
    · show update q.pc p _ r = _ ∨ update q.pc p _ r = _ → _
      refine update_ind (fun at_ => sim.count p target n got ?_) fun _ => sim.count r target n got
      rcases at_ with slept | woken
      · exact absurd slept wake_asleep
      · exact wake_woken woken
    · exact sim.asleep r target n got (of_update_eq at_ wake_asleep).2

theorem simulates_initial (buf : Fin INPUT_BUF → Byte) (counter : BitVec 32) :
    Simulates (P := P) (initial (Cons.empty buf counter)) (initial ⟨[], []⟩) where
  shows :=
    { holds := Ring.holds_nil _ _
      committed := (BitVec.add_zero counter).symm
      line := List.not_mem_nil
      full := fun _ => rfl }
  pc := rfl
  done := rfl
  count := fun _ _ _ _ at_ => by rcases at_ with slept | woken <;> contradiction
  asleep := fun _ _ _ _ _ => rfl

/-- **The console implements the line discipline**: after any sections, the same sections of the
specification have been possible, every read has returned the same value with the same bytes, and
the readers are at the same places. The counters are in order, and a full buffer is committed, with
nobody asleep. -/
theorem console_line_discipline {buf : Fin INPUT_BUF → Byte} {counter : BitVec 32}
    {trace : List (ConsEvent P)} {s : ConsSys Cons P}
    (run : Run (Step Cons.ring) (initial (Cons.empty buf counter)) trace s) :
    ∃ q : ConsSys Line P, Run (Step Line.discipline) (initial ⟨[], []⟩) trace q ∧
      s.done = q.done ∧ s.pc = q.pc ∧
      (s.dev.w - s.dev.r).toNat ≤ (s.dev.e - s.dev.r).toNat ∧
      (s.dev.e - s.dev.r).toNat ≤ INPUT_BUF ∧
      ((s.dev.e - s.dev.r).toNat = INPUT_BUF →
        s.dev.w = s.dev.e ∧ s.dev.r ≠ s.dev.w ∧ ∀ p target n got,
        s.pc p ≠ .asleep target n got) := by
  have both : ∃ q : ConsSys Line P, Run (Step Line.discipline) (initial ⟨[], []⟩) trace q ∧
      Simulates s q := by
    induction run with
    | nil => exact ⟨_, .nil, simulates_initial buf counter⟩
    | snoc _ last ih =>
      obtain ⟨q, before, sim⟩ := ih
      obtain ⟨q', step, simNext⟩ := sim.step last
      exact ⟨q', before.snoc step, simNext⟩
  obtain ⟨q, specified, sim⟩ := both
  refine ⟨q, specified, sim.done, sim.pc, ?_, ?_, fun full => ?_⟩
  · rw [sim.shows.toNat_committed, sim.shows.toNat_sub]
    exact Nat.le_add_right _ _
  · rw [sim.shows.toNat_sub]
    exact sim.shows.length_le
  · rw [sim.shows.toNat_sub] at full
    have none := sim.shows.full full
    have some : q.dev.queue ≠ [] := by
      intro queue
      rw [Line.length, queue, none] at full
      cases full
    refine ⟨(sim.shows.edit_iff.mpr none).symm, fun same => some (sim.shows.empty_iff.mp same), ?_⟩
    intro p target n got slept
    exact some (sim.asleep p target n got (sim.pc ▸ slept))

/-- A read of ten bytes sleeps, then `h`, `i`, DEL, `o` and CR are typed, and it goes on. -/
def typing : List (ConsEvent Unit) :=
  [.read () 10 false, .intr 0x68, .intr 0x69, .intr DEL, .intr 0x6f, .intr CR, .resume () false]

theorem console_line_discipline_typing : ∃ s : ConsSys Cons Unit,
      Run (Step Cons.ring) (initial (Cons.empty (fun _ => 0) (BitVec.ofNat 32 (2 ^ 32 - 1)))) typing
      s ∧
      s.done = [((), 3, [0x68, 0x6f, LF])] ∧
      ∃ q : ConsSys Line Unit, Run (Step Line.discipline) (initial ⟨[], []⟩) typing q ∧
        s.done = q.done := by
  obtain ⟨s, run, seen⟩ := run_of_observed (fun s : ConsSys Cons Unit => s.done)
    (show (execAll (ConsSys.exec Cons.ring) typing
      (initial (Cons.empty (fun _ => 0) (BitVec.ofNat 32 (2 ^ 32 - 1))))).map (fun s => s.done) =
        some [((), 3, [0x68, 0x6f, LF])] by decide +kernel)
  obtain ⟨q, specified, same, -⟩ := console_line_discipline run
  exact ⟨s, run, seen, q, specified, same⟩

end ConsSys

end Xv6
