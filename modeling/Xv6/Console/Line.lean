/-
**The console** (`kernel/console.c`): `consoleintr` and `consoleread`, interleaved by the interrupt
handler and any number of readers.

Both functions work under `cons.lock`. A call of `consoleintr` is one section; a call of
`consoleread` is one section for each time it finds the input used up and sleeps. `LineDevice` is
what such a section does to the device, and `ConsSys` the device with its readers: who sleeps on
`&cons.r`, who has been woken, and the reads that have returned, with their bytes.

There are two devices. `ring` is `cons`: a buffer with three counters that wrap. `discipline` is
what the console is for: a queue of committed bytes and an edit line.
-/

import Xv6.Params
import Xv6.Lib.Ring
import Xv6.Lib.Run

namespace Xv6

open Lib Function

def INPUT_BUF : Nat := 128

instance : NeZero INPUT_BUF := ⟨by decide⟩

/-! ### Characters -/

/-- `'\n'` -/
def LF : Byte := 0x0a

/-- `'\r'` -/
def CR : Byte := 0x0d

/-- `C('D')` -/
def ctrlD : Byte := 0x04

/-- `C('H')` -/
def ctrlH : Byte := 0x08

/-- `C('P')` -/
def ctrlP : Byte := 0x10

/-- `C('U')` -/
def ctrlU : Byte := 0x15

/-- `'\x7f'` -/
def DEL : Byte := 0x7f

/-- `c = (c == '\r') ? '\n' : c` -/
def newline (c : Byte) : Byte := if c = CR then LF else c

/-! ### Devices and readers -/

/-- How a section of `consoleread` ends. -/
inductive ReadEnd
  /-- the call returns a value and has delivered these bytes -/
  | returned (value : Int) (got : List Byte)
  /-- it sleeps with `n` bytes to go -/
  | sleeps (n : Nat) (got : List Byte)
  deriving DecidableEq

/-- The two sections: `consoleintr`, which tells whether it calls `wakeup(&cons.r)`, and
`consoleread` from where it takes the lock, for a caller that is killed or not, with the length
asked for, the bytes to go and the bytes delivered. -/
structure LineDevice (D : Type) where
  intr : D → Byte → D × Bool
  read : Bool → Nat → Nat → D → List Byte → D × ReadEnd

/-- Where a process is in `consoleread`; `n` bytes of `target` are to go. -/
inductive ReaderPc
  | idle
  /-- `SLEEPING` on `&cons.r` -/
  | asleep (target n : Nat) (got : List Byte)
  /-- `RUNNABLE`, about to take `cons.lock` again -/
  | woken (target n : Nat) (got : List Byte)
  deriving DecidableEq

/-- What a wakeup does to a reader. -/
def ReaderPc.wake : ReaderPc → ReaderPc
  | .asleep target n got => .woken target n got
  | pc => pc

inductive ConsEvent (P : Type)
  | intr (c : Byte)
  /-- `consoleread` is called, up to where it sleeps or returns -/
  | read (p : P) (n : Int) (killed : Bool)
  /-- a woken reader goes on -/
  | resume (p : P) (killed : Bool)
  /-- `kill` makes a sleeper `RUNNABLE` -/
  | kill (p : P)

/-- A device with its readers and the reads that have returned. -/
structure ConsSys (D P : Type) where
  dev : D
  pc : P → ReaderPc
  done : List (P × Int × List Byte)

namespace ConsSys

variable {D P : Type} [DecidableEq P]

def finish (s : ConsSys D P) (p : P) (target : Nat) : D × ReadEnd → ConsSys D P
  | (dev, .returned value got) =>
    { dev := dev, pc := update s.pc p .idle, done := s.done ++ [(p, value, got)] }
  | (dev, .sleeps n got) =>
    { s with dev := dev, pc := update s.pc p (.asleep target n got) }

/-- The readers after a `wakeup(&cons.r)`, or without one. -/
def woken (s : ConsSys D P) : Bool → P → ReaderPc
  | true => fun p => (s.pc p).wake
  | false => s.pc

/-- One section; `none` if the process cannot run it. A negative length reads nothing. -/
def exec (device : LineDevice D) (s : ConsSys D P) : ConsEvent P → Option (ConsSys D P)
  | .intr c =>
    let r := device.intr s.dev c
    some { s with dev := r.1, pc := s.woken r.2 }
  | .read p n killed =>
    if s.pc p = .idle then some (s.finish p n.toNat (device.read killed n.toNat n.toNat s.dev []))
    else none
  | .resume p killed =>
    match s.pc p with
    | .woken target n got => some (s.finish p target (device.read killed target n s.dev got))
    | _ => none
  | .kill p => some { s with pc := update s.pc p (s.pc p).wake }

def Step (device : LineDevice D) (s : ConsSys D P) (e : ConsEvent P) (t : ConsSys D P) : Prop :=
  s.exec device e = some t

def initial (dev : D) : ConsSys D P where
  dev := dev
  pc := fun _ => .idle
  done := []

end ConsSys

/-! ### The code -/

structure Cons where
  buf : Fin INPUT_BUF → Byte
  /-- Read index -/
  r : BitVec 32
  /-- Write index -/
  w : BitVec 32
  /-- Edit index -/
  e : BitVec 32

namespace Cons

def char (s : Cons) (index : BitVec 32) : Byte := s.buf (Ring.slot INPUT_BUF index)

/-- The loop for `C('U')`. Every round takes a byte off the edit line, which has at most
`INPUT_BUF`. -/
def killLine : Nat → Cons → Cons
  | 0, s => s
  | fuel + 1, s =>
    if s.e ≠ s.w ∧ s.char (s.e - 1) ≠ LF then killLine fuel { s with e := s.e - 1 } else s

/-- `cons.buf[cons.e++ % INPUT_BUF] = c` -/
def store (s : Cons) (c : Byte) : Cons :=
  { s with buf := update s.buf (Ring.slot INPUT_BUF s.e) c, e := s.e + 1 }

/-- `consoleintr`; whether it calls `wakeup` -/
def consoleintr (s : Cons) (c : Byte) : Cons × Bool :=
  if c = ctrlP then (s, false)
  else if c = ctrlU then (killLine INPUT_BUF s, false)
  else if c = ctrlH ∨ c = DEL then
    if s.e ≠ s.w then ({ s with e := s.e - 1 }, false) else (s, false)
  else if c ≠ 0 ∧ (s.e - s.r).toNat < INPUT_BUF then
    let c := newline c
    let s := s.store c
    if c = LF ∨ c = ctrlD ∨ s.e = s.r + BitVec.ofNat 32 INPUT_BUF then ({ s with w := s.e }, true)
    else (s, false)
  else (s, false)

/-- `consoleread` from where it holds the lock, with `n` bytes of `target` to go. -/
def consoleread (killed : Bool) (target : Nat) : Nat → Cons → List Byte → Cons × ReadEnd
  | 0, s, got => (s, .returned target got)
  | n + 1, s, got =>
    if s.r = s.w then (s, if killed then .returned (-1) got else .sleeps (n + 1) got)
    else
      let c := s.char s.r
      let s := { s with r := s.r + 1 }
      if c = ctrlD then
        -- save ^D for next time, to make sure caller gets a 0-byte result
        (if n + 1 < target then { s with r := s.r - 1 } else s, .returned (target - (n + 1)) got)
      else if c = LF then (s, .returned (target - n) (got ++ [c]))
      else consoleread killed target n s (got ++ [c])

def ring : LineDevice Cons where
  intr := consoleintr
  read := fun killed target n s got => consoleread killed target n s got

/-- The console at boot, with its counters anywhere. -/
def empty (buf : Fin INPUT_BUF → Byte) (counter : BitVec 32) : Cons :=
  ⟨buf, counter, counter, counter⟩

end Cons

/-! ### What the console is for -/

/-- Committed bytes and the line that is being edited. -/
structure Line where
  queue : List Byte
  edit : List Byte
  deriving DecidableEq

namespace Line

def length (l : Line) : Nat := l.queue.length + l.edit.length

/-- What a character does; whether it commits the edit line. -/
def typed (l : Line) (c : Byte) : Line × Bool :=
  if c = ctrlP then (l, false)
  else if c = ctrlU then ({ l with edit := [] }, false)
  else if c = ctrlH ∨ c = DEL then ({ l with edit := l.edit.dropLast }, false)
  else if c ≠ 0 ∧ l.length < INPUT_BUF then
    let edit := l.edit ++ [newline c]
    if newline c = LF ∨ newline c = ctrlD ∨ l.length + 1 = INPUT_BUF then
      (⟨l.queue ++ edit, []⟩, true)
    else ({ l with edit := edit }, false)
  else (l, false)

/-- A read takes committed bytes until it has `n`, a line feed, or an end of file, which it takes
only if it is the first byte it meets. -/
def takes (killed : Bool) (target : Nat) (edit : List Byte) :
    Nat → List Byte → List Byte → Line × ReadEnd
  | 0, queue, got => (⟨queue, edit⟩, .returned target got)
  | n + 1, [], got => (⟨[], edit⟩, if killed then .returned (-1) got else .sleeps (n + 1) got)
  | n + 1, c :: queue, got =>
    if c = ctrlD then
      (⟨if got = [] then queue else c :: queue, edit⟩, .returned got.length got)
    else if c = LF then (⟨queue, edit⟩, .returned (got.length + 1) (got ++ [c]))
    else takes killed target edit n queue (got ++ [c])

def discipline : LineDevice Line where
  intr := typed
  read := fun killed target n l got => takes killed target l.edit n l.queue got

end Line

end Xv6
