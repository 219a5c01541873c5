/-
**Running commands** (`user/sh.c`: `runcmd`; `kernel/sysfile.c`: `fdalloc`, `sys_dup`, `sys_pipe`;
`kernel/proc.c`: `fork`): the processes that the shell forks for a command tree, and their open
files.

Each process is somewhere in `runcmd` (`RunPc`) and has a table of open files. A step is one system
call of one process; `open`, `pipe`, `dup` and `fork` succeed. `wait` may return at any time: no
table depends on when it does. A process that has called `exec` keeps its files until it exits.

`path` is not in the source. It says how the process came to its command: the newest step first,
with the pipes that were made on the way. `bindings` is what the tree says about the descriptors
along a path; that `runcmd` follows it is proved in `Xv6.Sh.Wiring`. `started` lists the paths whose
command was started, and `node` where a pipe was made.
-/

import Xv6.Sh.Parse
import Xv6.Params
import Xv6.Lib.Run

namespace Xv6.Sh

open Lib Function

/-- One step from a command to a command below it. -/
inductive Branch
  | redir (fd : Nat)
  /-- the left side of the pipe that was made as number `k` -/
  | left (k : Nat)
  | right (k : Nat)
  | first
  | second
  | back
  deriving DecidableEq

/-- The way to a command, the newest step first. -/
abbrev Path := List Branch

inductive File
  /-- open at the start as descriptor `fd` -/
  | given (fd : Nat)
  /-- opened by the redirection at a path -/
  | opened (path : Path)
  | readEnd (k : Nat)
  | writeEnd (k : Nat)
  deriving DecidableEq

/-- `p->ofile` -/
abbrev Files := List (Option File)

/-- `fdalloc`: the lowest free descriptor, and the table with the file there. -/
def fdalloc : Files → File → Option (Nat × Files)
  | [], _ => none
  | none :: table, f => some (0, some f :: table)
  | some g :: table, f =>
    match fdalloc table f with
    | some (fd, table) => some (fd + 1, some g :: table)
    | none => none

/-- The files open in a process that has exited. -/
def closed : Files := List.replicate NOFILE none

inductive Side
  | left
  | right
  deriving DecidableEq

/-- The standard descriptor that the side replaces: `close(1)` or `close(0)`. -/
def Side.std : Side → Nat
  | .left => 1
  | .right => 0

/-- What it replaces it with: `dup(p[1])` or `dup(p[0])`. -/
def Side.pick (p0 p1 : Nat) : Side → Nat
  | .left => p1
  | .right => p0

def Side.branch (k : Nat) : Side → Branch
  | .left => .left k
  | .right => .right k

/-- Where a process is in `runcmd`. -/
inductive RunPc
  /-- `runcmd(cmd)` is called -/
  | entry (cmd : Cmd)
  /-- `exec` was called -/
  | execd (argv : List (Nat × Nat))
  /-- `REDIR`, after `close(rcmd->fd)` -/
  | reopen (cmd : Cmd) (fd : Nat)
  /-- `LIST`, before `wait(0)` -/
  | listWait (right : Cmd)
  /-- `PIPE`, before the first fork; `k` is the number of the pipe -/
  | pipeFork (left right : Cmd) (k p0 p1 : Nat)
  /-- `PIPE`, before the second fork -/
  | pipeFork2 (right : Cmd) (k p0 p1 : Nat)
  /-- `PIPE`, before `close(p[0])` in the parent -/
  | pipeClose0 (k p0 p1 : Nat)
  /-- `PIPE`, before `close(p[1])` in the parent -/
  | pipeClose1 (k p1 : Nat)
  | pipeWait
  /-- a child of `PIPE`, before `close(1)` or `close(0)` -/
  | sideClose (side : Side) (cmd : Cmd) (k p0 p1 : Nat)
  /-- a child of `PIPE`, before `dup` -/
  | sideDup (side : Side) (cmd : Cmd) (k p0 p1 : Nat)
  /-- a child of `PIPE`, before `close(p[0])` -/
  | sideClose0 (side : Side) (cmd : Cmd) (k p0 p1 : Nat)
  /-- a child of `PIPE`, before `close(p[1])` -/
  | sideClose1 (side : Side) (cmd : Cmd) (k p1 : Nat)
  | exited
  deriving DecidableEq

def RunPc.makesPipe : RunPc → Bool
  | .entry (.pipe _ _) => true
  | _ => false

def RunPc.starts : RunPc → Bool
  | .entry _ => true
  | _ => false

structure Proc where
  files : Files
  pc : RunPc
  path : Path

namespace Proc

def exit (p : Proc) : Proc := { p with files := closed, pc := .exited }

/-- `close(fd)`, and on to `pc`. -/
def close (p : Proc) (fd : Nat) (pc : RunPc) : Proc :=
  { p with files := p.files.set fd none, pc := pc }

/-- The child of a `fork`, at `pc`. -/
def child (p : Proc) (branch : Branch) (pc : RunPc) : Proc :=
  { p with pc := pc, path := branch :: p.path }

/-- One system call of a process, when the next pipe has the number `k`: what becomes of the
process, and its new child. A descriptor that cannot be allocated ends the process, as in the
source. -/
def advance (k : Nat) (p : Proc) : Proc × Option Proc :=
  match p.pc with
  | .entry (.exec []) => (p.exit, none)
  | .entry (.exec argv) => ({ p with pc := .execd argv }, none)
  | .entry (.redir cmd _ _ _ fd) => (p.close fd (.reopen cmd fd), none)
  | .entry (.list left right) =>
    ({ p with pc := .listWait right }, some (p.child .first (.entry left)))
  | .entry (.pipe left right) =>
    match fdalloc p.files (.readEnd k) with
    | some (p0, files) =>
      match fdalloc files (.writeEnd k) with
      | some (p1, files) => ({ p with files := files, pc := .pipeFork left right k p0 p1 }, none)
      | none => (p.exit, none)
    | none => (p.exit, none)
  | .entry (.back cmd) => (p.exit, some (p.child .back (.entry cmd)))
  -- the program that was started exits, or `exec` failed
  | .execd _ => (p.exit, none)
  | .reopen cmd fd =>
    match fdalloc p.files (.opened p.path) with
    | some (_, files) => ({ files := files, pc := .entry cmd, path := .redir fd :: p.path }, none)
    | none => (p.exit, none)
  | .listWait right => ({ p with pc := .entry right, path := .second :: p.path }, none)
  | .pipeFork left right k p0 p1 =>
    ({ p with pc := .pipeFork2 right k p0 p1 },
      some (p.child (.left k) (.sideClose .left left k p0 p1)))
  | .pipeFork2 right k p0 p1 =>
    ({ p with pc := .pipeClose0 k p0 p1 },
      some (p.child (.right k) (.sideClose .right right k p0 p1)))
  | .pipeClose0 k p0 p1 => (p.close p0 (.pipeClose1 k p1), none)
  | .pipeClose1 _ p1 => (p.close p1 .pipeWait, none)
  | .pipeWait => (p.exit, none)
  | .sideClose side cmd k p0 p1 => (p.close side.std (.sideDup side cmd k p0 p1), none)
  | .sideDup side cmd k p0 p1 =>
    match p.files[side.pick p0 p1]? with
    | some (some f) =>
      match fdalloc p.files f with
      | some (_, files) => ({ p with files := files, pc := .sideClose0 side cmd k p0 p1 }, none)
      | none => (p.exit, none)
    | _ => (p.exit, none)
  | .sideClose0 side cmd k p0 p1 => (p.close p0 (.sideClose1 side cmd k p1), none)
  | .sideClose1 _ cmd _ p1 => (p.close p1 (.entry cmd), none)
  | .exited => (p, none)

end Proc

structure Shell where
  procs : List Proc
  /-- the number of the next pipe -/
  pipes : Nat
  /-- the paths whose command was started -/
  started : List Path
  /-- the path at which a pipe was made -/
  node : Nat → Option Path

namespace Shell

/-- One system call of the process `p`, which stands between `before` and `after`. -/
def next (s : Shell) (before after : List Proc) (p : Proc) : Shell where
  procs := before ++ (p.advance s.pipes).1 :: (after ++ (p.advance s.pipes).2.toList)
  pipes := if p.pc.makesPipe then s.pipes + 1 else s.pipes
  started := if p.pc.starts then p.path :: s.started else s.started
  node := if p.pc.makesPipe then update s.node s.pipes (some p.path) else s.node

def Step (s : Shell) (i : Nat) (t : Shell) : Prop :=
  ∃ before p after, s.procs = before ++ p :: after ∧ before.length = i ∧ t = s.next before after p

/-- The descriptors 0, 1 and 2 are open, and no others. -/
def table (files : Nat → File) : Files :=
  [some (files 0), some (files 1), some (files 2)] ++ List.replicate (NOFILE - 3) none

/-- `runcmd(cmd)` is called with exactly the descriptors 0, 1 and 2 open. -/
def initial (cmd : Cmd) : Shell where
  procs := [{ files := table .given, pc := .entry cmd, path := [] }]
  pipes := 0
  started := []
  node := fun _ => none

end Shell

/-! ### What the tree says -/

/-- The files at the descriptors 0, 1 and 2 along a path. -/
def bindings : Path → Nat → File
  | [] => .given
  | .redir fd :: path => update (bindings path) fd (.opened path)
  | .left k :: path => update (bindings path) 1 (.writeEnd k)
  | .right k :: path => update (bindings path) 0 (.readEnd k)
  | .first :: path | .second :: path | .back :: path => bindings path

def Cmd.down : Cmd → Branch → Option Cmd
  | .redir cmd _ _ _ fd, .redir fd' => if fd = fd' then some cmd else none
  | .pipe left _, .left _ => some left
  | .pipe _ right, .right _ => some right
  | .list left _, .first => some left
  | .list _ right, .second => some right
  | .back cmd, .back => some cmd
  | _, _ => none

def Cmd.at (root : Cmd) : Path → Option Cmd
  | [] => some root
  | branch :: path => (root.at path).bind (·.down branch)

/-- Every redirection of the tree is of a standard descriptor. -/
def Cmd.Standard : Cmd → Prop
  | .exec _ => True
  | .redir cmd _ _ _ fd => fd < 3 ∧ cmd.Standard
  | .pipe left right | .list left right => left.Standard ∧ right.Standard
  | .back cmd => cmd.Standard

def CmdTree : Type := { cmd : Cmd // cmd.Standard }

end Xv6.Sh
