/-
**The parser of the shell** (`user/sh.c`): `parsecmd` and the functions it calls, and
`nulterminate`.

The parsing functions call each other through `parseblock`, so each takes a bound on the depth of
calls and loop rounds that it may use (`ParseStop.fuel` if it is too small). `parsecmd` passes one
that is enough for every input of that length (`Xv6.Sh.Grammar` proves it).

`parseexec` fills in an `execcmd` that the redirections around it already point to. Its argument
list is therefore written into the tree: `Cmd.setArgv` goes down to the `execcmd` below the
redirections.
-/

import Xv6.Sh.Token

namespace Xv6.Sh

open Lib

def MAXARGS : Nat := 10

def O_RDONLY : Nat := 0x000

def O_WRONLY : Nat := 0x001

def O_CREATE : Nat := 0x200

def O_TRUNC : Nat := 0x400

inductive Cmd
  /-- the pairs of `argv` and `eargv` before the first null pointer -/
  | exec (argv : List (Nat × Nat))
  | redir (cmd : Cmd) (file efile : Nat) (mode fd : Nat)
  | pipe (left right : Cmd)
  | list (left right : Cmd)
  | back (cmd : Cmd)
  deriving DecidableEq

/-- Write the arguments of the `execcmd` below the redirections. -/
def Cmd.setArgv (argv : List (Nat × Nat)) : Cmd → Cmd
  | .exec _ => .exec argv
  | .redir cmd file efile mode fd => .redir (cmd.setArgv argv) file efile mode fd
  | cmd => cmd

section Parsing

variable (buf : List Byte) (es : Nat)

/-- The loop of `parseline`. -/
def parsebacks : Nat → Cmd → ParseM Cmd
  | 0, _ => throw .fuel
  | fuel + 1, cmd => do
    let amp ← peek buf es [chr '&']
    if amp then do
      let _ ← gettoken buf es
      parsebacks fuel (.back cmd)
    else return cmd

def parseredirs : Nat → Cmd → ParseM Cmd
  | 0, _ => throw .fuel
  | fuel + 1, cmd => do
    let angle ← peek buf es [chr '<', chr '>']
    if angle then do
      let tok ← gettoken buf es
      let file ← gettoken buf es
      if file.ret ≠ chr 'a' then throw (.panic .missingFile)
      else if tok.ret = chr '<' then
        parseredirs fuel (.redir cmd file.q file.eq O_RDONLY 0)
      else if tok.ret = chr '>' then
        parseredirs fuel (.redir cmd file.q file.eq (O_WRONLY ||| O_CREATE ||| O_TRUNC) 1)
      else if tok.ret = chr '+' then
        parseredirs fuel (.redir cmd file.q file.eq (O_WRONLY ||| O_CREATE) 1)
      else parseredirs fuel cmd
    else return cmd

/-- The loop of `parseexec`; `argv` is what it has stored so far. -/
def parseargs : Nat → Cmd → List (Nat × Nat) → ParseM Cmd
  | 0, _, _ => throw .fuel
  | fuel + 1, ret, argv => do
    let ends ← peek buf es [chr '|', chr ')', chr '&', chr ';']
    if ends then return ret
    else do
      let tok ← gettoken buf es
      if tok.ret = 0 then return ret
      else if tok.ret ≠ chr 'a' then throw (.panic .syntaxError)
      else if MAXARGS ≤ argv.length + 1 then throw (.panic .tooManyArgs)
      else do
        let ret ← parseredirs buf es fuel (ret.setArgv (argv ++ [(tok.q, tok.eq)]))
        parseargs fuel ret (argv ++ [(tok.q, tok.eq)])

mutual

def parseline : Nat → ParseM Cmd
  | 0 => throw .fuel
  | fuel + 1 => do
    let cmd ← parsepipe fuel
    let cmd ← parsebacks buf es fuel cmd
    let semi ← peek buf es [chr ';']
    if semi then do
      let _ ← gettoken buf es
      let right ← parseline fuel
      return .list cmd right
    else return cmd

def parsepipe : Nat → ParseM Cmd
  | 0 => throw .fuel
  | fuel + 1 => do
    let cmd ← parseexec fuel
    let bar ← peek buf es [chr '|']
    if bar then do
      let _ ← gettoken buf es
      let right ← parsepipe fuel
      return .pipe cmd right
    else return cmd

def parseexec : Nat → ParseM Cmd
  | 0 => throw .fuel
  | fuel + 1 => do
    let lpar ← peek buf es [chr '(']
    if lpar then parseblock fuel
    else do
      let ret ← parseredirs buf es fuel (.exec [])
      parseargs buf es fuel ret []

def parseblock : Nat → ParseM Cmd
  | 0 => throw .fuel
  | fuel + 1 => do
    let lpar ← peek buf es [chr '(']
    if lpar then do
      let _ ← gettoken buf es
      let cmd ← parseline fuel
      let rpar ← peek buf es [chr ')']
      if rpar then do
        let _ ← gettoken buf es
        parseredirs buf es fuel cmd
      else throw (.panic .missingParen)
    else throw (.panic .parseblock)

end

end Parsing

def nulterminate : Cmd → List Byte → List Byte
  | .exec argv, buf => argv.foldl (fun buf arg => buf.set arg.2 0) buf
  | .redir cmd _ efile _ _, buf => (nulterminate cmd buf).set efile 0
  | .pipe left right, buf => nulterminate right (nulterminate left buf)
  | .list left right, buf => nulterminate right (nulterminate left buf)
  | .back cmd, buf => nulterminate cmd buf

/-- `parsecmd` up to `nulterminate`. -/
def parsetree (buf : List Byte) : ParseM Cmd := do
  let es := strlen buf
  let cmd ← parseline buf es (4 * es + 4)
  let _ ← peek buf es []
  let s ← get
  if s ≠ es then throw (.panic .syntaxError) else return cmd

/-- The tree that `parsecmd` returns, and the memory that it leaves. -/
def parsecmd (buf : List Byte) : Except ParseStop (Cmd × List Byte) :=
  match parsetree buf 0 with
  | .ok (cmd, _) => .ok (cmd, nulterminate cmd buf)
  | .error e => .error e

end Xv6.Sh
