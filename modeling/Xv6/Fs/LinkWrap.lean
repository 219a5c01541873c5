/-
**A link count that wraps around.**

A directory that is unlinked while it is a working directory keeps its entries until it is freed,
and when it is freed the link counts of the inodes they name stay as they are. A process that makes
such a directory, links a file into it and leaves it adds one to the link count of the file, which
keeps one name. After 65535 rounds the count is 0 again: the last `close` frees the file, and the
next `mkdir` gets its inode, so that two entries name one directory.

The state at the start of a round is `looped` with the count; each call of a round is executed on
it.
-/

import Xv6.Fs.TreeShape

set_option maxRecDepth 100000

namespace Xv6.LinkWrap

open Lib Function

/-! ### The states of a round -/

/-- A file structure that is not in use. -/
def closed : File := ⟨.none, 0, false, false, 0, ⟨0, ninode_pos⟩, 0, 0⟩

/-- The file table, with the root directory and the device open. -/
def files : Fin NFILE → File :=
  let taken : File := { closed with ref := 1 }
  let table := update (update (fun _ => closed) ⟨0, by decide⟩ taken) ⟨0, by decide⟩
    ⟨.inode, 1, true, false, 0, ⟨0, ninode_pos⟩, 0, 0⟩
  update (update table ⟨1, by decide⟩ taken) ⟨1, by decide⟩
    ⟨.device, 1, true, false, 0, ⟨1, by decide⟩, 0, 1⟩

def descriptors (p : Unit) (fd : Fin NOFILE) : Option (Fin NFILE) :=
  if p = () ∧ fd = ⟨1, by decide⟩ then some ⟨1, by decide⟩
  else if p = () ∧ fd = ⟨0, by decide⟩ then some ⟨0, by decide⟩ else none

/-- A state in which three inodes and three entries of the inode table matter. -/
def state (d1 d2 d3 : Dinode) (i0 i1 i2 : Inode) (ftable : Fin NFILE → File)
    (ofile : Unit → Fin NOFILE → Option (Fin NFILE)) (cwd : Fin NINODE) : Fs Unit where
  ninodes := 10
  disk := fun d => if d = 1 then d1 else if d = 2 then d2 else if d =
    3 then d3 else ⟨.free, 0, 0, 0, []⟩
  itable := fun i => if i.val = 0 then i0 else if i.val = 1 then i1 else if i.val = 2 then i2
    else ⟨0, 0, false, false, .free, 0, 0, 0⟩
  ftable := ftable
  pipes := fun _ => none
  ofile := ofile
  cwd := fun _ => some cwd
  initproc := ()

/-- The root directory with the file `/f` and one more entry. -/
def root (nlink : BitVec 16) (e : Dirent) : Dinode :=
  ⟨.dir, 0, 0, nlink, [⟨1, dot⟩, ⟨1, dotdot⟩, ⟨2, [0x66]⟩, e]⟩

/-- The file, on disk and in memory. -/
def file (count : BitVec 16) : Dinode := ⟨.device, 1, 1, count, []⟩

def fileCopy (count : BitVec 16) : Inode := ⟨2, 1, false, true, .device, 1, 1, count⟩

/-- **The start of a round**: the file is open, and its link count is `count`. The third entry of
the inode table is free. -/
def looped (count : BitVec 16) (stale : Nat) : Fs Unit :=
  state (root 1 ⟨0, []⟩) (file count) ⟨.free, 0, 0, 0, []⟩ ⟨1, 2, false, true, .dir, 0, 0, 1⟩
    (fileCopy count)
    ⟨stale, 0, false, false, .free, 0, 0, 0⟩ files descriptors ⟨0, ninode_pos⟩

/-- There is a directory `/d`. -/
def made (count : BitVec 16) : Fs Unit :=
  state (root 2 ⟨3, [0x64]⟩) (file count) ⟨.dir, 0, 0, 1, [⟨3, dot⟩, ⟨1, dotdot⟩]⟩
    ⟨1, 2, false, true, .dir, 0, 0, 2⟩ (fileCopy count) ⟨3, 0, false, true, .dir, 0, 0,
      1⟩ files descriptors
    ⟨0, ninode_pos⟩

def entered (count : BitVec 16) : Fs Unit :=
  state (root 2 ⟨3, [0x64]⟩) (file count) ⟨.dir, 0, 0, 1, [⟨3, dot⟩, ⟨1, dotdot⟩]⟩
    ⟨1, 1, false, true, .dir, 0, 0, 2⟩ (fileCopy count) ⟨3, 1, false, true, .dir, 0, 0,
      1⟩ files descriptors
    ⟨2, by decide⟩

def orphaned (count : BitVec 16) : Fs Unit :=
  state (root 1 ⟨0, []⟩) (file count) ⟨.dir, 0, 0, 0, [⟨3, dot⟩, ⟨1, dotdot⟩]⟩
    ⟨1, 1, false, true, .dir, 0, 0, 1⟩ (fileCopy count) ⟨3, 1, false, true, .dir, 0, 0,
      0⟩ files descriptors
    ⟨2, by decide⟩

/-- It has a link to the file. -/
def linked (count : BitVec 16) : Fs Unit :=
  state (root 1 ⟨0, []⟩) (file (count + 1)) ⟨.dir, 0, 0, 0, [⟨3, dot⟩, ⟨1, dotdot⟩, ⟨2, [0x78]⟩]⟩
    ⟨1, 1, false, true, .dir, 0, 0, 1⟩ (fileCopy (count + 1)) ⟨3, 1, false, true, .dir, 0, 0,
      0⟩ files descriptors
    ⟨2, by decide⟩

/-! ### Execution -/

/-- All of a state, split so that each part can be computed. -/
def parts (s : Fs Unit) :=
  ((s.ninodes, s.disk 0, s.disk 1, s.disk 2, s.disk 3, fun n => s.disk (n + 4)),
    (s.itable ⟨0, ninode_pos⟩, s.itable ⟨1, by decide⟩, s.itable ⟨2, by decide⟩,
      fun i : Fin 47 => s.itable ⟨i.val + 3, Nat.add_lt_add_right i.isLt 3⟩),
    s.ftable, s.pipes, s.ofile, s.cwd ())

theorem eq_of_parts {s t : Fs Unit} (same : parts s = parts t) : s = t := by
  obtain ⟨ninodes, disk, itable, ftable, pipes, ofile, cwd, initproc⟩ := s
  obtain ⟨ninodes', disk', itable', ftable', pipes', ofile', cwd', initproc'⟩ := t
  simp only [parts, Prod.mk.injEq] at same
  obtain ⟨⟨rfl, disk0, disk1, disk2, disk3, disks⟩, ⟨inode0, inode1, inode2, inodes⟩, rfl, rfl, rfl,
    cwds⟩ := same
  obtain rfl : disk = disk' := by
    funext d
    match d with
    | 0 => exact disk0
    | 1 => exact disk1
    | 2 => exact disk2
    | 3 => exact disk3
    | n + 4 => exact congrFun disks n
  obtain rfl : itable = itable' := by
    funext i
    match i with
    | ⟨0, _⟩ => exact inode0
    | ⟨1, _⟩ => exact inode1
    | ⟨2, _⟩ => exact inode2
    | ⟨n + 3, inside⟩ => exact congrFun inodes ⟨n, Nat.lt_of_add_lt_add_right inside⟩
  obtain rfl : cwd = cwd' := funext fun _ => cwds
  rfl

theorem run_of_parts {s t : Fs Unit} {trace : List (FsCall Unit)}
    (done : (execAll FsCall.complete trace s).map parts = some (parts t)) :
    Run FsCall.Step s trace t := by
  obtain ⟨u, executed, same⟩ := Option.map_eq_some_iff.mp done
  rw [eq_of_parts same] at executed
  exact run_of_execAll executed

section Round

variable (count : BitVec 16) (stale : Nat)

theorem run_mkdir :
    Run FsCall.Step (looped count stale) [.mkdir () (some [slash, 0x64])] (made count) :=
  run_of_parts (by cbv)

theorem run_chdir : Run FsCall.Step (made count) [.chdir () (some [slash, 0x64])] (entered count) :=
  run_of_parts (by cbv)

theorem run_unlink :
    Run FsCall.Step (entered count) [.unlink () (some [slash, 0x64])] (orphaned count) :=
  run_of_parts (by cbv)

theorem run_link :
    Run FsCall.Step (orphaned count) [.link () (some [slash, 0x66]) (some [0x78])] (linked count) :=
  run_of_parts (by cbv)

theorem run_leave :
    Run FsCall.Step (linked count) [.chdir () (some [slash])] (looped (count + 1) 3) :=
  run_of_parts (by cbv)

def round : List (FsCall Unit) :=
  [.mkdir () (some [slash, 0x64]), .chdir () (some [slash, 0x64]), .unlink () (some [slash, 0x64]),
    .link () (some [slash, 0x66]) (some [0x78]), .chdir () (some [slash])]

theorem run_round : Run FsCall.Step (looped count stale) round (looped (count + 1) 3) :=
  ((((run_mkdir count stale).append (run_chdir count)).append (run_unlink count)).append
    (run_link count)).append
    (run_leave count)

end Round

/-- The calls before the first round: `/f` is made, the root directory gets a free entry, and both
are opened. -/
def prologue : List (FsCall Unit) :=
  [.mknod () (some [slash, 0x66]) 1 1, .mkdir () (some [slash, 0x64]),
    .unlink () (some [slash, 0x64]), .open () (some [slash]) ⟨false, false, false, false⟩,
    .open () (some [slash, 0x66]) ⟨false, false, false, false⟩]

theorem run_prologue : Run FsCall.Step (Fs.boot 10 emptyImage ()) prologue (looped 1 0) :=
  run_of_parts (by cbv)

theorem run_rounds (n : Nat) : ∃ stale, Run FsCall.Step (Fs.boot 10 emptyImage ())
    (prologue ++ (List.replicate n round).flatten) (looped (1 + BitVec.ofNat 16 n) stale) := by
  induction n with
  | zero => exact ⟨0, by simpa using run_prologue⟩
  | succ n ih =>
    obtain ⟨stale, run⟩ := ih
    have next := run.append (run_round (1 + BitVec.ofNat 16 n) stale)
    have grown : 1 + BitVec.ofNat 16 (n + 1) = 1 + BitVec.ofNat 16 n + 1 := by
      rw [BitVec.ofNat_add, BitVec.add_assoc]
      rfl
    refine ⟨3, ?_⟩
    rw [List.replicate_succ', List.flatten_concat, ← List.append_assoc, grown]
    exact next

/-! ### Two names for one directory -/

def epilogue : List (FsCall Unit) := [.close () 1, .mkdir () (some [slash, 0x67])]

def wrapCalls : List (FsCall Unit) := prologue ++ (List.replicate 65535 round).flatten ++ epilogue

theorem directory_named_twice :
    ∃ t : Fs Unit, Run FsCall.Step (Fs.boot 10 emptyImage ()) wrapCalls t ∧
    (t.disk ROOTINO).links = [⟨2, [0x66]⟩, ⟨2, [0x67]⟩] ∧ (t.disk 2).type = .dir ∧
    FromRoot t.disk 2 ∧
    linkCount t.ninodes t.disk 2 = 2 := by
  obtain ⟨stale, run⟩ := run_rounds 65535
  obtain ⟨t, last, seen⟩ := run_of_observed
    (fun t : Fs Unit => ((t.disk ROOTINO).links, (t.disk 2).type, linkCount t.ninodes t.disk 2))
    (show (execAll FsCall.complete epilogue (looped 0 stale)).map _ =
      some ([⟨2, [0x66]⟩, ⟨2, [0x67]⟩], .dir, 2) by cbv)
  simp only [Prod.mk.injEq] at seen
  obtain ⟨links, dir, twice⟩ := seen
  refine ⟨t, run.append last, links, dir, ?_, twice⟩
  apply Relation.ReflTransGen.single
  refine ⟨⟨2, [0x66]⟩, ?_, rfl⟩
  rw [show imageLinks t.disk ROOTINO = _ from links]
  exact List.mem_cons_self

end Xv6.LinkWrap
