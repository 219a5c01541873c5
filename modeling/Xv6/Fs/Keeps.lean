/-
**What a call keeps.**

A property of the disk and the inode table (`Stable`) that the functions on a single inode keep is
kept by every call that leaves directories alone, and by the others if it is kept by their lookups
and by the functions that write directories (`FsCall.Writes`).
-/

import Xv6.Fs.Syscall

set_option linter.unusedSectionVars false

namespace Xv6

open Lib

variable {P A B : Type} {I : Fs P → Prop} {s t u : Fs P}

/-- The program keeps the property, if it does not fail. -/
def Keeps (I : Fs P → Prop) (x : FsM P A) : Prop := Triple I x (fun _ => I)

/-- The copy of an inode in memory can be used. -/
def Fs.Valid (t : Fs P) (i : Fin NINODE) : Prop := 0 < (t.itable i).ref ∧ (t.itable i).valid = true

/-- A property of the disk and the inode table. -/
def OfInodes (I : Fs P → Prop) : Prop :=
  ∀ s t : Fs P, t.ninodes = s.ninodes → t.disk = s.disk → t.itable = s.itable → I s → I t

/-- **A property of the disk and the inode table** that the functions on one inode keep. -/
structure Stable (I : Fs P → Prop) : Prop where
  congr : OfInodes I
  ilock : ∀ i, Triple I (ilock i) (fun _ u => I u ∧ u.Valid i)
  iunlock : ∀ i, Keeps I (iunlock i)
  iput : ∀ i, Keeps I (iput i)
  itrunc : ∀ t i, I t → t.Valid i → (t.itable i).type = .file →
    From t (itrunc i) (fun _ => I)

namespace Keeps

variable {x y : FsM P A} {f : A → FsM P B}

theorem bind (first : Keeps I x) (rest : ∀ a, Keeps I (f a)) : Keeps I (x >>= f) :=
  Triple.bind first rest

theorem pure {a : A} : Keeps I (Pure.pure a : FsM P A) := Triple.pure fun _ inv => inv

theorem throw {e : FsPanic} : Keeps I (MonadExcept.throw e : FsM P A) :=
  Triple.throw fun _ _ => trivial

theorem get : Keeps I (MonadState.get : FsM P (Fs P)) := fun _ inv => inv

theorem ite {c : Prop} [Decidable c] (yes : Keeps I x) (no : Keeps I y) :
    Keeps I (if c then x else y) :=
  Triple.ite (fun _ => yes) fun _ => no

end Keeps

/-! ### Files -/

namespace OfInodes

variable (congr : OfInodes I)

include congr

/-- What changes neither the disk nor the inode table keeps the property. -/
theorem change {f : Fs P → Fs P} (same : ∀ t, (f t).ninodes = t.ninodes ∧ (f t).disk = t.disk ∧
    (f t).itable = t.itable) : Keeps I (MonadStateOf.modifyGet (fun t => ((), f t)) : FsM P Unit) :=
  Triple.modify fun t inv => congr t (f t) (same t).1 (same t).2.1 (same t).2.2 inv

theorem change_bind {f : Fs P → Fs P} {g : Unit → FsM P A} (same : ∀ t, (f t).ninodes = t.ninodes ∧
    (f t).disk = t.disk ∧ (f t).itable = t.itable) (rest : Keeps I (g ())) :
    Keeps I (MonadStateOf.modifyGet (fun t => ((), f t)) >>= g) :=
  Keeps.bind (congr.change same) fun _ => rest

theorem filealloc : Keeps I (filealloc : FsM P (Option (Fin NFILE))) := by
  refine Keeps.get.bind fun s => ?_
  split
  · exact Keeps.pure
  · exact congr.change_bind (fun t => ⟨rfl, rfl, rfl⟩) Keeps.pure

theorem filedup (f : Fin NFILE) : Keeps I (filedup f : FsM P (Fin NFILE)) := by
  refine Keeps.get.bind fun s => Keeps.ite (Keeps.throw.bind fun _ => ?_) ?_
  all_goals exact congr.change_bind (fun t => ⟨rfl, rfl, rfl⟩) Keeps.pure

theorem fdalloc [DecidableEq P] (p : P) (f : Fin NFILE) : Keeps I (fdalloc p f) := by
  refine Keeps.get.bind fun s => ?_
  split
  · exact Keeps.pure
  · exact congr.change_bind (fun t => ⟨rfl, rfl, rfl⟩) Keeps.pure

/-- `fork` duplicates the open files one by one. -/
theorem forkFiles [DecidableEq P] (p np : P) (fds : List (Fin NOFILE)) :
    Keeps I (forkFiles p np fds) := by
  induction fds with
  | nil => exact Keeps.pure
  | cons fd rest ih =>
    refine Keeps.get.bind fun s => ?_
    split
    · exact ih
    · refine (congr.filedup _).bind fun _ => ?_
      exact congr.change_bind (fun t => ⟨rfl, rfl, rfl⟩) ih

end OfInodes

namespace Stable

variable (stable : Stable I)

include stable

theorem iunlockput (i : Fin NINODE) : Keeps I (iunlockput i) :=
  (stable.iunlock i).bind fun _ => stable.iput i

/-- The last `fileclose` of an inode drops its reference. -/
theorem fileclose (f : Fin NFILE) : Keeps I (fileclose f : FsM P Unit) := by
  refine Keeps.get.bind fun s => Keeps.ite (Keeps.throw.bind fun _ => ?_) ?_
  all_goals
    refine Keeps.ite (stable.congr.change fun t => ⟨rfl, rfl, rfl⟩) ?_
    refine stable.congr.change_bind (fun t => ⟨rfl, rfl, rfl⟩) ?_
    split
    · exact stable.congr.change fun t => ⟨rfl, rfl, rfl⟩
    · exact stable.iput _
    · exact stable.iput _
    · exact Keeps.pure

variable [DecidableEq P] {p : P} {path : List Byte}

/-- The way out of `pipe` after a failure. -/
theorem closeBoth (f g : Fin NFILE) {a : A} :
    Keeps I (do Xv6.fileclose f; Xv6.fileclose g; return a : FsM P A) :=
  (stable.fileclose f).bind fun _ => (stable.fileclose g).bind fun _ => Keeps.pure

theorem pipealloc (page : Option Nat) : Keeps I (pipealloc page : FsM P _) := by
  refine stable.congr.filealloc.bind fun r => ?_
  cases r with
  | none => exact Keeps.pure
  | some f =>
  refine stable.congr.filealloc.bind fun r => ?_
  cases r with
  | none => exact (stable.fileclose f).bind fun _ => Keeps.pure
  | some g =>
  cases page with
  | none => exact stable.closeBoth f g
  | some page =>
    refine stable.congr.change_bind (fun t => ⟨rfl, rfl, rfl⟩) ?_
    refine stable.congr.change_bind (fun t => ⟨rfl, rfl, rfl⟩) ?_
    exact stable.congr.change_bind (fun t => ⟨rfl, rfl, rfl⟩) Keeps.pure

theorem sysDup (p : P) (fd : Int) : Keeps I (sysDup p fd) := by
  refine Keeps.get.bind fun s => ?_
  split
  · exact Keeps.pure
  · refine (stable.congr.fdalloc p _).bind fun r => ?_
    cases r with
    | none => exact Keeps.pure
    | some _ => exact (stable.congr.filedup _).bind fun _ => Keeps.pure

theorem sysClose (p : P) (fd : Int) : Keeps I (sysClose p fd) := by
  refine Keeps.get.bind fun s => ?_
  split
  · exact Keeps.pure
  · exact stable.congr.change_bind (fun t => ⟨rfl, rfl, rfl⟩)
      ((stable.fileclose _).bind fun _ => Keeps.pure)

theorem sysPipe (p : P) (page : Option Nat) (copied : Bool) : Keeps I (sysPipe p page copied) := by
  refine (stable.pipealloc page).bind fun r => ?_
  cases r with
  | none => exact Keeps.pure
  | some r =>
  refine (stable.congr.fdalloc p r.1).bind fun fd0 => ?_
  cases fd0 with
  | none => exact stable.closeBoth r.1 r.2
  | some fd0 =>
  refine (stable.congr.fdalloc p r.2).bind fun fd1 => ?_
  cases fd1 with
  | none => exact stable.congr.change_bind (fun t => ⟨rfl, rfl, rfl⟩) (stable.closeBoth r.1 r.2)
  | some fd1 =>
    refine Keeps.ite Keeps.pure ?_
    refine stable.congr.change_bind (fun t => ⟨rfl, rfl, rfl⟩) ?_
    exact stable.congr.change_bind (fun t => ⟨rfl, rfl, rfl⟩) (stable.closeBoth r.1 r.2)

/-- `exit` closes the open files one by one. -/
theorem exitFiles (p : P) (fds : List (Fin NOFILE)) : Keeps I (exitFiles p fds) := by
  induction fds with
  | nil => exact Keeps.pure
  | cons fd rest ih =>
    refine Keeps.get.bind fun s => ?_
    split
    · exact ih
    · refine (stable.fileclose _).bind fun _ => ?_
      exact stable.congr.change_bind (fun t => ⟨rfl, rfl, rfl⟩) ih

theorem exitClose (p : P) : Keeps I (exitClose p) := by
  refine Keeps.get.bind fun s => Keeps.ite (Keeps.throw.bind fun _ => ?_) ?_
  all_goals
    refine (stable.exitFiles p _).bind fun _ => Keeps.get.bind fun s => ?_
    split
    · exact Keeps.throw.bind fun _ => stable.congr.change fun t => ⟨rfl, rfl, rfl⟩
    · exact (stable.iput _).bind fun _ => stable.congr.change fun t => ⟨rfl, rfl, rfl⟩

/-! ### Calls with a path -/

/-- `open` of an inode that is locked; with `O_TRUNC` a file is cut. -/
theorem openInode (p : P) (omode : OpenMode) {ip : Fin NINODE} (inv : I t) (valid : t.Valid ip) :
    From t (openInode p omode ip) (fun _ => I) := by
  have drop : Keeps I (do Xv6.iunlockput ip; return none : FsM P (Option (Fin NOFILE))) :=
    (stable.iunlockput ip).bind fun _ => Keeps.pure
  refine .get_bind fun v same => ?_
  subst same
  refine .ite (fun _ => drop.known inv) fun _ => ?_
  -- the files change and the inode stays as it is
  have congr : OfInodes fun u : Fs P => I u ∧ u.Valid ip ∧
    (u.itable ip).type = (v.itable ip).type := by
    intro a b ninodes disk itable here
    refine ⟨stable.congr a b ninodes disk itable here.1, ?_⟩
    unfold Fs.Valid
    rw [itable]
    exact here.2
  refine .bind (congr.filealloc.known ⟨inv, valid, rfl⟩) fun r => ?_
  cases r with
  | none => exact drop.of_pre fun w here => here.1
  | some f =>
  refine .bind (congr.fdalloc p f) fun r => ?_
  cases r with
  | none => exact .bind ((stable.fileclose f).of_pre fun w here => here.1) fun _ => drop
  | some fd =>
  refine .bind (congr.change fun t => ⟨rfl, rfl, rfl⟩) fun _ => ?_
  have unlock : Keeps I (do Xv6.iunlock ip; return some fd : FsM P (Option (Fin NOFILE))) :=
    (stable.iunlock ip).bind fun _ => Keeps.pure
  refine .ite (fun cut => ?_) fun _ => unlock.of_pre fun w here => here.1
  refine .bind (.each fun w here => ?_) fun _ => unlock
  exact stable.itrunc w ip here.1 here.2.1 (here.2.2.trans cut.2)

/-- **`open`**, if its lookup or its `create` keeps the property. -/
theorem sysOpen {omode : OpenMode} (look : From s (namei p path) (fun _ => I))
    (creates : omode.create = true → From s (create p path .file 0 0)
      (fun r u => I u ∧ ∀ ip, r = some ip → u.Valid ip)) :
    From s (sysOpen p (some path) omode) (fun _ => I) := by
  refine .ite (fun new => ?_) fun _ => ?_
  · refine .bind (creates new) fun r => ?_
    cases r with
    | none => exact .pure fun u here => here.1
    | some ip => exact .each fun u here => stable.openInode p omode here.1 (here.2 ip rfl)
  · refine .bind look fun r => ?_
    cases r with
    | none => exact .pure fun u here => here
    | some ip =>
    refine .bind (stable.ilock ip) fun _ => ?_
    refine .get_bind fun u here => .ite (fun _ => ?_) fun _ => ?_
    · exact .bind ((stable.iunlockput ip).known here.1) fun _ => .pure fun v kept => kept
    · exact stable.openInode p omode here.1 here.2

/-- `mkdir` and `mknod`, if `create` keeps the property. -/
theorem makeNode {type : FType} {major minor : BitVec 16}
    (creates : From s (create p path type major minor)
      (fun r u => I u ∧ ∀ ip, r = some ip → u.Valid ip)) :
    From s (makeNode p (some path) type major minor) (fun _ => I) := by
  refine .bind creates fun r => ?_
  cases r with
  | none => exact .pure fun u here => here.1
  | some ip =>
    refine .bind ((stable.iunlockput ip).of_pre fun u here => here.1) fun _ => ?_
    exact .pure fun u kept => kept

/-- `chdir` lets go of the old working directory. -/
theorem sysChdir (look : From s (namei p path) (fun _ => I)) :
    From s (sysChdir p (some path)) (fun _ => I) := by
  refine .bind look fun r => ?_
  cases r with
  | none => exact Keeps.pure
  | some ip =>
  refine .bind ((stable.ilock ip).to_post fun _ _ here => here.1) fun _ => ?_
  refine Keeps.get.bind fun v => Keeps.ite ?_ ?_
  · exact (stable.iunlockput ip).bind fun _ => Keeps.pure
  refine (stable.iunlock ip).bind fun _ => ?_
  have setCwd :
    Keeps I (do modify fun s => { s with cwd := Function.update s.cwd p (some ip) }; return true :
      FsM P Bool) := stable.congr.change_bind (fun t => ⟨rfl, rfl, rfl⟩) Keeps.pure
  split
  · exact Keeps.throw.bind fun _ => setCwd
  · exact (stable.iput _).bind fun _ => setCwd

theorem execFile (loads : Bool) (look : From s (namei p path) (fun _ => I)) :
    From s (execFile p (some path) loads) (fun _ => I) := by
  refine .bind look fun r => ?_
  cases r with
  | none => exact Keeps.pure
  | some ip =>
  refine .bind ((stable.ilock ip).to_post fun _ _ here => here.1) fun _ => ?_
  exact (stable.iunlockput ip).bind fun _ => Keeps.pure

end Stable

/-! ### All calls -/

variable [DecidableEq P]

/-- The functions of a call that write directories, or share an inode, keep the property. -/
def FsCall.Writes (I : Fs P → Prop) (s : Fs P) : FsCall P → Prop
  | .open p (some path) omode => omode.create = true →
    From s (create p path .file 0 0)
      (fun r u => I u ∧ ∀ ip, r = some ip → u.Valid ip)
  | .mkdir p (some path) => From s (create p path .dir 0 0)
      (fun r u => I u ∧ ∀ ip, r = some ip → u.Valid ip)
  | .mknod p (some path) major minor => From s (create p path .device major minor)
      (fun r u => I u ∧ ∀ ip, r = some ip → u.Valid ip)
  | .link p (some old) (some new) =>
      From s (sysLink p (some old) (some new)) (fun _ => I)
  | .unlink p (some path) => From s (sysUnlink p (some path)) (fun _ => I)
  | .fork p (some np) => From s (forkShare p (some np)) (fun _ => I)
  | _ => True

/-- **Every call keeps a stable property**, if lookups and the functions that write do. -/
theorem Stable.call (stable : Stable I) (here : I s)
    (look : ∀ p path, From s (namei p path) (fun _ => I))
    (call : FsCall P) (writes : call.Writes I s) : From s call.run (fun _ => I) := by
  have only {A : Type} {x : FsM P A} (keeps : From s x (fun _ => I)) :
      From s (do let _ ← x) (fun _ => I) :=
    Triple.bind keeps fun _ => .pure fun _ kept => kept
  have same {A : Type} {a : A} : From s (pure a : FsM P A) (fun _ => I) :=
    Triple.pure fun t isS => isS ▸ here
  cases call with
  | «open» p path omode =>
    cases path with
    | none => exact only same
    | some path => exact only (stable.sysOpen (look p path) writes)
  | close p fd => exact only ((stable.sysClose p fd).known here)
  | dup p fd => exact only ((stable.sysDup p fd).known here)
  | pipe p page copied => exact only ((stable.sysPipe p page copied).known here)
  | fork p np =>
    cases np with
    | none => exact only same
    | some np => exact only writes
  | exec p path loads =>
    cases path with
    | none => exact only same
    | some path => exact only (stable.execFile loads (look p path))
  | chdir p path =>
    cases path with
    | none => exact only same
    | some path => exact only (stable.sysChdir (look p path))
  | link p old new =>
    cases old with
    | none => exact only same
    | some old =>
      cases new with
      | none => exact only same
      | some new => exact only writes
  | unlink p path =>
    cases path with
    | none => exact only same
    | some path => exact only writes
  | mkdir p path | mknod p path major minor =>
    cases path with
    | none => exact only same
    | some path => exact only (stable.makeNode writes)
  | exit p => exact (stable.exitClose p).known here

end Xv6
