/-
**Reference counts of the inode functions.**

`Moves s k t`: the call has so far changed only the inode table and the disk since `s`, and the
reference count of each entry by `k`. `iget` adds one at the entry it returns and `iput` takes one
away; the other functions leave the counts alone. `namex` changes the count of the entry it returns,
by one.
-/

import Xv6.Fs.Syscall
import Xv6.Lib.Count

set_option linter.unusedSectionVars false

namespace Xv6

open Lib Function

variable {P : Type}

/-! ### What the functions compute -/

/-- `iget` takes the entry that holds the inode, or else the first one without references. -/
theorem iget_run (inum : Nat) (s : Fs P) : iget inum s = match s.holding inum with
      | some i => .ok (i, s.setInode i { s.itable i with ref := (s.itable i).ref + 1 })
      | none =>
        match s.emptySlot with
        | none => .error .igetNoInodes
        | some i =>
          .ok (i, s.setInode i { s.itable i with inum := inum, ref := 1, valid := false }) := by
  unfold iget
  cases found : s.holding inum with
  | some i => simp [found]
  | none =>
    cases empty : s.emptySlot with
    | none => simp [found, empty]
    | some i => simp [found, empty]

/-- `ilock` reads the inode from disk the first time that it is locked. -/
theorem ilock_run (i : Fin NINODE) (s : Fs P) :
    ilock i s = if (s.itable i).ref < 1 then .error .ilock
      else if (s.itable i).locked then .error .deadlock
      else if (s.itable i).valid then .ok ((), s.setInode i { s.itable i with locked := true })
      else if (s.disk (s.itable i).inum).type = .free then .error .ilockNoType
      else .ok ((), s.setInode i { s.itable i with
        locked := true
        type := (s.disk (s.itable i).inum).type
        major := (s.disk (s.itable i).inum).major
        minor := (s.disk (s.itable i).inum).minor
        nlink := (s.disk (s.itable i).inum).nlink
        valid := true }) := by
  unfold ilock
  by_cases noRef : (s.itable i).ref < 1
  · simp [noRef]
  by_cases locked : (s.itable i).locked = true
  · simp [noRef, locked]
  by_cases valid : (s.itable i).valid = true
  · simp [noRef, locked, valid]
  by_cases free : (s.disk (s.itable i).inum).type = .free
  · simp [noRef, locked, valid, free]
  · simp [noRef, locked, valid, free, Fs.setInode]

theorem iunlock_run (i : Fin NINODE) (s : Fs P) : iunlock i s =
      if (s.itable i).locked = false ∨ (s.itable i).ref < 1 then .error .iunlock
      else .ok ((), s.setInode i { s.itable i with locked := false }) := by
  unfold iunlock
  by_cases bad : (s.itable i).locked = false ∨ (s.itable i).ref < 1
  · simp [bad]
  · simp [bad]

def Fs.Freed (s : Fs P) (i : Fin NINODE) : Prop :=
  (s.itable i).ref = 1 ∧ (s.itable i).valid = true ∧ (s.itable i).nlink = 0

instance (s : Fs P) (i : Fin NINODE) : Decidable (s.Freed i) := inferInstanceAs (Decidable (_ ∧ _))

/-- `iput` frees an inode without links when its last reference is dropped. -/
theorem iput_run (i : Fin NINODE) (s : Fs P) :
    iput i s =
      if s.Freed i then
        if (s.itable i).locked then .error .deadlock
        else .ok ((), (s.setDinode (s.itable i).inum
          ⟨.free, (s.itable i).major, (s.itable i).minor, 0, []⟩).setInode i
            { s.itable i with type := .free, valid := false, ref := 0 })
      else .ok ((), s.setInode i { s.itable i with ref := (s.itable i).ref - 1 }) := by
  unfold iput
  by_cases freed : s.Freed i
  · obtain ⟨one, valid, nlink⟩ := id freed
    by_cases locked : (s.itable i).locked = true
    · simp [freed, one, valid, nlink, locked]
    · simp [freed, one, valid, nlink, locked, itrunc, iupdate, Fs.setInode, Fs.setDinode]
  · have other : ¬ ((s.itable i).ref = 1 ∧ (s.itable i).valid = true ∧ (s.itable i).nlink = 0) :=
      freed
    simp only [run_bind, run_get, run_ite, run_modify, if_neg other, if_neg freed]

/-! ### The counts -/

/-- Nothing but the inode table and the disk has changed since `s`, and the reference counts by
`k`. -/
structure Moves (s : Fs P) (k : Fin NINODE → Int) (t : Fs P) : Prop where
  ref : ∀ i, (t.itable i).ref = (s.itable i).ref + k i
  ninodes : t.ninodes = s.ninodes
  ftable : t.ftable = s.ftable
  pipes : t.pipes = s.pipes
  ofile : t.ofile = s.ofile
  cwd : t.cwd = s.cwd
  initproc : t.initproc = s.initproc

theorem Moves.refl (s : Fs P) : Moves s 0 s :=
  ⟨fun _ => (add_zero _).symm, rfl, rfl, rfl, rfl, rfl, rfl⟩

variable {s t : Fs P} {k : Fin NINODE → Int} {i : Fin NINODE}

/-- An entry is written, and its count changes by `d`. -/
theorem Moves.setInode (moves : Moves s k t) {ip : Inode} {d : Int}
    (count : ip.ref = (t.itable i).ref + d) : Moves s (k + Pi.single i d) (t.setInode i ip) where
  ref := by
    intro j
    show (update t.itable i ip j).ref = _
    rw [Pi.add_apply]
    refine update_ind ?_ fun other => ?_
    · rw [Pi.single_eq_same, count, moves.ref]
      ring
    · rw [Pi.single_eq_of_ne other, moves.ref]
      ring
  ninodes := moves.ninodes
  ftable := moves.ftable
  pipes := moves.pipes
  ofile := moves.ofile
  cwd := moves.cwd
  initproc := moves.initproc

/-- An entry is written, and its count stays. -/
theorem Moves.setInode_same (moves : Moves s k t) {ip : Inode}
    (count : ip.ref = (t.itable i).ref) : Moves s k (t.setInode i ip) := by
  have moved : Moves s (k + Pi.single i 0) (t.setInode i ip) :=
    moves.setInode (by rw [count, add_zero])
  rwa [Pi.single_zero, add_zero] at moved

theorem Moves.setDinode (moves : Moves s k t) {inum : Nat} {d : Dinode} :
    Moves s k (t.setDinode inum d) :=
  ⟨moves.ref, moves.ninodes, moves.ftable, moves.pipes, moves.ofile, moves.cwd, moves.initproc⟩

/-- The specification of a function that takes references: the counts change by `d`. -/
def Counts {A : Type} (x : FsM P A) (d : A → Fin NINODE → Int) : Prop :=
  ∀ s k, Triple (Moves s k) x (fun a => Moves s (k + d a))

/-- The specification of a function that takes and drops no references. -/
def Quiet {A : Type} (x : FsM P A) : Prop :=
  ∀ s k, Triple (Moves s k) x (fun _ => Moves s k)

/-- What `iget` finds is an entry in use for the inode. -/
theorem holding_ref {inum : Nat} (found : s.holding inum = some i) :
    0 < (s.itable i).ref ∧ (s.itable i).inum = inum := by
  have holds := List.find?_some found
  simpa using holds

theorem emptySlot_ref (found : s.emptySlot = some i) : (s.itable i).ref = 0 := by
  have holds := List.find?_some found
  simpa using holds

/-- **`iget`** adds one reference, to the entry that it returns. -/
theorem iget_counts (inum : Nat) : Counts (iget inum : FsM P _) one := by
  intro s k t moves
  rw [iget_run]
  cases found : t.holding inum with
  | some i => exact moves.setInode rfl
  | none =>
    cases empty : t.emptySlot with
    | none => trivial
    | some i => exact moves.setInode (by rw [emptySlot_ref empty]; rfl)

theorem idup_counts (i : Fin NINODE) : Counts (idup i : FsM P _) one :=
  fun _ _ _ moves => moves.setInode rfl

theorem ilock_quiet (i : Fin NINODE) : Quiet (ilock i : FsM P _) := by
  intro s k t moves
  rw [ilock_run]
  split_ifs
  · trivial
  · trivial
  · exact moves.setInode_same rfl
  · trivial
  · exact moves.setInode_same rfl

theorem iunlock_quiet (i : Fin NINODE) : Quiet (iunlock i : FsM P _) := by
  intro s k t moves
  rw [iunlock_run]
  split_ifs
  · trivial
  · exact moves.setInode_same rfl

theorem iupdate_quiet (i : Fin NINODE) : Quiet (iupdate i : FsM P _) :=
  fun _ _ _ moves => moves.setDinode

theorem itrunc_quiet (i : Fin NINODE) : Quiet (itrunc i : FsM P _) := by
  intro s k
  exact .bind (.modify fun _ moves => moves.setDinode) fun _ => iupdate_quiet i s k

theorem setNlink_quiet (i : Fin NINODE) (change : BitVec 16 → BitVec 16) :
    Quiet (setNlink i change : FsM P _) := by
  intro s k
  refine .bind (.modify fun t moves => ?_) fun _ => iupdate_quiet i s k
  exact moves.setInode_same rfl

theorem writeEntry_quiet (dp : Fin NINODE) (off : Nat) (de : Dirent) :
    Quiet (writeEntry dp off de : FsM P _) := by
  intro s k
  exact .bind (.modify fun _ moves => moves.setDinode) fun _ => iupdate_quiet dp s k

/-- **`iput`** takes one reference away, also where it frees the inode. -/
theorem iput_counts (i : Fin NINODE) (s : Fs P) (k : Fin NINODE → Int) :
    Triple (Moves s k) (iput i) (fun _ => Moves s (k - one i)) := by
  intro t moves
  rw [iput_run, sub_one_eq]
  split_ifs with freed locked
  · trivial
  · refine moves.setDinode.setInode ?_
    show (0 : Int) = (t.itable i).ref + -1
    rw [freed.1]
    rfl
  · exact moves.setInode rfl

theorem iunlockput_counts (i : Fin NINODE) (s : Fs P) (k : Fin NINODE → Int) :
    Triple (Moves s k) (iunlockput i) (fun _ => Moves s (k - one i)) :=
  Triple.bind (iunlock_quiet i s k) fun _ => iput_counts i s k

/-- A new inode comes with one reference. -/
theorem ialloc_counts (type : FType) : Counts (ialloc type : FsM P _) one := by
  intro s k
  refine .get_bind fun t moves => ?_
  cases t.freeInum with
  | none => exact .throw fun _ _ => trivial
  | some inum =>
    refine .bind (.modify fun u same => ?_) fun _ => iget_counts inum s k
    rw [same]
    exact moves.setDinode

/-- A name that is found is returned with a reference to its inode. -/
theorem dirlookup_counts (dp : Fin NINODE) (name : Name) :
    Counts (dirlookup dp name : FsM P _) fun r => oneOf (r.map Prod.fst) := by
  intro s k
  refine .get_bind fun t moves => .ite (fun _ => ?_) fun _ => ?_
  · exact .throws
  split
  · exact .done (by simpa using moves)
  · refine .bind ((iget_counts _ s k).known moves) fun ip => ?_
    exact .pure fun u moved => moved

/-- `dirlink` drops the reference that its lookup takes when the name exists. -/
theorem dirlink_quiet (dp : Fin NINODE) (name : Name) (inum : Nat) :
    Quiet (dirlink dp name inum : FsM P _) := by
  intro s k
  refine .bind (dirlookup_counts dp name s k) fun r => ?_
  cases r with
  | some r =>
    refine .bind (iput_counts r.1 s _) fun _ => .pure fun u moves => ?_
    simpa using moves
  | none =>
    refine .get_bind fun t moves => .ite (fun _ => ?_) fun _ => ?_
    · exact .throws
    refine .bind ((writeEntry_quiet dp _ _ s k).of_pre fun u same => ?_) fun _ =>
      Triple.pure fun u moved => moved
    simpa [same] using moves

/-- The loop of `namex` trades its reference for one to the next inode of the path. -/
theorem namexFrom_counts (parent : Bool) (names : List Name) :
    ∀ (ip : Fin NINODE) (s : Fs P) (k : Fin NINODE → Int),
      Triple (Moves s (k + one ip)) (namexFrom parent ip names)
        (fun r => Moves s (k + oneOf (r.map Prod.fst))) := by
  induction names with
  | nil =>
    intro ip s k
    refine .ite (fun _ => ?_) fun _ => ?_
    · refine .bind (iput_counts ip s _) fun _ => .pure fun u moves => ?_
      simpa using moves
    · exact .pure fun u moves => moves
  | cons name rest ih =>
    intro ip s k
    -- the reference to `ip` is dropped on every way out
    have drop :
      Triple (Moves s (k + one ip))
      (do iunlockput ip; return none : FsM P (Option (Fin NINODE × Name)))
        (fun r => Moves s (k + oneOf (r.map Prod.fst))) := by
      refine .bind (iunlockput_counts ip s _) fun _ => .pure fun u moves => ?_
      simpa using moves
    refine .bind (ilock_quiet ip s _) fun _ => .get_bind fun t moves => ?_
    refine .ite (fun _ => drop.known moves) fun _ => ?_
    refine .ite (fun _ => ?_) fun _ => ?_
    · refine .bind ((iunlock_quiet ip s _).known moves) fun _ => ?_
      exact .pure fun u moved => moved
    refine .bind ((dirlookup_counts ip name s _).known moves) fun r => ?_
    cases r with
    | none => exact drop.of_pre fun u moved => by simpa using moved
    | some r =>
      refine .bind (iunlockput_counts ip s _) fun _ => (ih r.1 s k).of_pre fun u moved => ?_
      simpa [add_sub_right_comm] using moved

/-- The root and the working directory are both taken with a reference. -/
theorem namexStart_counts (p : P) (path : List Byte) : Counts (namexStart p path) one := by
  intro s k
  refine .ite (fun _ => iget_counts _ s k) fun _ => .get_bind fun t moves => ?_
  cases t.cwd p with
  | none => exact .throw fun _ _ => trivial
  | some i =>
    intro u same
    exact idup_counts i s k u (same ▸ moves)

/-- **A lookup** ends with one reference to what it returns, and with none if it fails. -/
theorem namex_counts (p : P) (path : List Byte) (parent : Bool) :
    Counts (namex p path parent) fun r => oneOf (r.map Prod.fst) := by
  intro s k
  exact .bind (namexStart_counts p path s k) fun ip => namexFrom_counts parent _ ip s k

theorem namei_counts (p : P) (path : List Byte) : Counts (namei p path) oneOf := by
  intro s k
  exact .bind (namex_counts p path false s k) fun r => .pure fun u moves => moves

/-! ### The calls that take inodes only -/

variable [DecidableEq P]

/-- The way out of `sys_link` after a failure. -/
theorem linkBad_counts (ip : Fin NINODE) (s : Fs P) (k : Fin NINODE → Int) :
    Triple (Moves s k) (linkBad ip) (fun _ => Moves s (k - one ip)) := by
  refine .bind (ilock_quiet ip s k) fun _ => ?_
  refine .bind (setNlink_quiet ip _ s k) fun _ => ?_
  exact .bind (iunlockput_counts ip s k) fun _ => .pure fun u moves => moves

/-- **`link`** keeps none of the references that it takes. -/
theorem sysLink_quiet (p : P) (old new : Option (List Byte)) : Quiet (sysLink p old new) := by
  intro s k
  unfold sysLink
  split
  case h_2 => exact .pure fun u moves => moves
  case h_1 _ _ old new =>
  refine .bind (namei_counts p old s k) fun r => ?_
  cases r with
  | none => exact .pure fun u moves => by simpa using moves
  | some ip =>
  refine .bind (ilock_quiet ip s _) fun _ => .get_bind fun t moves => ?_
  refine .ite (fun _ => ?_) fun _ => ?_
  · refine .bind ((iunlockput_counts ip s _).known moves) fun _ => ?_
    exact .pure fun u moved => by simpa using moved
  refine .bind ((setNlink_quiet ip _ s _).known moves) fun _ => ?_
  refine .bind (iunlock_quiet ip s _) fun _ => ?_
  refine .bind (namex_counts p new true s _) fun r => ?_
  cases r with
  | none =>
    refine .to_post (linkBad_counts ip s _) fun _ u moved => ?_
    simpa using moved
  | some r =>
  refine .bind (ilock_quiet r.1 s _) fun _ => .get_bind fun t moves => ?_
  refine .bind ((dirlink_quiet r.1 r.2 _ s _).known moves) fun linked => ?_
  refine .ite (fun _ => ?_) fun _ => ?_
  · refine .bind (iunlockput_counts r.1 s _) fun _ => .bind (iput_counts ip s _) fun _ => ?_
    exact .pure fun u moved => by simpa using moved
  · refine .bind (iunlockput_counts r.1 s _) fun _ => ?_
    refine .to_post (linkBad_counts ip s _) fun _ u moved => ?_
    simpa using moved

/-- **`unlink`** keeps none of the references that it takes. -/
theorem sysUnlink_quiet (p : P) (path : Option (List Byte)) : Quiet (sysUnlink p path) := by
  intro s k
  cases path with
  | none => exact .pure fun u moves => moves
  | some path =>
  refine .bind (namex_counts p path true s k) fun r => ?_
  cases r with
  | none => exact .pure fun u moves => by simpa using moves
  | some r =>
  obtain ⟨dp, name⟩ := r
  -- the parent is let go on every way out
  have drop (pre : Fs P → Prop) (held : ∀ u, pre u → Moves s (k + one dp) u) :
      Triple pre (do iunlockput dp; return false) (fun _ => Moves s k) := by
    refine .bind ((iunlockput_counts dp s _).of_pre held) fun _ => .pure fun u moves => ?_
    simpa using moves
  refine .bind (ilock_quiet dp s _) fun _ => .ite (fun _ => ?_) fun _ => ?_
  · exact drop _ fun u moves => moves
  refine .bind (dirlookup_counts dp name s _) fun r => ?_
  cases r with
  | none => exact drop _ fun u moves => by simpa using moves
  | some r =>
  obtain ⟨ip, off⟩ := r
  refine .bind (ilock_quiet ip s _) fun _ => .get_bind fun t moves => ?_
  refine .ite (fun _ => .throws) fun _ => ?_
  refine .ite (fun _ => ?_) fun _ => ?_
  · refine .bind ((iunlockput_counts ip s _).known moves) fun _ => ?_
    exact drop _ fun u moved => by simpa using moved
  -- the entry and the link counts change, the references do not
  have rest : Triple (Moves s (k + one dp + one ip))
      (do iunlockput dp; setNlink ip (· - 1); iunlockput ip; return true)
      (fun _ => Moves s k) := by
    refine .bind (iunlockput_counts dp s _) fun _ => ?_
    refine .bind (setNlink_quiet ip _ s _) fun _ => ?_
    refine .bind (iunlockput_counts ip s _) fun _ => .pure fun u moved => ?_
    simpa [add_sub_right_comm] using moved
  refine .bind ((writeEntry_quiet dp off _ s _).known moves) fun _ => ?_
  refine .ite (fun _ => ?_) fun _ => rest
  exact .bind (setNlink_quiet dp _ s _) fun _ => rest

/-- **`create`** ends with one reference to the inode that it returns. -/
theorem create_counts (p : P) (path : List Byte) (type : FType) (major minor : BitVec 16) :
    Counts (create p path type major minor) oneOf := by
  intro s k
  refine .bind (namex_counts p path true s k) fun r => ?_
  cases r with
  | none => exact .pure fun u moves => moves
  | some r =>
  obtain ⟨dp, name⟩ := r
  refine .bind (ilock_quiet dp s _) fun _ => .bind (dirlookup_counts dp name s _) fun r => ?_
  cases r with
  | some r =>
    obtain ⟨ip, off⟩ := r
    refine .bind (iunlockput_counts dp s _) fun _ => .bind (ilock_quiet ip s _) fun _ => ?_
    refine .get_bind fun t moves => .ite (fun _ => ?_) fun _ => ?_
    · exact .done (by simpa [add_sub_right_comm] using moves)
    · refine .bind ((iunlockput_counts ip s _).known moves) fun _ => ?_
      exact .pure fun u moved => by simpa [add_sub_right_comm] using moved
  | none =>
    refine .bind (ialloc_counts type s _) fun ip => .bind (ilock_quiet ip s _) fun _ => ?_
    refine .modify_bind (Moves s (k + one dp + one ip)) (fun u moves => ?_) ?_
    · refine Moves.setInode_same ?_ rfl
      simpa using moves
    refine .bind (iupdate_quiet ip s _) fun _ => .get_bind fun t moves => ?_
    have last : Triple (Moves s (k + one dp + one ip)) (do
        if !(← dirlink dp name (t.itable ip).inum) then throw .createDirlink
        iunlockput dp
        return some ip) (fun r => Moves s (k + oneOf r)) := by
      refine .bind (dirlink_quiet dp name _ s _) fun linked => .ite (fun _ => ?_) fun _ => ?_
      · exact .throws
      refine .bind (iunlockput_counts dp s _) fun _ => .pure fun u moved => ?_
      simpa [add_sub_right_comm] using moved
    refine .ite (fun _ => ?_) fun _ => last.of_pre fun u same => ?_
    · refine .bind ((setNlink_quiet dp _ s _).known moves) fun _ => ?_
      refine .bind (dirlink_quiet ip dot _ s _) fun _ => .ite (fun _ => ?_) fun _ => ?_
      · exact .throws
      refine .bind (dirlink_quiet ip dotdot _ s _) fun _ => .ite (fun _ => ?_) fun _ => ?_
      · exact .throws
      exact last.of_pre fun u moved => by simpa using moved
    · simpa [same] using moves

theorem makeNode_quiet (p : P) (path : Option (List Byte)) (type : FType)
    (major minor : BitVec 16) : Quiet (makeNode p path type major minor) := by
  intro s k
  cases path with
  | none => exact .pure fun u moves => moves
  | some path =>
  refine .bind (create_counts p path type major minor s k) fun r => ?_
  cases r with
  | none => exact .pure fun u moves => by simpa using moves
  | some ip =>
  refine .bind (iunlockput_counts ip s _) fun _ => .pure fun u moves => ?_
  simpa using moves

/-- `exec` closes the file that it loads. -/
theorem execFile_quiet (p : P) (path : Option (List Byte)) (loads : Bool) :
    Quiet (execFile p path loads) := by
  intro s k
  cases path with
  | none => exact .pure fun u moves => moves
  | some path =>
  refine .bind (namei_counts p path s k) fun r => ?_
  cases r with
  | none => exact .pure fun u moves => by simpa using moves
  | some ip =>
  refine .bind (ilock_quiet ip s _) fun _ => .bind (iunlockput_counts ip s _) fun _ => ?_
  exact .pure fun u moves => by simpa using moves

end Xv6
