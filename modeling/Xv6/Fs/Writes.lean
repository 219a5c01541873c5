/-
**What is written to inodes and directories.**

The functions that write (`setNlink`, `writeEntry`, `itrunc`, `dirlink`) are given by the state they
lead to: a new link count (`Fs.setLinks`) or new entries (`Fs.setEntries`) of an inode whose entry
in the table is loaded. Nothing is assumed of the rest of the disk, which between the writes of a
call is not well formed.
-/

import Xv6.Fs.Walk

namespace Xv6

open Lib Function

variable {P : Type} {t u : Fs P} {i j dp : Fin NINODE} {x z d : Nat} {name : Name}

theorem freeInum_spec (found : t.freeInum = some z) :
    (t.disk z).type = .free ∧ 0 < z ∧ z < t.ninodes := by
  have member := List.mem_range'_1.mp (List.mem_of_find?_eq_some found)
  have free := List.find?_some found
  simp only [decide_eq_true_eq] at free
  exact ⟨free, by omega, by omega⟩

/-! ### Link counts and entries -/

/-- The link count of an inode changes, in memory and on disk. -/
def Fs.setLinks (t : Fs P) (i : Fin NINODE) (nlink : BitVec 16) : Fs P :=
  (t.setInode i { t.itable i with nlink := nlink }).setDinode (t.itable i).inum
    { t.disk (t.itable i).inum with nlink := nlink }

/-- The entries of an inode change. -/
def Fs.setEntries (t : Fs P) (i : Fin NINODE) (entries : List Dirent) : Fs P :=
  t.setDinode (t.itable i).inum { t.disk (t.itable i).inum with entries := entries }

theorem Fs.Loaded.of_eq (loaded : t.Loaded i x) (kept : u.itable i = t.itable i) : u.Loaded i x :=
  ⟨kept ▸ loaded.inum, kept ▸ loaded.ref, kept ▸ loaded.valid⟩

/-- The entries of the table are for the same inodes, with the same references. -/
def SameSlots (t u : Fs P) : Prop :=
  ∀ i, (u.itable i).inum = (t.itable i).inum ∧ (u.itable i).ref = (t.itable i).ref ∧
    (u.itable i).valid = (t.itable i).valid

theorem SameSlots.loaded (same : SameSlots t u) (loaded : t.Loaded i x) : u.Loaded i x where
  inum := (same i).1.trans loaded.inum
  ref := by
    rw [(same i).2.1]
    exact loaded.ref
  valid := (same i).2.2.trans loaded.valid

theorem setLinks_same (t : Fs P) (i : Fin NINODE) (nlink : BitVec 16) :
    SameSlots t (t.setLinks i nlink) := by
  intro j
  show (update t.itable i _ j).inum = _ ∧ (update t.itable i _ j).ref = _ ∧
    (update t.itable i _ j).valid = _
  exact update_ind ⟨rfl, rfl, rfl⟩ fun _ => ⟨rfl, rfl, rfl⟩

theorem setEntries_same (t : Fs P) (i : Fin NINODE) (entries : List Dirent) :
    SameSlots t (t.setEntries i entries) := fun _ => ⟨rfl, rfl, rfl⟩

theorem setLinks_disk (loaded : t.Loaded i x) (nlink : BitVec 16) :
    (t.setLinks i nlink).disk = update t.disk x { t.disk x with nlink := nlink } := by
  rw [← loaded.inum]
  rfl

theorem setEntries_disk (loaded : t.Loaded i x) (entries : List Dirent) :
    (t.setEntries i entries).disk = update t.disk x { t.disk x with entries := entries } := by
  rw [← loaded.inum]
  rfl

theorem Inode.Copies.setEntries (copy : (t.itable j).Copies (t.disk x)) (loaded : t.Loaded i x)
    (entries : List Dirent) :
    ((t.setEntries i entries).itable j).Copies ((t.setEntries i entries).disk x) := by
  rw [setEntries_disk loaded, update_self]
  exact ⟨copy.type, copy.major, copy.minor, copy.nlink⟩

/-! ### The functions that write -/

section

variable (loaded : t.Loaded i x) (copy : (t.itable i).Copies (t.disk x))

include loaded copy

/-- The link count that is written is computed from the one on disk. -/
theorem setNlink_spec (change : BitVec 16 → BitVec 16) : From t (setNlink i change)
    (fun _ u => u = t.setLinks i (change (t.disk x).nlink)) := by
  refine .modify_known (.modify ?_)
  rintro v rfl
  have inum := loaded.inum
  subst inum
  simp [Fs.setLinks, Fs.setInode, Fs.setDinode, copy.type, copy.major, copy.minor, copy.nlink]

theorem writeEntry_spec (off : Nat) (de : Dirent) : From t (writeEntry i off de)
    (fun _ u => u = t.setEntries i (putEntry (t.disk x).entries off de)) := by
  refine .modify_known (.modify ?_)
  rintro v rfl
  have inum := loaded.inum
  subst inum
  simp [Fs.setEntries, Fs.setDinode, copy.type, copy.major, copy.minor, copy.nlink]

theorem itrunc_spec : From t (itrunc i) (fun _ u => u = t.setEntries i []) := by
  refine .modify_known (.modify ?_)
  rintro v rfl
  have inum := loaded.inum
  subst inum
  simp [Fs.setEntries, Fs.setDinode, copy.type, copy.major, copy.minor, copy.nlink]

/-- **`dirlink` with a new name** writes it into the first free entry. -/
theorem dirlink_new {inum : Nat} : From t (dirlink i name inum)
    (fun r u => r = true → (t.disk x).type = .dir ∧ findEntry (t.disk x).entries name = none ∧
      emptyEntry (t.disk x).entries < MAXDIRENTS ∧
      u = t.setEntries i (putEntry (t.disk x).entries (emptyEntry (t.disk x).entries)
        ⟨inum % 2 ^ 16, name⟩)) := by
  have look : From t (dirlookup i name) (fun r u => r = none →
      u = t ∧ (t.disk x).type = .dir ∧ findEntry (t.disk x).entries name = none) := by
    refine .get_bind fun v same => .ite (fun _ => .throws) fun isDir => ?_
    subst same
    have dir : (v.disk x).type = .dir := by
      rw [← copy.type]
      exact not_not.mp isDir
    rw [loaded.inum]
    cases found : findEntry (v.disk x).entries name with
    | none => exact .pure fun u same _ => ⟨same, dir, rfl⟩
    | some e =>
      refine .bind Triple.unknown fun ip => .pure fun u _ none => ?_
      cases none
  refine .bind look fun r => ?_
  cases r with
  | some r =>
    refine .bind Triple.unknown fun _ => .pure fun u _ yes => ?_
    cases yes
  | none =>
    refine .each fun v here => ?_
    obtain ⟨rfl, dir, absent⟩ := here rfl
    refine .get_bind fun w same => ?_
    subst same
    refine .ite (fun _ => .throws) fun fits => ?_
    refine .bind (writeEntry_spec loaded copy _ _) fun _ => .pure fun u same _ => ?_
    rw [loaded.inum] at fits same
    exact ⟨dir, absent, not_le.mp fits, same⟩

/-- The first two entries of a new directory. -/
theorem create_dots {A : Type} {post : A → Fs P → Prop} {f : FsM P A}
    (empty : (t.disk x).entries = []) (small : x < 2 ^ 16) (smallZ : z < 2 ^ 16) (nonzero : x ≠ 0)
    (rest : From ((t.setEntries i [⟨x, dot⟩]).setEntries i [⟨x, dot⟩, ⟨z, dotdot⟩]) f
      post) :
    From t (do
      if !(← dirlink i dot x) then throw .createDots
      if !(← dirlink i dotdot z) then throw .createDots
      f) post := by
  have loaded1 := (setEntries_same t i [⟨x, dot⟩]).loaded loaded
  refine .bind (dirlink_new loaded copy) fun linked => .ite (fun _ => ?_) fun yes => ?_
  · exact .throws
  refine .each fun w here => ?_
  obtain ⟨_, _, _, isW⟩ := here (by simpa using yes)
  rw [empty, Nat.mod_eq_of_lt small] at isW
  have isW : w = t.setEntries i [⟨x, dot⟩] := isW
  subst isW
  refine .bind (dirlink_new loaded1 (copy.setEntries loaded _)) fun linked =>
    Triple.ite (fun _ => ?_) fun yes => ?_
  · exact .throws
  refine rest.of_pre fun w here => ?_
  obtain ⟨_, _, _, isW⟩ := here (by simpa using yes)
  rw [setEntries_disk loaded, update_self, Nat.mod_eq_of_lt smallZ] at isW
  rw [isW]
  congr 1
  simp [putEntry, emptyEntry, nonzero]

end

end Xv6
