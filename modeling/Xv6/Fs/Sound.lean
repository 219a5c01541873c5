/-
**The directory tree, in memory and on disk.**

`Sound scope owed fresh`: the image is a `DirTree` and the inode table agrees with it. The functions
on one inode keep `Sound` (`sound_stable`); a last reference to an unlinked inode frees it. A lookup
from a sound state is a `Walk` to a sound state (`Walk.sound`): if nothing may be lost
(`scope.exact`) it stays on the disk as it was, and otherwise what it frees had no links.
-/

import Xv6.Fs.DirTree
import Xv6.Fs.Writes
import Xv6.Fs.Keeps

namespace Xv6

open Lib Function

variable {P : Type} {s t u : Fs P} {owed owed' : Nat → Nat} {fresh fresh' : Option Nat}
  {k : Fin NINODE → Int} {scope : Scope}

/-- **The image is a directory tree, and the table agrees with it.** -/
structure Sound (scope : Scope) (owed : Nat → Nat) (fresh : Option Nat) (s : Fs P) : Prop
    extends Agrees scope.exact s where
  tree : DirTree scope s.ninodes s.disk owed fresh

/-- What is known where a lookup starts in a directory tree. -/
def Scope.search (scope : Scope) (n : Nat) (owed : Nat → Nat) : Search where
  exact := scope.exact
  calm := False
  image := fun disk => DirTree scope n disk owed none
  root := by
    intro _ disk tree
    rw [tree.rootDir]
    decide
  entry :=
    fun isExact _ _ _ tree dir member used => tree.entry_alloc isExact dir (by simp) member used
  frees := fun _ _ _ _ tree alloc zero freed => tree.release alloc zero freed

namespace Sound

theorem starts (sound : Sound scope owed none s) : (scope.search s.ninodes owed).Starts s :=
  ⟨sound.toAgrees, sound.tree, False.elim⟩

variable {i : Fin NINODE} {x : Nat}

section

variable (sound : Sound scope owed fresh t)

include sound

theorem setLinks (loaded : t.Loaded i x) (nlink : BitVec 16) (other : ∀ j, j ≠ x → owed' j = owed j)
    (count : nlink.toNat + owed x = (t.disk x).nlink.toNat + owed' x)
    (low : scope.exact → (t.disk x).type ≠ .dir → nlink.toNat < 2 ^ 15) :
    Sound scope owed' fresh (t.setLinks i nlink) := by
  obtain ⟨alloc, copy⟩ := sound.copies loaded
  have inum := loaded.inum
  subst inum
  have agrees : Agrees scope.exact (t.setLinks i nlink) :=
    sound.write (fun _ => rfl) (sound.apart loaded.ref rfl)
      (fun _ => ⟨rfl, loaded.valid, alloc, copy.type, copy.major, copy.minor, rfl⟩)
      fun _ => loaded.ref
  exact ⟨agrees, sound.tree.setNlink rfl rfl other count low⟩

theorem setEntries (loaded : t.Loaded i x) {entries : List Dirent} (tree : DirTree scope t.ninodes
      (update t.disk x { t.disk x with entries := entries }) owed' fresh') :
    Sound scope owed' fresh' (t.setEntries i entries) := by
  obtain ⟨alloc, copy⟩ := sound.copies loaded
  have written : Agrees scope.exact
      ((t.setDinode x { t.disk x with entries := entries }).setInode i (t.itable i)) :=
    sound.write (fun _ => loaded.inum) (sound.apart loaded.ref loaded.inum)
      (fun _ => ⟨loaded.inum, loaded.valid, alloc, copy.type, copy.major, copy.minor, copy.nlink⟩)
      fun _ => loaded.ref
  have same : (t.setDinode x { t.disk x with entries := entries }).setInode i (t.itable i) =
      t.setEntries i entries := by
    unfold Fs.setEntries Fs.setInode
    rw [loaded.inum, show (t.setDinode x { t.disk x with entries := entries }).itable = t.itable
      from rfl, update_eq_self]
    rfl
  rw [same] at written
  refine ⟨written, ?_⟩
  rw [setEntries_disk loaded]
  exact tree

end

end Sound

/-! ### The functions on one inode -/

/-- An entry of the table for an inode that is locked. -/
structure Fs.Opened (t : Fs P) (i : Fin NINODE) (x : Nat) : Prop extends t.Loaded i x where
  locked : (t.itable i).locked = true

theorem ilock_opened (i : Fin NINODE) (sound : Sound scope owed fresh t) :
    From t (ilock i) (fun _ u => Sound scope owed fresh u ∧
      u.Opened i (t.itable i).inum ∧ u.disk = t.disk ∧ (t.itable i).locked = false ∧
      ∀ j, j ≠ i → u.itable j = t.itable j) := by
  refine (ilock_agrees i sound.toAgrees).any.to_post fun _ u here => ?_
  obtain ⟨agrees, unlocked, used, ip, rfl, inum, ref, valid, locked⟩ := here
  have entry : (t.setInode i ip).itable i = ip := update_self _ _ _
  refine ⟨⟨agrees, sound.tree⟩, ⟨⟨?_, ?_, ?_⟩, ?_⟩, rfl, unlocked, fun j other => ?_⟩
  · rw [entry, inum]
  · rw [entry, ref]
    exact used
  · rw [entry, valid]
  · rw [entry, locked]
  · exact update_of_ne other _ _

theorem iunlock_sound (i : Fin NINODE) (sound : Sound scope owed fresh t) :
    From t (iunlock i) (fun _ u => Sound scope owed fresh u ∧
      u = t.setInode i { t.itable i with locked := false }) := by
  refine (iunlock_agrees i sound.toAgrees).any.to_post fun _ u here => ?_
  obtain ⟨agrees, rfl⟩ := here
  exact ⟨⟨agrees, sound.tree⟩, rfl⟩

theorem iput_sound (i : Fin NINODE) (sound : Sound scope owed none t) :
    From t (iput i) (fun _ u => Sound scope owed none u ∧
      ∀ j, j ≠ i → u.itable j = t.itable j) := by
  rintro v rfl
  rw [iput_run]
  split_ifs with freed locked
  · trivial
  · obtain ⟨alloc, zero⟩ := sound.freed freed
    refine ⟨⟨sound.free freed rfl rfl, ?_⟩, fun j other => update_of_ne other _ _⟩
    exact sound.tree.release alloc zero rfl
  · exact ⟨⟨sound.dropRef freed, sound.tree⟩, fun j other => update_of_ne other _ _⟩

theorem iunlockput_sound (i : Fin NINODE) (sound : Sound scope owed none t) :
    From t (iunlockput i) (fun _ u => Sound scope owed none u ∧
      ∀ j, j ≠ i → u.itable j = t.itable j) := by
  refine .bind (iunlock_sound i sound) fun _ => .each fun u here => ?_
  refine (iput_sound i here.1).to_post fun _ v after => ⟨after.1, fun j other => ?_⟩
  rw [after.2 j other, here.2]
  exact update_of_ne other _ _

/-- **The functions on one inode keep `Sound`.** -/
theorem sound_stable : Stable (Sound (P := P) scope owed none) where
  congr := by
    intro s t ninodes disk itable sound
    refine ⟨sound.toAgrees.congr disk itable, ?_⟩
    rw [ninodes, disk]
    exact sound.tree
  ilock := by
    intro i
    refine .each fun t sound => (ilock_opened i sound).to_post fun _ u here => ⟨here.1, ?_⟩
    exact ⟨here.2.1.ref, here.2.1.valid⟩
  iunlock := fun i => .each fun t sound => (iunlock_sound i sound).to_post fun _ u here => here.1
  iput := fun i => .each fun t sound => (iput_sound i sound).to_post fun _ u here => here.1
  itrunc := by
    intro t i sound valid file
    have loaded : t.Loaded i (t.itable i).inum := ⟨rfl, valid.1, valid.2⟩
    obtain ⟨_, copy⟩ := sound.copies loaded
    refine (itrunc_spec loaded copy).to_post fun _ u same => ?_
    rw [same]
    refine sound.setEntries loaded (sound.tree.renumber (types_setEntries _ _ _) (fun x dir => ?_)
      (fun x _ => by rw [nlinks_setEntries]) fun isExact x alloc notDir => ?_)
    · rw [update_of_ne]
      rintro rfl
      rw [← copy.type, file] at dir
      cases dir
    · rw [nlinks_setEntries]
      exact ((sound.tree.exact isExact).files x alloc notDir).2

/-! ### Lookups -/

/-- **A lookup leads to a sound state.** -/
theorem Walk.sound {held : Option (Fin NINODE)}
    (walk : Walk (scope.search s.ninodes owed) s held k t) : Sound scope owed none t := by
  refine ⟨walk.agrees, ?_⟩
  rw [walk.moves.ninodes]
  exact walk.image

theorem dirlink_walk (sound : Sound scope owed none s) {held : Option (Fin NINODE)}
    (taken : ∀ j, 0 ≤ k j) (dp : Fin NINODE) (x : Nat) (name : Name) (inum : Nat) :
    Triple (fun t => Walk (scope.search s.ninodes owed) s held k t ∧ t.Loaded dp x)
      (dirlink dp name inum) (fun r u => r = false →
        Walk (scope.search s.ninodes owed) s held k u) := by
  have few : (scope.search s.ninodes owed).calm → ∃ a, ∀ j, j ≠ a → k j = 0 := False.elim
  refine .bind ((dirlookup_walk few dp x name).any.of_pre fun t here =>
    ⟨here.1, here.2, False.elim⟩) fun r => ?_
  cases r with
  | some r =>
    refine .bind (.each fun u found => ?_) fun _ => .pure fun u moved _ => moved
    exact ((iput_walk sound.starts taken r.1 r.1 _).any.known ⟨found.1, rfl⟩).to_post
      fun _ _ back => back.1
  | none =>
    refine .get_bind fun t _ => .ite (fun _ => .throws) fun _ => ?_
    refine .bind Triple.unknown fun _ => .pure fun u _ no => ?_
    cases no

end Xv6
