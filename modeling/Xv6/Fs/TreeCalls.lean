/-
**The calls that change directories.**

`link`, `unlink` and `create` keep `Sound` with nothing owed. Between its first write and its last
one a call owes links: the entry that `unlink` clears is counted until the link count is written,
the link count that `link` and `create` write is ahead of the new entry. If nothing may be lost
(`scope.exact`), a call needs more of the state before it: the directory of a new entry has links
(`EntersLinked`), a directory that is unlinked is not the parent of an unlinked one
(`ParentOfNone`), and a link count that grows is not the largest one.
-/

import Xv6.Fs.Sound

namespace Xv6

open Lib Function

variable {P : Type} {s t u : Fs P} {owed : Nat → Nat} {fresh : Option Nat} {dp ip j : Fin NINODE}
  {d x z : Nat} {scope : Scope} {v major minor : BitVec 16} {type : FType} {p : P}

/-! ### Conditions -/

/-- The directory for a new entry has links itself. -/
def Fs.EntersLinked (s : Fs P) (p : P) (path : List Byte) : Prop :=
  ∀ a ∈ s.lookup p path true, (s.disk a.1).nlink ≠ 0

/-- Inode `x` is not the parent of another directory that is unlinked and still in use. -/
def Fs.ParentOfNone (s : Fs P) (x : Nat) : Prop :=
  (s.disk x).type = .dir → ∀ c < s.ninodes, (s.disk c).type = .dir → (s.disk c).nlink = 0 → c ≠ x →
    (s.disk c).parent ≠ x

/-- No inode but a directory has the largest link count. -/
def Fs.LinkRoom (s : Fs P) : Prop :=
  ∀ x < s.ninodes, (s.disk x).type ≠ .free → (s.disk x).type ≠ .dir → (s.disk x).nlink ≠ -1

instance (s : Fs P) : Decidable s.LinkRoom := inferInstanceAs (Decidable (∀ x < _, _))

/-- Where a path leads depends on the working directory and on the types and entries of inodes. -/
theorem lookup_congr (cwd : t.cwd = s.cwd)
    (inums : ∀ c, s.cwd p = some c → (t.itable c).inum = (s.itable c).inum)
    (types : ∀ i, (t.disk i).type = (s.disk i).type)
    (entries : ∀ i, (t.disk i).entries = (s.disk i).entries) (path : List Byte) (parent : Bool) :
    t.lookup p path parent = s.lookup p path parent := by
  have start : t.startOf p path = s.startOf p path := by
    unfold Fs.startOf
    rw [cwd]
    split_ifs
    · rfl
    · cases here : s.cwd p with
      | none => rfl
      | some c => simp [inums c here]
  unfold Fs.lookup
  rw [start]
  cases s.startOf p path with
  | none => rfl
  | some y => exact resolve_congr types entries parent _ y

/-! ### Counting -/

theorem toNat_succ (room : v.toNat < 2 ^ 16 - 1) : (v + 1).toNat = v.toNat + 1 := by
  rw [BitVec.toNat_add, show (1 : BitVec 16).toNat = 1 from rfl]
  omega

theorem toNat_pred (some : 0 < v.toNat) : (v - 1).toNat + 1 = v.toNat := by
  have bound := v.isLt
  rw [BitVec.toNat_sub, show (1 : BitVec 16).toNat = 1 from rfl]
  omega

theorem toNat_pos (nonzero : v ≠ 0) : 0 < v.toNat :=
  Nat.pos_of_ne_zero fun zero => nonzero (BitVec.eq_of_toNat_eq zero)

/-- One link is owed to an inode. -/
def owe (x : Nat) : Nat → Nat := fun i => if x = i then 1 else 0

theorem owe_self (x : Nat) : owe x x = 1 := if_pos rfl

theorem owe_of_ne {i : Nat} (other : i ≠ x) : owe x i = 0 := if_neg (Ne.symm other)

/-- The link that is owed is paid with the link count. -/
theorem setNlink_pred (sound : Sound scope (owe x) fresh t) (loaded : t.Loaded ip x) :
    From t (setNlink ip (· - 1)) (fun _ => Sound scope 0 fresh) := by
  obtain ⟨alloc, copy⟩ := sound.copies loaded
  refine (setNlink_spec loaded copy _).to_post fun _ u same => ?_
  rw [same]
  have counted := sound.tree.le_nlink alloc
  rw [owe_self] at counted
  have less := toNat_pred (v := (t.disk x).nlink) (by omega)
  refine sound.setLinks loaded _ (fun i other => (owe_of_ne other).symm) ?_ fun isExact notDir => ?_
  · rw [owe_self]
    exact less
  · have low := ((sound.tree.exact isExact).files x alloc notDir).2
    omega

/-! ### `unlink` -/

/-- `dirlookup` in a locked directory takes a reference to what it finds. -/
theorem dirlookup_opened (sound : Sound scope owed none t) (opened : t.Opened dp d) (name : Name) :
    From t (dirlookup dp name) (fun r u => (t.disk d).type = .dir ∧ match r with
      | none => u = t ∧ findEntry (t.disk d).entries name = none
      | some (ip, off) => Sound scope owed none u ∧ u.Opened dp d ∧ u.disk = t.disk ∧
          ∃ de, findEntry (t.disk d).entries name = some (off, de) ∧ (u.itable ip).inum = de.inum) := by
  refine .get_bind fun v same => .ite (fun _ => .throws) fun isDir => ?_
  subst same
  have dir : (v.disk d).type = .dir := by
    rw [← (sound.copies opened.toLoaded).2.type]
    exact not_not.mp isDir
  rw [opened.inum]
  cases found : findEntry (v.disk d).entries name with
  | none => exact .done ⟨dir, rfl, rfl⟩
  | some e =>
    have alloc (isExact : scope.exact) : (v.disk e.2.inum).type ≠ .free := by
      obtain ⟨here, used, _⟩ := findEntry_some found
      exact sound.tree.entry_alloc isExact dir (by simp) (List.mem_of_getElem? here) used
    refine .bind (iget_agrees e.2.inum sound.toAgrees alloc).any fun i => .pure fun u here =>
      ⟨dir, ?_⟩
    obtain ⟨agrees, entry, rfl, inum, ref, locked, used⟩ := here
    have atI : (v.setInode i entry).itable i = entry := update_self _ _ _
    refine ⟨⟨agrees, sound.tree⟩, ?_, rfl, e.2, rfl, by rw [atI, inum]⟩
    by_cases same : dp = i
    · subst same
      obtain ⟨isX, valid⟩ := used opened.ref
      have pos := opened.ref
      refine ⟨⟨?_, ?_, ?_⟩, ?_⟩
      · rw [atI, inum, ← isX, opened.inum]
      · rw [atI, ref]
        omega
      · rw [atI, valid, opened.valid]
      · rw [atI, locked, opened.locked]
    · have kept : (v.setInode i entry).itable dp = v.itable dp := update_of_ne same _ _
      exact ⟨opened.toLoaded.of_eq kept, kept ▸ opened.locked⟩

/-- The end of `unlink`: the entry is cleared, and counted until the link count is written. -/
theorem unlink_rest (sound : Sound scope (owe x) none t) (other : ip ≠ dp)
    (loaded : t.Loaded ip x) :
    From t (do
      iunlockput dp
      setNlink ip (· - 1)
      iunlockput ip
      return true : FsM P Bool) (fun _ => Sound scope 0 none) := by
  refine .bind (iunlockput_sound dp sound) fun _ => .each fun u here => ?_
  refine .bind (setNlink_pred here.1 (loaded.of_eq (here.2 ip other))) fun _ => ?_
  exact .bind (sound_stable.iunlockput ip) fun _ => .pure fun _ kept => kept

/-- What `isdirempty` finds empty has no links. -/
theorem links_of_isdirempty (sound : Sound scope owed none t) (inum : (t.itable ip).inum = x)
    (ready : ¬ ((t.disk x).type = .dir ∧ isdirempty t ip = false)) : imageLinks t.disk x = [] := by
  by_cases dir : (t.disk x).type = .dir
  · refine (sound.tree.shape x dir (by simp)).1.links_empty fun e member => ?_
    have empty : isdirempty t ip = true := by
      by_contra full
      exact ready ⟨dir, by simpa using full⟩
    unfold isdirempty at empty
    rw [inum] at empty
    simpa using List.all_eq_true.mp empty e member
  · exact links_of_not_dir dir

/-- The condition of `unlink`, for directories that no link names. -/
theorem Sound.noChild (sound : Sound scope 0 none t) (parent : s.ParentOfNone x)
    (disk : t.disk = s.disk) (bound : ∀ c, (s.disk c).type = .dir → c < s.ninodes)
    (isExact : scope.exact) (dir : (t.disk x).type = .dir) (c : Nat) (dirC : (t.disk c).type = .dir)
    (orphan : ¬ Linked t.ninodes t.disk c) (other : c ≠ x) : (t.disk c).parent ≠ x := by
  have zero : (t.disk c).nlink = 0 := by
    by_contra nonzero
    exact orphan (sound.tree.linked_of_nlink isExact dirC (toNat_pos nonzero))
  rw [disk] at dir dirC zero ⊢
  exact parent dir c (bound c dirC) dirC zero other

/-- **`unlink` keeps `Sound`.** -/
theorem sysUnlink_sound (sound : Sound scope 0 none s) (cwd : s.CwdHeld p) {path : List Byte}
    (parent : scope.exact → ∀ a ∈ s.lookup p path true,
      ∀ e ∈ findEntry (s.disk a.1).entries a.2, s.ParentOfNone e.2.inum) :
    From s (sysUnlink p (some path)) (fun _ => Sound scope 0 none) := by
  have drop (i : Fin NINODE) :
      Keeps (Sound scope 0 none) (do iunlockput i; return false : FsM P Bool) :=
    (sound_stable.iunlockput i).bind fun _ => Keeps.pure
  refine .bind (namex_walk sound.starts cwd False.elim path true).any fun r => ?_
  cases r with
  | none => exact .pure fun u here => here.1.sound
  | some r =>
  obtain ⟨dp, name⟩ := r
  refine .each fun t1 here => ?_
  obtain ⟨walk, looked⟩ := here
  refine .bind (ilock_opened dp walk.sound) fun _ => .each fun t2 here => ?_
  obtain ⟨sound2, opened2, disk2, -⟩ := here
  generalize isD : (t1.itable dp).inum = d at opened2
  refine .ite (fun _ => (drop dp).known sound2) fun notDots => ?_
  push Not at notDots
  refine .bind (dirlookup_opened sound2 opened2 name) fun r => ?_
  cases r with
  | none =>
    refine (drop dp).of_pre fun u here => ?_
    rw [here.2.1]
    exact sound2
  | some r =>
  obtain ⟨ip, off⟩ := r
  refine .each fun t3 here => ?_
  obtain ⟨dir, sound3, opened3, disk3, de, found, inum3⟩ := here
  refine .bind (ilock_opened ip sound3) fun _ => .each fun t here => ?_
  obtain ⟨soundT, openedI, diskT, unlocked, kept⟩ := here
  have other : ip ≠ dp := by
    rintro rfl
    rw [opened3.locked] at unlocked
    cases unlocked
  have loadedD : t.Loaded dp d := opened3.toLoaded.of_eq (kept dp (Ne.symm other))
  rw [inum3] at openedI
  have disk : t.disk = t2.disk := diskT.trans disk3
  rw [← disk] at dir found
  refine .get_bind fun v same => ?_
  subst same
  obtain ⟨allocD, copyD⟩ := soundT.copies loadedD
  obtain ⟨allocI, copyI⟩ := soundT.copies openedI.toLoaded
  rw [copyI.type]
  refine .ite (fun _ => .throws) fun _ => .ite (fun _ => ?_) fun ready => ?_
  · exact .bind ((sound_stable.iunlockput ip).known soundT) fun _ => drop dp
  have empty := links_of_isdirempty soundT openedI.inum (by simpa using ready)
  have noChild (isExact : scope.exact) (isDir : (v.disk de.inum).type = .dir) : ∀ c,
      (v.disk c).type = .dir → ¬ Linked v.ninodes v.disk c → c ≠ de.inum →
        (v.disk c).parent ≠ de.inum := by
    have disk1 : t1.disk = s.disk := walk.same isExact
    have looks := looked isExact
    have same : v.disk = s.disk := disk.trans (disk2.trans disk1)
    rw [same, ← isD] at found
    exact soundT.noChild (parent isExact _ looks.symm _ found) same
      (fun c dirC => (sound.tree.pos_of_dir dirC).2) isExact isDir
  -- from here on the link is owed
  refine .bind (writeEntry_spec loadedD copyD off ⟨0, []⟩) fun _ => .each fun w isW => ?_
  have cleared := soundT.setEntries loadedD
    (soundT.tree.clear dir found notDots.1 notDots.2 (fun _ => empty) noChild)
  have slots := setEntries_same v dp (putEntry (v.disk d).entries off ⟨0, []⟩)
  rw [← isW] at cleared slots
  have loadedDW := slots.loaded loadedD
  have loadedIW := slots.loaded openedI.toLoaded
  have ne : de.inum ≠ d := fun same => other
    (soundT.unique ip dp openedI.ref loadedD.ref
      (openedI.inum.trans (same.trans loadedD.inum.symm)))
  refine .ite (fun isDir => ?_) fun notDir => ?_
  · obtain ⟨allocW, copyW⟩ := cleared.copies loadedDW
    refine .bind (setNlink_spec loadedDW copyW _) fun _ => .each fun q same => ?_
    have counted := cleared.tree.le_nlink allocW
    have dirW : (w.disk d).type = .dir := by
      rw [isW, setEntries_disk loadedD, update_self]
      exact dir
    have owes : Owes v.disk d de.inum d = 1 := by
      unfold Owes
      rw [if_neg ne, if_pos ⟨rfl, isDir⟩]
    simp only [Pi.zero_apply, owes] at counted
    have written : Sound scope (owe de.inum) none q := by
      rw [same]
      refine cleared.setLinks loadedDW _ (fun i notD => ?_) ?_ fun _ notDir => absurd dirW notDir
      · simp [owe, Owes, notD]
      · simp only [Pi.zero_apply, owes, owe_of_ne (Ne.symm ne)]
        have pred := toNat_pred (v := (w.disk d).nlink) (by omega)
        omega
    have loadedIQ : q.Loaded ip de.inum := by
      rw [same]
      exact (setLinks_same w dp _).loaded loadedIW
    exact unlink_rest written other loadedIQ
  · have owes : (fun i => (0 : Nat → Nat) i + Owes v.disk d de.inum i) =
        owe de.inum := by
      funext i
      simp [owe, Owes, notDir]
    rw [owes] at cleared
    exact unlink_rest cleared other loadedIW

/-! ### `create` -/

/-- A free inode, and an entry of the table that is for it or for none. -/
theorem ialloc_sound (sound : Sound scope owed none t) (type : FType) :
    From t (ialloc type) (fun j u => ∃ z ip, (t.disk z).type = .free ∧
      (0 < z ∧ z < t.ninodes) ∧ u = (t.setDinode z ⟨type, 0, 0, 0, []⟩).setInode j ip ∧
      ip.inum = z ∧ 0 < ip.ref ∧ ip.valid = false ∧ (0 < (t.itable j).ref → (t.itable j).inum = z) ∧
      ∀ i, i ≠ j → 0 < (t.itable i).ref → (t.itable i).inum ≠ z) := by
  refine .get_bind fun v same => ?_
  subst same
  cases found : v.freeInum with
  | none => exact .throw fun _ _ => trivial
  | some z =>
  obtain ⟨free, inside⟩ := freeInum_spec found
  refine .modify_known ?_
  rintro w rfl
  rw [iget_run]
  cases held : (v.setDinode z ⟨type, 0, 0, 0, []⟩).holding z with
  | some i =>
    obtain ⟨ref, inum⟩ := holding_ref held
    have ref : 0 < (v.itable i).ref := ref
    have inum : (v.itable i).inum = z := inum
    have invalid : (v.itable i).valid = false := by
      by_contra valid
      have copied := sound.copy i ref (by simpa using valid)
      rw [inum] at copied
      exact copied.1 free
    refine ⟨z, _, free, inside, rfl, inum, ?_, invalid, fun _ => inum, sound.apart ref inum⟩
    show 0 < (v.itable i).ref + 1
    omega
  | none =>
    cases empty : (v.setDinode z ⟨type, 0, 0, 0, []⟩).emptySlot with
    | none => trivial
    | some i =>
      have noRef : (v.itable i).ref = 0 := emptySlot_ref empty
      refine ⟨z, _, free, inside, rfl, rfl, Int.one_pos, rfl, fun ref => ?_,
        fun k _ refK same => ?_⟩
      · omega
      · exact holding_none held ⟨k, refK, same⟩

/-- **A new inode**, locked and with one link that is owed. -/
theorem newInode_sound {A : Type} {post : A → Fs P → Prop} {f : Fin NINODE → FsM P A}
    (sound : Sound scope 0 none t) (alloc : type ≠ .free)
    (rest : ∀ j z u, Sound scope (owe z) (if type = .dir then some z else none) u → u.Loaded j z →
      (t.disk z).type = .free → u.disk = update t.disk z ⟨type, major, minor, 1, []⟩ →
      (∀ i, i ≠ j → u.itable i = t.itable i) → (0 < (t.itable j).ref → (t.itable j).inum = z) →
      From u (f j) post) :
    From t (do
      let ip ← ialloc type
      ilock ip
      modify fun s => s.setInode ip
        { s.itable ip with major := major, minor := minor, nlink := 1 }
      iupdate ip
      f ip) post := by
  refine .bind (ialloc_sound sound type) fun j => .each fun u here => ?_
  obtain ⟨z, ip, free, inside, same, inum, ref, invalid, mine, apart⟩ := here
  have lock : From u (ilock j) (fun _ w => w = u.setInode j
      ⟨z, ip.ref, true, true, type, 0, 0, 0⟩) := by
    rintro v rfl
    rw [ilock_run, same]
    split_ifs with noRef locked valid isFree
    · trivial
    · trivial
    · simp [Fs.setInode, invalid] at valid
    · trivial
    · simp [Fs.setInode, Fs.setDinode, inum]
  refine .bind lock fun _ => .modify_known (.modify_known (.each fun w isW => ?_))
  have isW : w = (t.setDinode z ⟨type, major, minor, 1, []⟩).setInode j
      ⟨z, ip.ref, true, true, type, major, minor, 1⟩ := by
    rw [isW]
    simp [same, Fs.setInode, Fs.setDinode]
  have diskW : w.disk = update t.disk z ⟨type, major, minor, 1, []⟩ := by
    rw [isW]
    rfl
  have entryW : w.itable j = ⟨z, ip.ref, true, true, type, major, minor, 1⟩ := by
    rw [isW]
    exact update_self _ _ _
  have allocated : DirTree scope t.ninodes (update t.disk z ⟨type, 0, 0, 0, []⟩) 0
      (if type = .dir then some z else none) := sound.tree.allocate free inside rfl rfl rfl
  have counted : DirTree scope t.ninodes (update (update t.disk z ⟨type, 0, 0, 0, []⟩) z
      ⟨type, major, minor, 1, []⟩) (owe z) (if type = .dir then some z else none) := by
    have low : (1 : BitVec 16).toNat < 2 ^ 15 := by decide
    refine allocated.setNlink ?_ ?_ (fun i other => owe_of_ne other) ?_ fun _ _ => low
    · rw [update_self]
    · rw [update_self]
    · rw [update_self, owe_self]
      rfl
  rw [update_idem] at counted
  have soundW : Sound scope (owe z) (if type = .dir then some z else none) w := by
    rw [isW]
    exact ⟨sound.write mine apart (fun _ => ⟨rfl, rfl, alloc, rfl, rfl, rfl, rfl⟩) fun _ => ref,
      counted⟩
  refine rest j z w soundW ⟨by rw [entryW], by rwa [entryW], by rw [entryW]⟩ free diskW ?_ mine
  intro i other
  rw [isW]
  exact update_of_ne other _ _

theorem unambiguous_dots (a b : Nat) : Unambiguous [⟨a, dot⟩, ⟨b, dotdot⟩] := by
  intro i j e f hereE hereF _ _ same
  match i, j, hereE, hereF with
  | 0, 0, _, _ => rfl
  | 1, 1, _, _ => rfl
  | 0, 1, hereE, hereF =>
    obtain rfl := Option.some.inj hereE
    obtain rfl := Option.some.inj hereF
    exact absurd same (show dot ≠ dotdot by decide)
  | 1, 0, hereE, hereF =>
    obtain rfl := Option.some.inj hereE
    obtain rfl := Option.some.inj hereF
    exact absurd same (show dotdot ≠ dot by decide)

theorem not_isLink_dots (a b : Nat) : ∀ e ∈ [(⟨a, dot⟩ : Dirent), ⟨b, dotdot⟩], ¬ e.IsLink := by
  intro e member isLink
  simp only [List.mem_cons, List.not_mem_nil, or_false] at member
  rcases member with rfl | rfl
  · exact isLink.2.1 rfl
  · exact isLink.2.2 rfl

/-- The last write of `create`: the new inode is a file, or a directory with `.` and `..` that its
parent counts. -/
theorem create_link {name : Name} (sound : Sound scope owed fresh t) (loadedD : t.Loaded dp d)
    (loadedZ : t.Loaded j z) (other : j ≠ dp) (old : fresh ≠ some d)
    (typeZ : (t.disk z).type = type) (isFresh : fresh = if type = .dir then some z else none)
    (complete : type = .dir → DirShape z (t.disk z) ∧ (t.disk z).parent = d)
    (live : scope.exact → owed d < (t.disk d).nlink.toNat)
    (paid : ∀ i, owed i = Owes t.disk d z i) :
    From t (do
        if !(← dirlink dp name z) then throw .createDirlink
        iunlockput dp
        return some j)
      (fun r u => Sound scope 0 none u ∧ ∀ i, r = some i → u.Valid i) := by
  obtain ⟨_, copyD⟩ := sound.copies loadedD
  obtain ⟨allocZ, _⟩ := sound.copies loadedZ
  have small : z % 2 ^ 16 = z :=
    Nat.mod_eq_of_lt (lt_of_lt_of_le (sound.tree.bound z allocZ).2 sound.tree.small)
  refine .bind (dirlink_new loadedD copyD) fun linked => .ite (fun _ => ?_) fun yes => ?_
  · exact .throws
  refine .each fun u here => ?_
  obtain ⟨dir, absent, fits, isU⟩ := here (by simpa using yes)
  rw [small] at isU
  have done : Sound scope 0 none u := by
    rw [isU]
    refine sound.setEntries loadedD (sound.tree.put dir old absent fits allocZ ?_ ?_ ?_ fun i => ?_)
    · rw [typeZ]
      exact isFresh
    · rw [typeZ]
      exact complete
    · exact fun isExact => sound.tree.linked_of_nlink isExact dir (live isExact)
    · rw [paid i]
      exact (Nat.zero_add _).symm
  have loadedU : u.Loaded j z := by
    rw [isU]
    exact (setEntries_same t dp _).loaded loadedZ
  refine .bind (iunlockput_sound dp done) fun _ => .pure fun w here => ⟨here.1, fun i isJ => ?_⟩
  obtain rfl : j = i := by simpa using isJ
  rw [Fs.Valid, here.2 j other]
  exact ⟨loadedU.ref, loadedU.valid⟩

/-- **`create` keeps `Sound`**, and what it returns is valid. -/
theorem create_sound (sound : Sound scope 0 none s) (cwd : s.CwdHeld p) {path : List Byte}
    (enters : scope.exact → s.EntersLinked p path) (alloc : type ≠ .free) :
    From s (create p path type major minor)
      (fun r u => Sound scope 0 none u ∧ ∀ i, r = some i → u.Valid i) := by
  refine .bind (namex_walk sound.starts cwd False.elim path true).any fun r => ?_
  cases r with
  | none => exact .pure fun u here => ⟨here.1.sound, by simp⟩
  | some r =>
  obtain ⟨dp, name⟩ := r
  refine .each fun t1 here => ?_
  obtain ⟨walk, looked⟩ := here
  refine .bind (ilock_opened dp walk.sound) fun _ => .each fun t here => ?_
  obtain ⟨soundT, opened, diskT, -⟩ := here
  generalize isD : (t1.itable dp).inum = d at opened
  refine .bind (dirlookup_opened soundT opened name) fun r => ?_
  cases r with
  | some r =>
    obtain ⟨ip, off⟩ := r
    refine .bind ((sound_stable.iunlockput dp).of_pre fun u here => here.2.1) fun _ => ?_
    refine .bind (sound_stable.ilock ip) fun _ => .get_bind fun u here => ?_
    refine .ite (fun _ => ?_) fun _ => ?_
    · refine .done ⟨here.1, fun i isIp => ?_⟩
      obtain rfl : ip = i := by simpa using isIp
      exact here.2
    · refine .bind ((sound_stable.iunlockput ip).known here.1) fun _ => ?_
      exact .pure fun v kept => ⟨kept, by simp⟩
  | none =>
  refine .each fun v here => ?_
  obtain ⟨dir, same, -⟩ := here
  subst same
  refine newInode_sound soundT alloc fun j z u soundU loadedJ free disk kept mine => ?_
  have ne : d ≠ z := by
    intro isZ
    rw [isZ, free] at dir
    cases dir
  have other : j ≠ dp := by
    rintro rfl
    exact ne (opened.inum.symm.trans (mine opened.ref))
  have loadedD : u.Loaded dp d := opened.toLoaded.of_eq (kept dp (Ne.symm other))
  have diskD : u.disk d = v.disk d := by
    rw [disk, update_of_ne ne]
  have diskZ : u.disk z = ⟨type, major, minor, 1, []⟩ := by
    rw [disk, update_self]
  have live (isExact : scope.exact) : 0 < (u.disk d).nlink.toNat := by
    have disk1 : t1.disk = s.disk := walk.same isExact
    have looks := looked isExact
    rw [diskD, diskT, disk1, ← isD]
    exact toNat_pos (enters isExact _ looks.symm)
  refine .get_bind fun w isW => ?_
  subst isW
  rw [loadedJ.inum, loadedD.inum]
  refine .ite (fun isDir => ?_) fun notDir => ?_
  · rw [if_pos isDir] at soundU
    have old : some z ≠ some d := fun same => ne (Option.some.inj same).symm
    have dirU : (w.disk d).type = .dir := by
      rw [diskD]
      exact dir
    obtain ⟨_, copyD⟩ := soundU.copies loadedD
    have room : MAXDIRENTS = 17152 := rfl
    have grown : ((w.disk d).nlink + 1).toNat =
        (w.disk d).nlink.toNat + 1 := by
      have bound := soundU.tree.nlink_lt dirU old
      rw [owe_of_ne ne] at bound
      exact toNat_succ (by omega)
    refine .bind (setNlink_spec loadedD copyD _) fun _ => .each fun w1 same1 => ?_
    -- the link to the directory and the one that it counts for its subdirectory are owed
    have owes : Owes w.disk d z d = 1 := by
      rw [Owes, if_neg (Ne.symm ne), if_pos ⟨rfl, by rw [diskZ]; exact isDir⟩]
    have sound1 : Sound scope (Owes w.disk d z) (some z) w1 := by
      rw [same1]
      refine soundU.setLinks loadedD _ (fun i notD => ?_) ?_ fun _ notDir => absurd dirU notDir
      · simp [Owes, owe, notD]
      · rw [grown, owe_of_ne ne, owes]
    have slots1 := setLinks_same w dp ((w.disk d).nlink + 1)
    have disk1 := setLinks_disk loadedD ((w.disk d).nlink + 1)
    rw [← same1] at slots1 disk1
    have loadedJ1 := slots1.loaded loadedJ
    have diskZ1 : w1.disk z = ⟨type, major, minor, 1, []⟩ := by
      rw [disk1, update_of_ne (Ne.symm ne), diskZ]
    have diskD1 : w1.disk d = { w.disk d with
        nlink := (w.disk d).nlink + 1 } := by
      rw [disk1, update_self]
    have dirD1 : (w1.disk d).type = .dir := by
      rw [diskD1]
      exact dirU
    have live1 (isExact : scope.exact) : Owes w.disk d z d <
        (w1.disk d).nlink.toNat := by
      have before := live isExact
      rw [owes, diskD1]
      show 1 < ((w.disk d).nlink + 1).toNat
      omega
    have insideZ := sound1.tree.bound z (by rw [diskZ1]; exact alloc)
    have insideD := sound1.tree.pos_of_dir dirD1
    have small := sound1.tree.small
    refine create_dots loadedJ1 (sound1.copies loadedJ1).2 (by rw [diskZ1]) (by omega) (by omega)
      (by omega) (.each fun w2 same2 => ?_)
    have same2 : w2 = w1.setEntries j [⟨z, dot⟩, ⟨d, dotdot⟩] := by
      rw [same2]
      unfold Fs.setEntries Fs.setDinode
      simp [update_idem]
    have sound2 : Sound scope (Owes w.disk d z) (some z) w2 := by
      rw [same2]
      refine sound1.setEntries loadedJ1 (sound1.tree.putFresh (unambiguous_dots _ _)
        (not_isLink_dots _ _) ?_ fun isExact => ?_)
      · simp [Owes, Ne.symm ne]
      · exact sound1.tree.linked_of_nlink isExact dirD1 (live1 isExact)
    have slots2 := setEntries_same w1 j [⟨z, dot⟩, ⟨d, dotdot⟩]
    have disk2 := setEntries_disk loadedJ1 [⟨z, dot⟩, ⟨d, dotdot⟩]
    rw [← same2] at slots2 disk2
    have diskZ2 : w2.disk z =
        ⟨type, major, minor, 1, [⟨z, dot⟩, ⟨d, dotdot⟩]⟩ := by
      rw [disk2, update_self, diskZ1]
    have room : 2 ≤ MAXDIRENTS := by decide
    refine create_link sound2 (slots2.loaded (slots1.loaded loadedD)) (slots2.loaded loadedJ1) other
      old (congrArg Dinode.type diskZ2) (if_pos isDir).symm (fun _ => ?_) (fun isExact => ?_)
      fun i => ?_
    · rw [diskZ2]
      exact ⟨⟨⟨[], rfl⟩, fun e member => absurd member List.not_mem_nil, room⟩, rfl⟩
    · rw [disk2, update_of_ne ne]
      exact live1 isExact
    · simp only [Owes, diskZ, diskZ2]
  · rw [if_neg notDir] at soundU
    refine create_link soundU loadedD loadedJ other (by simp) (congrArg Dinode.type diskZ)
      (if_neg notDir).symm (fun isDir => absurd isDir notDir) (fun isExact => ?_) fun i => ?_
    · rw [owe_of_ne ne]
      exact live isExact
    · simp [owe, Owes, diskZ, notDir]

/-! ### `link` -/

theorem linkBad_sound (walk : Walk (scope.search s.ninodes (owe x)) s none 0 t)
    (held : 0 < (s.itable ip).ref) (inum : (s.itable ip).inum = x) :
    From t (linkBad ip) (fun _ => Sound scope 0 none) := by
  refine .bind (ilock_opened ip walk.sound) fun _ => .each fun u here => ?_
  obtain ⟨sound, opened, -⟩ := here
  rw [walk.kept ip held, inum] at opened
  refine .bind (setNlink_pred sound opened.toLoaded) fun _ => ?_
  exact (sound_stable.iunlockput ip).bind fun _ => Keeps.pure

/-- The second half of `link`: the old inode is unlocked, and a link to it is owed. -/
theorem link_rest (sound : Sound scope (owe x) none s) (cwd : s.CwdHeld p) {new : List Byte}
    (enters : scope.exact → s.EntersLinked p new) (held : 0 < (s.itable ip).ref)
    (inum : (s.itable ip).inum = x) (alloc : (s.disk x).type ≠ .free)
    (notDir : (s.disk x).type ≠ .dir) :
    From s (do
      match ← nameiparent p new with
      | none => linkBad ip
      | some (dp, name) =>
        ilock dp
        let s ← get
        if ← dirlink dp name (s.itable ip).inum then
          iunlockput dp
          iput ip
          return true
        else
          iunlockput dp
          linkBad ip) (fun _ => Sound scope 0 none) := by
  refine .bind (namex_walk sound.starts cwd False.elim new true).any fun r => ?_
  cases r with
  | none => exact .each fun t here => linkBad_sound here.1 held inum
  | some r =>
  obtain ⟨dp, name⟩ := r
  refine .each fun t1 here => ?_
  obtain ⟨walk1, looked⟩ := here
  refine .bind
    (((ilock_opened dp walk1.sound).and (ilock_walk sound.starts dp _ False.elim).any).known
    ⟨rfl, walk1, rfl⟩) fun _ => Triple.get_bind fun t here => ?_
  obtain ⟨⟨soundT, opened, -⟩, walk, -⟩ := here
  generalize isD : (t1.itable dp).inum = d at opened
  rw [walk.kept ip held, inum]
  -- an inode that is owed a link is not freed
  have same : t.disk x = s.disk x := by
    obtain old | ⟨_, _, zero⟩ := walk.disk x
    · exact old
    · have counted := sound.tree.le_nlink alloc
      rw [zero, owe_self] at counted
      exact absurd counted (by simp)
  have small : x % 2 ^ 16 = x :=
    Nat.mod_eq_of_lt (lt_of_lt_of_le (sound.tree.bound x alloc).2 sound.tree.small)
  obtain ⟨_, copy⟩ := soundT.copies opened.toLoaded
  have mine : Walk (scope.search s.ninodes (owe x)) s (some dp) (0 + one dp) t := by
    simpa using walk
  refine .bind (((dirlink_new opened.toLoaded copy).and
    (dirlink_walk sound (one_taken dp) dp d name x)).known ⟨rfl, mine, opened.toLoaded⟩)
    fun linked =>
    Triple.ite (fun yes => ?_) fun no => ?_
  · refine .each fun u here => ?_
    obtain ⟨dir, absent, fits, isU⟩ := here.1 yes
    rw [small] at isU
    have other : d ≠ x := by
      intro isX
      rw [isX, same] at dir
      exact notDir dir
    have done : Sound scope 0 none u := by
      rw [isU]
      refine soundT.setEntries opened.toLoaded
        (soundT.tree.put dir (by simp) absent fits ?_ ?_ ?_ (fun isExact => ?_) fun i => ?_)
      · rw [same]
        exact alloc
      · rw [same, if_neg notDir]
      · rw [same]
        exact fun isDir => absurd isDir notDir
      · refine soundT.tree.linked_of_nlink isExact dir ?_
        rw [owe_of_ne other, walk.same isExact, ← isD]
        exact toNat_pos (enters isExact _ (looked isExact).symm)
      · simp [owe, Owes, same, notDir]
    refine .bind ((sound_stable.iunlockput dp).known done) fun _ => ?_
    exact (sound_stable.iput ip).bind fun _ => Keeps.pure
  · refine .bind (.each fun u here => ?_) fun _ => .each fun u back => linkBad_sound back held inum
    have back : Walk _ s (some dp) (0 + one dp) u := here.2 (by simpa using no)
    exact ((iunlockput_walk sound.starts zero_taken dp dp _).any.known ⟨back, rfl⟩).to_post
      fun _ _ moved => moved.1

/-- The link count that `link` adds to is not the largest one. -/
theorem toNat_lt_of_room (notMax : v ≠ -1) : v.toNat < 2 ^ 16 - 1 := by
  have bound := v.isLt
  have ne : v.toNat ≠ 65535 := fun max => notMax (BitVec.eq_of_toNat_eq (by rw [max]; rfl))
  omega

theorem toNat_ne_of_toInt (notMax : v.toInt ≠ 2 ^ 15 - 1) : v.toNat ≠ 2 ^ 15 - 1 := by
  intro max
  rw [BitVec.toInt_eq_toNat_of_lt (by omega), max] at notMax
  exact notMax rfl

/-- **`link` keeps `Sound`.** -/
theorem sysLink_sound (sound : Sound scope 0 none s) (cwd : s.CwdHeld p) (room : s.LinkRoom)
    {old new : List Byte} (careful : scope.exact → s.EntersLinked p new ∧
      ∀ a ∈ s.lookup p old false, (s.disk a.1).nlink.toInt ≠ 2 ^ 15 - 1) :
    From s (sysLink p (some old) (some new)) (fun _ => Sound scope 0 none) := by
  refine .bind (namei_walk sound.starts cwd False.elim old).any fun r => ?_
  cases r with
  | none => exact .pure fun u here => here.1.sound
  | some ip =>
  refine .each fun t1 here => ?_
  obtain ⟨walk1, looked⟩ := here
  refine .bind
    (((ilock_opened ip walk1.sound).and (ilock_walk sound.starts ip _ False.elim).any).known
    ⟨rfl, walk1, rfl⟩) fun _ => Triple.get_bind fun t2 here => ?_
  obtain ⟨⟨sound2, opened, -⟩, walk2, -⟩ := here
  generalize isX : (t1.itable ip).inum = x at opened
  have moves2 : Moves s (one ip) t2 := walk2.moves
  obtain ⟨alloc, copy⟩ := sound2.copies opened.toLoaded
  refine .ite (fun _ => ?_) fun isFile => ?_
  · exact .bind ((sound_stable.iunlockput ip).known sound2) fun _ => Keeps.pure
  rw [copy.type] at isFile
  have before : t2.disk x = s.disk x := by
    obtain same | ⟨_, free, _⟩ := walk2.disk x
    · exact same
    · exact absurd free alloc
  have below : (t2.disk x).nlink.toNat < 2 ^ 16 - 1 := by
    rw [before] at alloc isFile ⊢
    exact toNat_lt_of_room (room _ (sound.tree.bound _ alloc).2 alloc isFile)
  refine .bind (((setNlink_spec opened.toLoaded copy _).and (setNlink_quiet ip _ s (one ip))).known
    ⟨rfl, moves2⟩) fun _ => .each fun t3 here => ?_
  obtain ⟨same3, moves3⟩ := here
  have sound3 : Sound scope (owe x) none t3 := by
    rw [same3]
    refine sound2.setLinks opened.toLoaded _ (fun i other => owe_of_ne other) ?_
      fun isExact notDir => ?_
    · rw [toNat_succ below, owe_self]
      rfl
    · obtain ⟨a, found, isA⟩ := Option.map_eq_some_iff.mp (looked isExact).symm
      have notMax := toNat_ne_of_toInt ((careful isExact).2 a found)
      rw [isA.trans isX, ← before] at notMax
      have low := ((sound2.tree.exact isExact).files _ alloc notDir).2
      rw [toNat_succ below]
      omega
  have slots := setLinks_same t2 ip ((t2.disk x).nlink + 1)
  have disk3 := setLinks_disk opened.toLoaded ((t2.disk x).nlink + 1)
  rw [← same3] at disk3 slots
  refine .bind (((iunlock_sound ip sound3).and (iunlock_quiet ip s (one ip))).known
    ⟨rfl, moves3⟩) fun _ => Triple.each fun t4 here => ?_
  obtain ⟨⟨sound4, same4⟩, moves4⟩ := here
  have cwd4 : t4.CwdHeld p := by
    intro i isCwd
    rw [moves4.cwd] at isCwd
    have held := cwd i isCwd
    have taken := one_taken ip i
    rw [zero_add] at taken
    rw [moves4.ref]
    omega
  have inum4 : ∀ c, (t4.itable c).inum = (t2.itable c).inum := by
    intro c
    rw [← (slots c).1, same4]
    show (update t3.itable ip _ c).inum = _
    exact update_ind rfl fun _ => rfl
  have entry : t4.itable ip = { t3.itable ip with locked := false } := by
    rw [same4]
    exact update_self _ _ _
  have disk4 : t4.disk = update t2.disk x { t2.disk x with
      nlink := (t2.disk x).nlink + 1 } := by
    rw [same4, ← disk3]
    rfl
  have here4 : t4.disk x = { t2.disk x with
      nlink := (t2.disk x).nlink + 1 } := by
    rw [disk4, update_self]
  have enters4 (isExact : scope.exact) : t4.EntersLinked p new := by
    have disk : t2.disk = s.disk := walk2.same isExact
    have look : t4.lookup p new true = s.lookup p new true := by
      refine lookup_congr moves4.cwd (fun c isCwd => ?_) (fun i => ?_) (fun i => ?_) new true
      · rw [inum4]
        exact walk2.kept c (cwd c isCwd)
      · rw [disk4, disk]
        exact update_ind rfl fun _ => rfl
      · rw [disk4, disk]
        exact update_ind rfl fun _ => rfl
    intro a found
    have dir := lookup_parent_dir found
    rw [look] at found
    rw [disk4, update_of_ne, disk]
    · exact (careful isExact).1 a found
    · intro isX
      rw [isX, here4] at dir
      exact isFile dir
  have loaded3 := slots.loaded opened.toLoaded
  refine link_rest sound4 cwd4 enters4 ?_ ?_ ?_ ?_
  · rw [entry]
    exact loaded3.ref
  · rw [entry]
    exact loaded3.inum
  · rw [here4]
    exact alloc
  · rw [here4]
    exact isFile

end Xv6
