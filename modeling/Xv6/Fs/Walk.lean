/-
**Path lookup.**

`resolve` walks a path over the directories of an image, and `namex` does so on the inode table,
which agrees with the disk (`Agrees`). `Walk` is what it leaves behind: references to what it
returns and, if it dropped the last reference to an inode without links, that inode freed.

What is known of a lookup depends on the state it starts from (`Search`). If no inode is lost, every
entry names an allocated inode: the disk stays as it is, the result is that of `resolve`, and
`ilock: no type` is not reached (`namex_walk`). If also nothing is locked, the lookup returns unless
the inode table runs full. Otherwise it may come to a freed inode and panic when it locks it.
-/

import Xv6.Fs.Refs
import Xv6.Fs.Image

namespace Xv6

open Lib Function

variable {P : Type}

/-! ### Paths over an image -/

/-- The inode that a path leads to, or its parent and the last element. -/
def resolve (disk : Nat → Dinode) (parent : Bool) : Nat → List Name → Option (Nat × Name)
  | x, [] => if parent then none else some (x, [])
  | x, name :: rest =>
    if (disk x).type ≠ .dir then none
    else if parent ∧ rest = [] then some (x, name)
    else match findEntry (disk x).entries name with
      | none => none
      | some (_, de) => resolve disk parent de.inum rest

/-- The inode at which the lookup of a path starts. -/
def Fs.startOf (s : Fs P) (p : P) (path : List Byte) : Option Nat :=
  if path.head? = some slash then some ROOTINO else (s.cwd p).map fun i => (s.itable i).inum

/-- The inode that a path leads a process to, or its parent and the last element. -/
def Fs.lookup (s : Fs P) (p : P) (path : List Byte) (parent : Bool) : Option (Nat × Name) :=
  (s.startOf p path).bind fun x => resolve s.disk parent x (elements path.length path)

/-- The working directory of a process is in use. -/
def Fs.CwdHeld (s : Fs P) (p : P) : Prop := ∀ i, s.cwd p = some i → 0 < (s.itable i).ref

variable {i : Fin NINODE} {disk : Nat → Dinode} {x : Nat} {ip : Inode} {p : P}

/-- A path is looked up in directories, and their link counts do not matter. -/
theorem resolve_congr {disk' : Nat → Dinode} (types : ∀ i, (disk' i).type = (disk i).type)
    (entries : ∀ i, (disk' i).entries = (disk i).entries) (parent : Bool) (names : List Name) :
    ∀ x, resolve disk' parent x names = resolve disk parent x names := by
  induction names with
  | nil => exact fun x => rfl
  | cons name rest ih =>
    intro x
    simp only [resolve, types, entries, ih]

/-! ### The table and the disk -/

/-- An inode is in use in memory. -/
def Fs.used (s : Fs P) (x : Nat) : Prop := ∃ i, 0 < (s.itable i).ref ∧ (s.itable i).inum = x

/-- The in-memory copy is the inode on disk. -/
structure Inode.Copies (ip : Inode) (dn : Dinode) : Prop where
  type : ip.type = dn.type
  major : ip.major = dn.major
  minor : ip.minor = dn.minor
  nlink : ip.nlink = dn.nlink

/-- **The inode table agrees with the disk.** An entry in use is the only one for its inode. Its
copy is up to date if it is valid, as it is for an inode without links; such an inode is in use. If
no inode is lost, an entry in use is for an allocated inode. -/
structure Agrees (exact : Prop) (s : Fs P) : Prop where
  unique : ∀ i j, 0 < (s.itable i).ref → 0 < (s.itable j).ref →
    (s.itable i).inum = (s.itable j).inum → i = j
  alloc : exact → ∀ i, 0 < (s.itable i).ref → (s.disk (s.itable i).inum).type ≠ .free
  copy : ∀ i, 0 < (s.itable i).ref → (s.itable i).valid = true →
    (s.disk (s.itable i).inum).type ≠ .free ∧ (s.itable i).Copies (s.disk (s.itable i).inum)
  zero : ∀ i, 0 < (s.itable i).ref → (s.disk (s.itable i).inum).type ≠ .free →
    (s.disk (s.itable i).inum).nlink = 0 → (s.itable i).valid = true
  unlinked : ∀ x, (s.disk x).type ≠ .free → (s.disk x).nlink = 0 → s.used x

/-- The entry is in use and its copy valid. -/
structure Fs.Loaded (t : Fs P) (i : Fin NINODE) (x : Nat) : Prop where
  inum : (t.itable i).inum = x
  ref : 0 < (t.itable i).ref
  valid : (t.itable i).valid = true

variable {s t u : Fs P} {k : Fin NINODE → Int} {dn : Dinode} {sure : Prop}

/-- An inode stays in use when an entry of the table changes that keeps its references to it. -/
theorem used_of_setRef (used : t.used x)
    (kept : 0 < (t.itable i).ref → (t.itable i).inum = x → 0 < ip.ref ∧ ip.inum = x) :
    (t.setInode i ip).used x := by
  obtain ⟨j, ref, inum⟩ := used
  refine ⟨j, ?_⟩
  show 0 < (update t.itable i ip j).ref ∧ (update t.itable i ip j).inum = x
  by_cases same : j = i
  · subst same
    rw [update_self]
    exact kept ref inum
  · rw [update_of_ne same]
    exact ⟨ref, inum⟩

namespace Agrees

variable (agrees : Agrees sure t)

include agrees

/-- Only the disk and the inode table matter. -/
theorem congr (disk : u.disk = t.disk) (itable : u.itable = t.itable) : Agrees sure u := by
  obtain ⟨unique, alloc, copy, zero, unlinked⟩ := agrees
  rw [← itable] at unique alloc copy zero
  rw [← disk] at alloc copy zero unlinked
  refine ⟨unique, alloc, copy, zero, fun x alloc none => ?_⟩
  have used := unlinked x alloc none
  unfold Fs.used at used ⊢
  rwa [itable]

theorem copies (loaded : t.Loaded i x) :
    (t.disk x).type ≠ .free ∧ (t.itable i).Copies (t.disk x) := by
  have copy := agrees.copy i loaded.ref loaded.valid
  rwa [loaded.inum] at copy

/-- An entry of the table changes and stays for the same inode. -/
theorem setInode (inum : 0 < ip.ref → 0 < (t.itable i).ref ∧ ip.inum = (t.itable i).inum)
    (valid : 0 < ip.ref → (t.itable i).valid = true → ip.valid = true)
    (copy : 0 < ip.ref → ip.valid = true →
      (t.disk ip.inum).type ≠ .free ∧ ip.Copies (t.disk ip.inum))
    (kept : 0 < (t.itable i).ref → (t.disk (t.itable i).inum).type ≠ .free →
      (t.disk (t.itable i).inum).nlink = 0 → 0 < ip.ref) : Agrees sure (t.setInode i ip) := by
  have before : ∀ j, 0 < ((t.setInode i ip).itable j).ref → 0 < (t.itable j).ref ∧
      ((t.setInode i ip).itable j).inum = (t.itable j).inum := by
    simp only [Fs.setInode]
    exact fun j => update_ind inum fun _ ref => ⟨ref, rfl⟩
  constructor
  case unique =>
    intro a b refA refB same
    rw [(before a refA).2, (before b refB).2] at same
    exact agrees.unique a b (before a refA).1 (before b refB).1 same
  case alloc =>
    intro isExact j ref
    rw [(before j ref).2]
    exact agrees.alloc isExact j (before j ref).1
  case copy =>
    simp only [Fs.setInode]
    exact fun j => update_ind copy fun _ => agrees.copy j
  case zero =>
    intro j ref
    rw [(before j ref).2]
    intro alloc zero
    have old := agrees.zero j (before j ref).1 alloc zero
    revert ref old
    simp only [Fs.setInode]
    exact update_ind valid fun _ _ old => old
  case unlinked =>
    intro x alloc zero
    refine used_of_setRef (agrees.unlinked x alloc zero) fun ref isX => ?_
    subst isX
    have more := kept ref alloc zero
    exact ⟨more, (inum more).2⟩

/-- The count and the lock of an entry do not matter, as long as the last reference to an unlinked
inode stays. -/
theorem setRef (i : Fin NINODE) (ref : Int) (locked : Bool) (held : 0 < ref → 0 < (t.itable i).ref)
    (kept : 0 < (t.itable i).ref → (t.disk (t.itable i).inum).type ≠ .free →
      (t.disk (t.itable i).inum).nlink = 0 → 0 < ref) :
    Agrees sure (t.setInode i { t.itable i with ref := ref, locked := locked }) := by
  refine agrees.setInode (fun pos => ⟨held pos, rfl⟩) (fun _ valid => valid) (fun pos valid => ?_)
    kept
  obtain ⟨alloc, copy⟩ := agrees.copy i (held pos) valid
  exact ⟨alloc, copy.type, copy.major, copy.minor, copy.nlink⟩

/-- An entry that is free is taken for an inode that has none. -/
theorem take (empty : (t.itable i).ref = 0) (absent : ¬ t.used x)
    (alloc : sure → (t.disk x).type ≠ .free) :
    Agrees sure (t.setInode i { t.itable i with inum := x, ref := 1, valid := false }) := by
  constructor
  case unique =>
    simp only [Fs.setInode, update_apply]
    intro a b
    split_ifs with isA isB isB
    · exact fun _ _ _ => isA.trans isB.symm
    · exact fun _ ref same => absurd ⟨b, ref, same.symm⟩ absent
    · exact fun ref _ same => absurd ⟨a, ref, same⟩ absent
    · exact agrees.unique a b
  case alloc =>
    simp only [Fs.setInode]
    exact fun isExact j => update_ind (fun _ => alloc isExact) fun _ => agrees.alloc isExact j
  case copy =>
    simp only [Fs.setInode]
    exact fun j => update_ind (by simp) fun _ => agrees.copy j
  case zero =>
    simp only [Fs.setInode]
    refine fun j => update_ind (fun _ alloc zero => ?_) fun _ => agrees.zero j
    exact absurd (agrees.unlinked x alloc zero) absent
  case unlinked =>
    intro y alloc zero
    refine used_of_setRef (agrees.unlinked y alloc zero) fun ref => ?_
    omega

/-- Another entry is for another inode. -/
theorem apart (ref : 0 < (t.itable i).ref) (inum : (t.itable i).inum = x) (j : Fin NINODE)
    (other : j ≠ i) (refJ : 0 < (t.itable j).ref) : (t.itable j).inum ≠ x := fun same =>
  other (agrees.unique j i refJ ref (same.trans inum.symm))

/-- **A write to an inode and its entry in the table**, which may be given up if the inode is freed.
-/
theorem write (mine : 0 < (t.itable i).ref → (t.itable i).inum = x)
    (apart : ∀ j, j ≠ i → 0 < (t.itable j).ref → (t.itable j).inum ≠ x)
    (copy : 0 < ip.ref → ip.inum = x ∧ ip.valid = true ∧ dn.type ≠ .free ∧ ip.Copies dn)
    (held : dn.type ≠ .free → 0 < ip.ref) : Agrees sure ((t.setDinode x dn).setInode i ip) := by
  have entry : ∀ j, ((t.setDinode x dn).setInode i ip).itable j =
      if j = i then ip else t.itable j := fun j => update_apply _ _ _ _
  have here : ((t.setDinode x dn).setInode i ip).disk x = dn := update_self _ _ _
  have elsewhere : ∀ y, y ≠ x → ((t.setDinode x dn).setInode i ip).disk y = t.disk y :=
    fun y other => update_of_ne other _ _
  constructor
  case unique =>
    intro a b
    rw [entry, entry]
    split_ifs with isA isB isB
    · exact fun _ _ _ => isA.trans isB.symm
    · intro refA refB same
      exact absurd (same.symm.trans (copy refA).1) (apart b isB refB)
    · intro refA refB same
      exact absurd (same.trans (copy refB).1) (apart a isA refA)
    · exact agrees.unique a b
  case alloc =>
    intro isExact j
    rw [entry]
    split_ifs with isI
    · intro ref
      obtain ⟨inum, _, alloc, _⟩ := copy ref
      rw [inum, here]
      exact alloc
    · intro ref
      rw [elsewhere _ (apart j isI ref)]
      exact agrees.alloc isExact j ref
  case copy =>
    intro j
    rw [entry]
    split_ifs with isI
    · intro ref _
      obtain ⟨inum, _, same⟩ := copy ref
      rw [inum, here]
      exact same
    · intro ref
      rw [elsewhere _ (apart j isI ref)]
      exact agrees.copy j ref
  case zero =>
    intro j
    rw [entry]
    split_ifs with isI
    · exact fun ref _ _ => (copy ref).2.1
    · intro ref
      rw [elsewhere _ (apart j isI ref)]
      exact agrees.zero j ref
  case unlinked =>
    intro y alloc zero
    by_cases isX : y = x
    · rw [isX, here] at alloc
      refine ⟨i, ?_⟩
      rw [entry, if_pos rfl]
      exact ⟨held alloc, (copy (held alloc)).1.trans isX.symm⟩
    · rw [elsewhere y isX] at alloc zero
      obtain ⟨j, ref, inum⟩ := agrees.unlinked y alloc zero
      have other : j ≠ i := by
        rintro rfl
        exact isX (inum.symm.trans (mine ref))
      refine ⟨j, ?_⟩
      rw [entry, if_neg other]
      exact ⟨ref, inum⟩

/-- A reference is dropped that is not the last one to an unlinked inode. -/
theorem dropRef (alive : ¬ t.Freed i) :
    Agrees sure (t.setInode i { t.itable i with ref := (t.itable i).ref - 1 }) := by
  refine agrees.setRef i _ _ (fun less => by omega) fun ref alloc zero => ?_
  by_contra last
  have valid := agrees.zero i ref alloc zero
  refine alive ⟨by omega, valid, ?_⟩
  rw [(agrees.copy i ref valid).2.nlink]
  exact zero

/-- The inode of a last reference is allocated and has no links. -/
theorem freed (freed : t.Freed i) :
    (t.disk (t.itable i).inum).type ≠ .free ∧ (t.disk (t.itable i).inum).nlink = 0 := by
  obtain ⟨last, valid, zero⟩ := freed
  obtain ⟨alloc, copy⟩ := agrees.copy i (by omega) valid
  exact ⟨alloc, copy.nlink ▸ zero⟩

/-- The last reference to an unlinked inode is dropped, and the inode is freed. -/
theorem free (freed : t.Freed i) (isFree : dn.type = .free) (gone : ip.ref = 0) :
    Agrees sure ((t.setDinode (t.itable i).inum dn).setInode i ip) := by
  have ref : 0 < (t.itable i).ref := by
    have last := freed.1
    omega
  exact agrees.write (fun _ => rfl) (agrees.apart ref rfl) (fun pos => by omega)
    fun used => absurd isFree used

end Agrees

/-! ### The functions on one inode -/

/-- Every panic but `ilock: no type`. -/
def Typed (e : FsPanic) : Prop := e ≠ .ilockNoType

theorem holding_none (absent : t.holding x = none) : ¬ t.used x := by
  rintro ⟨i, ref, inum⟩
  have none := List.find?_eq_none.mp absent i (List.mem_finRange i)
  simp [ref, inum] at none

theorem iget_agrees (x : Nat) (agrees : Agrees sure t) (alloc : sure → (t.disk x).type ≠ .free) :
    From t (iget x) (fun i u => Agrees sure u ∧ ∃ ip, u = t.setInode i ip ∧
        ip.inum = x ∧ ip.ref = (t.itable i).ref + 1 ∧ ip.locked = (t.itable i).locked ∧
        (0 < (t.itable i).ref → (t.itable i).inum = x ∧ ip.valid = (t.itable i).valid))
      fun e => e = .igetNoInodes ∧ ∀ i, (t.itable i).ref ≠ 0 := by
  rintro v rfl
  rw [iget_run]
  cases found : v.holding x with
  | some i =>
    obtain ⟨ref, inum⟩ := holding_ref found
    refine ⟨agrees.setRef i _ _ (fun _ => ref) fun _ _ _ => by omega, _, rfl, inum, rfl, rfl, ?_⟩
    exact fun _ => ⟨inum, rfl⟩
  | none =>
    cases empty : v.emptySlot with
    | none =>
      refine ⟨rfl, fun i free => ?_⟩
      have used := List.find?_eq_none.mp empty i (List.mem_finRange i)
      exact used (decide_eq_true free)
    | some i =>
      have free := emptySlot_ref empty
      refine ⟨agrees.take free (holding_none found) alloc, _, rfl, rfl, ?_, rfl, fun ref => ?_⟩
      · rw [free]
        rfl
      · omega

theorem ilock_agrees (i : Fin NINODE) (agrees : Agrees sure t) :
    From t (ilock i) (fun _ u => Agrees sure u ∧
      (t.itable i).locked = false ∧ 0 < (t.itable i).ref ∧ ∃ ip, u = t.setInode i ip ∧
        ip.inum = (t.itable i).inum ∧ ip.ref = (t.itable i).ref ∧ ip.valid = true ∧
        ip.locked = true)
      fun e => sure → Typed e ∧ ¬ (0 < (t.itable i).ref ∧ (t.itable i).locked = false) := by
  rintro v rfl
  rw [ilock_run]
  split_ifs with noRef locked valid free
  · exact fun _ => ⟨nofun, fun good => by omega⟩
  · exact fun _ => ⟨nofun, fun good => by simp [locked] at good⟩
  · have ref : 0 < (v.itable i).ref := by omega
    refine ⟨agrees.setRef i _ _ (fun _ => ref) fun _ _ _ => ref, by simpa using locked, ref, ?_⟩
    exact ⟨_, rfl, rfl, rfl, valid, rfl⟩
  · exact fun isExact => absurd free (agrees.alloc isExact i (by omega))
  · have ref : 0 < (v.itable i).ref := by omega
    refine ⟨agrees.setInode (fun _ => ⟨ref, rfl⟩) (fun _ _ => rfl)
      (fun _ _ => ⟨free, rfl, rfl, rfl, rfl⟩) (fun _ _ _ => ref), by simpa using locked, ref, ?_⟩
    exact ⟨_, rfl, rfl, rfl, rfl, rfl⟩

theorem iunlock_agrees (i : Fin NINODE) (agrees : Agrees sure t) :
    From t (iunlock i) (fun _ u => Agrees sure u ∧
      u = t.setInode i { t.itable i with locked := false })
      fun e => Typed e ∧ ¬ (0 < (t.itable i).ref ∧ (t.itable i).locked = true) := by
  rintro v rfl
  rw [iunlock_run]
  split_ifs with bad
  · refine ⟨nofun, fun good => ?_⟩
    rcases bad with free | noRef
    · simp [free] at good
    · omega
  · exact ⟨agrees.setRef i _ _ id fun ref _ _ => ref, rfl⟩

/-! ### What a lookup leaves behind -/

/-- The inode that is locked, if any. -/
def Fs.Locks (t : Fs P) (held : Option (Fin NINODE)) : Prop :=
  ∀ i, (t.itable i).locked = decide (held = some i)

/-- The inode table has at most one free entry. -/
def Fs.Crowded (s : Fs P) : Prop := ∀ i j, (s.itable i).ref = 0 → (s.itable j).ref = 0 → i = j

def Fs.NoRoom (s : Fs P) (e : FsPanic) : Prop := e = .igetNoInodes ∧ s.Crowded

/-- **What is known where a lookup starts.** -/
structure Search where
  /-- no inode is lost -/
  exact : Prop
  /-- nothing is locked -/
  calm : Prop
  image : (Nat → Dinode) → Prop
  root : exact → ∀ {disk}, image disk → (disk ROOTINO).type ≠ .free
  entry : exact → ∀ {disk d e}, image disk → (disk d).type = .dir → e ∈ (disk d).entries →
    e.inum ≠ 0 → (disk e.inum).type ≠ .free
  frees : ¬ exact → ∀ {disk x dn}, image disk → (disk x).type ≠ .free → (disk x).nlink = 0 →
    dn.type = .free → image (update disk x dn)

namespace Search

variable (m : Search)

structure Starts (s : Fs P) : Prop where
  agrees : Agrees m.exact s
  image : m.image s.disk
  calm : m.calm → s.Locks none ∧ ∀ i, 0 ≤ (s.itable i).ref

/-- The panics of a lookup. -/
def Stops (s : Fs P) (e : FsPanic) : Prop := m.exact → Typed e ∧ (m.calm → s.NoRoom e)

end Search

/-- **A lookup since `s`** has taken the references `k` and holds the lock of at most one inode;
what it may have freed had no links. -/
structure Walk (m : Search) (s : Fs P) (held : Option (Fin NINODE)) (k : Fin NINODE → Int)
    (t : Fs P) : Prop where
  moves : Moves s k t
  taken : ∀ i, 0 ≤ k i
  agrees : Agrees m.exact t
  image : m.image t.disk
  disk : ∀ x, t.disk x = s.disk x ∨ (¬ m.exact ∧ (t.disk x).type = .free ∧ (s.disk x).nlink = 0)
  kept : ∀ i, 0 < (s.itable i).ref → (t.itable i).inum = (s.itable i).inum
  locks : m.calm → t.Locks held

variable {m : Search} {held now : Option (Fin NINODE)} {name : Name}

theorem Fs.Locks.setInode (locks : t.Locks held) (here : ip.locked = decide (now = some i))
    (others : ∀ j, j ≠ i → (now = some j ↔ held = some j)) : (t.setInode i ip).Locks now := by
  intro j
  show (update t.itable i ip j).locked = _
  refine update_ind here fun other => ?_
  rw [locks j]
  exact decide_eq_decide.mpr (others j other).symm

theorem Fs.Locks.setRef (locks : t.Locks held) (same : ip.locked = (t.itable i).locked) :
    (t.setInode i ip).Locks held :=
  locks.setInode (same.trans (locks i)) fun _ _ => Iff.rfl

theorem add_single_nonneg {d : Int} (all : ∀ j, 0 ≤ k j) (here : 0 ≤ k i + d) (j : Fin NINODE) :
    0 ≤ (k + Pi.single i d : Fin NINODE → Int) j := by
  show 0 ≤ k j + update (fun _ => (0 : Int)) i d j
  refine update_ind here fun _ => ?_
  rw [add_zero]
  exact all j

theorem zero_taken (j : Fin NINODE) : (0 : Int) ≤ (0 : Fin NINODE → Int) j := le_refl _

theorem one_taken (i j : Fin NINODE) : (0 : Int) ≤ (0 + one i : Fin NINODE → Int) j :=
  add_single_nonneg zero_taken (by simp) j

namespace Walk

theorem refl (base : m.Starts s) : Walk m s none 0 s :=
  ⟨Moves.refl s, zero_taken, base.agrees, base.image, fun _ => .inl rfl, fun _ _ => rfl,
    fun calm => (base.calm calm).1⟩

section

variable (walk : Walk m s held k t)

include walk

/-- If nothing is lost, the disk is as it was. -/
theorem same (isExact : m.exact) : t.disk = s.disk :=
  funext fun x => (walk.disk x).resolve_right fun lost => lost.1 isExact

theorem ref_le (i : Fin NINODE) : (s.itable i).ref ≤ (t.itable i).ref := by
  rw [walk.moves.ref]
  have taken := walk.taken i
  omega

theorem ref_pos (base : m.Starts s) (calm : m.calm) (taken : 0 < k i) : 0 < (t.itable i).ref := by
  rw [walk.moves.ref]
  have nonneg := (base.calm calm).2 i
  omega

theorem setInode {d : Int} (count : ip.ref = (t.itable i).ref + d) (taken : 0 ≤ k i + d)
    (agrees : Agrees m.exact (t.setInode i ip))
    (inum : 0 < (s.itable i).ref → ip.inum = (t.itable i).inum)
    (locks : m.calm → (t.setInode i ip).Locks now) :
    Walk m s now (k + Pi.single i d) (t.setInode i ip) where
  moves := walk.moves.setInode count
  taken := add_single_nonneg walk.taken taken
  agrees := agrees
  image := walk.image
  disk := walk.disk
  kept := by
    intro j
    show _ → (update t.itable i ip j).inum = _
    exact update_ind (fun ref => (inum ref).trans (walk.kept i ref)) fun _ => walk.kept j
  locks := locks

theorem setLock (count : ip.ref = (t.itable i).ref) (agrees : Agrees m.exact (t.setInode i ip))
    (inum : 0 < (s.itable i).ref → ip.inum = (t.itable i).inum)
    (locks : m.calm → (t.setInode i ip).Locks now) : Walk m s now k (t.setInode i ip) := by
  have moved := walk.setInode (count.trans (add_zero _).symm)
    (by rw [add_zero]; exact walk.taken i) agrees inum locks
  rwa [Pi.single_zero, add_zero] at moved

/-- If nothing is lost, a reference that a lookup has taken is not the last one to an unlinked
inode. -/
theorem not_freed (base : m.Starts s) (isExact : m.exact) (taken : 0 < k i) : ¬ t.Freed i := by
  intro freed
  have ref : 0 < (t.itable i).ref := by
    have last := freed.1
    omega
  obtain ⟨alloc, zero⟩ := walk.agrees.freed freed
  rw [walk.same isExact] at alloc zero
  obtain ⟨j, refJ, inum⟩ := base.agrees.unlinked _ alloc zero
  have same := walk.agrees.unique j i (lt_of_lt_of_le refJ (walk.ref_le j)) ref
    ((walk.kept j refJ).trans inum)
  subst same
  have count := walk.moves.ref j
  have last := freed.1
  omega

end

/-- A reference that the lookup drops was the last one to an unlinked inode. -/
theorem free (walk : Walk m s held (k + one i) t) (taken : ∀ j, 0 ≤ k j) (lost : ¬ m.exact)
    (freed : t.Freed i) (isFree : dn.type = .free) (gone : ip.ref = 0)
    (lock : ip.locked = (t.itable i).locked) :
    Walk m s held k ((t.setDinode (t.itable i).inum dn).setInode i ip) := by
  obtain ⟨alloc, zero⟩ := walk.agrees.freed freed
  have cleared : Moves s (k + one i) (t.setDinode (t.itable i).inum dn) := walk.moves.setDinode
  have moves : Moves s (k + one i + Pi.single i (-1))
      ((t.setDinode (t.itable i).inum dn).setInode i ip) := by
    refine cleared.setInode ?_
    show ip.ref = (t.itable i).ref + -1
    rw [gone, freed.1]
    rfl
  rw [← sub_one_eq, add_sub_cancel_right] at moves
  refine ⟨moves, taken, walk.agrees.free freed isFree gone,
    m.frees lost walk.image alloc zero isFree, ?_, ?_, fun calm => ?_⟩
  · intro x
    by_cases same : x = (t.itable i).inum
    · subst same
      refine .inr ⟨lost, ?_, ?_⟩
      · show (update t.disk (t.itable i).inum dn (t.itable i).inum).type = .free
        rwa [update_self]
      · obtain old | gone := walk.disk (t.itable i).inum
        · rwa [← old]
        · exact gone.2.2
    · rw [show ((t.setDinode (t.itable i).inum dn).setInode i ip).disk x = t.disk x from
        update_of_ne same _ _]
      exact walk.disk x
  · intro j ref
    have other : j ≠ i := by
      rintro rfl
      have count := walk.moves.ref j
      have mine := taken j
      have last := freed.1
      rw [Pi.add_apply, one, Pi.single_eq_same] at count
      omega
    rw [show ((t.setDinode (t.itable i).inum dn).setInode i ip).itable j = t.itable j from
      update_of_ne other _ _]
    exact walk.kept j ref
  · have locks : (t.setDinode (t.itable i).inum dn).Locks held := walk.locks calm
    exact locks.setRef lock

end Walk

/-! ### The functions of a lookup -/

theorem iget_walk (x : Nat) (few : m.calm → ∃ a, ∀ j, j ≠ a → k j = 0) :
    Triple (fun t => Walk m s held k t ∧ (m.exact → (s.disk x).type ≠ .free)) (iget x)
      (fun i u => Walk m s held (k + one i) u ∧ (u.itable i).inum = x) (m.Stops s) := by
  refine .each fun t here => ?_
  obtain ⟨walk, alloc⟩ := here
  have there : m.exact → (t.disk x).type ≠ .free := fun isExact => by
    rw [walk.same isExact]
    exact alloc isExact
  refine (iget_agrees x walk.agrees there).weaken (fun _ same => same) (fun i u after => ?_) ?_
  · obtain ⟨agrees, ip, rfl, inum, ref, lock, used⟩ := after
    have taken := walk.taken i
    refine ⟨walk.setInode ref (by omega) agrees (fun held => ?_) fun calm => ?_, ?_⟩
    · rw [inum, (used (lt_of_lt_of_le held (walk.ref_le i))).1]
    · exact (walk.locks calm).setRef lock
    · rw [show (t.setInode i ip).itable i = ip from update_self _ _ _, inum]
  · rintro e ⟨rfl, full⟩ _
    refine ⟨nofun, fun calm => ⟨rfl, fun i j freeI freeJ => ?_⟩⟩
    -- an entry that was free is only taken by the one reference that the lookup has
    obtain ⟨a, few⟩ := few calm
    have mine : ∀ i, (s.itable i).ref = 0 → i = a := by
      intro i free
      by_contra other
      refine full i ?_
      rw [walk.moves.ref, free, few i other, add_zero]
    exact (mine i freeI).trans (mine j freeJ).symm

theorem idup_walk (used : 0 < (s.itable i).ref) : Triple (Walk m s held k) (idup i)
    (fun j u => Walk m s held (k + one j) u ∧ (u.itable j).inum = (s.itable i).inum)
    (m.Stops s) := by
  intro t walk
  have ref := lt_of_lt_of_le used (walk.ref_le i)
  have taken := walk.taken i
  refine ⟨walk.setInode rfl (by omega) ?_ (fun _ => rfl) fun calm => ?_, ?_⟩
  · exact walk.agrees.setRef i _ _ (fun _ => ref) fun _ _ _ => by omega
  · exact (walk.locks calm).setRef rfl
  · simp [Fs.setInode, walk.kept i used]

section

variable (base : m.Starts s)

include base

theorem ilock_walk (i : Fin NINODE) (x : Nat) (taken : m.calm → 0 < k i) :
    Triple (fun t => Walk m s none k t ∧ (t.itable i).inum = x) (ilock i)
      (fun _ u => Walk m s (some i) k u ∧ u.Loaded i x) (m.Stops s) := by
  refine .each fun t here => ?_
  obtain ⟨walk, isX⟩ := here
  refine (ilock_agrees i walk.agrees).weaken (fun _ same => same) (fun _ u after => ?_) ?_
  · obtain ⟨agrees, _, used, ip, rfl, inum, ref, valid, locked⟩ := after
    refine ⟨walk.setLock ref agrees (fun _ => inum) fun calm => ?_, ?_⟩
    · refine (walk.locks calm).setInode (by rw [locked]; simp)
        fun j other => ⟨fun same => ?_, nofun⟩
      exact absurd (Option.some.inj same).symm other
    · have entry : (t.setInode i ip).itable i = ip := update_self _ _ _
      exact ⟨by rw [entry, inum, isX], by rw [entry, ref]; exact used, by rw [entry, valid]⟩
  · intro e stops isExact
    refine ⟨(stops isExact).1, fun calm => absurd ⟨?_, ?_⟩ (stops isExact).2⟩
    · exact walk.ref_pos base calm (taken calm)
    · exact walk.locks calm i

theorem iunlock_walk (i j : Fin NINODE) (x : Nat) (taken : m.calm → 0 < k i) :
    Triple (fun t => Walk m s (some i) k t ∧ (t.itable j).inum = x) (iunlock i)
      (fun _ u => Walk m s none k u ∧ (u.itable j).inum = x) (m.Stops s) := by
  refine .each fun t here => ?_
  obtain ⟨walk, isX⟩ := here
  refine (iunlock_agrees i walk.agrees).weaken (fun _ same => same) (fun _ u after => ?_) ?_
  · obtain ⟨agrees, rfl⟩ := after
    refine ⟨walk.setLock rfl agrees (fun _ => rfl) fun calm => ?_, ?_⟩
    · refine (walk.locks calm).setInode rfl fun j other => ⟨nofun, fun same => ?_⟩
      exact absurd (Option.some.inj same).symm other
    · rw [← isX]
      show (update t.itable i _ j).inum = _
      exact update_ind rfl fun _ => rfl
  · intro e stops _
    refine ⟨stops.1, fun calm => absurd ⟨?_, ?_⟩ stops.2⟩
    · exact walk.ref_pos base calm (taken calm)
    · exact (walk.locks calm i).trans (decide_eq_true rfl)

theorem iput_walk (taken : ∀ j, 0 ≤ k j) (i j : Fin NINODE) (x : Nat) :
    Triple (fun t => Walk m s held (k + one i) t ∧ (t.itable j).inum = x) (iput i)
      (fun _ u => Walk m s held k u ∧ (u.itable j).inum = x) (m.Stops s) := by
  rintro t ⟨walk, rfl⟩
  have mine : 0 < (k + one i) i := by
    have nonneg := taken i
    simp only [Pi.add_apply, one, Pi.single_eq_same]
    omega
  rw [iput_run]
  split_ifs with freed locked
  · exact fun isExact => absurd freed (walk.not_freed base isExact mine)
  · refine ⟨walk.free taken (fun isExact => ?_) freed rfl rfl rfl, ?_⟩
    · exact walk.not_freed base isExact mine freed
    · show (update t.itable i _ j).inum = _
      exact update_ind rfl fun _ => rfl
  · have moved : Walk m s held (k + one i + Pi.single i (-1))
        (t.setInode i { t.itable i with ref := (t.itable i).ref - 1 }) := by
      refine walk.setInode rfl (by omega) (walk.agrees.dropRef freed) (fun _ => rfl) fun calm => ?_
      exact (walk.locks calm).setRef rfl
    rw [← sub_one_eq, add_sub_cancel_right] at moved
    refine ⟨moved, ?_⟩
    show (update t.itable i _ j).inum = _
    exact update_ind rfl fun _ => rfl

theorem iunlockput_walk (taken : ∀ j, 0 ≤ k j) (i j : Fin NINODE) (x : Nat) :
    Triple (fun t => Walk m s (some i) (k + one i) t ∧ (t.itable j).inum = x) (iunlockput i)
      (fun _ u => Walk m s none k u ∧ (u.itable j).inum = x) (m.Stops s) := by
  refine Triple.bind (iunlock_walk base i j x fun _ => ?_) fun _ => iput_walk base taken i j x
  have nonneg := taken i
  simp only [Pi.add_apply, one, Pi.single_eq_same]
  omega

end

theorem dirlookup_walk (few : m.calm → ∃ a, ∀ j, j ≠ a → k j = 0) (dp : Fin NINODE) (x : Nat)
    (name : Name) : Triple (fun t => Walk m s held k t ∧ t.Loaded dp x ∧
        (m.calm → (t.itable dp).type = .dir)) (dirlookup dp name)
      (fun r u => Walk m s held (k + oneOf (r.map Prod.fst)) u ∧ (m.exact →
        (findEntry (s.disk x).entries name).map (fun e => (e.2.inum, e.1)) =
          r.map fun e => ((u.itable e.1).inum, e.2))) (m.Stops s) := by
  refine .get_bind fun t here => ?_
  obtain ⟨walk, loaded, typed⟩ := here
  refine .ite (fun notDir => ?_) fun isDir => ?_
  · exact .throw_bind fun _ _ _ => ⟨nofun, fun calm => absurd (typed calm) notDir⟩
  rw [loaded.inum]
  cases found : findEntry (t.disk x).entries name with
  | none =>
    refine .done ⟨by simpa using walk, fun isExact => ?_⟩
    rw [← walk.same isExact, found]
    rfl
  | some e =>
    obtain ⟨off, de⟩ := e
    have alloc : m.exact → (s.disk de.inum).type ≠ .free := by
      intro isExact
      have dir := not_not.mp isDir
      rw [(walk.agrees.copies loaded).2.type] at dir
      obtain ⟨here, used, _⟩ := findEntry_some found
      have entry := m.entry isExact walk.image dir (List.mem_of_getElem? here) used
      rwa [walk.same isExact] at entry
    refine .bind ((iget_walk de.inum few).known ⟨walk, alloc⟩) fun ip => .pure fun u moved => ?_
    refine ⟨moved.1, fun isExact => ?_⟩
    rw [← walk.same isExact, found]
    simp [moved.2]

/-! ### `namex` -/

theorem one_few (dp : Fin NINODE) : ∃ a, ∀ j, j ≠ a → (0 + one dp : Fin NINODE → Int) j = 0 :=
  ⟨dp, fun j other => by rw [zero_add, one, Pi.single_eq_of_ne other]⟩

section

variable (base : m.Starts s)

include base

/-- The loop of `namex`, which holds a reference to where it is: the induction is on the elements
that are left. -/
theorem namexFrom_walk (parent : Bool) (names : List Name) : ∀ (ip : Fin NINODE) (x : Nat),
    Triple (fun t => Walk m s none (0 + one ip) t ∧ (t.itable ip).inum = x)
      (namexFrom parent ip names)
      (fun r u => Walk m s none (oneOf (r.map Prod.fst)) u ∧ (m.exact →
        r.map (fun a => ((u.itable a.1).inum, a.2)) = resolve s.disk parent x names))
      (m.Stops s) := by
  have here (ip : Fin NINODE) : 0 < (0 + one ip : Fin NINODE → Int) ip := by simp [one]
  induction names with
  | nil =>
    intro ip x
    refine .ite (fun isParent => ?_) fun notParent => ?_
    · refine .bind (iput_walk base zero_taken ip ip x) fun _ => .pure fun u moved => ?_
      exact ⟨moved.1, fun _ => by simp [resolve, isParent]⟩
    · refine .pure fun u here => ⟨?_, fun _ => by simp [resolve, notParent, here.2]⟩
      simpa using here.1
  | cons name rest ih =>
    intro ip x
    refine .bind (ilock_walk base ip x fun _ => here ip) fun _ => .get_bind fun t now => ?_
    obtain ⟨walk, loaded⟩ := now
    have type : m.exact → (t.itable ip).type = (s.disk x).type := fun isExact => by
      rw [(walk.agrees.copies loaded).2.type, walk.same isExact]
    refine .ite (fun notDir => ?_) fun isDir => .ite (fun last => ?_) fun notLast => ?_
    · refine .bind ((iunlockput_walk base zero_taken ip ip x).known ⟨walk, loaded.inum⟩) fun _ => ?_
      refine .pure fun u moved => ⟨moved.1, fun isExact => ?_⟩
      rw [type isExact] at notDir
      simp [resolve, notDir]
    · refine .bind ((iunlock_walk base ip ip x fun _ => here ip).known ⟨walk, loaded.inum⟩)
        fun _ => .pure fun u moved => ⟨by simpa using moved.1, fun isExact => ?_⟩
      rw [type isExact] at isDir
      rw [resolve, if_neg isDir, if_pos last]
      simp [moved.2]
    have step : m.exact → resolve s.disk parent x (name :: rest) =
        match findEntry (s.disk x).entries name with
        | .none => .none
        | some (_, de) => resolve s.disk parent de.inum rest := fun isExact => by
      rw [type isExact] at isDir
      rw [resolve, if_neg isDir, if_neg notLast]
    refine .bind ((dirlookup_walk (fun _ => one_few ip) ip x name).known
      ⟨walk, loaded, fun _ => not_not.mp isDir⟩) fun r => .each fun u found => ?_
    obtain ⟨moved, found⟩ := found
    cases r with
    | none =>
      refine .bind ((iunlockput_walk base zero_taken ip ip _).known ⟨by simpa using moved, rfl⟩)
        fun _ => .pure fun v back => ⟨back.1, fun isExact => ?_⟩
      rw [step isExact, Option.map_eq_none_iff.mp (found isExact)]
      rfl
    | some r =>
      obtain ⟨next, off⟩ := r
      have held : Walk m s (some ip) (0 + one next + one ip) u := by
        simpa [add_comm] using moved
      refine .bind ((iunlockput_walk base (one_taken next) ip next _).known ⟨held, rfl⟩) fun _ => ?_
      refine (ih next _).to_post fun r v back => ⟨back.1, fun isExact => ?_⟩
      obtain ⟨⟨off', de⟩, first, same⟩ := Option.map_eq_some_iff.mp (found isExact)
      obtain ⟨isDe, rfl⟩ := Prod.mk.inj same
      rw [back.2 isExact, step isExact, first]
      exact congrArg (resolve s.disk parent · rest) isDe.symm

/-- **`namex` only takes a reference** to the inode that it returns. If nothing is lost it returns
the inode that the path leads to. -/
theorem namex_walk (cwd : s.CwdHeld p) (has : m.calm → s.cwd p ≠ none) (path : List Byte)
    (parent : Bool) : From s (namex p path parent)
      (fun r u => Walk m s none (oneOf (r.map Prod.fst)) u ∧ (m.exact →
        r.map (fun a => ((u.itable a.1).inum, a.2)) = s.lookup p path parent)) (m.Stops s) := by
  have start : From s (namexStart p path)
      (fun ip u => Walk m s none (0 + one ip) u ∧ s.startOf p path = some (u.itable ip).inum)
      (m.Stops s) := by
    refine .ite (fun absolute => ?_) fun relative => ?_
    · have root : m.exact → (s.disk ROOTINO).type ≠ .free := fun isExact =>
        m.root isExact base.image
      have none : ∃ a : Fin NINODE, ∀ j, j ≠ a → (0 : Fin NINODE → Int) j = 0 :=
        ⟨⟨0, by decide⟩, fun _ _ => rfl⟩
      refine ((iget_walk ROOTINO fun _ => none).known ⟨Walk.refl base, root⟩).to_post
        fun ip u moved => ⟨moved.1, ?_⟩
      rw [Fs.startOf, if_pos absolute, moved.2]
    · refine .get_bind fun t same => ?_
      subst same
      cases here : t.cwd p with
      | none => exact .throw fun _ _ _ => ⟨nofun, fun calm => absurd here (has calm)⟩
      | some i =>
        refine ((idup_walk (cwd i here)).known (Walk.refl base)).to_post fun ip u moved =>
          ⟨moved.1, ?_⟩
        rw [Fs.startOf, if_neg relative, here, moved.2]
        rfl
  refine .bind start fun ip => .each fun t here => ?_
  obtain ⟨walk, from_⟩ := here
  refine ((namexFrom_walk base parent _ ip _).known ⟨walk, rfl⟩).to_post fun r u moved =>
    ⟨moved.1, fun isExact => ?_⟩
  rw [moved.2 isExact, Fs.lookup, from_]
  rfl

theorem namei_walk (cwd : s.CwdHeld p) (has : m.calm → s.cwd p ≠ none) (path : List Byte) :
    From s (namei p path) (fun r u => Walk m s none (oneOf r) u ∧ (m.exact →
      r.map (fun i => (u.itable i).inum) = (s.lookup p path false).map Prod.fst)) (m.Stops s) := by
  refine .bind (namex_walk base cwd has path false) fun r => .pure fun u moved =>
    ⟨moved.1, fun isExact => ?_⟩
  rw [← moved.2 isExact, Option.map_map, Option.map_map]
  rfl

end

theorem resolve_parent_dir {names : List Name} :
    ∀ {x y : Nat} {name : Name}, resolve disk true x names = some (y, name) →
      (disk y).type = .dir := by
  induction names with
  | nil =>
    intro x y name found
    simp [resolve] at found
  | cons first rest ih =>
    intro x y name found
    rw [resolve] at found
    split_ifs at found with isDir last
    · cases found
      exact not_not.mp isDir
    · split at found
      · cases found
      · exact ih found

theorem lookup_parent_dir {path : List Byte} {d : Nat} {name : Name}
    (found : s.lookup p path true = some (d, name)) : (s.disk d).type = .dir := by
  obtain ⟨x, _, walked⟩ := Option.bind_eq_some_iff.mp found
  exact resolve_parent_dir walked

end Xv6
