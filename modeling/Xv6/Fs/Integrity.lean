/-
**Directories and link counts over whole runs.**

Every call keeps `Sound` if no link count wraps around, and nothing is lost if the call is careful:
it adds no entry to a directory without links, unlinks no directory that is the parent of an
unlinked one, and lets no link count pass its largest value. From this, for every run of careful
calls: entries name allocated inodes (`directory_entries_resolve`), and link counts are exact with
nothing lost (`link_counts_exact`). The conditions are needed: two runs of a few calls show what
happens without them.
-/

import Xv6.Fs.TreeCalls
import Xv6.Fs.RefInv
import Xv6.Fs.Keeps

set_option linter.unusedSectionVars false

namespace Xv6

open Lib Function

variable {P : Type} {s t u : Fs P}

/-! ### One call -/

variable {disk : Nat → Dinode} {owed : Nat → Nat} {n x d : Nat} {scope : Scope}

theorem idup_sound (sound : Sound scope owed none t) {i : Fin NINODE}
    (held : 0 < (t.itable i).ref) : From t (idup i) (fun _ => Sound scope owed none) :=
  ((idup_walk held).known (Walk.refl sound.starts)).any.to_post fun _ _ moved => moved.1.sound

variable [DecidableEq P] [Fintype P]

theorem cwdHeld_of_refInv {c : P → Option (Fin NINODE)} {live : P → Prop}
    (inv : RefInv c live 0 0 s) (p : P) : s.CwdHeld p := by
  intro i isCwd
  rw [inv.cwd] at isCwd
  have files := holders_nonneg (fun f => (s.ftable f).inode) i
  have cwds := holders_pos isCwd
  have count := inv.inode i
  rw [Pi.zero_apply] at count
  omega

theorem forkShare_keeps {I : Fs P → Prop} (stable : Stable I)
    (dup : ∀ t i, I t → 0 < (t.itable i).ref → From t (idup i) (fun _ => I))
    (refs : CallInv s) (inv : I s) (p : P) {np : P} (free : s.cwd np = none) :
    From s (forkShare p (some np)) (fun _ => I) := by
  have wider : RefInv s.cwd (fun q => s.cwd q ≠ none ∨ q = np) 0 0 s :=
    refs.setLive fun q none => refs.idle q fun running => none (Or.inl running)
  have running : (fun q => s.cwd q ≠ none ∨ q = np) np := Or.inr rfl
  have files := ((forkFiles_refInv p running (List.nodup_finRange NOFILE)).and
    (stable.congr.forkFiles p np (List.finRange NOFILE))).known
    ⟨⟨wider, fun fd _ => refs.idle np (fun running => running free) fd⟩, inv⟩
  refine Triple.bind files fun _ => Triple.get_bind fun t here => ?_
  cases isCwd : t.cwd p with
  | none => exact Triple.throw fun _ _ => trivial
  | some i =>
    refine Triple.bind (dup t i here.2 (cwdHeld_of_refInv here.1 p i isCwd)) fun j => ?_
    exact stable.congr.change_bind (fun t => ⟨rfl, rfl, rfl⟩) Keeps.pure

/-! ### Careful calls -/

/-- **The conditions for nothing to be lost.** An entry is added to a directory that has links; the
link count of an inode that gets another link is not the largest one; a directory that is unlinked
is not the parent of another one that is unlinked and still in use. -/
def FsCall.Careful (s : Fs P) : FsCall P → Prop
  | .open p (some path) omode => omode.create = true → s.EntersLinked p path
  | .mkdir p (some path) => s.EntersLinked p path
  | .mknod p (some path) _ _ => s.EntersLinked p path
  | .link p (some old) (some new) => s.EntersLinked p new ∧
      ∀ a ∈ s.lookup p old false, (s.disk a.1).nlink.toInt ≠ 2 ^ 15 - 1
  | .unlink p (some path) => ∀ a ∈ s.lookup p path true,
      ∀ e ∈ findEntry (s.disk a.1).entries a.2, s.ParentOfNone e.2.inum
  | _ => True

/-- **The condition for the tree**: a link is made only while no inode but a directory has the
largest link count. -/
def FsCall.Counted (s : Fs P) : FsCall P → Prop
  | .link _ _ _ => s.LinkRoom
  | _ => True

/-- **Every call keeps `Sound`**, and loses nothing if it is careful. -/
theorem FsCall.run_sound (call : FsCall P) (refs : CallInv s) (sound : Sound scope 0 none s)
    (allowed : call.Allowed s) (counted : call.Counted s) (careful : scope.exact → call.Careful s) :
    From s call.run (fun _ => Sound scope 0 none) := by
  have cwd (p : P) : s.CwdHeld p := cwdHeld_of_refInv refs p
  refine sound_stable.call sound (fun p path =>
    (namei_walk sound.starts (cwd p) False.elim path).any.to_post fun _ _ here => here.1.sound)
      call ?_
  unfold FsCall.Writes
  split
  · exact fun new => create_sound sound (cwd _) (fun isExact => careful isExact new) (by decide)
  · exact create_sound sound (cwd _) careful (by decide)
  · exact create_sound sound (cwd _) careful (by decide)
  · exact sysLink_sound sound (cwd _) counted careful
  · exact sysUnlink_sound sound (cwd _) careful
  · exact forkShare_keeps sound_stable (fun _ _ inv held => idup_sound inv held) refs sound _
      (allowed.2 _ rfl)
  · trivial

/-- **The invariant of a run.** -/
structure RunInv (scope : Scope) (s : Fs P) : Prop where
  refs : CallInv s
  sound : Sound scope 0 none s

theorem RunInv.step {call : FsCall P} (inv : RunInv scope s) (counted : call.Counted s)
    (careful : scope.exact → call.Careful s) (step : FsCall.Step s call t) : RunInv scope t := by
  obtain ⟨allowed, done⟩ := step.ran
  refine ⟨inv.refs.step step, ?_⟩
  exact (FsCall.run_sound call inv.refs inv.sound allowed counted careful).ok rfl done

def FsCall.CarefulStep (s : Fs P) (call : FsCall P) (t : Fs P) : Prop :=
  call.Careful s ∧ FsCall.Step s call t

def WellFormed (n : Nat) (disk : Nat → Dinode) : Prop := ImageInv n disk fun _ => False

omit [DecidableEq P] [Fintype P] in
/-- A well-formed image is a tree in which nothing is lost. -/
theorem ImageInv.dirTree {used : Nat → Prop} (inv : ImageInv n disk used)
    (names : scope.names → ∀ d, (disk d).type = .dir → Unambiguous (disk d).entries) :
    DirTree scope n disk 0 none where
  small := inv.small
  bound := inv.bound
  names := names
  shape := by
    intro d dir _
    have above := (inv.bound _ (by rw [inv.parentDir d dir]; decide)).1
    exact ⟨inv.shape d dir, by omega⟩
  rootDir := inv.rootDir
  rootParent := inv.rootParent
  rootCount := inv.rootCount
  target := inv.target
  child := inv.child
  once := inv.once
  files := by
    intro i alloc notDir
    have count := inv.files i alloc notDir
    rw [BitVec.toInt_eq_toNat_cond] at count
    show linkCount n disk i + 0 ≤ _
    split_ifs at count
    · omega
    · omega
  dirs := by
    intro d dir
    have once := inv.once d dir
    have bound := (disk d).nlink.isLt
    have count : (disk d).nlink.toInt =
        ((if d = ROOTINO then 1 else 0) + linkCount n disk d + subdirs disk d : Nat) := by
      rw [inv.dirs d dir]
      unfold subdirs
      by_cases isRoot : d = ROOTINO
      · rw [if_pos (Or.inl isRoot), if_pos isRoot, isRoot, inv.rootCount]
        push_cast
        ring
      · rw [if_neg isRoot]
        by_cases some : 0 < linkCount n disk d
        · rw [if_pos (Or.inr some), show linkCount n disk d = 1 by omega]
          push_cast
          ring
        · rw [if_neg (by simp [isRoot, some]), show linkCount n disk d = 0 by omega]
          push_cast
          ring
    rw [BitVec.toInt_eq_toNat_cond] at count
    show (disk d).nlink.toNat = _ + subdirs disk d + 0
    split_ifs at count ⊢ <;> omega
  exact := by
    refine fun _ => ⟨fun i alloc notDir => ?_, fun d dir _ => inv.parentDir d dir, ?_, inv.reach⟩
    · have count := inv.files i alloc notDir
      rw [BitVec.toInt_eq_toNat_cond] at count
      show (disk i).nlink.toNat = linkCount n disk i + 0 ∧ _
      have bound := (disk i).nlink.isLt
      split_ifs at count
      · omega
      · omega
    · intro d dir orphan
      unfold Linked at orphan
      push Not at orphan
      exact inv.orphan d dir orphan.1 (Nat.le_zero.mp orphan.2)
  fresh := nofun

/-- The first process has the root as its working directory, and the table has no other entry. -/
theorem boot_runInv (image : WellFormed n disk)
    (names : scope.names → ∀ d, (disk d).type = .dir → Unambiguous (disk d).entries)
    (initproc : P) : RunInv scope (Fs.boot n disk initproc) := by
  have tree : DirTree scope n disk 0 none := ImageInv.dirTree image names
  have entry : ∀ i, 0 < ((Fs.boot n disk initproc).itable i).ref → i.val = 0 ∧
      (Fs.boot n disk initproc).itable i = ⟨ROOTINO, 1, false, false, .free, 0, 0, 0⟩ := by
    intro i
    show 0 < (if i.val = 0 then _ else _ : Inode).ref →
      i.val = 0 ∧ (if i.val = 0 then _ else _ : Inode) = _
    split_ifs with first
    · exact fun _ => ⟨first, rfl⟩
    · exact fun pos => absurd pos (lt_irrefl 0)
  refine ⟨boot_callInv n disk initproc, ?_, tree⟩
  constructor
  case unique =>
    intro i j refI refJ _
    exact Fin.ext ((entry i refI).1.trans (entry j refJ).1.symm)
  case alloc =>
    intro _ i ref
    rw [(entry i ref).2]
    show (disk ROOTINO).type ≠ .free
    rw [image.rootDir]
    decide
  case copy =>
    intro i ref valid
    rw [(entry i ref).2] at valid
    cases valid
  case zero =>
    intro i ref alloc zero
    rw [(entry i ref).2] at alloc zero
    exact absurd (Or.inl rfl) (tree.unlinked alloc zero)
  case unlinked =>
    intro x alloc zero
    have orphan := tree.unlinked alloc zero
    unfold Linked at orphan
    push Not at orphan
    exact (image.unlinked x alloc orphan.1 (Nat.le_zero.mp orphan.2)).elim

/-- Nothing is lost. -/
def lossless : Scope := ⟨False, True⟩

omit [DecidableEq P] [Fintype P] in
/-- A link count that is exact is not the largest one. -/
theorem Sound.counted (sound : Sound lossless 0 none s) (call : FsCall P) : call.Counted s := by
  unfold FsCall.Counted
  split
  · intro x _ alloc notDir max
    have low := ((sound.tree.exact trivial).files x alloc notDir).2
    rw [max] at low
    exact absurd low (by decide)
  · trivial

/-- Every run of careful calls loses nothing. -/
theorem run_inv (image : WellFormed n disk) {initproc : P} {trace : List (FsCall P)}
    (run : Run FsCall.CarefulStep (Fs.boot n disk initproc) trace t) : RunInv lossless t :=
  Run.inv (boot_runInv image False.elim initproc)
    (fun inv step => inv.step (inv.sound.counted _) (fun _ => step.1) step.2) run

/-- A lookup, and the lock on what it returns, as every call with a path makes them. -/
def lookupLock (p : P) (path : List Byte) (parent : Bool) : FsM P Unit := do
  match ← namex p path parent with
  | none => return ()
  | some (ip, _) => ilock ip

/-- **Entries of directories resolve.** After any sequence of careful calls from a well-formed
image, every entry of every directory names an allocated inode; no lookup panics with `ilock: no
type`; and an inode that is free is named by no entry, so that the entries of an inode allocated
again are new. -/
theorem directory_entries_resolve {n : Nat} {disk : Nat → Dinode} (image : WellFormed n disk)
    {initproc : P} {trace : List (FsCall P)}
    (run : Run FsCall.CarefulStep (Fs.boot n disk initproc) trace t) :
    (∀ d, (t.disk d).type = .dir → ∀ e ∈ (t.disk d).entries, e.inum ≠ 0 →
      (t.disk e.inum).type ≠ .free) ∧
    (∀ p path parent, lookupLock p path parent t ≠ .error .ilockNoType) ∧
    ∀ x, 0 < x → (t.disk x).type = .free → ∀ d, (t.disk d).type = .dir → ∀ e ∈ (t.disk d).entries,
      e.inum ≠ x := by
  have inv := run_inv image run
  have resolves : ∀ d, (t.disk d).type = .dir → ∀ e ∈ (t.disk d).entries, e.inum ≠ 0 →
      (t.disk e.inum).type ≠ .free := fun d dir e member used =>
    inv.sound.tree.entry_alloc trivial dir (by simp) member used
  refine ⟨resolves, fun p path parent panics => ?_, fun x pos free d dir e member names => ?_⟩
  · have cwd := cwdHeld_of_refInv inv.refs p
    have look : From t (lookupLock p path parent) (fun _ _ => True)
        ((lossless.search t.ninodes 0).Stops t) := by
      refine Triple.bind (namex_walk inv.sound.starts cwd False.elim path parent) fun r => ?_
      cases r with
      | none => exact Triple.pure fun _ _ => trivial
      | some a =>
        refine Triple.each fun u here => ?_
        exact ((ilock_walk inv.sound.starts a.1 _ False.elim).known ⟨here.1, rfl⟩).to_post
          fun _ _ _ => trivial
    exact (look.error rfl panics trivial).1 rfl
  · exact resolves d dir e member (by omega) (names ▸ free)

instance (s : Fs P) (p : P) (path : List Byte) : Decidable (s.EntersLinked p path) :=
  inferInstanceAs (Decidable (∀ a ∈ _, _))

instance (s : Fs P) (x : Nat) : Decidable (s.ParentOfNone x) := inferInstanceAs (Decidable (_ → _))

instance (s : Fs P) (call : FsCall P) : Decidable (call.Careful s) := by
  unfold FsCall.Careful
  split <;> infer_instance

def FsCall.completeCareful (s : Fs P) (call : FsCall P) : Option (Fs P) :=
  if call.Careful s then FsCall.complete s call else none

theorem FsCall.CarefulStep.of_complete {call : FsCall P}
    (done : FsCall.completeCareful s call = some t) : FsCall.CarefulStep s call t := by
  unfold FsCall.completeCareful at done
  split_ifs at done with careful
  exact ⟨careful, done⟩

omit [DecidableEq P] [Fintype P] in
theorem emptyImage_wellFormed (some : 1 < n) (small : n ≤ 2 ^ 16) : WellFormed n emptyImage := by
  have root : emptyImage ROOTINO = ⟨.dir, 0, 0, 1, [⟨ROOTINO, dot⟩, ⟨ROOTINO, dotdot⟩]⟩ := rfl
  have only : ∀ {d}, (emptyImage d).type ≠ .free → d = ROOTINO := by
    intro d alloc
    by_contra other
    exact alloc (congrArg Dinode.type (if_neg other))
  have dirNotFree : FType.dir ≠ .free := by decide
  have onlyDir : ∀ {d}, (emptyImage d).type = .dir → d = ROOTINO :=
    fun dir => only (by rw [dir]; exact dirNotFree)
  have links : ∀ d, imageLinks emptyImage d = [] := by
    intro d
    by_cases isRoot : d = ROOTINO
    · subst isRoot
      rfl
    · exact links_of_not_dir fun dir => isRoot (onlyDir dir)
  have counts : ∀ i, linkCount n emptyImage i = 0 := by
    intro i
    refine inDegree_eq_zero.mpr fun d _ e member => ?_
    rw [links] at member
    cases member
  constructor
  case small => exact small
  case bound =>
    intro i alloc
    rw [only alloc]
    exact ⟨by decide, some⟩
  case shape =>
    intro d dir
    obtain rfl := onlyDir dir
    exact ⟨⟨[], rfl⟩, fun e member => absurd member List.not_mem_nil, by decide⟩
  case parentDir =>
    intro d dir
    obtain rfl := onlyDir dir
    rfl
  case rootDir => rfl
  case rootParent => rfl
  case rootCount => exact counts _
  case target =>
    intro d e member
    rw [links] at member
    cases member
  case child =>
    intro d e member
    rw [links] at member
    cases member
  case once =>
    intro d _
    rw [counts]
    exact Nat.zero_le 1
  case files =>
    intro i alloc notDir
    obtain rfl := only alloc
    exact absurd rfl notDir
  case dirs =>
    intro d dir
    obtain rfl := onlyDir dir
    rw [if_pos (Or.inl rfl), links]
    rfl
  case orphan =>
    intro d dir notRoot
    exact absurd (onlyDir dir) notRoot
  case unlinked =>
    intro i alloc notRoot
    exact absurd (only alloc) notRoot
  case reach =>
    intro d dir _
    obtain rfl := onlyDir dir
    exact Relation.ReflTransGen.refl

/-- The theorem at a run: a process goes to a new directory and another one unlinks it. -/
theorem directory_entries_resolve_unlinked :
    ∃ t : Fs (Fin 2), Run FsCall.CarefulStep (Fs.boot 10 emptyImage 0)
      [.mkdir 0 (some [0x61]), .fork 0 (some 1), .chdir 1 (some [0x61]),
        .unlink 0 (some [0x61])] t ∧
    t.disk 2 = ⟨.dir, 0, 0, 0, [⟨2, dot⟩, ⟨1, dotdot⟩]⟩ ∧
    ∀ d, (t.disk d).type = .dir → ∀ e ∈ (t.disk d).entries, e.inum ≠ 0 →
      (t.disk e.inum).type ≠ .free := by
  obtain ⟨t, run, seen⟩ :=
    run_of_observed (fun t : Fs (Fin 2) => t.disk 2) (show (execAll FsCall.completeCareful
      [.mkdir 0 (some [0x61]), .fork 0 (some 1), .chdir 1 (some [0x61]), .unlink 0 (some [0x61])]
      (Fs.boot 10 emptyImage (0 : Fin 2))).map _ = some ⟨.dir, 0, 0, 0, [⟨2, dot⟩, ⟨1, dotdot⟩]⟩ by
      decide +kernel)
  have run := run.mono FsCall.CarefulStep.of_complete
  exact ⟨t, run, seen,
    (directory_entries_resolve (emptyImage_wellFormed (by decide) (by decide)) run).1⟩

/-- The panic that a program ends in. -/
def panicOf {A : Type} (x : FsM P A) (s : Fs P) : Option FsPanic :=
  match x s with
  | .ok _ => none
  | .error e => some e

/-- **The parent of an unlinked directory is freed.** A process sits in `a/b` while another one
unlinks `a/b` and then `a`: the entry `..` of its working directory names a free inode, and to look
up `..` is a panic. -/
theorem unlinked_parent_dangles : ∃ t : Fs (Fin 2), Run FsCall.Step (Fs.boot 10 emptyImage 0)
      [.mkdir 0 (some [0x61]), .mkdir 0 (some [0x61, slash, 0x62]), .fork 0 (some 1),
        .chdir 1 (some [0x61, slash, 0x62]), .unlink 0 (some [0x61, slash, 0x62]),
        .unlink 0 (some [0x61])] t ∧
    t.disk 3 = ⟨.dir, 0, 0, 0, [⟨3, dot⟩, ⟨2, dotdot⟩]⟩ ∧ (t.disk 2).type = .free ∧
    panicOf (lookupLock 1 dotdot false) t = some .ilockNoType := by
  obtain ⟨t, run, seen⟩ := run_of_observed (fun t : Fs (Fin 2) =>
      (t.disk 3, (t.disk 2).type, panicOf (lookupLock 1 dotdot false) t))
    (show
      (execAll FsCall.complete [.mkdir 0 (some [0x61]), .mkdir 0 (some [0x61, slash, 0x62]),
        .fork 0 (some 1), .chdir 1 (some [0x61, slash, 0x62]), .unlink 0 (some [0x61, slash, 0x62]),
        .unlink 0 (some [0x61])]
      (Fs.boot 10 emptyImage (0 : Fin 2))).map _ =
      some (⟨.dir, 0, 0, 0, [⟨3, dot⟩, ⟨2, dotdot⟩]⟩, .free, some .ilockNoType) by decide +kernel)
  obtain ⟨orphan, rest⟩ := Prod.mk.inj seen
  obtain ⟨freed, panics⟩ := Prod.mk.inj rest
  exact ⟨t, run, orphan, freed, panics⟩

/-! ### Link counts -/

omit [DecidableEq P] [Fintype P]

/-- The number of entries of directories that name an inode. -/
def entryCount (n : Nat) (disk : Nat → Dinode) (i : Nat) : Nat :=
  ∑ d ∈ Finset.range n, if (disk d).type = .dir then (disk d).entries.countP
    fun e => e.inum = i else 0

/-- Only links name a file. -/
theorem DirTree.entryCount_file (tree : DirTree scope n disk owed none) (isExact : scope.exact)
    {i : Nat} (alloc : (disk i).type ≠ .free) (notDir : (disk i).type ≠ .dir) :
    entryCount n disk i = linkCount n disk i := by
  refine Finset.sum_congr rfl fun d _ => ?_
  split_ifs with dir
  · show _ = (disk d).links.countP _
    rw [links_of_dir dir, List.countP_filter]
    refine List.countP_congr fun e member => ?_
    have pos := (tree.bound i alloc).1
    have isLink : e.inum = i → e.IsLink := by
      rintro rfl
      obtain ⟨⟨⟨rest, starts⟩, names, _⟩, _⟩ := tree.shape d dir (by simp)
      rw [starts] at member names
      obtain rfl | later := List.mem_cons.mp member
      · exact absurd dir notDir
      obtain rfl | later := List.mem_cons.mp later
      · exact absurd ((tree.exact isExact).parentDir d dir (by simp)) notDir
      · exact ⟨by omega, names e later (by omega)⟩
    simp only [decide_eq_true_eq, Bool.and_eq_true]
    exact ⟨fun same => ⟨same, isLink same⟩, fun both => both.1⟩
  · show 0 = (disk d).links.countP _
    rw [links_of_not_dir dir]
    rfl

/-- An inode without links has a link count of zero. -/
theorem DirTree.nlink_zero (tree : DirTree scope n disk 0 none) (isExact : scope.exact) {i : Nat}
    (alloc : (disk i).type ≠ .free) (orphan : ¬ Linked n disk i) : (disk i).nlink = 0 := by
  by_contra nonzero
  have pos := toNat_pos nonzero
  by_cases dir : (disk i).type = .dir
  · exact orphan (tree.linked_of_nlink isExact dir pos)
  · have count := ((tree.exact isExact).files i alloc dir).1
    rw [Pi.zero_apply] at count
    exact orphan (Or.inr (by omega))

/-- What is not in use is named by a directory that can be reached. -/
theorem Sound.named_of_unused (sound : Sound scope 0 none s) (isExact : scope.exact) {i : Nat}
    (alloc : (s.disk i).type ≠ .free) (unused : ¬ s.used i) :
    ∃ d, FromRoot s.disk d ∧ (s.disk d).type = .dir ∧ ∃ e ∈ (s.disk d).entries, e.inum = i := by
  have tree := sound.tree
  by_cases isRoot : i = ROOTINO
  · subst isRoot
    obtain ⟨rest, starts⟩ := (tree.shape ROOTINO tree.rootDir (by simp)).1.starts
    exact ⟨ROOTINO, Relation.ReflTransGen.refl, tree.rootDir, ⟨ROOTINO, dot⟩, by simp [starts], rfl⟩
  have linked : Linked s.ninodes s.disk i := by
    by_contra orphan
    exact unused (sound.unlinked i alloc (tree.nlink_zero isExact alloc orphan))
  obtain ⟨d, e, member, names⟩ := tree.linkCount_pos.mp (linked.resolve_left isRoot)
  obtain ⟨dir, isEntry, _⟩ := mem_links.mp member
  refine ⟨d, (tree.exact isExact).reach d dir ?_, dir, e, isEntry, names⟩
  by_contra orphan
  rw [((tree.exact isExact).orphan d dir orphan).1] at member
  cases member

/-- The link count of a directory: its own link and its subdirectories. -/
theorem DirTree.nlink_dir (tree : DirTree scope n disk 0 none) (dir : (disk d).type = .dir) :
    (disk d).nlink.toInt = (if d = ROOTINO ∨ 0 < linkCount n disk d then 1 else 0) +
      (disk d).links.countP fun e => (disk e.inum).type = .dir := by
  have bound := tree.nlink_lt dir (by simp)
  have room : MAXDIRENTS = 17152 := rfl
  rw [Pi.zero_apply] at bound
  have count : (disk d).nlink.toNat = (if d = ROOTINO then 1 else 0) + linkCount n disk d +
      (disk d).links.countP fun e => (disk e.inum).type = .dir := tree.dirs d dir
  rw [BitVec.toInt_eq_toNat_of_lt (by omega), count]
  have once := tree.once d dir
  by_cases isRoot : d = ROOTINO
  · rw [if_pos isRoot, if_pos (Or.inl isRoot), isRoot, tree.rootCount]
    push_cast
    ring
  · rw [if_neg isRoot]
    split_ifs with linked
    · have one : linkCount n disk d = 1 := by omega
      rw [one]
      push_cast
      ring
    · have none : linkCount n disk d = 0 := by omega
      rw [none]
      push_cast
      ring

/-- An open file or a working directory is the inode. -/
def Fs.InMemory (s : Fs P) (x : Nat) : Prop :=
  (∃ f i, (s.ftable f).inode = some i ∧ (s.itable i).inum = x) ∨
    ∃ p i, s.cwd p = some i ∧ (s.itable i).inum = x

variable [DecidableEq P] [Fintype P]

/-- What the table has references to is an open file or a working directory. -/
theorem inMemory_of_used (refs : CallInv s) (used : s.used x) : s.InMemory x := by
  obtain ⟨i, ref, inum⟩ := used
  by_contra nowhere
  have noFile : holders (fun f => (s.ftable f).inode) i = 0 :=
    holders_eq_zero fun f isInode => nowhere (Or.inl ⟨f, i, isInode, inum⟩)
  have noCwd : holders s.cwd i = 0 := holders_eq_zero
    fun p isCwd => nowhere (Or.inr ⟨p, i, isCwd, inum⟩)
  have count := refs.inode i
  rw [noFile, noCwd, Pi.zero_apply] at count
  omega

/-- **Link counts are exact and nothing leaks.** After any sequence of careful calls from a
well-formed image, the link count of a file is the number of entries that name it, that of a
directory is one for its own link and one for each of its subdirectories, and an inode that is no
open file and no working directory is named by an entry of a directory that can be reached from the
root. -/
theorem link_counts_exact {n : Nat} {disk : Nat → Dinode} (image : WellFormed n disk) {initproc : P}
    {trace : List (FsCall P)} (run : Run FsCall.CarefulStep (Fs.boot n disk initproc) trace t) :
    (∀ i, (t.disk i).type ≠ .free → (t.disk i).type ≠ .dir →
      (t.disk i).nlink.toInt = entryCount t.ninodes t.disk i) ∧
    (∀ d, (t.disk d).type = .dir → (t.disk d).nlink.toInt =
      (if d = ROOTINO ∨ 0 < linkCount t.ninodes t.disk d then 1 else 0) +
        (t.disk d).links.countP fun e => (t.disk e.inum).type = .dir) ∧
    ∀ i, (t.disk i).type ≠ .free → ¬ t.InMemory i →
      ∃ d, FromRoot t.disk d ∧ (t.disk d).type = .dir ∧ ∃ e ∈ (t.disk d).entries, e.inum = i := by
  have inv := run_inv image run
  have tree := inv.sound.tree
  refine ⟨fun i alloc notDir => ?_, fun d dir => tree.nlink_dir dir, fun i alloc unused => ?_⟩
  · obtain ⟨count, low⟩ := (tree.exact trivial).files i alloc notDir
    rw [tree.entryCount_file trivial alloc notDir, BitVec.toInt_eq_toNat_of_lt (by omega), count]
    rfl
  · exact inv.sound.named_of_unused trivial alloc fun used =>
      unused (inMemory_of_used inv.refs used)

/-- The theorem at a run: a file with two names, one of them in a directory. -/
theorem link_counts_exact_twoNames : ∃ t : Fs (Fin 2),
    Run FsCall.CarefulStep (Fs.boot 10 emptyImage 0)
      [.mkdir 0 (some [0x61]), .mknod 0 (some [0x62]) 1 1,
        .link 0 (some [0x62]) (some [0x61, slash, 0x63])] t ∧
    t.disk 3 = ⟨.device, 1, 1, 2, []⟩ ∧ (t.disk 3).nlink.toInt = entryCount t.ninodes t.disk 3 ∧
    (t.disk 2).nlink.toInt = (if 2 = ROOTINO ∨ 0 < linkCount t.ninodes t.disk 2 then 1 else 0) +
        (t.disk 2).links.countP fun e => (t.disk e.inum).type = .dir := by
  obtain ⟨t, run, seen⟩ := run_of_observed (fun t : Fs (Fin 2) => (t.disk 3, (t.disk 2).type))
    (show (execAll FsCall.completeCareful
      [.mkdir 0 (some [0x61]), .mknod 0 (some [0x62]) 1 1,
        .link 0 (some [0x62]) (some [0x61, slash, 0x63])] (Fs.boot 10 emptyImage (0 : Fin 2))).map
        _ =
      some (⟨.device, 1, 1, 2, []⟩, .dir) by decide +kernel)
  obtain ⟨file, dir⟩ := Prod.mk.inj seen
  have run := run.mono FsCall.CarefulStep.of_complete
  have counts := link_counts_exact (emptyImage_wellFormed (by decide) (by decide)) run
  refine ⟨t, run, file, counts.1 3 ?_ ?_, counts.2.1 2 dir⟩
  · rw [show t.disk 3 = _ from file]
    decide
  · rw [show t.disk 3 = _ from file]
    decide

/-- **An inode is lost.** A process sits in a directory that another one unlinks, makes a device
there and exits: the directory is freed with its entry, and the device is left with a link count of
one and no entry. -/
theorem entry_in_unlinked_leaks : ∃ t : Fs (Fin 2), Run FsCall.Step (Fs.boot 10 emptyImage 0)
      [.mkdir 0 (some [0x61]), .fork 0 (some 1), .chdir 1 (some [0x61]), .unlink 0 (some [0x61]),
        .mknod 1 (some [0x62]) 1 1, .exit 1] t ∧
    t.disk 3 = ⟨.device, 1, 1, 1, []⟩ ∧ entryCount t.ninodes t.disk 3 = 0 ∧
    ∀ i, (t.itable i).inum = 3 → (t.itable i).ref = 0 := by
  obtain ⟨t, run, seen⟩ := run_of_observed (fun t : Fs (Fin 2) => (t.disk 3,
      decide (entryCount t.ninodes t.disk 3 = 0),
        decide (∀ i, (t.itable i).inum = 3 → (t.itable i).ref = 0)))
    (show (execAll FsCall.complete
      [.mkdir 0 (some [0x61]), .fork 0 (some 1), .chdir 1 (some [0x61]), .unlink 0 (some [0x61]),
        .mknod 1 (some [0x62]) 1 1, .exit 1] (Fs.boot 10 emptyImage (0 : Fin 2))).map _ =
      some (⟨.device, 1, 1, 1, []⟩, true, true) by decide +kernel)
  obtain ⟨file, rest⟩ := Prod.mk.inj seen
  obtain ⟨noEntry, noRef⟩ := Prod.mk.inj rest
  exact ⟨t, run, file, of_decide_eq_true noEntry, of_decide_eq_true noRef⟩

end Xv6
