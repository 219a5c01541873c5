/-
**The shape of the directory tree over whole runs.**

Every call keeps `Sound` with nothing owed, if no link is made to an inode whose link count is the
largest one. From this, for every run of such calls (`directory_tree`): a directory that can be
reached from the root starts with `.` and `..`, its names differ, one entry names it and `..` leads
back along that entry to the root, and `isdirempty` says whether it has entries besides those two.
-/

import Xv6.Fs.Integrity

set_option linter.unusedSectionVars false

namespace Xv6

open Lib Function

variable {P : Type} {s t : Fs P} {owed : Nat → Nat} {scope : Scope} {d : Nat}

variable {disk : Nat → Dinode} {n : Nat}

/-! ### Runs -/

variable [DecidableEq P] [Fintype P]

instance (s : Fs P) : (call : FsCall P) → Decidable (call.Counted s)
  | .link _ _ _ => inferInstanceAs (Decidable s.LinkRoom)
  | .open .. | .close .. | .dup .. | .pipe .. | .fork .. | .exec .. | .chdir .. | .unlink ..
  | .mkdir .. | .mknod .. | .exit _ => inferInstanceAs (Decidable True)

def FsCall.CountedStep (s : Fs P) (call : FsCall P) (t : Fs P) : Prop :=
  call.Counted s ∧ FsCall.Step s call t

/-- The names of a directory differ. -/
def named : Scope := ⟨True, False⟩

/-! ### The tree -/

/-- **A directory of the tree**: its first entries, its names, the one entry that names it, the way
up to the root, and what `isdirempty` says of it. -/
structure InTree (t : Fs P) (d : Nat) : Prop where
  first : (t.disk d).entries[0]? = some ⟨d, dot⟩
  second : (t.disk d).entries[1]? = some ⟨(t.disk d).parent, dotdot⟩
  names : Unambiguous (t.disk d).entries
  root : d = ROOTINO → (t.disk d).parent = ROOTINO ∧ linkCount t.ninodes t.disk d = 0
  once : d ≠ ROOTINO → linkCount t.ninodes t.disk d = 1 ∧ FromRoot t.disk (t.disk d).parent ∧
    ∃ e ∈ (t.disk (t.disk d).parent).links, e.inum = d
  climbs : ∃ k, (fun c => (t.disk c).parent)^[k] d = ROOTINO
  empty : ∀ ip, (t.itable ip).inum = d → (isdirempty t ip = true ↔
    ∀ e ∈ (t.disk d).entries, e.inum ≠ 0 → e.name = dot ∨ e.name = dotdot)

omit [DecidableEq P] [Fintype P] in
theorem isdirempty_iff (shape : DirShape d (t.disk d)) {ip : Fin NINODE}
    (inum : (t.itable ip).inum = d) :
    isdirempty t ip = true ↔ ∀ e ∈ (t.disk d).entries, e.inum ≠ 0 → e.name = dot ∨
      e.name = dotdot := by
  obtain ⟨rest, starts⟩ := shape.starts
  have names := shape.names
  unfold isdirempty
  rw [inum]
  rw [starts] at names ⊢
  simp only [List.drop_succ_cons, List.drop_zero, List.all_eq_true, decide_eq_true_eq] at names ⊢
  constructor
  · intro empty e member used
    obtain rfl | member := List.mem_cons.mp member
    · exact Or.inl rfl
    obtain rfl | member := List.mem_cons.mp member
    · exact Or.inr rfl
    · exact absurd (empty e member) used
  · intro only e member
    by_contra used
    obtain ⟨notDot, notDotdot⟩ := names e member used
    obtain isDot | isDotdot := only e (List.mem_cons_of_mem _ (List.mem_cons_of_mem _ member)) used
    · exact notDot isDot
    · exact notDotdot isDotdot

/-- The parent of a directory that is reached through a link is where the link is. -/
theorem DirTree.climbs (tree : DirTree scope n disk owed none) (reach : FromRoot disk d) :
    (disk d).type = .dir → (d = ROOTINO ∨ (FromRoot disk (disk d).parent ∧
      ∃ e ∈ (disk (disk d).parent).links, e.inum = d)) ∧ ∃ k,
        (fun c => (disk c).parent)^[k] d = ROOTINO := by
  induction reach with
  | refl => exact fun _ => ⟨Or.inl rfl, 0, rfl⟩
  | @tail c d reach edge ih =>
    intro dir
    obtain ⟨e, member, names⟩ := edge
    subst names
    have parent := tree.child c e member dir
    obtain ⟨k, up⟩ := (ih (isDir_of_mem member)).2
    refine ⟨Or.inr ?_, k + 1, ?_⟩
    · rw [parent]
      exact ⟨reach, e, member, rfl⟩
    · rw [Function.iterate_succ_apply, parent]
      exact up

/-- **The directories form a tree.** After any sequence of calls from a well-formed image, where a
link is made only while no inode but a directory has the largest link count, every directory that
can be reached from the root is a directory of the tree. -/
theorem directory_tree {n : Nat} {disk : Nat → Dinode} (image : WellFormed n disk)
    (names : ∀ d, (disk d).type = .dir → Unambiguous (disk d).entries) {initproc : P}
    {trace : List (FsCall P)} (run : Run FsCall.CountedStep (Fs.boot n disk initproc) trace t) :
    ∀ d, FromRoot t.disk d → (t.disk d).type = .dir → InTree t d := by
  have inv : RunInv named t := Run.inv (boot_runInv image (fun _ => names) initproc)
    (fun inv step => inv.step step.1 False.elim step.2) run
  have tree := inv.sound.tree
  intro d reach dir
  obtain ⟨shape, _⟩ := tree.shape d dir (by simp)
  obtain ⟨rest, starts⟩ := shape.starts
  obtain ⟨linked, up⟩ := tree.climbs reach dir
  refine ⟨by rw [starts]; rfl, by rw [starts]; rfl, tree.names trivial d dir, ?_, fun notRoot => ?_,
    up, ?_⟩
  · rintro rfl
    exact ⟨tree.rootParent, tree.rootCount⟩
  · obtain isRoot | above := linked
    · exact absurd isRoot notRoot
    obtain ⟨e, member, isD⟩ := above.2
    have some := tree.linkCount_pos.mpr ⟨_, e, member, isD⟩
    have once := tree.once d dir
    exact ⟨by omega, above⟩
  · exact fun ip inum => isdirempty_iff shape inum

def FsCall.completeCounted (s : Fs P) (call : FsCall P) : Option (Fs P) :=
  if call.Counted s then FsCall.complete s call else none

theorem FsCall.CountedStep.of_complete {call : FsCall P}
    (done : FsCall.completeCounted s call = some t) : FsCall.CountedStep s call t := by
  unfold FsCall.completeCounted at done
  split_ifs at done with counted
  exact ⟨counted, done⟩

omit [DecidableEq P] [Fintype P] in
theorem emptyImage_names (d : Nat) :
    (emptyImage d).type = .dir → Unambiguous (emptyImage d).entries := by
  intro dir
  unfold emptyImage at dir ⊢
  split_ifs at dir ⊢
  exact unambiguous_dots _ _

/-- A directory in a directory, a file with a second name, and a directory that is unlinked while it
is the working directory of another process. -/
def nestedCalls : List (FsCall (Fin 2)) :=
  [.mkdir 0 (some [0x61]), .mkdir 0 (some [0x61, slash, 0x62]), .mknod 0 (some [0x63]) 1 1,
    .link 0 (some [0x63]) (some [0x61, slash, 0x64]), .fork 0 (some 1), .mkdir 0 (some [0x65]),
    .chdir 1 (some [0x65]), .unlink 0 (some [0x65])]

theorem directory_tree_nested :
    ∃ t : Fs (Fin 2), Run FsCall.CountedStep (Fs.boot 10 emptyImage 0) nestedCalls t ∧
    t.disk 3 = ⟨.dir, 0, 0, 1, [⟨3, dot⟩, ⟨2, dotdot⟩]⟩ ∧ FromRoot t.disk 3 ∧ InTree t 3 := by
  obtain ⟨t, run, seen⟩ :=
    run_of_observed (fun t : Fs (Fin 2) => (t.disk 3, (t.disk 1).links, (t.disk 2).links))
    (show (execAll FsCall.completeCounted nestedCalls (Fs.boot 10 emptyImage (0 : Fin 2))).map _ =
      some (⟨.dir, 0, 0, 1, [⟨3, dot⟩, ⟨2, dotdot⟩]⟩, [⟨2, [0x61]⟩, ⟨4, [0x63]⟩],
        [⟨3, [0x62]⟩, ⟨4, [0x64]⟩]) by
      decide +kernel)
  have run := run.mono FsCall.CountedStep.of_complete
  simp only [Prod.mk.injEq] at seen
  obtain ⟨inner, links1, links2⟩ := seen
  have outer : FromRoot t.disk 2 := by
    apply Relation.ReflTransGen.single
    refine ⟨⟨2, [0x61]⟩, ?_, rfl⟩
    rw [show imageLinks t.disk ROOTINO = _ from links1]
    exact List.mem_cons_self
  have reach : FromRoot t.disk 3 := by
    apply outer.tail
    refine ⟨⟨3, [0x62]⟩, ?_, rfl⟩
    rw [show imageLinks t.disk 2 = _ from links2]
    exact List.mem_cons_self
  have tree := directory_tree (emptyImage_wellFormed (by decide) (by decide)) emptyImage_names run
  exact ⟨t, run, inner, reach, tree 3 reach (congrArg Dinode.type inner)⟩

end Xv6
