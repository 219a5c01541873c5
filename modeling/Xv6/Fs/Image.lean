/-
**Well-formed file systems.**

A file system seen from outside: which inodes are allocated and what the entries of each directory
name. The entries besides `.` and `..` are the links; to write a name into a directory adds one
(`DirShape.putName`), to clear an entry removes one (`DirShape.clearName`). `ImageInv` says that the
image is well formed: every entry names an allocated inode, the link counts are exact, directories
that are linked can be reached from the root, and what is not linked is in use.
-/

import Xv6.Fs.Path
import Xv6.Lib.Links

namespace Xv6

open Lib

/-! ### Entries -/

/-- An entry other than a free one and `.` and `..`. -/
def Dirent.IsLink (e : Dirent) : Prop := e.inum ≠ 0 ∧ e.name ≠ dot ∧ e.name ≠ dotdot

instance (e : Dirent) : Decidable e.IsLink := inferInstanceAs (Decidable (_ ∧ _))

def Dinode.links (dn : Dinode) : List Dirent :=
  if dn.type = .dir then dn.entries.filter fun e => e.IsLink else []

/-- The inode that `..` names. -/
def Dinode.parent (dn : Dinode) : Nat :=
  match dn.entries with
  | _ :: e :: _ => e.inum
  | _ => 0

/-- A directory starts with `.` and `..`, and has them once. -/
structure DirShape (d : Nat) (dn : Dinode) : Prop where
  starts : ∃ rest, dn.entries = ⟨d, dot⟩ :: ⟨dn.parent, dotdot⟩ :: rest
  names : ∀ e ∈ dn.entries.drop 2, e.inum ≠ 0 → e.name ≠ dot ∧ e.name ≠ dotdot
  length : dn.entries.length ≤ MAXDIRENTS

variable {de e : Dirent} {dn : Dinode} {p : Dirent → Bool} {disk : Nat → Dinode} {off d n : Nat}
  {entries : List Dirent}

theorem links_of_dir (dir : dn.type = .dir) : dn.links = dn.entries.filter fun e => e.IsLink :=
  if_pos dir

theorem links_of_not_dir (other : dn.type ≠ .dir) : dn.links = [] := if_neg other

/-- The links of a directory are its entries besides `.` and `..`. -/
theorem mem_links : e ∈ dn.links ↔ dn.type = .dir ∧ e ∈ dn.entries ∧ e.IsLink := by
  by_cases dir : dn.type = .dir
  · simp [links_of_dir dir, dir]
  · simp [links_of_not_dir dir, dir]

theorem emptyEntry_cons {rest : List Dirent} (used : e.inum ≠ 0) :
    emptyEntry (e :: rest) = emptyEntry rest + 1 := by
  simp [emptyEntry, List.findIdx_cons, used]

theorem putEntry_cons {rest : List Dirent} :
    putEntry (e :: rest) (off + 1) de = e :: putEntry rest off de := by
  unfold putEntry
  by_cases inside : off < rest.length
  · simp [inside]
  · simp [inside]

/-- To write an entry into a free place adds it to the entries that count. -/
theorem filter_putEntry (holds : p de = true) (free : ∀ e : Dirent, e.inum = 0 → p e = false) :
    ((putEntry entries (emptyEntry entries) de).filter p).Perm (de :: entries.filter p) := by
  induction entries with
  | nil => simp [putEntry, emptyEntry, holds]
  | cons e rest ih =>
    by_cases empty : e.inum = 0
    · simp [putEntry, emptyEntry, List.findIdx_cons, empty, holds, free e empty]
    · rw [emptyEntry_cons empty, putEntry_cons]
      by_cases kept : p e = true
      · rw [List.filter_cons_of_pos kept, List.filter_cons_of_pos kept]
        exact (ih.cons e).trans (List.Perm.swap de e _)
      · rw [List.filter_cons_of_neg kept, List.filter_cons_of_neg kept]
        exact ih

/-- To overwrite an entry takes it out of the entries that count. -/
theorem filter_set {z : Dirent} (holds : p de = true) (cleared : p z = false) :
    ∀ {off : Nat}, entries[off]? = some de →
      (entries.filter p).Perm (de :: (entries.set off z).filter p) := by
  induction entries with
  | nil =>
    intro off here
    simp at here
  | cons e rest ih =>
    intro off here
    cases off with
    | zero =>
      simp only [List.getElem?_cons_zero, Option.some.injEq] at here
      subst here
      simp [holds, cleared]
    | succ off =>
      have perm := ih (by simpa using here)
      rw [List.set_cons_succ]
      by_cases kept : p e = true
      · rw [List.filter_cons_of_pos kept, List.filter_cons_of_pos kept]
        exact (perm.cons e).trans (List.Perm.swap de e _)
      · rw [List.filter_cons_of_neg kept, List.filter_cons_of_neg kept]
        exact perm

theorem mem_putEntry (member : e ∈ putEntry entries off de) : e ∈ entries ∨ e = de := by
  unfold putEntry at member
  split_ifs at member
  · exact List.mem_or_eq_of_mem_set member
  · simpa using member

/-- A directory does not grow past its bound. -/
theorem length_putEntry (before : entries.length ≤ n) (inside : off < n)
    (next : off ≤ entries.length) : (putEntry entries off de).length ≤ n := by
  unfold putEntry
  split_ifs with old
  · rw [List.length_set]
    exact before
  · rw [List.length_append, List.length_singleton]
    omega

/-- A write after the first two entries keeps the shape of a directory and its parent. -/
theorem DirShape.put {dn' : Dinode} (shape : DirShape d dn)
    (names : de.inum ≠ 0 → de.name ≠ dot ∧ de.name ≠ dotdot) (inside : off + 2 < MAXDIRENTS)
    (next : off + 2 ≤ dn.entries.length)
    (entries : dn'.entries = putEntry dn.entries (off + 2) de) :
    DirShape d dn' ∧ dn'.parent = dn.parent := by
  obtain ⟨⟨rest, starts⟩, others, length⟩ := shape
  have written : dn'.entries = ⟨d, dot⟩ :: ⟨dn.parent, dotdot⟩ :: putEntry rest off de := by
    rw [entries, starts, putEntry_cons, putEntry_cons]
  have parent : dn'.parent = dn.parent := by
    show (match dn'.entries with
      | _ :: e :: _ => e.inum
      | _ => 0) = _
    rw [written]
  refine ⟨⟨⟨putEntry rest off de, by rw [written, parent]⟩, ?_, ?_⟩, parent⟩
  · rw [written]
    intro e member used
    obtain old | rfl := mem_putEntry (show e ∈ putEntry rest off de from member)
    · refine others e ?_ used
      rw [starts]
      exact old
    · exact names used
  · rw [entries]
    exact length_putEntry length inside next

/-- **A new name** is written into the first free entry, and adds one link. -/
theorem DirShape.putName {x : Nat} {name : Name} (shape : DirShape d dn) (dn' : Dinode)
    (here : d ≠ 0) (above : dn.parent ≠ 0) (dir : dn.type = .dir)
    (absent : findEntry dn.entries name = none) (nonzero : x ≠ 0)
    (fits : emptyEntry dn.entries < MAXDIRENTS) (type : dn'.type = .dir)
    (entries : dn'.entries = putEntry dn.entries (emptyEntry dn.entries) ⟨x, name⟩) :
    DirShape d dn' ∧ dn'.parent = dn.parent ∧ dn'.links.Perm (⟨x, name⟩ :: dn.links) := by
  obtain ⟨rest, starts⟩ := shape.starts
  have notDot : dot ≠ name := findEntry_none absent (e := ⟨d, dot⟩) (by simp [starts]) here
  have notDotdot : dotdot ≠ name :=
    findEntry_none absent (e := ⟨dn.parent, dotdot⟩) (by rw [starts]; simp) above
  have off : emptyEntry dn.entries = emptyEntry rest + 2 := by
    rw [starts, emptyEntry_cons here, emptyEntry_cons above]
  have next : emptyEntry rest + 2 ≤ dn.entries.length := by
    have bound : emptyEntry rest ≤ rest.length := List.findIdx_le_length
    rw [starts, List.length_cons, List.length_cons]
    omega
  have written := entries
  rw [off] at fits entries
  obtain ⟨shape', parent⟩ := shape.put (fun _ => ⟨notDot.symm, notDotdot.symm⟩) fits next entries
  refine ⟨shape', parent, ?_⟩
  rw [links_of_dir type, links_of_dir dir, written]
  refine filter_putEntry ?_ fun e free => ?_
  · simp [Dirent.IsLink, nonzero, notDot.symm, notDotdot.symm]
  · simp [Dirent.IsLink, free]

/-- **A name is cleared**, which removes its link. -/
theorem DirShape.clearName {name : Name} (shape : DirShape d dn) (dn' : Dinode)
    (dir : dn.type = .dir) (found : findEntry dn.entries name = some (off, de))
    (notDot : name ≠ dot) (notDotdot : name ≠ dotdot) (type : dn'.type = .dir)
    (entries : dn'.entries = putEntry dn.entries off ⟨0, []⟩) :
    DirShape d dn' ∧ dn'.parent = dn.parent ∧ dn.links.Perm (de :: dn'.links) := by
  obtain ⟨here, nonzero, isName⟩ := findEntry_some found
  obtain ⟨rest, starts⟩ := shape.starts
  have inside : off < dn.entries.length := (List.getElem?_eq_some_iff.mp here).1
  have length := shape.length
  -- the first two entries have other names
  obtain ⟨off, rfl⟩ : ∃ k, off = k + 2 := by
    rw [starts] at here
    match off, here with
    | 0, here =>
      simp only [List.getElem?_cons_zero, Option.some.injEq] at here
      exact absurd (isName ▸ here ▸ rfl) notDot
    | 1, here =>
      simp only [List.getElem?_cons_succ, List.getElem?_cons_zero, Option.some.injEq] at here
      exact absurd (isName ▸ here ▸ rfl) notDotdot
    | k + 2, _ => exact ⟨k, rfl⟩
  obtain ⟨shape', parent⟩ := shape.put (fun zero => absurd rfl zero) (by omega) (by omega) entries
  refine ⟨shape', parent, ?_⟩
  rw [links_of_dir type, links_of_dir dir, entries, putEntry, if_pos inside]
  refine filter_set ?_ ?_ here
  · simp [Dirent.IsLink, nonzero, isName, notDot, notDotdot]
  · simp [Dirent.IsLink]

/-- `isdirempty`: a directory that has only `.` and `..` has no links. -/
theorem DirShape.links_empty (shape : DirShape d dn) (empty : ∀ e ∈ dn.entries.drop 2, e.inum = 0) :
    dn.links = [] := by
  by_cases dir : dn.type = .dir
  · obtain ⟨rest, starts⟩ := shape.starts
    rw [starts] at empty
    rw [links_of_dir dir, List.filter_eq_nil_iff, starts]
    intro e member
    simp only [decide_eq_true_eq]
    rintro ⟨used, notDot, notDotdot⟩
    obtain rfl | later := List.mem_cons.mp member
    · exact notDot rfl
    obtain rfl | later := List.mem_cons.mp later
    · exact notDotdot rfl
    · exact used (empty e later)
  · exact links_of_not_dir dir

/-! ### The invariant -/

def imageLinks (disk : Nat → Dinode) (d : Nat) : List Dirent := (disk d).links

/-- The number of links to an inode, over all directories. -/
def linkCount (n : Nat) (disk : Nat → Dinode) (i : Nat) : Nat :=
  inDegree Dirent.inum (Finset.range n) (imageLinks disk) i

theorem isDir_of_mem (member : e ∈ imageLinks disk d) : (disk d).type = .dir :=
  (mem_links.mp member).1

/-- An inode has a link if some directory names it. -/
theorem linkCount_pos_iff (bound : ∀ i, (disk i).type ≠ .free → 0 < i ∧ i < n) {i : Nat} :
    0 < linkCount n disk i ↔ ∃ d, ∃ e ∈ imageLinks disk d, e.inum = i := by
  unfold linkCount
  rw [inDegree_pos]
  constructor
  · rintro ⟨d, _, e, member, names⟩
    exact ⟨d, e, member, names⟩
  · rintro ⟨d, e, member, names⟩
    have inside := (bound d (by rw [isDir_of_mem member]; decide)).2
    exact ⟨d, Finset.mem_range.mpr inside, e, member, names⟩

def FromRoot (disk : Nat → Dinode) (d : Nat) : Prop := Reach Dirent.inum (imageLinks disk) ROOTINO d

/-- **A well-formed file system** with `n` inodes, of which some are in use in memory. -/
structure ImageInv (n : Nat) (disk : Nat → Dinode) (used : Nat → Prop) : Prop where
  small : n ≤ 2 ^ 16
  bound : ∀ i, (disk i).type ≠ .free → 0 < i ∧ i < n
  shape : ∀ d, (disk d).type = .dir → DirShape d (disk d)
  parentDir : ∀ d, (disk d).type = .dir → (disk (disk d).parent).type = .dir
  rootDir : (disk ROOTINO).type = .dir
  rootParent : (disk ROOTINO).parent = ROOTINO
  rootCount : linkCount n disk ROOTINO = 0
  target : ∀ d, ∀ e ∈ imageLinks disk d, (disk e.inum).type ≠ .free
  child : ∀ d, ∀ e ∈ imageLinks disk d, (disk e.inum).type = .dir → (disk e.inum).parent = d
  once : ∀ d, (disk d).type = .dir → linkCount n disk d ≤ 1
  files : ∀ i, (disk i).type ≠ .free → (disk i).type ≠ .dir →
    (disk i).nlink.toInt = linkCount n disk i
  dirs : ∀ d, (disk d).type = .dir → (disk d).nlink.toInt =
    (if d = ROOTINO ∨ 0 < linkCount n disk d then 1 else 0) +
      (imageLinks disk d).countP fun e => (disk e.inum).type = .dir
  orphan : ∀ d, (disk d).type = .dir → d ≠ ROOTINO → linkCount n disk d = 0 →
    imageLinks disk d = [] ∧ ∀ c, (disk c).type = .dir → c ≠ d → (disk c).parent ≠ d
  unlinked : ∀ i, (disk i).type ≠ .free → i ≠ ROOTINO → linkCount n disk i = 0 → used i
  reach : ∀ d, (disk d).type = .dir → d = ROOTINO ∨ 0 < linkCount n disk d → FromRoot disk d

end Xv6
