/-
**The directory tree, with links that are owed.**

`DirTree` is what every image keeps whatever calls are made, as long as no link count wraps around:
the entries of directories, the one link to each directory, and that no link count is less than the
number of links. Between the writes of a call the counts are ahead of the links: `owed i` links to
inode `i` (or from it to subdirectories) are counted and not there. A write of a link count, of an
entry or of a whole inode moves what is owed; `fresh` is the directory that has no `.` and `..` yet.
-/

import Xv6.Fs.Image

namespace Xv6

open Lib Function

/-! ### Names -/

def Unambiguous (entries : List Dirent) : Prop :=
  ∀ (i j : Nat) (a b : Dirent), entries[i]? = some a → entries[j]? = some b → a.inum ≠ 0 →
    b.inum ≠ 0 → a.name = b.name → i = j

theorem unambiguous_nil : Unambiguous [] := by
  intro i j a b here
  simp at here

variable {de : Dirent} {off : Nat}

theorem getElem?_putEntry {entries : List Dirent} {i : Nat} {a : Dirent}
    (here : (putEntry entries off de)[i]? = some a) :
    (i = min off entries.length ∧ a = de) ∨
      (i ≠ min off entries.length ∧ entries[i]? = some a) := by
  unfold putEntry at here
  split_ifs at here with inside
  · rw [List.getElem?_set] at here
    split_ifs at here with same
    · exact Or.inl ⟨by omega, (Option.some.inj here).symm⟩
    · exact Or.inr ⟨by omega, here⟩
  · by_cases last : i = entries.length
    · rw [last, List.getElem?_concat_length] at here
      exact Or.inl ⟨by omega, (Option.some.inj here).symm⟩
    · have bound := (List.getElem?_eq_some_iff.mp here).1
      rw [List.length_append, List.length_singleton] at bound
      rw [List.getElem?_append_left (by omega)] at here
      exact Or.inr ⟨by omega, here⟩

theorem Unambiguous.put {entries : List Dirent} (names : Unambiguous entries)
    (new : de.inum ≠ 0 → ∀ e ∈ entries, e.inum ≠ 0 → e.name ≠ de.name) :
    Unambiguous (putEntry entries off de) := by
  intro i j a b hereA hereB usedA usedB same
  obtain ⟨atI, isA⟩ | ⟨_, oldA⟩ := getElem?_putEntry hereA
  · obtain ⟨atJ, _⟩ | ⟨_, oldB⟩ := getElem?_putEntry hereB
    · rw [atI, atJ]
    · subst isA
      exact absurd same.symm (new usedA b (List.mem_of_getElem? oldB) usedB)
  · obtain ⟨atJ, isB⟩ | ⟨_, oldB⟩ := getElem?_putEntry hereB
    · subst isB
      exact absurd same (new usedB a (List.mem_of_getElem? oldA) usedA)
    · exact names i j a b oldA oldB usedA usedB same

/-! ### The tree -/

/-- The links of an inode that name directories. -/
def subdirs (disk : Nat → Dinode) (d : Nat) : Nat :=
  (imageLinks disk d).countP fun e => (disk e.inum).type = .dir

/-- An inode that has a link, or needs none. -/
def Linked (n : Nat) (disk : Nat → Dinode) (i : Nat) : Prop := i = ROOTINO ∨ 0 < linkCount n disk i

/-- **The links of an image**: they lead from directories to inodes, at most one to a directory,
which has the directory of the link as its parent. -/
structure Links (n : Nat) (disk : Nat → Dinode) : Prop where
  bound : ∀ i, (disk i).type ≠ .free → 0 < i ∧ i < n
  rootDir : (disk ROOTINO).type = .dir
  rootParent : (disk ROOTINO).parent = ROOTINO
  rootCount : linkCount n disk ROOTINO = 0
  target : ∀ d, ∀ e ∈ imageLinks disk d, (disk e.inum).type ≠ .free
  child : ∀ d, ∀ e ∈ imageLinks disk d, (disk e.inum).type = .dir → (disk e.inum).parent = d
  once : ∀ d, (disk d).type = .dir → linkCount n disk d ≤ 1

/-- **Nothing is lost**: the link count of a file is the number of its links, an unlinked directory
has no links and is the parent of none, and a linked one can be reached from the root. -/
structure Exact (n : Nat) (disk : Nat → Dinode) (owed : Nat → Nat) (fresh : Option Nat) : Prop where
  files : ∀ i, (disk i).type ≠ .free → (disk i).type ≠ .dir →
    (disk i).nlink.toNat = linkCount n disk i + owed i ∧ (disk i).nlink.toNat < 2 ^ 15
  parentDir : ∀ d, (disk d).type = .dir → fresh ≠ some d → (disk (disk d).parent).type = .dir
  orphan : ∀ d, (disk d).type = .dir → ¬ Linked n disk d →
    imageLinks disk d = [] ∧ ∀ c, (disk c).type = .dir → c ≠ d → (disk c).parent ≠ d
  reach : ∀ d, (disk d).type = .dir → Linked n disk d → FromRoot disk d

/-- What is followed of a tree: that the names of a directory differ, and that nothing is lost. -/
structure Scope where
  names : Prop
  exact : Prop

/-- **The directory tree of an image**, with the links that are owed to each inode. -/
structure DirTree (scope : Scope) (n : Nat) (disk : Nat → Dinode) (owed : Nat → Nat)
    (fresh : Option Nat) : Prop
    extends Links n disk where
  small : n ≤ 2 ^ 16
  names : scope.names → ∀ d, (disk d).type = .dir → Unambiguous (disk d).entries
  shape : ∀ d, (disk d).type = .dir → fresh ≠ some d → DirShape d (disk d) ∧ (disk d).parent ≠ 0
  files : ∀ i, (disk i).type ≠ .free → (disk i).type ≠ .dir →
    linkCount n disk i + owed i ≤ (disk i).nlink.toNat
  dirs : ∀ d, (disk d).type = .dir → (disk d).nlink.toNat =
    (if d = ROOTINO then 1 else 0) + linkCount n disk d + subdirs disk d + owed d
  exact : scope.exact → Exact n disk owed fresh
  fresh : ∀ d, fresh = some d → (disk d).type = .dir ∧ ¬ Linked n disk d ∧ imageLinks disk d = []

variable {n : Nat} {disk disk' : Nat → Dinode} {owed owed' : Nat → Nat} {fresh fresh' : Option Nat}
  {dn : Dinode}
  {i x d : Nat} {scope : Scope}

namespace Links

variable (links : Links n disk)

include links

theorem pos_of_dir (dir : (disk d).type = .dir) : 0 < d ∧ d < n :=
  links.bound d (by rw [dir]; decide)

theorem linkCount_pos : 0 < linkCount n disk i ↔ ∃ d, ∃ e ∈ imageLinks disk d, e.inum = i :=
  linkCount_pos_iff links.bound

theorem linked_of_mem {e : Dirent} (member : e ∈ imageLinks disk d) : Linked n disk e.inum :=
  Or.inr (links.linkCount_pos.mpr ⟨d, e, member, rfl⟩)

theorem not_linked_of_free (free : (disk i).type = .free) : ¬ Linked n disk i := by
  rintro (rfl | some)
  · rw [links.rootDir] at free
    cases free
  · obtain ⟨d, e, member, rfl⟩ := links.linkCount_pos.mp some
    exact links.target d e member free

/-- Links may go away, if linked inodes keep their types and parents. -/
theorem fewer (bound : ∀ i, (disk' i).type ≠ .free → 0 < i ∧ i < n)
    (sub : ∀ d, ∀ e ∈ imageLinks disk' d, e ∈ imageLinks disk d)
    (counts : ∀ i, linkCount n disk' i ≤ linkCount n disk i)
    (kept : ∀ i, Linked n disk i → (disk' i).type = (disk i).type ∧
      ((disk i).type = .dir → (disk' i).parent = (disk i).parent)) : Links n disk' where
  bound := bound
  rootDir := by
    rw [(kept ROOTINO (Or.inl rfl)).1]
    exact links.rootDir
  rootParent := by
    rw [(kept ROOTINO (Or.inl rfl)).2 links.rootDir]
    exact links.rootParent
  rootCount := Nat.le_zero.mp (links.rootCount ▸ counts ROOTINO)
  target := by
    intro d e member
    rw [(kept _ (links.linked_of_mem (sub d e member))).1]
    exact links.target d e (sub d e member)
  child := by
    intro d e member dir
    obtain ⟨type, parent⟩ := kept _ (links.linked_of_mem (sub d e member))
    rw [type] at dir
    rw [parent dir]
    exact links.child d e (sub d e member) dir
  once := by
    intro d dir
    refine le_trans (counts d) ?_
    by_cases linked : Linked n disk d
    · exact links.once d ((kept d linked).1 ▸ dir)
    · exact Nat.le_of_not_lt fun more => linked (Or.inr (by omega))

end Links

theorem linkCount_congr (links : imageLinks disk' = imageLinks disk) :
    linkCount n disk' = linkCount n disk := by
  unfold linkCount
  rw [links]

/-- **A write that leaves the links as they are.** A directory is as before, but for its link count,
or it is fresh: without links, not the parent of another one, and below a linked one. -/
theorem Exact.keep (exact : Exact n disk owed fresh) (links : imageLinks disk' = imageLinks disk)
    (files : ∀ i, (disk' i).type ≠ .free → (disk' i).type ≠ .dir →
      (disk' i).nlink.toNat = linkCount n disk i + owed' i ∧ (disk' i).nlink.toNat < 2 ^ 15)
    (dirs : ∀ d, (disk' d).type = .dir →
      ((disk d).type = .dir ∧ (disk' d).parent = (disk d).parent ∧
        (fresh' ≠ some d → fresh ≠ some d ∧
        ((disk (disk d).parent).type = .dir → (disk' (disk d).parent).type = .dir))) ∨
      (fresh' = some d ∧ ¬ Linked n disk d ∧ imageLinks disk d = [] ∧
        (∀ c, (disk c).type = .dir → c ≠ d → (disk c).parent ≠ d) ∧
        ∀ b, (disk' b).type = .dir → (disk' d).parent = b → Linked n disk b)) :
    Exact n disk' owed' fresh' := by
  have linked : Linked n disk' = Linked n disk := by
    unfold Linked
    rw [linkCount_congr links]
  constructor
  case files =>
    rw [linkCount_congr links]
    exact files
  case parentDir =>
    intro d dir old
    rcases dirs d dir with ⟨before, parent, others⟩ | ⟨isFresh, -⟩
    · obtain ⟨notFresh, still⟩ := others old
      rw [parent]
      exact still (exact.parentDir d before notFresh)
    · exact absurd isFresh old
  case orphan =>
    rw [links, linked]
    intro d dir orphan
    have noLinks : imageLinks disk d = [] ∧ ∀ c, (disk c).type = .dir → c ≠ d →
      (disk c).parent ≠ d := by
      rcases dirs d dir with ⟨before, -⟩ | ⟨-, -, empty, none, -⟩
      · exact exact.orphan d before orphan
      · exact ⟨empty, none⟩
    refine ⟨noLinks.1, fun c dirC other parent => ?_⟩
    rcases dirs c dirC with ⟨before, same, -⟩ | ⟨-, -, -, -, above⟩
    · exact noLinks.2 c before other (same.symm.trans parent)
    · exact orphan (above d dir parent)
  case reach =>
    rw [linked]
    intro d dir isLinked
    rcases dirs d dir with ⟨before, -⟩ | ⟨-, orphan, -⟩
    · unfold FromRoot
      rw [links]
      exact exact.reach d before isLinked
    · exact absurd isLinked orphan

namespace DirTree

section

variable (tree : DirTree scope n disk owed fresh)

include tree

theorem le_nlink (alloc : (disk i).type ≠ .free) :
    linkCount n disk i + owed i ≤ (disk i).nlink.toNat := by
  by_cases dir : (disk i).type = .dir
  · rw [tree.dirs i dir]
    omega
  · exact tree.files i alloc dir

theorem unlinked (alloc : (disk i).type ≠ .free) (zero : (disk i).nlink = 0) :
    ¬ Linked n disk i := by
  have counted := tree.le_nlink alloc
  rw [zero, show (0 : BitVec 16).toNat = 0 from rfl] at counted
  rintro (rfl | some)
  · have count := tree.dirs ROOTINO tree.rootDir
    rw [zero, show (0 : BitVec 16).toNat = 0 from rfl, if_pos rfl] at count
    omega
  · omega

/-- A directory that counts more than what it is owed is linked. -/
theorem linked_of_nlink (isExact : scope.exact) (dir : (disk d).type = .dir)
    (more : owed d < (disk d).nlink.toNat) : Linked n disk d := by
  by_contra orphan
  have none : subdirs disk d = 0 := by
    unfold subdirs
    rw [((tree.exact isExact).orphan d dir orphan).1]
    rfl
  have count := tree.dirs d dir
  unfold Linked at orphan
  push Not at orphan
  rw [none, if_neg orphan.1] at count
  omega

theorem nlink_lt (dir : (disk d).type = .dir) (old : fresh ≠ some d) :
    (disk d).nlink.toNat ≤ 2 + MAXDIRENTS + owed d := by
  have few : subdirs disk d ≤ MAXDIRENTS := by
    refine le_trans List.countP_le_length ?_
    show (disk d).links.length ≤ _
    rw [links_of_dir dir]
    exact le_trans (List.length_filter_le _ _) (tree.shape d dir old).1.length
  have once := tree.once d dir
  rw [tree.dirs d dir]
  split_ifs
  · omega
  · omega

/-- Every entry of a directory names an allocated inode. -/
theorem entry_alloc (isExact : scope.exact) (dir : (disk d).type = .dir) (old : fresh ≠ some d)
    {e : Dirent} (member : e ∈ (disk d).entries) (used : e.inum ≠ 0) :
    (disk e.inum).type ≠ .free := by
  obtain ⟨rest, entries⟩ := (tree.shape d dir old).1.starts
  have names := (tree.shape d dir old).1.names
  rw [entries] at member names
  have dirNotFree : FType.dir ≠ .free := by decide
  obtain rfl | later := List.mem_cons.mp member
  · rw [dir]
    exact dirNotFree
  obtain rfl | later := List.mem_cons.mp later
  · rw [(tree.exact isExact).parentDir d dir old]
    exact dirNotFree
  · refine tree.target d e (mem_links.mpr ⟨dir, ?_, used, names e later used⟩)
    rw [entries]
    exact member

theorem renumber (types : ∀ i, (disk' i).type = (disk i).type)
    (entries : ∀ i, (disk i).type = .dir → (disk' i).entries = (disk i).entries)
    (counts : ∀ i, (disk i).type ≠ .free →
      (disk' i).nlink.toNat + owed i = (disk i).nlink.toNat + owed' i)
    (low : scope.exact → ∀ i, (disk i).type ≠ .free → (disk i).type ≠ .dir →
      (disk' i).nlink.toNat < 2 ^ 15) :
    DirTree scope n disk' owed' fresh := by
  have links : imageLinks disk' = imageLinks disk := by
    funext i
    by_cases dir : (disk i).type = .dir
    · show (disk' i).links = (disk i).links
      rw [links_of_dir dir, links_of_dir ((types i).trans dir), entries i dir]
    · exact (links_of_not_dir (by rwa [types])).trans (links_of_not_dir dir).symm
  have linked : linkCount n disk' = linkCount n disk := linkCount_congr links
  have subs : subdirs disk' = subdirs disk := by
    funext i
    unfold subdirs
    rw [links]
    simp only [types]
  have parents : ∀ i, (disk i).type = .dir → (disk' i).parent = (disk i).parent := by
    intro i dir
    unfold Dinode.parent
    rw [entries i dir]
  constructor
  case toLinks =>
    refine tree.toLinks.fewer (fun i => types i ▸ tree.bound i) (fun d e => by rw [links]; exact id)
      (fun i => by rw [linked]) fun i _ => ⟨types i, parents i⟩
  case small => exact tree.small
  case names =>
    intro named d dir
    rw [types] at dir
    rw [entries d dir]
    exact tree.names named d dir
  case shape =>
    intro d dir old
    rw [types] at dir
    obtain ⟨⟨starts, names, length⟩, above⟩ := tree.shape d dir old
    rw [← entries d dir] at starts names length
    rw [← parents d dir] at starts above
    exact ⟨⟨starts, names, length⟩, above⟩
  case files =>
    intro i alloc notDir
    rw [types] at alloc notDir
    have count := tree.files i alloc notDir
    have change := counts i alloc
    rw [linked]
    omega
  case dirs =>
    intro d dir
    rw [types] at dir
    have count := tree.dirs d dir
    have change := counts d (by rw [dir]; decide)
    rw [linked, subs]
    omega
  case fresh =>
    intro d isFresh
    unfold Linked
    rw [types, linked, links]
    exact tree.fresh d isFresh
  case exact =>
    intro isExact
    refine (tree.exact isExact).keep links (fun i alloc notDir => ?_) fun d dir => Or.inl ?_
    · rw [types] at alloc notDir
      have count := ((tree.exact isExact).files i alloc notDir).1
      have change := counts i alloc
      exact ⟨by omega, low isExact i alloc notDir⟩
    · rw [types] at dir
      exact ⟨dir, parents d dir, fun old => ⟨old, fun above => (types _).trans above⟩⟩

theorem setNlink (type : dn.type = (disk x).type) (entries : dn.entries = (disk x).entries)
    (other : ∀ i, i ≠ x → owed' i = owed i)
    (count : dn.nlink.toNat + owed x = (disk x).nlink.toNat + owed' x)
    (low : scope.exact → (disk x).type ≠ .dir → dn.nlink.toNat < 2 ^ 15) :
    DirTree scope n (update disk x dn) owed' fresh := by
  refine tree.renumber (fun i => update_ind type fun _ => rfl) (fun i _ => update_ind entries
    fun _ => rfl)
    (fun i _ => update_ind count fun same => ?_) fun isExact i alloc notDir => ?_
  · by_cases same : i = x
    · subst same
      rw [update_self]
      exact low isExact notDir
    · rw [update_of_ne same]
      exact ((tree.exact isExact).files i alloc notDir).2
  · rw [other i same]

end

end DirTree

/-! ### Entries -/

section Entry

variable {entries : List Dirent} {e : Dirent} {name : Name} {off : Nat}

theorem types_setEntries (disk : Nat → Dinode) (d : Nat) (entries : List Dirent) (i : Nat) :
    (update disk d { disk d with entries := entries } i).type = (disk i).type :=
  update_ind rfl fun _ => rfl

theorem nlinks_setEntries (disk : Nat → Dinode) (d : Nat) (entries : List Dirent) (i : Nat) :
    (update disk d { disk d with entries := entries } i).nlink = (disk i).nlink :=
  update_ind rfl fun _ => rfl

/-- **The entries of a directory change**, but for the first two. -/
structure Edits (disk disk' : Nat → Dinode) (d : Nat) : Prop where
  dir : (disk d).type = .dir
  types : ∀ i, (disk' i).type = (disk i).type
  nlinks : ∀ i, (disk' i).nlink = (disk i).nlink
  parents : ∀ i, (disk' i).parent = (disk i).parent
  elsewhere : ∀ i, i ≠ d → disk' i = disk i
  shape : DirShape d (disk' d)

theorem edits_of_shape (dir : (disk d).type = .dir)
    (shape : DirShape d { disk d with entries := entries })
    (parent : ({ disk d with entries := entries } : Dinode).parent = (disk d).parent) :
    Edits disk (update disk d { disk d with entries := entries }) d where
  dir := dir
  types := types_setEntries disk d entries
  nlinks := nlinks_setEntries disk d entries
  parents := fun i => update_ind parent fun _ => rfl
  elsewhere := fun i other => update_of_ne other _ _
  shape := by
    rw [update_self]
    exact shape

/-- What a link is owed: one to its inode, and one to its directory if it names a directory. -/
def Owes (disk : Nat → Dinode) (d x i : Nat) : Nat :=
  (if x = i then 1 else 0) + if i = d ∧ (disk x).type = .dir then 1 else 0

theorem owes_file (dir : (disk d).type = .dir) (notDir : (disk i).type ≠ .dir) :
    Owes disk d x i = if x = i then 1 else 0 := by
  rw [Owes, if_neg (c := i = d ∧ _) fun both => notDir (both.1 ▸ dir), add_zero]

theorem subdirs_of_adds (types : ∀ i, (disk' i).type = (disk i).type)
    (adds : Adds (imageLinks disk) (imageLinks disk') d e) (i : Nat) :
    subdirs disk' i = subdirs disk i + if i = d ∧ (disk e.inum).type = .dir then 1 else 0 := by
  unfold subdirs
  simp only [types]
  by_cases same : i = d
  · subst same
    rw [adds.here.countP_eq, List.countP_cons]
    simp only [decide_eq_true_eq, true_and]
  · rw [adds.other i same, if_neg fun both => same both.1, add_zero]

namespace Edits

variable (edits : Edits disk disk' d)

include edits

theorem adds (links : (disk' d).links.Perm (e :: (disk d).links)) :
    Adds (imageLinks disk) (imageLinks disk') d e :=
  ⟨links, fun i other => congrArg Dinode.links (edits.elsewhere i other)⟩

theorem removes (links : (disk d).links.Perm (e :: (disk' d).links)) :
    Adds (imageLinks disk') (imageLinks disk) d e :=
  ⟨links, fun i other => congrArg Dinode.links (edits.elsewhere i other).symm⟩

theorem names (named : ∀ d, (disk d).type = .dir → Unambiguous (disk d).entries)
    (new : Unambiguous (disk' d).entries) (i : Nat) (dir : (disk' i).type = .dir) :
    Unambiguous (disk' i).entries := by
  by_cases same : i = d
  · rw [same]
    exact new
  · rw [edits.elsewhere i same] at dir ⊢
    exact named i dir

/-- A link from a linked directory; the inode was not linked if it is a directory. -/
theorem exact_put (links : Links n disk) (adds : Adds (imageLinks disk) (imageLinks disk') d e)
    (exact : Exact n disk owed fresh) (linked : Linked n disk d)
    (freshOnly : ∀ i, i ≠ e.inum → fresh ≠ some i)
    (parent : (disk e.inum).type = .dir → (disk e.inum).parent = d)
    (paid : ∀ i, owed i = owed' i + Owes disk d e.inum i) : Exact n disk' owed' none := by
  have counts : ∀ i, linkCount n disk' i = linkCount n disk i + if e.inum = i then 1 else 0 :=
    fun i => adds.inDegree (Finset.mem_range.mpr (links.pos_of_dir edits.dir).2)
  have before : ∀ {i}, i ≠ e.inum → (Linked n disk' i ↔ Linked n disk i) := by
    intro i other
    rw [Linked, Linked, counts, if_neg other.symm, add_zero]
  constructor
  case files =>
    intro i alloc notDir
    rw [edits.types] at alloc notDir
    obtain ⟨count, low⟩ := exact.files i alloc notDir
    have owes := paid i
    rw [owes_file edits.dir notDir] at owes
    rw [counts, edits.nlinks]
    exact ⟨by omega, low⟩
  case parentDir =>
    intro c dir _
    rw [edits.types] at dir ⊢
    rw [edits.parents]
    by_cases isNew : c = e.inum
    · subst isNew
      rw [parent dir]
      exact edits.dir
    · exact exact.parentDir c dir (freshOnly c isNew)
  case orphan =>
    intro c dir orphan
    rw [edits.types] at dir
    have notNew : c ≠ e.inum := by
      rintro rfl
      exact orphan (Or.inr (by rw [counts, if_pos rfl]; omega))
    rw [before notNew] at orphan
    obtain ⟨empty, noChild⟩ := exact.orphan c dir orphan
    refine ⟨?_, fun b dirB other => ?_⟩
    · rw [adds.other c fun isD => orphan (isD ▸ linked)]
      exact empty
    · rw [edits.types] at dirB
      rw [edits.parents]
      exact noChild b dirB other
  case reach =>
    intro c dir isLinked
    rw [edits.types] at dir
    by_cases isNew : c = e.inum
    · subst isNew
      exact (adds.reach (exact.reach d edits.dir linked)).tail ⟨e, adds.mem_self, rfl⟩
    · exact adds.reach (exact.reach c dir ((before isNew).mp isLinked))

/-- A link that goes away, to a file or to a directory without links and unlinked children. -/
theorem exact_clear (links : Links n disk) (removes : Adds (imageLinks disk') (imageLinks disk) d e)
    (exact : Exact n disk owed none) (empty : imageLinks disk e.inum = [])
    (noChild : (disk e.inum).type = .dir → ∀ c, (disk c).type = .dir → ¬ Linked n disk c →
      c ≠ e.inum →
      (disk c).parent ≠ e.inum) : Exact n disk' (fun i => owed i + Owes disk d e.inum i) none := by
  have counts : ∀ i, linkCount n disk i = linkCount n disk' i + if e.inum = i then 1 else 0 :=
    fun i => removes.inDegree (Finset.mem_range.mpr (links.pos_of_dir edits.dir).2)
  have member : e ∈ imageLinks disk d := removes.mem_self
  have notRoot : e.inum ≠ ROOTINO := by
    intro isRoot
    have count := counts ROOTINO
    rw [links.rootCount, if_pos isRoot] at count
    omega
  have ne : e.inum ≠ d := by
    rintro isD
    rw [isD] at empty
    rw [empty] at member
    cases member
  constructor
  case files =>
    intro i alloc notDir
    rw [edits.types] at alloc notDir
    obtain ⟨count, low⟩ := exact.files i alloc notDir
    rw [counts] at count
    rw [edits.nlinks, owes_file edits.dir notDir]
    exact ⟨by omega, low⟩
  case parentDir =>
    intro c dir _
    rw [edits.types] at dir ⊢
    rw [edits.parents]
    exact exact.parentDir c dir (by simp)
  case orphan =>
    intro c dir orphan
    rw [edits.types] at dir
    simp only [edits.types, edits.parents]
    by_cases isX : c = e.inum
    · subst isX
      refine ⟨(removes.other _ ne).symm.trans empty, fun b dirB other parent => ?_⟩
      -- a linked child would have its link here
      by_cases linked : Linked n disk b
      · rcases linked with rfl | some
        · exact notRoot (parent.symm.trans links.rootParent)
        · obtain ⟨a, k, link, rfl⟩ := links.linkCount_pos.mp some
          rw [links.child a k link dirB] at parent
          rw [parent, empty] at link
          cases link
      · exact noChild dir b dirB linked other parent
    · have before : ¬ Linked n disk c := by
        rw [Linked, counts, if_neg (Ne.symm isX), add_zero]
        exact orphan
      obtain ⟨noLinks, none⟩ := exact.orphan c dir before
      refine ⟨?_, none⟩
      rw [← removes.other c fun isD => by rw [isD] at noLinks; rw [noLinks] at member; cases member]
      exact noLinks
  case reach =>
    intro c dir isLinked
    rw [edits.types] at dir
    have before : Linked n disk c := by
      refine isLinked.imp_right fun some => ?_
      rw [counts]
      omega
    rcases removes.reach_of_sink empty (exact.reach c dir before) with isX | reach
    · subst isX
      have once := links.once _ dir
      rw [counts, if_pos rfl] at once
      rcases isLinked with root | some
      · exact absurd root notRoot
      · omega
    · exact reach

end Edits

namespace DirTree

/-- **A new entry** takes what was owed. The inode is a file, or the directory that is fresh and has
got its `.` and `..`. -/
theorem put (tree : DirTree scope n disk owed fresh) (dir : (disk d).type = .dir)
    (old : fresh ≠ some d) (absent : findEntry (disk d).entries name = none)
    (fits : emptyEntry (disk d).entries < MAXDIRENTS) (alloc : (disk x).type ≠ .free)
    (isFresh : fresh = if (disk x).type = .dir then some x else none)
    (complete : (disk x).type = .dir → DirShape x (disk x) ∧ (disk x).parent = d)
    (linked : scope.exact → Linked n disk d) (paid : ∀ i, owed i = owed' i + Owes disk d x i) :
    DirTree scope n (update disk d { disk d with
      entries := putEntry (disk d).entries (emptyEntry (disk d).entries) ⟨x, name⟩ }) owed'
        none := by
  have posD := (tree.pos_of_dir dir).1
  have posX := (tree.bound x alloc).1
  have freshOnly : ∀ i, i ≠ x → fresh ≠ some i := by
    intro i other same
    rw [same] at isFresh
    split_ifs at isFresh
    exact other (Option.some.inj isFresh)
  have freshX : (disk x).type = .dir → ¬ Linked n disk x := by
    intro dirX
    rw [if_pos dirX] at isFresh
    exact (tree.fresh x isFresh).2.1
  obtain ⟨shape, above⟩ := tree.shape d dir old
  set dn : Dinode := { disk d with
    entries := putEntry (disk d).entries (emptyEntry (disk d).entries) ⟨x, name⟩ }
  obtain ⟨shape', parent, perm⟩ :=
    shape.putName dn (by omega) above dir absent (by omega) fits dir rfl
  have edits := edits_of_shape dir shape' parent
  have here : update disk d dn d = dn := update_self _ _ _
  generalize update disk d dn = disk' at *
  have adds : Adds (imageLinks disk) (imageLinks disk') d ⟨x, name⟩ := edits.adds (here ▸ perm)
  have counts : ∀ i, linkCount n disk' i = linkCount n disk i + if x = i then 1 else 0 :=
    fun i => adds.inDegree (Finset.mem_range.mpr (tree.pos_of_dir dir).2)
  have subs := subdirs_of_adds edits.types adds
  have notRoot : x ≠ ROOTINO := by
    rintro rfl
    exact freshX tree.rootDir (Or.inl rfl)
  constructor
  case toLinks =>
    refine ⟨fun i => edits.types i ▸ tree.bound i, (edits.types _).trans tree.rootDir,
      (edits.parents _).trans tree.rootParent, ?_, fun c k member => ?_, fun c k member dirK => ?_,
      fun i dirI => ?_⟩
    · rw [counts, if_neg notRoot, tree.rootCount]
    · rw [edits.types]
      obtain before | ⟨_, rfl⟩ := adds.mem_cases member
      · exact tree.target c k before
      · exact alloc
    · rw [edits.types] at dirK
      rw [edits.parents]
      obtain before | ⟨rfl, rfl⟩ := adds.mem_cases member
      · exact tree.child c k before dirK
      · exact (complete dirK).2
    · rw [edits.types] at dirI
      rw [counts]
      split_ifs with same
      · subst same
        have none := freshX dirI
        unfold Linked at none
        omega
      · exact tree.once i dirI
  case small => exact tree.small
  case names =>
    refine fun named => edits.names (tree.names named) ?_
    rw [here]
    exact (tree.names named d dir).put fun _ e member used => findEntry_none absent member used
  case shape =>
    intro i dirI _
    rw [edits.parents]
    by_cases same : i = d
    · subst same
      exact ⟨edits.shape, above⟩
    rw [edits.elsewhere i same] at dirI ⊢
    by_cases isX : i = x
    · subst isX
      obtain ⟨shapeX, parentX⟩ := complete dirI
      exact ⟨shapeX, by omega⟩
    · exact tree.shape i dirI (freshOnly i isX)
  case files =>
    intro i allocI notDir
    rw [edits.types] at allocI notDir
    have count := tree.files i allocI notDir
    have owes := paid i
    rw [owes_file dir notDir] at owes
    rw [counts, edits.nlinks]
    omega
  case dirs =>
    intro i dirI
    rw [edits.types] at dirI
    have count := tree.dirs i dirI
    have owes := paid i
    rw [counts, edits.nlinks, subs]
    unfold Owes at owes
    show _ = _ + _ + (_ + if i = d ∧ (disk x).type = .dir then 1 else 0) + _
    omega
  case exact =>
    intro isExact
    exact edits.exact_put tree.toLinks adds (tree.exact isExact) (linked isExact) freshOnly
      (fun dirX => (complete dirX).2) paid
  case fresh =>
    intro i none
    cases none

/-- **An entry that is cleared** is owed from then on. -/
theorem clear (tree : DirTree scope n disk owed none) {de : Dirent} (dir : (disk d).type = .dir)
    (found : findEntry (disk d).entries name = some (off, de)) (notDot : name ≠ dot)
    (notDotdot : name ≠ dotdot) (empty : scope.exact → imageLinks disk de.inum = [])
    (noChild : scope.exact → (disk de.inum).type = .dir → ∀ c, (disk c).type = .dir →
      ¬ Linked n disk c →
      c ≠ de.inum → (disk c).parent ≠ de.inum) :
    DirTree scope n (update disk d { disk d with entries := putEntry (disk d).entries off ⟨0, []⟩ })
      (fun i => owed i + Owes disk d de.inum i) none := by
  obtain ⟨shape, above⟩ := tree.shape d dir (by simp)
  set dn : Dinode := { disk d with entries := putEntry (disk d).entries off ⟨0, []⟩ }
  obtain ⟨shape', parent, perm⟩ := shape.clearName dn dir found notDot notDotdot dir rfl
  have edits := edits_of_shape dir shape' parent
  have here : update disk d dn d = dn := update_self _ _ _
  generalize update disk d dn = disk' at *
  have removes : Adds (imageLinks disk') (imageLinks disk) d de := edits.removes (here ▸ perm)
  have counts : ∀ i, linkCount n disk i = linkCount n disk' i + if de.inum = i then 1 else 0 :=
    fun i => removes.inDegree (Finset.mem_range.mpr (tree.pos_of_dir dir).2)
  have subs := subdirs_of_adds (fun i => (edits.types i).symm) removes
  constructor
  case toLinks =>
    refine tree.toLinks.fewer (fun i => edits.types i ▸ tree.bound i) (fun c k => removes.mem)
      (fun i => by rw [counts i]; omega) fun i _ => ⟨edits.types i, fun _ => edits.parents i⟩
  case small => exact tree.small
  case names =>
    refine fun named => edits.names (tree.names named) ?_
    rw [here]
    exact (tree.names named d dir).put fun used => absurd rfl used
  case shape =>
    intro i dirI old
    rw [edits.parents]
    by_cases same : i = d
    · subst same
      exact ⟨edits.shape, above⟩
    · rw [edits.elsewhere i same] at dirI ⊢
      exact tree.shape i dirI old
  case files =>
    intro i allocI notDir
    rw [edits.types] at allocI notDir
    have count := tree.files i allocI notDir
    rw [counts] at count
    rw [edits.nlinks, owes_file dir notDir]
    omega
  case dirs =>
    intro i dirI
    rw [edits.types] at dirI
    have count := tree.dirs i dirI
    rw [counts, subs] at count
    rw [edits.nlinks, count, Owes, edits.types]
    omega
  case exact =>
    intro isExact
    exact edits.exact_clear tree.toLinks removes (tree.exact isExact) (empty isExact)
      (noChild isExact)
  case fresh =>
    intro i none
    cases none

end DirTree

end Entry

/-! ### Inodes -/

namespace DirTree

/-- **One inode without links changes** to one without links, which a directory above it may have.
-/
theorem rewrite (tree : DirTree scope n disk owed fresh) (orphan : ¬ Linked n disk x)
    (empty : imageLinks disk x = []) (only : ∀ i, i ≠ x → fresh ≠ some i) (noLinks : dn.links = [])
    (inside : 0 < x ∧ x < n) (kept : (disk x).type = .dir → dn.type = .dir)
    (names : Unambiguous dn.entries) (nlink : dn.nlink.toNat = owed x) (low : owed x < 2 ^ 15)
    (above : scope.exact → (∀ c, (disk c).type = .dir → c ≠ x → (disk c).parent ≠ x) ∧
      (dn.parent = 0 ∨ Linked n disk dn.parent)) :
    DirTree scope n (update disk x dn) owed (if dn.type = .dir then some x else none) := by
  have elsewhere : ∀ i, i ≠ x → update disk x dn i = disk i := fun i other => update_of_ne other _ _
  have here : update disk x dn x = dn := update_self _ _ _
  generalize update disk x dn = disk' at *
  have links : imageLinks disk' = imageLinks disk := by
    funext i
    by_cases same : i = x
    · rw [same, empty, imageLinks, here, noLinks]
    · exact congrArg Dinode.links (elsewhere i same)
  have counts : linkCount n disk' = linkCount n disk := linkCount_congr links
  have none : linkCount n disk x = 0 := by
    by_contra some
    exact orphan (Or.inr (Nat.pos_of_ne_zero some))
  have same : ∀ {i}, Linked n disk i → disk' i = disk i :=
    fun {i} isLinked => elsewhere i fun isX => orphan (isX ▸ isLinked)
  have subs : subdirs disk' = subdirs disk := by
    funext i
    unfold subdirs
    rw [links]
    exact List.countP_congr fun e member => by rw [same (tree.linked_of_mem member)]
  have bound : ∀ i, (disk' i).type ≠ .free → 0 < i ∧ i < n := by
    intro i alloc
    by_cases isX : i = x
    · exact isX ▸ inside
    · rw [elsewhere i isX] at alloc
      exact tree.bound i alloc
  constructor
  case toLinks =>
    refine tree.toLinks.fewer bound (fun d e => by rw [links]; exact id) (fun i => by rw [counts])
      fun i isLinked => ?_
    rw [same isLinked]
    exact ⟨rfl, fun _ => rfl⟩
  case small => exact tree.small
  case names =>
    intro named i dir
    by_cases isX : i = x
    · rw [isX, here]
      exact names
    · rw [elsewhere i isX] at dir ⊢
      exact tree.names named i dir
  case shape =>
    intro i dir old
    have other : i ≠ x := by
      rintro rfl
      rw [here] at dir
      exact old (if_pos dir)
    rw [elsewhere i other] at dir ⊢
    exact tree.shape i dir (only i other)
  case files =>
    intro i alloc notDir
    rw [counts]
    by_cases isX : i = x
    · rw [isX, here, none]
      omega
    · rw [elsewhere i isX] at alloc notDir ⊢
      exact tree.files i alloc notDir
  case dirs =>
    intro i dir
    rw [counts, subs]
    by_cases isX : i = x
    · rw [isX, here, nlink, none, subdirs, empty, if_neg fun isRoot => orphan (Or.inl isRoot)]
      exact (Nat.zero_add _).symm
    · rw [elsewhere i isX] at dir ⊢
      exact tree.dirs i dir
  case exact =>
    intro isExact
    have exact := tree.exact isExact
    obtain ⟨noChild, parent⟩ := above isExact
    refine exact.keep links (fun i alloc notDir => ?_) fun d dir => ?_
    · by_cases isX : i = x
      · rw [isX, here, none]
        omega
      · rw [elsewhere i isX] at alloc notDir ⊢
        exact exact.files i alloc notDir
    · by_cases isX : d = x
      · subst isX
        rw [here] at dir ⊢
        refine Or.inr ⟨if_pos dir, orphan, empty, noChild, fun b dirB isB => ?_⟩
        obtain zero | linked := parent
        · have pos := (bound b (by rw [dirB]; decide)).1
          omega
        · exact isB ▸ linked
      · rw [elsewhere d isX] at dir ⊢
        refine Or.inl ⟨dir, rfl, fun _ => ⟨only d isX, fun dirP => ?_⟩⟩
        by_cases isP : (disk d).parent = x
        · rw [isP, here]
          exact kept (isP ▸ dirP)
        · rwa [elsewhere _ isP]
  case fresh =>
    intro i isFresh
    split_ifs at isFresh with dir
    obtain rfl := Option.some.inj isFresh
    unfold Linked
    rw [here, counts, links]
    exact ⟨dir, orphan, empty⟩

/-- The directory that is fresh gets entries that are no links. -/
theorem putFresh {entries : List Dirent} (tree : DirTree scope n disk owed (some x))
    (names : Unambiguous entries) (noLinks : ∀ e ∈ entries, ¬ e.IsLink) (low : owed x < 2 ^ 15)
    (above : scope.exact → Linked n disk ({ disk x with entries := entries } : Dinode).parent) :
    DirTree scope n (update disk x { disk x with entries := entries }) owed (some x) := by
  obtain ⟨dir, orphan, empty⟩ := tree.fresh x rfl
  have type : ({ disk x with entries := entries } : Dinode).type = .dir := dir
  have links : ({ disk x with entries := entries } : Dinode).links = [] := by
    rw [links_of_dir type]
    exact List.filter_eq_nil_iff.mpr fun e member => by simpa using noLinks e member
  have count : (disk x).nlink.toNat = owed x := by
    have count := tree.dirs x dir
    unfold Linked at orphan
    push Not at orphan
    rw [subdirs, empty, if_neg orphan.1, Nat.le_zero.mp orphan.2] at count
    exact count.trans (Nat.zero_add _)
  have written := tree.rewrite orphan empty (fun i other same => other (Option.some.inj same).symm)
    links (tree.pos_of_dir dir) id names count low fun isExact =>
      ⟨((tree.exact isExact).orphan x dir orphan).2, Or.inr (above isExact)⟩
  rwa [if_pos type] at written

/-- A free inode is taken, with no entries and no links. -/
theorem allocate (tree : DirTree scope n disk owed none) (free : (disk x).type = .free)
    (inside : 0 < x ∧ x < n) (entries : dn.entries = []) (nlink : dn.nlink = 0)
    (owes : owed x = 0) :
    DirTree scope n (update disk x dn) owed (if dn.type = .dir then some x else none) := by
  refine tree.rewrite (tree.not_linked_of_free free) ?_ (fun _ _ => nofun) ?_ inside ?_ ?_ ?_ ?_
    fun isExact => ⟨fun c dir _ parent => ?_, Or.inl ?_⟩
  · exact links_of_not_dir (by rw [free]; decide)
  · by_cases dir : dn.type = .dir
    · rw [links_of_dir dir, entries]
      rfl
    · exact links_of_not_dir dir
  · intro dir
    rw [free] at dir
    cases dir
  · rw [entries]
    exact unambiguous_nil
  · rw [nlink, owes]
    rfl
  · rw [owes]
    decide
  · have above := (tree.exact isExact).parentDir c dir (by simp)
    rw [parent, free] at above
    cases above
  · rw [Dinode.parent, entries]

/-- An inode without a link count is freed, with the links that it has. -/
theorem release (tree : DirTree scope n disk owed none) (alloc : (disk x).type ≠ .free)
    (zero : (disk x).nlink = 0) (freed : dn.type = .free) :
    DirTree scope n (update disk x dn) owed none := by
  have orphan := tree.unlinked alloc zero
  have elsewhere : ∀ i, i ≠ x → update disk x dn i = disk i := fun i other => update_of_ne other _ _
  have here : update disk x dn x = dn := update_self _ _ _
  generalize update disk x dn = disk' at *
  have other : ∀ {i}, (disk' i).type ≠ .free → i ≠ x := by
    rintro i allocI rfl
    rw [here] at allocI
    exact allocI freed
  have otherDir : ∀ {i}, (disk' i).type = .dir → i ≠ x := fun dir => other (by rw [dir]; decide)
  have gone : imageLinks disk' x = [] := by
    show (disk' x).links = []
    rw [here]
    exact links_of_not_dir (by rw [freed]; decide)
  have kept : ∀ d, d ≠ x → imageLinks disk' d = imageLinks disk d :=
    fun d ne => congrArg Dinode.links (elsewhere d ne)
  have sub : ∀ d, ∀ e ∈ imageLinks disk' d, e ∈ imageLinks disk d := by
    intro d e member
    by_cases same : d = x
    · rw [same, gone] at member
      cases member
    · rwa [kept d same] at member
  have counts : ∀ i, linkCount n disk' i + (imageLinks disk x).countP (fun e => e.inum = i) =
    linkCount n disk i :=
    fun i => inDegree_clear gone kept (Finset.mem_range.mpr (tree.bound x alloc).2)
  have linkNe : ∀ {d : Nat} {e : Dirent}, e ∈ imageLinks disk d → e.inum ≠ x :=
    fun member isX => orphan (isX ▸ tree.linked_of_mem member)
  -- the inode has no subdirectories
  have countsDir : ∀ i, (disk i).type = .dir → linkCount n disk' i = linkCount n disk i := by
    intro i dir
    have none : (imageLinks disk x).countP (fun e => e.inum = i) = 0 := by
      by_contra some
      obtain ⟨e, member, names⟩ := List.countP_pos_iff.mp (Nat.pos_of_ne_zero some)
      have count := tree.dirs x (isDir_of_mem member)
      rw [zero, show (0 : BitVec 16).toNat = 0 from rfl] at count
      have counted : 0 < subdirs disk x := by
        refine List.countP_pos_iff.mpr ⟨e, member, ?_⟩
        rw [of_decide_eq_true names, dir]
        rfl
      omega
    have count := counts i
    omega
  constructor
  case toLinks =>
    refine tree.toLinks.fewer (fun i allocI => ?_) sub (fun i => by have count := counts i; omega)
      fun i linked => ?_
    · rw [elsewhere i (other allocI)] at allocI
      exact tree.bound i allocI
    · rw [elsewhere i fun isX => orphan (isX ▸ linked)]
      exact ⟨rfl, fun _ => rfl⟩
  case small => exact tree.small
  case names =>
    intro named i dirI
    have ne := otherDir dirI
    rw [elsewhere i ne] at dirI ⊢
    exact tree.names named i dirI
  case shape =>
    intro i dirI
    have ne := otherDir dirI
    rw [elsewhere i ne] at dirI ⊢
    exact tree.shape i dirI
  case files =>
    intro i allocI notDir
    have ne := other allocI
    rw [elsewhere i ne] at allocI notDir ⊢
    have count := tree.files i allocI notDir
    have fewer := counts i
    omega
  case dirs =>
    intro i dirI
    have ne := otherDir dirI
    rw [elsewhere i ne] at dirI ⊢
    have subs : subdirs disk' i = subdirs disk i := by
      unfold subdirs
      rw [kept i ne]
      exact List.countP_congr fun e member => by rw [elsewhere _ (linkNe member)]
    rw [countsDir i dirI, subs]
    exact tree.dirs i dirI
  case exact =>
    intro isExact
    have exact := tree.exact isExact
    have empty : imageLinks disk x = [] := by
      by_cases dir : (disk x).type = .dir
      · exact (exact.orphan x dir orphan).1
      · exact links_of_not_dir dir
    have links : imageLinks disk' = imageLinks disk := by
      funext i
      by_cases same : i = x
      · rw [same, gone, empty]
      · exact kept i same
    refine exact.keep links (fun i allocI notDir => ?_) fun d dirD => Or.inl ?_
    · have ne := other allocI
      rw [elsewhere i ne] at allocI notDir ⊢
      exact exact.files i allocI notDir
    · have ne := otherDir dirD
      rw [elsewhere d ne] at dirD ⊢
      refine ⟨dirD, rfl, fun _ => ⟨nofun, fun above => ?_⟩⟩
      rw [elsewhere _ fun isX => (exact.orphan x (isX ▸ above) orphan).2 d dirD ne isX]
      exact above
  case fresh =>
    intro i none
    cases none

end DirTree

end Xv6
