/-
**Path resolution** (`kernel/fs.c`: `skipelem`, `namex`, `namei`, `nameiparent`).

The components of a path, `comps`, are its pieces between slashes that are not empty, each cut to
`DIRSIZ` bytes. Repeated `skipelem` gives them in order (`skips_comps`), so the loop of `namex` on
the bytes of the path (`namexLoop`) is the walk over them (`namexLoop_eq`).

`Fs.descend` folds the lookup in a directory over components. `namex` returns the inode that it
leads to (`Xv6.Fs.Walk`). It ends for every path, and the only panic is `iget: no inodes`, in a
table with at most one free entry: no inode is locked between two rounds (`namexFrom_returns`).
-/

import Xv6.Fs.Integrity

namespace Xv6

open Lib Function

variable {P : Type}

/-! ### The components of a path -/

/-- **The components of a path.** -/
def comps (path : List Byte) : List Name :=
  ((path.splitOnP (· == slash)).filter (· ≠ [])).map (List.take DIRSIZ)

/-- Repeated calls of `skipelem` give the elements and then 0. -/
inductive Skips : List Byte → List Name → Prop
  | done {path : List Byte} (ends : skipelem path = none) : Skips path []
  | next {path rest : List Byte} {name : Name} {names : List Name}
      (elem : skipelem path = some (name, rest)) (more : Skips rest names) :
      Skips path (name :: names)

variable {i : Fin NINODE} {path piece : List Byte} {x : Nat} {name : Name}

theorem splitOnP_piece {more : List Byte} (none : slash ∉ piece) :
    (piece ++ slash :: more).splitOnP (· == slash) = piece :: more.splitOnP (· == slash) := by
  refine @List.splitOnP_append_cons_of_forall_mem _ (· == slash) _ (fun c member => ?_) slash
    (beq_self_eq_true slash) more
  exact beq_eq_false_iff_ne.mpr fun same => none (same ▸ member)

theorem comps_slash (path : List Byte) : comps (slash :: path) = comps path := by
  have split := @splitOnP_piece [] path List.not_mem_nil
  rw [List.nil_append] at split
  rw [comps, split]
  rfl

theorem comps_dropSlashes (path : List Byte) : comps (path.dropWhile (· = slash)) = comps path := by
  induction path with
  | nil => rfl
  | cons c rest ih =>
    by_cases isSlash : c = slash
    · rw [List.dropWhile_cons_of_pos (by simpa using isSlash), ih, isSlash, comps_slash]
    · rw [List.dropWhile_cons_of_neg (by simpa using isSlash)]

theorem comps_piece {tail : List Byte} (some : piece ≠ []) (none : slash ∉ piece)
    (stops : ∀ c ∈ tail.head?, c = slash) :
    comps (piece ++ tail) = piece.take DIRSIZ :: comps tail := by
  have kept : [piece].filter (· ≠ []) = [piece] := by simpa using some
  cases tail with
  | nil =>
    have split : piece.splitOnP (· == slash) = [piece] := by
      refine List.splitOnP_eq_singleton fun c member => ?_
      exact beq_eq_false_iff_ne.mpr fun same => none (same ▸ member)
    rw [List.append_nil, comps, split, kept]
    rfl
  | cons c more =>
    obtain rfl := stops c rfl
    rw [comps_slash, comps, splitOnP_piece none, ← List.singleton_append, List.filter_append, kept]
    rfl

/-- **One call of `skipelem`** takes the first component. -/
theorem comps_of_skipelem {rest : List Byte} (elem : skipelem path = some (name, rest)) :
    comps path = name :: comps rest ∧ rest.length < path.length := by
  unfold skipelem at elem
  have shorter := (List.dropWhile_suffix (fun c : Byte => decide (c = slash)) (l := path)).length_le
  rw [← comps_dropSlashes path]
  cases skipped : path.dropWhile (· = slash) with
  | nil =>
    rw [skipped] at elem
    cases elem
  | cons c more =>
    rw [skipped] at elem shorter
    obtain ⟨rfl, rfl⟩ := Prod.mk.inj (Option.some.inj elem)
    have isPiece : c ≠ slash := by
      have first := List.head?_dropWhile_not (fun c : Byte => decide (c = slash)) path
      rw [skipped] at first
      simpa using first
    have piece : (c :: more).takeWhile (· ≠ slash) = c :: more.takeWhile (· ≠ slash) :=
      List.takeWhile_cons_of_pos (by simpa using isPiece)
    have parts :=
      List.takeWhile_append_dropWhile (p := fun x : Byte => decide (x ≠ slash)) (l := c :: more)
    have tail := (List.dropWhile_suffix (fun c : Byte => decide (c = slash))
      (l := (c :: more).dropWhile (· ≠ slash))).length_le
    have lengths := congrArg List.length parts
    rw [List.length_append, piece, List.length_cons] at lengths
    refine ⟨?_, by omega⟩
    rw [comps_dropSlashes]
    conv_lhs => rw [← parts]
    refine comps_piece (piece ▸ List.cons_ne_nil _ _) (fun member => ?_) fun d first => ?_
    · simpa using List.mem_takeWhile_imp member
    · have stops := List.head?_dropWhile_not (fun c : Byte => decide (c ≠ slash)) (c :: more)
      rw [Option.mem_def.mp first] at stops
      simpa using stops

theorem comps_of_skipelem_none (ends : skipelem path = none) : comps path = [] := by
  unfold skipelem at ends
  rw [← comps_dropSlashes]
  cases skipped : path.dropWhile (· = slash) with
  | nil => rfl
  | cons c more =>
    rw [skipped] at ends
    cases ends

/-- **Repeated `skipelem` yields the components.** The induction is on the length of the path. -/
theorem skips_comps (path : List Byte) : Skips path (comps path) := by
  induction len : path.length using Nat.strongRecOn generalizing path with
  | _ n ih =>
    cases elem : skipelem path with
    | none =>
      rw [comps_of_skipelem_none elem]
      exact .done elem
    | some r =>
      obtain ⟨name, rest⟩ := r
      obtain ⟨first, shorter⟩ := comps_of_skipelem elem
      rw [first]
      exact .next elem (ih _ (by omega) rest rfl)

theorem elements_eq_comps {fuel : Nat} (enough : path.length ≤ fuel) :
    elements fuel path = comps path := by
  induction fuel generalizing path with
  | zero =>
    rw [List.length_eq_zero_iff.mp (Nat.le_zero.mp enough)]
    rfl
  | succ fuel ih =>
    unfold elements
    cases elem : skipelem path with
    | none => exact (comps_of_skipelem_none elem).symm
    | some r =>
      obtain ⟨name, rest⟩ := r
      obtain ⟨first, shorter⟩ := comps_of_skipelem elem
      rw [first]
      exact congrArg (name :: ·) (ih (by omega))

/-! ### The loop of `namex` on the bytes of the path -/

/-- The loop of `namex`: `rest = []` is the test `*path == '\0'`. -/
def namexLoop (parent : Bool) (ip : Fin NINODE) (path : List Byte) :
    FsM P (Option (Fin NINODE × Name)) :=
  match _elem : skipelem path with
  | none => do
    if parent then
      iput ip
      return none
    return some (ip, [])
  | some (name, rest) => do
    ilock ip
    let s ← get
    if (s.itable ip).type ≠ .dir then
      iunlockput ip
      return none
    if parent ∧ rest = [] then
      iunlock ip
      return some (ip, name)
    match ← dirlookup ip name with
    | none =>
      iunlockput ip
      return none
    | some (next, _) =>
      iunlockput ip
      namexLoop parent next rest
termination_by path.length
decreasing_by exact (comps_of_skipelem ‹_›).2

theorem rest_eq_nil_iff {rest : List Byte} (elem : skipelem path = some (name, rest)) :
    comps rest = [] ↔ rest = [] := by
  refine ⟨fun none => ?_, fun none => none ▸ rfl⟩
  have skipped : rest.dropWhile (· = slash) = rest := by
    unfold skipelem at elem
    split at elem
    · cases elem
    · rw [← (Prod.mk.inj (Option.some.inj elem)).2, List.dropWhile_idempotent]
  cases next : skipelem rest with
  | none =>
    unfold skipelem at next
    rw [skipped] at next
    cases rest with
    | nil => rfl
    | cons c more => cases next
  | some r =>
    obtain ⟨after, more⟩ := r
    rw [(comps_of_skipelem next).1] at none
    cases none

theorem namexLoop_eq (parent : Bool) (path : List Byte) (ip : Fin NINODE) :
    namexLoop (P := P) parent ip path = namexFrom parent ip (comps path) := by
  induction len : path.length using Nat.strongRecOn generalizing path ip with
  | _ n ih =>
    rw [namexLoop]
    split
    case h_1 ends => rw [comps_of_skipelem_none ends, namexFrom]
    case h_2 name rest elem =>
      obtain ⟨first, shorter⟩ := comps_of_skipelem elem
      rw [first, namexFrom]
      refine bind_congr fun _ => bind_congr fun s => ?_
      simp only [rest_eq_nil_iff elem]
      split_ifs
      · rfl
      · rfl
      · refine bind_congr fun found => ?_
        cases found with
        | none => rfl
        | some found => exact bind_congr fun _ => ih _ (len ▸ shorter) rest found.1 rfl

theorem namex_eq (p : P) (path : List Byte) (parent : Bool) :
    namex p path parent = namexStart p path >>= fun ip => namexLoop parent ip path := by
  simp only [namexLoop_eq, ← elements_eq_comps (Nat.le_refl path.length)]
  rfl

/-! ### The lookup returns -/

/-- **The inode table agrees with the disk**: an entry in use is the only one for its inode, which
is allocated, and a copy that is valid is up to date. The copy of an unlinked inode is valid. -/
structure TableInv (s : Fs P) : Prop where
  unique : ∀ i j, 0 < (s.itable i).ref → 0 < (s.itable j).ref →
    (s.itable i).inum = (s.itable j).inum → i = j
  alloc : ∀ i, 0 < (s.itable i).ref → (s.disk (s.itable i).inum).type ≠ .free
  copy : ∀ i, 0 < (s.itable i).ref → (s.itable i).valid = true →
    (s.itable i).Copies (s.disk (s.itable i).inum)
  zero : ∀ i, 0 < (s.itable i).ref → (s.disk (s.itable i).inum).nlink = 0 →
    (s.itable i).valid = true

structure Walkable (s : Fs P) : Prop where
  table : TableInv s
  entry : ∀ d, (s.disk d).type = .dir → ∀ e ∈ (s.disk d).entries, e.inum ≠ 0 →
    (s.disk e.inum).type ≠ .free
  root : (s.disk ROOTINO).type ≠ .free
  unlinked : ∀ x, (s.disk x).type ≠ .free → (s.disk x).nlink = 0 → s.used x

/-- **A state in which a process looks up a path**: the table agrees with the disk, nothing is
locked, and the process has its working directory. -/
structure Fs.Ready (s : Fs P) (p : P) : Prop where
  walkable : Walkable s
  refs : ∀ i, 0 ≤ (s.itable i).ref
  idle : s.Locks none
  cwd : ∃ i, s.cwd p = some i ∧ 0 < (s.itable i).ref

variable {s t : Fs P} {p : P}

/-- If nothing is lost, every lookup can be followed on the disk. -/
theorem Sound.walkable {scope : Scope} {owed : Nat → Nat} (sound : Sound scope owed none s)
    (isExact : scope.exact) : Walkable s where
  table := by
    refine ⟨sound.unique, sound.alloc isExact, fun i ref valid => (sound.copy i ref valid).2, ?_⟩
    exact fun i ref => sound.zero i ref (sound.alloc isExact i ref)
  entry := fun d dir e member used => sound.tree.entry_alloc isExact dir (by simp) member used
  root := by
    rw [sound.tree.rootDir]
    decide
  unlinked := sound.unlinked

/-- What is known where a lookup starts in such a state. -/
def readySearch : Search where
  exact := True
  calm := True
  image := fun disk => (disk ROOTINO).type ≠ .free ∧ ∀ d, (disk d).type = .dir →
    ∀ e ∈ (disk d).entries, e.inum ≠ 0 → (disk e.inum).type ≠ .free
  root := fun _ _ known => known.1
  entry := fun _ _ d e known dir member used => known.2 d dir e member used
  frees := fun lost => absurd trivial lost

theorem Fs.Ready.starts (ready : s.Ready p) : readySearch.Starts s := by
  obtain ⟨⟨table, entry, root, unlinked⟩, refs, idle, _⟩ := ready
  refine ⟨⟨table.unique, fun _ => table.alloc, fun i ref valid => ?_,
    fun i ref _ => table.zero i ref, unlinked⟩, ⟨root, entry⟩, fun _ => ⟨idle, refs⟩⟩
  exact ⟨table.alloc i ref, table.copy i ref valid⟩

/-! ### The fold -/

/-- The inode that a name stands for in a directory. -/
def enter (disk : Nat → Dinode) (x : Nat) (name : Name) : Option Nat :=
  if (disk x).type = .dir then (findEntry (disk x).entries name).map fun e => e.2.inum else none

/-- **The fold of directory lookup** over names, from where the path starts. -/
def Fs.descend (s : Fs P) (p : P) (path : List Byte) (names : List Name) : Option Nat :=
  (s.startOf p path).bind fun x => names.foldlM (enter s.disk) x

theorem resolve_false (disk : Nat → Dinode) (names : List Name) :
    ∀ x, resolve disk false x names = (names.foldlM (enter disk) x).map fun y => (y, []) := by
  induction names with
  | nil => exact fun x => rfl
  | cons name rest ih =>
    intro x
    rw [List.foldlM_cons, enter]
    by_cases dir : (disk x).type = .dir
    · rw [resolve, if_neg (not_not.mpr dir), if_neg (fun both => Bool.false_ne_true both.1),
        if_pos dir]
      cases findEntry (disk x).entries name with
      | none => rfl
      | some e => exact ih e.2.inum
    · rw [resolve, if_pos dir, if_neg dir]
      rfl

theorem resolve_true (disk : Nat → Dinode) (last : Name) (front : List Name) :
    ∀ x, resolve disk true x (front ++ [last]) =
      ((front.foldlM (enter disk) x).filter fun d => (disk d).type = .dir).map
      fun d => (d, last) := by
  induction front with
  | nil =>
    intro x
    by_cases dir : (disk x).type = .dir
    · simp [resolve, dir]
    · simp [resolve, dir]
  | cons name rest ih =>
    intro x
    rw [List.foldlM_cons, enter, List.cons_append]
    have notLast : ¬ (true = true ∧ rest ++ [last] = []) := by simp
    by_cases dir : (disk x).type = .dir
    · rw [resolve, if_neg (not_not.mpr dir), if_neg notLast, if_pos dir]
      cases findEntry (disk x).entries name with
      | none => rfl
      | some e => exact ih e.2.inum
    · rw [resolve, if_pos dir, if_neg dir]
      rfl

theorem foldlM_eq_none {A B : Type} {f : B → A → Option B} (l : List A) :
    ∀ b, l.foldlM f b = none ↔
      ∃ front a back c, l = front ++ a :: back ∧ front.foldlM f b = some c ∧ f c a = none := by
  induction l with
  | nil =>
    intro b
    simp
  | cons a l ih =>
    intro b
    rw [List.foldlM_cons]
    cases next : f b a with
    | none => exact ⟨fun _ => ⟨[], a, l, b, rfl, rfl, next⟩, fun _ => rfl⟩
    | some c =>
      refine (ih c).trans ⟨?_, ?_⟩
      · rintro ⟨front, x, back, d, rfl, walked, stops⟩
        refine ⟨a :: front, x, back, d, rfl, ?_, stops⟩
        rw [List.foldlM_cons, next]
        exact walked
      · rintro ⟨front, x, back, d, split, walked, stops⟩
        cases front with
        | nil =>
          obtain ⟨rfl, rfl⟩ := List.cons.inj split
          obtain rfl := Option.some.inj walked
          rw [next] at stops
          cases stops
        | cons y front =>
          obtain ⟨rfl, rfl⟩ := List.cons.inj split
          rw [List.foldlM_cons, next] at walked
          exact ⟨front, x, back, d, rfl, walked, stops⟩

theorem enter_eq_none {disk : Nat → Dinode} :
    enter disk x name = none ↔ (disk x).type ≠ .dir ∨ findEntry (disk x).entries name = none := by
  unfold enter
  split_ifs with dir
  · simp [dir]
  · simp [dir]

/-- A lookup from `s` ended with this value and changed nothing on the disk, or in the panic for a
table without room. -/
def Fs.Ends {A V : Type} (s : Fs P) (outcome : Except FsPanic (A × Fs P)) (seen : A → Fs P → V)
    (value : V) :
    Prop :=
  match outcome with
  | .ok (r, u) => seen r u = value ∧ u.disk = s.disk
  | .error e => s.NoRoom e

/-- The inode that `namei` returned. -/
def inumOf (r : Option (Fin NINODE)) (u : Fs P) : Option Nat := r.map fun i => (u.itable i).inum

/-- The inode that `nameiparent` returned, and the name it set. -/
def parentOf (r : Option (Fin NINODE × Name)) (u : Fs P) : Option (Nat × Name) :=
  r.map fun a => ((u.itable a.1).inum, a.2)

theorem namex_ends (ready : s.Ready p) (path : List Byte) (parent : Bool) :
    s.Ends (namex p path parent s) parentOf (s.lookup p path parent) := by
  obtain ⟨j, isCwd, ref⟩ := ready.cwd
  have cwd : s.CwdHeld p := by
    intro i here
    rwa [Option.some.inj (here.symm.trans isCwd)]
  have has : s.cwd p ≠ none := by
    rw [isCwd]
    exact nofun
  have ends := namex_walk ready.starts cwd (fun _ => has) path parent s rfl
  unfold Fs.Ends
  revert ends
  cases namex p path parent s with
  | ok r => exact fun ends => ⟨ends.2 trivial, ends.1.same trivial⟩
  | error e => exact fun stops => (stops trivial).2 trivial

theorem lookup_false (path : List Byte) :
    (s.lookup p path false).map Prod.fst = s.descend p path (comps path) := by
  rw [Fs.lookup, Fs.descend, Option.map_bind, elements_eq_comps (Nat.le_refl _)]
  refine congrArg _ (funext fun x => ?_)
  rw [Function.comp_apply, resolve_false, Option.map_map]
  exact Option.map_id'

theorem lookup_true_nil (none : comps path = []) : s.lookup p path true = .none := by
  rw [Fs.lookup, elements_eq_comps (Nat.le_refl _), none]
  cases s.startOf p path with
  | none => rfl
  | some x => rfl

theorem descend_snoc (path : List Byte) (front : List Name) (last : Name) :
    s.descend p path (front ++ [last]) = (s.descend p path front).bind
      fun d => enter s.disk d last := by
  unfold Fs.descend
  rw [Option.bind_assoc]
  refine congrArg _ (funext fun x => ?_)
  rw [List.foldlM_append]
  simp

theorem lookup_true {front : List Name} {last : Name} (split : comps path = front ++ [last]) :
    s.lookup p path true =
      ((s.descend p path front).filter fun d => (s.disk d).type = .dir).map fun d => (d, last) := by
  rw [Fs.lookup, Fs.descend, elements_eq_comps (Nat.le_refl _), split]
  cases s.startOf p path with
  | none => rfl
  | some x => exact resolve_true s.disk last front x

theorem namei_ends (ready : s.Ready p) (path : List Byte) :
    s.Ends (namei p path s) inumOf (s.descend p path (comps path)) := by
  have ends := namex_ends ready path false
  rw [namei, run_bind, ← lookup_false]
  revert ends
  unfold Fs.Ends
  cases namex p path false s with
  | error e => exact id
  | ok r =>
    rintro ⟨value, disk⟩
    refine ⟨?_, disk⟩
    rw [← value, parentOf, Option.map_map]
    exact Option.map_map _ _ _

theorem descend_eq_none (ready : s.Ready p) (path : List Byte) (names : List Name) :
    s.descend p path names = none ↔ ∃ front name back d, names = front ++ name :: back ∧
      s.descend p path front = some d ∧
      ((s.disk d).type ≠ .dir ∨ findEntry (s.disk d).entries name = none) := by
  have start : ∃ x, s.startOf p path = some x := by
    obtain ⟨i, isCwd, _⟩ := ready.cwd
    unfold Fs.startOf
    split_ifs
    · exact ⟨ROOTINO, rfl⟩
    · exact ⟨_, by rw [isCwd]; rfl⟩
  obtain ⟨x, start⟩ := start
  simp only [Fs.descend, start, Option.bind_some, foldlM_eq_none, enter_eq_none]

/-- **Path resolution.** Repeated `skipelem` yields the components of the path and then 0, and the
walk over them is the loop of `namex` on the bytes. `namei` returns the inode that the fold of
directory lookup over the components leads to, and 0 iff a step of it starts at something that is
not a directory or finds no entry. `nameiparent` returns 0 for a path without components, else the
directory that all but the last lead to, with the last as the name; so `namei` is the lookup of that
name in it. Every lookup returns, or panics with `iget: no inodes` in a table with at most one free
entry. -/
theorem path_resolution (ready : s.Ready p) (path : List Byte) :
    Skips path (comps path) ∧
    (∀ parent, namex p path parent = namexStart p path >>= fun ip => namexLoop parent ip path) ∧
    s.Ends (namei p path s) inumOf (s.descend p path (comps path)) ∧
    (s.descend p path (comps path) = none ↔ ∃ front name back d,
      comps path = front ++ name :: back ∧
      s.descend p path front = some d ∧
      ((s.disk d).type ≠ .dir ∨ findEntry (s.disk d).entries name = none)) ∧
    (comps path = [] → s.Ends (nameiparent p path s) parentOf none) ∧
    (∀ front last, comps path = front ++ [last] → s.Ends (nameiparent p path s) parentOf
      (((s.descend p path front).filter fun d => (s.disk d).type = .dir).map fun d => (d, last))) ∧
    ∀ d name u, nameiparent p path s = .ok (some (d, name), u) →
      s.Ends (namei p path s) inumOf (enter s.disk (u.itable d).inum name) := by
  have parent := namex_ends ready path true
  refine ⟨skips_comps path, namex_eq p path, namei_ends ready path, descend_eq_none ready path _,
    fun none => ?_, fun front last split => ?_, fun d name u done => ?_⟩
  · rwa [lookup_true_nil none] at parent
  · rwa [lookup_true split] at parent
  · -- the parent was found, so there is a last component
    rw [show namex p path true s = _ from done] at parent
    have found : s.lookup p path true = some ((u.itable d).inum, name) := parent.1.symm
    rcases List.eq_nil_or_concat (comps path) with none | ⟨front, last, split⟩
    · rw [lookup_true_nil none] at found
      cases found
    · rw [List.concat_eq_append] at split
      rw [lookup_true split, Option.map_eq_some_iff] at found
      obtain ⟨x, walked, same⟩ := found
      obtain ⟨rfl, rfl⟩ := Prod.mk.inj same
      have ends := namei_ends ready path
      rwa [split, descend_snoc, (Option.filter_eq_some_iff.mp walked).1] at ends

theorem path_resolution_boot :
    (Fs.boot 10 emptyImage ()).Ready () ∧ comps [slash, slash, 0x61, slash] = [[0x61]] ∧
    (Fs.boot 10 emptyImage ()).Ends
    (namei () [slash, slash, 0x61, slash] (Fs.boot 10 emptyImage ()))
      inumOf none := by
  have inv : RunInv lossless (Fs.boot 10 emptyImage ()) :=
    boot_runInv (emptyImage_wellFormed (by decide) (by decide)) False.elim ()
  have ready : (Fs.boot 10 emptyImage ()).Ready () :=
    ⟨inv.sound.walkable trivial, by decide, by unfold Fs.Locks; decide, ⟨0, by decide⟩, by decide,
      by decide⟩
  exact ⟨ready, by decide, (path_resolution ready _).2.2.1⟩

/-- An image with 50 files in the root. -/
def crowdedImage (x : Nat) : Dinode :=
  if x = ROOTINO then ⟨.dir, 0, 0, 1, ⟨ROOTINO, dot⟩ :: ⟨ROOTINO, dotdot⟩ ::
    (List.range 50).map fun n => ⟨n + 2, [BitVec.ofNat 8 (0x61 + n)]⟩⟩
  else if x < 52 then ⟨.file, 0, 0, 1, []⟩ else ⟨.free, 0, 0, 0, []⟩

/-- All files but the last are open. -/
def crowdedFs : Fs Unit :=
  { Fs.boot 60 crowdedImage () with
    itable := fun i => ⟨i + 1, 1, false, true, (crowdedImage (i + 1)).type, 0, 0, 1⟩ }

/-- **The kernel panics** on the path of the last file. -/
theorem crowded_lookup_panics : crowdedFs.Ready () ∧
    crowdedFs.descend () [slash, 0x92] (comps [slash, 0x92]) = some 51 ∧
    namei () [slash, 0x92] crowdedFs = .error .igetNoInodes := by
  have files : ∀ x, (crowdedImage x).type ≠ .free → (crowdedImage x).nlink = 1 := by
    intro x alloc
    unfold crowdedImage at alloc ⊢
    split_ifs at alloc ⊢ with root small
    · rfl
    · rfl
    · exact absurd rfl alloc
  have devices : ∀ x, (crowdedImage x).major = 0 ∧ (crowdedImage x).minor = 0 := by
    intro x
    unfold crowdedImage
    split_ifs <;> exact ⟨rfl, rfl⟩
  have alive : ∀ i : Fin NINODE, (crowdedImage (i + 1)).type ≠ .free := by decide
  have table : TableInv crowdedFs := by
    refine ⟨fun i j _ _ same => Fin.ext (Nat.succ.inj same), fun i _ => alive i, fun i _ _ => ?_,
      fun i _ zero => rfl⟩
    exact ⟨rfl, (devices _).1.symm, (devices _).2.symm, (files _ (alive i)).symm⟩
  refine ⟨⟨⟨table, fun d dir e member used => ?_, by decide, fun x alloc zero => ?_⟩,
    fun _ => zero_le_one, fun _ => rfl, ⟨0, by decide⟩, rfl, by decide⟩, ?_, ?_⟩
  · obtain rfl : d = ROOTINO := by
      by_contra other
      have type : (crowdedImage d).type = .dir := dir
      unfold crowdedImage at type
      rw [if_neg other] at type
      split_ifs at type
    have all : ∀ e ∈ (crowdedImage ROOTINO).entries, (crowdedImage e.inum).type ≠ .free := by decide
    exact all e member
  · exact absurd ((files x alloc).symm.trans zero) (by decide)
  · decide
  · rfl

end Xv6
