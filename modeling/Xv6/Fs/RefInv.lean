/-
**Reference counts match holders.**

`RefInv c live s k h`: the counts of the inode table and of the file table agree with the pointers
to their entries, up to `k` and `h`, the references that the running call has taken and not yet
given back. Between calls both are 0. Each change of a table or of a pointer moves `k` or `h`, and
each call brings them back to 0 on every one of its paths.
-/

import Xv6.Fs.Refs
import Xv6.Lib.Run

set_option linter.unusedSectionVars false

namespace Xv6

open Lib Function

variable {P : Type}

/-! ### What an open file refers to -/

def File.inode (f : File) : Option (Fin NINODE) :=
  match f.type with
  | .inode | .device => some f.ip
  | .none | .pipe => none

/-- The end of a pipe that an open file stands for: its page, and whether it is the write end. -/
def File.pipeEnd (f : File) : Option (Nat × Bool) :=
  match f.type with
  | .pipe => some (f.pipe, f.writable)
  | .none | .inode | .device => none

def Pipe.isOpen (pi : Pipe) (writable : Bool) : Bool :=
  if writable then pi.writeopen else pi.readopen

/-- Is an end of the pipe in a page open? -/
def Fs.endOpen (s : Fs P) (e : Nat × Bool) : Bool := (s.pipes e.1).any fun pi => pi.isOpen e.2

def Fs.slots (s : Fs P) (x : P × Fin NOFILE) : Option (Fin NFILE) := s.ofile x.1 x.2

/-- **Pipes and their files.** An end is open as long as there is a file for it, there is one file
for each end, and a page is a pipe as long as one end is open. -/
structure PipeInv (s : Fs P) : Prop where
  ends : ∀ e, s.endOpen e = true ↔ ∃ f, (s.ftable f).pipeEnd = some e
  unique : ∀ f g e, (s.ftable f).pipeEnd = some e → (s.ftable g).pipeEnd = some e → f = g
  live : ∀ page pi, s.pipes page = some pi → ∃ writable, pi.isOpen writable = true

variable [Fintype P] [DecidableEq P]

/-- **The counts**, while a call has `k` references to inodes and `h` to files. The working
directories are `c`, and only processes in `live` have open files. -/
structure RefCounts (c : P → Option (Fin NINODE)) (live : P → Prop) (k : Fin NINODE → Int)
    (h : Fin NFILE → Int) (s : Fs P) : Prop where
  inode : ∀ i, (s.itable i).ref = holders (fun f => (s.ftable f).inode) i + holders c i + k i
  file : ∀ f, (s.ftable f).ref = holders s.slots f + h f
  unused : ∀ f, (s.ftable f).ref = 0 → (s.ftable f).type = .none
  idle : ∀ p, ¬ live p → ∀ fd, s.ofile p fd = none
  cwd : s.cwd = c

structure RefInv (c : P → Option (Fin NINODE)) (live : P → Prop) (k : Fin NINODE → Int)
    (h : Fin NFILE → Int) (s : Fs P) : Prop extends RefCounts c live k h s where
  pipes : PipeInv s

variable {c : P → Option (Fin NINODE)} {live : P → Prop} {k : Fin NINODE → Int}
  {h : Fin NFILE → Int} {s t : Fs P}

/-! ### The changes of the tables -/

theorem PipeInv.congr (inv : PipeInv s) (ftable : t.ftable = s.ftable) (pipes : t.pipes = s.pipes) :
    PipeInv t := by
  obtain ⟨ends, unique, live⟩ := inv
  refine ⟨?_, ?_, ?_⟩
  · simpa only [Fs.endOpen, ftable, pipes] using ends
  · simpa only [ftable] using unique
  · simpa only [pipes] using live

theorem RefInv.moves {d : Fin NINODE → Int} (inv : RefInv c live k h s) (moves : Moves s d t) :
    RefInv c live (k + d) h t where
  inode := by
    intro i
    rw [moves.ref, moves.ftable, inv.inode, Pi.add_apply]
    ring
  file := by
    intro f
    rw [show t.slots = s.slots by unfold Fs.slots; rw [moves.ofile], moves.ftable]
    exact inv.file f
  unused := by
    rw [moves.ftable]
    exact inv.unused
  pipes := inv.pipes.congr moves.ftable moves.pipes
  idle := by
    rw [moves.ofile]
    exact inv.idle
  cwd := moves.cwd.trans inv.cwd

omit [Fintype P] in
theorem slots_setFd (s : Fs P) (p : P) (fd : Fin NOFILE) (v : Option (Fin NFILE)) :
    (s.setFd p fd v).slots = update s.slots (p, fd) v := by
  funext x
  obtain ⟨q, g⟩ := x
  simp only [Fs.slots, Fs.setFd, update_apply, Prod.mk.injEq]

theorem RefInv.setFd (inv : RefInv c live k h s) (p : P) (fd : Fin NOFILE)
    (v : Option (Fin NFILE)) (running : v = none ∨ live p) :
    RefInv c live k (h + oneOf (s.ofile p fd) - oneOf v) (s.setFd p fd v) where
  inode := inv.inode
  file := by
    intro f
    rw [slots_setFd, holders_update]
    show (s.ftable f).ref = _
    simp only [inv.file, Pi.add_apply, Pi.sub_apply, Fs.slots]
    ring
  unused := inv.unused
  pipes := inv.pipes.congr rfl rfl
  idle := by
    intro q idle g
    show (if q = p ∧ g = fd then v else s.ofile q g) = none
    split_ifs with same
    · obtain ⟨rfl, rfl⟩ := same
      exact running.resolve_right idle
    · exact inv.idle q idle g
  cwd := inv.cwd

theorem RefCounts.setFile (inv : RefCounts c live k h s) (f : Fin NFILE) (file : File)
    (unused : file.ref = 0 → file.type = .none) :
    RefCounts c live (k + oneOf (s.ftable f).inode - oneOf file.inode)
      (h + Pi.single f (file.ref - (s.ftable f).ref)) (s.setFile f file) where
  inode := by
    intro i
    have inodes : (fun g => ((s.setFile f file).ftable g).inode) =
        update (fun g => (s.ftable g).inode) f file.inode := by
      funext g
      exact Function.apply_update (fun _ x => File.inode x) s.ftable f file g
    rw [inodes, holders_update]
    show (s.itable i).ref = _
    simp only [inv.inode, Pi.add_apply, Pi.sub_apply]
    ring
  file := by
    intro g
    show (update s.ftable f file g).ref = holders s.slots g + _
    rw [Pi.add_apply]
    refine update_ind ?_ fun other => ?_
    · rw [Pi.single_eq_same]
      have count := inv.file f
      omega
    · rw [Pi.single_eq_of_ne other, inv.file]
      ring
  unused := by
    intro g
    show (update s.ftable f file g).ref = 0 → (update s.ftable f file g).type = .none
    exact update_ind unused fun _ => inv.unused g
  idle := inv.idle
  cwd := inv.cwd

theorem RefCounts.setPipes (inv : RefCounts c live k h s) (pipes : Nat → Option Pipe) :
    RefCounts c live k h { s with pipes := pipes } :=
  ⟨inv.inode, inv.file, inv.unused, inv.idle, inv.cwd⟩

variable {f g : Fin NFILE} {ip : Fin NINODE} {A : Type} {x : FsM P A} {p np : P} {writable : Bool}
  {ff gg : File}
  {file : File} {page : Nat}

theorem PipeInv.setFile (inv : PipeInv s) (same : file.pipeEnd = (s.ftable f).pipeEnd) :
    PipeInv (s.setFile f file) := by
  have ends : ∀ g, ((s.setFile f file).ftable g).pipeEnd = (s.ftable g).pipeEnd := by
    intro g
    show (update s.ftable f file g).pipeEnd = _
    exact update_ind same fun _ => rfl
  refine ⟨?_, ?_, inv.live⟩
  · intro e
    simp only [ends]
    exact inv.ends e
  · intro f g e
    rw [ends, ends]
    exact inv.unique f g e

omit [Fintype P] [DecidableEq P] in
theorem Pipe.close_isOpen (pi : Pipe) (writable other : Bool) :
    (pi.close writable).any (fun pi => pi.isOpen other) = true ↔ pi.isOpen other = true ∧
      other ≠ writable := by
  obtain ⟨readopen, writeopen⟩ := pi
  revert readopen writeopen writable other
  decide

omit [Fintype P] [DecidableEq P] in
theorem Pipe.close_live {pi left : Pipe} (open_ : pi.close writable = some left) :
    ∃ writable, left.isOpen writable = true := by
  obtain ⟨readopen, writeopen⟩ := pi
  obtain ⟨readleft, writeleft⟩ := left
  revert readopen writeopen writable readleft writeleft
  decide

theorem PipeInv.close (inv : PipeInv s) (old : (s.ftable f).pipeEnd = some (page, writable))
    (new : file.pipeEnd = none) : PipeInv { s.setFile f file with
      pipes := update s.pipes page ((s.pipes page).bind fun pi => pi.close writable) } := by
  -- the files that are left are the others, and the ends that are left too
  have files : ∀ g e, ((s.setFile f file).ftable g).pipeEnd = some e ↔
      (s.ftable g).pipeEnd = some e ∧ e ≠ (page, writable) := by
    intro g e
    show (update s.ftable f file g).pipeEnd = _ ↔ _
    refine update_ind ?_ fun this => ?_
    · rw [new, old]
      simp [eq_comm]
    · refine ⟨fun here => ⟨here, fun same => this ?_⟩, fun here => here.1⟩
      exact inv.unique g f _ (same ▸ here) old
  have closed : ∀ e, (update s.pipes page ((s.pipes page).bind fun pi => pi.close writable)
      e.1).any (fun pi => pi.isOpen e.2) = true ↔ s.endOpen e = true ∧ e ≠ (page, writable) := by
    intro e
    obtain ⟨q, w⟩ := e
    by_cases this : q = page
    · subst this
      rw [update_self, Fs.endOpen]
      cases pipe : s.pipes q with
      | none => simp
      | some pi => simpa using pi.close_isOpen writable w
    · simp [Fs.endOpen, this]
  refine ⟨fun e => ?_, fun g g' e here here' => ?_, fun q pi => ?_⟩
  · refine (closed e).trans ?_
    rw [inv.ends e]
    constructor
    · rintro ⟨⟨g, isEnd⟩, other⟩
      exact ⟨g, (files g e).mpr ⟨isEnd, other⟩⟩
    · rintro ⟨g, isEnd⟩
      exact ⟨⟨g, ((files g e).mp isEnd).1⟩, ((files g e).mp isEnd).2⟩
  · exact inv.unique g g' e ((files g e).mp here).1 ((files g' e).mp here').1
  · show update s.pipes page _ q = some pi → _
    refine update_ind (fun here => ?_) fun _ => inv.live q pi
    obtain ⟨before, _, left⟩ := Option.bind_eq_some_iff.mp here
    exact Pipe.close_live left

theorem PipeInv.open (inv : PipeInv s) (free : s.pipes page = none) (other : f ≠ g)
    (fNone : (s.ftable f).pipeEnd = none) (gNone : (s.ftable g).pipeEnd = none)
    (reads : ff.pipeEnd = some (page, false)) (writes : gg.pipeEnd = some (page, true)) :
    PipeInv (({ s with pipes := update s.pipes page (some ⟨true, true⟩) }.setFile f ff).setFile
      g gg) := by
  have unused : ∀ x e, (s.ftable x).pipeEnd = some e → e.1 ≠ page := by
    intro x e isEnd same
    have isOpen := (inv.ends e).mpr ⟨x, isEnd⟩
    rw [Fs.endOpen, same, free] at isOpen
    cases isOpen
  have files : ∀ x e, (update (update s.ftable f ff) g gg x).pipeEnd = some e ↔
      (s.ftable x).pipeEnd = some e ∨ (x = f ∧ e = (page, false)) ∨ (x = g ∧ e = (page, true)) := by
    intro x e
    refine update_ind ?_ fun isG => ?_
    · rw [writes, gNone]
      simp [other.symm, eq_comm]
    · revert isG
      refine update_ind (fun _ => ?_) fun isF isG => ?_
      · rw [reads, fNone]
        simp [other, eq_comm]
      · simp [isG, isF]
  refine ⟨fun e => ?_, fun x y e here here' => ?_, fun q pi => ?_⟩
  · show (update s.pipes page (some ⟨true, true⟩) e.1).any (fun pi => pi.isOpen e.2) = true ↔
      ∃ x, (update (update s.ftable f ff) g gg x).pipeEnd = some e
    simp only [files]
    obtain ⟨q, w⟩ := e
    by_cases this : q = page
    · subst this
      rw [update_self]
      cases w with
      | false => simp [Pipe.isOpen]
      | true => simp [Pipe.isOpen]
    · rw [update_of_ne this]
      simp only [Prod.mk.injEq, this, false_and, and_false, or_false]
      exact inv.ends (q, w)
  · have here := (files x e).mp here
    have here' := (files y e).mp here'
    obtain old | ⟨rfl, rfl⟩ | ⟨rfl, rfl⟩ := here <;> obtain old' | ⟨rfl, same⟩ | ⟨rfl, same⟩ :=
      here'
    · exact inv.unique x y e old old'
    · exact absurd (by rw [same]) (unused x e old)
    · exact absurd (by rw [same]) (unused x e old)
    · exact absurd rfl (unused y _ old')
    · rfl
    · simp at same
    · exact absurd rfl (unused y _ old')
    · simp at same
    · rfl
  · show update s.pipes page (some ⟨true, true⟩) q = some pi → _
    refine update_ind (fun here => ?_) fun _ => inv.live q pi
    cases here
    exact ⟨true, rfl⟩

/-! ### Functions on files -/

theorem Counts.refInv {d : A → Fin NINODE → Int} (counts : Counts x d) :
    Triple (RefInv c live k h) x (fun a => RefInv c live (k + d a) h) := by
  intro s inv
  have spec : From s x (fun a => Moves s (0 + d a)) :=
    (counts s 0).known (Moves.refl s)
  refine spec.to_post (fun a t moves => ?_) s rfl
  rw [zero_add] at moves
  exact inv.moves moves

theorem Quiet.refInv (quiet : Quiet x) :
    Triple (RefInv c live k h) x (fun _ => RefInv c live k h) := by
  have counts : Counts x fun _ => 0 := by
    intro s k
    simpa using quiet s k
  simpa using counts.refInv

omit [Fintype P] [DecidableEq P] in
theorem filealloc_spec (s : Fs P) : From s filealloc (fun r t => match r with
      | none => t = s
      | some f => (s.ftable f).ref = 0 ∧ t = s.setFile f { s.ftable f with ref := 1 })
        fun _ => False := by
  rintro t rfl
  unfold filealloc
  cases found : (List.finRange NFILE).find? fun f => (t.ftable f).ref = 0 with
  | none => simp [found]
  | some f =>
    have free : (t.ftable f).ref = 0 := by simpa using List.find?_some found
    simp [found, free]

omit [Fintype P] in
theorem fdalloc_spec (p : P) (f : Fin NFILE) (s : Fs P) :
    From s (fdalloc p f) (fun r t => match r with
      | none => t = s
      | some fd => s.ofile p fd = none ∧ t = s.setFd p fd (some f)) fun _ => False := by
  rintro t rfl
  unfold fdalloc
  cases found : (List.finRange NOFILE).find? fun fd => t.ofile p fd = none with
  | none => simp [found]
  | some fd =>
    have free : t.ofile p fd = none := by simpa using List.find?_some found
    simp [found, free]

omit [Fintype P] [DecidableEq P] in
theorem inode_of_none (closed : file.type = .none) : file.inode = none := by
  unfold File.inode
  rw [closed]

omit [Fintype P] [DecidableEq P] in
theorem pipeEnd_of_none (closed : file.type = .none) : file.pipeEnd = none := by
  unfold File.pipeEnd
  rw [closed]

theorem RefInv.setRef (inv : RefInv c live k h s) (f : Fin NFILE) (ref : Int) (used : ref ≠ 0) :
    RefInv c live k (h + Pi.single f (ref - (s.ftable f).ref))
      (s.setFile f { s.ftable f with ref := ref }) := by
  have moved := inv.toRefCounts.setFile f { s.ftable f with ref := ref }
    fun zero => absurd zero used
  rw [show File.inode { s.ftable f with ref := ref } = (s.ftable f).inode from rfl,
    add_sub_cancel_right] at moved
  exact ⟨moved, inv.pipes.setFile rfl⟩

theorem RefInv.filealloc (inv : RefInv c live k h s) (free : (s.ftable f).ref = 0) :
    RefInv c live k (h + one f) (s.setFile f { s.ftable f with ref := 1 }) := by
  have moved := inv.setRef f 1 (by decide)
  rwa [free] at moved

theorem filedup_refInv (f : Fin NFILE) (o : P → Fin NOFILE → Option (Fin NFILE)) :
    Triple (fun s => RefInv c live k h s ∧ s.ofile = o) (filedup f)
      (fun g t => g = f ∧ RefInv c live k (h + one f) t ∧ t.ofile = o) := by
  refine .get_bind fun s here => .ite (fun _ => ?_) fun positive => ?_
  · exact .throws
  refine .modify_known (.pure ?_)
  rintro t rfl
  have moved := here.1.setRef f ((s.ftable f).ref + 1) (by omega)
  rw [add_sub_cancel_left] at moved
  exact ⟨rfl, moved, here.2⟩

/-- The last reference to a file goes: what the file held is now held by the call. -/
theorem RefCounts.closeFile (inv : RefCounts c live k h s) (last : (s.ftable f).ref = 1) :
    RefCounts c live (k + oneOf (s.ftable f).inode) (h - one f)
      (s.setFile f { s.ftable f with ref := 0, type := .none }) := by
  have moved := inv.setFile f { s.ftable f with ref := 0, type := .none } fun _ => rfl
  rwa [show File.inode { s.ftable f with ref := 0, type := .none } = none from rfl, oneOf_none,
    sub_zero, last, show (0 : Int) - 1 = -1 from rfl, ← sub_one_eq] at moved

theorem fileclose_refInv (f : Fin NFILE) :
    Triple (RefInv c live k h) (fileclose f) (fun _ => RefInv c live k (h - one f)) := by
  refine .get_bind fun s inv => .ite (fun _ => ?_) fun positive => .ite (fun many => ?_)
    fun few => ?_
  · exact .throws
  · refine .modify ?_
    rintro t rfl
    have moved := inv.setRef f ((t.ftable f).ref - 1) (by omega)
    rwa [show (t.ftable f).ref - 1 - (t.ftable f).ref = -1 by ring, ← sub_one_eq] at moved
  have closed := inv.toRefCounts.closeFile (f := f) (by omega)
  refine .modify_known ?_
  -- with an inode the call holds its reference, which `iput` gives back
  have put (isInode : (s.ftable f).inode = some (s.ftable f).ip)
    (noEnd : (s.ftable f).pipeEnd = none) :
      From (s.setFile f { s.ftable f with ref := 0, type := .none })
        (iput (s.ftable f).ip) (fun _ => RefInv c live k (h - one f)) := by
    rintro t rfl
    rw [isInode] at closed
    refine (iput_counts _ _ 0).to_post (fun _ u moves => ?_) _ (Moves.refl _)
    have moved :=
      RefInv.moves ⟨closed, inv.pipes.setFile ((pipeEnd_of_none rfl).trans noEnd.symm)⟩ moves
    simpa using moved
  cases type : (s.ftable f).type with
  | pipe =>
    have isEnd : (s.ftable f).pipeEnd = some ((s.ftable f).pipe, (s.ftable f).writable) := by
      simp [File.pipeEnd, type]
    rw [show (s.ftable f).inode = none by simp [File.inode, type], oneOf_none, add_zero] at closed
    refine .modify ?_
    rintro t rfl
    exact ⟨closed.setPipes _, inv.pipes.close isEnd rfl⟩
  | inode | device => exact put (by simp [File.inode, type]) (by simp [File.pipeEnd, type])
  | none =>
    rw [inode_of_none type, oneOf_none, add_zero] at closed
    exact .done ⟨closed, inv.pipes.setFile (pipeEnd_of_none type).symm⟩

omit [Fintype P] [DecidableEq P] in
theorem fileclose_ofile (f : Fin NFILE) (o : P → Fin NOFILE → Option (Fin NFILE)) :
    Triple (fun s : Fs P => s.ofile = o) (fileclose f) (fun _ t => t.ofile = o) := by
  refine .get_bind fun s same => .ite (fun _ => ?_) fun _ => .ite (fun _ => ?_) fun _ => ?_
  · exact .throws
  · exact .modify fun t known => known ▸ same
  refine .modify_bind (fun t => t.ofile = o) (fun t known => known ▸ same) ?_
  have put : Triple (fun t : Fs P => t.ofile = o) (iput (s.ftable f).ip) (fun _ t => t.ofile = o) := by
    intro t here
    exact (iput_counts _ t 0).to_post (fun _ u moves => moves.ofile.trans here) t (Moves.refl t)
  split
  · exact .modify fun t here => here
  · exact put
  · exact put
  · exact .pure fun t here => here

/-- A file that has just been allocated gets its type, and the inode that the call held. -/
theorem RefCounts.setType (inv : RefCounts c live k h s) (f : Fin NFILE) (file : File)
    (used : (s.ftable f).ref ≠ 0) (ref : file.ref = (s.ftable f).ref)
    (closed : (s.ftable f).type = .none) :
    RefCounts c live (k - oneOf file.inode) h (s.setFile f file) := by
  have moved := inv.setFile f file fun zero => absurd (ref ▸ zero) used
  rwa [inode_of_none closed, oneOf_none, add_zero, ref, sub_self, Pi.single_zero, add_zero] at moved

omit [Fintype P] [DecidableEq P] in
theorem inode_of_pipeEnd {e : Nat × Bool} (isEnd : file.pipeEnd = some e) : file.inode = none := by
  unfold File.pipeEnd at isEnd
  unfold File.inode
  split at isEnd
  · simp [*]
  all_goals cases isEnd

omit [Fintype P] [DecidableEq P] in
theorem pipeEnd_of_inode (isInode : file.inode = some ip) : file.pipeEnd = none := by
  cases isEnd : file.pipeEnd with
  | none => rfl
  | some e =>
    rw [inode_of_pipeEnd isEnd] at isInode
    cases isInode

theorem RefInv.openFile (inv : RefInv c live (k + one ip) h s) (used : (s.ftable f).ref ≠ 0)
    (ref : file.ref = (s.ftable f).ref) (closed : (s.ftable f).type = .none)
    (isInode : file.inode = some ip) : RefInv c live k h (s.setFile f file) := by
  have counts := inv.toRefCounts.setType f file used ref closed
  rw [isInode, oneOf_some, add_sub_cancel_right] at counts
  exact ⟨counts, inv.pipes.setFile ((pipeEnd_of_inode isInode).trans (pipeEnd_of_none closed).symm)⟩

theorem RefInv.openPipe (inv : RefInv c live k h s) (free : s.pipes page = none) (other : f ≠ g)
    (usedF : (s.ftable f).ref ≠ 0) (usedG : (s.ftable g).ref ≠ 0)
    (closedF : (s.ftable f).type = .none) (closedG : (s.ftable g).type = .none)
    (refF : ff.ref = (s.ftable f).ref) (refG : gg.ref = (s.ftable g).ref)
    (reads : ff.pipeEnd = some (page, false)) (writes : gg.pipeEnd = some (page, true)) :
    RefInv c live k h (({ s with pipes := update s.pipes page (some ⟨true, true⟩) }.setFile f
      ff).setFile g gg) := by
  have countsF :=
    (inv.toRefCounts.setPipes (update s.pipes page (some ⟨true, true⟩))).setType f ff usedF refF
    closedF
  have sameG : ({ s with pipes := update s.pipes page (some ⟨true, true⟩) }.setFile f ff).ftable g =
      s.ftable g := update_of_ne other.symm _ _
  have countsG :=
    countsF.setType g gg (by rwa [sameG]) (by rw [refG, sameG]) (by rw [sameG, closedG])
  rw [inode_of_pipeEnd reads, inode_of_pipeEnd writes, oneOf_none, sub_zero, sub_zero] at countsG
  exact ⟨countsG,
    inv.pipes.open free other (pipeEnd_of_none closedF) (pipeEnd_of_none closedG) reads writes⟩

theorem pipealloc_refInv (page : Option Nat) :
    Triple (fun s => (∀ pi ∈ page, s.pipes pi = none) ∧ RefInv c live k h s) (pipealloc page)
      (fun r => RefInv c live k (h + oneOf (r.map Prod.fst) + oneOf (r.map Prod.snd))) := by
  rintro s ⟨free, inv⟩
  refine Triple.bind (filealloc_spec s).any (fun r => ?_) s rfl
  cases r with
  | none =>
    refine .done ?_
    simpa using inv
  | some f =>
  refine .of_fact fun freeF => ?_
  have invF := inv.filealloc freeF
  refine .bind (filealloc_spec _).any fun r => ?_
  cases r with
  | none =>
    refine .bind ((fileclose_refInv f).known invF) fun _ => ?_
    exact .pure fun t moved => by simpa using moved
  | some g =>
  refine .of_fact fun freeG => ?_
  have invG := invF.filealloc freeG
  cases page with
  | none =>
    refine .bind ((fileclose_refInv f).known invG) fun _ => ?_
    refine .bind (fileclose_refInv g) fun _ => .pure fun t moved => ?_
    simpa [add_sub_right_comm] using moved
  | some page =>
    have other : f ≠ g := by
      rintro rfl
      simp [Fs.setFile] at freeG
    have typeF := inv.unused f freeF
    have typeG : (s.ftable g).type = .none := by
      simpa [Fs.setFile, other.symm] using invF.unused g freeG
    -- both files are new: they have a count and no type yet
    refine .each fun u same => ?_
    have invU : RefInv c live k (h + one f + one g) u := same ▸ invG
    have newF : (u.ftable f).ref = 1 ∧ (u.ftable f).type = .none := by
      simp [same, Fs.setFile, other, typeF]
    have newG : (u.ftable g).ref = 1 ∧ (u.ftable g).type = .none := by
      simp [same, Fs.setFile, other.symm, typeG]
    have freeU : u.pipes page = none := by
      rw [same]
      exact free page rfl
    clear same
    refine .modify_known (.modify_known (.modify_known (.pure ?_)))
    rintro t rfl
    refine invU.openPipe freeU other ?_ ?_ newF.2 newG.2 rfl ?_ rfl rfl
    · rw [newF.1]
      decide
    · rw [newG.1]
      decide
    · simp [Fs.setFile, other.symm]

/-! ### The calls -/

omit [Fintype P] in
theorem argfd_some {s : Fs P} {n : Int} {fd : Fin NOFILE} (found : argfd s p n = some (fd, f)) :
    s.ofile p fd = some f := by
  unfold argfd at found
  split at found
  · obtain ⟨g, holds, same⟩ := Option.map_eq_some_iff.mp found
    cases same
    exact holds
  · cases found

theorem fdalloc_refInv (running : live p) (f : Fin NFILE) :
    Triple (RefInv c live k h) (fdalloc p f) (fun r t => match r with
      | none => RefInv c live k h t
      | some fd => RefInv c live k (h - one f) t ∧ t.ofile p fd = some f) := by
  intro s inv
  refine (fdalloc_spec p f s).weaken (fun _ same => same) (fun r t post => ?_)
    (fun _ _ => trivial) s rfl
  cases r with
  | none => exact post ▸ inv
  | some fd =>
    obtain ⟨free, rfl⟩ := post
    have moved := inv.setFd p fd (some f) (Or.inr running)
    rw [free, oneOf_none, add_zero, oneOf_some] at moved
    exact ⟨moved, if_pos ⟨rfl, rfl⟩⟩

theorem sysDup_refInv (running : live p) (n : Int) :
    Triple (RefInv c live k h) (sysDup p n) (fun _ => RefInv c live k h) := by
  refine .get_bind fun s inv => ?_
  split
  · exact .done inv
  · rename_i f _
    refine .bind ((fdalloc_refInv running f).known inv) fun r => ?_
    cases r with
    | none => exact .pure fun t moved => moved
    | some fd =>
      refine .each fun t here => ?_
      refine .bind ((filedup_refInv f t.ofile).known ⟨here.1, rfl⟩)
        fun g => .pure fun u moved => ?_
      simpa using moved.2.1

theorem sysClose_refInv (p : P) (n : Int) :
    Triple (RefInv c live k h) (sysClose p n) (fun _ => RefInv c live k h) := by
  refine .get_bind fun s inv => ?_
  split
  · exact .done inv
  · rename_i fd f found
    refine .modify_bind (RefInv c live k (h + one f)) ?_ ?_
    · rintro t rfl
      have moved := inv.setFd p fd none (Or.inl rfl)
      rwa [argfd_some found, oneOf_some, oneOf_none, sub_zero] at moved
    · exact .bind (fileclose_refInv f) fun _ => .pure fun t moved => by simpa using moved

theorem openInode_refInv (running : live p) (omode : OpenMode) (ip : Fin NINODE) :
    Triple (RefInv c live (k + one ip) h) (openInode p omode ip) (fun _ => RefInv c live k h) := by
  have drop :
    Triple (RefInv c live (k + one ip) h) (do iunlockput ip; return (none : Option (Fin NOFILE)))
      (fun _ => RefInv c live k h) := by
    intro t inv
    refine Triple.bind (iunlockput_counts ip t 0) (fun _ => Triple.pure fun u moves => ?_) t
      (Moves.refl t)
    simpa using inv.moves moves
  refine Triple.get_bind fun s inv => Triple.ite (fun _ => ?_) fun _ => ?_
  · exact drop.known inv
  refine .bind (filealloc_spec s).any fun r => ?_
  cases r with
  | none => exact drop.known inv
  | some f =>
  refine .of_fact fun free => ?_
  have invF := inv.filealloc free
  refine .bind (fdalloc_spec p f _).any fun r => ?_
  cases r with
  | none =>
    refine .bind ((fileclose_refInv f).known invF) fun _ => ?_
    exact drop.of_pre fun t moved => by simpa using moved
  | some fd =>
  refine .of_fact fun freeFd => ?_
  refine .each fun u same => ?_
  have invU : RefInv c live (k + one ip) h u := by
    have moved := invF.setFd p fd (some f) (Or.inr running)
    rw [freeFd, oneOf_none, add_zero, oneOf_some, add_sub_cancel_right] at moved
    exact same ▸ moved
  have newF : (u.ftable f).ref = 1 ∧ (u.ftable f).type = .none := by
    simp [same, Fs.setFd, Fs.setFile, inv.unused f free]
  clear same
  refine .modify_bind (RefInv c live k h) ?_ ?_
  · rintro t rfl
    refine invU.openFile (f := f) ?_ rfl newF.2 ?_
    · rw [newF.1]
      decide
    · unfold File.inode
      split_ifs <;> rfl
  have unlock : Triple (RefInv c live k h) (do iunlock ip; return some fd)
    (fun _ => RefInv c live k h) :=
    Triple.bind (iunlock_quiet ip).refInv fun _ => .pure fun t inv => inv
  refine .ite (fun _ => ?_) fun _ => unlock
  exact .bind (itrunc_quiet ip).refInv fun _ => unlock

theorem sysOpen_refInv (running : live p) (path : Option (List Byte)) (omode : OpenMode) :
    Triple (RefInv c live k h) (sysOpen p path omode) (fun _ => RefInv c live k h) := by
  cases path with
  | none => exact .pure fun t inv => inv
  | some path =>
  refine .ite (fun _ => ?_) fun _ => ?_
  · refine .bind (create_counts p path .file 0 0).refInv fun r => ?_
    cases r with
    | none => exact .pure fun t inv => by simpa using inv
    | some ip => exact openInode_refInv running omode ip
  refine .bind (namei_counts p path).refInv fun r => ?_
  cases r with
  | none => exact .pure fun t inv => by simpa using inv
  | some ip =>
  refine .bind (ilock_quiet ip).refInv fun _ => .get_bind fun s inv => ?_
  refine .ite (fun _ => ?_) fun _ => ?_
  · refine .bind ((iunlockput_counts ip s 0).known (Moves.refl s)) fun _ => ?_
    exact .pure fun t moves => by simpa using inv.moves moves
  · exact (openInode_refInv running omode ip).known inv

theorem RefInv.setCwd (inv : RefInv c live k h s) (p : P) (v : Option (Fin NINODE)) :
    RefInv (update c p v) live (k + oneOf (c p) - oneOf v) h
      { s with cwd := update s.cwd p v } where
  inode := by
    intro i
    rw [holders_update]
    show (s.itable i).ref = holders (fun f => (s.ftable f).inode) i + _ + _
    simp only [inv.inode, Pi.add_apply, Pi.sub_apply]
    ring
  file := inv.file
  unused := inv.unused
  idle := inv.idle
  cwd := by
    show update s.cwd p v = _
    rw [inv.cwd]
  pipes := inv.pipes.congr rfl rfl

theorem sysChdir_refInv (p : P) (path : Option (List Byte)) :
    Triple (RefInv c live k h) (sysChdir p path)
      (fun _ t => RefInv c live k h t ∨ ∃ ip, RefInv (update c p (some ip)) live k h t) := by
  cases path with
  | none => exact .pure fun t inv => Or.inl inv
  | some path =>
  refine .bind (namei_counts p path).refInv fun r => ?_
  cases r with
  | none => exact .pure fun t inv => Or.inl (by simpa using inv)
  | some ip =>
  refine .bind (ilock_quiet ip).refInv fun _ => .get_bind fun s inv => ?_
  refine .ite (fun _ => ?_) fun _ => ?_
  · refine .bind ((iunlockput_counts ip s 0).known (Moves.refl s)) fun _ => ?_
    exact .pure fun t moves => Or.inl (by simpa using inv.moves moves)
  refine .bind ((iunlock_quiet ip).refInv.known inv) fun _ => ?_
  cases cwd : s.cwd p with
  | none => exact .throws
  | some old =>
    refine .each fun t inv' => ?_
    refine .bind ((iput_counts old t 0).known (Moves.refl t)) fun _ => ?_
    refine .modify_bind (fun u => ∃ ip, RefInv (update c p (some ip)) live k h u) ?_
      (.pure fun u moved => Or.inr moved)
    intro u moves
    have moved := (inv'.moves moves).setCwd p (some ip)
    rw [← inv.cwd, cwd] at moved
    refine ⟨ip, ?_⟩
    simpa [← inv.cwd, add_sub_right_comm] using moved

theorem sysPipe_refInv (running : live p) (page : Option Nat) (copied : Bool) :
    Triple (fun s => (∀ pi ∈ page, s.pipes pi = none) ∧ RefInv c live k h s) (sysPipe p page copied)
      (fun _ => RefInv c live k h) := by
  refine .bind (pipealloc_refInv page) fun r => ?_
  cases r with
  | none => exact .pure fun t inv => by simpa using inv
  | some r =>
  obtain ⟨f, g⟩ := r
  -- every way out but the last one closes both files
  have closeBoth :
    Triple (RefInv c live k (h + one f + one g)) (do fileclose f; fileclose g; return false)
      (fun _ => RefInv c live k h) := by
    refine .bind (fileclose_refInv f) fun _ => .bind (fileclose_refInv g) fun _ => ?_
    exact .pure fun t moved => by simpa [add_sub_right_comm] using moved
  have clear (fd : Fin NOFILE) (x : Fin NFILE) {l : Fin NFILE → Int} {t : Fs P}
      (inv : RefInv c live k (l - one x) t) (held : t.ofile p fd = some x) :
      RefInv c live k l (t.setFd p fd none) := by
    have moved := inv.setFd p fd none (Or.inl rfl)
    rw [held] at moved
    simpa using moved
  refine .bind (fdalloc_refInv running f) fun r => ?_
  cases r with
  | none => exact closeBoth
  | some fd0 =>
  refine .each fun t here => ?_
  obtain ⟨invF, heldF⟩ := here
  refine .bind (fdalloc_spec p g t).any fun r => ?_
  cases r with
  | none =>
    refine .modify_known (closeBoth.of_pre ?_)
    rintro u rfl
    exact clear fd0 f invF heldF
  | some fd1 =>
  refine .of_fact fun freeG => ?_
  have invG := invF.setFd p fd1 (some g) (Or.inr running)
  rw [freeG, oneOf_none, add_zero, oneOf_some] at invG
  simp only [Option.map_some, oneOf_some] at invG
  refine .ite (fun _ => .pure ?_) fun _ => ?_
  · rintro u rfl
    rwa [add_sub_right_comm _ (one g), add_sub_cancel_right, add_sub_cancel_right] at invG
  refine .modify_known (.modify_known (closeBoth.of_pre ?_))
  rintro u rfl
  have other : fd0 ≠ fd1 := by
    rintro rfl
    rw [heldF] at freeG
    cases freeG
  refine clear fd1 g (clear fd0 f ?_ ?_) ?_
  · rwa [sub_right_comm] at invG
  · simp [Fs.setFd, other, heldF]
  · simp [Fs.setFd, other.symm]

theorem RefInv.setLive {live' : P → Prop} (inv : RefInv c live k h s)
    (idle : ∀ p, ¬ live' p → ∀ fd, s.ofile p fd = none) : RefInv c live' k h s :=
  ⟨⟨inv.inode, inv.file, inv.unused, idle, inv.cwd⟩, inv.pipes⟩

/-- The loop of `fork`: the induction is on the descriptors, those of the new process that are left
are free. -/
theorem forkFiles_refInv (p : P) (running : live np) {fds : List (Fin NOFILE)}
    (distinct : fds.Nodup) :
    Triple (fun t => RefInv c live k h t ∧ ∀ fd ∈ fds, t.ofile np fd = none) (forkFiles p np fds)
      (fun _ => RefInv c live k h) := by
  induction fds with
  | nil => exact .pure fun t here => here.1
  | cons fd rest ih =>
    obtain ⟨fresh, distinct⟩ := List.nodup_cons.mp distinct
    refine .get_bind fun s here => ?_
    obtain ⟨inv, free⟩ := here
    have freeRest : ∀ g ∈ rest, s.ofile np g = none :=
      fun g member => free g (List.mem_cons_of_mem _ member)
    cases held : s.ofile p fd with
    | none => exact (ih distinct).known ⟨inv, freeRest⟩
    | some f =>
      refine .bind ((filedup_refInv f s.ofile).known ⟨inv, rfl⟩) fun f' => ?_
      refine .of_fact fun same => ?_
      subst same
      refine .modify_bind _ (fun t here => ?_) (ih distinct)
      obtain ⟨invT, sameFds⟩ := here
      refine ⟨?_, fun g member => ?_⟩
      · have moved := invT.setFd np fd (some f') (Or.inr running)
        rw [sameFds, free fd List.mem_cons_self] at moved
        simpa using moved
      · have other : g ≠ fd := fun same => fresh (same ▸ member)
        simpa [Fs.setFd, other, sameFds] using freeRest g member

theorem forkShare_refInv (p : P) (running : live np) :
    Triple (fun s => RefInv c live k h s ∧ (∀ fd, s.ofile np fd = none) ∧ c np = none)
      (forkShare p (some np))
      (fun _ t => ∃ i, RefInv (update c np (some i)) live k h t) := by
  refine .each fun s here => ?_
  obtain ⟨inv, free, unused⟩ := here
  refine .bind
    ((forkFiles_refInv p running (List.nodup_finRange NOFILE)).known ⟨inv, fun fd _ => free fd⟩)
    fun _ => .get_bind fun t invT => ?_
  cases t.cwd p with
  | none => exact .throw fun _ _ => trivial
  | some i =>
    refine .bind ((idup_counts i).refInv.known invT) fun j => ?_
    refine .modify_bind (fun u => ∃ i, RefInv (update c np (some i)) live k h u) ?_
      (.pure fun u moved => moved)
    intro u invU
    refine ⟨j, ?_⟩
    have moved := invU.setCwd np (some j)
    rw [unused] at moved
    simpa using moved

theorem exitFiles_refInv (p : P) (fds : List (Fin NOFILE)) :
    Triple (fun t => RefInv c live k h t ∧ ∀ fd, fd ∉ fds → t.ofile p fd = none) (exitFiles p fds)
      (fun _ t => RefInv c live k h t ∧ ∀ fd, t.ofile p fd = none) := by
  induction fds with
  | nil => exact .pure fun t here => ⟨here.1, fun fd => here.2 fd List.not_mem_nil⟩
  | cons fd rest ih =>
    refine .get_bind fun s here => ?_
    obtain ⟨inv, closed⟩ := here
    have closedRest : ∀ g, g ≠ fd → g ∉ rest → s.ofile p g = none :=
      fun g other left => closed g (List.not_mem_cons_of_ne_of_not_mem other left)
    cases held : s.ofile p fd with
    | none =>
      refine ih.known ⟨inv, fun g left => ?_⟩
      by_cases same : g = fd
      · rw [same, held]
      · exact closedRest g same left
    | some f =>
      refine .bind (((fileclose_refInv f).and (fileclose_ofile f s.ofile)).known ⟨inv, rfl⟩)
        fun _ => ?_
      refine .modify_bind _ (fun t here => ?_) ih
      obtain ⟨invT, sameFds⟩ := here
      refine ⟨?_, fun g left => ?_⟩
      · have moved := invT.setFd p fd none (Or.inl rfl)
        rw [sameFds, held] at moved
        simpa using moved
      · show (if p = p ∧ g = fd then none else t.ofile p g) = none
        split_ifs with same
        · rfl
        · rw [sameFds]
          exact closedRest g (fun isFd => same ⟨rfl, isFd⟩) left

theorem exitClose_refInv (p : P) :
    Triple (RefInv c live k h) (exitClose p)
      (fun _ t => RefInv (update c p none) live k h t ∧ ∀ fd, t.ofile p fd = none) := by
  refine .get_bind fun s inv => .ite (fun _ => ?_) fun _ => ?_
  · exact .throws
  refine .bind ((exitFiles_refInv p (List.finRange NOFILE)).known
    ⟨inv, fun fd left => absurd (List.mem_finRange fd) left⟩) fun _ => .get_bind fun t here => ?_
  obtain ⟨invT, closed⟩ := here
  cases cwd : t.cwd p with
  | none => exact .throws
  | some i =>
    refine .bind ((iput_counts i t 0).known (Moves.refl t)) fun _ => .modify fun u moves => ?_
    have moved := (invT.moves moves).setCwd p none
    rw [← invT.cwd, cwd] at moved
    refine ⟨?_, fun fd => ?_⟩
    · simpa [← invT.cwd] using moved
    · show u.ofile p fd = none
      rw [moves.ofile]
      exact closed fd

/-! ### Between calls -/

def CallInv (s : Fs P) : Prop := RefInv s.cwd (fun p => s.cwd p ≠ none) 0 0 s

theorem CallInv.of_refInv (inv : RefInv s.cwd (fun p => s.cwd p ≠ none) 0 0 t) : CallInv t := by
  have same := inv.cwd
  rw [← same] at inv
  exact inv

theorem CallInv.of_setCwd {i : Fin NINODE}
    (inv : RefInv (update s.cwd p (some i)) (fun q => s.cwd q ≠ none ∨ q = p) 0 0 t) :
    CallInv t := by
  have same := inv.cwd
  rw [← same] at inv
  refine inv.setLive fun q none fd => inv.idle q ?_ fd
  rintro (running | rfl)
  · refine none ?_
    rw [same]
    exact update_ind nofun fun _ => running
  · exact none (by simp [same])

theorem callInv_of_triple (inv : CallInv s)
    (keeps : Triple (RefInv s.cwd (fun p => s.cwd p ≠ none) 0 0) x
      (fun _ => RefInv s.cwd (fun p => s.cwd p ≠ none) 0 0)) :
    From s (do let _ ← x) (fun _ => CallInv) :=
  Triple.bind (keeps.known inv) fun _ => .pure fun _ kept => CallInv.of_refInv kept

theorem chdir_callInv (inv : CallInv s) (path : Option (List Byte)) :
    From s (do let _ ← sysChdir p path) (fun _ => CallInv) := by
  refine .bind ((sysChdir_refInv p path).known inv) fun _ => .pure fun t here => ?_
  obtain kept | ⟨i, moved⟩ := here
  · exact CallInv.of_refInv kept
  · exact CallInv.of_setCwd (moved.setLive fun q none => moved.idle q
      fun running => none (Or.inl running))

theorem fork_callInv (inv : CallInv s) {np : Option P} (unused : ∀ q ∈ np, s.cwd q = none) :
    From s (do let _ ← forkShare p np) (fun _ => CallInv) := by
  cases np with
  | none =>
    rintro t rfl
    exact inv
  | some np =>
    have free : s.cwd np = none := unused np rfl
    have wider : RefInv s.cwd (fun q => s.cwd q ≠ none ∨ q = np) 0 0 s :=
      inv.setLive fun q none => inv.idle q fun running => none (Or.inl running)
    refine .bind ((forkShare_refInv p (Or.inr rfl)).known
      ⟨wider, inv.idle np fun running => running free, free⟩) fun _ => .pure fun t here => ?_
    obtain ⟨i, moved⟩ := here
    exact CallInv.of_setCwd moved

theorem exit_callInv (inv : CallInv s) (p : P) : From s (exitClose p) (fun _ => CallInv) := by
  refine ((exitClose_refInv p).known inv).to_post fun _ t here => ?_
  obtain ⟨moved, closed⟩ := here
  have same := moved.cwd
  rw [← same] at moved
  refine moved.setLive fun q none fd => ?_
  by_cases isP : q = p
  · rw [isP]
    exact closed fd
  · refine moved.idle q (fun running => none ?_) fd
    rwa [same, update_of_ne isP]

theorem FsCall.run_callInv (call : FsCall P) (inv : CallInv s) (allowed : call.Allowed s) :
    From s call.run (fun _ => CallInv) := by
  have running (p : P) (isSome : (s.cwd p).isSome) : s.cwd p ≠ none :=
    Option.isSome_iff_ne_none.mp isSome
  cases call with
  | «open» p path omode =>
    refine callInv_of_triple inv (sysOpen_refInv ?_ path omode)
    exact running p allowed
  | close p fd => exact callInv_of_triple inv (sysClose_refInv p fd)
  | dup p fd =>
    refine callInv_of_triple inv (sysDup_refInv ?_ fd)
    exact running p allowed
  | pipe p page copied =>
    refine .bind ((sysPipe_refInv ?_ page copied).known ⟨allowed.2, inv⟩) fun _ => ?_
    · exact running p allowed.1
    · exact .pure fun t kept => CallInv.of_refInv kept
  | fork p np => exact fork_callInv inv allowed.2
  | exec p path loads => exact callInv_of_triple inv (execFile_quiet p path loads).refInv
  | chdir p path => exact chdir_callInv inv path
  | link p old new => exact callInv_of_triple inv (sysLink_quiet p old new).refInv
  | unlink p path => exact callInv_of_triple inv (sysUnlink_quiet p path).refInv
  | mkdir p path => exact callInv_of_triple inv (makeNode_quiet p path .dir 0 0).refInv
  | mknod p path major minor =>
    exact callInv_of_triple inv (makeNode_quiet p path .device major minor).refInv
  | exit p => exact exit_callInv inv p

omit [Fintype P] in
theorem FsCall.Step.ran {call : FsCall P} (step : FsCall.Step s call t) :
    call.Allowed s ∧ call.run s = .ok ((), t) := by
  unfold FsCall.Step FsCall.complete at step
  split_ifs at step with allowed
  refine ⟨allowed, ?_⟩
  cases done : call.run s with
  | error e =>
    rw [done] at step
    cases step
  | ok r =>
    rw [done] at step
    cases step
    rfl

theorem CallInv.step {call : FsCall P} (inv : CallInv s) (step : FsCall.Step s call t) :
    CallInv t := by
  obtain ⟨allowed, done⟩ := step.ran
  exact (FsCall.run_callInv call inv allowed).ok rfl done

/-! ### The first process -/

/-- The state in which the first process starts: `userinit` has set its working directory to the
root, everything else is as the boot loader has cleared it. -/
def Fs.boot (ninodes : Nat) (disk : Nat → Dinode) (initproc : P) : Fs P where
  ninodes := ninodes
  disk := disk
  itable := fun i => if i.val = 0 then ⟨ROOTINO, 1, false, false, .free, 0, 0, 0⟩
    else ⟨0, 0, false, false, .free, 0, 0, 0⟩
  ftable := fun _ => ⟨.none, 0, false, false, 0, ⟨0, ninode_pos⟩, 0, 0⟩
  pipes := fun _ => none
  ofile := fun _ _ => none
  cwd := fun p => if p = initproc then some ⟨0, ninode_pos⟩ else none
  initproc := initproc

theorem boot_callInv (ninodes : Nat) (disk : Nat → Dinode) (initproc : P) :
    CallInv (Fs.boot ninodes disk initproc) := by
  have noSlot : ∀ f, holders (Fs.boot ninodes disk initproc).slots f = 0 :=
    fun f => holders_eq_zero fun _ => by simp [Fs.slots, Fs.boot]
  have noFile : ∀ i, holders (fun f => ((Fs.boot ninodes disk initproc).ftable f).inode) i = 0 :=
    fun i => holders_eq_zero fun _ => by simp [File.inode, Fs.boot]
  have cwd : (Fs.boot ninodes disk initproc).cwd =
      update (fun _ => none) initproc (some ⟨0, by decide⟩) := by
    funext p
    rw [update_apply]
    rfl
  refine ⟨⟨fun i => ?_, fun f => ?_, fun _ _ => rfl, fun _ _ _ => rfl, rfl⟩, ⟨fun e => ?_, ?_, ?_⟩⟩
  · rw [noFile, cwd, holders_update, Pi.add_apply, Pi.sub_apply, oneOf_none, oneOf_apply,
      holders_eq_zero (f := fun _ : P => none) (fun _ => by simp)]
    show (if i.val = 0 then _ else _ : Inode).ref = _
    by_cases first : i.val = 0
    · have same : i = ⟨0, by decide⟩ := Fin.ext first
      simp [same]
    · have other : (⟨0, by decide⟩ : Fin NINODE) ≠ i := fun same => first (same ▸ rfl)
      simp [first, other]
  · rw [noSlot]
    rfl
  · simp [Fs.endOpen, Fs.boot, File.pipeEnd]
  · simp [Fs.boot, File.pipeEnd]
  · simp [Fs.boot]

/-- **Reference counts match holders.** After any sequence of completed calls, the count of a file
is the number of descriptors for it, and a file without one has no type; the count of an inode is
the number of open files and working directories that refer to it; a page is a pipe as long as one
of the files for its ends has a count, and there is one file for each end. `namex`, from any state,
changes the count of the inode it returns by one and no other. -/
theorem references_match_holders {ninodes : Nat} {disk : Nat → Dinode} {initproc : P}
    {trace : List (FsCall P)} {t : Fs P}
    (run : Run FsCall.Step (Fs.boot ninodes disk initproc) trace t) :
    (∀ f, (t.ftable f).ref = holders t.slots f) ∧
    (∀ f, (t.ftable f).ref = 0 → (t.ftable f).type = .none) ∧
    (∀ i, (t.itable i).ref = holders (fun f => (t.ftable f).inode) i + holders t.cwd i) ∧
    (∀ page, t.pipes page ≠ none ↔
      ∃ f writable, (t.ftable f).pipeEnd = some (page, writable) ∧ 0 < (t.ftable f).ref) ∧
    (∀ f g e, (t.ftable f).pipeEnd = some e → (t.ftable g).pipeEnd = some e → f = g) ∧
    ∀ (s u : Fs P) (p : P) (path : List Byte) (parent : Bool) (r : Option (Fin NINODE × Name)),
      namex p path parent s = .ok (r, u) →
        ∀ i, (u.itable i).ref = (s.itable i).ref + if r.map Prod.fst = some i then 1 else 0 := by
  have inv : CallInv t :=
    Run.inv (boot_callInv ninodes disk initproc) (fun inv step => inv.step step) run
  have count : ∀ f, (t.ftable f).ref = holders t.slots f := fun f => by
    simpa using inv.file f
  refine ⟨count, inv.unused, fun i => by simpa using inv.inode i, fun page => ?_,
    inv.pipes.unique, ?_⟩
  · constructor
    · intro isPipe
      obtain ⟨pi, here⟩ := Option.ne_none_iff_exists'.mp isPipe
      obtain ⟨writable, isOpen⟩ := inv.pipes.live page pi here
      obtain ⟨f, isEnd⟩ := (inv.pipes.ends (page, writable)).mp (by simp [Fs.endOpen, here, isOpen])
      refine ⟨f, writable, isEnd, ?_⟩
      -- a file without a count has no type
      have used : (t.ftable f).ref ≠ 0 := fun zero => by
        rw [pipeEnd_of_none (inv.unused f zero)] at isEnd
        cases isEnd
      have bound := holders_nonneg t.slots f
      have same := count f
      omega
    · rintro ⟨f, writable, isEnd, _⟩ free
      have isOpen := (inv.pipes.ends (page, writable)).mpr ⟨f, isEnd⟩
      rw [Fs.endOpen, free] at isOpen
      cases isOpen
  · intro s u p path parent r done i
    have moves := (namex_counts p path parent s 0).ok (Moves.refl s) done
    rw [moves.ref, zero_add]
    exact congrArg _ (oneOf_apply _ i)

/-- An image with an empty root directory. -/
def emptyImage : Nat → Dinode := fun inum =>
  if inum = ROOTINO then ⟨.dir, 0, 0, 1, [⟨ROOTINO, dot⟩, ⟨ROOTINO, dotdot⟩]⟩
    else ⟨.free, 0, 0, 0, []⟩

def Fs.counts (s : Fs P) : List Int × List Int :=
  ((List.finRange NINODE).map fun i => (s.itable i).ref, (List.finRange NFILE).map
    fun f => (s.ftable f).ref)

/-- The theorem at a run: the first process makes a directory, goes there, opens a new file, makes a
pipe, forks and closes its read end. -/
theorem references_match_holders_fork : ∃ t : Fs (Fin 2), Run FsCall.Step (Fs.boot 10 emptyImage 0)
      [.mkdir 0 (some [0x61]), .chdir 0 (some [0x61]),
        .open 0 (some [0x62]) ⟨false, true, true, false⟩,
        .pipe 0 (some 5) true, .fork 0 (some 1), .close 0 1] t ∧
    t.counts = ([1, 2] ++ List.replicate 48 0, [2, 1, 2] ++ List.replicate 97 0) ∧
    (∀ f, (t.ftable f).ref = holders t.slots f) ∧
    ∀ i, (t.itable i).ref = holders (fun f => (t.ftable f).inode) i + holders t.cwd i := by
  obtain ⟨t, run, seen⟩ := run_of_observed Fs.counts (show (execAll FsCall.complete
      [.mkdir 0 (some [0x61]), .chdir 0 (some [0x61]),
        .open 0 (some [0x62]) ⟨false, true, true, false⟩,
        .pipe 0 (some 5) true, .fork 0 (some 1), .close 0 1]
        (Fs.boot 10 emptyImage (0 : Fin 2))).map _ =
      some ([1, 2] ++ List.replicate 48 0, [2, 1, 2] ++ List.replicate 97 0) by decide +kernel)
  have holds := references_match_holders run
  exact ⟨t, run, seen, holds.1, holds.2.2.1⟩

end Xv6
