/-
**The processes of a command tree** share its pipes as the tree says.

`ShellInv` holds in every state that is reached from `Shell.initial`. Beside the tables of the
single processes (`Proc.Wired`) it says that every path is started at most once (`once`): a path is
pending in one process only, and what is started leaves the pending paths. So a node of the tree
makes at most one pipe (`single`), and both sides of the node are wired with that one (`named`).

`runcmd_wires` is the result for a whole run.
-/

import Xv6.Sh.Wiring
import Xv6.Sh.Correct

namespace Xv6.Sh

open Lib Function

/-! ### Paths and the pipes made on the way -/

/-- The pipe that a step down the tree goes through. -/
def Branch.through : Branch → Option Nat
  | .left k | .right k => some k
  | _ => none

/-- Every pipe of the path was made where the path has it. -/
def Named (node : Nat → Option Path) : Path → Prop
  | [] => True
  | branch :: path => (∀ k, branch.through = some k → node k = some path) ∧ Named node path

/-- A branch without the number of its pipe. -/
def Branch.plain : Branch → Branch
  | .left _ => .left 0
  | .right _ => .right 0
  | branch => branch

/-- The place in the tree that a path leads to. -/
def place (path : Path) : List Branch := path.map Branch.plain

section Paths

variable {node wider : Nat → Option Path}

theorem Named.mono {path : Path} (named : Named node path)
    (keeps : ∀ k at_, node k = some at_ → wider k = some at_) : Named wider path := by
  induction path with
  | nil => trivial
  | cons branch path ih => exact ⟨fun k through => keeps k path (named.1 k through), ih named.2⟩

/-- **Where every node makes one pipe, a place has one path.** -/
theorem Named.eq_of_place (single : ∀ j k path, node j = some path → node k = some path → j = k)
    {path path' : Path} (named : Named node path) (named' : Named node path')
    (same : place path = place path') : path = path' := by
  induction path generalizing path' with
  | nil =>
    cases path' with
    | nil => rfl
    | cons branch' path' => cases same
  | cons branch path ih =>
    cases path' with
    | nil => cases same
    | cons branch' path' =>
      obtain ⟨plain, rest⟩ := List.cons.inj same
      obtain rfl := ih named.2 named'.2 rest
      have sameBranch : branch = branch' := by
        cases branch <;> cases branch' <;> cases plain
        -- one side of a node goes through the one pipe of the node
        case left.left.refl j k => rw [single j k path (named.1 j rfl) (named'.1 k rfl)]
        case right.right.refl j k => rw [single j k path (named.1 j rfl) (named'.1 k rfl)]
        all_goals rfl
      rw [sameBranch]

end Paths

/-! ### The invariant -/

/-- The pipes that a process knows about were made where it says. -/
def Proc.Named (node : Nat → Option Path) (p : Proc) : Prop :=
  Sh.Named node p.path ∧
  match p.pc with
  | .pipeFork _ _ k _ _ | .pipeFork2 _ k _ _ | .pipeClose0 k _ _
  | .pipeClose1 k _ => node k = some p.path
  | .sideClose side _ k _ _ | .sideDup side _ k _ _ | .sideClose0 side _ k _ _
  | .sideClose1 side _ k _ =>
    ∃ above, p.path = side.branch k :: above
  | _ => True

/-- The paths that are started or pending. -/
def Shell.entries (s : Shell) : List Path := s.started ++ s.procs.flatMap Proc.pending

structure ShellInv (root : Cmd) (s : Shell) : Prop where
  wired : ∀ p ∈ s.procs, p.Wired
  runs : ∀ p ∈ s.procs, p.Runs root
  /-- no path is started twice -/
  once : s.entries.Nodup
  above : ∀ branch path, branch :: path ∈ s.entries → path ∈ s.started
  named : ∀ p ∈ s.procs, p.Named s.node
  namedStarted : ∀ path ∈ s.started, Named s.node path
  made : ∀ k path, s.node k = some path → path ∈ s.started ∧ k < s.pipes
  /-- every node makes one pipe -/
  single : ∀ j k path, s.node j = some path → s.node k = some path → j = k

namespace Proc

variable {p : Proc} {node wider : Nat → Option Path}

theorem Named.mono (named : p.Named node)
    (keeps : ∀ k path, node k = some path → wider k = some path) : p.Named wider := by
  refine ⟨Sh.Named.mono named.1 keeps, ?_⟩
  have known := named.2
  revert known
  cases p.pc with
  | pipeFork _ _ k _ _ | pipeFork2 _ k _ _ | pipeClose0 k _ _ | pipeClose1 k _ => exact keeps k _
  | _ => exact id

theorem Named.advance (named : p.Named node) (k : Nat)
    (keeps : ∀ k path, node k = some path → wider k = some path)
    (made : p.pc.makesPipe = true → wider k = some p.path) :
    (p.advance k).1.Named wider ∧ ∀ q ∈ (p.advance k).2, q.Named wider := by
  obtain ⟨files, pc, path⟩ := p
  have here : Sh.Named wider path := named.1.mono keeps
  have noChild : ∀ q ∈ (none : Option Proc), q.Named wider := by simp
  have plain : ∀ branch : Branch, branch.through = none → Sh.Named wider (branch :: path) := by
    intro branch none
    refine ⟨fun k through => ?_, here⟩
    rw [none] at through
    cases through
  cases pc with
  | entry cmd =>
    cases cmd with
    | exec argv =>
      cases argv with
      | nil | cons arg argv => exact ⟨⟨here, trivial⟩, noChild⟩
    | redir cmd file efile mode fd => exact ⟨⟨here, trivial⟩, noChild⟩
    | pipe left right =>
      simp only [Proc.advance]
      split
      · split
        · exact ⟨⟨here, made rfl⟩, noChild⟩
        · exact ⟨⟨here, trivial⟩, noChild⟩
      · exact ⟨⟨here, trivial⟩, noChild⟩
    | list left right | back cmd =>
      refine ⟨⟨here, trivial⟩, fun q isChild => ?_⟩
      cases isChild
      exact ⟨plain _ rfl, trivial⟩
  | reopen cmd fd =>
    simp only [Proc.advance]
    split
    · exact ⟨⟨plain _ rfl, trivial⟩, noChild⟩
    · exact ⟨⟨here, trivial⟩, noChild⟩
  | listWait right => exact ⟨⟨plain _ rfl, trivial⟩, noChild⟩
  | pipeFork left right j p0 p1 | pipeFork2 right j p0 p1 =>
    have at_ : wider j = some path := keeps j path named.2
    refine ⟨⟨here, at_⟩, fun q isChild => ?_⟩
    cases isChild
    refine ⟨⟨fun i through => ?_, here⟩, path, rfl⟩
    cases through
    exact at_
  | pipeClose0 j p0 p1 => exact ⟨⟨here, keeps j path named.2⟩, noChild⟩
  | sideClose side cmd j p0 p1 | sideClose0 side cmd j p0 p1 => exact ⟨⟨here, named.2⟩, noChild⟩
  | sideDup side cmd j p0 p1 =>
    simp only [Proc.advance]
    split
    · split
      · exact ⟨⟨here, named.2⟩, noChild⟩
      · exact ⟨⟨here, trivial⟩, noChild⟩
    · exact ⟨⟨here, trivial⟩, noChild⟩
  | _ => exact ⟨⟨here, trivial⟩, noChild⟩

end Proc

namespace ShellInv

variable {root : Cmd} {s : Shell} {before after : List Proc} {p : Proc}

theorem initial (root : Cmd) : ShellInv root (Shell.initial root) where
  wired p member := by
    cases List.mem_singleton.mp member
    rfl
  runs p member := by
    cases List.mem_singleton.mp member
    rfl
  once := List.nodup_singleton _
  above branch path member := by cases List.mem_singleton.mp member
  named p member := by
    cases List.mem_singleton.mp member
    exact ⟨trivial, trivial⟩
  namedStarted := nofun
  made := nofun
  single := nofun

/-- A process after a step: one of the others, the one that made the call, or its child. -/
theorem forall_next {P : Proc → Prop} (split : s.procs = before ++ p :: after)
    (all : ∀ q ∈ s.procs, P q)
    (advanced : P (p.advance s.pipes).1 ∧ ∀ q ∈ (p.advance s.pipes).2, P q) :
    ∀ q ∈ (s.next before after p).procs, P q := by
  intro q member
  have cases : q ∈ before ∨ q = (p.advance s.pipes).1 ∨ q ∈ after ∨ q ∈ (p.advance s.pipes).2 := by
    simpa [Shell.next] using member
  obtain there | rfl | there | isChild := cases
  · exact all q (split ▸ List.mem_append_left _ there)
  · exact advanced.1
  · exact all q (split ▸ List.mem_append_right _ (List.mem_cons_of_mem _ there))
  · exact advanced.2 q isChild

/-- The paths that are started, or pending in another process. -/
def others (s : Shell) (before after : List Proc) : List Path :=
  s.started ++ (before.flatMap Proc.pending ++ after.flatMap Proc.pending)

theorem entries_perm (split : s.procs = before ++ p :: after) :
    s.entries.Perm (others s before after ++ p.pending) := by
  refine List.perm_iff_count.mpr fun path => ?_
  simp only [Shell.entries, others, split, List.flatMap_append, List.flatMap_cons,
    List.count_append]
  omega

theorem entries_next_perm : (s.next before after p).entries.Perm
    ((if p.pc.starts then [p.path] else []) ++
      (others s before after ++ p.pendingAfter s.pipes)) := by
  refine List.perm_iff_count.mpr fun path => ?_
  simp only [Shell.entries, Shell.next, others, Proc.pendingAfter, List.flatMap_append,
    List.flatMap_cons, List.count_append]
  cases p.pc.starts with
  | true =>
    simp only [if_true, List.count_cons, List.count_nil]
    omega
  | false =>
    simp only [Bool.false_eq_true, if_false, List.count_nil]
    omega

theorem fresh (inv : ShellInv root s) (split : s.procs = before ++ p :: after)
    (starts : p.pc.starts = true) :
    p.path ∉ others s before after ∧ ∀ branch, branch :: p.path ∉ others s before after := by
  have once := (entries_perm split).nodup_iff.mp inv.once
  rw [Proc.pending_of_starts starts] at once
  have new : p.path ∉ others s before after := fun member =>
    List.disjoint_of_nodup_append once member List.mem_cons_self
  refine ⟨new, fun branch member => new ?_⟩
  have isEntry := (entries_perm split).mem_iff.mpr (List.mem_append_left _ member)
  exact List.mem_append_left _ (inv.above branch p.path isEntry)

theorem next_once (inv : ShellInv root s) (split : s.procs = before ++ p :: after) :
    (s.next before after p).entries.Nodup := by
  have once := (entries_perm split).nodup_iff.mp inv.once
  rw [entries_next_perm.nodup_iff]
  cases starts : p.pc.starts with
  | true =>
    obtain ⟨new, newBelow⟩ := inv.fresh split starts
    obtain ⟨distinct, below⟩ := Proc.pendingAfter_starts starts s.pipes
    have rest : (others s before after ++ p.pendingAfter s.pipes).Nodup := by
      refine once.of_append_left.append distinct fun path member isBelow => ?_
      obtain ⟨branch, rfl⟩ := below path isBelow
      exact newBelow branch member
    refine List.nodup_cons.mpr ⟨fun member => ?_, rest⟩
    obtain there | isBelow :=
      List.mem_append.mp (show p.path ∈ others s before after ++ p.pendingAfter s.pipes from member)
    · exact new there
    · obtain ⟨branch, same⟩ := below _ isBelow
      exact List.cons_ne_self _ _ same.symm
  | false =>
    obtain ⟨kept, perm, sub⟩ := (List.Subperm.refl (others s before after)).append
      (Proc.pendingAfter_subperm starts s.pipes)
    exact perm.nodup_iff.mp (once.sublist sub)

theorem started_subset : s.started ⊆ (s.next before after p).started := by
  intro path member
  show path ∈ if p.pc.starts then p.path :: s.started else s.started
  split
  · exact List.mem_cons_of_mem _ member
  · exact member

theorem next_above (inv : ShellInv root s) (split : s.procs = before ++ p :: after)
    (branch : Branch) (path : Path) (member : branch :: path ∈ (s.next before after p).entries) :
    path ∈ (s.next before after p).started := by
  have kept : branch :: path ∈ others s before after ++ p.pending →
      path ∈ (s.next before after p).started := fun there =>
    started_subset (inv.above branch path ((entries_perm split).mem_iff.mpr there))
  have member := entries_next_perm.mem_iff.mp member
  cases starts : p.pc.starts with
  | true =>
    rw [starts] at member
    obtain isPath | member := List.mem_append.mp member
    · refine kept (List.mem_append_right _ ?_)
      rw [Proc.pending_of_starts starts]
      exact isPath
    · obtain there | isBelow := List.mem_append.mp member
      · exact kept (List.mem_append_left _ there)
      · obtain ⟨_, same⟩ := (Proc.pendingAfter_starts starts s.pipes).2 _ isBelow
        obtain ⟨-, rfl⟩ := List.cons.inj same
        show p.path ∈ if p.pc.starts then p.path :: s.started else s.started
        rw [starts]
        exact List.mem_cons_self
  | false =>
    rw [starts] at member
    have member : branch :: path ∈ others s before after ++ p.pendingAfter s.pipes := member
    obtain there | isBelow := List.mem_append.mp member
    · exact kept (List.mem_append_left _ there)
    · exact kept
        (List.mem_append_right _ ((Proc.pendingAfter_subperm starts s.pipes).subset isBelow))

theorem next_node (inv : ShellInv root s) (k : Nat) (path : Path) (at_ : s.node k = some path) :
    (s.next before after p).node k = some path := by
  have older := (inv.made k path at_).2
  show (if p.pc.makesPipe then update s.node s.pipes (some p.path) else s.node) k = some path
  split
  · rw [update_of_ne older.ne]
    exact at_
  · exact at_

theorem starts_of_makesPipe (makes : p.pc.makesPipe = true) : p.pc.starts = true := by
  unfold RunPc.makesPipe at makes
  split at makes
  case h_1 left right isPipe =>
    rw [isPipe]
    rfl
  case h_2 => cases makes

theorem path_mem_started (starts : p.pc.starts = true) :
    p.path ∈ (s.next before after p).started := by
  show p.path ∈ if p.pc.starts then p.path :: s.started else s.started
  rw [starts]
  exact List.mem_cons_self

variable {k : Nat} {cmd : Cmd}

/-- A node of the new state: it was there, or this call made the pipe. -/
theorem node_next {path : Path} (at_ : (s.next before after p).node k = some path) :
    s.node k = some path ∨ p.pc.makesPipe = true ∧ k = s.pipes ∧ p.path = path := by
  have at_ : (if p.pc.makesPipe then update s.node s.pipes (some p.path) else s.node) k =
    some path := at_
  split at at_
  case isTrue makes =>
    revert at_
    exact update_ind (fun new => .inr ⟨makes, rfl, Option.some.inj new⟩) fun _ => .inl
  case isFalse => exact .inl at_

theorem next_made (inv : ShellInv root s) (k : Nat) (path : Path)
    (at_ : (s.next before after p).node k = some path) :
    path ∈ (s.next before after p).started ∧ k < (s.next before after p).pipes := by
  show _ ∧ k < if p.pc.makesPipe then s.pipes + 1 else s.pipes
  obtain old | ⟨makes, rfl, rfl⟩ := node_next at_
  · obtain ⟨started, older⟩ := inv.made k path old
    refine ⟨started_subset started, ?_⟩
    split <;> omega
  · rw [if_pos makes]
    exact ⟨path_mem_started (starts_of_makesPipe makes), Nat.lt_succ_self _⟩

theorem next_single (inv : ShellInv root s) (split : s.procs = before ++ p :: after) (j k : Nat)
    (path : Path) (first : (s.next before after p).node j = some path)
    (second : (s.next before after p).node k = some path) : j = k := by
  -- a node that has its pipe was started, so a process that starts there would start it again
  have notAgain : ∀ i, p.pc.makesPipe = true → s.node i ≠ some p.path := fun i makes at_ =>
    (inv.fresh split (starts_of_makesPipe makes)).1 (List.mem_append_left _ (inv.made i _ at_).1)
  obtain old | ⟨makes, rfl, rfl⟩ := node_next first
  · obtain old' | ⟨makes, rfl, rfl⟩ := node_next second
    · exact inv.single j k path old old'
    · exact absurd old (notAgain j makes)
  · obtain old' | ⟨-, rfl, -⟩ := node_next second
    · exact absurd old' (notAgain k makes)
    · rfl

theorem step {t : Shell} {i : Nat} (standard : root.Standard) (inv : ShellInv root s)
    (step : s.Step i t) : ShellInv root t := by
  obtain ⟨before, p, after, split, -, rfl⟩ := step
  have here : p ∈ s.procs := split ▸ List.mem_append_right _ List.mem_cons_self
  have keeps : ∀ k path, s.node k = some path → (s.next before after p).node k = some path :=
    inv.next_node
  have made : p.pc.makesPipe = true → (s.next before after p).node s.pipes = some p.path := by
    intro makes
    show (if p.pc.makesPipe then update s.node s.pipes (some p.path) else s.node) s.pipes = _
    rw [if_pos makes, update_self]
  exact {
    wired :=
      forall_next split inv.wired ((inv.wired p here).advance (inv.runs p here) standard s.pipes)
    runs := forall_next split inv.runs ((inv.runs p here).advance s.pipes)
    once := inv.next_once split
    above := inv.next_above split
    named := by
      refine forall_next split (fun q member => ?_) ((inv.named p here).advance s.pipes keeps made)
      exact (inv.named q member).mono keeps
    namedStarted := by
      intro path member
      have member : path ∈ if p.pc.starts then p.path :: s.started else s.started := member
      split at member
      · obtain rfl | member := List.mem_cons.mp member
        · exact (inv.named p here).1.mono keeps
        · exact (inv.namedStarted path member).mono keeps
      · exact (inv.namedStarted path member).mono keeps
    made := inv.next_made
    single := inv.next_single split }

end ShellInv

/-! ### Whole runs -/

/-- `runcmd` was entered at a path. -/
def Shell.Entered (s : Shell) (path : Path) : Prop :=
  path ∈ s.started ∨ ∃ p ∈ s.procs, p.pc.starts = true ∧ p.path = path

namespace ShellInv

variable {root : Cmd} {s : Shell} {path : Path} {p : Proc}

theorem named_of_entered (inv : ShellInv root s) (entered : s.Entered path) :
    Named s.node path := by
  obtain started | ⟨p, member, -, rfl⟩ := entered
  · exact inv.namedStarted path started
  · exact (inv.named p member).1

/-- A process that is still wiring its side of a pipe has not entered `runcmd`, and no other process
has entered it there. -/
theorem not_entered (inv : ShellInv root s) (member : p ∈ s.procs) (waits : p.pending = [p.path])
    (notYet : p.pc.starts = false) : ¬ s.Entered p.path := by
  have isPending : p.path ∈ p.pending := by
    rw [waits]
    exact List.mem_cons_self
  rintro (started | ⟨q, there, starts, same⟩)
  · exact List.disjoint_of_nodup_append inv.once started
      (List.mem_flatMap.mpr ⟨p, member, isPending⟩)
  · have different : p ≠ q := by
      rintro rfl
      rw [notYet] at starts
      cases starts
    have apart := (List.nodup_flatMap.mp inv.once.of_append_right).2
    have symmetric : Std.Symm (Function.onFun List.Disjoint Proc.pending) :=
      ⟨fun _ _ disjoint _ first second => disjoint second first⟩
    refine apart.forall member there different isPending ?_
    rw [Proc.pending_of_starts starts, same]
    exact List.mem_cons_self

theorem not_wiring (inv : ShellInv root s)
    (sides : ∀ side : Side, s.Entered (side.branch k :: path))
    (closed : ∀ p ∈ s.procs, p.path = path → p.pc.wiring ≠ some k) (member : p ∈ s.procs) :
    p.pc.wiring ≠ some k := by
  have at_ : s.node k = some path := (inv.named_of_entered (sides .left)).1 k rfl
  have named := inv.named p member
  have child : ∀ side : Side, p.pending = [p.path] → p.pc.starts = false →
      ¬ ∃ above, p.path = side.branch k :: above := by
    rintro side waits notYet ⟨above, same⟩
    refine inv.not_entered member waits notYet ?_
    have here := named.1
    rw [same] at here
    have through : s.node k = some above := here.1 k (by cases side <;> rfl)
    rw [at_] at through
    cases through
    rw [same]
    exact sides side
  intro wiring
  have closed := closed p member
  obtain ⟨files, pc, path'⟩ := p
  cases pc <;> cases wiring
  case pipeFork | pipeFork2 | pipeClose0 | pipeClose1 =>
    have here : s.node k = some path' := named.2
    rw [at_] at here
    exact closed (Option.some.inj here).symm rfl
  case sideClose side _ _ _ | sideDup side _ _ _ | sideClose0 side _ _ _ | sideClose1 side _ _ =>
    exact child side rfl rfl named.2

end ShellInv

theorem Named.suffix {node : Nat → Option Path} {path above : Path} {branch : Branch}
    (named : Named node path) (through : branch.through = some k) (at_ : node k = some above)
    (member : branch ∈ path) : branch :: above <:+ path := by
  induction path with
  | nil => cases member
  | cons head path ih =>
    obtain rfl | member := List.mem_cons.mp member
    · have here := named.1 k through
      rw [at_] at here
      cases here
      exact List.suffix_refl _
    · exact (ih named.2 member).trans (List.suffix_cons _ _)

/-- **`runcmd` wires descriptors as the tree says.** In every state that is reached by running a
command tree with exactly the descriptors 0, 1 and 2 open:

* a process that enters `runcmd`, or has called `exec`, has exactly the descriptors 0, 1 and 2 open,
  with the files that `bindings` gives along its path; on entry its command is the one of the tree
  there;
* two sides of pipes are wired with the same pipe exactly if they are sides of the same node;
* when both children of a node have entered `runcmd`, and the process of the node has closed its
  copies of the ends, the write end is open only in processes of the left side and the read end only
  in processes of the right side. -/
theorem runcmd_wires (tree : CmdTree) {s : Shell} {calls : List Nat}
    (run : Run Shell.Step (Shell.initial tree.1) calls s) :
    (∀ p ∈ s.procs, ∀ cmd, p.pc = .entry cmd →
      tree.1.at p.path = some cmd ∧ p.files = Shell.table (bindings p.path)) ∧
    (∀ p ∈ s.procs, ∀ argv, p.pc = .execd argv → p.files = Shell.table (bindings p.path)) ∧
    (∀ (one other : Side) (j k : Nat) (path path' : Path), s.Entered (one.branch j :: path) →
      s.Entered (other.branch k :: path') → (place path = place path' ↔ j = k)) ∧
    ∀ k path, s.Entered (.left k :: path) → s.Entered (.right k :: path) →
      (∀ p ∈ s.procs, p.path = path → p.pc.wiring ≠ some k) → ∀ p ∈ s.procs,
        (some (.writeEnd k) ∈ p.files → .left k :: path <:+ p.path) ∧
        (some (.readEnd k) ∈ p.files → .right k :: path <:+ p.path) := by
  have inv : ShellInv tree.1 s := run.inv (ShellInv.initial _) (ShellInv.step tree.2)
  refine ⟨fun p member cmd isEntry => ?_, fun p member argv isExec => ?_, ?_, ?_⟩
  · have wired := inv.wired p member
    have runs := inv.runs p member
    simp only [Proc.Wired, Proc.Runs, isEntry] at wired runs
    exact ⟨runs, wired⟩
  · have wired := inv.wired p member
    simp only [Proc.Wired, isExec] at wired
    exact wired
  · intro one other j k path path' entered entered'
    have named := inv.named_of_entered entered
    have named' := inv.named_of_entered entered'
    have at_ : s.node j = some path := named.1 j (by cases one <;> rfl)
    have at' : s.node k = some path' := named'.1 k (by cases other <;> rfl)
    constructor
    · intro same
      cases Named.eq_of_place inv.single named.2 named'.2 same
      exact inv.single j k path at_ at'
    · rintro rfl
      rw [at_] at at'
      cases at'
      rfl
  · intro k path left right closed p member
    have at_ : s.node k = some path := (inv.named_of_entered left).1 k rfl
    have wired : p.pc.wiring ≠ some k := by
      refine inv.not_wiring (fun side => ?_) closed member
      cases side with
      | left => exact left
      | right => exact right
    constructor
    · intro holds
      have holder : .left k ∈ p.path ∨ _ :=
        (inv.wired p member).holder (show some (Side.left.file k) ∈ _ from holds)
      exact (inv.named p member).1.suffix rfl at_ (holder.resolve_right wired)
    · intro holds
      have holder : .right k ∈ p.path ∨ _ :=
        (inv.wired p member).holder (show some (Side.right.file k) ∈ _ from holds)
      exact (inv.named p member).1.suffix rfl at_ (holder.resolve_right wired)

/-! ### The trees of the parser -/

theorem standard_wrap (rs : List Redir) (standard : cmd.Standard) : (wrap rs cmd).Standard := by
  induction rs using List.reverseRecOn with
  | nil => exact standard
  | append_singleton rs r ih =>
    rw [wrap_append]
    refine ⟨?_, ih⟩
    cases r.op <;> decide

theorem standard_back (k : Nat) (standard : cmd.Standard) : (Cmd.back^[k] cmd).Standard := by
  induction k with
  | zero => exact standard
  | succ k ih =>
    rw [Function.iterate_succ_apply']
    exact ih

theorem Derives.standard {n : Nonterminal} {ts : List Tok} (derives : Derives n ts cmd) :
    cmd.Standard := by
  induction derives with
  | line k first ih => exact standard_back k ih
  | list k first second ih ih' => exact ⟨standard_back k ih, ih'⟩
  | exec only ih => exact ih
  | pipe first second ih ih' => exact ⟨ih, ih'⟩
  | block body redirs ih => exact standard_wrap _ ih
  | words redirs args few => exact standard_wrap _ trivial

/-- **Every tree that the parser returns is one that `runcmd` wires.** -/
theorem parsecmd_standard {buf mem : List Byte} (done : parsecmd buf = .ok (cmd, mem)) :
    cmd.Standard := by
  have isSound := parse_sound buf 0 (at_start buf)
  unfold parsecmd at done
  cases run : parsetree buf 0 with
  | ok r =>
    rw [run] at isSound done
    cases done
    exact isSound.standard
  | error e =>
    rw [run] at done
    cases done

/-! ### A run -/

namespace Shell

def exec (s : Shell) (i : Nat) : Option Shell :=
  match s.procs.drop i with
  | [] => none
  | p :: after => if i ≤ s.procs.length then some (s.next (s.procs.take i) after p) else none

theorem Step.of_exec {s t : Shell} {i : Nat} (done : s.exec i = some t) : s.Step i t := by
  unfold exec at done
  split at done
  case h_1 => cases done
  case h_2 p after rest =>
    split at done
    case isTrue small =>
      cases done
      refine ⟨s.procs.take i, p, after, ?_, List.length_take_of_le small, rfl⟩
      rw [← rest, List.take_append_drop]
    case isFalse => cases done

end Shell

/-- The tree of `a|b>c`. -/
def pipeline : Cmd :=
  .pipe (.exec [(0, 1)]) (.redir (.exec [(2, 3)]) 4 5 (O_WRONLY ||| O_CREATE ||| O_TRUNC) 1)

theorem parsecmd_pipeline : parsecmd [chr 'a', chr '|', chr 'b', chr '>', chr 'c', 0] =
    .ok (pipeline, [chr 'a', 0, chr 'b', 0, chr 'c', 0]) := by
  cbv

/-- `a|b>c` is run until both programs are started: `a` writes to the pipe, and `b` reads from it
and writes to the file. -/
theorem runcmd_wires_pipeline : ∃ s calls, Run Shell.Step (Shell.initial pipeline) calls s ∧
    s.procs.map (fun p => (p.pc, p.path)) = [(.pipeWait, []), (.execd [(0, 1)], [.left 0]),
      (.execd [(2, 3)], [.redir 1, .right 0])] ∧
    ∀ p ∈ s.procs, ∀ argv, p.pc = .execd argv → p.files = Shell.table (bindings p.path) := by
  obtain ⟨s, run, seen⟩ := run_of_observed (fun s : Shell => s.procs.map fun p => (p.pc, p.path))
    (show (execAll Shell.exec [0, 0, 0, 0, 0, 1, 1, 1, 1, 1, 2, 2, 2, 2, 2, 2, 2]
      (Shell.initial pipeline)).map _ = some [(.pipeWait, []), (.execd [(0, 1)], [.left 0]),
      (.execd [(2, 3)], [.redir 1, .right 0])] by decide +kernel)
  have run := run.mono Shell.Step.of_exec
  exact ⟨s, _, run, seen, (runcmd_wires ⟨pipeline, parsecmd_standard parsecmd_pipeline⟩ run).2.1⟩

end Xv6.Sh
