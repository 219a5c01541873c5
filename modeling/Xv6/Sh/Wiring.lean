/-
**`runcmd` wires descriptors as the tree says.**

* `Proc.Wired`: at every point of `runcmd` the table of a process is the one that `bindings` gives
  for its path, up to the pipe that it is about to hand on. One system call keeps it
  (`Wired.advance`); this is where the lowest free descriptor matters.
* `Proc.Runs`: the command of a process is the one at its path.
* `Proc.pending`: what a process will still start. No system call makes more of it
  (`pendingAfter_starts`, `pendingAfter_subperm`).
* `Wired.holder`: who may hold an end of a pipe.
-/

import Xv6.Sh.Run
import Xv6.Sh.Grammar

namespace Xv6.Sh

open Lib Function

/-! ### One process -/

/-- The table of a process that has made the pipe `k`. -/
def wide (files : Nat → File) (k : Nat) : Files :=
  [some (files 0), some (files 1), some (files 2), some (.readEnd k), some (.writeEnd k)] ++
    List.replicate (NOFILE - 5) none

/-- The end of the pipe that a side keeps. -/
def Side.file (k : Nat) : Side → File
  | .left => .writeEnd k
  | .right => .readEnd k

theorem bindings_branch (side : Side) (k : Nat) (path : Path) :
    bindings (side.branch k :: path) = update (bindings path) side.std (side.file k) := by
  cases side <;> rfl

namespace Proc

/-- **The open files of a process**, by the point that it is at. -/
def Wired (p : Proc) : Prop :=
  match p.pc with
  | .entry _ | .execd _ | .listWait _ | .pipeWait => p.files = Shell.table (bindings p.path)
  | .reopen _ fd => fd < 3 ∧ p.files = (Shell.table (bindings p.path)).set fd none
  | .pipeFork _ _ k p0 p1 | .pipeFork2 _ k p0 p1 | .pipeClose0 k p0 p1 =>
    p0 = 3 ∧ p1 = 4 ∧ p.files = wide (bindings p.path) k
  | .pipeClose1 k p1 => p1 = 4 ∧ p.files = (wide (bindings p.path) k).set 3 none
  | .sideClose side _ k p0 p1 =>
    p0 = 3 ∧ p1 = 4 ∧ ∃ path, p.path = side.branch k :: path ∧ p.files = wide (bindings path) k
  | .sideDup side _ k p0 p1 =>
    p0 = 3 ∧ p1 = 4 ∧ ∃ path, p.path = side.branch k :: path ∧
      p.files = (wide (bindings path) k).set side.std none
  | .sideClose0 _ _ k p0 p1 => p0 = 3 ∧ p1 = 4 ∧ p.files = wide (bindings p.path) k
  | .sideClose1 _ _ k p1 => p1 = 4 ∧ p.files = (wide (bindings p.path) k).set 3 none
  | .exited => p.files = closed

/-- The command of a process is the one at its path. -/
def Runs (root : Cmd) (p : Proc) : Prop :=
  match p.pc with
  | .entry cmd | .sideClose _ cmd _ _ _ | .sideDup _ cmd _ _ _ | .sideClose0 _ cmd _ _ _
  | .sideClose1 _ cmd _ _ => root.at p.path = some cmd
  | .reopen cmd fd => ∃ file efile mode, root.at p.path = some (.redir cmd file efile mode fd)
  | .listWait right => ∃ left, root.at p.path = some (.list left right)
  | .pipeFork left right _ _ _ => root.at p.path = some (.pipe left right)
  | .pipeFork2 right _ _ _ => ∃ left, root.at p.path = some (.pipe left right)
  | _ => True

end Proc

/-! ### Descriptors -/

theorem fdalloc_reopen {fd : Nat} (small : fd < 3) (files : Nat → File) (f : File) :
    fdalloc ((Shell.table files).set fd none) f = some (fd, Shell.table (update files fd f)) := by
  obtain rfl | rfl | rfl : fd = 0 ∨ fd = 1 ∨ fd = 2 := by omega
  all_goals rfl

theorem dup_side (side : Side) (files : Nat → File) (k : Nat) :
    ((wide files k).set side.std none)[side.pick 3 4]? = some (some (side.file k)) ∧
      fdalloc ((wide files k).set side.std none) (side.file k) =
        some (side.std, wide (update files side.std (side.file k)) k) := by
  cases side with
  | left => exact ⟨rfl, rfl⟩
  | right => exact ⟨rfl, rfl⟩

theorem Cmd.Standard.at {root cmd : Cmd} (standard : root.Standard) {path : Path}
    (found : root.at path = some cmd) : cmd.Standard := by
  induction path generalizing cmd with
  | nil =>
    cases found
    exact standard
  | cons branch path ih =>
    obtain ⟨above, here, below⟩ := Option.bind_eq_some_iff.mp found
    have outer := ih here
    unfold Cmd.down at below
    split at below
    · split at below
      · cases below
        exact outer.2
      · cases below
    · cases below
      exact outer.1
    · cases below
      exact outer.2
    · cases below
      exact outer.1
    · cases below
      exact outer.2
    · cases below
      exact outer
    · cases below

namespace Proc

variable {p : Proc} {root : Cmd}

/-- **One system call keeps the tables as the tree says**, in the process and in its new child. -/
theorem Wired.advance (wired : p.Wired) (runs : p.Runs root) (standard : root.Standard) (k : Nat) :
    (p.advance k).1.Wired ∧ ∀ q ∈ (p.advance k).2, q.Wired := by
  obtain ⟨files, pc, path⟩ := p
  cases pc with
  | entry cmd =>
    have same : files = Shell.table (bindings path) := wired
    subst same
    cases cmd with
    | exec argv =>
      cases argv with
      | nil => exact ⟨rfl, nofun⟩
      | cons arg argv => exact ⟨rfl, nofun⟩
    | redir cmd file efile mode fd => exact ⟨⟨(standard.at runs).1, rfl⟩, nofun⟩
    | pipe left right => exact ⟨⟨rfl, rfl, rfl⟩, nofun⟩
    | list left right | back cmd =>
      refine ⟨rfl, fun q isChild => ?_⟩
      cases isChild
      rfl
  | execd argv => exact ⟨rfl, nofun⟩
  | reopen cmd fd =>
    obtain ⟨small, same⟩ := wired
    have same : files = (Shell.table (bindings path)).set fd none := same
    subst same
    have found := fdalloc_reopen small (bindings path) (.opened path)
    simp only [Proc.advance, found]
    exact ⟨rfl, nofun⟩
  | listWait right | exited => exact ⟨wired, nofun⟩
  | pipeFork left right k p0 p1 | pipeFork2 right k p0 p1 =>
    obtain ⟨rfl, rfl, same⟩ := wired
    refine ⟨⟨rfl, rfl, same⟩, fun q isChild => ?_⟩
    cases isChild
    exact ⟨rfl, rfl, path, rfl, same⟩
  | pipeClose0 k p0 p1 | sideClose0 side cmd k p0 p1 =>
    obtain ⟨rfl, rfl, same⟩ := wired
    have same : files = wide (bindings path) k := same
    subst same
    exact ⟨⟨rfl, rfl⟩, nofun⟩
  | pipeClose1 k p1 | sideClose1 side cmd k p1 =>
    obtain ⟨rfl, same⟩ := wired
    have same : files = (wide (bindings path) k).set 3 none := same
    subst same
    exact ⟨rfl, nofun⟩
  | pipeWait => exact ⟨rfl, nofun⟩
  | sideClose side cmd k p0 p1 =>
    obtain ⟨rfl, rfl, above, here, same⟩ := wired
    have same : files = wide (bindings above) k := same
    subst same
    exact ⟨⟨rfl, rfl, above, here, rfl⟩, nofun⟩
  | sideDup side cmd k p0 p1 =>
    obtain ⟨rfl, rfl, above, here, same⟩ := wired
    have same : files = (wide (bindings above) k).set side.std none := same
    subst same
    obtain ⟨found, allocated⟩ := dup_side side (bindings above) k
    simp only [Proc.advance, found, allocated]
    refine ⟨⟨rfl, rfl, ?_⟩, nofun⟩
    have here : path = side.branch k :: above := here
    show wide _ k = wide (bindings path) k
    rw [here, bindings_branch]

theorem at_cons {path : Path} {cmd below : Cmd} {branch : Branch} (here : root.at path = some cmd)
    (down : cmd.down branch = some below) : root.at (branch :: path) = some below := by
  show (root.at path).bind _ = _
  rw [here]
  exact down

theorem Runs.advance (runs : p.Runs root) (k : Nat) :
    (p.advance k).1.Runs root ∧ ∀ q ∈ (p.advance k).2, q.Runs root := by
  obtain ⟨files, pc, path⟩ := p
  cases pc with
  | entry cmd =>
    have here : root.at path = some cmd := runs
    cases cmd with
    | exec argv =>
      cases argv with
      | nil | cons arg argv => exact ⟨trivial, nofun⟩
    | redir cmd file efile mode fd => exact ⟨⟨file, efile, mode, here⟩, nofun⟩
    | pipe left right =>
      simp only [Proc.advance]
      split
      · split
        · exact ⟨here, nofun⟩
        · exact ⟨trivial, nofun⟩
      · exact ⟨trivial, nofun⟩
    | list left right =>
      refine ⟨⟨left, here⟩, fun q isChild => ?_⟩
      cases isChild
      exact at_cons here rfl
    | back cmd =>
      refine ⟨trivial, fun q isChild => ?_⟩
      cases isChild
      exact at_cons here rfl
  | execd argv | pipeClose0 k p0 p1 | pipeClose1 k p1 | pipeWait | exited => exact ⟨trivial, nofun⟩
  | reopen cmd fd =>
    obtain ⟨file, efile, mode, here⟩ := runs
    simp only [Proc.advance]
    split
    · exact ⟨at_cons here (if_pos rfl), nofun⟩
    · exact ⟨trivial, nofun⟩
  | listWait right =>
    obtain ⟨left, here⟩ := runs
    exact ⟨at_cons here rfl, nofun⟩
  | pipeFork left right k p0 p1 =>
    refine ⟨⟨left, runs⟩, fun q isChild => ?_⟩
    cases isChild
    exact at_cons runs rfl
  | pipeFork2 right k p0 p1 =>
    obtain ⟨left, here⟩ := runs
    refine ⟨trivial, fun q isChild => ?_⟩
    cases isChild
    exact at_cons here rfl
  | sideClose side cmd k p0 p1 => exact ⟨runs, nofun⟩
  | sideDup side cmd k p0 p1 =>
    simp only [Proc.advance]
    split
    · split
      · exact ⟨runs, nofun⟩
      · exact ⟨trivial, nofun⟩
    · exact ⟨trivial, nofun⟩
  | sideClose0 side cmd k p0 p1 => exact ⟨runs, nofun⟩
  | sideClose1 side cmd k p1 => exact ⟨runs, nofun⟩

/-! ### Which commands are started -/

/-- The paths that a process, or a child that it is about to fork, will start the command of. -/
def pending (p : Proc) : List Path :=
  match p.pc with
  | .entry _ | .sideClose _ _ _ _ _ | .sideDup _ _ _ _ _ | .sideClose0 _ _ _ _ _
  | .sideClose1 _ _ _ _ => [p.path]
  | .reopen _ fd => [.redir fd :: p.path]
  | .listWait _ => [.second :: p.path]
  | .pipeFork _ _ k _ _ => [.left k :: p.path, .right k :: p.path]
  | .pipeFork2 _ k _ _ => [.right k :: p.path]
  | _ => []

theorem pending_of_starts (starts : p.pc.starts = true) : p.pending = [p.path] := by
  obtain ⟨files, pc, path⟩ := p
  cases pc with
  | entry cmd => rfl
  | _ => cases starts

/-- What is pending in a process and its new child after a system call. -/
def pendingAfter (p : Proc) (k : Nat) : List Path :=
  (p.advance k).1.pending ++ (p.advance k).2.toList.flatMap pending

/-- **A process that starts its command** leaves only commands right below it pending, each once. -/
theorem pendingAfter_starts (starts : p.pc.starts = true) (k : Nat) :
    (p.pendingAfter k).Nodup ∧ ∀ path ∈ p.pendingAfter k, ∃ branch, path = branch :: p.path := by
  obtain ⟨files, pc, path⟩ := p
  cases pc with
  | entry cmd =>
    cases cmd with
    | exec argv =>
      cases argv with
      | nil | cons arg argv => exact ⟨List.nodup_nil, nofun⟩
    | redir cmd file efile mode fd | back cmd =>
      refine ⟨List.nodup_singleton _, fun below member => ?_⟩
      exact ⟨_, List.mem_singleton.mp member⟩
    | pipe left right =>
      simp only [pendingAfter, Proc.advance]
      split
      · split
        · refine ⟨by simp [pending], fun below member => ?_⟩
          obtain rfl | rfl : below = _ ∨ below = _ := by simpa [pending] using member
          · exact ⟨_, rfl⟩
          · exact ⟨_, rfl⟩
        · exact ⟨List.nodup_nil, nofun⟩
      · exact ⟨List.nodup_nil, nofun⟩
    | list left right =>
      refine ⟨by simp [pendingAfter, Proc.advance, pending, child], fun below member => ?_⟩
      obtain rfl | rfl : below = _ ∨ below = _ := by
        simpa [pendingAfter, Proc.advance, pending, child] using member
      · exact ⟨_, rfl⟩
      · exact ⟨_, rfl⟩
  | _ => cases starts

/-- **Any other call** leaves nothing pending that was not. -/
theorem pendingAfter_subperm (goes : p.pc.starts = false) (k : Nat) :
    List.Subperm (p.pendingAfter k) p.pending := by
  obtain ⟨files, pc, path⟩ := p
  cases pc with
  | entry cmd => cases goes
  | reopen cmd fd =>
    simp only [pendingAfter, Proc.advance]
    split
    · exact List.Subperm.refl _
    · exact List.nil_subperm
  | sideDup side cmd k p0 p1 =>
    simp only [pendingAfter, Proc.advance]
    split
    · split
      · exact List.Subperm.refl _
      · exact List.nil_subperm
    · exact List.nil_subperm
  | pipeFork left right k p0 p1 => exact (List.Perm.swap _ _ []).subperm
  | _ => exact List.Subperm.refl _

end Proc

/-! ### Who holds the ends of a pipe -/

/-- The pipe that a process is wiring: it has made it, or was forked with both ends of it, and has
an end of it still to close. -/
def RunPc.wiring : RunPc → Option Nat
  | .pipeFork _ _ k _ _ | .pipeFork2 _ k _ _ | .pipeClose0 k _ _ | .pipeClose1 k _
  | .sideClose _ _ k _ _ | .sideDup _ _ k _ _ | .sideClose0 _ _ k _ _
  | .sideClose1 _ _ k _ => some k
  | _ => none

theorem mem_of_bindings {side : Side} {k i : Nat} {path : Path}
    (bound : bindings path i = side.file k) : side.branch k ∈ path := by
  induction path with
  | nil => cases side <;> cases bound
  | cons branch path ih =>
    cases branch with
    | redir fd =>
      simp only [bindings, update_apply] at bound
      split at bound
      · cases side <;> cases bound
      · exact List.mem_cons_of_mem _ (ih bound)
    | left j | right j =>
      simp only [bindings, update_apply] at bound
      split at bound
      · cases side <;> cases bound
        exact List.mem_cons_self
      · exact List.mem_cons_of_mem _ (ih bound)
    | first | second | back => exact List.mem_cons_of_mem _ (ih bound)

section Holders

variable {path : Path} {side : Side} {j k fd : Nat} {f : File} {files : Files}

theorem mem_of_set (member : some f ∈ files.set fd none) : some f ∈ files := by
  obtain there | isNone := List.mem_or_eq_of_mem_set member
  · exact there
  · cases isNone

theorem table_holder (member : some (side.file k) ∈ Shell.table (bindings path)) :
    side.branch k ∈ path := by
  obtain std | free := List.mem_append.mp member
  · obtain at0 | at1 | at2 : _ = bindings path 0 ∨ _ = bindings path 1 ∨ _ = bindings path 2 := by
      simpa using std
    · exact mem_of_bindings at0.symm
    · exact mem_of_bindings at1.symm
    · exact mem_of_bindings at2.symm
  · cases List.eq_of_mem_replicate free

theorem wide_holder (member : some (side.file k) ∈ wide (bindings path) j) :
    side.branch k ∈ path ∨ some j = some k := by
  obtain std | free := List.mem_append.mp member
  · obtain at0 | at1 | at2 | end0 | end1 : _ = bindings path 0 ∨ _ = bindings path 1 ∨
        _ = bindings path 2 ∨ side.file k = .readEnd j ∨ side.file k = .writeEnd j := by
      simpa using std
    · exact .inl (mem_of_bindings at0.symm)
    · exact .inl (mem_of_bindings at1.symm)
    · exact .inl (mem_of_bindings at2.symm)
    · cases side <;> cases end0
      exact .inr rfl
    · cases side <;> cases end1
      exact .inr rfl
  · cases List.eq_of_mem_replicate free

/-- **Who holds an end of a pipe**: a process below that side of it, or one that is wiring it. -/
theorem Proc.Wired.holder {p : Proc} (wired : p.Wired) (holds : some (side.file k) ∈ p.files) :
    side.branch k ∈ p.path ∨ p.pc.wiring = some k := by
  obtain ⟨files, pc, path⟩ := p
  have there : some (side.file k) ∈ files := holds
  cases pc with
  | entry cmd | execd argv | listWait right | pipeWait =>
    have same : files = Shell.table (bindings path) := wired
    rw [same] at there
    exact .inl (table_holder there)
  | reopen cmd fd =>
    have same : files = (Shell.table (bindings path)).set fd none := wired.2
    rw [same] at there
    exact .inl (table_holder (mem_of_set there))
  | pipeFork _ _ j p0 p1 | pipeFork2 _ j p0 p1 | pipeClose0 j p0 p1 | sideClose0 _ _ j p0 p1 =>
    have same : files = wide (bindings path) j := wired.2.2
    rw [same] at there
    exact wide_holder there
  | pipeClose1 j p1 | sideClose1 _ _ j p1 =>
    have same : files = (wide (bindings path) j).set 3 none := wired.2
    rw [same] at there
    exact wide_holder (mem_of_set there)
  | sideClose own cmd j p0 p1 =>
    obtain ⟨-, -, above, here, same⟩ := wired
    have same : files = wide (bindings above) j := same
    have here : path = own.branch j :: above := here
    rw [same] at there
    exact (wide_holder there).imp_left fun below => here ▸ List.mem_cons_of_mem _ below
  | sideDup own cmd j p0 p1 =>
    obtain ⟨-, -, above, here, same⟩ := wired
    have same : files = (wide (bindings above) j).set own.std none := same
    have here : path = own.branch j :: above := here
    rw [same] at there
    exact (wide_holder (mem_of_set there)).imp_left fun below => here ▸ List.mem_cons_of_mem _ below
  | exited =>
    have same : files = closed := wired
    rw [same] at there
    cases List.eq_of_mem_replicate there

end Holders

end Xv6.Sh
