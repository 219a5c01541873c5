/-
**The memory of a process, from its first system call to `freeproc`** (`kernel/proc.c`: `growproc`,
`freeproc`; `kernel/exec.c`: `exec`; `kernel/vm.c`: `copyout`).

Any sequence of `sbrk`, `exec` and writes to user memory, with `kalloc` failing wherever it likes,
keeps the shape of the address space. So none of the functions panics, and `freeproc` gets back
every page.
-/

import Xv6.Vm.Program

namespace Xv6.Vm

open Lib

section

variable [KernelImage] {whole : Nat → Prop} {p q : Proc} {s t : Ram}

inductive MemEvent
  /-- `growproc`; its argument is an `int` -/
  | sbrk (n : BitVec 32)
  | exec (fs : FsRefs) (file : Option File) (path : List Byte) (argv : List (List Byte))
    (args : SysArgs argv)
  /-- `copyout`, or a store of the process itself -/
  | copyout (va : Nat) (src : List Byte)
  /-- which of the coming calls of `kalloc` get a page -/
  | others (grants : Nat → Bool)

/-- What an event does; the results of the calls are left out. -/
def MemEvent.run (s : Proc × Ram) : MemEvent → Except VmPanic (Proc × Ram)
  | .sbrk n => (growproc s.1 n.toInt s.2).map fun r => (r.1.2, r.2)
  | .exec fs file path argv _ => (Vm.exec s.1 fs file path argv s.2).map fun r => (r.1.2.1, r.2)
  | .copyout va src => (Vm.copyout s.1.pagetable va src s.2).map fun r => (s.1, r.2)
  | .others grants => .ok (s.1, { s.2 with grants })

def MemStep (s : Proc × Ram) (e : MemEvent) (t : Proc × Ram) : Prop := e.run s = .ok t

/-- **A failure** leaves the same pages: what it has freed was free before. -/
theorem Shape.after_failure (shape : Shape whole p s)
    (freed : AllFree (fun q => q ∈ s.freelist) s t) : Shape whole p t := by
  have inside : ∀ q ∈ t.freelist, q ∈ s.freelist := fun q => (freed.free q).mp
  have space :=
    shape.space.beside shape.freeList.pages (fun _ _ isFree => isFree) freed.mem inside freed.nodup
  refine ⟨space.with_whole fun q => ?_, shape.trapframe, shape.own⟩
  have isWhole : q ∈ s.freelist → whole q := fun isFree => (shape.space.table.free q isFree).1
  have same : q ∈ t.freelist ↔ q ∈ s.freelist := freed.free q
  tauto

/-- **Every event succeeds and keeps the shape**, with the same pages. -/
theorem Shape.step (shape : Shape whole p s) (e : MemEvent) :
    ∃ t, MemStep (p, s) e t ∧ Shape whole t.1 t.2 := by
  cases e with
  | sbrk n =>
    have range : -2 ^ 31 ≤ n.toInt ∧ n.toInt < 2 ^ 31 := ⟨n.le_toInt, n.toInt_lt⟩
    by_cases enough : -(p.sz : Int) ≤ n.toInt
    · obtain ⟨r, t, done, outcome⟩ := Triple.returns (growproc_spec shape range enough) rfl
        fun _ => id
      refine ⟨_, congrArg (Except.map _) done, ?_⟩
      rcases outcome with ⟨-, grown⟩ | ⟨-, same, intact⟩
      · exact grown.shape
      · show Shape whole r.2 t
        exact same ▸ intact.shape
    · exact ⟨_, congrArg (Except.map _) (growproc_wraps shape range.1 (Int.not_le.mp enough)),
        shape⟩
  | exec fs file path argv args =>
    obtain ⟨r, t, done, ends⟩ := exec_returns shape args
    refine ⟨_, congrArg (Except.map _) done, ?_⟩
    cases ends with
    | failed freed => exact shape.after_failure freed
    | started _ new _ => exact new
  | copyout va src =>
    obtain ⟨r, t, copies⟩ := shape.copiesOut va src
    exact ⟨_, congrArg (Except.map _) copies.returns, copies.keeps.1⟩
  | others grants =>
    have space := (shape.space.touch (t := { s with grants }) rfl fun _ _ => rfl).1
    exact ⟨_, rfl, space, shape.trapframe, shape.own⟩

/-- **The memory of a process over a whole run.** Its address space has its shape over the pages
that it started with, the next event succeeds whatever it is, and `freeproc` puts all of these
pages, and the trapframe, on the free list: no `exec` and no `sbrk` has lost one. -/
theorem memory_lifetime {trace : List MemEvent} (shape : Shape whole p s)
    (run : Run MemStep (p, s) trace (q, t)) :
    (∀ e, ∃ next, MemStep (q, t) e next) ∧ Shape whole q t ∧ ∃ u,
      freeproc q t = .ok (Proc.unused, u) ∧ AllFree (fun x => whole x ∨ x = q.trapframe) t u := by
  have after : Shape whole q t := by
    refine Run.inv (P := fun s => Shape whole s.1 s.2) shape (fun before step => ?_) run
    obtain ⟨next, same, after⟩ := before.step _
    exact Except.ok.inj (same.symm.trans step) ▸ after
  obtain ⟨r, u, done, rfl, all⟩ := Triple.returns (freeproc_spec after) rfl fun _ => id
  refine ⟨fun e => ?_, after, u, done, all⟩
  obtain ⟨next, step, -⟩ := after.step e
  exact ⟨next, step⟩

end

section Sample

attribute [local instance] smallKernel

/-- A process starts another program, gives back 3000 bytes of it, and ends. -/
theorem memory_lifetime_exec : ∃ whole p s p' fs' t q u v, Shape whole p s ∧
    exec p ⟨0, 0, 0⟩ (some twoSegments) [] sampleArgs s = .ok ((2, p', fs'), t) ∧
    Run MemStep (p, s) [.exec ⟨0, 0, 0⟩ (some twoSegments) [] sampleArgs sysArgs_sample,
      .sbrk (-3000)] (q, u) ∧
    Shape whole q u ∧ freeproc q u = .ok (Proc.unused, v) ∧
    AllFree (fun x => whole x ∨ x = q.trapframe) u v := by
  obtain ⟨whole, p, s, p', fs', t, shape, started⟩ := twoSegments_runs
  have first : MemStep (p, s) (.exec ⟨0, 0, 0⟩ (some twoSegments) [] sampleArgs sysArgs_sample)
    (p', t) :=
    congrArg (Except.map _) started
  obtain ⟨⟨q, u⟩, second⟩ := (memory_lifetime shape (Run.nil.snoc first)).1 (.sbrk (-3000))
  have run := (Run.nil.snoc first).snoc second
  obtain ⟨-, after, v, done, all⟩ := memory_lifetime shape run
  exact ⟨whole, p, s, p', fs', t, q, u, v, shape, started, run, after, done, all⟩

end Sample

end Xv6.Vm
