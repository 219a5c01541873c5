/-
**A new program** (`kernel/exec.c`: `exec`).

`exec` either frees all the pages that it has taken and leaves the process alone, or the process
runs the file that it has read.

* `exec_spec`: both cases (`ExecEnd`); no panic is reached.
-/

import Xv6.Vm.Stack
import Xv6.Vm.Fork

set_option linter.unusedSectionVars false

namespace Xv6.Vm

open Lib

def File.elfhdr (f : File) : Elfhdr := Elfhdr.decode f.byte

/-- The program headers, as `exec` finds them: the offset is narrowed to an `int`. -/
def File.segments (f : File) : List Proghdr := f.headers (f.elfhdr.phoff % 2 ^ 32) f.elfhdr.phnum

/-- The arguments that `sys_exec` passes on: there is room for a null pointer in `argv`, and each
string with its NUL fits in a page. -/
structure SysArgs (argv : List (List Byte)) : Prop where
  few : argv.length < MAXARG
  short : ∀ arg ∈ argv, arg.length < PGSIZE
  nul : ∀ arg ∈ argv, 0 ∉ arg

section Program

variable [KernelImage] {whole : Nat → Prop} {root b sp : Nat} {s₀ s t u : Ram} {img : Memory}
  {f : File}
  {argv : List (List Byte)} {p p' : Proc} {fs : FsRefs} {fails : VmPanic → Prop}
  {trapframe entry sz : Nat} {path : List Byte} {file : Option File}

attribute [local irreducible] freewalk

/-- **The process runs the file**: the program is below page `b`, the guard page is page `b`, and
the stack is the page above. -/
structure Runs (f : File) (argv : List (List Byte)) (b sz sp : Nat) (ptrs : List Nat) (p : Proc)
    (s : Ram) : Prop where
  magic : f.elfhdr.magic = ELF_MAGIC
  headers : 0 < f.elfhdr.phnum → f.elfhdr.phoff % 2 ^ 32 + PROGHDR_SIZE * f.elfhdr.phnum ≤ f.size
  checked : ∀ ph ∈ f.segments, ph.type = ELF_PROG_LOAD → Checked f sz ph
  below : sz ≤ b * PGSIZE
  size : p.sz = (b + 2) * PGSIZE
  image : ∀ a < (b + 1) * PGSIZE, (s.userMem p.pagetable).byte a = f.image f.segments (fun _ => 0) a
  guard : s.pte p.pagetable b = leafPte (s.page p.pagetable b) RWX
  user : ∀ v < b + 2, v ≠ b → s.UserPage p.pagetable v
  args : ArgStack (s.userMem p.pagetable).byte ((b + 1) * PGSIZE) ((b + 2) * PGSIZE) sp argv ptrs
  a1 : s.load (p.trapframe + A1) = sp
  sp : s.load (p.trapframe + SP) = sp
  epc : s.load (p.trapframe + EPC) = f.elfhdr.entry

def Proc.renew (p : Proc) (path : List Byte) (pagetable sz : Nat) : Proc :=
  { p with name := (lastName path).take 15, pagetable, sz }

/-- How `exec` ends. -/
inductive ExecEnd (whole : Nat → Prop) (p : Proc) (fs : FsRefs) (file : Option File)
  (path : List Byte)
    (argv : List (List Byte)) (s : Ram) : Int × Proc × FsRefs → Ram → Prop
  | failed {t : Ram} : AllFree (fun q => q ∈ s.freelist) s t →
    ExecEnd whole p fs file path argv s (-1, p, fs) t
  | started {f : File} {root b sz sp : Nat} {ptrs : List Nat} {t : Ram} : file = some f →
      Shape whole (p.renew path root ((b + 2) * PGSIZE)) t →
      Runs f argv b sz sp ptrs (p.renew path root ((b + 2) * PGSIZE)) t →
      ExecEnd whole p fs file path argv s (argv.length, p.renew path root ((b + 2) * PGSIZE), fs) t

/-! ### The commit -/

def setTrapframe (trapframe sp entry : Nat) (s : Ram) : Ram :=
  ((s.store (trapframe + A1) sp).store (trapframe + EPC) entry).store (trapframe + SP) sp

theorem mem_setTrapframe {x : Nat} (outside : ¬ InPage trapframe x) :
    (setTrapframe trapframe sp entry s).mem x = s.mem x := by
  have apart : x < trapframe ∨ trapframe + PGSIZE ≤ x := by
    unfold InPage at outside
    omega
  simp only [PGSIZE] at apart
  refine (Memory.setLe_outside ?_).trans ((Memory.setLe_outside ?_).trans (Memory.setLe_outside ?_))
  · simp only [SP]
    omega
  · simp only [EPC]
    omega
  · simp only [A1]
    omega

theorem load_setTrapframe :
    (setTrapframe trapframe sp entry s).load (trapframe + A1) = sp % 2 ^ 64 ∧
      (setTrapframe trapframe sp entry s).load (trapframe + EPC) = entry % 2 ^ 64 ∧
      (setTrapframe trapframe sp entry s).load (trapframe + SP) = sp % 2 ^ 64 := by
  unfold setTrapframe Ram.load Ram.store
  refine ⟨?_, ?_, Memory.le_setLe_same⟩
  · rw [Memory.le_setLe_ne (by simp only [SP, A1]; omega),
      Memory.le_setLe_ne (by simp only [EPC, A1]; omega)]
    exact Memory.le_setLe_same
  · rw [Memory.le_setLe_ne (by simp only [SP, EPC]; omega)]
    exact Memory.le_setLe_same

/-- **The commit** frees the old address space and leaves the new one: the two are made from the
same pages, so that none is lost. -/
theorem execCommit_spec {argc : Nat} (shape : Shape whole p s₀)
    (stacked : Stacked (fun q => q ∈ s₀.freelist) root p.trapframe s₀ img b s) :
    From s (execCommit p fs path argc root ((b + 2) * PGSIZE) sp entry)
      (fun r t => r = ((argc : Int), p.renew path root ((b + 2) * PGSIZE), fs) ∧
        Shape whole (p.renew path root ((b + 2) * PGSIZE)) t ∧
        (∀ v, t.pte root v = s.pte root v) ∧
        (∀ a < (b + 2) * PGSIZE, (t.userMem root).byte a = img a) ∧
        t.load (p.trapframe + A1) = sp % 2 ^ 64 ∧ t.load (p.trapframe + EPC) = entry % 2 ^ 64 ∧
        t.load (p.trapframe + SP) = sp % 2 ^ 64) fails := by
  refine .modify_known (.modify_known (.modify_known ?_))
  show From (setTrapframe p.trapframe sp entry s) _ _ _
  have list := shape.freeList
  -- the old address space, with the free pages that are left
  have old :
    Space (fun q => whole q ∧ q ∉ s₀.freelist ∨ q ∈ (setTrapframe p.trapframe sp entry s).freelist)
      p.pagetable (fun v => v < npages p.sz) (procExtra p.trapframe)
      (setTrapframe p.trapframe sp entry s) := by
    refine @Space.beside _ whole (fun q => q ∈ s₀.freelist ∨ q = p.trapframe) _ _ _ _ _ shape.space
      ?_ ?_ ?_ ?_ ?_
    · rintro q (isFree | rfl)
      · exact list.pages q isFree
      · exact shape.trapframe
    · rintro q isWhole (isFree | rfl)
      · exact isFree
      · exact absurd isWhole shape.own
    · intro x outside
      rw [mem_setTrapframe (outside _ (.inr rfl))]
      exact stacked.mem x fun q isFree => outside q (.inl isFree)
    · exact fun q member => .inl (stacked.space.table.free q member).1
    · exact stacked.space.table.nodup
  refine .bind (procFreepagetable_spec old) fun _ => .pure fun t freed => ?_
  -- what is outside of the old one, and the trapframe, has not changed
  have outsideOld : ∀ x, ¬ InPage p.trapframe x →
    (∀ q, whole q ∧ q ∉ s₀.freelist ∨ q ∈ s.freelist → ¬ InPage q x) →
      t.mem x = s.mem x := fun x notFrame outside =>
    (freed.mem x outside).trans (mem_setTrapframe notFrame)
  have own : ∀ q, q ∈ s₀.freelist → whole q := fun q isFree => (shape.space.table.free q isFree).1
  have shared : ∀ q, q ∈ s₀.freelist → (whole q ∧ q ∉ s₀.freelist ∨ q ∈ s.freelist) ∨
    q = p.trapframe →
      q ∈ s.freelist := by
    rintro q isFree ((⟨-, taken⟩ | left) | rfl)
    · exact absurd isFree taken
    · exact left
    · exact absurd (own _ isFree) shape.own
  have pages : ∀ q, (whole q ∧ q ∉ s₀.freelist ∨ q ∈ s.freelist) ∨ q = p.trapframe → IsPage q := by
    rintro q (isOld | rfl)
    · exact old.pages q isOld
    · exact shape.trapframe
  have mem : ∀ x,
    Outside (fun q => (whole q ∧ q ∉ s₀.freelist ∨ q ∈ s.freelist) ∨ q = p.trapframe) x →
      t.mem x = s.mem x := fun x outside =>
    outsideOld x (outside _ (.inr rfl)) fun q isOld => outside q (.inl isOld)
  have new :=
    stacked.space.beside pages shared mem
    (fun q member => .inl ((freed.free q).mp member)) freed.nodup
  obtain ⟨same, bytes⟩ := stacked.space.beside_same pages shared mem
  have trapframe : ∀ x, InPage p.trapframe x →
    t.mem x = (setTrapframe p.trapframe sp entry s).mem x := by
    refine fun x inside => freed.mem x fun q isOld within => ?_
    rw [within.unique inside (old.pages q isOld).1 shape.trapframe.1] at isOld
    rcases isOld with ⟨isWhole, -⟩ | isFree
    · exact shape.own isWhole
    · exact shape.own (own _ (stacked.space.table.free _ isFree).1)
  have loads : ∀ off, off + 8 ≤ PGSIZE → t.load (p.trapframe + off) =
      (setTrapframe p.trapframe sp entry s).load (p.trapframe + off) := fun off within =>
    Memory.le_congr fun x low high => trapframe x ⟨by omega, by omega⟩
  have every : ∀ q, whole q ↔ (q ∈ s₀.freelist ∧ q ∉ s.freelist) ∨ q ∈ t.freelist := by
    intro q
    have left : q ∈ s.freelist → q ∈ s₀.freelist :=
      fun isFree => (stacked.space.table.free q isFree).1
    have isWhole := own q
    have back : q ∈ t.freelist ↔ (whole q ∧ q ∉ s₀.freelist) ∨ q ∈ s.freelist := freed.free q
    tauto
  refine ⟨rfl, ⟨new.with_whole every, shape.trapframe, shape.own⟩, same.pte, fun a below => ?_, ?_⟩
  · have isLive : a / PGSIZE < npages ((b + 2) * PGSIZE) := page_lt (by rwa [npages_mul])
    show t.mem (t.uaddr root a) = img a
    rw [uaddr_congr same.pte, bytes _ isLive _ (inPage_uaddr s root a)]
    exact stacked.bytes a (by rwa [npages_mul])
  · rw [loads A1 (by decide), loads EPC (by decide), loads SP (by decide)]
    exact load_setTrapframe

/-! ### All of `exec` -/

theorem FreeList.allFree (list : FreeList s) : AllFree (fun q => q ∈ s.freelist) s s :=
  ⟨list.nodup, fun _ => Iff.rfl, fun _ _ => rfl⟩

theorem execBad_none (free : AllFree (fun q => q ∈ s₀.freelist) s₀ s) :
    From s (execBad p fs.beginOp.namei.ilock 0 0 true)
      (ExecEnd whole p fs file path argv s₀) fails := by
  have simple : (execBad p fs.beginOp.namei.ilock 0 0 true : VmM _) = pure (-1, p, fs) := rfl
  rw [simple]
  exact .done (.failed free)

theorem execBad_spec {ip : Bool} {fs' : FsRefs}
    (image : Image (fun q => q ∈ s₀.freelist) root p.trapframe s₀ img sz s)
    (released : (if ip then fs'.iunlockput.endOp else fs') = fs) :
    From s (execBad p fs' root sz ip)
      (ExecEnd whole p fs file path argv s₀) fails := by
  have final : ∀ t, AllFree (fun q => q ∈ s₀.freelist) s t →
    ExecEnd whole p fs file path argv s₀ (-1, p, fs) t :=
    fun t freed => .failed (freed.after image.mem)
  refine .ite (fun _ => ?_) fun zero => absurd image.space.root_isPage.pos.ne' zero
  refine .bind (procFreepagetable_spec image.space) fun _ => .ite (fun isLocked => ?_)
    fun notLocked => ?_
  · rw [if_pos isLocked] at released
    refine .pure fun t freed => ?_
    rw [released]
    exact final t freed
  · rw [if_neg notLocked] at released
    refine .pure fun t freed => ?_
    rw [released]
    exact final t freed

theorem Space.loading {area : Nat → Prop}
    (space : Space area root (fun v => v < npages 0) (procExtra trapframe) s)
    (mem : ∀ x, Outside area x → s.mem x = s₀.mem x) :
    Loading area root trapframe s₀ (fun _ => 0) 0 s where
  space := space
  mem := mem
  bytes a below :=
  absurd below (by rw [show npages 0 = 0 from rfl, Nat.zero_mul]; exact Nat.not_lt_zero a)
  user v below := absurd below (Nat.not_lt_zero v)
  beyond _ _ := rfl

theorem Loading.round {area : Nat → Prop} (loading : Loading area root trapframe s₀ img sz s) :
    Loading area root trapframe s₀ img (npages sz * PGSIZE) s := by
  have same := npages_mul (npages sz)
  refine ⟨⟨?_, loading.mem, ?_⟩, ?_, ?_⟩ <;> rw [same]
  exacts [loading.space, loading.bytes, loading.user, loading.beyond]

theorem File.decode_elfhdr :
    Elfhdr.decode (bytesAt ((List.range ELFHDR_SIZE).map fun j => f.byte (0 + j))) = f.elfhdr := by
  have field : ∀ a k, a + k ≤ ELFHDR_SIZE →
      Memory.le k (bytesAt ((List.range ELFHDR_SIZE).map fun j => f.byte (0 + j))) a =
      Memory.le k f.byte a :=
    fun a k inside => Memory.le_congr fun x _ high => by
      rw [bytesAt_map (by omega), Nat.zero_add]
  unfold File.elfhdr Elfhdr.decode
  rw [field 0 4 (by decide), field 24 8 (by decide), field 32 8 (by decide), field 56 2 (by decide)]

theorem File.entry_lt (f : File) : f.elfhdr.entry < 2 ^ 64 := by
  have := Memory.le_lt f.byte 8 24
  unfold elfhdr Elfhdr.decode
  omega

/-- **`exec`** fails and frees what it took, or the process runs the file. -/
theorem exec_spec (shape : Shape whole p s) (args : SysArgs argv) :
    From s (exec p fs file path argv)
      (ExecEnd whole p fs file path argv s) fails := by
  have list := shape.freeList
  unfold exec
  cases file with
  | none =>
    exact .done (.failed list.allFree)
  | some f =>
    dsimp only
    refine .ite (fun _ => execBad_none list.allFree) fun all => ?_
    obtain ⟨-, isHeader⟩ := File.readi_full (by decide) (by decide) (not_not.mp all)
    rw [isHeader, File.decode_elfhdr]
    refine .ite (fun _ => execBad_none list.allFree) fun magic => ?_
    refine .bind (procPagetable_spec list shape.trapframe.fits) fun root => .each
      fun s₁ outcome => ?_
    rcases outcome with ⟨rfl, free⟩ | ⟨nonzero, space, mem⟩
    · exact .ite (fun _ => execBad_none free) fun no => absurd rfl no
    · refine .ite (fun zero => absurd zero nonzero) fun _ => ?_
      refine .bind (loadHeaders_spec (Nat.mod_lt _ (by decide)) (space.loading mem)) fun r =>
        Triple.each fun s₂ ends => ?_
      cases ends with
      | bad loading =>
        exact .ite (fun _ => execBad_spec loading.toImage rfl) fun no => absurd rfl no
      | @loaded sz _ loading _ headers checked =>
        refine .ite (fun no => nomatch no) fun _ => ?_
        have bound := loading.bound
        have small : PGSIZE < 2 ^ 27 := by decide
        have above := le_npages_mul sz
        have rounded : PGROUNDUP sz = npages sz * PGSIZE := PGROUNDUP_eq (by omega)
        have two : (npages sz * PGSIZE + 2 * PGSIZE) % 2 ^ 64 = (npages sz + 2) * PGSIZE := by
          rw [Nat.add_mul]
          exact Nat.mod_eq_of_lt (by omega)
        dsimp only
        rw [rounded, two]
        refine .bind (loading.round.uvmalloc _) fun sz1 => .each fun s₃ outcome => ?_
        rcases outcome with ⟨rfl, loading₃⟩ | ⟨grown, isSz, loading₃⟩
        · exact .ite (fun _ => execBad_spec loading₃.toImage rfl) fun no => absurd rfl no
        · refine .ite (fun zero => absurd zero grown) fun _ => ?_
          obtain rfl : sz1 = (npages sz + 2) * PGSIZE :=
            isSz.trans (Nat.max_eq_right (Nat.mul_le_mul_right _ (Nat.le_add_right _ 2)))
          rw [show (npages sz + 2) * PGSIZE - 2 * PGSIZE = npages sz * PGSIZE by
            rw [Nat.add_mul]; omega]
          refine .bind loading₃.uvmclear fun _ => .each fun s₄ stacked => ?_
          refine .bind (pushStack_spec args.short args.few stacked) fun r => .each
            fun s₅ outcome => ?_
          rcases outcome with ⟨rfl, img', stacked'⟩ | ⟨sp, ptrs, img', rfl, stacked', layout, same⟩
          · exact execBad_spec stacked'.toImage rfl
          · refine (execCommit_spec shape stacked').to_post ?_
            rintro r t ⟨rfl, shape', ptes, bytes, a1, epc, isSp⟩
            have stack := stacked'.bound
            rw [npages_mul] at stack
            have top := (layout.inside _ List.mem_cons_self).2
            have narrow : sp % 2 ^ 64 = sp := Nat.mod_eq_of_lt (by omega)
            have order : (npages sz + 1) * PGSIZE ≤ (npages sz + 2) * PGSIZE :=
              Nat.mul_le_mul_right _ (by omega)
            refine .started rfl shape' ⟨not_not.mp magic, headers, checked, above, rfl,
              fun a below => ?_, ?_, ?_,
              layout.congr fun a _ below => bytes a below, a1.trans narrow, isSp.trans narrow,
              epc.trans (Nat.mod_eq_of_lt f.entry_lt)⟩
            · exact (bytes a (by omega)).trans (same a below)
            · show t.pte root _ = leafPte (PTE2PA (t.pte root _)) RWX
              rw [ptes]
              exact stacked'.guard
            · show ∀ v < npages sz + 2, v ≠ npages sz → t.UserPage root v
              unfold Ram.UserPage
              simp only [ptes]
              exact stacked'.user

theorem exec_returns (shape : Shape whole p s) (args : SysArgs argv) :
    ∃ r t, exec p fs file path argv s = .ok (r, t) ∧ ExecEnd whole p fs file path argv s r t := by
  have spec : From s (exec p fs file path argv)
    (ExecEnd whole p fs file path argv s) fun _ => False :=
    exec_spec shape args
  exact spec.returns rfl fun _ => id

/-! ### A failure -/

/-- Nothing of the process has changed, and the free pages are the same. -/
structure Untouched (p : Proc) (s t : Ram) : Prop where
  pte : ∀ v, t.pte p.pagetable v = s.pte p.pagetable v
  user : ∀ v < npages p.sz, ∀ x, InPage (s.page p.pagetable v) x → t.mem x = s.mem x
  trapframe : ∀ x, InPage p.trapframe x → t.mem x = s.mem x
  free : t.freelist.Perm s.freelist

theorem Shape.untouched (shape : Shape whole p s) (freed : AllFree (fun q => q ∈ s.freelist) s t) :
    Untouched p s t := by
  obtain ⟨same, user⟩ :=
    shape.space.beside_same shape.freeList.pages (fun _ _ isFree => isFree) freed.mem
  refine ⟨same.pte, user, fun x inside => freed.mem x fun q isFree within => ?_,
    (List.perm_ext_iff_of_nodup freed.nodup shape.freeList.nodup).mpr freed.free⟩
  rw [within.unique inside (shape.freeList.pages q isFree).1 shape.trapframe.1] at isFree
  exact shape.own (shape.space.table.free _ isFree).1

/-- **`exec` returns, and when it fails, nothing has happened.** -/
theorem exec_atomic (shape : Shape whole p s) (args : SysArgs argv) (fs : FsRefs)
    (file : Option File) (path : List Byte) :
    ∃ r p' fs' t, exec p fs file path argv s = .ok ((r, p', fs'), t) ∧
      (r = -1 → p' = p ∧ fs' = fs ∧ Untouched p s t) := by
  obtain ⟨⟨r, p', fs'⟩, t, run, ends⟩ := @exec_returns _ whole s argv p fs path file shape args
  refine ⟨r, p', fs', t, run, ?_⟩
  cases ends with
  | failed freed => exact fun _ => ⟨rfl, rfl, shape.untouched freed⟩
  | started _ _ _ => exact fun isMinus => absurd isMinus (by omega)

/-! ### The program headers -/

theorem exec_runs {fs' : FsRefs} {r : Int} (shape : Shape whole p s) (args : SysArgs argv)
    (run : exec p fs (some f) path argv s = .ok ((r, p', fs'), t)) (success : r ≠ -1) :
    r = argv.length ∧ ∃ b sz sp ptrs, Runs f argv b sz sp ptrs p' t := by
  have spec : From s (exec p fs (some f) path argv)
    (ExecEnd whole p fs (some f) path argv s)
      fun _ => False := exec_spec shape args
  have ends := spec.ok rfl run
  generalize isR : (r, p', fs') = result at ends
  cases ends with
  | failed _ => exact absurd (Prod.mk.inj isR).1 success
  | @started f' root b sz sp ptrs _ isFile _ runs =>
    obtain ⟨rfl, rest⟩ := Prod.mk.inj isR
    obtain ⟨rfl, -⟩ := Prod.mk.inj rest
    cases isFile
    exact ⟨rfl, b, sz, sp, ptrs, runs⟩

/-- The program headers, and what they say is to be loaded, lie inside the file. -/
def File.HeadersInside (f : File) : Prop := 0 < f.elfhdr.phnum →
  f.elfhdr.phoff + f.elfhdr.phnum * PROGHDR_SIZE ≤ f.size ∧
    ∀ ph ∈ f.headers f.elfhdr.phoff f.elfhdr.phnum, ph.type = ELF_PROG_LOAD → 0 < ph.filesz →
      ph.off + ph.filesz ≤ f.size

/-- The offsets fit in the 32 bits that `exec` and `loadseg` keep of them. -/
def File.ShortOffsets (f : File) : Prop := 0 < f.elfhdr.phnum → f.elfhdr.phoff < 2 ^ 32 ∧
  ∀ ph ∈ f.headers f.elfhdr.phoff f.elfhdr.phnum, ph.type = ELF_PROG_LOAD → 0 < ph.filesz →
    ph.off < 2 ^ 32

instance {f : File} : Decidable f.ShortOffsets := inferInstanceAs (Decidable (0 < _ → _))

/-- **The headers lie inside the file** that `exec` has accepted exactly when their offsets fit in
32 bits: `readi` checks them after the conversion, and no file is as large as `2 ^ 32` bytes. -/
theorem exec_headers_inside {path : List Byte} {fs' : FsRefs} {r : Int} (shape : Shape whole p s)
    (args : SysArgs argv) (run : exec p fs (some f) path argv s = .ok ((r, p', fs'), t))
    (success : r ≠ -1) : f.HeadersInside ↔ f.ShortOffsets := by
  have small : f.size < 2 ^ 32 := Nat.lt_of_le_of_lt f.small (by decide)
  obtain ⟨-, b, sz, sp, ptrs, runs⟩ := exec_runs shape args run success
  refine ⟨fun inside some => ?_, fun short some => ?_⟩
  · obtain ⟨table, segments⟩ := inside some
    refine ⟨by omega, fun ph member isLoad nonempty => ?_⟩
    have := segments ph member isLoad nonempty
    omega
  · obtain ⟨phoff, off⟩ := short some
    have headers := runs.headers some
    have checked := runs.checked
    unfold File.segments at checked
    rw [Nat.mod_eq_of_lt phoff] at headers checked
    refine ⟨by rwa [Nat.mul_comm], fun ph member isLoad nonempty => ?_⟩
    have inside := (checked ph member isLoad).inside nonempty
    rwa [Nat.mod_eq_of_lt (off ph member isLoad nonempty)] at inside

/-! ### The image -/

def Proghdr.Covers (ph : Proghdr) (a : Nat) : Prop := ph.vaddr ≤ a ∧ a < ph.vaddr + ph.memsz

/-- The segments that are loaded have no address in common. -/
def SegmentsApart (phs : List Proghdr) : Prop := phs.Pairwise fun one other =>
  one.type = ELF_PROG_LOAD → other.type = ELF_PROG_LOAD → ∀ a, ¬ (one.Covers a ∧ other.Covers a)

theorem File.image_outside {a : Nat} : ∀ {phs : List Proghdr} {img : Memory},
    (∀ ph ∈ phs, ph.type = ELF_PROG_LOAD → ¬ (ph.vaddr ≤ a ∧ a < ph.vaddr + ph.filesz)) →
    f.image phs img a = img a := by
  intro phs
  induction phs with
  | nil => exact fun _ => rfl
  | cons ph phs ih =>
    intro img outside
    rw [File.image, ih fun other later => outside other (List.mem_cons_of_mem _ later)]
    split
    · next isLoad => exact if_neg (outside ph List.mem_cons_self isLoad)
    · rfl

/-- **The file bytes of a segment** that no later one overwrites. -/
theorem File.image_inside {ph : Proghdr} {i : Nat} (isLoad : ph.type = ELF_PROG_LOAD)
    (inside : i < ph.filesz) :
    ∀ {phs : List Proghdr} {img : Memory}, SegmentsApart phs →
    (∀ ph ∈ phs, ph.type = ELF_PROG_LOAD → ph.filesz ≤ ph.memsz) → ph ∈ phs →
    f.image phs img (ph.vaddr + i) = f.byte (ph.off % 2 ^ 32 + i) := by
  intro phs
  induction phs with
  | nil => exact fun _ _ member => nomatch member
  | cons first phs ih =>
    intro img disjoint fits member
    obtain ⟨apart, rest⟩ := List.pairwise_cons.mp disjoint
    by_cases later : ph ∈ phs
    · exact ih rest (fun other among => fits other (List.mem_cons_of_mem _ among)) later
    · obtain rfl : ph = first := (List.mem_cons.mp member).resolve_right later
      have large := fits ph List.mem_cons_self isLoad
      rw [File.image, if_pos isLoad, File.image_outside]
      · rw [File.segment, if_pos (by omega), Nat.add_sub_cancel_left]
      · intro other among isLoad' within
        have large' := fits other (List.mem_cons_of_mem _ among) isLoad'
        exact apart other among isLoad isLoad' (ph.vaddr + i)
          ⟨⟨by omega, by omega⟩, ⟨by omega, by omega⟩⟩

/-- **The rest of a segment** is as it was before. -/
theorem File.image_rest {ph : Proghdr} {i : Nat} {phs : List Proghdr}
    (isLoad : ph.type = ELF_PROG_LOAD) (above : ph.filesz ≤ i) (inside : i < ph.memsz)
    (disjoint : SegmentsApart phs)
    (fits : ∀ ph ∈ phs, ph.type = ELF_PROG_LOAD → ph.filesz ≤ ph.memsz) (member : ph ∈ phs) :
    f.image phs img (ph.vaddr + i) = img (ph.vaddr + i) := by
  refine File.image_outside fun other among isLoad' within => ?_
  by_cases same : other = ph
  · subst same
    omega
  · have symm : Std.Symm fun one other : Proghdr => one.type = ELF_PROG_LOAD →
      other.type = ELF_PROG_LOAD →
        ∀ a, ¬ (one.Covers a ∧ other.Covers a) :=
      ⟨fun one other apart first second a both => apart second first a both.symm⟩
    have large := fits other among isLoad'
    exact disjoint.forall among member same isLoad' isLoad (ph.vaddr + i)
      ⟨⟨by omega, by omega⟩, ⟨by omega, by omega⟩⟩

theorem exec_image {path : List Byte} {fs' : FsRefs} {r : Int} (shape : Shape whole p s)
    (args : SysArgs argv) (run : exec p fs (some f) path argv s = .ok ((r, p', fs'), t))
    (success : r ≠ -1) (disjoint : SegmentsApart f.segments) :
    r = argv.length ∧
      (∀ ph ∈ f.segments, ph.type = ELF_PROG_LOAD →
        (∀ i < ph.filesz,
          (t.userMem p'.pagetable).byte (ph.vaddr + i) = f.byte (ph.off % 2 ^ 32 + i)) ∧
        ∀ i, ph.filesz ≤ i → i < ph.memsz → (t.userMem p'.pagetable).byte (ph.vaddr + i) = 0) ∧
      ∃ b sp ptrs, p'.sz = (b + 2) * PGSIZE ∧ t.pte p'.pagetable b &&& PTE_U = 0 ∧
        (∀ v < b + 2, v ≠ b → (t.userMem p'.pagetable).mapped v = true) ∧
        t.load (p'.trapframe + A1) = sp ∧ t.load (p'.trapframe + SP) = sp ∧
        ArgStack (t.userMem p'.pagetable).byte ((b + 1) * PGSIZE)
        ((b + 2) * PGSIZE) sp argv ptrs := by
  obtain ⟨isArgc, b, sz, sp, ptrs, runs⟩ := exec_runs shape args run success
  have fits := fun ph member isLoad => (runs.checked ph member isLoad).filesz
  have page : (b + 1) * PGSIZE = b * PGSIZE + PGSIZE := Nat.succ_mul b PGSIZE
  have below := runs.below
  refine ⟨isArgc, fun ph member isLoad => ⟨fun i inside => ?_, fun i above inside => ?_⟩, b, sp,
    ptrs, runs.size, ?_,
    fun v low other => decide_eq_true (runs.user v low other), runs.a1, runs.sp, runs.args⟩
  · have checked := runs.checked ph member isLoad
    have := checked.filesz
    have := checked.fits
    rw [runs.image _ (by omega)]
    exact File.image_inside isLoad inside disjoint fits member
  · have := (runs.checked ph member isLoad).fits
    rw [runs.image _ (by omega)]
    exact File.image_rest isLoad above inside disjoint fits member
  · rw [runs.guard, leafPte_and_PTE_U (by decide)]
    decide

/-! ### Programs that can be run -/

theorem exec_succeeds {s₁ s₂ s₃ s₄ s₅ : Ram} {sz1 : Nat}
    (header : (f.readi 0 ELFHDR_SIZE).length = ELFHDR_SIZE) (magic : f.elfhdr.magic = ELF_MAGIC)
    (table : procPagetable p.trapframe s = .ok (root, s₁)) (nonzero : root ≠ 0)
    (load : loadHeaders root f f.elfhdr.phnum (f.elfhdr.phoff % 2 ^ 32) 0 s₁ = .ok ((true, sz), s₂))
    (alloc : uvmalloc root (PGROUNDUP sz) ((PGROUNDUP sz + 2 * PGSIZE) % 2 ^ 64) s₂ = .ok (sz1, s₃))
    (grown : sz1 ≠ 0) (clear : uvmclear root (sz1 - 2 * PGSIZE) s₃ = .ok ((), s₄))
    (push : pushStack root sz1 argv s₄ = .ok (some sp, s₅)) :
    From s (exec p fs (some f) path argv) (fun r _ => r.1 = argv.length) := by
  have isHeader := (File.readi_full (by decide) (by decide) header).2
  unfold exec
  dsimp only
  refine .ite (fun short => absurd header short) fun _ => ?_
  rw [isHeader, File.decode_elfhdr]
  refine .ite (fun other => absurd magic other) fun _ => ?_
  refine .run_known table (.ite (fun zero => absurd zero nonzero) fun _ => ?_)
  refine .run_known load (.ite (fun no => nomatch no) fun _ => ?_)
  refine .run_known alloc (.ite (fun zero => absurd zero grown) fun _ => ?_)
  generalize sz1 - 2 * PGSIZE = guard at clear ⊢
  refine .run_known clear (.run_known push ?_)
  refine .modify_known (.modify_known (.modify_known ?_))
  exact .bind Triple.unknown fun _ => .pure fun _ _ => rfl

end Program

/-- An ELF file of 120 bytes with one program header, at `high * 2 ^ 32 + 64` as its header says;
the program header says that the four bytes of the segment are at `high * 2 ^ 32`. -/
def elfFile (high : Byte) : File where
  size := 120
  byte
    | 0 => 0x7F
    | 1 => 0x45
    | 2 => 0x4C
    | 3 => 0x46
    | 32 => 64
    | 36 => high
    | 56 => 1
    | 64 => 1
    | 76 => high
    | 96 => 4
    | 104 => 4
    | _ => 0
  small := by decide

section Sample

attribute [local instance] smallKernel

attribute [local irreducible] freewalk

/-- What `exec` does before the commit, for a process without user memory. -/
def sampleBuild (f : File) (argv : List (List Byte)) : VmM (Nat × Nat × Bool × Nat × Option Nat) :=
  do
  let old ← procPagetable 0x8002c000
  let pagetable ← procPagetable 0x8002c000
  let (loaded, sz) ← loadHeaders pagetable f f.elfhdr.phnum (f.elfhdr.phoff % 2 ^ 32) 0
  let sz1 ← uvmalloc pagetable (PGROUNDUP sz) ((PGROUNDUP sz + 2 * PGSIZE) % 2 ^ 64)
  uvmclear pagetable (sz1 - 2 * PGSIZE)
  let sp ← pushStack pagetable sz1 argv
  return (old, pagetable, loaded, sz1, sp)

theorem sample_exec {f : File} {argv : List (List Byte)} {old root sz1 sp : Nat}
    (args : SysArgs argv) (header : (f.readi 0 ELFHDR_SIZE).length = ELFHDR_SIZE)
    (magic : f.elfhdr.magic = ELF_MAGIC)
    (builds : (sampleBuild f argv roomyRam).toOption.map (fun r => r.1) = some
      (old, root, true, sz1, some sp)) (nonzero : old ≠ 0 ∧ root ≠ 0 ∧ sz1 ≠ 0) :
    ∃ whole p s p' fs' t, Shape whole p s ∧
      exec p ⟨0, 0, 0⟩ (some f) [] argv s = .ok ((argv.length, p', fs'), t) := by
  obtain ⟨result, t, run, seen⟩ := run_observed (fun r _ => r) builds
  subst seen
  obtain ⟨old', s, table₀, run⟩ := run_bind_ok run
  obtain ⟨root', s₁, table, run⟩ := run_bind_ok run
  obtain ⟨⟨loaded, sz⟩, s₂, load, run⟩ := run_bind_ok run
  obtain ⟨sz1', s₃, alloc, run⟩ := run_bind_ok run
  obtain ⟨_, s₄, clear, run⟩ := run_bind_ok run
  obtain ⟨sp', s₅, push, run⟩ := run_bind_ok run
  cases run
  have made : From roomyRam (procPagetable 0x8002c000) _ :=
    procPagetable_spec roomyRam_freeList (by decide)
  rcases made.ok rfl table₀ with ⟨zero, -⟩ | ⟨-, space, -⟩
  · exact absurd zero nonzero.1
  · have shape : Shape (fun q => q ∈ roomyRam.freelist) (newProc old) s :=
      ⟨space, by show IsPage 0x8002c000; unfold IsPage; decide,
        show 0x8002c000 ∉ roomyRam.freelist by decide⟩
    obtain ⟨⟨r, p', fs'⟩, t, run, -⟩ :=
      @exec_returns _ _ s argv (newProc old) ⟨0, 0, 0⟩ [] (some f) shape args
    have succeeds :=
      @exec_succeeds _ root sp s f argv (newProc old) ⟨0, 0, 0⟩ sz
      [] s₁ s₂ s₃ s₄ _ sz1 header magic table
      nonzero.2.1 load alloc nonzero.2.2 clear push
    obtain rfl : r = argv.length := succeeds.ok rfl run
    exact ⟨_, newProc old, s, p', fs', t, shape, run⟩

theorem sysArgs_nil : SysArgs [] := ⟨by decide, nofun, nofun⟩

/-- A program starts from such a file, wherever its headers say that they are. -/
theorem elfFile_runs {high : Byte} (either : high = 0 ∨ high = 1) :
    ∃ whole p s p' fs' t, Shape whole p s ∧
      exec p ⟨0, 0, 0⟩ (some (elfFile high)) [] [] s = .ok ((0, p', fs'), t) := by
  have builds : (sampleBuild (elfFile high) [] roomyRam).toOption.map (fun r => r.1) =
      some (0x80030000, 0x80033000, true, 12288, some 12272) := by
    rcases either with rfl | rfl
    · decide +kernel
    · decide +kernel
  refine sample_exec sysArgs_nil rfl ?_ builds (by decide)
  rcases either with rfl | rfl
  · decide
  · decide

theorem exec_headers_inside_near : ∃ whole p s p' fs' t, Shape whole p s ∧
    exec p ⟨0, 0, 0⟩ (some (elfFile 0)) [] [] s = .ok ((0, p', fs'), t) ∧
      (elfFile 0).HeadersInside := by
  obtain ⟨whole, p, s, p', fs', t, shape, run⟩ := elfFile_runs (.inl rfl)
  exact ⟨whole, p, s, p', fs', t, shape, run,
    (exec_headers_inside shape sysArgs_nil run (by decide)).mpr (by decide)⟩

/-- **A file whose headers are far outside**: it is run, with the bytes that are at the offsets
modulo `2 ^ 32`. -/
theorem exec_headers_outside : ∃ whole p s p' fs' t, Shape whole p s ∧
    exec p ⟨0, 0, 0⟩ (some (elfFile 1)) [] [] s = .ok ((0, p', fs'), t) ∧
    0 < (elfFile 1).elfhdr.phnum ∧
    ¬ ((elfFile 1).elfhdr.phoff + (elfFile 1).elfhdr.phnum * PROGHDR_SIZE ≤ (elfFile 1).size) ∧
    ∃ ph ∈ (elfFile 1).segments, ph.type = ELF_PROG_LOAD ∧ 0 < ph.filesz ∧
      ¬ (ph.off + ph.filesz ≤ (elfFile 1).size) := by
  obtain ⟨whole, p, s, p', fs', t, shape, run⟩ := elfFile_runs (.inr rfl)
  exact ⟨whole, p, s, p', fs', t, shape, run, by decide, by decide, by decide⟩

/-- An ELF file with two segments: four bytes and two zeros at address 0, three bytes and five zeros
in the next page. -/
def twoSegments : File where
  size := 183
  byte
    | 0 => 0x7F
    | 1 => 0x45
    | 2 => 0x4C
    | 3 => 0x46
    | 32 => 64
    | 56 => 2
    | 64 => 1
    | 72 => 176
    | 96 => 4
    | 104 => 6
    | 120 => 1
    | 128 => 180
    | 137 => 16
    | 152 => 3
    | 160 => 8
    | 176 => 11
    | 177 => 12
    | 178 => 13
    | 179 => 14
    | 180 => 21
    | 181 => 22
    | 182 => 23
    | _ => 0
  small := by decide

theorem twoSegments_segments :
    twoSegments.segments = [⟨1, 176, 0, 4, 6⟩, ⟨1, 180, 4096, 3, 8⟩] := by
  decide

/-- `ls` and `x`. -/
def sampleArgs : List (List Byte) := [[108, 115], [120]]

theorem sysArgs_sample : SysArgs sampleArgs := ⟨by decide, by decide, by decide⟩

theorem twoSegments_runs : ∃ whole p s p' fs' t, Shape whole p s ∧
    exec p ⟨0, 0, 0⟩ (some twoSegments) [] sampleArgs s = .ok ((2, p', fs'), t) := by
  have builds : (sampleBuild twoSegments sampleArgs roomyRam).toOption.map (fun r => r.1) =
      some (0x80030000, 0x80033000, true, 16384, some 16320) := by
    decide +kernel
  exact sample_exec sysArgs_sample rfl (by decide) builds (by decide)

/-- Two arguments of 2500 bytes: each fits in the stack page, both do not. -/
def longArg : List Byte := List.replicate 2500 97

def longArgs : List (List Byte) := [longArg, longArg]

theorem length_longArg : longArg.length = 2500 := List.length_replicate

theorem sysArgs_long : SysArgs longArgs := by
  have same : ∀ arg ∈ longArgs, arg = longArg := by simp [longArgs]
  refine ⟨by decide, fun arg member => ?_, fun arg member => ?_⟩
  · rw [same arg member, length_longArg]
    decide
  · rw [same arg member, longArg, List.mem_replicate]
    decide

/-- The same process and the same file: with short arguments the program is started, and with long
ones `exec` fails after it has loaded the segments. -/
theorem exec_atomic_longArgs : ∃ whole p s, Shape whole p s ∧ SysArgs longArgs ∧
    (∃ p' fs' t, exec p ⟨0, 0, 0⟩ (some twoSegments) [] sampleArgs s = .ok ((2, p', fs'), t)) ∧
    ∃ t, exec p ⟨0, 0, 0⟩ (some twoSegments) [] longArgs s = .ok ((-1, p, ⟨0, 0, 0⟩), t) ∧
      Untouched p s t := by
  obtain ⟨whole, p, s, p', fs', t, shape, short⟩ := twoSegments_runs
  refine ⟨whole, p, s, shape, sysArgs_long, ⟨p', fs', t, short⟩, ?_⟩
  obtain ⟨r, q, refs, u, run, untouched⟩ :=
    exec_atomic shape sysArgs_long ⟨0, 0, 0⟩ (some twoSegments) []
  by_cases fails : r = -1
  · obtain ⟨rfl, rfl, same⟩ := untouched fails
    exact ⟨u, fails ▸ run, same⟩
  · obtain ⟨-, b, sz, sp, ptrs, runs⟩ := exec_runs shape sysArgs_long run fails
    have two : ptrs.length = 2 := runs.args.count
    obtain ⟨one, other, rfl⟩ := List.length_eq_two.mp two
    have pieces : pieces sp longArgs [one, other] = [(sp, 24), (one, 2501), (other, 2501)] := by
      simp [Vm.pieces, longArgs, length_longArg]
    have inside := runs.args.inside
    have apart := runs.args.apart
    rw [pieces] at inside apart
    have first := inside (one, 2501) (by simp)
    have second := inside (other, 2501) (by simp)
    have disjoint : one + 2501 ≤ other ∨ other + 2501 ≤ one := by simp at apart; exact apart.2
    have page : (b + 2) * PGSIZE = (b + 1) * PGSIZE + 4096 := Nat.succ_mul (b + 1) PGSIZE
    dsimp only at first second
    omega

theorem read_segment {m : Memory} {f : File} {vaddr off filesz memsz : Nat}
    (text : ∀ i < filesz, m (vaddr + i) = f.byte (off + i))
    (rest : ∀ i, filesz ≤ i → i < memsz → m (vaddr + i) = 0) :
    m.read vaddr memsz = (List.range memsz).map fun i => if i < filesz then f.byte (off + i)
      else 0 := by
  refine List.map_congr_left fun i member => ?_
  split
  · next inside => exact text i inside
  · next outside => exact rest i (Nat.not_lt.mp outside) (List.mem_range.mp member)

/-- Both segments with their zeros, and the two strings on the stack. -/
theorem exec_image_twoSegments : ∃ whole p s p' fs' t, Shape whole p s ∧
    exec p ⟨0, 0, 0⟩ (some twoSegments) [] sampleArgs s = .ok ((2, p', fs'), t) ∧
    Memory.read (t.userMem p'.pagetable).byte 0 6 = [11, 12, 13, 14, 0, 0] ∧
    Memory.read (t.userMem p'.pagetable).byte 4096 8 = [21, 22, 23, 0, 0, 0, 0, 0] ∧
    ∃ sp one other, sp % 16 = 0 ∧ t.load (p'.trapframe + A1) = sp ∧
      t.load (p'.trapframe + SP) = sp ∧
      Memory.le 8 (t.userMem p'.pagetable).byte sp = one ∧
      Memory.le 8 (t.userMem p'.pagetable).byte (sp + 8) = other ∧
      Memory.le 8 (t.userMem p'.pagetable).byte (sp + 16) = 0 ∧
      Memory.read (t.userMem p'.pagetable).byte one 3 = [108, 115, 0] ∧
      Memory.read (t.userMem p'.pagetable).byte other 2 = [120, 0] := by
  obtain ⟨whole, p, s, p', fs', t, shape, run⟩ := twoSegments_runs
  refine ⟨whole, p, s, p', fs', t, shape, run, ?_⟩
  have apart : SegmentsApart twoSegments.segments := by
    rw [twoSegments_segments]
    refine List.pairwise_pair.mpr fun _ _ a both => ?_
    unfold Proghdr.Covers at both
    dsimp only at both
    omega
  obtain ⟨-, image, b, sp, ptrs, -, -, -, a1, isSp, args⟩ :=
    exec_image shape sysArgs_sample run (by decide) apart
  rw [twoSegments_segments] at image
  obtain ⟨text, rest⟩ := image ⟨1, 176, 0, 4, 6⟩ (by simp) rfl
  obtain ⟨text', rest'⟩ := image ⟨1, 180, 4096, 3, 8⟩ (by simp) rfl
  have two : ptrs.length = 2 := args.count
  obtain ⟨one, other, rfl⟩ := List.length_eq_two.mp two
  refine ⟨?_, ?_, sp, one, other, args.aligned, a1, isSp, args.pointers 0 one rfl,
    args.pointers 1 other rfl,
    args.last, args.strings 0 one _ rfl rfl, args.strings 1 other _ rfl rfl⟩
  · exact (read_segment text rest).trans (by decide)
  · exact (read_segment text' rest').trans (by decide)

end Sample

end Xv6.Vm
