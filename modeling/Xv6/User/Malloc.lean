/-
**The allocator of the users** (`user/umalloc.c`: `free`, `morecore`, `malloc`) over the memory of a
process (`kernel/sysproc.c`: `sys_sbrk`).

A block of memory starts with a header, and its size is counted in headers; headers are given by
their addresses. The free blocks form a list of links through `base`. What `sbrk` does is a
parameter of the program: it is asked for an `int`, and `(char*)-1` is its failure.

`Inside`: all blocks end below a bound. `free` and `malloc` keep this whatever the order of the list
and whatever sizes wrap around, since a block only grows by one that starts at its end
(`Inside.join`). With `sys_sbrk` the bound is the size of the process, as long as the number of
bytes that `morecore` asks for is an `int` and the program itself only enlarges its memory
(`malloc_inside`). The product of the largest request is not an `int` (`malloc_outside`).
-/

import Xv6.Vm.Process

namespace Xv6.User

open Lib Function

/-! ### The program -/

/-- `union header`. A pointer is an address. -/
structure Header where
  ptr : Nat
  size : Nat
  deriving DecidableEq

/-- `sizeof(Header)` -/
def HEADER : Nat := 16

/-- The memory of the allocator: the headers, `freep`, and the rest of the system. -/
structure Arena (E : Type) where
  hdr : Nat → Header
  freep : Nat
  env : E

def setSize (hdr : Nat → Header) (p n : Nat) : Nat → Header := update hdr p { hdr p with size := n }

def setPtr (hdr : Nat → Header) (p q : Nat) : Nat → Header := update hdr p { hdr p with ptr := q }

/-- Follow the links to a node where `stop` holds; nothing, if the fuel does not last. -/
def seek (next : Nat → Nat) (stop : Nat → Bool) : Nat → Nat → Option Nat
  | 0, _ => none
  | fuel + 1, x => if stop x then some x else seek next stop fuel (next x)

/-- The loop of `free` ends at `p`. -/
def freeStop (hdr : Nat → Header) (bp p : Nat) : Bool :=
  (p < bp && bp < (hdr p).ptr) || ((hdr p).ptr ≤ p && (p < bp || bp < (hdr p).ptr))

/-- `p` takes the block after it, `q`, into itself if it ends there, and gets the link `q` has; else
it gets a link to `q`. -/
def join (hdr : Nat → Header) (p q : Nat) : Nat → Header :=
  if p + HEADER * (hdr p).size = q then
    let hdr := setSize hdr p (((hdr p).size + (hdr q).size) % 2 ^ 32)
    setPtr hdr p (hdr q).ptr
  else setPtr hdr p q

section Model

variable {E : Type} (sbrk : Int → E → Option (Nat × E)) (base : Nat)

/-- `free(ap)`; nothing, if the loop does not end with the fuel. -/
def free (fuel : Nat) (a : Arena E) (ap : Nat) : Option (Arena E) := do
  let bp := ap - HEADER
  let p ← seek (fun p => (a.hdr p).ptr) (freeStop a.hdr bp) fuel a.freep
  return { a with hdr := join (join a.hdr bp (a.hdr p).ptr) p bp, freep := p }

/-- `(char*)-1` -/
def FAILED : Nat := 2 ^ 64 - 1

/-- The value of an unsigned number as an `int`. -/
def asInt (n : Nat) : Int := (BitVec.ofNat 32 n).toInt

def moreUnits (nu : Nat) : Nat := if nu < 4096 then 4096 else nu

def morecore (fuel : Nat) (a : Arena E) (nu : Nat) : Option (Nat × Arena E) := do
  let nu := moreUnits nu
  let (p, env) ← sbrk (asInt (nu * HEADER)) a.env
  if p = FAILED then return (0, { a with env })
  else
    let a ← free fuel { a with hdr := setSize a.hdr p nu, env } (p + HEADER)
    return (a.freep, a)

/-- The block at `p` is large enough: it leaves the list, or its end is cut off. -/
def takeBlock (a : Arena E) (nunits prevp p : Nat) : Nat × Arena E :=
  if (a.hdr p).size =
    nunits then (p + HEADER, { a with hdr := setPtr a.hdr prevp (a.hdr p).ptr, freep := prevp })
  else
    let rest := (a.hdr p).size - nunits
    let q := p + HEADER * rest
    (q + HEADER, { a with hdr := setSize (setSize a.hdr p rest) q nunits, freep := prevp })

/-- The loop of `malloc`; nothing, if it does not end with the fuel. -/
def mallocLoop (nunits : Nat) : Nat → Nat → Nat → Arena E → Option (Nat × Arena E)
  | 0, _, _, _ => none
  | fuel + 1, prevp, p, a =>
    if nunits ≤ (a.hdr p).size then some (takeBlock a nunits prevp p)
    else if p = a.freep then do
      let (p, a) ← morecore sbrk fuel a nunits
      if p = 0 then return (0, a) else mallocLoop nunits fuel p (a.hdr p).ptr a
    else mallocLoop nunits fuel p (a.hdr p).ptr a

/-- The size of a block for `nbytes`; the sum is one of 64 bits. -/
def nunits (nbytes : Nat) : Nat := ((nbytes + HEADER - 1) / HEADER + 1) % 2 ^ 32

def malloc (fuel : Nat) (a : Arena E) (nbytes : Nat) : Option (Nat × Arena E) :=
  let a := if a.freep = 0 then { a with hdr := update a.hdr base ⟨base, 0⟩, freep := base } else a
  mallocLoop sbrk (nunits nbytes) fuel a.freep (a.hdr a.freep).ptr a

end Model

/-! ### Numbers -/

theorem asInt_eq {n : Nat} (fits : n < 2 ^ 31) : asInt n = n := by
  rw [asInt, BitVec.toInt_eq_toNat_of_lt (by rw [BitVec.toNat_ofNat]; omega), BitVec.toNat_ofNat]
  exact congrArg _ (Nat.mod_eq_of_lt (by omega))

/-- The number of bytes that `malloc` may ask for is an `int`. -/
def Moderate (nbytes : Nat) : Prop := nbytes ≤ 2 ^ 31 - 32

theorem moreUnits_fits {nbytes : Nat} (small : Moderate nbytes) :
    nbytes + HEADER ≤ HEADER * nunits nbytes ∧ 0 < nunits nbytes ∧
      moreUnits (nunits nbytes) * HEADER < 2 ^ 31 := by
  unfold Moderate at small
  unfold moreUnits nunits HEADER
  split_ifs <;> omega

/-! ### Blocks below a bound -/

/-- **All blocks are between `low` and `bound`.** The nodes are the blocks on the list, and `base`.
-/
structure Inside (base low bound : Nat) (nodes blocks : Set Nat) (hdr : Nat → Header) : Prop where
  below : base < low
  empty : (hdr base).size = 0
  inside : ∀ x ∈ blocks, low ≤ x ∧ x + HEADER * (hdr x).size ≤ bound
  node : ∀ x ∈ nodes, x = base ∨ x ∈ blocks
  closed : ∀ x ∈ nodes, (hdr x).ptr ∈ nodes

namespace Inside

variable {base low bound x n q fuel : Nat} {nodes blocks : Set Nat} {hdr : Nat → Header}

section

variable (fits : Inside base low bound nodes blocks hdr)

include fits

theorem ne_base (block : x ∈ blocks) : x ≠ base := by
  have := (fits.inside x block).1
  have := fits.below
  omega

theorem setSize (high : low ≤ x) (ends : x + HEADER * n ≤ bound) :
    Inside base low bound nodes (insert x blocks) (setSize hdr x n) := by
  have other : base ≠ x := fun same => by
    have := fits.below
    omega
  refine ⟨fits.below, ?_, fun y block => ?_, fun y member => (fits.node y member).imp_right Or.inr,
    fun y member => ?_⟩
  · rw [User.setSize, update_of_ne other]
    exact fits.empty
  · revert block
    unfold User.setSize
    exact update_ind (fun _ => ⟨high, ends⟩)
      fun other block => fits.inside y (block.resolve_left other)
  · have kept : (User.setSize hdr x n y).ptr = (hdr y).ptr := by
      unfold User.setSize
      exact update_ind rfl fun _ => rfl
    rw [kept]
    exact fits.closed y member

theorem setPtr (place : x = base ∨ x ∈ blocks) (link : q ∈ nodes) :
    Inside base low bound (insert x nodes) blocks (setPtr hdr x q) := by
  have size : ∀ y, (User.setPtr hdr x q y).size = (hdr y).size := by
    intro y
    unfold User.setPtr
    exact update_ind rfl fun _ => rfl
  refine ⟨fits.below, (size base).trans fits.empty, fun y block => size y ▸ fits.inside y block,
    fun y member => ?_, fun y member => ?_⟩
  · rcases member with rfl | member
    · exact place
    · exact fits.node y member
  · revert member
    unfold User.setPtr
    exact update_ind (fun _ => .inr link)
      fun other member => .inr (fits.closed y (member.resolve_left other))

theorem grow {more : Nat} (larger : bound ≤ more) : Inside base low more nodes blocks hdr :=
  ⟨fits.below, fits.empty,
    fun x block => ⟨(fits.inside x block).1, (fits.inside x block).2.trans larger⟩, fits.node,
    fits.closed⟩

/-- **A block joins the one at its end**: together they end where the second one did, or before if
the size wraps around. -/
theorem join (place : x = base ∨ x ∈ blocks) (link : q ∈ nodes) (apart : ¬ (x = base ∧ q = base)) :
    Inside base low bound (insert x nodes) blocks (join hdr x q) := by
  unfold User.join
  split_ifs with adjacent
  · have below := fits.below
    have block : x ∈ blocks := place.resolve_left fun isBase => by
      subst isBase
      rw [fits.empty] at adjacent
      exact apart ⟨rfl, adjacent.symm⟩
    have next : q ∈ blocks := (fits.node q link).resolve_left fun isBase => by
      have := (fits.inside x block).1
      omega
    have ends : x + HEADER * (((hdr x).size + (hdr q).size) % 2 ^ 32) ≤ bound := by
      have less := Nat.mul_le_mul_left HEADER (Nat.mod_le ((hdr x).size + (hdr q).size) (2 ^ 32))
      have := (fits.inside q next).2
      rw [Nat.mul_add] at less
      omega
    have sized := fits.setSize (fits.inside x block).1 ends
    rw [Set.insert_eq_of_mem block] at sized
    exact sized.setPtr (.inr block) (sized.closed q link)
  · exact fits.setPtr place link

theorem seek_mem {stop : Nat → Bool} :
    ∀ {fuel x p}, x ∈ nodes → seek (fun p => (hdr p).ptr) stop fuel x = some p → p ∈ nodes := by
  intro fuel
  induction fuel with
  | zero => exact nofun
  | succ fuel ih =>
    intro x p member found
    unfold seek at found
    split_ifs at found
    · exact Option.some.inj found ▸ member
    · exact ih (fits.closed x member) found

end

end Inside

section Calls

variable {E : Type} {base low bound fuel ap x : Nat} {nodes blocks : Set Nat} {a t : Arena E}

theorem free_inside (fits : Inside base low bound nodes blocks a.hdr) (start : a.freep ∈ nodes)
    (block : ap - HEADER ∈ blocks) (done : free fuel a ap = some t) :
    ∃ more, Inside base low bound more blocks t.hdr ∧ nodes ⊆ more ∧ t.freep ∈ more ∧
      t.env = a.env := by
  obtain ⟨p, found, rest⟩ := Option.bind_eq_some_iff.mp done
  obtain rfl := Option.some.inj rest
  have onList := fits.seek_mem start found
  have notBase := fits.ne_base block
  have upper := fits.join (.inr block) (fits.closed p onList) fun both => notBase both.1
  have lower := upper.join (fits.node p onList) (Set.mem_insert _ _) fun both => notBase both.2
  exact ⟨_, lower, fun y member => .inr (.inr member), .inl rfl, rfl⟩

theorem takeBlock_rest (a : Arena E) (nunits prevp p : Nat) :
    (takeBlock a nunits prevp p).2.env = a.env ∧ (takeBlock a nunits prevp p).2.freep = prevp := by
  unfold takeBlock
  split_ifs
  · exact ⟨rfl, rfl⟩
  · exact ⟨rfl, rfl⟩

/-- **A block that is taken** ends inside the one it is taken from. -/
theorem takeBlock_inside {nunits prevp p : Nat} (fits : Inside base low bound nodes blocks a.hdr)
    (prev : prevp ∈ nodes) (onList : p ∈ nodes) (some : 0 < nunits)
    (enough : nunits ≤ (a.hdr p).size) :
    ∃ x more, (takeBlock a nunits prevp p).1 = x + HEADER ∧ low ≤ x ∧ x + HEADER * nunits ≤ bound ∧
      x ∈ more ∧
      blocks ⊆ more ∧ Inside base low bound nodes more (takeBlock a nunits prevp p).2.hdr := by
  have block : p ∈ blocks := (fits.node p onList).resolve_left fun isBase => by
    rw [isBase, fits.empty] at enough
    omega
  obtain ⟨high, ends⟩ := fits.inside p block
  unfold takeBlock
  split_ifs with exactly
  · have unlinked := fits.setPtr (fits.node prevp prev) (fits.closed p onList)
    rw [Set.insert_eq_of_mem prev] at unlinked
    exact ⟨p, blocks, rfl, high, exactly ▸ ends, block, fun _ => id, unlinked⟩
  · have cut : (a.hdr p).size - nunits + nunits = (a.hdr p).size := by omega
    rw [← cut, Nat.mul_add] at ends
    have shrunk := fits.setSize (n := (a.hdr p).size - nunits) high (by omega)
    have split :=
      shrunk.setSize (x := p + HEADER * ((a.hdr p).size - nunits)) (n := nunits) (by omega)
      (by omega)
    exact ⟨_, _, rfl, by omega, by omega, Set.mem_insert _ _, fun y member => .inr (.inr member),
      split⟩

end Calls

/-! ### The memory of a process -/

open Vm

section Process

variable [KernelImage]

/-- `sys_sbrk`: the old size is an `int`, and the result a register. -/
def sysSbrk (n : Int) (e : Proc × Ram) : Option (Nat × Proc × Ram) :=
  match growproc e.1 n e.2 with
  | .error _ => none
  | .ok ((r, p), ram) =>
    some (if r < 0 then FAILED else ((BitVec.ofNat 32 e.1.sz).signExtend 64).toNat, p, ram)

/-- **The heap of a process**: its blocks are between its first size and its size. -/
structure Heap (whole : Nat → Prop) (base low : Nat) (nodes blocks : Set Nat)
    (a : Arena (Proc × Ram)) : Prop where
  shape : Shape whole a.env.1 a.env.2
  above : low ≤ a.env.1.sz
  fits : Inside base low a.env.1.sz nodes blocks a.hdr
  freep : a.freep ∈ nodes

variable {whole : Nat → Prop} {base low fuel nu : Nat} {nodes blocks : Set Nat}
  {a t : Arena (Proc × Ram)}

/-- **`sys_sbrk` gives what is asked for**, or nothing. -/
theorem sysSbrk_spec {p : Proc} {s : Ram} {n : Nat} (shape : Shape whole p s) (fits : n < 2 ^ 31) :
    ∃ r q u, sysSbrk n (p, s) = some (r, q, u) ∧ Shape whole q u ∧
      (r = FAILED ∧ q.sz = p.sz ∨ r = p.sz ∧ r ≠ FAILED ∧ q.sz = p.sz + n) := by
  have size := shape.space.size_le
  rw [FRAMES_mul] at size
  obtain ⟨⟨r, q⟩, u, done, outcome⟩ :=
    (growproc_spec (n := n) shape (by omega) (by omega)).returns rfl fun _ => id
  have address : ((BitVec.ofNat 32 p.sz).signExtend 64).toNat = p.sz := by
    have positive : (BitVec.ofNat 32 p.sz).msb = false := by
      rw [BitVec.msb_eq_decide, BitVec.toNat_ofNat]
      exact decide_eq_false (by omega)
    rw [BitVec.toNat_signExtend, positive, BitVec.toNat_setWidth, BitVec.toNat_ofNat]
    simp only [Bool.false_eq_true, if_false]
    omega
  refine ⟨_, q, u, by rw [sysSbrk, done], ?_⟩
  rcases outcome with ⟨rfl, grown⟩ | ⟨rfl, rfl, intact⟩
  · refine ⟨grown.shape, .inr ⟨address, ?_, ?_⟩⟩
    · show ((BitVec.ofNat 32 p.sz).signExtend 64).toNat ≠ _
      rw [address, FAILED]
      omega
    · have : (q.sz : Int) = p.sz + n := grown.size
      omega
  · exact ⟨intact.shape, .inl ⟨rfl, rfl⟩⟩

theorem morecore_heap {r : Nat} (heap : Heap whole base low nodes blocks a)
    (fits : moreUnits nu * HEADER < 2 ^ 31) (done : morecore sysSbrk fuel a nu = some (r, t)) :
    ∃ nodes' blocks', Heap whole base low nodes' blocks' t ∧ blocks ⊆ blocks' ∧
      a.env.1.sz ≤ t.env.1.sz ∧
      (r ≠ 0 → r ∈ nodes') := by
  obtain ⟨p, q, u, sbrk, shape, outcome⟩ := sysSbrk_spec heap.shape fits
  unfold morecore at done
  simp only [asInt_eq fits, sbrk, Option.bind_eq_bind, Option.bind_some] at done
  rcases outcome with ⟨rfl, size⟩ | ⟨isOld, succeeds, size⟩
  · rw [if_pos rfl] at done
    obtain ⟨rfl, rfl⟩ := Prod.mk.inj (Option.some.inj done)
    exact ⟨nodes, blocks, ⟨shape, size.symm ▸ heap.above, heap.fits.grow size.ge, heap.freep⟩,
      fun _ => id, size.ge, fun nonzero => absurd rfl nonzero⟩
  · rw [if_neg succeeds] at done
    obtain ⟨b, freed, rest⟩ := Option.bind_eq_some_iff.mp done
    obtain ⟨rfl, rfl⟩ := Prod.mk.inj (Option.some.inj rest)
    have more :=
      (heap.fits.grow (show a.env.1.sz ≤ q.sz by omega)).setSize (x := p) (n := moreUnits nu)
      (isOld ▸ heap.above) (by rw [size, isOld, Nat.mul_comm])
    obtain ⟨nodes', fits', -, freep, env⟩ := free_inside
      (a :=
        ({ hdr := setSize a.hdr p (moreUnits nu), freep := a.freep, env := (q, u) } :
          Arena (Proc × Ram))) more
      heap.freep (Set.mem_insert p blocks) freed
    have now : b.env = (q, u) := env
    have larger : a.env.1.sz ≤ b.env.1.sz := by
      rw [now, size]
      omega
    exact ⟨nodes', _, ⟨by rwa [now], heap.above.trans larger, by rwa [now], freep⟩,
      Set.subset_insert p blocks, larger, fun _ => freep⟩

/-- What a call of `malloc` leaves: the heap, and a block of `nu` units if it returns one. -/
structure Allocated (whole : Nat → Prop) (base low : Nat) (blocks : Set Nat)
    (a : Arena (Proc × Ram)) (nu r : Nat)
    (t : Arena (Proc × Ram)) (nodes' blocks' : Set Nat) : Prop where
  heap : Heap whole base low nodes' blocks' t
  kept : blocks ⊆ blocks'
  grows : a.env.1.sz ≤ t.env.1.sz
  block : r ≠ 0 → ∃ x ∈ blocks', r = x + HEADER ∧ low ≤ x ∧ x + HEADER * nu ≤ t.env.1.sz

/-- **The loop of `malloc`**: the induction is on the fuel, and both pointers are on the list. -/
theorem mallocLoop_heap {r : Nat} (some : 0 < nu) (fits : moreUnits nu * HEADER < 2 ^ 31) :
    ∀ {fuel prevp p : Nat} {nodes blocks : Set Nat} {a : Arena (Proc × Ram)},
      Heap whole base low nodes blocks a →
      prevp ∈ nodes → p ∈ nodes → mallocLoop sysSbrk nu fuel prevp p a = .some (r, t) →
      ∃ nodes' blocks', Allocated whole base low blocks a nu r t nodes' blocks' := by
  intro fuel
  induction fuel with
  | zero => exact nofun
  | succ fuel ih =>
    intro prevp p nodes blocks a heap prev onList done
    unfold mallocLoop at done
    split_ifs at done with enough around
    · obtain ⟨x, more, isX, high, ends, member, larger, fits'⟩ :=
        takeBlock_inside heap.fits prev onList some enough
      obtain ⟨rfl, rfl⟩ := Prod.ext_iff.mp (Option.some.inj done)
      obtain ⟨env, freep⟩ := takeBlock_rest a nu prevp p
      exact ⟨nodes, more,
        ⟨env ▸ heap.shape, env ▸ heap.above, env ▸ fits', by rw [freep]; exact prev⟩, larger,
        env ▸ Nat.le_refl _, fun _ => ⟨x, member, isX, high, env ▸ ends⟩⟩
    · obtain ⟨⟨p', b⟩, got, rest⟩ := Option.bind_eq_some_iff.mp done
      obtain ⟨nodes', blocks', heap', kept, grows, listed⟩ := morecore_heap heap fits got
      dsimp only at rest
      split_ifs at rest with failed
      · obtain ⟨rfl, rfl⟩ := Prod.mk.inj (Option.some.inj rest)
        exact ⟨nodes', blocks', heap', kept, grows, fun nonzero => absurd rfl nonzero⟩
      · have onList' := listed failed
        obtain ⟨nodes'', blocks'', all⟩ := ih heap' onList' (heap'.fits.closed _ onList') rest
        exact ⟨nodes'', blocks'', all.heap, kept.trans all.kept, grows.trans all.grows, all.block⟩
    · exact ih heap onList (heap.fits.closed p onList) done

/-! ### Runs -/

/-- The calls of a program, with the result of `malloc`. The program may also call `sbrk` itself. -/
inductive HeapEvent
  | malloc (nbytes result : Nat)
  | free (ap : Nat)
  | sbrk (n : BitVec 32)

/-- A completed call. The second component is what was returned and not freed since. -/
def HeapStep (base : Nat) (s : Arena (Proc × Ram) × List Nat) (e : HeapEvent)
    (t : Arena (Proc × Ram) × List Nat) : Prop :=
  match e with
  | .malloc nbytes r => (∃ fuel, malloc sysSbrk base fuel s.1 nbytes = some (r, t.1)) ∧
      t.2 = if r = 0 then s.2 else r :: s.2
  | .free ap => ap ∈ s.2 ∧ (∃ fuel, free fuel s.1 ap = some t.1) ∧ t.2 = s.2.erase ap
  | .sbrk n => ∃ r env, sysSbrk n.toInt s.1.env = some (r, env) ∧ t = ({ s.1 with env }, s.2)

/-- The sizes are moderate, and the program does not take memory away. -/
def HeapEvent.Allowed : HeapEvent → Prop
  | .malloc nbytes _ => Moderate nbytes
  | .free _ => True
  | .sbrk n => 0 ≤ n.toInt

/-- **The invariant of a run**: the heap, and the blocks in use; before the first call, there is no
list. -/
structure HeapInv (whole : Nat → Prop) (base low : Nat) (s : Arena (Proc × Ram) × List Nat) :
    Prop where
  heap : ∃ nodes blocks, Heap whole base low nodes blocks
      (if s.1.freep = 0 then { s.1 with hdr := update s.1.hdr base ⟨base, 0⟩, freep := base }
        else s.1) ∧
    ∀ ap ∈ s.2, ap - HEADER ∈ blocks
  live : s.1.freep = 0 → s.2 = []

variable {s : Arena (Proc × Ram) × List Nat}

theorem malloc_heap {nbytes r : Nat} (inv : HeapInv whole base low s)
    (small : Moderate nbytes) (done : malloc sysSbrk base fuel s.1 nbytes = some (r, t)) :
    ∃ nodes blocks blocks', Allocated whole base low blocks s.1 (nunits nbytes) r t nodes blocks' ∧
      ∀ ap ∈ s.2, ap - HEADER ∈ blocks := by
  obtain ⟨nodes, blocks, heap, live⟩ := inv.heap
  obtain ⟨-, some, fits⟩ := moreUnits_fits small
  have env : (if s.1.freep = 0 then { s.1 with hdr := update s.1.hdr base ⟨base, 0⟩, freep := base }
      else s.1).env = s.1.env := by
    split_ifs <;> rfl
  obtain ⟨nodes', blocks', all⟩ :=
    mallocLoop_heap some fits heap heap.freep (heap.fits.closed _ heap.freep) done
  exact ⟨nodes', blocks, blocks', ⟨all.heap, all.kept, env ▸ all.grows, all.block⟩, live⟩

theorem Heap.freep_ne (heap : Heap whole base low nodes blocks a) (positive : base ≠ 0) :
    a.freep ≠ 0 := by
  rcases heap.fits.node _ heap.freep with isBase | block
  · rwa [isBase]
  · have := (heap.fits.inside _ block).1
    have := heap.fits.below
    omega

theorem Heap.inv {live : List Nat} (heap : Heap whole base low nodes blocks a) (positive : base ≠ 0)
    (used : ∀ ap ∈ live, ap - HEADER ∈ blocks) : HeapInv whole base low (a, live) := by
  have some := heap.freep_ne positive
  exact ⟨⟨nodes, blocks, (if_neg some).symm ▸ heap, used⟩, fun zero => absurd zero some⟩

theorem HeapInv.initial (shape : Shape whole a.env.1 a.env.2) (unused : a.freep = 0)
    (bss : base < a.env.1.sz) : HeapInv whole base a.env.1.sz (a, []) := by
  refine ⟨⟨{base}, ∅, ?_, nofun⟩, fun _ => rfl⟩
  rw [if_pos unused]
  have here : update a.hdr base ⟨base, 0⟩ base = ⟨base, 0⟩ := update_self _ _ _
  refine ⟨shape, Nat.le_refl _, ⟨bss, congrArg Header.size here, nofun, fun x => .inl, ?_⟩, rfl⟩
  rintro x rfl
  exact congrArg Header.ptr here

theorem Heap.enlarge (heap : Heap whole base low nodes blocks a) (env : Proc × Ram)
    (shape : Shape whole env.1 env.2) (larger : a.env.1.sz ≤ env.1.sz) :
    Heap whole base low nodes blocks { a with env } :=
  ⟨shape, heap.above.trans larger, heap.fits.grow larger, heap.freep⟩

/-- **One call** keeps the invariant. -/
theorem HeapInv.step {u : Arena (Proc × Ram) × List Nat} {e : HeapEvent}
    (inv : HeapInv whole base low s) (allowed : e.Allowed) (positive : base ≠ 0)
    (step : HeapStep base s e u) : HeapInv whole base low u := by
  obtain ⟨b, live⟩ := u
  cases e with
  | malloc nbytes r =>
    obtain ⟨⟨fuel, done⟩, now⟩ := step
    obtain ⟨nodes, blocks, blocks', all, used⟩ := malloc_heap inv allowed done
    refine all.heap.inv positive fun ap member => ?_
    rw [show live = _ from now] at member
    split_ifs at member with failed
    · exact all.kept (used ap member)
    · rcases List.mem_cons.mp member with rfl | old
      · obtain ⟨x, block, rfl, -⟩ := all.block failed
        rwa [Nat.add_sub_cancel]
      · exact all.kept (used ap old)
  | free ap =>
    obtain ⟨member, ⟨fuel, done⟩, now⟩ := step
    obtain ⟨nodes, blocks, heap, used⟩ := inv.heap
    rw [if_neg fun zero => by rw [inv.live zero] at member; cases member] at heap
    obtain ⟨more, fits, -, freep, env⟩ := free_inside heap.fits heap.freep (used ap member) done
    have heap' : Heap whole base low more blocks b :=
      ⟨env ▸ heap.shape, env ▸ heap.above, env ▸ fits, freep⟩
    refine heap'.inv positive fun p stays => used p ?_
    rw [show live = _ from now] at stays
    exact List.mem_of_mem_erase stays
  | sbrk n =>
    obtain ⟨r, env, done, now⟩ := step
    cases now
    obtain ⟨nodes, blocks, heap, used⟩ := inv.heap
    obtain ⟨k, isK⟩ := Int.eq_ofNat_of_zero_le (show 0 ≤ n.toInt from allowed)
    have range : k < 2 ^ 31 := by
      have := n.toInt_lt
      omega
    have old : Shape whole s.1.env.1 s.1.env.2 := by
      have shape := heap.shape
      split_ifs at shape <;> exact shape
    obtain ⟨r', q, ram, same, shape, outcome⟩ := sysSbrk_spec old range
    rw [isK, same] at done
    cases done
    have larger : s.1.env.1.sz ≤ q.sz := by omega
    refine ⟨⟨nodes, blocks, ?_, used⟩, inv.live⟩
    split_ifs at heap ⊢
    · exact heap.enlarge (q, ram) shape larger
    · exact heap.enlarge (q, ram) shape larger

/-- **`malloc` returns memory of the process.** After any sequence of calls with sizes of at most
`2^31 - 32` bytes, in which the program itself has only enlarged its memory, a block that `malloc`
returns is in the memory that `sbrk` has added to the process; the process does not get smaller, and
the number of bytes that `morecore` asks for is the product of its two factors. -/
theorem malloc_inside {trace : List HeapEvent} {s u : Arena (Proc × Ram) × List Nat}
    {nbytes r : Nat} (shape : Shape whole a.env.1 a.env.2) (unused : a.freep = 0)
    (positive : base ≠ 0) (bss : base < a.env.1.sz) (run : Run (HeapStep base) (a, []) trace s)
    (earlier : ∀ e ∈ trace, e.Allowed) (call : HeapStep base s (.malloc nbytes r) u)
    (moderate : Moderate nbytes) :
    (r ≠ 0 → a.env.1.sz + HEADER ≤ r ∧ r + nbytes ≤ u.1.env.1.sz) ∧ s.1.env.1.sz ≤ u.1.env.1.sz ∧
      asInt (moreUnits (nunits nbytes) * HEADER) = (moreUnits (nunits nbytes) * HEADER : Nat) := by
  have inv : HeapInv whole base a.env.1.sz s := by
    refine Run.history_inv (P := fun trace s => (∀ e ∈ trace, e.Allowed) →
      HeapInv whole base a.env.1.sz s)
      (fun _ => HeapInv.initial shape unused bss) (fun before step all => ?_) run earlier
    exact HeapInv.step (before fun e member => all e (List.mem_append_left _ member))
      (all _ (List.mem_append_right _ (List.mem_singleton_self _))) positive step
  obtain ⟨⟨fuel, done⟩, -⟩ := call
  obtain ⟨nodes, blocks, blocks', all, -⟩ := malloc_heap inv moderate done
  obtain ⟨room, -, fits⟩ := moreUnits_fits moderate
  refine ⟨fun some => ?_, all.grows, asInt_eq fits⟩
  obtain ⟨x, -, rfl, high, ends⟩ := all.block some
  exact ⟨by omega, by omega⟩

end Process

section Sample

attribute [local instance] smallKernel

attribute [local irreducible] freewalk

def heapRam : Ram :=
  { roomyRam with freelist := (List.range 40).map fun i => 0x80030000 + 0x1000 * i }

/-- The calls with a fixed amount of fuel, so that they can be evaluated. -/
def HeapEvent.exec (s : Arena (Proc × Ram) × List Nat) : HeapEvent →
    Option (Arena (Proc × Ram) × List Nat)
  | .malloc nbytes r => do
    let (r', a) ← User.malloc sysSbrk 16 9 s.1 nbytes
    if r' = r then some (a, if r = 0 then s.2 else r :: s.2) else none
  | .free ap => if ap ∈ s.2 then (User.free 9 s.1 ap).map fun a => (a, s.2.erase ap) else none
  | .sbrk n => (sysSbrk n.toInt s.1.env).map fun r => ({ s.1 with env := r.2 }, s.2)

theorem HeapEvent.exec_step {t : Arena (Proc × Ram) × List Nat} {e : HeapEvent}
    (done : e.exec s = some t) : HeapStep 16 s e t := by
  cases e with
  | malloc nbytes r =>
    obtain ⟨⟨r', a⟩, call, rest⟩ := Option.bind_eq_some_iff.mp done
    obtain ⟨rfl, rfl⟩ := of_guard rest
    exact ⟨⟨9, call⟩, rfl⟩
  | free ap =>
    obtain ⟨member, rest⟩ := Option.ite_none_right_eq_some.mp done
    obtain ⟨a, call, rfl⟩ := Option.map_eq_some_iff.mp rest
    exact ⟨member, ⟨9, call⟩, rfl⟩
  | sbrk n =>
    obtain ⟨⟨r, env⟩, call, rfl⟩ := Option.map_eq_some_iff.mp done
    exact ⟨r, env, call, rfl⟩

/-- A process of 5000 bytes makes the calls, and then one of `malloc`; the result is its size then.
-/
def sampleCalls (trace : List HeapEvent) (last : HeapEvent) : Option Nat :=
  match sampleProc heapRam with
  | .ok ((0, p), s) => do
    let before ← execAll HeapEvent.exec trace (⟨fun _ => ⟨0, 0⟩, 0, p, s⟩, [])
    let after ← last.exec before
    return after.1.env.1.sz
  | _ => none

theorem sampleCalls_run {trace : List HeapEvent} {last : HeapEvent} {size : Nat}
    (done : sampleCalls trace last = some size) :
    ∃ (whole : Nat → Prop) (a : Arena (Proc × Ram)) (s u : Arena (Proc × Ram) × List Nat),
      Shape whole a.env.1 a.env.2 ∧ a.freep = 0 ∧ a.env.1.sz = 5000 ∧
      Run (HeapStep 16) (a, []) trace s ∧
        HeapStep 16 s last u ∧ u.1.env.1.sz = size := by
  unfold sampleCalls at done
  split at done
  case h_2 => cases done
  case h_1 p ram started =>
    obtain ⟨s, before, rest⟩ := Option.bind_eq_some_iff.mp done
    obtain ⟨u, call, seen⟩ := Option.bind_eq_some_iff.mp rest
    have list : FreeList heapRam := by
      constructor
      · decide
      · unfold IsPage
        decide
    have sample : Sample heapRam.freelist p ram :=
      (sampleProc_spec list (by decide)).ok rfl started rfl
    exact ⟨_, ⟨fun _ => ⟨0, 0⟩, 0, p, ram⟩, s, u, sample.shape, rfl, sample.size,
      (run_of_execAll before).mono HeapEvent.exec_step, HeapEvent.exec_step call,
      Option.some.inj seen⟩

/-- A block, freed again, then 1000 bytes of the program itself: the next block comes after them. -/
def sampleTrace : List HeapEvent := [.malloc 100 70424, .free 70424, .sbrk 1000]

theorem malloc_inside_later : ∃ (a : Arena (Proc × Ram)) (s u : Arena (Proc × Ram) × List Nat),
    a.env.1.sz = 5000 ∧ Run (HeapStep 16) (a, []) sampleTrace s ∧
      HeapStep 16 s (.malloc 66000 71552) u ∧
      5000 + HEADER ≤ 71552 ∧ 71552 + 66000 ≤ u.1.env.1.sz := by
  obtain ⟨whole, a, s, u, shape, unused, size, run, call, -⟩ :=
    sampleCalls_run (show sampleCalls sampleTrace (.malloc 66000 71552) = some 137552 by
      decide +kernel)
  have allowed : ∀ e ∈ sampleTrace, e.Allowed := by
    simp [sampleTrace, HeapEvent.Allowed, Moderate]
  have inside :=
    malloc_inside shape unused (by decide) (by omega) run allowed call (by unfold Moderate; decide)
  exact ⟨a, s, u, size, run, call, size ▸ inside.1 (by decide)⟩

/-- **The largest request**: `morecore` asks for 16 bytes, and `malloc` returns the end of the
process. -/
theorem malloc_outside :
    ∃ (whole : Nat → Prop) (a : Arena (Proc × Ram)) (u : Arena (Proc × Ram) × List Nat),
    Shape whole a.env.1 a.env.2 ∧ a.freep = 0 ∧ 16 < a.env.1.sz ∧
      HeapStep 16 (a, []) (.malloc (2 ^ 32 - 1) 5016) u ∧
      ¬ 5016 + (2 ^ 32 - 1) ≤ u.1.env.1.sz ∧ asInt (moreUnits (nunits (2 ^ 32 - 1)) * HEADER) =
      16 := by
  obtain ⟨whole, a, s, u, shape, unused, size, run, call, after⟩ :=
    sampleCalls_run (show sampleCalls [] (.malloc (2 ^ 32 - 1) 5016) = some 5016 by decide +kernel)
  obtain rfl : s = (a, []) := by
    generalize isNil : ([] : List HeapEvent) = trace at run
    cases run with
    | nil => rfl
    | snoc => simp at isNil
  exact ⟨whole, a, u, shape, unused, by omega, call, by omega, by decide⟩

end Sample

end Xv6.User
