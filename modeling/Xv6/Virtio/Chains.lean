/-
**Descriptor chains.**

What `alloc3_desc` and `free_chain` do to the descriptors (`alloc3Desc_some`, `alloc3Desc_none`,
`freeChain_eq`), and the invariant `ChainInv` of the system: every call that has allocated owns
three descriptors, no descriptor is in two chains, `free` is clear exactly on the descriptors in
chains, and each chain is linked as `virtio_disk_rw` linked it.
-/

import Xv6.Virtio.Driver

set_option linter.unusedSectionVars false

namespace Xv6.VirtioSys

open Lib Function

variable {P B : Type} [DecidableEq P] [DecidableEq B]

/-! ### Allocating and freeing -/

def mark (s : VirtioSys P B) (got : List Nat) : VirtioSys P B :=
  { s with free := fun i => if i ∈ got then false else s.free i }

theorem mark_nil (s : VirtioSys P B) : s.mark [] = s := by
  simp only [mark, List.not_mem_nil, if_false]

variable {s t : VirtioSys P B} {got : List Nat} {i j : Nat} {c : Chain}

/-- One allocation after others: a descriptor that was free and is none of them. -/
theorem allocDesc_some (found : (s.mark got).allocDesc = some (t, i)) :
    i < NUM ∧ i ∉ got ∧ s.free i = true ∧ t = s.mark (got ++ [i]) := by
  unfold allocDesc at found
  split at found
  · rename_i j first
    cases found
    have inside : i ∈ List.range NUM := List.mem_of_find?_eq_some first
    have isFree : (if i ∈ got then false else s.free i) = true :=
      List.find?_some (p := fun i => (s.mark got).free i) first
    have fresh : i ∉ got := fun member => by
      rw [if_pos member] at isFree
      cases isFree
    rw [if_neg fresh] at isFree
    refine ⟨List.mem_range.mp inside, fresh, isFree, ?_⟩
    have free : update (s.mark got).free i false = (s.mark (got ++ [i])).free := by
      funext j
      by_cases this : j = i
      · subst this
        simp [mark]
      · simp [mark, this]
    rw [free]
    rfl
  · cases found

theorem allocDesc_none (failed : s.allocDesc = none) (i : Nat) (inside : i < NUM) :
    s.free i = false := by
  unfold allocDesc at failed
  split at failed
  · cases failed
  · rename_i missed
    have notFree := List.find?_eq_none.mp missed i (List.mem_range.mpr inside)
    simpa using notFree

def freedDesc (s : VirtioSys P B) (i : Nat) : VirtioSys P B :=
  { s with
    desc := update s.desc i .zero
    free := update s.free i true
    pc := fun p => wokenAlloc (s.pc p) }

theorem freedDesc_desc_of_ne (other : j ≠ i) : (s.freedDesc i).desc j = s.desc j :=
  update_of_ne other _ _

theorem freedDesc_free_of_ne (other : j ≠ i) : (s.freedDesc i).free j = s.free j :=
  update_of_ne other _ _

theorem freeDesc_eq (inside : i < NUM) (used : s.free i = false) :
    s.freeDesc i = .ok (s.freedDesc i) := by
  unfold freeDesc
  rw [if_neg (Nat.not_le.mpr inside), if_neg (by rw [used]; exact Bool.false_ne_true)]
  rfl

@[simp] theorem wokenAlloc_wokenAlloc (pc : RwPc B) :
    wokenAlloc (wokenAlloc pc) = wokenAlloc pc := by
  cases pc <;> rfl

/-- What a failed `alloc3_desc` leaves: the same `free`, the same allocated descriptors, and
possibly the processes that waited for descriptors awake. Some descriptor was in use. -/
structure AllocFailed (s t : VirtioSys P B) : Prop where
  same : t = { s with desc := t.desc, pc := t.pc }
  kept : ∀ i, s.free i = false → t.desc i = s.desc i
  moved : ∀ p, t.pc p = s.pc p ∨ t.pc p = wokenAlloc (s.pc p)
  inUse : ∃ i < NUM, s.free i = false

/-- When an allocation fails after fewer than three, some descriptor was in use before. -/
theorem inUse_of_allocDesc_none (few : got.length < 3) (failed : (s.mark got).allocDesc = none) :
    ∃ i < NUM, s.free i = false := by
  have outside : ∃ i ∈ List.range 3, i ∉ got := by
    by_contra all
    have every : List.range 3 ⊆ got := fun i low => by
      by_contra missing
      exact all ⟨i, low, missing⟩
    have length := (List.subperm_of_subset List.nodup_range every).length_le
    rw [List.length_range] at length
    omega
  obtain ⟨i, low, missing⟩ := outside
  have small : i < NUM := Nat.lt_of_lt_of_le (List.mem_range.mp low) (by decide)
  have notFree : (if i ∈ got then false else s.free i) = false := allocDesc_none failed i small
  rw [if_neg missing] at notFree
  exact ⟨i, small, notFree⟩

theorem freeDescs_mark (inUse : ∃ i < NUM, s.free i = false) :
    ∀ {t : VirtioSys P B}, got.Nodup → (∀ i ∈ got, i < NUM ∧ s.free i = true) →
      t = { s.mark got with desc := t.desc, pc := t.pc } →
      (∀ i, s.free i = false → t.desc i = s.desc i) →
      (∀ p, t.pc p = s.pc p ∨ t.pc p = wokenAlloc (s.pc p)) →
      ∃ u, freeDescs got t = .ok u ∧ AllocFailed s u := by
  induction got with
  | nil =>
    intro t _ _ same kept moved
    rw [mark_nil] at same
    exact ⟨t, rfl, same, kept, moved, inUse⟩
  | cons i rest ih =>
    intro t distinct wasFree same kept moved
    obtain ⟨inside, iFree⟩ := wasFree i List.mem_cons_self
    obtain ⟨fresh, distinct⟩ := List.nodup_cons.mp distinct
    have used : t.free i = false := by
      rw [same]
      exact if_pos List.mem_cons_self
    rw [freeDescs, freeDesc_eq inside used]
    apply ih distinct
    · exact fun j member => wasFree j (List.mem_cons_of_mem _ member)
    · have free : update t.free i true = (s.mark rest).free := by
        rw [same]
        funext j
        refine update_ind (iFree.symm.trans (if_neg fresh).symm) fun this => ?_
        simp only [mark, List.mem_cons, this, false_or]
      unfold freedDesc
      rw [free, same]
      rfl
    · intro j notFree
      have other : j ≠ i := fun this => by
        rw [this, iFree] at notFree
        cases notFree
      exact (update_of_ne other _ _).trans (kept j notFree)
    · intro p
      rcases moved p with asleep | woken
      · exact .inr (congrArg wokenAlloc asleep)
      · exact .inr ((congrArg wokenAlloc woken).trans (wokenAlloc_wokenAlloc _))

theorem allocFailed_of_none (few : got.length < 3) (distinct : got.Nodup)
    (wasFree : ∀ i ∈ got, i < NUM ∧ s.free i = true) (failed : (s.mark got).allocDesc = none) :
    ∃ t, freeDescs got (s.mark got) = .ok t ∧ AllocFailed s t :=
  freeDescs_mark (inUse_of_allocDesc_none few failed) distinct wasFree rfl (fun _ _ => rfl)
    (fun _ => .inl rfl)

/-- **`alloc3_desc` does not panic**: it allocates three distinct free descriptors, or fails and
leaves things as they were. -/
theorem alloc3Desc_spec (s : VirtioSys P B) :
    (∃ t, s.alloc3Desc = .ok (t, none) ∧ AllocFailed s t) ∨
    ∃ c : Chain, s.alloc3Desc = .ok (s.mark c.descs, some c) ∧ c.descs.Nodup ∧
      ∀ i ∈ c.descs, i < NUM ∧ s.free i = true := by
  unfold alloc3Desc
  rcases first : s.allocDesc with _ | ⟨s₁, head⟩
  · rw [← mark_nil s] at first
    obtain ⟨t, freed, failed⟩ := allocFailed_of_none (by decide) List.nodup_nil (by simp) first
    rw [mark_nil] at freed
    cases freed
    exact .inl ⟨s, rfl, failed⟩
  rw [← mark_nil s] at first
  obtain ⟨headIn, -, headFree, rfl⟩ := allocDesc_some first
  have one : ∀ i ∈ [head], i < NUM ∧ s.free i = true := by simpa using ⟨headIn, headFree⟩
  dsimp only [List.nil_append]
  rcases second : (s.mark [head]).allocDesc with _ | ⟨s₂, data⟩
  · obtain ⟨t, freed, failed⟩ :=
      allocFailed_of_none (Nat.lt_of_sub_eq_succ rfl) (by simp) one second
    refine .inl ⟨t, ?_, failed⟩
    simp only [freed, Except.map]
  obtain ⟨dataIn, dataNew, dataFree, rfl⟩ := allocDesc_some second
  have two : ∀ i ∈ [head, data], i < NUM ∧ s.free i = true := by
    simpa using ⟨⟨headIn, headFree⟩, dataIn, dataFree⟩
  have distinct : [head, data].Nodup := by
    rw [List.mem_singleton] at dataNew
    simpa using Ne.symm dataNew
  dsimp only [List.singleton_append]
  rcases third : (s.mark [head, data]).allocDesc with _ | ⟨s₃, status⟩
  · obtain ⟨t, freed, failed⟩ := allocFailed_of_none (Nat.lt_of_sub_eq_succ rfl) distinct two third
    refine .inl ⟨t, ?_, failed⟩
    simp only [freed, Except.map]
  obtain ⟨statusIn, statusNew, statusFree, rfl⟩ := allocDesc_some third
  refine .inr ⟨⟨head, data, status⟩, rfl, ?_, ?_⟩
  · have all : ([head, data] ++ [status]).Nodup :=
      distinct.append (by simp) (by simpa using statusNew)
    exact all
  · intro i member
    rcases List.mem_append.mp (show i ∈ [head, data] ++ [status] from member) with old | new
    · exact two i old
    · rw [List.mem_singleton.mp new]
      exact ⟨statusIn, statusFree⟩

theorem allocFailed_of_alloc3Desc (failed : s.alloc3Desc = .ok (t, none)) : AllocFailed s t := by
  obtain ⟨v, refused, kept⟩ | ⟨c, got, -⟩ := s.alloc3Desc_spec
  · cases refused.symm.trans failed
    exact kept
  · cases got.symm.trans failed

theorem mark_of_alloc3Desc (got : s.alloc3Desc = .ok (t, some c)) :
    t = s.mark c.descs ∧ c.descs.Nodup ∧ ∀ i ∈ c.descs, i < NUM ∧ s.free i = true := by
  obtain ⟨v, refused, -⟩ | ⟨c', allocated, distinct, fresh⟩ := s.alloc3Desc_spec
  · cases refused.symm.trans got
  · cases allocated.symm.trans got
    exact ⟨rfl, distinct, fresh⟩

/-- The chain is linked as `virtio_disk_rw` links it. -/
structure Linked (s : VirtioSys P B) (c : Chain) : Prop where
  headNext : (s.desc c.head).flags &&& VRING_DESC_F_NEXT ≠ 0 ∧ (s.desc c.head).next = c.data
  dataNext : (s.desc c.data).flags &&& VRING_DESC_F_NEXT ≠ 0 ∧ (s.desc c.data).next = c.status
  statusLast : (s.desc c.status).flags &&& VRING_DESC_F_NEXT = 0
  statusAddr : (s.desc c.status).addr = .status c.head

def freedChain (s : VirtioSys P B) (c : Chain) : VirtioSys P B :=
  { s with
    desc := fun i => if i ∈ c.descs then .zero else s.desc i
    free := fun i => if i ∈ c.descs then true else s.free i
    pc := fun p => wokenAlloc (s.pc p) }

/-- **`free_chain` ends after three passes and frees exactly the chain**, whatever bound is put on
its loop from three on. -/
theorem freeChain_eq (linked : Linked s c) (distinct : c.descs.Nodup)
    (inside : ∀ i ∈ c.descs, i < NUM) (used : ∀ i ∈ c.descs, s.free i = false) {fuel : Nat}
    (enough : 3 ≤ fuel) : freeChain fuel s c.head = .ok (s.freedChain c) := by
  obtain ⟨fuel, rfl⟩ := Nat.exists_eq_add_of_le' enough
  simp only [Chain.descs, List.nodup_cons, List.mem_cons, List.not_mem_nil, or_false, not_or,
    List.nodup_nil, not_false_iff, and_true] at distinct
  obtain ⟨⟨headData, headStatus⟩, dataStatus⟩ := distinct
  simp only [Chain.descs, List.forall_mem_cons, List.not_mem_nil, false_imp_iff, implies_true,
    and_true] at inside used
  obtain ⟨headIn, dataIn, statusIn⟩ := inside
  obtain ⟨headUsed, dataUsed, statusUsed⟩ := used
  have first : s.freeDesc c.head = .ok (s.freedDesc c.head) := freeDesc_eq headIn headUsed
  have second : (s.freedDesc c.head).freeDesc c.data =
    .ok ((s.freedDesc c.head).freedDesc c.data) := by
    apply freeDesc_eq dataIn
    exact (freedDesc_free_of_ne (Ne.symm headData)).trans dataUsed
  have third : ((s.freedDesc c.head).freedDesc c.data).freeDesc c.status =
      .ok (((s.freedDesc c.head).freedDesc c.data).freedDesc c.status) := by
    apply freeDesc_eq statusIn
    rw [freedDesc_free_of_ne (Ne.symm dataStatus), freedDesc_free_of_ne (Ne.symm headStatus)]
    exact statusUsed
  have dataDesc : (s.freedDesc c.head).desc c.data = s.desc c.data :=
    freedDesc_desc_of_ne (Ne.symm headData)
  have statusDesc : ((s.freedDesc c.head).freedDesc c.data).desc c.status = s.desc c.status := by
    rw [freedDesc_desc_of_ne (Ne.symm dataStatus), freedDesc_desc_of_ne (Ne.symm headStatus)]
  rw [freeChain]
  simp only [first]
  rw [if_pos linked.headNext.1, linked.headNext.2, freeChain]
  simp only [second, dataDesc]
  rw [if_pos linked.dataNext.1, linked.dataNext.2, freeChain]
  simp only [third, statusDesc]
  rw [if_neg (not_not.mpr linked.statusLast)]
  congr 1
  unfold freedChain freedDesc
  congr 1
  · funext i
    simp only [update_apply, Chain.descs, List.mem_cons, List.not_mem_nil, or_false]
    split_ifs <;> simp_all
  · funext i
    simp only [update_apply, Chain.descs, List.mem_cons, List.not_mem_nil, or_false]
    split_ifs <;> simp_all
  · funext p
    simp only [wokenAlloc_wokenAlloc]

end Xv6.VirtioSys

/-! ### What a call has in hand -/

namespace Xv6

/-- What a call of `virtio_disk_rw` has in hand. -/
inductive Hand (B : Type)
  | nothing
  | buffer (b : B)
  | chain (b : B) (c : Chain)
  | request (b : B) (c : Chain) (r : Nat)

variable {B : Type}

def Hand.buf : Hand B → Option B
  | .nothing => none
  | .buffer b | .chain b _ | .request b _ _ => some b

/-- The chain of the call, once it has one, with its buffer. -/
def Hand.uses : Hand B → Option (B × Chain)
  | .nothing | .buffer _ => none
  | .chain b c | .request b c _ => some (b, c)

theorem Hand.buf_of_uses {h : Hand B} {b : B} {c : Chain} (uses : h.uses = some (b, c)) :
    h.buf = some b := by
  cases h <;> cases uses <;> rfl

def RwPc.hand : RwPc B → Hand B
  | .idle => .nothing
  | .alloc b _ _ | .allocSleep b _ _ | .allocWoken b _ _ => .buffer b
  | .publish b c => .chain b c
  | .test b c r | .wait b c r | .woken b c r => .request b c r

end Xv6

namespace Xv6.VirtioSys

open Lib Function

variable {P B : Type} [DecidableEq P] [DecidableEq B]

@[simp] theorem hand_wokenAlloc (pc : RwPc B) : (wokenAlloc pc).hand = pc.hand := by
  cases pc <;> rfl

@[simp] theorem hand_wokenKilled (pc : RwPc B) : (wokenKilled pc).hand = pc.hand := by
  cases pc <;> rfl

@[simp] theorem hand_wokenOn (b : B) (pc : RwPc B) : (wokenOn b pc).hand = pc.hand := by
  cases pc with
  | wait b' c r =>
    show (if b' = b then RwPc.woken b' c r else .wait b' c r).hand = _
    split <;> rfl
  | _ => rfl

def hand (s : VirtioSys P B) (p : P) : Hand B := (s.pc p).hand

variable {s t : VirtioSys P B} {c : Chain} {pc : RwPc B} {b : B} {p : P} {blockno : Nat}
  {write : Bool}

theorem hand_eq (here : s.pc p = pc) : s.hand p = pc.hand := congrArg RwPc.hand here

theorem hand_goto (s : VirtioSys P B) (p : P) (pc : RwPc B) :
    (s.goto p pc).hand = update s.hand p pc.hand := by
  funext q
  by_cases this : q = p
  · subst this
    simp [hand, goto]
  · simp [hand, goto, this]

theorem hand_goto_same (same : pc.hand = s.hand p) : (s.goto p pc).hand = s.hand := by
  rw [hand_goto, same]
  exact update_eq_self p s.hand

/-! ### The invariant of the chains -/

/-- A call owns its chain: three allocated descriptors, linked, with the buffer recorded at the
head. -/
structure Owns (s : VirtioSys P B) (b : B) (c : Chain) : Prop where
  distinct : c.descs.Nodup
  inside : ∀ i ∈ c.descs, i < NUM
  used : ∀ i ∈ c.descs, s.free i = false
  linked : Linked s c
  buffer : (s.info c.head).b = some b

/-- **Chains are owned by one call each, and cover what is not free.** -/
structure ChainInv (s : VirtioSys P B) : Prop where
  owner : ∀ p b, s.owner b = some p ↔ (s.hand p).buf = some b
  owns : ∀ p b c, (s.hand p).uses = some (b, c) → s.Owns b c
  disjoint : ∀ p q b c b' c', p ≠ q → (s.hand p).uses = some (b, c) →
    (s.hand q).uses = some (b', c') →
    c.descs.Disjoint c'.descs
  covers : ∀ i < NUM, s.free i = false → ∃ p b c, (s.hand p).uses = some (b, c) ∧ i ∈ c.descs

theorem Chain.head_mem (c : Chain) : c.head ∈ c.descs := List.mem_cons_self

theorem Chain.data_mem (c : Chain) : c.data ∈ c.descs := List.mem_cons_of_mem _ List.mem_cons_self

theorem Chain.status_mem (c : Chain) : c.status ∈ c.descs :=
  List.mem_cons_of_mem _ (List.mem_cons_of_mem _ List.mem_cons_self)

theorem Linked.congr (linked : Linked s c) (desc : ∀ i ∈ c.descs, t.desc i = s.desc i) :
    Linked t c where
  headNext := by
    rw [desc _ (Chain.head_mem c)]
    exact linked.headNext
  dataNext := by
    rw [desc _ (Chain.data_mem c)]
    exact linked.dataNext
  statusLast := by
    rw [desc _ (Chain.status_mem c)]
    exact linked.statusLast
  statusAddr := by
    rw [desc _ (Chain.status_mem c)]
    exact linked.statusAddr

theorem Owns.congr (owns : s.Owns b c) (desc : ∀ i ∈ c.descs, t.desc i = s.desc i)
    (free : ∀ i ∈ c.descs, t.free i = s.free i) (info : (t.info c.head).b = (s.info c.head).b) :
    t.Owns b c where
  distinct := owns.distinct
  inside := owns.inside
  used := fun i member => (free i member).trans (owns.used i member)
  linked := owns.linked.congr desc
  buffer := info.trans owns.buffer

theorem ChainInv.congr (inv : ChainInv s) (owner : t.owner = s.owner)
    (buf : ∀ p, (t.hand p).buf = (s.hand p).buf) (uses : ∀ p, (t.hand p).uses = (s.hand p).uses)
    (free : t.free = s.free) (desc : ∀ i, s.free i = false → t.desc i = s.desc i)
    (info : ∀ i, (t.info i).b = (s.info i).b) : ChainInv t where
  owner := by
    intro p b
    rw [owner, buf]
    exact inv.owner p b
  owns := by
    intro p b c holds
    rw [uses] at holds
    have owns := inv.owns p b c holds
    exact owns.congr (fun i member => desc i (owns.used i member)) (fun i _ => congrFun free i)
      (info _)
  disjoint := by
    intro p q b c b' c' other first second
    rw [uses] at first second
    exact inv.disjoint p q b c b' c' other first second
  covers := by
    intro i inside used
    rw [free] at used
    obtain ⟨p, b, c, holds, member⟩ := inv.covers i inside used
    exact ⟨p, b, c, (uses p).trans holds, member⟩

theorem ChainInv.same_call (inv : ChainInv s) {q : P} (first : (s.hand p).buf = some b)
    (second : (s.hand q).buf = some b) : p = q := by
  have mine := (inv.owner p b).mpr first
  rw [(inv.owner q b).mpr second] at mine
  exact (Option.some.inj mine).symm

theorem formatted_of_not_mem {i : Nat} (outside : i ∉ c.descs) (old : VirtqDesc B) :
    formatted c b write i old = old := by
  simp only [Chain.descs, List.mem_cons, List.not_mem_nil, or_false, not_or] at outside
  rw [formatted, if_neg outside.2.2, if_neg outside.2.1, if_neg outside.1]

theorem owns_format (distinct : c.descs.Nodup) (inside : ∀ i ∈ c.descs, i < NUM) (b : B)
    (write : Bool) (blockno : Nat) : ((s.mark c.descs).format c b write blockno).Owns b c where
  distinct := distinct
  inside := inside
  used := fun i member => if_pos member
  linked := by
    simp only [Chain.descs, List.nodup_cons, List.mem_cons, List.not_mem_nil, or_false,
      not_or] at distinct
    obtain ⟨⟨headData, headStatus⟩, dataStatus, -⟩ := distinct
    have head : formatted c b write c.head (s.desc c.head) =
      ⟨.op c.head, 16, VRING_DESC_F_NEXT, c.data⟩ := by
      rw [formatted, if_neg headStatus, if_neg headData, if_pos rfl]
    have data : formatted c b write c.data (s.desc c.data) =
        ⟨.data b, BSIZE, (if write then 0 else VRING_DESC_F_WRITE) ||| VRING_DESC_F_NEXT,
          c.status⟩ := by
      rw [formatted, if_neg dataStatus, if_pos rfl]
    have status : formatted c b write c.status (s.desc c.status) =
        ⟨.status c.head, 1, VRING_DESC_F_WRITE, 0⟩ := by
      rw [formatted, if_pos rfl]
    refine ⟨?_, ?_, ?_, ?_⟩
    · show (formatted c b write c.head (s.desc c.head)).flags &&& _ ≠ 0 ∧
        (formatted c b write c.head (s.desc c.head)).next = _
      rw [head]
      exact ⟨show VRING_DESC_F_NEXT &&& VRING_DESC_F_NEXT ≠ 0 by decide, rfl⟩
    · show (formatted c b write c.data (s.desc c.data)).flags &&& _ ≠ 0 ∧
        (formatted c b write c.data (s.desc c.data)).next = _
      rw [data]
      refine ⟨?_, rfl⟩
      have next : ∀ write : Bool,
          ((if write then 0 else VRING_DESC_F_WRITE) ||| VRING_DESC_F_NEXT) &&& VRING_DESC_F_NEXT ≠
          0 := by decide
      exact next write
    · show (formatted c b write c.status (s.desc c.status)).flags &&& _ = 0
      rw [status]
      exact show VRING_DESC_F_WRITE &&& VRING_DESC_F_NEXT = 0 by decide
    · show (formatted c b write c.status (s.desc c.status)).addr = _
      rw [status]
  buffer := by
    show (update s.info c.head (OpInfo.mk (some b) 0xff) c.head).b = some b
    rw [update_self]

theorem Owns.format {b' : B} {c' : Chain} (owns : s.Owns b' c')
    (fresh : ∀ i ∈ c.descs, s.free i = true) (write : Bool) (blockno : Nat) :
    ((s.mark c.descs).format c b write blockno).Owns b' c' := by
  have outside : ∀ i ∈ c'.descs, i ∉ c.descs := fun i member new => by
    have used := owns.used i member
    rw [fresh i new] at used
    cases used
  apply owns.congr
  · exact fun i member => formatted_of_not_mem (outside i member) _
  · exact fun i member => if_neg (outside i member)
  · have other : c'.head ≠ c.head :=
      fun same => outside _ (Chain.head_mem c') (same ▸ Chain.head_mem c)
    exact congrArg OpInfo.b (update_of_ne other _ _)

theorem ChainInv.allocates (inv : ChainInv s) (here : s.pc p = .alloc b write blockno)
    (distinct : c.descs.Nodup) (fresh : ∀ i ∈ c.descs, i < NUM ∧ s.free i = true) :
    ChainInv (((s.mark c.descs).format c b write blockno).goto p (.publish b c)) := by
  have hands : (((s.mark c.descs).format c b write blockno).goto p (.publish b c)).hand =
      update s.hand p (.chain b c) := hand_goto _ _ _
  have mine : s.hand p = .buffer b := hand_eq here
  -- a chain in use before is not the new one
  have apart : ∀ q b' c', (s.hand q).uses = some (b', c') → c.descs.Disjoint c'.descs := by
    intro q b' c' uses i new old
    have used := (inv.owns q b' c' uses).used i old
    rw [(fresh i new).2] at used
    cases used
  refine ⟨?_, ?_, ?_, ?_⟩
  · intro q b'
    rw [hands]
    refine (inv.owner q b').trans (update_ind ?_ fun _ => Iff.rfl)
    rw [mine]
    rfl
  · intro q b' c'
    rw [hands]
    refine update_ind (fun uses => ?_) fun _ uses => ?_
    · cases uses
      exact (owns_format (s := s) distinct
        (fun i member => (fresh i member).1) b write blockno).congr
        (fun _ _ => rfl) (fun _ _ => rfl) rfl
    · have kept :=
        (inv.owns q b' c' uses).format (b := b) (fun i member => (fresh i member).2) write blockno
      exact kept.congr (fun _ _ => rfl) (fun _ _ => rfl) rfl
  · intro q q' b₁ c₁ b₂ c₂ other first second
    rw [hands] at first second
    by_cases this : q = p
    · subst this
      rw [update_self] at first
      rw [update_of_ne (Ne.symm other)] at second
      cases first
      exact apart q' b₂ c₂ second
    · rw [update_of_ne this] at first
      revert second
      refine update_ind (fun second => ?_) fun _ => inv.disjoint q q' b₁ c₁ b₂ c₂ other first
      cases second
      exact fun i old new => apart q b₁ c₁ first new old
  · intro i inside used
    rw [hands]
    by_cases new : i ∈ c.descs
    · refine ⟨p, b, c, ?_, new⟩
      rw [update_self]
      rfl
    · have old : s.free i = false := (if_neg new).symm.trans used
      obtain ⟨q, b', c', uses, member⟩ := inv.covers i inside old
      refine ⟨q, b', c', ?_, member⟩
      have other : q ≠ p := fun this => by
        rw [this, mine] at uses
        cases uses
      rwa [update_of_ne other]

theorem Owns.freeChain (owns : s.Owns b c) {fuel : Nat} (enough : 3 ≤ fuel) :
    freeChain fuel (s.clearInfo c.head) c.head = .ok ((s.clearInfo c.head).freedChain c) :=
  freeChain_eq (s := s.clearInfo c.head)
    (owns.linked.congr fun _ _ => rfl) owns.distinct owns.inside owns.used enough

theorem hand_freedChain (s : VirtioSys P B) (c : Chain) : (s.freedChain c).hand = s.hand := by
  funext p
  exact hand_wokenAlloc (s.pc p)

theorem ChainInv.returns (inv : ChainInv s) {r : Nat} (here : s.pc p = .test b c r) :
    ChainInv { ((s.clearInfo c.head).freedChain c).release p .idle with
      owner := update s.owner b none } := by
  have hands : ({ ((s.clearInfo c.head).freedChain c).release p .idle with
      owner := update s.owner b none } : VirtioSys P B).hand = update s.hand p .nothing := by
    have moved := hand_goto ((s.clearInfo c.head).freedChain c) p .idle
    rw [hand_freedChain] at moved
    exact moved
  have mine : (s.hand p).uses = some (b, c) := congrArg Hand.uses (hand_eq here)
  have apart : ∀ q b' c', q ≠ p → (s.hand q).uses = some (b', c') → ∀ i ∈ c'.descs, i ∉ c.descs :=
    fun q b' c' other uses i member own => inv.disjoint q p b' c' b c other uses mine member own
  have left : ∀ {q x}, (update s.hand p .nothing q).uses = some x → q ≠ p ∧
    (s.hand q).uses = some x :=
    update_ind nofun fun other uses => ⟨other, uses⟩
  refine ⟨?_, ?_, ?_, ?_⟩
  · intro q b'
    rw [hands]
    show update s.owner b none b' = some q ↔ _
    refine update_ind ⟨nofun, ?_⟩ fun this => ?_
    · exact update_ind nofun
        fun same holds => absurd (inv.same_call holds (Hand.buf_of_uses mine)) same
    · rw [inv.owner q b']
      refine update_ind ?_ fun _ => Iff.rfl
      rw [Hand.buf_of_uses mine]
      exact ⟨fun eq => absurd (Option.some.inj eq).symm this, nofun⟩
  · intro q b' c' uses
    rw [hands] at uses
    obtain ⟨other, uses⟩ := left uses
    apply (inv.owns q b' c' uses).congr
    · exact fun i member => if_neg (apart q b' c' other uses i member)
    · exact fun i member => if_neg (apart q b' c' other uses i member)
    · have heads : c'.head ≠ c.head := fun same =>
        apart q b' c' other uses _ (Chain.head_mem c') (same ▸ Chain.head_mem c)
      exact congrArg OpInfo.b (update_of_ne heads _ _)
  · intro q q' b₁ c₁ b₂ c₂ other first second
    rw [hands] at first second
    exact inv.disjoint q q' b₁ c₁ b₂ c₂ other (left first).2 (left second).2
  · intro i inside used
    rw [hands]
    have left : i ∉ c.descs ∧ s.free i = false := by
      by_cases own : i ∈ c.descs
      · have freed : (if i ∈ c.descs then true else s.free i) = false := used
        rw [if_pos own] at freed
        cases freed
      · exact ⟨own, (if_neg own).symm.trans used⟩
    obtain ⟨q, b', c', uses, member⟩ := inv.covers i inside left.2
    have other : q ≠ p := fun this => by
      rw [this, mine] at uses
      cases uses
      exact left.1 member
    refine ⟨q, b', c', ?_, member⟩
    rwa [update_of_ne other]

/-- **A call begins** on a buffer that no other call has. -/
theorem ChainInv.start (inv : ChainInv s) (idle : s.pc p = .idle) (unowned : s.owner b = none) :
    ChainInv { s.acquire p (.alloc b write blockno) with owner := update s.owner b (some p) } := by
  have hands : ({ s.acquire p (.alloc b write blockno) with
      owner := update s.owner b (some p) } : VirtioSys P B).hand = update s.hand p (.buffer b) :=
    hand_goto s p _
  have mine : s.hand p = .nothing := hand_eq idle
  have uses : ∀ q, (update s.hand p (.buffer b) q).uses = (s.hand q).uses := by
    refine fun q => update_ind ?_ fun _ => rfl
    rw [mine]
    rfl
  refine ⟨?_, ?_, ?_, ?_⟩
  · intro q b'
    rw [hands]
    show update s.owner b (some p) b' = some q ↔ _
    refine update_ind ?_ fun buffer => ?_
    · refine update_ind ⟨fun _ => rfl, fun _ => rfl⟩ fun this => ?_
      rw [← inv.owner q b, unowned]
      exact ⟨fun eq => absurd (Option.some.inj eq).symm this, nofun⟩
    · rw [inv.owner q b']
      refine update_ind ?_ fun _ => Iff.rfl
      rw [mine]
      exact ⟨nofun, fun eq => absurd (Option.some.inj eq).symm buffer⟩
  · intro q b' c' holds
    rw [hands, uses] at holds
    exact (inv.owns q b' c' holds).congr (fun _ _ => rfl) (fun _ _ => rfl) rfl
  · intro q q' b₁ c₁ b₂ c₂ other first second
    rw [hands, uses] at first second
    exact inv.disjoint q q' b₁ c₁ b₂ c₂ other first second
  · intro i inside used
    obtain ⟨q, b', c', holds, member⟩ := inv.covers i inside used
    refine ⟨q, b', c', ?_, member⟩
    rw [hands, uses]
    exact holds

theorem hand_of_allocFailed (failed : AllocFailed s t) : t.hand = s.hand := by
  funext p
  rcases failed.moved p with same | woken
  · exact congrArg RwPc.hand same
  · exact (congrArg RwPc.hand woken).trans (hand_wokenAlloc _)

theorem writeStatus_eq (owns : s.Owns b c) :
    s.writeStatus c.head =
      { s with info := update s.info c.head { s.info c.head with status := 0 } } := by
  unfold writeStatus
  rw [owns.linked.headNext.2, owns.linked.dataNext.2, owns.linked.statusAddr]

theorem writeStatus_frame (s : VirtioSys P B) (h : Nat) :
    ∃ info, s.writeStatus h = { s with info := info } ∧ ∀ i, (info i).b = (s.info i).b := by
  unfold writeStatus
  split
  · rename_i i _
    exact ⟨_, rfl, fun j => update_ind rfl fun _ => rfl⟩
  · exact ⟨s.info, rfl, fun _ => rfl⟩

theorem ChainInv.step {e : VirtioEvent P B} (inv : ChainInv s) (does : Does s e t) :
    ChainInv t := by
  have keep : ∀ {t : VirtioSys P B}, t.hand = s.hand → t.owner = s.owner → t.free = s.free →
      (∀ i, s.free i = false → t.desc i = s.desc i) → (∀ i, (t.info i).b = (s.info i).b) →
      ChainInv t :=
    fun hands owner free desc info =>
      inv.congr owner (fun p => by rw [hands]) (fun p => by rw [hands]) free desc info
  cases does with
  | start p b write blockno idle _ unowned => exact inv.start idle unowned
  | allocFails p b write blockno u here failed =>
    have kept := allocFailed_of_alloc3Desc failed
    have hands := hand_of_allocFailed kept
    have mine : (RwPc.allocSleep b write blockno).hand = u.hand p := by
      rw [hands]
      exact (hand_eq here).symm
    refine keep ((hand_goto_same mine).trans hands) ?_ ?_ kept.kept ?_
    · show u.owner = s.owner
      rw [kept.same]
    · show u.free = s.free
      rw [kept.same]
    · intro i
      show (u.info i).b = _
      rw [kept.same]
  | allocates p b write blockno u c here got =>
    obtain ⟨rfl, distinct, fresh⟩ := mark_of_alloc3Desc got
    exact inv.allocates here distinct fresh
  | publish p b c here =>
    have hands : ({ s.goto p (.test b c s.issued.length) with
        availIdx := s.availIdx + 1, issued := s.issued ++ [(c.head, b)] } : VirtioSys P B).hand =
        update s.hand p (.request b c s.issued.length) := hand_goto s p _
    have mine : s.hand p = .chain b c := hand_eq here
    refine inv.congr rfl ?_ ?_ rfl (fun _ _ => rfl) (fun _ => rfl) <;>
    · intro q
      rw [hands]
      refine update_ind ?_ fun _ => rfl
      rw [mine]
      rfl
  | waits p b c r here | relockAlloc p b write blockno here | relockTest p b c r here =>
    exact keep (hand_goto_same (hand_eq here).symm) rfl rfl (fun _ _ => rfl) (fun _ => rfl)
  | returns p b c r u here _ freed =>
    have owns := inv.owns p b c (congrArg Hand.uses (hand_eq here))
    rw [owns.freeChain (by decide)] at freed
    cases freed
    exact inv.returns here
  | intrStart _ | intrEnds _ _ | devTake _
  | devPublish _ _ => exact keep rfl rfl rfl (fun _ _ => rfl) (fun _ => rfl)
  | intrClears b _ _ _ _ =>
    refine keep ?_ rfl rfl (fun _ _ => rfl) (fun _ => rfl)
    funext p
    exact hand_wokenOn b (s.pc p)
  | devWrite k h _ _ =>
    obtain ⟨info, same, buffers⟩ := s.writeStatus_frame h
    rw [same]
    exact keep rfl rfl rfl (fun _ _ => rfl) buffers
  | kill p =>
    exact keep (hand_goto_same (hand_wokenKilled (s.pc p))) rfl rfl (fun _ _ => rfl) (fun _ => rfl)

theorem chainInv_initial (disk : B → Bool) : ChainInv (initial (P := P) disk) where
  owner := fun p b => ⟨nofun, nofun⟩
  owns := nofun
  disjoint := nofun
  covers := fun i inside used => by
    have free : (initial (P := P) disk).free i = true := decide_eq_true inside
    rw [free] at used
    cases used

end Xv6.VirtioSys
