/-
**The list of buffers** (`kernel/bio.c`: `binit`, `bget`, `brelse`, `bpin`, `bunpin`).

The buffers are in a doubly linked circle through `bcache.head`, most recently used first. A step is
a section under `bcache.lock`, or a sleep lock that is taken or released: `bget` counts the
reference and then waits in `acquiresleep`; `brelse` is `releasesleep` and then `decref`. Any
process may run between them. A buffer is pinned and unpinned by the process that holds it
(`log_write`, `install_trans`). What is in the buffers, and `valid`, are the subject of
`Xv6.Log.Bcache`.

The processes that wait, hold and leave, the pins and the times of the releases are not in the
source.
-/

import Xv6.Params
import Xv6.Lib.Circle
import Xv6.Lib.Run

set_option linter.unusedSectionVars false

namespace Xv6.Lru

open Lib Function

/-! ### The program -/

/-- A pointer to a buffer; `none` is `&bcache.head`. -/
abbrev Node := Option (Fin NBUF)

/-- The fields `next` and `prev` of the buffers and of `head`. -/
structure Links where
  next : Node → Node
  prev : Node → Node

/-- `b->next = head.next; b->prev = &head; head.next->prev = b; head.next = b` -/
def Links.link (k : Links) (b : Fin NBUF) : Links :=
  let next := update k.next (some b) (k.next none)
  let prev := update k.prev (some b) none
  { next := update next none (some b), prev := update prev (next none) (some b) }

/-- `b->next->prev = b->prev; b->prev->next = b->next` -/
def Links.unlink (k : Links) (b : Fin NBUF) : Links :=
  let prev := update k.prev (k.next (some b)) (k.prev (some b))
  { next := update k.next (prev (some b)) (k.next (some b)), prev := prev }

structure Buf (P : Type) where
  dev : Nat := 0
  blockno : Nat := 0
  refcnt : Nat := 0
  /-- the holder of `b->lock` -/
  lock : Option P := none
  /-- in `acquiresleep` -/
  waiters : List P := []
  /-- in `brelse`, after `releasesleep` -/
  leaving : List P := []
  pins : Nat := 0
  /-- when `refcnt` last became 0, or 0 for never -/
  last : Nat := 0

/-- `b->refcnt--` in `brelse` -/
def Buf.leave {P : Type} [DecidableEq P] (b : Buf P) (p : P) : Buf P :=
  { b with refcnt := b.refcnt - 1, leaving := b.leaving.erase p }

structure Bcache (P : Type) where
  links : Links
  buf : Fin NBUF → Buf P
  /-- the number of times that a `refcnt` became 0 -/
  clock : Nat

inductive BgetError
  /-- `panic("bget: no buffers")` -/
  | noBuffers
  /-- the loop does not come back to `head` -/
  | endless

/-- A loop over the list, from `b` on. -/
def scan (step : Node → Node) (test : Fin NBUF → Bool) : Nat → Node → Except BgetError Node
  | _, none => .ok none
  | 0, some _ => .error .endless
  | n + 1, some b => if test b then .ok (some b) else scan step test n (step (some b))

variable {P : Type}

namespace Bcache

/-- `binit`, whatever the pointers were. -/
def binit (next prev : Node → Node) : Bcache P where
  links := (List.finRange NBUF).foldl Links.link ⟨update next none none, update prev none none⟩
  buf := fun _ => {}
  clock := 0

def setBuf (s : Bcache P) (i : Fin NBUF) (b : Buf P) : Bcache P :=
  { s with buf := update s.buf i b }

/-- `bget`, up to `acquiresleep`. -/
def bget (s : Bcache P) (p : P) (dev blockno : Nat) : Except BgetError (Fin NBUF × Bcache P) := do
  match ← scan s.links.next (fun i => (s.buf i).dev = dev ∧ (s.buf i).blockno = blockno) NBUF
    (s.links.next none) with
  | some i =>
    let b := s.buf i
    return (i, s.setBuf i { b with refcnt := b.refcnt + 1, waiters := p :: b.waiters })
  | none =>
    match ← scan s.links.prev (fun i => (s.buf i).refcnt = 0) NBUF (s.links.prev none) with
    | some i =>
      let b := s.buf i
      return (i, s.setBuf i
        { b with dev := dev, blockno := blockno, refcnt := 1, waiters := p :: b.waiters })
    | none => throw .noBuffers

variable [DecidableEq P]

/-- `brelse`, after `releasesleep`. -/
def decref (s : Bcache P) (p : P) (i : Fin NBUF) : Bcache P :=
  if ((s.buf i).leave p).refcnt = 0 then
    { links := (s.links.unlink i).link i
      buf := update s.buf i { (s.buf i).leave p with last := s.clock + 1 }
      clock := s.clock + 1 }
  else s.setBuf i ((s.buf i).leave p)

end Bcache

/-- What a process does with a buffer that it waits for or holds. -/
inductive BufOp
  | acquiresleep
  /-- `releasesleep` in `brelse` -/
  | releasesleep
  | bpin
  | bunpin

inductive LruEvent (P : Type)
  | bget (p : P) (dev blockno : Nat)
  | decref (p : P) (i : Fin NBUF)
  | op (p : P) (i : Fin NBUF) (o : BufOp)

variable [DecidableEq P]

def Buf.exec (b : Buf P) (p : P) : BufOp → Option (Buf P)
  | .acquiresleep =>
    if p ∈ b.waiters ∧
      b.lock = none then some { b with lock := some p, waiters := b.waiters.erase p } else none
  | .releasesleep => if b.lock = some p then some { b with lock := none, leaving := p :: b.leaving }
    else none
  | .bpin => if b.lock = some p then some { b with refcnt := b.refcnt + 1, pins := b.pins + 1 }
    else none
  | .bunpin =>
    if b.lock = some p ∧ 0 < b.pins then some { b with refcnt := b.refcnt - 1, pins := b.pins - 1 }
      else none

def Bcache.exec (s : Bcache P) : LruEvent P → Option (Bcache P)
  | .bget p dev blockno =>
    match s.bget p dev blockno with
    | .ok (_, t) => some t
    | .error _ => none
  | .decref p i => if p ∈ (s.buf i).leaving then some (s.decref p i) else none
  | .op p i o => ((s.buf i).exec p o).map (s.setBuf i)

def Bcache.Step (s : Bcache P) (e : LruEvent P) (t : Bcache P) : Prop := s.exec e = some t

/-! ### References -/

/-- `refcnt` is the number of holders, of processes that wait and of pins. -/
def Buf.Counted (b : Buf P) : Prop :=
  b.refcnt = b.lock.toList.length + b.leaving.length + b.waiters.length + b.pins

theorem Buf.Counted.idle {b : Buf P} (counted : b.Counted) (zero : b.refcnt = 0) :
    b.lock = none ∧ b.leaving = [] ∧ b.waiters = [] ∧ b.pins = 0 := by
  unfold Buf.Counted at counted
  refine ⟨Option.toList_eq_nil_iff.mp ?_, List.length_eq_zero_iff.mp (by omega),
    List.length_eq_zero_iff.mp (by omega), by omega⟩
  exact List.length_eq_zero_iff.mp (by omega)

theorem Buf.Counted.exec {b b' : Buf P} {p : P} {o : BufOp} (counted : b.Counted)
    (done : b.exec p o = some b') : b'.Counted ∧ b'.last = b.last := by
  unfold Buf.Counted at counted
  cases o <;> obtain ⟨can, done⟩ := Option.ite_none_right_eq_some.mp done <;> cases done
  case acquiresleep =>
    have positive := List.length_pos_of_mem can.1
    simp only [Buf.Counted, List.length_erase_of_mem can.1, Option.toList, List.length_singleton,
      and_true]
    simp only [can.2, Option.toList, List.length_nil] at counted
    omega
  case releasesleep =>
    simp only [can, Option.toList, List.length_singleton] at counted
    simp only [Buf.Counted, Option.toList, List.length_nil, List.length_cons, and_true]
    omega
  case bpin =>
    simp only [Buf.Counted, and_true]
    omega
  case bunpin =>
    simp only [Buf.Counted, and_true]
    omega

/-! ### The list -/

section

variable {k : Links} {l : List (Fin NBUF)} {i : Fin NBUF} {test : Fin NBUF → Bool}
  {step : Node → Node}

/-- **A loop over the list** ends, and finds the first buffer with the property. -/
theorem scan_eq : ∀ {a : Node} {l : List (Fin NBUF)} {n : Nat}, Path step a (l.map some) none →
    l.length ≤ n →
    scan step test n (step a) = .ok (l.find? test)
  | a, [], n, path, _ => by
    rw [show step a = none from path]
    cases n <;> rfl
  | a, b :: l, n + 1, path, enough => by
    rw [path.1, scan, List.find?_cons]
    cases test b with
    | true => rfl
    | false => exact scan_eq path.2 (Nat.le_of_succ_le_succ enough)

theorem link_circle (circle : Circle k.next k.prev none (l.map some)) (new : i ∉ l) :
    Circle (k.link i).next (k.link i).prev none ((i :: l).map some) := by
  have outside : some i ∉ none :: l.map some := by simp [new]
  have inserted := circle.insert outside
  have first : update k.next (some i) (k.next none) none = k.next none :=
    update_of_ne (Option.some_ne_none i).symm _ _
  simpa only [Links.link, first, List.map_cons] using inserted

/-- **`brelse` moves a buffer to the front.** -/
theorem unlink_circle {m : List (Fin NBUF)}
    (circle : Circle k.next k.prev none ((l ++ i :: m).map some)) :
    Circle (k.unlink i).next (k.unlink i).prev none ((l ++ m).map some) := by
  rw [List.map_append, List.map_cons] at circle
  have removed := circle.remove
  have same : update k.prev (k.next (some i)) (k.prev (some i)) (some i) = k.prev (some i) := by
    rw [update_apply]
    split <;> rfl
  simpa only [Links.unlink, same, List.map_append] using removed

end

/-! ### The invariant -/

/-- The list has every buffer, and is sorted by the last release. -/
structure LruInv (s : Bcache P) (l : List (Fin NBUF)) : Prop where
  circle : Circle s.links.next s.links.prev none (l.map some)
  all : ∀ i, i ∈ l
  sorted : l.Pairwise fun i j => (s.buf j).last < (s.buf i).last ∨ (s.buf j).last = 0
  counted : ∀ i, (s.buf i).Counted
  past : ∀ i, (s.buf i).last ≤ s.clock

variable {s t : Bcache P} {l : List (Fin NBUF)} {p : P} {i : Fin NBUF} {dev blockno : Nat}

theorem LruInv.nodup (inv : LruInv s l) : l.Nodup :=
  (List.nodup_cons.mp inv.circle.nodup).2.of_map some

theorem LruInv.length (inv : LruInv s l) : l.length ≤ NBUF := by
  have fits := inv.nodup.length_le_card
  rwa [Fintype.card_fin] at fits

theorem LruInv.setBuf (inv : LruInv s l) {b : Buf P} (counted : b.Counted)
    (last : b.last = (s.buf i).last) : LruInv (s.setBuf i b) l := by
  have same : ∀ j, (update s.buf i b j).last = (s.buf j).last := fun j => update_ind last
    fun _ => rfl
  refine ⟨inv.circle, inv.all, ?_, fun j => ?_, fun j => ?_⟩
  · simpa only [Bcache.setBuf, same] using inv.sorted
  · show (update s.buf i b j).Counted
    exact update_ind counted fun _ => inv.counted j
  · exact (same j).trans_le (inv.past j)

/-- **`bget`**: a buffer with the block, or else the last one in the list that has no reference. -/
theorem LruInv.bget_eq (inv : LruInv s l) :
    s.bget p dev blockno = match l.find? fun i => (s.buf i).dev = dev ∧
      (s.buf i).blockno = blockno with
      | some i => .ok (i, s.setBuf i
          { s.buf i with refcnt := (s.buf i).refcnt + 1, waiters := p :: (s.buf i).waiters })
      | none => match l.reverse.find? fun i => (s.buf i).refcnt = 0 with
        | some i => .ok (i, s.setBuf i
            { s.buf i with
              dev := dev, blockno := blockno, refcnt := 1, waiters := p :: (s.buf i).waiters })
        | none => .error .noBuffers := by
  have back : Path s.links.prev none (l.reverse.map some) none := by
    rw [List.map_reverse]
    exact inv.circle.prev
  simp only [Bcache.bget, scan_eq inv.circle.next inv.length, bind, Except.bind]
  cases l.find? fun i => (s.buf i).dev = dev ∧ (s.buf i).blockno = blockno with
  | some i => rfl
  | none =>
    simp only [scan_eq back (l.length_reverse.trans_le inv.length)]
    cases l.reverse.find? fun i => (s.buf i).refcnt = 0 <;> rfl

theorem LruInv.bget (inv : LruInv s l) (done : s.bget p dev blockno = .ok (i, t)) : LruInv t l := by
  rw [inv.bget_eq] at done
  split at done
  · cases done
    have counted := inv.counted i
    refine inv.setBuf ?_ rfl
    simp only [Buf.Counted, List.length_cons] at counted ⊢
    omega
  · split at done
    · rename_i found
      cases done
      have zero := List.find?_some found
      obtain ⟨lock, leaving, waiters, pins⟩ := (inv.counted i).idle (of_decide_eq_true zero)
      refine inv.setBuf ?_ rfl
      simp only [Buf.Counted, lock, leaving, waiters, pins, Option.toList, List.length_nil,
        List.length_singleton]
    · cases done

theorem LruInv.decref (inv : LruInv s l) (leaves : p ∈ (s.buf i).leaving) :
    ∃ l', LruInv (s.decref p i) l' := by
  have positive := List.length_pos_of_mem leaves
  have counted := inv.counted i
  have less : ((s.buf i).leave p).Counted := by
    simp only [Buf.Counted, Buf.leave, List.length_erase_of_mem leaves] at counted ⊢
    omega
  unfold Bcache.decref
  split_ifs with zero
  · obtain ⟨before, after, rfl⟩ := List.append_of_mem (inv.all i)
    have others : ∀ j ∈ before ++ after, j ≠ i := by
      rintro j member rfl
      exact (List.nodup_cons.mp (List.nodup_middle.mp inv.nodup)).1 member
    have moved := link_circle (unlink_circle inv.circle) fun member => others i member rfl
    have order := inv.sorted.sublist ((List.sublist_cons_self i after).append_left before)
    refine ⟨i :: (before ++ after), moved, fun j => ?_,
      List.pairwise_cons.mpr ⟨fun j member => .inl ?_, ?_⟩, fun j => ?_, fun j => ?_⟩
    · exact List.perm_middle.mem_iff.mp (inv.all j)
    · simp only [update_self, update_of_ne (others j member)]
      exact Nat.lt_succ_of_le (inv.past j)
    · refine order.imp_of_mem fun {a b} memberA memberB sorted => ?_
      simpa only [update_of_ne (others a memberA), update_of_ne (others b memberB)] using sorted
    · show (update s.buf i _ j).Counted
      exact update_ind less fun _ => inv.counted j
    · show (update s.buf i _ j).last ≤ s.clock + 1
      exact update_ind (Nat.le_refl _) fun _ => Nat.le_succ_of_le (inv.past j)
  · exact ⟨l, inv.setBuf less rfl⟩

theorem LruInv.step {e : LruEvent P} (inv : LruInv s l) (step : s.Step e t) :
    ∃ l', LruInv t l' := by
  unfold Bcache.Step at step
  cases e with
  | bget p dev blockno =>
    rw [Bcache.exec] at step
    split at step
    · rename_i done
      cases step
      exact ⟨l, inv.bget done⟩
    · cases step
  | decref p i =>
    obtain ⟨leaves, done⟩ := Option.ite_none_right_eq_some.mp step
    cases done
    exact inv.decref leaves
  | op p i o =>
    obtain ⟨b, done, rfl⟩ := Option.map_eq_some_iff.mp step
    obtain ⟨counted, last⟩ := (inv.counted i).exec done
    exact ⟨l, inv.setBuf counted last⟩

/-- **A miss recycles the buffer whose release is the oldest.** -/
theorem LruInv.miss (inv : LruInv s l)
    (miss : ∀ i, ¬ ((s.buf i).dev = dev ∧ (s.buf i).blockno = blockno)) :
    match s.bget p dev blockno with
    | .ok (i, t) => (t.buf i).dev = dev ∧ (t.buf i).blockno = blockno ∧ (t.buf i).refcnt = 1 ∧
        (∀ j ≠ i, t.buf j = s.buf j) ∧ (s.buf i).refcnt = 0 ∧
        ∀ j ≠ i, (s.buf j).refcnt = 0 → (s.buf i).last < (s.buf j).last ∨ (s.buf i).last = 0
    | .error e => e = .noBuffers ∧ ∀ i, (s.buf i).refcnt ≠ 0 := by
  have none : l.find? (fun i => (s.buf i).dev = dev ∧ (s.buf i).blockno = blockno) = none :=
    List.find?_eq_none.mpr fun i _ => by simpa using miss i
  rw [inv.bget_eq, none]
  cases found : l.reverse.find? fun i => (s.buf i).refcnt = 0 with
  | none =>
    refine ⟨rfl, fun i zero => ?_⟩
    exact List.find?_eq_none.mp found i (List.mem_reverse.mpr (inv.all i)) (decide_eq_true zero)
  | some i =>
    obtain ⟨zero, after, before, shape, busy⟩ := List.find?_eq_some_iff_append.mp found
    have here : update s.buf i { s.buf i with
        dev := dev, blockno := blockno, refcnt := 1, waiters := p :: (s.buf i).waiters } i = _ :=
      update_self _ _ _
    refine ⟨congrArg Buf.dev here, congrArg Buf.blockno here, congrArg Buf.refcnt here,
      fun j other => update_of_ne other _ _, of_decide_eq_true zero, fun j other free => ?_⟩
    have order := inv.sorted
    rw [← List.reverse_reverse l, shape, List.pairwise_reverse, List.pairwise_append,
      List.pairwise_cons] at order
    have member : j ∈ after ++ i :: before := shape ▸ List.mem_reverse.mpr (inv.all j)
    rcases List.mem_append.mp member with later | rest
    · exact absurd free (by simpa using busy j later)
    · exact order.2.1.1 j ((List.mem_cons.mp rest).resolve_left other)

end Xv6.Lru
