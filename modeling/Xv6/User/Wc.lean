/-
**`wc`** (`user/wc.c`: `wc`): lines, words and bytes, counted in the pieces that `read` returns.

`inword` is carried from one piece to the next, so a word that is cut by the end of the buffer
counts once.
-/

import Xv6.Sh.Token

namespace Xv6.User

open Lib
open Sh (chr)

/-- The variables of `wc`. -/
structure Wc where
  l : BitVec 32
  w : BitVec 32
  c : BitVec 32
  inword : Bool

/-- `strchr(" \r\t\n\v", ch)` -/
def isBlank (ch : Byte) : Bool := [chr ' ', chr '\r', chr '\t', chr '\n', 0x0b].contains ch

namespace Wc

/-- One round of the inner loop. -/
def count (s : Wc) (ch : Byte) : Wc :=
  let s := { s with c := s.c + 1 }
  let s := if ch = chr '\n' then { s with l := s.l + 1 } else s
  if isBlank ch then { s with inword := false }
  else if !s.inword then { s with w := s.w + 1, inword := true }
  else s

/-- What is printed: `reads` is what `read` returns before it returns 0 or, if `failed`, -1. -/
def wc (reads : List (List Byte)) (failed : Bool) : Option (BitVec 32 × BitVec 32 × BitVec 32) :=
  let s := reads.foldl (fun s buf => buf.foldl count s) ⟨0, 0, 0, false⟩
  if failed then none else some (s.l, s.w, s.c)

/-- The words that begin in a text, which may first continue another one. -/
def words (inword : Bool) (text : List Byte) : Nat :=
  (((text.splitOnP isBlank).drop inword.toNat).filter (· ≠ [])).length

theorem words_cons (inword : Bool) (ch : Byte) (text : List Byte) : words inword (ch :: text) =
    (if !isBlank ch && !inword then 1 else 0) + words (!isBlank ch) text := by
  obtain ⟨piece, rest, pieces⟩ := List.exists_cons_of_ne_nil (List.splitOnP_ne_nil isBlank text)
  cases blank : isBlank ch <;> cases inword <;>
    simp [words, List.splitOnP_cons_eq_if_modifyHead, blank, pieces, Nat.add_comm]

/-- The inner loop, from any state. -/
theorem foldl_count (text : List Byte) : ∀ s : Wc,
    (text.foldl count s).l = s.l + BitVec.ofNat 32 (text.count (chr '\n')) ∧
    (text.foldl count s).w = s.w + BitVec.ofNat 32 (words s.inword text) ∧
    (text.foldl count s).c = s.c + BitVec.ofNat 32 text.length := by
  induction text with
  | nil => exact fun s => by cases s.inword <;> simp [words]
  | cons ch text ih =>
    intro s
    obtain ⟨l, w, c⟩ := ih (s.count ch)
    have flag : (s.count ch).inword = !isBlank ch := by
      unfold count
      cases isBlank ch <;> cases s.inword <;> simp <;> split <;> simp [*]
    rw [List.foldl_cons, l, w, c, flag, words_cons, List.count_cons, List.length_cons,
      Nat.add_comm (text.count _), Nat.add_comm text.length]
    unfold count
    by_cases newline : ch = chr '\n' <;> cases isBlank ch <;> cases s.inword <;>
      simp [newline, BitVec.ofNat_add, BitVec.add_assoc]

/-- **`wc` counts the whole input**, however it is cut: its newlines, its maximal runs of characters
that are not blank, and its bytes, modulo 2³². -/
theorem wc_counts (reads : List (List Byte)) : wc reads false =
    some (BitVec.ofNat 32 (reads.flatten.count (chr '\n')),
      BitVec.ofNat 32 ((reads.flatten.splitOnP isBlank).filter (· ≠ [])).length,
      BitVec.ofNat 32 reads.flatten.length) := by
  obtain ⟨l, w, c⟩ := foldl_count reads.flatten ⟨0, 0, 0, false⟩
  rw [List.foldl_flatten] at l w c
  simp only [wc, l, w, c]
  simp [words]

end Wc

end Xv6.User
