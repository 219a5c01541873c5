/-
**The lines of `grep`** (`user/grep.c`: `grep`; `user/ulib.c`: `strchr`).

`grep` reads into a buffer of 1024 bytes, ends every line in it by a NUL, and moves the rest of the
last line to the front. The input is a list of bytes; how many bytes a `read` returns is given by
`want`, at least one and at most as many as were asked for and are left.

`grep` stops at the first line that does not fit in the buffer (`grep_spec`). What it writes is
right exactly if no line from there on matches (`grep_prints`).
-/

import Xv6.User.Grep
import Xv6.Lib.Lines
import Xv6.Lib.Memory

namespace Xv6.User

open Lib Function
open Sh (chr)

/-! ### The program -/

/-- `sizeof(buf)` -/
def BUFSIZE : Nat := 1024

/-- `strchr(s, c)`, where `n` bytes of the buffer are left. -/
def strchr (buf : Memory) (c : Byte) : Nat → Nat → Except GrepStop (Option Nat)
  | 0, _ => .error .past
  | n + 1, s =>
    if buf s = 0 then .ok none
    else if buf s = c then .ok (some s)
    else strchr buf c n (s + 1)

/-- The string at an address, where `n` bytes of the buffer are left. -/
def stringAt (buf : Memory) : Nat → Nat → List Byte
  | 0, _ => []
  | n + 1, s => if buf s = 0 then [] else buf s :: stringAt buf n (s + 1)

/-- The inner loop: the lines from `p` on. It gives `p`, the buffer, and what has been written. -/
def grepRound (pattern : List Byte) : Nat → Nat → Memory → List Byte →
    Except GrepStop (Nat × Memory × List Byte)
  | 0, _, _, _ => .error .fuel
  | fuel + 1, p, buf, out => do
    match ← strchr buf (chr '\n') (BUFSIZE - p) p with
    | none => return (p, buf, out)
    | some q =>
      let buf : Memory := update buf q 0
      if ← match_ pattern (stringAt buf (BUFSIZE - p) p) then
        let buf : Memory := update buf q (chr '\n')
        grepRound pattern fuel (q + 1) buf (out ++ buf.read p (q + 1 - p))
      else grepRound pattern fuel (q + 1) buf out

/-- What `read` returns when `k` bytes are asked for and `left` are left. -/
def readLen (want k left : Nat) : Nat := min (max want 1) (min k left)

/-- The loop of `grep`, before the `round`-th call of `read`, with `m` bytes in the buffer. -/
def grepLoop (pattern : List Byte) (want : Nat → Nat) :
    Nat → Nat → List Byte → Nat → Memory → List Byte → Except GrepStop (List Byte)
  | 0, _, _, _, _, _ => .error .fuel
  | fuel + 1, round, input, m, buf, out => do
    let n := readLen (want round) (BUFSIZE - m - 1) input.length
    if 0 < n then
      let buf := buf.write m (input.take n)
      let m := m + n
      let buf : Memory := update buf m 0
      let (p, buf, out) ← grepRound pattern BUFSIZE 0 buf out
      if 0 < m then
        grepLoop pattern want fuel (round + 1) (input.drop n) (m - p) (buf.move 0 p (m - p)) out
      else grepLoop pattern want fuel (round + 1) (input.drop n) m buf out
    else return out

/-- What `grep` writes, from a buffer with any bytes in it. -/
def grep (pattern : List Byte) (want : Nat → Nat) (buf : Memory) (input : List Byte) :
    Except GrepStop (List Byte) :=
  grepLoop pattern want (input.length + 1) 0 input 0 buf []

/-! ### Text in memory -/

/-- The text is in memory at `p`. -/
def Stored (buf : Memory) (p : Nat) (text : List Byte) : Prop :=
  ∀ i c, text[i]? = some c → buf (p + i) = c

section Stored

variable {buf buf' : Memory} {p n : Nat} {c : Byte} {text a b : List Byte}

theorem stored_nil : Stored buf p [] := fun _ _ at_ => nomatch at_

theorem Stored.cons (stored : Stored buf p (c :: text)) : buf p = c ∧ Stored buf (p + 1) text := by
  refine ⟨stored 0 c rfl, fun i x at_ => ?_⟩
  rw [Nat.add_assoc, Nat.add_comm 1 i]
  exact stored (i + 1) x at_

theorem Stored.append (stored : Stored buf p (a ++ b)) :
    Stored buf p a ∧ Stored buf (p + a.length) b := by
  refine ⟨fun i x at_ => stored i x ?_, fun i x at_ => ?_⟩
  · rw [List.getElem?_append_left (List.getElem?_eq_some_iff.mp at_).1, at_]
  · rw [Nat.add_assoc]
    refine stored (a.length + i) x ?_
    rw [List.getElem?_append_right (Nat.le_add_right _ _), Nat.add_sub_cancel_left, at_]

theorem stored_append (first : Stored buf p a) (second : Stored buf (p + a.length) b) :
    Stored buf p (a ++ b) := by
  intro i x at_
  by_cases inside : i < a.length
  · rw [List.getElem?_append_left inside] at at_
    exact first i x at_
  · rw [List.getElem?_append_right (Nat.le_of_not_lt inside)] at at_
    have later := second (i - a.length) x at_
    rwa [Nat.add_assoc, Nat.add_sub_cancel' (Nat.le_of_not_lt inside)] at later

theorem Stored.congr (stored : Stored buf p text)
    (same : ∀ x, p ≤ x → x < p + text.length → buf' x = buf x) : Stored buf' p text := by
  intro i c at_
  have inside := (List.getElem?_eq_some_iff.mp at_).1
  rw [same (p + i) (Nat.le_add_right _ _) (by omega)]
  exact stored i c at_

theorem stored_write (buf : Memory) (p : Nat) (text : List Byte) :
    Stored (buf.write p text) p text := by
  intro i c at_
  obtain ⟨inside, rfl⟩ := List.getElem?_eq_some_iff.mp at_
  exact Memory.write_inside inside

theorem Stored.move (stored : Stored buf p text) : Stored (buf.move 0 p text.length) 0 text := by
  intro i c at_
  have inside := (List.getElem?_eq_some_iff.mp at_).1
  rw [Nat.zero_add, Memory.move_inside (Nat.zero_le _) (by omega), Nat.sub_zero]
  exact stored i c at_

theorem Stored.read (stored : Stored buf p text) : buf.read p text.length = text := by
  refine List.ext_getElem? fun k => ?_
  by_cases inside : k < text.length
  · rw [Memory.getElem?_read inside, List.getElem?_eq_getElem inside]
    exact congrArg some (stored k _ (List.getElem?_eq_getElem inside))
  · rw [List.getElem?_eq_none (by rw [Memory.length_read]; omega), List.getElem?_eq_none (by omega)]

theorem Stored.stringAt (string : 0 ∉ text) :
    ∀ {n p : Nat}, Stored buf p text → buf (p + text.length) = 0 →
    text.length < n → stringAt buf n p = text := by
  induction text with
  | nil =>
    intro n p _ ended room
    obtain _ | n := n
    · omega
    exact if_pos ended
  | cons c text ih =>
    intro n p stored ended room
    rw [List.length_cons] at room ended
    rw [List.mem_cons, not_or] at string
    obtain _ | n := n
    · omega
    obtain ⟨first, rest⟩ := stored.cons
    rw [User.stringAt, first, if_neg (Ne.symm string.1),
      ih string.2 rest (by rw [← ended]; congr 1; omega) (by omega)]

theorem Stored.strchr_skip (string : 0 ∉ text) (none : c ∉ text) :
    ∀ {n p : Nat}, Stored buf p text →
    text.length < n → ∃ k, strchr buf c n p = strchr buf c (k + 1) (p + text.length) := by
  induction text with
  | nil => exact fun {n p} _ room => ⟨n - 1, by rw [Nat.sub_one_add_one (Nat.ne_of_gt room)]; rfl⟩
  | cons x text ih =>
    intro n p stored room
    rw [List.length_cons] at room
    rw [List.mem_cons, not_or] at string none
    obtain _ | n := n
    · omega
    obtain ⟨first, rest⟩ := stored.cons
    obtain ⟨k, same⟩ := ih (n := n) string.2 none.2 rest (by omega)
    refine ⟨k, ?_⟩
    rw [User.strchr, first, if_neg (Ne.symm string.1), if_neg (Ne.symm none.1), same,
      List.length_cons, Nat.add_assoc, Nat.add_comm 1]

theorem Stored.strchr {n p : Nat} (string : 0 ∉ text) (none : c ∉ text) (nonzero : c ≠ 0)
    (stored : Stored buf p text) (here : buf (p + text.length) = c) (room : text.length < n) :
    strchr buf c n p = .ok (some (p + text.length)) := by
  obtain ⟨k, same⟩ := stored.strchr_skip string none room
  rw [same, User.strchr, here, if_neg nonzero, if_pos rfl]

theorem Stored.strchr_none {n p : Nat} (string : 0 ∉ text) (none : c ∉ text)
    (stored : Stored buf p text) (ended : buf (p + text.length) = 0) (room : text.length < n) :
    User.strchr buf c n p = .ok Option.none := by
  obtain ⟨k, same⟩ := stored.strchr_skip string none room
  rw [same]
  exact if_pos ended

end Stored

/-! ### One buffer -/

open Classical in
/-- **The lines that match**, each with its newline. -/
noncomputable def matching (pattern : List Byte) (lines : List (List Byte)) : List Byte :=
  (lines.filter fun line => Found pattern line).flatMap fun line => line ++ [chr '\n']

theorem matching_append (pattern : List Byte) (a b : List (List Byte)) :
    matching pattern (a ++ b) = matching pattern a ++ matching pattern b := by
  unfold matching
  rw [List.filter_append, List.flatMap_append]

theorem matching_cons_pos {pattern line : List Byte} (found : Found pattern line)
    (lines : List (List Byte)) :
    matching pattern (line :: lines) = line ++ [chr '\n'] ++ matching pattern lines := by
  unfold matching
  rw [List.filter_cons_of_pos (by simpa using found), List.flatMap_cons]

theorem matching_cons_neg {pattern line : List Byte} (missing : ¬ Found pattern line)
    (lines : List (List Byte)) :
    matching pattern (line :: lines) = matching pattern lines := by
  unfold matching
  rw [List.filter_cons_of_neg (by simpa using missing)]

theorem matching_eq_nil {pattern : List Byte} {lines : List (List Byte)} :
    matching pattern lines = [] ↔ ∀ line ∈ lines, ¬ Found pattern line := by
  unfold matching
  simp [List.flatMap_eq_nil_iff]

def linesOf (input : List Byte) : List (List Byte) := (splitLines (chr '\n') input).1

def lastPart (input : List Byte) : List Byte := (splitLines (chr '\n') input).2

section Round

variable {pattern : List Byte}

/-- **The inner loop** writes the lines that match and comes to the unfinished one. -/
theorem grepRound_spec (patternString : 0 ∉ pattern) (text : List Byte) :
    ∀ {fuel p : Nat} {buf : Memory} {out : List Byte},
    0 ∉ text → Stored buf p text → buf (p + text.length) = 0 → p + text.length < BUFSIZE →
    text.length < fuel →
    ∃ p' buf',
      grepRound pattern fuel p buf out = .ok (p', buf', out ++ matching pattern (linesOf text)) ∧
      p' + (lastPart text).length = p + text.length ∧ Stored buf' p' (lastPart text) := by
  induction text using lines_induction (chr '\n') with
  | rest text none =>
    intro fuel p buf out string stored ended room enough
    obtain _ | fuel := fuel
    · omega
    unfold linesOf lastPart
    rw [splitLines_rest none]
    refine ⟨p, buf, ?_, rfl, stored⟩
    rw [grepRound, stored.strchr_none string none ended (by omega)]
    show Except.ok _ = Except.ok (p, buf, out ++ [])
    rw [List.append_nil]
  | line front more none ih =>
    intro fuel p buf out string stored ended room enough
    rw [List.length_append, List.length_cons] at ended room enough
    obtain _ | fuel := fuel
    · omega
    rw [List.mem_append, List.mem_cons, not_or, not_or] at string
    obtain ⟨frontString, -, moreString⟩ := string
    obtain ⟨stored, later⟩ := stored.append
    obtain ⟨newline, later⟩ := later.cons
    have split : linesOf (front ++ chr '\n' :: more) = front :: linesOf more ∧
        lastPart (front ++ chr '\n' :: more) = lastPart more := by
      unfold linesOf lastPart
      rw [splitLines_line none]
      exact ⟨rfl, rfl⟩
    rw [split.1, split.2, grepRound, stored.strchr frontString none (by decide) newline (by omega)]
    generalize isQ : p + front.length = q at newline later
    -- the line ends with a NUL while the pattern is looked for
    have cut : stringAt (update buf q 0) (BUFSIZE - p) p = front := by
      refine (stored.congr fun x _ below => ?_).stringAt frontString ?_ (by omega)
      · rw [update_of_ne (by omega)]
      · rw [isQ, update_self]
    obtain ⟨found, isFound, iff⟩ := match_spec patternString frontString
    rw [ok_bind]
    dsimp only
    rw [cut, isFound, ok_bind]
    have next : ∀ {buf' : Memory} {out' : List Byte}, (∀ x, q < x → buf' x = buf x) →
        ∃ p' buf'', grepRound pattern fuel (q + 1) buf' out' =
            .ok (p', buf'', out' ++ matching pattern (linesOf more)) ∧
          p' + (lastPart more).length = p + (front ++ chr '\n' :: more).length ∧
          Stored buf'' p' (lastPart more) := by
      intro buf' out' same
      have total : p + (front ++ chr '\n' :: more).length = q + 1 + more.length := by
        rw [List.length_append, List.length_cons]
        omega
      rw [total]
      refine ih moreString (later.congr fun x low _ => same x (by omega)) ?_ (by omega) (by omega)
      rw [same _ (by omega), ← ended]
      congr 1
      omega
    by_cases now : found = true
    · rw [if_pos now, matching_cons_pos (iff.mp now), ← List.append_assoc]
      have line : Memory.read (update (update buf q 0) q (chr '\n')) p (q + 1 - p) = front ++
        [chr '\n'] := by
        have written : Stored (update (update buf q 0) q (chr '\n')) p (front ++ [chr '\n']) := by
          refine stored_append (stored.congr fun x _ below => ?_) fun i c at_ => ?_
          · rw [update_of_ne (by omega), update_of_ne (by omega)]
          · obtain ⟨rfl, rfl⟩ : i = 0 ∧ chr '\n' = c := by
              cases i with
              | zero => exact ⟨rfl, Option.some.inj at_⟩
              | succ i => cases at_
            rw [Nat.add_zero, isQ, update_self]
        have whole := written.read
        rwa [List.length_append, List.length_singleton, show front.length + 1 = q + 1 - p by
          omega] at whole
      rw [line]
      refine next fun x above => ?_
      rw [update_of_ne (by omega), update_of_ne (by omega)]
    · rw [if_neg now, matching_cons_neg fun holds => now (iff.mpr holds)]
      exact next fun x above => update_of_ne (by omega) _ _

/-- A line that fits in the buffer, with its newline and the NUL. -/
def fits (line : List Byte) : Bool := line.length + 1 < BUFSIZE

/-- When the buffer is full without a newline, the line in it does not fit. -/
theorem takeWhile_fits_full {cur : List Byte} (none : chr '\n' ∉ cur)
    (full : BUFSIZE ≤ cur.length + 1) (input : List Byte) :
    (linesOf (cur ++ input)).takeWhile fits = [] := by
  unfold linesOf
  induction input using lines_induction (chr '\n') with
  | rest input without =>
    rw [splitLines_rest fun member => (List.mem_append.mp member).elim none without]
    rfl
  | line front more without =>
    rw [← List.append_assoc, splitLines_line
      fun member => (List.mem_append.mp member).elim none without]
    refine List.takeWhile_cons_of_neg ?_
    rw [fits, decide_eq_true_iff, List.length_append]
    omega

/-- **The loop**: `cur` is the unfinished line in the buffer. -/
theorem grepLoop_spec (patternString : 0 ∉ pattern) (want : Nat → Nat) :
    ∀ {fuel round : Nat} {input cur : List Byte}
    {buf : Memory} {out : List Byte}, 0 ∉ cur → chr '\n' ∉ cur → 0 ∉ input → Stored buf 0 cur →
    cur.length < BUFSIZE →
    input.length < fuel → grepLoop pattern want fuel round input cur.length buf out =
      .ok (out ++ matching pattern ((linesOf (cur ++ input)).takeWhile fits)) := by
  intro fuel
  induction fuel with
  | zero => exact fun _ _ _ _ _ enough => nomatch enough
  | succ fuel ih =>
    intro round input cur buf out curString none string stored room enough
    rw [grepLoop]
    generalize isN : readLen (want round) (BUFSIZE - cur.length - 1) input.length = n
    unfold readLen at isN
    dsimp only
    by_cases some : 0 < n
    · rw [if_pos some]
      -- the buffer now holds `text` and a NUL
      have taken : (input.take n).length = n := by
        rw [List.length_take]
        omega
      generalize isText : cur ++ input.take n = text
      have long : text.length = cur.length + n := by
        rw [← isText, List.length_append, taken]
      have textString : 0 ∉ text := by
        rw [← isText, List.mem_append, not_or]
        exact ⟨curString, fun member => string (List.mem_of_mem_take member)⟩
      have storedText :
        Stored (update (buf.write cur.length (input.take n)) (cur.length + n) 0) 0 text := by
        have whole : Stored (buf.write cur.length (input.take n)) 0 (cur ++ input.take n) := by
          refine stored_append
            (stored.congr fun x _ below => Memory.write_outside (.inl (by omega))) ?_
          rw [Nat.zero_add]
          exact stored_write _ _ _
        rw [isText] at whole
        refine whole.congr fun x _ below => ?_
        rw [update_of_ne (by omega)]
      obtain ⟨p, after, isRound, place, rest⟩ :=
        @grepRound_spec pattern patternString text BUFSIZE 0 _ out textString
        storedText (by rw [Nat.zero_add, long, update_self]) (by omega) (by omega)
      rw [isRound, ok_bind]
      dsimp only
      have left : cur.length + n - p = (lastPart text).length := by omega
      have lastString : 0 ∉ lastPart text :=
        fun member => textString (mem_of_splitLines text member)
      have lastNone : chr '\n' ∉ lastPart text := splitLines_notMem text
      have dropString : 0 ∉ input.drop n := fun member => string (List.mem_of_mem_drop member)
      rw [if_pos (by omega), left,
        ih lastString lastNone dropString rest.move (by omega) (by rw [List.length_drop]; omega)]
      have short : ∀ line ∈ linesOf text, fits line = true := by
        intro line member
        have := length_lt_of_splitLines text line member
        rw [fits, decide_eq_true_iff]
        omega
      have pieces : linesOf (cur ++ input) = linesOf text ++
        linesOf (lastPart text ++ input.drop n) := by
        have whole : cur ++ input = text ++ input.drop n := by
          rw [← isText, List.append_assoc, List.take_append_drop]
        rw [whole]
        unfold linesOf lastPart
        rw [splitLines_append]
      rw [pieces, List.takeWhile_append_of_pos short, matching_append, List.append_assoc]
    · rw [if_neg some]
      show Except.ok out = _
      suffices nothing : (linesOf (cur ++ input)).takeWhile fits = [] by
        rw [nothing]
        exact congrArg Except.ok (List.append_nil out).symm
      by_cases empty : input.length = 0
      · rw [List.eq_nil_of_length_eq_zero empty, List.append_nil, linesOf, splitLines_rest none]
        rfl
      · exact takeWhile_fits_full none (by omega) input

theorem grep_spec (patternString : 0 ∉ pattern) (want : Nat → Nat) (buf : Memory)
    {input : List Byte} (string : 0 ∉ input) :
    grep pattern want buf input = .ok (matching pattern ((linesOf input).takeWhile fits)) :=
  @grepLoop_spec pattern patternString want (input.length + 1) 0 input [] buf
    [] nofun nofun string stored_nil
    (by decide) (Nat.lt_succ_self _)

end Round

/-- **`grep`** writes the lines that match, however the input is cut, exactly if there is none among
the first line that does not fit in the buffer and those after it. -/
theorem grep_prints (pattern input : List Byte) (want : Nat → Nat) (buf : Memory)
    (patternString : 0 ∉ pattern) (string : 0 ∉ input) :
    grep pattern want buf input = .ok (matching pattern (linesOf input)) ↔
      ∀ line ∈ (linesOf input).dropWhile fits, ¬ Found pattern line := by
  have pieces : matching pattern (linesOf input) =
      matching pattern ((linesOf input).takeWhile fits) ++
      matching pattern ((linesOf input).dropWhile fits) := by
    rw [← matching_append, List.takeWhile_append_dropWhile]
  rw [grep_spec patternString want buf string, Except.ok.injEq, pieces, List.self_eq_append_right,
    matching_eq_nil]

theorem grep_prints_bytes :
    grep [chr 'a'] (fun _ => 1) (fun _ => 0) [chr 'a', chr '\n', chr 'b', chr '\n'] =
    .ok (matching [chr 'a'] (linesOf [chr 'a', chr '\n', chr 'b', chr '\n'])) := by
  refine (grep_prints _ _ _ _ (by decide) (by decide)).mpr ?_
  rw [show (linesOf [chr 'a', chr '\n', chr 'b', chr '\n']).dropWhile fits = [] by decide]
  exact nofun

example : grep [chr 'a'] (fun _ => 1) (fun _ => 0) [chr 'a', chr '\n', chr 'b', chr '\n', chr 'a'] =
    .ok [chr 'a', chr '\n'] := by decide +kernel

/-- **A long line is lost.** A line of 1023 characters and its newline do not fit, and `read` is
then asked for no byte. -/
theorem grep_longLine :
    ∃ input : List Byte, 0 ∉ input ∧ linesOf input = [List.replicate 1023 (chr 'a')] ∧
    Found [chr 'a'] (List.replicate 1023 (chr 'a')) ∧
    grep [chr 'a'] (fun _ => 1024) (fun _ => 0) input = .ok [] := by
  have lines : linesOf (List.replicate 1023 (chr 'a') ++ [chr '\n']) =
    [List.replicate 1023 (chr 'a')] := by
    unfold linesOf
    rw [splitLines_line fun member => absurd (List.eq_of_mem_replicate member) (by decide)]
    rfl
  have string : 0 ∉ List.replicate 1023 (chr 'a') ++ [chr '\n'] := by
    rw [List.mem_append, List.mem_replicate]
    decide
  refine ⟨_, string, lines,
    ⟨[], _, rfl, [chr 'a'], List.replicate 1022 (chr 'a'), rfl, .one (.inr rfl) .nil, nofun⟩, ?_⟩
  rw [grep_spec (by decide) _ _ string, lines]
  rw [List.takeWhile_cons_of_neg]
  · rfl
  · rw [fits, decide_eq_true_iff, List.length_replicate]
    decide

end Xv6.User
