/-
**The matcher of `grep`** (`user/grep.c`: `match`, `matchhere`, `matchstar`).

A C string is the list of its characters; `charAt` also reads the terminator, and nothing after it.
The functions call each other, so each takes a bound on the depth of its calls and loop rounds;
`match_` passes one that is enough.

A pattern is a sequence of items with an optional `^` in front and an optional `$` at the end
(`items`, `ends`); `Spells` says which strings the items stand for.
-/

import Xv6.Sh.Token

namespace Xv6.User

open Lib
open Sh (chr)

/-! ### The program -/

/-- Why a matching function does not return. -/
inductive GrepStop
  /-- it reads past a terminator -/
  | past
  /-- the bound on calls was too small -/
  | fuel
  deriving DecidableEq

/-- `s[i]`, where only the characters of the string and its terminator may be read. -/
def charAt (s : List Byte) (i : Nat) : Except GrepStop Byte :=
  match (s ++ [0])[i]? with
  | some c => .ok c
  | none => .error .past

mutual

/-- `matchhere(re + i, text + j)` -/
def matchhere (re text : List Byte) : Nat → Nat → Nat → Except GrepStop Bool
  | 0, _, _ => .error .fuel
  | fuel + 1, i, j => do
    let c ← charAt re i
    if c = 0 then return true
    else
      let d ← charAt re (i + 1)
      if d = chr '*' then matchstar re text fuel c (i + 2) j
      else if c = chr '$' ∧ d = 0 then
        let t ← charAt text j
        return t = 0
      else
        let t ← charAt text j
        if t ≠ 0 ∧ (c = chr '.' ∨ c = t) then matchhere re text fuel (i + 1) (j + 1)
        else return false

/-- `matchstar(c, re + i, text + j)` -/
def matchstar (re text : List Byte) : Nat → Byte → Nat → Nat → Except GrepStop Bool
  | 0, _, _, _ => .error .fuel
  | fuel + 1, c, i, j => do
    let found ← matchhere re text fuel i j
    if found then return true
    else
      let t ← charAt text j
      if t ≠ 0 ∧ (t = c ∨ c = chr '.') then matchstar re text fuel c i (j + 1)
      else return false

end

/-- Calls enough for a pattern and a text. -/
def matchFuel (re text : List Byte) : Nat := re.length + text.length + 1

/-- The loop of `match`, from `text + j` on. -/
def matchLoop (re text : List Byte) : Nat → Nat → Except GrepStop Bool
  | 0, _ => .error .fuel
  | fuel + 1, j => do
    let found ← matchhere re text (matchFuel re text) 0 j
    if found then return true
    else
      let t ← charAt text j
      if t ≠ 0 then matchLoop re text fuel (j + 1) else return false

def match_ (re text : List Byte) : Except GrepStop Bool := do
  let c ← charAt re 0
  if c = chr '^' then matchhere re text (matchFuel re text) 1 0
  else matchLoop re text (text.length + 1) 0

/-! ### The meaning of a pattern -/

inductive Item
  | one (c : Byte)
  | star (c : Byte)
  deriving DecidableEq

/-- A character of a pattern stands for a character of the text. -/
def Covers (c x : Byte) : Prop := c = chr '.' ∨ c = x

/-- The items of a pattern without its `^` and `$`. -/
def items : List Byte → List Item
  | [] => []
  | [c] => if c = chr '$' then [] else [.one c]
  | c :: d :: re => if d = chr '*' then .star c :: items re else .one c :: items (d :: re)

/-- The pattern has a `$` at its end. -/
def ends : List Byte → Bool
  | [] => false
  | [c] => c = chr '$'
  | _ :: d :: re => if d = chr '*' then ends re else ends (d :: re)

/-- **The strings that items stand for.** -/
inductive Spells : List Item → List Byte → Prop
  | nil : Spells [] []
  | one {c x : Byte} {rest : List Item} {w : List Byte} (covers : Covers c x)
      (more : Spells rest w) : Spells (.one c :: rest) (x :: w)
  | star {c : Byte} {rest : List Item} {u w : List Byte} (covers : ∀ x ∈ u, Covers c x)
      (more : Spells rest w) : Spells (.star c :: rest) (u ++ w)

/-- The text starts with a string that the pattern stands for. -/
def Here (re text : List Byte) : Prop :=
  ∃ w post, text = w ++ post ∧ Spells (items re) w ∧ (ends re = true → post = [])

def Found (re text : List Byte) : Prop :=
  match re with
  | [] => ∃ pre rest, text = pre ++ rest ∧ Here [] rest
  | c :: re => if c = chr '^' then Here re text else ∃ pre rest, text = pre ++ rest ∧
    Here (c :: re) rest

/-! ### One item after another -/

section Meaning

variable {c d x : Byte} {re text : List Byte}

theorem here_nil (text : List Byte) : Here [] text := ⟨[], text, rfl, .nil, nofun⟩

theorem here_end : Here [chr '$'] text ↔ text = [] := by
  constructor
  · rintro ⟨w, post, rfl, spells, last⟩
    obtain rfl : w = [] := by
      cases spells
      rfl
    exact last rfl
  · rintro rfl
    exact ⟨[], [], rfl, .nil, fun _ => rfl⟩

theorem here_star : Here (c :: chr '*' :: re) text ↔
    ∃ u rest, text = u ++ rest ∧ (∀ x ∈ u, Covers c x) ∧ Here re rest := by
  have isItems : items (c :: chr '*' :: re) = .star c :: items re := rfl
  have isEnds : ends (c :: chr '*' :: re) = ends re := rfl
  unfold Here
  rw [isItems, isEnds]
  constructor
  · rintro ⟨w, post, rfl, spells, last⟩
    cases spells with
    | @star _ _ u w covers more =>
      exact ⟨u, w ++ post, List.append_assoc _ _ _, covers, w, post, rfl, more, last⟩
  · rintro ⟨u, rest, rfl, covers, w, post, rfl, spells, last⟩
    exact ⟨u ++ w, post, (List.append_assoc _ _ _).symm, .star covers spells, last⟩

theorem star_step : (∃ u rest, text = u ++ rest ∧ (∀ x ∈ u, Covers c x) ∧ Here re rest) ↔
    Here re text ∨ ∃ x cs, text = x :: cs ∧ Covers c x ∧
      ∃ u rest, cs = u ++ rest ∧ (∀ x ∈ u, Covers c x) ∧ Here re rest := by
  constructor
  · rintro ⟨u, rest, rfl, covers, here⟩
    cases u with
    | nil => exact .inl here
    | cons x u =>
      exact .inr ⟨x, u ++ rest, rfl, covers x List.mem_cons_self, u, rest, rfl,
        fun y member => covers y (List.mem_cons_of_mem _ member), here⟩
  · rintro (here | ⟨x, cs, rfl, first, u, rest, rfl, covers, here⟩)
    · exact ⟨[], text, rfl, nofun, here⟩
    · refine ⟨x :: u, rest, rfl, fun y member => ?_, here⟩
      rcases List.mem_cons.mp member with rfl | later
      · exact first
      · exact covers y later

/-- The next character of the pattern is not a star, and this one not the `$` at the end. -/
structure Single (c : Byte) (re : List Byte) : Prop where
  star : ∀ rest, re ≠ chr '*' :: rest
  last : ¬ (c = chr '$' ∧ re = [])

theorem Single.items (single : Single c re) : items (c :: re) = .one c :: User.items re := by
  cases re with
  | nil => exact if_neg fun isEnd => single.last ⟨isEnd, rfl⟩
  | cons d re => exact if_neg fun isStar => single.star re (by rw [isStar])

theorem Single.ends (single : Single c re) : ends (c :: re) = User.ends re := by
  cases re with
  | nil => exact decide_eq_false fun isEnd => single.last ⟨isEnd, rfl⟩
  | cons d re => exact if_neg fun isStar => single.star re (by rw [isStar])

theorem here_one (single : Single c re) :
    Here (c :: re) text ↔ ∃ x cs, text = x :: cs ∧ Covers c x ∧ Here re cs := by
  unfold Here
  rw [single.items, single.ends]
  constructor
  · rintro ⟨w, post, rfl, spells, last⟩
    cases spells with
    | @one _ x _ w covers more => exact ⟨x, w ++ post, rfl, covers, w, post, rfl, more, last⟩
  · rintro ⟨x, cs, rfl, covers, w, post, rfl, spells, last⟩
    exact ⟨x :: w, post, rfl, .one covers spells, last⟩

end Meaning

/-! ### The functions -/

section Functions

variable {s cs : List Byte} {c : Byte} {i : Nat} {holds : Prop}

theorem charAt_end (ended : s.drop i = []) (inside : i ≤ s.length) : charAt s i = .ok 0 := by
  have isEnd : i = s.length := Nat.le_antisymm inside (List.drop_eq_nil_iff.mp ended)
  unfold charAt
  rw [isEnd, List.getElem?_concat_length]

theorem charAt_char (more : s.drop i = c :: cs) :
    charAt s i = .ok c ∧ i < s.length ∧ s.drop (i + 1) = cs ∧ c ∈ s := by
  have inside : i < s.length := by
    by_contra past
    rw [List.drop_eq_nil_of_le (Nat.le_of_not_lt past)] at more
    cases more
  have split := List.drop_eq_getElem_cons inside
  rw [more] at split
  obtain ⟨isC, isRest⟩ := List.cons.inj split
  refine ⟨?_, inside, isRest.symm, isC ▸ List.getElem_mem inside⟩
  unfold charAt
  rw [List.getElem?_append_left inside, List.getElem?_eq_getElem inside, isC]

theorem ok_bind {E A B : Type} (a : A) (f : A → Except E B) : (Except.ok a >>= f) = f a := rfl

def Decides (x : Except GrepStop Bool) (holds : Prop) : Prop := ∃ b, x = .ok b ∧ (b = true ↔ holds)

theorem Decides.iff {x : Except GrepStop Bool} {holds' : Prop} (decides : Decides x holds)
    (same : holds' ↔ holds) : Decides x holds' := by
  obtain ⟨b, isB, iff⟩ := decides
  exact ⟨b, isB, iff.trans same.symm⟩

theorem decides_true (true_ : holds) : Decides (.ok true) holds :=
  ⟨true, rfl, fun _ => true_, fun _ => rfl⟩

theorem decides_false (false_ : ¬ holds) : Decides (.ok false) holds :=
  ⟨false, rfl, nofun, fun yes => absurd yes false_⟩

/-- The next character of a string, or its terminator, is read. -/
theorem decides_charAt {f : Byte → Except GrepStop Bool} (string : 0 ∉ s) (low : i ≤ s.length)
    (ended : s.drop i = [] → Decides (f 0) holds)
    (char : ∀ x xs, s.drop i = x :: xs → x ≠ 0 → i < s.length → s.drop (i + 1) = xs →
      Decides (f x) holds) : Decides (charAt s i >>= f) holds := by
  cases left : s.drop i with
  | nil =>
    rw [charAt_end left low]
    exact ended left
  | cons x xs =>
    obtain ⟨isChar, inside, isRest, member⟩ := charAt_char left
    rw [isChar]
    exact char x xs left (fun zero => string (zero ▸ member)) inside isRest

/-- The function returns if a first test succeeds, and goes on otherwise. -/
theorem Decides.orElse {x y : Except GrepStop Bool} {now : Prop} (first : Decides x now)
    (found : now → holds) (rest : ¬ now → Decides y holds) :
    Decides (do
      let found ← x
      if found then return true else y) holds := by
  obtain ⟨b, isB, iff⟩ := first
  rw [isB]
  cases b with
  | true => exact decides_true (found (iff.mp rfl))
  | false => exact rest fun yes => absurd (iff.mpr yes) nofun

variable {re text : List Byte}

theorem match_one {j : Nat} {next : Except GrepStop Bool} (textString : 0 ∉ text)
    (low : j ≤ text.length) (single : Single c cs)
    (rest : j + 1 ≤ text.length → Decides next (Here cs (text.drop (j + 1)))) :
    Decides (do
      let t ← charAt text j
      if t ≠ 0 ∧ (c = chr '.' ∨ c = t) then next else return false)
        (Here (c :: cs) (text.drop j)) := by
  refine Decides.iff ?_ (here_one single)
  refine decides_charAt textString low (fun ended => ?_) fun x xs left nonzero inside isRest => ?_
  · refine decides_false ?_
    rintro ⟨x, xs, split, -⟩
    cases ended.symm.trans split
  rw [left]
  by_cases covers : Covers c x
  · rw [if_pos ⟨nonzero, covers⟩]
    refine (rest inside).iff ?_
    rw [isRest]
    exact ⟨fun ⟨y, ys, split, _, more⟩ => (List.cons.inj split).2 ▸ more,
      fun more => ⟨x, xs, rfl, covers, more⟩⟩
  · rw [if_neg fun both => covers both.2]
    refine decides_false ?_
    rintro ⟨y, ys, split, first, -⟩
    exact covers ((List.cons.inj split).1 ▸ first)

theorem match_end {j : Nat} (textString : 0 ∉ text) (low : j ≤ text.length) : Decides (do
      let t ← charAt text j
      return decide (t = 0)) (Here [chr '$'] (text.drop j)) := by
  refine Decides.iff ?_ here_end
  refine decides_charAt textString low decides_true fun x xs left nonzero _ _ => ?_
  rw [decide_eq_false nonzero, left]
  exact decides_false nofun

/-- **`matchhere` and `matchstar`**, on what is left of the pattern and of the text. -/
theorem matchhere_spec (reString : 0 ∉ re) (textString : 0 ∉ text) : ∀ fuel,
    (∀ i j, i ≤ re.length → j ≤ text.length → (re.length - i) + (text.length - j) + 1 ≤ fuel →
      Decides (matchhere re text fuel i j) (Here (re.drop i) (text.drop j))) ∧
    ∀ c i j, i ≤ re.length → j ≤ text.length → (re.length - i) + (text.length - j) + 2 ≤ fuel →
      Decides (matchstar re text fuel c i j)
        (∃ u rest, text.drop j = u ++ rest ∧ (∀ x ∈ u, Covers c x) ∧ Here (re.drop i) rest) := by
  -- on the calls that are left: a call of `matchstar` uses up two characters of the pattern
  intro fuel
  induction fuel with
  | zero => exact ⟨fun i j _ _ enough => by omega, fun c i j _ _ enough => by omega⟩
  | succ fuel ih =>
    obtain ⟨here, star⟩ := ih
    refine ⟨fun i j low low' enough => ?_, fun c i j low low' enough => ?_⟩
    · rw [matchhere]
      refine decides_charAt reString low (fun ended => ?_) fun c cs left nonzero inside isRest => ?_
      · rw [ended]
        exact decides_true (here_nil _)
      have next : j + 1 ≤ text.length →
          Decides (matchhere re text fuel (i + 1) (j + 1)) (Here cs (text.drop (j + 1))) :=
        fun more => isRest ▸ here (i + 1) (j + 1) inside more (by omega)
      rw [if_neg nonzero, left]
      refine decides_charAt reString inside (fun ended => ?_)
        fun d ds left' nonzero' inside' isRest' => ?_
      · obtain rfl : cs = [] := isRest.symm.trans ended
        rw [if_neg (show (0 : Byte) ≠ chr '*' by decide)]
        by_cases isEnd : c = chr '$'
        · rw [if_pos ⟨isEnd, rfl⟩, isEnd]
          exact match_end textString low'
        · rw [if_neg fun both => isEnd both.1]
          exact match_one textString low' ⟨fun rest => by nofun, fun both => isEnd both.1⟩ next
      · obtain rfl : cs = d :: ds := isRest.symm.trans left'
        by_cases isStar : d = chr '*'
        · rw [if_pos isStar, isStar]
          refine (star c (i + 2) j inside' low' (by omega)).iff ?_
          rw [show re.drop (i + 2) = ds from isRest']
          exact here_star
        · rw [if_neg isStar, if_neg fun both => nonzero' both.2]
          exact match_one textString low' ⟨fun rest same => isStar (List.cons.inj same).1,
            fun both => nomatch both.2⟩ next
    · rw [matchstar]
      refine Decides.iff ?_ star_step
      refine (here i j low low' (by omega)).orElse .inl fun notHere => ?_
      refine decides_charAt textString low' (fun ended => ?_)
        fun x xs left nonzero inside isRest => ?_
      · refine decides_false ?_
        rintro (holds | ⟨x, xs, split, -⟩)
        · exact notHere holds
        · cases ended.symm.trans split
      by_cases covers : Covers c x
      · rw [if_pos ⟨nonzero, covers.symm.imp_left Eq.symm⟩]
        refine (star c i (j + 1) low inside (by omega)).iff ?_
        rw [isRest]
        constructor
        · rintro (holds | ⟨y, ys, split, -, more⟩)
          · exact absurd holds notHere
          · exact (List.cons.inj (left.symm.trans split)).2 ▸ more
        · exact fun more => .inr ⟨x, xs, left, covers, more⟩
      · rw [if_neg fun both => covers (both.2.symm.imp_right Eq.symm)]
        refine decides_false ?_
        rintro (holds | ⟨y, ys, split, first, -⟩)
        · exact notHere holds
        · exact covers ((List.cons.inj (left.symm.trans split)).1 ▸ first)

/-- The loop of `match`: the pattern is found at `text + j` or later. -/
theorem matchLoop_spec (reString : 0 ∉ re) (textString : 0 ∉ text) : ∀ fuel j, j ≤ text.length →
    text.length - j + 1 ≤ fuel →
    Decides (matchLoop re text fuel j) (∃ pre rest, text.drop j = pre ++ rest ∧ Here re rest) := by
  intro fuel
  induction fuel with
  | zero => exact fun j _ enough => by omega
  | succ fuel ih =>
    intro j low enough
    have first := (matchhere_spec reString textString (matchFuel re text)).1 0 j (Nat.zero_le _) low
      (by unfold matchFuel; omega)
    rw [matchLoop]
    refine first.orElse (fun now => ⟨[], text.drop j, rfl, now⟩) fun notHere => ?_
    refine decides_charAt textString low (fun ended => ?_) fun x xs left nonzero inside isRest => ?_
    · refine decides_false ?_
      rintro ⟨pre, rest, split, holds⟩
      rw [ended] at split notHere
      rw [(List.append_eq_nil_iff.mp split.symm).2] at holds
      exact notHere holds
    rw [if_pos nonzero]
    refine (ih (j + 1) inside (by omega)).iff ?_
    rw [isRest, left]
    constructor
    · rintro ⟨pre, rest, split, holds⟩
      cases pre with
      | nil => exact absurd (left.trans split ▸ holds) notHere
      | cons y pre => exact ⟨pre, rest, (List.cons.inj split).2, holds⟩
    · rintro ⟨pre, rest, split, holds⟩
      exact ⟨x :: pre, rest, by rw [split]; rfl, holds⟩

theorem match_spec (reString : 0 ∉ re) (textString : 0 ∉ text) :
    Decides (match_ re text) (Found re text) := by
  have anywhere := matchLoop_spec reString textString (text.length + 1) 0 (Nat.zero_le _) (by omega)
  unfold match_
  cases re with
  | nil => exact anywhere
  | cons c re =>
    show Decides (if c = chr '^' then _ else _) (if c = chr '^' then _ else _)
    by_cases anchored : c = chr '^'
    · rw [if_pos anchored, if_pos anchored]
      exact (matchhere_spec reString textString _).1 1 0 (by rw [List.length_cons]; omega)
        (Nat.zero_le _)
        (by unfold matchFuel; rw [List.length_cons]; omega)
    · rw [if_neg anchored, if_neg anchored]
      exact anywhere

/-- **`match`** returns, reads no character after a terminator, and finds the pattern. -/
theorem match_finds (re text : List Byte) (reString : 0 ∉ re) (textString : 0 ∉ text) :
    ∃ b, match_ re text = .ok b ∧ (b = true ↔ Found re text) :=
  match_spec reString textString

theorem match_finds_star : ∃ b, match_ [chr 'a', chr '*', chr '$'] [chr 'b', chr 'a'] = .ok b ∧
    (b = true ↔ Found [chr 'a', chr '*', chr '$'] [chr 'b', chr 'a']) :=
  match_finds _ _ (by decide) (by decide)

example : match_ [chr '^', chr 'a', chr '*', chr 'b'] [chr 'b', chr 'a'] = .ok true := by decide

example : match_ [chr '^', chr 'a', chr '$'] [chr 'b', chr 'a'] = .ok false := by decide

end Functions

end Xv6.User
