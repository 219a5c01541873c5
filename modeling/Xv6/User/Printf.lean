/-
**`printf`** (`user/printf.c`: `printint`, `printptr`, `vprintf`).

`vprintf` goes through the format character by character with a state, and hands numbers to
`printint`, which has an `int` parameter and a buffer of 16 characters. An argument is a 32-bit
word, a 64-bit word or a pointer to a string. Strings are lists of the characters before the NUL.
-/

import Xv6.User.Grep
import Xv6.Lib.Numeral

namespace Xv6.User

open Lib
open Sh (chr)

/-! ### The program -/

/-- Where printing goes wrong: the buffer of `printint` is overrun, `digits` is read past its end,
or the next argument is not of the type that is asked for. -/
inductive PrintStop
  | overrun
  | past
  | args
  deriving DecidableEq

def digits : List Byte := "0123456789ABCDEF".toList.map chr ++ [0]

/-- `digits[i]` -/
def digitAt (i : Nat) : Except PrintStop Byte :=
  match digits[i]? with
  | some c => .ok c
  | none => .error .past

/-- The `do` loop of `printint`, where `room` bytes of `buf` are free. -/
def printDigits (base : BitVec 32) : Nat → BitVec 32 → List Byte → Except PrintStop (List Byte)
  | 0, _, _ => .error .overrun
  | room + 1, x, buf => do
    let c ← digitAt (x % base).toNat
    let buf := buf ++ [c]
    let x := x / base
    if x ≠ 0 then printDigits base room x buf else return buf

/-- `sizeof(buf)` in `printint` -/
def PRINTBUF : Nat := 16

def printint (xx base : BitVec 32) (sgn : Bool) : Except PrintStop (List Byte) := do
  let neg := sgn && decide (xx.toInt < 0)
  let x := if neg then -xx else xx
  let buf ← printDigits base PRINTBUF x []
  if neg then
    if buf.length < PRINTBUF then return (buf ++ [chr '-']).reverse else throw .overrun
  else return buf.reverse

/-- The loop of `printptr`, `n` rounds before its end. -/
def ptrLoop : Nat → BitVec 64 → Except PrintStop (List Byte)
  | 0, _ => return []
  | n + 1, x => do
    let c ← digitAt (x >>> (64 - 4)).toNat
    let rest ← ptrLoop n (x <<< 4)
    return c :: rest

def printptr (x : BitVec 64) : Except PrintStop (List Byte) := do
  let rest ← ptrLoop (8 * 2) x
  return chr '0' :: chr 'x' :: rest

/-- An argument of `printf`. -/
inductive Arg
  | int (v : BitVec 32)
  | uint64 (v : BitVec 64)
  | string (s : Option (List Byte))

def argInt : List Arg → Option (BitVec 32 × List Arg)
  | .int v :: ap => some (v, ap)
  | _ => none

def argUint64 : List Arg → Option (BitVec 64 × List Arg)
  | .uint64 v :: ap => some (v, ap)
  | _ => none

def argString : List Arg → Option (Option (List Byte) × List Arg)
  | .string s :: ap => some (s, ap)
  | _ => none

def va_arg {A : Type} : Option A → Except PrintStop A
  | some a => .ok a
  | none => .error .args

/-- The character after a `%`: what is written, and the arguments that are left. -/
def convert (c : Byte) (ap : List Arg) : Except PrintStop (List Byte × List Arg) :=
  if c = chr 'd' then do
    let (v, ap) ← va_arg (argInt ap)
    return (← printint v 10 true, ap)
  else if c = chr 'l' then do
    let (v, ap) ← va_arg (argUint64 ap)
    -- the parameter of `printint` is an `int`
    return (← printint (v.setWidth 32) 10 false, ap)
  else if c = chr 'x' then do
    let (v, ap) ← va_arg (argInt ap)
    return (← printint v 16 false, ap)
  else if c = chr 'p' then do
    let (v, ap) ← va_arg (argUint64 ap)
    return (← printptr v, ap)
  else if c = chr 's' then do
    let (s, ap) ← va_arg (argString ap)
    return (s.getD ("(null)".toList.map chr), ap)
  else if c = chr 'c' then do
    let (v, ap) ← va_arg (argInt ap)
    return ([v.setWidth 8], ap)
  else if c = chr '%' then return ([c], ap)
  else return ([chr '%', c], ap)

/-- The loop of `vprintf`: the rest of the format, `state`, `ap`, and what has been written. -/
def vprintfLoop : List Byte → Byte → List Arg → List Byte → Except PrintStop (List Byte)
  | [], _, _, out => .ok out
  | c :: fmt, state, ap, out =>
    if state = 0 then
      if c = chr '%' then vprintfLoop fmt (chr '%') ap out
      else vprintfLoop fmt state ap (out ++ [c])
    else if state = chr '%' then do
      let (text, ap) ← convert c ap
      vprintfLoop fmt 0 ap (out ++ text)
    else vprintfLoop fmt state ap out

def vprintf (fmt : List Byte) (ap : List Arg) : Except PrintStop (List Byte) :=
  vprintfLoop fmt 0 ap []

/-! ### What a format says -/

inductive Piece
  | literal (c : Byte)
  | decimal (v : BitVec 32)
  | unsigned (v : BitVec 64)
  | hex (v : BitVec 32)
  | pointer (v : BitVec 64)
  | string (s : Option (List Byte))
  | char (v : BitVec 32)
  | percent
  | unknown (c : Byte)

/-- The conversions, each with the argument it takes. -/
def conversion (c : Byte) (ap : List Arg) : Option (Piece × List Arg) :=
  if c = chr 'd' then (argInt ap).map fun (v, ap) => (.decimal v, ap)
  else if c = chr 'l' then (argUint64 ap).map fun (v, ap) => (.unsigned v, ap)
  else if c = chr 'x' then (argInt ap).map fun (v, ap) => (.hex v, ap)
  else if c = chr 'p' then (argUint64 ap).map fun (v, ap) => (.pointer v, ap)
  else if c = chr 's' then (argString ap).map fun (s, ap) => (.string s, ap)
  else if c = chr 'c' then (argInt ap).map fun (v, ap) => (.char v, ap)
  else if c = chr '%' then some (.percent, ap)
  else some (.unknown c, ap)

/-- **The pieces of a format with matching arguments.** A `%` at the very end stands for nothing. -/
def pieces : List Byte → List Arg → Option (List Piece)
  | [], _ => some []
  | [c], _ => if c = chr '%' then some [] else some [.literal c]
  | c :: d :: fmt, ap =>
    if c = chr '%' then do
      let (p, ap) ← conversion d ap
      return p :: (← pieces fmt ap)
    else return .literal c :: (← pieces (d :: fmt) ap)

def digitChar (d : Nat) : Byte :=
  if d < 10 then BitVec.ofNat 8 (48 + d) else BitVec.ofNat 8 (55 + d)

def digitOf (c : Byte) : Option Nat :=
  if 48 ≤ c.toNat ∧ c.toNat < 58 then some (c.toNat - 48)
  else if 65 ≤ c.toNat ∧ c.toNat < 71 then some (c.toNat - 55)
  else none

/-- The numeral of a number in a base. -/
def numeralText (b n : Nat) : List Byte := (numeral b n).map digitChar

def Piece.text : Piece → List Byte
  | .literal c => [c]
  | .decimal v => if v.toInt < 0 then chr '-' :: numeralText 10 v.toInt.natAbs
    else numeralText 10 v.toInt.natAbs
  | .unsigned v => numeralText 10 v.toNat
  | .hex v => numeralText 16 v.toNat
  | .pointer v => chr '0' :: chr 'x' :: (padded 16 16 v.toNat).map digitChar
  | .string s => s.getD ("(null)".toList.map chr)
  | .char v => [v.setWidth 8]
  | .percent => [chr '%']
  | .unknown c => [chr '%', c]

def readNumeral (b : Nat) (text : List Byte) : Option Nat := do
  let ds ← text.mapM digitOf
  if ds ≠ [] ∧ ∀ d ∈ ds, d < b then return value b ds else none

def readInt (b : Nat) : List Byte → Option Int
  | [] => none
  | c :: text => if c = chr '-' then (readNumeral b text).map fun n =>
    -(n : Int) else (readNumeral b (c :: text)).map Nat.cast

/-- **A number reads back** from what is printed for it. -/
def Piece.ReadsBack : Piece → Prop
  | .decimal v => readInt 10 (Piece.decimal v).text = some v.toInt
  | .unsigned v => readNumeral 10 (Piece.unsigned v).text = some v.toNat
  | .hex v => readNumeral 16 (Piece.hex v).text = some v.toNat
  | .pointer v => ∃ text, (Piece.pointer v).text = chr '0' :: chr 'x' :: text ∧ text.length = 16 ∧
      readNumeral 16 text = some v.toNat
  | _ => True

/-! ### Digits -/

section Digits

variable {b n : Nat} {ds : List Nat}

theorem digitOf_digitChar : ∀ d < 16, digitOf (digitChar d) = some d := by decide

theorem digitAt_eq : ∀ d < 16, digitAt d = .ok (digitChar d) := by decide

theorem digitChar_ne_minus : ∀ d < 16, digitChar d ≠ chr '-' := by decide

theorem mapM_digitOf (small : ∀ d ∈ ds, d < 16) : (ds.map digitChar).mapM digitOf = some ds := by
  induction ds with
  | nil => rfl
  | cons d ds ih =>
    rw [List.map_cons, List.mapM_cons, digitOf_digitChar d (small d List.mem_cons_self),
      ih fun e member => small e (List.mem_cons_of_mem _ member)]
    rfl

theorem readNumeral_digits (base : b ≤ 16) (some_ : ds ≠ []) (small : ∀ d ∈ ds, d < b) :
    readNumeral b (ds.map digitChar) = some (value b ds) := by
  unfold readNumeral
  rw [mapM_digitOf fun d member => Nat.lt_of_lt_of_le (small d member) base]
  exact if_pos ⟨some_, small⟩

theorem readNumeral_numeralText (base : 1 < b) (small : b ≤ 16) (n : Nat) :
    readNumeral b (numeralText b n) = some n := by
  rw [numeralText, readNumeral_digits small (numeral_ne_nil b n) fun d => lt_of_mem_numeral base,
    value_numeral]

theorem readInt_numeralText (base : 1 < b) (small : b ≤ 16) (n : Nat) :
    readInt b (numeralText b n) = some (n : Int) := by
  have back := readNumeral_numeralText base small n
  unfold numeralText at back ⊢
  cases isNumeral : numeral b n with
  | nil => exact absurd isNumeral (numeral_ne_nil b n)
  | cons d ds =>
    have first : d < b := lt_of_mem_numeral base (isNumeral ▸ List.mem_cons_self)
    rw [isNumeral] at back
    rw [List.map_cons] at back ⊢
    rw [readInt, if_neg (digitChar_ne_minus d (by omega)), back]
    rfl

theorem Piece.readsBack (p : Piece) : p.ReadsBack := by
  cases p with
  | decimal v =>
    show readInt 10 (if v.toInt < 0 then _ else _) = some v.toInt
    by_cases negative : v.toInt < 0
    · rw [if_pos negative, readInt, if_pos rfl, readNumeral_numeralText (by decide) (by decide)]
      show some (-(v.toInt.natAbs : Int)) = some v.toInt
      congr 1
      omega
    · rw [if_neg negative, readInt_numeralText (by decide) (by decide)]
      congr 1
      omega
  | unsigned v | hex v => exact readNumeral_numeralText (by decide) (by decide) _
  | pointer v =>
    refine ⟨_, rfl, ?_, ?_⟩
    · rw [List.length_map, length_padded]
    · have some_ : padded 16 16 v.toNat ≠ [] := List.cons_ne_nil _ _
      have range : v.toNat < 16 ^ 16 := v.isLt
      rw [readNumeral_digits (Nat.le_refl _) some_ fun d => lt_of_mem_padded (by decide),
        value_padded, Nat.mod_eq_of_lt range]
  | _ => exact True.intro

end Digits

/-! ### `printint` and `printptr` -/

theorem printDigits_spec {base : BitVec 32} (two : 1 < base.toNat) (small : base.toNat ≤ 16) :
    ∀ {room : Nat} {x : BitVec 32}
    {buf : List Byte}, 0 < room → x.toNat < base.toNat ^ room →
    printDigits base room x buf = .ok (buf ++ (numeralText base.toNat x.toNat).reverse) := by
  intro room
  induction room with
  | zero => exact fun some => nomatch some
  | succ room ih =>
    intro x buf _ fits
    have digit : x.toNat % base.toNat < base.toNat := Nat.mod_lt _ (by omega)
    have quotient : (x / base).toNat = x.toNat / base.toNat := BitVec.toNat_udiv
    rw [printDigits, BitVec.toNat_umod, digitAt_eq _ (by omega), numeralText, numeral_step two]
    show (if x / base ≠ 0 then _ else _) = _
    by_cases last : x.toNat / base.toNat = 0
    · have zero : x / base = 0 := BitVec.eq_of_toNat_eq (quotient.trans last)
      rw [if_neg (not_not_intro zero), if_pos last]
      rfl
    · have nonzero : x / base ≠ 0 := fun zero => last (by rw [← quotient, zero]; rfl)
      have below : x.toNat / base.toNat < base.toNat ^ room :=
        Nat.div_lt_of_lt_mul (by rwa [Nat.mul_comm, ← Nat.pow_succ])
      have more : 0 < room := by
        rcases Nat.eq_zero_or_pos room with rfl | more
        · exact absurd (Nat.lt_one_iff.mp below) last
        · exact more
      rw [if_pos nonzero, if_neg last, ih more (by rwa [quotient]), quotient, List.map_append,
        List.reverse_append, List.append_assoc]
      rfl

theorem toNat_of_nonneg {v : BitVec 32} (nonneg : ¬ v.toInt < 0) : v.toInt.natAbs = v.toNat := by
  rw [BitVec.toInt_eq_toNat_cond] at nonneg ⊢
  split at nonneg <;> omega

/-- **`printint`**: the numeral of the word, with a sign if it is asked for. -/
theorem printint_spec {base : BitVec 32} (two : 10 ≤ base.toNat) (small : base.toNat ≤ 16)
    (xx : BitVec 32) (sgn : Bool) :
    printint xx base sgn =
      .ok (if sgn = true ∧ xx.toInt < 0 then chr '-' :: numeralText base.toNat xx.toInt.natAbs
      else numeralText base.toNat xx.toNat) := by
  have wide : (2 : Nat) ^ 32 ≤ base.toNat ^ 10 :=
    Nat.le_trans (by decide) (Nat.pow_le_pow_left two 10)
  have fits : ∀ x : BitVec 32, x.toNat < base.toNat ^ 10 := fun x => Nat.lt_of_lt_of_le x.isLt wide
  have run : ∀ x : BitVec 32,
    printDigits base PRINTBUF x [] = .ok (numeralText base.toNat x.toNat).reverse := fun x =>
    printDigits_spec (by omega) small (by decide)
      (Nat.lt_of_lt_of_le (fits x) (Nat.pow_le_pow_right (by omega) (by decide)))
  unfold printint
  by_cases negative : sgn = true ∧ xx.toInt < 0
  · have isNeg : (sgn && decide (xx.toInt < 0)) = true := by
      rw [negative.1, Bool.true_and, decide_eq_true_iff]
      exact negative.2
    -- also for the least `int`, whose negative wraps to itself
    have magnitude : (-xx).toNat = xx.toInt.natAbs := by
      have range := xx.isLt
      have := negative.2
      rw [BitVec.toInt_eq_toNat_cond] at this ⊢
      rw [BitVec.toNat_neg]
      split at this <;> omega
    have short : (numeralText base.toNat (-xx).toNat).reverse.length < PRINTBUF := by
      rw [List.length_reverse, numeralText, List.length_map]
      exact Nat.lt_of_le_of_lt (length_numeral_le (by omega) (by decide) (fits _)) (by decide)
    rw [if_pos negative, ← magnitude]
    dsimp only
    rw [isNeg, if_pos rfl, run, ok_bind, if_pos rfl, if_pos short, List.reverse_append,
      List.reverse_reverse]
    rfl
  · have isNeg : (sgn && decide (xx.toInt < 0)) = false := by
      rw [Bool.and_eq_false_iff, decide_eq_false_iff_not]
      cases sgn with
      | false => exact .inl rfl
      | true => exact .inr fun less => negative ⟨rfl, less⟩
    rw [if_neg negative]
    dsimp only
    rw [isNeg, if_neg Bool.false_ne_true, run, ok_bind, if_neg Bool.false_ne_true,
      List.reverse_reverse]
    rfl

theorem ptrLoop_spec : ∀ {n : Nat} (x : BitVec 64), n ≤ 16 →
    ptrLoop n x = .ok ((padded 16 n (x.toNat / 16 ^ (16 - n))).map digitChar) := by
  intro n
  induction n with
  | zero => exact fun _ _ => rfl
  | succ n ih =>
    intro x le
    have range : x.toNat < 16 ^ 16 := x.isLt
    have top : (x >>> (64 - 4)).toNat = x.toNat / 16 ^ 15 := by
      rw [BitVec.toNat_ushiftRight, Nat.shiftRight_eq_div_pow]
      rfl
    have first : x.toNat / 16 ^ (16 - (n + 1)) / 16 ^ n % 16 = x.toNat / 16 ^ 15 := by
      rw [Nat.div_div_eq_div_mul, ← Nat.pow_add, show 16 - (n + 1) + n = 15 by omega]
      exact Nat.mod_eq_of_lt (Nat.div_lt_of_lt_mul range)
    -- the shift drops the digit that was printed
    have others : padded 16 n ((x <<< 4).toNat / 16 ^ (16 - n)) =
      padded 16 n (x.toNat / 16 ^ (16 - (n + 1))) := by
      have split : (16 : Nat) ^ (16 - n) = 16 * 16 ^ (16 - (n + 1)) := by
        rw [← Nat.pow_succ', show (16 - (n + 1)).succ = 16 - n by omega]
      have shifted : (x <<< 4).toNat / 16 ^ (16 - n) = x.toNat / 16 ^ (16 - (n + 1)) % 16 ^ n := by
        rw [BitVec.toNat_shiftLeft, Nat.shiftLeft_eq, split, ← Nat.div_div_eq_div_mul,
          show (2 : Nat) ^ 64 = 16 ^ 15 * 2 ^ 4 by decide, Nat.mul_mod_mul_right,
            Nat.mul_div_cancel _ (by decide),
          show (16 : Nat) ^ 15 = 16 ^ (16 - (n + 1)) * 16 ^ n by rw [← Nat.pow_add]; congr 1; omega,
          Nat.mod_mul_right_div_self]
      rw [shifted, padded_mod _ (Nat.le_refl n)]
    have digit : x.toNat / 16 ^ 15 < 16 := Nat.div_lt_of_lt_mul range
    rw [ptrLoop, top, digitAt_eq _ digit, ih _ (by omega), others, padded, first]
    rfl

theorem printptr_spec (x : BitVec 64) : printptr x = .ok (Piece.pointer x).text := by
  unfold printptr
  rw [ptrLoop_spec x (Nat.le_refl 16), Nat.sub_self, Nat.pow_zero, Nat.div_one]
  rfl

/-! ### `vprintf` -/

/-- What `vprintf` prints for a piece: the word of a `%l` is cut to 32 bits. -/
def Piece.printed : Piece → List Byte
  | .unsigned v => numeralText 10 (v.toNat % 2 ^ 32)
  | p => p.text

theorem convert_spec (c : Byte) (ap : List Arg) : convert c ap =
    match conversion c ap with
    | some (p, rest) => .ok (p.printed, rest)
    | none => .error .args := by
  unfold convert conversion
  by_cases d : c = chr 'd'
  · rw [if_pos d, if_pos d]
    cases argInt ap with
    | none => rfl
    | some r =>
      show (do return (← printint r.1 10 true, r.2)) = Except.ok ((Piece.decimal r.1).text, r.2)
      rw [printint_spec (by decide) (by decide), ok_bind]
      by_cases negative : r.1.toInt < 0
      · rw [if_pos ⟨rfl, negative⟩, Piece.text, if_pos negative]
        rfl
      · rw [if_neg fun signed => negative signed.2, Piece.text, if_neg negative,
          toNat_of_nonneg negative]
        rfl
  rw [if_neg d, if_neg d]
  by_cases l : c = chr 'l'
  · rw [if_pos l, if_pos l]
    cases argUint64 ap with
    | none => rfl
    | some r =>
      show (do return (← printint (r.1.setWidth 32) 10 false, r.2)) =
        Except.ok (numeralText 10 (r.1.toNat % 2 ^ 32), r.2)
      rw [printint_spec (by decide) (by decide), if_neg fun signed => Bool.false_ne_true signed.1,
        BitVec.toNat_setWidth]
      rfl
  rw [if_neg l, if_neg l]
  by_cases x : c = chr 'x'
  · rw [if_pos x, if_pos x]
    cases argInt ap with
    | none => rfl
    | some r =>
      show (do return (← printint r.1 16 false, r.2)) = Except.ok (numeralText 16 r.1.toNat, r.2)
      rw [printint_spec (by decide) (by decide), if_neg fun signed => Bool.false_ne_true signed.1]
      rfl
  rw [if_neg x, if_neg x]
  by_cases p : c = chr 'p'
  · rw [if_pos p, if_pos p]
    cases argUint64 ap with
    | none => rfl
    | some r =>
      show (do return (← printptr r.1, r.2)) = Except.ok ((Piece.pointer r.1).text, r.2)
      rw [printptr_spec]
      rfl
  rw [if_neg p, if_neg p]
  by_cases s : c = chr 's'
  · rw [if_pos s, if_pos s]
    cases argString ap <;> rfl
  rw [if_neg s, if_neg s]
  by_cases isC : c = chr 'c'
  · rw [if_pos isC, if_pos isC]
    cases argInt ap <;> rfl
  rw [if_neg isC, if_neg isC]
  by_cases percent : c = chr '%'
  · rw [if_pos percent, if_pos percent, percent]
    rfl
  · rw [if_neg percent, if_neg percent]
    rfl

/-- **`vprintf`** prints the pieces of the format; without them an argument is missing. -/
theorem vprintfLoop_spec : ∀ (fmt : List Byte) (ap : List Arg) (out : List Byte),
    vprintfLoop fmt 0 ap out =
    match pieces fmt ap with
    | some ps => .ok (out ++ ps.flatMap Piece.printed)
    | none => .error .args
  | [], _, out => congrArg Except.ok (List.append_nil out).symm
  | [c], ap, out => by
    rw [vprintfLoop, if_pos rfl, pieces]
    by_cases percent : c = chr '%'
    · rw [if_pos percent, if_pos percent]
      exact congrArg Except.ok (List.append_nil out).symm
    · rw [if_neg percent, if_neg percent]
      rfl
  | c :: d :: fmt, ap, out => by
    rw [vprintfLoop, if_pos rfl, pieces]
    by_cases percent : c = chr '%'
    · rw [if_pos percent, if_pos percent, vprintfLoop, if_neg (by decide), if_pos rfl, convert_spec]
      cases conversion d ap with
      | none => rfl
      | some r =>
        dsimp only
        rw [ok_bind]
        dsimp only
        rw [vprintfLoop_spec fmt r.2 (out ++ r.1.printed), Option.bind_eq_bind, Option.bind_some]
        cases pieces fmt r.2 with
        | none => rfl
        | some ps => exact congrArg Except.ok (List.append_assoc _ _ _)
    · rw [if_neg percent, if_neg percent, vprintfLoop_spec (d :: fmt) ap (out ++ [c])]
      cases pieces (d :: fmt) ap with
      | none => rfl
      | some ps => exact congrArg Except.ok (List.append_assoc _ _ _)

theorem Piece.length_printed_le (p : Piece) : p.printed.length ≤ p.text.length := by
  cases p with
  | unsigned v =>
    show ((numeral 10 _).map digitChar).length ≤ ((numeral 10 _).map digitChar).length
    rw [List.length_map, List.length_map]
    exact length_numeral_mono (by decide) (Nat.mod_le _ _)
  | _ => exact Nat.le_refl _

/-- **The same output, piece by piece**: what is printed for a piece is never longer than what the
format says, so that the same output is made of the same texts. -/
theorem printed_eq_text {ps : List Piece}
    (same : ps.flatMap Piece.printed = ps.flatMap Piece.text) : ∀ p ∈ ps, p.printed = p.text := by
  have shorter : ∀ ps : List Piece,
    (ps.flatMap Piece.printed).length ≤ (ps.flatMap Piece.text).length := by
    intro ps
    rw [List.length_flatMap, List.length_flatMap]
    exact List.sum_le_sum fun p _ => p.length_printed_le
  induction ps with
  | nil => exact nofun
  | cons p ps ih =>
    rw [List.flatMap_cons, List.flatMap_cons] at same
    have total := congrArg List.length same
    rw [List.length_append, List.length_append] at total
    have first := p.length_printed_le
    have rest := shorter ps
    obtain ⟨here, later⟩ := List.append_inj same (by omega)
    intro q member
    rcases List.mem_cons.mp member with rfl | member
    · exact here
    · exact ih later q member

/-- **What is printed**: the literal characters and the conversions, with numerals that read back as
their arguments, exactly if every `%l` argument has 32 bits. The buffer of `printint` is never
overrun. -/
theorem vprintf_prints (fmt : List Byte) (args : List Arg) :
    vprintf fmt args ≠ .error .overrun ∧
    ∀ ps, pieces fmt args = some ps →
      (vprintf fmt args = .ok (ps.flatMap Piece.text) ↔ ∀ v, .unsigned v ∈ ps → v.toNat < 2 ^ 32) ∧
      ∀ p ∈ ps, p.ReadsBack := by
  have law := vprintfLoop_spec fmt args []
  unfold vprintf
  refine ⟨fun overrun => ?_, fun ps isPieces => ⟨?_, fun p _ => p.readsBack⟩⟩
  · rw [law] at overrun
    cases isPieces : pieces fmt args with
    | none | some ps =>
      rw [isPieces] at overrun
      cases overrun
  · rw [law, isPieces]
    refine ⟨fun same v member => ?_, fun small => ?_⟩
    · have here := printed_eq_text (Except.ok.inj same) _ member
      have back := readNumeral_numeralText (b := 10) (by decide) (by decide) (v.toNat % 2 ^ 32)
      rw [show numeralText 10 (v.toNat % 2 ^ 32) = numeralText 10 v.toNat from here,
        readNumeral_numeralText (by decide) (by decide)] at back
      rw [Option.some.inj back]
      exact Nat.mod_lt _ (by decide)
    · refine congrArg Except.ok (List.flatMap_congr fun p member => ?_)
      cases p with
      | unsigned v => exact congrArg (numeralText 10) (Nat.mod_eq_of_lt (small v member))
      | _ => rfl

theorem vprintf_prints_least : vprintf [chr '%', chr 'd'] [.int (BitVec.intMin 32)] =
    .ok (Piece.decimal (BitVec.intMin 32)).text :=
  ((vprintf_prints [chr '%', chr 'd'] [.int (BitVec.intMin 32)]).2
    [.decimal (BitVec.intMin 32)] rfl).1.mpr
    fun v member => by cases List.mem_singleton.mp member

example : vprintf ("%d".toList.map chr) [.int (BitVec.intMin 32)] =
    .ok ("-2147483648".toList.map chr) := by
  decide +kernel

/-- **`%l` is cut to 32 bits**: 2³² is printed as `0`. -/
theorem vprintf_truncates :
    pieces [chr '%', chr 'l'] [.uint64 (2 ^ 32)] = some [.unsigned (2 ^ 32)] ∧
    vprintf [chr '%', chr 'l'] [.uint64 (2 ^ 32)] = .ok [chr '0'] ∧
    (Piece.unsigned (2 ^ 32)).text = "4294967296".toList.map chr := by
  refine ⟨rfl, ?_, ?_⟩
  · decide +kernel
  · decide +kernel

end Xv6.User
