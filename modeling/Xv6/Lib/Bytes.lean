/-
**Byte buffers and the little-endian integers in them.**

A buffer of `n` bytes is a function on `Fin n`. The operations are the ones C code performs on a
`char` array it also reads as an array of structures:

* `Bytes.byte`, `Bytes.setByte`: one byte;
* `Bytes.le16`, `Bytes.setLe16`: an unsigned short at a byte offset;
* `Bytes.le32`, `Bytes.setLe32`: an unsigned int at a byte offset;
* `Bytes.setLe32s`: an array of unsigned ints;
* `Bytes.slice`, `Bytes.splice`: a run of bytes;
* `Bytes.bitClear`, `Bytes.setBit`: one bit of a bit map.

Each write has one lemma that reads it back and one that says what it leaves alone.
-/

import Xv6.Lib.Update

namespace Lib

/-- One byte. -/
abbrev Byte := BitVec 8

/-- A buffer of `n` bytes. -/
abbrev Bytes (n : Nat) := Fin n → Byte

namespace Bytes

variable {n : Nat}

/-- The buffer of zeroes, as `memset` leaves it. -/
def zero : Bytes n := fun _ => 0

/-- The byte at an offset; reads past the end give zero. -/
def byte (b : Bytes n) (i : Nat) : Byte := if h : i < n then b ⟨i, h⟩ else 0

/-- Store a byte; a store past the end does nothing. -/
def setByte (b : Bytes n) (i : Nat) (v : Byte) : Bytes n := fun j => if j.val = i then v else b j

@[simp] theorem byte_zero (i : Nat) : (zero : Bytes n).byte i = 0 := by
  unfold byte zero
  split <;> rfl

variable {i off j k : Nat} {vs : List Nat}

theorem byte_setByte_same (b : Bytes n) (v : Byte) (inside : i < n) :
    (b.setByte i v).byte i = v := by
  simp [byte, setByte, inside]

theorem byte_setByte_ne (b : Bytes n) (v : Byte) (different : j ≠ i) :
    (b.setByte i v).byte j = b.byte j := by
  by_cases inside : j < n
  · simp [byte, setByte, inside, different]
  · simp [byte, inside]

/-! ### Unsigned shorts and ints -/

def le16 (b : Bytes n) (off : Nat) : Nat := (b.byte off).toNat + 256 * (b.byte (off + 1)).toNat

def setLe16 (b : Bytes n) (off v : Nat) : Bytes n :=
  (b.setByte off (BitVec.ofNat 8 v)).setByte (off + 1) (BitVec.ofNat 8 (v / 256))

def le32 (b : Bytes n) (off : Nat) : Nat := b.le16 off + 65536 * b.le16 (off + 2)

def setLe32 (b : Bytes n) (off v : Nat) : Bytes n :=
  (b.setLe16 off v).setLe16 (off + 2) (v / 65536)

@[simp] theorem le16_zero (off : Nat) : (zero : Bytes n).le16 off = 0 := by simp [le16]

@[simp] theorem le32_zero (off : Nat) : (zero : Bytes n).le32 off = 0 := by simp [le32]

theorem byte_setLe16_ne (b : Bytes n) (v : Nat) (apart : i < off ∨ off + 2 ≤ i) :
    (b.setLe16 off v).byte i = b.byte i := by
  unfold setLe16
  rw [byte_setByte_ne _ _ (by omega), byte_setByte_ne _ _ (by omega)]

theorem byte_setLe32_ne (b : Bytes n) (v : Nat) (apart : i < off ∨ off + 4 ≤ i) :
    (b.setLe32 off v).byte i = b.byte i := by
  unfold setLe32
  rw [byte_setLe16_ne _ _ (by omega), byte_setLe16_ne _ _ (by omega)]

theorem le16_setLe16_same (b : Bytes n) (v : Nat) (inside : off + 2 ≤ n) :
    (b.setLe16 off v).le16 off = v % 65536 := by
  unfold le16 setLe16
  rw [byte_setByte_ne _ _ (by omega), byte_setByte_same _ _ (by omega),
    byte_setByte_same _ _ (by omega), BitVec.toNat_ofNat, BitVec.toNat_ofNat]
  omega

theorem le16_setLe16_ne (b : Bytes n) (v : Nat) (apart : i + 2 ≤ off ∨ off + 2 ≤ i) :
    (b.setLe16 off v).le16 i = b.le16 i := by
  unfold le16
  rw [byte_setLe16_ne _ _ (by omega), byte_setLe16_ne _ _ (by omega)]

theorem le16_setLe32_ne (b : Bytes n) (v : Nat) (apart : i + 2 ≤ off ∨ off + 4 ≤ i) :
    (b.setLe32 off v).le16 i = b.le16 i := by
  unfold le16
  rw [byte_setLe32_ne _ _ (by omega), byte_setLe32_ne _ _ (by omega)]

theorem le32_setLe32_same (b : Bytes n) (v : Nat) (inside : off + 4 ≤ n) :
    (b.setLe32 off v).le32 off = v % 4294967296 := by
  unfold le32 setLe32
  rw [le16_setLe16_ne _ _ (by omega), le16_setLe16_same _ _ (by omega),
    le16_setLe16_same _ _ (by omega)]
  omega

theorem le32_setLe32_ne (b : Bytes n) (v : Nat) (apart : i + 4 ≤ off ∨ off + 4 ≤ i) :
    (b.setLe32 off v).le32 i = b.le32 i := by
  unfold le32
  rw [le16_setLe32_ne _ _ (by omega), le16_setLe32_ne _ _ (by omega)]

/-! ### Arrays of unsigned ints -/

/-- Store unsigned ints one after another from a byte offset on. -/
def setLe32s (b : Bytes n) (off : Nat) : List Nat → Bytes n
  | [] => b
  | v :: rest => (b.setLe32 off v).setLe32s (off + 4) rest

theorem le16_setLe32s_ne :
    ∀ (b : Bytes n) {off : Nat}, i + 2 ≤ off ∨ off + 4 * vs.length ≤ i →
      (b.setLe32s off vs).le16 i = b.le16 i := by
  induction vs with
  | nil => exact fun _ _ _ => rfl
  | cons v rest ih =>
    intro b off apart
    rw [List.length_cons] at apart
    rw [setLe32s, ih _ (by omega), le16_setLe32_ne _ _ (by omega)]

theorem le32_setLe32s_ne :
    ∀ (b : Bytes n) {off : Nat}, i + 4 ≤ off ∨ off + 4 * vs.length ≤ i →
      (b.setLe32s off vs).le32 i = b.le32 i := by
  induction vs with
  | nil => exact fun _ _ _ => rfl
  | cons v rest ih =>
    intro b off apart
    rw [List.length_cons] at apart
    rw [setLe32s, ih _ (by omega), le32_setLe32_ne _ _ (by omega)]

theorem le32_setLe32s :
    ∀ (b : Bytes n) {off k : Nat} (inside : k < vs.length), off + 4 * vs.length ≤ n →
      (b.setLe32s off vs).le32 (off + 4 * k) = vs[k] % 4294967296 := by
  induction vs with
  | nil => exact fun _ _ _ inside => absurd inside (Nat.not_lt_zero _)
  | cons v rest ih =>
    intro b off k inside room
    rw [List.length_cons] at room
    rw [setLe32s]
    cases k with
    | zero =>
      rw [le32_setLe32s_ne _ (by omega), Nat.mul_zero, Nat.add_zero,
        le32_setLe32_same _ _ (by omega)]
      rfl
    | succ k =>
      have next : (((b.setLe32 off v).setLe32s (off + 4) rest).le32 (off + 4 + 4 * k)) = _ :=
        ih (b.setLe32 off v) (Nat.lt_of_succ_lt_succ inside) (by omega)
      rw [show off + 4 * (k + 1) = off + 4 + 4 * k by omega, next]
      rfl

/-! ### Runs of bytes -/

def slice (b : Bytes n) (off len : Nat) : List Byte :=
  (List.range len).map fun j => b.byte (off + j)

def splice (b : Bytes n) (off : Nat) (bytes : List Byte) : Bytes n := fun j =>
  if off ≤ j.val then (bytes[j.val - off]?).getD (b j) else b j

theorem byte_splice (b : Bytes n) {bytes : List Byte} (inside : i < n) :
    (b.splice off bytes).byte i = if off ≤ i then (bytes[i - off]?).getD (b.byte i)
      else b.byte i := by
  simp [byte, splice, inside]

/-! ### Bits -/

/-- The bit with a number in the buffer is 0, as `(data[k/8] & (1 << (k%8))) == 0` tests. -/
def bitClear (b : Bytes n) (k : Nat) : Bool := b.byte (k / 8) &&& (1#8 <<< (k % 8)) = 0#8

/-- `data[k/8] |= 1 << (k%8)` -/
def setBit (b : Bytes n) (k : Nat) : Bytes n :=
  b.setByte (k / 8) (b.byte (k / 8) ||| (1#8 <<< (k % 8)))

theorem mask_getLsbD (small : k < 8) (low : j < 8) : (1#8 <<< k).getLsbD j = decide (j = k) := by
  have both : ∀ k < 8, ∀ j < 8, (1#8 <<< k).getLsbD j = decide (j = k) := by decide
  exact both k small j low

theorem bitClear_eq (b : Bytes n) (k : Nat) : b.bitClear k = !(b.byte (k / 8)).getLsbD (k % 8) := by
  have small : k % 8 < 8 := Nat.mod_lt _ (by decide)
  unfold bitClear
  generalize b.byte (k / 8) = x
  cases bit : x.getLsbD (k % 8) with
  | false =>
    refine decide_eq_true (BitVec.eq_of_getLsbD_eq fun j low => ?_)
    rw [BitVec.getLsbD_and, mask_getLsbD small low, BitVec.getLsbD_zero]
    by_cases same : j = k % 8
    · rw [same, bit, Bool.false_and]
    · rw [decide_eq_false same, Bool.and_false]
  | true =>
    refine decide_eq_false fun zero => ?_
    have here := congrArg (fun y => BitVec.getLsbD y (k % 8)) zero
    simp [mask_getLsbD small small, bit] at here

theorem getLsbD_setBit (b : Bytes n) (inside : k < 8 * n) :
    ((b.setBit k).byte (j / 8)).getLsbD (j % 8) =
      ((b.byte (j / 8)).getLsbD (j % 8) || decide (j = k)) := by
  have low : j % 8 < 8 := Nat.mod_lt _ (by decide)
  have small : k % 8 < 8 := Nat.mod_lt _ (by decide)
  unfold setBit
  by_cases same : j / 8 = k / 8
  · rw [same, byte_setByte_same _ _ (by omega), BitVec.getLsbD_or, mask_getLsbD small low]
    congr 1
    exact decide_eq_decide.2 (by omega)
  · rw [byte_setByte_ne _ _ same, decide_eq_false (by omega), Bool.or_false]

theorem bitClear_setBit (b : Bytes n) (inside : k < 8 * n) :
    (b.setBit k).bitClear j = true ↔ b.bitClear j = true ∧ j ≠ k := by
  rw [bitClear_eq, bitClear_eq, getLsbD_setBit _ inside]
  simp

end Bytes

end Lib
