/-
**Tokens of the shell** (`user/sh.c`): `gettoken` and `peek`, and the token sequence of a string.

The memory from the start of the input on is a list of bytes, followed by NULs; the string ends at
the first NUL. A position in it stands for a pointer.

`tokenize` says what the tokens of a string are: the maximal runs of characters that are neither
whitespace nor one of `symbols`, and the symbols. `gettoken_spec` and `peek_spec` say that a cursor
of the parser, which may be before or after whitespace, stands for a tail of that sequence.
-/

import Xv6.Lib.Bytes
import Xv6.Lib.Hoare

namespace Xv6.Sh

open Lib

/-! ### Characters -/

def chr (c : Char) : Byte := BitVec.ofNat 8 c.toNat

def whitespace : List Byte := [chr ' ', chr '\t', chr '\r', chr '\n', 11]

def symbols : List Byte := [chr '<', chr '|', chr '>', chr '&', chr ';', chr '(', chr ')']

/-- `strchr(whitespace, c)` -/
def isSpace (c : Byte) : Bool := whitespace.contains c

def isWord (c : Byte) : Bool := !whitespace.contains c && !symbols.contains c

def deref (buf : List Byte) (s : Nat) : Byte := buf.getD s 0

def str (buf : List Byte) : List Byte := buf.takeWhile (· != 0)

def strlen (buf : List Byte) : Nat := (str buf).length

/-- `while(s < es && p(*s)) s++`, with `n = es - s`. -/
def skipWhile (buf : List Byte) (p : Byte → Bool) : Nat → Nat → Nat
  | 0, s => s
  | n + 1, s => if p (deref buf s) then skipWhile buf p n (s + 1) else s

/-! ### `gettoken` and `peek` -/

/-- The ways in which the parser ends the shell. -/
inductive ShPanic
  /-- `panic("syntax")` -/
  | syntaxError
  /-- `panic("missing file for redirection")` -/
  | missingFile
  /-- `panic("parseblock")` -/
  | parseblock
  /-- `panic("syntax - missing )")` -/
  | missingParen
  /-- `panic("too many args")` -/
  | tooManyArgs
  deriving DecidableEq

/-- Why a parsing function does not return. -/
inductive ParseStop
  | panic (e : ShPanic)
  /-- the bound on the number of calls was too small -/
  | fuel
  deriving DecidableEq

/-- Parsing functions: the state is the cursor `*ps`. -/
abbrev ParseM (A : Type) := Prog Nat ParseStop A

/-- What `gettoken` returns: its value, `*q` and `*eq`. -/
structure Got where
  ret : Byte
  q : Nat
  eq : Nat
  deriving DecidableEq

/-- The token at `q`, from its kind on: the value that is returned, and where the token ends. -/
def tokenAt (buf : List Byte) (es q : Nat) : Byte × Nat :=
  let c := deref buf q
  if c = 0 then (c, q)
  else if c = chr '|' ∨ c = chr '(' ∨ c = chr ')' ∨ c = chr ';' ∨ c = chr '&' ∨ c = chr '<' then
    (c, q + 1)
  else if c = chr '>' then
    if deref buf (q + 1) = chr '>' then (chr '+', q + 2) else (c, q + 1)
  else (chr 'a', skipWhile buf isWord (es - q) q)

def gettoken (buf : List Byte) (es : Nat) : ParseM Got := fun s =>
  let q := skipWhile buf isSpace (es - s) s
  let (ret, eq) := tokenAt buf es q
  .ok (⟨ret, q, eq⟩, skipWhile buf isSpace (es - eq) eq)

def peek (buf : List Byte) (es : Nat) (toks : List Byte) : ParseM Bool := fun s =>
  let s := skipWhile buf isSpace (es - s) s
  .ok (deref buf s != 0 && toks.contains (deref buf s), s)

/-! ### The token sequence -/

inductive Sym
  | lt
  | gt
  | gtgt
  | bar
  | amp
  | semi
  | lpar
  | rpar
  deriving DecidableEq

/-- A token; a word with its first position and the position after it. -/
inductive Tok
  | sym (y : Sym)
  | word (q eq : Nat)
  deriving DecidableEq

def Sym.char : Sym → Byte
  | .lt => chr '<'
  | .gt | .gtgt => chr '>'
  | .bar => chr '|'
  | .amp => chr '&'
  | .semi => chr ';'
  | .lpar => chr '('
  | .rpar => chr ')'

/-- The value that `gettoken` returns for a symbol. -/
def Sym.code : Sym → Byte
  | .gtgt => chr '+'
  | y => y.char

/-- The symbols of one character, other than `>`. -/
def symbolOf (c : Byte) : Option Sym :=
  if c = chr '<' then some .lt
  else if c = chr '|' then some .bar
  else if c = chr '&' then some .amp
  else if c = chr ';' then some .semi
  else if c = chr '(' then some .lpar
  else if c = chr ')' then some .rpar
  else none

/-- **The tokens of a string** that starts at position `i`. -/
def tokenize (i : Nat) : List Byte → List Tok
  | [] => []
  | c :: cs =>
    if isSpace c then tokenize (i + 1) cs
    else if c = chr '>' then
      if cs.head? = some (chr '>') then .sym .gtgt :: tokenize (i + 2) cs.tail
      else .sym .gt :: tokenize (i + 1) cs
    else match symbolOf c with
      | some y => .sym y :: tokenize (i + 1) cs
      | none =>
        .word i (i + 1 + (cs.takeWhile isWord).length) ::
          tokenize (i + 1 + (cs.takeWhile isWord).length) (cs.dropWhile isWord)
termination_by cs => cs.length
decreasing_by
  · simp
  · simp only [List.length_cons, List.length_tail]
    omega
  · simp
  · simp
  · have shorter := (List.dropWhile_suffix isWord (l := cs)).length_le
    simp only [List.length_cons]
    omega

/-! ### Cursors -/

/-- The part of the string from a cursor on. -/
def rest (buf : List Byte) (s : Nat) : List Byte := (str buf).drop s

def At (buf : List Byte) (ts : List Tok) (s : Nat) : Prop :=
  s ≤ strlen buf ∧ tokenize s (rest buf s) = ts

variable {buf : List Byte} {s i : Nat} {p : Byte → Bool} {c : Byte} {cs : List Byte} {ts : List Tok}

theorem str_append (buf : List Byte) : str buf ++ buf.dropWhile (· != 0) = buf :=
  List.takeWhile_append_dropWhile

theorem deref_of_rest_nil (inside : s ≤ strlen buf) (ended : rest buf s = []) :
    deref buf s = 0 := by
  have atEnd : (str buf).length = s := Nat.le_antisymm (List.drop_eq_nil_iff.mp ended) inside
  have read : deref buf s = (buf.dropWhile (· != 0)).getD 0 0 := by
    unfold deref
    rw [← str_append buf, List.getD_append_right _ _ _ _ atEnd.le, atEnd, Nat.sub_self, str_append]
  rw [read]
  have stop := List.head?_dropWhile_not (· != (0 : Byte)) buf
  revert stop
  cases buf.dropWhile (· != 0) with
  | nil => exact fun _ => rfl
  | cons c cs =>
    intro stop
    simpa using stop

theorem deref_of_rest_cons (more : rest buf s = c :: cs) :
    deref buf s = c ∧ c ≠ 0 ∧ rest buf (s + 1) = cs ∧ s < strlen buf := by
  have inside : s < (str buf).length := by
    by_contra past
    rw [rest, List.drop_eq_nil_of_le (Nat.not_lt.mp past)] at more
    cases more
  rw [rest, List.drop_eq_getElem_cons inside] at more
  obtain ⟨rfl, rfl⟩ := List.cons.inj more
  refine ⟨?_, ?_, rfl, inside⟩
  · have read : (str buf ++ buf.dropWhile (· != 0)).getD s 0 = (str buf).getD s 0 :=
      List.getD_append _ _ _ _ inside
    rw [str_append, List.getD_eq_getElem _ _ inside] at read
    exact read
  · have nonzero := List.mem_takeWhile_imp (List.getElem_mem inside)
    simpa using nonzero

/-- A loop that skips characters stops at the first that it does not skip, or at the end. -/
theorem skipWhile_eq (inside : s ≤ strlen buf) :
    skipWhile buf p (strlen buf - s) s = s + ((rest buf s).takeWhile p).length := by
  induction left : strlen buf - s generalizing s with
  | zero =>
    have ended : rest buf s = [] := List.drop_eq_nil_iff.mpr (by unfold strlen at left; omega)
    rw [skipWhile, ended, List.takeWhile_nil, List.length_nil, Nat.add_zero]
  | succ n ih =>
    obtain ⟨c, cs, more⟩ : ∃ c cs, rest buf s = c :: cs := by
      cases tail : rest buf s with
      | nil =>
        have short := List.drop_eq_nil_iff.mp tail
        unfold strlen at left
        omega
      | cons c cs => exact ⟨c, cs, rfl⟩
    obtain ⟨here, -, after, -⟩ := deref_of_rest_cons more
    rw [skipWhile, here, more, List.takeWhile_cons]
    split
    · rw [ih (by omega) (by omega), after, List.length_cons]
      omega
    · rfl

theorem rest_skip :
    rest buf (s + ((rest buf s).takeWhile p).length) = (rest buf s).dropWhile p := by
  unfold rest
  rw [← List.drop_drop]
  nth_rewrite 2 [← List.takeWhile_append_dropWhile (p := p) (l := (str buf).drop s)]
  exact List.drop_left' rfl

theorem skip_le (inside : s ≤ strlen buf) : s + ((rest buf s).takeWhile p).length ≤ strlen buf := by
  have shorter := (List.takeWhile_prefix p (l := rest buf s)).length_le
  rw [rest, List.length_drop] at shorter
  unfold strlen at inside ⊢
  rw [rest]
  omega

theorem tokenize_space (space : isSpace c = true) : tokenize i (c :: cs) = tokenize (i + 1) cs := by
  rw [tokenize, if_pos space]

theorem tokenize_skip (l : List Byte) :
    tokenize (i + (l.takeWhile isSpace).length) (l.dropWhile isSpace) = tokenize i l := by
  induction l generalizing i with
  | nil => simp
  | cons c cs ih =>
    rw [List.takeWhile_cons, List.dropWhile_cons]
    split
    · rename_i space
      rw [tokenize_space space, ← ih, List.length_cons]
      congr 1
      omega
    · rfl

theorem At.skip (here : At buf ts s) : At buf ts (skipWhile buf isSpace (strlen buf - s) s) := by
  obtain ⟨inside, tokens⟩ := here
  rw [skipWhile_eq inside]
  refine ⟨skip_le inside, ?_⟩
  rw [rest_skip, tokenize_skip]
  exact tokens

/-- After whitespace is skipped, the rest is empty or starts with the first token. -/
theorem rest_skipSpace (inside : s ≤ strlen buf) :
    rest buf (skipWhile buf isSpace (strlen buf - s) s) = [] ∨
      ∃ c cs, rest buf (skipWhile buf isSpace (strlen buf - s) s) = c :: cs ∧
        isSpace c = false := by
  rw [skipWhile_eq inside, rest_skip]
  have stop := List.head?_dropWhile_not isSpace (rest buf s)
  revert stop
  cases (rest buf s).dropWhile isSpace with
  | nil => exact fun _ => .inl rfl
  | cons c cs => exact fun stop => .inr ⟨c, cs, rfl, stop⟩

/-! ### What the parser sees -/

/-- What `peek` answers at a token sequence. -/
def peekTok (toks : List Byte) : List Tok → Bool
  | .sym y :: _ => toks.contains y.char
  | _ => false

/-- What `gettoken` returns at a token sequence. -/
def GotTok (got : Got) : List Tok → Prop
  | [] => got.ret = 0
  | .sym y :: _ => got.ret = y.code
  | .word q eq :: _ => got = ⟨chr 'a', q, eq⟩

theorem char_of_symbolOf {y : Sym} (is : symbolOf c = some y) : y.char = c ∧ y.code = c := by
  unfold symbolOf at is
  split_ifs at is with isLt isBar isAmp isSemi isLpar isRpar
  all_goals
    cases is
    subst c
    exact ⟨rfl, rfl⟩

theorem not_mem_symbols (notGt : c ≠ chr '>') (none : symbolOf c = none) : c ∉ symbols := by
  intro member
  simp only [symbols, List.mem_cons, List.not_mem_nil, or_false] at member
  obtain rfl | rfl | rfl | rfl | rfl | rfl | rfl := member
  all_goals first | exact absurd rfl notGt | exact absurd none (by decide)

theorem isWord_of_symbolOf (space : isSpace c = false) (notGt : c ≠ chr '>')
    (none : symbolOf c = none) : isWord c = true := by
  have notSymbol := not_mem_symbols notGt none
  have notSpace : c ∉ whitespace := by simpa [isSpace] using space
  simp [isWord, notSpace, notSymbol]

theorem single_iff :
    (c = chr '|' ∨ c = chr '(' ∨ c = chr ')' ∨ c = chr ';' ∨ c = chr '&' ∨ c = chr '<') ↔
      ∃ y, symbolOf c = some y := by
  constructor
  · rintro (rfl | rfl | rfl | rfl | rfl | rfl)
    all_goals exact ⟨_, rfl⟩
  · rintro ⟨y, is⟩
    obtain ⟨rfl, -⟩ := char_of_symbolOf is
    revert is
    cases y <;> decide

theorem tokenize_cons (space : isSpace c = false) : tokenize i (c :: cs) = if c = chr '>' then
        if cs.head? = some (chr '>') then .sym .gtgt :: tokenize (i + 2) cs.tail
        else .sym .gt :: tokenize (i + 1) cs
      else match symbolOf c with
        | some y => .sym y :: tokenize (i + 1) cs
        | none =>
          .word i (i + 1 + (cs.takeWhile isWord).length) ::
            tokenize (i + 1 + (cs.takeWhile isWord).length) (cs.dropWhile isWord) := by
  rw [tokenize, if_neg (by rw [space]; nofun)]

theorem peek_spec {toks : List Byte} (areSymbols : ∀ c ∈ toks, c ∈ symbols)
    {fails : ParseStop → Prop} :
    Triple (At buf ts) (peek buf (strlen buf) toks) (fun seen s => seen = peekTok toks ts ∧
      At buf ts s) fails := by
  intro s here
  have after := here.skip
  refine ⟨?_, after⟩
  obtain ⟨inside, tokens⟩ := after
  obtain ended | ⟨c, cs, more, space⟩ := rest_skipSpace here.1
  · rw [ended, tokenize] at tokens
    rw [deref_of_rest_nil inside ended, ← tokens]
    rfl
  · obtain ⟨read, nonzero, -, -⟩ := deref_of_rest_cons more
    rw [read, bne_iff_ne.mpr nonzero, Bool.true_and, ← tokens, more, tokenize_cons space]
    split
    · rename_i isGt
      subst isGt
      split <;> rfl
    · rename_i notGt
      cases is : symbolOf c with
      | some y =>
        show _ = toks.contains y.char
        rw [(char_of_symbolOf is).1]
      | none =>
        show _ = false
        rw [List.contains_eq_mem, decide_eq_false_iff_not]
        exact fun member => not_mem_symbols notGt is (areSymbols c member)

theorem deref_eq_gt_iff {q : Nat} (inside : q < strlen buf) :
    deref buf (q + 1) = chr '>' ↔ (rest buf (q + 1)).head? = some (chr '>') := by
  cases tail : rest buf (q + 1) with
  | nil =>
    rw [deref_of_rest_nil inside tail]
    decide
  | cons d ds =>
    rw [(deref_of_rest_cons tail).1, List.head?_cons, Option.some_inj]

theorem tokenAt_spec {q : Nat} (here : At buf ts q)
    (start : rest buf q = [] ∨ ∃ c cs, rest buf q = c :: cs ∧ isSpace c = false) :
    GotTok ⟨(tokenAt buf (strlen buf) q).1, q, (tokenAt buf (strlen buf) q).2⟩ ts ∧
      At buf ts.tail (tokenAt buf (strlen buf) q).2 := by
  obtain ⟨inside, tokens⟩ := here
  obtain ended | ⟨c, cs, more, space⟩ := start
  · have none : ts = [] := by rw [← tokens, ended, tokenize]
    have atEnd : tokenAt buf (strlen buf) q = (0, q) := by
      simp only [tokenAt, deref_of_rest_nil inside ended, if_pos]
    rw [atEnd, none]
    exact ⟨rfl, inside, by rw [ended, tokenize]; rfl⟩
  · obtain ⟨read, nonzero, after, before⟩ := deref_of_rest_cons more
    rw [more, tokenize_cons space] at tokens
    by_cases isGt : c = chr '>'
    · rw [if_pos isGt] at tokens
      have notSingle : ¬ (c = chr '|' ∨ c = chr '(' ∨ c = chr ')' ∨ c = chr ';' ∨ c = chr '&' ∨
          c = chr '<') := by
        rw [isGt]
        decide
      have double := deref_eq_gt_iff before
      rw [after] at double
      split at tokens
      · rename_i twice
        have found : tokenAt buf (strlen buf) q = (chr '+', q + 2) := by
          simp only [tokenAt, read, if_neg nonzero, if_neg notSingle, if_pos isGt,
            if_pos (double.mpr twice)]
        obtain ⟨ds, rfl⟩ := List.head?_eq_some_iff.mp twice
        obtain ⟨-, -, later, room⟩ := deref_of_rest_cons after
        rw [found, ← tokens]
        exact ⟨rfl, room, by rw [later]; rfl⟩
      · rename_i once
        have found : tokenAt buf (strlen buf) q = (c, q + 1) := by
          simp only [tokenAt, read, if_neg nonzero, if_neg notSingle, if_pos isGt,
            if_neg (double.not.mpr once)]
        rw [found, ← tokens]
        exact ⟨isGt, before, by rw [after]; rfl⟩
    · rw [if_neg isGt] at tokens
      cases is : symbolOf c with
      | some y =>
        have found : tokenAt buf (strlen buf) q = (c, q + 1) := by
          simp only [tokenAt, read, if_neg nonzero, if_pos (single_iff.mpr ⟨y, is⟩)]
        rw [is] at tokens
        rw [found, ← tokens]
        exact ⟨(char_of_symbolOf is).2.symm, before, by rw [after]; rfl⟩
      | none =>
        have notSingle := single_iff.not.mpr (by rw [is]; nofun)
        have isW := isWord_of_symbolOf space isGt is
        have found : tokenAt buf (strlen buf) q =
            (chr 'a', q + ((rest buf q).takeWhile isWord).length) := by
          simp only [tokenAt, read, if_neg nonzero, if_neg notSingle, if_neg isGt,
            skipWhile_eq inside]
        have skipped : rest buf (q + ((rest buf q).takeWhile isWord).length) =
            (rest buf q).dropWhile isWord := rest_skip
        have bound := skip_le (p := isWord) inside
        rw [more, List.takeWhile_cons, if_pos isW, List.length_cons, ← Nat.add_assoc,
          Nat.add_right_comm] at found skipped bound
        rw [List.dropWhile_cons, if_pos isW] at skipped
        rw [is] at tokens
        rw [found, ← tokens]
        exact ⟨rfl, bound, by rw [skipped]; rfl⟩

theorem gettoken_spec {fails : ParseStop → Prop} :
    Triple (At buf ts) (gettoken buf (strlen buf)) (fun got s => GotTok got ts ∧
      At buf ts.tail s) fails := by
  intro s here
  obtain ⟨got, after⟩ := tokenAt_spec here.skip (rest_skipSpace here.1)
  exact ⟨got, after.skip⟩

/-! ### Words -/

structure IsRun (l : List Byte) (q eq : Nat) : Prop where
  nonempty : q < eq
  inside : eq ≤ l.length
  word : ∀ k, q ≤ k → k < eq → isWord (l.getD k 0) = true
  stop : eq < l.length → isWord (l.getD eq 0) = false

theorem IsRun.append {l : List Byte} {q eq : Nat} (run : IsRun l q eq) (front : List Byte) :
    IsRun (front ++ l) (front.length + q) (front.length + eq) where
  nonempty := by have := run.nonempty; omega
  inside := by
    rw [List.length_append]
    exact Nat.add_le_add_left run.inside _
  word k low high := by
    rw [List.getD_append_right _ _ _ _ (by omega)]
    exact run.word _ (by omega) (by omega)
  stop inside := by
    rw [List.length_append] at inside
    rw [List.getD_append_right _ _ _ _ (by omega), Nat.add_sub_cancel_left]
    exact run.stop (by omega)

theorem isRun_takeWhile (isW : isWord c = true) (cs : List Byte) :
    IsRun (c :: cs) 0 (1 + (cs.takeWhile isWord).length) := by
  have whole : c :: cs = (c :: cs.takeWhile isWord) ++ cs.dropWhile isWord := by
    rw [List.cons_append, List.takeWhile_append_dropWhile]
  have length : (c :: cs.takeWhile isWord).length = 1 + (cs.takeWhile isWord).length := by
    rw [List.length_cons, Nat.add_comm]
  refine ⟨by omega, ?_, fun k _ small => ?_, fun more => ?_⟩
  · rw [whole, List.length_append, length]
    omega
  · rw [whole, List.getD_append _ _ _ _ (by omega), List.getD_eq_getElem _ _ (by omega)]
    have member := List.getElem_mem (show k < (c :: cs.takeWhile isWord).length by omega)
    obtain same | later := List.mem_cons.mp member
    · rw [same]
      exact isW
    · exact List.mem_takeWhile_imp later
  · rw [whole, List.getD_append_right _ _ _ _ (by omega), length, Nat.sub_self]
    have stop := List.head?_dropWhile_not isWord cs
    rw [whole, List.length_append, length] at more
    revert stop more
    cases cs.dropWhile isWord with
    | nil =>
      intro more
      simp at more
    | cons d ds => exact fun _ stop => stop

/-- **The word tokens are the maximal runs of word characters.** -/
theorem isRun_of_mem (front l : List Byte) {q eq : Nat}
    (member : .word q eq ∈ tokenize front.length l) : IsRun (front ++ l) q eq := by
  induction size : l.length using Nat.strong_induction_on generalizing front l with
  | _ n ih =>
    -- a token that stands further back, after the characters `gone`
    have later : ∀ gone rest : List Byte, l = gone ++ rest → gone ≠ [] →
        .word q eq ∈ tokenize (front.length + gone.length) rest → IsRun (front ++ l) q eq := by
      intro gone rest split nonempty member
      have shorter : rest.length < n := by
        rw [← size, split, List.length_append]
        have := List.length_pos_iff.mpr nonempty
        omega
      rw [split, ← List.append_assoc]
      exact ih rest.length shorter (front ++ gone) rest (by rwa [List.length_append]) rfl
    have behind : ∀ {y ts}, Tok.word q eq ∈ Tok.sym y :: ts → Tok.word q eq ∈ ts :=
      fun member => (List.mem_cons.mp member).resolve_left nofun
    cases l with
    | nil =>
      rw [tokenize] at member
      cases member
    | cons c cs =>
      by_cases space : isSpace c = true
      · rw [tokenize_space space] at member
        exact later [c] cs rfl nofun member
      · rw [tokenize_cons (Bool.not_eq_true _ ▸ space)] at member
        split at member
        · split at member
          · rename_i twice
            obtain ⟨ds, rfl⟩ := List.head?_eq_some_iff.mp twice
            exact later [c, chr '>'] ds rfl nofun (behind member)
          · exact later [c] cs rfl nofun (behind member)
        · rename_i notGt
          cases is : symbolOf c with
          | some y =>
            rw [is] at member
            exact later [c] cs rfl nofun (behind member)
          | none =>
            rw [is] at member
            obtain first | further := List.mem_cons.mp member
            · cases first
              have isW := isWord_of_symbolOf (Bool.not_eq_true _ ▸ space) notGt is
              have run := (isRun_takeWhile isW cs).append front
              rwa [Nat.add_zero, ← Nat.add_assoc] at run
            · refine later (c :: cs.takeWhile isWord) (cs.dropWhile isWord) ?_ nofun ?_
              · rw [List.cons_append, List.takeWhile_append_dropWhile]
              · rwa [List.length_cons, Nat.add_comm _ 1, ← Nat.add_assoc]

end Xv6.Sh
