/-
**`parsecmd` implements the shell's grammar.**

* `parse_sound` and `parse_complete` put the two halves of `Xv6.Sh.Grammar` together for a whole
  string: its tokens are at most as many as its characters, so the bound on calls is enough, and the
  cursor is at the end exactly if no token is left.
* `deref_nulterminate` says what `nulterminate` writes: a NUL after every word of the tree. That
  position is in no other word, because words are maximal runs (`isRun_of_mem`).
-/

import Xv6.Sh.Grammar

namespace Xv6.Sh

open Lib

def tokens (buf : List Byte) : List Tok := tokenize 0 (str buf)

theorem length_tokenize_le (i : Nat) (l : List Byte) : (tokenize i l).length ≤ l.length := by
  induction size : l.length using Nat.strong_induction_on generalizing i l with
  | _ n ih =>
    cases l with
    | nil =>
      rw [tokenize]
      exact Nat.zero_le _
    | cons c cs =>
      rw [List.length_cons] at size
      have rest : ∀ j, (tokenize j cs).length ≤ cs.length :=
        fun j => ih cs.length (by omega) j cs rfl
      by_cases space : isSpace c = true
      · rw [tokenize_space space]
        exact (rest _).trans (by omega)
      · rw [tokenize_cons (Bool.not_eq_true _ ▸ space)]
        split
        · split
          · have tail := ih cs.tail.length (by rw [List.length_tail]; omega) (i + 2) cs.tail rfl
            rw [List.length_tail] at tail
            rw [List.length_cons]
            omega
          · have tail := rest (i + 1)
            rw [List.length_cons]
            omega
        · split
          · have tail := rest (i + 1)
            rw [List.length_cons]
            omega
          · have shorter := (List.dropWhile_suffix isWord (l := cs)).length_le
            have tail := ih (cs.dropWhile isWord).length (by omega)
              (i + 1 + (cs.takeWhile isWord).length) (cs.dropWhile isWord) rfl
            rw [List.length_cons]
            omega

theorem at_start (buf : List Byte) : At buf (tokens buf) 0 := ⟨Nat.zero_le _, rfl⟩

theorem tokenize_ne_nil {i : Nat} {c : Byte} {cs : List Byte} (space : isSpace c = false) :
    tokenize i (c :: cs) ≠ [] := by
  rw [tokenize_cons space]
  split
  · split <;> simp
  · split <;> simp

section Whole

variable {buf : List Byte} {ts : List Tok} {fails : ParseStop → Prop}

/-- After whitespace is skipped, the cursor is at the end exactly if no token is left. -/
theorem peek_end :
    Triple (At buf ts) (peek buf (strlen buf) []) (fun _ s => s = strlen buf ↔ ts = []) fails := by
  intro s here
  show skipWhile buf isSpace (strlen buf - s) s = strlen buf ↔ ts = []
  obtain ⟨inside, same⟩ := here.skip
  obtain ended | ⟨c, cs, more, space⟩ := rest_skipSpace here.1
  · have atEnd : skipWhile buf isSpace (strlen buf - s) s = strlen buf :=
      Nat.le_antisymm inside (List.drop_eq_nil_iff.mp ended)
    rw [ended, tokenize] at same
    exact iff_of_true atEnd same.symm
  · have before := (deref_of_rest_cons more).2.2.2
    rw [more] at same
    exact iff_of_false (by omega) (same ▸ tokenize_ne_nil space)

theorem leftovers {cmd : Cmd} {post : Cmd → Nat → Prop} (none : ts = [] → ∀ s, post cmd s)
    (some : ts ≠ [] → fails (.panic .syntaxError)) : Triple (At buf ts) (do
      let _ ← peek buf (strlen buf) []
      let s ← get
      if s ≠ strlen buf then throw (.panic .syntaxError) else return cmd : ParseM Cmd) post
        fails := by
  refine peek_end.bind fun _ => Triple.get_bind fun s atEnd => ?_
  refine Triple.ite (fun early => Triple.throw fun _ _ => ?_) fun ended => Triple.pure fun t _ => ?_
  · exact some fun isNil => early (atEnd.mpr isNil)
  · exact none (atEnd.mp (not_not.mp ended)) t

theorem enough_calls (buf : List Byte) : 4 * (tokens buf).length + 4 ≤ 4 * strlen buf + 4 := by
  have few : (tokens buf).length ≤ strlen buf := length_tokenize_le 0 (str buf)
  omega

theorem parse_sound (buf : List Byte) :
    Triple (At buf (tokens buf)) (parsetree buf)
      (fun c _ => Derives .line (tokens buf) c) Panics := by
  refine read_bind ((sound _).1 _ (enough_calls buf)) fun c us vs split derives => ?_
  refine leftovers (fun isNil _ => ?_) fun _ => nofun
  rwa [split, isNil, List.append_nil]

theorem parse_complete {c : Cmd} (derives : Derives .line (tokens buf) c) :
    Triple (At buf (tokens buf)) (parsetree buf) (fun c' _ => c' = c) fun _ => False := by
  have whole : Triple (At buf (tokens buf ++ [])) (Nonterminal.line.parse buf (4 * strlen buf + 4))
      (Returns buf [] c) fun _ => False := complete derives (.inl rfl) (enough_calls buf)
  rw [List.append_nil] at whole
  refine whole.bind fun c' => Triple.of_fact fun isC => leftovers (fun _ _ => isC)
    fun some => some rfl

end Whole

/-! ### `nulterminate` -/

/-- The words of a tree: where they start and end. -/
def Cmd.words : Cmd → List (Nat × Nat)
  | .exec argv => argv
  | .redir cmd file efile _ _ => cmd.words ++ [(file, efile)]
  | .pipe left right | .list left right => left.words ++ right.words
  | .back cmd => cmd.words

theorem words_wrap (rs : List Redir) (c : Cmd) :
    (wrap rs c).words = c.words ++ rs.map Redir.file := by
  induction rs generalizing c with
  | nil => simp [wrap]
  | cons r rs ih =>
    show (wrap rs _).words = _
    rw [ih]
    simp [Cmd.words]

theorem words_backs (k : Nat) (c : Cmd) : (Cmd.back^[k] c).words = c.words := by
  induction k generalizing c with
  | zero => rfl
  | succ k ih => exact ih (.back c)

variable {w : Nat × Nat} {ts : List Tok} {rs : List Redir} {c : Cmd} {k : Nat}

theorem Redirs.mem_file (redirs : Redirs ts rs) (member : w ∈ rs.map Redir.file) :
    .word w.1 w.2 ∈ ts := by
  induction redirs with
  | nil => cases member
  | cons op v _ ih =>
    obtain rfl | later := List.mem_cons.mp member
    · exact List.mem_cons_of_mem _ (List.mem_cons_self ..)
    · exact List.mem_cons_of_mem _ (List.mem_cons_of_mem _ (ih later))

theorem Args.mem_word {ws : List (Nat × Nat)} (args : Args ts ws rs)
    (member : w ∈ ws ++ rs.map Redir.file) : .word w.1 w.2 ∈ ts := by
  induction args with
  | nil => cases member
  | cons v redirs _ ih =>
    simp only [List.map_append, List.cons_append, List.mem_cons, List.mem_append] at member ih ⊢
    obtain rfl | isWord | isHere | isLater := member
    · exact .inl rfl
    · exact .inr (.inr (ih (.inl isWord)))
    · exact .inr (.inl (redirs.mem_file isHere))
    · exact .inr (.inr (ih (.inr isLater)))

theorem Derives.mem_words {nt : Nonterminal} (derives : Derives nt ts c) (member : w ∈ c.words) :
    .word w.1 w.2 ∈ ts := by
  induction derives with
  | line k _ ih =>
    rw [words_backs] at member
    exact List.mem_append_left _ (ih member)
  | list k _ _ ih ih' =>
    simp only [Cmd.words, words_backs, List.mem_append] at member
    obtain left | right := member
    · exact List.mem_append_left _ (ih left)
    · exact List.mem_append_right _ (List.mem_append_right _ (List.mem_cons_of_mem _ (ih' right)))
  | exec _ ih => exact ih member
  | pipe _ _ ih ih' =>
    obtain left | right := List.mem_append.mp member
    · exact List.mem_append_left _ (ih left)
    · exact List.mem_append_right _ (List.mem_cons_of_mem _ (ih' right))
  | block _ redirs ih =>
    rw [words_wrap] at member
    refine List.mem_cons_of_mem _ ?_
    obtain inner | file := List.mem_append.mp member
    · exact List.mem_append_left _ (ih inner)
    · exact List.mem_append_right _ (List.mem_cons_of_mem _ (redirs.mem_file file))
  | words redirs args _ =>
    rw [words_wrap] at member
    simp only [Cmd.words, List.map_append, List.mem_append] at member
    obtain word | here | later := member
    · exact List.mem_append_right _ (args.mem_word (List.mem_append_left _ word))
    · exact List.mem_append_left _ (redirs.mem_file here)
    · exact List.mem_append_right _ (args.mem_word (List.mem_append_right _ later))

theorem deref_set (mem : List Byte) (e k : Nat) :
    deref (mem.set e 0) k = if k = e then 0 else deref mem k := by
  unfold deref
  rw [List.getD_eq_getElem?_getD, List.getD_eq_getElem?_getD, List.getElem?_set]
  by_cases same : k = e
  · subst same
    rw [if_pos rfl, if_pos rfl]
    split <;> rfl
  · rw [if_neg same, if_neg (Ne.symm same)]

theorem deref_foldl_set (argv : List (Nat × Nat)) (mem : List Byte) (k : Nat) :
    deref (argv.foldl (fun mem arg => mem.set arg.2 0) mem) k = if k ∈ argv.map Prod.snd then 0
      else deref mem k := by
  induction argv generalizing mem with
  | nil => rfl
  | cons arg argv ih =>
    rw [List.foldl_cons, ih, deref_set, List.map_cons]
    by_cases later : k ∈ argv.map Prod.snd
    · rw [if_pos later, if_pos (List.mem_cons_of_mem _ later)]
    · rw [if_neg later]
      exact if_congr (by simp only [List.mem_cons, later, or_false]) rfl rfl

theorem if_mem_append {first second : List Nat} {x : Byte} :
    (if k ∈ second then 0 else if k ∈ first then 0 else x) = if k ∈ first ++ second then 0
      else x := by
  by_cases early : k ∈ first
  · rw [if_pos early, if_pos (List.mem_append_left _ early), ite_self]
  · rw [if_neg early]
    exact if_congr (by simp only [List.mem_append, early, false_or]) rfl rfl

/-- **What `nulterminate` writes**: a NUL at the end of every word. -/
theorem deref_nulterminate (c : Cmd) (mem : List Byte) (k : Nat) :
    deref (nulterminate c mem) k = if k ∈ c.words.map Prod.snd then 0 else deref mem k := by
  induction c generalizing mem with
  | exec argv => exact deref_foldl_set argv mem k
  | redir cmd file efile mode fd ih =>
    rw [nulterminate, deref_set, ih, Cmd.words, List.map_append, ← if_mem_append]
    exact if_congr (by simp) rfl rfl
  | pipe left right ih ih' | list left right ih ih' =>
    rw [nulterminate, ih', ih, Cmd.words, List.map_append, if_mem_append]
  | back cmd ih => exact ih mem

theorem str_eq {mem text : List Byte} (same : ∀ k < text.length, deref mem k = deref text k)
    (nonzero : ∀ k < text.length, deref text k ≠ 0) (stop : deref mem text.length = 0) :
    str mem = text := by
  induction text generalizing mem with
  | nil =>
    cases mem with
    | nil => rfl
    | cons c cs =>
      have isNul : c = 0 := stop
      rw [isNul]
      rfl
  | cons c cs ih =>
    have first : deref mem 0 = c := same 0 (Nat.zero_lt_succ _)
    have isChar : c ≠ 0 := nonzero 0 (Nat.zero_lt_succ _)
    cases mem with
    | nil => exact absurd first.symm isChar
    | cons d ds =>
      have isC : d = c := first
      subst isC
      have rest : str ds = cs := ih (fun k small => same (k + 1) (Nat.succ_lt_succ small))
          (fun k small => nonzero (k + 1) (Nat.succ_lt_succ small)) stop
      rw [str, List.takeWhile_cons, if_pos (bne_iff_ne.mpr isChar)]
      exact congrArg _ rest

def text (buf : List Byte) (w : Nat × Nat) : List Byte := ((str buf).drop w.1).take (w.2 - w.1)

theorem deref_drop (l : List Byte) (q k : Nat) : deref (l.drop q) k = deref l (q + k) := by
  unfold deref
  rw [List.getD_eq_getElem?_getD, List.getD_eq_getElem?_getD, List.getElem?_drop]

theorem deref_str {buf : List Byte} (inside : k < (str buf).length) :
    deref buf k = deref (str buf) k ∧ deref (str buf) k ≠ 0 := by
  have more : rest buf k = (str buf)[k] :: (str buf).drop (k + 1) :=
    List.drop_eq_getElem_cons inside
  obtain ⟨read, nonzero, -, -⟩ := deref_of_rest_cons more
  have same : deref (str buf) k = (str buf)[k] := List.getD_eq_getElem _ _ inside
  exact ⟨read.trans same.symm, same ▸ nonzero⟩

theorem str_nulterminate {buf : List Byte} (derives : Derives .line (tokens buf) c)
    (member : w ∈ c.words) : str ((nulterminate c buf).drop w.1) = text buf w := by
  have runs : ∀ v ∈ c.words, IsRun (str buf) v.1 v.2 := fun v isWord =>
    isRun_of_mem [] (str buf) (derives.mem_words isWord)
  have run := runs w member
  have nonempty := run.nonempty
  have inside := run.inside
  have length : (text buf w).length = w.2 - w.1 := by
    rw [text, List.length_take, List.length_drop]
    omega
  have chars : ∀ k < w.2 - w.1, deref (text buf w) k = deref (str buf) (w.1 + k) := by
    intro k small
    rw [← deref_drop]
    unfold deref text
    rw [List.getD_eq_getElem?_getD, List.getD_eq_getElem?_getD, List.getElem?_take_of_lt small]
  -- no other word ends inside this one
  have untouched : ∀ k < w.2 - w.1, w.1 + k ∉ c.words.map Prod.snd := by
    intro k small ends
    obtain ⟨v, isWord, atEnd⟩ := List.mem_map.mp ends
    have stop := (runs v isWord).stop (by omega)
    rw [atEnd, run.word (w.1 + k) (by omega) (by omega)] at stop
    cases stop
  refine str_eq (fun k small => ?_) (fun k small => ?_) ?_
  · rw [length] at small
    rw [deref_drop, deref_nulterminate, if_neg (untouched k small), chars k small]
    exact (deref_str (by omega)).1
  · rw [length] at small
    rw [chars k small]
    exact (deref_str (by omega)).2
  · rw [deref_drop, deref_nulterminate, if_pos]
    rw [length, Nat.add_sub_cancel' nonempty.le]
    exact List.mem_map_of_mem member

/-- **The shell's parser**, for every string: `parsecmd` returns a tree exactly if the tokens of the
string are derived from `line` with this tree, and there is at most one; in the memory that it
leaves, every argument and every file name of the tree reads as the word that it stands for; and
every other string ends in a panic. -/
theorem shell_parses (buf : List Byte) :
    (∀ c, (∃ mem, parsecmd buf = .ok (c, mem)) ↔ Derives .line (tokens buf) c) ∧
    (∀ c d, Derives .line (tokens buf) c → Derives .line (tokens buf) d → c = d) ∧
    (∀ c mem, parsecmd buf = .ok (c, mem) → ∀ w ∈ c.words,
      .word w.1 w.2 ∈ tokens buf ∧ str (mem.drop w.1) = text buf w) ∧
    ((∀ c, ¬ Derives .line (tokens buf) c) → ∃ e, parsecmd buf = .error (.panic e)) := by
  have returns : ∀ c, Derives .line (tokens buf) c →
    parsecmd buf = .ok (c, nulterminate c buf) := by
    intro c derives
    have found := parse_complete derives 0 (at_start buf)
    unfold parsecmd
    revert found
    cases parsetree buf 0 with
    | ok r =>
      rintro rfl
      rfl
    | error e => exact False.elim
  have derived : ∀ c mem, parsecmd buf = .ok (c, mem) →
      Derives .line (tokens buf) c ∧ mem = nulterminate c buf := by
    intro c mem done
    have isSound := parse_sound buf 0 (at_start buf)
    unfold parsecmd at done
    cases run : parsetree buf 0 with
    | ok r =>
      rw [run] at isSound done
      cases done
      exact ⟨isSound, rfl⟩
    | error e =>
      rw [run] at done
      cases done
  refine ⟨fun c => ⟨fun ⟨mem, done⟩ => (derived c mem done).1,
    fun derives => ⟨_, returns c derives⟩⟩,
    fun c d first second => ?_, fun c mem done w member => ?_, fun none => ?_⟩
  · have same := (returns c first).symm.trans (returns d second)
    exact congrArg Prod.fst (Except.ok.inj same)
  · obtain ⟨derives, rfl⟩ := derived c mem done
    exact ⟨derives.mem_words member, str_nulterminate derives member⟩
  · have isSound := parse_sound buf 0 (at_start buf)
    unfold parsecmd
    revert isSound
    cases parsetree buf 0 with
    | ok r => exact fun derives => absurd derives (none r.1)
    | error e =>
      intro panics
      cases e with
      | panic e => exact ⟨e, rfl⟩
      | fuel => exact absurd rfl panics

end Xv6.Sh
