/-
**The shell's grammar and its parser.**

`Derives` is the grammar, over token sequences and the trees they stand for:

* `line ::= pipe '&'* [';' line]`, `pipe ::= exec ['|' pipe]`;
* `exec ::= '(' line ')' redir* | redir* (word redir*)*`, with at most `MAXARGS - 1` words;
* `redir ::= ('<' | '>' | '>>') word`.

`sound` says that what a parsing function returns is derived from the tokens it has read, and that
its bound on calls was enough; `complete` that it finds every derivation that is followed by a token
that can follow it. Both are triples over the cursor, which stands for a token sequence (`At`), so
neither looks at characters. The parser being a function, a sequence has at most one tree.
-/

import Xv6.Sh.Parse

namespace Xv6.Sh

open Lib

/-! ### The grammar -/

/-- A redirection: its operator and the word. -/
inductive RedirOp
  | lt
  | gt
  | gtgt
  deriving DecidableEq

def RedirOp.sym : RedirOp → Sym
  | .lt => .lt
  | .gt => .gt
  | .gtgt => .gtgt

def RedirOp.mode : RedirOp → Nat
  | .lt => O_RDONLY
  | .gt => O_WRONLY ||| O_CREATE ||| O_TRUNC
  | .gtgt => O_WRONLY ||| O_CREATE

def RedirOp.fd : RedirOp → Nat
  | .lt => 0
  | _ => 1

structure Redir where
  op : RedirOp
  file : Nat × Nat

/-- The redirections around a command, the first one innermost. -/
def wrap (rs : List Redir) (cmd : Cmd) : Cmd :=
  rs.foldl (fun cmd r => .redir cmd r.file.1 r.file.2 r.op.mode r.op.fd) cmd

/-- `redir*` -/
inductive Redirs : List Tok → List Redir → Prop
  | nil : Redirs [] []
  | cons {ts : List Tok} {rs : List Redir} (op : RedirOp) (w : Nat × Nat) (more : Redirs ts rs) :
      Redirs (.sym op.sym :: .word w.1 w.2 :: ts) (⟨op, w⟩ :: rs)

/-- `(word redir*)*`, with the words and the redirections in order. -/
inductive Args : List Tok → List (Nat × Nat) → List Redir → Prop
  | nil : Args [] [] []
  | cons {ts us : List Tok} {ws : List (Nat × Nat)} {rs rs' : List Redir} (w : Nat × Nat)
      (redirs : Redirs ts rs) (more : Args us ws rs') :
      Args (.word w.1 w.2 :: (ts ++ us)) (w :: ws) (rs ++ rs')

inductive Nonterminal
  | line
  | pipe
  | exec
  deriving DecidableEq

/-- **The grammar**: the sequence is derived from the nonterminal, with this tree. -/
inductive Derives : Nonterminal → List Tok → Cmd → Prop
  | line {ts : List Tok} {c : Cmd} (k : Nat) (first : Derives .pipe ts c) :
      Derives .line (ts ++ List.replicate k (.sym .amp)) (Cmd.back^[k] c)
  | list {ts us : List Tok} {c d : Cmd} (k : Nat) (first : Derives .pipe ts c)
      (second : Derives .line us d) :
      Derives .line (ts ++ (List.replicate k (.sym .amp) ++ .sym .semi :: us))
      (.list (Cmd.back^[k] c) d)
  | exec {ts : List Tok} {c : Cmd} (only : Derives .exec ts c) : Derives .pipe ts c
  | pipe {ts us : List Tok} {c d : Cmd} (first : Derives .exec ts c) (second : Derives .pipe us d) :
      Derives .pipe (ts ++ .sym .bar :: us) (.pipe c d)
  | block {ts us : List Tok} {c : Cmd} {rs : List Redir} (body : Derives .line ts c)
      (redirs : Redirs us rs) :
      Derives .exec (.sym .lpar :: (ts ++ .sym .rpar :: us)) (wrap rs c)
  | words {ts us : List Tok} {ws : List (Nat × Nat)} {rs rs' : List Redir} (redirs : Redirs ts rs)
      (args : Args us ws rs') (few : ws.length ≤ MAXARGS - 1) :
      Derives .exec (ts ++ us) (wrap (rs ++ rs') (.exec ws))

theorem wrap_append (rs rs' : List Redir) (cmd : Cmd) :
    wrap (rs ++ rs') cmd = wrap rs' (wrap rs cmd) :=
  List.foldl_append

theorem setArgv_wrap (rs : List Redir) (ws ws' : List (Nat × Nat)) :
    (wrap rs (.exec ws)).setArgv ws' = wrap rs (.exec ws') := by
  induction rs using List.reverseRecOn with
  | nil => rfl
  | append_singleton rs r ih =>
    rw [wrap_append, wrap_append]
    show Cmd.redir ((wrap rs (.exec ws)).setArgv ws') _ _ _ _ =
      Cmd.redir (wrap rs (.exec ws')) _ _ _ _
    rw [ih]

/-! ### What `peek` finds -/

variable {ts : List Tok} {z : Sym} {toks : List Byte}

theorem peekTok_eq_true : peekTok toks ts = true ↔ ∃ y us, ts = .sym y :: us ∧ y.char ∈ toks := by
  constructor
  · intro seen
    cases ts with
    | nil => cases seen
    | cons t us =>
      cases t with
      | sym y => exact ⟨y, us, rfl, List.contains_iff_mem.mp seen⟩
      | word q eq => cases seen
  · rintro ⟨y, us, rfl, member⟩
    exact List.contains_iff_mem.mpr member

theorem char_eq_iff {y : Sym} (notGt : z ≠ .gt ∧ z ≠ .gtgt) : y.char ∈ [z.char] ↔ y = z := by
  revert notGt
  cases y <;> cases z <;> decide

theorem peekTok_single (notGt : z ≠ .gt ∧ z ≠ .gtgt) :
    peekTok [z.char] ts = true ↔ ∃ us, ts = .sym z :: us := by
  rw [peekTok_eq_true]
  constructor
  · rintro ⟨y, us, rfl, member⟩
    exact ⟨us, by rw [(char_eq_iff notGt).mp member]⟩
  · rintro ⟨us, rfl⟩
    exact ⟨z, us, rfl, List.mem_singleton.mpr rfl⟩

theorem peekTok_angle :
    peekTok [chr '<', chr '>'] ts = true ↔ ∃ (op : RedirOp) (us : _), ts = .sym op.sym :: us := by
  rw [peekTok_eq_true]
  constructor
  · rintro ⟨y, us, rfl, member⟩
    revert member
    cases y with
    | lt => exact fun _ => ⟨.lt, us, rfl⟩
    | gt => exact fun _ => ⟨.gt, us, rfl⟩
    | gtgt => exact fun _ => ⟨.gtgt, us, rfl⟩
    | _ => exact fun member => absurd member (by decide)
  · rintro ⟨op, us, rfl⟩
    refine ⟨op.sym, us, rfl, ?_⟩
    cases op <;> decide

/-! ### One round of a loop -/

section Rounds

variable {buf : List Byte} {ts us : List Tok} {cmd : Cmd} {fuel : Nat} {post : Cmd → Nat → Prop}
  {fails : ParseStop → Prop}

/-- A test by `peek`: what it found is known in both branches, and the cursor stands for the same
tokens. -/
theorem peek_bind (areSymbols : ∀ c ∈ toks, c ∈ symbols) {yes no : ParseM Cmd}
    (found : peekTok toks ts = true → Triple (At buf ts) yes post fails)
    (missed : peekTok toks ts = false → Triple (At buf ts) no post fails) :
    Triple (At buf ts) (peek buf (strlen buf) toks >>= fun seen => if seen then yes else no) post
      fails := by
  refine (peek_spec areSymbols).bind fun seen => .of_fact fun same => ?_
  subst same
  cases seen : peekTok toks ts with
  | true => exact found seen
  | false => exact missed seen

variable {argv : List (Nat × Nat)} {op : RedirOp} {t : Tok} {q eq : Nat}

theorem got_bind {rest : Got → ParseM Cmd}
    (after : ∀ got, GotTok got (t :: us) → Triple (At buf us) (rest got) post fails) :
    Triple (At buf (t :: us)) (gettoken buf (strlen buf) >>= rest) post fails :=
  gettoken_spec.bind fun got => .of_fact fun isTok => after got isTok

theorem code_ne_word (y : Sym) : y.code ≠ chr 'a' ∧ y.code ≠ 0 := by
  cases y <;> decide

theorem GotTok.word {got : Got} (isTok : GotTok got ts) (isWord : got.ret = chr 'a') :
    ∃ us, ts = .word got.q got.eq :: us := by
  cases ts with
  | nil =>
    have ended : got.ret = 0 := isTok
    exact absurd (ended.symm.trans isWord) (by decide)
  | cons t us =>
    cases t with
    | sym y =>
      have isSym : got.ret = y.code := isTok
      exact absurd (isSym.symm.trans isWord) (code_ne_word y).1
    | word q eq =>
      cases isTok
      exact ⟨us, rfl⟩

theorem backs_amp
    (after : Triple (At buf us) (parsebacks buf (strlen buf) fuel (.back cmd)) post fails) :
    Triple (At buf (.sym .amp :: us)) (parsebacks buf (strlen buf) (fuel + 1) cmd) post fails := by
  rw [parsebacks]
  exact peek_bind (by decide) (fun _ => got_bind fun _ _ => after) fun missed => absurd missed nofun

theorem backs_stop (stop : peekTok [chr '&'] ts = false) (holds : ∀ s, At buf ts s → post cmd s) :
    Triple (At buf ts) (parsebacks buf (strlen buf) (fuel + 1) cmd) post fails := by
  rw [parsebacks]
  refine peek_bind (by decide) (fun found => ?_) fun _ => .pure holds
  rw [stop] at found
  cases found

theorem redir_op {ret : Byte} (isOp : ret = op.sym.code) (x : RedirOp → ParseM Cmd)
    (y : ParseM Cmd) :
    (if ret = chr '<' then x .lt else if ret = chr '>' then x .gt else if ret = chr '+' then x .gtgt
      else y) = x op := by
  subst isOp
  cases op <;> rfl

theorem redirs_word
    (after :
      Triple (At buf us) (parseredirs buf (strlen buf) fuel (.redir cmd q eq op.mode op.fd)) post
      fails) :
    Triple (At buf (.sym op.sym :: .word q eq :: us))
      (parseredirs buf (strlen buf) (fuel + 1) cmd) post fails := by
  rw [parseredirs]
  refine peek_bind (by decide) (fun _ => ?_) fun missed => absurd missed ?_
  · refine got_bind fun tok isTok => got_bind fun file isFile => ?_
    cases isFile
    rw [if_neg (by simp)]
    have chosen := redir_op isTok
      (fun op => parseredirs buf (strlen buf) fuel (.redir cmd q eq op.mode op.fd))
      (parseredirs buf (strlen buf) fuel cmd)
    rw [← chosen] at after
    exact after
  · cases op <;> nofun

theorem redirs_missing (missing : ∀ q eq vs, us ≠ .word q eq :: vs)
    (fail : fails (.panic .missingFile)) :
    Triple (At buf (.sym op.sym :: us)) (parseredirs buf (strlen buf) (fuel + 1) cmd) post
      fails := by
  rw [parseredirs]
  refine peek_bind (by decide) (fun _ => ?_) fun missed => absurd missed ?_
  · refine got_bind fun tok _ => gettoken_spec.bind fun file => .of_fact fun isFile => ?_
    refine .ite (fun _ => .throw fun _ _ => fail) fun isWord => ?_
    obtain ⟨vs, split⟩ := isFile.word (not_not.mp isWord)
    exact absurd split (missing _ _ _)
  · cases op <;> nofun

theorem redirs_stop (stop : peekTok [chr '<', chr '>'] ts = false)
    (holds : ∀ s, At buf ts s → post cmd s) :
    Triple (At buf ts) (parseredirs buf (strlen buf) (fuel + 1) cmd) post fails := by
  rw [parseredirs]
  refine peek_bind (by decide) (fun found => ?_) fun _ => .pure holds
  rw [stop] at found
  cases found

/-- The tokens that end the words of a command. -/
def enders : List Byte := [chr '|', chr ')', chr '&', chr ';']

theorem args_stop (stop : peekTok enders ts = true ∨ ts = [])
    (holds : ∀ s, At buf ts s → post cmd s) :
    Triple (At buf ts) (parseargs buf (strlen buf) (fuel + 1) cmd argv) post fails := by
  rw [parseargs]
  refine peek_bind (by decide) (fun _ => .pure holds) fun missed => ?_
  obtain found | rfl := stop
  · rw [enders, missed] at found
    cases found
  · refine gettoken_spec.bind fun tok => .of_fact fun isTok => ?_
    have ended : tok.ret = 0 := isTok
    rw [if_pos ended]
    exact .pure holds

theorem args_word (room : argv.length + 1 < MAXARGS)
    (after :
      Triple (At buf us) (parseredirs buf (strlen buf) fuel (cmd.setArgv (argv ++ [(q, eq)])) >>=
      fun ret => parseargs buf (strlen buf) fuel ret (argv ++ [(q, eq)])) post fails) :
    Triple (At buf (.word q eq :: us)) (parseargs buf (strlen buf) (fuel + 1) cmd argv) post
      fails := by
  rw [parseargs]
  refine peek_bind (by decide) (fun found => absurd found nofun) fun _ => got_bind
    fun tok isTok => ?_
  cases isTok
  rw [if_neg (show chr 'a' ≠ 0 by decide), if_neg (by simp), if_neg (by omega)]
  exact after

theorem args_panic (wrong : peekTok enders (t :: us) = false)
    (bad : ∀ q eq, t = .word q eq → MAXARGS ≤ argv.length + 1) (fail : ∀ e, fails (.panic e)) :
    Triple (At buf (t :: us)) (parseargs buf (strlen buf) (fuel + 1) cmd argv) post fails := by
  rw [parseargs]
  refine peek_bind (by decide) (fun found => ?_) fun _ => got_bind fun tok isTok => ?_
  · rw [← enders, wrong] at found
    cases found
  · cases t with
    | sym y =>
      have isSym : tok.ret = y.code := isTok
      rw [isSym, if_neg (code_ne_word y).2, if_pos (code_ne_word y).1]
      exact .throw fun _ _ => fail _
    | word q eq =>
      cases isTok
      rw [if_neg (show chr 'a' ≠ 0 by decide), if_neg (by simp), if_pos (bad q eq rfl)]
      exact .throw fun _ _ => fail _

end Rounds

/-! ### Soundness -/

section Sound

variable {buf : List Byte} {ts : List Tok} {cmd : Cmd} {fuel : Nat}

/-- What a parsing function has read and what it left. -/
def Reads (buf : List Byte) (ts : List Tok) (reads : List Tok → Prop) (s : Nat) : Prop :=
  ∃ us vs, ts = us ++ vs ∧ reads us ∧ At buf vs s

/-- It did not run out of calls. -/
def Panics (e : ParseStop) : Prop := e ≠ .fuel

theorem Reads.after {vs : List Tok} {reads reads' : List Tok → Prop} {s : Nat}
    (later : Reads buf vs reads' s) (front : List Tok)
    (joined : ∀ us, reads' us → reads (front ++ us)) : Reads buf (front ++ vs) reads s := by
  obtain ⟨us, vs', rfl, isRead, left⟩ := later
  exact ⟨front ++ us, vs', (List.append_assoc ..).symm, joined us isRead, left⟩

theorem read_bind {x : ParseM Cmd} {f : Cmd → ParseM Cmd} {reads : Cmd → List Tok → Prop}
    {post : Cmd → Nat → Prop}
    (first : Triple (At buf ts) x (fun c => Reads buf ts (reads c)) Panics)
    (rest : ∀ c us vs, ts = us ++ vs → reads c us → Triple (At buf vs) (f c) post Panics) :
    Triple (At buf ts) (x >>= f) post Panics := by
  refine first.bind fun c => .each fun s isRead => ?_
  obtain ⟨us, vs, split, done, here⟩ := isRead
  exact (rest c us vs split done).known here

theorem sound_backs (enough : 4 * ts.length + 1 ≤ fuel) :
    Triple (At buf ts) (parsebacks buf (strlen buf) fuel cmd)
      (fun c => Reads buf ts fun us => ∃ k, us = List.replicate k (.sym .amp) ∧
        c = Cmd.back^[k] cmd)
      Panics := by
  induction fuel generalizing ts cmd with
  | zero => omega
  | succ fuel ih =>
    cases found : peekTok [chr '&'] ts with
    | true =>
      obtain ⟨us, rfl⟩ := (peekTok_single (z := .amp) (by decide)).mp found
      rw [List.length_cons] at enough
      refine backs_amp ((ih (by omega)).to_post fun c s later => later.after [.sym .amp] ?_)
      rintro us' ⟨k, rfl, rfl⟩
      exact ⟨k + 1, rfl, rfl⟩
    | false => exact backs_stop found fun s here => ⟨[], ts, rfl, ⟨0, rfl, rfl⟩, here⟩

theorem sound_redirs (enough : 4 * ts.length + 1 ≤ fuel) :
    Triple (At buf ts) (parseredirs buf (strlen buf) fuel cmd)
      (fun c => Reads buf ts fun us => ∃ rs, Redirs us rs ∧ c = wrap rs cmd) Panics := by
  induction fuel generalizing ts cmd with
  | zero => omega
  | succ fuel ih =>
    cases found : peekTok [chr '<', chr '>'] ts with
    | true =>
      obtain ⟨op, us, rfl⟩ := peekTok_angle.mp found
      by_cases isFile : ∃ q eq vs, us = .word q eq :: vs
      · obtain ⟨q, eq, vs, rfl⟩ := isFile
        rw [List.length_cons, List.length_cons] at enough
        refine redirs_word ((ih (by omega)).to_post fun c s later =>
          later.after [.sym op.sym, .word q eq] ?_)
        rintro us' ⟨rs, redirs, rfl⟩
        exact ⟨⟨op, (q, eq)⟩ :: rs, .cons op (q, eq) redirs, rfl⟩
      · exact redirs_missing (fun q eq vs split => isFile ⟨q, eq, vs, split⟩) nofun
    | false => exact redirs_stop found fun s here => ⟨[], ts, rfl, ⟨[], .nil, rfl⟩, here⟩

theorem sound_args {ws : List (Nat × Nat)} {rs : List Redir} (few : ws.length ≤ MAXARGS - 1)
    (enough : 4 * ts.length + 1 ≤ fuel) :
    Triple (At buf ts) (parseargs buf (strlen buf) fuel (wrap rs (.exec ws)) ws)
      (fun c => Reads buf ts fun us => ∃ ws' rs', Args us ws' rs' ∧
        (ws ++ ws').length ≤ MAXARGS - 1 ∧ c = wrap (rs ++ rs') (.exec (ws ++ ws'))) Panics := by
  induction fuel generalizing ts ws rs with
  | zero => omega
  | succ fuel ih =>
    have stops : ∀ s, At buf ts s → Reads buf ts (fun us => ∃ ws' rs', Args us ws' rs' ∧
        (ws ++ ws').length ≤ MAXARGS - 1 ∧
        wrap rs (.exec ws) = wrap (rs ++ rs') (.exec (ws ++ ws'))) s :=
      fun s here => ⟨[], ts, rfl, ⟨[], [], .nil, by simpa using few, by simp⟩, here⟩
    cases found : peekTok enders ts with
    | true => exact args_stop (.inl found) stops
    | false =>
      cases ts with
      | nil => exact args_stop (.inr rfl) stops
      | cons t us =>
        by_cases isWord : ∃ q eq, t = .word q eq ∧ ws.length + 1 < MAXARGS
        · obtain ⟨q, eq, rfl, room⟩ := isWord
          rw [List.length_cons] at enough
          refine args_word room ?_
          rw [setArgv_wrap]
          refine read_bind (sound_redirs (by omega)) fun ret us' vs split isRead => ?_
          obtain ⟨rs', redirs, rfl⟩ := isRead
          subst split
          rw [List.length_append] at enough
          rw [← wrap_append]
          refine (ih (by rw [List.length_append, List.length_singleton]; omega) (by omega)).to_post
            fun c s later => later.after (.word q eq :: us') ?_
          rintro us'' ⟨ws', rs'', args, few', rfl⟩
          refine ⟨(q, eq) :: ws', rs' ++ rs'', .cons (q, eq) redirs args, ?_, ?_⟩
          · simpa using few'
          · rw [List.append_assoc, List.append_assoc]
            rfl
        · refine args_panic found (fun q eq isW => ?_) nofun
          by_contra less
          exact isWord ⟨q, eq, isW, by omega⟩

theorem sound (fuel : Nat) :
    (∀ ts, 4 * ts.length + 4 ≤ fuel → Triple (At buf ts) (parseline buf (strlen buf) fuel)
      (fun c => Reads buf ts fun us => Derives .line us c) Panics) ∧
    (∀ ts, 4 * ts.length + 3 ≤ fuel → Triple (At buf ts) (parsepipe buf (strlen buf) fuel)
      (fun c => Reads buf ts fun us => Derives .pipe us c) Panics) ∧
    (∀ ts, 4 * ts.length + 2 ≤ fuel → Triple (At buf ts) (parseexec buf (strlen buf) fuel)
      (fun c => Reads buf ts fun us => Derives .exec us c) Panics) ∧
    (∀ ts, 4 * ts.length + 1 ≤ fuel → Triple (At buf ts) (parseblock buf (strlen buf) fuel)
      (fun c => Reads buf ts fun us => Derives .exec us c) Panics) := by
  induction fuel with
  | zero => exact ⟨by omega, by omega, by omega, by omega⟩
  | succ fuel ih =>
    obtain ⟨line, pipe, exec, block⟩ := ih
    refine ⟨fun ts enough => ?_, fun ts enough => ?_, fun ts enough => ?_, fun ts enough => ?_⟩
    · rw [parseline]
      refine read_bind (pipe ts (by omega)) fun c us vs split first => ?_
      subst split
      rw [List.length_append] at enough
      refine read_bind (sound_backs (by omega)) fun c' us' vs' split isBacks => ?_
      obtain ⟨k, rfl, rfl⟩ := isBacks
      subst split
      rw [List.length_append] at enough
      refine peek_bind (by decide) (fun found => ?_) fun _ => .pure fun s here => ?_
      · obtain ⟨ws, rfl⟩ := (peekTok_single (z := .semi) (by decide)).mp found
        rw [List.length_cons] at enough
        refine got_bind fun _ _ => (line ws (by omega)).bind fun d => .pure fun s later => ?_
        rw [← List.append_assoc, List.append_cons]
        refine later.after _ fun us'' second => ?_
        have whole := Derives.list k first second
        simpa using whole
      · exact ⟨us ++ List.replicate k (.sym .amp), vs', by rw [List.append_assoc], .line k first,
          here⟩
    · rw [parsepipe]
      refine read_bind (exec ts (by omega)) fun c us vs split first => ?_
      subst split
      rw [List.length_append] at enough
      refine peek_bind (by decide) (fun found => ?_) fun _ => .pure fun s here => ?_
      · obtain ⟨ws, rfl⟩ := (peekTok_single (z := .bar) (by decide)).mp found
        rw [List.length_cons] at enough
        refine got_bind fun _ _ => (pipe ws (by omega)).bind fun d => .pure fun s later => ?_
        rw [List.append_cons]
        refine later.after _ fun us'' second => ?_
        have whole := Derives.pipe first second
        simpa using whole
      · exact ⟨us, vs, rfl, .exec first, here⟩
    · rw [parseexec]
      refine peek_bind (by decide) (fun _ => block ts (by omega)) fun _ => ?_
      refine read_bind (sound_redirs (by omega)) fun c us vs split isRead => ?_
      obtain ⟨rs, redirs, rfl⟩ := isRead
      subst split
      rw [List.length_append] at enough
      refine (sound_args (Nat.zero_le _) (by omega)).to_post fun c s later => later.after us ?_
      rintro us' ⟨ws, rs', args, few, rfl⟩
      exact .words redirs args few
    · rw [parseblock]
      refine peek_bind (by decide) (fun found => ?_) fun _ => .throw fun _ _ => nofun
      obtain ⟨ws, rfl⟩ := (peekTok_single (z := .lpar) (by decide)).mp found
      rw [List.length_cons] at enough
      refine got_bind fun _ _ => read_bind (line ws (by omega)) fun c us vs split body => ?_
      subst split
      rw [List.length_append] at enough
      refine peek_bind (by decide) (fun found => ?_) fun _ => .throw fun _ _ => nofun
      obtain ⟨ws, rfl⟩ := (peekTok_single (z := .rpar) (by decide)).mp found
      rw [List.length_cons] at enough
      refine got_bind fun _ _ => (sound_redirs (by omega)).to_post fun c' s later => ?_
      rw [List.append_cons, ← List.cons_append]
      refine later.after _ fun us' isRead => ?_
      obtain ⟨rs, redirs, rfl⟩ := isRead
      have whole := Derives.block body redirs
      simpa using whole

end Sound

/-! ### Completeness -/

/-- The tokens that can follow what is derived from a nonterminal. -/
def Nonterminal.follow : Nonterminal → List Sym
  | .line => [.rpar]
  | .pipe => [.rpar, .amp, .semi]
  | .exec => [.rpar, .amp, .semi, .bar]

/-- The sequence is empty or starts with a token that can follow. -/
def Follows (nt : Nonterminal) (vs : List Tok) : Prop :=
  vs = [] ∨ ∃ y us, vs = .sym y :: us ∧ y ∈ nt.follow

section Complete

variable {buf : List Byte} {ts us vs : List Tok} {cmd : Cmd} {fuel : Nat} {ws : List (Nat × Nat)}
  {rs rs' : List Redir} {nt : Nonterminal}

theorem Follows.peekTok (follows : Follows nt vs) (other : ∀ y ∈ nt.follow, y.char ∉ toks) :
    peekTok toks vs = false := by
  obtain rfl | ⟨y, us, rfl, member⟩ := follows
  · rfl
  · show toks.contains y.char = false
    rw [List.contains_eq_mem, decide_eq_false_iff_not]
    exact other y member

theorem Follows.stops (follows : Follows .exec vs) : Sh.peekTok enders vs = true ∨ vs = [] := by
  obtain rfl | ⟨y, us, rfl, member⟩ := follows
  · exact .inr rfl
  · refine .inl (show enders.contains y.char = true from ?_)
    revert member
    cases y <;> decide

theorem Follows.mono {nt' : Nonterminal} (follows : Follows nt vs) (more : nt.follow ⊆ nt'.follow) :
    Follows nt' vs := by
  obtain rfl | ⟨y, us, rfl, member⟩ := follows
  · exact .inl rfl
  · exact .inr ⟨y, us, rfl, more member⟩

theorem Follows.backs (follows : Follows .pipe vs) (k : Nat) :
    Follows .pipe (List.replicate k (.sym .amp) ++ vs) := by
  cases k with
  | zero => exact follows
  | succ k => exact .inr ⟨.amp, _, rfl, by decide⟩

/-- It returns this command and leaves the cursor at these tokens. -/
def Returns (buf : List Byte) (vs : List Tok) (cmd c : Cmd) (s : Nat) : Prop :=
  c = cmd ∧ At buf vs s

theorem returns_bind {x : ParseM Cmd} {f : Cmd → ParseM Cmd} {pre : Nat → Prop}
    {post : Cmd → Nat → Prop} {fails : ParseStop → Prop}
    (first : Triple pre x (Returns buf vs cmd) fails)
    (after : Triple (At buf vs) (f cmd) post fails) : Triple pre (x >>= f) post fails :=
  first.bind fun _ => .of_fact fun same => same ▸ after

theorem complete_backs {k : Nat} (stop : Sh.peekTok [chr '&'] vs = false) (enough : k + 1 ≤ fuel) :
    Triple (At buf (List.replicate k (.sym .amp) ++ vs)) (parsebacks buf (strlen buf) fuel cmd)
      (Returns buf vs (Cmd.back^[k] cmd)) fun _ => False := by
  induction k generalizing fuel cmd with
  | zero =>
    obtain _ | fuel := fuel
    · omega
    exact backs_stop stop fun s here => ⟨rfl, here⟩
  | succ k ih =>
    obtain _ | fuel := fuel
    · omega
    exact backs_amp (ih (by omega))

theorem complete_redirs (redirs : Redirs us rs) (stop : Sh.peekTok [chr '<', chr '>'] vs = false)
    (enough : us.length + 1 ≤ fuel) :
    Triple (At buf (us ++ vs)) (parseredirs buf (strlen buf) fuel cmd)
      (Returns buf vs (wrap rs cmd))
      fun _ => False := by
  induction redirs generalizing fuel cmd with
  | nil =>
    obtain _ | fuel := fuel
    · omega
    exact redirs_stop stop fun s here => ⟨rfl, here⟩
  | cons op w _ ih =>
    obtain _ | fuel := fuel
    · omega
    rw [List.length_cons, List.length_cons] at enough
    exact redirs_word (ih (by omega))

theorem Args.peekTok (args : Args us ws rs) (follows : Follows .exec vs) :
    Sh.peekTok [chr '<', chr '>'] (us ++ vs) = false := by
  cases args with
  | nil => exact follows.peekTok (by decide)
  | cons w redirs more => rfl

theorem Redirs.peekTok_lpar (redirs : Redirs ts rs) (args : Args us ws rs')
    (follows : Follows .exec vs) : Sh.peekTok [chr '('] (ts ++ (us ++ vs)) = false := by
  cases redirs with
  | nil =>
    cases args with
    | nil => exact follows.peekTok (by decide)
    | cons w redirs more => rfl
  | cons op w more => cases op <;> rfl

theorem complete_args {ws' : List (Nat × Nat)} (args : Args us ws' rs') (follows : Follows .exec vs)
    (few : (ws ++ ws').length ≤ MAXARGS - 1) (enough : us.length + 1 ≤ fuel) :
    Triple (At buf (us ++ vs)) (parseargs buf (strlen buf) fuel (wrap rs (.exec ws)) ws)
      (Returns buf vs (wrap (rs ++ rs') (.exec (ws ++ ws')))) fun _ => False := by
  induction args generalizing fuel ws rs with
  | nil =>
    obtain _ | fuel := fuel
    · omega
    rw [List.append_nil, List.append_nil]
    exact args_stop follows.stops fun s here => ⟨rfl, here⟩
  | cons w redirs more ih =>
    rename_i ts' us' ws'' rs₁ rs₂
    obtain _ | fuel := fuel
    · omega
    rw [List.length_cons, List.length_append] at enough
    rw [List.length_append, List.length_cons] at few
    rw [List.cons_append, List.append_assoc]
    refine args_word (by unfold MAXARGS at few ⊢; omega) ?_
    rw [setArgv_wrap]
    refine returns_bind (complete_redirs redirs (more.peekTok follows) (by omega)) ?_
    rw [← wrap_append, ← List.append_assoc rs, List.append_cons ws w ws'']
    refine ih ?_ ?_
    · rw [List.length_append, List.length_append, List.length_singleton]
      omega
    · omega

def Nonterminal.parse (buf : List Byte) : Nonterminal → Nat → ParseM Cmd
  | .line => parseline buf (strlen buf)
  | .pipe => parsepipe buf (strlen buf)
  | .exec => parseexec buf (strlen buf)

/-- The calls it needs besides those for the tokens. -/
def Nonterminal.cost : Nonterminal → Nat
  | .line => 4
  | .pipe => 3
  | .exec => 2

/-- **Every derivation is found**, with whatever can follow it. -/
theorem complete {c : Cmd} (derives : Derives nt us c) (follows : Follows nt vs)
    (enough : 4 * us.length + nt.cost ≤ fuel) :
    Triple (At buf (us ++ vs)) (nt.parse buf fuel) (Returns buf vs c) fun _ => False := by
  induction derives generalizing fuel vs with
  | line k first ih =>
    simp only [Nonterminal.cost, List.length_append, List.length_replicate] at enough
    obtain _ | fuel := fuel
    · omega
    rw [List.append_assoc, Nonterminal.parse, parseline]
    have next :=
      (follows.mono (by decide : Nonterminal.line.follow ⊆ Nonterminal.pipe.follow)).backs k
    refine returns_bind (ih next (by simp only [Nonterminal.cost]; omega)) ?_
    refine returns_bind (complete_backs (follows.peekTok (by decide)) (by omega)) ?_
    refine peek_bind (by decide) (fun found => ?_) fun _ => .pure fun s here => ⟨rfl, here⟩
    rw [follows.peekTok (by decide)] at found
    cases found
  | list k first second ih ih' =>
    simp only [Nonterminal.cost, List.length_append, List.length_replicate,
      List.length_cons] at enough
    obtain _ | fuel := fuel
    · omega
    rw [List.append_assoc, List.append_assoc, List.cons_append, Nonterminal.parse, parseline]
    refine returns_bind
      (ih (Follows.backs (.inr ⟨.semi, _, rfl, by decide⟩) k)
        (by simp only [Nonterminal.cost]; omega)) ?_
    refine returns_bind (complete_backs rfl (by omega)) ?_
    refine peek_bind (by decide) (fun _ => ?_) fun missed => absurd missed nofun
    refine got_bind
      fun _ _ => returns_bind (ih' follows (by simp only [Nonterminal.cost]; omega)) ?_
    exact .pure fun s here => ⟨rfl, here⟩
  | exec only ih =>
    simp only [Nonterminal.cost] at enough
    obtain _ | fuel := fuel
    · omega
    rw [Nonterminal.parse, parsepipe]
    have next := follows.mono (by decide : Nonterminal.pipe.follow ⊆ Nonterminal.exec.follow)
    refine returns_bind (ih next (by simp only [Nonterminal.cost]; omega)) ?_
    refine peek_bind (by decide) (fun found => ?_) fun _ => .pure fun s here => ⟨rfl, here⟩
    rw [follows.peekTok (by decide)] at found
    cases found
  | pipe first second ih ih' =>
    simp only [Nonterminal.cost, List.length_append, List.length_cons] at enough
    obtain _ | fuel := fuel
    · omega
    rw [List.append_assoc, List.cons_append, Nonterminal.parse, parsepipe]
    refine returns_bind
      (ih (.inr ⟨.bar, _, rfl, by decide⟩) (by simp only [Nonterminal.cost]; omega)) ?_
    refine peek_bind (by decide) (fun _ => ?_) fun missed => absurd missed nofun
    refine got_bind
      fun _ _ => returns_bind (ih' follows (by simp only [Nonterminal.cost]; omega)) ?_
    exact .pure fun s here => ⟨rfl, here⟩
  | block body redirs ih =>
    simp only [Nonterminal.cost, List.length_append, List.length_cons] at enough
    obtain ⟨fuel, rfl⟩ : ∃ more, fuel = more + 2 := ⟨fuel - 2, by omega⟩
    rw [List.cons_append, List.append_assoc, List.cons_append, Nonterminal.parse, parseexec]
    refine peek_bind (by decide) (fun _ => ?_) fun missed => absurd missed nofun
    rw [parseblock]
    refine peek_bind (by decide) (fun _ => ?_) fun missed => absurd missed nofun
    refine got_bind fun _ _ =>
      returns_bind
        (ih (.inr ⟨.rpar, _, rfl, by decide⟩) (by simp only [Nonterminal.cost]; omega)) ?_
    refine peek_bind (by decide) (fun _ => ?_) fun missed => absurd missed nofun
    exact got_bind fun _ _ => complete_redirs redirs (follows.peekTok (by decide)) (by omega)
  | words redirs args few =>
    simp only [Nonterminal.cost, List.length_append] at enough
    obtain _ | fuel := fuel
    · omega
    rw [List.append_assoc, Nonterminal.parse, parseexec]
    refine peek_bind (by decide) (fun found => ?_) fun _ => ?_
    · rw [redirs.peekTok_lpar args follows] at found
      cases found
    · refine returns_bind (complete_redirs redirs (args.peekTok follows) (by omega)) ?_
      exact complete_args args follows (by simpa using few) (by omega)

end Complete

end Xv6.Sh
