/-
**Several redirections of one command** (`user/sh.c`: `parseredirs`, `parseexec`, `runcmd`).

`parseredirs` puts each redirection around the ones before it, and `runcmd` opens the outer one
first. So the redirections are carried out from the last one to the first, and the first one of a
descriptor remains (`rebind_first`). The last one wins exactly when there is no other one
(`redirections_bind`).
-/

import Xv6.Sh.Correct
import Xv6.Sh.Wiring

namespace Xv6.Sh

open Lib Function

/-- A simple command, or a block: its tokens, its redirections from left to right, and the command
below them. -/
inductive Carries : List Tok → List Redir → Cmd → Prop
  | words {ts us : List Tok} {ws : List (Nat × Nat)} {rs rs' : List Redir} (redirs : Redirs ts rs)
      (args : Args us ws rs') (few : ws.length ≤ MAXARGS - 1) :
      Carries (ts ++ us) (rs ++ rs') (.exec ws)
  | block {ts us : List Tok} {c : Cmd} {rs : List Redir} (body : Derives .line ts c)
      (redirs : Redirs us rs) : Carries (.sym .lpar :: (ts ++ .sym .rpar :: us)) rs c

variable {rs : List Redir} {c : Cmd} {files : Nat → File} {path : Path} {d : Nat}

theorem Carries.derives {ts : List Tok} (carries : Carries ts rs c) :
    Derives .exec ts (wrap rs c) := by
  cases carries with
  | words redirs args few => exact .words redirs args few
  | block body redirs => exact .block body redirs

/-- **The tree**: the redirections are around the command, in order. -/
theorem Carries.parses {buf : List Byte} {ts vs : List Tok} {fuel : Nat} (carries : Carries ts rs c)
    (follows : Follows .exec vs) (enough : 4 * ts.length + 2 ≤ fuel) :
    Triple (At buf (ts ++ vs)) (parseexec buf (strlen buf) fuel) (Returns buf vs (wrap rs c))
      fun _ => False :=
  complete carries.derives follows enough

/-! ### Running it -/

/-- The way from a command with redirections to the command below them. -/
def through (rs : List Redir) (path : Path) : Path := rs.map (fun r => .redir r.op.fd) ++ path

/-- What is open at the descriptors after the redirections: the last one comes first. -/
def rebind (rs : List Redir) (files : Nat → File) (path : Path) : Nat → File :=
  match rs with
  | [] => files
  | r :: after => update (rebind after files path) r.op.fd (.opened (through after path))

theorem fd_lt (op : RedirOp) : op.fd < 3 := by
  cases op <;> decide

theorem run_redir {cmd : Cmd} {file efile mode fd : Nat} (small : fd < 3) (k k' : Nat) :
    ((Proc.mk (Shell.table files) (.entry (.redir cmd file efile mode fd)) path).advance k).2 =
      none ∧
      ((Proc.mk (Shell.table files) (.entry (.redir cmd file efile mode fd)) path).advance
        k).1.advance k' =
        (⟨Shell.table (update files fd (.opened path)), .entry cmd, .redir fd :: path⟩, none) := by
  refine ⟨rfl, ?_⟩
  simp only [Proc.advance, Proc.close, fdalloc_reopen small]

/-- A process makes its calls, while the next pipe has the numbers `ks`. -/
def Proc.run (p : Proc) (ks : List Nat) : Proc := ks.foldl (fun p k => (p.advance k).1) p

theorem rebind_append (r : Redir) (rs : List Redir) :
    rebind (rs ++ [r]) files path = rebind rs (update files r.op.fd (.opened path))
      (.redir r.op.fd :: path) := by
  induction rs with
  | nil => rfl
  | cons first rs ih =>
    have way : through (rs ++ [r]) path = through rs (.redir r.op.fd :: path) := by
      unfold through
      rw [List.map_append, List.append_assoc]
      rfl
    rw [List.cons_append, rebind, rebind, ih, way]

theorem run_wrap (rs : List Redir) {ks : List Nat} (calls : ks.length = 2 * rs.length) :
    (Proc.mk (Shell.table files) (.entry (wrap rs c)) path).run ks =
      ⟨Shell.table (rebind rs files path), .entry c, through rs path⟩ := by
  -- from the outermost redirection, which is the last one, inwards
  induction rs using List.reverseRecOn generalizing path files ks with
  | nil =>
    obtain rfl : ks = [] := List.eq_nil_of_length_eq_zero calls
    rfl
  | append_singleton rs r ih =>
    rw [List.length_append, List.length_singleton] at calls
    match ks, calls with
    | k :: k' :: ks, calls =>
      simp only [List.length_cons] at calls
      have two :=
        (@run_redir files path (wrap rs c) r.file.1 r.file.2 r.op.mode r.op.fd (fd_lt r.op) k k').2
      have next := @ih (update files r.op.fd (.opened path)) (.redir r.op.fd :: path) ks (by omega)
      rw [wrap_append, rebind_append]
      show (((Proc.mk (Shell.table files)
        (.entry (.redir (wrap rs c) r.file.1 r.file.2 r.op.mode r.op.fd))
        path).advance k).1.advance k').1.run ks = _
      rw [two, next]
      unfold through
      rw [List.map_append, List.append_assoc]
      rfl

/-- **The first redirection of a descriptor remains.** -/
theorem rebind_first {r : Redir} {after : List Redir} : ∀ {before : List Redir},
    (∀ r' ∈ before, r'.op.fd ≠ r.op.fd) →
      rebind (before ++ r :: after) files path r.op.fd = .opened (through after path) := by
  intro before
  induction before with
  | nil =>
    intro _
    rw [List.nil_append, rebind, update_self]
  | cons first before ih =>
    intro others
    rw [List.cons_append, rebind, update_of_ne (others first List.mem_cons_self).symm]
    exact ih fun r' member => others r' (List.mem_cons_of_mem _ member)

theorem rebind_none : ∀ {rs : List Redir},
    (∀ r ∈ rs, r.op.fd ≠ d) → rebind rs files path d = files d := by
  intro rs
  induction rs with
  | nil => exact fun _ => rfl
  | cons first rs ih =>
    intro others
    rw [rebind, update_of_ne (others first List.mem_cons_self).symm]
    exact ih fun r member => others r (List.mem_cons_of_mem _ member)

theorem at_below : (wrap rs c).at (through rs []) = some c := by
  induction rs generalizing c with
  | nil => rfl
  | cons r rs ih =>
    show ((wrap rs (.redir c r.file.1 r.file.2 r.op.mode r.op.fd)).at (through rs [])).bind
      (·.down (.redir r.op.fd)) = _
    rw [ih]
    exact if_pos rfl

theorem at_through {before after : List Redir} {r : Redir} :
    (wrap (before ++ r :: after) c).at (through after []) =
      some (.redir (wrap before c) r.file.1 r.file.2 r.op.mode r.op.fd) := by
  rw [List.append_cons, wrap_append, at_below, wrap_append]
  rfl

/-- The descriptor `d` is bound to the file of the last redirection of it, and if there is none, to
the same file as before. -/
structure LastBinds (rs : List Redir) (c : Cmd) (files files' : Nat → File) (path : Path)
    (d : Nat) : Prop where
  last : ∀ before r after, rs = before ++ r :: after → r.op.fd = d → (∀ r' ∈ after, r'.op.fd ≠ d) →
    files' d = .opened (through after path) ∧
      (wrap rs c).at (through after []) =
      some (.redir (wrap before c) r.file.1 r.file.2 r.op.mode r.op.fd)
  none : (∀ r ∈ rs, r.op.fd ≠ d) → files' d = files d

theorem rebind_single (single : ∀ d, (rs.filter fun r => r.op.fd = d).length ≤ 1) (d : Nat) :
    LastBinds rs c files (rebind rs files path) path d := by
  refine ⟨?_, rebind_none⟩
  rintro before r after rfl rfl _
  refine ⟨rebind_first fun r' member same => ?_, at_through⟩
  have count := single r.op.fd
  have earlier : r' ∈ before.filter fun r' => r'.op.fd = r.op.fd :=
    List.mem_filter.mpr ⟨member, decide_eq_true same⟩
  rw [List.filter_append, List.filter_cons, if_pos (decide_eq_true rfl), List.length_append,
    List.length_cons] at count
  have := List.length_pos_of_mem earlier
  omega

/-- The last redirection of a descriptor, if there is one. -/
theorem exists_last (some : ∃ r ∈ rs, r.op.fd = d) :
    ∃ before r after, rs = before ++ r :: after ∧ r.op.fd = d ∧ ∀ r' ∈ after, r'.op.fd ≠ d := by
  induction rs using List.reverseRecOn with
  | nil => simp at some
  | append_singleton rs r ih =>
    by_cases here : r.op.fd = d
    · exact ⟨rs, r, [], rfl, here, by simp⟩
    · obtain ⟨r', member, isD⟩ := some
      have earlier : r' ∈ rs := (List.mem_append.mp member).resolve_right fun last =>
        here (List.mem_singleton.mp last ▸ isD)
      obtain ⟨before, x, after, rfl, isLast, none⟩ := ih ⟨r', earlier, isD⟩
      refine ⟨before, x, after ++ [r], by simp, isLast, fun y later => ?_⟩
      rcases List.mem_append.mp later with old | new
      · exact none y old
      · exact List.mem_singleton.mp new ▸ here

/-- **A descriptor that is redirected twice** is not bound by the last redirection: the first one of
it remains, and it is at another depth. -/
theorem single_of_lastBinds (binds : LastBinds rs c files (rebind rs files path) path d) :
    (rs.filter fun r => r.op.fd = d).length ≤ 1 := by
  cases isFirst : rs.find? fun r => r.op.fd = d with
  | none =>
    have empty : (rs.filter fun r => r.op.fd = d) = [] :=
      List.filter_eq_nil_iff.mpr (List.find?_eq_none.mp isFirst)
    rw [empty]
    exact Nat.zero_le 1
  | some r =>
    obtain ⟨isD, before, after, isRs, others⟩ := List.find?_eq_some_iff_append.mp isFirst
    obtain rfl : r.op.fd = d := of_decide_eq_true isD
    have none : ∀ r' ∈ before, r'.op.fd ≠ r.op.fd := fun r' member same => by
      simpa [same] using others r' member
    obtain ⟨before', last, after', isRs', isLast, none'⟩ := exists_last
      ⟨r, isRs ▸ List.mem_append_right _ List.mem_cons_self, rfl⟩
    have bound := (binds.last before' last after' isRs' isLast none').1
    rw [isRs, rebind_first none] at bound
    -- the two are at the same depth, so that they are the same one
    have depth : after.length = after'.length := by
      have := congrArg List.length (File.opened.inj bound)
      simpa [through] using this
    obtain ⟨-, same⟩ := List.append_inj' (isRs.symm.trans isRs') (by simp [depth])
    obtain ⟨-, rfl⟩ := List.cons.inj same
    have first : (before.filter fun r' => r'.op.fd = r.op.fd) = [] := List.filter_eq_nil_iff.mpr
      fun r' member =>
      by simpa using none r' member
    have second : (after.filter fun r' => r'.op.fd = r.op.fd) = [] := List.filter_eq_nil_iff.mpr
      fun r' member =>
      by simpa using none' r' member
    rw [isRs, List.filter_append, List.filter_cons, first, second]
    simp

/-- **The last redirection of a descriptor binds it**, in a simple command or a block, exactly if no
descriptor is redirected twice. -/
theorem redirections_bind {buf : List Byte} {ts vs : List Tok} {rs : List Redir} {c : Cmd}
    {fuel s : Nat} (carries : Carries ts rs c) (follows : Follows .exec vs)
    (enough : 4 * ts.length + 2 ≤ fuel) (here : At buf (ts ++ vs) s) :
    ∃ cmd s', parseexec buf (strlen buf) fuel s = .ok (cmd, s') ∧ At buf vs s' ∧ cmd = wrap rs c ∧
      ∀ files path ks, ks.length = 2 * rs.length → ∃ files',
        (Proc.mk (Shell.table files) (.entry cmd) path).run ks =
            ⟨Shell.table files', .entry c, through rs path⟩ ∧
          (LastBinds rs c files files' path 0 ∧ LastBinds rs c files files' path 1 ↔
            ∀ d, (rs.filter fun r => r.op.fd = d).length ≤ 1) := by
  obtain ⟨cmd, s', done, rfl, there⟩ := (carries.parses follows enough).returns here fun _ => id
  refine ⟨_, s', done, there, rfl,
    fun files path ks calls => ⟨rebind rs files path, run_wrap rs calls, ?_⟩⟩
  refine ⟨fun binds d => ?_, fun single => ⟨rebind_single single 0, rebind_single single 1⟩⟩
  match d with
  | 0 => exact single_of_lastBinds binds.1
  | 1 => exact single_of_lastBinds binds.2
  | d + 2 =>
    have none : ∀ r : Redir, r.op.fd ≠ d + 2 := fun r => by cases r.op <;> simp [RedirOp.fd]
    simp [none]

/-- The tree of `a<x<y`. -/
def twice : Cmd := .redir (.redir (.exec [(0, 1)]) 2 3 O_RDONLY 0) 4 5 O_RDONLY 0

theorem parsecmd_twice : parsecmd [chr 'a', chr '<', chr 'x', chr '<', chr 'y', 0] =
    .ok (twice, [chr 'a', 0, chr 'x', 0, chr 'y', 0]) := by
  cbv

theorem redirections_bind_once :
    ∃ cmd s' files', parseexec [chr 'a', chr '<', chr 'x', 0] 3 14 0 = .ok (cmd, s') ∧
    (Proc.mk (Shell.table .given) (.entry cmd) []).run [0, 0] =
      ⟨Shell.table files', .entry (.exec [(0, 1)]), [.redir 0]⟩ ∧ files' 0 = .opened [] := by
  have carries : Carries ([] ++ [.word 0 1, .sym .lt, .word 2 3]) ([] ++ [⟨.lt, (2, 3)⟩])
    (.exec [(0, 1)]) :=
    .words .nil (.cons (0, 1) (.cons .lt (2, 3) .nil) .nil) (by decide)
  have here :
    At [chr 'a', chr '<', chr 'x', 0] ([] ++ [.word 0 1, .sym .lt, .word 2 3] ++ []) 0 := by
    have tokens : tokens [chr 'a', chr '<', chr 'x', 0] = [.word 0 1, .sym .lt, .word 2 3] := by cbv
    have start := at_start [chr 'a', chr '<', chr 'x', 0]
    rwa [tokens] at start
  have single : ∀ d, (([] ++ [⟨.lt, (2, 3)⟩] : List Redir).filter fun r => r.op.fd = d).length ≤
    1 := fun d =>
    List.length_filter_le _ _
  obtain ⟨cmd, s', done, -, -, runs⟩ := redirections_bind carries (.inl rfl) (Nat.le_refl 14) here
  obtain ⟨files', run, binds⟩ := runs .given [] [0, 0] rfl
  exact ⟨cmd, s', files', done, run,
    ((binds.mpr single).1.last [] ⟨.lt, (2, 3)⟩ [] rfl rfl (by simp)).1⟩

/-- **`a<x<y` reads `x`**: the file that is open at descriptor 0 when `a` is started is that of the
redirection to `x`, which stands below the one to `y`. -/
theorem first_redirection_remains :
    ∃ tree mem, parsecmd [chr 'a', chr '<', chr 'x', chr '<', chr 'y', 0] =
      .ok (tree, mem) ∧
    (Proc.mk (Shell.table .given) (.entry tree) []).run [0, 0, 0, 0] =
      ⟨Shell.table (update .given 0 (.opened [.redir 0])), .entry (.exec [(0, 1)]),
        [.redir 0, .redir 0]⟩ ∧
    (∃ c, tree.at [.redir 0] = some (.redir c 2 3 O_RDONLY 0)) ∧
    (∃ c, tree.at [] = some (.redir c 4 5 O_RDONLY 0)) ∧ File.opened [.redir 0] ≠ .opened [] := by
  refine ⟨twice, _, parsecmd_twice, ?_, ⟨_, rfl⟩, ⟨_, rfl⟩, by decide⟩
  exact @run_wrap (.exec [(0, 1)]) .given [] [⟨.lt, (2, 3)⟩, ⟨.lt, (4, 5)⟩] [0, 0, 0, 0] rfl

end Xv6.Sh
