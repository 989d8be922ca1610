import Mathlib.Data.List.Induction
import Mathlib.Logic.Relation
import Xv6.Sh.Leaves

set_option autoImplicit false

namespace Xv6.Sh

def RedirOp.fd : RedirOp → Nat
  | .lt => 0
  | .gt => 1
  | .gtgt => 1

def RedirOp.mode : RedirOp → Nat
  | .lt => oRdonly
  | .gt => oWronlyCreate
  | .gtgt => oWronlyCreate

def Redir.obj (r : Redir) : Obj := .file r.file r.op.mode

def Simple.redirs : Simple → List Redir
  | .block _ rs => rs
  | .exec rs args => rs ++ args.flatMap Prod.snd

def Simple.body : Simple → Cmd
  | .block line _ => line.cmd
  | .exec _ args => .exec (args.map Prod.fst)

mutual

def Line.simples : Line → List Simple
  | .last pipe _ => pipe.simples
  | .seq pipe _ rest => pipe.simples ++ rest.simples

def Pipeline.simples : Pipeline → List Simple
  | .one simple => simple.simples
  | .more simple rest => simple.simples ++ rest.simples

def Simple.simples : Simple → List Simple
  | .block line rs => .block line rs :: line.simples
  | .exec rs args => [.exec rs args]

end

def firstOn (rs : List Redir) (fd : Nat) : Option Obj := (rs.find? fun r => r.op.fd = fd).map Redir.obj

def lastOn (rs : List Redir) (fd : Nat) : Option Obj := firstOn rs.reverse fd

-- A process's code and descriptors after its next n calls, if they are all close and open.
def calls : Nat → ShProg → Table → Option (ShProg × Table)
  | 0, prog, t => some (prog, t)
  | n + 1, .op (.close fd) next, t => calls n (next ()) (t.close fd)
  | n + 1, .op (.open_ file mode) next, t => calls n (next (t.put (.file file mode)).1) (t.put (.file file mode)).2
  | _, _, _ => none

-- Each descriptor leads to the file of its last redirection.
def LastWins (c : Simple) : Prop :=
  ∀ env : Env, ∃ env' : Env,
    calls (2 * c.redirs.length) (runcmd c.cmd env) env.table = some (runcmd c.body env', env'.table) ∧
      env' 0 = (lastOn c.redirs 0).getD (env 0) ∧ env' 1 = (lastOn c.redirs 1).getD (env 1)

section

variable {rs : List Redir} {env : Env}

theorem redircmd_eq (cmd : Cmd) (r : Redir) : redircmd cmd r = .redir cmd r.file r.op.mode r.op.fd := by
  unfold redircmd
  cases r.op with
  | lt => rfl
  | gt => rfl
  | gtgt => rfl

theorem fd_small (op : RedirOp) : op.fd < 3 := by
  cases op with
  | lt => decide
  | gt => decide
  | gtgt => decide

theorem simple_cmd (c : Simple) : c.cmd = c.redirs.foldl redircmd c.body := by
  cases c with
  | block line rs => rfl
  | exec rs args => rfl

-- The last redirection is the outermost REDIR node, so the first one of a descriptor stays.
def opened (rs : List Redir) (env : Env) : Env := rs.foldr (fun r env => upd env r.op.fd r.obj) env

theorem opened_eq (rs : List Redir) (env : Env) (fd : Nat) : opened rs env fd = (firstOn rs fd).getD (env fd) := by
  induction rs with
  | nil => rfl
  | cons r rs ih =>
    unfold opened firstOn
    rw [List.foldr_cons, List.find?_cons]
    by_cases here : r.op.fd = fd
    · rw [decide_eq_true here, ← here, upd_self]
      rfl
    · rw [decide_eq_false here, upd_ne (Ne.symm here)]
      exact ih

theorem calls_redir (r : Redir) (cmd : Cmd) (env : Env) (n : Nat) :
    calls (n + 2) (runcmd (redircmd cmd r) env) env.table =
      calls n (runcmd cmd (upd env r.op.fd r.obj)) (Env.table (upd env r.op.fd r.obj)) := by
  rw [redircmd_eq, runcmd]
  show calls n _ ((env.table.close r.op.fd).put r.obj).2 = _
  rw [close_put (fd_small r.op)]
  show calls n (runcmd cmd (upd env r.op.fd r.obj)) ((env.table.close r.op.fd).put r.obj).2 = _
  rw [close_put (fd_small r.op)]

theorem calls_redirs (rs : List Redir) (cmd : Cmd) (env : Env) :
    calls (2 * rs.length) (runcmd (rs.foldl redircmd cmd) env) env.table = some (runcmd cmd (opened rs env), (opened rs env).table) := by
  induction rs using List.reverseRecOn generalizing env with
  | nil => rfl
  | append_singleton rs r ih =>
    rw [List.foldl_append, List.length_append, Nat.mul_add]
    show calls (2 * rs.length + 2) (runcmd (redircmd (rs.foldl redircmd cmd) r) env) env.table = _
    rw [calls_redir, ih, opened, opened, List.foldr_append]
    rfl

theorem firstOn_file {fd : Nat} {o : Obj} (found : firstOn rs fd = some o) (i : Nat) : o ≠ .initial i := by
  obtain ⟨r, -, rfl⟩ := Option.map_eq_some_iff.mp found
  intro never
  cases never

theorem same_of_getD {fd i : Nat} (same : (firstOn rs fd).getD (.initial i) = (lastOn rs fd).getD (.initial i)) :
    firstOn rs fd = lastOn rs fd := by
  cases first : firstOn rs fd with
  | none =>
    cases last : lastOn rs fd with
    | none => rfl
    | some o =>
      rw [first, last] at same
      exact absurd same.symm (firstOn_file last i)
  | some o =>
    cases last : lastOn rs fd with
    | none =>
      rw [first, last] at same
      exact absurd same (firstOn_file first i)
    | some o' =>
      rw [first, last] at same
      exact congrArg some same

theorem table_inj {env' : Env} (same : env.table = env'.table) {fd : Nat} (small : fd < 3) : env fd = env' fd := by
  have here := congrFun same fd
  rw [table_some small, table_some small] at here
  exact Option.some.inj here

theorem lastWins_iff (c : Simple) : LastWins c ↔ ∀ fd < 2, firstOn c.redirs fd = lastOn c.redirs fd := by
  have run := fun env => calls_redirs c.redirs c.body env
  rw [← simple_cmd] at run
  constructor
  · intro wins fd small
    obtain ⟨env', there, zero, one⟩ := wins .initial
    rw [run] at there
    have tables : (opened c.redirs .initial).table = env'.table := congrArg Prod.snd (Option.some.inj there)
    have here := table_inj tables (Nat.lt_succ_of_lt small)
    rw [opened_eq] at here
    apply same_of_getD (i := fd)
    match fd, small with
    | 0, _ => exact here.trans zero
    | 1, _ => exact here.trans one
  · intro same env
    refine ⟨opened c.redirs env, run env, ?_, ?_⟩
    · rw [opened_eq, same 0 (by decide)]
    · rw [opened_eq, same 1 (by decide)]

end

def Sys.Is (s : Sys) (p : Nat) (prog : ShProg) (t : Table) : Prop :=
  ∃ pr, s.proc p = some pr ∧ pr.code = some prog ∧ pr.fds = t

section

variable {s s' : Sys} {p : Nat} {prog prog' : ShProg} {t t' : Table}

theorem calls_succ (n : Nat) (prog : ShProg) (t : Table) :
    calls (n + 1) prog t = (calls n prog t).bind fun r => calls 1 r.1 r.2 := by
  induction n generalizing prog t with
  | zero => rfl
  | succ n ih =>
    cases prog with
    | ret value => rfl
    | op act next =>
      cases act with
      | close fd => exact ih _ _
      | open_ file mode => exact ih _ _
      | dup fd => rfl
      | pipe => rfl
      | fork side => rfl
      | wait => rfl
      | exec argv env => rfl
      | exit => rfl
      | mark m => rfl

theorem set_is (is : s.Is p prog t) {q : Nat} {pr' : Proc} (other : p ≠ q) : (s.set q pr').Is p prog t := by
  obtain ⟨pr, found, at_⟩ := is
  exact ⟨pr, (set_other s pr' other).trans found, at_⟩

theorem at_is (is : s.Is p prog t) {pr : Proc} {β : Type} {act : ShOp β} {next : β → ShProg} (at_ : s.At p pr act next) :
    prog = .op act next ∧ pr.fds = t := by
  obtain ⟨pr', found, code, fds⟩ := is
  cases found.symm.trans at_.proc
  exact ⟨Option.some.inj (code.symm.trans at_.code), fds⟩

theorem other_is (is : s.Is p prog t) (one : calls 1 prog t = some (prog', t')) {q : Nat} {pr : Proc} {β : Type} {act : ShOp β}
    {next : β → ShProg} (at_ : s.At q pr act next) (different : calls 1 (.op act next) t = none) : p ≠ q := by
  rintro rfl
  obtain ⟨rfl, -⟩ := at_is is at_
  rw [different] at one
  cases one

theorem step_calls (step : Step s s') (known : p < s.nextPid) (is : s.Is p prog t) (one : calls 1 prog t = some (prog', t')) :
    p < s'.nextPid ∧ (s'.Is p prog t ∨ s'.Is p prog' t') := by
  cases step with
  | close q pr fd next at_ =>
    refine ⟨known, ?_⟩
    by_cases here : p = q
    · subst here
      obtain ⟨rfl, rfl⟩ := at_is is at_
      cases one
      exact .inr ⟨_, set_self s p _, rfl, rfl⟩
    · exact .inl (set_is is here)
  | open_ q pr file mode next at_ =>
    refine ⟨known, ?_⟩
    by_cases here : p = q
    · subst here
      obtain ⟨rfl, rfl⟩ := at_is is at_
      cases one
      exact .inr ⟨_, set_self s p _, rfl, rfl⟩
    · exact .inl (set_is is here)
  | dup q pr fd next at_ => exact ⟨known, .inl (set_is is (other_is is one at_ rfl))⟩
  | pipe q pr next at_ => exact ⟨known, .inl (set_is is (other_is is one at_ rfl))⟩
  | fork q pr side next at_ =>
    refine ⟨Nat.lt_succ_of_lt known, .inl ?_⟩
    exact set_is (set_is is (other_is is one at_ rfl)) (Nat.ne_of_lt known)
  | reap q pr dead child next at_ other found mine done =>
    have kept : (s.set q (pr.goes pr.fds (next ()))).Is p prog t := set_is is (other_is is one at_ rfl)
    have alive : p ≠ dead := by
      rintro rfl
      obtain ⟨pr', found', code, -⟩ := is
      cases found.symm.trans found'
      rw [done] at code
      cases code
    obtain ⟨pr', found', at_'⟩ := kept
    exact ⟨known, .inl ⟨pr', (upd_ne alive).trans found', at_'⟩⟩
  | childless q pr next at_ none_ => exact ⟨known, .inl (set_is is (other_is is one at_ rfl))⟩
  | execFails q pr argv env next at_ => exact ⟨known, .inl (set_is is (other_is is one at_ rfl))⟩
  | exec q pr argv env next prog at_ foreign => exact ⟨known, .inl (set_is is (other_is is one at_ rfl))⟩
  | exit q pr next at_ =>
    have other := other_is is one at_ rfl
    obtain ⟨pr', found', code, fds⟩ := is
    refine ⟨known, .inl ?_⟩
    have now : (s.exited q pr).proc p = some (if pr'.parent = q then { pr' with parent := 0 } else pr') := by
      unfold Sys.exited
      dsimp only
      rw [if_neg other, found']
      rfl
    refine ⟨_, now, ?_, ?_⟩
    · split <;> exact code
    · split <;> exact fds
  | mark q pr m next at_ =>
    have kept : (s.set q (pr.goes pr.fds (next ()))).Is p prog t := set_is is (other_is is one at_ rfl)
    cases m with
    | waits id => exact ⟨known, .inl kept⟩
    | enters id => exact ⟨known, .inl kept⟩

theorem calls_more {k n : Nat} (less : k < n) (all : calls n prog t = some (prog', t')) :
    ∃ next, calls (k + 1) prog t = some next := by
  induction less generalizing prog' t' with
  | refl => exact ⟨_, all⟩
  | step _ ih =>
    rw [calls_succ] at all
    obtain ⟨before, there, -⟩ := Option.bind_eq_some_iff.mp all
    exact ih there

-- Whatever the other processes do, p makes these n calls, unless the run ends before.
theorem run_calls {n : Nat} (run : Relation.ReflTransGen Step s s') (known : p < s.nextPid) (is : s.Is p prog t)
    (all : calls n prog t = some (prog', t')) :
    (p < s'.nextPid ∧ ∃ k < n, ∃ prog'' t'', calls k prog t = some (prog'', t'') ∧ s'.Is p prog'' t'') ∨
      ∃ mid, Relation.ReflTransGen Step s mid ∧ Relation.ReflTransGen Step mid s' ∧ mid.Is p prog' t' := by
  induction run with
  | refl =>
    cases n with
    | zero =>
      cases all
      exact .inr ⟨s, .refl, .refl, is⟩
    | succ n => exact .inl ⟨known, 0, Nat.succ_pos n, prog, t, rfl, is⟩
  | tail run step ih =>
    rcases ih with ⟨known, k, less, prog'', t'', there, is⟩ | ⟨mid, before, after, is⟩
    · obtain ⟨⟨prog₁, t₁⟩, next⟩ := calls_more less all
      have one : calls 1 prog'' t'' = some (prog₁, t₁) := by
        rw [calls_succ, there] at next
        exact next
      obtain ⟨known, stays | moves⟩ := step_calls step known is one
      · exact .inl ⟨known, k, less, prog'', t'', there, stays⟩
      · rcases Nat.lt_or_eq_of_le (Nat.succ_le_of_lt less) with more | last
        · exact .inl ⟨known, k + 1, more, prog₁, t₁, next, moves⟩
        · rw [← last, Nat.succ_eq_add_one, next] at all
          cases all
          exact .inr ⟨_, run.tail step, .refl, moves⟩
    · exact .inr ⟨mid, before, after.tail step, is⟩

end

-- No descriptor is redirected to one file first and to another one last.
theorem last_redirection_wins_iff (line : List UInt8) (text : 0 ∉ line) (cmd : Cmd) (parsed : parsecmd line = .ok cmd) :
    ∃ d : Line, Scans line d.tokens ∧ d.cmd = cmd ∧
      ((∀ c ∈ d.simples, LastWins c) ↔ ∀ c ∈ d.simples, ∀ fd < 2, firstOn c.redirs fd = lastOn c.redirs fd) := by
  obtain ⟨d, -, scans, same⟩ := parsecmd_derivation text parsed
  exact ⟨d, scans, same, forall₂_congr fun c _ => lastWins_iff c⟩

-- a>f<g
theorem last_redirection_wins_in_out :
    parsecmd [97, 62, 102, 60, 103] = .ok (.redir (.redir (.exec [[97]]) [102] oWronlyCreate 1) [103] oRdonly 0) ∧
      LastWins (.exec [] [([97], [⟨.gt, [102]⟩, ⟨.lt, [103]⟩])]) := by
  have parsed : parsecmd [97, 62, 102, 60, 103] =
    .ok (.redir (.redir (.exec [[97]]) [102] oWronlyCreate 1) [103] oRdonly 0) := by rfl
  obtain ⟨d, scans, -, wins⟩ := last_redirection_wins_iff _ (by decide) _ parsed
  have tokens : Scans [97, 62, 102, 60, 103] [.word [97], .gt, .word [102], .lt, .word [103]] := by
    refine .token (.word [97]) _ _ ?_ (.token .gt _ _ ?_ (.token (.word [102]) _ _ ?_ (.token .lt _ _ trivial
      (.token (.word [103]) _ _ ?_ .nil))))
    · simp [Token.Before, whitespace, symbols]
    · simp [Token.Before]
    · simp [Token.Before, whitespace, symbols]
    · simp [Token.Before, whitespace, symbols]
  have same : d = .last (.one (.exec [] [([97], [⟨.gt, [102]⟩, ⟨.lt, [103]⟩])])) 0 :=
    (tokens_unique (scans_unique scans tokens) rfl (line_ends _)).1
  subst same
  refine ⟨parsed, wins.mpr ?_ _ List.mem_cons_self⟩
  intro c member fd small
  cases List.mem_singleton.mp member
  obtain rfl | rfl : fd = 0 ∨ fd = 1 := by omega
  · rfl
  · rfl

-- a>f>g: both files are opened on descriptor 1, and a runs with f.
theorem first_redirection_wins :
    parsecmd [97, 62, 102, 62, 103] = .ok (.redir (.redir (.exec [[97]]) [102] oWronlyCreate 1) [103] oWronlyCreate 1) ∧
      lastOn [⟨.gt, [102]⟩, ⟨.gt, [103]⟩] 1 = some (.file [103] oWronlyCreate) ∧
      ∃ s pr env next, Runs (.redir (.redir (.exec [[97]]) [102] oWronlyCreate 1) [103] oWronlyCreate 1) s ∧
        s.At 1 pr (.exec [[97]] env) next ∧ pr.fds 1 = some (.file [102] oWronlyCreate) := by
  have first := Runs.step _ _ .start
    (.close (start (.redir (.redir (.exec [[97]]) [102] oWronlyCreate 1) [103] oWronlyCreate 1)) 1 _ 1 _ ⟨rfl, rfl⟩)
  have second := Runs.step _ _ first (.open_ _ 1 _ [103] oWronlyCreate _ ⟨rfl, rfl⟩)
  have third := Runs.step _ _ second (.close _ 1 _ 1 _ ⟨rfl, rfl⟩)
  have fourth := Runs.step _ _ third (.open_ _ 1 _ [102] oWronlyCreate _ ⟨rfl, rfl⟩)
  exact ⟨rfl, rfl, _, _, _, _, fourth, ⟨rfl, rfl⟩, rfl⟩

end Xv6.Sh
