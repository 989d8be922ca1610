import Xv6.Sh.Accept
import Xv6.Sh.Descriptors

set_option autoImplicit false

namespace Xv6.Sh

-- Each EXEC leaf with its environment: the innermost construct that sets a descriptor wins.
inductive Leaf : Cmd → Env → List Word → Env → Prop where
  | exec (argv : List Word) (env : Env) : Leaf (.exec argv) env argv env
  | redir (cmd : Cmd) (file : Word) (mode fd : Nat) (env env' : Env) (argv : List Word)
      (inner : Leaf cmd (upd env fd (.file file mode)) argv env') : Leaf (.redir cmd file mode fd) env argv env'
  | pipeLeft (left right : Cmd) (id : Nat) (env env' : Env) (argv : List Word)
      (inner : Leaf left (upd env 1 (.writeEnd id)) argv env') : Leaf (.pipe left right) env argv env'
  | pipeRight (left right : Cmd) (id : Nat) (env env' : Env) (argv : List Word)
      (inner : Leaf right (upd env 0 (.readEnd id)) argv env') : Leaf (.pipe left right) env argv env'
  | listLeft (left right : Cmd) (env env' : Env) (argv : List Word) (inner : Leaf left env argv env') :
      Leaf (.list left right) env argv env'
  | listRight (left right : Cmd) (env env' : Env) (argv : List Word) (inner : Leaf right env argv env') :
      Leaf (.list left right) env argv env'
  | back (cmd : Cmd) (env env' : Env) (argv : List Word) (inner : Leaf cmd env argv env') : Leaf (.back cmd) env argv env'

def Execs (P : List Word → Env → Prop) : ShProg → Prop
  | .ret _ => True
  | .op (.exec argv env) next => P argv env ∧ ∀ r, Execs P (next r)
  | .op _ next => ∀ r, Execs P (next r)

theorem execs_next {P : List Word → Env → Prop} {β : Type} {act : ShOp β} {next : β → ShProg} (execs : Execs P (.op act next))
    (r : β) : Execs P (next r) := by
  cases act with
  | exec argv env => exact execs.2 r
  | close fd => exact execs r
  | open_ file mode => exact execs r
  | dup fd => exact execs r
  | pipe => exact execs r
  | fork side => exact execs r
  | wait => exact execs r
  | exit => exact execs r
  | mark m => exact execs r

theorem execs_mono {P Q : List Word → Env → Prop} (weaker : ∀ argv env, P argv env → Q argv env) (prog : ShProg)
    (execs : Execs P prog) : Execs Q prog := by
  induction prog with
  | ret _ => trivial
  | op act next ih =>
    have rest : ∀ r, Execs Q (next r) := fun r => ih r (execs_next execs r)
    cases act with
    | exec argv env => exact ⟨weaker argv env execs.1, rest⟩
    | close fd => exact rest
    | open_ file mode => exact rest
    | dup fd => exact rest
    | pipe => exact rest
    | fork side => exact rest
    | wait => exact rest
    | exit => exact rest
    | mark m => exact rest

theorem foreign_execs (P : List Word → Env → Prop) (prog : ShProg) (foreign : Foreign prog) : Execs P prog := by
  induction prog with
  | ret _ => trivial
  | op act next ih =>
    cases act with
    | exec argv env => exact foreign.elim
    | close fd => exact fun r => ih r (foreign r)
    | open_ file mode => exact fun r => ih r (foreign r)
    | dup fd => exact fun r => ih r (foreign r)
    | pipe => exact fun r => ih r (foreign r)
    | fork side =>
      cases side with
      | none => exact fun r => ih r (foreign r)
      | some id => exact foreign.elim
    | wait => exact fun r => ih r (foreign r)
    | exit => exact fun r => ih r (foreign r)
    | mark m => exact foreign.elim

theorem exit_execs (P : List Word → Env → Prop) : Execs P exit := fun _ => trivial

theorem runcmd_execs (cmd : Cmd) (env : Env) : Execs (Leaf cmd env) (runcmd cmd env) := by
  induction cmd generalizing env with
  | exec argv =>
    rw [runcmd]
    split
    · exact exit_execs _
    · exact ⟨.exec argv env, fun _ => exit_execs _⟩
  | redir cmd file mode fd ih =>
    rw [runcmd]
    rintro - (_ | _)
    · exact exit_execs _
    · exact execs_mono (fun argv env' => .redir cmd file mode fd env env' argv) _ (ih _)
  | list left right left_ih right_ih =>
    rw [runcmd]
    rintro (_ | _)
    · exact fun _ => execs_mono (fun argv env' => .listRight left right env env' argv) _ (right_ih env)
    · exact execs_mono (fun argv env' => .listLeft left right env env' argv) _ (left_ih env)
  | pipe left right left_ih right_ih =>
    rw [runcmd]
    rintro (_ | ⟨p0, p1, id⟩)
    · exact exit_execs _
    · rintro (_ | _)
      · rintro (_ | _)
        · exact fun _ _ _ _ _ => exit_execs _
        · exact fun _ _ _ _ _ => execs_mono (fun argv env' => .pipeRight left right id env env' argv) _ (right_ih _)
      · exact fun _ _ _ _ => execs_mono (fun argv env' => .pipeLeft left right id env env' argv) _ (left_ih _)
  | back cmd ih =>
    rw [runcmd]
    rintro (_ | _)
    · exact exit_execs _
    · exact execs_mono (fun argv env' => .back cmd env env' argv) _ (ih env)

def Proc.Settled (P : List Word → Env → Prop) (pr : Proc) : Prop :=
  match pr.code with
  | none => ∀ fd, pr.fds fd = none
  | some prog => Execs P prog

section

variable {P : List Word → Env → Prop} {s : Sys} {p : Nat} {pr : Proc}

theorem settled_set (settled : ∀ q pr', s.proc q = some pr' → pr'.Settled P) (fds : Table) {prog : ShProg} (execs : Execs P prog)
    (q : Nat) (pr' : Proc) (found : (s.set p (pr.goes fds prog)).proc q = some pr') : pr'.Settled P := by
  rcases set_cases found with ⟨-, rfl⟩ | ⟨-, old⟩
  · exact execs
  · exact settled q pr' old

theorem settled_next (settled : ∀ q pr', s.proc q = some pr' → pr'.Settled P) {β : Type} {act : ShOp β} {next : β → ShProg}
    (at_ : s.At p pr act next) (r : β) : Execs P (next r) := by
  have execs := settled p pr at_.proc
  unfold Proc.Settled at execs
  rw [at_.code] at execs
  exact execs_next execs r

theorem step_settled {s' : Sys} (settled : ∀ q pr', s.proc q = some pr' → pr'.Settled P) (step : Step s s') :
    ∀ q pr', s'.proc q = some pr' → pr'.Settled P := by
  intro q pr' found
  cases step with
  | close p pr fd next at_ => exact settled_set settled _ (settled_next settled at_ _) q pr' found
  | open_ p pr file mode next at_ => exact settled_set settled _ (settled_next settled at_ _) q pr' found
  | dup p pr fd next at_ => exact settled_set settled _ (settled_next settled at_ _) q pr' found
  | pipe p pr next at_ => exact settled_set settled _ (settled_next settled at_ _) q pr' found
  | fork p pr side next at_ =>
    rcases set_cases found with ⟨-, rfl⟩ | ⟨-, old⟩
    · exact settled_next settled at_ true
    · exact settled_set settled _ (settled_next settled at_ _) q pr' old
  | reap p pr q' child next at_ other found' mine dead =>
    by_cases gone : q = q'
    · subst gone
      have absent : upd (s.set p (pr.goes pr.fds (next ()))).proc q none q = none := upd_self _ _ _
      exact absurd (absent.symm.trans found) (by simp)
    · exact settled_set settled _ (settled_next settled at_ ()) q pr' ((upd_ne gone).symm.trans found)
  | childless p pr next at_ none_ => exact settled_set settled _ (settled_next settled at_ _) q pr' found
  | execFails p pr argv env next at_ => exact settled_set settled _ (settled_next settled at_ _) q pr' found
  | exec p pr argv env next prog at_ foreign => exact settled_set settled _ (foreign_execs P prog foreign) q pr' found
  | exit p pr next at_ =>
    rcases exited_cases found with ⟨-, rfl⟩ | ⟨-, old, before, fds, -, code⟩
    · exact fun _ => rfl
    · have settled_old := settled q old before
      unfold Proc.Settled at settled_old ⊢
      rw [code, fds]
      exact settled_old
  | mark p pr m next at_ => cases m <;> exact settled_set settled _ (settled_next settled at_ _) q pr' found

end

theorem runs_settled {cmd : Cmd} {s : Sys} (runs : Runs cmd s) (p : Nat) (pr : Proc) (found : s.proc p = some pr) :
    pr.Settled (Leaf cmd .initial) := by
  induction runs generalizing p pr with
  | start =>
    by_cases here : p = 1
    · rw [here] at found
      cases found
      exact runcmd_execs cmd .initial
    · have absent : (start cmd).proc p = none := if_neg here
      rw [absent] at found
      cases found
  | step s s' _ step before => exact step_settled before step p pr found

theorem redirs_standard (rs : List Redir) (cmd : Cmd) (standard : cmd.Standard) : (rs.foldl redircmd cmd).Standard := by
  induction rs generalizing cmd with
  | nil => exact standard
  | cons r rs ih =>
    apply ih
    unfold redircmd
    cases r.op with
    | lt => exact ⟨by decide, standard⟩
    | gt => exact ⟨by decide, standard⟩
    | gtgt => exact ⟨by decide, standard⟩

theorem backs_standard (n : Nat) (cmd : Cmd) (standard : cmd.Standard) : (Cmd.back^[n] cmd).Standard := by
  induction n generalizing cmd with
  | zero => exact standard
  | succ n ih =>
    rw [Function.iterate_succ_apply]
    exact ih (.back cmd) standard

mutual

theorem line_standard : (l : Line) → l.cmd.Standard
  | .last pipe backs => by
    rw [Line.cmd]
    exact backs_standard backs _ (pipeline_standard pipe)
  | .seq pipe backs rest => by
    rw [Line.cmd]
    exact ⟨backs_standard backs _ (pipeline_standard pipe), line_standard rest⟩

theorem pipeline_standard : (p : Pipeline) → p.cmd.Standard
  | .one simple => by
    rw [Pipeline.cmd]
    exact simple_standard simple
  | .more simple rest => by
    rw [Pipeline.cmd]
    exact ⟨simple_standard simple, pipeline_standard rest⟩

theorem simple_standard : (d : Simple) → d.cmd.Standard
  | .block line rs => by
    rw [Simple.cmd]
    exact redirs_standard rs _ (line_standard line)
  | .exec rs args => by
    rw [Simple.cmd]
    exact redirs_standard _ _ trivial

end

theorem parsecmd_standard (line : List UInt8) (text : 0 ∉ line) (cmd : Cmd) (parsed : parsecmd line = .ok cmd) : cmd.Standard := by
  obtain ⟨d, -, -, rfl⟩ := parsecmd_derivation text parsed
  exact line_standard d

end Xv6.Sh
