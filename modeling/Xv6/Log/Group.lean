import Xv6.Lib.Count
import Xv6.Log.Commit

set_option autoImplicit false

namespace Xv6

-- The commits started before its begin_op, and the blocks it has log_written so far.
structure Operation where
  pid : Nat
  epoch : Nat
  writes : List Nat

-- The block list of each commit, the operations in progress and ended, and who is in commit.
structure History where
  commits : List (List Nat)
  inside : Nat → Option Operation
  done : List Operation
  committer : Option Nat

section

variable {M N : Type}

def Op.logs {β : Type} : Op M N β → Sys M → Option Nat
  | .buf b f, s =>
    match f (s.cache b) s.mem with
    | .logged _ _ _ => some b
    | _ => none
  | _, _ => none

def History.logged (h : History) (p : Nat) : Option Nat → History
  | some b => { h with inside := upd h.inside p ((h.inside p).map fun op => { op with writes := b :: op.writes }) }
  | none => h

def History.step {β : Type} (h : History) (p : Nat) : Op M N β → β → Sys M → History
  | .beginOp, _, _ => { h with inside := upd h.inside p (some ⟨p, h.commits.length, []⟩) }
  | .endOp, true, s =>
    { h with inside := upd h.inside p none, done := (h.inside p).toList ++ h.done, commits := h.commits ++ [s.log.lh],
             committer := some p }
  | .endOp, false, _ => { h with inside := upd h.inside p none, done := (h.inside p).toList ++ h.done }
  | .endCommit, _, _ => { h with committer := none }
  | act, _, s => h.logged p (act.logs s)

def history (trace : List (Event (Op M N) (Sys M))) : History :=
  trace.foldl (fun h e => h.step e.pid e.act e.res e.pre) ⟨[], fun _ => none, [], none⟩

theorem history_append (trace : List (Event (Op M N) (Sys M))) (e : Event (Op M N) (Sys M)) :
    history (trace ++ [e]) = (history trace).step e.pid e.act e.res e.pre := by
  rw [history, List.foldl_append]
  rfl

def Op.quiet {β : Type} : Op M N β → Bool
  | .lhN => true
  | .writeHead => true
  | .writeLog _ => true
  | .install _ => true
  | _ => false

theorem quiet_keeps_log {β : Type} (act : Op M N β) (quiet : act.quiet = true) (s next : Sys M) (r : β)
    (executed : act.exec s = .ok r next) : next.log = s.log ∧ next.mem = s.mem := by
  cases act <;> simp only [Op.quiet, Bool.false_eq_true] at quiet
  all_goals
    cases executed
    exact ⟨rfl, rfl⟩

theorem quiet_step {β : Type} (act : Op M N β) (quiet : act.quiet = true) (h : History) (p : Nat) (r : β) (s : Sys M) :
    h.step p act r s = h := by
  cases act <;> simp only [Op.quiet, Bool.false_eq_true] at quiet
  all_goals rfl

section

variable {G : Type} {cond : Event (Op M N) (Sys M) → Prop} {inv : List (Event (Op M N) (Sys M)) → Sys M → (Nat → G) → Prop}
  {p : Nat}

theorem commit_safe (busy cleared : G)
    (quiet : ∀ {β : Type} (act : Op M N β), act.quiet = true → ∀ g, g = busy ∨ g = cleared →
      ∀ trace s ghosts, ghosts p = g → inv trace s ghosts → ∀ r s', act.exec s = .ok r s' →
        inv (trace ++ [⟨p, act, r, s, s'⟩]) s' (upd ghosts p g))
    (empty : ∀ trace s ghosts, ghosts p = busy → inv trace s ghosts → s.log.lh = [] →
      inv (trace ++ [⟨p, .lhN, 0, s, s⟩]) s (upd ghosts p cleared))
    (clear : ∀ trace s ghosts, ghosts p = busy → inv trace s ghosts →
      inv (trace ++ [⟨p, .clearLog, (), s, s.clearLog⟩]) s.clearLog (upd ghosts p cleared)) :
    Safe Op.exec cond inv p (fun _ g => g = cleared) (commit : KProg M N Unit) busy := by
  have section_ {A β : Type} (act : Op M N β) (isQuiet : act.quiet = true) (g : G) (phase : g = busy ∨ g = cleared)
      (k : β → KProg M N A) (Q : A → G → Prop) (rest : ∀ r, Safe Op.exec cond inv p Q (k r) g) :
      Safe Op.exec cond inv p Q (.op act k) g :=
    fun trace s ghosts own holds r s' executed _ =>
      ⟨g, quiet act isQuiet g phase trace s ghosts own holds r s' executed, rest r⟩
  have loop_ (act : Nat → Op M N Unit) (isQuiet : ∀ i, (act i).quiet = true) (i count : Nat) :
      Safe Op.exec cond inv p (fun _ g => g = busy) (Prog.loop (fun tail => .lift (act tail)) i count) busy := by
    induction count generalizing i with
    | zero => rfl
    | succ count ih => exact section_ _ (isQuiet i) busy (Or.inl rfl) _ _ (fun _ => ih (i + 1))
  have head (g : G) (phase : g = busy ∨ g = cleared) :
      Safe Op.exec cond inv p (fun _ g' => g' = g) (writeHead : KProg M N Unit) g :=
    section_ .writeHead rfl g phase _ _ (fun _ => rfl)
  have copies : Safe Op.exec cond inv p (fun _ g => g = busy) (writeLog : KProg M N Unit) busy :=
    section_ .lhN rfl busy (Or.inl rfl) _ _ (loop_ Op.writeLog (fun _ => rfl) 0)
  have installs : Safe Op.exec cond inv p (fun _ g => g = busy) (installTrans : KProg M N Unit) busy :=
    section_ .lhN rfl busy (Or.inl rfl) _ _ (loop_ Op.install (fun _ => rfl) 0)
  intro trace s ghosts own holds n s' executed _
  cases executed
  by_cases some : s.log.lh.length > 0
  · refine ⟨busy, quiet .lhN rfl busy (Or.inl rfl) trace s ghosts own holds _ _ rfl, ?_⟩
    show Safe Op.exec cond inv p _ (if s.log.lh.length > 0 then _ else _) busy
    rw [if_pos some]
    refine safe_call copies (fun _ g atG => ?_)
    rw [atG]
    refine safe_call (head busy (Or.inl rfl)) (fun _ g atG => ?_)
    rw [atG]
    refine safe_call installs (fun _ g atG => ?_)
    rw [atG]
    intro trace s ghosts own holds _ s' executed _
    cases executed
    exact ⟨cleared, clear trace s ghosts own holds, head cleared (Or.inr rfl)⟩
  · have none : s.log.lh = [] := List.length_eq_zero_iff.mp (by omega)
    refine ⟨cleared, ?_, ?_⟩
    · have kept := empty trace s ghosts own holds none
      simpa only [none, List.length_nil] using kept
    · show Safe Op.exec cond inv p _ (if s.log.lh.length > 0 then _ else _) cleared
      rw [if_neg some]
      rfl

end

-- Outside, in an operation, or in commit with the list still to be written or already empty.
inductive Phase where
  | idle
  | inside
  | busy
  | cleared
deriving DecidableEq

structure Occupancy (h : History) (log : Log) (phase : Nat → Phase) : Prop where
  counted : Counted (fun p => phase p = .inside) log.outstanding
  insideIff : ∀ p, phase p = .inside ↔ h.inside p ≠ none
  committerIff : ∀ p, h.committer = some p ↔ phase p = .busy ∨ phase p = .cleared
  flag : log.committing = true ↔ h.committer ≠ none
  alone : h.committer ≠ none → ∀ p, h.inside p = none
  emptied : ∀ p, phase p = .cleared → log.lh = []

-- Each list holds the blocks that operations begun since the commit before have log_written.
structure Accounting (h : History) (lh : List Nat) : Prop where
  nodup : lh.Nodup
  current : ∀ p op, h.inside p = some op → op.epoch = h.commits.length
  past : ∀ op ∈ h.done, op.epoch ≤ h.commits.length
  older : h.committer ≠ none → ∀ op ∈ h.done, op.epoch < h.commits.length
  pending : h.committer = none → ∀ b, b ∈ lh ↔
    ∃ op, (op ∈ h.done ∨ ∃ p, h.inside p = some op) ∧ op.epoch = h.commits.length ∧ b ∈ op.writes
  committed : ∀ k list, h.commits[k]? = some list → ∀ b, b ∈ list ↔ ∃ op ∈ h.done, op.epoch = k ∧ b ∈ op.writes
  running : h.committer ≠ none → lh = [] ∨ h.commits.getLast? = some lh

section

variable (h : History)

theorem accounting_begin (lh : List Nat) (p : Nat) (acc : Accounting h lh) (out : h.inside p = none) :
    Accounting { h with inside := upd h.inside p (some ⟨p, h.commits.length, []⟩) } lh := by
  refine ⟨acc.nodup, ?_, acc.past, acc.older, ?_, acc.committed, acc.running⟩
  · intro q op found
    by_cases same : q = p
    · subst same
      simp only [upd_self, Option.some.injEq] at found
      rw [← found]
    · simp only [upd_ne same] at found
      exact acc.current q op found
  · intro none b
    rw [acc.pending none b]
    constructor
    · rintro ⟨op, ended | ⟨q, found⟩, epoch, member⟩
      · exact ⟨op, Or.inl ended, epoch, member⟩
      · have other : q ≠ p := by
          rintro rfl
          rw [out] at found
          cases found
        exact ⟨op, Or.inr ⟨q, (upd_ne other).trans found⟩, epoch, member⟩
    · rintro ⟨op, ended | ⟨q, found⟩, epoch, member⟩
      · exact ⟨op, Or.inl ended, epoch, member⟩
      · by_cases same : q = p
        · subst same
          simp only [upd_self, Option.some.injEq] at found
          rw [← found] at member
          cases member
        · simp only [upd_ne same] at found
          exact ⟨op, Or.inr ⟨q, found⟩, epoch, member⟩

theorem accounting_write (lh : List Nat) (p b : Nat) (op : Operation) (acc : Accounting h lh)
    (none : h.committer = none) (found : h.inside p = some op) :
    Accounting { h with inside := upd h.inside p (some { op with writes := b :: op.writes }) } (absorb b lh) := by
  refine ⟨absorb_nodup b lh acc.nodup, ?_, acc.past, acc.older, ?_, acc.committed, fun busy => absurd none busy⟩
  · intro q other foundQ
    by_cases same : q = p
    · subst same
      simp only [upd_self, Option.some.injEq] at foundQ
      rw [← foundQ]
      exact acc.current q op found
    · simp only [upd_ne same] at foundQ
      exact acc.current q other foundQ
  · intro _ c
    rw [mem_absorb, acc.pending none c]
    constructor
    · rintro (rfl | ⟨o, ended | ⟨q, foundQ⟩, epoch, member⟩)
      · exact ⟨_, Or.inr ⟨p, upd_self _ _ _⟩, acc.current p op found, by simp⟩
      · exact ⟨o, Or.inl ended, epoch, member⟩
      · by_cases same : q = p
        · subst same
          rw [found, Option.some.injEq] at foundQ
          exact ⟨_, Or.inr ⟨q, upd_self _ _ _⟩, acc.current q op found, by simp [foundQ, member]⟩
        · exact ⟨o, Or.inr ⟨q, (upd_ne same).trans foundQ⟩, epoch, member⟩
    · rintro ⟨o, ended | ⟨q, foundQ⟩, epoch, member⟩
      · exact Or.inr ⟨o, Or.inl ended, epoch, member⟩
      · by_cases same : q = p
        · subst same
          simp only [upd_self, Option.some.injEq] at foundQ
          rw [← foundQ] at epoch member
          rcases List.mem_cons.mp member with now | before
          · exact Or.inl now
          · exact Or.inr ⟨op, Or.inr ⟨q, found⟩, epoch, before⟩
        · simp only [upd_ne same] at foundQ
          exact Or.inr ⟨o, Or.inr ⟨q, foundQ⟩, epoch, member⟩

theorem pending_end (p b : Nat) :
    (∃ op, (op ∈ (h.inside p).toList ++ h.done ∨ ∃ q, upd h.inside p none q = some op) ∧
      op.epoch = h.commits.length ∧ b ∈ op.writes) ↔
    ∃ op, (op ∈ h.done ∨ ∃ q, h.inside q = some op) ∧ op.epoch = h.commits.length ∧ b ∈ op.writes := by
  constructor
  · rintro ⟨op, ended | ⟨q, found⟩, rest⟩
    · rcases List.mem_append.mp ended with now | before
      · exact ⟨op, Or.inr ⟨p, by simpa using now⟩, rest⟩
      · exact ⟨op, Or.inl before, rest⟩
    · by_cases same : q = p
      · subst same
        simp at found
      · rw [upd_ne same] at found
        exact ⟨op, Or.inr ⟨q, found⟩, rest⟩
  · rintro ⟨op, ended | ⟨q, found⟩, rest⟩
    · exact ⟨op, Or.inl (by simp [ended]), rest⟩
    · by_cases same : q = p
      · subst same
        exact ⟨op, Or.inl (by simp [found]), rest⟩
      · exact ⟨op, Or.inr ⟨q, (upd_ne same).trans found⟩, rest⟩

theorem ended_epoch (lh : List Nat) (p : Nat) (acc : Accounting h lh) (op : Operation)
    (member : op ∈ (h.inside p).toList ++ h.done) : op.epoch ≤ h.commits.length := by
  rcases List.mem_append.mp member with now | before
  · exact (acc.current p op (by simpa using now)).le
  · exact acc.past op before

theorem committed_end (lh : List Nat) (p k : Nat) (list : List Nat) (acc : Accounting h lh)
    (found : h.commits[k]? = some list) (b : Nat) :
    b ∈ list ↔ ∃ op ∈ (h.inside p).toList ++ h.done, op.epoch = k ∧ b ∈ op.writes := by
  have older : k < h.commits.length := (List.getElem?_eq_some_iff.mp found).1
  rw [acc.committed k list found b]
  constructor
  · rintro ⟨op, ended, rest⟩
    exact ⟨op, List.mem_append_right _ ended, rest⟩
  · rintro ⟨op, ended, epoch, member⟩
    rcases List.mem_append.mp ended with now | before
    · have current := acc.current p op (by simpa using now)
      omega
    · exact ⟨op, before, epoch, member⟩

theorem inside_end (lh : List Nat) (p q : Nat) (acc : Accounting h lh) (op : Operation)
    (found : upd h.inside p none q = some op) : op.epoch = h.commits.length := by
  by_cases same : q = p
  · subst same
    simp at found
  · rw [upd_ne same] at found
    exact acc.current q op found

theorem accounting_end (lh : List Nat) (p : Nat) (acc : Accounting h lh) (none : h.committer = none) :
    Accounting { h with inside := upd h.inside p Option.none, done := (h.inside p).toList ++ h.done } lh := by
  refine ⟨acc.nodup, ?_, ?_, fun busy => absurd none busy, ?_, ?_, fun busy => absurd none busy⟩
  · intro q op found
    exact inside_end h lh p q acc op found
  · intro op member
    exact ended_epoch h lh p acc op member
  · intro _ b
    rw [acc.pending none b]
    exact (pending_end h p b).symm
  · intro k list found b
    exact committed_end h lh p k list acc found b

theorem accounting_commit (lh : List Nat) (p : Nat) (acc : Accounting h lh) (none : h.committer = none)
    (alone : ∀ q, upd h.inside p Option.none q = Option.none) :
    Accounting { h with inside := upd h.inside p Option.none, done := (h.inside p).toList ++ h.done,
                        commits := h.commits ++ [lh], committer := some p } lh := by
  have older (op : Operation) (member : op ∈ (h.inside p).toList ++ h.done) : op.epoch < (h.commits ++ [lh]).length := by
    have bound := ended_epoch h lh p acc op member
    simp only [List.length_append, List.length_singleton]
    omega
  refine ⟨acc.nodup, ?_, fun op member => (older op member).le, fun _ => older, ?_, ?_, fun _ => Or.inr (by simp)⟩
  · intro q op found
    cases (alone q).symm.trans found
  · intro idle
    cases idle
  · intro k list found b
    rcases Nat.lt_or_ge k h.commits.length with before | now
    · rw [List.getElem?_append_left before] at found
      exact committed_end h lh p k list acc found b
    · have last : k = h.commits.length := by
        have bound := (List.getElem?_eq_some_iff.mp found).1
        simp only [List.length_append, List.length_singleton] at bound
        omega
      rw [last, List.getElem?_concat_length, Option.some.injEq] at found
      rw [← found, acc.pending none b, ← pending_end h p b, last]
      constructor
      · rintro ⟨op, ended | ⟨q, inside⟩, rest⟩
        · exact ⟨op, ended, rest⟩
        · rw [alone q] at inside
          cases inside
      · rintro ⟨op, ended, rest⟩
        exact ⟨op, Or.inl ended, rest⟩

theorem accounting_clear (lh : List Nat) (acc : Accounting h lh) (busy : h.committer ≠ none) :
    Accounting h [] :=
  ⟨List.nodup_nil, acc.current, acc.past, acc.older, fun none => absurd none busy, acc.committed, fun _ => Or.inl rfl⟩

theorem accounting_finish (acc : Accounting h []) (busy : h.committer ≠ none)
    (alone : ∀ p, h.inside p = none) : Accounting { h with committer := none } [] := by
  refine ⟨acc.nodup, acc.current, acc.past, fun again => absurd rfl again, ?_, acc.committed, fun again => absurd rfl again⟩
  intro _ b
  constructor
  · intro member
    cases member
  · rintro ⟨op, ended | ⟨p, inside⟩, epoch, -⟩
    · have older := acc.older busy op ended
      have same : op.epoch = h.commits.length := epoch
      omega
    · have out : h.inside p = some op := inside
      rw [alone p] at out
      cases out

end

theorem phase_upd (phase : Nat → Phase) (p q : Nat) (g target : Phase) :
    upd phase p g q = target ↔ (q = p ∧ g = target) ∨ (q ≠ p ∧ phase q = target) := by
  by_cases same : q = p
  · subst same
    simp
  · simp [upd_ne same, same]

theorem inside_upd (inside : Nat → Option Operation) (p q : Nat) (op : Option Operation) :
    upd inside p op q ≠ none ↔ (q = p ∧ op ≠ none) ∨ (q ≠ p ∧ inside q ≠ none) := by
  by_cases same : q = p
  · subst same
    simp
  · simp [upd_ne same, same]

section

variable (h : History)

theorem not_committing (log : Log) (phase : Nat → Phase) (occ : Occupancy h log phase)
    (open_ : log.committing = false) : h.committer = none := by
  by_contra busy
  rw [occ.flag.mpr busy] at open_
  cases open_

theorem occupancy_inside (log : Log) (phase : Nat → Phase) (p : Nat) (occ : Occupancy h log phase)
    (inside : phase p = .inside) : h.committer = none ∧ ∃ op, h.inside p = some op := by
  have some := (occ.insideIff p).mp inside
  refine ⟨?_, Option.ne_none_iff_exists'.mp some⟩
  by_contra busy
  exact some (occ.alone busy p)

theorem committer_upd (log : Log) (phase : Nat → Phase) (p : Nat) (g : Phase) (occ : Occupancy h log phase)
    (none : h.committer = none) (calm : g = .idle ∨ g = .inside) (q : Nat) :
    ¬ (upd phase p g q = .busy ∨ upd phase p g q = .cleared) := by
  have old := (occ.committerIff q).not.mp (by simp [none])
  by_cases same : q = p
  · subst same
    rcases calm with rfl | rfl <;> simp
  · rw [upd_ne same]
    exact old

theorem occupancy_begin (log : Log) (phase : Nat → Phase) (p : Nat) (op : Operation)
    (occ : Occupancy h log phase) (idle : phase p = .idle) (open_ : log.committing = false) :
    Occupancy { h with inside := upd h.inside p (some op) } { log with outstanding := log.outstanding + 1 }
      (upd phase p .inside) := by
  have none := not_committing h log phase occ open_
  have calm := committer_upd h log phase p .inside occ none (Or.inr rfl)
  refine ⟨?_, ?_, ?_, occ.flag, fun busy => absurd none busy, fun q cleared => absurd (Or.inr cleared) (calm q)⟩
  · refine counted_enter p occ.counted (by simp [idle]) (upd_self _ _ _) (fun q other => ?_)
    rw [upd_ne other]
  · intro q
    rw [phase_upd, inside_upd, occ.insideIff]
    simp
  · intro q
    simp only [none, reduceCtorEq, false_iff]
    exact calm q

theorem occupancy_write (log : Log) (phase : Nat → Phase) (p : Nat) (op : Operation) (lh : List Nat)
    (occ : Occupancy h log phase) (inside : phase p = .inside) :
    Occupancy { h with inside := upd h.inside p (some op) } { log with lh := lh } (upd phase p .inside) := by
  obtain ⟨none, -⟩ := occupancy_inside h log phase p occ inside
  have calm := committer_upd h log phase p .inside occ none (Or.inr rfl)
  refine ⟨?_, ?_, ?_, occ.flag, fun busy => absurd none busy, fun q cleared => absurd (Or.inr cleared) (calm q)⟩
  · refine counted_congr occ.counted (fun q => ?_)
    rw [phase_upd]
    by_cases same : q = p
    · subst same
      simp [inside]
    · simp [same]
  · intro q
    rw [phase_upd, inside_upd, occ.insideIff]
    simp
  · intro q
    simp only [none, reduceCtorEq, false_iff]
    exact calm q

theorem occupancy_end (log : Log) (phase : Nat → Phase) (p : Nat) (done : List Operation)
    (occ : Occupancy h log phase) (inside : phase p = .inside) :
    Occupancy { h with inside := upd h.inside p none, done := done } { log with outstanding := log.outstanding - 1 }
      (upd phase p .idle) := by
  obtain ⟨none, -⟩ := occupancy_inside h log phase p occ inside
  have calm := committer_upd h log phase p .idle occ none (Or.inl rfl)
  refine ⟨?_, ?_, ?_, occ.flag, fun busy => absurd none busy, fun q cleared => absurd (Or.inr cleared) (calm q)⟩
  · refine counted_leave p occ.counted inside (by simp) (fun q other => ?_)
    rw [upd_ne other]
  · intro q
    rw [phase_upd, inside_upd, occ.insideIff]
    simp
  · intro q
    simp only [none, reduceCtorEq, false_iff]
    exact calm q

theorem occupancy_last (log : Log) (phase : Nat → Phase) (p : Nat) (occ : Occupancy h log phase)
    (inside : phase p = .inside) (last : log.outstanding - 1 = 0) (q : Nat) : upd h.inside p none q = none := by
  have counted : Counted (fun q => phase q = .inside ∧ q ≠ p) (log.outstanding - 1) :=
    counted_leave p occ.counted inside (by simp) (fun q other => by simp [other])
  rw [last] at counted
  by_contra some
  rcases (inside_upd h.inside p q none).mp some with ⟨-, absent⟩ | ⟨other, found⟩
  · exact absent rfl
  · exact counted_zero counted q ⟨(occ.insideIff q).mpr found, other⟩

theorem occupancy_commit (log : Log) (phase : Nat → Phase) (p : Nat) (done : List Operation)
    (commits : List (List Nat)) (occ : Occupancy h log phase) (inside : phase p = .inside)
    (last : log.outstanding - 1 = 0) :
    Occupancy { h with inside := upd h.inside p none, done := done, commits := commits, committer := some p }
      { log with outstanding := log.outstanding - 1, committing := true } (upd phase p .busy) := by
  obtain ⟨none, -⟩ := occupancy_inside h log phase p occ inside
  have alone := occupancy_last h log phase p occ inside last
  have old (q : Nat) := (occ.committerIff q).not.mp (by simp [none])
  refine ⟨?_, ?_, ?_, by simp, fun _ => alone, ?_⟩
  · refine counted_leave p occ.counted inside (by simp) (fun q other => ?_)
    rw [upd_ne other]
  · intro q
    rw [phase_upd, inside_upd, occ.insideIff]
    simp
  · intro q
    by_cases same : q = p
    · subst same
      simp
    · rw [upd_ne same]
      simp only [Option.some.injEq, old q, iff_false]
      exact fun equal => same equal.symm
  · intro q cleared
    by_cases same : q = p
    · subst same
      simp at cleared
    · rw [upd_ne same] at cleared
      exact absurd (Or.inr cleared) (old q)

theorem occupancy_clear (log : Log) (phase : Nat → Phase) (p : Nat) (occ : Occupancy h log phase)
    (busy : phase p = .busy ∨ phase p = .cleared) : Occupancy h { log with lh := [] } (upd phase p .cleared) := by
  have self := (occ.committerIff p).mpr busy
  refine ⟨?_, ?_, ?_, occ.flag, occ.alone, fun _ _ => rfl⟩
  · refine counted_congr occ.counted (fun q => ?_)
    rw [phase_upd]
    by_cases same : q = p
    · subst same
      rcases busy with now | now <;> simp [now]
    · simp [same]
  · intro q
    rw [phase_upd]
    by_cases same : q = p
    · subst same
      rw [← occ.insideIff]
      rcases busy with now | now <;> simp [now]
    · simp [same, occ.insideIff]
  · intro q
    by_cases same : q = p
    · subst same
      simp [self]
    · rw [upd_ne same]
      exact occ.committerIff q

theorem occupancy_finish (log : Log) (phase : Nat → Phase) (p : Nat) (occ : Occupancy h log phase)
    (cleared : phase p = .cleared) :
    Occupancy { h with committer := none } { log with committing := false } (upd phase p .idle) := by
  have self := (occ.committerIff p).mpr (Or.inr cleared)
  have only (q : Nat) (other : q ≠ p) : ¬ (phase q = .busy ∨ phase q = .cleared) := by
    rw [← occ.committerIff, self, Option.some.injEq]
    exact fun equal => other equal.symm
  have calm (q : Nat) : ¬ (upd phase p .idle q = .busy ∨ upd phase p .idle q = .cleared) := by
    by_cases same : q = p
    · subst same
      simp
    · rw [upd_ne same]
      exact only q same
  refine ⟨?_, ?_, ?_, by simp, fun again => absurd rfl again, fun q atQ => absurd (Or.inr atQ) (calm q)⟩
  · refine counted_congr occ.counted (fun q => ?_)
    rw [phase_upd]
    by_cases same : q = p
    · subst same
      simp [cleared]
    · simp [same]
  · intro q
    rw [phase_upd]
    by_cases same : q = p
    · subst same
      show _ ↔ h.inside q ≠ none
      rw [← occ.insideIff]
      simp [cleared]
    · simp [same, occ.insideIff]
  · intro q
    simp only [reduceCtorEq, false_iff]
    exact calm q

end

def ListStable (trace : List (Event (Op M N) (Sys M))) : Prop :=
  ∀ before e after, trace = before ++ e :: after → ∀ q, (history before).committer = some q →
    e.post.log.lh ≠ e.pre.log.lh → e.pid = q

theorem list_stable_append (trace : List (Event (Op M N) (Sys M))) (e : Event (Op M N) (Sys M))
    (stable : ListStable trace)
    (last : ∀ q, (history trace).committer = some q → e.post.log.lh ≠ e.pre.log.lh → e.pid = q) :
    ListStable (trace ++ [e]) := by
  intro before x after same q committing changed
  rcases List.append_eq_append_iff.mp same with ⟨more, rfl, tail⟩ | ⟨more, rfl, tail⟩
  · cases more with
    | nil =>
      simp only [List.nil_append, List.cons.injEq] at tail
      obtain ⟨rfl, -⟩ := tail
      rw [List.append_nil] at committing
      exact last q committing changed
    | cons y ys => simp at tail
  · cases more with
    | nil =>
      simp only [List.nil_append, List.cons.injEq] at tail
      obtain ⟨rfl, -⟩ := tail
      simp only [List.append_nil] at last
      exact last q committing changed
    | cons y ys =>
      simp only [List.cons_append, List.cons.injEq] at tail
      obtain ⟨rfl, -⟩ := tail
      exact stable before x ys rfl q committing changed

structure GroupInv (trace : List (Event (Op M N) (Sys M))) (s : Sys M) (phase : Nat → Phase) : Prop where
  occupancy : Occupancy (history trace) s.log phase
  accounting : Accounting (history trace) s.log.lh
  stable : ListStable trace

theorem group_quiet {β : Type} (act : Op M N β) (quiet : act.quiet = true) (p : Nat) (g : Phase)
    (trace : List (Event (Op M N) (Sys M))) (s next : Sys M) (phase : Nat → Phase) (r : β) (own : phase p = g)
    (inv : GroupInv trace s phase) (executed : act.exec s = .ok r next) :
    GroupInv (trace ++ [⟨p, act, r, s, next⟩]) next (upd phase p g) := by
  have same : upd phase p g = phase := by
    rw [← own]
    exact upd_same phase p
  have sameLog := (quiet_keeps_log act quiet s next r executed).1
  refine ⟨?_, ?_, list_stable_append _ _ inv.stable ?_⟩
  · rw [history_append, quiet_step act quiet, same, sameLog]
    exact inv.occupancy
  · rw [history_append, quiet_step act quiet, sameLog]
    exact inv.accounting
  · intro q _ changed
    exact absurd (congrArg Log.lh sameLog) changed

theorem group_clear (p : Nat) (trace : List (Event (Op M N) (Sys M))) (s : Sys M) (phase : Nat → Phase)
    (own : phase p = .busy) (inv : GroupInv trace s phase) :
    GroupInv (trace ++ [⟨p, .clearLog, (), s, s.clearLog⟩]) s.clearLog (upd phase p .cleared) := by
  have self := (inv.occupancy.committerIff p).mpr (Or.inl own)
  refine ⟨?_, ?_, list_stable_append _ _ inv.stable ?_⟩
  · rw [history_append]
    exact occupancy_clear _ _ _ p inv.occupancy (Or.inl own)
  · rw [history_append]
    exact accounting_clear (history trace) _ inv.accounting (by simp [self])
  · intro q committing _
    rw [self, Option.some.injEq] at committing
    exact committing

theorem group_empty (p : Nat) (trace : List (Event (Op M N) (Sys M))) (s : Sys M) (phase : Nat → Phase)
    (own : phase p = .busy) (inv : GroupInv trace s phase) (empty : s.log.lh = []) :
    GroupInv (trace ++ [⟨p, .lhN, 0, s, s⟩]) s (upd phase p .cleared) := by
  refine ⟨?_, ?_, list_stable_append _ _ inv.stable (fun _ _ changed => absurd rfl changed)⟩
  · have cleared := occupancy_clear _ _ _ p inv.occupancy (Or.inl own)
    rw [← empty] at cleared
    rw [history_append]
    exact cleared
  · rw [history_append]
    exact inv.accounting

theorem group_begin (p : Nat) (trace : List (Event (Op M N) (Sys M))) (s next : Sys M) (phase : Nat → Phase)
    (own : phase p = .idle) (inv : GroupInv trace s phase) (started : s.beginOp = .ok () next) :
    GroupInv (trace ++ [⟨p, .beginOp, (), s, next⟩]) next (upd phase p .inside) := by
  obtain ⟨open_, rfl⟩ := begin_op_ok s next started
  have out : (history trace).inside p = none := by
    by_contra some
    have inside := (inv.occupancy.insideIff p).mpr some
    rw [own] at inside
    cases inside
  refine ⟨?_, ?_, list_stable_append _ _ inv.stable (fun _ _ changed => absurd rfl changed)⟩
  · rw [history_append]
    exact occupancy_begin _ _ _ p _ inv.occupancy own open_.1
  · rw [history_append]
    exact accounting_begin _ _ p inv.accounting out

theorem group_write (p b : Nat) (f : Block → Block) (trace : List (Event (Op M N) (Sys M))) (s next : Sys M)
    (phase : Nat → Phase) (own : phase p = .inside) (inv : GroupInv trace s phase)
    (logged : s.logWrite b (f (s.cache b)) = .ok () next) :
    GroupInv (trace ++ [⟨p, .buf b fun data m => .logged () (f data) m, (), s, next⟩]) next (upd phase p .inside) := by
  obtain ⟨none, op, found⟩ := occupancy_inside _ _ _ p inv.occupancy own
  obtain ⟨-, -, -, rfl⟩ := (log_write_ok s next b _).mp logged
  have step : (history trace).step p (.buf b fun data m => .logged () (f data) m : Op M N Unit) () s =
      { history trace with inside := upd (history trace).inside p (some { op with writes := b :: op.writes }) } := by
    simp only [History.step, Op.logs, History.logged, found, Option.map_some]
  refine ⟨?_, ?_, list_stable_append _ _ inv.stable ?_⟩
  · rw [history_append]
    simp only [step]
    exact occupancy_write _ _ _ p _ _ inv.occupancy own
  · rw [history_append]
    simp only [step]
    exact accounting_write _ _ p b op inv.accounting none found
  · intro q committing
    rw [none] at committing
    cases committing

theorem group_end (p : Nat) (trace : List (Event (Op M N) (Sys M))) (s next : Sys M) (phase : Nat → Phase) (r : Bool)
    (own : phase p = .inside) (inv : GroupInv trace s phase) (ended : s.endOp = .ok r next) :
    GroupInv (trace ++ [⟨p, .endOp, r, s, next⟩]) next (upd phase p (if r then .busy else .idle)) := by
  obtain ⟨none, op, found⟩ := occupancy_inside _ _ _ p inv.occupancy own
  have step := end_op_ok s next r ended
  have stable (same : next.log.lh = s.log.lh) := list_stable_append _ ⟨p, .endOp, r, s, next⟩ inv.stable
    (fun _ _ changed => absurd same changed)
  cases r with
  | true =>
    obtain ⟨-, last, rfl⟩ := step
    refine ⟨?_, ?_, stable rfl⟩
    · rw [history_append]
      exact occupancy_commit _ _ _ p _ _ inv.occupancy own last
    · rw [history_append]
      exact accounting_commit _ _ p inv.accounting none (occupancy_last _ _ _ p inv.occupancy own last)
  | false =>
    obtain ⟨open_, -, rfl⟩ := step
    refine ⟨?_, ?_, stable rfl⟩
    · have left := occupancy_end _ _ _ p (((history trace).inside p).toList ++ (history trace).done) inv.occupancy own
      rw [open_] at left
      rw [history_append]
      exact left
    · rw [history_append]
      exact accounting_end _ _ p inv.accounting none

theorem group_finish (p : Nat) (trace : List (Event (Op M N) (Sys M))) (s : Sys M) (phase : Nat → Phase)
    (own : phase p = .cleared) (inv : GroupInv trace s phase) :
    GroupInv (trace ++ [⟨p, .endCommit, (), s, s.endCommit⟩]) s.endCommit (upd phase p .idle) := by
  have self := (inv.occupancy.committerIff p).mpr (Or.inr own)
  have empty := inv.occupancy.emptied p own
  have busy : (history trace).committer ≠ none := by simp [self]
  have accounting := inv.accounting
  rw [empty] at accounting
  have finished := accounting_finish _ accounting busy (inv.occupancy.alone busy)
  refine ⟨?_, ?_, list_stable_append _ _ inv.stable (fun _ _ changed => absurd rfl changed)⟩
  · rw [history_append]
    exact occupancy_finish _ _ _ p inv.occupancy own
  · rw [← empty] at finished
    rw [history_append]
    exact finished

def transaction (ws : List (Nat × (Block → Block))) : KProg M N Unit := do
  beginOp
  logWrites ws
  endOp

def Transactions (_ : Nat) (_ : Unit) (prog : KProg M N Unit) : Prop := ∃ ws, prog = transaction ws

theorem end_op_safe (p : Nat) :
    Safe Op.exec (fun _ => True) GroupInv p (fun _ g => g = .idle) (endOp : KProg M N Unit) .inside := by
  intro trace s phase own inv r next executed _
  refine ⟨_, group_end p trace s next phase r own inv executed, ?_⟩
  cases r with
  | false => rfl
  | true =>
    show Safe Op.exec _ GroupInv p _ (commit >>= fun _ => .lift .endCommit) Phase.busy
    refine safe_call (commit_safe Phase.busy Phase.cleared ?_ ?_ ?_) ?_
    · intro β act quiet g _ trace s phase own inv r next executed
      exact group_quiet act quiet p g trace s next phase r own inv executed
    · exact group_empty p
    · exact group_clear p
    · rintro _ _ rfl trace s phase own inv _ next executed _
      cases executed
      exact ⟨.idle, group_finish p trace s phase own inv, rfl⟩

theorem transaction_safe (p : Nat) (ws : List (Nat × (Block → Block))) :
    Safe Op.exec (fun _ => True) GroupInv p (fun _ g => g = .idle) (transaction ws : KProg M N Unit) .idle := by
  have writes : Safe Op.exec (fun _ => True) GroupInv p (fun _ g => g = .inside) (logWrites ws : KProg M N Unit) .inside := by
    induction ws with
    | nil => rfl
    | cons w rest ih =>
      obtain ⟨b, f⟩ := w
      intro trace s phase own inv r next executed _
      have logged := log_write_section b f s next r executed
      exact ⟨.inside, group_write p b f trace s next phase own inv logged, ih⟩
  intro trace s phase own inv r next executed _
  refine ⟨.inside, group_begin p trace s next phase own inv executed, ?_⟩
  show Safe Op.exec _ GroupInv p _ (logWrites ws >>= fun _ => endOp) Phase.inside
  refine safe_call writes (fun _ g atG => ?_)
  rw [atG]
  exact end_op_safe p

theorem group_commit (s : Sys M) (idle : s.log.outstanding = 0) (open_ : s.log.committing = false)
    (empty : s.log.lh = []) (trace : List (Event (Op M N) (Sys M))) (c : Config (Op M N) (Sys M) Unit)
    (reached : Reach Op.exec Transactions (fun _ => True) ⟨s, fun _ => .ret ()⟩ trace c) :
    (∀ q, (history trace).committer = some q → ∀ p, (history trace).inside p = none) ∧ ListStable trace ∧
    c.shared.log.lh.Nodup ∧
    ((history trace).committer = none → ∀ b, b ∈ c.shared.log.lh ↔
      ∃ op, (op ∈ (history trace).done ∨ ∃ p, (history trace).inside p = some op) ∧
        op.epoch = (history trace).commits.length ∧ b ∈ op.writes) ∧
    ((history trace).committer ≠ none →
      c.shared.log.lh = [] ∨ (history trace).commits.getLast? = some c.shared.log.lh) ∧
    (∀ k list, (history trace).commits[k]? = some list → ∀ b, b ∈ list ↔
      ∃ op ∈ (history trace).done, op.epoch = k ∧ b ∈ op.writes) ∧
    (∀ op ∈ (history trace).done, op.epoch ≤ (history trace).commits.length) ∧
    (∀ p op, (history trace).inside p = some op → op.epoch = (history trace).commits.length) := by
  have initial : GroupInv ([] : List (Event (Op M N) (Sys M))) s (fun _ => .idle) := by
    refine ⟨⟨?_, ?_, ?_, ?_, ?_, ?_⟩, ⟨?_, ?_, ?_, ?_, ?_, ?_, ?_⟩, ?_⟩
    · rw [idle]
      exact counted_none (by simp)
    all_goals simp [history, open_, empty, ListStable]
  have safe (p : Nat) (l : Unit) (g : Phase) (prog : KProg M N Unit) (final : g = .idle)
      (allowed : Transactions p l prog) : Safe Op.exec (fun _ => True) GroupInv p (fun _ g => g = .idle) prog g := by
    obtain ⟨ws, rfl⟩ := allowed
    rw [final]
    exact transaction_safe p ws
  have begins : ∃ phase, GroupInv ([] : List (Event (Op M N) (Sys M))) s phase ∧
      ∀ p, Safe Op.exec (fun _ => True) GroupInv p (fun _ g => g = .idle) (.ret () : KProg M N Unit) (phase p) :=
    ⟨fun _ => .idle, initial, fun _ => rfl⟩
  obtain ⟨phase, inv, -⟩ := reach_invariant _ begins safe reached
  have acc := inv.accounting
  refine ⟨?_, inv.stable, acc.nodup, acc.pending, acc.running, acc.committed, acc.past, acc.current⟩
  intro q committing
  exact inv.occupancy.alone (by simp [committing])

theorem group_commit_one_write :
    let s : Sys Unit := ⟨fun _ => Buf.zero, fun _ => Buf.zero, ⟨2, 30, 0, false, []⟩, ()⟩
    ∃ trace, ∃ c : Config (Op Unit Unit) (Sys Unit) Unit,
      Reach Op.exec Transactions (fun _ => True) ⟨s, fun _ => .ret ()⟩ trace c ∧ c.shared.log.lh = [59] ∧
      ∃ op, ((history trace).inside 0 = some op ∧ op.epoch = (history trace).commits.length) ∧ 59 ∈ op.writes := by
  intro s
  let prog : KProg Unit Unit Unit := transaction [(59, id)]
  have called : Reach Op.exec Transactions (fun _ => True) ⟨s, fun _ => .ret ()⟩ [] ⟨s, upd (fun _ => .ret ()) 0 prog⟩ :=
    .call [] _ 0 () prog .init rfl ⟨_, rfl⟩
  have begun := Reach.step [] _ 0 .beginOp _ () _ called rfl rfl trivial
  have logged := Reach.step _ _ 0 (.buf 59 fun data m => .logged () (id data) m) _ () _ begun rfl rfl trivial
  have facts := group_commit s rfl rfl rfl _ _ logged
  exact ⟨_, _, logged, rfl, _, ⟨rfl, facts.2.2.2.2.2.2.2 0 _ rfl⟩, by simp⟩

end

end Xv6
