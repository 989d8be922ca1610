import Xv6.Log.Group

set_option autoImplicit false

namespace Xv6

section

variable {M N : Type}

def Op.client {β : Type} : Op M N β → Bool
  | .mem _ => true
  | .buf _ _ => true
  | .probe _ => true
  | _ => false

inductive LogUser : {α : Type} → KProg M N α → Prop where
  | ret {α : Type} (a : α) : LogUser (.ret a)
  | client {α β : Type} (act : Op M N β) (next : β → KProg M N α) (plain : act.client = true)
      (rest : ∀ r s s', act.exec s = .ok r s' → LogUser (next r)) : LogUser (.op act next)
  | beginOp {α : Type} (next : Unit → KProg M N α) (rest : LogUser (next ())) : LogUser (.op .beginOp next)
  | endOp {α : Type} (next : Unit → KProg M N α) (rest : LogUser (next ())) : LogUser (endOp >>= next)

def Op.direct {β : Type} : Op M N β → Sys M → Option Nat
  | .buf b f, s =>
    match f (s.cache b) s.mem with
    | .written _ _ _ => some b
    | _ => none
  | _, _ => none

def ThroughLog (start size : Nat) (e : Event (Op M N) (Sys M)) : Prop :=
  e.act.direct e.pre = none ∧ ∀ b, e.act.logs e.pre = some b → Home start size b

def Op.startsCommit {β : Type} : Op M N β → β → Bool
  | .endOp, r => r
  | _, _ => false

-- The disk as it was at the start, and as each commit has it.
def snapshots (initial : Nat → Block) (trace : List (Event (Op M N) (Sys M))) : List (Nat → Block) :=
  initial :: (trace.filter fun e => e.act.startsCommit e.res).map fun e => e.post.cache

theorem snapshots_append (initial : Nat → Block) (trace : List (Event (Op M N) (Sys M))) (e : Event (Op M N) (Sys M))
    (v : Nat → Block) (member : v ∈ snapshots initial trace) : v ∈ snapshots initial (trace ++ [e]) := by
  simp only [snapshots, List.filter_append, List.map_append, List.mem_cons, List.mem_append] at member ⊢
  tauto

theorem snapshots_commit (initial : Nat → Block) (trace : List (Event (Op M N) (Sys M))) (e : Event (Op M N) (Sys M))
    (starts : e.act.startsCommit e.res = true) : e.post.cache ∈ snapshots initial (trace ++ [e]) := by
  simp [snapshots, starts]

theorem copying_congr (s next : Sys M) (v : Nat → Block) (t : Nat) (copying : Copying s v t) (cache : next.cache = s.cache)
    (disk : next.disk = s.disk) (start : next.log.start = s.log.start) (size : next.log.size = s.log.size)
    (lh : next.log.lh = s.log.lh) : Copying next v t := by
  obtain ⟨settled, short, room, home, clean, copied⟩ := copying
  refine ⟨?_, ?_, ?_, ?_, ?_, ?_⟩ <;> simp only [cache, disk, start, size, lh] <;> assumption

inductive Commit where
  | out
  | copying (t n : Nat)
  | installing (t n : Nat)
  | installed
  | settled

def Commit.At (old w : Nat → Block) (s : Sys M) : Commit → Prop
  | .out => False
  | .copying t n => Copying s old t ∧ s.log.lh.length = n
  | .installing t n => Installing s w t ∧ s.log.lh.length = n
  | .installed => Installed s w
  | .settled => Settled s.log.start s.log.size s.disk w ∧ s.log.lh = []

theorem commit_at_mem (old w : Nat → Block) (s : Sys M) (m : M) (phase : Commit) (holds : phase.At old w s) :
    phase.At old w { s with mem := m } := by
  cases phase with
  | out => exact holds
  | copying t n => exact ⟨copying_congr s _ old t holds.1 rfl rfl rfl rfl rfl, holds.2⟩
  | installing t n => exact ⟨⟨holds.1.rep, holds.1.listed, holds.1.logged, holds.1.done⟩, holds.2⟩
  | installed => exact ⟨holds.rep, holds.cleared, holds.inPlace⟩
  | settled => exact holds

structure Open (initial : Nat → Block) (trace : List (Event (Op M N) (Sys M))) (s : Sys M) (phase : Nat → Commit) : Prop where
  flag : s.log.committing = false
  out : ∀ q, phase q = .out
  disk : ∃ old ∈ snapshots initial trace, Copying s old 0

structure Busy (initial : Nat → Block) (trace : List (Event (Op M N) (Sys M))) (s : Sys M) (phase : Nat → Commit)
    (p : Nat) : Prop where
  flag : s.log.committing = true
  alone : s.log.outstanding = 0
  others : ∀ q, q ≠ p → phase q = .out
  disk : ∃ old ∈ snapshots initial trace, ∃ w ∈ snapshots initial trace, (phase p).At old w s ∧
    ∀ b, Home s.log.start s.log.size b → s.cache b = w b

structure CrashInv (start size : Nat) (initial : Nat → Block) (trace : List (Event (Op M N) (Sys M))) (s : Sys M)
    (phase : Nat → Commit) : Prop where
  atStart : s.log.start = start
  atSize : s.log.size = size
  state : Open initial trace s phase ∨ ∃ p, Busy initial trace s phase p

variable {start size : Nat} {initial : Nat → Block}

theorem crash_inv_represents (trace : List (Event (Op M N) (Sys M))) (s : Sys M) (phase : Nat → Commit)
    (inv : CrashInv start size initial trace s phase) : ∃ v ∈ snapshots initial trace, Represents start size s.disk v := by
  obtain ⟨rfl, rfl, state⟩ := inv
  rcases state with ⟨-, -, old, member, copying⟩ | ⟨p, -, -, -, old, oldMember, w, wMember, holds, -⟩
  · exact ⟨old, member, settled_represents _ _ _ _ copying.settled⟩
  · cases at_ : phase p with
    | out =>
      rw [at_] at holds
      exact holds.elim
    | copying t n =>
      rw [at_] at holds
      exact ⟨old, oldMember, settled_represents _ _ _ _ holds.1.settled⟩
    | installing t n =>
      rw [at_] at holds
      exact ⟨w, wMember, holds.1.rep⟩
    | installed =>
      rw [at_] at holds
      exact ⟨w, wMember, holds.rep⟩
    | settled =>
      rw [at_] at holds
      exact ⟨w, wMember, settled_represents _ _ _ _ holds.1⟩

abbrev CrashSafe {α : Type} (start size : Nat) (initial : Nat → Block) (p : Nat) (Q : α → Commit → Prop)
    (c : KProg M N α) (g : Commit) : Prop :=
  Safe Op.exec (ThroughLog start size) (CrashInv start size initial) p Q c g

theorem crash_inv_mem {β : Type} (act : Op M N β) (r : β) (p : Nat) (trace : List (Event (Op M N) (Sys M))) (s : Sys M)
    (phase : Nat → Commit) (m : M) (inv : CrashInv start size initial trace s phase) (out : phase p = .out) :
    CrashInv start size initial (trace ++ [⟨p, act, r, s, { s with mem := m }⟩]) { s with mem := m } (upd phase p .out) := by
  rw [← out, upd_same]
  refine ⟨inv.atStart, inv.atSize, ?_⟩
  rcases inv.state with ⟨flag, outs, old, member, copying⟩ | ⟨q, flag, alone, others, old, oldMember, w, wMember, holds, same⟩
  · exact Or.inl ⟨flag, outs, old, snapshots_append _ _ _ _ member, copying_congr s _ old 0 copying rfl rfl rfl rfl rfl⟩
  · exact Or.inr ⟨q, flag, alone, others, old, snapshots_append _ _ _ _ oldMember, w, snapshots_append _ _ _ _ wMember,
      commit_at_mem _ _ s m _ holds, same⟩

theorem crash_inv_logged {β : Type} (act : Op M N β) (r : β) (p b : Nat) (data : Block)
    (trace : List (Event (Op M N) (Sys M))) (s next : Sys M) (phase : Nat → Commit) (m : M)
    (inv : CrashInv start size initial trace s phase) (out : phase p = .out) (home : Home start size b)
    (logged : ({ s with mem := m } : Sys M).logWrite b data = .ok () next) :
    CrashInv start size initial (trace ++ [⟨p, act, r, s, next⟩]) next (upd phase p .out) := by
  obtain ⟨-, -, open_, same⟩ := (log_write_ok _ next b data).mp logged
  rw [← out, upd_same]
  rcases inv.state with ⟨flag, outs, old, member, copying⟩ | ⟨q, -, alone, -⟩
  · have moved : Copying ({ s with mem := m } : Sys M) old 0 := copying_congr s _ old 0 copying rfl rfl rfl rfl rfl
    have kept := copying_log_write _ next old b data moved (by rw [inv.atStart, inv.atSize]; exact home) logged
    subst same
    exact ⟨inv.atStart, inv.atSize, Or.inl ⟨flag, outs, old, snapshots_append _ _ _ _ member, kept⟩⟩
  · have none : (1 : Int) ≤ s.log.outstanding := open_
    omega

theorem crash_safe_client {α β : Type} (p : Nat) (act : Op M N β) (next : β → KProg M N α) (Q : α → Commit → Prop)
    (plain : act.client = true)
    (rest : ∀ r s s', act.exec s = .ok r s' → CrashSafe start size initial p Q (next r) .out) :
    CrashSafe start size initial p Q (.op act next) .out := by
  intro trace s phase own inv r s' executed met
  refine ⟨.out, ?_, rest r s s' executed⟩
  cases act with
  | mem f =>
    obtain ⟨m, -, rfl⟩ := on_mem_ok s s' _ r executed
    exact crash_inv_mem _ r p trace s phase m inv own
  | buf b f =>
    rcases on_buf_ok s s' b _ r executed with ⟨m, -, rfl⟩ | ⟨data, m, sec, logged⟩ | ⟨data, m, sec, -⟩
    · exact crash_inv_mem _ r p trace s phase m inv own
    · have home : Home start size b := met.2 b (by simp only [Op.logs, sec])
      exact crash_inv_logged _ r p b data trace s s' phase m inv own home logged
    · have direct := met.1
      simp [Op.direct, sec] at direct
  | probe note =>
    cases executed
    exact crash_inv_mem _ _ p trace s phase s.mem inv own
  | _ => cases plain

theorem crash_safe_begin {α : Type} (p : Nat) (next : Unit → KProg M N α) (Q : α → Commit → Prop)
    (rest : CrashSafe start size initial p Q (next ()) .out) : CrashSafe start size initial p Q (.op .beginOp next) .out := by
  intro trace s phase own inv r s' executed _
  refine ⟨.out, ?_, rest⟩
  obtain ⟨⟨open_, -⟩, rfl⟩ := begin_op_ok s s' executed
  rw [← own, upd_same]
  rcases inv.state with ⟨flag, outs, old, member, copying⟩ | ⟨q, flag, -⟩
  · exact ⟨inv.atStart, inv.atSize, Or.inl ⟨flag, outs, old, snapshots_append _ _ _ _ member,
      copying_congr s _ old 0 copying rfl rfl rfl rfl rfl⟩⟩
  · rw [open_] at flag
    cases flag

theorem crash_inv_busy (p : Nat) (trace : List (Event (Op M N) (Sys M))) (s : Sys M) (phase : Nat → Commit)
    (inv : CrashInv start size initial trace s phase) (inside : phase p ≠ .out) : Busy initial trace s phase p := by
  rcases inv.state with ⟨-, outs, -⟩ | ⟨q, busy⟩
  · exact absurd (outs p) inside
  · have here : p = q := by
      by_contra other
      exact inside (busy.others p other)
    rw [here]
    exact busy

theorem crash_inv_commit {β : Type} (act : Op M N β) (r : β) (p : Nat) (trace : List (Event (Op M N) (Sys M)))
    (s next : Sys M) (phase : Nat → Commit) (g g' : Commit) (inv : CrashInv start size initial trace s phase)
    (own : phase p = g) (inside : g ≠ .out) (flag : next.log.committing = s.log.committing)
    (alone : next.log.outstanding = s.log.outstanding) (atStart : next.log.start = s.log.start)
    (atSize : next.log.size = s.log.size)
    (moves : ∀ old w, g.At old w s → (∀ b, Home s.log.start s.log.size b → s.cache b = w b) →
      g'.At old w next ∧ ∀ b, Home s.log.start s.log.size b → next.cache b = w b) :
    CrashInv start size initial (trace ++ [⟨p, act, r, s, next⟩]) next (upd phase p g') := by
  obtain ⟨busy, none, others, old, oldMember, w, wMember, holds, same⟩ :=
    crash_inv_busy p trace s phase inv (by rw [own]; exact inside)
  rw [own] at holds
  obtain ⟨moved, cache⟩ := moves old w holds same
  refine ⟨atStart.trans inv.atStart, atSize.trans inv.atSize, Or.inr ⟨p, flag.trans busy, alone.trans none, ?_, old,
    snapshots_append _ _ _ _ oldMember, w, snapshots_append _ _ _ _ wMember, ?_, ?_⟩⟩
  · intro q other
    rw [upd_ne other]
    exact others q other
  · rw [upd_self]
    exact moved
  · rw [atStart, atSize]
    exact cache

theorem crash_safe_copy_blocks (p n i count : Nat) (total : i + count = n) :
    CrashSafe start size initial p (fun _ g => g = .copying n n)
      (Prog.loop (fun tail => .lift (.writeLog tail)) i count : KProg M N Unit) (.copying i n) := by
  induction count generalizing i with
  | zero =>
    have done : i = n := by omega
    rw [done]
    rfl
  | succ count ih =>
    intro trace s phase own inv r s' executed _
    cases executed
    refine ⟨.copying (i + 1) n, ?_, ih (i + 1) (by omega)⟩
    refine crash_inv_commit _ _ p trace s _ phase _ _ inv own (by simp) rfl rfl rfl rfl ?_
    rintro old w ⟨copying, length⟩ same
    have room := copying.room
    refine ⟨⟨copying_write_log s old i copying (by omega), length⟩, ?_⟩
    intro b home
    rw [← same b home]
    exact upd_ne (home_ne_log _ _ b i home (by omega))

theorem crash_safe_install_blocks (p n i count : Nat) (total : i + count = n) :
    CrashSafe start size initial p (fun _ g => g = .installing n n)
      (Prog.loop (fun tail => .lift (.install tail)) i count : KProg M N Unit) (.installing i n) := by
  induction count generalizing i with
  | zero =>
    have done : i = n := by omega
    rw [done]
    rfl
  | succ count ih =>
    intro trace s phase own inv r s' executed _
    cases executed
    refine ⟨.installing (i + 1) n, ?_, ih (i + 1) (by omega)⟩
    refine crash_inv_commit _ _ p trace s _ phase _ _ inv own (by simp) rfl rfl rfl rfl ?_
    rintro old w ⟨installing, length⟩ same
    refine ⟨⟨installing_install s w i installing (by omega), length⟩, ?_⟩
    intro b home
    show upd s.cache _ _ b = w b
    by_cases this : b = s.log.lh.getD i 0
    · rw [this, upd_self]
      exact installing.logged i (by omega)
    · rw [upd_ne this]
      exact same b home

theorem crash_safe_count {α : Type} (p n : Nat) (g : Commit) (next : Nat → KProg M N α) (Q : α → Commit → Prop)
    (inside : g ≠ .out) (counts : ∀ old w (s : Sys M), g.At old w s → s.log.lh.length = n)
    (rest : CrashSafe start size initial p Q (next n) g) : CrashSafe start size initial p Q (.op .lhN next) g := by
  intro trace s phase own inv r s' executed _
  cases executed
  refine ⟨g, crash_inv_commit _ _ p trace s s phase g g inv own inside rfl rfl rfl rfl (fun _ _ holds same => ⟨holds, same⟩), ?_⟩
  obtain ⟨-, -, -, old, -, w, -, holds, -⟩ := crash_inv_busy p trace s phase inv (by rw [own]; exact inside)
  rw [own] at holds
  rw [counts old w s holds]
  exact rest

theorem crash_safe_commit_head (p n : Nat) :
    CrashSafe start size initial p (fun _ g => g = .installing 0 n) (writeHead : KProg M N Unit) (.copying n n) := by
  intro trace s phase own inv r s' executed _
  cases executed
  refine ⟨.installing 0 n, crash_inv_commit _ _ p trace s _ phase _ _ inv own (by simp) rfl rfl rfl rfl ?_, rfl⟩
  rintro old w ⟨copying, length⟩ same
  have installing := copying_write_head s old (length ▸ copying)
  refine ⟨⟨installing_congr _ _ _ 0 installing (Nat.zero_le _) same, length⟩, ?_⟩
  intro b home
  rw [← same b home]
  exact upd_ne (home_ne_start _ _ b home copying.settled.room)

theorem crash_safe_clear (p n : Nat) :
    CrashSafe start size initial p (fun _ g => g = .installed) (.lift .clearLog : KProg M N Unit) (.installing n n) := by
  intro trace s phase own inv r s' executed _
  cases executed
  refine ⟨.installed, crash_inv_commit _ _ p trace s _ phase _ _ inv own (by simp) rfl rfl rfl rfl ?_, rfl⟩
  rintro old w ⟨installing, length⟩ same
  exact ⟨installing_clear_log s w (length ▸ installing), same⟩

theorem crash_safe_clear_head (p : Nat) :
    CrashSafe start size initial p (fun _ g => g = .settled) (writeHead : KProg M N Unit) .installed := by
  intro trace s phase own inv r s' executed _
  cases executed
  refine ⟨.settled, crash_inv_commit _ _ p trace s _ phase _ _ inv own (by simp) rfl rfl rfl rfl ?_, rfl⟩
  intro old w installed same
  refine ⟨⟨installed_write_head s w installed, installed.cleared⟩, ?_⟩
  intro b home
  rw [← same b home]
  have room := installed.rep.room
  exact upd_ne (home_ne_start _ _ b home (by omega))

theorem crash_safe_commit (p n : Nat) :
    CrashSafe start size initial p (fun _ g => g = .settled) (commit : KProg M N Unit) (.copying 0 n) := by
  intro trace s phase own inv r s' executed _
  cases executed
  obtain ⟨-, -, -, old, -, w, -, holds, -⟩ := crash_inv_busy p trace s phase inv (by simp [own])
  rw [own] at holds
  have length : s.log.lh.length = n := holds.2
  by_cases some : s.log.lh.length > 0
  · refine ⟨.copying 0 n, crash_inv_commit _ _ p trace s s phase _ _ inv own (by simp) rfl rfl rfl rfl
      (fun _ _ holds same => ⟨holds, same⟩), ?_⟩
    show CrashSafe start size initial p _ (if s.log.lh.length > 0 then _ else _) _
    rw [if_pos some]
    have copies : CrashSafe start size initial p (fun _ g => g = .copying n n) (writeLog : KProg M N Unit) (.copying 0 n) :=
      crash_safe_count p n _ _ _ (by simp) (fun _ _ _ holds => holds.2) (crash_safe_copy_blocks p n 0 n (Nat.zero_add n))
    have installs : CrashSafe start size initial p (fun _ g => g = .installing n n) (installTrans : KProg M N Unit)
        (.installing 0 n) :=
      crash_safe_count p n _ _ _ (by simp) (fun _ _ _ holds => holds.2) (crash_safe_install_blocks p n 0 n (Nat.zero_add n))
    refine safe_call copies (fun _ g atG => ?_)
    rw [atG]
    refine safe_call (crash_safe_commit_head p n) (fun _ g atG => ?_)
    rw [atG]
    refine safe_call installs (fun _ g atG => ?_)
    rw [atG]
    refine safe_call (crash_safe_clear p n) (fun _ g atG => ?_)
    rw [atG]
    exact crash_safe_clear_head p
  · refine ⟨.settled, crash_inv_commit _ _ p trace s s phase _ _ inv own (by simp) rfl rfl rfl rfl ?_, ?_⟩
    · rintro old w ⟨copying, -⟩ same
      have empty : s.log.lh = [] := List.length_eq_zero_iff.mp (by omega)
      refine ⟨⟨⟨copying.settled.room, copying.settled.empty, ?_⟩, empty⟩, same⟩
      intro b home
      rw [← copying.clean b home (by simp [empty]), same b home]
    · show CrashSafe start size initial p _ (if s.log.lh.length > 0 then _ else _) _
      rw [if_neg some]
      rfl

theorem crash_safe_finish (p : Nat) :
    CrashSafe start size initial p (fun _ g => g = .out) (.lift .endCommit : KProg M N Unit) .settled := by
  intro trace s phase own inv r s' executed _
  cases executed
  obtain ⟨-, none, others, old, oldMember, w, wMember, holds, same⟩ := crash_inv_busy p trace s phase inv (by simp [own])
  rw [own] at holds
  obtain ⟨settled, empty⟩ := holds
  refine ⟨.out, ⟨inv.atStart, inv.atSize, Or.inl ⟨rfl, ?_, w, snapshots_append _ _ _ _ wMember, ?_⟩⟩, rfl⟩
  · intro q
    by_cases here : q = p
    · rw [here, upd_self]
    · rw [upd_ne here]
      exact others q here
  · refine ⟨settled, ?_, ?_, ?_, ?_, by simp⟩
    · show s.log.lh.length ≤ logsize
      simp [empty]
    · show s.log.lh.length < s.log.size
      simpa [empty] using settled.room
    · show ∀ b ∈ s.log.lh, _
      simp [empty]
    · intro b home _
      show s.cache b = s.disk b
      rw [same b home, settled.inPlace b home]

theorem crash_safe_end (p : Nat) : CrashSafe start size initial p (fun _ g => g = .out) (endOp : KProg M N Unit) .out := by
  intro trace s phase own inv r s' executed _
  obtain ⟨open_, last, rfl⟩ := end_op_ok s s' r executed
  rcases inv.state with ⟨-, outs, old, member, copying⟩ | ⟨q, flag, -⟩
  · cases r with
    | false =>
      refine ⟨.out, ?_, rfl⟩
      rw [← own, upd_same]
      exact ⟨inv.atStart, inv.atSize, Or.inl ⟨rfl, outs, old, snapshots_append _ _ _ _ member,
        copying_congr s _ old 0 copying rfl rfl rfl rfl rfl⟩⟩
    | true =>
      refine ⟨.copying 0 s.log.lh.length, ⟨inv.atStart, inv.atSize, Or.inr ⟨p, rfl, by simpa [Sys.setLog] using last, ?_, old,
        snapshots_append _ _ _ _ member, s.cache, ?_, ?_, fun _ _ => rfl⟩⟩, ?_⟩
      · intro q other
        rw [upd_ne other]
        exact outs q
      · exact snapshots_commit initial trace ⟨p, .endOp, true, s, _⟩ rfl
      · rw [upd_self]
        exact ⟨copying_congr s _ old 0 copying rfl rfl rfl rfl rfl, rfl⟩
      · show CrashSafe start size initial p _ (commit >>= fun _ => .lift .endCommit) _
        refine safe_call (crash_safe_commit p _) (fun _ g atG => ?_)
        rw [atG]
        exact crash_safe_finish p
  · rw [open_] at flag
    cases flag

theorem log_user_crash_safe {α : Type} (p : Nat) (c : KProg M N α) (user : LogUser c) :
    CrashSafe start size initial p (fun _ g => g = .out) c .out := by
  induction user with
  | ret a => rfl
  | client act next plain _ ih => exact crash_safe_client p act next _ plain ih
  | beginOp next _ ih => exact crash_safe_begin p next _ ih
  | endOp next _ ih =>
    refine safe_call (crash_safe_end p) (fun _ g atG => ?_)
    rw [atG]
    exact ih

structure Quiescent (s : Sys M) : Prop where
  room : 0 < s.log.size
  empty : (s.disk s.log.start).getLE 0 4 = 0
  fresh : s.log.lh = []
  idle : s.log.committing = false
  clean : s.cache = s.disk

-- Recovery from the disk as it is restores the contents some commit began with.
theorem log_users_represent {L : Type} (calls : Nat → L → KProg M N L → Prop)
    (users : ∀ p l prog, calls p l prog → LogUser prog) (s : Sys M) (quiescent : Quiescent s) (l : Nat → L)
    (trace : List (Event (Op M N) (Sys M))) (c : Config (Op M N) (Sys M) L)
    (reached : Reach Op.exec calls (ThroughLog s.log.start s.log.size) ⟨s, fun p => .ret (l p)⟩ trace c) :
    ∃ v ∈ snapshots s.disk trace, Represents s.log.start s.log.size c.shared.disk v := by
  have begins : CrashInv (N := N) s.log.start s.log.size s.disk [] s (fun _ => .out) := by
    refine ⟨rfl, rfl, Or.inl ⟨quiescent.idle, fun _ => rfl, s.disk, List.mem_cons_self, ?_⟩⟩
    refine ⟨⟨quiescent.room, quiescent.empty, fun _ _ => rfl⟩, ?_, ?_, ?_, ?_, by simp⟩
    · simp [quiescent.fresh]
    · simpa [quiescent.fresh] using quiescent.room
    · simp [quiescent.fresh]
    · intro b _ _
      rw [quiescent.clean]
  have initially : ∃ phase, CrashInv (N := N) s.log.start s.log.size s.disk [] s phase ∧
      ∀ p, CrashSafe s.log.start s.log.size s.disk p (fun _ g => g = .out) (.ret (l p) : KProg M N L) (phase p) :=
    ⟨fun _ => .out, begins, fun _ => rfl⟩
  have safe (p : Nat) (l : L) (g : Commit) (prog : KProg M N L) (out : g = .out) (allowed : calls p l prog) :
      CrashSafe s.log.start s.log.size s.disk p (fun _ g => g = .out) prog g := by
    rw [out]
    exact log_user_crash_safe p prog (users p l prog allowed)
  obtain ⟨phase, inv, -⟩ := reach_invariant _ initially safe reached
  exact crash_inv_represents trace c.shared phase inv

end

end Xv6
