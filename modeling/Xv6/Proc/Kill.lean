import Xv6.Proc.Lifecycle

set_option autoImplicit false

namespace Xv6.Smp

variable {ncpu : Nat} {i : Nat} {s : Smp} {g : Nat → Ghost} {trace : List (Event SmpOp Smp)}

-- The slots named by a kill or by a fatal trap since fork took them.
def accuse (i : Nat) (t : Ptable) (accused : Nat → Bool) : News → Nat → Bool
  | .forked np => upd accused np false
  | .kill pid _ => fun q => accused q || (t.proc q).pid = pid
  | .trap => upd accused i true
  | _ => accused

def accused (trace : List (Event SmpOp Smp)) : Nat → Bool :=
  trace.foldl (fun before e => accuse e.pid e.pre.table before (news e.act e.res)) fun _ => false

-- kill finds no unused slot, and a fork that fails has not been killed meanwhile.
def aimed (t : Ptable) : News → Bool
  | .kill pid _ => ((List.range nproc).find? fun q => (t.proc q).pid = pid).all fun q => (t.proc q).state ≠ .unused
  | .abandoned np => !(t.proc np).killed
  | _ => true

def Aimed (e : Event SmpOp Smp) : Prop := aimed e.pre.table (news e.act e.res) = true

theorem aimed_kill {t : Ptable} {pid : Int} {found : Bool} (hits : aimed t (.kill pid found) = true) {q : Nat}
    (first : (List.range nproc).find? (fun q => (t.proc q).pid = pid) = some q) : (t.proc q).state ≠ .unused := by
  rw [aimed, first] at hits
  simpa using hits

def Blamed (t : Ptable) (accused : Nat → Bool) : Prop :=
  ∀ q < nproc, (t.proc q).killed = true → (t.proc q).state ≠ .unused ∧ accused q = true

def Spared (t t' : Ptable) : Prop := ∀ q < nproc, (t'.proc q).killed = true →
  (t.proc q).killed = true ∧ ((t.proc q).state ≠ .unused → (t'.proc q).state ≠ .unused)

theorem blamed_spared {t t' : Ptable} {accused : Nat → Bool} (blamed : Blamed t accused) (spared : Spared t t') :
    Blamed t' accused := by
  intro q slot killed
  obtain ⟨before, kept⟩ := spared q slot killed
  obtain ⟨used, guilty⟩ := blamed q slot before
  exact ⟨kept used, guilty⟩

theorem spared_set {t : Ptable} {p : Nat} {pcb : Pcb}
    (slot : pcb.killed = true → (t.proc p).killed = true ∧ ((t.proc p).state ≠ .unused → pcb.state ≠ .unused)) :
    Spared t (t.set p pcb) := by
  intro q _ killed
  by_cases here : q = p
  · subst here
    rw [Ptable.set_self] at killed ⊢
    exact slot killed
  · rw [Ptable.set_ne _ _ here] at killed ⊢
    exact ⟨killed, id⟩

theorem woken_killed {a b : Pcb} (woken : a.Woken b) : b.killed = a.killed := by
  rcases woken with rfl | ⟨-, rfl⟩ <;> rfl

theorem spared_exit (t : Ptable) (p : Nat) : Spared t (t.exit p) := by
  intro q slot killed
  have woken := t.exit_loop_proc p q
  rw [if_pos slot] at woken
  have same := woken_killed woken
  have used := (woken_used woken).1
  by_cases here : q = p
  · subst here
    rw [t.exit_eq, Ptable.setState, Ptable.set_self] at killed ⊢
    exact ⟨by simpa only [Pcb.passTo, same] using killed, fun _ => by simp⟩
  · rw [t.exit_eq, Ptable.setState, Ptable.set_ne _ _ here] at killed ⊢
    exact ⟨same.symm.trans killed, fun inUse unused => inUse (used.mp unused)⟩

theorem blamed_kill {t : Ptable} {accused : Nat → Bool} (blamed : Blamed t accused) (pid : Int)
    (hits : aimed t (.kill pid (t.kill pid).1) = true) :
    Blamed (t.kill pid).2 fun q => accused q || (t.proc q).pid = pid := by
  intro q slot killed
  rcases t.kill_cases pid with ⟨missed, -⟩ | ⟨k, -, matched, first, b, woken, found⟩
  · rw [missed] at killed ⊢
    obtain ⟨used, guilty⟩ := blamed q slot killed
    exact ⟨used, by simp [guilty]⟩
  · rw [found] at killed ⊢
    by_cases here : q = k
    · subst here
      rw [Ptable.set_self]
      have used := (woken_used woken).1
      exact ⟨fun unused => aimed_kill hits first (used.mp unused), by simp [matched]⟩
    · rw [Ptable.set_ne _ _ here] at killed ⊢
      obtain ⟨used, guilty⟩ := blamed q slot killed
      exact ⟨used, by simp [guilty]⟩

theorem blamed_step {t t' : Ptable} {told : News} {accused : Nat → Bool} (blamed : Blamed t accused)
    (step : TableStep i t told t') (hits : aimed t told = true) :
    Blamed t' (accuse i t accused told) := by
  cases step with
  | same _ quiet => rcases quiet with rfl | rfl <;> exact blamed
  | activate q state slot active =>
    refine blamed_spared blamed (spared_set fun killed => ⟨killed, fun _ => ?_⟩)
    rcases active with rfl | rfl <;> simp
  | sleepOn chan slot running => exact blamed_spared blamed (spared_set fun killed => ⟨killed, fun _ => by simp⟩)
  | clearChan slot running => exact blamed_spared blamed (spared_set fun killed => ⟨killed, id⟩)
  | wakeup1 chan =>
    refine blamed_spared blamed fun q _ killed => ?_
    have woken := t.wakeup1_woken (some chan) q
    exact ⟨(woken_killed woken).symm.trans killed, fun used unused => used ((woken_used woken).1.mp unused)⟩
  | forked np slot unused =>
    intro q slot' killed
    have other : q ≠ np := by
      intro same
      subst same
      have before : (t.proc q).killed = true := by
        simpa using killed
      exact (blamed q slot' before).1 unused
    have kept : ({ t.set np { t.proc np with state := .embryo, pid := t.nextpid } with
        nextpid := incPid t.nextpid } : Ptable).proc q = t.proc q := t.set_ne _ other
    rw [kept] at killed ⊢
    rw [accuse, upd_ne other]
    exact blamed q slot' killed
  | abandon np slot embryo =>
    refine blamed_spared blamed (spared_set fun killed => ?_)
    rw [aimed, Bool.not_eq_true'] at hits
    rw [hits] at killed
    cases killed
  | adopt np embryo => exact blamed_spared blamed (spared_set fun killed => ⟨killed, id⟩)
  | exit slot running => exact blamed_spared blamed (spared_exit t i)
  | reaped q slot child zombie => exact blamed_spared blamed (spared_set nofun)
  | kill pid => exact blamed_kill blamed pid hits
  | trap slot running =>
    intro q slot' killed
    by_cases here : q = i
    · subst here
      simp [running, accuse]
    · rw [Ptable.set_ne _ _ here] at killed ⊢
      rw [accuse, upd_ne here]
      exact blamed q slot' killed

theorem history_blamed (history : History ncpu Aimed trace s g) : Blamed s.table (accused trace) := by
  induction history with
  | boot =>
    intro q _ killed
    by_cases init : q = 0
    · rw [init] at killed
      cases killed
    · have slot : bootSmp.shared.table.proc q = ⟨.unused, 0, none, none, false⟩ := userinit_proc init
      rw [slot] at killed
      cases killed
  | step before executed met moved ih =>
    obtain ⟨core, frames⟩ := history_inv before
    rw [accused, List.foldl_append]
    exact blamed_step ih (table_moves core frames executed moved) met

theorem kill_hits {β : Type} {act : SmpOp β} {r : β} {s' : Smp} {own : Ghost} (executed : act.exec ncpu s = .ok r s')
    (moved : Moves i (threadOf i) act r (g i) own) (hits : aimed s.table (news act r) = true) {pid : Int}
    (returned : news act r = .kill pid true) : ∃ q < nproc, (s.table.proc q).state ≠ .unused ∧ (s.table.proc q).pid = pid := by
  cases moved with
  | kill pid' found =>
    cases returned
    obtain ⟨c, -, -, rest⟩ := on_cpu_ok executed
    injection rest with result
    rcases s.table.kill_cases pid with ⟨missed, -⟩ | ⟨k, slot, matched, first, -⟩
    · rw [missed] at result
      cases result
    · exact ⟨k, slot, aimed_kill hits first, matched⟩
  | _ => cases returned

-- Where kill finds no unused slot and no killed fork is abandoned.
theorem killed_only_if_aimed_at (ncpu : Nat) {trace : List (Event SmpOp Smp)} {config : Config SmpOp Smp KTask}
    (reached : SmpReach ncpu Aimed trace config) :
    (∀ q < nproc, (config.shared.table.proc q).state ≠ .unused → (config.shared.table.proc q).killed = true →
      accused trace q = true) ∧
    (∀ e ∈ trace, ∀ pid, news e.act e.res = .kill pid true →
      ∃ q < nproc, (e.pre.table.proc q).state ≠ .unused ∧ (e.pre.table.proc q).pid = pid) := by
  obtain ⟨g, history⟩ := smp_history reached
  refine ⟨fun q slot _ killed => (history_blamed history q slot killed).2, ?_⟩
  have met := reach_trace_meets reached
  have facts := history_events (P := fun e => Aimed e → ∀ pid, news e.act e.res = .kill pid true →
      ∃ q < nproc, (e.pre.table.proc q).state ≠ .unused ∧ (e.pre.table.proc q).pid = pid) history
    fun i act r s s' g own _ _ executed moved hits pid returned => kill_hits executed moved hits returned
  exact fun e member => facts e member (met e member)

def ownKill : List (Turn SmpOp KTask) :=
  [.call (nproc + 0) .idle (scheduler 0 >>= fun _ => .ret .idle), .step nproc, .step nproc, .step 0,
    .call 0 .out (kill (.proc 0) 1 >>= fun _ => .ret .out), .step 0, .step 0, .step 0]

theorem own_kill_allowed : ∀ turn ∈ ownKill, turn.Allowed (SmpCalls 1) := by
  simp only [ownKill, List.forall_mem_cons, List.not_mem_nil, Turn.Allowed, true_and, false_implies, implies_true, and_true]
  exact ⟨.scheduler 0 (by decide), .kill 0 1 (by decide)⟩

theorem killed_only_if_aimed_at_init :
    ∃ trace config, SmpReach 1 Aimed trace config ∧ (config.shared.table.proc 0).killed = true ∧ accused trace 0 = true := by
  have ran : (bootSmp.play (SmpOp.exec 1) ownKill).any (fun r =>
      (r.2.shared.table.proc 0).killed && (r.2.shared.table.proc 0).state = .running &&
        r.1.all fun e => aimed e.pre.table (news e.act e.res)) = true := by
    decide +kernel
  obtain ⟨⟨trace, config⟩, played, good⟩ := (Option.any_eq_true _ _).mp ran
  obtain ⟨running, met⟩ := Bool.and_eq_true_iff.mp good
  obtain ⟨killed, state⟩ := Bool.and_eq_true_iff.mp running
  have reached := play_reach ownKill (fun e member => List.all_eq_true.mp met e member) own_kill_allowed .init played
  have used : (config.shared.table.proc 0).state ≠ .unused := by
    rw [of_decide_eq_true state]
    simp
  exact ⟨_, config, reached, killed, (killed_only_if_aimed_at 1 reached).1 0 (by decide) used killed⟩

-- kill(0) finds an unused slot, which the next fork takes.
def strayKill : List (Turn SmpOp KTask) :=
  [.call (nproc + 0) .idle (scheduler 0 >>= fun _ => .ret .idle), .step nproc, .step nproc, .step 0,
    .call 0 .out (kill (.proc 0) 0 >>= fun _ => .ret .out), .step 0, .step 0, .step 0,
    .call 0 .out (fork (.proc 0)), .step 0, .step 0, .step 0,
    .call 0 (.embryo 1) (.op (.adopt (.proc 0) 1) fun _ => .ret (.adopted 1)), .step 0,
    .call 0 (.adopted 1) (forkReady (.proc 0) 1 >>= fun _ => .ret .out), .step 0, .step 0, .step 0]

theorem stray_kill_allowed : ∀ turn ∈ strayKill, turn.Allowed (SmpCalls 1) := by
  simp only [strayKill, List.forall_mem_cons, List.not_mem_nil, Turn.Allowed, true_and, false_implies, implies_true, and_true]
  exact ⟨.scheduler 0 (by decide), .kill 0 0 (by decide), .fork 0 (by decide), .forkAdopts 0 1 (by decide),
    .forkReady 0 1 (by decide)⟩

def bornKilled (trace : List (Event SmpOp Smp)) (s : Smp) : Bool :=
  (s.table.proc 1).state = .runnable && (s.table.proc 1).pid = 2 && (s.table.proc 1).killed && !accused trace 1

def missedKill (e : Event SmpOp Smp) : Bool :=
  match news e.act e.res with
  | .kill pid true => (List.range nproc).all fun q => (e.pre.table.proc q).state = .unused || (e.pre.table.proc q).pid ≠ pid
  | _ => false

theorem stray_kill_strikes_next_child :
    ∃ trace config, SmpReach 1 (fun _ => True) trace config ∧ bornKilled trace config.shared = true ∧
      trace.any missedKill = true := by
  have ran : (bootSmp.play (SmpOp.exec 1) strayKill).any (fun r => bornKilled r.1 r.2.shared && r.1.any missedKill) = true := by
    decide +kernel
  obtain ⟨⟨trace, config⟩, played, good⟩ := (Option.any_eq_true _ _).mp ran
  obtain ⟨born, missed⟩ := Bool.and_eq_true_iff.mp good
  have reached := play_reach strayKill (fun _ _ => trivial) stray_kill_allowed .init played
  exact ⟨_, config, reached, born, missed⟩

end Xv6.Smp
