import Xv6.Proc.Runs

set_option autoImplicit false

namespace Xv6.Smp

variable {ncpu : Nat} {s : Smp} {g : Nat → Ghost} {cond : Event SmpOp Smp → Prop} {trace : List (Event SmpOp Smp)}

theorem history_events {P : Event SmpOp Smp → Prop} (history : History ncpu cond trace s g)
    (holds : ∀ {β : Type} (i : Nat) (act : SmpOp β) (r : β) (s s' : Smp) (g : Nat → Ghost) (own : Ghost),
      Core ncpu s g → Frames s.table g → act.exec ncpu s = .ok r s' → Moves i (threadOf i) act r (g i) own →
        P ⟨i, act, r, s, s'⟩) : ∀ e ∈ trace, P e := by
  induction history with
  | boot => simp
  | step before executed met moved ih =>
    intro e member
    rcases List.mem_append.mp member with old | new
    · exact ih e old
    · rw [List.mem_singleton.mp new]
      exact holds _ _ _ _ _ _ _ (history_inv before).1 (history_inv before).2 executed moved

def switchesTo {β : Type} : SmpOp β → β → Option Nat
  | .dispatch _ q, true => some q
  | _, _ => none

def reaps {β : Type} (q : Nat) (before after : Smp) : SmpOp β → Prop
  | .wait _ => (before.table.proc q).state ≠ .unused ∧ (after.table.proc q).state = .unused
  | _ => False

theorem running_iff_current (core : Core ncpu s g) {p : Nat}
    (outside : ∀ a < ncpu, s.lock ptableLock = some a → (s.cpu a).proc ≠ some p) :
    (s.table.proc p).state = .running ↔ ∃ a < ncpu, (s.cpu a).proc = some p ∧ ∀ b < ncpu, (s.cpu b).proc = some p → b = a := by
  constructor
  · intro running
    obtain ⟨a, inside, current⟩ := core.running p running
    exact ⟨a, inside, current, fun b inside' current' => core.unique b inside' a inside p current' current⟩
  · rintro ⟨a, inside, current, -⟩
    obtain ⟨i, stack, kind⟩ := core.threads a inside
    rcases kind with process | scheduler
    · obtain ⟨own, status⟩ := core.onProc a inside i process (by rw [stack, thread_of_proc process])
      rw [current] at own
      cases own
      refine status.resolve_right fun leaving => ?_
      exact outside a inside ((core.lockset a inside p stack ptableLock).mpr (core.leaving p leaving).1) current
    · -- The scheduler between swtch's return and proc = 0 holds the lock.
      subst scheduler
      have held := core.away (nproc + a) (by rw [← core.current a inside, current]; simp)
      exact absurd current (outside a inside ((core.lockset a inside (nproc + a) stack ptableLock).mpr held))

theorem dispatch_runnable {β : Type} {act : SmpOp β} {r : β} {s' : Smp} (executed : act.exec ncpu s = .ok r s') {q : Nat}
    (switched : switchesTo act r = some q) : (s.table.proc q).state = .runnable := by
  cases act with
  | dispatch th k =>
    obtain ⟨c, -, -, ⟨rfl, -⟩ | ⟨rfl, runnable, -⟩⟩ := dispatch_ok executed
    · cases switched
    · cases switched
      exact runnable
  | _ => cases switched

theorem reaped_stack_idle {β : Type} {act : SmpOp β} {r : β} {s' : Smp} {i : Nat} {own : Ghost} (core : Core ncpu s g)
    (executed : act.exec ncpu s = .ok r s') (moved : Moves i (threadOf i) act r (g i) own) {q : Nat} (reaped : reaps q s s' act) :
    ∀ a < ncpu, (s.cpu a).stack ≠ .proc q ∧ (s.cpu a).pgdir ≠ some q := by
  cases moved with
  | waitReaped pid _ calm locked =>
    obtain ⟨c, p, inside, stack, current, rest⟩ := current_ok executed
    injection rest with result same
    obtain ⟨k, slot, -, zombie, -, section_⟩ := s.table.wait_reaped result
    obtain ⟨used, freed⟩ := reaped
    have here : q = k := by
      by_contra other
      rw [← same, section_, setTable, Ptable.set_ne _ _ other] at freed
      exact used freed
    subst here
    have idle := idle_elsewhere core inside stack (calm_of_out calm) locked (q := q) (by rw [zombie]; simp)
    intro a inside'
    refine ⟨fun stack' => ?_, fun loaded => ?_⟩
    · exact idle a inside' (core.onProc a inside' q slot stack').1
    · rw [core.pgdirs a inside'] at loaded
      exact idle a inside' loaded
  | waitSleeps _ calm =>
    obtain ⟨c, p, inside, stack, current, rest⟩ := current_ok executed
    injection rest with result same
    rw [← same, (s.table.wait_no_zombie (.inl result)).1] at reaped
    exact absurd reaped.2 reaped.1
  | waitFailed _ calm =>
    obtain ⟨c, p, inside, stack, current, rest⟩ := current_ok executed
    injection rest with result same
    rw [← same, (s.table.wait_no_zombie (.inr result)).1] at reaped
    exact absurd reaped.2 reaped.1
  | _ => exact reaped.elim

-- RUNNING is being the current process of one CPU, except for the CPU that is inside ptable.lock.
theorem one_cpu_a_process (ncpu : Nat) {trace : List (Event SmpOp Smp)} {config : Config SmpOp Smp KTask}
    (reached : SmpReach ncpu (fun _ => True) trace config) :
    (∀ p, ∀ a < ncpu, ∀ b < ncpu, (config.shared.cpu a).stack = .proc p → (config.shared.cpu b).stack = .proc p → a = b) ∧
    (∀ p, (∀ a < ncpu, config.shared.lock ptableLock = some a → (config.shared.cpu a).proc ≠ some p) →
      ((config.shared.table.proc p).state = .running ↔ ∃ a < ncpu, (config.shared.cpu a).proc = some p ∧
        ∀ b < ncpu, (config.shared.cpu b).proc = some p → b = a)) ∧
    (∀ e ∈ trace, ∀ q, switchesTo e.act e.res = some q → (e.pre.table.proc q).state = .runnable) ∧
    (∀ e ∈ trace, ∀ q, reaps q e.pre e.post e.act → ∀ a < ncpu, (e.pre.cpu a).stack ≠ .proc q ∧ (e.pre.cpu a).pgdir ≠ some q) := by
  obtain ⟨g, history⟩ := smp_history reached
  have core := (history_inv history).1
  refine ⟨?_, fun p outside => running_iff_current core outside, ?_, ?_⟩
  · intro p a inside b inside' first second
    obtain ⟨i, stack, -⟩ := core.threads a inside
    rw [first] at stack
    exact core.alone a inside b inside' i (first.trans stack) (second.trans stack)
  · refine history_events history fun i act r s s' g own _ _ executed _ => ?_
    exact fun q switched => dispatch_runnable executed switched
  · refine history_events history fun i act r s s' g own core _ executed moved => ?_
    exact fun q reaped => reaped_stack_idle core executed moved reaped

def dispatching : Config SmpOp Smp KTask :=
  ⟨bootSmp.shared, upd bootSmp.thread (nproc + 0) (scheduler 0 >>= fun _ => .ret .idle)⟩

theorem dispatching_reached (ncpu : Nat) (exists_ : 0 < ncpu) : SmpReach ncpu (fun _ => True) [] dispatching :=
  .call [] bootSmp (nproc + 0) .idle _ .init rfl (.scheduler 0 exists_)

def initRuns (s : Smp) : Bool :=
  (s.table.proc 0).state = .running && s.lock ptableLock = none && (s.cpu 0).proc = some 0 && (s.cpu 1).proc = none

theorem one_cpu_a_process_for_init :
    ∃ trace config, SmpReach 2 (fun _ => True) trace config ∧ initRuns config.shared = true ∧
      ∀ a < 2, (config.shared.cpu a).stack = .proc 0 → a = 0 := by
  have ran : (dispatching.schedule (SmpOp.exec 2) [nproc, nproc, 0]).any (fun r =>
      initRuns r.2.shared && (r.2.shared.cpu 0).stack = .proc 0) = true := by decide +kernel
  obtain ⟨⟨trace, config⟩, scheduled, good⟩ := (Option.any_eq_true _ _).mp ran
  obtain ⟨runs, stack⟩ := Bool.and_eq_true_iff.mp good
  have reached := schedule_reach (fun _ => trivial) _ (dispatching_reached 2 (by decide)) scheduled
  refine ⟨_, config, reached, runs, fun a inside onInit => ?_⟩
  exact (one_cpu_a_process 2 reached).1 0 a inside 0 (by decide) onInit (of_decide_eq_true stack)

end Xv6.Smp
