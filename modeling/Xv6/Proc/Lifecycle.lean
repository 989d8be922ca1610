import Xv6.Proc.OneCpu

set_option autoImplicit false

namespace Xv6.Smp

inductive News where
  | forked (np : Nat)
  | abandoned (np : Nat)
  | reaped (pid : Int)
  | waitFailed
  | kill (pid : Int) (found : Bool)
  | trap
  | nothing

def news {β : Type} : SmpOp β → β → News
  | .allocproc _, some np => .forked np
  | .abandon _ np, _ => .abandoned np
  | .wait _, .reaped pid => .reaped pid
  | .wait _, .failed => .waitFailed
  | .kill _ pid, found => .kill pid found
  | .trap _, _ => .trap
  | _, _ => .nothing

-- Everything that a step of thread i can do to the process table.
inductive TableStep (i : Nat) (t : Ptable) : News → Ptable → Prop where
  | same (news : News) (quiet : news = .nothing ∨ news = .waitFailed) : TableStep i t news t
  | activate (q : Nat) (state : ProcState) (slot : q < nproc) (active : state = .runnable ∨ state = .running)
      (from_ : (t.proc q).state = .running ∨ (t.proc q).state = .runnable ∨
        ((t.proc q).state = .embryo ∧ (t.proc q).parent ≠ none)) : TableStep i t .nothing (t.setState q state)
  | sleepOn (chan : Chan) (slot : i < nproc) (running : (t.proc i).state = .running)
      (childless : ∀ w, chan = .proc w → w = i ∧ ∀ q < nproc, (t.proc q).parent = some i → (t.proc q).state ≠ .zombie) :
      TableStep i t .nothing (t.set i { t.proc i with chan := some chan, state := .sleeping })
  | clearChan (slot : i < nproc) (running : (t.proc i).state = .running) :
      TableStep i t .nothing (t.set i { t.proc i with chan := none })
  | wakeup1 (chan : Chan) : TableStep i t .nothing (t.wakeup1 (some chan))
  | forked (np : Nat) (slot : np < nproc) (unused : (t.proc np).state = .unused) :
      TableStep i t (.forked np)
        { t.set np { t.proc np with state := .embryo, pid := t.nextpid } with nextpid := incPid t.nextpid }
  | abandon (np : Nat) (slot : np < nproc) (embryo : (t.proc np).state = .embryo) :
      TableStep i t (.abandoned np) (t.setState np .unused)
  | adopt (np : Nat) (embryo : (t.proc np).state = .embryo) (slot : i < nproc) (running : (t.proc i).state = .running) :
      TableStep i t .nothing (t.set np { t.proc np with parent := some i })
  | exit (slot : i < nproc) (running : (t.proc i).state = .running) (notInit : i ≠ t.initproc) :
      TableStep i t .nothing (t.exit i)
  | reaped (q : Nat) (slot : q < nproc) (child : (t.proc q).parent = some i) (zombie : (t.proc q).state = .zombie) :
      TableStep i t (.reaped (t.proc q).pid)
        (t.set q { t.proc q with pid := 0, parent := none, killed := false, state := .unused })
  | kill (pid : Int) : TableStep i t (.kill pid (t.kill pid).1) (t.kill pid).2
  | trap (slot : i < nproc) (running : (t.proc i).state = .running) : TableStep i t .trap (t.set i { t.proc i with killed := true })

variable {ncpu : Nat} {β : Type} {s s' : Smp} {r : β} {g : Nat → Ghost} {i : Nat}

theorem current_running (core : Core ncpu s g) {c p : Nat} (inside : c < ncpu) (stack : (s.cpu c).stack = threadOf i)
    (quiet : (g i).stage.Calm) (current : (s.cpu c).proc = some p) :
    p = i ∧ i < nproc ∧ (s.table.proc i).state = .running := by
  obtain ⟨rfl, process⟩ := current_is_self core inside stack quiet.1 current
  exact ⟨rfl, process, still_running core inside stack quiet process⟩

theorem table_moves (core : Core ncpu s g) (frames : Frames s.table g) {act : SmpOp β} {own : Ghost}
    (executed : SmpOp.exec ncpu act s = .ok r s') (moved : Moves i (threadOf i) act r (g i) own) :
    TableStep i s.table (news act r) s'.table := by
  cases moved with
  | acquire | swapIn =>
    obtain ⟨c, -, -, -, rfl⟩ := acquire_ok executed
    exact .same _ (.inl rfl)
  | release | swapOut =>
    obtain ⟨c, -, -, -, rfl⟩ := release_ok executed
    exact .same _ (.inl rfl)
  | sched =>
    obtain ⟨c, p, -, -, -, -, -, rfl⟩ := sched_ok executed
    exact .same _ (.inl rfl)
  | setRunnable _ calm =>
    obtain ⟨c, p, inside, stack, current, rest⟩ := current_ok executed
    obtain ⟨rfl, process, running⟩ := current_running core inside stack (calm_of_out calm) current
    cases rest
    exact .activate p .runnable process (.inl rfl) (.inl running)
  | enterSleep | enterWait =>
    obtain ⟨c, p, -, -, -, rest⟩ := current_ok executed
    obtain ⟨-, same⟩ := holding_ok rest
    cases same
    exact .same _ (.inl rfl)
  | sleepOn chan lk entered _ swapping _ elsewhere =>
    obtain ⟨c, p, inside, stack, current, rest⟩ := current_ok executed
    obtain ⟨rfl, process, running⟩ := current_running core inside stack (by rw [swapping]; exact ⟨rfl, by simp⟩) current
    obtain ⟨a, rfl⟩ := elsewhere
    cases rest
    exact .sleepOn (.addr a) process running nofun
  | sleepInWait entered _ checked =>
    obtain ⟨c, p, inside, stack, current, rest⟩ := current_ok executed
    obtain ⟨rfl, process, running⟩ := current_running core inside stack (by rw [checked]; exact ⟨rfl, by simp⟩) current
    cases rest
    refine .sleepOn (.proc p) process running fun w same => ?_
    cases same
    exact ⟨rfl, (frames.checked p checked).2⟩
  | clearChan _ calm =>
    obtain ⟨c, p, inside, stack, current, rest⟩ := current_ok executed
    obtain ⟨rfl, process, running⟩ := current_running core inside stack (calm_of_out calm) current
    cases rest
    exact .clearChan process running
  | wakeup1 chan =>
    obtain ⟨c, -, -, rest⟩ := on_cpu_ok executed
    obtain ⟨-, same⟩ := holding_ok rest
    cases same
    exact .wakeup1 chan
  | allocproc np =>
    obtain ⟨c, -, -, rest⟩ := on_cpu_ok executed
    injection rest with found same
    obtain ⟨slot, unused, section_⟩ := s.table.allocproc_some found
    rw [← same, section_]
    exact .forked np slot unused
  | allocFailed =>
    obtain ⟨c, -, -, rest⟩ := on_cpu_ok executed
    injection rest with found same
    rw [← same, s.table.allocproc_none found]
    exact .same _ (.inl rfl)
  | abandon np _ _ inFork =>
    obtain ⟨c, -, -, rest⟩ := on_cpu_ok executed
    cases rest
    obtain ⟨slot, embryo⟩ := frames.embryo i np (by rw [inFork]; rfl)
    exact .abandon np slot embryo
  | adopt np _ calm inFork =>
    obtain ⟨c, p, inside, stack, current, rest⟩ := current_ok executed
    obtain ⟨rfl, process, running⟩ := current_running core inside stack (calm_of_out calm) current
    cases rest
    exact .adopt np (frames.embryo p np (by rw [inFork]; rfl)).2 process running
  | ready np _ _ inFork =>
    obtain ⟨c, -, -, rest⟩ := on_cpu_ok executed
    cases rest
    obtain ⟨slot, embryo⟩ := frames.embryo i np (by rw [inFork]; rfl)
    exact .activate np .runnable slot (.inl rfl) (.inr (.inr ⟨embryo, frames.adopted i np inFork⟩))
  | exit _ calm =>
    obtain ⟨c, p, inside, stack, current, notInit, rfl⟩ := exit_ok executed
    obtain ⟨rfl, process, running⟩ := current_running core inside stack (calm_of_out calm) current
    exact .exit process running notInit
  | waitSleeps =>
    obtain ⟨c, p, -, -, -, rest⟩ := current_ok executed
    injection rest with result same
    rw [← same, (s.table.wait_no_zombie (.inl result)).1]
    exact .same _ (.inl rfl)
  | waitReaped pid _ calm =>
    obtain ⟨c, p, inside, stack, current, rest⟩ := current_ok executed
    obtain ⟨rfl, -, -⟩ := current_running core inside stack (calm_of_out calm) current
    injection rest with result same
    obtain ⟨q, slot, child, zombie, rfl, section_⟩ := s.table.wait_reaped result
    rw [← same, section_]
    exact .reaped q slot child zombie
  | waitFailed =>
    obtain ⟨c, p, -, -, -, rest⟩ := current_ok executed
    injection rest with result same
    rw [← same, (s.table.wait_no_zombie (.inr result)).1]
    exact .same _ (.inr rfl)
  | kill pid found =>
    obtain ⟨c, -, -, rest⟩ := on_cpu_ok executed
    injection rest with result same
    rw [← same, ← result]
    exact .kill pid
  | trap _ calm =>
    obtain ⟨c, p, inside, stack, current, rest⟩ := current_ok executed
    obtain ⟨rfl, process, running⟩ := current_running core inside stack (calm_of_out calm) current
    cases rest
    exact .trap process running
  | passOver q =>
    obtain ⟨c, -, -, ⟨-, rfl⟩ | ⟨impossible, -⟩⟩ := dispatch_ok executed
    · exact .same _ (.inl rfl)
    · cases impossible
  | dispatch c' q _ _ _ _ slot =>
    obtain ⟨c, -, -, ⟨impossible, -⟩ | ⟨-, runnable, rfl⟩⟩ := dispatch_ok executed
    · cases impossible
    · exact .activate q .running slot (.inr rfl) (.inr (.inl runnable))
  | leaveSleep | leaveProc =>
    obtain ⟨c, -, -, rest⟩ := on_cpu_ok executed
    cases rest
    exact .same _ (.inl rfl)

-- Parents are alive, and a process asleep in wait has no exited child.
structure Family (t : Ptable) : Prop where
  initSlot : t.initproc < nproc
  initAlive : (t.proc t.initproc).state.alive = true
  orphan : (t.proc t.initproc).parent = none
  parents : ∀ q < nproc, ∀ w, (t.proc q).parent = some w → w < nproc ∧ w ≠ q ∧ (t.proc w).state.alive = true
  raised : ∀ q < nproc, q ≠ t.initproc → (t.proc q).state ≠ .unused → (t.proc q).state ≠ .embryo → (t.proc q).parent ≠ none
  rested : ∀ w < nproc, (t.proc w).state = .sleeping → (t.proc w).chan = some (.proc w) →
    ∀ q < nproc, (t.proc q).parent = some w → (t.proc q).state ≠ .zombie

theorem family_set {t : Ptable} (family : Family t) (p : Nat) {pcb : Pcb}
    (alive : (t.proc p).state.alive = true → pcb.state.alive = true) (orphan : p = t.initproc → pcb.parent = none)
    (parent : ∀ w, pcb.parent = some w → (t.proc p).parent = some w ∨ (w < nproc ∧ w ≠ p ∧ (t.proc w).state.alive = true))
    (raised : p ≠ t.initproc → pcb.state ≠ .unused → pcb.state ≠ .embryo → pcb.parent ≠ none)
    (slept : pcb.state = .sleeping → pcb.chan = some (.proc p) → ∀ q < nproc, (t.proc q).parent = some p → (t.proc q).state ≠ .zombie)
    (zombie : pcb.state = .zombie → (t.proc p).state = .zombie ∧ pcb.parent = (t.proc p).parent) :
    Family (t.set p pcb) := by
  have stays : ∀ w, (t.proc w).state.alive = true → ((t.set p pcb).proc w).state.alive = true := by
    intro w was
    by_cases here : w = p
    · rw [here, Ptable.set_self]
      exact alive (here ▸ was)
    · rwa [Ptable.set_ne _ _ here]
  refine ⟨family.initSlot, stays _ family.initAlive, ?_, ?_, ?_, ?_⟩
  · rw [Ptable.set_initproc]
    by_cases here : t.initproc = p
    · rw [here, Ptable.set_self]
      exact orphan here.symm
    · rw [Ptable.set_ne _ _ here]
      exact family.orphan
  · intro q slot w child
    by_cases here : q = p
    · rw [here, Ptable.set_self] at child
      rw [here]
      rcases parent w child with old | ⟨slot', different, was⟩
      · obtain ⟨slot', different, was⟩ := family.parents p (here ▸ slot) w old
        exact ⟨slot', different, stays w was⟩
      · exact ⟨slot', different, stays w was⟩
    · rw [Ptable.set_ne _ _ here] at child
      obtain ⟨slot', different, was⟩ := family.parents q slot w child
      exact ⟨slot', different, stays w was⟩
  · intro q slot notInit used notEmbryo
    by_cases here : q = p
    · subst here
      rw [Ptable.set_self] at used notEmbryo ⊢
      exact raised notInit used notEmbryo
    · rw [Ptable.set_ne _ _ here] at used notEmbryo ⊢
      exact family.raised q slot notInit used notEmbryo
  · intro w slot asleep chan q slot' child exited
    have old : (t.proc q).parent = some w ∧ (t.proc q).state = .zombie := by
      by_cases there : q = p
      · subst there
        rw [Ptable.set_self] at child exited
        obtain ⟨was, same⟩ := zombie exited
        exact ⟨same.symm.trans child, was⟩
      · rw [Ptable.set_ne _ _ there] at child exited
        exact ⟨child, exited⟩
    by_cases here : w = p
    · subst here
      rw [Ptable.set_self] at asleep chan
      exact slept asleep chan q slot' old.1 old.2
    · rw [Ptable.set_ne _ _ here] at asleep chan
      exact family.rested w slot asleep chan q slot' old.1 old.2

theorem woken_alive {a b : Pcb} (woken : a.Woken b) (alive : a.state.alive = true) : b.state.alive = true := by
  rcases woken with rfl | ⟨-, rfl⟩
  · exact alive
  · rfl

theorem woken_parent {a b : Pcb} (woken : a.Woken b) : b.parent = a.parent := by
  rcases woken with rfl | ⟨-, rfl⟩ <;> rfl

theorem woken_zombie {a b : Pcb} (woken : a.Woken b) (zombie : b.state = .zombie) : b = a := by
  rcases woken with same | ⟨-, rfl⟩
  · exact same
  · cases zombie

theorem woken_used {a b : Pcb} (woken : a.Woken b) :
    (b.state = .unused ↔ a.state = .unused) ∧ (b.state = .embryo ↔ a.state = .embryo) := by
  rcases woken with rfl | ⟨asleep, rfl⟩
  · exact ⟨Iff.rfl, Iff.rfl⟩
  · simp [asleep]

theorem family_wakeup1 {t : Ptable} (family : Family t) (chan : Option Chan) : Family (t.wakeup1 chan) := by
  have woken := t.wakeup1_woken chan
  refine ⟨family.initSlot, woken_alive (woken _) family.initAlive, (woken_parent (woken _)).trans family.orphan, ?_, ?_, ?_⟩
  · intro q slot w child
    rw [woken_parent (woken q)] at child
    obtain ⟨slot', different, was⟩ := family.parents q slot w child
    exact ⟨slot', different, woken_alive (woken w) was⟩
  · intro q slot notInit used notEmbryo
    rw [woken_parent (woken q)]
    rw [Ne, (woken_used (woken q)).1] at used
    rw [Ne, (woken_used (woken q)).2] at notEmbryo
    exact family.raised q slot notInit used notEmbryo
  · intro w slot asleep on q slot' child exited
    have sleeper := woken_asleep (woken w) asleep
    have zombie := woken_zombie (woken q) exited
    rw [sleeper] at asleep on
    rw [zombie] at child exited
    exact family.rested w slot asleep on q slot' child exited

theorem family_exit {t : Ptable} (family : Family t) {p : Nat} (slot : p < nproc) (running : (t.proc p).state = .running)
    (notInit : p ≠ t.initproc) : Family (t.exit p) := by
  have loop : ∀ q < nproc, ((t.proc q).passTo p t.initproc).Woken ((t.exitLoop p).proc q) := by
    intro q slot'
    have woken := t.exit_loop_proc p q
    rwa [if_pos slot'] at woken
  have other : ∀ q, q ≠ p → (t.exit p).proc q = (t.exitLoop p).proc q := by
    intro q different
    rw [t.exit_eq, Ptable.setState, Ptable.set_ne _ _ different]
  have parent : ∀ q < nproc, ((t.exit p).proc q).parent = ((t.proc q).passTo p t.initproc).parent := by
    intro q slot'
    rw [← woken_parent (loop q slot')]
    by_cases here : q = p
    · subst here
      rw [t.exit_eq, Ptable.setState, Ptable.set_self]
    · rw [other q here]
  have self : ((t.exit p).proc p).state = .zombie := by
    rw [t.exit_eq, Ptable.setState, Ptable.set_self]
  -- Whoever is alive and does not exit stays alive.
  have stays : ∀ w < nproc, w ≠ p → (t.proc w).state.alive = true → ((t.exit p).proc w).state.alive = true := by
    intro w slot' different was
    rw [other w different]
    exact woken_alive (loop w slot') was
  refine ⟨?_, ?_, ?_, ?_, ?_, ?_⟩
  · rw [t.exit_initproc]
    exact family.initSlot
  · rw [t.exit_initproc]
    exact stays _ family.initSlot (Ne.symm notInit) family.initAlive
  · rw [t.exit_initproc, parent _ family.initSlot]
    simp [Pcb.passTo, family.orphan]
  · intro q slot' w child
    rw [parent q slot'] at child
    simp only [Pcb.passTo] at child
    split at child
    · next passed =>
        cases child
        refine ⟨family.initSlot, fun same => ?_, stays _ family.initSlot (Ne.symm notInit) family.initAlive⟩
        rw [← same, family.orphan] at passed
        cases passed
    · next notChild =>
        obtain ⟨slot'', different, was⟩ := family.parents q slot' w child
        refine ⟨slot'', different, stays w slot'' (fun same => notChild ?_) was⟩
        rw [child, same]
  · intro q slot' notInit' used notEmbryo
    rw [t.exit_initproc] at notInit'
    rw [parent q slot']
    have before : (t.proc q).state ≠ .unused ∧ (t.proc q).state ≠ .embryo := by
      by_cases here : q = p
      · rw [here, running]
        exact ⟨by simp, by simp⟩
      · rw [other q here, Ne, (woken_used (loop q slot')).1] at used
        rw [other q here, Ne, (woken_used (loop q slot')).2] at notEmbryo
        exact ⟨used, notEmbryo⟩
    have had := family.raised q slot' notInit' before.1 before.2
    simp only [Pcb.passTo]
    split
    · simp
    · exact had
  · intro w slot' asleep on q slot'' child exited
    have different : w ≠ p := by
      intro same
      rw [same, self] at asleep
      cases asleep
    rw [other w different] at asleep on
    have sleeper := woken_asleep (loop w slot') asleep
    rw [parent q slot''] at child
    by_cases here : q = p
    · -- The exiting process itself: exit has woken its parent.
      subst here
      have notSelf : (t.proc q).parent ≠ some q := fun selfParent => (family.parents q slot'' q selfParent).2.1 rfl
      simp only [Pcb.passTo, if_neg notSelf] at child
      exact t.exit_loop_parent_awake q w slot' child asleep on
    · rw [other q here] at exited
      have zombie := woken_zombie (loop q slot'') exited
      rw [zombie] at exited
      simp only [Pcb.passTo] at child exited
      split at child
      · next passed =>
          -- A zombie child of the exiting process goes to init, which is awake.
          cases child
          exact t.exit_loop_init_awake p slot'' slot' passed exited asleep on
      · rw [sleeper] at asleep on
        exact family.rested w slot' asleep on q slot'' child exited

theorem family_kill {t : Ptable} (family : Family t) (pid : Int) : Family (t.kill pid).2 := by
  rcases t.kill_cases pid with ⟨missed, -⟩ | ⟨k, slot, -, -, b, woken, found⟩
  · rw [missed]
    exact family
  · rw [found]
    have parent := woken_parent woken
    have alive := woken_alive woken
    refine family_set family k alive ?_ (fun w child => .inl (parent.symm.trans child)) ?_ ?_ ?_
    · intro same
      rw [same] at parent
      exact parent.trans family.orphan
    · intro notInit used notEmbryo
      rw [Ne, (woken_used woken).1] at used
      rw [Ne, (woken_used woken).2] at notEmbryo
      rw [parent]
      exact family.raised k slot notInit used notEmbryo
    · intro asleep on
      have same := woken_asleep woken asleep
      subst same
      exact family.rested k slot asleep on
    · intro zombie
      have same := woken_zombie woken zombie
      subst same
      exact ⟨zombie, rfl⟩

theorem family_step {t t' : Ptable} {news : News} (family : Family t) (step : TableStep i t news t') : Family t' := by
  have orphan : ∀ q, q = t.initproc → (t.proc q).parent = none := by
    intro q same
    rw [same]
    exact family.orphan
  have notInit : ∀ q, (t.proc q).state.alive ≠ true → q ≠ t.initproc := by
    intro q dead same
    rw [same] at dead
    exact dead family.initAlive
  cases step with
  | same => exact family
  | activate q state slot active from_ =>
    have alive : state.alive = true := by rcases active with rfl | rfl <;> rfl
    refine family_set family q (fun _ => alive) (orphan q) (fun w child => .inl child) ?_ ?_ ?_
    · intro notInit used notEmbryo
      rcases from_ with running | runnable | ⟨-, parent⟩
      · exact family.raised q slot notInit (by simp [running]) (by simp [running])
      · exact family.raised q slot notInit (by simp [runnable]) (by simp [runnable])
      · exact parent
    · intro asleep
      rcases active with rfl | rfl <;> cases asleep
    · intro zombie
      rcases active with rfl | rfl <;> cases zombie
  | sleepOn chan slot running childless =>
    refine family_set family i (fun _ => rfl) (orphan i) (fun w child => .inl child) ?_ ?_ nofun
    · exact fun notInit _ _ => family.raised i slot notInit (by simp [running]) (by simp [running])
    · intro _ on
      cases on
      exact (childless i rfl).2
  | clearChan slot running =>
    refine family_set family i id (orphan i) (fun w child => .inl child) ?_ (fun asleep => ?_) (fun zombie => ⟨zombie, rfl⟩)
    · exact fun notInit => family.raised i slot notInit
    · simp [running] at asleep
  | wakeup1 chan => exact family_wakeup1 family (some chan)
  | forked np slot unused =>
    have updated : Family (t.set np { t.proc np with state := .embryo, pid := t.nextpid }) := by
      refine family_set family np ?_ (orphan np) (fun w child => .inl child) ?_ ?_ nofun
      · simp [unused, ProcState.alive]
      · exact fun _ _ notEmbryo => absurd rfl notEmbryo
      · exact nofun
    exact ⟨updated.1, updated.2, updated.3, updated.4, updated.5, updated.6⟩
  | abandon np slot embryo =>
    refine family_set family np ?_ (orphan np) (fun w child => .inl child) ?_ ?_ nofun
    · simp [embryo, ProcState.alive]
    · exact fun _ used => absurd rfl used
    · exact nofun
  | adopt np embryo slot running =>
    have different : i ≠ np := by
      intro same
      rw [same, embryo] at running
      cases running
    refine family_set family np id ?_ ?_ ?_ (fun asleep => ?_) (fun zombie => ?_)
    · exact fun same => absurd same (notInit np (by simp [embryo, ProcState.alive]))
    · intro w child
      cases child
      exact .inr ⟨slot, different, by simp [running, ProcState.alive]⟩
    · exact fun _ _ _ => by simp
    · simp [embryo] at asleep
    · simp [embryo] at zombie
  | exit slot running notInit => exact family_exit family slot running notInit
  | reaped q slot child zombie =>
    refine family_set family q ?_ (fun _ => rfl) nofun ?_ ?_ nofun
    · simp [zombie, ProcState.alive]
    · exact fun _ used => absurd rfl used
    · exact nofun
  | kill pid => exact family_kill family pid
  | trap slot running =>
    refine family_set family i id (orphan i) (fun w child => .inl child) ?_ (fun asleep => ?_) (fun zombie => ⟨zombie, rfl⟩)
    · exact fun notInit => family.raised i slot notInit
    · simp [running] at asleep

def News.forks : News → Nat
  | .forked _ => 1
  | _ => 0

def News.pids : News → List Int
  | .reaped pid => [pid]
  | _ => []

def forks (trace : List (Event SmpOp Smp)) : Nat := (trace.map fun e => (news e.act e.res).forks).sum

def reapedPids (trace : List (Event SmpOp Smp)) : List Int := trace.flatMap fun e => (news e.act e.res).pids

-- nextpid counts up from 2, without wrapping, so a pid is given out once.
structure Pids (forks : Nat) (reaped : List Int) (t : Ptable) : Prop where
  next : t.nextpid = if forks = 2 ^ 31 - 2 then -2 ^ 31 else (forks : Int) + 2
  given : ∀ q < nproc, (t.proc q).state ≠ .unused → 1 ≤ (t.proc q).pid ∧ (t.proc q).pid ≤ forks + 1
  distinct : ∀ p < nproc, ∀ q < nproc, (t.proc p).state ≠ .unused → (t.proc q).state ≠ .unused →
    (t.proc p).pid = (t.proc q).pid → p = q
  gone : ∀ x ∈ reaped, x ≤ forks + 1 ∧ ∀ q < nproc, (t.proc q).state ≠ .unused → (t.proc q).pid ≠ x
  once : reaped.Nodup

def Fewer (t t' : Ptable) : Prop := t'.nextpid = t.nextpid ∧
  ∀ q < nproc, (t'.proc q).state ≠ .unused → (t.proc q).state ≠ .unused ∧ (t'.proc q).pid = (t.proc q).pid

theorem fewer_set {t : Ptable} {p : Nat} {pcb : Pcb}
    (slot : pcb.state ≠ .unused → (t.proc p).state ≠ .unused ∧ pcb.pid = (t.proc p).pid) : Fewer t (t.set p pcb) := by
  refine ⟨rfl, fun q _ used => ?_⟩
  by_cases here : q = p
  · subst here
    rw [Ptable.set_self] at used ⊢
    exact slot used
  · rw [Ptable.set_ne _ _ here] at used ⊢
    exact ⟨used, rfl⟩

theorem woken_pid {a b : Pcb} (woken : a.Woken b) : b.pid = a.pid := by
  rcases woken with rfl | ⟨-, rfl⟩ <;> rfl

theorem fewer_exit {t : Ptable} {p : Nat} (running : (t.proc p).state = .running) : Fewer t (t.exit p) := by
  refine ⟨t.exit_nextpid p, fun q slot used => ?_⟩
  have woken := t.exit_loop_proc p q
  rw [if_pos slot] at woken
  have pid := woken_pid woken
  have inUse := (woken_used woken).1
  by_cases here : q = p
  · subst here
    rw [t.exit_eq, Ptable.setState, Ptable.set_self, running]
    exact ⟨by simp, by simpa only [Pcb.passTo] using pid⟩
  · rw [t.exit_eq, Ptable.setState, Ptable.set_ne _ _ here] at used ⊢
    exact ⟨fun unused => used (inUse.mpr unused), pid⟩

theorem fewer_kill (t : Ptable) (pid : Int) : Fewer t (t.kill pid).2 := by
  rcases t.kill_cases pid with ⟨missed, -⟩ | ⟨k, -, -, -, b, woken, found⟩
  · rw [missed]
    exact ⟨rfl, fun _ _ used => ⟨used, rfl⟩⟩
  · rw [found]
    have pid := woken_pid woken
    have used := (woken_used woken).1
    refine fewer_set fun inUse => ⟨fun unused => inUse (used.mpr unused), pid⟩

theorem pids_fewer {forks : Nat} {reaped : List Int} {t t' : Ptable} (pids : Pids forks reaped t) (fewer : Fewer t t') :
    Pids forks reaped t' := by
  refine ⟨fewer.1.trans pids.next, ?_, ?_, ?_, pids.once⟩
  · intro q slot used
    obtain ⟨used', same⟩ := fewer.2 q slot used
    rw [same]
    exact pids.given q slot used'
  · intro p slot q slot' used used' equal
    obtain ⟨before, same⟩ := fewer.2 p slot used
    obtain ⟨before', same'⟩ := fewer.2 q slot' used'
    exact pids.distinct p slot q slot' before before' (by rw [← same, ← same', equal])
  · intro x member
    refine ⟨(pids.gone x member).1, fun q slot used => ?_⟩
    obtain ⟨used', same⟩ := fewer.2 q slot used
    rw [same]
    exact (pids.gone x member).2 q slot used'

theorem pids_fork {t t' : Ptable} {forks : Nat} {reaped : List Int} (pids : Pids forks reaped t) (np : Nat)
    (bound : forks + 1 ≤ 2 ^ 31 - 2) (next' : t'.nextpid = incPid t.nextpid) (self : (t'.proc np).pid = t.nextpid)
    (others : ∀ q, q ≠ np → t'.proc q = t.proc q) : Pids (forks + 1) reaped t' := by
  have next : t.nextpid = forks + 2 := by
    rw [pids.next, if_neg (by omega)]
  rw [next] at next' self
  refine ⟨?_, ?_, ?_, ?_, pids.once⟩
  · rw [next', incPid]
    by_cases last : forks + 1 = 2 ^ 31 - 2
    · rw [if_pos last, if_pos (by omega)]
    · rw [if_neg last, if_neg (by omega)]
      omega
  · intro q slot used
    by_cases here : q = np
    · rw [here]
      exact ⟨by omega, by omega⟩
    · rw [others q here] at used ⊢
      have range := pids.given q slot used
      exact ⟨by omega, by omega⟩
  · intro p slotP q slotQ usedP usedQ equal
    by_cases hereP : p = np
    · by_cases hereQ : q = np
      · rw [hereP, hereQ]
      · rw [others q hereQ] at usedQ equal
        rw [hereP] at equal
        have range := pids.given q slotQ usedQ
        omega
    · rw [others p hereP] at usedP equal
      by_cases hereQ : q = np
      · rw [hereQ] at equal
        have range := pids.given p slotP usedP
        omega
      · rw [others q hereQ] at usedQ equal
        exact pids.distinct p slotP q slotQ usedP usedQ equal
  · intro x member
    obtain ⟨below, free⟩ := pids.gone x member
    refine ⟨by omega, fun q slot used => ?_⟩
    by_cases here : q = np
    · rw [here]
      omega
    · rw [others q here] at used ⊢
      exact free q slot used

theorem pids_step {t t' : Ptable} {news : News} {forks : Nat} {reaped : List Int}
    (pids : Pids forks reaped t) (step : TableStep i t news t') (bound : forks + news.forks ≤ 2 ^ 31 - 2) :
    Pids (forks + news.forks) (reaped ++ news.pids) t' := by
  -- Steps that take no slot and return no pid.
  have quiet : news.forks = 0 → news.pids = [] → Fewer t t' → Pids (forks + news.forks) (reaped ++ news.pids) t' := by
    intro noFork noPid fewer
    rw [noFork, noPid, Nat.add_zero, List.append_nil]
    exact pids_fewer pids fewer
  cases step with
  | same news kind => rcases kind with rfl | rfl <;> exact quiet rfl rfl ⟨rfl, fun _ _ used => ⟨used, rfl⟩⟩
  | activate q state slot active from_ =>
    refine quiet rfl rfl (fewer_set fun _ => ⟨?_, rfl⟩)
    rcases from_ with running | runnable | ⟨embryo, -⟩ <;> simp [*]
  | sleepOn chan slot running => exact quiet rfl rfl (fewer_set fun _ => ⟨by simp [running], rfl⟩)
  | clearChan slot running => exact quiet rfl rfl (fewer_set fun used => ⟨used, rfl⟩)
  | wakeup1 chan =>
    refine quiet rfl rfl ⟨rfl, fun q _ used => ?_⟩
    have woken := t.wakeup1_woken (some chan) q
    exact ⟨fun unused => used ((woken_used woken).1.mpr unused), woken_pid woken⟩
  | abandon np slot embryo => exact quiet rfl rfl (fewer_set fun used => absurd rfl used)
  | adopt np embryo => exact quiet rfl rfl (fewer_set fun used => ⟨used, rfl⟩)
  | exit slot running => exact quiet rfl rfl (fewer_exit running)
  | kill pid => exact quiet rfl rfl (fewer_kill t pid)
  | trap slot running => exact quiet rfl rfl (fewer_set fun used => ⟨used, rfl⟩)
  | forked np slot unused =>
    rw [show (News.forked np).pids = [] from rfl, List.append_nil]
    refine pids_fork pids np bound rfl ?_ fun q other => t.set_ne _ other
    show ((t.set np _).proc np).pid = _
    rw [Ptable.set_self]
  | reaped q slot child zombie =>
    have used : (t.proc q).state ≠ .unused := by simp [zombie]
    have kept : Pids forks reaped (t.set q { t.proc q with pid := 0, parent := none, killed := false, state := .unused }) :=
      pids_fewer pids (fewer_set fun inUse => absurd rfl inUse)
    refine ⟨kept.next, kept.given, kept.distinct, ?_, ?_⟩
    · intro x member
      rcases List.mem_append.mp member with old | new
      · exact kept.gone x old
      · rw [List.mem_singleton.mp new]
        refine ⟨(pids.given q slot used).2, fun k slot' used' same => ?_⟩
        have other : k ≠ q := by
          intro here
          rw [here, Ptable.set_self] at used'
          exact used' rfl
        rw [Ptable.set_ne _ _ other] at used' same
        exact other (pids.distinct k slot' q slot used' used same)
    · refine List.nodup_append.mpr ⟨pids.once, List.nodup_singleton _, ?_⟩
      intro x old y new same
      rw [List.mem_singleton.mp new] at same
      exact (pids.gone x old).2 q slot used same.symm

variable {cond : Event SmpOp Smp → Prop} {trace : List (Event SmpOp Smp)}

theorem userinit_family : Family Ptable.userinit := by
  have childless : ∀ q, (Ptable.userinit.proc q).parent = none := by
    intro q
    by_cases init : q = 0
    · rw [init, userinit_init]
    · rw [userinit_proc init]
  refine ⟨by decide, rfl, rfl, fun q _ w child => ?_, fun q _ notInit used => ?_, fun w _ _ _ q _ child => ?_⟩
  · rw [childless q] at child
    cases child
  · rw [userinit_proc notInit] at used
    exact absurd rfl used
  · rw [childless q] at child
    cases child

theorem userinit_pids : Pids 0 [] Ptable.userinit := by
  have onlyInit : ∀ q, (Ptable.userinit.proc q).state ≠ .unused → q = 0 := by
    intro q used
    by_contra other
    rw [userinit_proc other] at used
    exact used rfl
  refine ⟨by decide, fun q _ used => ?_, fun p _ q _ usedP usedQ _ => ?_, fun x member => ?_, List.nodup_nil⟩
  · rw [onlyInit q used, userinit_init]
    exact ⟨by decide, by decide⟩
  · rw [onlyInit p usedP, onlyInit q usedQ]
  · cases member

theorem history_family (history : History ncpu cond trace s g) : Family s.table := by
  induction history with
  | boot => exact userinit_family
  | step before executed met moved ih =>
    obtain ⟨core, frames⟩ := history_inv before
    exact family_step ih (table_moves core frames executed moved)

theorem history_pids (history : History ncpu cond trace s g) (bound : forks trace ≤ 2 ^ 31 - 2) :
    Pids (forks trace) (reapedPids trace) s.table := by
  induction history with
  | boot => exact userinit_pids
  | step before executed met moved ih =>
    obtain ⟨core, frames⟩ := history_inv before
    simp only [forks, reapedPids, List.map_append, List.sum_append, List.flatMap_append, List.map_cons, List.map_nil,
      List.sum_cons, List.sum_nil, List.flatMap_cons, List.flatMap_nil, List.append_nil, Nat.add_zero] at bound ih ⊢
    exact pids_step (ih (by omega)) (table_moves core frames executed moved) bound

theorem reaped_child {act : SmpOp β} {own : Ghost} (core : Core ncpu s g) (frames : Frames s.table g)
    (executed : SmpOp.exec ncpu act s = .ok r s') (moved : Moves i (threadOf i) act r (g i) own) {pid : Int}
    (reaped : news act r = .reaped pid) :
    ∃ q < nproc, (s.table.proc q).pid = pid ∧ (s.table.proc q).state = .zombie ∧ (s.table.proc q).parent = some i := by
  have step := table_moves core frames executed moved
  generalize news act r = told at step reaped
  generalize s'.table = after at step
  cases step with
  | reaped q slot child zombie =>
    cases reaped
    exact ⟨q, slot, rfl, zombie, child⟩
  | same _ quiet =>
    rcases quiet with rfl | rfl <;> cases reaped
  | _ => cases reaped

theorem failed_wait {act : SmpOp β} {own : Ghost} (core : Core ncpu s g) (executed : SmpOp.exec ncpu act s = .ok r s')
    (moved : Moves i (threadOf i) act r (g i) own) (failed : news act r = .waitFailed) :
    (∀ q < nproc, (s.table.proc q).parent ≠ some i) ∨ (s.table.proc i).killed = true := by
  cases moved with
  | waitFailed _ calm =>
    obtain ⟨c, p, inside, stack, current, rest⟩ := current_ok executed
    obtain ⟨rfl, -, -⟩ := current_running core inside stack (calm_of_out calm) current
    injection rest with result
    exact s.table.wait_failed result
  | _ => cases failed

def exits {β : Type} : SmpOp β → Bool
  | .exit _ => true
  | _ => false

theorem exit_passes_children {act : SmpOp β} {own : Ghost} (core : Core ncpu s g)
    (executed : SmpOp.exec ncpu act s = .ok r s') (moved : Moves i (threadOf i) act r (g i) own) (exiting : exits act = true)
    {q : Nat} (slot : q < nproc) (child : (s.table.proc q).parent = some i) :
    (s'.table.proc q).parent = some s.table.initproc := by
  cases moved with
  | exit _ calm =>
    obtain ⟨c, p, inside, stack, current, -, rfl⟩ := exit_ok executed
    obtain ⟨rfl, -, -⟩ := current_running core inside stack (calm_of_out calm) current
    have passed := woken_parent (s.table.exit_loop_proc p q)
    rw [if_pos slot, Pcb.passTo, if_pos child] at passed
    by_cases here : q = p
    · subst here
      rw [setTable, s.table.exit_eq, Ptable.setState, Ptable.set_self]
      simpa only using passed
    · rw [setTable, s.table.exit_eq, Ptable.setState, Ptable.set_ne _ _ here]
      exact passed
  | _ => cases exiting

theorem exit_wait_lifecycle (ncpu : Nat) {trace : List (Event SmpOp Smp)} {config : Config SmpOp Smp KTask}
    (reached : SmpReach ncpu (fun _ => True) trace config) (fewForks : forks trace < 2 ^ 31 - 1) :
    (∀ p < nproc, ∀ q < nproc, (config.shared.table.proc p).state ≠ .unused → (config.shared.table.proc q).state ≠ .unused →
      (config.shared.table.proc p).pid = (config.shared.table.proc q).pid → p = q) ∧
    (∀ q < nproc, q ≠ config.shared.table.initproc → (config.shared.table.proc q).state ≠ .unused →
      (config.shared.table.proc q).state ≠ .embryo → ∃ w < nproc, (config.shared.table.proc q).parent = some w ∧
        (config.shared.table.proc w).state ≠ .unused ∧ (config.shared.table.proc w).state ≠ .zombie) ∧
    (∀ e ∈ trace, exits e.act = true → ∀ q < nproc, (e.pre.table.proc q).parent = some e.pid →
      (e.post.table.proc q).parent = some e.pre.table.initproc) ∧
    (reapedPids trace).Nodup ∧
    (∀ e ∈ trace, ∀ pid, news e.act e.res = .reaped pid → ∃ q < nproc, (e.pre.table.proc q).pid = pid ∧
      (e.pre.table.proc q).state = .zombie ∧ (e.pre.table.proc q).parent = some e.pid) ∧
    (∀ e ∈ trace, news e.act e.res = .waitFailed →
      (∀ q < nproc, (e.pre.table.proc q).parent ≠ some e.pid) ∨ (e.pre.table.proc e.pid).killed = true) ∧
    (∀ w < nproc, (config.shared.table.proc w).state = .sleeping → (config.shared.table.proc w).chan = some (.proc w) →
      ∀ q < nproc, (config.shared.table.proc q).parent = some w → (config.shared.table.proc q).state ≠ .zombie) := by
  obtain ⟨g, history⟩ := smp_history reached
  have family := history_family history
  have pids := history_pids history (by omega)
  refine ⟨pids.distinct, ?_, ?_, pids.once, ?_, ?_, family.rested⟩
  · intro q slot notInit used notEmbryo
    obtain ⟨w, parent⟩ := Option.ne_none_iff_exists'.mp (family.raised q slot notInit used notEmbryo)
    obtain ⟨slot', -, alive⟩ := family.parents q slot w parent
    refine ⟨w, slot', parent, fun unused => ?_, fun zombie => ?_⟩
    · simp [unused, ProcState.alive] at alive
    · simp [zombie, ProcState.alive] at alive
  · refine history_events history fun i act r s s' g own core frames executed moved => ?_
    exact fun exiting q slot child => exit_passes_children core executed moved exiting slot child
  · refine history_events history fun i act r s s' g own core frames executed moved => ?_
    exact fun pid reaped => reaped_child core frames executed moved reaped
  · refine history_events history fun i act r s s' g own core frames executed moved => ?_
    exact fun failed => failed_wait core executed moved failed

-- CPU 1 runs the child of init until it exits; init reaps it.
def childRun : List (Turn SmpOp KTask) :=
  [.call (nproc + 0) .idle (scheduler 0 >>= fun _ => .ret .idle), .step nproc, .step nproc, .step 0,
    .call 0 .out (fork (.proc 0)), .step 0, .step 0, .step 0,
    .call 0 (.embryo 1) (.op (.adopt (.proc 0) 1) fun _ => .ret (.adopted 1)), .step 0,
    .call 0 (.adopted 1) (forkReady (.proc 0) 1 >>= fun _ => .ret .out), .step 0, .step 0, .step 0,
    .call (nproc + 1) .idle (scheduler 1 >>= fun _ => .ret .idle), .step (nproc + 1), .step (nproc + 1), .step (nproc + 1), .step 1,
    .call 1 .out (exit (.proc 1) >>= fun _ => .ret .out), .step 1, .step 1, .step 1]

def reapRun : List (Turn SmpOp KTask) := [.call 0 .out (wait 0), .step 0, .step 0, .step 0]

def familyRun : List (Turn SmpOp KTask) := childRun ++ (List.replicate 64 (.step (nproc + 1)) ++ reapRun)

theorem family_run_allowed : ∀ turn ∈ familyRun, turn.Allowed (SmpCalls 2) := by
  refine List.forall_mem_append.mpr ⟨?_, List.forall_mem_append.mpr ⟨fun turn member => ?_, ?_⟩⟩
  · simp only [childRun, List.forall_mem_cons, List.not_mem_nil, Turn.Allowed, true_and, false_implies, implies_true, and_true]
    exact ⟨.scheduler 0 (by decide), .fork 0 (by decide), .forkAdopts 0 1 (by decide), .forkReady 0 1 (by decide),
      .scheduler 1 (by decide), .exit 1 (by decide)⟩
  · rw [List.eq_of_mem_replicate member]
    trivial
  · simp only [reapRun, List.forall_mem_cons, List.not_mem_nil, Turn.Allowed, false_implies, implies_true, and_true]
    exact .wait 0 (by decide)

theorem exit_wait_lifecycle_one_child :
    ∃ trace config, SmpReach 2 (fun _ => True) trace config ∧ forks trace = 1 ∧ reapedPids trace = [2] ∧
      (reapedPids trace).Nodup := by
  have ran : (bootSmp.play (SmpOp.exec 2) familyRun).any (fun r => forks r.1 = 1 && reapedPids r.1 = [2]) = true := by
    decide +kernel
  obtain ⟨⟨trace, config⟩, played, good⟩ := (Option.any_eq_true _ _).mp ran
  obtain ⟨one, two⟩ := Bool.and_eq_true_iff.mp good
  have reached := play_reach familyRun (fun _ _ => trivial) family_run_allowed .init played
  rw [List.nil_append] at reached
  have count : forks trace = 1 := of_decide_eq_true one
  exact ⟨trace, config, reached, count, of_decide_eq_true two, (exit_wait_lifecycle 2 reached (by rw [count]; decide)).2.2.2.1⟩

end Xv6.Smp
