import Xv6.Proc.Ghost

set_option autoImplicit false

namespace Xv6.Smp

variable {ncpu : Nat} {β : Type} {s s' : Smp} {r : β}

theorem here_some {th : KThread} {c : Nat} (found : s.here ncpu th = some c) : c < ncpu ∧ (s.cpu c).stack = th :=
  have stack := List.find?_some found
  ⟨List.mem_range.mp (List.mem_of_find?_eq_some found), of_decide_eq_true stack⟩

theorem on_cpu_ok {th : KThread} {f : Nat → Res Smp β} (executed : s.onCpu ncpu th f = .ok r s') :
    ∃ c, c < ncpu ∧ (s.cpu c).stack = th ∧ f c = .ok r s' := by
  simp only [onCpu] at executed
  cases found : s.here ncpu th with
  | none => simp [found] at executed
  | some c =>
    rw [found] at executed
    exact ⟨c, (here_some found).1, (here_some found).2, executed⟩

theorem current_ok {th : KThread} {f : Nat → Nat → Res Smp β} (executed : s.current ncpu th f = .ok r s') :
    ∃ c p, c < ncpu ∧ (s.cpu c).stack = th ∧ (s.cpu c).proc = some p ∧ f c p = .ok r s' := by
  obtain ⟨c, inside, stack, rest⟩ := on_cpu_ok executed
  cases running : (s.cpu c).proc with
  | none => simp [running] at rest
  | some p =>
    rw [running] at rest
    exact ⟨c, p, inside, stack, running, rest⟩

theorem holding_ok {lk c : Nat} {result : Res Smp β} (executed : s.holding lk c result = .ok r s') :
    s.lock lk = some c ∧ result = .ok r s' := by
  simp only [holding] at executed
  by_cases held : s.lock lk = some c
  · rw [if_pos held] at executed
    exact ⟨held, executed⟩
  · simp [held] at executed

def Stage.Calm (stage : Stage) : Prop := stage.dispatched = none ∧ stage ≠ .leaving

def Stage.Parked (stage : Stage) : Prop := stage = .out ∨ stage.dispatched ≠ none

theorem calm_of_out {g : Ghost} (calm : g.stage = .out) : g.stage.Calm := by
  rw [calm]
  exact ⟨rfl, by simp⟩

-- The ghost data describe whose stack each CPU is on and which locks it holds. A
-- thread that is on no CPU will find ptable.lock held, by the CPU that switches to it.
structure LockInv (ncpu : Nat) (s : Smp) (g : Nat → Ghost) : Prop where
  threads : ∀ c < ncpu, ∃ i, (s.cpu c).stack = threadOf i ∧ (i < nproc ∨ i = nproc + c)
  alone : ∀ c < ncpu, ∀ d < ncpu, ∀ i, (s.cpu c).stack = threadOf i → (s.cpu d).stack = threadOf i → c = d
  lockset : ∀ c < ncpu, ∀ i, (s.cpu c).stack = threadOf i → ∀ l, s.lock l = some c ↔ l ∈ (g i).locks
  depth : ∀ c < ncpu, ∀ i, (s.cpu c).stack = threadOf i → (s.cpu c).ncli = (g i).locks.card
  off : ∀ i < nproc + ncpu, (∀ c < ncpu, (s.cpu c).stack ≠ threadOf i) →
    (g i).locks = {ptableLock} ∧ (g i).stage.Parked
  away : ∀ i, (g i).stage.dispatched ≠ none → ptableLock ∈ (g i).locks

-- A process runs on a CPU exactly while it is its current process and has not given up RUNNING.
structure RunInv (ncpu : Nat) (s : Smp) (g : Nat → Ghost) : Prop where
  pgdirs : ∀ c < ncpu, (s.cpu c).pgdir = (s.cpu c).proc
  current : ∀ c < ncpu, (s.cpu c).proc = (g (nproc + c)).stage.dispatched
  onProc : ∀ c < ncpu, ∀ p < nproc, (s.cpu c).stack = .proc p →
    (s.cpu c).proc = some p ∧ ((s.table.proc p).state = .running ∨ (g p).stage = .leaving)
  offProc : ∀ c < ncpu, (s.cpu c).stack = .scheduler c → ∀ p, (s.cpu c).proc = some p →
    (s.table.proc p).state ≠ .running
  unique : ∀ c < ncpu, ∀ d < ncpu, ∀ p, (s.cpu c).proc = some p → (s.cpu d).proc = some p → c = d
  running : ∀ p, (s.table.proc p).state = .running → ∃ c < ncpu, (s.cpu c).proc = some p
  leaving : ∀ p, (g p).stage = .leaving → ptableLock ∈ (g p).locks ∧ (s.table.proc p).state ≠ .running

structure Core (ncpu : Nat) (s : Smp) (g : Nat → Ghost) : Prop extends LockInv ncpu s g, RunInv ncpu s g

variable {g : Nat → Ghost} {i c : Nat}

theorem current_is_self (core : Core ncpu s g) (inside : c < ncpu) (stack : (s.cpu c).stack = threadOf i)
    (quiet : (g i).stage.dispatched = none) {p : Nat} (current : (s.cpu c).proc = some p) : i = p ∧ p < nproc := by
  obtain ⟨j, same, kind⟩ := core.threads c inside
  have equal := thread_of_injective (stack.symm.trans same)
  subst equal
  rcases kind with process | scheduler
  · rw [thread_of_proc process] at stack
    have own := (core.onProc c inside i process stack).1
    rw [current] at own
    cases own
    exact ⟨rfl, process⟩
  · rw [core.current c inside, ← scheduler, quiet] at current
    cases current

theorem holds_alone (core : Core ncpu s g) (inside : c < ncpu) (stack : (s.cpu c).stack = threadOf i) {d j l : Nat}
    (inside' : d < ncpu) (stack' : (s.cpu d).stack = threadOf j) (held : l ∈ (g i).locks) (held' : l ∈ (g j).locks) :
    d = c ∧ j = i := by
  have mine := (core.lockset c inside i stack l).mpr held
  have theirs := (core.lockset d inside' j stack' l).mpr held'
  rw [mine] at theirs
  have same : d = c := (Option.some.inj theirs).symm
  rw [same] at stack'
  exact ⟨same, thread_of_injective (stack'.symm.trans stack)⟩

theorem locks_step (core : Core ncpu s g) (inside : c < ncpu) (stack : (s.cpu c).stack = threadOf i) {own : Ghost}
    (cpus : ∀ d, (s'.cpu d).stack = (s.cpu d).stack ∧ (d ≠ c → (s'.cpu d).ncli = (s.cpu d).ncli))
    (others : ∀ d, d ≠ c → ∀ l, s'.lock l = some d ↔ s.lock l = some d)
    (mine : ∀ l, s'.lock l = some c ↔ l ∈ own.locks) (counted : (s'.cpu c).ncli = own.locks.card)
    (still : own.stage.dispatched = none) :
    LockInv ncpu s' (upd g i own) := by
  have elsewhere : ∀ d < ncpu, ∀ j, (s.cpu d).stack = threadOf j → (d = c ∧ j = i) ∨ (d ≠ c ∧ j ≠ i) := by
    intro d inside' j stack'
    by_cases here : d = c
    · subst here
      exact .inl ⟨rfl, thread_of_injective (stack'.symm.trans stack)⟩
    · refine .inr ⟨here, fun same => here ?_⟩
      subst same
      exact core.alone d inside' c inside j stack' stack
  refine ⟨?_, ?_, ?_, ?_, ?_, ?_⟩
  · intro d inside'
    rw [(cpus d).1]
    exact core.threads d inside'
  · intro d inside' e inside'' j first second
    rw [(cpus d).1] at first
    rw [(cpus e).1] at second
    exact core.alone d inside' e inside'' j first second
  · intro d inside' j stack' l
    rw [(cpus d).1] at stack'
    rcases elsewhere d inside' j stack' with ⟨rfl, rfl⟩ | ⟨away, other⟩
    · rw [upd_self]
      exact mine l
    · rw [upd_ne other, others d away l]
      exact core.lockset d inside' j stack' l
  · intro d inside' j stack'
    rw [(cpus d).1] at stack'
    rcases elsewhere d inside' j stack' with ⟨rfl, rfl⟩ | ⟨away, other⟩
    · rw [upd_self]
      exact counted
    · rw [upd_ne other, (cpus d).2 away]
      exact core.depth d inside' j stack'
  · intro j valid off
    have other : j ≠ i := by
      intro same
      subst same
      exact off c inside ((cpus c).1.trans stack)
    rw [upd_ne other]
    exact core.off j valid (fun d inside' stack' => off d inside' ((cpus d).1.trans stack'))
  · intro j gone
    have other : j ≠ i := by
      intro same
      subst same
      rw [upd_self] at gone
      exact gone still
    rw [upd_ne other] at gone ⊢
    exact core.away j gone

theorem run_step (core : Core ncpu s g) {own : Ghost}
    (cpus : ∀ d, (s'.cpu d).stack = (s.cpu d).stack ∧ (s'.cpu d).proc = (s.cpu d).proc ∧
      (s'.cpu d).pgdir = (s.cpu d).pgdir)
    (quiet : (g i).stage.dispatched = none) (still : own.stage.dispatched = none)
    (states : ∀ p, p ≠ i → ((s'.table.proc p).state = .running ↔ (s.table.proc p).state = .running))
    (stays : (s'.table.proc i).state = .running → (s.table.proc i).state = .running)
    (self : i < nproc → (s'.table.proc i).state = .running ∨ own.stage = .leaving)
    (leaves : own.stage = .leaving → ptableLock ∈ own.locks ∧ (s'.table.proc i).state ≠ .running) :
    RunInv ncpu s' (upd g i own) := by
  have run_before : ∀ p, (s'.table.proc p).state = .running → (s.table.proc p).state = .running := by
    intro p now
    by_cases here : p = i
    · subst here
      exact stays now
    · exact (states p here).mp now
  have dispatched : ∀ j, (upd g i own j).stage.dispatched = (g j).stage.dispatched := by
    intro j
    by_cases here : j = i
    · rw [here, upd_self, quiet, still]
    · rw [upd_ne here]
  refine ⟨?_, ?_, ?_, ?_, ?_, ?_, ?_⟩
  · intro d inside'
    rw [(cpus d).2.2, (cpus d).2.1]
    exact core.pgdirs d inside'
  · intro d inside'
    rw [(cpus d).2.1, dispatched]
    exact core.current d inside'
  · intro d inside' p slot stack'
    rw [(cpus d).1] at stack'
    rw [(cpus d).2.1]
    obtain ⟨current, status⟩ := core.onProc d inside' p slot stack'
    refine ⟨current, ?_⟩
    by_cases here : p = i
    · subst here
      rw [upd_self]
      exact self slot
    · rw [upd_ne here, states p here]
      exact status
  · intro d inside' stack' p current now
    rw [(cpus d).1] at stack'
    rw [(cpus d).2.1] at current
    exact core.offProc d inside' stack' p current (run_before p now)
  · intro d inside' e inside'' p first second
    rw [(cpus d).2.1] at first
    rw [(cpus e).2.1] at second
    exact core.unique d inside' e inside'' p first second
  · intro p now
    obtain ⟨d, inside', current⟩ := core.running p (run_before p now)
    exact ⟨d, inside', (cpus d).2.1.trans current⟩
  · intro p gone
    by_cases here : p = i
    · subst here
      rw [upd_self] at gone ⊢
      exact leaves gone
    · rw [upd_ne here] at gone ⊢
      exact ⟨(core.leaving p gone).1, fun now => (core.leaving p gone).2 ((states p here).mp now)⟩

section

variable (core : Core ncpu s g) (inside : c < ncpu) (stack : (s.cpu c).stack = threadOf i)

include core inside stack

theorem still_running (quiet : (g i).stage.Calm) (process : i < nproc) : (s.table.proc i).state = .running := by
  rw [thread_of_proc process] at stack
  exact (core.onProc c inside i process stack).2.resolve_right quiet.2

theorem core_table {t : Ptable} {own : Ghost} (same : own.locks = (g i).locks) (quiet : (g i).stage.Calm)
    (still : own.stage.Calm) (states : ∀ p, (t.proc p).state = .running ↔ (s.table.proc p).state = .running) :
    Core ncpu (s.setTable t) (upd g i own) := by
  refine ⟨locks_step core inside stack (fun _ => ⟨rfl, fun _ => rfl⟩) (fun _ _ _ => Iff.rfl) ?_ ?_ still.1,
    run_step core (fun _ => ⟨rfl, rfl, rfl⟩) quiet.1 still.1 (fun p _ => states p) (states i).mp ?_
      (fun leaving => absurd leaving still.2)⟩
  · intro l
    rw [same]
    exact core.lockset c inside i stack l
  · rw [same]
    exact core.depth c inside i stack
  · exact fun process => .inl ((states i).mpr (still_running core inside stack quiet process))

theorem core_leave {t : Ptable} (quiet : (g i).stage.Calm) (locked : ptableLock ∈ (g i).locks)
    (gone : (t.proc i).state ≠ .running)
    (states : ∀ p, p ≠ i → ((t.proc p).state = .running ↔ (s.table.proc p).state = .running)) :
    Core ncpu (s.setTable t) (upd g i { g i with stage := .leaving }) :=
  ⟨locks_step core inside stack (fun _ => ⟨rfl, fun _ => rfl⟩) (fun _ _ _ => Iff.rfl)
      (core.lockset c inside i stack) (core.depth c inside i stack) rfl,
    run_step core (fun _ => ⟨rfl, rfl, rfl⟩) quiet.1 rfl states (fun now => absurd now gone) (fun _ => .inr rfl)
      (fun _ => ⟨locked, gone⟩)⟩

theorem core_lock {l depth : Nat} {holder : Option Nat} {own : Ghost} (change : s.lock l = none ∨ s.lock l = some c)
    (holder_self : holder = none ∨ holder = some c) (member : holder = some c ↔ l ∈ own.locks)
    (others : ∀ k, k ≠ l → (k ∈ own.locks ↔ k ∈ (g i).locks)) (counted : depth = own.locks.card)
    (quiet : (g i).stage.Calm) (still : own.stage.Calm) :
    Core ncpu { s.setCpu c { s.cpu c with ncli := depth } with lock := upd s.lock l holder } (upd g i own) := by
  have not_theirs : ∀ d, d ≠ c → ∀ h : Option Nat, h = none ∨ h = some c → h ≠ some d := by
    intro d away h mine theirs
    rcases mine with none | own
    · rw [none] at theirs
      cases theirs
    · rw [own] at theirs
      exact away (Option.some.inj theirs).symm
  have running := still_running core inside stack quiet
  refine ⟨locks_step core inside stack ?_ ?_ ?_ ?_ still.1, run_step core ?_ quiet.1 still.1 (fun p _ => Iff.rfl) id
    (fun process => .inl (running process)) (fun leaving => absurd leaving still.2)⟩
  · intro d
    by_cases here : d = c
    · subst here
      simp [setCpu]
    · simp [setCpu, upd_ne here]
  · intro d away k
    by_cases same : k = l
    · subst same
      simp [not_theirs d away holder holder_self, not_theirs d away (s.lock k) change]
    · simp [upd_ne same]
  · intro k
    by_cases same : k = l
    · subst same
      simpa using member
    · rw [others k same]
      simpa [upd_ne same] using core.lockset c inside i stack k
  · simpa [setCpu] using counted
  · intro d
    by_cases here : d = c
    · subst here
      simp [setCpu]
    · simp [setCpu, upd_ne here]

theorem core_acquire {l : Nat} {own : Ghost} (free : s.lock l = none) (grown : own.locks = insert l (g i).locks)
    (quiet : (g i).stage.Calm) (still : own.stage.Calm) :
    Core ncpu { s.setCpu c { s.cpu c with ncli := (s.cpu c).ncli + 1 } with lock := upd s.lock l (some c) } (upd g i own) := by
  have fresh : l ∉ (g i).locks := by
    intro held
    have taken := (core.lockset c inside i stack l).mpr held
    rw [free] at taken
    cases taken
  refine core_lock core inside stack (.inl free) (.inr rfl) ?_ ?_ ?_ quiet still
  · simp [grown]
  · intro k other
    simp [grown, other]
  · rw [grown, Finset.card_insert_of_notMem fresh, core.depth c inside i stack]

theorem core_release {l : Nat} {own : Ghost} (held : s.lock l = some c) (shrunk : own.locks = (g i).locks.erase l)
    (quiet : (g i).stage.Calm) (still : own.stage.Calm) :
    Core ncpu { s.setCpu c { s.cpu c with ncli := (s.cpu c).ncli - 1 } with lock := upd s.lock l none } (upd g i own) := by
  have member := (core.lockset c inside i stack l).mp held
  refine core_lock core inside stack (.inr held) (.inl rfl) ?_ ?_ ?_ quiet still
  · simp [shrunk]
  · intro k other
    simp [shrunk, other]
  · rw [shrunk, Finset.card_erase_of_mem member, core.depth c inside i stack]

theorem locks_switch {cpu : Nat → Cpu} {t : Ptable} {own : Ghost} {j : Nat} (others : ∀ d, d ≠ c → cpu d = s.cpu d)
    (moved : (cpu c).stack = threadOf j) (depth : (cpu c).ncli = (s.cpu c).ncli) (kind : j < nproc ∨ j = nproc + c)
    (elsewhere : ∀ d < ncpu, (s.cpu d).stack ≠ threadOf j) (held : (g i).locks = {ptableLock})
    (kept : own.locks = {ptableLock}) (parked : own.stage.Parked) :
    LockInv ncpu { s with table := t, cpu := cpu } (upd g i own) := by
  have other : j ≠ i := by
    intro same
    subst same
    exact elsewhere c inside stack
  have found := (core.off j (by omega) elsewhere).1
  have split : ∀ d k, d < ncpu → (cpu d).stack = threadOf k →
      (d = c ∧ k = j) ∨ (d ≠ c ∧ k ≠ j ∧ k ≠ i ∧ (s.cpu d).stack = threadOf k) := by
    intro d k inside' stack'
    by_cases here : d = c
    · subst here
      exact .inl ⟨rfl, thread_of_injective (stack'.symm.trans moved)⟩
    · rw [others d here] at stack'
      refine .inr ⟨here, fun same => ?_, fun same => ?_, stack'⟩
      · subst same
        exact elsewhere d inside' stack'
      · subst same
        exact here (core.alone d inside' c inside k stack' stack)
  refine ⟨?_, ?_, ?_, ?_, ?_, ?_⟩
  · intro d inside'
    show ∃ k, (cpu d).stack = threadOf k ∧ (k < nproc ∨ k = nproc + d)
    by_cases here : d = c
    · subst here
      exact ⟨j, moved, kind⟩
    · rw [others d here]
      exact core.threads d inside'
  · intro d inside' e inside'' k first second
    rcases split d k inside' first with ⟨rfl, rfl⟩ | ⟨away, different, -, before⟩
    · rcases split e k inside'' second with ⟨rfl, -⟩ | ⟨-, impossible, -, -⟩
      · rfl
      · exact absurd rfl impossible
    · rcases split e k inside'' second with ⟨-, impossible⟩ | ⟨-, -, -, before'⟩
      · exact absurd impossible different
      · exact core.alone d inside' e inside'' k before before'
  · intro d inside' k stack' l
    rcases split d k inside' stack' with ⟨rfl, rfl⟩ | ⟨-, -, notOwn, before⟩
    · rw [upd_ne other, found, ← held]
      exact core.lockset d inside' i stack l
    · rw [upd_ne notOwn]
      exact core.lockset d inside' k before l
  · intro d inside' k stack'
    rcases split d k inside' stack' with ⟨rfl, rfl⟩ | ⟨away, -, notOwn, before⟩
    · rw [upd_ne other, found, ← held]
      exact depth.trans (core.depth d inside' i stack)
    · rw [upd_ne notOwn]
      show (cpu d).ncli = _
      rw [others d away]
      exact core.depth d inside' k before
  · intro k valid off
    by_cases here : k = i
    · rw [here, upd_self]
      exact ⟨kept, parked⟩
    · rw [upd_ne here]
      refine core.off k valid fun d inside' stack' => ?_
      by_cases there : d = c
      · subst there
        exact here (thread_of_injective (stack'.symm.trans stack))
      · exact off d inside' ((congrArg Cpu.stack (others d there)).trans stack')
  · intro k gone
    by_cases here : k = i
    · rw [here, upd_self, kept]
      exact Finset.mem_singleton_self _
    · rw [upd_ne here] at gone ⊢
      exact core.away k gone

theorem leaving_locks (leaving : (g i).stage = .leaving) (only : (s.cpu c).ncli = 1) : (g i).locks = {ptableLock} := by
  have locked := (core.leaving i leaving).1
  obtain ⟨l, single⟩ := Finset.card_eq_one.mp ((core.depth c inside i stack).symm.trans only)
  rw [single] at locked ⊢
  rw [Finset.mem_singleton.mp locked]

theorem core_sched (process : i < nproc) (leaving : (g i).stage = .leaving) (only : (s.cpu c).ncli = 1) {frame : Frame} :
    Core ncpu (s.setCpu c { s.cpu c with stack := .scheduler c }) (upd g i ⟨{ptableLock}, .out, frame⟩) := by
  have gone := (core.leaving i leaving).2
  have held := leaving_locks core inside stack leaving only
  have onProc := core.onProc c inside i process (by rw [stack, thread_of_proc process])
  have elsewhere : ∀ d < ncpu, (s.cpu d).stack ≠ threadOf (nproc + c) := by
    intro d inside' stack'
    obtain ⟨k, same, kind⟩ := core.threads d inside'
    have equal := thread_of_injective (stack'.symm.trans same)
    have there : d = c := by omega
    subst there
    have impossible := thread_of_injective (stack'.symm.trans stack)
    omega
  have cpus : ∀ d, d ≠ c → upd s.cpu c { s.cpu c with stack := .scheduler c } d = s.cpu d :=
    fun d away => upd_ne away
  have procs : ∀ d, (upd s.cpu c { s.cpu c with stack := .scheduler c } d).proc = (s.cpu d).proc ∧
      (upd s.cpu c { s.cpu c with stack := .scheduler c } d).pgdir = (s.cpu d).pgdir := by
    intro d
    by_cases here : d = c
    · subst here
      simp
    · rw [cpus d here]
      exact ⟨rfl, rfl⟩
  refine ⟨locks_switch core inside stack cpus (j := nproc + c) (by simp [thread_of_scheduler]) (by simp) (.inr rfl)
    elsewhere held rfl (.inl rfl), ?_, ?_, ?_, ?_, ?_, ?_, ?_⟩
  · intro d inside'
    rw [setCpu, (procs d).2, (procs d).1]
    exact core.pgdirs d inside'
  · intro d inside'
    rw [setCpu, (procs d).1, upd_ne (by omega)]
    exact core.current d inside'
  · intro d inside' p slot stack'
    have away : d ≠ c := by
      intro here
      subst here
      simp [setCpu] at stack'
    simp only [setCpu, cpus d away] at stack' ⊢
    have other : p ≠ i := by
      intro same
      subst same
      exact away (core.alone d inside' c inside p (by rw [stack', thread_of_proc slot]) stack)
    rw [upd_ne other]
    exact core.onProc d inside' p slot stack'
  · intro d inside' stack' p current
    rw [setCpu, (procs d).1] at current
    by_cases here : d = c
    · subst here
      rw [onProc.1] at current
      cases current
      exact gone
    · simp only [setCpu, cpus d here] at stack'
      exact core.offProc d inside' stack' p current
  · intro d inside' e inside'' p first second
    rw [setCpu, (procs d).1] at first
    rw [setCpu, (procs e).1] at second
    exact core.unique d inside' e inside'' p first second
  · intro p now
    obtain ⟨d, inside', current⟩ := core.running p now
    exact ⟨d, inside', (procs d).1.trans current⟩
  · intro p gone'
    have other : p ≠ i := by
      intro same
      rw [same, upd_self] at gone'
      cases gone'
    rw [upd_ne other] at gone' ⊢
    exact core.leaving p gone'

theorem idle_elsewhere (quiet : (g i).stage.Calm) (locked : ptableLock ∈ (g i).locks) {q : Nat}
    (idle : (s.table.proc q).state ≠ .running) : ∀ d < ncpu, (s.cpu d).proc ≠ some q := by
  intro d inside' current
  obtain ⟨k, stack', kind⟩ := core.threads d inside'
  rcases kind with process | scheduler
  · rw [thread_of_proc process] at stack'
    obtain ⟨own, status⟩ := core.onProc d inside' k process stack'
    rw [current] at own
    cases own
    have leaving := status.resolve_left idle
    have same := (holds_alone core inside stack inside' (by rw [stack', thread_of_proc process]) locked
      (core.leaving q leaving).1).2
    subst same
    exact quiet.2 leaving
  · subst scheduler
    rw [core.current d inside'] at current
    have held := core.away (nproc + d) (by rw [current]; simp)
    have same := (holds_alone core inside stack inside' stack' locked held).2
    have none := quiet.1
    rw [← same, current] at none
    cases none

theorem core_dispatch {q : Nat} (quiet : (g i).stage.Calm) (held : (g i).locks = {ptableLock}) (own : i = nproc + c)
    (slot : q < nproc) (runnable : (s.table.proc q).state = .runnable) :
    Core ncpu ((s.setTable (s.table.setState q .running)).setCpu c
      { s.cpu c with proc := some q, pgdir := some q, stack := .proc q }) (upd g i { g i with stage := .away q }) := by
  have locked : ptableLock ∈ (g i).locks := by
    rw [held]
    exact Finset.mem_singleton_self _
  have idle := idle_elsewhere core inside stack quiet locked (q := q) (by rw [runnable]; simp)
  have elsewhere : ∀ d < ncpu, (s.cpu d).stack ≠ threadOf q := by
    intro d inside' stack'
    rw [thread_of_proc slot] at stack'
    exact idle d inside' (core.onProc d inside' q slot stack').1
  have parked := (core.off q (by omega) elsewhere).2
  have cpus : ∀ d, d ≠ c → upd s.cpu c { s.cpu c with proc := some q, pgdir := some q, stack := .proc q } d = s.cpu d :=
    fun d away => upd_ne away
  have states : ∀ p, p ≠ q → ((s.table.setState q .running).proc p) = s.table.proc p :=
    fun p other => s.table.set_ne _ other
  refine ⟨locks_switch core inside stack cpus (j := q) (by simp [thread_of_proc slot]) (by simp) (.inl slot)
    elsewhere held held (.inr (by simp [Stage.dispatched])), ?_, ?_, ?_, ?_, ?_, ?_, ?_⟩
  · intro d inside'
    by_cases here : d = c
    · subst here
      simp [setCpu]
    · simp only [setCpu, setTable, cpus d here]
      exact core.pgdirs d inside'
  · intro d inside'
    by_cases here : d = c
    · subst here
      rw [← own, upd_self]
      simp [setCpu, Stage.dispatched]
    · rw [upd_ne (by omega)]
      simp only [setCpu, setTable, cpus d here]
      exact core.current d inside'
  · intro d inside' p slot' stack'
    by_cases here : d = c
    · subst here
      simp only [setCpu, upd_self] at stack' ⊢
      cases stack'
      exact ⟨rfl, .inl (by simp [setTable, Ptable.setState])⟩
    · simp only [setCpu, setTable, cpus d here] at stack' ⊢
      obtain ⟨current, status⟩ := core.onProc d inside' p slot' stack'
      have other : p ≠ q := by
        intro same
        subst same
        exact idle d inside' current
      rw [states p other, upd_ne (by omega)]
      exact ⟨current, status⟩
  · intro d inside' stack' p current
    by_cases here : d = c
    · subst here
      simp [setCpu] at stack'
    · simp only [setCpu, setTable, cpus d here] at stack' current ⊢
      have other : p ≠ q := by
        intro same
        subst same
        exact idle d inside' current
      rw [states p other]
      exact core.offProc d inside' stack' p current
  · intro d inside' e inside'' p first second
    by_cases here : d = c
    · by_cases there : e = c
      · rw [here, there]
      · subst here
        simp only [setCpu, setTable, cpus e there, upd_self] at first second
        cases first
        exact absurd second (idle e inside'')
    · by_cases there : e = c
      · subst there
        simp only [setCpu, setTable, cpus d here, upd_self] at first second
        cases second
        exact absurd first (idle d inside')
      · simp only [setCpu, setTable, cpus d here, cpus e there] at first second
        exact core.unique d inside' e inside'' p first second
  · intro p now
    by_cases same : p = q
    · exact ⟨c, inside, by simp [setCpu, same]⟩
    · simp only [setCpu, setTable, states p same] at now
      obtain ⟨d, inside', current⟩ := core.running p now
      have away : d ≠ c := by
        intro here
        rw [here, core.current c inside, ← own, quiet.1] at current
        cases current
      refine ⟨d, inside', ?_⟩
      simp only [setCpu, setTable, cpus d away]
      exact current
  · intro p gone
    have notOwn : p ≠ i := by
      intro same
      rw [same, upd_self] at gone
      cases gone
    rw [upd_ne notOwn] at gone ⊢
    have other : p ≠ q := by
      intro same
      subst same
      rcases parked with out | away
      · rw [out] at gone
        cases gone
      · rw [gone] at away
        exact away rfl
    simp only [setCpu, setTable, states p other]
    exact core.leaving p gone

theorem core_leave_proc {q : Nat} (away : (g i).stage = .away q) (scheduler : nproc ≤ i) :
    Core ncpu (s.setCpu c { s.cpu c with proc := none, pgdir := none }) (upd g i { g i with stage := .out }) := by
  obtain ⟨k, same, kind⟩ := core.threads c inside
  have equal := thread_of_injective (stack.symm.trans same)
  have own : i = nproc + c := by omega
  have current : (s.cpu c).proc = some q := by
    rw [core.current c inside, ← own, away]
    rfl
  have gone := core.offProc c inside (by rw [stack, own, thread_of_scheduler]) q current
  have cpus : ∀ d, d ≠ c → upd s.cpu c { s.cpu c with proc := none, pgdir := none } d = s.cpu d :=
    fun d away => upd_ne away
  refine ⟨locks_step core inside stack ?_ (fun _ _ _ => Iff.rfl) (core.lockset c inside i stack) ?_ rfl,
    ?_, ?_, ?_, ?_, ?_, ?_, ?_⟩
  · intro d
    by_cases here : d = c
    · subst here
      simp [setCpu]
    · simp [setCpu, cpus d here]
  · simpa [setCpu] using core.depth c inside i stack
  · intro d inside'
    by_cases here : d = c
    · subst here
      simp [setCpu]
    · simp only [setCpu, cpus d here]
      exact core.pgdirs d inside'
  · intro d inside'
    by_cases here : d = c
    · subst here
      rw [← own, upd_self]
      simp [setCpu, Stage.dispatched]
    · rw [upd_ne (by omega)]
      simp only [setCpu, cpus d here]
      exact core.current d inside'
  · intro d inside' p slot stack'
    by_cases here : d = c
    · subst here
      simp only [setCpu, upd_self] at stack'
      rw [stack', ← thread_of_proc slot] at stack
      have impossible := thread_of_injective stack
      omega
    · rw [upd_ne (by omega)]
      simp only [setCpu, cpus d here] at stack' ⊢
      exact core.onProc d inside' p slot stack'
  · intro d inside' stack' p current'
    by_cases here : d = c
    · subst here
      simp [setCpu] at current'
    · simp only [setCpu, cpus d here] at stack' current'
      exact core.offProc d inside' stack' p current'
  · intro d inside' e inside'' p first second
    by_cases here : d = c
    · subst here
      simp [setCpu] at first
    · by_cases there : e = c
      · subst there
        simp [setCpu] at second
      · simp only [setCpu, cpus d here, cpus e there] at first second
        exact core.unique d inside' e inside'' p first second
  · intro p now
    obtain ⟨d, inside', current'⟩ := core.running p now
    have elsewhere : d ≠ c := by
      intro here
      rw [here, current] at current'
      cases current'
      exact gone now
    refine ⟨d, inside', ?_⟩
    simp only [setCpu, cpus d elsewhere]
    exact current'
  · intro p gone'
    have other : p ≠ i := by
      intro same
      rw [same, upd_self] at gone'
      cases gone'
    rw [upd_ne other] at gone' ⊢
    exact core.leaving p gone'

end

end Xv6.Smp
