import Xv6.Lib.Machine

set_option autoImplicit false

namespace Xv6.Spin

structure Spinlock where
  locked : Nat
  cpu : Option Nat

abbrev State : Type := Nat → Spinlock

-- Single accesses to the lock's fields. A panic is one event, after which its CPU does no more.
inductive Op : Type → Type 1 where
  | locked (l : Nat) : Op Nat
  | owner (l : Nat) : Op (Option Nat)
  | xchg (l : Nat) : Op Nat
  | setCpu (l : Nat) (cpu : Option Nat) : Op Unit
  | clear (l : Nat) : Op Unit
  | panic (msg : String) (l : Nat) : Op Unit
  | forever {α : Type} : Op α

def Op.exec {β : Type} : Op β → State → Res State β
  | .locked l, s => .ok (s l).locked s
  | .owner l, s => .ok (s l).cpu s
  | .xchg l, s => .ok (s l).locked (upd s l { s l with locked := 1 })
  | .setCpu l cpu, s => .ok () (upd s l { s l with cpu := cpu })
  | .clear l, s => .ok () (upd s l { s l with locked := 0 })
  | .panic _ _, s => .ok () s
  | .forever, _ => .blocked

abbrev SpinM (α : Type) : Type 1 := Prog Op α

-- What a CPU does between its calls: anything, or one more round of acquire's loop.
inductive Task where
  | out
  | spinning (l : Nat)
deriving DecidableEq, Repr

def panic (msg : String) (l : Nat) : SpinM Task := do
  .lift (.panic msg l)
  .lift .forever

def holding (c l : Nat) : SpinM Bool := do
  let locked ← .lift (.locked l)
  if locked = 0 then return false
  else do
    let cpu ← .lift (.owner l)
    return cpu == some c

-- pushcli and popcli are on the CPU's own fields, and modelled there.
def acquire (c l : Nat) : SpinM Task := do
  if ← holding c l then panic "acquire" l
  else return .spinning l

def acquireLoop (c l : Nat) : SpinM Task := do
  let old ← .lift (.xchg l)
  if old ≠ 0 then return .spinning l
  else do
    .lift (.setCpu l (some c))
    return .out

def release (c l : Nat) : SpinM Task := do
  if ← holding c l then do
    .lift (.setCpu l none)
    .lift (.clear l)
    return .out
  else panic "release" l

-- A handler's calls come between others: acquire and a holder's release run with interrupts off.
inductive Calls : Nat → Task → SpinM Task → Prop where
  | acquire (c l : Nat) : Calls c .out (acquire c l)
  | acquireLoop (c l : Nat) : Calls c (.spinning l) (acquireLoop c l)
  | release (c l : Nat) : Calls c .out (release c l)

def start : Config Op State Task := ⟨fun _ => ⟨0, none⟩, fun _ => .ret .out⟩

abbrev Trace : Type 1 := List (Event Op State)

abbrev Holders : Type := Nat → Option Nat

-- A lock is taken by the xchg that finds 0 and given back by the store of 0.
def Op.holders {β : Type} (c : Nat) : Op β → β → Holders → Holders
  | .xchg l, old, h => if old = 0 then upd h l (some c) else h
  | .clear l, _, h => upd h l none
  | _, _, h => h

def holder (trace : Trace) : Holders := trace.foldl (fun h e => e.act.holders e.pid e.res h) fun _ => none

-- What a step of CPU c may do when the locks have these holders.
def Op.Lawful {β : Type} (c : Nat) : Op β → β → Holders → Prop
  | .xchg l, old, h => h l ≠ some c ∧ (old = 0 ↔ h l = none)
  | .clear l, _, h => h l = some c
  | .panic msg l, _, h => msg = "acquire" ∧ h l = some c ∨ msg = "release" ∧ h l ≠ some c
  | _, _, _ => True

def Lawful (trace : Trace) : Prop := ∀ before e, before ++ [e] <+: trace → e.act.Lawful e.pid e.res (holder before)

-- The locks that a CPU holds; window is the one of them whose cpu field does not say so.
structure Ghost where
  held : List Nat
  window : Option Nat

structure Inv (trace : Trace) (s : State) (g : Nat → Ghost) : Prop where
  lawful : Lawful trace
  held : ∀ c l, l ∈ (g c).held ↔ holder trace l = some c
  locked : ∀ l, (s l).locked = 0 ↔ holder trace l = none
  cpu : ∀ c l, (s l).cpu = some c ↔ l ∈ (g c).held ∧ (g c).window ≠ some l

theorem holder_step (trace : Trace) (e : Event Op State) :
    holder (trace ++ [e]) = e.act.holders e.pid e.res (holder trace) := by
  unfold holder
  rw [List.foldl_append]
  rfl

theorem lawful_step {trace : Trace} {e : Event Op State} (lawful : Lawful trace)
    (last : e.act.Lawful e.pid e.res (holder trace)) : Lawful (trace ++ [e]) := by
  intro before e' start
  rcases List.prefix_concat_iff.mp start with same | earlier
  · obtain ⟨rfl, only⟩ := List.append_inj' same rfl
    cases only
    exact last
  · exact lawful before e' earlier

section

variable {trace : Trace} {s : State} {g : Nat → Ghost} {c l : Nat} {e : Event Op State}

theorem inv_read (inv : Inv trace s g) (lawful : e.act.Lawful e.pid e.res (holder trace))
    (quiet : e.act.holders e.pid e.res (holder trace) = holder trace) : Inv (trace ++ [e]) s (upd g c (g c)) := by
  have now := (holder_step trace e).trans quiet
  rw [upd_same]
  refine ⟨lawful_step inv.lawful lawful, ?_, ?_, inv.cpu⟩
  · rw [now]
    exact inv.held
  · rw [now]
    exact inv.locked

theorem inv_taken (inv : Inv trace s g) (shut : (g c).window = none) (free : (s l).locked = 0) :
    Inv (trace ++ [⟨c, .xchg l, (s l).locked, s, upd s l { s l with locked := 1 }⟩]) (upd s l { s l with locked := 1 })
      (upd g c ⟨l :: (g c).held, some l⟩) := by
  obtain ⟨lawful, held, locked, cpu⟩ := inv
  have nobody := (locked l).mp free
  have now := (holder_step trace ⟨c, .xchg l, (s l).locked, s, upd s l { s l with locked := 1 }⟩).trans (if_pos free)
  refine ⟨lawful_step lawful ⟨by simp [nobody], locked l⟩, fun q j => ?_, fun j => ?_, fun q j => ?_⟩
  all_goals
    simp only [now, upd]
    grind

theorem inv_busy (inv : Inv trace s g) (other : l ∉ (g c).held) (busy : (s l).locked ≠ 0) :
    Inv (trace ++ [⟨c, .xchg l, (s l).locked, s, upd s l { s l with locked := 1 }⟩]) (upd s l { s l with locked := 1 })
      (upd g c (g c)) := by
  obtain ⟨lawful, held, locked, cpu⟩ := inv
  have now := (holder_step trace ⟨c, .xchg l, (s l).locked, s, upd s l { s l with locked := 1 }⟩).trans (if_neg busy)
  refine ⟨lawful_step lawful ⟨by simp [← held, other], locked l⟩, fun q j => ?_, fun j => ?_, fun q j => ?_⟩
  all_goals
    simp only [now, upd]
    grind

theorem inv_given (inv : Inv trace s g) (mine : l ∈ (g c).held) (opened : (g c).window = some l) :
    Inv (trace ++ [⟨c, .clear l, (), s, upd s l { s l with locked := 0 }⟩]) (upd s l { s l with locked := 0 })
      (upd g c ⟨(g c).held.filter (· ≠ l), none⟩) := by
  obtain ⟨lawful, held, locked, cpu⟩ := inv
  have now := holder_step trace ⟨c, .clear l, (), s, upd s l { s l with locked := 0 }⟩
  refine ⟨lawful_step lawful ((held c l).mp mine), fun q j => ?_, fun j => ?_, fun q j => ?_⟩
  all_goals
    simp only [now, Op.holders, upd]
    grind

-- The holder's stores to the cpu field open and close its window.
theorem inv_setCpu (inv : Inv trace s g) (mine : l ∈ (g c).held) {cpu window : Option Nat}
    (sets : (g c).window = some l ∧ cpu = some c ∧ window = none ∨ (g c).window = none ∧ cpu = none ∧ window = some l) :
    Inv (trace ++ [⟨c, .setCpu l cpu, (), s, upd s l { s l with cpu := cpu }⟩]) (upd s l { s l with cpu := cpu })
      (upd g c ⟨(g c).held, window⟩) := by
  obtain ⟨lawful, held, locked, cpus⟩ := inv
  have now := holder_step trace ⟨c, .setCpu l cpu, (), s, upd s l { s l with cpu := cpu }⟩
  refine ⟨lawful_step lawful trivial, fun q j => ?_, fun j => ?_, fun q j => ?_⟩
  all_goals
    simp only [now, Op.holders, upd]
    grind

end

section

variable {c l : Nat} {g : Ghost} {α : Type} {final : α → Ghost → Prop}

abbrev Safely (c : Nat) {α : Type} (final : α → Ghost → Prop) (prog : SpinM α) (g : Ghost) : Prop :=
  Safe Op.exec (fun _ => True) Inv c final prog g

-- holding is exact for the CPU that asks, whatever the others do between its two reads.
theorem holding_safe {next : Bool → SpinM α} (shut : g.window = none) (no : l ∉ g.held → Safely c final (next false) g)
    (yes : l ∈ g.held → Safely c final (next true) g) : Safely c final (holding c l >>= next) g := by
  intro trace s ghosts own inv r s' executed _
  cases executed
  subst own
  refine ⟨_, inv_read inv trivial rfl, ?_⟩
  change Safely c final ((if (s l).locked = 0 then pure false else _ : SpinM Bool) >>= next) _
  by_cases free : (s l).locked = 0
  · rw [if_pos free]
    refine no fun held => ?_
    rw [inv.held, (inv.locked l).mp free] at held
    cases held
  · rw [if_neg free]
    generalize ghosts c = g at shut no yes
    intro trace s ghosts own inv r s' executed _
    cases executed
    subst own
    refine ⟨_, inv_read inv trivial rfl, ?_⟩
    change Safely c final (next ((s l).cpu == some c)) _
    by_cases mine : (s l).cpu = some c
    · rw [beq_iff_eq.mpr mine]
      exact yes ((inv.cpu c l).mp mine).1
    · rw [beq_eq_false_iff_ne.mpr mine]
      exact no fun held => mine ((inv.cpu c l).mpr ⟨held, by simp [shut]⟩)

theorem panic_safe {msg : String} {final : Task → Ghost → Prop}
    (fits : msg = "acquire" ∧ l ∈ g.held ∨ msg = "release" ∧ l ∉ g.held) : Safely c final (panic msg l) g := by
  intro trace s ghosts own inv r s' executed _
  cases executed
  subst own
  rw [inv.held] at fits
  refine ⟨_, inv_read inv fits rfl, ?_⟩
  intro trace s ghosts own inv r s' never
  cases never

theorem setCpu_safe {cpu window : Option Nat} {next : Unit → SpinM α} (mine : l ∈ g.held)
    (sets : g.window = some l ∧ cpu = some c ∧ window = none ∨ g.window = none ∧ cpu = none ∧ window = some l)
    (rest : Safely c final (next ()) ⟨g.held, window⟩) : Safely c final (.op (.setCpu l cpu) next) g := by
  intro trace s ghosts own inv r s' executed _
  cases executed
  subst own
  exact ⟨_, inv_setCpu inv mine sets, rest⟩

def Rests : Task → Ghost → Prop
  | .out, g => g.window = none
  | .spinning l, g => g.window = none ∧ l ∉ g.held

theorem acquire_safe (c l : Nat) (shut : g.window = none) : Safely c Rests (acquire c l) g :=
  holding_safe shut (fun other => ⟨shut, other⟩) fun mine => panic_safe (.inl ⟨rfl, mine⟩)

theorem acquireLoop_safe (c l : Nat) (shut : g.window = none) (other : l ∉ g.held) : Safely c Rests (acquireLoop c l) g := by
  intro trace s ghosts own inv r s' executed _
  cases executed
  subst own
  by_cases free : (s l).locked = 0
  · refine ⟨_, inv_taken inv shut free, ?_⟩
    change Safely c Rests (if (s l).locked ≠ 0 then _ else _ : SpinM Task) _
    rw [if_neg (not_not.mpr free)]
    exact setCpu_safe List.mem_cons_self (.inl ⟨rfl, rfl, rfl⟩) rfl
  · refine ⟨_, inv_busy inv other free, ?_⟩
    change Safely c Rests (if (s l).locked ≠ 0 then _ else _ : SpinM Task) _
    rw [if_pos free]
    exact ⟨shut, other⟩

theorem release_safe (c l : Nat) (shut : g.window = none) : Safely c Rests (release c l) g := by
  refine holding_safe shut (fun other => panic_safe (.inr ⟨rfl, other⟩)) fun mine => ?_
  refine setCpu_safe mine (.inr ⟨shut, rfl, rfl⟩) ?_
  intro trace s ghosts own inv r s' executed _
  cases executed
  refine ⟨_, inv_given inv ?_ ?_, rfl⟩
  · rw [own]
    exact mine
  · rw [own]

theorem calls_safe (c : Nat) (task : Task) (g : Ghost) (prog : SpinM Task) (rests : Rests task g) (allowed : Calls c task prog) :
    Safely c Rests prog g := by
  cases allowed with
  | acquire l => exact acquire_safe c l rests
  | acquireLoop l => exact acquireLoop_safe c l rests.1 rests.2
  | release l => exact release_safe c l rests

end

abbrev Runs : Trace → Config Op State Task → Prop := Reach Op.exec Calls (fun _ => True) start

theorem start_inv : Inv [] start.shared fun _ => ⟨[], none⟩ := by
  refine ⟨fun before e start => ?_, by simp [holder], by simp [holder, start], by simp [start]⟩
  exact absurd (List.prefix_nil.mp start) (List.append_ne_nil_of_right_ne_nil before (List.cons_ne_nil e []))

-- acquire and release are atomic for the rest of the kernel: a lock is taken when it is free
-- and given back by its holder, no CPU spins for a lock it holds, and the only panics are those
-- of a holder's acquire and of a release by another CPU.
theorem spinlocks_atomic (trace : Trace) (config : Config Op State Task) (runs : Runs trace config) :
    Lawful trace ∧ ∀ c l, config.thread c = .ret (.spinning l) → holder trace l ≠ some c := by
  obtain ⟨g, inv, safe⟩ := reach_invariant Rests ⟨_, start_inv, fun _ => rfl⟩ calls_safe runs
  refine ⟨inv.lawful, fun c l waits mine => ?_⟩
  have rests := safe c
  rw [waits] at rests
  exact rests.2 ((inv.held c l).mpr mine)

-- CPU 1 spins for a lock that CPU 0 holds, and takes it when it is given back.
def handover : List (Turn Op Task) :=
  [.call 0 .out (acquire 0 3), .step 0, .call 0 (.spinning 3) (acquireLoop 0 3), .step 0, .call 1 .out (acquire 1 3), .step 1, .step 0,
    .step 1, .call 1 (.spinning 3) (acquireLoop 1 3), .step 1, .call 0 .out (release 0 3), .step 0, .step 0, .step 0, .step 0,
    .call 1 (.spinning 3) (acquireLoop 1 3), .step 1]

theorem spinlocks_atomic_handover : ∃ trace config, Runs trace config ∧ holder trace 3 = some 1 ∧ Lawful trace := by
  have ran : (start.play Op.exec handover).any (fun r => holder r.1 3 = some 1) = true := by decide +kernel
  have allowed : ∀ turn ∈ handover, turn.Allowed Calls := by
    simp only [handover, List.forall_mem_cons, List.not_mem_nil, Turn.Allowed, false_implies, implies_true, and_true, true_and]
    exact ⟨.acquire 0 3, .acquireLoop 0 3, .acquire 1 3, .acquireLoop 1 3, .release 0 3, .acquireLoop 1 3⟩
  obtain ⟨⟨trace, config⟩, played, taken⟩ := (Option.any_eq_true _ _).mp ran
  have runs := play_reach handover (fun _ _ => trivial) allowed .init played
  exact ⟨_, config, runs, of_decide_eq_true taken, (spinlocks_atomic _ config runs).1⟩

-- FL_IF of the CPU's eflags, and the fields of struct cpu that pushcli and popcli use.
structure Cpu where
  flIf : Bool
  ncli : Int
  intena : Bool

def Cpu.pushcli (k : Cpu) : Cpu := ⟨false, k.ncli + 1, if k.ncli = 0 then k.flIf else k.intena⟩

def Cpu.popcli (k : Cpu) : Except String Cpu :=
  if k.flIf then .error "popcli - interruptible"
  else if k.ncli - 1 < 0 then .error "popcli"
  else .ok { k with ncli := k.ncli - 1, flIf := k.ncli - 1 = 0 && k.intena }

-- Calls of pushcli (true) and popcli, and how many pushclis they leave unmatched, if no popcli
-- is one too many.
def Cpu.run (k : Cpu) : List Bool → Except String Cpu
  | [] => .ok k
  | true :: rest => k.pushcli.run rest
  | false :: rest => k.popcli >>= fun k => k.run rest

def unmatched (n : Nat) : List Bool → Option Nat
  | [] => some n
  | true :: rest => unmatched (n + 1) rest
  | false :: rest => if n = 0 then none else unmatched (n - 1) rest

-- n pushclis deep, over code in which interrupts were on or off.
structure Deep (on : Bool) (n : Nat) (k : Cpu) : Prop where
  ncli : k.ncli = n
  flIf : k.flIf = (on && n = 0)
  intena : n ≠ 0 → k.intena = on

theorem deep_run {on : Bool} {n : Nat} {k : Cpu} (deep : Deep on n k) (calls : List Bool) :
    (∀ m, unmatched n calls = some m → ∃ k', k.run calls = .ok k' ∧ Deep on m k') ∧
    (unmatched n calls = none → ∃ msg, k.run calls = .error msg) := by
  induction calls generalizing n k with
  | nil => exact ⟨fun m same => ⟨k, rfl, Option.some.inj same ▸ deep⟩, fun never => absurd never (Option.some_ne_none n)⟩
  | cons call rest ih =>
    obtain ⟨ncli, flIf, intena⟩ := deep
    cases call with
    | true =>
      refine ih (n := n + 1) ⟨by simp [Cpu.pushcli, ncli], by simp [Cpu.pushcli], fun _ => ?_⟩
      by_cases zero : n = 0
      · simp [Cpu.pushcli, ncli, flIf, zero]
      · simp [Cpu.pushcli, ncli, intena zero, zero]
    | false =>
      cases n with
      | zero =>
        refine ⟨fun m never => absurd never.symm (Option.some_ne_none m), fun _ => ?_⟩
        cases on with
        | true => exact ⟨"popcli - interruptible", by simp [Cpu.run, Cpu.popcli, flIf, bind, Except.bind]⟩
        | false => exact ⟨"popcli", by simp [Cpu.run, Cpu.popcli, flIf, ncli, bind, Except.bind]⟩
      | succ n =>
        have popped : k.popcli = .ok ⟨decide (n = 0) && on, n, on⟩ := by
          simp [Cpu.popcli, flIf, ncli, intena (Nat.succ_ne_zero n)]
        have deep : Deep on n ⟨decide (n = 0) && on, n, on⟩ := ⟨rfl, Bool.and_comm _ _, fun _ => rfl⟩
        rw [Cpu.run, popped]
        exact ih deep

end Xv6.Spin
