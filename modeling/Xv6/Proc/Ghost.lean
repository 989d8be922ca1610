import Mathlib.Data.Finset.Card
import Xv6.Proc.Smp

set_option autoImplicit false

namespace Xv6.Smp

-- Where a thread stands in the code that other threads depend on. checked: wait found
-- no zombie child and still holds ptable.lock. entering, swapping: sleep before and after it
-- takes ptable.lock. leaving: the state is changed and sched is next. away: a scheduler
-- that switched to q.
inductive Stage where
  | out
  | checked
  | entering
  | swapping
  | leaving
  | away (q : Nat)
deriving DecidableEq

-- A fork with its new slot, or a call of sleep with the locks held at the call.
inductive Frame where
  | none
  | embryo (np : Nat)
  | adopted (np : Nat)
  | sleep (chan : Chan) (lk : Nat) (entered : Finset Nat)

structure Ghost where
  locks : Finset Nat
  stage : Stage
  frame : Frame

def Frame.child : Frame → Option Nat
  | .embryo np => some np
  | .adopted np => some np
  | _ => Option.none

def Stage.dispatched : Stage → Option Nat
  | .away q => some q
  | _ => Option.none

def threadOf (i : Nat) : KThread := if i < nproc then .proc i else .scheduler (i - nproc)

theorem thread_of_proc {p : Nat} (slot : p < nproc) : threadOf p = .proc p := if_pos slot

theorem thread_of_scheduler (c : Nat) : threadOf (nproc + c) = .scheduler c := by
  rw [threadOf, if_neg (by omega), Nat.add_sub_cancel_left]

theorem thread_of_injective {i j : Nat} (same : threadOf i = threadOf j) : i = j := by
  simp only [threadOf] at same
  by_cases left : i < nproc
  · by_cases right : j < nproc
    · rw [if_pos left, if_pos right] at same
      exact KThread.proc.inj same
    · rw [if_pos left, if_neg right] at same
      cases same
  · by_cases right : j < nproc
    · rw [if_neg left, if_pos right] at same
      cases same
    · rw [if_neg left, if_neg right] at same
      have equal := KThread.scheduler.inj same
      omega

-- How each action moves the ghost data of thread i, which runs on stack th.
inductive Moves (i : Nat) (th : KThread) : {β : Type} → SmpOp β → β → Ghost → Ghost → Prop where
  | acquire (l : Nat) (g : Ghost) (calm : g.stage = .out) :
      Moves i th (.acquire th l) () g { g with locks := insert l g.locks }
  | swapIn (g : Ghost) (entering : g.stage = .entering) :
      Moves i th (.acquire th ptableLock) () g { g with locks := insert ptableLock g.locks, stage := .swapping }
  | release (l : Nat) (g : Ghost) (calm : g.stage = .out) :
      Moves i th (.release th l) () g { g with locks := g.locks.erase l }
  | swapOut (chan : Chan) (lk : Nat) (entered : Finset Nat) (g : Ghost) (swapping : g.stage = .swapping)
      (inside : g.frame = .sleep chan lk entered) (other : lk ≠ ptableLock) :
      Moves i th (.release th lk) () g { g with locks := g.locks.erase lk }
  | sched (g : Ghost) (leaving : g.stage = .leaving) :
      Moves i th (.sched th) () g { g with locks := {ptableLock}, stage := .out }
  | setRunnable (g : Ghost) (calm : g.stage = .out) (locked : ptableLock ∈ g.locks) :
      Moves i th (.setRunnable th) () g { g with stage := .leaving }
  | enterSleep (chan : Chan) (lk : Nat) (g : Ghost) (calm : g.stage = .out) (free : g.frame = .none) :
      Moves i th (.enterSleep th chan lk) () g
        { g with frame := .sleep chan lk g.locks, stage := if lk = ptableLock then .swapping else .entering }
  | enterWait (g : Ghost) (checked : g.stage = .checked) (free : g.frame = .none) :
      Moves i th (.enterSleep th (.proc i) ptableLock) () g { g with frame := .sleep (.proc i) ptableLock g.locks }
  | sleepOn (chan : Chan) (lk : Nat) (entered : Finset Nat) (g : Ghost) (swapping : g.stage = .swapping)
      (inside : g.frame = .sleep chan lk entered) (elsewhere : ∃ a, chan = .addr a) :
      Moves i th (.sleepOn th chan) () g { g with stage := .leaving }
  | sleepInWait (entered : Finset Nat) (g : Ghost) (checked : g.stage = .checked)
      (inside : g.frame = .sleep (.proc i) ptableLock entered) :
      Moves i th (.sleepOn th (.proc i)) () g { g with stage := .leaving }
  | clearChan (g : Ghost) (calm : g.stage = .out) : Moves i th (.clearChan th) () g g
  | leaveSleep (chan : Chan) (lk : Nat) (entered : Finset Nat) (g : Ghost) (calm : g.stage = .out)
      (inside : g.frame = .sleep chan lk entered) (held : g.locks = {lk}) :
      Moves i th (.leaveSleep th lk) () g { g with frame := .none }
  | wakeup1 (chan : Chan) (g : Ghost) (calm : g.stage = .out) : Moves i th (.wakeup1 th chan) () g g
  | allocproc (np : Nat) (g : Ghost) (calm : g.stage = .out) (free : g.frame = .none)
      (locked : ptableLock ∈ g.locks) (process : i < nproc) :
      Moves i th (.allocproc th) (some np) g { g with frame := .embryo np }
  | allocFailed (g : Ghost) (calm : g.stage = .out) : Moves i th (.allocproc th) none g g
  | abandon (np : Nat) (g : Ghost) (calm : g.stage = .out) (inside : g.frame = .embryo np) :
      Moves i th (.abandon th np) () g { g with frame := .none }
  | adopt (np : Nat) (g : Ghost) (calm : g.stage = .out) (inside : g.frame = .embryo np) :
      Moves i th (.adopt th np) () g { g with frame := .adopted np }
  | ready (np : Nat) (g : Ghost) (calm : g.stage = .out) (inside : g.frame = .adopted np)
      (locked : ptableLock ∈ g.locks) :
      Moves i th (.ready th np) () g { g with frame := .none }
  | exit (g : Ghost) (calm : g.stage = .out) (free : g.frame = .none) (locked : ptableLock ∈ g.locks) :
      Moves i th (.exit th) () g { g with stage := .leaving }
  | waitSleeps (g : Ghost) (calm : g.stage = .out) (locked : ptableLock ∈ g.locks) :
      Moves i th (.wait th) .sleeps g { g with stage := .checked }
  | waitReaped (pid : Int) (g : Ghost) (calm : g.stage = .out) (locked : ptableLock ∈ g.locks) :
      Moves i th (.wait th) (.reaped pid) g g
  | waitFailed (g : Ghost) (calm : g.stage = .out) (locked : ptableLock ∈ g.locks) :
      Moves i th (.wait th) .failed g g
  | kill (pid : Int) (found : Bool) (g : Ghost) (calm : g.stage = .out) (locked : ptableLock ∈ g.locks) :
      Moves i th (.kill th pid) found g g
  | trap (g : Ghost) (calm : g.stage = .out) : Moves i th (.trap th) () g g
  | passOver (q : Nat) (g : Ghost) (calm : g.stage = .out) : Moves i th (.dispatch th q) false g g
  | dispatch (c q : Nat) (g : Ghost) (calm : g.stage = .out) (locked : g.locks = {ptableLock}) (own : i = nproc + c)
      (slot : q < nproc) : Moves i th (.dispatch th q) true g { g with stage := .away q }
  | leaveProc (q : Nat) (g : Ghost) (away : g.stage = .away q) (scheduler : nproc ≤ i) :
      Moves i th (.leaveProc th) () g { g with stage := .out }

def Fits : KTask → Ghost → Prop
  | .idle, g => g.stage = .out ∧ g.frame = .none ∧ g.locks = ∅
  | .out, g => g.stage = .out ∧ g.frame = .none
  | .relock lk, g => g.stage = .out ∧ g.locks = ∅ ∧ ∃ chan entered, g.frame = .sleep chan lk entered
  | .embryo np, g => g.stage = .out ∧ g.frame = .embryo np
  | .adopted np, g => g.stage = .out ∧ g.frame = .adopted np
  | .waiting, g => g.stage = .out ∧ g.frame = .none ∧ ptableLock ∈ g.locks

theorem fits_calm {task : KTask} {g : Ghost} (fits : Fits task g) : g.stage = .out := by
  cases task <;> exact fits.1

theorem fits_locks {task : KTask} {g : Ghost} {locks : Finset Nat} (fits : Fits task g) (unlocked : task ≠ .waiting)
    (none : g.locks = ∅ → locks = ∅) : Fits task ⟨locks, .out, g.frame⟩ := by
  cases task with
  | idle => exact ⟨rfl, fits.2.1, none fits.2.2⟩
  | out => exact ⟨rfl, fits.2⟩
  | relock lk => exact ⟨rfl, none fits.2.1, fits.2.2⟩
  | embryo np => exact ⟨rfl, fits.2⟩
  | adopted np => exact ⟨rfl, fits.2⟩
  | waiting => exact absurd rfl unlocked

abbrev Follow (i : Nat) (th : KThread) {α : Type} (final : α → Ghost → Prop) : SmpM α → Ghost → Prop :=
  Follows (Moves i th) final

theorem follow_yield {i : Nat} {th : KThread} {task : KTask} {g : Ghost} (fits : Fits task g) (unlocked : task ≠ .waiting) :
    Follow i th Fits (yield th >>= fun _ => .ret task) g := by
  have calm := fits_calm fits
  refine fun _ => ⟨_, .acquire ptableLock g calm, ?_⟩
  refine fun _ => ⟨_, .setRunnable _ calm (Finset.mem_insert_self _ _), ?_⟩
  refine fun _ => ⟨_, .sched _ rfl, ?_⟩
  refine fun _ => ⟨_, .release ptableLock _ rfl, ?_⟩
  have kept : Fits task ⟨({ptableLock} : Finset Nat).erase ptableLock, .out, g.frame⟩ :=
    fits_locks fits unlocked (fun _ => by simp)
  exact kept

theorem follow_wakeup {i : Nat} {th : KThread} {task : KTask} {g : Ghost} (chan : Chan) (fits : Fits task g)
    (unlocked : task ≠ .waiting) : Follow i th Fits (wakeup th chan >>= fun _ => .ret task) g := by
  have calm := fits_calm fits
  refine fun _ => ⟨_, .acquire ptableLock g calm, ?_⟩
  refine fun _ => ⟨_, .wakeup1 chan _ calm, ?_⟩
  refine fun _ => ⟨_, .release ptableLock _ calm, ?_⟩
  have kept : Fits task ⟨(insert ptableLock g.locks).erase ptableLock, .out, g.frame⟩ :=
    fits_locks fits unlocked (fun none => by rw [none]; rfl)
  rwa [← calm] at kept

theorem follow_handler {i : Nat} {th : KThread} {task : KTask} {g : Ghost} (lk : Nat) (chan : Chan) (fits : Fits task g)
    (unlocked : task ≠ .waiting) : Follow i th Fits (handler th lk chan >>= fun _ => .ret task) g := by
  have calm := fits_calm fits
  refine fun _ => ⟨_, .acquire lk g calm, ?_⟩
  refine fun _ => ⟨_, .acquire ptableLock _ calm, ?_⟩
  refine fun _ => ⟨_, .wakeup1 chan _ calm, ?_⟩
  refine fun _ => ⟨_, .release ptableLock _ calm, ?_⟩
  refine fun _ => ⟨_, .release lk _ calm, ?_⟩
  have kept : Fits task ⟨((insert ptableLock (insert lk g.locks)).erase ptableLock).erase lk, .out, g.frame⟩ := by
    refine fits_locks fits unlocked fun none => ?_
    rw [none, Finset.eq_empty_iff_forall_notMem]
    intro l member
    simp only [Finset.mem_erase, Finset.mem_insert, Finset.notMem_empty, or_false] at member
    obtain ⟨notLk, notPtable, either⟩ := member
    rcases either with ptable | same
    · exact notPtable ptable
    · exact notLk same
  rwa [← calm] at kept

theorem follow_asleep {i : Nat} {th : KThread} {α : Type} {final : α → Ghost → Prop} {rest : SmpM α} {g : Ghost}
    (leaving : g.stage = .leaving) (after : Follow i th final rest ⟨{ptableLock}, .out, g.frame⟩) :
    Follow i th final (.op (.sched th) fun _ => .op (.clearChan th) fun _ => rest) g := by
  refine fun _ => ⟨_, .sched g leaving, ?_⟩
  exact fun _ => ⟨_, .clearChan _ rfl, after⟩

theorem follow_sleep {i : Nat} {th : KThread} (a lk : Nat) {g : Ghost} (fits : Fits .out g) :
    Follow i th Fits (sleepCall th (.addr a) lk) g := by
  obtain ⟨calm, free⟩ := fits
  by_cases same : lk = ptableLock
  · subst same
    refine fun _ => ⟨_, .enterSleep (.addr a) ptableLock g calm free, ?_⟩
    refine fun _ => ⟨_, .sleepOn (.addr a) ptableLock g.locks _ rfl rfl ⟨a, rfl⟩, ?_⟩
    refine follow_asleep rfl ?_
    exact fun _ => ⟨_, .leaveSleep (.addr a) ptableLock g.locks _ rfl rfl rfl, rfl, rfl⟩
  · simp only [sleepCall, sleep, swapLocks, if_neg same]
    refine fun _ => ⟨_, .enterSleep (.addr a) lk g calm free, ?_⟩
    refine fun _ => ⟨_, .swapIn _ (if_neg same), ?_⟩
    refine fun _ => ⟨_, .swapOut (.addr a) lk g.locks _ rfl rfl same, ?_⟩
    refine fun _ => ⟨_, .sleepOn (.addr a) lk g.locks _ rfl rfl ⟨a, rfl⟩, ?_⟩
    refine follow_asleep rfl ?_
    refine fun _ => ⟨_, .release ptableLock _ rfl, ?_⟩
    exact ⟨rfl, by simp, .addr a, g.locks, rfl⟩

theorem follow_wait_round {p : Nat} {g : Ghost} (fits : Fits .waiting g) : Follow p (.proc p) Fits (waitRound p) g := by
  obtain ⟨calm, free, locked⟩ := fits
  intro r
  cases r with
  | sleeps =>
    refine ⟨_, .waitSleeps g calm locked, ?_⟩
    refine fun _ => ⟨_, .enterWait _ rfl free, ?_⟩
    refine fun _ => ⟨_, .sleepInWait g.locks _ rfl rfl, ?_⟩
    refine follow_asleep rfl ?_
    exact fun _ => ⟨_, .leaveSleep (.proc p) ptableLock g.locks _ rfl rfl rfl, rfl, rfl, Finset.mem_singleton_self _⟩
  | reaped pid =>
    refine ⟨_, .waitReaped pid g calm locked, ?_⟩
    exact fun _ => ⟨_, .release ptableLock g calm, calm, free⟩
  | failed =>
    refine ⟨_, .waitFailed g calm locked, ?_⟩
    exact fun _ => ⟨_, .release ptableLock g calm, calm, free⟩

theorem follow_scheduler_slots (c : Nat) {α : Type} {final : α → Ghost → Prop} {rest : SmpM α} {g : Ghost}
    (calm : g.stage = .out) (locked : g.locks = {ptableLock}) (after : Follow (nproc + c) (.scheduler c) final rest g)
    (first count : Nat) (slots : first + count ≤ nproc) :
    Follow (nproc + c) (.scheduler c) final (Prog.loop (schedulerSlot c) first count >>= fun _ => rest) g := by
  induction count generalizing first with
  | zero => exact after
  | succ count ih =>
    have later := ih (first + 1) (by omega)
    intro chosen
    cases chosen with
    | false => exact ⟨g, .passOver first g calm, later⟩
    | true =>
      refine ⟨_, .dispatch c first g calm locked rfl (by omega), ?_⟩
      refine fun _ => ⟨_, .leaveProc first _ rfl (by omega), ?_⟩
      rw [← calm]
      exact later

theorem calls_follow {ncpu i : Nat} {task : KTask} {prog : SmpM KTask} {g : Ghost} (fits : Fits task g)
    (allowed : SmpCalls ncpu i task prog) : Follow i (threadOf i) Fits prog g := by
  have calm := fits_calm fits
  have insert_self : ptableLock ∈ insert ptableLock g.locks := Finset.mem_insert_self _ _
  cases allowed with
  | acquire p l slot =>
    rw [thread_of_proc slot]
    exact fun _ => ⟨_, .acquire l g calm, fits⟩
  | release p l slot =>
    rw [thread_of_proc slot]
    exact fun _ => ⟨_, .release l g calm, fits⟩
  | yield p task slot unlocked =>
    rw [thread_of_proc slot]
    exact follow_yield fits unlocked
  | wakeup p task chan slot unlocked =>
    rw [thread_of_proc slot]
    exact follow_wakeup chan fits unlocked
  | handler p task lk chan slot unlocked =>
    rw [thread_of_proc slot]
    exact follow_handler lk chan fits unlocked
  | wakeup1 p chan slot =>
    rw [thread_of_proc slot]
    exact fun _ => ⟨_, .wakeup1 chan g calm, fits⟩
  | sleep p a lk slot =>
    rw [thread_of_proc slot]
    exact follow_sleep a lk fits
  | relock p lk slot =>
    rw [thread_of_proc slot]
    obtain ⟨-, none, chan, entered, inside⟩ := fits
    refine fun _ => ⟨_, .acquire lk g calm, ?_⟩
    refine fun _ => ⟨_, .leaveSleep chan lk entered _ calm inside ?_, calm, rfl⟩
    rw [none]
    rfl
  | kill p pid slot =>
    rw [thread_of_proc slot]
    refine fun _ => ⟨_, .acquire ptableLock g calm, ?_⟩
    refine fun found => ⟨_, .kill pid found _ calm insert_self, ?_⟩
    exact fun _ => ⟨_, .release ptableLock _ calm, fits⟩
  | trap p slot =>
    rw [thread_of_proc slot]
    exact fun _ => ⟨_, .trap g calm, fits⟩
  | fork p slot =>
    rw [thread_of_proc slot]
    refine fun _ => ⟨_, .acquire ptableLock g calm, fun np => ?_⟩
    cases np with
    | none =>
      refine ⟨_, .allocFailed _ calm, ?_⟩
      exact fun _ => ⟨_, .release ptableLock _ calm, fits⟩
    | some np =>
      refine ⟨_, .allocproc np _ calm fits.2 insert_self slot, ?_⟩
      exact fun _ => ⟨_, .release ptableLock _ calm, calm, rfl⟩
  | forkFails p np slot =>
    rw [thread_of_proc slot]
    exact fun _ => ⟨_, .abandon np g calm fits.2, calm, rfl⟩
  | forkAdopts p np slot =>
    rw [thread_of_proc slot]
    exact fun _ => ⟨_, .adopt np g calm fits.2, calm, rfl⟩
  | forkReady p np slot =>
    rw [thread_of_proc slot]
    refine fun _ => ⟨_, .acquire ptableLock g calm, ?_⟩
    refine fun _ => ⟨_, .ready np _ calm fits.2 insert_self, ?_⟩
    exact fun _ => ⟨_, .release ptableLock _ calm, calm, rfl⟩
  | exit p slot =>
    rw [thread_of_proc slot]
    refine fun _ => ⟨_, .acquire ptableLock g calm, ?_⟩
    refine fun _ => ⟨_, .exit _ calm fits.2 insert_self, ?_⟩
    refine fun _ => ⟨_, .sched _ rfl, ?_⟩
    exact fun _ => ⟨_, .release ptableLock _ rfl, rfl, fits.2⟩
  | wait p slot =>
    rw [thread_of_proc slot]
    refine fun _ => ⟨_, .acquire ptableLock g calm, ?_⟩
    exact follow_wait_round ⟨calm, fits.2, insert_self⟩
  | waitRound p slot =>
    rw [thread_of_proc slot]
    exact follow_wait_round fits
  | scheduler c exists_ =>
    rw [thread_of_scheduler c]
    obtain ⟨-, free, none⟩ := fits
    have locked : insert ptableLock g.locks = {ptableLock} := by
      rw [none]
      rfl
    simp only [scheduler, acquire, Prog.lift_bind, Prog.op_bind, Prog.bind_assoc]
    refine fun _ => ⟨_, .acquire ptableLock g calm, ?_⟩
    rw [locked]
    refine follow_scheduler_slots (g := ⟨{ptableLock}, g.stage, g.frame⟩) c calm rfl ?_ 0 nproc (by omega)
    exact fun _ => ⟨_, .release ptableLock _ calm, calm, free, by simp⟩
  | interrupt c lk chan exists_ =>
    rw [thread_of_scheduler c]
    exact follow_handler lk chan fits (by simp)

end Xv6.Smp
