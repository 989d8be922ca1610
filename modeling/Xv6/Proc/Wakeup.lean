import Xv6.Proc.OneCpu

set_option autoImplicit false

namespace Xv6.Smp

def HoldsLock (ncpu : Nat) (s : Smp) (i l : Nat) : Prop :=
  ∃ c < ncpu, (s.cpu c).stack = threadOf i ∧ s.lock l = some c

-- The arguments, the state at the call, whether the process is marked asleep, the steps since.
structure SleepCall where
  chan : Chan
  lk : Nat
  entered : Smp
  asleep : Bool
  since : List (Event SmpOp Smp)

def SleepCall.later (call : SleepCall) (e : Event SmpOp Smp) : SleepCall := { call with since := call.since ++ [e] }

def ownStep {β : Type} (e : Event SmpOp Smp) (before : Option SleepCall) : SmpOp β → Option SleepCall
  | .enterSleep _ chan lk => some ⟨chan, lk, e.pre, false, []⟩
  | .leaveSleep _ _ => none
  | .sleepOn _ _ => before.map fun call => { call.later e with asleep := true }
  | _ => before.map fun call => call.later e

def calling (p : Nat) (trace : List (Event SmpOp Smp)) : Option SleepCall :=
  trace.foldl (fun before e => if e.pid = p then ownStep e before e.act else before.map fun call => call.later e) none

-- Those of wakeup, and exit's for the parent and, if it passes on an exited child, for init.
def wakes {β : Type} (i : Nat) (t : Ptable) (chan : Chan) : SmpOp β → Prop
  | .wakeup1 _ c => c = chan
  | .exit _ => (t.proc i).parent.map Chan.proc = some chan ∨
      (chan = .proc t.initproc ∧ ∃ z < nproc, (t.proc z).parent = some i ∧ (t.proc z).state = .zombie)
  | _ => False

def leavesSleep {β : Type} : SmpOp β → Bool
  | .leaveSleep _ _ => true
  | _ => false

-- The locks are those of the call until ptable.lock is taken; back from sched, lk was all.
structure SleepLocks (g : Ghost) (lk : Nat) (entered : Finset Nat) : Prop where
  member : lk ∈ entered
  entering : g.stage = .entering → g.locks = entered
  inside : g.stage = .swapping ∨ g.stage = .checked ∨ g.stage = .leaving →
    entered.erase lk ⊆ g.locks ∧ (ptableLock ∈ entered → lk = ptableLock)
  parked : g.stage.Parked → entered = {lk}

def AllSleepLocks (g : Nat → Ghost) : Prop :=
  ∀ i chan lk entered, (g i).frame = .sleep chan lk entered → SleepLocks (g i) lk entered

variable {ncpu : Nat} {β : Type} {s s' : Smp} {r : β} {g : Nat → Ghost} {i : Nat} {own : Ghost}

theorem sleep_locks_out {before : Ghost} {lk : Nat} {entered : Finset Nat} (held : SleepLocks before lk entered)
    (parked : before.stage.Parked) (stage : own.stage ≠ .entering) : SleepLocks own lk entered := by
  have only := held.parked parked
  refine ⟨held.member, fun entering => absurd entering stage, fun _ => ?_, fun _ => only⟩
  rw [only, Finset.erase_singleton]
  exact ⟨Finset.empty_subset _, fun ptable => (Finset.mem_singleton.mp ptable).symm⟩

theorem sleep_locks_back {before : Ghost} {lk : Nat} {entered : Finset Nat} (held : SleepLocks before lk entered)
    (leaving : before.stage = .leaving) (only : before.locks = {ptableLock}) (stage : own.stage = .out) :
    SleepLocks own lk entered := by
  obtain ⟨rest, ptable⟩ := held.inside (.inr (.inr leaving))
  have single : entered = {lk} := by
    refine Finset.eq_singleton_iff_unique_mem.mpr ⟨held.member, fun l member => ?_⟩
    by_contra other
    have among := rest (Finset.mem_erase.mpr ⟨other, member⟩)
    rw [only, Finset.mem_singleton] at among
    rw [among] at member other
    exact other (ptable member).symm
  refine ⟨held.member, fun entering => ?_, fun inside => ?_, fun _ => single⟩
  · rw [stage] at entering
    cases entering
  · rcases inside with impossible | impossible | impossible <;> rw [stage] at impossible <;> cases impossible

theorem parked_of_out {g : Ghost} (calm : g.stage = .out) : g.stage.Parked := .inl calm

theorem holds_iff (core : Core ncpu s g) {c : Nat} (inside : c < ncpu) (stack : (s.cpu c).stack = threadOf i) (l : Nat) :
    HoldsLock ncpu s i l ↔ l ∈ (g i).locks := by
  constructor
  · rintro ⟨d, inside', stack', held⟩
    exact (core.lockset d inside' i stack' l).mp held
  · intro member
    exact ⟨c, inside, stack, (core.lockset c inside i stack l).mpr member⟩

theorem sleep_locks_moves (core : Core ncpu s g) (frames : Frames s.table g) {act : SmpOp β} (held : AllSleepLocks g)
    (executed : SmpOp.exec ncpu act s = .ok r s') (moved : Moves i (threadOf i) act r (g i) own) :
    AllSleepLocks (upd g i own) := by
  intro j chan lk entered inSleep
  by_cases here : j = i
  · subst here
    rw [upd_self] at inSleep ⊢
    cases moved with
    | acquire l _ calm => exact sleep_locks_out (held j chan lk entered inSleep) (parked_of_out calm) (by simp [calm])
    | swapIn _ entering =>
      obtain ⟨c, inside, stack, free, -⟩ := acquire_ok executed
      have old := held j chan lk entered inSleep
      have same := old.entering entering
      have fresh : ptableLock ∉ entered := by
        intro member
        rw [← same, ← holds_iff core inside stack] at member
        obtain ⟨d, -, -, taken⟩ := member
        rw [free] at taken
        cases taken
      refine ⟨old.member, by simp, fun _ => ⟨?_, fun member => absurd member fresh⟩, fun parked => ?_⟩
      · rw [← same]
        exact (Finset.erase_subset lk _).trans (Finset.subset_insert _ _)
      · rcases parked with out | away
        · cases out
        · exact absurd rfl away
    | release l _ calm => exact sleep_locks_out (held j chan lk entered inSleep) (parked_of_out calm) (by simp [calm])
    | swapOut chan' lk' entered' _ swapping inside' =>
      rw [inside'] at inSleep
      cases inSleep
      have old := held j chan lk entered inside'
      obtain ⟨rest, ptable⟩ := old.inside (.inl swapping)
      refine ⟨old.member, by simp [swapping], fun _ => ⟨?_, ptable⟩, by simp [swapping, Stage.Parked, Stage.dispatched]⟩
      intro l member
      exact Finset.mem_erase.mpr ⟨Finset.ne_of_mem_erase member, rest member⟩
    | sched _ leaving =>
      obtain ⟨c, p, inside, stack, -, -, only, -⟩ := sched_ok executed
      exact sleep_locks_back (held j chan lk entered inSleep) leaving (leaving_locks core inside stack leaving only) rfl
    | setRunnable _ calm => exact sleep_locks_out (held j chan lk entered inSleep) (parked_of_out calm) (by simp)
    | enterSleep chan' lk' _ calm =>
      cases inSleep
      obtain ⟨c, p, inside, stack, -, rest⟩ := current_ok executed
      have member := (core.lockset c inside j stack lk).mp (holding_ok rest).1
      refine ⟨member, fun _ => rfl, fun promised => ⟨Finset.erase_subset _ _, fun _ => ?_⟩, fun parked => ?_⟩
      · by_contra other
        simp [other] at promised
      · by_cases same : lk = ptableLock <;> simp [same, Stage.Parked, Stage.dispatched] at parked
    | enterWait _ checked =>
      cases inSleep
      refine ⟨frames.locked j (.inl checked), by simp [checked], fun _ => ⟨Finset.erase_subset _ _, fun _ => rfl⟩, ?_⟩
      simp [checked, Stage.Parked, Stage.dispatched]
    | sleepOn chan' lk' entered' _ swapping =>
      have old := held j chan lk entered inSleep
      exact ⟨old.member, by simp, fun _ => old.inside (.inl swapping), by simp [Stage.Parked, Stage.dispatched]⟩
    | sleepInWait entered' _ checked =>
      have old := held j chan lk entered inSleep
      exact ⟨old.member, by simp, fun _ => old.inside (.inr (.inl checked)), by simp [Stage.Parked, Stage.dispatched]⟩
    | waitSleeps _ calm => exact sleep_locks_out (held j chan lk entered inSleep) (parked_of_out calm) (by simp)
    | dispatch c q _ calm => exact sleep_locks_out (held j chan lk entered inSleep) (parked_of_out calm) (by simp)
    | leaveProc q _ away =>
      exact sleep_locks_out (held j chan lk entered inSleep) (.inr (by simp [away, Stage.dispatched])) (by simp)
    | exit _ calm => exact sleep_locks_out (held j chan lk entered inSleep) (parked_of_out calm) (by simp)
    | leaveSleep | abandon | adopt | allocproc | ready => cases inSleep
    | clearChan | wakeup1 | allocFailed | waitReaped | waitFailed | kill | trap | passOver =>
      exact held j chan lk entered inSleep
  · rw [upd_ne here] at inSleep ⊢
    exact held j chan lk entered inSleep

variable {cond : Event SmpOp Smp → Prop} {trace : List (Event SmpOp Smp)}

theorem history_sleep_locks (history : History ncpu cond trace s g) : AllSleepLocks g := by
  induction history with
  | boot => exact fun _ _ _ _ inSleep => by cases inSleep
  | step before executed met moved ih =>
    exact sleep_locks_moves (history_inv before).1 (history_inv before).2 ih executed moved

structure InSleep (ncpu p : Nat) (g : Ghost) (call : SleepCall) : Prop where
  frame : ∃ entered, g.frame = .sleep call.chan call.lk entered ∧ ∀ l, HoldsLock ncpu call.entered p l ↔ l ∈ entered
  awake : call.asleep = false → g.stage = .entering ∨ g.stage = .swapping ∨ g.stage = .checked
  since : g.stage = .entering → ∀ e ∈ call.since, HoldsLock ncpu e.post p call.lk

theorem in_sleep_later {p : Nat} {before : Ghost} {call : SleepCall} (old : InSleep ncpu p before call)
    (e : Event SmpOp Smp) (frame : own.frame = before.frame) (stage : own.stage ≠ .entering)
    (awake : call.asleep = false → own.stage = .swapping) : InSleep ncpu p own (call.later e) := by
  refine ⟨?_, fun still => .inr (.inl (awake still)), fun entering => absurd entering stage⟩
  rw [frame]
  exact old.frame

theorem calling_snoc (p : Nat) (trace : List (Event SmpOp Smp)) (e : Event SmpOp Smp) :
    calling p (trace ++ [e]) = if e.pid = p then ownStep e (calling p trace) e.act
      else (calling p trace).map fun call => call.later e := by
  rw [calling, List.foldl_append]
  rfl

theorem holds_own (core : Core ncpu s g) {p l : Nat} (process : p < nproc) (present : ¬ (g p).stage.Parked)
    (member : l ∈ (g p).locks) : HoldsLock ncpu s p l := by
  by_contra missing
  refine present (core.off p (by omega) fun c inside stack => missing ?_).2
  exact ⟨c, inside, stack, (core.lockset c inside p stack l).mpr member⟩

theorem in_sleep_enter (core : Core ncpu s g) {p lk : Nat} {chan : Chan} (locked : HoldsLock ncpu s p lk)
    (frame : own.frame = .sleep chan lk (g p).locks)
    (stage : own.stage = .entering ∨ own.stage = .swapping ∨ own.stage = .checked) :
    InSleep ncpu p own ⟨chan, lk, s, false, []⟩ := by
  obtain ⟨c, inside, stack, -⟩ := locked
  exact ⟨⟨(g p).locks, frame, holds_iff core inside stack⟩, fun _ => stage, by simp⟩

theorem in_sleep_other (core : Core ncpu s' g) (locks : AllSleepLocks g) {p : Nat} (process : p < nproc) {call : SleepCall}
    (old : InSleep ncpu p (g p) call) (e : Event SmpOp Smp) (post : e.post = s') : InSleep ncpu p (g p) (call.later e) := by
  refine ⟨old.frame, old.awake, fun entering e' member => ?_⟩
  rcases List.mem_append.mp member with earlier | last
  · exact old.since entering e' earlier
  · obtain ⟨entered, frame, -⟩ := old.frame
    have held := locks p call.chan call.lk entered frame
    rw [List.mem_singleton.mp last, post]
    refine holds_own core process (by simp [entering, Stage.Parked, Stage.dispatched]) ?_
    rw [held.entering entering]
    exact held.member

theorem in_sleep_own (core : Core ncpu s g) {p : Nat} {act : SmpOp β}
    (executed : act.exec ncpu s = .ok r s') (moved : Moves p (threadOf p) act r (g p) own) {before : Option SleepCall}
    (old : ∀ call, before = some call → InSleep ncpu p (g p) call) {call : SleepCall}
    (now : ownStep ⟨p, act, r, s, s'⟩ before act = some call) : InSleep ncpu p own call := by
  have later : own.frame = (g p).frame → own.stage ≠ .entering →
      ((g p).stage = .entering ∨ (g p).stage = .swapping ∨ (g p).stage = .checked → own.stage = .swapping) →
      before.map (fun call => call.later ⟨p, act, r, s, s'⟩) = some call → InSleep ncpu p own call := by
    intro frame stage awake same
    obtain ⟨call', found, rfl⟩ := Option.map_eq_some_iff.mp same
    exact in_sleep_later (old call' found) _ frame stage fun still => awake ((old call' found).awake still)
  have notInFork : ∀ np, (g p).frame.child = some np → ∀ call', before ≠ some call' := by
    intro np child call' found
    obtain ⟨entered, frame, -⟩ := (old call' found).frame
    rw [frame] at child
    cases child
  cases moved with
  | enterSleep chan lk _ calm =>
    cases now
    obtain ⟨c, q, inside, stack, -, rest⟩ := current_ok executed
    refine in_sleep_enter core ⟨c, inside, stack, (holding_ok rest).1⟩ rfl ?_
    by_cases ptable : lk = ptableLock <;> simp [ptable]
  | enterWait _ checked =>
    cases now
    obtain ⟨c, q, inside, stack, -, rest⟩ := current_ok executed
    exact in_sleep_enter core ⟨c, inside, stack, (holding_ok rest).1⟩ rfl (.inr (.inr checked))
  | leaveSleep => cases now
  | sleepOn =>
    obtain ⟨call', found, rfl⟩ := Option.map_eq_some_iff.mp now
    exact ⟨(old call' found).frame, by simp, by simp⟩
  | sleepInWait =>
    obtain ⟨call', found, rfl⟩ := Option.map_eq_some_iff.mp now
    exact ⟨(old call' found).frame, by simp, by simp⟩
  | swapIn => exact later rfl (by simp) (fun _ => rfl) now
  | swapOut chan lk entered _ swapping => exact later rfl (by simp [swapping]) (fun _ => swapping) now
  | sched _ leaving => exact later rfl (by simp) (by simp [leaving]) now
  | leaveProc q _ away => exact later rfl (by simp) (by simp [away]) now
  | setRunnable _ calm | exit _ calm | waitSleeps _ calm | dispatch _ _ _ calm => exact later rfl (by simp) (by simp [calm]) now
  | allocproc np _ calm free =>
    obtain ⟨call', found, rfl⟩ := Option.map_eq_some_iff.mp now
    obtain ⟨entered, frame, -⟩ := (old call' found).frame
    rw [free] at frame
    cases frame
  | abandon np _ calm inFork | adopt np _ calm inFork | ready np _ calm inFork =>
    obtain ⟨call', found, rfl⟩ := Option.map_eq_some_iff.mp now
    exact absurd found (notInFork np (by rw [inFork]; rfl) call')
  | acquire _ _ calm | release _ _ calm | clearChan _ calm | wakeup1 _ _ calm | allocFailed _ calm | waitReaped _ _ calm
  | waitFailed _ calm | kill _ _ _ calm | trap _ calm | passOver _ _ calm =>
    exact later rfl (by simp [calm]) (by simp [calm]) now

theorem history_sleep (history : History ncpu cond trace s g) {p : Nat} (process : p < nproc) :
    ∀ call, calling p trace = some call → InSleep ncpu p (g p) call := by
  induction history with
  | boot => exact nofun
  | @step β trace s s' g i act r own before executed met moved ih =>
    intro call now
    rw [calling_snoc] at now
    by_cases here : i = p
    · subst here
      rw [if_pos rfl] at now
      rw [upd_self]
      exact in_sleep_own (history_inv before).1 executed moved ih now
    · rw [if_neg here] at now
      obtain ⟨call', found, rfl⟩ := Option.map_eq_some_iff.mp now
      have after := History.step before executed met moved
      have old := ih call' found
      rw [← (upd_ne (Ne.symm here) : upd g i own p = g p)] at old
      exact in_sleep_other (history_inv after).1 (history_sleep_locks after) process old _ rfl

theorem history_last {w : Event SmpOp Smp} (history : History ncpu cond (trace ++ [w]) s g) :
    ∃ g' own, History ncpu cond trace w.pre g' ∧ w.act.exec ncpu w.pre = .ok w.res w.post ∧
      Moves w.pid (threadOf w.pid) w.act w.res (g' w.pid) own := by
  generalize whole : trace ++ [w] = events at history
  cases history with
  | boot => simp at whole
  | @step β trace' s₀ s₁ g' i act r own before executed met moved =>
    obtain ⟨same, last⟩ := List.append_inj' whole rfl
    rw [List.singleton_inj] at last
    subst same
    subst last
    exact ⟨g', own, before, executed, moved⟩

theorem wakes_moves (core : Core ncpu s g) {act : SmpOp β} (executed : act.exec ncpu s = .ok r s')
    (moved : Moves i (threadOf i) act r (g i) own) {chan : Chan} (woke : wakes i s.table chan act) :
    (g i).stage = .out ∧ HoldsLock ncpu s i ptableLock ∧
      ∀ p < nproc, ¬ ((s'.table.proc p).state = .sleeping ∧ (s'.table.proc p).chan = some chan) := by
  cases moved with
  | wakeup1 chan' _ calm =>
    cases woke
    obtain ⟨c, inside, stack, rest⟩ := on_cpu_ok executed
    obtain ⟨held, same⟩ := holding_ok rest
    cases same
    refine ⟨calm, ⟨c, inside, stack, held⟩, fun p slot still => ?_⟩
    have kept := woken_asleep (s.table.wakeup1_woken (some chan) p) still.1
    refine s.table.wakeup1_awake (some chan) slot still.1 ?_
    rw [← kept]
    exact still.2
  | exit _ calm free locked =>
    obtain ⟨c, q, inside, stack, current, -, rfl⟩ := exit_ok executed
    obtain ⟨rfl, process⟩ := current_is_self core inside stack (calm_of_out calm).1 current
    refine ⟨calm, ⟨c, inside, stack, (core.lockset c inside i stack _).mpr locked⟩, fun p slot still => ?_⟩
    rw [setTable, s.table.exit_eq] at still
    have other : p ≠ i := by
      rintro rfl
      rw [Ptable.setState, Ptable.set_self] at still
      cases still.1
    rw [Ptable.setState, Ptable.set_ne _ _ other] at still
    rcases woke with parent | ⟨rfl, z, child, parent, zombie⟩
    · obtain ⟨w, parent', rfl⟩ := Option.map_eq_some_iff.mp parent
      exact s.table.exit_loop_parent_awake i w slot parent' still.1 still.2
    · exact s.table.exit_loop_init_awake i child slot parent zombie still.1 still.2
  | _ => exact woke.elim

theorem holds_unique {j l : Nat} (mine : HoldsLock ncpu s i l) (theirs : HoldsLock ncpu s j l) : i = j := by
  obtain ⟨c, -, stack, held⟩ := mine
  obtain ⟨d, -, stack', held'⟩ := theirs
  rw [held] at held'
  cases held'
  exact thread_of_injective (stack.symm.trans stack')

theorem asleep_of_woken (core : Core ncpu s g) (frames : Frames s.table g) {p : Nat} (process : p < nproc) {call : SleepCall}
    (inSleep : InSleep ncpu p (g p) call) (calm : (g i).stage = .out) (locked : HoldsLock ncpu s i ptableLock)
    (acquired : ∃ e ∈ call.since, HoldsLock ncpu e.post i call.lk) : call.asleep = true := by
  by_contra awake
  have stage := inSleep.awake (by simpa using awake)
  have other : p ≠ i := by
    rintro rfl
    simp [calm] at stage
  rcases stage with entering | inside
  · obtain ⟨e, member, theirs⟩ := acquired
    exact other (holds_unique (inSleep.since entering e member) theirs)
  · have present : ¬ (g p).stage.Parked := by
      rcases inside with stage | stage <;> simp [stage, Stage.Parked, Stage.dispatched]
    exact other (holds_unique (holds_own core process present (frames.locked p inside.symm)) locked)

theorem leave_locks (core : Core ncpu s g) {act : SmpOp β} (executed : act.exec ncpu s = .ok r s')
    (moved : Moves i (threadOf i) act r (g i) own) (left : leavesSleep act = true) {chan : Chan} {lk : Nat} {entered : Finset Nat}
    (frame : (g i).frame = .sleep chan lk entered) (locks : SleepLocks (g i) lk entered) (l : Nat) :
    HoldsLock ncpu s i l ↔ l ∈ entered := by
  cases moved with
  | leaveSleep chan' lk' entered' _ calm inside held =>
    rw [inside] at frame
    cases frame
    obtain ⟨c, present, stack, -⟩ := on_cpu_ok executed
    rw [holds_iff core present stack, held, locks.parked (parked_of_out calm)]
  | _ => cases left

-- A wakeup by a thread that held lk since the call of sleep(chan, lk) finds the process asleep.
theorem no_lost_wakeup (ncpu : Nat) {trace : List (Event SmpOp Smp)} {w : Event SmpOp Smp} {config : Config SmpOp Smp KTask}
    (reached : SmpReach ncpu (fun _ => True) (trace ++ [w]) config) {p : Nat} (process : p < nproc) {call : SleepCall}
    (sleeping : calling p trace = some call) :
    HoldsLock ncpu call.entered p call.lk ∧
    (wakes w.pid w.pre.table call.chan w.act → (∃ e ∈ call.since, HoldsLock ncpu e.post w.pid call.lk) →
      call.asleep = true ∧ ¬ ((w.post.table.proc p).state = .sleeping ∧ (w.post.table.proc p).chan = some call.chan)) ∧
    (w.pid = p → leavesSleep w.act = true → ∀ l, HoldsLock ncpu w.pre p l ↔ HoldsLock ncpu call.entered p l) := by
  obtain ⟨g, history⟩ := smp_history reached
  obtain ⟨g', own, before, executed, moved⟩ := history_last history
  obtain ⟨core, frames⟩ := history_inv before
  have inSleep := history_sleep before process call sleeping
  obtain ⟨entered, frame, same⟩ := inSleep.frame
  have locks := history_sleep_locks before p call.chan call.lk entered frame
  refine ⟨(same call.lk).mpr locks.member, fun woke acquired => ?_, ?_⟩
  · obtain ⟨calm, locked, awake⟩ := wakes_moves core executed moved woke
    exact ⟨asleep_of_woken core frames process inSleep calm locked acquired, awake p process⟩
  · rintro rfl left l
    rw [same l]
    exact leave_locks core executed moved left frame locks l

-- Init sleeps on address 7 with lock 1; an interrupt on CPU 1 takes lock 1 and then ptable.lock.
def sleepRun : List (Turn SmpOp KTask) :=
  [.call (nproc + 0) .idle (scheduler 0 >>= fun _ => .ret .idle), .step nproc, .step nproc, .step 0,
    .call 0 .out (acquire (.proc 0) 1 >>= fun _ => .ret .out), .step 0,
    .call 0 .out (sleepCall (.proc 0) (.addr 7) 1), .step 0, .step 0, .step 0, .step 0, .step 0]

def interruptRun : List (Turn SmpOp KTask) :=
  [.call (nproc + 1) .idle (handler (.scheduler 1) 1 (.addr 7) >>= fun _ => .ret .idle), .step (nproc + 1), .step (nproc + 1)]

def wakeRun : List (Turn SmpOp KTask) := sleepRun ++ (List.replicate 65 (.step nproc) ++ interruptRun)

theorem wake_run_allowed : ∀ turn ∈ wakeRun, turn.Allowed (SmpCalls 2) := by
  refine List.forall_mem_append.mpr ⟨?_, List.forall_mem_append.mpr ⟨fun turn member => ?_, ?_⟩⟩
  · simp only [sleepRun, List.forall_mem_cons, List.not_mem_nil, Turn.Allowed, true_and, false_implies, implies_true, and_true]
    exact ⟨.scheduler 0 (by decide), .acquire 0 1 (by decide), .sleep 0 7 1 (by decide)⟩
  · rw [List.eq_of_mem_replicate member]
    trivial
  · simp only [interruptRun, List.forall_mem_cons, List.not_mem_nil, Turn.Allowed, false_implies, implies_true, and_true]
    exact .interrupt 1 1 (.addr 7) (by decide)

def wakesUp {β : Type} (chan : Chan) : SmpOp β → Bool
  | .wakeup1 _ c => c = chan
  | _ => false

def wakesInit (trace : List (Event SmpOp Smp)) (w : Event SmpOp Smp) : Bool :=
  (calling 0 trace).any fun call => w.pid = nproc + 1 && wakesUp call.chan w.act &&
    call.since.any fun e => (e.post.cpu 1).stack = threadOf w.pid && e.post.lock call.lk = some 1

theorem no_lost_wakeup_for_init :
    ∃ trace w config call, SmpReach 2 (fun _ => True) (trace ++ [w]) config ∧ calling 0 trace = some call ∧
      wakes w.pid w.pre.table call.chan w.act ∧ (∃ e ∈ call.since, HoldsLock 2 e.post w.pid call.lk) ∧
      ¬ ((w.post.table.proc 0).state = .sleeping ∧ (w.post.table.proc 0).chan = some call.chan) := by
  have ran : (bootSmp.play (SmpOp.exec 2) wakeRun).any (fun r =>
      (r.2.advance (SmpOp.exec 2) (nproc + 1)).any fun next => wakesInit r.1 next.1) = true := by decide +kernel
  obtain ⟨⟨trace, config⟩, played, more⟩ := (Option.any_eq_true _ _).mp ran
  obtain ⟨⟨w, last⟩, advanced, good⟩ := (Option.any_eq_true _ _).mp more
  obtain ⟨call, sleeping, facts⟩ := (Option.any_eq_true _ _).mp good
  simp only [Bool.and_eq_true, List.any_eq_true, decide_eq_true_eq] at facts
  obtain ⟨⟨-, waking⟩, e, member, stack, held⟩ := facts
  have reached := advance_reach trivial (play_reach wakeRun (fun _ _ => trivial) wake_run_allowed .init played) advanced
  have woke : wakes w.pid w.pre.table call.chan w.act := by
    obtain ⟨pid, act, res, pre, post⟩ := w
    cases act with
    | wakeup1 th c =>
      have same : c = call.chan := of_decide_eq_true waking
      exact same
    | _ => cases waking
  have acquired : ∃ e ∈ call.since, HoldsLock 2 e.post w.pid call.lk := ⟨e, member, 1, by decide, stack, held⟩
  exact ⟨trace, w, last, call, reached, sleeping, woke, acquired,
    ((no_lost_wakeup 2 reached (by decide) sleeping).2.1 woke acquired).2⟩

end Xv6.Smp
