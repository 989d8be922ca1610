import Xv6.Proc.Exclusion

set_option autoImplicit false

namespace Xv6.Smp

variable {ncpu : Nat} {β : Type} {s s' : Smp} {r : β} {g : Nat → Ghost} {i c : Nat}

-- A fork's slot is its own until it is ready; a process about to sleep in wait has no exited child.
structure Frames (t : Ptable) (g : Nat → Ghost) : Prop where
  embryo : ∀ p np, (g p).frame.child = some np → np < nproc ∧ (t.proc np).state = .embryo
  adopted : ∀ p np, (g p).frame = .adopted np → (t.proc np).parent ≠ none
  single : ∀ p q np, (g p).frame.child = some np → (g q).frame.child = some np → p = q
  locked : ∀ p, (g p).stage = .checked ∨ (g p).stage = .swapping → ptableLock ∈ (g p).locks
  checked : ∀ p, (g p).stage = .checked → p < nproc ∧
    ∀ q < nproc, (t.proc q).parent = some p → (t.proc q).state ≠ .zombie

theorem woken_running {a b : Pcb} (woken : a.Woken b) : b.state = .running ↔ a.state = .running := by
  rcases woken with rfl | ⟨asleep, rfl⟩
  · exact Iff.rfl
  · simp [asleep]

theorem set_running (t : Ptable) {p : Nat} {pcb : Pcb} (same : pcb.state = .running ↔ (t.proc p).state = .running) (q : Nat) :
    ((t.set p pcb).proc q).state = .running ↔ (t.proc q).state = .running := by
  by_cases here : q = p
  · rw [here, Ptable.set_self]
    exact same
  · rw [Ptable.set_ne _ _ here]

theorem kill_running (t : Ptable) (pid : Int) (q : Nat) :
    ((t.kill pid).2.proc q).state = .running ↔ (t.proc q).state = .running := by
  rcases t.kill_cases pid with ⟨missed, -⟩ | ⟨k, -, -, -, b, woken, found⟩
  · rw [missed]
  · rw [found]
    have same := woken_running woken
    refine set_running t ?_ q
    exact same

theorem exit_running (t : Ptable) {p q : Nat} (other : q ≠ p) :
    ((t.exit p).proc q).state = .running ↔ (t.proc q).state = .running := by
  rw [t.exit_eq, Ptable.setState, Ptable.set_ne _ _ other, woken_running (t.exit_loop_proc p q)]
  split <;> rfl

theorem acquire_ok {th : KThread} {l : Nat} {u : Unit} (executed : SmpOp.exec ncpu (.acquire th l) s = .ok u s') :
    ∃ c, c < ncpu ∧ (s.cpu c).stack = th ∧ s.lock l = none ∧
      s' = { s.setCpu c { s.cpu c with ncli := (s.cpu c).ncli + 1 } with lock := upd s.lock l (some c) } := by
  obtain ⟨c, inside, stack, rest⟩ := on_cpu_ok executed
  split at rest
  · cases rest
  · split at rest
    · cases rest
    · next free =>
        cases rest
        exact ⟨c, inside, stack, not_not.mp free, rfl⟩

theorem release_ok {th : KThread} {l : Nat} {u : Unit} (executed : SmpOp.exec ncpu (.release th l) s = .ok u s') :
    ∃ c, c < ncpu ∧ (s.cpu c).stack = th ∧ s.lock l = some c ∧
      s' = { s.setCpu c { s.cpu c with ncli := (s.cpu c).ncli - 1 } with lock := upd s.lock l none } := by
  obtain ⟨c, inside, stack, rest⟩ := on_cpu_ok executed
  split at rest
  · cases rest
  · next held =>
      split at rest
      · cases rest
      · cases rest
        exact ⟨c, inside, stack, not_not.mp held, rfl⟩

theorem sched_ok {th : KThread} {u : Unit} (executed : SmpOp.exec ncpu (.sched th) s = .ok u s') :
    ∃ c p, c < ncpu ∧ (s.cpu c).stack = th ∧ (s.cpu c).proc = some p ∧ s.lock ptableLock = some c ∧
      (s.cpu c).ncli = 1 ∧ s' = s.setCpu c { s.cpu c with stack := .scheduler c } := by
  obtain ⟨c, p, inside, stack, current, rest⟩ := current_ok executed
  split at rest
  · cases rest
  · next held =>
      split at rest
      · cases rest
      · next depth =>
          split at rest
          · cases rest
          · cases rest
            exact ⟨c, p, inside, stack, current, not_not.mp held, not_not.mp depth, rfl⟩

theorem exit_ok {th : KThread} {u : Unit} (executed : SmpOp.exec ncpu (.exit th) s = .ok u s') :
    ∃ c p, c < ncpu ∧ (s.cpu c).stack = th ∧ (s.cpu c).proc = some p ∧ p ≠ s.table.initproc ∧
      s' = s.setTable (s.table.exit p) := by
  obtain ⟨c, p, inside, stack, current, rest⟩ := current_ok executed
  split at rest
  · cases rest
  · next other =>
      cases rest
      exact ⟨c, p, inside, stack, current, other, rfl⟩

theorem dispatch_ok {th : KThread} {q : Nat} {chosen : Bool} (executed : SmpOp.exec ncpu (.dispatch th q) s = .ok chosen s') :
    ∃ c, c < ncpu ∧ (s.cpu c).stack = th ∧
      ((chosen = false ∧ s' = s) ∨ (chosen = true ∧ (s.table.proc q).state = .runnable ∧
        s' = (s.setTable (s.table.setState q .running)).setCpu c
          { s.cpu c with proc := some q, pgdir := some q, stack := .proc q })) := by
  obtain ⟨c, inside, stack, rest⟩ := on_cpu_ok executed
  split at rest
  · cases rest
    exact ⟨c, inside, stack, .inl ⟨rfl, rfl⟩⟩
  · next runnable =>
      cases rest
      exact ⟨c, inside, stack, .inr ⟨rfl, not_not.mp runnable, rfl⟩⟩

theorem set_state_running (t : Ptable) {p : Nat} {state : ProcState} (idle : (t.proc p).state ≠ .running)
    (idle' : state ≠ .running) (q : Nat) :
    ((t.setState p state).proc q).state = .running ↔ (t.proc q).state = .running :=
  set_running t ⟨fun now => absurd now idle', fun now => absurd now idle⟩ q

theorem core_sleep (core : Core ncpu s g) (inside : c < ncpu) (stack : (s.cpu c).stack = threadOf i)
    (quiet : (g i).stage.Calm) (locked : ptableLock ∈ (g i).locks) {chan : Chan} :
    Core ncpu (s.setTable (s.table.set i { s.table.proc i with chan := some chan, state := .sleeping }))
      (upd g i { g i with stage := .leaving }) := by
  refine core_leave core inside stack quiet locked ?_ fun q other => ?_
  · simp
  · rw [Ptable.set_ne _ _ other]

def Steady (a b : Pcb) : Prop :=
  (a.state = .embryo → b.state = .embryo ∧ (a.parent ≠ none → b.parent ≠ none)) ∧
    (b.state = .zombie → a.state = .zombie ∧ b.parent = a.parent)

theorem steady_refl (a : Pcb) : Steady a a := ⟨fun embryo => ⟨embryo, id⟩, fun zombie => ⟨zombie, rfl⟩⟩

theorem steady_woken {a b : Pcb} (woken : a.Woken b) : Steady a b := by
  rcases woken with rfl | ⟨asleep, rfl⟩
  · exact steady_refl _
  · exact ⟨fun embryo => absurd (asleep.symm.trans embryo) (by simp), nofun⟩

theorem steady_set {t : Ptable} {p : Nat} {pcb : Pcb} (steady : Steady (t.proc p) pcb) (q : Nat) :
    Steady (t.proc q) ((t.set p pcb).proc q) := by
  by_cases here : q = p
  · rw [here, Ptable.set_self]
    exact steady
  · rw [Ptable.set_ne _ _ here]
    exact steady_refl _

theorem steady_kill (t : Ptable) (pid : Int) (q : Nat) : Steady (t.proc q) ((t.kill pid).2.proc q) := by
  rcases t.kill_cases pid with ⟨missed, -⟩ | ⟨k, -, -, -, b, woken, found⟩
  · rw [missed]
    exact steady_refl _
  · rw [found]
    have steady := steady_woken woken
    refine steady_set ?_ q
    exact steady

theorem frames_step {t t' : Ptable} (frames : Frames t g) {own : Ghost}
    (embryos : ∀ np, (t.proc np).state = .embryo → (g i).frame.child ≠ some np →
      (t'.proc np).state = .embryo ∧ ((t.proc np).parent ≠ none → (t'.proc np).parent ≠ none))
    (zombies : ∀ p, p ≠ i → (g p).stage = .checked → ∀ q < nproc, (t'.proc q).parent = some p →
      (t'.proc q).state = .zombie → (t.proc q).parent = some p ∧ (t.proc q).state = .zombie)
    (child : ∀ np, own.frame.child = some np → np < nproc ∧ (t'.proc np).state = .embryo ∧
      ∀ p, p ≠ i → (g p).frame.child ≠ some np)
    (parent : ∀ np, own.frame = .adopted np → (t'.proc np).parent ≠ none)
    (locked : own.stage = .checked ∨ own.stage = .swapping → ptableLock ∈ own.locks)
    (checked : own.stage = .checked → i < nproc ∧ ∀ q < nproc, (t'.proc q).parent = some i → (t'.proc q).state ≠ .zombie) :
    Frames t' (upd g i own) := by
  have other_child : ∀ p np, p ≠ i → (g p).frame.child = some np →
      (t'.proc np).state = .embryo ∧ ((t.proc np).parent ≠ none → (t'.proc np).parent ≠ none) := by
    intro p np other mine
    refine embryos np (frames.embryo p np mine).2 fun theirs => ?_
    exact other (frames.single p i np mine theirs)
  refine ⟨fun p np has => ?_, fun p np has => ?_, fun p q np first second => ?_, fun p stage => ?_, fun p stage => ?_⟩
  · by_cases here : p = i
    · rw [here, upd_self] at has
      exact ⟨(child np has).1, (child np has).2.1⟩
    · rw [upd_ne here] at has
      exact ⟨(frames.embryo p np has).1, (other_child p np here has).1⟩
  · by_cases here : p = i
    · rw [here, upd_self] at has
      exact parent np has
    · rw [upd_ne here] at has
      exact (other_child p np here (by rw [has]; rfl)).2 (frames.adopted p np has)
  · by_cases here : p = i
    · by_cases there : q = i
      · rw [here, there]
      · rw [here, upd_self] at first
        rw [upd_ne there] at second
        exact absurd second ((child np first).2.2 q there)
    · rw [upd_ne here] at first
      by_cases there : q = i
      · rw [there, upd_self] at second
        exact absurd first ((child np second).2.2 p here)
      · rw [upd_ne there] at second
        exact frames.single p q np first second
  · by_cases here : p = i
    · rw [here, upd_self] at stage ⊢
      exact locked stage
    · rw [upd_ne here] at stage ⊢
      exact frames.locked p stage
  · by_cases here : p = i
    · rw [here, upd_self] at stage
      rw [here]
      exact checked stage
    · rw [upd_ne here] at stage
      refine ⟨(frames.checked p stage).1, fun q slot parent zombie => ?_⟩
      obtain ⟨parent', zombie'⟩ := zombies p here stage q slot parent zombie
      exact (frames.checked p stage).2 q slot parent' zombie'

theorem frames_steady {t t' : Ptable} (frames : Frames t g) {own : Ghost} (steady : ∀ q, Steady (t.proc q) (t'.proc q))
    (same : own.frame = (g i).frame ∨ (own.frame.child = none ∧ (g i).frame.child = none))
    (locked : own.stage = .checked ∨ own.stage = .swapping → ptableLock ∈ own.locks)
    (checked : own.stage = .checked → i < nproc ∧ ∀ q < nproc, (t'.proc q).parent = some i → (t'.proc q).state ≠ .zombie) :
    Frames t' (upd g i own) := by
  have before : ∀ np, own.frame.child = some np → (g i).frame.child = some np := by
    intro np mine
    rcases same with equal | ⟨none, -⟩
    · rwa [← equal]
    · rw [none] at mine
      cases mine
  refine frames_step frames (fun np embryo _ => (steady np).1 embryo) ?_ ?_ ?_ locked checked
  · intro p _ _ q _ parent zombie
    obtain ⟨zombie', parent'⟩ := (steady q).2 zombie
    exact ⟨parent'.symm.trans parent, zombie'⟩
  · intro np mine
    obtain ⟨slot, embryo⟩ := frames.embryo i np (before np mine)
    exact ⟨slot, ((steady np).1 embryo).1, fun p other theirs => other (frames.single p i np theirs (before np mine))⟩
  · intro np mine
    have adopted : (g i).frame = .adopted np := by
      rcases same with equal | ⟨none, -⟩
      · rwa [← equal]
      · rw [mine] at none
        cases none
    obtain ⟨-, embryo⟩ := frames.embryo i np (by rw [adopted]; rfl)
    exact ((steady np).1 embryo).2 (frames.adopted i np adopted)

theorem none_checked (core : Core ncpu s g) (frames : Frames s.table g) (inside : c < ncpu)
    (stack : (s.cpu c).stack = threadOf i) (locked : ptableLock ∈ (g i).locks) {p : Nat} (other : p ≠ i) :
    (g p).stage ≠ .checked := by
  intro checked
  by_cases somewhere : ∃ d < ncpu, (s.cpu d).stack = threadOf p
  · obtain ⟨d, inside', stack'⟩ := somewhere
    exact other (holds_alone core inside stack inside' stack' locked (frames.locked p (.inl checked))).2
  · have slot := (frames.checked p checked).1
    have nowhere : ∀ d < ncpu, (s.cpu d).stack ≠ threadOf p := fun d inside' stack' => somewhere ⟨d, inside', stack'⟩
    have parked := (core.off p (by omega) nowhere).2
    rw [checked] at parked
    rcases parked with out | away
    · cases out
    · exact away rfl

theorem frames_plain {t t' : Ptable} (frames : Frames t g) {own : Ghost} (steady : ∀ q, Steady (t.proc q) (t'.proc q))
    (same : own.frame = (g i).frame ∨ (own.frame.child = none ∧ (g i).frame.child = none))
    (plain : own.stage ≠ .checked ∧ own.stage ≠ .swapping) : Frames t' (upd g i own) := by
  refine frames_steady frames steady same (fun promised => ?_) (fun checked => absurd checked plain.1)
  rcases promised with checked | swapping
  · exact absurd checked plain.1
  · exact absurd swapping plain.2

theorem plain_of_out {g : Ghost} (calm : g.stage = .out) : g.stage ≠ .checked ∧ g.stage ≠ .swapping := by
  rw [calm]
  exact ⟨by simp, by simp⟩

theorem steady_running {a b : Pcb} (running : a.state = .running) (after : b.state ≠ .zombie) : Steady a b :=
  ⟨fun embryo => absurd (running.symm.trans embryo) (by simp), fun zombie => absurd zombie after⟩

theorem frames_sleep (core : Core ncpu s g) (frames : Frames s.table g) (inside : c < ncpu)
    (stack : (s.cpu c).stack = threadOf i) (process : i < nproc) (quiet : (g i).stage.Calm) {chan : Chan} :
    Frames (s.table.set i { s.table.proc i with chan := some chan, state := .sleeping })
      (upd g i { g i with stage := .leaving }) :=
  frames_plain frames (steady_set (steady_running (still_running core inside stack quiet process) (by simp)))
    (.inl rfl) ⟨by simp, by simp⟩

theorem frames_release {t : Ptable} (frames : Frames t g) {np : Nat} {state : ProcState}
    (mine : (g i).frame.child = some np) (calm : (g i).stage = .out) (notZombie : state ≠ .zombie) :
    Frames (t.setState np state) (upd g i { g i with frame := .none }) := by
  refine frames_step frames ?_ ?_ nofun nofun (by simp [calm]) (by simp [calm])
  · intro q embryo notMine
    have other : q ≠ np := by
      intro same
      rw [same] at notMine
      exact notMine mine
    rw [Ptable.setState, Ptable.set_ne _ _ other]
    exact ⟨embryo, id⟩
  · intro p _ _ q _ parent zombie
    have other : q ≠ np := by
      intro same
      rw [same, Ptable.setState, Ptable.set_self] at zombie
      exact notZombie zombie
    rw [Ptable.setState, Ptable.set_ne _ _ other] at parent zombie
    exact ⟨parent, zombie⟩

theorem exit_embryo (t : Ptable) {p q : Nat} (other : q ≠ p) (embryo : (t.proc q).state = .embryo) :
    ((t.exit p).proc q).state = .embryo ∧ ((t.proc q).parent ≠ none → ((t.exit p).proc q).parent ≠ none) := by
  rw [t.exit_eq, Ptable.setState, Ptable.set_ne _ _ other]
  have steady := steady_woken (t.exit_loop_proc p q)
  split at steady
  · obtain ⟨embryo', parent⟩ := steady.1 embryo
    refine ⟨embryo', fun had => parent ?_⟩
    simp only [Pcb.passTo]
    split
    · simp
    · exact had
  · exact steady.1 embryo

theorem out_keep (core : Core ncpu s g) (frames : Frames s.table g) (inside : c < ncpu)
    (stack : (s.cpu c).stack = threadOf i) (calm : (g i).stage = .out) {t : Ptable}
    (running : ∀ p, (t.proc p).state = .running ↔ (s.table.proc p).state = .running)
    (steady : ∀ q, Steady (s.table.proc q) (t.proc q)) : Core ncpu (s.setTable t) (upd g i (g i)) ∧ Frames t (upd g i (g i)) :=
  ⟨core_table core inside stack rfl (calm_of_out calm) (calm_of_out calm) running,
    frames_plain frames steady (.inl rfl) (plain_of_out calm)⟩

theorem same_keep (core : Core ncpu s g) (frames : Frames s.table g) (inside : c < ncpu)
    (stack : (s.cpu c).stack = threadOf i) (calm : (g i).stage = .out) :
    Core ncpu s (upd g i (g i)) ∧ Frames s.table (upd g i (g i)) :=
  out_keep core frames inside stack calm (fun _ => Iff.rfl) fun _ => steady_refl _

theorem release_keep (core : Core ncpu s g) (frames : Frames s.table g) (inside : c < ncpu)
    (stack : (s.cpu c).stack = threadOf i) (calm : (g i).stage = .out) {np : Nat} {state : ProcState}
    (mine : (g i).frame.child = some np) (notZombie : state ≠ .zombie) (notRunning : state ≠ .running) :
    Core ncpu (s.setTable (s.table.setState np state)) (upd g i { g i with frame := .none }) ∧
      Frames (s.table.setState np state) (upd g i { g i with frame := .none }) := by
  have embryo := (frames.embryo i np mine).2
  exact ⟨core_table core inside stack rfl (calm_of_out calm) (calm_of_out calm)
    (set_state_running s.table (by simp [embryo]) notRunning), frames_release frames mine calm notZombie⟩

theorem inv_moves (core : Core ncpu s g) (frames : Frames s.table g) {act : SmpOp β} {own : Ghost}
    (executed : SmpOp.exec ncpu act s = .ok r s') (moved : Moves i (threadOf i) act r (g i) own) :
    Core ncpu s' (upd g i own) ∧ Frames s'.table (upd g i own) := by
  cases moved with
  | acquire l _ calm =>
    obtain ⟨c, inside, stack, free, rfl⟩ := acquire_ok executed
    exact ⟨core_acquire core inside stack free rfl (calm_of_out calm) (calm_of_out calm),
      frames_plain frames (fun q => steady_refl _) (.inl rfl) (plain_of_out calm)⟩
  | swapIn _ entering =>
    obtain ⟨c, inside, stack, free, rfl⟩ := acquire_ok executed
    exact ⟨core_acquire core inside stack free rfl (by rw [entering]; exact ⟨rfl, by simp⟩) ⟨rfl, by simp⟩,
      frames_steady frames (fun q => steady_refl _) (.inl rfl) (fun _ => Finset.mem_insert_self _ _) (by simp)⟩
  | release l _ calm =>
    obtain ⟨c, inside, stack, held, rfl⟩ := release_ok executed
    exact ⟨core_release core inside stack held rfl (calm_of_out calm) (calm_of_out calm),
      frames_plain frames (fun q => steady_refl _) (.inl rfl) (plain_of_out calm)⟩
  | swapOut chan lk entered _ swapping _ other =>
    obtain ⟨c, inside, stack, held, rfl⟩ := release_ok executed
    have calm : (g i).stage.Calm := by
      rw [swapping]
      exact ⟨rfl, by simp⟩
    refine ⟨core_release core inside stack held rfl calm calm,
      frames_steady frames (fun q => steady_refl _) (.inl rfl) (fun _ => ?_) (by simp [swapping])⟩
    exact Finset.mem_erase.mpr ⟨Ne.symm other, frames.locked i (.inr swapping)⟩
  | sched _ leaving =>
    obtain ⟨c, p, inside, stack, current, -, only, rfl⟩ := sched_ok executed
    obtain ⟨rfl, process⟩ := current_is_self core inside stack (by rw [leaving]; rfl) current
    exact ⟨core_sched core inside stack process leaving only,
      frames_plain frames (fun q => steady_refl _) (.inl rfl) ⟨by simp, by simp⟩⟩
  | setRunnable _ calm locked =>
    obtain ⟨c, p, inside, stack, current, rest⟩ := current_ok executed
    obtain ⟨rfl, process⟩ := current_is_self core inside stack (calm_of_out calm).1 current
    have running := still_running core inside stack (calm_of_out calm) process
    cases rest
    refine ⟨core_leave core inside stack (calm_of_out calm) locked ?_ fun q other => ?_,
      frames_plain frames (steady_set (steady_running running (by simp))) (.inl rfl) ⟨by simp, by simp⟩⟩
    · simp [Ptable.setState]
    · rw [Ptable.setState, Ptable.set_ne _ _ other]
  | enterSleep chan lk _ calm free =>
    obtain ⟨c, p, inside, stack, current, rest⟩ := current_ok executed
    obtain ⟨held, same⟩ := holding_ok rest
    cases same
    refine ⟨core_table core inside stack rfl (calm_of_out calm) ?_ fun p => Iff.rfl,
      frames_steady frames (fun q => steady_refl _) (.inr ⟨rfl, by rw [free]; rfl⟩) (fun stage => ?_) (fun stage => ?_)⟩
    · by_cases ptable : lk = ptableLock <;> simp [ptable, Stage.Calm, Stage.dispatched]
    · by_cases ptable : lk = ptableLock
      · exact (core.lockset c inside i stack ptableLock).mp (ptable ▸ held)
      · simp [ptable] at stage
    · by_cases ptable : lk = ptableLock <;> simp [ptable] at stage
  | enterWait _ checked free =>
    obtain ⟨c, p, inside, stack, current, rest⟩ := current_ok executed
    obtain ⟨-, same⟩ := holding_ok rest
    cases same
    have calm : (g i).stage.Calm := by
      rw [checked]
      exact ⟨rfl, by simp⟩
    exact ⟨core_table core inside stack rfl calm calm fun p => Iff.rfl,
      frames_steady frames (fun q => steady_refl _) (.inr ⟨rfl, by rw [free]; rfl⟩)
        (fun _ => frames.locked i (.inl checked)) (fun _ => frames.checked i checked)⟩
  | sleepOn chan lk entered _ swapping =>
    obtain ⟨c, p, inside, stack, current, rest⟩ := current_ok executed
    obtain ⟨rfl, process⟩ := current_is_self core inside stack (by rw [swapping]; rfl) current
    have calm : (g i).stage.Calm := by
      rw [swapping]
      exact ⟨rfl, by simp⟩
    cases rest
    exact ⟨core_sleep core inside stack calm (frames.locked i (.inr swapping)), frames_sleep core frames inside stack process calm⟩
  | sleepInWait entered _ checked =>
    obtain ⟨c, p, inside, stack, current, rest⟩ := current_ok executed
    obtain ⟨rfl, process⟩ := current_is_self core inside stack (by rw [checked]; rfl) current
    have calm : (g i).stage.Calm := by
      rw [checked]
      exact ⟨rfl, by simp⟩
    cases rest
    exact ⟨core_sleep core inside stack calm (frames.locked i (.inl checked)), frames_sleep core frames inside stack process calm⟩
  | clearChan _ calm =>
    obtain ⟨c, p, inside, stack, current, rest⟩ := current_ok executed
    cases rest
    exact out_keep core frames inside stack calm (set_running s.table Iff.rfl) (steady_set (steady_refl (s.table.proc p)))
  | leaveSleep chan lk entered _ calm inSleep =>
    obtain ⟨c, inside, stack, rest⟩ := on_cpu_ok executed
    cases rest
    exact ⟨core_table core inside stack rfl (calm_of_out calm) (calm_of_out calm) fun p => Iff.rfl,
      frames_plain frames (fun q => steady_refl _) (.inr ⟨rfl, by rw [inSleep]; rfl⟩) (plain_of_out calm)⟩
  | wakeup1 chan _ calm =>
    obtain ⟨c, inside, stack, rest⟩ := on_cpu_ok executed
    obtain ⟨-, same⟩ := holding_ok rest
    cases same
    have woken := s.table.wakeup1_woken (some chan)
    exact out_keep core frames inside stack calm (fun p => woken_running (woken p)) fun q => steady_woken (woken q)
  | allocproc np _ calm free locked process =>
    obtain ⟨c, inside, stack, rest⟩ := on_cpu_ok executed
    injection rest with found same
    obtain ⟨slot, unused, section_⟩ := s.table.allocproc_some found
    rw [← same, section_]
    have steady : ∀ q, Steady (s.table.proc q)
        ((s.table.set np { s.table.proc np with state := .embryo, pid := s.table.nextpid }).proc q) :=
      steady_set ⟨fun embryo => by simp [unused] at embryo, fun zombie => by cases zombie⟩
    refine ⟨core_table core inside stack rfl (calm_of_out calm) (calm_of_out calm) (set_running s.table (by simp [unused])),
      frames_step frames (fun q embryo _ => (steady q).1 embryo) ?_ ?_ (by simp) ?_ ?_⟩
    · intro p _ _ q _ parent zombie
      obtain ⟨zombie', parent'⟩ := (steady q).2 zombie
      exact ⟨parent'.symm.trans parent, zombie'⟩
    · intro k mine
      cases mine
      refine ⟨slot, by simp [setTable], fun p _ theirs => ?_⟩
      have embryo := (frames.embryo p np theirs).2
      rw [unused] at embryo
      cases embryo
    · simp [calm]
    · simp [calm]
  | allocFailed _ calm =>
    obtain ⟨c, inside, stack, rest⟩ := on_cpu_ok executed
    injection rest with found same
    rw [← same, s.table.allocproc_none found]
    exact same_keep core frames inside stack calm
  | abandon np _ calm inFork =>
    obtain ⟨c, inside, stack, rest⟩ := on_cpu_ok executed
    cases rest
    exact release_keep core frames inside stack calm (by rw [inFork]; rfl) (by simp) (by simp)
  | adopt np _ calm inFork =>
    obtain ⟨c, p, inside, stack, current, rest⟩ := current_ok executed
    cases rest
    have mine : (g i).frame.child = some np := by rw [inFork]; rfl
    obtain ⟨slot, embryo⟩ := frames.embryo i np mine
    have steady : ∀ q, Steady (s.table.proc q) ((s.table.set np { s.table.proc np with parent := some p }).proc q) :=
      steady_set ⟨fun embryo => ⟨embryo, fun _ => by simp⟩, fun zombie => by simp [embryo] at zombie⟩
    refine ⟨core_table core inside stack rfl (calm_of_out calm) (calm_of_out calm) (set_running s.table Iff.rfl),
      frames_step frames (fun q embryo _ => (steady q).1 embryo) ?_ ?_ ?_ ?_ ?_⟩
    · intro p _ _ q _ parent zombie
      obtain ⟨zombie', parent'⟩ := (steady q).2 zombie
      exact ⟨parent'.symm.trans parent, zombie'⟩
    · intro k same
      cases same
      exact ⟨slot, ((steady np).1 embryo).1, fun p other theirs => other (frames.single p i np theirs mine)⟩
    · intro k same
      cases same
      simp [setTable]
    · simp [calm]
    · simp [calm]
  | ready np _ calm inFork =>
    obtain ⟨c, inside, stack, rest⟩ := on_cpu_ok executed
    cases rest
    exact release_keep core frames inside stack calm (by rw [inFork]; rfl) (by simp) (by simp)
  | exit _ calm free locked =>
    obtain ⟨c, p, inside, stack, current, -, rfl⟩ := exit_ok executed
    obtain ⟨rfl, process⟩ := current_is_self core inside stack (calm_of_out calm).1 current
    have running := still_running core inside stack (calm_of_out calm) process
    have childless : (g i).frame.child = none := by rw [free]; rfl
    refine ⟨core_leave core inside stack (calm_of_out calm) locked ?_ fun q other => exit_running s.table other,
      frames_step frames (fun q embryo _ => ?_) (fun p other checked => ?_) ?_ (by simp [free]) (by simp) (by simp)⟩
    · rw [s.table.exit_eq, Ptable.setState, Ptable.set_self]
      simp
    · have other : q ≠ i := by
        intro same
        rw [same, running] at embryo
        cases embryo
      exact exit_embryo s.table other embryo
    · exact absurd checked (none_checked core frames inside stack locked other)
    · intro np mine
      rw [childless] at mine
      cases mine
  | waitSleeps _ calm locked =>
    obtain ⟨c, p, inside, stack, current, rest⟩ := current_ok executed
    obtain ⟨rfl, process⟩ := current_is_self core inside stack (calm_of_out calm).1 current
    injection rest with result same
    obtain ⟨unchanged, noZombie⟩ := s.table.wait_no_zombie (.inl result)
    rw [← same, unchanged]
    exact ⟨core_table core inside stack rfl (calm_of_out calm) ⟨rfl, by simp⟩ fun p => Iff.rfl,
      frames_steady frames (fun q => steady_refl _) (.inl rfl) (fun _ => locked) (fun _ => ⟨process, noZombie⟩)⟩
  | waitReaped pid _ calm locked =>
    obtain ⟨c, p, inside, stack, current, rest⟩ := current_ok executed
    injection rest with result same
    obtain ⟨q, -, -, zombie, -, section_⟩ := s.table.wait_reaped result
    rw [← same, section_]
    refine out_keep core frames inside stack calm (set_running s.table ?_) (steady_set ⟨fun embryo => ?_, fun zombie => ?_⟩)
    · simp [zombie]
    · simp [zombie] at embryo
    · cases zombie
  | waitFailed _ calm locked =>
    obtain ⟨c, p, inside, stack, current, rest⟩ := current_ok executed
    injection rest with result same
    rw [← same, (s.table.wait_no_zombie (.inr result)).1]
    exact same_keep core frames inside stack calm
  | kill pid found _ calm locked =>
    obtain ⟨c, inside, stack, rest⟩ := on_cpu_ok executed
    injection rest with result same
    rw [← same]
    exact out_keep core frames inside stack calm (kill_running s.table pid) (steady_kill s.table pid)
  | trap _ calm =>
    obtain ⟨c, p, inside, stack, current, rest⟩ := current_ok executed
    cases rest
    exact out_keep core frames inside stack calm (set_running s.table Iff.rfl) (steady_set (steady_refl (s.table.proc p)))
  | passOver q _ calm =>
    obtain ⟨c, inside, stack, ⟨-, rfl⟩ | ⟨impossible, -⟩⟩ := dispatch_ok executed
    · exact same_keep core frames inside stack calm
    · cases impossible
  | dispatch c' q _ calm locked own slot =>
    obtain ⟨c, inside, stack, ⟨impossible, -⟩ | ⟨-, runnable, rfl⟩⟩ := dispatch_ok executed
    · cases impossible
    · obtain ⟨k, same, kind⟩ := core.threads c inside
      have equal := thread_of_injective (stack.symm.trans same)
      refine ⟨core_dispatch core inside stack (calm_of_out calm) locked (by omega) slot runnable,
        frames_plain frames (steady_set ⟨fun embryo => ?_, fun zombie => ?_⟩) (.inl rfl) ⟨by simp, by simp⟩⟩
      · simp [runnable] at embryo
      · cases zombie
  | leaveProc q _ away scheduler =>
    obtain ⟨c, inside, stack, rest⟩ := on_cpu_ok executed
    cases rest
    exact ⟨core_leave_proc core inside stack away scheduler,
      frames_plain frames (fun q => steady_refl _) (.inl rfl) ⟨by simp, by simp⟩⟩

def bootGhosts (i : Nat) : Ghost := ⟨if i < nproc then {ptableLock} else ∅, .out, .none⟩

inductive History (ncpu : Nat) (cond : Event SmpOp Smp → Prop) : List (Event SmpOp Smp) → Smp → (Nat → Ghost) → Prop where
  | boot : History ncpu cond [] bootSmp.shared bootGhosts
  | step {β : Type} {trace : List (Event SmpOp Smp)} {s s' : Smp} {g : Nat → Ghost} {i : Nat} {act : SmpOp β} {r : β}
      {own : Ghost} (before : History ncpu cond trace s g) (executed : act.exec ncpu s = .ok r s')
      (met : cond ⟨i, act, r, s, s'⟩) (moved : Moves i (threadOf i) act r (g i) own) :
      History ncpu cond (trace ++ [⟨i, act, r, s, s'⟩]) s' (upd g i own)

variable {cond : Event SmpOp Smp → Prop} {trace : List (Event SmpOp Smp)}

theorem userinit_proc {p : Nat} (other : p ≠ 0) : Ptable.userinit.proc p = ⟨.unused, 0, none, none, false⟩ := by
  have section_ : Ptable.userinit.proc = upd (upd (fun _ => ⟨.unused, 0, none, none, false⟩) 0
      ⟨.embryo, 1, none, none, false⟩) 0 ⟨.runnable, 1, none, none, false⟩ := rfl
  rw [section_, upd_ne other, upd_ne other]

theorem userinit_init : Ptable.userinit.proc 0 = ⟨.runnable, 1, none, none, false⟩ := rfl

theorem userinit_not_running (p : Nat) : (Ptable.userinit.proc p).state ≠ .running := by
  by_cases init : p = 0
  · rw [init, userinit_init]
    simp
  · rw [userinit_proc init]
    simp

theorem boot_core : Core ncpu bootSmp.shared bootGhosts := by
  have idle : ∀ d, (bootSmp.shared.cpu d).stack = threadOf (nproc + d) := fun d => (thread_of_scheduler d).symm
  have own : ∀ d k, (bootSmp.shared.cpu d).stack = threadOf k → k = nproc + d :=
    fun d k stack => thread_of_injective (stack.symm.trans (idle d))
  have none : ∀ d, (bootGhosts (nproc + d)).locks = ∅ := fun d => if_neg (by omega)
  refine ⟨⟨?_, ?_, ?_, ?_, ?_, ?_⟩, ⟨fun _ _ => rfl, fun _ _ => rfl, ?_, ?_, ?_, ?_, ?_⟩⟩
  · exact fun d _ => ⟨nproc + d, idle d, .inr rfl⟩
  · intro d _ e _ k first second
    have left := own d k first
    have right := own e k second
    omega
  · intro d _ k stack l
    rw [own d k stack, none d]
    simp [bootSmp]
  · intro d _ k stack
    rw [own d k stack, none d]
    rfl
  · intro k valid off
    have process : k < nproc := by
      by_contra scheduler
      obtain ⟨d, rfl⟩ := Nat.exists_eq_add_of_le (Nat.le_of_not_lt scheduler)
      exact off d (by omega) (idle d)
    exact ⟨if_pos process, .inl rfl⟩
  · intro k gone
    exact absurd rfl gone
  · intro d _ p _ stack
    cases stack
  · intro d _ _ p current
    cases current
  · intro d _ e _ p current
    cases current
  · intro p running
    exact absurd running (userinit_not_running p)
  · intro p leaving
    cases leaving

theorem boot_frames : Frames bootSmp.shared.table bootGhosts := by
  refine ⟨fun _ _ child => ?_, fun _ _ child => ?_, fun _ _ _ child => ?_, fun _ stage => ?_, fun _ stage => ?_⟩
  · cases child
  · cases child
  · cases child
  · rcases stage with checked | swapping
    · cases checked
    · cases swapping
  · cases stage

theorem history_inv (history : History ncpu cond trace s g) : Core ncpu s g ∧ Frames s.table g := by
  induction history with
  | boot => exact ⟨boot_core, boot_frames⟩
  | step before executed met moved ih => exact inv_moves ih.1 ih.2 executed moved

theorem smp_history {config : Config SmpOp Smp KTask} (reached : SmpReach ncpu cond trace config) :
    ∃ g, History ncpu cond trace config.shared g := by
  have follows : ∀ i g (prog : SmpM KTask), Follow i (threadOf i) Fits prog g →
      Safe (SmpOp.exec ncpu) cond (History ncpu cond) i Fits prog g := by
    intro i g prog typed
    refine follows_safe (Moves i (threadOf i)) ?_ typed
    intro β act r own trace s s' ghosts history executed met moved
    exact .step history executed met moved
  have initial : ∀ i, Safe (SmpOp.exec ncpu) cond (History ncpu cond) i Fits (bootSmp.thread i) (bootGhosts i) := by
    intro i
    apply follows
    simp only [bootSmp]
    split
    · next slot =>
        rw [thread_of_proc slot]
        exact fun _ => ⟨_, .release ptableLock _ rfl, rfl, rfl⟩
    · next scheduler => exact ⟨rfl, rfl, if_neg scheduler⟩
  obtain ⟨ghosts, history, -⟩ := reach_invariant Fits ⟨bootGhosts, .boot, initial⟩
    (fun i _ g prog fits allowed => follows i g prog (calls_follow fits allowed)) reached
  exact ⟨ghosts, history⟩

end Xv6.Smp
