import Xv6.Lib.Machine

set_option autoImplicit false

namespace Xv6.Sleep

structure Lock where
  locked : Bool
  pid : Nat

-- ref is a buffer's refcnt or an inode's ref.
structure State where
  lock : Nat → Lock
  asleep : Nat → Option Nat
  ref : Nat → Int
  valid : Nat → Bool
  dirty : Nat → Bool

-- acquire is one round of acquiresleep's loop; woken is the end of sleep.
inductive SlOp : Type → Type 1 where
  | acquire (p l : Nat) : SlOp Bool
  | woken (p : Nat) : SlOp Unit
  | release (l : Nat) : SlOp Unit
  | holding (l : Nat) : SlOp Bool
  | kill (q : Nat) : SlOp Unit
  | addRef (l : Nat) : SlOp Unit
  | dropRef (l : Nat) : SlOp Unit
  | getRef (l : Nat) : SlOp Int
  | setDirty (l : Nat) : SlOp Unit
  | nothingToDo (l : Nat) : SlOp Bool
  | transfer (l : Nat) : SlOp Unit
  | panic (msg : String) : SlOp Unit
  | forever : SlOp Unit

def State.setLock (s : State) (l : Nat) (lock : Lock) : State := { s with lock := upd s.lock l lock }

def State.wakeup (s : State) (l : Nat) : State :=
  { s with asleep := fun q => if s.asleep q = some l then none else s.asleep q }

def SlOp.exec {β : Type} : SlOp β → State → Res State β
  | .acquire p l, s =>
    if (s.lock l).locked then .ok false { s with asleep := upd s.asleep p (some l) }
    else .ok true (s.setLock l ⟨true, p⟩)
  | .woken p, s => if (s.asleep p).isSome then .blocked else .ok () s
  | .release l, s => .ok () ((s.setLock l ⟨false, 0⟩).wakeup l)
  | .holding l, s => .ok (s.lock l).locked s
  | .kill q, s => .ok () { s with asleep := upd s.asleep q none }
  | .addRef l, s => .ok () { s with ref := upd s.ref l (s.ref l + 1) }
  | .dropRef l, s => .ok () { s with ref := upd s.ref l (s.ref l - 1) }
  | .getRef l, s => .ok (s.ref l) s
  | .setDirty l, s => .ok () { s with dirty := upd s.dirty l true }
  | .nothingToDo l, s => .ok (s.valid l && !s.dirty l) s
  | .transfer l, s => .ok () { s with valid := upd s.valid l true, dirty := upd s.dirty l false }
  | .panic msg, _ => .panic msg
  | .forever, _ => .blocked

abbrev SlM (α : Type) : Type 1 := Prog SlOp α

-- The number bounds how often the process is woken; every run is one with large numbers.
def acquiresleep (p l : Nat) : Nat → SlM Unit
  | 0 => .lift .forever
  | n + 1 => do
    if ← .lift (.acquire p l) then pure ()
    else do
      .lift (.woken p)
      acquiresleep p l n

def releasesleep (l : Nat) : SlM Unit := .lift (.release l)

def holdingsleep (l : Nat) : SlM Bool := .lift (.holding l)

-- idelock and the queue are left out: the transfer is one section.
def iderw (l : Nat) : SlM Unit := do
  if !(← holdingsleep l) then .lift (.panic "iderw: buf not locked")
  else if ← .lift (.nothingToDo l) then .lift (.panic "iderw: nothing to do")
  else .lift (.transfer l)

def bwrite (l : Nat) : SlM Unit := do
  if !(← holdingsleep l) then .lift (.panic "bwrite")
  else do
    .lift (.setDirty l)
    iderw l

-- The move to the head of the MRU list is left out.
def brelse (l : Nat) : SlM Unit := do
  if !(← holdingsleep l) then .lift (.panic "brelse")
  else do
    releasesleep l
    .lift (.dropRef l)

def iunlock (ip : Option Nat) : SlM Unit :=
  match ip with
  | none => .lift (.panic "iunlock")
  | some l => do
    if !(← holdingsleep l) then .lift (.panic "iunlock")
    else if (← .lift (.getRef l)) < 1 then .lift (.panic "iunlock")
    else releasesleep l

inductive Calls : Nat → Unit → SlM Unit → Prop where
  | acquiresleep (p l n : Nat) : Calls p () (acquiresleep p l n)
  | brelse (p l : Nat) : Calls p () (brelse l)
  | bwrite (p l : Nat) : Calls p () (bwrite l)
  | iunlock (p : Nat) (ip : Option Nat) : Calls p () (iunlock ip)
  | kill (p q : Nat) : Calls p () (.lift (.kill q))
  | reference (p l : Nat) : Calls p () (.lift (.addRef l))

def start : Config SlOp State Unit :=
  ⟨⟨fun _ => ⟨false, 0⟩, fun _ => none, fun _ => 0, fun _ => false, fun _ => false⟩, fun _ => .ret ()⟩

abbrev Trace : Type 1 := List (Event SlOp State)

def SlOp.after {β : Type} : SlOp β → β → Nat → Nat → Nat → Bool → Bool
  | .acquire _ l', got, q, p, l, h => if q = p ∧ l' = l ∧ got = true then true else h
  | .release l', _, q, p, l, h => if q = p ∧ l' = l then false else h
  | _, _, _, _, _, h => h

def between (trace : Trace) (p l : Nat) : Bool := trace.foldl (fun h e => e.act.after e.res e.pid p l h) false

def SlOp.passes {β : Type} : SlOp β → β → Nat → Prop
  | .holding l', r, l => l' = l ∧ r = true
  | _, _, _ => False

-- No two processes hold a lock, and a check passes only for the holder.
structure Excludes (trace : Trace) : Prop where
  one : ∀ before, before <+: trace → ∀ l p q, between before p l = true → between before q l = true → p = q
  checked : ∀ before e, before ++ [e] <+: trace → ∀ l, e.act.passes e.res l → between before e.pid l = true

def SlOp.guarded {β : Type} : SlOp β → Nat → State → Bool
  | .holding l, p, s => !(s.lock l).locked || (s.lock l).pid = p
  | _, _, _ => true

def Guarded (e : Event SlOp State) : Prop := e.act.guarded e.pid e.pre = true

structure Inv (trace : Trace) (s : State) (holds : Nat → Nat → Bool) : Prop where
  ghost : ∀ p l, between trace p l = holds p l
  owner : ∀ p l, holds p l = true ↔ (s.lock l).locked = true ∧ (s.lock l).pid = p

theorem between_step (trace : Trace) (e : Event SlOp State) (p l : Nat) :
    between (trace ++ [e]) p l = e.act.after e.res e.pid p l (between trace p l) := by
  unfold between
  rw [List.foldl_append]
  rfl

section

variable {trace : Trace} {s s' : State} {holds : Nat → Nat → Bool} {p : Nat} {g : Nat → Bool}

theorem one_holder (inv : Inv trace s holds) {q l : Nat} (first : holds p l = true) (second : holds q l = true) : p = q :=
  ((inv.owner p l).mp first).2.symm.trans ((inv.owner q l).mp second).2

theorem keep_inv (inv : Inv trace s holds) (e : Event SlOp State) (locks : s'.lock = s.lock)
    (quiet : ∀ q l h, e.act.after e.res e.pid q l h = h) : Inv (trace ++ [e]) s' holds := by
  refine ⟨fun q l => ?_, fun q l => ?_⟩
  · rw [between_step, quiet]
    exact inv.ghost q l
  · rw [locks]
    exact inv.owner q l

theorem acquire_inv (inv : Inv trace s holds) (p l : Nat) (free : (s.lock l).locked = false) :
    Inv (trace ++ [⟨p, .acquire p l, true, s, s.setLock l ⟨true, p⟩⟩]) (s.setLock l ⟨true, p⟩)
      (upd holds p (upd (holds p) l true)) := by
  have nobody : ∀ q, holds q l = false := by
    intro q
    cases held : holds q l with
    | false => rfl
    | true => rw [((inv.owner q l).mp held).1] at free; cases free
  refine ⟨fun q k => ?_, fun q k => ?_⟩
  · rw [between_step, inv.ghost q k]
    show (if p = q ∧ l = k ∧ true = true then true else holds q k) = _
    by_cases here : q = p
    · rw [here, upd_self]
      by_cases this : k = l
      · rw [this, upd_self, if_pos ⟨rfl, rfl, rfl⟩]
      · rw [upd_ne this, if_neg fun same => this same.2.1.symm]
    · rw [upd_ne here, if_neg fun same => here same.1.symm]
  · show upd holds p (upd (holds p) l true) q k = true ↔
      (upd s.lock l ⟨true, p⟩ k).locked = true ∧ (upd s.lock l ⟨true, p⟩ k).pid = q
    by_cases this : k = l
    · rw [this, upd_self]
      by_cases here : q = p
      · rw [here, upd_self, upd_self]
        exact ⟨fun _ => ⟨rfl, rfl⟩, fun _ => rfl⟩
      · rw [upd_ne here, nobody q]
        exact ⟨nofun, fun owns => absurd owns.2.symm here⟩
    · rw [upd_ne this]
      by_cases here : q = p
      · rw [here, upd_self, upd_ne this]
        exact inv.owner p k
      · rw [upd_ne here]
        exact inv.owner q k

theorem release_inv (inv : Inv trace s holds) (p l : Nat) (mine : holds p l = true) :
    Inv (trace ++ [⟨p, .release l, (), s, (s.setLock l ⟨false, 0⟩).wakeup l⟩]) ((s.setLock l ⟨false, 0⟩).wakeup l)
      (upd holds p (upd (holds p) l false)) := by
  refine ⟨fun q k => ?_, fun q k => ?_⟩
  · rw [between_step, inv.ghost q k]
    show (if p = q ∧ l = k then false else holds q k) = _
    by_cases here : q = p
    · rw [here, upd_self]
      by_cases this : k = l
      · rw [this, upd_self, if_pos ⟨rfl, rfl⟩]
      · rw [upd_ne this, if_neg fun same => this same.2.symm]
    · rw [upd_ne here, if_neg fun same => here same.1.symm]
  · show upd holds p (upd (holds p) l false) q k = true ↔
      (upd s.lock l ⟨false, 0⟩ k).locked = true ∧ (upd s.lock l ⟨false, 0⟩ k).pid = q
    by_cases this : k = l
    · rw [this, upd_self]
      refine ⟨fun held => ?_, fun never => nomatch never.1⟩
      by_cases here : q = p
      · rw [here, upd_self, upd_self] at held
        cases held
      · rw [upd_ne here] at held
        exact absurd (one_holder inv held mine) here
    · rw [upd_ne this]
      by_cases here : q = p
      · rw [here, upd_self, upd_ne this]
        exact inv.owner p k
      · rw [upd_ne here]
        exact inv.owner q k

end

section

variable {p : Nat} {α : Type} {final : α → (Nat → Bool) → Prop}

abbrev Safely (p : Nat) {α : Type} (final : α → (Nat → Bool) → Prop) (prog : SlM α) (g : Nat → Bool) : Prop :=
  Safe SlOp.exec Guarded Inv p final prog g

theorem quiet_safe {β : Type} {act : SlOp β} {next : β → SlM α} {g : Nat → Bool}
    (locks : ∀ s r s', act.exec s = .ok r s' → s'.lock = s.lock) (quiet : ∀ r q l h, act.after r p q l h = h)
    (rest : ∀ r, Safely p final (next r) g) : Safely p final (.op act next) g := by
  intro trace s holds own inv r s' executed _
  refine ⟨g, ?_, rest r⟩
  rw [← own, upd_same]
  exact keep_inv inv _ (locks s r s' executed) (quiet r)

theorem guarded_holding {l : Nat} {s : State} : SlOp.guarded (.holding l) p s = true ↔ ((s.lock l).locked = true → (s.lock l).pid = p) := by
  show (!(s.lock l).locked || decide ((s.lock l).pid = p)) = true ↔ _
  cases (s.lock l).locked with
  | false => exact ⟨nofun, fun _ => rfl⟩
  | true =>
    rw [Bool.not_true, Bool.false_or, decide_eq_true_iff]
    exact ⟨fun same _ => same, fun same => same rfl⟩

theorem holding_safe {l : Nat} {next : Bool → SlM α} {g : Nat → Bool} (no : Safely p final (next false) g)
    (yes : g l = true → Safely p final (next true) g) : Safely p final (.op (.holding l) next) g := by
  intro trace s holds own inv r s' executed met
  cases executed
  refine ⟨g, ?_, ?_⟩
  · rw [← own, upd_same]
    exact keep_inv inv _ rfl fun _ _ _ => rfl
  · cases passed : (s.lock l).locked with
    | false => exact no
    | true =>
      refine yes ?_
      rw [← own]
      exact (inv.owner p l).mpr ⟨passed, guarded_holding.mp met passed⟩

theorem release_safe {l : Nat} {next : Unit → SlM α} {g : Nat → Bool} (mine : g l = true)
    (rest : Safely p final (next ()) (upd g l false)) : Safely p final (.op (.release l) next) g := by
  intro trace s holds own inv r s' executed _
  cases executed
  refine ⟨upd (holds p) l false, release_inv inv p l ?_, ?_⟩
  · rw [own]
    exact mine
  · rw [own]
    exact rest

theorem panic_safe {msg : String} {next : Unit → SlM α} {g : Nat → Bool} : Safely p final (.op (.panic msg) next) g :=
  nofun

theorem acquiresleep_safe (p l n : Nat) (g : Nat → Bool) : Safely p (fun _ _ => True) (acquiresleep p l n) g := by
  induction n generalizing g with
  | zero => exact nofun
  | succ n ih =>
    intro trace s holds own inv r s' executed _
    change (if (s.lock l).locked then Res.ok false { s with asleep := upd s.asleep p (some l) }
      else .ok true (s.setLock l ⟨true, p⟩)) = _ at executed
    split at executed
    · cases executed
      refine ⟨g, ?_, ?_⟩
      · rw [← own, upd_same]
        exact keep_inv inv _ rfl fun q k h => if_neg fun same => nomatch same.2.2
      · refine quiet_safe (fun s r s' done => ?_) (fun _ _ _ _ => rfl) (fun _ => ih g)
        change (if (s.asleep p).isSome then Res.blocked else .ok () s) = _ at done
        split at done
        · cases done
        · cases done
          rfl
    · next free =>
        cases executed
        exact ⟨upd (holds p) l true, acquire_inv inv p l (Bool.eq_false_iff.mpr free), trivial⟩

theorem iderw_safe (p l : Nat) (g : Nat → Bool) : Safely p (fun _ _ => True) (iderw l) g := by
  refine holding_safe panic_safe fun mine => ?_
  refine quiet_safe (fun s r s' done => by cases done; rfl) (fun _ _ _ _ => rfl) fun r => ?_
  cases r with
  | true => exact panic_safe
  | false => exact quiet_safe (fun s r s' done => by cases done; rfl) (fun _ _ _ _ => rfl) fun _ => trivial

theorem bwrite_safe (p l : Nat) (g : Nat → Bool) : Safely p (fun _ _ => True) (bwrite l) g := by
  refine holding_safe panic_safe fun _ => ?_
  exact quiet_safe (fun s r s' done => by cases done; rfl) (fun _ _ _ _ => rfl) fun _ => iderw_safe p l g

theorem brelse_safe (p l : Nat) (g : Nat → Bool) : Safely p (fun _ _ => True) (brelse l) g := by
  refine holding_safe panic_safe fun mine => release_safe mine ?_
  exact quiet_safe (fun s r s' done => by cases done; rfl) (fun _ _ _ _ => rfl) fun _ => trivial

theorem iunlock_safe (p : Nat) (ip : Option Nat) (g : Nat → Bool) : Safely p (fun _ _ => True) (iunlock ip) g := by
  cases ip with
  | none => exact panic_safe
  | some l =>
    refine holding_safe panic_safe fun mine => ?_
    refine quiet_safe (fun s r s' done => by cases done; rfl) (fun _ _ _ _ => rfl) fun r => ?_
    show Safely p (fun _ _ => True) (if r < 1 then _ else _) g
    split
    · exact panic_safe
    · exact release_safe mine trivial

theorem calls_safe (p : Nat) (l : Unit) (g : Nat → Bool) (prog : SlM Unit) (allowed : Calls p l prog) :
    Safely p (fun _ _ => True) prog g := by
  cases allowed with
  | acquiresleep l n => exact acquiresleep_safe p l n g
  | brelse l => exact brelse_safe p l g
  | bwrite l => exact bwrite_safe p l g
  | iunlock ip => exact iunlock_safe p ip g
  | kill q => exact quiet_safe (fun s r s' done => by cases done; rfl) (fun _ _ _ _ => rfl) fun _ => trivial
  | reference l => exact quiet_safe (fun s r s' done => by cases done; rfl) (fun _ _ _ _ => rfl) fun _ => trivial

end

abbrev Runs (cond : Event SlOp State → Prop) : Trace → Config SlOp State Unit → Prop := Reach SlOp.exec Calls cond start

section

variable {trace : Trace} {c : Config SlOp State Unit}

theorem runs_inv (runs : Runs Guarded trace c) : ∃ holds, Inv trace c.shared holds := by
  have first : ∃ holds, Inv [] start.shared holds ∧ ∀ p, Safely p (fun _ _ => True) (start.thread p) (holds p) := by
    refine ⟨fun _ _ => false, ⟨fun _ _ => rfl, fun p l => ?_⟩, fun _ => trivial⟩
    exact ⟨(fun never => nomatch never), fun never => nomatch never.1⟩
  obtain ⟨holds, inv, -⟩ := reach_invariant _ first (fun p l g prog _ allowed => calls_safe p l g prog allowed) runs
  exact ⟨holds, inv⟩

theorem passes_guarded {holds : Nat → Nat → Bool} {s s' : State} {p : Nat} {β : Type} {act : SlOp β} {r : β} (inv : Inv trace s holds)
    (executed : act.exec s = .ok r s') (guarded : act.guarded p s = true) {l : Nat} (passes : act.passes r l) : between trace p l = true := by
  cases act with
  | holding l' =>
    obtain ⟨rfl, passed⟩ := passes
    cases executed
    rw [inv.ghost p l']
    exact (inv.owner p l').mpr ⟨passed, guarded_holding.mp guarded passed⟩
  | _ => exact passes.elim

theorem guarded_of_passes {holds : Nat → Nat → Bool} {s s' : State} {p : Nat} {β : Type} {act : SlOp β} {r : β} (inv : Inv trace s holds)
    (executed : act.exec s = .ok r s') (owner : ∀ l, act.passes r l → between trace p l = true) : act.guarded p s = true := by
  cases act with
  | holding l =>
    refine guarded_holding.mpr fun locked => ?_
    cases executed
    have mine := owner l ⟨rfl, locked⟩
    rw [inv.ghost p l] at mine
    exact ((inv.owner p l).mp mine).2
  | _ => rfl

theorem guarded_excludes (runs : Runs Guarded trace c) : Excludes trace := by
  induction runs with
  | init =>
    refine ⟨fun before start l p q held => ?_, fun before e start => ?_⟩
    · rw [List.prefix_nil.mp start] at held
      cases held
    · exact absurd (List.prefix_nil.mp start) (List.append_ne_nil_of_right_ne_nil before (List.cons_ne_nil e []))
  | call trace c p l prog _ _ _ ih => exact ih
  | step trace c p act next r s runs at_ executed met ih =>
    refine ⟨fun before start l q q' => ?_, fun before e start l passes => ?_⟩
    · rcases List.prefix_concat_iff.mp start with rfl | earlier
      · obtain ⟨holds, inv⟩ := runs_inv (.step trace c p act next r s runs at_ executed met)
        rw [inv.ghost, inv.ghost]
        exact one_holder inv
      · exact ih.one before earlier l q q'
    · rcases List.prefix_concat_iff.mp start with same | earlier
      · obtain ⟨rfl, last⟩ := List.append_inj' same rfl
        cases last
        obtain ⟨holds, inv⟩ := runs_inv runs
        exact passes_guarded inv executed met passes
      · exact ih.checked before e earlier l passes

theorem excludes_guarded (runs : Runs (fun _ => True) trace c) (excludes : Excludes trace) : ∀ e ∈ trace, Guarded e := by
  induction runs with
  | init => exact nofun
  | call trace c p l prog _ _ _ ih => exact ih excludes
  | step trace c p act next r s runs at_ executed _ ih =>
    have earlier := ih ⟨fun before start => excludes.one before (start.trans (List.prefix_append _ _)),
      fun before e start => excludes.checked before e (start.trans (List.prefix_append _ _))⟩
    obtain ⟨holds, inv⟩ := runs_inv (reach_of_trace runs earlier)
    intro e member
    rcases List.mem_append.mp member with old | new
    · exact earlier e old
    · rw [List.mem_singleton.mp new]
      exact guarded_of_passes inv executed (excludes.checked trace _ (List.prefix_refl _))

end

-- holdingsleep only says that somebody holds the lock.
theorem sleeplocks_exclude_iff (trace : Trace) (c : Config SlOp State Unit) (runs : Runs (fun _ => True) trace c) :
    Excludes trace ↔ ∀ e ∈ trace, Guarded e :=
  ⟨excludes_guarded runs, fun guarded => guarded_excludes (reach_of_trace runs guarded)⟩

def handover : List (Turn SlOp Unit) :=
  [.call 1 () (.lift (.addRef 0)), .step 1, .call 1 () (acquiresleep 1 0 1), .step 1, .call 2 () (acquiresleep 2 0 3), .step 2,
    .call 3 () (.lift (.kill 2)), .step 3, .step 2, .step 2, .call 1 () (brelse 0), .step 1, .step 1, .step 1, .step 2, .step 2]

theorem sleeplocks_exclude_in_handover : ∃ trace c, Runs (fun _ => True) trace c ∧ between trace 2 0 = true ∧ Excludes trace := by
  have ran : (start.play SlOp.exec handover).any
      (fun r => between r.1 2 0 && r.1.all fun e => e.act.guarded e.pid e.pre) = true := by decide +kernel
  have allowed : ∀ turn ∈ handover, turn.Allowed Calls := by
    simp only [handover, List.forall_mem_cons, List.not_mem_nil, Turn.Allowed, false_implies, implies_true, and_true, true_and]
    exact ⟨.reference 1 0, .acquiresleep 1 0 1, .acquiresleep 2 0 3, .kill 3 2, .brelse 1 0⟩
  obtain ⟨⟨trace, c⟩, played, good⟩ := (Option.any_eq_true _ _).mp ran
  obtain ⟨holds, guarded⟩ := Bool.and_eq_true_iff.mp good
  have runs := play_reach handover (fun _ _ => trivial) allowed .init played
  exact ⟨_, c, runs, holds, (sleeplocks_exclude_iff _ c runs).mpr (List.all_eq_true.mp guarded)⟩

-- Process 2 calls brelse on the buffer that process 1 has locked; process 3 gets the lock.
def misuse : List (Turn SlOp Unit) :=
  [.call 1 () (acquiresleep 1 0 1), .step 1, .call 2 () (brelse 0), .step 2, .step 2, .step 2, .call 3 () (acquiresleep 3 0 1), .step 3]

theorem stray_brelse_breaks_exclusion :
    ∃ trace c, Runs (fun _ => True) trace c ∧ between trace 1 0 = true ∧ between trace 3 0 = true ∧ ¬ Excludes trace := by
  have ran : (start.play SlOp.exec misuse).any (fun r => between r.1 1 0 && between r.1 3 0) = true := by decide +kernel
  have allowed : ∀ turn ∈ misuse, turn.Allowed Calls := by
    simp only [misuse, List.forall_mem_cons, List.not_mem_nil, Turn.Allowed, false_implies, implies_true, and_true, true_and]
    exact ⟨.acquiresleep 1 0 1, .brelse 2 0, .acquiresleep 3 0 1⟩
  obtain ⟨⟨trace, c⟩, played, good⟩ := (Option.any_eq_true _ _).mp ran
  obtain ⟨first, second⟩ := Bool.and_eq_true_iff.mp good
  have runs := play_reach misuse (fun _ _ => trivial) allowed .init played
  refine ⟨_, c, runs, first, second, fun excludes => ?_⟩
  have same := excludes.one _ (List.prefix_refl _) 0 1 3 first second
  cases same

end Xv6.Sleep
