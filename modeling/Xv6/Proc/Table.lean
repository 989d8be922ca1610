import Xv6.Fs.Inode

set_option autoImplicit false

namespace Xv6

inductive Chan where
  | proc (q : Nat)
  | addr (a : Nat)
deriving DecidableEq, Repr

-- parent and chan are pointers, none when null.
structure Pcb where
  state : ProcState
  pid : Int
  parent : Option Nat
  chan : Option Chan
  killed : Bool

structure Ptable where
  proc : Nat → Pcb
  nextpid : Int
  initproc : Nat

def incPid (n : Int) : Int := if n = 2 ^ 31 - 1 then -2 ^ 31 else n + 1

inductive WaitResult where
  | reaped (pid : Int)
  | failed
  | sleeps

namespace Ptable

def set (t : Ptable) (p : Nat) (pcb : Pcb) : Ptable := { t with proc := upd t.proc p pcb }

def setState (t : Ptable) (p : Nat) (state : ProcState) : Ptable := t.set p { t.proc p with state := state }

-- allocproc's section under ptable.lock. killed, parent and chan keep what the
-- slot's last process left in them.
def allocproc (t : Ptable) : Option Nat × Ptable :=
  match (List.range nproc).find? fun q => (t.proc q).state = .unused with
  | some q => (some q, { t.set q { t.proc q with state := .embryo, pid := t.nextpid } with nextpid := incPid t.nextpid })
  | none => (none, t)

def wakeup1 (t : Ptable) (chan : Option Chan) : Ptable :=
  { t with proc := fun q =>
      if q < nproc ∧ (t.proc q).state = .sleeping ∧ (t.proc q).chan = chan then { t.proc q with state := .runnable }
      else t.proc q }

-- kill's section: the first slot with the pid, whatever its state.
def kill (t : Ptable) (pid : Int) : Bool × Ptable :=
  match (List.range nproc).find? fun q => (t.proc q).pid = pid with
  | some q => (true, t.set q { t.proc q with
      killed := true, state := if (t.proc q).state = .sleeping then .runnable else (t.proc q).state })
  | none => (false, t)

def passChild (p : Nat) (t : Ptable) (q : Nat) : Ptable :=
  if (t.proc q).parent = some p then
    let t' := t.set q { t.proc q with parent := some t.initproc }
    if (t.proc q).state = .zombie then t'.wakeup1 (some (.proc t.initproc)) else t'
  else t

def exit (t : Ptable) (p : Nat) : Ptable :=
  ((List.range nproc).foldl (passChild p) (t.wakeup1 ((t.proc p).parent.map Chan.proc))).setState p .zombie

def wait (t : Ptable) (p : Nat) : WaitResult × Ptable :=
  match (List.range nproc).find? fun q => (t.proc q).parent = some p ∧ (t.proc q).state = .zombie with
  | some q => (.reaped (t.proc q).pid,
      t.set q { t.proc q with pid := 0, parent := none, killed := false, state := .unused })
  | none =>
    if !((List.range nproc).any fun q => (t.proc q).parent = some p) || (t.proc p).killed then (.failed, t)
    else (.sleeps, t)

variable (t : Ptable)

@[simp] theorem set_self (p : Nat) (pcb : Pcb) : (t.set p pcb).proc p = pcb := upd_self _ _ _

theorem set_ne {p q : Nat} (pcb : Pcb) (other : q ≠ p) : (t.set p pcb).proc q = t.proc q := upd_ne other

@[simp] theorem set_initproc (p : Nat) (pcb : Pcb) : (t.set p pcb).initproc = t.initproc := rfl

@[simp] theorem set_nextpid (p : Nat) (pcb : Pcb) : (t.set p pcb).nextpid = t.nextpid := rfl

theorem allocproc_some {np : Nat} (found : t.allocproc.1 = some np) :
    np < nproc ∧ (t.proc np).state = .unused ∧ t.allocproc.2 =
      { t.set np { t.proc np with state := .embryo, pid := t.nextpid } with nextpid := incPid t.nextpid } := by
  simp only [allocproc] at found ⊢
  cases search : (List.range nproc).find? fun q => (t.proc q).state = .unused with
  | none => simp [search] at found
  | some q =>
    rw [search] at found
    cases found
    have unused := List.find?_some search
    exact ⟨List.mem_range.mp (List.mem_of_find?_eq_some search), of_decide_eq_true unused, rfl⟩

theorem allocproc_none (full : t.allocproc.1 = none) : t.allocproc.2 = t := by
  simp only [allocproc] at full ⊢
  cases search : (List.range nproc).find? fun q => (t.proc q).state = .unused with
  | none => rfl
  | some q => simp [search] at full

theorem wait_reaped {p : Nat} {pid : Int} (result : (t.wait p).1 = .reaped pid) :
    ∃ q < nproc, (t.proc q).parent = some p ∧ (t.proc q).state = .zombie ∧ (t.proc q).pid = pid ∧
      (t.wait p).2 = t.set q { t.proc q with pid := 0, parent := none, killed := false, state := .unused } := by
  simp only [wait] at result ⊢
  cases search : (List.range nproc).find? fun q => (t.proc q).parent = some p ∧ (t.proc q).state = .zombie with
  | none =>
    rw [search] at result
    dsimp only at result
    split at result <;> cases result
  | some q =>
    rw [search] at result
    have child := List.find?_some search
    obtain ⟨parent, zombie⟩ := of_decide_eq_true child
    exact ⟨q, List.mem_range.mp (List.mem_of_find?_eq_some search), parent, zombie, WaitResult.reaped.inj result, rfl⟩

theorem wait_no_zombie {p : Nat} (result : (t.wait p).1 = .sleeps ∨ (t.wait p).1 = .failed) :
    (t.wait p).2 = t ∧ ∀ q < nproc, (t.proc q).parent = some p → (t.proc q).state ≠ .zombie := by
  simp only [wait] at result ⊢
  cases search : (List.range nproc).find? fun q => (t.proc q).parent = some p ∧ (t.proc q).state = .zombie with
  | some q =>
    rw [search] at result
    rcases result with impossible | impossible <;> cases impossible
  | none =>
    refine ⟨?_, fun q slot child zombie => ?_⟩
    · dsimp only
      split <;> rfl
    · have nowhere := List.find?_eq_none.mp search q (List.mem_range.mpr slot)
      exact nowhere (decide_eq_true ⟨child, zombie⟩)

theorem wait_failed {p : Nat} (result : (t.wait p).1 = .failed) :
    (∀ q < nproc, (t.proc q).parent ≠ some p) ∨ (t.proc p).killed = true := by
  simp only [wait] at result
  cases search : (List.range nproc).find? fun q => (t.proc q).parent = some p ∧ (t.proc q).state = .zombie with
  | some q =>
    rw [search] at result
    cases result
  | none =>
    rw [search] at result
    dsimp only at result
    split at result
    · next gaveUp =>
        rcases Bool.or_eq_true_iff.mp gaveUp with childless | killed
        · refine .inl fun q slot child => ?_
          rw [Bool.not_eq_true', List.any_eq_false] at childless
          exact childless q (List.mem_range.mpr slot) (decide_eq_true child)
        · exact .inr killed
    · cases result

end Ptable

def Pcb.Woken (a b : Pcb) : Prop := b = a ∨ (a.state = .sleeping ∧ b = { a with state := .runnable })

theorem woken_trans {a b c : Pcb} (first : a.Woken b) (second : b.Woken c) : a.Woken c := by
  rcases first with rfl | ⟨asleep, rfl⟩
  · exact second
  · rcases second with rfl | ⟨impossible, -⟩
    · exact .inr ⟨asleep, rfl⟩
    · cases impossible

namespace Ptable

variable (t : Ptable)

theorem wakeup1_woken (chan : Option Chan) (q : Nat) : (t.proc q).Woken ((t.wakeup1 chan).proc q) := by
  simp only [wakeup1]
  split
  · next asleep => exact .inr ⟨asleep.2.1, rfl⟩
  · exact .inl rfl

theorem kill_cases (pid : Int) :
    (t.kill pid = (false, t) ∧ ∀ q < nproc, (t.proc q).pid ≠ pid) ∨
    ∃ q < nproc, (t.proc q).pid = pid ∧ (List.range nproc).find? (fun q => (t.proc q).pid = pid) = some q ∧
      ∃ woken, (t.proc q).Woken woken ∧ t.kill pid = (true, t.set q { woken with killed := true }) := by
  simp only [kill]
  cases search : (List.range nproc).find? fun q => (t.proc q).pid = pid with
  | none =>
    refine .inl ⟨rfl, fun q slot => ?_⟩
    have nowhere := List.find?_eq_none.mp search q (List.mem_range.mpr slot)
    simpa using nowhere
  | some q =>
    have matched := List.find?_some search
    refine .inr ⟨q, List.mem_range.mp (List.mem_of_find?_eq_some search), of_decide_eq_true matched, rfl, ?_⟩
    by_cases asleep : (t.proc q).state = .sleeping
    · exact ⟨{ t.proc q with state := .runnable }, .inr ⟨asleep, rfl⟩, by simp [asleep]⟩
    · exact ⟨t.proc q, .inl rfl, by simp [asleep]⟩

theorem wakeup1_awake (chan : Option Chan) {q : Nat} (slot : q < nproc) (asleep : ((t.wakeup1 chan).proc q).state = .sleeping) :
    (t.proc q).chan ≠ chan := by
  intro on
  simp only [wakeup1] at asleep
  split at asleep
  · cases asleep
  · next unaffected => exact unaffected ⟨slot, asleep, on⟩

end Ptable

def Pcb.passTo (p init : Nat) (a : Pcb) : Pcb := { a with parent := if a.parent = some p then some init else a.parent }

theorem woken_pass_to {a b : Pcb} (p init : Nat) (woken : a.Woken b) : (a.passTo p init).Woken (b.passTo p init) := by
  rcases woken with rfl | ⟨asleep, rfl⟩
  · exact .inl rfl
  · exact .inr ⟨asleep, rfl⟩

theorem woken_asleep {a b : Pcb} (woken : a.Woken b) (asleep : b.state = .sleeping) : b = a := by
  rcases woken with same | ⟨-, rfl⟩
  · exact same
  · cases asleep

namespace Ptable

variable (t : Ptable)

theorem pass_child_initproc (p q : Nat) : (passChild p t q).initproc = t.initproc := by
  simp only [passChild]
  split
  · split <;> rfl
  · rfl

theorem pass_child_self (p q : Nat) : ((t.proc q).passTo p t.initproc).Woken ((passChild p t q).proc q) := by
  simp only [passChild, Pcb.passTo]
  by_cases child : (t.proc q).parent = some p
  · rw [if_pos child, if_pos child]
    split
    · have woken := (t.set q { t.proc q with parent := some t.initproc }).wakeup1_woken (some (.proc t.initproc)) q
      rwa [set_self] at woken
    · rw [set_self]
      exact .inl rfl
  · rw [if_neg child, if_neg child]
    exact .inl rfl

theorem pass_child_ne (p : Nat) {q r : Nat} (other : r ≠ q) : (t.proc r).Woken ((passChild p t q).proc r) := by
  simp only [passChild]
  split
  · split
    · have woken := (t.set q { t.proc q with parent := some t.initproc }).wakeup1_woken (some (.proc t.initproc)) r
      rwa [set_ne _ _ other] at woken
    · rw [set_ne _ _ other]
      exact .inl rfl
  · exact .inl rfl

theorem pass_children_proc (p : Nat) (slots : List Nat) (distinct : slots.Nodup) (r : Nat) :
    (slots.foldl (passChild p) t).initproc = t.initproc ∧
      (if r ∈ slots then (t.proc r).passTo p t.initproc else t.proc r).Woken ((slots.foldl (passChild p) t).proc r) := by
  induction slots generalizing t with
  | nil => exact ⟨rfl, .inl rfl⟩
  | cons q rest ih =>
    obtain ⟨fresh, distinct'⟩ := List.nodup_cons.mp distinct
    obtain ⟨init, woken⟩ := ih (passChild p t q) distinct'
    rw [pass_child_initproc] at init woken
    refine ⟨init, ?_⟩
    rw [List.foldl_cons]
    by_cases here : r = q
    · subst here
      rw [if_neg fresh] at woken
      rw [if_pos List.mem_cons_self]
      exact woken_trans (pass_child_self t p r) woken
    · have first := pass_child_ne t p here
      simp only [List.mem_cons, here, false_or]
      by_cases later : r ∈ rest
      · rw [if_pos later] at woken ⊢
        exact woken_trans (woken_pass_to p t.initproc first) woken
      · rw [if_neg later] at woken ⊢
        exact woken_trans first woken

theorem pass_children_nextpid (p : Nat) (slots : List Nat) : (slots.foldl (passChild p) t).nextpid = t.nextpid := by
  induction slots generalizing t with
  | nil => rfl
  | cons q rest ih =>
    rw [List.foldl_cons, ih, passChild]
    split
    · split <;> rfl
    · rfl

theorem pass_children_wakes (p : Nat) (slots : List Nat) (distinct : slots.Nodup) {z q : Nat} (child : z ∈ slots)
    (parent : (t.proc z).parent = some p) (zombie : (t.proc z).state = .zombie) (slot : q < nproc)
    (asleep : ((slots.foldl (passChild p) t).proc q).state = .sleeping) :
    ((slots.foldl (passChild p) t).proc q).chan ≠ some (.proc t.initproc) := by
  induction slots generalizing t with
  | nil => cases child
  | cons first rest ih =>
    obtain ⟨fresh, distinct'⟩ := List.nodup_cons.mp distinct
    rw [List.foldl_cons] at asleep ⊢
    by_cases here : z = first
    · subst here
      have woken := (pass_children_proc (passChild p t z) p rest distinct' q).2
      have same := woken_asleep woken asleep
      have chan : ((rest.foldl (passChild p) (passChild p t z)).proc q).chan = ((passChild p t z).proc q).chan := by
        rw [same]
        split <;> rfl
      have state : ((passChild p t z).proc q).state = .sleeping := by
        rw [same] at asleep
        split at asleep <;> exact asleep
      have section_ : passChild p t z =
          (t.set z { t.proc z with parent := some t.initproc }).wakeup1 (some (.proc t.initproc)) := by
        simp only [passChild, if_pos parent, if_pos zombie]
      rw [chan]
      rw [section_] at state ⊢
      have kept := woken_asleep (wakeup1_woken _ _ _) state
      rw [kept]
      exact wakeup1_awake _ _ slot state
    · have later : z ∈ rest := (List.mem_cons.mp child).resolve_left here
      have kept : (passChild p t first).proc z = t.proc z := by
        rcases pass_child_ne t p here with same | ⟨impossible, -⟩
        · exact same
        · rw [zombie] at impossible
          cases impossible
      have awake := ih (passChild p t first) distinct' later (by rw [kept]; exact parent) (by rw [kept]; exact zombie) asleep
      rwa [pass_child_initproc] at awake

def exitLoop (p : Nat) : Ptable :=
  (List.range nproc).foldl (passChild p) (t.wakeup1 ((t.proc p).parent.map Chan.proc))

theorem exit_eq (p : Nat) : t.exit p = (exitLoop t p).setState p .zombie := rfl

theorem exit_loop_proc (p r : Nat) :
    (if r < nproc then (t.proc r).passTo p t.initproc else t.proc r).Woken ((exitLoop t p).proc r) := by
  unfold exitLoop
  have woken := (pass_children_proc (t.wakeup1 ((t.proc p).parent.map Chan.proc)) p (List.range nproc) List.nodup_range r).2
  have first := t.wakeup1_woken ((t.proc p).parent.map Chan.proc) r
  by_cases slot : r < nproc
  · rw [if_pos slot]
    rw [if_pos (List.mem_range.mpr slot)] at woken
    exact woken_trans (woken_pass_to p t.initproc first) woken
  · rw [if_neg slot]
    rw [if_neg (fun member => slot (List.mem_range.mp member))] at woken
    exact woken_trans first woken

theorem exit_loop_parent_awake (p w : Nat) {q : Nat} (slot : q < nproc) (parent : (t.proc p).parent = some w)
    (asleep : ((exitLoop t p).proc q).state = .sleeping) : ((exitLoop t p).proc q).chan ≠ some (.proc w) := by
  unfold exitLoop at asleep ⊢
  rw [parent, Option.map_some] at asleep ⊢
  have woken := (pass_children_proc (t.wakeup1 (some (Chan.proc w))) p (List.range nproc) List.nodup_range q).2
  have same := woken_asleep woken asleep
  rw [if_pos (List.mem_range.mpr slot)] at same
  rw [same] at asleep ⊢
  have kept := woken_asleep (t.wakeup1_woken (some (Chan.proc w)) q) asleep
  have awake := t.wakeup1_awake (some (Chan.proc w)) slot asleep
  simp only [Pcb.passTo, kept]
  exact awake

theorem exit_loop_init_awake (p : Nat) {z q : Nat} (child : z < nproc) (slot : q < nproc) (parent : (t.proc z).parent = some p)
    (zombie : (t.proc z).state = .zombie) (asleep : ((exitLoop t p).proc q).state = .sleeping) :
    ((exitLoop t p).proc q).chan ≠ some (.proc t.initproc) := by
  unfold exitLoop at asleep ⊢
  have kept : (t.wakeup1 ((t.proc p).parent.map Chan.proc)).proc z = t.proc z := by
    rcases t.wakeup1_woken ((t.proc p).parent.map Chan.proc) z with same | ⟨impossible, -⟩
    · exact same
    · rw [zombie] at impossible
      cases impossible
  exact pass_children_wakes (t.wakeup1 ((t.proc p).parent.map Chan.proc)) p (List.range nproc) List.nodup_range
    (List.mem_range.mpr child) (by rw [kept]; exact parent) (by rw [kept]; exact zombie) slot asleep

@[simp] theorem exit_initproc (p : Nat) : (t.exit p).initproc = t.initproc := by
  have loop := (pass_children_proc (t.wakeup1 ((t.proc p).parent.map Chan.proc)) p (List.range nproc) List.nodup_range 0).1
  rw [exit_eq, setState, set_initproc, exitLoop, loop]
  rfl

@[simp] theorem exit_nextpid (p : Nat) : (t.exit p).nextpid = t.nextpid := by
  rw [exit_eq, setState, set_nextpid, exitLoop, pass_children_nextpid]
  rfl

end Ptable

end Xv6
