import Xv6.Lib.Count
import Xv6.Fs.Sysfile

set_option autoImplicit false

namespace Xv6

-- tmp is a file its kernel code holds a reference to, fresh when it was just allocated. skip is a
-- descriptor whose reference is not counted, knows one that was looked up, child the fork's process.
structure Task where
  active : Bool
  inTx : Bool
  tmp : Option Nat
  fresh : Bool
  skip : Option (Nat × Nat)
  knows : Option (Nat × Nat)
  child : Option Nat

def Task.idle : Task := ⟨false, false, none, false, none, none, none⟩

def Task.started : Task := { Task.idle with active := true }

-- A reference to file f: descriptor fd of process p, or the kernel code running for p.
def Holds (m : Mem) (task : Nat → Task) (f : Nat) : Nat × Option Nat → Prop
  | (p, none) => (task p).tmp = some f
  | (p, some fd) => (m.proc p).ofile fd = some f ∧ (task p).skip ≠ some (fd, f)

theorem holds_drop_tmp (m : Mem) (task : Nat → Task) (p : Nat) (g : Task) (tmp : g.tmp = none)
    (skip : g.skip = (task p).skip) (f : Nat) (t : Nat × Option Nat) (held : Holds m (upd task p g) f t) :
    Holds m task f t ∧ t ≠ (p, none) := by
  obtain ⟨q, e⟩ := t
  by_cases same : q = p
  · subst same
    cases e with
    | none => simp [Holds, tmp] at held
    | some e =>
      simp only [Holds, upd_self, skip] at held
      exact ⟨held, by simp⟩
  · refine ⟨?_, fun equal => same (congrArg Prod.fst equal)⟩
    cases e <;> simpa only [Holds, upd_ne same] using held

structure FileInv (m : Mem) (task : Nat → Task) : Prop where
  bounded : ∀ f, AtMost (Holds m task f) (m.ftable f).ref
  untyped : ∀ f, (m.ftable f).ref = 0 → (m.ftable f).type = .none
  freshOnly : ∀ p f, (task p).fresh = true → (task p).tmp = some f →
    (m.ftable f).type = .none ∧ ∀ t, Holds m task f t → t = (p, none)
  skipped : ∀ p fd f, (task p).skip = some (fd, f) → (m.proc p).ofile fd = some f
  known : ∀ p fd f, (task p).knows = some (fd, f) → (m.proc p).ofile fd = some f
  alive : ∀ p, (task p).active = true → (m.proc p).state.alive = true
  embryo : ∀ p q, (task p).child = some q → (m.proc q).state = .embryo
  parents : ∀ p p' q, (task p).child = some q → (task p').child = some q → p = p'
  resting : ∀ p, (task p).active = false → task p = Task.idle

theorem file_inv_frame (m next : Mem) (task : Nat → Task) (inv : FileInv m task)
    (sameRef : ∀ f, (next.ftable f).ref = (m.ftable f).ref) (sameType : ∀ f, (next.ftable f).type = (m.ftable f).type)
    (sameOfile : ∀ p, (next.proc p).ofile = (m.proc p).ofile) (sameState : ∀ p, (next.proc p).state = (m.proc p).state) :
    FileInv next task := by
  have holds (f : Nat) (t : Nat × Option Nat) (held : Holds next task f t) : Holds m task f t := by
    obtain ⟨p, fd⟩ := t
    cases fd with
    | none => exact held
    | some fd =>
      simp only [Holds, sameOfile] at held
      exact held
  refine ⟨?_, ?_, ?_, ?_, ?_, ?_, ?_, inv.parents, inv.resting⟩
  · intro f
    rw [sameRef]
    exact at_most_mono (inv.bounded f) (holds f)
  · intro f zero
    rw [sameRef] at zero
    rw [sameType]
    exact inv.untyped f zero
  · intro p f fresh tmp
    rw [sameType]
    have old := inv.freshOnly p f fresh tmp
    exact ⟨old.1, fun t held => old.2 t (holds f t held)⟩
  · intro p fd f skip
    rw [sameOfile]
    exact inv.skipped p fd f skip
  · intro p fd f knows
    rw [sameOfile]
    exact inv.known p fd f knows
  · intro p active
    rw [sameState]
    exact inv.alive p active
  · intro p q child
    rw [sameState]
    exact inv.embryo p q child

theorem file_inv_set_file (m : Mem) (task : Nat → Task) (f : Nat) (file : File) (inv : FileInv m task)
    (ref : file.ref = (m.ftable f).ref) (type : file.type = (m.ftable f).type) : FileInv (m.setFile f file) task := by
  have entry (f' : Nat) : (upd m.ftable f file f').ref = (m.ftable f').ref ∧ (upd m.ftable f file f').type = (m.ftable f').type := by
    by_cases same : f' = f
    · rw [same, upd_self]
      exact ⟨ref, type⟩
    · rw [upd_ne same]
      exact ⟨rfl, rfl⟩
  exact file_inv_frame m _ task inv (fun f' => (entry f').1) (fun f' => (entry f').2) (fun _ => rfl) (fun _ => rfl)

theorem file_inv_set_proc (m : Mem) (task : Nat → Task) (q : Nat) (proc : Proc) (inv : FileInv m task)
    (ofile : proc.ofile = (m.proc q).ofile) (state : proc.state = (m.proc q).state) : FileInv (m.setProc q proc) task := by
  have entry (r : Nat) : (upd m.proc q proc r).ofile = (m.proc r).ofile ∧ (upd m.proc q proc r).state = (m.proc r).state := by
    by_cases same : r = q
    · rw [same, upd_self]
      exact ⟨ofile, state⟩
    · rw [upd_ne same]
      exact ⟨rfl, rfl⟩
  exact file_inv_frame m _ task inv (fun _ => rfl) (fun _ => rfl) (fun r => (entry r).1) (fun r => (entry r).2)

theorem file_inv_step (m next : Mem) (task : Nat → Task) (p : Nat) (g : Task) (inv : FileInv m task)
    (bounded : ∀ f, AtMost (Holds next (upd task p g) f) (next.ftable f).ref)
    (untyped : ∀ f, (next.ftable f).ref = 0 → (next.ftable f).type = .none)
    (ownFresh : ∀ f, g.fresh = true → g.tmp = some f →
      (next.ftable f).type = .none ∧ ∀ t, Holds next (upd task p g) f t → t = (p, none))
    (otherFresh : ∀ q f, q ≠ p → (task q).fresh = true → (task q).tmp = some f →
      (next.ftable f).type = .none ∧ ∀ t, Holds next (upd task p g) f t → t = (q, none))
    (ownSlots : ∀ fd f, g.skip = some (fd, f) ∨ g.knows = some (fd, f) → (next.proc p).ofile fd = some f)
    (otherProc : ∀ q, q ≠ p → (task q).active = true →
      (next.proc q).ofile = (m.proc q).ofile ∧ (next.proc q).state = (m.proc q).state)
    (ownAlive : g.active = true → (next.proc p).state.alive = true)
    (ownChild : ∀ q, g.child = some q → (next.proc q).state = .embryo ∧ ∀ r, r ≠ p → (task r).child ≠ some q)
    (otherChild : ∀ q r, q ≠ p → (task q).child = some r → (next.proc r).state = .embryo)
    (rest : g.active = false → g = Task.idle) : FileInv next (upd task p g) := by
  have others (q : Nat) (other : q ≠ p) : upd task p g q = task q := upd_ne other
  have running (q : Nat) (busy : task q ≠ Task.idle) : (task q).active = true := by
    by_contra inactive
    exact busy (inv.resting q (by simpa using inactive))
  have slots (q fd f : Nat) (claim : (upd task p g q).skip = some (fd, f) ∨ (upd task p g q).knows = some (fd, f)) :
      (next.proc q).ofile fd = some f := by
    by_cases same : q = p
    · subst same
      rw [upd_self] at claim
      exact ownSlots fd f claim
    · rw [others q same] at claim
      have active : (task q).active = true := by
        apply running
        intro idle
        simp [idle, Task.idle] at claim
      rw [(otherProc q same active).1]
      rcases claim with skip | knows
      · exact inv.skipped q fd f skip
      · exact inv.known q fd f knows
  refine ⟨bounded, untyped, ?_, fun q fd f skip => slots q fd f (Or.inl skip),
    fun q fd f knows => slots q fd f (Or.inr knows), ?_, ?_, ?_, ?_⟩
  · intro q f fresh tmp
    by_cases same : q = p
    · subst same
      rw [upd_self] at fresh tmp
      exact ownFresh f fresh tmp
    · rw [others q same] at fresh tmp
      exact otherFresh q f same fresh tmp
  · intro q active
    by_cases same : q = p
    · subst same
      rw [upd_self] at active
      exact ownAlive active
    · rw [others q same] at active
      rw [(otherProc q same active).2]
      exact inv.alive q active
  · intro q r child
    by_cases same : q = p
    · subst same
      rw [upd_self] at child
      exact (ownChild r child).1
    · rw [others q same] at child
      exact otherChild q r same child
  · intro q q' r child child'
    by_cases same : q = p
    · by_cases same' : q' = p
      · rw [same, same']
      · subst same
        rw [upd_self] at child
        rw [others q' same'] at child'
        exact absurd child' ((ownChild r child).2 q' same')
    · rw [others q same] at child
      by_cases same' : q' = p
      · subst same'
        rw [upd_self] at child'
        exact absurd child ((ownChild r child').2 q same)
      · rw [others q' same'] at child'
        exact inv.parents q q' r child child'
  · intro q inactive
    by_cases same : q = p
    · subst same
      rw [upd_self] at inactive ⊢
      exact rest inactive
    · rw [others q same] at inactive ⊢
      exact inv.resting q inactive

section

variable (m : Mem) (task : Nat → Task) (p : Nat) (inv : FileInv m task)

include inv

theorem fresh_referenced (q f : Nat) (tmp : (task q).tmp = some f) : (m.ftable f).ref ≠ 0 := by
  intro zero
  have few := inv.bounded f
  rw [zero] at few
  exact at_most_zero few (q, none) tmp

omit inv in
theorem not_resting {g : Task} (busy : g.active = true) (inactive : g.active = false) : g = Task.idle := by
  rw [busy] at inactive
  cases inactive

theorem file_inv_task (g : Task) (tmp : g.tmp = (task p).tmp) (fresh : g.fresh = true → (task p).fresh = true)
    (skip : g.skip = (task p).skip) (knows : ∀ fd f, g.knows = some (fd, f) → (m.proc p).ofile fd = some f)
    (child : g.child = (task p).child) (active : g.active = true → (m.proc p).state.alive = true)
    (rest : g.active = false → g = Task.idle) : FileInv m (upd task p g) := by
  have holds (f : Nat) (t : Nat × Option Nat) (held : Holds m (upd task p g) f t) : Holds m task f t := by
    obtain ⟨q, fd⟩ := t
    by_cases same : q = p
    · subst same
      cases fd <;> simpa [Holds, tmp, skip] using held
    · cases fd <;> simpa [Holds, upd_ne same] using held
  refine file_inv_step m m task p g inv ?_ inv.untyped ?_ ?_ ?_ (fun _ _ _ => ⟨rfl, rfl⟩) active ?_ ?_ rest
  · intro f
    exact at_most_mono (inv.bounded f) (holds f)
  · intro f freshG tmpG
    obtain ⟨type, only⟩ := inv.freshOnly p f (fresh freshG) (tmp ▸ tmpG)
    exact ⟨type, fun t held => only t (holds f t held)⟩
  · intro q f _ freshQ tmpQ
    obtain ⟨type, only⟩ := inv.freshOnly q f freshQ tmpQ
    exact ⟨type, fun t held => only t (holds f t held)⟩
  · rintro fd f (skipG | knowsG)
    · exact inv.skipped p fd f (skip ▸ skipG)
    · exact knows fd f knowsG
  · intro q childG
    rw [child] at childG
    exact ⟨inv.embryo p q childG, fun r other childR => other (inv.parents r p q childR childG)⟩
  · intro q r _ childQ
    exact inv.embryo q r childQ

theorem file_inv_entry (f : Nat) (file : File) (g : Task) (active : (task p).active = true) (busy : g.active = true)
    (child : g.child = (task p).child) (others : ∀ f' t, f' ≠ f → Holds m (upd task p g) f' t → Holds m task f' t)
    (bounded : AtMost (Holds m (upd task p g) f) file.ref) (untyped : file.ref = 0 → file.type = .none)
    (fresh : g.fresh = true → g.tmp = some f ∧ file.type = .none ∧ ∀ t, Holds m (upd task p g) f t → t = (p, none))
    (apart : ∀ q, q ≠ p → (task q).fresh = true → (task q).tmp ≠ some f)
    (slots : ∀ fd f, g.skip = some (fd, f) ∨ g.knows = some (fd, f) → (m.proc p).ofile fd = some f) :
    FileInv (m.setFile f file) (upd task p g) := by
  have self : (m.setFile f file).ftable f = file := upd_self _ _ _
  have away (f' : Nat) (other : f' ≠ f) : (m.setFile f file).ftable f' = m.ftable f' := upd_ne other
  refine file_inv_step m _ task p g inv ?_ ?_ ?_ ?_ slots (fun _ _ _ => ⟨rfl, rfl⟩)
    (fun _ => inv.alive p active) ?_ (fun q r _ childQ => inv.embryo q r childQ) (not_resting busy)
  · intro f'
    by_cases same : f' = f
    · rw [same, self]
      exact bounded
    · rw [away f' same]
      exact at_most_mono (inv.bounded f') (fun t => others f' t same)
  · intro f' zero
    by_cases same : f' = f
    · rw [same, self] at zero ⊢
      exact untyped zero
    · rw [away f' same] at zero ⊢
      exact inv.untyped f' zero
  · intro f' freshG tmpG
    obtain ⟨tmp, type, only⟩ := fresh freshG
    cases tmp.symm.trans tmpG
    rw [self]
    exact ⟨type, only⟩
  · intro q f' other freshQ tmpQ
    have different : f' ≠ f := fun same => apart q other freshQ (same ▸ tmpQ)
    obtain ⟨type, only⟩ := inv.freshOnly q f' freshQ tmpQ
    rw [away f' different]
    exact ⟨type, fun t held => only t (others f' t different held)⟩
  · intro q childG
    rw [child] at childG
    exact ⟨inv.embryo p q childG, fun r other childR => other (inv.parents r p q childR childG)⟩

theorem file_inv_alloc (f : Nat) (active : (task p).active = true) (none : (task p).tmp = none)
    (unused : (m.ftable f).ref = 0) :
    FileInv (m.setFile f { m.ftable f with ref := 1 }) (upd task p { task p with tmp := some f, fresh := true }) := by
  have unheld (t : Nat × Option Nat) : ¬ Holds m task f t := by
    have few := inv.bounded f
    rw [unused] at few
    exact at_most_zero few t
  have holds (f' : Nat) (t : Nat × Option Nat)
      (held : Holds (m.setFile f { m.ftable f with ref := 1 }) (upd task p { task p with tmp := some f, fresh := true }) f' t) :
      Holds m task f' t ∨ f' = f ∧ t = (p, Option.none) := by
    obtain ⟨q, fd⟩ := t
    by_cases same : q = p
    · subst same
      cases fd with
      | none =>
        simp only [Holds, upd_self, Option.some.injEq] at held
        exact Or.inr ⟨held.symm, rfl⟩
      | some fd =>
        simp only [Holds, upd_self] at held
        exact Or.inl held
    · cases fd <;> simp only [Holds, upd_ne same] at held <;> exact Or.inl held
  refine file_inv_entry m task p inv f _ _ active active rfl
    (fun f' t other held => (holds f' t held).resolve_right (fun both => other both.1)) ?_ nofun
    (fun _ => ⟨rfl, inv.untyped f unused, fun t held => ((holds f t held).resolve_left (unheld t)).2⟩)
    (fun q _ _ tmp => unheld (q, Option.none) tmp) ?_
  · have few := inv.bounded f
    rw [unused] at few
    exact at_most_add (p, Option.none) few (fun t held => (holds f t held).imp_right And.right)
  · rintro fd f' (skip | knows)
    · exact inv.skipped p fd f' skip
    · exact inv.known p fd f' knows

theorem file_inv_close (f : Nat) (x : Nat × Option Nat) (g : Task) (file : File) (active : (task p).active = true)
    (busy : g.active = true) (child : g.child = (task p).child) (calm : g.fresh = false) (own : x.1 = p)
    (held : Holds m task f x)
    (dropped : ∀ f' t, Holds m (upd task p g) f' t → Holds m task f' t ∧ (f' = f → t ≠ x))
    (ref : file.ref = (m.ftable f).ref - 1) (type : file.ref = 0 → file.type = .none)
    (slots : ∀ fd f, g.skip = some (fd, f) ∨ g.knows = some (fd, f) → (m.proc p).ofile fd = some f) :
    FileInv (m.setFile f file) (upd task p g) := by
  refine file_inv_entry m task p inv f file g active busy child (fun f' t _ now => (dropped f' t now).1) ?_ type
    (fun fresh => ?_) (fun q other fresh tmp => ?_) slots
  · rw [ref]
    exact at_most_remove x (inv.bounded f) held (fun t now => ⟨(dropped f t now).1, (dropped f t now).2 rfl⟩)
  · rw [calm] at fresh
    cases fresh
  · have mine := (inv.freshOnly q f fresh tmp).2 x held
    rw [mine] at own
    exact other own

theorem file_inv_dup (f : Nat) (x y : Nat × Option Nat) (g : Task) (active : (task p).active = true)
    (busy : g.active = true) (child : g.child = (task p).child) (calm : g.fresh = false)
    (held : Holds m task f y) (descriptor : y.2 ≠ none)
    (gained : ∀ f' t, Holds m (upd task p g) f' t → Holds m task f' t ∨ f' = f ∧ t = x)
    (slots : ∀ fd f, g.skip = some (fd, f) ∨ g.knows = some (fd, f) → (m.proc p).ofile fd = some f) :
    FileInv (m.setFile f { m.ftable f with ref := (m.ftable f).ref + 1 }) (upd task p g) := by
  have positive : 1 ≤ (m.ftable f).ref := by
    obtain ⟨bag, covers, size⟩ := inv.bounded f
    have some := Finset.card_pos.mpr ⟨y, covers y held⟩
    omega
  refine file_inv_entry m task p inv f _ g active busy child
    (fun f' t other now => (gained f' t now).resolve_right (fun both => other both.1))
    (at_most_add x (inv.bounded f) (fun t now => (gained f t now).imp_right And.right)) (fun zero => ?_) (fun fresh => ?_)
    (fun q other fresh tmp => ?_) slots
  · have zero : (m.ftable f).ref + 1 = 0 := zero
    omega
  · rw [calm] at fresh
    cases fresh
  · have mine := (inv.freshOnly q f fresh tmp).2 y held
    rw [mine] at descriptor
    exact descriptor rfl

theorem file_inv_opened (f fd : Nat) (file : File) (active : (task p).active = true) (fresh : (task p).fresh = true)
    (tmp : (task p).tmp = some f) (skip : (task p).skip = some (fd, f)) (ref : file.ref = (m.ftable f).ref) :
    FileInv (m.setFile f file) (upd task p { task p with tmp := none, fresh := false, skip := none, knows := none }) := by
  obtain ⟨-, alone⟩ := inv.freshOnly p f fresh tmp
  have slot := inv.skipped p fd f skip
  have holds (f' : Nat) (t : Nat × Option Nat)
      (held : Holds m (upd task p { task p with tmp := none, fresh := false, skip := none, knows := none }) f' t) :
      (Holds m task f' t ∧ t ≠ (p, none)) ∨ f' = f ∧ t = (p, some fd) := by
    obtain ⟨q, e⟩ := t
    by_cases same : q = p
    · subst same
      cases e with
      | none => simp [Holds] at held
      | some e =>
        simp only [Holds, upd_self, ne_eq, reduceCtorEq, not_false_eq_true, and_true] at held
        by_cases here : e = fd
        · subst here
          rw [slot, Option.some.injEq] at held
          exact Or.inr ⟨held.symm, rfl⟩
        · refine Or.inl ⟨⟨held, ?_⟩, by simp⟩
          rw [skip]
          simp only [ne_eq, Option.some.injEq, Prod.mk.injEq, not_and]
          exact fun equal => absurd equal.symm here
    · refine Or.inl ⟨?_, fun equal => same (congrArg Prod.fst equal)⟩
      cases e <;> simpa only [Holds, upd_ne same] using held
  refine file_inv_entry m task p inv f file _ active active rfl
    (fun f' t other now => ((holds f' t now).resolve_right (fun both => other both.1)).1) ?_
    (fun zero => absurd (ref.symm.trans zero) (fresh_referenced m task inv p f tmp)) nofun
    (fun q other _ tmpQ => other (congrArg Prod.fst (alone (q, none) tmpQ))) ?_
  · rw [ref]
    exact at_most_move (p, none) (p, some fd) (inv.bounded f) tmp (fun t now => (holds f t now).imp_right And.right)
  · rintro e f' (never | never) <;> cases never

theorem file_inv_proc (q : Nat) (proc : Proc) (g : Task) (whose : q ≠ p → (task q).active = false)
    (bounded : ∀ f, AtMost (Holds (m.setProc q proc) (upd task p g) f) (m.ftable f).ref)
    (fresh : ∀ r f, (upd task p g r).fresh = true → (upd task p g r).tmp = some f →
      (task r).fresh = true ∧ (task r).tmp = some f ∧
        ∀ t, Holds (m.setProc q proc) (upd task p g) f t → Holds m task f t)
    (slots : ∀ fd f, g.skip = some (fd, f) ∨ g.knows = some (fd, f) → ((m.setProc q proc).proc p).ofile fd = some f)
    (alive : g.active = true → ((m.setProc q proc).proc p).state.alive = true)
    (child : ∀ r, g.child = some r → ((m.setProc q proc).proc r).state = .embryo ∧ ∀ r', r' ≠ p → (task r').child ≠ some r)
    (others : ∀ r r', r ≠ p → (task r).child = some r' → ((m.setProc q proc).proc r').state = .embryo)
    (rest : g.active = false → g = Task.idle) : FileInv (m.setProc q proc) (upd task p g) := by
  refine file_inv_step m _ task p g inv bounded inv.untyped ?_ ?_ slots ?_ alive child others rest
  · intro f freshG tmpG
    obtain ⟨freshP, tmpP, holds⟩ := fresh p f (by rwa [upd_self]) (by rwa [upd_self])
    obtain ⟨type, only⟩ := inv.freshOnly p f freshP tmpP
    exact ⟨type, fun t held => only t (holds t held)⟩
  · intro r f other freshR tmpR
    obtain ⟨-, -, holds⟩ := fresh r f (by rwa [upd_ne other]) (by rwa [upd_ne other])
    obtain ⟨type, only⟩ := inv.freshOnly r f freshR tmpR
    exact ⟨type, fun t held => only t (holds t held)⟩
  · intro r other activeR
    have away : r ≠ q := by
      rintro rfl
      rw [whose other] at activeR
      cases activeR
    simp only [Mem.setProc, upd_ne away, and_self]

theorem child_kept (r : Nat) (child : (task p).child = some r) (q : Nat) (proc : Proc)
    (state : q = r → proc.state = .embryo) :
    ((m.setProc q proc).proc r).state = .embryo ∧ ∀ r', r' ≠ p → (task r').child ≠ some r := by
  refine ⟨?_, fun r' other childR => other (inv.parents r' p r childR child)⟩
  by_cases same : r = q
  · subst same
    simpa only [Mem.setProc, upd_self] using state rfl
  · simp only [Mem.setProc, upd_ne same]
    exact inv.embryo p r child

theorem children_kept (q : Nat) (proc : Proc) (state : (m.proc q).state = .embryo → (∃ r, r ≠ p ∧ (task r).child = some q) →
    proc.state = .embryo) (r r' : Nat) (other : r ≠ p) (child : (task r).child = some r') :
    ((m.setProc q proc).proc r').state = .embryo := by
  have embryo := inv.embryo r r' child
  by_cases same : r' = q
  · subst same
    simpa only [Mem.setProc, upd_self] using state embryo ⟨r, other, child⟩
  · simpa only [Mem.setProc, upd_ne same] using embryo

theorem inactive_of_dead (q : Nat) (dead : (m.proc q).state.alive = false) : (task q).active = false := by
  by_contra active
  rw [inv.alive q (by simpa using active)] at dead
  cases dead

theorem file_inv_own (proc : Proc) (g : Task) (active : (task p).active = true) (busy : g.active = true)
    (state : proc.state = (m.proc p).state) (child : g.child = (task p).child)
    (bounded : ∀ f, AtMost (Holds (m.setProc p proc) (upd task p g) f) (m.ftable f).ref)
    (fresh : ∀ r f, (upd task p g r).fresh = true → (upd task p g r).tmp = some f →
      (task r).fresh = true ∧ (task r).tmp = some f ∧
        ∀ t, Holds (m.setProc p proc) (upd task p g) f t → Holds m task f t)
    (slots : ∀ fd f, g.skip = some (fd, f) ∨ g.knows = some (fd, f) → proc.ofile fd = some f) :
    FileInv (m.setProc p proc) (upd task p g) := by
  have self : (m.setProc p proc).proc p = proc := upd_self _ _ _
  refine file_inv_proc m task p inv p _ _ (fun away => absurd rfl away) bounded fresh ?_ ?_ ?_ ?_ (not_resting busy)
  · rw [self]
    exact slots
  · intro _
    rw [self, state]
    exact inv.alive p active
  · intro r childR
    rw [child] at childR
    refine child_kept m task p inv r childR p _ ?_
    rintro rfl
    rw [state]
    exact inv.embryo p p childR
  · refine children_kept m task p inv p _ (fun embryo _ => ?_)
    rw [state]
    exact embryo

theorem file_inv_same (proc : Proc) (g : Task) (active : (task p).active = true) (busy : g.active = true)
    (state : proc.state = (m.proc p).state) (child : g.child = (task p).child) (fresh : g.fresh = (task p).fresh)
    (tmp : g.tmp = (task p).tmp) (holds : ∀ f t, Holds (m.setProc p proc) (upd task p g) f t → Holds m task f t)
    (slots : ∀ fd f, g.skip = some (fd, f) ∨ g.knows = some (fd, f) → proc.ofile fd = some f) :
    FileInv (m.setProc p proc) (upd task p g) := by
  refine file_inv_own m task p inv proc g active busy state child (fun f => at_most_mono (inv.bounded f) (holds f)) ?_ slots
  intro r f freshR tmpR
  by_cases same : r = p
  · subst same
    rw [upd_self] at freshR tmpR
    exact ⟨fresh ▸ freshR, tmp ▸ tmpR, holds f⟩
  · rw [upd_ne same] at freshR tmpR
    exact ⟨freshR, tmpR, holds f⟩

theorem file_inv_fdalloc (fd f : Nat) (active : (task p).active = true) (free : (m.proc p).ofile fd = none)
    (none : (task p).skip = none) :
    FileInv (m.setProc p { m.proc p with ofile := upd (m.proc p).ofile fd (some f) })
      (upd task p { task p with skip := some (fd, f) }) := by
  have holds (f' : Nat) (t : Nat × Option Nat)
      (held : Holds (m.setProc p { m.proc p with ofile := upd (m.proc p).ofile fd (some f) })
        (upd task p { task p with skip := some (fd, f) }) f' t) : Holds m task f' t := by
    obtain ⟨q, e⟩ := t
    by_cases same : q = p
    · subst same
      cases e with
      | none => simpa only [Holds, upd_self] using held
      | some e =>
        simp only [Holds, Mem.setProc, upd_self] at held
        by_cases here : e = fd
        · subst here
          simp only [upd_self, Option.some.injEq] at held
          exact absurd (by rw [held.1]) held.2
        · rw [upd_ne here] at held
          exact ⟨held.1, by simp [none]⟩
    · cases e <;> simpa only [Holds, Mem.setProc, upd_ne same] using held
  refine file_inv_same m task p inv _ _ active active rfl rfl rfl rfl holds ?_
  rintro e f' (skip | knows)
  · simp only [Option.some.injEq, Prod.mk.injEq] at skip
    obtain ⟨rfl, rfl⟩ := skip
    simp
  · have old := inv.known p e f' knows
    rw [← old]
    apply upd_ne
    rintro rfl
    rw [free] at old
    cases old

theorem file_inv_take (fd f : Nat) (active : (task p).active = true) (none : (task p).tmp = none)
    (noSkip : (task p).skip = Option.none) (slot : (m.proc p).ofile fd = some f) :
    FileInv (m.setProc p { m.proc p with ofile := upd (m.proc p).ofile fd Option.none })
      (upd task p { task p with tmp := some f, fresh := false, knows := Option.none }) := by
  have holds (f' : Nat) (t : Nat × Option Nat)
      (held : Holds (m.setProc p { m.proc p with ofile := upd (m.proc p).ofile fd Option.none })
        (upd task p { task p with tmp := some f, fresh := false, knows := Option.none }) f' t) :
      (Holds m task f' t ∧ t ≠ (p, some fd)) ∨ f' = f ∧ t = (p, Option.none) := by
    obtain ⟨q, e⟩ := t
    by_cases same : q = p
    · subst same
      cases e with
      | none =>
        simp only [Holds, upd_self, Option.some.injEq] at held
        exact Or.inr ⟨held.symm, rfl⟩
      | some e =>
        simp only [Holds, Mem.setProc, upd_self] at held
        by_cases here : e = fd
        · subst here
          simp at held
        · rw [upd_ne here] at held
          exact Or.inl ⟨held, by simpa using here⟩
    · refine Or.inl ⟨?_, fun equal => same (congrArg Prod.fst equal)⟩
      cases e <;> simpa only [Holds, Mem.setProc, upd_ne same] using held
  have mine : Holds m task f (p, some fd) := ⟨slot, by simp [noSkip]⟩
  refine file_inv_own m task p inv _ _ active active rfl rfl ?_ ?_ ?_
  · intro f'
    by_cases same : f' = f
    · subst same
      exact at_most_move (p, some fd) (p, Option.none) (inv.bounded f') mine (fun t now => (holds f' t now).imp_right And.right)
    · exact at_most_mono (inv.bounded f') (fun t now => ((holds f' t now).resolve_right (fun both => same both.1)).1)
  · intro r f' fresh tmp
    by_cases same : r = p
    · subst same
      rw [upd_self] at fresh
      cases fresh
    · rw [upd_ne same] at fresh tmp
      refine ⟨fresh, tmp, fun t now => ?_⟩
      rcases holds f' t now with old | ⟨rfl, -⟩
      · exact old.1
      · have only := (inv.freshOnly r f' fresh tmp).2 (p, some fd) mine
        cases only
  · rintro e f' (skip | knows)
    · simp [noSkip] at skip
    · cases knows

theorem file_inv_forget (fd f : Nat) (active : (task p).active = true) (skip : (task p).skip = some (fd, f)) :
    FileInv (m.setProc p { m.proc p with ofile := upd (m.proc p).ofile fd none })
      (upd task p { task p with skip := none, knows := none }) := by
  have holds (f' : Nat) (t : Nat × Option Nat)
      (held : Holds (m.setProc p { m.proc p with ofile := upd (m.proc p).ofile fd none })
        (upd task p { task p with skip := none, knows := none }) f' t) : Holds m task f' t := by
    obtain ⟨q, e⟩ := t
    by_cases same : q = p
    · subst same
      cases e with
      | none => simpa only [Holds, upd_self] using held
      | some e =>
        simp only [Holds, Mem.setProc, upd_self] at held
        by_cases here : e = fd
        · subst here
          simp at held
        · rw [upd_ne here] at held
          refine ⟨held.1, ?_⟩
          rw [skip]
          simp only [ne_eq, Option.some.injEq, Prod.mk.injEq, not_and]
          exact fun equal => absurd equal.symm here
    · cases e <;> simpa only [Holds, Mem.setProc, upd_ne same] using held
  refine file_inv_same m task p inv _ _ active active rfl rfl rfl rfl holds ?_
  rintro e f' (never | never) <;> cases never

omit inv in
theorem other_of_inactive {q : Nat} (active : (task p).active = true) (asleep : (task q).active = false) : p ≠ q := by
  rintro rfl
  rw [active] at asleep
  cases asleep

theorem child_inactive (q : Nat) (child : (task p).child = some q) : (task q).active = false := by
  apply inactive_of_dead m task inv
  rw [inv.embryo p q child]
  rfl

theorem file_inv_give (q fd f : Nat) (active : (task p).active = true) (child : (task p).child = some q)
    (tmp : (task p).tmp = some f) (calm : (task p).fresh = false) (noSkip : (task p).skip = none) :
    FileInv (m.setProc q { m.proc q with ofile := upd (m.proc q).ofile fd (some f) })
      (upd task p { task p with tmp := none, knows := none }) := by
  have asleep := child_inactive m task p inv q child
  have away := other_of_inactive task p active asleep
  have holds (f' : Nat) (t : Nat × Option Nat)
      (held : Holds (m.setProc q { m.proc q with ofile := upd (m.proc q).ofile fd (some f) })
        (upd task p { task p with tmp := none, knows := none }) f' t) :
      (Holds m task f' t ∧ t ≠ (p, none)) ∨ f' = f ∧ t = (q, some fd) := by
    obtain ⟨r, e⟩ := t
    cases e with
    | none =>
      by_cases same : r = p
      · subst same
        simp [Holds] at held
      · refine Or.inl ⟨?_, fun equal => same (congrArg Prod.fst equal)⟩
        simpa only [Holds, upd_ne same] using held
    | some e =>
      have skip : (upd task p { task p with tmp := none, knows := none } r).skip = (task r).skip := by
        by_cases same : r = p
        · subst same
          rw [upd_self]
        · rw [upd_ne same]
      simp only [Holds, skip] at held
      by_cases here : r = q
      · subst here
        simp only [Mem.setProc, upd_self] at held
        by_cases slot : e = fd
        · subst slot
          simp only [upd_self, Option.some.injEq] at held
          exact Or.inr ⟨held.1.symm, rfl⟩
        · rw [upd_ne slot] at held
          exact Or.inl ⟨held, by simp⟩
      · simp only [Mem.setProc, upd_ne here] at held
        exact Or.inl ⟨held, by simp⟩
  refine file_inv_proc m task p inv q _ _ (fun _ => asleep) ?_ ?_ ?_ ?_ ?_ ?_ (not_resting active)
  · intro f'
    by_cases same : f' = f
    · subst same
      exact at_most_move (p, none) (q, some fd) (inv.bounded f') tmp (fun t now => (holds f' t now).imp_right And.right)
    · exact at_most_mono (inv.bounded f') (fun t now => ((holds f' t now).resolve_right (fun both => same both.1)).1)
  · intro r f' fresh tmpR
    by_cases same : r = p
    · subst same
      rw [upd_self] at tmpR
      cases tmpR
    · rw [upd_ne same] at fresh tmpR
      refine ⟨fresh, tmpR, fun t now => ?_⟩
      rcases holds f' t now with old | ⟨rfl, -⟩
      · exact old.1
      · have only := (inv.freshOnly r f' fresh tmpR).2 (p, none) tmp
        exact absurd (congrArg Prod.fst only).symm same
  · rintro e f' (skip | knows)
    · simp [noSkip] at skip
    · cases knows
  · intro _
    simp only [Mem.setProc, upd_ne away]
    exact inv.alive p active
  · intro r childR
    refine child_kept m task p inv r childR q _ (fun _ => ?_)
    exact inv.embryo p q child
  · exact children_kept m task p inv q _ (fun embryo _ => embryo)

theorem file_inv_state (q : Nat) (proc : Proc) (g : Task) (whose : q ≠ p → (task q).active = false)
    (ofile : proc.ofile = (m.proc q).ofile) (tmp : g.tmp = (task p).tmp) (fresh : g.fresh = (task p).fresh)
    (skip : g.skip = (task p).skip) (knows : g.knows = (task p).knows)
    (alive : g.active = true → ((m.setProc q proc).proc p).state.alive = true)
    (child : ∀ r, g.child = some r → ((m.setProc q proc).proc r).state = .embryo ∧ ∀ r', r' ≠ p → (task r').child ≠ some r)
    (others : ∀ r r', r ≠ p → (task r).child = some r' → ((m.setProc q proc).proc r').state = .embryo)
    (rest : g.active = false → g = Task.idle) : FileInv (m.setProc q proc) (upd task p g) := by
  have tables (r : Nat) : ((m.setProc q proc).proc r).ofile = (m.proc r).ofile := by
    by_cases same : r = q
    · subst same
      simp only [Mem.setProc, upd_self, ofile]
    · simp only [Mem.setProc, upd_ne same]
  have same (r : Nat) : (upd task p g r).tmp = (task r).tmp ∧ (upd task p g r).fresh = (task r).fresh ∧
      (upd task p g r).skip = (task r).skip := by
    by_cases here : r = p
    · subst here
      rw [upd_self]
      exact ⟨tmp, fresh, skip⟩
    · rw [upd_ne here]
      exact ⟨rfl, rfl, rfl⟩
  have holds (f : Nat) (t : Nat × Option Nat) (held : Holds (m.setProc q proc) (upd task p g) f t) : Holds m task f t := by
    obtain ⟨r, e⟩ := t
    cases e with
    | none => simpa only [Holds, (same r).1] using held
    | some e => simpa only [Holds, tables r, (same r).2.2] using held
  refine file_inv_proc m task p inv q proc g whose ?_ ?_ ?_ alive child others rest
  · intro f
    exact at_most_mono (inv.bounded f) (holds f)
  · intro r f freshR tmpR
    rw [(same r).2.1] at freshR
    rw [(same r).1] at tmpR
    exact ⟨freshR, tmpR, holds f⟩
  · intro fd f claim
    rw [tables p]
    rcases claim with skipG | knowsG
    · exact inv.skipped p fd f (skip ▸ skipG)
    · exact inv.known p fd f (knows ▸ knowsG)

theorem file_inv_child (q : Nat) (state : ProcState) (c : Option Nat) (active : (task p).active = true)
    (asleep : (task q).active = false)
    (child : ∀ r, c = some r → ((m.setProc q { m.proc q with state := state }).proc r).state = .embryo ∧
      ∀ r', r' ≠ p → (task r').child ≠ some r)
    (others : (m.proc q).state = .embryo → (∃ r, r ≠ p ∧ (task r).child = some q) → state = .embryo) :
    FileInv (m.setProc q { m.proc q with state := state }) (upd task p { task p with child := c }) := by
  refine file_inv_state m task p inv q _ _ (fun _ => asleep) rfl rfl rfl rfl rfl ?_ child (children_kept m task p inv q _ others)
    (not_resting active)
  intro _
  simp only [Mem.setProc, upd_ne (other_of_inactive task p active asleep)]
  exact inv.alive p active

theorem file_inv_allocproc (q : Nat) (active : (task p).active = true) (unused : (m.proc q).state = .unused) :
    FileInv (m.setProc q { m.proc q with state := .embryo }) (upd task p { task p with child := some q }) := by
  have asleep := inactive_of_dead m task inv q (by rw [unused]; rfl)
  refine file_inv_child m task p inv q _ _ active asleep (fun r childR => ?_) (fun _ _ => rfl)
  cases childR
  refine ⟨by simp [Mem.setProc], fun r' _ childR => ?_⟩
  have embryo := inv.embryo r' q childR
  rw [unused] at embryo
  cases embryo

theorem file_inv_release (q : Nat) (state : ProcState) (active : (task p).active = true)
    (child : (task p).child = some q) :
    FileInv (m.setProc q { m.proc q with state := state }) (upd task p { task p with child := none }) := by
  refine file_inv_child m task p inv q state none active (child_inactive m task p inv q child) nofun ?_
  intro _ ⟨r, other, childR⟩
  exact absurd (inv.parents r p q childR child) other

theorem file_inv_exit (state : ProcState) (active : (task p).active = true) (tmp : (task p).tmp = none)
    (fresh : (task p).fresh = false) (skip : (task p).skip = none) (knows : (task p).knows = none) :
    FileInv (m.setProc p { m.proc p with state := state }) (upd task p Task.idle) := by
  refine file_inv_state m task p inv p _ _ (fun away => absurd rfl away) rfl tmp.symm fresh.symm skip.symm knows.symm
    ?_ ?_ ?_ (fun _ => rfl)
  · intro never
    cases never
  · intro r never
    cases never
  · refine children_kept m task p inv p _ (fun embryo _ => ?_)
    have alive := inv.alive p active
    rw [embryo] at alive
    cases alive

theorem file_inv_reap (q : Nat) (active : (task p).active = true) (zombie : (m.proc q).state = .zombie) :
    FileInv (m.setProc q { m.proc q with state := .unused }) (upd task p (task p)) := by
  have asleep := inactive_of_dead m task inv q (by rw [zombie]; rfl)
  have never : (m.proc q).state ≠ .embryo := by simp [zombie]
  refine file_inv_child m task p inv q .unused (task p).child active asleep (fun r childR => ?_) (fun embryo => absurd embryo never)
  refine child_kept m task p inv r childR q _ ?_
  rintro rfl
  exact absurd (inv.embryo p q childR) never

end

end Xv6
