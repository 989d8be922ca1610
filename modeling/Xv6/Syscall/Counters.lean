import Mathlib.Data.BitVec
import Mathlib.Algebra.BigOperators.Group.Finset.Basic
import Mathlib.Algebra.BigOperators.Ring.Finset
import Mathlib.Order.Interval.Finset.Nat
import Mathlib.Tactic.Abel
import Mathlib.Tactic.IntervalCases
import Xv6.Lib.Count
import Xv6.Lib.Machine

set_option autoImplicit false

namespace Xv6.Counters

open Prog

abbrev Counts : Type := Nat → BitVec 32

inductive Entry where
  | fork | exit | wait | pipe | read | kill | exec | fstat | chdir | dup | getpid | sbrk | sleep | uptime | open_ | write | mknod
  | unlink | link | mkdir | close | sysnumcall

def table : List Entry :=
  [.fork, .exit, .wait, .pipe, .read, .kill, .exec, .fstat, .chdir, .dup, .getpid, .sbrk, .sleep, .uptime, .open_, .write, .mknod,
    .unlink, .link, .mkdir, .close, .sysnumcall]

def Entry.number : Entry → Nat
  | .fork => 1
  | .exit => 2
  | .wait => 3
  | .pipe => 4
  | .read => 5
  | .kill => 6
  | .exec => 7
  | .fstat => 8
  | .chdir => 9
  | .dup => 10
  | .getpid => 11
  | .sbrk => 12
  | .sleep => 13
  | .uptime => 14
  | .open_ => 15
  | .write => 16
  | .mknod => 17
  | .unlink => 18
  | .link => 19
  | .mkdir => 20
  | .close => 21
  | .sysnumcall => 22

def syscalls (num : Int) : Option Entry := if 0 < num ∧ num < 23 then table[num.toNat - 1]? else none

-- One step each: sysCalls[0]++ in a call of number num, sysCalls[num]++, and what
-- sys_sysnumcall prints together with its memset.
inductive CountOp : Type → Type 1 where
  | total (num : Nat) : CountOp Unit
  | own (num : Nat) : CountOp Unit
  | report : CountOp Counts

def CountOp.exec {β : Type} : CountOp β → Counts → Res Counts β
  | .total _, s => .ok () (upd s 0 (s 0 + 1))
  | .own num, s => .ok () (upd s num (s num + 1))
  | .report, s => .ok s fun _ => 0

-- if(num==SYS_fork) sysCalls[num]++; else if(num==SYS_exit) ...
def count (num : Nat) : List Entry → Prog CountOp Unit
  | [] => pure ()
  | entry :: rest => if num = entry.number then .lift (.own num) else count num rest

def Entry.body : Entry → Prog CountOp Unit
  | .sysnumcall => do
    let _ ← .lift .report
    pure ()
  | _ => pure ()

def syscall (num : Int) : Prog CountOp Unit :=
  match syscalls num with
  | none => pure ()
  | some entry => do
    .lift (.total num.toNat)
    count num.toNat table
    entry.body

def Calls (_ : Nat) (_ : Unit) (prog : Prog CountOp Unit) : Prop := ∃ num, prog = syscall num

abbrev CountEvent : Type 1 := Event CountOp Counts

def boot : Config CountOp Counts Unit := ⟨fun _ => 0, fun _ => .ret ()⟩

section

variable {β : Type}

def CountOp.isTotal : CountOp β → Bool
  | .total _ => true
  | _ => false

def CountOp.isOwn : CountOp β → Bool
  | .own _ => true
  | _ => false

def CountOp.isReport : CountOp β → Bool
  | .report => true
  | _ => false

def CountOp.calls (num : Nat) : CountOp β → Bool
  | .total n => n == num
  | _ => false

def CountOp.printed : CountOp β → β → Option Counts
  | .report, s => some s
  | _, _ => none

end

def totalsBy (trace : List CountEvent) (p : Nat) : Nat := trace.countP fun e => e.pid == p && e.act.isTotal

def ownsBy (trace : List CountEvent) (p : Nat) : Nat := trace.countP fun e => e.pid == p && e.act.isOwn

def Between (trace : List CountEvent) (p : Nat) : Prop := ownsBy trace p < totalsBy trace p

def dispatched (trace : List CountEvent) (num : Nat) : Nat := trace.countP fun e => e.act.calls num

def reports (trace : List CountEvent) : List Counts := trace.filterMap fun e => e.act.printed e.res

def reported (trace : List CountEvent) (num : Nat) : BitVec 32 := ((reports trace).map fun r => r num).sum

def AddsUp (s : Counts) : Prop := s 0 = ∑ num ∈ Finset.Icc 1 22, s num

-- No report is made while some CPU is between its two increments.
def Undisturbed (trace : List CountEvent) : Prop :=
  ∀ before e after, trace = before ++ e :: after → e.act.isReport = true → ∀ p, ¬ Between before p

theorem undisturbed_init {trace : List CountEvent} {e : CountEvent} (quiet : Undisturbed (trace ++ [e])) : Undisturbed trace := by
  intro before e' after same report
  exact quiet before e' (after ++ [e]) (by rw [same, List.append_assoc, List.cons_append]) report

structure Inv (trace : List CountEvent) (s : Counts) (pending : Nat → Option Nat) : Prop where
  between : ∀ p, totalsBy trace p = ownsBy trace p + if (pending p).isSome then 1 else 0
  account : ∀ num ∈ Finset.Icc 1 22, ∃ k : Int, Counted (fun p => pending p = some num) k ∧
    (dispatched trace num : BitVec 32) = reported trace num + s num + k
  total : ∑ num ∈ Finset.Icc 1 22, (dispatched trace num : BitVec 32) = reported trace 0 + s 0
  sums : Undisturbed trace → ∀ r ∈ reports trace, AddsUp r

def moves {β : Type} : CountOp β → β → Option Nat → Option Nat → Prop
  | .total num, _, g, g' => g = none ∧ num ∈ Finset.Icc 1 22 ∧ g' = some num
  | .own num, _, g, g' => g = some num ∧ num ∈ Finset.Icc 1 22 ∧ g' = none
  | .report, _, g, g' => g = none ∧ g' = none

theorem count_own {num : Nat} (valid : num ∈ Finset.Icc 1 22) : count num table = .lift (.own num) := by
  obtain ⟨low, high⟩ := Finset.mem_Icc.mp valid
  interval_cases num <;> rfl

theorem syscall_follows (num : Int) : Follows moves (fun _ g => g = none) (syscall num) none := by
  unfold syscall
  cases found : syscalls num with
  | none => rfl
  | some entry =>
    have valid : num.toNat ∈ Finset.Icc 1 22 := by
      unfold syscalls at found
      split at found
      · exact Finset.mem_Icc.mpr (by omega)
      · cases found
    dsimp only
    rw [count_own valid]
    refine fun _ => ⟨some num.toNat, ⟨rfl, valid, rfl⟩, fun _ => ⟨none, ⟨rfl, valid, rfl⟩, ?_⟩⟩
    cases entry with
    | sysnumcall => exact fun _ => ⟨none, ⟨rfl, rfl⟩, rfl⟩
    | _ => rfl

theorem reports_add_up {rs : List Counts} (sums : ∀ r ∈ rs, AddsUp r) :
    (rs.map fun r => r 0).sum = ∑ num ∈ Finset.Icc 1 22, (rs.map fun r => r num).sum := by
  induction rs with
  | nil => simp
  | cons r rest ih =>
    simp only [List.map_cons, List.sum_cons, Finset.sum_add_distrib]
    rw [ih fun r' later => sums r' (List.mem_cons_of_mem r later), sums r List.mem_cons_self]

section

variable {trace : List CountEvent} {s : Counts} {pending : Nat → Option Nat}

theorem calm_none (inv : Inv trace s pending) (calm : ∀ p, ¬ Between trace p) (p : Nat) : pending p = none := by
  have both := inv.between p
  have level : ¬ ownsBy trace p < totalsBy trace p := calm p
  cases now : pending p with
  | none => rfl
  | some num =>
    rw [now, Option.isSome_some, if_pos rfl] at both
    omega

theorem calm_account (inv : Inv trace s pending) (calm : ∀ p, ¬ Between trace p) {num : Nat} (valid : num ∈ Finset.Icc 1 22) :
    (dispatched trace num : BitVec 32) = reported trace num + s num := by
  obtain ⟨k, ⟨members, iff, size⟩, sum⟩ := inv.account num valid
  have empty : members = ∅ := by
    refine Finset.eq_empty_of_forall_notMem fun p member => ?_
    have now : pending p = some num := (iff p).mp member
    rw [calm_none inv calm p] at now
    cases now
  rw [size, empty, Finset.card_empty, Nat.cast_zero, Int.cast_zero, add_zero] at sum
  exact sum

theorem calm_adds_up (inv : Inv trace s pending) (calm : ∀ p, ¬ Between trace p) (sums : ∀ r ∈ reports trace, AddsUp r) :
    AddsUp s := by
  have total := inv.total
  rw [Finset.sum_congr rfl fun num valid => calm_account inv calm valid, Finset.sum_add_distrib] at total
  unfold reported at total
  rw [reports_add_up sums] at total
  exact (add_left_cancel total).symm

theorem between_step {β : Type} {act : CountOp β} {r : β} {p : Nat} {g' : Option Nat} {s' : Counts}
    (between : ∀ p, totalsBy trace p = ownsBy trace p + if (pending p).isSome then 1 else 0) (moved : moves act r (pending p) g') (q : Nat) :
    totalsBy (trace ++ [⟨p, act, r, s, s'⟩]) q =
      ownsBy (trace ++ [⟨p, act, r, s, s'⟩]) q + if (upd pending p g' q).isSome then 1 else 0 := by
  have old := between q
  simp only [totalsBy, ownsBy, List.countP_append, List.countP_singleton] at old ⊢
  by_cases same : q = p
  · subst same
    cases act with
    | _ => simp_all [moves, CountOp.isTotal, CountOp.isOwn]
  · have other : (p == q) = false := by simpa using fun equal => same equal.symm
    simp [other, upd_ne same, old]

theorem inv_total {p num : Nat} (inv : Inv trace s pending) (out : pending p = none) (valid : num ∈ Finset.Icc 1 22) :
    Inv (trace ++ [⟨p, .total num, (), s, upd s 0 (s 0 + 1)⟩]) (upd s 0 (s 0 + 1)) (upd pending p (some num)) := by
  have printed : reports (trace ++ [⟨p, .total num, (), s, upd s 0 (s 0 + 1)⟩]) = reports trace := by
    simp [reports, CountOp.printed]
  have called (n : Nat) : dispatched (trace ++ [⟨p, .total num, (), s, upd s 0 (s 0 + 1)⟩]) n =
      dispatched trace n + if num = n then 1 else 0 := by
    simp [dispatched, List.countP_append, List.countP_singleton, CountOp.calls]
  refine ⟨between_step inv.between ⟨out, valid, rfl⟩, fun n here => ?_, ?_, fun quiet => ?_⟩
  · obtain ⟨k, counted, sum⟩ := inv.account n here
    have positive := (Finset.mem_Icc.mp here).1
    unfold reported at sum ⊢
    rw [printed, called, upd_ne (by omega)]
    by_cases same : num = n
    · subst same
      refine ⟨k + 1, counted_enter p counted (by simp [out]) (upd_self _ _ _) fun q other => by rw [upd_ne other], ?_⟩
      push_cast
      rw [if_pos rfl, sum]
      abel
    · refine ⟨k, counted_congr counted fun q => ?_, ?_⟩
      · by_cases own : q = p
        · rw [own, upd_self, out]
          simp [same]
        · rw [upd_ne own]
      · rw [if_neg same, Nat.add_zero, sum]
  · have total := inv.total
    unfold reported at total ⊢
    rw [printed, upd_self, ← add_assoc, ← total]
    simp only [called, Nat.cast_add, Finset.sum_add_distrib, Nat.cast_ite, Nat.cast_one, Nat.cast_zero]
    rw [Finset.sum_ite_eq, if_pos valid]
  · rw [printed]
    exact inv.sums (undisturbed_init quiet)

theorem inv_own {p num : Nat} (inv : Inv trace s pending) (own : pending p = some num) (valid : num ∈ Finset.Icc 1 22) :
    Inv (trace ++ [⟨p, .own num, (), s, upd s num (s num + 1)⟩]) (upd s num (s num + 1)) (upd pending p none) := by
  have printed : reports (trace ++ [⟨p, .own num, (), s, upd s num (s num + 1)⟩]) = reports trace := by
    simp [reports, CountOp.printed]
  have called (n : Nat) : dispatched (trace ++ [⟨p, .own num, (), s, upd s num (s num + 1)⟩]) n = dispatched trace n := by
    simp [dispatched, List.countP_append, CountOp.calls]
  have positive := (Finset.mem_Icc.mp valid).1
  refine ⟨between_step inv.between ⟨own, valid, rfl⟩, fun n here => ?_, ?_, fun quiet => ?_⟩
  · obtain ⟨k, counted, sum⟩ := inv.account n here
    unfold reported at sum ⊢
    rw [printed, called]
    by_cases same : n = num
    · subst same
      refine ⟨k - 1, counted_leave p counted own (by simp) fun q other => by rw [upd_ne other], ?_⟩
      push_cast
      rw [upd_self, sum]
      abel
    · refine ⟨k, counted_congr counted fun q => ?_, ?_⟩
      · by_cases mine : q = p
        · rw [mine, upd_self, own]
          simpa using fun equal => same equal.symm
        · rw [upd_ne mine]
      · rw [upd_ne same, sum]
  · have total := inv.total
    unfold reported at total ⊢
    rw [printed, upd_ne (by omega), ← total]
    exact Finset.sum_congr rfl fun n _ => by rw [called]
  · rw [printed]
    exact inv.sums (undisturbed_init quiet)

theorem inv_report {p : Nat} (inv : Inv trace s pending) (out : pending p = none) :
    Inv (trace ++ [⟨p, .report, s, s, fun _ => 0⟩]) (fun _ => 0) (upd pending p none) := by
  have printed : reports (trace ++ [⟨p, .report, s, s, fun _ => 0⟩]) = reports trace ++ [s] := by
    simp [reports, CountOp.printed]
  have called (n : Nat) : dispatched (trace ++ [⟨p, .report, s, s, fun _ => 0⟩]) n = dispatched trace n := by
    simp [dispatched, List.countP_append, CountOp.calls]
  have sum (n : Nat) : reported (trace ++ [⟨p, .report, s, s, fun _ => 0⟩]) n = reported trace n + s n := by
    unfold reported
    rw [printed, List.map_append, List.sum_append, List.map_singleton, List.sum_singleton]
  refine ⟨between_step inv.between ⟨out, rfl⟩, fun n here => ?_, ?_, fun quiet => ?_⟩
  · obtain ⟨k, counted, old⟩ := inv.account n here
    rw [← out, upd_same, called, sum, add_zero]
    exact ⟨k, counted, old⟩
  · rw [sum, add_zero, ← inv.total]
    exact Finset.sum_congr rfl fun n _ => by rw [called]
  · have before := inv.sums (undisturbed_init quiet)
    have now := calm_adds_up inv (quiet trace _ [] rfl rfl) before
    rw [printed]
    intro r member
    rcases List.mem_append.mp member with old | new
    · exact before r old
    · rw [List.mem_singleton.mp new]
      exact now

theorem inv_step {β : Type} {p : Nat} (act : CountOp β) (r : β) (g' : Option Nat) (s' : Counts) (inv : Inv trace s pending)
    (executed : act.exec s = .ok r s') (moved : moves act r (pending p) g') :
    Inv (trace ++ [⟨p, act, r, s, s'⟩]) s' (upd pending p g') := by
  cases act with
  | total num =>
    cases executed
    obtain ⟨out, valid, rfl⟩ := moved
    exact inv_total inv out valid
  | own num =>
    cases executed
    obtain ⟨own, valid, rfl⟩ := moved
    exact inv_own inv own valid
  | report =>
    cases executed
    obtain ⟨out, rfl⟩ := moved
    exact inv_report inv out

end

theorem boot_inv : Inv [] boot.shared fun _ => none := by
  refine ⟨fun p => rfl, fun num _ => ⟨0, counted_none nofun, ?_⟩, ?_, nofun⟩
  · simp [dispatched, reported, reports, boot]
  · simp [dispatched, reported, reports, boot]

-- In every run without a report between the two increments of a call.
theorem counters_add_up (trace : List CountEvent) (c : Config CountOp Counts Unit)
    (reached : Reach CountOp.exec Calls (fun _ => True) boot trace c) (quiet : Undisturbed trace) (calm : ∀ p, ¬ Between trace p) :
    AddsUp c.shared ∧ (∀ r ∈ reports trace, AddsUp r) ∧
      ∀ num ∈ Finset.Icc 1 22, (dispatched trace num : BitVec 32) = reported trace num + c.shared num := by
  have safe (p : Nat) (l : Unit) (g : Option Nat) (prog : Prog CountOp Unit) (final : g = none) (allowed : Calls p l prog) :
      Safe CountOp.exec (fun _ => True) Inv p (fun _ g => g = none) prog g := by
    obtain ⟨num, rfl⟩ := allowed
    rw [final]
    exact follows_safe moves (fun act r g' trace s s' pending inv executed _ moved => inv_step act r g' s' inv executed moved)
      (syscall_follows num)
  obtain ⟨pending, inv, -⟩ := reach_invariant (fun _ g => g = none) ⟨fun _ => none, boot_inv, fun _ => rfl⟩ safe reached
  have sums := inv.sums quiet
  exact ⟨calm_adds_up inv calm sums, sums, fun num valid => calm_account inv calm valid⟩

theorem counters_add_up_getpid : ∃ trace c, Reach CountOp.exec Calls (fun _ => True) boot trace c ∧ AddsUp c.shared ∧
    c.shared 11 = 1 := by
  have called : Reach CountOp.exec Calls (fun _ => True) boot [] ⟨boot.shared, upd boot.thread 0 (syscall 11)⟩ :=
    .call [] boot 0 () _ .init rfl ⟨11, rfl⟩
  have first := Reach.step _ _ 0 (.total 11) _ () _ called rfl rfl trivial
  have second := Reach.step _ _ 0 (.own 11) _ () _ first rfl rfl trivial
  refine ⟨_, _, second, (counters_add_up _ _ second ?_ ?_).1, rfl⟩
  · intro before e after same report
    have member : e ∈ before ++ e :: after := List.mem_append_right _ List.mem_cons_self
    rw [← same] at member
    rcases List.mem_cons.mp member with rfl | later
    · cases report
    · rw [List.mem_singleton.mp later] at report
      cases report
  · intro p
    simp [Between, ownsBy, totalsBy, List.countP_cons, CountOp.isTotal, CountOp.isOwn]

-- CPU 1 reports and clears the counters between the two increments of CPU 0's getpid.
theorem report_splits_call : ∃ trace c, Reach CountOp.exec Calls (fun _ => True) boot trace c ∧ (∀ p, ¬ Between trace p) ∧
    c.shared 0 = 0 ∧ c.shared 11 = 1 ∧ ¬ AddsUp c.shared := by
  have called : Reach CountOp.exec Calls (fun _ => True) boot [] ⟨boot.shared, upd boot.thread 0 (syscall 11)⟩ :=
    .call [] boot 0 () _ .init rfl ⟨11, rfl⟩
  have getpid := Reach.step _ _ 0 (.total 11) _ () _ called rfl rfl trivial
  have other := Reach.call _ _ 1 () _ getpid rfl ⟨22, rfl⟩
  have counted := Reach.step _ _ 1 (.total 22) _ () _ other rfl rfl trivial
  have counted' := Reach.step _ _ 1 (.own 22) _ () _ counted rfl rfl trivial
  have reported := Reach.step _ _ 1 .report _ _ _ counted' rfl rfl trivial
  have late := Reach.step _ _ 0 (.own 11) _ () _ reported rfl rfl trivial
  refine ⟨_, _, late, fun p => ?_, rfl, rfl, by unfold AddsUp; decide⟩
  simp only [Between, ownsBy, totalsBy, List.countP_append, List.countP_singleton, List.countP_nil, CountOp.isTotal, CountOp.isOwn,
    Bool.and_true, Bool.and_false]
  omega

end Xv6.Counters
