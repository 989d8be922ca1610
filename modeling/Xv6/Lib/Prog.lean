import Mathlib.Tactic.Common
import Mathlib.Tactic.Ring

set_option autoImplicit false

namespace Xv6

universe u

def upd {α : Type u} (f : Nat → α) (i : Nat) (v : α) : Nat → α := fun j => if j = i then v else f j

@[simp] theorem upd_self {α : Type u} (f : Nat → α) (i : Nat) (v : α) : upd f i v i = v := if_pos rfl

theorem upd_ne {α : Type u} {f : Nat → α} {i j : Nat} {v : α} (different : j ≠ i) : upd f i v j = f j :=
  if_neg different

theorem upd_same {α : Type u} (f : Nat → α) (i : Nat) : upd f i (f i) = f := by
  funext j
  by_cases here : j = i
  · rw [here, upd_self]
  · rw [upd_ne here]

theorem upd_twice {α : Type u} (f : Nat → α) (i : Nat) (v w : α) : upd (upd f i v) i w = upd f i w := by
  funext j
  by_cases here : j = i
  · rw [here, upd_self, upd_self]
  · rw [upd_ne here, upd_ne here, upd_ne here]

-- Outcome of one atomic section. A blocked section leaves no trace: the
-- process is asleep, or retries, until another process changes the state.
inductive Res (σ β : Type) where
  | ok (value : β) (state : σ)
  | panic (msg : String)
  | blocked

-- Programs are trees of atomic sections F. The continuation receives the
-- section's result, so every return path of a C function is a branch.
inductive Prog (F : Type → Type 1) (α : Type) : Type 1 where
  | ret (value : α)
  | op {β : Type} (act : F β) (next : β → Prog F α)

structure Event (F : Type → Type 1) (σ : Type) : Type 1 where
  pid : Nat
  {β : Type}
  act : F β
  res : β
  pre : σ
  post : σ

namespace Prog

variable {F : Type → Type 1} {σ α β γ : Type}

def bind (c : Prog F α) (f : α → Prog F β) : Prog F β :=
  match c with
  | .ret a => f a
  | .op o k => .op o (fun r => (k r).bind f)

instance : Monad (Prog F) where
  pure := .ret
  bind := Prog.bind

def lift (o : F α) : Prog F α := .op o .ret

@[simp] theorem pure_eq (a : α) : (pure a : Prog F α) = .ret a := rfl

@[simp] theorem ret_bind (a : α) (f : α → Prog F β) : (.ret a : Prog F α) >>= f = f a := rfl

@[simp] theorem op_bind (o : F γ) (k : γ → Prog F α) (f : α → Prog F β) :
    (.op o k : Prog F α) >>= f = .op o (fun r => k r >>= f) := rfl

@[simp] theorem lift_bind (o : F α) (f : α → Prog F β) : lift o >>= f = .op o f := rfl

theorem bind_assoc (c : Prog F α) (f : α → Prog F β) (g : β → Prog F γ) :
    c >>= f >>= g = c >>= fun a => f a >>= g := by
  induction c with
  | ret a => rfl
  | op o k ih => simp only [op_bind, ih]

theorem bind_unit (c : Prog F Unit) : (c >>= fun _ => .ret ()) = c := by
  induction c with
  | ret a => rfl
  | op o k ih => rw [op_bind, funext ih]

def loop (body : Nat → Prog F Unit) : Nat → Nat → Prog F Unit
  | _, 0 => .ret ()
  | i, count + 1 => body i >>= fun _ => loop body (i + 1) count

variable (exec : {β : Type} → F β → σ → Res σ β)

def run : Prog F α → σ → Res σ α
  | .ret a, s => .ok a s
  | .op o k, s =>
    match exec o s with
    | .ok r next => (k r).run next
    | .panic msg => .panic msg
    | .blocked => .blocked

theorem run_bind_ok (c : Prog F α) (f : α → Prog F β) (s last : σ) (b : β) :
    (c >>= f).run exec s = .ok b last ↔
      ∃ a middle, c.run exec s = .ok a middle ∧ (f a).run exec middle = .ok b last := by
  induction c generalizing s with
  | ret a =>
    constructor
    · intro finished
      exact ⟨a, s, rfl, finished⟩
    · rintro ⟨a', middle, same, finished⟩
      cases same
      exact finished
  | op o k ih =>
    simp only [op_bind, run]
    cases exec o s with
    | ok r next => exact ih r next
    | panic msg => simp
    | blocked => simp

theorem run_congr {c : Prog F α} {f g : α → Prog F β} (same : ∀ a s, (f a).run exec s = (g a).run exec s) (s : σ) :
    (c >>= f).run exec s = (c >>= g).run exec s := by
  induction c generalizing s with
  | ret a => exact same a s
  | op o k ih =>
    rw [op_bind, op_bind, run, run]
    cases exec o s with
    | ok r next => exact ih r next
    | panic msg => rfl
    | blocked => rfl

theorem run_bind_eq (c : Prog F α) (f : α → Prog F β) (s : σ) : (c >>= f).run exec s =
    match c.run exec s with
    | .ok a last => (f a).run exec last
    | .panic msg => .panic msg
    | .blocked => .blocked := by
  induction c generalizing s with
  | ret a => rfl
  | op o k ih =>
    rw [op_bind, run, run]
    cases exec o s with
    | ok r next => exact ih r next
    | panic msg => rfl
    | blocked => rfl

theorem run_bind {c : Prog F α} {s middle : σ} {a : α} (first : c.run exec s = .ok a middle) (f : α → Prog F β) :
    (c >>= f).run exec s = (f a).run exec middle := by
  rw [run_bind_eq, first]

theorem run_lift (o : F α) (s : σ) : (lift o).run exec s = exec o s := by
  simp only [lift, run]
  cases exec o s <;> rfl

def Completes (cond : Event F σ → Prop) (pid : Nat) : Prog F α → σ → α → σ → Prop
  | .ret a, s, value, last => value = a ∧ last = s
  | .op o k, s, value, last => ∃ r next, exec o s = .ok r next ∧ cond ⟨pid, o, r, s, next⟩ ∧
      Completes cond pid (k r) next value last

theorem completes_run (cond : Event F σ → Prop) (pid : Nat) (c : Prog F α) (s last : σ) (value : α)
    (done : c.Completes exec cond pid s value last) : c.run exec s = .ok value last := by
  induction c generalizing s with
  | ret a =>
    obtain ⟨rfl, rfl⟩ := done
    rfl
  | op o k ih =>
    obtain ⟨r, next, step, -, rest⟩ := done
    simp only [run, step]
    exact ih r next rest

theorem run_completes (pid : Nat) (c : Prog F α) (s last : σ) (value : α)
    (done : c.run exec s = .ok value last) : c.Completes exec (fun _ => True) pid s value last := by
  induction c generalizing s with
  | ret a =>
    cases done
    exact ⟨rfl, rfl⟩
  | op o k ih =>
    simp only [run] at done
    cases step : exec o s with
    | ok r next =>
      simp only [step] at done
      exact ⟨r, next, step, trivial, ih r next done⟩
    | panic msg => simp [step] at done
    | blocked => simp [step] at done

-- Weakest precondition of a sequential run. Sections are assumed to satisfy
-- cond; panics whose message is in bad must be unreachable.
def wp (cond : Event F σ → Prop) (bad : String → Prop) (pid : Nat) :
    Prog F α → σ → (α → σ → Prop) → Prop
  | .ret a, s, post => post a s
  | .op o k, s, post =>
    match exec o s with
    | .ok r next => cond ⟨pid, o, r, s, next⟩ → (k r).wp cond bad pid next post
    | .panic msg => ¬ bad msg
    | .blocked => True

-- The sections executed, and the state reached, when the run stops after some prefix.
def Stops (pid : Nat) : Prog F α → σ → List (Event F σ) → σ → Prop
  | .ret _, s, trace, last => trace = [] ∧ last = s
  | .op o k, s, trace, last => (trace = [] ∧ last = s) ∨ ∃ r next rest, exec o s = .ok r next ∧
      trace = ⟨pid, o, r, s, next⟩ :: rest ∧ Stops pid (k r) next rest last

-- P holds at every point where the run may stop, post when it finishes.
def Along (pid : Nat) (P : List (Event F σ) → σ → Prop) (post : α → List (Event F σ) → σ → Prop) :
    Prog F α → List (Event F σ) → σ → Prop
  | .ret a, trace, s => P trace s ∧ post a trace s
  | .op o k, trace, s => P trace s ∧
      ∀ r next, exec o s = .ok r next → Along pid P post (k r) (trace ++ [⟨pid, o, r, s, next⟩]) next

variable {exec} {cond : Event F σ → Prop} {bad : String → Prop} {pid : Nat}

theorem wp_mono {c : Prog F α} {s : σ} {P Q : α → σ → Prop}
    (holds : c.wp exec cond bad pid s P) (weaker : ∀ a last, P a last → Q a last) :
    c.wp exec cond bad pid s Q := by
  induction c generalizing s with
  | ret a => exact weaker a s holds
  | op o k ih =>
    simp only [wp] at holds ⊢
    cases step : exec o s with
    | ok r next =>
      simp only [step] at holds ⊢
      exact fun met => ih r (holds met)
    | panic msg => simpa only [step] using holds
    | blocked => trivial

theorem wp_bind {c : Prog F α} {f : α → Prog F β} {s : σ} {Q : β → σ → Prop}
    (holds : c.wp exec cond bad pid s (fun a middle => (f a).wp exec cond bad pid middle Q)) :
    (c >>= f).wp exec cond bad pid s Q := by
  induction c generalizing s with
  | ret a => exact holds
  | op o k ih =>
    simp only [op_bind, wp] at holds ⊢
    cases step : exec o s with
    | ok r next =>
      simp only [step] at holds ⊢
      exact fun met => ih r (holds met)
    | panic msg => simpa only [step] using holds
    | blocked => trivial

theorem wp_call {c : Prog F α} {f : α → Prog F β} {s : σ} {P : α → σ → Prop} {Q : β → σ → Prop}
    (callee : c.wp exec cond bad pid s P)
    (rest : ∀ a middle, P a middle → (f a).wp exec cond bad pid middle Q) :
    (c >>= f).wp exec cond bad pid s Q :=
  wp_bind (wp_mono callee rest)

theorem wp_lift {o : F α} {s : σ} {Q : α → σ → Prop} (done : ∀ r next, exec o s = .ok r next → Q r next)
    (calm : ∀ msg, exec o s = .panic msg → ¬ bad msg) : (lift o).wp exec cond bad pid s Q := by
  simp only [lift, wp]
  cases step : exec o s with
  | ok r next => exact fun _ => done r next step
  | panic msg => exact calm msg step
  | blocked => trivial

theorem wp_true (c : Prog F α) (quiet : ∀ msg, ¬ bad msg) (s : σ) : c.wp exec cond bad pid s (fun _ _ => True) := by
  induction c generalizing s with
  | ret a => trivial
  | op o k ih =>
    simp only [wp]
    cases exec o s with
    | ok r next => exact fun _ => ih r next
    | panic msg => exact quiet msg
    | blocked => trivial

theorem wp_completes {c : Prog F α} {s last : σ} {value : α} {Q : α → σ → Prop}
    (holds : c.wp exec cond bad pid s Q) (done : c.Completes exec cond pid s value last) : Q value last := by
  induction c generalizing s with
  | ret a =>
    obtain ⟨rfl, rfl⟩ := done
    exact holds
  | op o k ih =>
    obtain ⟨r, next, step, met, rest⟩ := done
    simp only [wp, step] at holds
    exact ih r (holds met) rest

theorem wp_total {c : Prog F α} {s : σ} {Q : α → σ → Prop} (ready : ∀ {β : Type} (o : F β) (s : σ), exec o s ≠ .blocked)
    (holds : c.wp exec (fun _ => True) (fun _ => True) pid s Q) :
    ∃ value last, c.Completes exec (fun _ => True) pid s value last ∧ Q value last := by
  induction c generalizing s with
  | ret a => exact ⟨a, s, ⟨rfl, rfl⟩, holds⟩
  | op o k ih =>
    simp only [wp] at holds
    cases step : exec o s with
    | ok r next =>
      simp only [step] at holds
      obtain ⟨value, last, done, post⟩ := ih r (holds trivial)
      exact ⟨value, last, ⟨r, next, step, trivial, done⟩, post⟩
    | panic msg =>
      simp only [step] at holds
      exact absurd trivial holds
    | blocked => exact absurd step (ready o s)

theorem along_stops {P : List (Event F σ) → σ → Prop} {post : α → List (Event F σ) → σ → Prop}
    {c : Prog F α} {before trace : List (Event F σ)} {s last : σ}
    (along : c.Along exec pid P post before s) (stopped : c.Stops exec pid s trace last) :
    P (before ++ trace) last := by
  induction c generalizing before trace s with
  | ret a =>
    obtain ⟨rfl, rfl⟩ := stopped
    rw [List.append_nil]
    exact along.1
  | op o k ih =>
    rcases stopped with ⟨rfl, rfl⟩ | ⟨r, next, rest, step, rfl, later⟩
    · rw [List.append_nil]
      exact along.1
    · simpa only [List.append_assoc, List.singleton_append] using ih r (along.2 r next step) later

theorem along_run {P : List (Event F σ) → σ → Prop} {post : α → List (Event F σ) → σ → Prop}
    {c : Prog F α} {before : List (Event F σ)} {s last : σ} {a : α}
    (along : c.Along exec pid P post before s) (finished : c.run exec s = .ok a last) :
    ∃ trace, post a trace last := by
  induction c generalizing before s with
  | ret a =>
    cases finished
    exact ⟨before, along.2⟩
  | op o k ih =>
    simp only [run] at finished
    cases step : exec o s with
    | ok r next =>
      simp only [step] at finished
      exact ih r (along.2 r next step) finished
    | panic msg => simp [step] at finished
    | blocked => simp [step] at finished

theorem along_mono {P : List (Event F σ) → σ → Prop} {Q R : α → List (Event F σ) → σ → Prop}
    {c : Prog F α} {trace : List (Event F σ)} {s : σ} (along : c.Along exec pid P Q trace s)
    (weaker : ∀ a after last, Q a after last → R a after last) : c.Along exec pid P R trace s := by
  induction c generalizing trace s with
  | ret a => exact ⟨along.1, weaker a trace s along.2⟩
  | op o k ih => exact ⟨along.1, fun r next step => ih r (along.2 r next step)⟩

theorem along_bind {P : List (Event F σ) → σ → Prop} {post : β → List (Event F σ) → σ → Prop}
    {c : Prog F α} {f : α → Prog F β} {trace : List (Event F σ)} {s : σ}
    (along : c.Along exec pid P (fun a after last => (f a).Along exec pid P post after last) trace s) :
    (c >>= f).Along exec pid P post trace s := by
  induction c generalizing trace s with
  | ret a => exact along.2
  | op o k ih => exact ⟨along.1, fun r next step => ih r (along.2 r next step)⟩

theorem along_loop {P : List (Event F σ) → σ → Prop} (act : Nat → F Unit) (n : Nat)
    (I : Nat → List (Event F σ) → σ → Prop) (holds : ∀ i trace s, I i trace s → P trace s)
    (step : ∀ i trace s next, i < n → I i trace s → exec (act i) s = .ok () next →
      I (i + 1) (trace ++ [⟨pid, act i, (), s, next⟩]) next)
    (i count : Nat) (total : i + count = n) (trace : List (Event F σ)) (s : σ) (start : I i trace s) :
    (loop (fun j => lift (act j)) i count).Along exec pid P (fun _ after last => I n after last) trace s := by
  induction count generalizing i trace s with
  | zero =>
    have done : i = n := by omega
    exact ⟨holds i trace s start, done ▸ start⟩
  | succ count ih =>
    refine ⟨holds i trace s start, fun r next executed => ?_⟩
    exact ih (i + 1) (by omega) _ next (step i trace s next (by omega) start executed)

end Prog

end Xv6
