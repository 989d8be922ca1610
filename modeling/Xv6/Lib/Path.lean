import Xv6.Lib.Prog

set_option autoImplicit false

namespace Xv6

namespace Prog

variable {F : Type → Type 1} {α β : Type}

-- Every section of the program, on every path, satisfies P.
def Each (P : {β : Type} → F β → Prop) : Prog F α → Prop
  | .ret _ => True
  | .op act next => P act ∧ ∀ r, (next r).Each P

theorem each_lift {P : {β : Type} → F β → Prop} {act : F α} (holds : P act) : (lift act).Each P :=
  ⟨holds, fun _ => trivial⟩

theorem each_bind {P : {β : Type} → F β → Prop} {c : Prog F α} {f : α → Prog F β} (first : c.Each P)
    (rest : ∀ a, (f a).Each P) : (c >>= f).Each P := by
  induction c with
  | ret a => exact rest a
  | op act next ih => exact ⟨first.1, fun r => ih r (first.2 r)⟩

theorem each_loop {P : {β : Type} → F β → Prop} {body : Nat → Prog F Unit} (each : ∀ i, (body i).Each P)
    (i count : Nat) : (loop body i count).Each P := by
  induction count generalizing i with
  | zero => trivial
  | succ count ih => exact each_bind (each i) (fun _ => ih (i + 1))

theorem each_mono {P Q : {β : Type} → F β → Prop} {c : Prog F α} (each : c.Each P)
    (weaker : ∀ {γ : Type} (act : F γ), P act → Q act) : c.Each Q := by
  induction c with
  | ret a => trivial
  | op act next ih => exact ⟨weaker act each.1, fun r => ih r (each.2 r)⟩

section

variable {σ : Type} (exec : {β : Type} → F β → σ → Res σ β)

-- The sections along one path and the final result. Each section may return
-- whatever it returns in some state: other processes may run in between.
inductive Path : Prog F α → List ((γ : Type) × F γ) → α → Prop where
  | ret (a : α) : Path (.ret a) [] a
  | op {γ : Type} (act : F γ) (next : γ → Prog F α) (r : γ) (rest : List ((γ : Type) × F γ)) (a : α) (s s' : σ)
      (returned : exec act s = .ok r s') (later : Path (next r) rest a) : Path (.op act next) (⟨γ, act⟩ :: rest) a

-- On every path the weights of the sections add up to total.
def Weighs (weight : {β : Type} → F β → Int) : Prog F α → Int → Prop
  | .ret _, total => total = 0
  | .op act next, total => ∀ r s s', exec act s = .ok r s' → (next r).Weighs weight (total - weight act)

end

variable {σ : Type} {exec : {β : Type} → F β → σ → Res σ β} {weight : {β : Type} → F β → Int}

theorem weighs_bind {c : Prog F α} {f : α → Prog F β} {m n : Int} (first : c.Weighs exec weight m)
    (rest : ∀ a, (f a).Weighs exec weight n) : (c >>= f).Weighs exec weight (m + n) := by
  induction c generalizing m with
  | ret a =>
    have zero : m = 0 := first
    rw [zero, Int.zero_add]
    exact rest a
  | op act next ih =>
    intro r s s' returned
    have later := ih r (first r s s' returned)
    rwa [show m - weight act + n = m + n - weight act by omega] at later

theorem weighs_each {c : Prog F α} (each : c.Each (fun act => weight act = 0)) : c.Weighs exec weight 0 := by
  induction c with
  | ret a => rfl
  | op act next ih =>
    intro r s s' _
    show (next r).Weighs exec weight (0 - weight act)
    rw [each.1, Int.sub_zero]
    exact ih r (each.2 r)

theorem weighs_path {c : Prog F α} {n : Int} {a : α} {path : List ((γ : Type) × F γ)} (weighs : c.Weighs exec weight n)
    (taken : c.Path exec path a) : (path.map fun s => weight s.2).sum = n := by
  induction taken generalizing n with
  | ret a => exact weighs.symm
  | op act next r rest a s s' returned later ih =>
    have sum := ih (weighs r s s' returned)
    simp only [List.map_cons, List.sum_cons, sum]
    omega

section

variable {cond : Event F σ → Prop} {bad bad' : String → Prop} {pid : Nat} {P : {β : Type} → F β → Prop} {R : σ → σ → Prop}

theorem wp_and {c : Prog F α} {s : σ} {Q Q' : α → σ → Prop} (first : c.wp exec cond bad pid s Q)
    (second : c.wp exec cond bad' pid s Q') : c.wp exec cond bad pid s (fun a last => Q a last ∧ Q' a last) := by
  induction c generalizing s with
  | ret a => exact ⟨first, second⟩
  | op act next ih =>
    simp only [wp] at first second ⊢
    cases step : exec act s with
    | ok r last =>
      simp only [step] at first second ⊢
      exact fun met => ih r (first met) (second met)
    | panic msg => simpa only [step] using first
    | blocked => trivial

theorem wp_each (refl : ∀ s, R s s) (trans : ∀ s t u, R s t → R t u → R s u)
    (step : ∀ {γ : Type} (act : F γ) (s next : σ) (r : γ), P act → exec act s = .ok r next → R s next)
    (calm : ∀ {γ : Type} (act : F γ) (s : σ) (msg : String), P act → exec act s = .panic msg → ¬ bad msg)
    {c : Prog F α} (each : c.Each P) (s : σ) : c.wp exec cond bad pid s (fun _ last => R s last) := by
  induction c generalizing s with
  | ret a => exact refl s
  | op act next ih =>
    simp only [wp]
    cases executed : exec act s with
    | ok r last =>
      refine fun _ => wp_mono (ih r (each.2 r) last) fun a final later => ?_
      exact trans s last final (step act s last r each.1 executed) later
    | panic msg => exact calm act s msg each.1 executed
    | blocked => trivial

end

end Prog

end Xv6
