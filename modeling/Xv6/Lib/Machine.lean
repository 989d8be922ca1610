import Xv6.Lib.Prog

set_option autoImplicit false

namespace Xv6

-- Processes share the state; each is executing a program that ends with the
-- process's own data L (the references and locks it keeps between calls).
structure Config (F : Type → Type 1) (σ L : Type) : Type 1 where
  shared : σ
  thread : Nat → Prog F L

section

variable {F : Type → Type 1} {σ L G : Type} (exec : {β : Type} → F β → σ → Res σ β)
  (calls : Nat → L → Prog F L → Prop) (cond : Event F σ → Prop)

-- Interleavings: any idle process may start any call it is allowed to make, and
-- any process may execute its next section. The trace lists executed sections.
inductive Reach (start : Config F σ L) : List (Event F σ) → Config F σ L → Prop where
  | init : Reach start [] start
  | call (trace : List (Event F σ)) (c : Config F σ L) (p : Nat) (l : L) (prog : Prog F L)
      (before : Reach start trace c) (idle : c.thread p = .ret l) (allowed : calls p l prog) :
      Reach start trace ⟨c.shared, upd c.thread p prog⟩
  | step {β : Type} (trace : List (Event F σ)) (c : Config F σ L) (p : Nat) (act : F β)
      (next : β → Prog F L) (r : β) (s : σ) (before : Reach start trace c)
      (at_ : c.thread p = .op act next) (executed : exec act c.shared = .ok r s)
      (met : cond ⟨p, act, r, c.shared, s⟩) :
      Reach start (trace ++ [⟨p, act, r, c.shared, s⟩]) ⟨s, upd c.thread p (next r)⟩

variable (inv : List (Event F σ) → σ → (Nat → G) → Prop)

-- A program is safe for process p with ghost data g when each of its sections,
-- executed in any state of the invariant, reestablishes the invariant for some
-- new ghost data of p alone, whatever the other processes did in between.
def Safe (p : Nat) (final : L → G → Prop) : Prog F L → G → Prop
  | .ret l, g => final l g
  | .op act next, g => ∀ trace s ghosts, ghosts p = g → inv trace s ghosts →
      ∀ r s', exec act s = .ok r s' → cond ⟨p, act, r, s, s'⟩ →
        ∃ g', inv (trace ++ [⟨p, act, r, s, s'⟩]) s' (upd ghosts p g') ∧
          Safe p final (next r) g'

end

section

variable {F : Type → Type 1} {σ L A G : Type} {exec : {β : Type} → F β → σ → Res σ β}
  {calls : Nat → L → Prog F L → Prop} {cond : Event F σ → Prop}
  {inv : List (Event F σ) → σ → (Nat → G) → Prop}

theorem safe_mono {p : Nat} {P Q : L → G → Prop} {c : Prog F L} {g : G}
    (safe : Safe exec cond inv p P c g) (weaker : ∀ l g', P l g' → Q l g') : Safe exec cond inv p Q c g := by
  induction c generalizing g with
  | ret l => exact weaker l g safe
  | op act next ih =>
    intro trace s ghosts own holds r s' executed met
    obtain ⟨g', kept, rest⟩ := safe trace s ghosts own holds r s' executed met
    exact ⟨g', kept, ih r rest⟩

theorem safe_bind {p : Nat} {Q : L → G → Prop} {c : Prog F A} {f : A → Prog F L} {g : G}
    (safe : Safe exec cond inv p (fun a g' => Safe exec cond inv p Q (f a) g') c g) :
    Safe exec cond inv p Q (c >>= f) g := by
  induction c generalizing g with
  | ret a => exact safe
  | op act next ih =>
    intro trace s ghosts own holds r s' executed met
    obtain ⟨g', kept, rest⟩ := safe trace s ghosts own holds r s' executed met
    exact ⟨g', kept, ih r rest⟩

theorem safe_call {p : Nat} {P : A → G → Prop} {Q : L → G → Prop} {c : Prog F A} {f : A → Prog F L} {g : G}
    (callee : Safe exec cond inv p P c g) (rest : ∀ a g', P a g' → Safe exec cond inv p Q (f a) g') :
    Safe exec cond inv p Q (c >>= f) g :=
  safe_bind (safe_mono callee rest)

-- Safe calls keep the invariant in every reachable configuration.
theorem reach_invariant {start : Config F σ L} (final : L → G → Prop)
    (initial : ∃ ghosts, inv [] start.shared ghosts ∧
      ∀ p, Safe exec cond inv p final (start.thread p) (ghosts p))
    (safe : ∀ p l g prog, final l g → calls p l prog → Safe exec cond inv p final prog g)
    {trace : List (Event F σ)} {c : Config F σ L} (reached : Reach exec calls cond start trace c) :
    ∃ ghosts, inv trace c.shared ghosts ∧ ∀ p, Safe exec cond inv p final (c.thread p) (ghosts p) := by
  induction reached with
  | init => exact initial
  | call trace c p l prog before idle allowed ih =>
    obtain ⟨ghosts, holds, threads⟩ := ih
    refine ⟨ghosts, holds, fun q => ?_⟩
    by_cases same : q = p
    · subst same
      have ended := threads q
      rw [idle] at ended
      simpa only [upd_self] using safe q l (ghosts q) prog ended allowed
    · simpa only [upd_ne same] using threads q
  | step trace c p act next r s before at_ executed met ih =>
    obtain ⟨ghosts, holds, threads⟩ := ih
    have own := threads p
    rw [at_] at own
    obtain ⟨g', kept, rest⟩ := own trace c.shared ghosts rfl holds r s executed met
    refine ⟨upd ghosts p g', kept, fun q => ?_⟩
    by_cases same : q = p
    · subst same
      simpa only [upd_self] using rest
    · simpa only [upd_ne same] using threads q

-- Programs whose sections move their process's ghost data by a fixed relation.
def Follows (moves : {β : Type} → F β → β → G → G → Prop) (final : L → G → Prop) : Prog F L → G → Prop
  | .ret l, g => final l g
  | .op act next, g => ∀ r, ∃ g', moves act r g g' ∧ Follows moves final (next r) g'

theorem follows_safe {p : Nat} (moves : {β : Type} → F β → β → G → G → Prop) {final : L → G → Prop}
    (keeps : ∀ {β : Type} (act : F β) (r : β) (g' : G) (trace : List (Event F σ)) (s s' : σ) (ghosts : Nat → G),
      inv trace s ghosts → exec act s = .ok r s' → cond ⟨p, act, r, s, s'⟩ → moves act r (ghosts p) g' →
        inv (trace ++ [⟨p, act, r, s, s'⟩]) s' (upd ghosts p g'))
    {c : Prog F L} {g : G} (follows : Follows moves final c g) : Safe exec cond inv p final c g := by
  induction c generalizing g with
  | ret l => exact follows
  | op act next ih =>
    intro trace s ghosts own holds r s' executed met
    obtain ⟨g', moved, rest⟩ := follows r
    rw [← own] at moved
    exact ⟨g', keeps act r g' trace s s' ghosts holds executed met moved, ih r rest⟩

theorem reach_trace_meets {start : Config F σ L} {trace : List (Event F σ)} {c : Config F σ L}
    (reached : Reach exec calls cond start trace c) : ∀ e ∈ trace, cond e := by
  induction reached with
  | init => simp
  | call _ _ _ _ _ _ _ _ ih => exact ih
  | step trace c p act next r s _ _ _ met ih =>
    intro e member
    rcases List.mem_append.mp member with old | new
    · exact ih e old
    · rw [List.mem_singleton.mp new]
      exact met

theorem reach_of_trace {cond' : Event F σ → Prop} {start : Config F σ L} {trace : List (Event F σ)} {c : Config F σ L}
    (reached : Reach exec calls cond start trace c) (met : ∀ e ∈ trace, cond' e) : Reach exec calls cond' start trace c := by
  induction reached with
  | init => exact .init
  | call trace c p l prog _ idle allowed ih => exact .call trace c p l prog (ih met) idle allowed
  | step trace c p act next r s _ at_ executed _ ih =>
    have before := ih fun e member => met e (List.mem_append_left _ member)
    exact .step trace c p act next r s before at_ executed (met _ (List.mem_append_right _ (List.mem_singleton_self _)))

end

section

variable {F : Type → Type 1} {σ L : Type} (exec : {β : Type} → F β → σ → Res σ β)

def Config.advance (c : Config F σ L) (p : Nat) : Option (Event F σ × Config F σ L) :=
  match c.thread p with
  | .ret _ => none
  | .op act next =>
    match exec act c.shared with
    | .ok r s => some (⟨p, act, r, c.shared, s⟩, ⟨s, upd c.thread p (next r)⟩)
    | .panic _ => none
    | .blocked => none

def Config.schedule (c : Config F σ L) : List Nat → Option (List (Event F σ) × Config F σ L)
  | [] => some ([], c)
  | p :: rest => (c.advance exec p).bind fun first =>
    (first.2.schedule rest).map fun later => (first.1 :: later.1, later.2)

def Config.panicOf (c : Config F σ L) (p : Nat) : Option String :=
  match c.thread p with
  | .ret _ => none
  | .op act _ =>
    match exec act c.shared with
    | .ok _ _ => none
    | .panic msg => some msg
    | .blocked => none

variable {exec} {calls : Nat → L → Prog F L → Prop} {cond : Event F σ → Prop}

theorem advance_reach {start c next : Config F σ L} {p : Nat} {trace : List (Event F σ)} {e : Event F σ} (met : cond e)
    (reached : Reach exec calls cond start trace c) (advanced : c.advance exec p = some (e, next)) :
    Reach exec calls cond start (trace ++ [e]) next := by
  simp only [Config.advance] at advanced
  cases at_ : c.thread p with
  | ret l => simp [at_] at advanced
  | op act k =>
    rw [at_] at advanced
    cases executed : exec act c.shared with
    | ok r s =>
      simp only [executed, Option.some.injEq, Prod.mk.injEq] at advanced
      rw [← advanced.1] at met ⊢
      rw [← advanced.2]
      exact .step trace c p act k r s reached at_ executed met
    | panic msg => simp [executed] at advanced
    | blocked => simp [executed] at advanced

theorem run_reach (always : ∀ e, cond e) {start : Config F σ L} {trace : List (Event F σ)} {s last : σ} {l : L} (p : Nat)
    (prog : Prog F L) (thread : Nat → Prog F L) (reached : Reach exec calls cond start trace ⟨s, upd thread p prog⟩)
    (finished : prog.run exec s = .ok l last) :
    ∃ more, Reach exec calls cond start more ⟨last, upd thread p (.ret l)⟩ := by
  induction prog generalizing s trace with
  | ret a =>
    cases finished
    exact ⟨trace, reached⟩
  | op act next ih =>
    simp only [Prog.run] at finished
    cases executed : exec act s with
    | ok r s' =>
      simp only [executed] at finished
      have stepped := Reach.step trace _ p act next r s' reached (upd_self _ _ _) executed (always _)
      have same : upd (upd thread p (.op act next)) p (next r) = upd thread p (next r) := by
        funext q
        by_cases here : q = p
        · rw [here, upd_self, upd_self]
        · rw [upd_ne here, upd_ne here, upd_ne here]
      rw [same] at stepped
      exact ih r stepped finished
    | panic msg => simp [executed] at finished
    | blocked => simp [executed] at finished

theorem schedule_reach (always : ∀ e, cond e) {start c last : Config F σ L} {trace more : List (Event F σ)} (pids : List Nat)
    (reached : Reach exec calls cond start trace c) (scheduled : c.schedule exec pids = some (more, last)) :
    Reach exec calls cond start (trace ++ more) last := by
  induction pids generalizing c trace more with
  | nil =>
    cases scheduled
    rw [List.append_nil]
    exact reached
  | cons p rest ih =>
    obtain ⟨⟨e, next⟩, advanced, later⟩ := Option.bind_eq_some_iff.mp scheduled
    obtain ⟨⟨after, final⟩, continued, same⟩ := Option.map_eq_some_iff.mp later
    cases same
    have whole := ih (advance_reach (always e) reached advanced) continued
    rwa [List.append_assoc, List.singleton_append] at whole

end

section

variable {F : Type → Type 1} {σ L : Type} (exec : {β : Type} → F β → σ → Res σ β)

-- Executable runs.
inductive Turn (F : Type → Type 1) (L : Type) : Type 1 where
  | step (p : Nat)
  | call (p : Nat) (l : L) (prog : Prog F L)

def Turn.Allowed (calls : Nat → L → Prog F L → Prop) : Turn F L → Prop
  | .step _ => True
  | .call p l prog => calls p l prog

def Config.idle (c : Config F σ L) (p : Nat) : Option L :=
  match c.thread p with
  | .ret l => some l
  | .op _ _ => none

def Config.play [DecidableEq L] (c : Config F σ L) : List (Turn F L) → Option (List (Event F σ) × Config F σ L)
  | [] => some ([], c)
  | .step p :: rest => (c.advance exec p).bind fun first =>
    (first.2.play rest).map fun later => (first.1 :: later.1, later.2)
  | .call p l prog :: rest => if c.idle p = some l then Config.play ⟨c.shared, upd c.thread p prog⟩ rest else none

variable {exec} {calls : Nat → L → Prog F L → Prop} {cond : Event F σ → Prop}

theorem idle_some {c : Config F σ L} {p : Nat} {l : L} (idle : c.idle p = some l) : c.thread p = .ret l := by
  simp only [Config.idle] at idle
  cases at_ : c.thread p with
  | ret l' =>
    rw [at_] at idle
    rw [Option.some.inj idle]
  | op act next => simp [at_] at idle

theorem play_reach [DecidableEq L] {start c last : Config F σ L} {trace more : List (Event F σ)}
    (turns : List (Turn F L)) (met : ∀ e ∈ more, cond e) (allowed : ∀ turn ∈ turns, turn.Allowed calls)
    (reached : Reach exec calls cond start trace c) (played : c.play exec turns = some (more, last)) :
    Reach exec calls cond start (trace ++ more) last := by
  induction turns generalizing c trace more with
  | nil =>
    cases played
    rw [List.append_nil]
    exact reached
  | cons turn rest ih =>
    have later := fun t member => allowed t (List.mem_cons_of_mem turn member)
    cases turn with
    | step p =>
      obtain ⟨⟨e, next⟩, advanced, continued⟩ := Option.bind_eq_some_iff.mp played
      obtain ⟨⟨after, final⟩, finished, same⟩ := Option.map_eq_some_iff.mp continued
      cases same
      have first := met e List.mem_cons_self
      have whole := ih (fun e' member => met e' (List.mem_cons_of_mem e member)) later
        (advance_reach first reached advanced) finished
      rwa [List.append_assoc, List.singleton_append] at whole
    | call p l prog =>
      simp only [Config.play] at played
      split at played
      · next idle =>
          have start := allowed (.call p l prog) List.mem_cons_self
          exact ih met later (.call trace c p l prog reached (idle_some idle) start) played
      · cases played

end

end Xv6
