import Xv6.Syscall.Args

set_option autoImplicit false

namespace Xv6.Syscall

open Vm (u32 kernbase)

def Safe (u : Caller) {α : Type} (c : ArgM α) (post : α → Prop) : Prop :=
  ∀ log, (∀ a ∈ log, a < u.sz) → c.wp (Load.exec u) (fun _ => True) (fun _ => True) 0 log
    fun r log' => (∀ a ∈ log', a < u.sz) ∧ post r

structure Caller.Ok (u : Caller) : Prop where
  small : u.sz < kernbase
  present : ∀ a < u.sz, u.mapped a = true

def Caller.word (u : Caller) (a : Nat) : Nat :=
  (u.byte a).toNat + 256 * ((u.byte (a + 1)).toNat + 256 * ((u.byte (a + 2)).toNat + 256 * (u.byte (a + 3)).toNat))

def Caller.String (u : Caller) (a len : Nat) : Prop := u.byte (a + len) = 0 ∧ ∀ j < len, u.byte (a + j) ≠ 0

-- The pointers of argv from index i on, each to a string; after the last there is a 0.
def Gathered (u : Caller) (uargv : Nat) : Nat → List Nat → Prop
  | i, [] => uargv + 4 * i + 4 ≤ u.sz ∧ u.word (uargv + 4 * i) = 0
  | i, uarg :: rest => (uargv + 4 * i + 4 ≤ u.sz ∧ uarg = u.word (uargv + 4 * i) ∧ uarg ≠ 0 ∧
      ∃ len, uarg + len < u.sz ∧ u.String uarg len) ∧ Gathered u uargv (i + 1) rest

theorem word_lt (u : Caller) (a : Nat) : u.word a < 2 ^ 32 := by
  have b0 := (u.byte a).toNat_lt
  have b1 := (u.byte (a + 1)).toNat_lt
  have b2 := (u.byte (a + 2)).toNat_lt
  have b3 := (u.byte (a + 3)).toNat_lt
  unfold Caller.word
  omega

section

variable {u : Caller} {α β : Type}

theorem safe_pure {r : α} {post : α → Prop} (holds : post r) : Safe u (pure r) post := fun _ below => ⟨below, holds⟩

theorem safe_bind {c : ArgM α} {f : α → ArgM β} {mid : α → Prop} {post : β → Prop} (first : Safe u c mid)
    (next : ∀ r, mid r → Safe u (f r) post) : Safe u (c >>= f) post :=
  fun log below => Prog.wp_call (first log below) fun r log' met => next r met.2 log' met.1

theorem safe_load (ok : u.Ok) {a : Nat} (below : a < u.sz) : Safe u (load a) fun c => c = u.byte a := by
  intro log inside
  have step : Load.exec u (.load a) log = .ok (u.byte a) (log ++ [a]) := if_pos (ok.present a below)
  unfold load Prog.lift Prog.wp
  rw [step]
  refine fun _ => ⟨fun b member => ?_, rfl⟩
  rcases List.mem_append.mp member with old | new
  · exact inside b old
  · exact List.mem_singleton.mp new ▸ below

theorem safe_runs {c : ArgM α} {post : α → Prop} (safe : Safe u c post) :
    ∃ r log, c.run (Load.exec u) [] = .ok r log ∧ (∀ a ∈ log, a < u.sz) ∧ post r := by
  have ready : ∀ {β : Type} (o : Load β) (log : List Nat), Load.exec u o log ≠ .blocked := by
    intro β o log
    cases o with
    | load a =>
      unfold Load.exec
      dsimp only
      split
      · exact nofun
      · exact nofun
  obtain ⟨r, log, done, below, holds⟩ := Prog.wp_total ready (safe [] nofun)
  exact ⟨r, log, Prog.completes_run _ _ _ _ _ _ _ done, below, holds⟩

variable (ok : u.Ok)

include ok

theorem loadInt_safe {a : Nat} (inside : a + 4 ≤ u.sz) : Safe u (loadInt a) fun v => v = u.word a := by
  have small := ok.small
  have address : ∀ i < 4, u32 (a + i) = a + i := fun i low => Nat.mod_eq_of_lt (by unfold kernbase at small; omega)
  unfold loadInt
  rw [address 1 (by decide), address 2 (by decide), address 3 (by decide)]
  refine safe_bind (safe_load ok (by omega)) fun b0 first => ?_
  refine safe_bind (safe_load ok (by omega)) fun b1 second => ?_
  refine safe_bind (safe_load ok (by omega)) fun b2 third => ?_
  refine safe_bind (safe_load ok (by omega)) fun b3 fourth => safe_pure ?_
  rw [first, second, third, fourth, Caller.word]

theorem fetchint_safe (a : Nat) : Safe u (fetchint u a) fun r => ∀ v, r = some v ↔ a + 4 ≤ u.sz ∧ v = u.word a := by
  have small := ok.small
  unfold fetchint
  split
  case isTrue outside =>
    refine safe_pure fun v => ⟨nofun, fun both => ?_⟩
    have exact_ : u32 (a + 4) = a + 4 := Nat.mod_eq_of_lt (by unfold kernbase at small; omega)
    rw [exact_] at outside
    omega
  case isFalse inside =>
    have low : a < u.sz := by omega
    have exact_ : u32 (a + 4) = a + 4 := Nat.mod_eq_of_lt (by unfold kernbase at small; omega)
    rw [exact_] at inside
    have within : a + 4 ≤ u.sz := by omega
    refine safe_bind (loadInt_safe ok within) fun v loaded => safe_pure fun w => ?_
    rw [loaded, Option.some.injEq]
    exact ⟨fun same => ⟨within, same.symm⟩, fun both => both.2.symm⟩

theorem fetchstrLoop_safe (start left s : Nat) (end_ : s + left = u.sz) (from_ : start ≤ s)
    (before : ∀ j, start + j < s → u.byte (start + j) ≠ 0) :
    Safe u (fetchstrLoop start left s) fun r => ∀ len, r = some len ↔ start + len < u.sz ∧ u.String start len := by
  induction left generalizing s with
  | zero =>
    refine safe_pure fun len => ⟨nofun, fun found => ?_⟩
    exact absurd found.2.1 (before len (by omega))
  | succ left ih =>
    refine safe_bind (safe_load ok (by omega)) fun c loaded => ?_
    by_cases zero : c = 0
    · rw [if_pos zero]
      refine safe_pure fun len => ?_
      rw [Option.some.injEq]
      constructor
      · intro same
        have here : start + len = s := by omega
        refine ⟨by omega, by rw [here, ← loaded]; exact zero, fun j less => before j (by omega)⟩
      · rintro ⟨-, nul, earlier⟩
        rcases Nat.lt_trichotomy (start + len) s with less | same | more
        · exact absurd nul (before len less)
        · omega
        · have there : start + (s - start) = s := by omega
          have none_ := earlier (s - start) (by omega)
          rw [there, ← loaded] at none_
          exact absurd zero none_
    · rw [if_neg zero]
      refine ih (s + 1) (by omega) (by omega) fun j less => ?_
      by_cases last : start + j = s
      · rw [last, ← loaded]
        exact zero
      · exact before j (by omega)

theorem fetchstr_safe (a : Nat) : Safe u (fetchstr u a) fun r => ∀ len, r = some len ↔ a + len < u.sz ∧ u.String a len := by
  unfold fetchstr
  split
  case isTrue outside => exact safe_pure fun len => ⟨nofun, fun found => by omega⟩
  case isFalse inside => exact fetchstrLoop_safe ok a _ a (by omega) (Nat.le_refl a) fun j never => by omega

theorem argint_safe (n : Nat) :
    Safe u (argint u n) fun r => ∀ v, r = some v ↔ argAddr u n + 4 ≤ u.sz ∧ v = u.word (argAddr u n) :=
  fetchint_safe ok _

theorem argptr_safe (n : Nat) {size : Int} (int : size < 2 ^ 31) :
    Safe u (argptr u n size) fun r => ∀ p, r = some p ↔ argAddr u n + 4 ≤ u.sz ∧ p = u.word (argAddr u n) ∧
      0 ≤ size ∧ p < u.sz ∧ (p : Int) + size ≤ u.sz := by
  have small := ok.small
  refine safe_bind (argint_safe ok n) fun r found => ?_
  cases r with
  | none =>
    refine safe_pure fun p => ⟨nofun, fun range => ?_⟩
    exact absurd ((found p).mpr ⟨range.1, range.2.1⟩) nofun
  | some i =>
    obtain ⟨inside, value⟩ := (found i).mp rfl
    dsimp only
    split
    case isTrue outside =>
      refine safe_pure fun p => ⟨nofun, fun range => ?_⟩
      obtain ⟨-, same, positive, low, high⟩ := range
      have exact_ : u32 (i + size.toNat) = i + size.toNat := Nat.mod_eq_of_lt (by unfold kernbase at small; omega)
      rw [exact_] at outside
      omega
    case isFalse within =>
      have exact_ : u32 (i + size.toNat) = i + size.toNat := Nat.mod_eq_of_lt (by unfold kernbase at small; omega)
      rw [exact_] at within
      refine safe_pure fun p => ?_
      rw [Option.some.injEq]
      constructor
      · intro same
        exact ⟨inside, same ▸ value, by omega, by omega, by omega⟩
      · intro range
        rw [value, range.2.1]

theorem argstr_safe (n : Nat) :
    Safe u (argstr u n) fun r => ∀ p len, r = some (p, len) ↔ argAddr u n + 4 ≤ u.sz ∧ p = u.word (argAddr u n) ∧
      p + len < u.sz ∧ u.String p len := by
  refine safe_bind (argint_safe ok n) fun r found => ?_
  cases r with
  | none =>
    refine safe_pure fun p len => ⟨nofun, fun range => ?_⟩
    exact absurd ((found p).mpr ⟨range.1, range.2.1⟩) nofun
  | some a =>
    obtain ⟨inside, value⟩ := (found a).mp rfl
    refine safe_bind (fetchstr_safe ok a) fun r string => ?_
    cases r with
    | none =>
      refine safe_pure fun p len => ⟨nofun, fun range => ?_⟩
      have same : p = a := range.2.1.trans value.symm
      exact absurd ((string len).mpr (same ▸ range.2.2)) nofun
    | some l =>
      refine safe_pure fun p len => ?_
      rw [Option.some.injEq, Prod.mk.injEq]
      constructor
      · rintro ⟨rfl, rfl⟩
        exact ⟨inside, value, (string l).mp rfl⟩
      · rintro ⟨-, same, range⟩
        have equal : p = a := same.trans value.symm
        rw [equal] at range
        have length := (string len).mpr range
        exact ⟨equal.symm, Option.some.inj length⟩

theorem gatherArgs_safe (uargv left i : Nat) (low : uargv + 4 * i < 2 ^ 32) :
    Safe u (gatherArgs u uargv left i) fun r => ∀ argv, r = some argv → argv.length < left ∧ Gathered u uargv i argv := by
  induction left generalizing i with
  | zero => exact safe_pure nofun
  | succ left ih =>
    have small := ok.small
    have address : u32 (uargv + 4 * i) = uargv + 4 * i := Nat.mod_eq_of_lt low
    rw [gatherArgs, address]
    refine safe_bind (fetchint_safe ok _) fun r found => ?_
    cases r with
    | none => exact safe_pure nofun
    | some uarg =>
      obtain ⟨inside, value⟩ := (found uarg).mp rfl
      dsimp only
      by_cases zero : uarg = 0
      · rw [if_pos zero]
        refine safe_pure fun argv same => ?_
        cases same
        exact ⟨Nat.succ_pos left, inside, value ▸ zero⟩
      · rw [if_neg zero]
        refine safe_bind (fetchstr_safe ok uarg) fun r string => ?_
        cases r with
        | none => exact safe_pure nofun
        | some len =>
          refine safe_bind (ih (i + 1) (by unfold kernbase at small; omega)) fun r rest => ?_
          cases r with
          | none => exact safe_pure nofun
          | some tail =>
            refine safe_pure fun argv same => ?_
            cases same
            obtain ⟨shorter, gathered⟩ := rest tail rfl
            exact ⟨Nat.succ_lt_succ shorter, ⟨inside, value, zero, len, (string len).mp rfl⟩, gathered⟩

theorem execArguments_safe : Safe u (execArguments u) fun r => ∀ path uargv argv, r = some (path, uargv, argv) →
    (∃ len, path + len < u.sz ∧ u.String path len) ∧ argv.length < maxarg ∧ Gathered u uargv 0 argv := by
  refine safe_bind (argstr_safe ok 0) fun r first => ?_
  cases r with
  | none => exact safe_pure nofun
  | some pair =>
    obtain ⟨path, len⟩ := pair
    have string := ((first path len).mp rfl).2.2
    refine safe_bind (argint_safe ok 1) fun r second => ?_
    cases r with
    | none => exact safe_pure nofun
    | some uargv =>
      have bound : uargv < 2 ^ 32 := ((second uargv).mp rfl).2 ▸ word_lt u _
      refine safe_bind (gatherArgs_safe ok uargv maxarg 0 bound) fun r gathered => ?_
      cases r with
      | none => exact safe_pure nofun
      | some argv =>
        refine safe_pure fun _ _ _ same => ?_
        cases same
        exact ⟨⟨len, string⟩, gathered argv rfl⟩

end

-- The argument functions read below sz only, and what they accept lies below sz.
theorem arguments_confined (u : Caller) (ok : u.Ok) :
    (∀ a, ∃ r log, (fetchint u a).run (Load.exec u) [] = .ok r log ∧ (∀ b ∈ log, b < u.sz) ∧
      ∀ v, r = some v ↔ a + 4 ≤ u.sz ∧ v = u.word a) ∧
    (∀ a, ∃ r log, (fetchstr u a).run (Load.exec u) [] = .ok r log ∧ (∀ b ∈ log, b < u.sz) ∧
      ∀ len, r = some len ↔ a + len < u.sz ∧ u.String a len) ∧
    (∀ n, ∃ r log, (argint u n).run (Load.exec u) [] = .ok r log ∧ (∀ b ∈ log, b < u.sz) ∧
      ∀ v, r = some v ↔ argAddr u n + 4 ≤ u.sz ∧ v = u.word (argAddr u n)) ∧
    (∀ n, ∀ size : Int, size < 2 ^ 31 → ∃ r log, (argptr u n size).run (Load.exec u) [] = .ok r log ∧ (∀ b ∈ log, b < u.sz) ∧
      ∀ p, r = some p ↔ argAddr u n + 4 ≤ u.sz ∧ p = u.word (argAddr u n) ∧ 0 ≤ size ∧ p < u.sz ∧ (p : Int) + size ≤ u.sz) ∧
    (∀ n, ∃ r log, (argstr u n).run (Load.exec u) [] = .ok r log ∧ (∀ b ∈ log, b < u.sz) ∧
      ∀ p len, r = some (p, len) ↔ argAddr u n + 4 ≤ u.sz ∧ p = u.word (argAddr u n) ∧ p + len < u.sz ∧ u.String p len) ∧
    (∃ r log, (execArguments u).run (Load.exec u) [] = .ok r log ∧ (∀ b ∈ log, b < u.sz) ∧
      ∀ path uargv argv, r = some (path, uargv, argv) →
        (∃ len, path + len < u.sz ∧ u.String path len) ∧ argv.length < maxarg ∧ Gathered u uargv 0 argv) :=
  ⟨fun a => safe_runs (fetchint_safe ok a), fun a => safe_runs (fetchstr_safe ok a), fun n => safe_runs (argint_safe ok n),
    fun n _ int => safe_runs (argptr_safe ok n int), fun n => safe_runs (argstr_safe ok n), safe_runs (execArguments_safe ok)⟩

def smallCaller : Caller := ⟨4096, 4088, fun a => a < 4096, fun _ => 0⟩

theorem arguments_confined_small : smallCaller.Ok ∧
    (∃ r log, (argint smallCaller 0).run (Load.exec smallCaller) [] = .ok r log ∧ (∀ b ∈ log, b < 4096) ∧ r = some 0) ∧
    ∃ r log, (argint smallCaller 1).run (Load.exec smallCaller) [] = .ok r log ∧ (∀ b ∈ log, b < 4096) ∧ r = none := by
  have ok : smallCaller.Ok := ⟨by decide, fun a below => decide_eq_true below⟩
  obtain ⟨-, -, ints, -⟩ := arguments_confined smallCaller ok
  obtain ⟨r, log, run, below, value⟩ := ints 0
  obtain ⟨r', log', run', below', value'⟩ := ints 1
  refine ⟨ok, ⟨r, log, run, below, (value 0).mpr (by decide)⟩, r', log', run', below', ?_⟩
  cases r' with
  | none => rfl
  | some v => exact absurd ((value' v).mp rfl).1 (by decide)

end Xv6.Syscall
