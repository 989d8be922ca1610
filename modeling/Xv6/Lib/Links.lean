import Mathlib.Data.List.Basic

set_option autoImplicit false

namespace Xv6

section

variable {α : Type} {next : α → α}

def Links (next : α → α) : List α → α → Prop
  | [], _ => True
  | a :: rest, e => next a = rest.headD e ∧ Links next rest e

theorem head_append (xs ys : List α) (e : α) : (xs ++ ys).headD e = xs.headD (ys.headD e) := by
  cases xs <;> rfl

theorem links_append (xs ys : List α) (e : α) : Links next (xs ++ ys) e ↔ Links next xs (ys.headD e) ∧ Links next ys e := by
  induction xs with
  | nil => exact (true_and _).to_iff.symm
  | cons a rest ih =>
    rw [List.cons_append, Links, Links, ih, head_append]
    exact and_assoc.symm

theorem links_congr {next' : α → α} (xs : List α) (e : α) (same : ∀ a ∈ xs, next' a = next a) (links : Links next xs e) :
    Links next' xs e := by
  induction xs with
  | nil => trivial
  | cons a rest ih =>
    refine ⟨(same a List.mem_cons_self).trans links.1, ih (fun b member => same b (List.mem_cons_of_mem a member)) links.2⟩

theorem links_rotate (xs : List α) (a : α) (ys : List α) (e : α) (links : Links next (xs ++ a :: ys) ((xs ++ a :: ys).headD e)) :
    Links next (a :: ys ++ xs) a := by
  rw [head_append, List.headD_cons] at links
  obtain ⟨before, after⟩ := (links_append _ _ _).mp links
  exact (links_append _ _ _).mpr ⟨after, before⟩

theorem links_inside {xs : List α} {e : α} (links : Links next xs e) : ∀ a ∈ xs, next a ∈ xs ∨ next a = e := by
  induction xs with
  | nil => exact nofun
  | cons x rest ih =>
    intro a member
    rcases List.mem_cons.mp member with rfl | later
    · rw [links.1]
      cases rest with
      | nil => exact .inr rfl
      | cons y rest => exact .inl (List.mem_cons_of_mem _ List.mem_cons_self)
    · exact (ih links.2 a later).imp_left (List.mem_cons_of_mem x)

end

def Chain {α : Type} (next : α → Option α) : Option α → List α → Prop
  | p, [] => p = none
  | p, a :: rest => p = some a ∧ Chain next (next a) rest

def lastOf {α : Type} (next : α → Option α) : Nat → α → Option α
  | 0, _ => none
  | fuel + 1, a =>
    match next a with
    | none => some a
    | some b => lastOf next fuel b

section

variable {α : Type} {next next' : α → Option α}

theorem chain_congr {p : Option α} (xs : List α) (same : ∀ a ∈ xs, next' a = next a) (chain : Chain next p xs) :
    Chain next' p xs := by
  induction xs generalizing p with
  | nil => exact chain
  | cons a rest ih =>
    refine ⟨chain.1, ?_⟩
    rw [same a List.mem_cons_self]
    exact ih (fun b member => same b (List.mem_cons_of_mem a member)) chain.2

theorem chain_last {p : Option α} (xs : List α) (a : α) (chain : Chain next p (xs ++ [a])) (fuel : Nat) (enough : xs.length < fuel) :
    ∃ b, p = some b ∧ lastOf next fuel b = some a := by
  induction xs generalizing p fuel with
  | nil =>
    cases fuel with
    | zero => exact absurd enough (Nat.not_lt_zero _)
    | succ fuel =>
      have ended : next a = none := chain.2
      refine ⟨a, chain.1, ?_⟩
      rw [lastOf, ended]
  | cons b rest ih =>
    cases fuel with
    | zero => exact absurd enough (Nat.not_lt_zero _)
    | succ fuel =>
      obtain ⟨c, second, found⟩ := ih chain.2 fuel (Nat.lt_of_succ_lt_succ enough)
      refine ⟨b, chain.1, ?_⟩
      rw [lastOf, second]
      exact found

theorem chain_snoc {p : Option α} (xs : List α) (a b : α) (chain : Chain next p (xs ++ [a])) (same : ∀ c ∈ xs, next' c = next c)
    (linked : next' a = some b) (ended : next' b = none) : Chain next' p (xs ++ [a] ++ [b]) := by
  induction xs generalizing p with
  | nil => exact ⟨chain.1, linked, ended⟩
  | cons c rest ih =>
    refine ⟨chain.1, ?_⟩
    rw [same c List.mem_cons_self]
    exact ih chain.2 fun d member => same d (List.mem_cons_of_mem c member)

end

end Xv6
