import Mathlib.Data.Finset.Card
import Mathlib.Tactic.Common

set_option autoImplicit false

namespace Xv6

def Counted (P : Nat → Prop) (n : Int) : Prop := ∃ members : Finset Nat, (∀ p, p ∈ members ↔ P p) ∧ n = members.card

theorem counted_none {P : Nat → Prop} (none : ∀ p, ¬ P p) : Counted P 0 :=
  ⟨∅, by simpa using none, by simp⟩

theorem counted_congr {P Q : Nat → Prop} {n : Int} (counted : Counted P n) (same : ∀ p, Q p ↔ P p) : Counted Q n := by
  obtain ⟨members, iff, size⟩ := counted
  exact ⟨members, fun p => (iff p).trans (same p).symm, size⟩

theorem counted_enter {P Q : Nat → Prop} {n : Int} (p : Nat) (counted : Counted P n) (out : ¬ P p) (entered : Q p)
    (others : ∀ q, q ≠ p → (Q q ↔ P q)) : Counted Q (n + 1) := by
  obtain ⟨members, iff, size⟩ := counted
  refine ⟨insert p members, fun q => ?_, ?_⟩
  · rw [Finset.mem_insert, iff]
    by_cases same : q = p
    · subst same
      simp [entered]
    · simp [same, others q same]
  · rw [Finset.card_insert_of_notMem (fun member => out ((iff p).mp member)), size]
    simp

theorem counted_leave {P Q : Nat → Prop} {n : Int} (p : Nat) (counted : Counted P n) (inside : P p) (left : ¬ Q p)
    (others : ∀ q, q ≠ p → (Q q ↔ P q)) : Counted Q (n - 1) := by
  obtain ⟨members, iff, size⟩ := counted
  have member : p ∈ members := (iff p).mpr inside
  refine ⟨members.erase p, fun q => ?_, ?_⟩
  · rw [Finset.mem_erase, iff]
    by_cases same : q = p
    · subst same
      simp [left]
    · simp [same, others q same]
  · have positive := Finset.card_pos.mpr ⟨p, member⟩
    rw [Finset.card_erase_of_mem member, size]
    omega

theorem counted_zero {P : Nat → Prop} (counted : Counted P 0) (p : Nat) : ¬ P p := by
  obtain ⟨members, iff, size⟩ := counted
  have empty : members = ∅ := Finset.card_eq_zero.mp (by omega)
  intro inside
  have member := (iff p).mpr inside
  simp [empty] at member

def AtMost {τ : Type} (P : τ → Prop) (n : Int) : Prop := ∃ bag : Finset τ, (∀ t, P t → t ∈ bag) ∧ (bag.card : Int) ≤ n

section

variable {τ : Type} [DecidableEq τ] {P Q : τ → Prop} {n : Int}

omit [DecidableEq τ] in
theorem at_most_mono (few : AtMost P n) (fewer : ∀ t, Q t → P t) : AtMost Q n := by
  obtain ⟨bag, covers, size⟩ := few
  exact ⟨bag, fun t holds => covers t (fewer t holds), size⟩

theorem at_most_add (x : τ) (few : AtMost P n) (more : ∀ t, Q t → P t ∨ t = x) : AtMost Q (n + 1) := by
  obtain ⟨bag, covers, size⟩ := few
  refine ⟨insert x bag, fun t holds => ?_, ?_⟩
  · rcases more t holds with old | new
    · exact Finset.mem_insert_of_mem (covers t old)
    · rw [new]
      exact Finset.mem_insert_self x bag
  · have grows := Finset.card_insert_le x bag
    omega

theorem at_most_remove (x : τ) (few : AtMost P n) (had : P x) (rest : ∀ t, Q t → P t ∧ t ≠ x) : AtMost Q (n - 1) := by
  obtain ⟨bag, covers, size⟩ := few
  refine ⟨bag.erase x, fun t holds => ?_, ?_⟩
  · obtain ⟨old, other⟩ := rest t holds
    exact Finset.mem_erase.mpr ⟨other, covers t old⟩
  · have member := covers x had
    have positive := Finset.card_pos.mpr ⟨x, member⟩
    rw [Finset.card_erase_of_mem member]
    omega

theorem at_most_move (x y : τ) (few : AtMost P n) (had : P x) (moved : ∀ t, Q t → (P t ∧ t ≠ x) ∨ t = y) : AtMost Q n := by
  have removed : AtMost (fun t => P t ∧ t ≠ x) (n - 1) := at_most_remove x few had (fun _ holds => holds)
  have added := at_most_add y removed moved
  simpa using added

omit [DecidableEq τ] in
theorem at_most_zero (few : AtMost P 0) (t : τ) : ¬ P t := by
  obtain ⟨bag, covers, size⟩ := few
  have empty : bag = ∅ := Finset.card_eq_zero.mp (by omega)
  intro holds
  have member := covers t holds
  simp [empty] at member

omit [DecidableEq τ] in
theorem at_most_none (none : ∀ t, ¬ P t) (nonneg : 0 ≤ n) : AtMost P n :=
  ⟨∅, fun t holds => absurd holds (none t), by simpa using nonneg⟩

end

end Xv6
