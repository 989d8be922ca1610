import Xv6.Lib.Prog

set_option autoImplicit false

namespace Xv6

universe v

-- A ring of C slots addressed by two counters that run freely modulo W.
def ringCount (W r w : Nat) : Nat := (w + (W - r)) % W

def ringContents {α : Type v} (C W : Nat) (slot : Nat → α) (r w : Nat) : List α :=
  (List.range (ringCount W r w)).map fun i => slot ((r + i) % C)

section

variable {α : Type v} {C W r w : Nat}

theorem ring_count_cases (rBound : r < W) (wBound : w < W) :
    (r ≤ w ∧ ringCount W r w = w - r) ∨ (w < r ∧ ringCount W r w = w + (W - r)) := by
  rcases Nat.lt_or_ge w r with wrapped | straight
  · right
    refine ⟨wrapped, ?_⟩
    rw [ringCount, Nat.mod_eq_of_lt (by omega)]
  · left
    refine ⟨straight, ?_⟩
    rw [ringCount, show w + (W - r) = w - r + W by omega, Nat.add_mod_right, Nat.mod_eq_of_lt (by omega)]

theorem ring_succ_cases (bound : w < W) : (w + 1 < W ∧ (w + 1) % W = w + 1) ∨ (w + 1 = W ∧ (w + 1) % W = 0) := by
  rcases Nat.lt_or_ge (w + 1) W with inside | last
  · exact Or.inl ⟨inside, Nat.mod_eq_of_lt inside⟩
  · have same : w + 1 = W := by omega
    exact Or.inr ⟨same, by rw [same, Nat.mod_self]⟩

theorem ring_count_zero (rBound : r < W) (wBound : w < W) : ringCount W r w = 0 ↔ r = w := by
  rcases ring_count_cases rBound wBound with ⟨order, count⟩ | ⟨order, count⟩ <;> omega

theorem ring_count_full (rBound : r < W) (wBound : w < W) (small : C < W) :
    w = (r + C) % W ↔ ringCount W r w = C := by
  have target : (r + C < W ∧ (r + C) % W = r + C) ∨ (W ≤ r + C ∧ (r + C) % W = r + C - W) := by
    rcases Nat.lt_or_ge (r + C) W with inside | wrapped
    · exact Or.inl ⟨inside, Nat.mod_eq_of_lt inside⟩
    · refine Or.inr ⟨wrapped, ?_⟩
      rw [Nat.mod_eq_sub_mod wrapped, Nat.mod_eq_of_lt (by omega)]
  rcases ring_count_cases rBound wBound with ⟨order, count⟩ | ⟨order, count⟩ <;> omega

theorem ring_count_push (rBound : r < W) (wBound : w < W) (room : ringCount W r w + 1 < W) :
    ringCount W r ((w + 1) % W) = ringCount W r w + 1 := by
  have next : (w + 1) % W < W := Nat.mod_lt _ (by omega)
  rcases ring_count_cases rBound wBound with ⟨order, count⟩ | ⟨order, count⟩ <;>
  rcases ring_count_cases rBound next with ⟨order', count'⟩ | ⟨order', count'⟩ <;>
  rcases ring_succ_cases wBound with ⟨inside, value⟩ | ⟨inside, value⟩ <;> omega

theorem ring_count_pop (rBound : r < W) (wBound : w < W) (some : ringCount W r w ≠ 0) :
    ringCount W ((r + 1) % W) w + 1 = ringCount W r w := by
  have next : (r + 1) % W < W := Nat.mod_lt _ (by omega)
  rcases ring_count_cases rBound wBound with ⟨order, count⟩ | ⟨order, count⟩ <;>
  rcases ring_count_cases next wBound with ⟨order', count'⟩ | ⟨order', count'⟩ <;>
  rcases ring_succ_cases rBound with ⟨inside, value⟩ | ⟨inside, value⟩ <;> omega

theorem ring_slot_write (divides : C ∣ W) (rBound : r < W) (wBound : w < W) : (r + ringCount W r w) % C = w % C := by
  obtain ⟨k, rfl⟩ := divides
  rcases ring_count_cases rBound wBound with ⟨order, count⟩ | ⟨order, count⟩
  · rw [count, Nat.add_sub_cancel' order]
  · rw [count, show r + (w + (C * k - r)) = w + C * k by omega, Nat.add_mul_mod_self_left]

theorem ring_slot_next (divides : C ∣ W) (bound : r < W) (i : Nat) : ((r + 1) % W + i) % C = (r + (i + 1)) % C := by
  obtain ⟨k, rfl⟩ := divides
  rcases ring_succ_cases bound with ⟨inside, value⟩ | ⟨last, value⟩
  · rw [value, show r + 1 + i = r + (i + 1) by omega]
  · rw [value, show r + (i + 1) = 0 + i + C * k by omega, Nat.add_mul_mod_self_left]

theorem ring_push (slot : Nat → α) (a : α) (divides : C ∣ W) (rBound : r < W) (wBound : w < W) (small : C < W)
    (room : ringCount W r w < C) :
    ringContents C W (upd slot (w % C) a) r ((w + 1) % W) = ringContents C W slot r w ++ [a] := by
  rw [ringContents, ring_count_push rBound wBound (by omega), List.range_succ, List.map_append, List.map_singleton,
    ring_slot_write divides rBound wBound, upd_self, ringContents]
  congr 1
  apply List.map_congr_left
  intro i member
  have before : i < ringCount W r w := List.mem_range.mp member
  -- two counter values less than C apart have different slots
  have apart : (r + i) % C ≠ w % C := by
    rw [← ring_slot_write divides rBound wBound]
    intro same
    have distance : (r + ringCount W r w - (r + i)) % C = 0 := Nat.sub_mod_eq_zero_of_mod_eq same.symm
    rw [Nat.mod_eq_of_lt (by omega)] at distance
    omega
  rw [upd_ne apart]

theorem ring_pop (slot : Nat → α) (divides : C ∣ W) (rBound : r < W) (wBound : w < W) (some : ringCount W r w ≠ 0) :
    ringContents C W slot r w = slot (r % C) :: ringContents C W slot ((r + 1) % W) w := by
  rw [ringContents, ringContents, ← ring_count_pop rBound wBound some, List.range_succ_eq_map, List.map_cons, List.map_map]
  congr 1
  apply List.map_congr_left
  intro i _
  exact congrArg slot (ring_slot_next divides rBound i).symm

theorem ring_contents_empty (slot : Nat → α) (bound : r < W) : ringContents C W slot r r = [] := by
  rw [ringContents, (ring_count_zero bound bound).mpr rfl, List.range_zero, List.map_nil]

theorem ring_count_unpush (rBound : r < W) (wBound : w < W) (some : ringCount W r w ≠ 0) :
    ringCount W r ((w + (W - 1)) % W) + 1 = ringCount W r w := by
  have next : (w + (W - 1)) % W < W := Nat.mod_lt _ (by omega)
  have value : (w = 0 ∧ (w + (W - 1)) % W = W - 1) ∨ (0 < w ∧ (w + (W - 1)) % W = w - 1) := by
    rcases Nat.eq_zero_or_pos w with zero | positive
    · exact .inl ⟨zero, by rw [zero, Nat.zero_add, Nat.mod_eq_of_lt (by omega)]⟩
    · exact .inr ⟨positive, by rw [show w + (W - 1) = w - 1 + W by omega, Nat.add_mod_right, Nat.mod_eq_of_lt (by omega)]⟩
  rcases ring_count_cases rBound wBound with ⟨order, count⟩ | ⟨order, count⟩ <;>
  rcases ring_count_cases rBound next with ⟨order', count'⟩ | ⟨order', count'⟩ <;> omega

theorem ring_unpush (slot : Nat → α) (divides : C ∣ W) (rBound : r < W) (wBound : w < W) (some : ringCount W r w ≠ 0) :
    ringContents C W slot r w = ringContents C W slot r ((w + (W - 1)) % W) ++ [slot ((w + (W - 1)) % W % C)] := by
  have next : (w + (W - 1)) % W < W := Nat.mod_lt _ (by omega)
  rw [ringContents, ringContents, ← ring_count_unpush rBound wBound some, List.range_succ, List.map_append, List.map_singleton,
    ring_slot_write divides rBound next]

theorem ring_count_add {e : Nat} (rBound : r < W) (wBound : w < W) (eBound : e < W)
    (order : ringCount W r w ≤ ringCount W r e) : ringCount W r w + ringCount W w e = ringCount W r e := by
  rcases ring_count_cases rBound wBound with ⟨order₁, count₁⟩ | ⟨order₁, count₁⟩ <;>
  rcases ring_count_cases wBound eBound with ⟨order₂, count₂⟩ | ⟨order₂, count₂⟩ <;>
  rcases ring_count_cases rBound eBound with ⟨order₃, count₃⟩ | ⟨order₃, count₃⟩ <;> omega

theorem ring_split (slot : Nat → α) {e : Nat} (divides : C ∣ W) (rBound : r < W) (wBound : w < W) (eBound : e < W)
    (order : ringCount W r w ≤ ringCount W r e) :
    ringContents C W slot r e = ringContents C W slot r w ++ ringContents C W slot w e := by
  rw [ringContents, ← ring_count_add rBound wBound eBound order, List.range_add, List.map_append, List.map_map]
  congr 1
  apply List.map_congr_left
  intro i _
  have here := ring_slot_write divides rBound wBound
  rw [Function.comp_apply, ← Nat.add_assoc, Nat.add_mod, here, ← Nat.add_mod]

theorem ring_contents_length (slot : Nat → α) : (ringContents C W slot r w).length = ringCount W r w := by
  rw [ringContents, List.length_map, List.length_range]

end

end Xv6
