import Xv6.Fs.Inode

set_option autoImplicit false

namespace Xv6

theorem mask_and (i j : Fin 8) :
    UInt8.ofNat (1 <<< i.val) &&& UInt8.ofNat (1 <<< j.val) = if i = j then UInt8.ofNat (1 <<< j.val) else 0 := by
  revert i j
  decide

theorem mask_not_and (i j : Fin 8) :
    ~~~ UInt8.ofNat (1 <<< i.val) &&& UInt8.ofNat (1 <<< j.val) = if i = j then 0 else UInt8.ofNat (1 <<< j.val) := by
  revert i j
  decide

theorem mask_ne_zero (i : Fin 8) : UInt8.ofNat (1 <<< i.val) ≠ 0 := by
  revert i
  decide

theorem or_and_mask (x a b : UInt8) : (x ||| a) &&& b = (x &&& b) ||| (a &&& b) := by
  apply UInt8.eq_of_toBitVec_eq
  rw [UInt8.toBitVec_and, UInt8.toBitVec_or, UInt8.toBitVec_or, UInt8.toBitVec_and, UInt8.toBitVec_and]
  ext k inside
  simp only [BitVec.getElem_and, BitVec.getElem_or, Bool.and_or_distrib_right]

section

variable {data : Block} {i j : Nat}

theorem byte_inside (inside : i < bpb) : i / 8 + 1 ≤ bsize := by
  unfold bpb bsize at *
  omega

theorem bitSet_setBit (inside : i < bpb) : bitSet (setBit data i) j = true ↔ j = i ∨ bitSet data j = true := by
  unfold bitSet setBit
  rw [bne_iff_ne, bne_iff_ne, Buf.get_splice _ _ _ _ _ (byte_inside inside)]
  by_cases same : j / 8 = i / 8
  · have masks := mask_and ⟨i % 8, Nat.mod_lt i (by decide)⟩ ⟨j % 8, Nat.mod_lt j (by decide)⟩
    rw [if_pos (by omega), ← same, or_and_mask, ne_eq, UInt8.or_eq_zero_iff]
    dsimp only at masks
    rw [masks]
    by_cases here : j = i
    · rw [here, if_pos rfl]
      exact ⟨fun _ => .inl rfl, fun _ both => mask_ne_zero ⟨i % 8, Nat.mod_lt i (by decide)⟩ both.2⟩
    · rw [if_neg (fun equal => here (by have := Fin.mk.inj equal; omega))]
      exact ⟨fun some_ => .inr fun none_ => some_ ⟨none_, rfl⟩, fun either both => either.elim here fun some_ => some_ both.1⟩
  · rw [if_neg (by omega)]
    exact ⟨.inr, fun either => either.resolve_left fun here => same (here ▸ rfl)⟩

theorem bitSet_clearBit (inside : i < bpb) : bitSet (clearBit data i) j = true ↔ j ≠ i ∧ bitSet data j = true := by
  unfold bitSet clearBit
  rw [bne_iff_ne, bne_iff_ne, Buf.get_splice _ _ _ _ _ (byte_inside inside)]
  by_cases same : j / 8 = i / 8
  · have masks := mask_not_and ⟨i % 8, Nat.mod_lt i (by decide)⟩ ⟨j % 8, Nat.mod_lt j (by decide)⟩
    rw [if_pos (by omega), ← same, UInt8.and_assoc]
    dsimp only at masks
    rw [masks]
    by_cases here : j = i
    · rw [here, if_pos rfl, UInt8.and_zero]
      exact ⟨fun never => absurd rfl never, fun never => absurd rfl never.1⟩
    · rw [if_neg (fun equal => here (by have := Fin.mk.inj equal; omega))]
      exact ⟨fun some_ => ⟨here, some_⟩, fun both => both.2⟩
  · rw [if_neg (by omega)]
    exact ⟨fun some_ => ⟨fun here => same (here ▸ rfl), some_⟩, fun both => both.2⟩

theorem bitSet_zero (j : Nat) : bitSet Buf.zero j = false := by
  unfold bitSet
  rw [Buf.get_zero, UInt8.zero_and]
  rfl

end

theorem bitSet_range {n : Nat} (inside : n ≤ bpb) (j : Nat) :
    bitSet ((List.range n).foldl setBit Buf.zero) j = true ↔ j < n := by
  induction n with
  | zero =>
    rw [List.range_zero, List.foldl_nil, bitSet_zero]
    exact ⟨nofun, fun never => absurd never (Nat.not_lt_zero j)⟩
  | succ n ih =>
    rw [List.range_succ, List.foldl_append, List.foldl_cons, List.foldl_nil, bitSet_setBit inside, ih (Nat.le_of_succ_le inside)]
    omega

end Xv6
