import Xv6.Lib.Prog

set_option autoImplicit false

namespace Xv6.Memmove

abbrev Memory : Type := Nat → UInt8

-- while(n-- > 0) *d++ = *s++;
def copyUp : Nat → Memory → Nat → Nat → Memory
  | 0, mem, _, _ => mem
  | n + 1, mem, d, s => copyUp n (upd mem d (mem s)) ((d + 1) % 2 ^ 32) ((s + 1) % 2 ^ 32)

def before (pointer : Nat) : Nat := if pointer = 0 then 2 ^ 32 - 1 else pointer - 1

-- while(n-- > 0) *--d = *--s;
def copyDown : Nat → Memory → Nat → Nat → Memory
  | 0, mem, _, _ => mem
  | n + 1, mem, d, s => copyDown n (upd mem (before d) (mem (before s))) (before d) (before s)

-- string.c
def Kernel.memmove (mem : Memory) (dst src n : Nat) : Memory :=
  if src < dst ∧ dst < (src + n) % 2 ^ 32 then copyDown n mem ((dst + n) % 2 ^ 32) ((src + n) % 2 ^ 32)
  else copyUp n mem dst src

-- ulib.c
def Ulib.memmove (mem : Memory) (dst src n : Nat) : Memory := copyUp n mem dst src

structure Moved (mem : Memory) (dst src n : Nat) (mem' : Memory) : Prop where
  inside : ∀ i < n, mem' (dst + i) = mem (src + i)
  outside : ∀ a, a < dst ∨ dst + n ≤ a → mem' a = mem a

section

variable {mem mem' : Memory} {dst src n : Nat}

theorem moved_unique {mem'' : Memory} (first : Moved mem dst src n mem') (second : Moved mem dst src n mem'') : mem' = mem'' := by
  funext a
  by_cases away : a < dst ∨ dst + n ≤ a
  · rw [first.outside a away, second.outside a away]
  · obtain ⟨i, rfl⟩ := Nat.exists_eq_add_of_le (Nat.not_lt.mp fun low => away (.inl low))
    have less : i < n := by omega
    rw [first.inside i less, second.inside i less]

theorem copy_down_moved (mem : Memory) (below : src < dst) (fits : dst + n ≤ 2 ^ 32) :
    Moved mem dst src n (copyDown n mem ((dst + n) % 2 ^ 32) ((src + n) % 2 ^ 32)) := by
  induction n generalizing mem with
  | zero => exact ⟨fun i never => absurd never (Nat.not_lt_zero i), fun _ _ => rfl⟩
  | succ n ih =>
    have d : before ((dst + (n + 1)) % 2 ^ 32) = dst + n := by
      unfold before
      split <;> omega
    have s : before ((src + (n + 1)) % 2 ^ 32) = src + n := by
      unfold before
      split <;> omega
    have rest := ih (upd mem (dst + n) (mem (src + n))) (by omega)
    rw [Nat.mod_eq_of_lt (by omega), Nat.mod_eq_of_lt (by omega)] at rest
    rw [copyDown, d, s]
    refine ⟨fun i less => ?_, fun a away => ?_⟩
    · by_cases last : i = n
      · rw [last, rest.outside (dst + n) (.inr (Nat.le_refl _)), upd_self]
      · rw [rest.inside i (by omega), upd_ne (by omega)]
    · rw [rest.outside a (by omega), upd_ne (by omega)]

theorem copy_up_outside (mem : Memory) (dst src : Nat) (fits : dst + n ≤ 2 ^ 32) (a : Nat) (away : a < dst ∨ dst + n ≤ a) :
    copyUp n mem (dst % 2 ^ 32) src a = mem a := by
  induction n generalizing mem dst src with
  | zero => rfl
  | succ n ih =>
    rw [copyUp, Nat.mod_eq_of_lt (show dst < 2 ^ 32 by omega), ih _ (dst + 1) _ (by omega) (by omega), upd_ne (by omega)]

theorem copy_up_moves (mem : Memory) (dst src : Nat) (above : dst ≤ src) (fits : src + n ≤ 2 ^ 32) (i : Nat) (less : i < n) :
    copyUp n mem (dst % 2 ^ 32) (src % 2 ^ 32) (dst + i) = mem (src + i) := by
  induction n generalizing mem dst src i with
  | zero => exact absurd less (Nat.not_lt_zero i)
  | succ n ih =>
    rw [copyUp, Nat.mod_eq_of_lt (show dst < 2 ^ 32 by omega), Nat.mod_eq_of_lt (show src < 2 ^ 32 by omega)]
    cases i with
    | zero => exact (copy_up_outside _ (dst + 1) _ (by omega) dst (.inl (Nat.lt_succ_self dst))).trans (upd_self _ _ _)
    | succ i =>
      have rest := ih (upd mem dst (mem src)) (dst + 1) (src + 1) (by omega) (by omega) i (by omega)
      rw [upd_ne (by omega), Nat.add_right_comm, Nat.add_right_comm src] at rest
      exact rest

theorem succ_mod {i p : Nat} (positive : 0 < p) : (i + 1) % p = if i % p + 1 = p then 0 else i % p + 1 := by
  have phase := Nat.mod_lt i positive
  have whole : i + 1 = p * (i / p) + (i % p + 1) := by
    rw [← Nat.add_assoc, Nat.div_add_mod]
  rw [whole, Nat.mul_add_mod]
  split
  case isTrue last => rw [last, Nat.mod_self]
  case isFalse other => exact Nat.mod_eq_of_lt (by omega)

theorem copy_up_repeats (mem : Memory) (dst src : Nat) (below : src < dst) (fits : dst + n ≤ 2 ^ 32) (i : Nat) (less : i < n) :
    copyUp n mem (dst % 2 ^ 32) (src % 2 ^ 32) (dst + i) = mem (src + i % (dst - src)) := by
  induction n generalizing mem dst src i with
  | zero => exact absurd less (Nat.not_lt_zero i)
  | succ n ih =>
    rw [copyUp, Nat.mod_eq_of_lt (show dst < 2 ^ 32 by omega), Nat.mod_eq_of_lt (show src < 2 ^ 32 by omega)]
    cases i with
    | zero =>
      rw [Nat.zero_mod]
      exact (copy_up_outside _ (dst + 1) _ (by omega) dst (.inl (Nat.lt_succ_self dst))).trans (upd_self _ _ _)
    | succ i =>
      have rest := ih (upd mem dst (mem src)) (dst + 1) (src + 1) (by omega) (by omega) i (by omega)
      have phase := Nat.mod_lt i (show 0 < dst - src by omega)
      rw [Nat.add_sub_add_right, Nat.add_right_comm dst, Nat.add_right_comm src] at rest
      rw [← Nat.add_assoc, rest, succ_mod (by omega)]
      split
      case isTrue last => rw [show src + i % (dst - src) + 1 = dst by omega, upd_self, Nat.add_zero]
      case isFalse other => rw [upd_ne (by omega), Nat.add_assoc]

theorem kernel_moved (mem : Memory) (low : dst < 2 ^ 32) (low' : src < 2 ^ 32) (fits : dst + n ≤ 2 ^ 32) (fits' : src + n ≤ 2 ^ 32) :
    Moved mem dst src n (Kernel.memmove mem dst src n) := by
  unfold Kernel.memmove
  by_cases inside : src < dst ∧ dst < (src + n) % 2 ^ 32
  · rw [if_pos inside]
    exact copy_down_moved mem inside.1 fits
  · have up := copy_up_outside mem dst src fits
    rw [Nat.mod_eq_of_lt low] at up
    rw [if_neg inside]
    refine ⟨fun i less => ?_, up⟩
    by_cases above : dst ≤ src
    · have moves := copy_up_moves mem dst src above fits' i less
      rw [Nat.mod_eq_of_lt low, Nat.mod_eq_of_lt low'] at moves
      exact moves
    · have repeats := copy_up_repeats mem dst src (Nat.not_le.mp above) fits i less
      have beyond : i < dst - src := by
        have apart : ¬ dst < (src + n) % 2 ^ 32 := fun near => inside ⟨Nat.not_le.mp above, near⟩
        rw [Nat.mod_eq_of_lt (by omega)] at apart
        omega
      rw [Nat.mod_eq_of_lt low, Nat.mod_eq_of_lt low', Nat.mod_eq_of_lt beyond] at repeats
      exact repeats

-- The two agree, and move the bytes, exactly if dst is not inside the source or the source repeats its first dst - src bytes.
theorem memmoves_agree_iff (mem : Memory) (dst src n : Nat) (low : dst < 2 ^ 32) (low' : src < 2 ^ 32) (fits : dst + n ≤ 2 ^ 32)
    (fits' : src + n ≤ 2 ^ 32) :
    (Moved mem dst src n (Kernel.memmove mem dst src n) ∧ Moved mem dst src n (Ulib.memmove mem dst src n) ∧
        Kernel.memmove mem dst src n = Ulib.memmove mem dst src n) ↔
      (dst ≤ src ∨ src + n ≤ dst ∨ ∀ i < n, mem (src + i) = mem (src + i % (dst - src))) := by
  have kernel := kernel_moved mem low low' fits fits'
  have outside := copy_up_outside mem dst src fits
  rw [Nat.mod_eq_of_lt low] at outside
  by_cases above : dst ≤ src
  · have user : Moved mem dst src n (Ulib.memmove mem dst src n) := by
      refine ⟨fun i less => ?_, outside⟩
      have moves := copy_up_moves mem dst src above fits' i less
      rw [Nat.mod_eq_of_lt low, Nat.mod_eq_of_lt low'] at moves
      exact moves
    exact ⟨fun _ => .inl above, fun _ => ⟨kernel, user, moved_unique kernel user⟩⟩
  · have repeats : ∀ i < n, Ulib.memmove mem dst src n (dst + i) = mem (src + i % (dst - src)) := by
      intro i less
      have repeats := copy_up_repeats mem dst src (Nat.not_le.mp above) fits i less
      rw [Nat.mod_eq_of_lt low, Nat.mod_eq_of_lt low'] at repeats
      exact repeats
    constructor
    · rintro ⟨-, user, -⟩
      exact .inr (.inr fun i less => (user.inside i less).symm.trans (repeats i less))
    · intro right
      have user : Moved mem dst src n (Ulib.memmove mem dst src n) := by
        refine ⟨fun i less => (repeats i less).trans ?_, outside⟩
        rcases right with above' | beyond | periodic
        · exact absurd above' above
        · rw [Nat.mod_eq_of_lt (by omega)]
        · exact (periodic i less).symm
      exact ⟨kernel, user, moved_unique kernel user⟩

theorem memmoves_agree_down : Kernel.memmove (fun a => UInt8.ofNat a) 4 5 2 = Ulib.memmove (fun a => UInt8.ofNat a) 4 5 2 :=
  ((memmoves_agree_iff (fun a => UInt8.ofNat a) 4 5 2 (by decide) (by decide) (by decide) (by decide)).mpr (.inl (by decide))).2.2

-- Two bytes, one place up: the user library's memmove copies the first byte twice.
theorem memmoves_differ_up : Kernel.memmove (fun a => UInt8.ofNat a) 5 4 2 6 = 5 ∧ Ulib.memmove (fun a => UInt8.ofNat a) 5 4 2 6 = 4 ∧
    ¬ Moved (fun a => UInt8.ofNat a) 5 4 2 (Ulib.memmove (fun a => UInt8.ofNat a) 5 4 2) := by
  refine ⟨by decide, by decide, fun moved => ?_⟩
  have wrong : (4 : UInt8) = 5 := moved.inside 1 (by decide)
  cases wrong

end

end Xv6.Memmove
