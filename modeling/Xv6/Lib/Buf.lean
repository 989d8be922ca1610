import Mathlib.Tactic.Ring
import Mathlib.Tactic.Common

set_option autoImplicit false

namespace Xv6

def leValue (f : Nat → UInt8) : Nat → Nat
  | 0 => 0
  | k + 1 => (f 0).toNat + 256 * leValue (fun i => f (i + 1)) k

def leByte (v i : Nat) : UInt8 := UInt8.ofNat (v / 256 ^ i)

theorem le_value_congr (f g : Nat → UInt8) (k : Nat) (same : ∀ i < k, f i = g i) : leValue f k = leValue g k := by
  induction k generalizing f g with
  | zero => rfl
  | succ k ih =>
    simp only [leValue, same 0 (by omega)]
    rw [ih (fun i => f (i + 1)) (fun i => g (i + 1)) (fun i bound => same (i + 1) (by omega))]

theorem le_value_lt (f : Nat → UInt8) (k : Nat) : leValue f k < 256 ^ k := by
  induction k generalizing f with
  | zero => simp [leValue]
  | succ k ih =>
    have head := (f 0).toNat_lt
    have tail := ih (fun i => f (i + 1))
    simp only [leValue, Nat.pow_succ]
    omega

theorem le_value_byte (v k : Nat) : leValue (leByte v) k = v % 256 ^ k := by
  induction k generalizing v with
  | zero => simp [leValue, Nat.mod_one]
  | succ k ih =>
    have shifted : (fun i => leByte v (i + 1)) = leByte (v / 256) := by
      funext i
      simp only [leByte, Nat.pow_succ']
      rw [Nat.div_div_eq_div_mul]
    have low : (leByte v 0).toNat = v % 256 := by simp [leByte, UInt8.toNat_ofNat']
    rw [leValue, shifted, ih, low, Nat.pow_succ', Nat.mod_mul]

theorem le_byte_value (f : Nat → UInt8) (k i : Nat) (bound : i < k) : leByte (leValue f k) i = f i := by
  induction k generalizing f i with
  | zero => omega
  | succ k ih =>
    cases i with
    | zero =>
      apply UInt8.toNat_inj.mp
      have head := (f 0).toNat_lt
      simp only [leByte, leValue, Nat.pow_zero, Nat.div_one, UInt8.toNat_ofNat']
      omega
    | succ i =>
      have shifted : leByte (leValue f (k + 1)) (i + 1) = leByte (leValue (fun j => f (j + 1)) k) i := by
        have head := (f 0).toNat_lt
        simp only [leByte, leValue, Nat.pow_succ']
        rw [← Nat.div_div_eq_div_mul]
        congr 2
        omega
      rw [shifted]
      exact ih (fun j => f (j + 1)) i (by omega)

theorem le_value_zero (f : Nat → UInt8) (k : Nat) (zero : ∀ i < k, f i = 0) : leValue f k = 0 := by
  induction k generalizing f with
  | zero => rfl
  | succ k ih =>
    rw [leValue, zero 0 (by omega), ih _ (fun i bound => zero (i + 1) (by omega))]
    rfl

def Buf (n : Nat) : Type := Fin n → UInt8

namespace Buf

variable {n : Nat}

def get (b : Buf n) (o : Nat) : UInt8 := if bound : o < n then b ⟨o, bound⟩ else 0

def ofFn (f : Nat → UInt8) : Buf n := fun i => f i

def splice (b : Buf n) (off len : Nat) (src : Nat → UInt8) : Buf n :=
  ofFn fun i => if off ≤ i ∧ i < off + len then src (i - off) else b.get i

def zero : Buf n := ofFn fun _ => 0

def getLE (b : Buf n) (off k : Nat) : Nat := leValue (fun i => b.get (off + i)) k

def putLE (b : Buf n) (off k v : Nat) : Buf n := b.splice off k (leByte v)

theorem ext_get (a b : Buf n) (same : ∀ o < n, a.get o = b.get o) : a = b := by
  funext i
  have here := same i i.isLt
  simpa only [get, i.isLt, dif_pos] using here

theorem get_ofFn (f : Nat → UInt8) (o : Nat) (bound : o < n) : (ofFn f : Buf n).get o = f o := by
  simp only [get, bound, dif_pos, ofFn]

theorem get_outside (b : Buf n) (o : Nat) (outside : n ≤ o) : b.get o = 0 := by
  simp only [get, Nat.not_lt.mpr outside, dif_neg, not_false_eq_true]

@[simp] theorem get_zero (o : Nat) : (zero : Buf n).get o = 0 := by
  by_cases bound : o < n
  · exact get_ofFn _ o bound
  · exact get_outside _ o (Nat.le_of_not_lt bound)

theorem get_splice (b : Buf n) (off len : Nat) (src : Nat → UInt8) (o : Nat) (fits : off + len ≤ n) :
    (b.splice off len src).get o = if off ≤ o ∧ o < off + len then src (o - off) else b.get o := by
  by_cases bound : o < n
  · rw [splice, get_ofFn _ o bound]
  · rw [get_outside _ o (Nat.le_of_not_lt bound), if_neg (by omega), get_outside _ o (Nat.le_of_not_lt bound)]

theorem get_splice_outside (b : Buf n) (off len : Nat) (src : Nat → UInt8) (o : Nat)
    (outside : o < off ∨ off + len ≤ o) : (b.splice off len src).get o = b.get o := by
  by_cases bound : o < n
  · rw [splice, get_ofFn _ o bound, if_neg (by omega)]
  · rw [get_outside _ o (Nat.le_of_not_lt bound), get_outside _ o (Nat.le_of_not_lt bound)]

theorem splice_congr (b : Buf n) (off len : Nat) (src src' : Nat → UInt8) (same : ∀ i < len, src i = src' i) :
    b.splice off len src = b.splice off len src' := by
  apply ext_get
  intro o bound
  rw [splice, splice, get_ofFn _ o bound, get_ofFn _ o bound]
  split
  · exact same _ (by omega)
  · rfl

theorem getLE_lt (b : Buf n) (off k : Nat) : b.getLE off k < 256 ^ k := le_value_lt _ k

theorem getLE_congr (a b : Buf n) (off k : Nat) (same : ∀ i < k, a.get (off + i) = b.get (off + i)) :
    a.getLE off k = b.getLE off k := le_value_congr _ _ k same

theorem getLE_zero (off k : Nat) : (zero : Buf n).getLE off k = 0 :=
  le_value_zero _ k (fun _ _ => get_zero _)

theorem getLE_putLE (b : Buf n) (off k v : Nat) (fits : off + k ≤ n) :
    (b.putLE off k v).getLE off k = v % 256 ^ k := by
  rw [← le_value_byte]
  apply le_value_congr
  intro i bound
  rw [putLE, get_splice _ _ _ _ _ fits, if_pos (by omega), Nat.add_sub_cancel_left]

theorem getLE_splice_outside (b : Buf n) (off len : Nat) (src : Nat → UInt8) (at_ k : Nat)
    (outside : at_ + k ≤ off ∨ off + len ≤ at_) : (b.splice off len src).getLE at_ k = b.getLE at_ k := by
  apply getLE_congr
  intro i bound
  exact get_splice_outside b off len src (at_ + i) (by omega)

theorem getLE_putLE_outside (b : Buf n) (off k v at_ j : Nat) (outside : at_ + j ≤ off ∨ off + k ≤ at_) :
    (b.putLE off k v).getLE at_ j = b.getLE at_ j :=
  getLE_splice_outside b off k (leByte v) at_ j outside

end Buf

end Xv6
