import Xv6.Fs.Image
import Xv6.Fs.Refs
import Xv6.Vm.Image

set_option autoImplicit false

namespace Xv6

-- exec as the address space and as the file system see it.

namespace Vm

variable {k : Kernel} {t : Tables} {m : Ram} {role : Nat → Role} {cond : Event RamOp Ram → Prop} {bad : String → Prop} {pid : Nat}

def others (role : Nat → Role) (f : Nat) : Role := if role f = .free then .free else .out

theorem others_free (role : Nat → Role) (f : Nat) : others role f = .free ↔ role f = .free := by
  unfold others
  split
  · next free => exact ⟨fun _ => free, fun _ => rfl⟩
  · next busy => exact ⟨fun never => (by cases never), fun free => absurd free busy⟩

theorem others_plain (role : Nat → Role) (f : Nat) : others role f = .free ∨ others role f = .out := by
  unfold others
  split
  · exact .inl rfl
  · exact .inr rfl

theorem frames_others (frames : Frames k m role) : Frames k m (others role) := by
  have plain : ∀ {f : Nat} {r : Role}, others role f = r → r = .free ∨ r = .out := fun same => same ▸ others_plain role _
  refine ⟨frames.nodup, fun f => (frames.free f).trans (others_free role f).symm, fun f used => ?_, fun d is => ?_, fun t d i is => ?_,
    fun t d i is => ?_, fun f d n is => ?_⟩
  · have free := (others_free role f).mp ((others_plain role f).resolve_right used)
    exact frames.managed f (by simp [free])
  · rcases plain is with never | never <;> cases never
  · rcases plain is with never | never <;> cases never
  · rcases plain is with never | never <;> cases never
  · rcases plain is with never | never <;> cases never

theorem exec_failed_spec (quiet : ∀ msg, ¬ bad msg) (found : ∀ m m', ¬ cond ⟨pid, .probe .nullPte, (), m, m'⟩)
    (frames : Frames k m role) (p : Nat) (path : List UInt8) (ip : Option Source) (args : List Arg) :
    Spec k cond bad pid (exec k t p path ip args) m fun r m' =>
      r.2 = false → r.1 = t ∧ ∀ f, role f ≠ .free → m'.word f = m.word f := by
  unfold exec
  split
  · exact fun _ => ⟨rfl, fun _ _ => rfl⟩
  cases ip with
  | none => exact fun _ => ⟨rfl, fun _ _ => rfl⟩
  | some ip =>
    refine spec_cur quiet fun old dir => ?_
    refine Prog.wp_call (exec_image_spec found old ip args (frames_others frames)) ?_
    rintro r m₁ (⟨rfl, role', failed⟩ | ⟨image, role₁, rfl, -⟩)
    · refine fun _ => ⟨rfl, fun f busy => failed.outside f ?_⟩
      exact (others_plain role f).resolve_left fun free => busy ((others_free role f).mp free)
    · exact Prog.wp_call (Prog.wp_true _ quiet _) fun _ _ _ never => (by cases never)

theorem lookup_in_use {m' : Ram} {d n : Nat} (frames : Frames k m role) (is : role d = .dir)
    (same : ∀ f, role f ≠ .free → m'.word f = m.word f) (bound : n < 2 ^ 20) : lookup m' d n = lookup m d n := by
  unfold lookup
  rw [same d (by simp [is])]
  by_cases present : (m.word d (n / 1024)).p = true
  · have table := frames.dir d is _ (by omega) present
    rw [same _ (by simp [table])]
  · rw [Bool.eq_false_iff.mpr present, Bool.false_and, Bool.false_and, if_neg Bool.false_ne_true, if_neg Bool.false_ne_true]

theorem user_byte_in_use {m' : Ram} {d a : Nat} (frames : Frames k m role) (is : role d = .dir)
    (same : ∀ f, role f ≠ .free → m'.word f = m.word f) (user : a < kernbase) : userByte m' d a = userByte m d a := by
  have bound : a / pgsize < 2 ^ 19 := by
    have limit : a < 2 ^ 31 := user
    rw [pgsize]
    omega
  unfold userByte
  rw [lookup_in_use frames is same (Nat.lt_trans bound (by decide))]
  cases found : lookup m d (a / pgsize) with
  | none => rw [Option.map_none, Option.map_none]
  | some e =>
    have page := lookup_page frames is bound found
    rw [Option.map_some, Option.map_some, Ram.byte, same e.frame (by simp [page])]
    rfl

end Vm

end Xv6
