import Xv6.Lib.Prog

set_option autoImplicit false

namespace Xv6

-- A doubly linked list: from a through xs to e, every link in both directions.
def Joined (next prev : Nat → Nat) : Nat → List Nat → Nat → Prop
  | a, [], e => next a = e ∧ prev e = a
  | a, x :: xs, e => next a = x ∧ prev x = a ∧ Joined next prev x xs e

structure Cycle (next prev : Nat → Nat) (h : Nat) (xs : List Nat) : Prop where
  joined : Joined next prev h xs h
  nodup : (h :: xs).Nodup

section

variable {next prev next' prev' : Nat → Nat} {a b e h : Nat} {xs ys : List Nat}

theorem joined_append (xs : List Nat) (x : Nat) (ys : List Nat) :
    Joined next prev a (xs ++ x :: ys) e ↔ Joined next prev a xs x ∧ Joined next prev x ys e := by
  induction xs generalizing a with
  | nil => exact and_assoc.symm
  | cons y rest ih =>
    rw [List.cons_append, Joined, Joined, ih]
    exact ⟨fun ⟨first, back, before, after⟩ => ⟨⟨first, back, before⟩, after⟩,
      fun ⟨⟨first, back, before⟩, after⟩ => ⟨first, back, before, after⟩⟩

theorem joined_congr (joined : Joined next prev a xs e) (forward : ∀ x ∈ a :: xs, next' x = next x)
    (backward : ∀ x ∈ xs ++ [e], prev' x = prev x) : Joined next' prev' a xs e := by
  induction xs generalizing a with
  | nil =>
    obtain ⟨first, back⟩ := joined
    exact ⟨(forward a List.mem_cons_self).trans first, (backward e List.mem_cons_self).trans back⟩
  | cons x rest ih =>
    obtain ⟨first, back, later⟩ := joined
    refine ⟨(forward a List.mem_cons_self).trans first, (backward x List.mem_cons_self).trans back, ih later ?_ ?_⟩
    · exact fun y member => forward y (List.mem_cons_of_mem a member)
    · exact fun y member => backward y (List.mem_cons_of_mem x member)

theorem joined_first (joined : Joined next prev a xs e) : next a = xs.headD e := by
  cases xs with
  | nil => exact joined.1
  | cons x rest => exact joined.1

theorem joined_last (joined : Joined next prev a xs e) : prev e ∈ a :: xs := by
  induction xs generalizing a with
  | nil => exact List.mem_singleton.mpr joined.2
  | cons x rest ih => exact List.mem_cons_of_mem a (ih joined.2.2)

theorem joined_redirect (joined : Joined next prev a xs e) (nodup : (a :: xs).Nodup) {f : Nat} (linked : next' (prev e) = f)
    (forward : ∀ x ∈ a :: xs, x ≠ prev e → next' x = next x) (backward : ∀ x ∈ xs, prev' x = prev x)
    (back : prev' f = prev e) : Joined next' prev' a xs f := by
  induction xs generalizing a with
  | nil =>
    obtain ⟨-, last⟩ := joined
    rw [last] at linked back
    exact ⟨linked, back⟩
  | cons x rest ih =>
    obtain ⟨first, before, later⟩ := joined
    obtain ⟨apart, distinct⟩ := List.nodup_cons.mp nodup
    have other : a ≠ prev e := fun same => apart (same ▸ joined_last later)
    refine ⟨(forward a List.mem_cons_self other).trans first, (backward x List.mem_cons_self).trans before, ?_⟩
    exact ih later distinct (fun y member => forward y (List.mem_cons_of_mem a member))
      fun y member => backward y (List.mem_cons_of_mem x member)

theorem cycle_unlink (cycle : Cycle next prev h (xs ++ b :: ys)) :
    Cycle (upd next (prev b) (next b)) (upd prev (next b) (prev b)) h (xs ++ ys) := by
  obtain ⟨joined, nodup⟩ := cycle
  obtain ⟨before, after⟩ := (joined_append xs b ys).mp joined
  have nodup' : ((h :: xs) ++ b :: ys).Nodup := nodup
  obtain ⟨left, right, apart⟩ := List.nodup_append.mp nodup'
  have first := joined_first after
  have last := joined_last before
  refine ⟨?_, ?_⟩
  · cases ys with
    | nil =>
      rw [List.append_nil]
      refine joined_redirect before left ((upd_self _ _ _).trans first) (fun x _ other => upd_ne other)
        (fun x member => upd_ne fun same => ?_) ?_
      · rw [first] at same
        rw [show x = h from same] at member
        exact (List.nodup_cons.mp left).1 member
      · rw [first]
        exact upd_self _ _ _
    | cons f rest =>
      obtain ⟨-, -, later⟩ := after
      refine (joined_append xs f rest).mpr ⟨?_, ?_⟩
      · refine joined_redirect before left ((upd_self _ _ _).trans first) (fun x _ other => upd_ne other)
          (fun x member => upd_ne fun same => ?_) ?_
        · rw [first] at same
          exact apart x (List.mem_cons_of_mem h member) f (List.mem_cons_of_mem b List.mem_cons_self) same
        · rw [first]
          exact upd_self _ _ _
      · refine joined_congr later (fun x member => upd_ne fun same => ?_) (fun x member => upd_ne fun same => ?_)
        · exact apart _ last x (List.mem_cons_of_mem b member) same.symm
        · rw [first] at same
          have here : x = f := same
          rw [here] at member
          rcases List.mem_append.mp member with inside | top
          · exact (List.nodup_cons.mp (List.nodup_cons.mp right).2).1 inside
          · have same' : f = h := List.mem_singleton.mp top
            exact apart h List.mem_cons_self f (List.mem_cons_of_mem b List.mem_cons_self) same'.symm
  · have whole : ((h :: xs) ++ ys).Nodup :=
      List.nodup_append.mpr ⟨left, (List.nodup_cons.mp right).2, fun x member y other => apart x member y (List.mem_cons_of_mem b other)⟩
    exact whole

theorem cycle_push (cycle : Cycle next prev h xs) (new : b ∉ h :: xs) :
    Cycle (upd (upd next b (next h)) h b) (upd (upd prev b h) (next h) b) h (b :: xs) := by
  obtain ⟨joined, nodup⟩ := cycle
  have first := joined_first joined
  have other : b ≠ h := fun same => new (same ▸ List.mem_cons_self)
  have target : next h ∈ h :: xs := by
    rw [first]
    cases xs with
    | nil => exact List.mem_cons_self
    | cons x rest => exact List.mem_cons_of_mem h List.mem_cons_self
  have apart : next h ≠ b := fun same => new (same ▸ target)
  refine ⟨⟨upd_self _ _ _, ?_, ?_⟩, ?_⟩
  · rw [upd_ne (Ne.symm apart), upd_self]
  · cases xs with
    | nil =>
      refine ⟨?_, ?_⟩
      · rw [upd_ne other, upd_self]
        exact first
      · rw [first]
        exact upd_self _ _ _
    | cons x rest =>
      obtain ⟨-, -, later⟩ := joined
      obtain ⟨distinct, distinct'⟩ := List.nodup_cons.mp nodup
      refine ⟨?_, ?_, joined_congr later (fun y member => ?_) (fun y member => ?_)⟩
      · rw [upd_ne other, upd_self]
        exact first
      · rw [first]
        exact upd_self _ _ _
      · have notTop : y ≠ h := fun same => distinct (same ▸ member)
        have notNew : y ≠ b := fun same => new (same ▸ List.mem_cons_of_mem h member)
        rw [upd_ne notTop, upd_ne notNew]
      · have notFirst : y ≠ next h := by
          rw [first]
          rintro rfl
          rcases List.mem_append.mp member with inside | top
          · exact (List.nodup_cons.mp distinct').1 inside
          · exact distinct (List.mem_singleton.mp top ▸ List.mem_cons_self)
        have notNew : y ≠ b := by
          rintro rfl
          rcases List.mem_append.mp member with inside | top
          · exact new (List.mem_cons_of_mem h (List.mem_cons_of_mem x inside))
          · exact new (List.mem_singleton.mp top ▸ List.mem_cons_self)
        rw [upd_ne notFirst, upd_ne notNew]
  · obtain ⟨distinct, distinct'⟩ := List.nodup_cons.mp nodup
    refine List.nodup_cons.mpr ⟨fun member => ?_, List.nodup_cons.mpr ⟨fun member => new (List.mem_cons_of_mem h member), distinct'⟩⟩
    rcases List.mem_cons.mp member with same | inside
    · exact other same.symm
    · exact distinct inside

end

-- The first element that is wanted on the way from a to h; none inside: h was reached.
def scan (step : Nat → Nat) (wanted : Nat → Bool) (h : Nat) : Nat → Nat → Option (Option Nat)
  | 0, _ => none
  | fuel + 1, a => if a = h then some none else if wanted a then some (some a) else scan step wanted h fuel (step a)

section

variable {next prev step : Nat → Nat} {wanted : Nat → Bool} {h : Nat} {xs : List Nat}

def Leads (step : Nat → Nat) (h : Nat) : Nat → List Nat → Prop
  | a, [] => step a = h
  | a, x :: xs => step a = x ∧ Leads step h x xs

theorem joined_leads {a : Nat} (joined : Joined next prev a xs h) : Leads next h a xs := by
  induction xs generalizing a with
  | nil => exact joined.1
  | cons x rest ih => exact ⟨joined.1, ih joined.2.2⟩

theorem leads_append {a : Nat} (xs : List Nat) (x : Nat) (leads : Leads step x a xs) (last : step x = h) : Leads step h a (xs ++ [x]) := by
  induction xs generalizing a with
  | nil => exact ⟨leads, last⟩
  | cons y rest ih => exact ⟨leads.1, ih leads.2⟩

theorem joined_leads_back {a e : Nat} (joined : Joined next prev a xs e) : Leads prev a e xs.reverse := by
  induction xs generalizing a with
  | nil => exact joined.2
  | cons x rest ih =>
    rw [List.reverse_cons]
    exact leads_append _ x (ih joined.2.2) joined.2.1

theorem scan_leads {a : Nat} (leads : Leads step h a xs) (inside : h ∉ xs) (fuel : Nat) (enough : xs.length < fuel) :
    scan step wanted h fuel (step a) = some (xs.find? wanted) := by
  induction xs generalizing a fuel with
  | nil =>
    cases fuel with
    | zero => exact absurd enough (Nat.not_lt_zero _)
    | succ fuel =>
      have here : step a = h := leads
      rw [scan, if_pos here, List.find?_nil]
  | cons x rest ih =>
    cases fuel with
    | zero => exact absurd enough (Nat.not_lt_zero _)
    | succ fuel =>
      obtain ⟨here, later⟩ := leads
      have other : x ≠ h := fun same => inside (same ▸ List.mem_cons_self)
      rw [here, scan, if_neg other, List.find?_cons]
      cases wanted x with
      | true => rfl
      | false => exact ih later (fun member => inside (List.mem_cons_of_mem x member)) fuel (Nat.lt_of_succ_lt_succ enough)

theorem cycle_scan (cycle : Cycle next prev h xs) (fuel : Nat) (enough : xs.length < fuel) :
    scan next wanted h fuel (next h) = some (xs.find? wanted) :=
  scan_leads (joined_leads cycle.joined) (List.nodup_cons.mp cycle.nodup).1 fuel enough

theorem cycle_scan_back (cycle : Cycle next prev h xs) (fuel : Nat) (enough : xs.length < fuel) :
    scan prev wanted h fuel (prev h) = some (xs.reverse.find? wanted) := by
  refine scan_leads (joined_leads_back cycle.joined) ?_ fuel ?_
  · exact fun member => (List.nodup_cons.mp cycle.nodup).1 (List.mem_reverse.mp member)
  · rw [List.length_reverse]
    exact enough

end

end Xv6
