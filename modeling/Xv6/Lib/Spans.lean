import Mathlib.Data.List.Basic
import Mathlib.Tactic.Ring

set_option autoImplicit false

namespace Xv6

structure Span where
  start : Nat
  len : Nat
deriving DecidableEq

namespace Span

def fin (s : Span) : Nat := s.start + s.len

def Covers (s : Span) (x : Nat) : Prop := s.start ≤ x ∧ x < s.fin

def Apart (s t : Span) : Prop := s.fin ≤ t.start ∨ t.fin ≤ s.start

end Span

namespace Spans

def Separated (fs : List Span) : Prop := fs.Pairwise fun s t => s.fin < t.start

def total (fs : List Span) : Nat := (fs.map Span.len).sum

def Covers (fs : List Span) (x : Nat) : Prop := ∃ f ∈ fs, f.Covers x

def attach (s : Span) : List Span → List Span
  | [] => [s]
  | t :: rest => if s.fin = t.start then ⟨s.start, s.len + t.len⟩ :: rest else s :: t :: rest

def insertSpan (b : Span) : List Span → List Span
  | [] => [b]
  | f :: rest => if b.start < f.start then attach b (f :: rest) else attach f (insertSpan b rest)

structure Taken (fs fs' : List Span) (b : Span) : Prop where
  total : total fs = total fs' + b.len
  covers : ∀ x, Covers fs x ↔ Covers fs' x ∨ b.Covers x
  apart : ∀ f ∈ fs', b.Apart f
  starts : ∀ f ∈ fs', ∃ g ∈ fs, f.start = g.start

section

variable {s b : Span} {fs : List Span} {x : Nat}

theorem span_apart_covers {s t : Span} (apart : s.Apart t) (first : s.Covers x) (second : t.Covers x) : False := by
  unfold Span.Covers at first second
  rcases apart with before | after <;> omega

theorem span_apart_of_covers {s t : Span} (first : 0 < s.len) (second : 0 < t.len) (none_ : ∀ x, s.Covers x → ¬ t.Covers x) :
    s.Apart t := by
  have atFirst := none_ s.start
  have atSecond := none_ t.start
  unfold Span.Covers Span.Apart Span.fin at *
  omega

theorem attach_total (s : Span) (fs : List Span) : total (attach s fs) = s.len + total fs := by
  cases fs with
  | nil => rfl
  | cons t rest =>
    rw [attach]
    split
    · simp only [total, List.map_cons, List.sum_cons]
      omega
    · rfl

theorem insert_total (b : Span) (fs : List Span) : total (insertSpan b fs) = b.len + total fs := by
  induction fs with
  | nil => rfl
  | cons f rest ih =>
    rw [insertSpan]
    split
    · rw [attach_total]
    · rw [attach_total, ih]
      simp only [total, List.map_cons, List.sum_cons]
      omega

theorem covers_cons (s : Span) (fs : List Span) (x : Nat) : Covers (s :: fs) x ↔ s.Covers x ∨ Covers fs x := by
  simp [Covers]

theorem attach_covers (s : Span) (fs : List Span) (x : Nat) : Covers (attach s fs) x ↔ s.Covers x ∨ Covers fs x := by
  cases fs with
  | nil => exact covers_cons s [] x
  | cons t rest =>
    rw [attach]
    split
    case isTrue touch =>
      rw [covers_cons, covers_cons, ← or_assoc]
      refine or_congr_left ?_
      unfold Span.Covers Span.fin at *
      dsimp only
      omega
    case isFalse => exact covers_cons s (t :: rest) x

theorem insert_covers (b : Span) (fs : List Span) (x : Nat) : Covers (insertSpan b fs) x ↔ b.Covers x ∨ Covers fs x := by
  induction fs with
  | nil => exact covers_cons b [] x
  | cons f rest ih =>
    rw [insertSpan]
    split
    · exact attach_covers b (f :: rest) x
    · rw [attach_covers, ih, covers_cons]
      exact or_left_comm

theorem attach_start {t : Span} (member : t ∈ attach s fs) : t.start = s.start ∨ t ∈ fs := by
  cases fs with
  | nil => exact .inl (by rw [List.mem_singleton.mp member])
  | cons f rest =>
    rw [attach] at member
    split at member
    · rcases List.mem_cons.mp member with rfl | old
      · exact .inl rfl
      · exact .inr (List.mem_cons_of_mem f old)
    · rcases List.mem_cons.mp member with rfl | old
      · exact .inl rfl
      · exact .inr old

theorem attach_apart (apart : ∀ t ∈ fs, s.fin ≠ t.start) : attach s fs = s :: fs := by
  cases fs with
  | nil => rfl
  | cons t rest => rw [attach, if_neg (apart t List.mem_cons_self)]

theorem attach_separated (separated : Separated fs) (before : ∀ f ∈ fs, s.fin ≤ f.start) (real : ∀ f ∈ fs, 0 < f.len) :
    Separated (attach s fs) := by
  cases fs with
  | nil => exact List.pairwise_singleton _ _
  | cons t rest =>
    obtain ⟨first, others⟩ := List.pairwise_cons.mp separated
    rw [attach]
    split
    case isTrue touch =>
      refine List.pairwise_cons.mpr ⟨fun f member => ?_, others⟩
      have := first f member
      unfold Span.fin at *
      dsimp only
      omega
    case isFalse apart =>
      refine List.pairwise_cons.mpr ⟨fun f member => ?_, separated⟩
      have close := before t List.mem_cons_self
      rcases List.mem_cons.mp member with rfl | later
      · omega
      · have := first f later
        have := real t List.mem_cons_self
        unfold Span.fin at *
        omega

theorem insert_start {t : Span} (member : t ∈ insertSpan b fs) : t.start = b.start ∨ ∃ f ∈ fs, t.start = f.start := by
  induction fs generalizing t with
  | nil => exact .inl (by rw [List.mem_singleton.mp member])
  | cons f rest ih =>
    rw [insertSpan] at member
    split at member
    · exact (attach_start member).imp_right fun old => ⟨t, old, rfl⟩
    · rcases attach_start member with same | old
      · exact .inr ⟨f, List.mem_cons_self, same⟩
      · rcases ih old with new | ⟨f', member', same⟩
        · exact .inl new
        · exact .inr ⟨f', List.mem_cons_of_mem f member', same⟩

theorem attach_real (real : ∀ f ∈ fs, 0 < f.len) (new : 0 < s.len) : ∀ f ∈ attach s fs, 0 < f.len := by
  intro f member
  cases fs with
  | nil =>
    rw [List.mem_singleton.mp member]
    exact new
  | cons t rest =>
    rw [attach] at member
    split at member
    · rcases List.mem_cons.mp member with rfl | old
      · exact Nat.add_pos_left new _
      · exact real f (List.mem_cons_of_mem t old)
    · rcases List.mem_cons.mp member with rfl | old
      · exact new
      · exact real f old

theorem attach_head (s : Span) (fs : List Span) : ∃ len rest, attach s fs = ⟨s.start, len⟩ :: rest := by
  cases fs with
  | nil => exact ⟨_, _, rfl⟩
  | cons t rest =>
    rw [attach]
    split
    · exact ⟨_, _, rfl⟩
    · exact ⟨_, _, rfl⟩

theorem attach_bound {limit : Nat} (bound : ∀ f ∈ fs, f.fin < limit) (new : s.fin < limit) : ∀ f ∈ attach s fs, f.fin < limit := by
  intro f member
  cases fs with
  | nil =>
    rw [List.mem_singleton.mp member]
    exact new
  | cons t rest =>
    rw [attach] at member
    split at member
    case isTrue touch =>
      rcases List.mem_cons.mp member with rfl | old
      · have := bound t List.mem_cons_self
        unfold Span.fin at *
        dsimp only
        omega
      · exact bound f (List.mem_cons_of_mem t old)
    case isFalse =>
      rcases List.mem_cons.mp member with rfl | old
      · exact new
      · exact bound f old

theorem insert_bound {limit : Nat} (bound : ∀ f ∈ fs, f.fin < limit) (new : b.fin < limit) : ∀ f ∈ insertSpan b fs, f.fin < limit := by
  induction fs with
  | nil => exact attach_bound bound new
  | cons f rest ih =>
    rw [insertSpan]
    split
    · exact attach_bound bound new
    · exact attach_bound (ih fun f' member => bound f' (List.mem_cons_of_mem f member)) (bound f List.mem_cons_self)

theorem insert_fits (b : Span) (fs : List Span) : ∃ f ∈ insertSpan b fs, b.len ≤ f.len := by
  have attached : ∀ (s : Span) (gs : List Span), ∃ f ∈ attach s gs, s.len ≤ f.len := by
    intro s gs
    cases gs with
    | nil => exact ⟨s, List.mem_cons_self, Nat.le_refl _⟩
    | cons t rest =>
      rw [attach]
      split
      · exact ⟨_, List.mem_cons_self, Nat.le_add_right _ _⟩
      · exact ⟨_, List.mem_cons_self, Nat.le_refl _⟩
  induction fs with
  | nil => exact attached b []
  | cons f rest ih =>
    rw [insertSpan]
    split
    · exact attached b (f :: rest)
    · obtain ⟨g, member, long⟩ := ih
      generalize insertSpan b rest = gs at member
      cases gs with
      | nil => cases member
      | cons t later =>
        rw [attach]
        split
        · rcases List.mem_cons.mp member with rfl | old
          · exact ⟨_, List.mem_cons_self, Nat.le_add_left_of_le long⟩
          · exact ⟨g, List.mem_cons_of_mem _ old, long⟩
        · exact ⟨g, List.mem_cons_of_mem f member, long⟩

theorem place (s : Span) (fs : List Span) (x : Nat) (separated : Separated (s :: fs)) (above : s.start < x)
    (other : ∀ f ∈ fs, f.start ≠ x) :
    ∃ l a r, s :: fs = l ++ a :: r ∧ (∀ f ∈ l, f.start < x) ∧ a.start < x ∧ ∀ f ∈ r, x < f.start := by
  induction fs generalizing s with
  | nil => exact ⟨[], s, [], rfl, fun _ never => absurd never (by simp), above, fun _ never => absurd never (by simp)⟩
  | cons t rest ih =>
    obtain ⟨first, others⟩ := List.pairwise_cons.mp separated
    by_cases high : x < t.start
    · refine ⟨[], s, t :: rest, rfl, fun _ never => absurd never (by simp), above, fun f member => ?_⟩
      rcases List.mem_cons.mp member with rfl | later
      · exact high
      · have := (List.pairwise_cons.mp others).1 f later
        unfold Span.fin at this
        omega
    · have low : t.start < x := Nat.lt_of_le_of_ne (Nat.le_of_not_lt high) (other t List.mem_cons_self)
      obtain ⟨l, a, r, split, left, here, right⟩ := ih t others low fun f member => other f (List.mem_cons_of_mem t member)
      refine ⟨s :: l, a, r, by rw [split]; rfl, fun f member => ?_, here, right⟩
      rcases List.mem_cons.mp member with rfl | later
      · exact above
      · exact left f later

theorem insert_real (real : ∀ f ∈ fs, 0 < f.len) (new : 0 < b.len) : ∀ f ∈ insertSpan b fs, 0 < f.len := by
  induction fs with
  | nil => exact attach_real real new
  | cons f rest ih =>
    rw [insertSpan]
    split
    · exact attach_real real new
    · exact attach_real (ih fun f' member => real f' (List.mem_cons_of_mem f member)) (real f List.mem_cons_self)

theorem insert_separated (separated : Separated fs) (apart : ∀ f ∈ fs, b.Apart f) (real : ∀ f ∈ fs, 0 < f.len) (new : 0 < b.len) :
    Separated (insertSpan b fs) := by
  induction fs with
  | nil => exact List.pairwise_singleton _ _
  | cons f rest ih =>
    obtain ⟨first, others⟩ := List.pairwise_cons.mp separated
    have realRest : ∀ f' ∈ rest, 0 < f'.len := fun f' member => real f' (List.mem_cons_of_mem f member)
    have realFirst := real f List.mem_cons_self
    have apartFirst := apart f List.mem_cons_self
    rw [insertSpan]
    split
    case isTrue low =>
      refine attach_separated separated (fun f' member => ?_) real
      have apart' := apart f' member
      have realHere := real f' member
      rcases List.mem_cons.mp member with rfl | later
      · unfold Span.Apart Span.fin at *
        omega
      · have := first f' later
        unfold Span.Apart Span.fin at *
        omega
    case isFalse high =>
      have rest' := ih others (fun f' member => apart f' (List.mem_cons_of_mem f member)) realRest
      refine attach_separated rest' (fun f' member => ?_) (insert_real realRest new)
      rcases insert_start member with same | ⟨old, member', same⟩
      · rw [same]
        unfold Span.Apart Span.fin at *
        omega
      · rw [same]
        exact Nat.le_of_lt (first old member')

theorem insert_between (l : List Span) (a : Span) (r : List Span) (separated : Separated (l ++ a :: r))
    (low : ∀ f ∈ l, ¬ b.start < f.start) (below : ¬ b.start < a.start) (high : ∀ f ∈ r, b.start < f.start)
    (touch : ∀ f ∈ l, f.fin < b.start) : insertSpan b (l ++ a :: r) = l ++ attach a (attach b r) := by
  induction l with
  | nil =>
    rw [List.nil_append, insertSpan, if_neg below]
    cases r with
    | nil => rfl
    | cons f rest => rw [insertSpan, if_pos (high f List.mem_cons_self), List.nil_append]
  | cons f rest ih =>
    obtain ⟨first, others⟩ := List.pairwise_cons.mp (List.cons_append ▸ separated)
    rw [List.cons_append, insertSpan, if_neg (low f List.mem_cons_self),
      ih others (fun f' member => low f' (List.mem_cons_of_mem f member)) fun f' member => touch f' (List.mem_cons_of_mem f member)]
    refine attach_apart fun t member => Nat.ne_of_lt ?_
    rcases List.mem_append.mp member with old | later
    · exact first t (List.mem_append_left _ old)
    · rcases attach_start later with same | later
      · rw [same]
        exact first a (List.mem_append_right _ List.mem_cons_self)
      · rcases attach_start later with same | old
        · rw [same]
          exact touch f List.mem_cons_self
        · exact first t (List.mem_append_right _ (List.mem_cons_of_mem a old))

end

section

variable {m r : List Span} {a : Span}

theorem total_append (xs ys : List Span) : total (xs ++ ys) = total xs + total ys := by
  unfold total
  rw [List.map_append, List.sum_append]

theorem covers_append (xs ys : List Span) (x : Nat) : Covers (xs ++ ys) x ↔ Covers xs x ∨ Covers ys x := by
  unfold Covers
  simp only [List.mem_append, or_and_right, exists_or]

theorem total_cons (xs : List Span) : total (a :: xs) = a.len + total xs := by
  unfold total
  rw [List.map_cons, List.sum_cons]

theorem taken_whole (separated : Separated (m ++ a :: r)) : Taken (m ++ a :: r) (m ++ r) a := by
  obtain ⟨-, right, across⟩ := List.pairwise_append.mp separated
  obtain ⟨first, -⟩ := List.pairwise_cons.mp right
  refine ⟨?_, fun x => ?_, fun f member => ?_, fun f member => ⟨f, ?_, rfl⟩⟩
  · rw [total_append, total_append, total_cons]
    omega
  · rw [covers_append, covers_append, covers_cons]
    tauto
  · rcases List.mem_append.mp member with left | later
    · exact .inr (Nat.le_of_lt (across f left a List.mem_cons_self))
    · exact .inl (Nat.le_of_lt (first f later))
  · rcases List.mem_append.mp member with left | later
    · exact List.mem_append_left _ left
    · exact List.mem_append_right _ (List.mem_cons_of_mem a later)

theorem taken_tail {len : Nat} (separated : Separated (m ++ a :: r)) (less : len < a.len) :
    Taken (m ++ a :: r) (m ++ ⟨a.start, a.len - len⟩ :: r) ⟨a.start + (a.len - len), len⟩ := by
  obtain ⟨-, right, across⟩ := List.pairwise_append.mp separated
  obtain ⟨first, -⟩ := List.pairwise_cons.mp right
  refine ⟨?_, fun x => ?_, fun f member => ?_, fun f member => ?_⟩
  · rw [total_append, total_append, total_cons, total_cons]
    dsimp only
    omega
  · rw [covers_append, covers_append, covers_cons, covers_cons]
    have parts : a.Covers x ↔ Span.Covers ⟨a.start, a.len - len⟩ x ∨ Span.Covers ⟨a.start + (a.len - len), len⟩ x := by
      unfold Span.Covers Span.fin
      dsimp only
      omega
    tauto
  · rcases List.mem_append.mp member with left | later
    · have := across f left a List.mem_cons_self
      unfold Span.Apart Span.fin at *
      dsimp only
      omega
    · rcases List.mem_cons.mp later with rfl | later
      · unfold Span.Apart Span.fin
        dsimp only
        omega
      · have := first f later
        unfold Span.Apart Span.fin at *
        dsimp only
        omega
  · rcases List.mem_append.mp member with left | later
    · exact ⟨f, List.mem_append_left _ left, rfl⟩
    · rcases List.mem_cons.mp later with rfl | later
      · exact ⟨a, List.mem_append_right _ List.mem_cons_self, rfl⟩
      · exact ⟨f, List.mem_append_right _ (List.mem_cons_of_mem a later), rfl⟩

theorem separated_tail {len : Nat} (separated : Separated (m ++ a :: r)) (less : len ≤ a.len) :
    Separated (m ++ ⟨a.start, len⟩ :: r) := by
  obtain ⟨left, right, across⟩ := List.pairwise_append.mp separated
  obtain ⟨first, rest⟩ := List.pairwise_cons.mp right
  refine List.pairwise_append.mpr ⟨left, List.pairwise_cons.mpr ⟨fun f member => ?_, rest⟩, fun f before g member => ?_⟩
  · have := first f member
    unfold Span.fin at *
    dsimp only
    omega
  · rcases List.mem_cons.mp member with rfl | later
    · exact across f before a List.mem_cons_self
    · exact across f before g (List.mem_cons_of_mem a later)

end

end Spans

end Xv6
