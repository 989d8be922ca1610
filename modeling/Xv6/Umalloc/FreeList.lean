import Xv6.Lib.Links
import Xv6.Lib.Spans
import Xv6.Umalloc.Model

set_option autoImplicit false

namespace Xv6.Umalloc

open Spans

structure Stored (mem : Nat → Header) (fs : List Span) (e : Nat) : Prop where
  links : Links (fun a => (mem a).ptr) (fs.map Span.start) e
  sizes : ∀ f ∈ fs, f.len = 8 * (mem f.start).size

-- The circular list in address order, with base as a block without units.
def nodes (base : Nat) (fs : List Span) : List Span := ⟨base, 0⟩ :: fs

structure FreeList (base : Nat) (h : Heap) (fs : List Span) : Prop where
  stored : Stored h.mem (nodes base fs) base
  freep : h.freep ∈ (nodes base fs).map Span.start
  separated : Separated (nodes base fs)
  real : ∀ f ∈ fs, 0 < f.len
  bound : ∀ f ∈ nodes base fs, f.fin < word

section

variable {mem : Nat → Header} {fs : List Span} {a b : Span} {e base : Nat} {h : Heap}

theorem stored_frame {mem' : Nat → Header} (same : ∀ f ∈ fs, mem' f.start = mem f.start) (stored : Stored mem fs e) :
    Stored mem' fs e := by
  refine ⟨links_congr _ e (fun x member => ?_) stored.links, fun f member => ?_⟩
  · obtain ⟨f, member', rfl⟩ := List.mem_map.mp member
    exact congrArg Header.ptr (same f member')
  · rw [same f member]
    exact stored.sizes f member

theorem stored_cons : Stored mem (a :: fs) e ↔
    (mem a.start).ptr = (fs.map Span.start).headD e ∧ a.len = 8 * (mem a.start).size ∧ Stored mem fs e := by
  constructor
  · intro stored
    refine ⟨stored.links.1, stored.sizes a List.mem_cons_self, stored.links.2, fun f member => ?_⟩
    exact stored.sizes f (List.mem_cons_of_mem a member)
  · rintro ⟨ptr, size, rest⟩
    refine ⟨⟨ptr, rest.links⟩, fun f member => ?_⟩
    rcases List.mem_cons.mp member with rfl | later
    · exact size
    · exact rest.sizes f later

theorem stored_append {gs : List Span} : Stored mem (fs ++ gs) e ↔ Stored mem fs ((gs.map Span.start).headD e) ∧ Stored mem gs e := by
  constructor
  · intro stored
    have links := stored.links
    rw [List.map_append, links_append] at links
    exact ⟨⟨links.1, fun f member => stored.sizes f (List.mem_append_left gs member)⟩,
      links.2, fun f member => stored.sizes f (List.mem_append_right fs member)⟩
  · rintro ⟨first, second⟩
    refine ⟨?_, fun f member => ?_⟩
    · rw [List.map_append, links_append]
      exact ⟨first.links, second.links⟩
    · rcases List.mem_append.mp member with left | right
      · exact first.sizes f left
      · exact second.sizes f right

theorem separated_start (separated : Separated (a :: fs)) {f : Span} (member : f ∈ fs) : a.fin < f.start :=
  (List.pairwise_cons.mp separated).1 f member

theorem join_stored (stored : Stored mem fs e) (size : a.len = 8 * (mem a.start).size)
    (before : ∀ f ∈ fs, a.fin ≤ f.start ∧ a.start < f.start) (bound : ∀ f ∈ fs, f.fin < word) (low : a.fin < word)
    (last : fs = [] → a.fin ≠ e) :
    Stored (upd mem a.start (join mem a.start ((fs.map Span.start).headD e))) (attach a fs) e := by
  have frame : ∀ f ∈ fs, upd mem a.start (join mem a.start ((fs.map Span.start).headD e)) f.start = mem f.start := fun f member =>
    upd_ne (Nat.ne_of_gt (before f member).2)
  have total : add a.start (mem a.start).size = a.fin := by
    unfold add
    rw [← size]
    exact Nat.mod_eq_of_lt low
  cases fs with
  | nil =>
    refine stored_cons.mpr ⟨?_, ?_, stored_frame frame stored⟩
    · rw [upd_self, join, total, List.map_nil, List.headD_nil, if_neg (last rfl)]
    · rw [upd_self, join, total, List.map_nil, List.headD_nil, if_neg (last rfl)]
      exact size
  | cons t rest =>
    obtain ⟨ptr, length, others⟩ := stored_cons.mp stored
    have framed : Stored (upd mem a.start (join mem a.start (((t :: rest).map Span.start).headD e))) rest e :=
      stored_frame (fun f member => frame f (List.mem_cons_of_mem t member)) others
    rw [attach]
    split
    case isTrue touch =>
      have joined : join mem a.start (((t :: rest).map Span.start).headD e) =
          ⟨(mem t.start).ptr, (mem a.start).size + (mem t.start).size⟩ := by
        have small : (mem a.start).size + (mem t.start).size < word := by
          have := bound t List.mem_cons_self
          unfold Span.fin at *
          omega
        rw [join, total, List.map_cons, List.headD_cons, if_pos touch, Nat.mod_eq_of_lt small]
      refine stored_cons.mpr ⟨?_, ?_, framed⟩
      · rw [joined, upd_self]
        exact ptr
      · rw [joined, upd_self]
        dsimp only
        omega
    case isFalse apart =>
      have joined : join mem a.start (((t :: rest).map Span.start).headD e) = ⟨t.start, (mem a.start).size⟩ := by
        rw [join, total, List.map_cons, List.headD_cons, if_neg apart]
      refine stored_cons.mpr ⟨?_, ?_, stored_frame frame stored⟩
      · rw [joined, upd_self]
        rfl
      · rw [joined, upd_self]
        exact size

def Stops (mem : Nat → Header) (bp p : Nat) : Prop :=
  (bp > p ∧ bp < (mem p).ptr) ∨ (p ≥ (mem p).ptr ∧ (bp > p ∨ bp < (mem p).ptr))

theorem freeLoop_stops {bp p : Nat} (stops : Stops mem bp p) (n : Nat) : freeLoop mem bp (n + 1) p = some p := by
  rw [freeLoop]
  rcases stops with between | around
  · rw [if_pos between]
  · split
    · rfl
    · rfl

theorem freeLoop_moves {bp p : Nat} (goes : ¬ Stops mem bp p) (n : Nat) :
    freeLoop mem bp (n + 1) p = freeLoop mem bp n (mem p).ptr := by
  unfold Stops at goes
  rw [freeLoop, if_neg (fun between => goes (.inl between)), if_neg (fun around => goes (.inr around))]

theorem freeLoop_walks {bp p : Nat} (xs ys : List Nat) (n : Nat) (links : Links (fun a => (mem a).ptr) (xs ++ p :: ys) e)
    (goes : ∀ x ∈ xs, ¬ Stops mem bp x) (stops : Stops mem bp p) (enough : xs.length < n) :
    freeLoop mem bp n ((xs ++ p :: ys).headD e) = some p := by
  induction xs generalizing n with
  | nil =>
    obtain ⟨n, rfl⟩ := Nat.exists_eq_add_of_lt enough
    exact freeLoop_stops stops _
  | cons x xs ih =>
    cases n with
    | zero => exact absurd enough (Nat.not_lt_zero _)
    | succ n =>
      have next : (mem x).ptr = (xs ++ p :: ys).headD e := links.1
      rw [List.cons_append, List.headD_cons, freeLoop_moves (goes x List.mem_cons_self), next]
      exact ih n links.2 (fun y member => goes y (List.mem_cons_of_mem x member)) (Nat.lt_of_succ_lt_succ enough)

theorem stops_unique {bp p : Nat} {l r : List Nat} (links : Links (fun a => (mem a).ptr) (l ++ p :: r) base)
    (sorted : (l ++ p :: r).Pairwise (· < ·)) (low : ∀ x ∈ l ++ p :: r, base ≤ x) (above : base < bp) (below : p < bp)
    (high : ∀ x ∈ r, bp < x) : Stops mem bp p ∧ ∀ x ∈ l ++ p :: r, x ≠ p → ¬ Stops mem bp x := by
  obtain ⟨linksLeft, linksRight⟩ := (links_append _ _ _).mp links
  obtain ⟨-, sortedRight, across⟩ := List.pairwise_append.mp sorted
  obtain ⟨first, sortedTail⟩ := List.pairwise_cons.mp sortedRight
  constructor
  · have next : (mem p).ptr = r.headD base := linksRight.1
    cases r with
    | nil =>
      rw [List.headD_nil] at next
      exact .inr ⟨by rw [next]; exact low p (by simp), .inl below⟩
    | cons g rest =>
      rw [List.headD_cons] at next
      exact .inl ⟨below, by rw [next]; exact high g List.mem_cons_self⟩
  · intro x member other stops
    have around := List.append_of_mem member
    obtain ⟨u, v, split⟩ := around
    have next : (mem x).ptr = v.headD base := by
      rw [split] at links
      exact ((links_append _ _ _).mp links).2.1
    have later : ∀ y ∈ v, x < y := by
      intro y after
      rw [split] at sorted
      exact (List.pairwise_cons.mp (List.pairwise_append.mp sorted).2.1).1 y after
    have inside : ∀ y ∈ v, y ∈ l ++ p :: r := by
      intro y after
      rw [split]
      exact List.mem_append_right u (List.mem_cons_of_mem x after)
    rcases List.mem_append.mp member with left | right
    · -- Before p there is a next element, at most p.
      have less : x < p := across x left p List.mem_cons_self
      have reaches : p ∈ v := by
        have whole : p ∈ u ++ x :: v := by
          rw [← split]
          simp
        rcases List.mem_append.mp whole with early | late
        · rw [split] at sorted
          have := (List.pairwise_append.mp sorted).2.2 p early x List.mem_cons_self
          omega
        · exact (List.mem_cons.mp late).resolve_left (Ne.symm other)
      cases v with
      | nil => cases reaches
      | cons g rest =>
        rw [List.headD_cons] at next
        have close : g ≤ p := by
          rcases List.mem_cons.mp reaches with same | deeper
          · exact Nat.le_of_eq same.symm
          · rw [split] at sorted
            have tail := (List.pairwise_cons.mp (List.pairwise_append.mp sorted).2.1).2
            exact Nat.le_of_lt ((List.pairwise_cons.mp tail).1 p deeper)
        have := later g List.mem_cons_self
        unfold Stops at stops
        rw [next] at stops
        omega
    · have greater : bp < x := high x ((List.mem_cons.mp right).resolve_left other)
      unfold Stops at stops
      rw [next] at stops
      cases v with
      | nil =>
        rw [List.headD_nil] at stops
        omega
      | cons g rest =>
        have := later g List.mem_cons_self
        rw [List.headD_cons] at stops
        omega

theorem freeLoop_finds {bp p q : Nat} {l r : List Nat} (links : Links (fun a => (mem a).ptr) (l ++ p :: r) base)
    (head : (l ++ p :: r).headD base = base) (sorted : (l ++ p :: r).Pairwise (· < ·)) (low : ∀ x ∈ l ++ p :: r, base ≤ x)
    (above : base < bp) (below : p < bp) (high : ∀ x ∈ r, bp < x) (start : q ∈ l ++ p :: r) (n : Nat)
    (enough : (l ++ p :: r).length ≤ n) : freeLoop mem bp n q = some p := by
  obtain ⟨stops, goes⟩ := stops_unique links sorted low above below high
  obtain ⟨u, v, split⟩ := List.append_of_mem start
  have member : p ∈ q :: v ++ u := by
    have whole : p ∈ l ++ p :: r := by simp
    rw [split] at whole
    exact (List.mem_append.mp whole).elim (List.mem_append_right _) (List.mem_append_left _)
  obtain ⟨xs, ys, rotated, before⟩ := List.eq_append_cons_of_mem member
  have cycle : Links (fun a => (mem a).ptr) (xs ++ p :: ys) q := by
    rw [← rotated]
    apply links_rotate u q v base
    rw [← split, head]
    exact links
  have first : (xs ++ p :: ys).headD q = q := by rw [← rotated]; rfl
  have count : xs.length < n := by
    have lengths := congrArg List.length rotated
    rw [split] at enough
    simp only [List.length_append, List.length_cons] at lengths enough
    omega
  have found := freeLoop_walks xs ys n cycle (fun x early => ?_) stops count
  · rw [first] at found
    exact found
  · refine goes x ?_ fun same => before (same ▸ early)
    have inside : x ∈ q :: v ++ u := by
      rw [rotated]
      exact List.mem_append_left _ early
    rw [split]
    exact (List.mem_append.mp inside).elim (List.mem_append_right _) (List.mem_append_left _)

theorem header_add {p : Nat} (low : p + 8 < word) : header (add p 1) = p := by
  unfold header add
  rw [Nat.mod_eq_of_lt low]
  have whole : p + 8 * 1 + (word - 8) = p + word := by
    unfold word
    omega
  rw [whole, Nat.add_mod_right]
  exact Nat.mod_eq_of_lt (by omega)

structure Loose (base : Nat) (h : Heap) (fs : List Span) (b : Span) : Prop where
  size : b.len = 8 * (h.mem b.start).size
  real : 0 < b.len
  apart : ∀ f ∈ fs, b.Apart f
  above : base < b.start
  bound : b.fin < word

theorem nodes_starts {f : Span} (list : FreeList base h fs) (member : f ∈ fs) : base < f.start :=
  separated_start (a := ⟨base, 0⟩) list.separated member

theorem insert_nodes (list : FreeList base h fs) (loose : Loose base h fs b) : insertSpan b (nodes base fs) = nodes base (insertSpan b fs) := by
  unfold nodes
  rw [insertSpan, if_neg (Nat.not_lt_of_lt loose.above)]
  refine attach_apart fun t member => Nat.ne_of_lt ?_
  rcases insert_start member with same | ⟨f, old, same⟩
  · rw [same]
    exact loose.above
  · rw [same]
    exact nodes_starts list old

theorem free_spec (list : FreeList base h fs) (loose : Loose base h fs b) :
    ∃ mem p, (∀ fuel, fs.length < fuel → free fuel (add b.start 1) h = some { h with mem := mem, freep := p }) ∧
      FreeList base { h with mem := mem, freep := p } (insertSpan b fs) ∧
      ∀ x, x ∉ (nodes base fs).map Span.start → x ≠ b.start → mem x = h.mem x := by
  have here : header (add b.start 1) = b.start := by
    have := loose.bound
    have := loose.real
    have := loose.size
    unfold Span.fin at *
    exact header_add (by omega)
  have different : ∀ f ∈ fs, f.start ≠ b.start := by
    intro f member same
    have := loose.apart f member
    have := loose.real
    have := list.real f member
    unfold Span.Apart Span.fin at *
    omega
  obtain ⟨l, a, r, split, low, below, high⟩ := place ⟨base, 0⟩ fs b.start list.separated loose.above different
  have whole : nodes base fs = l ++ a :: r := split
  have members : ∀ f ∈ l ++ a :: r, f ∈ nodes base fs := fun f member => whole ▸ member
  obtain ⟨storedLeft, storedRight⟩ := stored_append.mp (whole ▸ list.stored)
  obtain ⟨ptr, size, storedTail⟩ := stored_cons.mp storedRight
  have separated : Separated (l ++ a :: r) := whole ▸ list.separated
  obtain ⟨-, separatedRight, across⟩ := List.pairwise_append.mp separated
  have fromList : ∀ f ∈ r, f ∈ fs := by
    intro f member
    rcases List.mem_cons.mp (members f (List.mem_append_right l (List.mem_cons_of_mem a member))) with rfl | old
    · exact absurd loose.above (Nat.not_lt_of_lt (high _ member))
    · exact old
  -- A node before b ends before b starts.
  have before : ∀ f ∈ l ++ a :: r, f.start < b.start → f.fin ≤ b.start := by
    intro f member less
    rcases List.mem_cons.mp (members f member) with rfl | old
    · exact Nat.le_of_lt loose.above
    · have := loose.apart f old
      have := loose.real
      unfold Span.Apart Span.fin at *
      omega
  have after : ∀ f ∈ r, b.fin ≤ f.start ∧ b.start < f.start := by
    intro f member
    have less := high f member
    have := loose.apart f (fromList f member)
    have := list.real f (fromList f member)
    unfold Span.Apart Span.fin at *
    omega
  have bounds : ∀ f ∈ r, f.fin < word := fun f member =>
    list.bound f (members f (List.mem_append_right l (List.mem_cons_of_mem a member)))
  have next : (h.mem a.start).ptr = (r.map Span.start).headD base := ptr
  have apartHere : a.start ≠ b.start := Nat.ne_of_lt below
  have first : Stored (upd h.mem b.start (join h.mem b.start (h.mem a.start).ptr)) (attach b r) base := by
    rw [next]
    refine join_stored storedTail loose.size after bounds loose.bound fun _ => ?_
    have := loose.above
    unfold Span.fin
    omega
  obtain ⟨len, rest, headed⟩ := attach_head b r
  have same : upd h.mem b.start (join h.mem b.start (h.mem a.start).ptr) a.start = h.mem a.start := upd_ne apartHere
  generalize mem₁_eq : upd h.mem b.start (join h.mem b.start (h.mem a.start).ptr) = mem₁ at first same
  have attached : ∀ f ∈ attach b r, a.fin ≤ f.start ∧ a.start < f.start := by
    intro f member
    rcases attach_start member with same | old
    · rw [same]
      exact ⟨before a (by simp) below, below⟩
    · have := separated_start separatedRight old
      unfold Span.fin at *
      omega
  have second : Stored (upd mem₁ a.start (join mem₁ a.start b.start)) (attach a (attach b r)) base := by
    have joined := join_stored first (by rw [same]; exact size) attached (attach_bound bounds loose.bound)
      (list.bound a (members a (by simp))) (by rw [headed]; simp)
    rw [headed] at joined ⊢
    exact joined
  obtain ⟨len', rest', headed'⟩ := attach_head a (attach b r)
  have frame : ∀ x, x ≠ a.start → x ≠ b.start → upd mem₁ a.start (join mem₁ a.start b.start) x = h.mem x := by
    intro x notA notB
    rw [upd_ne notA, ← mem₁_eq, upd_ne notB]
  have stored : Stored (upd mem₁ a.start (join mem₁ a.start b.start)) (l ++ attach a (attach b r)) base := by
    refine stored_append.mpr ⟨?_, second⟩
    rw [headed']
    refine stored_frame (fun f member => frame f.start ?_ (Nat.ne_of_lt (low f member))) storedLeft
    have := across f member a List.mem_cons_self
    unfold Span.fin at this
    omega
  have result : l ++ attach a (attach b r) = nodes base (insertSpan b fs) := by
    rw [← insert_nodes list loose, whole]
    refine (insert_between l a r separated (fun f member => Nat.not_lt_of_lt (low f member)) (Nat.not_lt_of_lt below) high ?_).symm
    intro f member
    have := across f member a List.mem_cons_self
    have := low f member
    unfold Span.fin at *
    omega
  rw [result] at stored
  have found : ∀ fuel, fs.length < fuel → freeLoop h.mem b.start fuel h.freep = some a.start := by
    intro fuel enough
    have addresses : (nodes base fs).map Span.start = l.map Span.start ++ a.start :: r.map Span.start := by
      rw [whole, List.map_append, List.map_cons]
    have sorted : ((nodes base fs).map Span.start).Pairwise (· < ·) :=
      List.pairwise_map.mpr (list.separated.imp fun less => Nat.lt_of_le_of_lt (Nat.le_add_right _ _) less)
    have least : ∀ x ∈ (nodes base fs).map Span.start, base ≤ x := by
      intro x member
      obtain ⟨f, member', rfl⟩ := List.mem_map.mp member
      rcases List.mem_cons.mp member' with rfl | old
      · exact Nat.le_refl base
      · exact Nat.le_of_lt (nodes_starts list old)
    have links := list.stored.links
    have start := list.freep
    have count : ((nodes base fs).map Span.start).length ≤ fuel := by
      rw [List.length_map]
      exact enough
    have head : ((nodes base fs).map Span.start).headD base = base := rfl
    rw [addresses] at links sorted least start count head
    refine freeLoop_finds links head sorted least loose.above below (fun x member => ?_) start fuel count
    obtain ⟨f, member', rfl⟩ := List.mem_map.mp member
    exact high f member'
  refine ⟨upd mem₁ a.start (join mem₁ a.start b.start), a.start, fun fuel enough => ?_, ⟨stored, ?_, ?_, insert_real list.real loose.real, ?_⟩, fun x outside notB => frame x ?_ notB⟩
  · unfold free
    dsimp only
    rw [here, found fuel enough, Option.bind_eq_bind, Option.bind_some, mem₁_eq]
  · rw [← result, headed']
    simp
  · have old := (List.pairwise_cons.mp list.separated).2
    refine List.pairwise_cons.mpr ⟨fun f member => ?_, insert_separated old loose.apart list.real loose.real⟩
    rcases insert_start member with same | ⟨g, old, same⟩
    · rw [same]
      exact loose.above
    · rw [same]
      exact nodes_starts list old
  · intro f member
    rcases List.mem_cons.mp member with rfl | later
    · exact list.bound _ List.mem_cons_self
    · exact insert_bound (fun g old => list.bound g (List.mem_cons_of_mem _ old)) loose.bound f later
  · rintro rfl
    apply outside
    rw [whole]
    simp

end

end Xv6.Umalloc
