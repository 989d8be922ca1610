import Xv6.Umalloc.FreeList

set_option autoImplicit false

namespace Xv6.Umalloc

open Spans

section

variable {fs m r : List Span} {a b : Span} {base nunits prev p : Nat} {h : Heap}

theorem neighbours (list : FreeList base h fs) (known : prev ∈ (nodes base fs).map Span.start) (next : (h.mem prev).ptr = p)
    (other : p ≠ base) : ∃ l q m c r, q.start = prev ∧ c.start = p ∧ l ++ [q] = nodes base m ∧ fs = m ++ c :: r := by
  obtain ⟨q, member, rfl⟩ := List.mem_map.mp known
  obtain ⟨l, tail, split⟩ := List.append_of_mem member
  obtain ⟨-, stored⟩ := stored_append.mp (split ▸ list.stored)
  obtain ⟨ptr, -, -⟩ := stored_cons.mp stored
  cases tail with
  | nil =>
    rw [next] at ptr
    exact absurd ptr other
  | cons c r =>
    rw [next] at ptr
    unfold nodes at split
    cases l with
    | nil =>
      injection split with first rest
      exact ⟨[], q, [], c, r, rfl, ptr.symm, by rw [nodes, first]; rfl, rest⟩
    | cons s l =>
      injection split with first rest
      refine ⟨s :: l, q, l ++ [q], c, r, rfl, ptr.symm, by rw [nodes, first]; rfl, ?_⟩
      rw [rest, List.append_assoc]
      rfl

theorem take_spec (list : FreeList base h fs) (known : prev ∈ (nodes base fs).map Span.start) (next : (h.mem prev).ptr = p)
    (some_ : 0 < nunits) (baseSize : (h.mem base).size = 0) (fits : nunits ≤ (h.mem p).size) :
    ∃ b fs' mem, take nunits prev p h = (add b.start 1, { h with mem := mem, freep := prev }) ∧ b.len = 8 * nunits ∧
      (mem b.start).size = nunits ∧ b.fin < word ∧ FreeList base { h with mem := mem, freep := prev } fs' ∧ Taken fs fs' b ∧
      ∀ x, x ∉ (nodes base fs).map Span.start → x ≠ b.start → mem x = h.mem x := by
  have other : p ≠ base := by
    rintro rfl
    omega
  obtain ⟨l, q, m, c, r, rfl, rfl, front, rfl⟩ := neighbours list known next other
  have whole : nodes base (m ++ c :: r) = l ++ q :: c :: r := by
    rw [nodes, ← List.cons_append, ← nodes, ← front, List.append_assoc]
    rfl
  have separated : Separated (l ++ q :: c :: r) := whole ▸ list.separated
  obtain ⟨storedLeft, stored⟩ := stored_append.mp (whole ▸ list.stored)
  obtain ⟨-, size, stored⟩ := stored_cons.mp stored
  obtain ⟨ptr, length, storedRight⟩ := stored_cons.mp stored
  obtain ⟨-, right, across⟩ := List.pairwise_append.mp separated
  have bound : c.fin < word := list.bound c (whole ▸ by simp)
  have separatedList : Separated (m ++ c :: r) := (List.pairwise_cons.mp list.separated).2
  have lowLeft : ∀ f ∈ l, f.start < q.start := fun f member =>
    Nat.lt_of_le_of_lt (Nat.le_add_right _ _) (across f member q List.mem_cons_self)
  have lowNext : q.start < c.start := Nat.lt_of_le_of_lt (Nat.le_add_right _ _) (separated_start right List.mem_cons_self)
  have highRight : ∀ f ∈ r, c.fin < f.start := fun f member => separated_start (List.pairwise_cons.mp right).2 member
  have inFront : ∀ xs, q.start ∈ (nodes base (m ++ xs)).map Span.start := by
    intro xs
    rw [nodes, ← List.cons_append, ← nodes, ← front]
    simp
  unfold take
  by_cases exact : (h.mem c.start).size = nunits
  · rw [if_pos exact]
    have whole' : nodes base (m ++ r) = l ++ q :: r := by
      rw [nodes, ← List.cons_append, ← nodes, ← front, List.append_assoc]
      rfl
    have inside : ∀ f ∈ l ++ q :: r, f ∈ nodes base (m ++ c :: r) := by
      intro f member
      rw [whole]
      rcases List.mem_append.mp member with left | later
      · exact List.mem_append_left _ left
      · apply List.mem_append_right
        exact (List.mem_cons.mp later).elim (fun same => same ▸ List.mem_cons_self)
          fun old => List.mem_cons_of_mem q (List.mem_cons_of_mem c old)
    have frame : ∀ x, x ≠ q.start → upd h.mem q.start { h.mem q.start with ptr := (h.mem c.start).ptr } x = h.mem x :=
      fun x other => upd_ne other
    refine ⟨c, m ++ r, _, rfl, by omega, ?_, bound, ⟨?_, inFront r, ?_, fun f member => ?_, fun f member => ?_⟩,
      taken_whole separatedList, fun x outside _ => frame x fun same => outside (same ▸ known)⟩
    · rw [frame c.start (Nat.ne_of_gt lowNext)]
      exact exact
    · rw [whole']
      refine stored_append.mpr ⟨stored_frame (fun f member => frame f.start (Nat.ne_of_lt (lowLeft f member))) storedLeft,
        stored_cons.mpr ⟨?_, ?_, stored_frame (fun f member => frame f.start ?_) storedRight⟩⟩
      · dsimp only
        rw [upd_self]
        exact ptr
      · dsimp only
        rw [upd_self]
        exact size
      · have := highRight f member
        unfold Span.fin at this
        omega
    · rw [whole']
      refine separated.sublist ?_
      exact List.Sublist.append_left (List.Sublist.cons_cons q (List.sublist_cons_self c r)) l
    · refine list.real f ?_
      rcases List.mem_append.mp member with left | later
      · exact List.mem_append_left _ left
      · exact List.mem_append_right _ (List.mem_cons_of_mem c later)
    · rw [whole'] at member
      exact list.bound f (inside f member)
  · rw [if_neg exact]
    have part : add c.start ((h.mem c.start).size - nunits) = c.start + (c.len - 8 * nunits) := by
      unfold add
      rw [Nat.mul_sub, ← length]
      refine Nat.mod_eq_of_lt (Nat.lt_of_le_of_lt ?_ bound)
      unfold Span.fin
      omega
    dsimp only
    rw [part]
    have beyond : ∀ f ∈ nodes base (m ++ c :: r), f.start ≠ c.start + (c.len - 8 * nunits) := by
      intro f member
      rw [whole] at member
      rcases List.mem_append.mp member with left | later
      · have := lowLeft f left
        omega
      · rcases List.mem_cons.mp later with rfl | later
        · omega
        · rcases List.mem_cons.mp later with rfl | later
          · omega
          · have := highRight f later
            unfold Span.fin at this
            omega
    generalize mem_eq : upd (upd h.mem c.start { h.mem c.start with size := (h.mem c.start).size - nunits })
      (c.start + (c.len - 8 * nunits)) _ = mem
    have apart : c.start ≠ c.start + (c.len - 8 * nunits) := beyond c (whole ▸ by simp)
    have atRest : mem c.start = { h.mem c.start with size := (h.mem c.start).size - nunits } := by
      rw [← mem_eq, upd_ne apart, upd_self]
    have atTaken : (mem (c.start + (c.len - 8 * nunits))).size = nunits := by
      rw [← mem_eq, upd_self]
    have frame : ∀ x, x ≠ c.start → x ≠ c.start + (c.len - 8 * nunits) → mem x = h.mem x := by
      intro x notRest notTaken
      rw [← mem_eq, upd_ne notTaken, upd_ne notRest]
    have ptrs : ∀ f ∈ nodes base (m ++ c :: r), (mem f.start).ptr = (h.mem f.start).ptr := by
      intro f member
      by_cases here : f.start = c.start
      · rw [here, atRest]
      · rw [frame f.start here (beyond f member)]
    have kept : ∀ f ∈ nodes base (m ++ ⟨c.start, c.len - 8 * nunits⟩ :: r),
        f = ⟨c.start, c.len - 8 * nunits⟩ ∨ (f ∈ nodes base (m ++ c :: r) ∧ f.start ≠ c.start) := by
      intro f member
      rw [nodes, ← List.cons_append, ← nodes, ← front] at member
      rw [whole]
      rcases List.mem_append.mp member with left | later
      · rcases List.mem_append.mp left with left | here
        · exact .inr ⟨List.mem_append_left _ left, Nat.ne_of_lt (Nat.lt_trans (lowLeft f left) lowNext)⟩
        · rw [List.mem_singleton.mp here]
          exact .inr ⟨List.mem_append_right _ List.mem_cons_self, Nat.ne_of_lt lowNext⟩
      · rcases List.mem_cons.mp later with same | later
        · exact .inl same
        · refine .inr ⟨List.mem_append_right _ (List.mem_cons_of_mem q (List.mem_cons_of_mem c later)), ?_⟩
          have := highRight f later
          unfold Span.fin at this
          omega
    have starts : (nodes base (m ++ ⟨c.start, c.len - 8 * nunits⟩ :: r)).map Span.start =
        (nodes base (m ++ c :: r)).map Span.start := by simp [nodes]
    have less : 8 * nunits < c.len := by omega
    refine ⟨⟨c.start + (c.len - 8 * nunits), 8 * nunits⟩, m ++ ⟨c.start, c.len - 8 * nunits⟩ :: r, mem, rfl, rfl, atTaken, ?_,
      ⟨⟨?_, fun f member => ?_⟩, inFront _, ?_, fun f member => ?_, fun f member => ?_⟩, taken_tail separatedList less,
      fun x outside notTaken => frame x (fun same => outside ?_) notTaken⟩
    · unfold Span.fin at *
      dsimp only
      omega
    · rw [starts]
      refine links_congr _ _ (fun x member => ?_) list.stored.links
      obtain ⟨f, member', rfl⟩ := List.mem_map.mp member
      exact ptrs f member'
    · rcases kept f member with rfl | ⟨old, other⟩
      · dsimp only
        rw [atRest]
        dsimp only
        omega
      · dsimp only
        rw [frame f.start other (beyond f old)]
        exact list.stored.sizes f old
    · exact separated_tail (m := ⟨base, 0⟩ :: m) list.separated (Nat.sub_le _ _)
    · rcases List.mem_append.mp member with left | later
      · exact list.real f (List.mem_append_left _ left)
      · rcases List.mem_cons.mp later with rfl | later
        · exact Nat.sub_pos_of_lt less
        · exact list.real f (List.mem_append_right _ (List.mem_cons_of_mem c later))
    · rcases kept f member with rfl | ⟨old, -⟩
      · unfold Span.fin at *
        dsimp only
        omega
      · exact list.bound f old
    · rw [same]
      exact List.mem_map_of_mem (whole ▸ by simp)

theorem mallocLoop_walks (xs ys : List Nat) (e prev p : Nat) (links : Links (fun a => (h.mem a).ptr) (xs ++ p :: ys) e)
    (next : (h.mem prev).ptr = (xs ++ p :: ys).headD e) (small : ∀ x ∈ xs, (h.mem x).size < nunits) (inner : ∀ x ∈ xs, x ≠ h.freep) :
    ∃ prev' ∈ prev :: xs, (h.mem prev').ptr = p ∧
      ∀ n, mallocLoop nunits (xs.length + n) prev (h.mem prev).ptr h = mallocLoop nunits n prev' p h := by
  induction xs generalizing prev with
  | nil =>
    refine ⟨prev, List.mem_cons_self, next, fun n => ?_⟩
    rw [next, List.length_nil, Nat.zero_add]
    rfl
  | cons x xs ih =>
    obtain ⟨prev', member, reaches, same⟩ := ih x links.2 links.1 (fun y member => small y (List.mem_cons_of_mem x member))
      fun y member => inner y (List.mem_cons_of_mem x member)
    refine ⟨prev', List.mem_cons_of_mem prev member, reaches, fun n => ?_⟩
    rw [next, List.cons_append, List.headD_cons, List.length_cons, Nat.succ_add, mallocLoop,
      if_neg (Nat.not_le_of_lt (small x List.mem_cons_self)), if_neg (inner x List.mem_cons_self)]
    exact same n

theorem around (list : FreeList base h fs) : ∃ rest e, rest.length = fs.length ∧
    Links (fun a => (h.mem a).ptr) (rest ++ [h.freep]) e ∧ (h.mem h.freep).ptr = (rest ++ [h.freep]).headD e ∧
    (∀ x ∈ rest, x ≠ h.freep) ∧ ∀ x, x ∈ rest ++ [h.freep] ↔ x ∈ (nodes base fs).map Span.start := by
  obtain ⟨u, v, split⟩ := List.append_of_mem list.freep
  have cycle : Links (fun a => (h.mem a).ptr) (h.freep :: v ++ u) h.freep := by
    apply links_rotate u h.freep v base
    rw [← split]
    exact list.stored.links
  have sorted : (u ++ h.freep :: v).Pairwise (· < ·) := by
    rw [← split]
    exact List.pairwise_map.mpr (list.separated.imp fun less => Nat.lt_of_le_of_lt (Nat.le_add_right _ _) less)
  obtain ⟨-, right, across⟩ := List.pairwise_append.mp sorted
  refine ⟨v ++ u, (v ++ u).headD h.freep, ?_, ?_, ?_, fun x member => ?_, fun x => ?_⟩
  · have lengths := congrArg List.length split
    simp only [nodes, List.length_map, List.length_cons, List.length_append] at lengths ⊢
    omega
  · exact (links_append _ _ _).mpr ⟨cycle.2, cycle.1, trivial⟩
  · rw [head_append]
    exact cycle.1
  · rcases List.mem_append.mp member with later | before
    · exact Nat.ne_of_gt ((List.pairwise_cons.mp right).1 x later)
    · exact Nat.ne_of_lt (across x before h.freep List.mem_cons_self)
  · rw [split]
    simp only [List.mem_append, List.mem_cons, List.not_mem_nil, or_false]
    tauto

theorem size_fits (list : FreeList base h fs) {f : Span} (member : f ∈ nodes base fs) :
    nunits ≤ (h.mem f.start).size ↔ 8 * nunits ≤ f.len := by
  have := list.stored.sizes f member
  omega

theorem mallocLoop_finds (list : FreeList base h fs) (fit : ∃ f ∈ fs, 8 * nunits ≤ f.len) :
    ∃ prev p, prev ∈ (nodes base fs).map Span.start ∧ (h.mem prev).ptr = p ∧ nunits ≤ (h.mem p).size ∧
      ∀ n, fs.length < n → mallocLoop nunits n h.freep (h.mem h.freep).ptr h = some (take nunits prev p h) := by
  obtain ⟨rest, e, count, links, next, inner, same⟩ := around list
  have exists_ : ∃ x ∈ rest ++ [h.freep], decide (nunits ≤ (h.mem x).size) = true := by
    obtain ⟨f, member, large⟩ := fit
    have node : f ∈ nodes base fs := List.mem_cons_of_mem _ member
    exact ⟨f.start, (same _).mpr (List.mem_map_of_mem node), decide_eq_true ((size_fits list node).mpr large)⟩
  obtain ⟨p, found⟩ := Option.isSome_iff_exists.mp (List.find?_isSome.mpr exists_)
  obtain ⟨fits, xs, ys, split, small⟩ := List.find?_eq_some_iff_append.mp found
  have early : ∀ x ∈ xs, x ∈ rest := by
    intro x member
    have dropped := congrArg List.dropLast split
    rw [List.dropLast_concat, List.dropLast_append_cons] at dropped
    rw [dropped]
    exact List.mem_append_left _ member
  rw [split] at links next
  obtain ⟨prev, member, reaches, walks⟩ := mallocLoop_walks xs ys e h.freep p links next
    (fun x member => by simpa using small x member) fun x member => inner x (early x member)
  refine ⟨prev, p, ?_, reaches, of_decide_eq_true fits, fun n enough => ?_⟩
  · rcases List.mem_cons.mp member with rfl | later
    · exact list.freep
    · exact (same prev).mp (List.mem_append_left _ (early prev later))
  · have bound : xs.length ≤ fs.length := by
      have lengths := congrArg List.length split
      simp only [List.length_append, List.length_cons, List.length_nil] at lengths
      omega
    obtain ⟨k, rfl⟩ : ∃ k, n = xs.length + (k + 1) := ⟨n - xs.length - 1, by omega⟩
    rw [walks, mallocLoop, if_pos (of_decide_eq_true fits)]

theorem mallocLoop_misses (list : FreeList base h fs) (some_ : 0 < nunits) (small : ∀ f ∈ fs, f.len < 8 * nunits) (n : Nat) :
    mallocLoop nunits (fs.length + (n + 1)) h.freep (h.mem h.freep).ptr h =
      match morecore n nunits h with
      | none => none
      | some (p, h') => if p = 0 then some (0, h') else mallocLoop nunits n p (h'.mem p).ptr h' := by
  obtain ⟨rest, e, count, links, next, inner, same⟩ := around list
  have none_ : ∀ x ∈ rest ++ [h.freep], (h.mem x).size < nunits := by
    intro x member
    obtain ⟨f, node, rfl⟩ := List.mem_map.mp ((same x).mp member)
    have short : f.len < 8 * nunits := by
      rcases List.mem_cons.mp node with rfl | old
      · exact Nat.mul_pos (by decide) some_
      · exact small f old
    exact Nat.lt_of_not_le fun large => Nat.not_le_of_lt short ((size_fits list node).mp large)
  obtain ⟨prev, member, reaches, walks⟩ := mallocLoop_walks rest [] e h.freep h.freep links next
    (fun x member => none_ x (List.mem_append_left _ member)) inner
  rw [← count, walks, mallocLoop, if_neg (Nat.not_le_of_lt (none_ h.freep (by simp)))]
  exact if_pos rfl

end

end Xv6.Umalloc
