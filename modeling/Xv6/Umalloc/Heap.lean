import Mathlib.Data.List.Pairwise
import Xv6.Umalloc.Malloc

set_option autoImplicit false

namespace Xv6.Umalloc

open Spans

def Block.span (b : Block) : Span := ⟨b.addr, 8 * b.units⟩

def spans (live : List Block) : List Span := live.map Block.span

-- The free list and the blocks of the program make up the regions that sbrk returned.
structure Inv (base : Nat) (s : Sys) (fs : List Span) : Prop where
  list : FreeList base s.heap fs
  headers : ∀ b ∈ s.live, (s.heap.mem b.addr).size = b.units
  large : ∀ b ∈ s.live, b.asked + 8 ≤ 8 * b.units
  apart : s.live.Pairwise fun b c => b.span.Apart c.span
  unused : ∀ b ∈ s.live, ∀ f ∈ fs, b.span.Apart f
  covered : ∀ x, Covers s.heap.regions x ↔ Covers fs x ∨ Covers (spans s.live) x
  total : total s.heap.regions = total fs + total (spans s.live)
  regions : ∀ r ∈ s.heap.regions, base + 8 ≤ r.start ∧ r.fin ≤ s.heap.brk
  brk : base + 8 ≤ s.heap.brk ∧ s.heap.brk < word
  address : 0 < base

section

variable {base : Nat} {s : Sys} {fs : List Span} {b : Block}

theorem inside_regions (inv : Inv base s fs) {t : Span} (real : 0 < t.len) (inside : ∀ x, t.Covers x → Covers s.heap.regions x) :
    base + 8 ≤ t.start ∧ t.fin ≤ s.heap.brk := by
  have ends : ∀ x, t.Covers x → base + 8 ≤ x ∧ x < s.heap.brk := by
    intro x covers
    obtain ⟨r, member, low, high⟩ := inside x covers
    have := inv.regions r member
    omega
  have first := ends t.start
  have last := ends (t.start + t.len - 1)
  unfold Span.Covers Span.fin at *
  omega

theorem live_real (inv : Inv base s fs) (mine : b ∈ s.live) : 0 < b.span.len := by
  have := inv.large b mine
  unfold Block.span
  dsimp only
  omega

theorem live_covers {x : Nat} : Covers (spans s.live) x ↔ ∃ b ∈ s.live, b.span.Covers x := by
  simp [Covers, spans]

theorem live_bounds (inv : Inv base s fs) (mine : b ∈ s.live) : base + 8 ≤ b.addr ∧ b.span.fin ≤ s.heap.brk :=
  inside_regions inv (live_real inv mine) fun x covers => (inv.covered x).mpr (.inr (live_covers.mpr ⟨b, mine, covers⟩))

theorem free_bounds (inv : Inv base s fs) {f : Span} (member : f ∈ fs) : base + 8 ≤ f.start ∧ f.fin ≤ s.heap.brk :=
  inside_regions inv (inv.list.real f member) fun x covers => (inv.covered x).mpr (.inl ⟨f, member, covers⟩)

theorem live_not_node (inv : Inv base s fs) (mine : b ∈ s.live) : b.addr ∉ (nodes base fs).map Span.start := by
  intro member
  obtain ⟨f, node, same⟩ := List.mem_map.mp member
  rcases List.mem_cons.mp node with rfl | old
  · have := (live_bounds inv mine).1
    dsimp only at same
    omega
  · have := inv.unused b mine f old
    have := inv.list.real f old
    have := live_real inv mine
    unfold Block.span Span.Apart Span.fin at *
    dsimp only at *
    omega

theorem live_not_free (inv : Inv base s fs) (mine : b ∈ s.live) {x : Nat} (covers : b.span.Covers x) : ¬ Covers fs x := by
  rintro ⟨f, member, covers'⟩
  exact span_apart_covers (inv.unused b mine f member) covers covers'

theorem freep_real (inv : Inv base s fs) : s.heap.freep ≠ 0 := by
  obtain ⟨f, node, same⟩ := List.mem_map.mp inv.list.freep
  have := inv.address
  rcases List.mem_cons.mp node with rfl | old
  · dsimp only at same
    omega
  · have := nodes_starts inv.list old
    omega

theorem fresh_inv {h : Heap} (fresh : Fresh base h) : Inv base ⟨init base h, []⟩ [] := by
  have made : init base h = { h with mem := upd h.mem base ⟨base, 0⟩, freep := base } := if_pos fresh.freep
  have above := fresh.above
  have bound := fresh.bound
  rw [made]
  refine ⟨⟨⟨⟨?_, trivial⟩, fun f member => ?_⟩, List.mem_cons_self, List.pairwise_singleton _ _, fun _ never => ?_, fun f member => ?_⟩,
    fun _ never => ?_, fun _ never => ?_, .nil, fun _ never => ?_, fun x => ?_, ?_, fun r member => ?_, ⟨above, bound⟩, fresh.address⟩
  · dsimp only
    rw [upd_self]
    rfl
  · rw [List.mem_singleton.mp member]
    dsimp only
    rw [upd_self]
    rfl
  · cases never
  · rw [List.mem_singleton.mp member]
    unfold Span.fin
    dsimp only
    omega
  · cases never
  · cases never
  · cases never
  · simp [fresh.none_, Covers, spans]
  · dsimp only
    rw [fresh.none_]
    rfl
  · dsimp only at member
    rw [fresh.none_] at member
    cases member

theorem inv_take (inv : Inv base s fs) {t : Span} {fs' : List Span} {h : Heap} {asked nunits : Nat} (taken : Taken fs fs' t)
    (list : FreeList base h fs') (len : t.len = 8 * nunits) (large : asked + 8 ≤ 8 * nunits) (size : (h.mem t.start).size = nunits)
    (frame : ∀ x, x ∉ (nodes base fs).map Span.start → x ≠ t.start → h.mem x = s.heap.mem x) (regions : h.regions = s.heap.regions)
    (brk : h.brk = s.heap.brk) : Inv base ⟨h, ⟨t.start, nunits, asked⟩ :: s.live⟩ fs' := by
  have same : Block.span ⟨t.start, nunits, asked⟩ = t := by
    unfold Block.span
    rw [← len]
  have real : 0 < t.len := by omega
  have wasFree : ∀ x, t.Covers x → Covers fs x := fun x covers => (taken.covers x).mpr (.inr covers)
  have others : ∀ c ∈ s.live, t.Apart c.span := fun c mine =>
    span_apart_of_covers real (live_real inv mine) fun x covers covers' => live_not_free inv mine covers' (wasFree x covers)
  refine ⟨list, fun c member => ?_, fun c member => ?_, ?_, fun c member f member' => ?_, fun x => ?_, ?_, ?_, ?_, inv.address⟩
  · rcases List.mem_cons.mp member with rfl | mine
    · exact size
    · have := live_real inv mine
      have := others c mine
      rw [frame c.addr (live_not_node inv mine), inv.headers c mine]
      unfold Block.span Span.Apart Span.fin at *
      dsimp only at *
      omega
  · rcases List.mem_cons.mp member with rfl | mine
    · exact large
    · exact inv.large c mine
  · refine List.pairwise_cons.mpr ⟨fun c mine => ?_, inv.apart⟩
    rw [same]
    exact others c mine
  · rcases List.mem_cons.mp member with rfl | mine
    · rw [same]
      exact taken.apart f member'
    · refine span_apart_of_covers (live_real inv mine) (list.real f member') fun x covers covers' => ?_
      exact live_not_free inv mine covers ((taken.covers x).mpr (.inl ⟨f, member', covers'⟩))
  · have before := inv.covered x
    have parts := taken.covers x
    unfold spans at *
    dsimp only
    rw [regions, List.map_cons, covers_cons, same, before, parts]
    tauto
  · have before := inv.total
    have parts := taken.total
    unfold spans at *
    dsimp only
    rw [regions, List.map_cons, total_cons, same]
    omega
  · dsimp only
    rw [regions, brk]
    exact inv.regions
  · dsimp only
    rw [brk]
    exact inv.brk

theorem loose_live (inv : Inv base s fs) (mine : b ∈ s.live) : Loose base s.heap fs b.span := by
  have bounds := live_bounds inv mine
  have brk := inv.brk
  refine ⟨?_, live_real inv mine, inv.unused b mine, ?_, by omega⟩
  · unfold Block.span
    dsimp only
    rw [inv.headers b mine]
  · unfold Block.span
    dsimp only
    omega

theorem inv_free (inv : Inv base s fs) (mine : b ∈ s.live) {h : Heap} (list : FreeList base h (insertSpan b.span fs))
    (frame : ∀ x, x ∉ (nodes base fs).map Span.start → x ≠ b.addr → h.mem x = s.heap.mem x) (regions : h.regions = s.heap.regions)
    (brk : h.brk = s.heap.brk) : Inv base ⟨h, s.live.erase b⟩ (insertSpan b.span fs) := by
  have perm := List.perm_cons_erase mine
  have apart : (b :: s.live.erase b).Pairwise fun b c => b.span.Apart c.span :=
    (perm.pairwise_iff fun apart => apart.symm).mp inv.apart
  obtain ⟨others, rest⟩ := List.pairwise_cons.mp apart
  have old : ∀ c ∈ s.live.erase b, c ∈ s.live := fun c member => List.mem_of_mem_erase member
  refine ⟨list, fun c member => ?_, fun c member => inv.large c (old c member), rest, fun c member f member' => ?_, fun x => ?_, ?_,
    ?_, ?_, inv.address⟩
  · have := live_real inv (old c member)
    have := live_real inv mine
    have := others c member
    rw [frame c.addr (live_not_node inv (old c member)), inv.headers c (old c member)]
    unfold Block.span Span.Apart Span.fin at *
    dsimp only at *
    omega
  · refine span_apart_of_covers (live_real inv (old c member)) (list.real f member') fun x covers covers' => ?_
    rcases (insert_covers b.span fs x).mp ⟨f, member', covers'⟩ with new | free
    · exact span_apart_covers (others c member) new covers
    · exact live_not_free inv (old c member) covers free
  · have before := inv.covered x
    have split : Covers (spans s.live) x ↔ b.span.Covers x ∨ Covers (spans (s.live.erase b)) x := by
      unfold spans
      rw [← covers_cons, ← List.map_cons]
      unfold Covers
      simp only [(perm.map Block.span).mem_iff]
    dsimp only
    rw [regions, before, split, insert_covers]
    tauto
  · have before := inv.total
    have split : total (spans s.live) = b.span.len + total (spans (s.live.erase b)) := by
      unfold spans
      rw [← total_cons, ← List.map_cons]
      exact ((perm.map Block.span).map Span.len).sum_nat
    dsimp only
    rw [regions, insert_total]
    omega
  · dsimp only
    rw [regions, brk]
    exact inv.regions
  · dsimp only
    rw [brk]
    exact inv.brk

theorem inv_write (inv : Inv base s fs) (mem : Nat → Header)
    (inside : ∀ a, mem a = s.heap.mem a ∨ ∃ b ∈ s.live, b.addr < a ∧ a < b.addr + 8 * b.units) :
    Inv base { s with heap := { s.heap with mem := mem } } fs := by
  have frame : ∀ f ∈ nodes base fs, mem f.start = s.heap.mem f.start := by
    intro f node
    rcases inside f.start with same | ⟨b, mine, low, high⟩
    · exact same
    · rcases List.mem_cons.mp node with rfl | old
      · have := (live_bounds inv mine).1
        dsimp only at low
        omega
      · have := inv.unused b mine f old
        have := inv.list.real f old
        unfold Block.span Span.Apart Span.fin at *
        dsimp only at *
        omega
  have list := inv.list
  refine ⟨⟨stored_frame frame list.stored, list.freep, list.separated, list.real, list.bound⟩, fun c mine => ?_, inv.large, inv.apart,
    inv.unused, inv.covered, inv.total, inv.regions, inv.brk, inv.address⟩
  rcases inside c.addr with same | ⟨b, member, low, high⟩
  · dsimp only
    rw [same]
    exact inv.headers c mine
  · have different : b ≠ c := by
      rintro rfl
      omega
    have := live_real inv mine
    have symmetric : Std.Symm fun (b c : Block) => b.span.Apart c.span := ⟨fun _ _ apart => apart.symm⟩
    have := inv.apart.forall member mine different
    unfold Block.span Span.Apart Span.fin at *
    dsimp only at *
    omega

end

end Xv6.Umalloc
