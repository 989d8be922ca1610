import Xv6.Umalloc.Heap

set_option autoImplicit false

namespace Xv6.Umalloc

open Spans

section

variable {h h' : Heap} {mem : Nat → Header} {n m : Nat}

theorem freeLoop_mono {bp p q : Nat} (done : freeLoop mem bp n p = some q) (more : n ≤ m) : freeLoop mem bp m p = some q := by
  induction n generalizing m p with
  | zero => cases done
  | succ n ih =>
    obtain ⟨m, rfl⟩ : ∃ k, m = k + 1 := ⟨m - 1, by omega⟩
    by_cases stops : Stops mem bp p
    · rw [freeLoop_stops stops] at done ⊢
      exact done
    · rw [freeLoop_moves stops] at done ⊢
      exact ih done (Nat.le_of_succ_le_succ more)

theorem free_mono {ap : Nat} (done : free n ap h = some h') (more : n ≤ m) : free m ap h = some h' := by
  unfold free at done ⊢
  dsimp only at done ⊢
  cases loop : freeLoop h.mem (header ap) n h.freep with
  | none =>
    rw [loop] at done
    cases done
  | some p =>
    rw [loop] at done
    rw [freeLoop_mono loop more]
    exact done

theorem morecore_mono {nu p : Nat} (done : morecore n nu h = some (p, h')) (more : n ≤ m) : morecore m nu h = some (p, h') := by
  unfold morecore at done ⊢
  dsimp only at done ⊢
  split at done
  case h_1 => exact done
  case h_2 hp h₁ _ =>
    cases freed : free n (add hp 1) { h₁ with mem := upd h₁.mem hp { h₁.mem hp with size := if nu < 4096 then 4096 else nu } } with
    | none =>
      rw [freed] at done
      cases done
    | some h₂ =>
      rw [freed] at done
      rw [free_mono freed more]
      exact done

theorem mallocLoop_mono {nunits prev p ap : Nat} (done : mallocLoop nunits n prev p h = some (ap, h')) (more : n ≤ m) :
    mallocLoop nunits m prev p h = some (ap, h') := by
  induction n generalizing m prev p h with
  | zero => cases done
  | succ n ih =>
    obtain ⟨m, rfl⟩ : ∃ k, m = k + 1 := ⟨m - 1, by omega⟩
    have more' : n ≤ m := Nat.le_of_succ_le_succ more
    rw [mallocLoop] at done ⊢
    by_cases fits : (h.mem p).size ≥ nunits
    · rw [if_pos fits] at done ⊢
      exact done
    · rw [if_neg fits] at done ⊢
      by_cases last : p = h.freep
      · rw [if_pos last] at done ⊢
        cases core : morecore n nunits h with
        | none =>
          rw [core] at done
          cases done
        | some result =>
          obtain ⟨q, h₁⟩ := result
          rw [core] at done
          rw [morecore_mono core more']
          dsimp only at done ⊢
          by_cases none_ : q = 0
          · rw [if_pos none_] at done ⊢
            exact done
          · rw [if_neg none_] at done ⊢
            exact ih done more'
      · rw [if_neg last] at done ⊢
        exact ih done more'

end

section

variable {base : Nat} {s : Sys} {fs : List Span}

theorem inv_gaps (inv : Inv base s fs) (gaps : List (Option Nat)) : Inv base { s with heap := { s.heap with gaps := gaps } } fs :=
  ⟨⟨inv.list.stored, inv.list.freep, inv.list.separated, inv.list.real, inv.list.bound⟩, inv.headers, inv.large, inv.apart,
    inv.unused, inv.covered, inv.total, inv.regions, inv.brk, inv.address⟩

theorem sbrk_cases (bytes : Nat) (h : Heap) : ∃ gaps, sbrk bytes h = (none, { h with gaps := gaps }) ∨
    ∃ start, h.brk ≤ start ∧ start + bytes < word ∧ sbrk bytes h =
      (some start, { h with gaps := gaps, brk := start + bytes, regions := ⟨start, bytes⟩ :: h.regions }) := by
  unfold sbrk
  split
  · exact ⟨h.gaps, .inl rfl⟩
  · exact ⟨_, .inl rfl⟩
  · split
    case isTrue room => exact ⟨_, .inr ⟨_, Nat.le_add_right _ _, room, rfl⟩⟩
    case isFalse => exact ⟨_, .inl rfl⟩

theorem inv_grow (inv : Inv base s fs) {start bytes : Nat} {h : Heap} (real : 0 < bytes) (above : s.heap.brk ≤ start)
    (bound : start + bytes < word) (list : FreeList base h (insertSpan ⟨start, bytes⟩ fs))
    (frame : ∀ x, x ∉ (nodes base fs).map Span.start → x ≠ start → h.mem x = s.heap.mem x)
    (regions : h.regions = ⟨start, bytes⟩ :: s.heap.regions) (brk : h.brk = start + bytes) :
    Inv base { s with heap := h } (insertSpan ⟨start, bytes⟩ fs) := by
  have below : ∀ c ∈ s.live, c.span.fin ≤ start := fun c mine => Nat.le_trans (live_bounds inv mine).2 above
  refine ⟨list, fun c mine => ?_, inv.large, inv.apart, fun c mine f member => ?_, fun x => ?_, ?_, fun r member => ?_, ?_, inv.address⟩
  · have := below c mine
    have := live_real inv mine
    dsimp only
    rw [frame c.addr (live_not_node inv mine), inv.headers c mine]
    unfold Block.span Span.fin at *
    dsimp only at *
    omega
  · refine span_apart_of_covers (live_real inv mine) (list.real f member) fun x covers covers' => ?_
    rcases (insert_covers _ fs x).mp ⟨f, member, covers'⟩ with new | free
    · have := below c mine
      unfold Span.Covers at *
      dsimp only at *
      omega
    · exact live_not_free inv mine covers free
  · dsimp only
    rw [regions, covers_cons, insert_covers, inv.covered x]
    exact or_assoc.symm
  · have before := inv.total
    dsimp only
    rw [regions, total_cons, insert_total]
    dsimp only
    omega
  · have ends := inv.brk
    dsimp only at member ⊢
    rw [regions] at member
    rw [brk]
    rcases List.mem_cons.mp member with rfl | old
    · unfold Span.fin
      dsimp only
      omega
    · have := inv.regions r old
      omega
  · have ends := inv.brk
    dsimp only
    rw [brk]
    omega

theorem morecore_spec (inv : Inv base s fs) (nu : Nat) (bound : nu ≤ 2 ^ 28) :
    (∃ gaps, ∀ n, morecore n nu s.heap = some (0, { s.heap with gaps := gaps })) ∨
      ∃ h t, (∀ n, fs.length < n → morecore n nu s.heap = some (h.freep, h)) ∧ Inv base { s with heap := h } (insertSpan t fs) ∧
        8 * nu ≤ t.len := by
  generalize size : (if nu < 4096 then 4096 else nu) = nu'
  have large : nu ≤ nu' ∧ 0 < nu' ∧ nu' ≤ 2 ^ 28 := by
    split at size <;> omega
  have bytes : nu' * 8 % word = 8 * nu' := by
    rw [Nat.mod_eq_of_lt (by unfold word; omega)]
    omega
  obtain ⟨gaps, fails | ⟨start, above, room, grows⟩⟩ := sbrk_cases (8 * nu') s.heap
  · refine .inl ⟨gaps, fun n => ?_⟩
    unfold morecore
    dsimp only
    rw [size, bytes, fails]
  · have bound' := inv.brk
    obtain ⟨h₁, made⟩ : ∃ h₁ : Heap, h₁ = ⟨upd s.heap.mem start ⟨(s.heap.mem start).ptr, nu'⟩, s.heap.freep, start + 8 * nu', gaps,
      ⟨start, 8 * nu'⟩ :: s.heap.regions⟩ := ⟨_, rfl⟩
    have low : ∀ f ∈ nodes base fs, f.fin ≤ start ∧ f.start < start := by
      intro f node
      rcases List.mem_cons.mp node with rfl | old
      · unfold Span.fin
        dsimp only
        omega
      · have := free_bounds inv old
        have := inv.list.real f old
        unfold Span.fin at *
        omega
    have memory : ∀ x, x ≠ start → h₁.mem x = s.heap.mem x := by
      intro x other
      rw [made]
      exact upd_ne other
    have list : FreeList base h₁ fs := by
      have old := inv.list
      refine ⟨stored_frame (fun f node => memory f.start (Nat.ne_of_lt (low f node).2)) old.stored, ?_, old.separated, old.real,
        old.bound⟩
      rw [made]
      exact old.freep
    have loose : Loose base h₁ fs ⟨start, 8 * nu'⟩ := by
      refine ⟨?_, by dsimp only; omega, fun f member => .inr (low f (List.mem_cons_of_mem _ member)).1, by dsimp only; omega, room⟩
      rw [made]
      dsimp only
      rw [upd_self]
    obtain ⟨mem, p, freed, list', frame⟩ := free_spec list loose
    refine .inr ⟨{ h₁ with mem := mem, freep := p }, ⟨start, 8 * nu'⟩, fun n enough => ?_, ?_, by dsimp only; omega⟩
    · unfold morecore
      dsimp only
      rw [size, bytes, grows]
      dsimp only
      rw [← made, freed n enough]
      rfl
    · refine inv_grow inv (by omega) above room list' (fun x outside other => ?_) (by rw [made]) (by rw [made])
      exact (frame x outside other).trans (memory x other)

theorem units_spec {nbytes : Nat} (bound : nbytes ≤ maxRequest) : nbytes + 8 ≤ 8 * units nbytes ∧ units nbytes ≤ 2 ^ 28 := by
  unfold maxRequest at bound
  unfold units
  rw [Nat.mod_eq_of_lt (by unfold word; omega)]
  omega

def Gives (base : Nat) (s : Sys) (nbytes ap : Nat) (h : Heap) : Prop :=
  (ap = 0 ∧ ∃ fs, Inv base { s with heap := h } fs) ∨
    (ap ≠ 0 ∧ ∃ fs, Inv base ⟨h, ⟨header ap, (h.mem (header ap)).size, nbytes⟩ :: s.live⟩ fs)

theorem take_gives (inv : Inv base s fs) {nbytes nunits : Nat} (enough : nbytes + 8 ≤ 8 * nunits) {prev p : Nat}
    (known : prev ∈ (nodes base fs).map Span.start) (next : (s.heap.mem prev).ptr = p) (fits : nunits ≤ (s.heap.mem p).size) :
    header (take nunits prev p s.heap).1 + 8 = (take nunits prev p s.heap).1 ∧ ∃ fs', Inv base ⟨(take nunits prev p s.heap).2, ⟨header (take nunits prev p s.heap).1,
      ((take nunits prev p s.heap).2.mem (header (take nunits prev p s.heap).1)).size, nbytes⟩ :: s.live⟩ fs' := by
  have none_ : (s.heap.mem base).size = 0 := by
    have sentinel := inv.list.stored.sizes ⟨base, 0⟩ List.mem_cons_self
    dsimp only at sentinel
    omega
  obtain ⟨t, fs', mem, taken, len, size, bound, list, parts, frame⟩ := take_spec inv.list known next (by omega) none_ fits
  have low : t.start + 8 < word := by
    unfold Span.fin at bound
    omega
  rw [taken]
  refine ⟨?_, fs', ?_⟩
  · dsimp only
    rw [header_add low, add, Nat.mod_eq_of_lt low]
  dsimp only
  rw [header_add low, size]
  exact inv_take inv parts list len enough size frame rfl rfl

theorem mallocLoop_ends (inv : Inv base s fs) {nbytes nunits : Nat} (enough : nbytes + 8 ≤ 8 * nunits) (small : nunits ≤ 2 ^ 28) :
    ∃ fuel ap h, mallocLoop nunits fuel s.heap.freep (s.heap.mem s.heap.freep).ptr s.heap = some (ap, h) ∧
      ((ap = 0 ∧ ∃ gaps, h = { s.heap with gaps := gaps }) ∨
        (header ap + 8 = ap ∧ ∃ fs, Inv base ⟨h, ⟨header ap, (h.mem (header ap)).size, nbytes⟩ :: s.live⟩ fs)) := by
  by_cases fit : ∃ f ∈ fs, 8 * nunits ≤ f.len
  · obtain ⟨prev, p, known, next, fits, loop⟩ := mallocLoop_finds inv.list fit
    exact ⟨_, _, _, loop _ (Nat.lt_succ_self _), .inr (take_gives inv enough known next fits)⟩
  · have misses := mallocLoop_misses inv.list (by omega : 0 < nunits) fun f member =>
      Nat.lt_of_not_le fun large => fit ⟨f, member, large⟩
    rcases morecore_spec inv nunits small with ⟨gaps, fails⟩ | ⟨h, t, grows, grown, large⟩
    · refine ⟨_, 0, _, (misses 0).trans ?_, .inl ⟨rfl, gaps, rfl⟩⟩
      rw [fails]
      rfl
    · obtain ⟨f, member, long⟩ := insert_fits t fs
      obtain ⟨prev, p, known, next, fits, loop⟩ := mallocLoop_finds grown.list ⟨f, member, Nat.le_trans large long⟩
      have gives := take_gives grown enough known next fits
      refine ⟨_, _, _, (misses (fs.length + (insertSpan t fs).length + 1)).trans ?_, .inr gives⟩
      rw [grows _ (by omega)]
      dsimp only
      rw [if_neg (freep_real grown)]
      exact loop _ (by omega)

theorem mallocLoop_spec (inv : Inv base s fs) {nbytes nunits : Nat} (enough : nbytes + 8 ≤ 8 * nunits) (small : nunits ≤ 2 ^ 28) :
    ∃ fuel ap h, mallocLoop nunits fuel s.heap.freep (s.heap.mem s.heap.freep).ptr s.heap = some (ap, h) ∧
      Gives base s nbytes ap h := by
  obtain ⟨fuel, ap, h, done, ⟨failed, gaps, same⟩ | ⟨after, gives⟩⟩ := mallocLoop_ends inv enough small
  · rw [same] at done
    exact ⟨fuel, ap, _, done, .inl ⟨failed, fs, inv_gaps inv gaps⟩⟩
  · exact ⟨fuel, ap, h, done, .inr ⟨by omega, gives⟩⟩

def Good (base : Nat) (s : Sys) : Prop := (Fresh base s.heap ∧ s.live = []) ∨ ∃ fs, Inv base s fs

theorem malloc_spec (good : Good base s) {nbytes : Nat} (bound : nbytes ≤ maxRequest) :
    ∃ fuel ap h, malloc base fuel nbytes s.heap = some (ap, h) ∧ Gives base s nbytes ap h := by
  obtain ⟨enough, small⟩ := units_spec bound
  rcases good with ⟨fresh, none_⟩ | ⟨fs, inv⟩
  · have inv : Inv base { s with heap := init base s.heap } [] := by
      have made := fresh_inv fresh
      rw [← none_] at made
      exact made
    exact mallocLoop_spec inv enough small
  · have made : init base s.heap = s.heap := if_neg (freep_real inv)
    unfold malloc
    rw [made]
    exact mallocLoop_spec inv enough small

theorem malloc_agrees {n m nbytes : Nat} {h : Heap} {first second : Nat × Heap} (done : malloc base n nbytes h = some first)
    (done' : malloc base m nbytes h = some second) : first = second := by
  have more := mallocLoop_mono done (Nat.le_max_left n m)
  have more' := mallocLoop_mono done' (Nat.le_max_right n m)
  exact Option.some.inj (more.symm.trans more')

theorem step_good {s' : Sys} (good : Good base s) (step : Step base s s') : Good base s' := by
  cases step with
  | fails fuel nbytes h bound done =>
    obtain ⟨fuel', ap, h', done', gives⟩ := malloc_spec good bound
    cases malloc_agrees done done'
    rcases gives with ⟨-, inv⟩ | ⟨never, -⟩
    · exact .inr inv
    · exact absurd rfl never
  | malloc fuel nbytes ap h bound real done =>
    obtain ⟨fuel', ap', h', done', gives⟩ := malloc_spec good bound
    cases malloc_agrees done done'
    rcases gives with ⟨never, -⟩ | ⟨-, inv⟩
    · exact absurd never real
    · exact .inr inv
  | free fuel b h mine done =>
    rcases good with ⟨-, none_⟩ | ⟨fs, inv⟩
    · rw [none_] at mine
      cases mine
    · obtain ⟨mem, p, freed, list, frame⟩ := free_spec inv.list (loose_live inv mine)
      have result := freed (max fuel (fs.length + 1)) (Nat.lt_of_lt_of_le (Nat.lt_succ_self _) (Nat.le_max_right _ _))
      cases (free_mono done (Nat.le_max_left _ _)).symm.trans result
      exact .inr ⟨_, inv_free inv mine list frame rfl rfl⟩
  | write mem inside =>
    rcases good with ⟨fresh, none_⟩ | ⟨fs, inv⟩
    · exact .inl ⟨⟨fresh.address, fresh.above, fresh.bound, fresh.freep, fresh.none_⟩, none_⟩
    · exact .inr ⟨fs, inv_write inv mem inside⟩

theorem runs_good (runs : Runs base s) : Good base s := by
  induction runs with
  | start h fresh => exact .inl ⟨fresh, rfl⟩
  | step s s' _ step good => exact step_good good step

end

-- malloc and free end, and the heap is as Inv says as soon as malloc was called.
theorem heap_invariant (base : Nat) (s : Sys) (runs : Runs base s) :
    (∀ nbytes ≤ maxRequest, ∃ fuel result, malloc base fuel nbytes s.heap = some result) ∧
      (∀ b ∈ s.live, ∃ fuel h, free fuel (add b.addr 1) s.heap = some h) ∧
      ((s.heap.freep = 0 ∧ s.live = [] ∧ s.heap.regions = []) ∨ ∃ fs, Inv base s fs) := by
  have good := runs_good runs
  refine ⟨fun nbytes bound => ?_, fun b mine => ?_, ?_⟩
  · obtain ⟨fuel, ap, h, done, -⟩ := malloc_spec good bound
    exact ⟨fuel, (ap, h), done⟩
  · rcases good with ⟨-, none_⟩ | ⟨fs, inv⟩
    · rw [none_] at mine
      cases mine
    · obtain ⟨mem, p, freed, -, -⟩ := free_spec inv.list (loose_live inv mine)
      exact ⟨fs.length + 1, _, freed _ (Nat.lt_succ_self _)⟩
  · rcases good with ⟨fresh, none_⟩ | inv
    · exact .inl ⟨fresh.freep, none_, fresh.none_⟩
    · exact .inr inv

theorem heap_invariant_first : ∃ s, Runs 96 s ∧ s.live = [⟨36832, 4, 20⟩] ∧ ∃ fs, Inv 96 s fs := by
  obtain ⟨h, fresh⟩ : ∃ h, Fresh 96 h ∧ h = ⟨fun _ => ⟨0, 0⟩, 0, 4096, [some 0], []⟩ :=
    ⟨_, ⟨by decide, by decide, by decide, rfl, rfl⟩, rfl⟩
  have done : ∃ h', malloc 96 5 20 h = some (36840, h') ∧ (h'.mem 36832).size = 4 := by
    rw [fresh.2]
    exact ⟨_, rfl, rfl⟩
  obtain ⟨h', done, size⟩ := done
  have runs := Runs.step _ _ (.start h fresh.1) (.malloc _ 5 20 36840 h' (by decide) (by decide) done)
  refine ⟨_, runs, ?_, ?_⟩
  · dsimp only
    rw [show header 36840 = 36832 from rfl, size]
  · rcases (heap_invariant 96 _ runs).2.2 with ⟨-, never, -⟩ | inv
    · cases never
    · exact inv

end Xv6.Umalloc
