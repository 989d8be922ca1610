import Xv6.Umalloc.User

set_option autoImplicit false

namespace Xv6.Umalloc

open Spans

namespace User

-- Nothing was asked yet, or the free list and the live blocks make up what sbrk has returned.
structure Sound (base : Nat) (u : User) (live : List Block) : Prop where
  paged : u.Paged
  good : Good base ⟨u.heap 0, live⟩

-- 0 and the heap as it was, or nbytes bytes of memory that no other block has.
def Serves (base nbytes : Nat) (u : User) (live : List Block) : Prop :=
  ∃ fuel ap u', u.malloc base fuel nbytes = .ok (ap, u') ∧
    ((ap = 0 ∧ ∃ grants, (Out.ok { u' with grants := grants } : Out User) = init base u) ∨
      (ap ≠ 0 ∧ ∃ fs, FreeList base (u'.heap 0) fs ∧ ∀ x, ap ≤ x → x < ap + nbytes →
        u'.mapped (x / pgsize) = true ∧ Covers u'.regions x ∧ ¬ Covers fs x ∧ ¬ Covers (spans live) x))

section

variable {base : Nat} {u : User} {live : List Block} {nbytes : Nat}

theorem heap_inv {n k : Nat} {fs : List Span} (inv : Inv base ⟨u.heap n, live⟩ fs) : Inv base ⟨u.heap k, live⟩ fs := inv_gaps inv _

theorem init_inv (sound : u.Sound base live) (n : Nat) :
    ∃ v, init base u = .ok v ∧ v.Paged ∧ ∃ fs, Inv base ⟨v.heap n, live⟩ fs := by
  obtain ⟨paged, ⟨fresh, none_⟩ | ⟨fs, inv⟩⟩ := sound
  · have first : u.freep = 0 := fresh.freep
    have inside : u.has base = true := has_below paged fresh.above
    refine ⟨{ u with mem := upd u.mem base ⟨base, 0⟩, freep := base }, ?_, ⟨paged.pages, paged.bound⟩, [], ?_⟩
    · unfold init
      rw [if_pos first, store_ok inside]
      rfl
    · have made := fresh_inv fresh
      have same : Umalloc.init base (u.heap 0) = heap 0 { u with mem := upd u.mem base ⟨base, 0⟩, freep := base } := if_pos first
      rw [same, show ([] : List Block) = live from none_.symm] at made
      exact heap_inv made
  · exact ⟨u, if_neg (freep_real inv), paged, fs, heap_inv inv⟩

theorem units_small (bound : nbytes ≤ 2 ^ 31 - 16) : nbytes + 8 ≤ 8 * units nbytes ∧ units nbytes < 2 ^ 28 := by
  unfold units
  rw [Nat.mod_eq_of_lt (by unfold word; omega)]
  omega

theorem serves_small (bound : nbytes ≤ 2 ^ 31 - 16) (sound : u.Sound base live) : Serves base nbytes u live := by
  obtain ⟨enough, small⟩ := units_small bound
  generalize count : units nbytes = nunits at enough small
  have some_ : 0 < nunits := by omega
  obtain ⟨n, bytes⟩ : ∃ n, (if nunits < 4096 then 4096 else nunits) * 8 % word = n := ⟨_, rfl⟩
  have range : 8 * 4096 ≤ n ∧ n < 2 ^ 31 := by
    rw [← bytes, Nat.mod_eq_of_lt (by unfold word; split <;> omega)]
    split <;> omega
  obtain ⟨v, made, paged, fs, inv⟩ := init_inv sound n
  obtain ⟨fuel, ap, h, done, result⟩ := mallocLoop_ends inv enough (Nat.le_of_lt small)
  have sim := mallocLoop_sim some_ bytes range.1 range.2 (Nat.le_of_lt small) fuel paged inv (freep_node inv) rfl
  change Umalloc.mallocLoop nunits fuel v.freep (v.mem v.freep).ptr (v.heap n) = some (ap, h) at done
  rw [done] at sim
  obtain ⟨u', done', same, paged'⟩ := agrees_some sim
  refine ⟨fuel, ap, u', ?_, ?_⟩
  · unfold malloc
    rw [made, Out.ok_bind, load_ok (nodes_closed paged inv _ (freep_node inv)).1, Out.ok_bind, count]
    exact done'
  rcases result with ⟨failed, gaps, unchanged⟩ | ⟨after, fs', inv'⟩
  · refine .inl ⟨failed, v.grants, ?_⟩
    rw [made]
    have whole : u'.heap n = { v.heap n with gaps := gaps } := same.trans unchanged
    have sizes : u'.sz = v.sz := congrArg Heap.brk whole
    have pages : u'.mapped = v.mapped := by
      funext page
      rw [Bool.eq_iff_iff, paged'.pages, paged.pages, sizes]
    have memory : u'.mem = v.mem := congrArg Heap.mem whole
    have first : u'.freep = v.freep := congrArg Heap.freep whole
    have regions : u'.regions = v.regions := congrArg Heap.regions whole
    rw [memory, first, sizes, pages, regions]
  · dsimp only at same
    rw [← same] at inv'
    refine .inr ⟨by omega, fs', ⟨inv'.list.stored, inv'.list.freep, inv'.list.separated, inv'.list.real, inv'.list.bound⟩, ?_⟩
    intro x low high
    generalize block : (⟨header ap, ((u'.heap n).mem (header ap)).size, nbytes⟩ : Block) = b at inv'
    have large := inv'.large b List.mem_cons_self
    have covers : b.span.Covers x := by
      rw [← block] at large ⊢
      unfold Block.span Span.Covers Span.fin
      dsimp only at large ⊢
      omega
    have below : b.span.fin ≤ u'.sz := (live_bounds inv' List.mem_cons_self).2
    refine ⟨(paged'.pages _).mpr ?_, ?_, live_not_free inv' List.mem_cons_self covers, ?_⟩
    · exact Nat.lt_of_le_of_lt (Nat.div_mul_le_self x pgsize) (Nat.lt_of_lt_of_le covers.2 below)
    · exact (inv'.covered x).mpr (.inr (live_covers.mpr ⟨b, List.mem_cons_self, covers⟩))
    · rintro ⟨t, member, covers'⟩
      obtain ⟨c, mine, rfl⟩ := List.mem_map.mp member
      exact span_apart_covers ((List.pairwise_cons.mp inv'.apart).1 c mine) covers covers'

end

section

variable {base hp nunits nu : Nat} {v w : User}

def listed (w : User) (base hp nu : Nat) : User :=
  { w with mem := upd (upd (upd w.mem hp ⟨(w.mem hp).ptr, nu⟩) hp ⟨base, nu⟩) base ⟨hp, 0⟩, freep := base }

structure Alone (w : User) (base hp : Nat) : Prop where
  head : w.mem base = ⟨base, 0⟩
  first : w.freep = base
  inside : w.has base = true
  there : w.has hp = true
  real : 0 < base
  above : base < hp
  low : hp + 8 < word

theorem free_first (alone : Alone w base hp) (fits : nu < word) (fuel : Nat) :
    User.free (fuel + 1) (add hp 1) { w with mem := upd w.mem hp ⟨(w.mem hp).ptr, nu⟩ } = .ok (listed w base hp nu) := by
  obtain ⟨head, first, inside, there, -, above, low⟩ := alone
  obtain ⟨w₁, made⟩ : ∃ w₁ : User, w₁ = { w with mem := upd w.mem hp ⟨(w.mem hp).ptr, nu⟩ } := ⟨_, rfl⟩
  have here : header (add hp 1) = hp := header_add low
  have atBase : w₁.mem base = ⟨base, 0⟩ := by
    rw [made]
    exact (upd_ne (Nat.ne_of_lt above)).trans head
  have atBlock : (w₁.mem hp).size = nu := by
    rw [made]
    exact congrArg Header.size (upd_self _ _ _)
  have freep : w₁.freep = base := by
    rw [made]
    exact first
  have closed : ∀ a, a = base → w₁.has a = true ∧ (w₁.mem a).ptr = base := by
    rintro a rfl
    refine ⟨?_, by rw [atBase]⟩
    rw [made]
    exact inside
  have block : w₁.has (header (add hp 1)) = true := by
    rw [here, made]
    exact there
  -- Both joins: hp leads back to base, whether they touch or not.
  have joined : Umalloc.join w₁.mem hp base = ⟨base, nu⟩ := by
    unfold Umalloc.join
    rw [atBlock, atBase]
    split
    · rw [Nat.add_zero, Nat.mod_eq_of_lt fits]
    · rfl
  have linked : Umalloc.join (upd w₁.mem hp ⟨base, nu⟩) base hp = ⟨hp, 0⟩ := by
    unfold Umalloc.join
    rw [upd_ne (Nat.ne_of_lt above), atBase, if_neg]
    unfold add
    rw [Nat.mul_zero, Nat.add_zero, Nat.mod_eq_of_lt (by omega)]
    exact Nat.ne_of_lt above
  have found : Umalloc.free (fuel + 1) (add hp 1) (w₁.heap 0) =
      some { w₁.heap 0 with mem := upd (upd w₁.mem hp ⟨base, nu⟩) base ⟨hp, 0⟩, freep := base } := by
    have stops : Umalloc.freeLoop w₁.mem hp (fuel + 1) base = some base := by
      refine freeLoop_stops (.inr ?_) fuel
      rw [atBase]
      exact ⟨Nat.le_refl base, .inl above⟩
    unfold Umalloc.free
    dsimp only
    rw [here]
    show Option.bind (Umalloc.freeLoop w₁.mem hp (fuel + 1) w₁.freep) _ = _
    rw [freep, stops]
    show some { w₁.heap 0 with
      mem := upd (upd w₁.mem hp (Umalloc.join w₁.mem hp (w₁.mem base).ptr)) base
        (Umalloc.join (upd w₁.mem hp (Umalloc.join w₁.mem hp (w₁.mem base).ptr)) base hp), freep := base } = _
    rw [atBase, joined, linked]
  rw [← made]
  rcases free_sim (n := 0) closed freep block (fuel + 1) with ⟨-, never⟩ | ⟨mem, p, done, found'⟩
  · rw [found] at never
    cases never
  · rw [done]
    have same := Option.some.inj (found.symm.trans found')
    have memory : upd (upd w₁.mem hp ⟨base, nu⟩) base ⟨hp, 0⟩ = mem := congrArg Heap.mem same
    have start : base = p := congrArg Heap.freep same
    rw [← memory, ← start, made]
    rfl

theorem morecore_first (alone : Alone w base hp) (asked : v.sbrk (nu * 8 % word) = (some hp, w)) (fits : nu < word)
    (count : (if nunits < 4096 then 4096 else nunits) = nu) {fuel : Nat} {r : Nat × User}
    (done : morecore fuel nunits v = .ok r) : r = (base, listed w base hp nu) := by
  unfold morecore at done
  dsimp only at done
  rw [count, asked] at done
  dsimp only at done
  rw [load_ok alone.there, Out.ok_bind, store_ok alone.there, Out.ok_bind] at done
  cases fuel with
  | zero => cases done
  | succ fuel =>
    rw [free_first alone fits] at done
    cases done
    rfl

theorem malloc_first (alone : Alone w base hp) (asked : v.sbrk (nu * 8 % word) = (some hp, w)) (fits : nu < word)
    (count : (if nunits < 4096 then 4096 else nunits) = nu) (some_ : 0 < nunits) (inside : v.has base = true)
    (head : v.mem base = ⟨base, 0⟩) (first : v.freep = base) {fuel : Nat} {r : Nat × User}
    (done : mallocLoop nunits fuel base base v = .ok r) : take nunits base hp (listed w base hp nu) = .ok r := by
  cases fuel with
  | zero => cases done
  | succ fuel =>
    unfold mallocLoop at done
    rw [load_ok inside, Out.ok_bind, head] at done
    dsimp only at done
    rw [if_neg (by omega), if_pos first.symm] at done
    cases got : morecore fuel nunits v with
    | fault =>
      rw [got] at done
      cases done
    | spent =>
      rw [got] at done
      cases done
    | ok more =>
      rw [got, morecore_first alone asked fits count got, Out.ok_bind] at done
      have atBase : (listed w base hp nu).mem base = ⟨hp, 0⟩ := upd_self _ _ _
      have atBlock : (listed w base hp nu).mem hp = ⟨base, nu⟩ :=
        (upd_ne (Nat.ne_of_gt alone.above)).trans (upd_self _ _ _)
      have inside' : (listed w base hp nu).has base = true := alone.inside
      have there : (listed w base hp nu).has hp = true := alone.there
      dsimp only at done
      rw [if_neg (Nat.ne_of_gt alone.real), load_ok inside', Out.ok_bind, atBase] at done
      cases fuel with
      | zero => cases done
      | succ fuel =>
        unfold mallocLoop at done
        dsimp only at done
        rw [load_ok there, Out.ok_bind, atBlock] at done
        dsimp only at done
        rwa [if_pos (by rw [← count]; split <;> omega)] at done

theorem take_result {prevp p ap : Nat} {u' : User} (done : take nunits prevp p w = .ok (ap, u')) :
    u'.regions = w.regions ∧
      ap = if (w.mem p).size = nunits then add p 1 else add (add p ((w.mem p).size - nunits)) 1 := by
  unfold take load store at done
  by_cases there : w.has p = true
  · rw [if_pos there, Out.ok_bind] at done
    by_cases whole : (w.mem p).size = nunits
    · rw [if_pos whole] at done ⊢
      by_cases before : w.has prevp = true
      · rw [if_pos before, Out.ok_bind, if_pos before] at done
        cases done
        exact ⟨rfl, rfl⟩
      · rw [if_neg before] at done
        cases done
    · rw [if_neg whole, if_pos there, Out.ok_bind] at done
      dsimp only at done
      rw [if_neg whole]
      by_cases last : w.has (add p ((w.mem p).size - nunits)) = true
      · have last' : ({ w with mem := upd w.mem p ⟨(w.mem p).ptr, (w.mem p).size - nunits⟩ } : User).has
            (add p ((w.mem p).size - nunits)) = true := last
        rw [if_pos last', Out.ok_bind, if_pos last'] at done
        cases done
        exact ⟨rfl, rfl⟩
      · have last' : ¬ ({ w with mem := upd w.mem p ⟨(w.mem p).ptr, (w.mem p).size - nunits⟩ } : User).has
            (add p ((w.mem p).size - nunits)) = true := last
        rw [if_neg last'] at done
        cases done
  · rw [if_neg there] at done
    cases done

end

def fresh (sz : Nat) : User := ⟨fun _ => ⟨0, 0⟩, 0, sz, fun page => page == 0, [true], []⟩

def started (sz : Nat) : User := { fresh sz with mem := upd (fresh sz).mem 8 ⟨8, 0⟩, freep := 8 }

section

variable {sz : Nat}

theorem fresh_sound (low : 16 ≤ sz) (page : sz ≤ pgsize) : (fresh sz).Sound 8 [] := by
  refine ⟨⟨?_, ?_⟩, .inl ⟨⟨by omega, low, ?_, rfl, rfl⟩, rfl⟩⟩
  · intro n
    show (n == 0) = true ↔ n * pgsize < sz
    rw [beq_iff_eq]
    unfold pgsize at *
    omega
  · show sz ≤ kernbase
    unfold pgsize kernbase at *
    omega
  · show sz < word
    unfold pgsize word at *
    omega

theorem started_paged (low : 16 ≤ sz) (page : sz ≤ pgsize) : (started sz).Paged :=
  ⟨(fresh_sound low page).paged.pages, (fresh_sound low page).paged.bound⟩

theorem started_has (sz a : Nat) (low : a + 8 ≤ pgsize) : (started sz).has a = true := by
  have first : a / pgsize = 0 := Nat.div_eq_of_lt (by omega)
  have last : (a + 7) / pgsize = 0 := Nat.div_eq_of_lt (by omega)
  unfold has
  rw [first, last]
  rfl

theorem not_serves {nbytes nu : Nat} {w : User} (some_ : 0 < nbytes) (fits : nu < word)
    (count : (if units nbytes < 4096 then 4096 else units nbytes) = nu)
    (asked : (started sz).sbrk (nu * 8 % word) = (some sz, w)) (alone : Alone w 8 sz)
    (outside : ¬ Covers w.regions (if nu = units nbytes then add sz 1 else add (add sz (nu - units nbytes)) 1))
    (real : (if nu = units nbytes then add sz 1 else add (add sz (nu - units nbytes)) 1) ≠ 0) :
    ¬ Serves 8 nbytes (fresh sz) [] := by
  rintro ⟨fuel, ap, u', done, served⟩
  have inside : (fresh sz).has 8 = true := started_has sz 8 (by decide)
  have started_ : init 8 (fresh sz) = .ok (started sz) := by
    unfold init
    rw [if_pos (show (fresh sz).freep = 0 from rfl), store_ok inside]
    rfl
  unfold malloc at done
  rw [started_, Out.ok_bind] at done
  have loaded : (started sz).load (started sz).freep = .ok ⟨8, 0⟩ := load_ok inside
  rw [loaded, Out.ok_bind] at done
  have positive : 0 < units nbytes := Nat.succ_pos _
  have taken := take_result (malloc_first alone asked fits count positive inside rfl rfl done)
  have size : ((listed w 8 sz nu).mem sz).size = nu :=
    congrArg Header.size ((upd_ne (Nat.ne_of_gt alone.above)).trans (upd_self _ _ _))
  rw [size] at taken
  obtain ⟨regions, place⟩ := taken
  rcases served with ⟨null, -⟩ | ⟨-, fs, -, bytes⟩
  · exact real (place.symm.trans null)
  · have covered := (bytes ap (Nat.le_refl ap) (by omega)).2.1
    rw [regions, place] at covered
    exact outside covered

-- sbrk with a size that is not positive as an int gives no memory, and says that it did.
theorem growproc_wraps (low : 16 ≤ sz) (page : sz ≤ pgsize) {d : Nat} (large : d ≤ 2 ^ 31) (kept : d ≠ sz) :
    ∃ sz', sz' ≤ sz ∧ (started sz).growproc (-(d : Int)) = (true, { started sz with sz := sz' }) := by
  have paged := started_paged low page
  unfold growproc
  rw [if_neg (by omega)]
  by_cases none_ : d = 0
  · exact ⟨sz, Nat.le_refl sz, by rw [if_neg (by omega)]; rfl⟩
  rw [if_pos (by omega)]
  have place : moved (started sz).sz (-(d : Int)) = if d < sz then sz - d else sz + word - d := by
    unfold moved word
    show (((sz : Int) + -(d : Int)) % (2 ^ 32 : Nat)).toNat = _
    unfold pgsize at page
    split <;> omega
  unfold deallocuvm
  rw [place]
  by_cases less : d < sz
  · refine ⟨sz - d, Nat.sub_le sz d, ?_⟩
    have above : (started sz).sz ≤ pgroundup (sz - d) := by
      obtain ⟨atLeast, -, whole⟩ := pgroundup_near (a := sz - d) (by unfold pgsize kernbase at *; omega)
      show sz ≤ _
      unfold pgsize at *
      omega
    rw [if_pos less, if_neg (by show ¬ sz - d ≥ sz; omega), unmap_above paged above]
    dsimp only
    rw [if_neg (by omega)]
  · refine ⟨sz, Nat.le_refl sz, ?_⟩
    rw [if_neg less, if_pos (by show sz + word - d ≥ sz; unfold word; omega)]
    dsimp only
    rw [if_neg (by show ¬ sz = 0; omega)]
    rfl

theorem sbrk_wraps (low : 16 ≤ sz) (page : sz ≤ pgsize) {bytes : Nat} (large : 2 ^ 31 ≤ bytes) (bound : bytes ≤ word)
    (kept : word - bytes ≠ sz) : ∃ sz', (started sz).sbrk (bytes % word) = (some sz, { started sz with sz := sz' }) := by
  obtain ⟨sz', less, grown⟩ := growproc_wraps low page (d := word - bytes) (by unfold word at *; omega) kept
  have argument : signed (bytes % word) = -((word - bytes : Nat) : Int) := by
    unfold signed word at *
    split <;> omega
  refine ⟨sz', ?_⟩
  unfold sbrk
  rw [argument, grown]
  dsimp only
  rw [if_neg (by show ¬ sz < sz'; omega)]
  rfl

theorem alone_started (low : 16 ≤ sz) (page : sz + 8 ≤ pgsize) (sz' : Nat) : Alone { started sz with sz := sz' } 8 sz :=
  ⟨rfl, rfl, started_has sz 8 (by decide), started_has sz sz page, by decide, by omega, by
    unfold pgsize at page
    unfold word
    omega⟩

theorem sbrk_block : ∃ w, (started 2048).sbrk (4096 * 8 % word) = (some 2048, w) ∧ Alone w 8 2048 ∧
    w.regions = [⟨2048, 32768⟩] := by
  have argument : signed (4096 * 8 % word) = 32768 := by decide
  have place : moved (started 2048).sz 32768 = 34816 := by decide
  have grown : (started 2048).allocuvm 2048 34816 = (some 34816, { started 2048 with
      grants := []
      mapped := fun page => page == 0 || (pgroundup 2048 ≤ page * pgsize && page * pgsize < 34816) }) := by
    unfold allocuvm
    rw [if_neg (by decide), if_neg (by decide), if_neg (by decide)]
    rfl
  refine ⟨{ started 2048 with
    sz := 34816
    grants := []
    mapped := fun page => page == 0 || (pgroundup 2048 ≤ page * pgsize && page * pgsize < 34816)
    regions := [⟨2048, 32768⟩] }, ?_, ?_, rfl⟩
  · unfold sbrk growproc
    rw [argument, if_pos (by decide), place, show (started 2048).sz = 2048 from rfl, grown]
    rfl
  · exact ⟨rfl, rfl, rfl, rfl, by decide, by decide, by decide⟩

theorem wraps_to_one {nbytes : Nat} (large : 2 ^ 32 - 7 ≤ nbytes) (bound : nbytes < 2 ^ 32) : ¬ Serves 8 nbytes (fresh 2048) [] := by
  have one : units nbytes = 1 := by
    unfold units word
    omega
  obtain ⟨w, asked, alone, regions⟩ := sbrk_block
  have count : (if units nbytes < 4096 then 4096 else units nbytes) = 4096 := by
    rw [one]
    rfl
  refine not_serves (by omega) (by decide) count asked alone ?_ ?_
  · rw [regions, one]
    rintro ⟨t, member, low, high⟩
    cases List.mem_singleton.mp member
    exact absurd high (by decide)
  · rw [one]
    decide

theorem wraps_to_none {nbytes : Nat} (low : 16 ≤ sz) (page : sz + 8 ≤ pgsize) (large : 2 ^ 31 - 16 < nbytes)
    (bound : nbytes < 2 ^ 32 - 7) (kept : word - units nbytes * 8 ≠ sz) : ¬ Serves 8 nbytes (fresh sz) [] := by
  have count : 2 ^ 28 ≤ units nbytes ∧ units nbytes ≤ 2 ^ 29 := by
    unfold units word
    omega
  obtain ⟨sz', asked⟩ := sbrk_wraps low (by omega) (show 2 ^ 31 ≤ units nbytes * 8 by omega) (by unfold word; omega) kept
  refine not_serves (by omega) (by unfold word; omega) (if_neg (by omega)) asked (alone_started low page sz') ?_ ?_
  · rintro ⟨t, member, -⟩
    cases member
  · rw [if_pos rfl]
    unfold add word
    unfold pgsize at page
    omega

end

-- A request of more than 2^31 - 16 bytes wraps in malloc or in sbrk.
theorem malloc_serves_iff (nbytes : Nat) (bound : nbytes < 2 ^ 32) :
    (∀ base u live, Sound base u live → Serves base nbytes u live) ↔ nbytes ≤ 2 ^ 31 - 16 := by
  constructor
  · intro serves
    by_contra large
    by_cases one : 2 ^ 32 - 7 ≤ nbytes
    · exact wraps_to_one one bound (serves 8 (fresh 2048) [] (fresh_sound (by decide) (by decide)))
    · by_cases kept : word - units nbytes * 8 = 2048
      · have served := serves 8 (fresh 1024) [] (fresh_sound (by decide) (by decide))
        exact wraps_to_none (by decide) (by decide) (by omega) (by omega) (by omega) served
      · have served := serves 8 (fresh 2048) [] (fresh_sound (by decide) (by decide))
        exact wraps_to_none (by decide) (by decide) (by omega) (by omega) kept served
  · intro small base u live sound
    exact serves_small small sound

theorem malloc_serves_twenty_bytes : (fresh 2048).Sound 8 [] ∧ Serves 8 20 (fresh 2048) [] :=
  ⟨fresh_sound (by decide) (by decide),
    (malloc_serves_iff 20 (by decide)).mpr (by decide) 8 (fresh 2048) [] (fresh_sound (by decide) (by decide))⟩

-- malloc(2^31) calls sbrk with -(2^31 - 8), which leaves the process as it is and returns its end, 2048.
theorem malloc_gives_no_memory :
    (fresh 2048).Sound 8 [] ∧
    (∃ u', (fresh 2048).malloc 8 2 (2 ^ 31) = .ok (2056, u') ∧ u'.sz = 2048 ∧ u'.regions = []) ∧
    ¬ Serves 8 (2 ^ 31) (fresh 2048) [] := by
  refine ⟨fresh_sound (by decide) (by decide), ⟨_, rfl, rfl, rfl⟩, ?_⟩
  exact wraps_to_none (by decide) (by decide) (by decide) (by decide) (by decide)

end User

end Xv6.Umalloc
