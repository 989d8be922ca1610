import Xv6.Vm.Copyuvm
import Xv6.Vm.Space
import Xv6.Vm.System

set_option autoImplicit false

namespace Xv6.Vm

variable {k : Kernel} {m m' m'' : Ram} {role role' role'' : Nat → Role}

def UserPages (m : Ram) (d sz : Nat) : Prop := ∀ n < 2 ^ 19, (lookup m d n).isSome ↔ n < npages sz

def SameBelow (m m' : Ram) (d n : Nat) : Prop :=
  ∀ i < n, lookup m' d i = lookup m d i ∧ ∀ e, lookup m d i = some e → m'.word e.frame = m.word e.frame

def NewPage (m m' : Ram) (d n : Nat) : Prop :=
  ∃ f ∈ m.freelist, lookup m' d n = some (permUser.entry f) ∧ (∀ j, m'.word f j = .ofWord 0) ∧
    ∀ n' < 2 ^ 19, ∀ e, lookup m' d n' = some e → e.frame = f → n' = n

theorem lookup_of_role {d n f : Nat} (frames : Frames k m role) (page : role f = .page d n) : (lookup m d n).isSome := by
  obtain ⟨pde, pte, -⟩ := page_entry frames page
  rw [lookup, pde, pte]
  rfl

theorem user_pages_top {d sz : Nat} (frames : Frames k m role) (pages : UserPages m d sz) (f n : Nat) (page : role f = .page d n) :
    n < npages sz :=
  (pages n (frames.page f d n page).1).mp (lookup_of_role frames page)

theorem user_pages_some {d sz n : Nat} (pages : UserPages m d sz) (user : sz ≤ kernbase) (below : n < npages sz) :
    ∃ e, lookup m d n = some e :=
  Option.isSome_iff_exists.mp ((pages n (below.trans_le (npages_le user))).mpr below)

theorem same_below_untouched {d n : Nat} (frames : Frames k m role) (is : role d = .dir) (data : Untouched m m' role d)
    (user : n ≤ 2 ^ 19) (same : ∀ i < n, lookup m' d i = lookup m d i) : SameBelow m m' d n := by
  intro i below
  refine ⟨same i below, fun e found => ?_⟩
  have page := lookup_page frames is (by omega) found
  refine data _ (by simp [page]) ?_ (by simp [page])
  intro here
  rw [here, is] at page
  cases page

def AllocLaw (m m' : Ram) (d old new r : Nat) : Prop :=
  (r = new ∧ old ≤ new ∧ new < kernbase ∧ UserPages m' d new ∧ SameBelow m m' d (npages old) ∧
    ∀ n, npages old ≤ n → n < npages new → NewPage m m' d n) ∨
  (r = old ∧ new < old ∧ m' = m) ∨
  (r = 0 ∧ UserPages m' d old ∧ SameBelow m m' d (npages old) ∧ (∀ f ∈ m'.freelist, f ∈ m.freelist) ∧
    ∀ f ∈ m.freelist, f ∈ m'.freelist ∨ ∃ i < 1024, (m'.word d i).p = true ∧ (m'.word d i).frame = f)

theorem alloc_law_grown {d old new : Nat} (frames : Frames k m role) (is : role d = .dir) (user : old < kernbase)
    (pages : UserPages m d old) (up : old ≤ new) (some_ : new ≠ 0) (allocated : Allocated k m m' role role' d old new new) :
    UserPages m' d new ∧ SameBelow m m' d (npages old) ∧ ∀ n, npages old ≤ n → n < npages new → NewPage m m' d n := by
  have kept := allocated.kept some_
  have limit := npages_le (Nat.le_of_lt user)
  have limit' := npages_le (Nat.le_of_lt (allocated.small some_))
  have mono := npages_mono up
  have isDir : role' d = .dir := by rw [grown_kept allocated.toGrown (by simp [is]), is]
  have new_ : ∀ n, npages old ≤ n → n < npages new → NewPage m m' d n := by
    intro n above below
    obtain ⟨f, page, entered, zero⟩ := allocated.zeroed n above below
    refine ⟨f, (frames.free f).mpr ?_, entered, zero, fun n' bound e found here => ?_⟩
    · rcases allocated.taken f with same | ⟨free, -⟩
      · have old_ := user_pages_top frames pages f n (by rw [← same]; exact page)
        omega
      · exact free
    · have page' := lookup_page allocated.frames isDir bound found
      rw [here, page] at page'
      exact (Role.page.inj page').2.symm
  refine ⟨fun n bound => ?_, ?_, new_⟩
  · by_cases added : npages old ≤ n ∧ n < npages new
    · obtain ⟨f, -, entered, -⟩ := new_ n added.1 added.2
      rw [entered]
      exact ⟨fun _ => added.2, fun _ => rfl⟩
    · rw [kept.lookup n (by omega) (by omega), pages n bound]
      omega
  · exact same_below_untouched frames is allocated.data limit fun i below => kept.lookup i (by omega) (.inl below)

theorem alloc_law_undone {d old new : Nat} (frames : Frames k m role) (is : role d = .dir) (user : old < kernbase)
    (pages : UserPages m d old) (allocated : Allocated k m m' role role' d old new 0) :
    UserPages m' d old ∧ SameBelow m m' d (npages old) ∧ (∀ f ∈ m'.freelist, f ∈ m.freelist) ∧
      ∀ f ∈ m.freelist, f ∈ m'.freelist ∨ ∃ i < 1024, (m'.word d i).p = true ∧ (m'.word d i).frame = f := by
  have kept := allocated.undone rfl
  have limit := npages_le (Nat.le_of_lt user)
  have isDir : role' d = .dir := by rw [grown_kept allocated.toGrown (by simp [is]), is]
  refine ⟨fun n bound => ?_, ?_, fun f member => ?_, fun f member => ?_⟩
  · by_cases below : n < npages old
    · rw [kept.lookup n (by omega) (.inl below), pages n bound]
    · refine ⟨fun there => ?_, fun inside => absurd inside below⟩
      obtain ⟨e, found⟩ := Option.isSome_iff_exists.mp there
      rcases grown_page allocated.toGrown (lookup_page allocated.frames isDir bound found) with was | ⟨-, -, never⟩
      · exact user_pages_top frames pages _ n was
      · exact absurd never (Nat.not_lt_zero n)
  · exact same_below_untouched frames is allocated.data limit fun i below => kept.lookup i (by omega) (.inl below)
  · rw [frames.free]
    exact grown_was_free allocated.toGrown ((allocated.frames.free f).mp member)
  · rcases allocated.taken f with same | ⟨-, ⟨i, table⟩ | ⟨n, -, never, -⟩⟩
    · rw [allocated.frames.free, same, ← frames.free]
      exact .inl member
    · obtain ⟨-, small, present⟩ := allocated.frames.tbl f d i table
      exact .inr ⟨i, small, present⟩
    · exact absurd never (Nat.not_lt_zero n)

theorem alloc_law {d old : Nat} (new : Nat) (frames : Frames k m role) (is : role d = .dir) (user : old < kernbase)
    (pages : UserPages m d old) : ∃ r m', (allocuvm d old new).run (RamOp.exec k) m = .ok r m' ∧ AllocLaw m m' d old new r := by
  by_cases down : new < old
  · refine ⟨old, m, ?_, .inr (.inl ⟨rfl, down, rfl⟩)⟩
    rw [allocuvm, if_neg (by omega), if_pos down]
    rfl
  · obtain ⟨r, m', finished, role', allocated⟩ :=
      spec_run (c := allocuvm d old new) (allocuvm_spec (Nat.le_of_lt user) frames is (user_pages_top frames pages))
    refine ⟨r, m', finished, ?_⟩
    by_cases failed : r = 0
    · subst failed
      exact .inr (.inr ⟨rfl, alloc_law_undone frames is user pages allocated⟩)
    · obtain ⟨size, -⟩ := allocated.size.resolve_left failed
      have below := allocated.small failed
      obtain rfl : r = new := by omega
      exact .inl ⟨rfl, by omega, below, alloc_law_grown frames is user pages (by omega) failed allocated⟩

def DeallocLaw (m m' : Ram) (d old new r : Nat) : Prop :=
  (old ≤ new ∧ r = old ∧ m' = m) ∨
  (new < old ∧ r = new ∧ m'.freelist = freedFrames m d (npages new) (npages old) ++ m.freelist ∧ m'.freelist.Nodup ∧
    ∀ n < 2 ^ 19, if npages new ≤ n ∧ n < npages old then lookup m' d n = none
      else lookup m' d n = lookup m d n ∧ ∀ e, lookup m d n = some e → m'.word e.frame = m.word e.frame)

theorem dealloc_law {d old : Nat} (new : Nat) (frames : Frames k m role) (is : role d = .dir) (user : old ≤ kernbase) :
    ∃ r m', (deallocuvm d old new).run (RamOp.exec k) m = .ok r m' ∧ DeallocLaw m m' d old new r := by
  obtain ⟨r, m', finished, same | ⟨down, rfl, role', shrunk, gone, kept, list⟩⟩ :=
    spec_run (c := deallocuvm d old new) (deallocuvm_spec user frames is)
  · exact ⟨r, m', finished, .inl same⟩
  have isDir : role' d = .dir := by
    rw [shrunk_kept shrunk fun n => by rw [is]; simp]
    exact is
  refine ⟨r, m', finished, .inr ⟨down, rfl, list, shrunk.frames.nodup, fun n bound => ?_⟩⟩
  by_cases inside : npages r ≤ n ∧ n < npages old
  · rw [if_pos inside]
    by_contra there
    obtain ⟨e, found⟩ := Option.ne_none_iff_exists'.mp there
    have above := gone _ n (lookup_page shrunk.frames isDir bound found) inside.1
    omega
  · rw [if_neg inside]
    have same := kept.lookup n (by omega) (by omega)
    refine ⟨same, fun e found => ?_⟩
    have before := lookup_page frames is bound found
    have after := lookup_page shrunk.frames isDir bound (same.trans found)
    exact shrunk.data _ (by rw [after, before]) (by simp [before])

-- deallocuvm without the jump over absent page tables.
def visitLoop (pgdir oldsz : Nat) : Nat → Nat → RamM Unit
  | 0, _ => return ()
  | fuel + 1, a =>
    if a < oldsz then do
      match ← walkpgdir pgdir a false with
      | none => visitLoop pgdir oldsz fuel (a + pgsize)
      | some (pgtab, j) => do
        let pte ← read pgtab j
        if pte.p then do
          if pte.frame = 0 then panic "kfree"
          else do
            kfree pte.frame
            write pgtab j (.ofWord 0)
            visitLoop pgdir oldsz fuel (a + pgsize)
        else visitLoop pgdir oldsz fuel (a + pgsize)
    else return ()

def deallocEvery (pgdir oldsz newsz : Nat) : RamM Nat := do
  if newsz ≥ oldsz then return oldsz
  else do
    visitLoop pgdir oldsz (oldsz / pgsize + 1) (pgroundup newsz)
    return newsz

theorem walk_run (d va : Nat) : (walkpgdir d va false).run (RamOp.exec k) m =
    .ok (if (m.word d (pdx va)).p then some ((m.word d (pdx va)).frame, ptx va) else none) m := by
  obtain ⟨r, m', finished, rfl, rfl⟩ := spec_run (k := k) (m := m) (walk_find d va)
  exact finished

theorem dealloc_above {d oldsz n : Nat} (fuel : Nat) (above : npages oldsz ≤ n) :
    deallocLoop d oldsz fuel (n * pgsize) = .ret () := by
  cases fuel with
  | zero => rfl
  | succ fuel =>
    rw [deallocLoop, if_neg]
    · rfl
    · rw [page_lt]
      omega

theorem dealloc_absent {d oldsz n : Nat} (user : npages oldsz ≤ 2 ^ 19) (fuel : Nat) (inside : n < npages oldsz)
    (pde : ¬ (m.word d (n / 1024)).p = true) : (deallocLoop d oldsz (fuel + 1) (n * pgsize)).run (RamOp.exec k) m =
      (deallocLoop d oldsz fuel ((n / 1024 + 1) * 1024 * pgsize)).run (RamOp.exec k) m := by
  have skip : (n / 1024 + 1) * 2 ^ 22 = (n / 1024 + 1) * 1024 * pgsize := by ring
  rw [deallocLoop, if_pos ((page_lt n oldsz).mpr inside), Prog.run_bind _ (walk_run d (n * pgsize)), pdx_page (by omega),
    if_neg pde, skip]

theorem dealloc_visits {d oldsz : Nat} (user : npages oldsz ≤ 2 ^ 19) (count n fuel : Nat) (all : npages oldsz ≤ n + count)
    (enough : npages oldsz ≤ n + fuel) (m : Ram) : (deallocLoop d oldsz fuel (n * pgsize)).run (RamOp.exec k) m =
      (visitLoop d oldsz count (n * pgsize)).run (RamOp.exec k) m := by
  induction count generalizing n fuel m with
  | zero =>
    rw [dealloc_above fuel (by omega)]
    rfl
  | succ count ih =>
    have next : n * pgsize + pgsize = (n + 1) * pgsize := by ring
    by_cases inside : n < npages oldsz
    · obtain ⟨fuel, rfl⟩ : ∃ left, fuel = left + 1 := ⟨fuel - 1, by omega⟩
      have here := (page_lt n oldsz).mpr inside
      by_cases pde : (m.word d (n / 1024)).p = true
      · rw [deallocLoop, visitLoop, if_pos here, if_pos here, Prog.run_bind _ (walk_run d (n * pgsize)),
          Prog.run_bind _ (walk_run d (n * pgsize)), pdx_page (by omega), if_pos pde, next]
        refine Prog.run_congr _ (fun pte m => ?_) m
        have rest := ih (n + 1) fuel (by omega) (by omega)
        by_cases present : pte.p = true
        · rw [if_pos present, if_pos present]
          by_cases zero : pte.frame = 0
          · rw [if_pos zero, if_pos zero]
          · rw [if_neg zero, if_neg zero]
            exact Prog.run_congr _ (fun _ m => Prog.run_congr _ (fun _ m => rest m) m) m
        · rw [if_neg present, if_neg present]
          exact rest m
      · -- visiting goes on with page n + 1, for which the jump is the same one
        have visit : (visitLoop d oldsz (count + 1) (n * pgsize)).run (RamOp.exec k) m =
            (visitLoop d oldsz count ((n + 1) * pgsize)).run (RamOp.exec k) m := by
          rw [visitLoop, if_pos here, Prog.run_bind _ (walk_run d (n * pgsize)), pdx_page (by omega), if_neg pde, next]
        rw [dealloc_absent user fuel inside pde, visit]
        by_cases last : (n + 1) % 1024 = 0
        · rw [← ih (n + 1) fuel (by omega) (by omega), show (n / 1024 + 1) * 1024 = n + 1 by omega]
        · have table : (n + 1) / 1024 = n / 1024 := by omega
          by_cases more : n + 1 < npages oldsz
          · rw [← ih (n + 1) (fuel + 1) (by omega) (by omega), dealloc_absent user fuel more (by rw [table]; exact pde), table]
          · rw [← ih (n + 1) fuel (by omega) (by omega), dealloc_above fuel (by omega), dealloc_above fuel (by omega)]
    · rw [dealloc_above fuel (by omega), visitLoop, if_neg (by rw [page_lt]; exact inside)]
      rfl

theorem dealloc_every {d old new : Nat} (user : old ≤ kernbase) :
    (deallocEvery d old new).run (RamOp.exec k) m = (deallocuvm d old new).run (RamOp.exec k) m := by
  unfold deallocEvery deallocuvm
  by_cases up : new ≥ old
  · rw [if_pos up, if_pos up]
  · have enough : npages old ≤ npages new + (old / pgsize + 1) := by
      unfold npages pgsize
      omega
    have limit : new ≤ 2 ^ 31 := (Nat.le_of_not_le up).trans user
    rw [if_neg up, if_neg up, pgroundup_eq limit, Prog.run_bind_eq, Prog.run_bind_eq, dealloc_visits (npages_le user) _ _ _ enough enough m]

theorem one_page_user (first : Pte) : UserPages (onePage first) 1000 4096 := by
  intro n _
  rw [one_page_lookup, show npages 4096 = 1 by decide]
  by_cases zero : n = 0
  · rw [if_pos zero, zero]
    decide
  · rw [if_neg zero]
    exact ⟨fun never => (by cases never), fun below => absurd below (by omega)⟩

-- sbrk's view of growproc: the size changes by n, or nothing changes.
def GrowExact (k : Kernel) (t : Tables) (m : Ram) (p d : Nat) (n : Int) : Prop :=
  ∃ t' ok m', (growproc t p n).run (RamOp.exec k) m = .ok (t', ok) m' ∧
    (ok = true → (t'.sz p : Int) = t.sz p + n ∧ UserPages m' d (t'.sz p) ∧
      SameBelow m m' d (min (npages (t.sz p)) (npages (t'.sz p))) ∧
      ∀ i, npages (t.sz p) ≤ i → i < npages (t'.sz p) → NewPage m m' d i) ∧
    (ok = false → t' = t ∧ UserPages m' d (t.sz p) ∧ SameBelow m m' d (npages (t.sz p)))

theorem same_below_mono {d n n' : Nat} (same : SameBelow m m' d n) (le : n' ≤ n) : SameBelow m m' d n' :=
  fun i below => same i (by omega)

theorem cur_pgdir_some {t : Tables} {p d : Nat} (dir : t.pgdir p = some d) : curPgdir t p = .ret d := by
  rw [curPgdir, dir]
  rfl

theorem grow_up {t : Tables} {p d : Nat} {n : Int} (frames : Frames k m role) (is : role d = .dir) (dir : t.pgdir p = some d)
    (pages : UserPages m d (t.sz p)) (below : t.sz p < kernbase) (up : 0 < n) (int : n < 2 ^ 31) : GrowExact k t m p d n := by
  have limit : t.sz p < 2 ^ 31 := below
  have newsz : (addInt (t.sz p) n : Int) = t.sz p + n := by
    unfold addInt
    omega
  obtain ⟨r, m', finished, law⟩ := alloc_law (addInt (t.sz p) n) frames is below pages
  have run : (growproc t p n).run (RamOp.exec k) m = .ok (if r = 0 then (t, false) else (t.setSz p r, true)) m' := by
    rw [growproc, cur_pgdir_some dir, Prog.ret_bind, if_pos up, Prog.run_bind _ finished]
    by_cases failed : r = 0
    · rw [if_pos failed, if_pos failed]
      rfl
    · rw [if_neg failed, if_neg failed]
      rfl
  rcases law with ⟨rfl, -, -, pages', same, new_⟩ | ⟨-, down, -⟩ | ⟨rfl, pages', same, -⟩
  · have some_ : addInt (t.sz p) n ≠ 0 := by omega
    rw [if_neg some_] at run
    have size : (t.setSz p (addInt (t.sz p) n)).sz p = addInt (t.sz p) n := upd_self _ _ _
    refine ⟨_, _, _, run, fun _ => ?_, fun never => (by cases never)⟩
    rw [size]
    exact ⟨newsz, pages', same_below_mono same (Nat.min_le_left _ _), new_⟩
  · omega
  · exact ⟨_, _, _, run, fun never => (by cases never), fun _ => ⟨rfl, pages', same⟩⟩

theorem grow_down_run {t : Tables} {p d r : Nat} {n : Int} (dir : t.pgdir p = some d) (down : n < 0)
    (finished : (deallocuvm d (t.sz p) (addInt (t.sz p) n)).run (RamOp.exec k) m = .ok r m') :
    (growproc t p n).run (RamOp.exec k) m = .ok (if r = 0 then (t, false) else (t.setSz p r, true)) m' := by
  rw [growproc, cur_pgdir_some dir, Prog.ret_bind, if_neg (by omega), if_pos down, Prog.run_bind _ finished]
  by_cases failed : r = 0
  · rw [if_pos failed, if_pos failed]
    rfl
  · rw [if_neg failed, if_neg failed]
    rfl

theorem grow_down {t : Tables} {p d : Nat} {n : Int} (frames : Frames k m role) (is : role d = .dir) (dir : t.pgdir p = some d)
    (pages : UserPages m d (t.sz p)) (below : t.sz p < kernbase) (down : n < 0) (left : 0 < t.sz p + n) :
    GrowExact k t m p d n := by
  have limit : t.sz p < 2 ^ 31 := below
  have newsz : (addInt (t.sz p) n : Int) = t.sz p + n := by
    unfold addInt
    omega
  obtain ⟨r, m', finished, law⟩ := dealloc_law (addInt (t.sz p) n) frames is (Nat.le_of_lt below)
  have run := grow_down_run dir down finished
  rcases law with ⟨up, -⟩ | ⟨-, rfl, -, -, after⟩
  · omega
  have some_ : addInt (t.sz p) n ≠ 0 := by omega
  have user := npages_le (Nat.le_of_lt below)
  have mono : npages (addInt (t.sz p) n) ≤ npages (t.sz p) := npages_mono (by omega)
  have size : (t.setSz p (addInt (t.sz p) n)).sz p = addInt (t.sz p) n := upd_self _ _ _
  rw [if_neg some_] at run
  refine ⟨_, _, _, run, fun _ => ?_, fun never => (by cases never)⟩
  rw [size]
  refine ⟨newsz, fun i bound => ?_, fun i inside => ?_, fun i above inside => by omega⟩
  · have here := after i bound
    split at here
    · rw [here]
      exact ⟨fun never => (by cases never), fun below => absurd below (by omega)⟩
    · rw [here.1, pages i bound]
      omega
  · have here := after i (by omega)
    rwa [if_neg (by omega)] at here

theorem growproc_exact_iff (k : Kernel) (t : Tables) (m : Ram) (role : Nat → Role) (p d : Nat) (n : Int)
    (frames : Frames k m role) (is : role d = .dir) (dir : t.pgdir p = some d) (pages : UserPages m d (t.sz p))
    (positive : 0 < t.sz p) (below : t.sz p < kernbase) (int : -2 ^ 31 ≤ n ∧ n < 2 ^ 31) :
    GrowExact k t m p d n ↔ 0 < t.sz p + n := by
  constructor
  · rintro ⟨t', ok, m', finished, good, failed⟩
    by_contra gone
    have limit : t.sz p < 2 ^ 31 := below
    have down : n < 0 := by omega
    obtain ⟨r, m₁, dealloc, law⟩ := dealloc_law (addInt (t.sz p) n) frames is (Nat.le_of_lt below)
    rw [grow_down_run dir down dealloc] at finished
    by_cases zero : (t.sz p : Int) + n = 0
    · -- all pages are freed, and the result 0 is taken for a failure
      have newsz : addInt (t.sz p) n = 0 := by
        unfold addInt
        omega
      rw [newsz] at law
      rcases law with ⟨up, -⟩ | ⟨-, rfl, -, -, after⟩
      · omega
      cases finished
      obtain ⟨-, pages', -⟩ := failed rfl
      have some_ : 0 < npages (t.sz p) := by
        unfold npages pgsize
        omega
      have unmapped := after 0 (by decide)
      rw [if_pos ⟨Nat.le_refl _, some_⟩] at unmapped
      have mapped := (pages' 0 (by decide)).mpr some_
      rw [unmapped] at mapped
      cases mapped
    · -- the sum wraps around to a larger size, and nothing is done
      have newsz : t.sz p ≤ addInt (t.sz p) n := by
        unfold addInt
        omega
      rcases law with ⟨-, rfl, rfl⟩ | ⟨less, -⟩
      · rw [if_neg (by omega)] at finished
        cases finished
        have size : (t.setSz p (t.sz p)).sz p = t.sz p := upd_self _ _ _
        have sum := (good rfl).1
        rw [size] at sum
        omega
      · omega
  · intro left
    rcases lt_trichotomy n 0 with down | rfl | up
    · exact grow_down frames is dir pages below down left
    · refine ⟨t, true, m, ?_, fun _ => ⟨by omega, pages, fun _ _ => ⟨rfl, fun _ _ => rfl⟩, fun i above inside => by omega⟩,
        fun never => (by cases never)⟩
      rw [growproc, cur_pgdir_some dir]
      rfl
    · exact grow_up frames is dir pages below up int.2

def oneProc : Tables := { noTables 1000 with pgdir := fun _ => some 1000, sz := fun _ => 4096 }

theorem growproc_exact_iff_one_page : GrowExact linked oneProc (onePage (.ofWord 5)) 0 1000 (-1) ↔ (0 : Int) < oneProc.sz 0 + -1 :=
  growproc_exact_iff linked oneProc _ onePageRole 0 1000 (-1) (one_page_frames _) rfl rfl (one_page_user _) (by decide) (by decide)
    (by decide)

-- sbrk(-sz) frees every page and returns -1; sbrk(-sz - 1) does nothing and returns sz.
theorem growproc_to_zero :
    let m := onePage (.ofWord 5)
    Frames linked m onePageRole ∧ UserPages m 1000 (oneProc.sz 0) ∧
      (∃ m', (growproc oneProc 0 (-4096)).run (RamOp.exec linked) m = .ok (oneProc, false) m' ∧ lookup m' 1000 0 = none) ∧
      ¬ GrowExact linked oneProc m 0 1000 (-4096) ∧
      (growproc oneProc 0 (-4097)).run (RamOp.exec linked) m = .ok (oneProc.setSz 0 4096, true) m ∧
      ¬ GrowExact linked oneProc m 0 1000 (-4097) := by
  refine ⟨one_page_frames _, one_page_user _, ⟨_, rfl, by decide⟩, ?_, rfl, ?_⟩
  · rintro ⟨t', ok, m', finished, -, failed⟩
    cases finished
    have mapped := ((failed rfl).2.1 0 (by decide)).mpr (by decide)
    exact absurd mapped (by decide)
  · rintro ⟨t', ok, m', finished, good, -⟩
    cases finished
    exact absurd (good rfl).1 (by decide)

end Xv6.Vm
