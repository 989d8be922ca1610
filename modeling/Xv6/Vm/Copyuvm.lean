import Xv6.Vm.Uvm

set_option autoImplicit false

namespace Xv6.Vm

variable {k : Kernel} {m m' m'' : Ram} {role role' role'' : Nat → Role} {cond : Event RamOp Ram → Prop}
  {bad : String → Prop} {pid : Nat}

theorem lookup_untouched {d d' n : Nat} (frames : Frames k m role) (is : role d = .dir) (is' : role d' = .dir) (other : d' ≠ d)
    (data : Untouched m m' role d) (bound : n < 2 ^ 20) : lookup m' d' n = lookup m d' n := by
  unfold lookup
  rw [data d' (by simp [is']) other (by simp [is'])]
  by_cases present : (m.word d' (n / 1024)).p = true
  · have table := frames.dir d' is' _ (by omega) present
    rw [data _ (by simp [table])]
    · intro same
      rw [same, is] at table
      cases table
    · intro i mine
      rw [table] at mine
      exact other (Role.tbl.inj mine).1
  · simp [present]

def CopyOf (m m' : Ram) (role role' : Nat → Role) (pgdir d n : Nat) : Prop :=
  ∃ e f, lookup m pgdir n = some e ∧ role f = .free ∧ role' f = .page d n ∧ lookup m' d n = some (e.flags.entry f) ∧
    m'.word f = m.word e.frame

-- One page of copyuvm. The frame is lost if mappages fails.
theorem copy_page_spec {pgdir d n : Nat} (frames : Frames k m role) (is : role d = .dir)
    (user : n < 2 ^ 19) (unmapped : ∀ f, role f ≠ .page d n) (mapped : ∀ msg, bad msg → ∃ e, lookup m pgdir n = some e) :
    Spec k cond bad pid (copyPage pgdir d (n * pgsize)) m fun r m' =>
      (∃ role', Grown k m m' role role' (Pages d n (n + 1)) ∧ Kept m m' d n (n + 1) ∧ Untouched m m' role d ∧
        (r = true → CopyOf m m' role role' pgdir d n)) ∨
      (r = false ∧ m'.notes = .copyFailed :: m.notes ∧ ∃ f, role f = .free ∧
        Grown k { m with notes := m'.notes } m' role (upd role f .hand) fun _ r => r = .hand) := by
  unfold copyPage
  refine Prog.wp_call (walk_find pgdir (n * pgsize)) ?_
  rintro r m' ⟨rfl, rfl⟩
  rw [pdx_page (by omega), ptx_page]
  by_cases pde : (m'.word pgdir (n / 1024)).p = true
  · rw [if_pos pde]
    refine spec_read ?_
    by_cases present : (m'.word (m'.word pgdir (n / 1024)).frame (n % 1024)).p = true
    · have found : lookup m' pgdir n = some (m'.word (m'.word pgdir (n / 1024)).frame (n % 1024)) := by
        rw [lookup, pde, present]
        rfl
      generalize m'.word (m'.word pgdir (n / 1024)).frame (n % 1024) = e at present found ⊢
      simp only [present, Bool.not_true, Bool.false_eq_true, if_false]
      refine spec_kalloc (fun _ => .inl ⟨role, grown_refl frames, kept_refl _ _ _ _, untouched_refl _ _ _,
        fun never => absurd never Bool.false_ne_true⟩)
        fun f rest head => spec_copy ?_
      obtain ⟨was, frames₁⟩ := taken_frames frames head (m'.word e.frame)
      have away : f ≠ d := role_ne was is
      rw [mappages_page _ _ _ _ (by omega)]
      refine Prog.wp_call (map_user frames₁ was is user unmapped _) ?_
      rintro r m'' (⟨rfl, rfl, -⟩ | ⟨rfl, role', grown, page, -, kept, entered, data⟩)
      · refine spec_probe fun _ => .inr ⟨rfl, rfl, f, was, frames_notes frames₁ _, fun g => ?_, fun g out => ?_, rfl⟩
        · by_cases here : g = f
          · rw [here, upd_self]
            exact .inr ⟨was, rfl⟩
          · exact .inl (upd_ne here)
        · refine upd_ne ?_
          rintro rfl
          rw [was] at out
          cases out
      · have words : m''.word f = m'.word e.frame := by
          rw [data f (by rw [upd_self]; simp) away (by rw [upd_self]; simp)]
          exact upd_self m'.word f _
        exact .inl ⟨role', grown_taken was grown, kept_trans (taken_kept frames head is (m'.word e.frame)) kept,
          untouched_taken was data, fun _ => ⟨e, f, found, was, page, entered, words⟩⟩
    · simp only [present, Bool.not_false, if_true]
      refine spec_panic fun isBad => ?_
      obtain ⟨e, found⟩ := mapped _ isBad
      rw [lookup, Bool.eq_false_iff.mpr present, Bool.and_false] at found
      cases found
  · rw [if_neg pde]
    refine spec_panic fun isBad => ?_
    obtain ⟨e, found⟩ := mapped _ isBad
    rw [lookup, Bool.eq_false_iff.mpr pde] at found
    cases found

theorem copy_of_after {pgdir d n lo hi : Nat} (frames : Frames k m role) (is : role d = .dir) (parent : role pgdir = .dir)
    (other : pgdir ≠ d) (user : n < 2 ^ 19) (grown : Grown k m m' role role' (Pages d lo hi)) (data : Untouched m m' role d)
    (copy : CopyOf m' m'' role' role'' pgdir d n) : CopyOf m m'' role role'' pgdir d n := by
  obtain ⟨e, f, found, free, page, entered, words⟩ := copy
  rw [lookup_untouched frames is parent other data (by omega)] at found
  have source := lookup_page frames parent user found
  refine ⟨e, f, found, grown_was_free grown free, page, entered, ?_⟩
  rw [words, data _ (by simp [source])]
  · intro same
    rw [same, is] at source
    cases source
  · simp [source]

theorem copy_of_later {pgdir d n lo hi : Nat} (is : role' d = .dir) (below : n < lo) (user : n < 2 ^ 19)
    (copy : CopyOf m m' role role' pgdir d n)
    (grown : Grown k m' m'' role' role'' (Pages d lo hi)) (kept : Kept m' m'' d lo hi) (data : Untouched m' m'' role' d) :
    CopyOf m m'' role role'' pgdir d n := by
  obtain ⟨e, f, found, free, page, entered, words⟩ := copy
  have notDir : f ≠ d := role_ne page is
  refine ⟨e, f, found, free, by rw [grown_kept grown (by simp [page]), page], ?_, ?_⟩
  · rw [kept.lookup n (by omega) (.inl below), entered]
  · rw [data f (by simp [page]) notDir (by simp [page]), words]

theorem copy_loop_spec {pgdir d : Nat} (count n : Nat) (frames : Frames k m role)
    (is : role d = .dir) (user : n + count ≤ 2 ^ 19) (top : ∀ f n', role f = .page d n' → n' < n)
    (mapped : ∀ msg, bad msg → role pgdir = .dir ∧ pgdir ≠ d ∧ ∀ n', n ≤ n' → n' < n + count → ∃ e, lookup m pgdir n' = some e) :
    Spec k cond bad pid (copyLoop pgdir d count (n * pgsize)) m fun r m' =>
      (∃ role', Grown k m m' role role' (Pages d n (n + count)) ∧ Kept m m' d n (n + count) ∧ Untouched m m' role d ∧
        (r = true → role pgdir = .dir → pgdir ≠ d → ∀ n', n ≤ n' → n' < n + count → CopyOf m m' role role' pgdir d n')) ∨
      (r = false ∧ m'.notes = .copyFailed :: m.notes ∧ ∃ role' f, role f = .free ∧ role' f = .hand ∧
        Grown k { m with notes := m'.notes } m' role role' fun g r => Pages d n (n + count) g r ∨ r = .hand) := by
  induction count generalizing m role n with
  | zero =>
    exact .inl ⟨role, grown_refl frames, kept_refl _ _ _ _, untouched_refl _ _ _, fun _ _ _ n' above below => by omega⟩
  | succ count ih =>
    unfold copyLoop
    refine Prog.wp_call (copy_page_spec frames is (by omega) (fun f page => absurd (top f n page) (by omega))
      fun msg isBad => (mapped msg isBad).2.2 n (le_refl n) (by omega)) ?_
    rintro r m' (⟨role', grown, kept, data, copied⟩ | ⟨rfl, notes, f, was, lost⟩)
    · have wide := grown_mono grown fun g r (pages : Pages d n (n + 1) g r) =>
        show Pages d n (n + (count + 1)) g r from pages_mono pages (le_refl n) (by omega)
      have keptWide : Kept m m' d n (n + (count + 1)) := kept_mono kept (le_refl n) (by omega)
      by_cases going : r = true
      · have is' : role' d = .dir := by rw [grown_kept grown (by simp [is]), is]
        have next : n * pgsize + pgsize = (n + 1) * pgsize := by ring
        rw [if_pos going, next]
        refine Prog.wp_mono (ih (n + 1) grown.frames is' (by omega) (fun g n' page => ?_) fun msg isBad => ?_) ?_
        · rcases grown_page grown page with old | ⟨-, -, bound⟩
          · exact Nat.lt_succ_of_lt (top g n' old)
          · exact bound
        · obtain ⟨parent, other, pages⟩ := mapped msg isBad
          refine ⟨by rw [grown_kept grown (by simp [parent]), parent], other, fun n' above below => ?_⟩
          rw [lookup_untouched frames is parent other data (by omega)]
          exact pages n' (by omega) (by omega)
        · rintro r m'' (⟨role'', later, kept', data', copied'⟩ | ⟨rfl, notes, role'', f, was, inHand, later⟩)
          · refine .inl ⟨role'', grown_trans wide (grown_mono later fun g r pages => ?_),
              kept_trans keptWide (kept_mono kept' (by omega) (by omega)), untouched_trans grown data data',
              fun done parent other n' above below => ?_⟩
            · exact pages_mono pages (by omega) (by omega)
            · by_cases here : n' = n
              · rw [here]
                exact copy_of_later is' (Nat.lt_succ_self n) (by omega) (copied going) later kept' data'
              · have parent' : role' pgdir = .dir := by rw [grown_kept grown (by simp [parent]), parent]
                exact copy_of_after frames is parent other (by omega) grown data
                  (copied' done parent' other n' (by omega) (by omega))
          · refine .inr ⟨rfl, by rw [notes, grown.notes], role'', f, grown_was_free grown was, inHand, ?_⟩
            refine grown_trans (grown_notes (grown_mono wide fun g r pages => .inl pages) _) (grown_mono later ?_)
            exact fun g r new => new.imp_left fun pages => pages_mono pages (by omega) (by omega)
      · rw [if_neg going]
        exact .inl ⟨role', wide, keptWide, data, nofun⟩
    · rw [if_neg (by simp)]
      refine .inr ⟨rfl, notes, _, f, was, upd_self _ _ _, grown_mono lost fun g r hand => .inr hand⟩

structure Copied (k : Kernel) (m m' : Ram) (role role' : Nat → Role) (pgdir d sz : Nat) : Prop
    extends Grown k m m' role role' (fun f r => r.of d f = true) where
  was : role d = .free
  dir : role' d = .dir
  top : ∀ f n, role' f = .page d n → n < npages sz
  data : ∀ g, role g ≠ .free → m'.word g = m.word g
  kernel : ∀ n, 2 ^ 19 ≤ n → n < 2 ^ 20 → lookup m' d n = kernelMap k n
  pages : role pgdir = .dir → ∀ n < npages sz, CopyOf m m' role role' pgdir d n

theorem copyuvm_spec {pgdir sz : Nat} (frames : Frames k m role) (user : sz ≤ 2 ^ 31)
    (mapped : ∀ msg, bad msg → role pgdir = .dir ∧ ∀ n < npages sz, ∃ e, lookup m pgdir n = some e) :
    Spec k cond bad pid (copyuvm k pgdir sz) m fun r m' => (r = none ∧ ∃ role', Failed k m m' role role') ∨
      ∃ d role', r = some d ∧ Copied k m m' role role' pgdir d sz := by
  have limit : npages sz ≤ 2 ^ 19 := by
    unfold npages pgsize
    omega
  unfold copyuvm
  refine Prog.wp_call (setupkvm_spec frames) ?_
  rintro r m₁ (⟨rfl, -, role', failed⟩ | ⟨d, role₁, rfl, fresh⟩)
  · exact .inl ⟨rfl, role', failed⟩
  have zero : (sz + pgsize - 1) / pgsize = npages sz := rfl
  -- the parent as setupkvm leaves it
  have away : role pgdir = .dir → pgdir ≠ d := by
    rintro parent rfl
    rw [fresh.was] at parent
    cases parent
  have same : role pgdir = .dir → ∀ n < 2 ^ 20, lookup m₁ pgdir n = lookup m pgdir n := by
    intro parent n bound
    unfold lookup
    rw [fresh.data pgdir (by simp [parent])]
    by_cases present : (m.word pgdir (n / 1024)).p = true
    · have table := frames.dir pgdir parent _ (by omega) present
      rw [fresh.data _ (by simp [table])]
    · simp [present]
  rw [zero, ← Nat.zero_mul pgsize]
  refine Prog.wp_call (copy_loop_spec (npages sz) 0 fresh.frames fresh.dir (by omega)
    (fun f n page => absurd page (fresh.unmapped f n)) fun msg isBad => ?_) ?_
  · obtain ⟨parent, pages⟩ := mapped msg isBad
    refine ⟨by rw [grown_kept fresh.toGrown (by simp [parent]), parent], away parent, fun n _ below => ?_⟩
    rw [same parent n (by omega)]
    exact pages n (by omega)
  rw [Nat.zero_add]
  rintro r m₂ (⟨role₂, grown, kept, data, copied⟩ | ⟨rfl, notes, role₂, f, was, inHand, lost⟩)
  · have whole := grown_trans fresh.toGrown (grown_mono grown fun f r pages => pages_of pages)
    have is₂ : role₂ d = .dir := by rw [grown_kept grown (by simp [fresh.dir]), fresh.dir]
    by_cases done : r = true
    · rw [if_pos done]
      refine .inr ⟨d, role₂, rfl, whole, fresh.was, is₂, fun f n page => ?_, fun g busy => ?_, fun n low high => ?_,
        fun parent n below => ?_⟩
      · rcases grown_page grown page with old | ⟨-, -, bound⟩
        · exact absurd old (fresh.unmapped f n)
        · exact bound
      · have first := grown_kept fresh.toGrown busy
        have none := none_of_free frames fresh.was g
        rw [data g (by rw [first]; exact busy), fresh.data g busy]
        · rintro rfl
          exact busy fresh.was
        · intro i table
          rw [← first, table] at none
          simp [Role.of] at none
      · rw [kept.lookup n high (.inr (by omega)), fresh.kernel n high]
      · have parent₁ : role₁ pgdir = .dir := by rw [grown_kept fresh.toGrown (by simp [parent]), parent]
        obtain ⟨e, f, found, free, page, entered, words⟩ := copied done parent₁ (away parent) n (Nat.zero_le n) below
        rw [same parent n (by omega)] at found
        have source := lookup_page frames parent (by omega) found
        refine ⟨e, f, found, grown_was_free fresh.toGrown free, page, entered, ?_⟩
        rw [words, fresh.data _ (by simp [source])]
    · rw [if_neg done]
      exact Prog.wp_call (freevm_new frames fresh.was whole is₂) fun _ _ failed => .inl ⟨rfl, role, failed⟩
  · have is₂ : role₂ d = .dir := by rw [grown_kept lost (by simp [fresh.dir]), fresh.dir]
    rw [if_neg (by simp)]
    refine Prog.wp_call (freevm_spec lost.frames is₂) ?_
    rintro - m₃ ⟨frames₃, outside, notes'⟩
    have kept : ∀ g, role g ≠ .free → role₂ g = role g := by
      intro g busy
      have same := grown_kept fresh.toGrown busy
      rw [grown_kept lost (by rw [same]; exact busy), same]
    refine .inl ⟨rfl, _, frames₃, fun g => ?_, fun g out => ?_, .inr ⟨?_, f, grown_was_free fresh.toGrown was, ?_⟩⟩
    · by_cases mine : (role₂ g).of d g = true
      · refine .inl ?_
        rw [dissolve, if_pos mine]
        by_contra busy
        rw [kept g (Ne.symm busy), none_of_free frames fresh.was g] at mine
        cases mine
      · rw [dissolve, if_neg mine]
        rcases lost.taken g with same | ⟨free, pages | hand⟩
        · rw [same] at mine ⊢
          exact (fresh.taken g).imp_right fun new => absurd new.2 mine
        · exact absurd (pages_of pages) mine
        · exact .inr ⟨grown_was_free fresh.toGrown free, hand⟩
    · rw [outside g (by rw [kept g (by simp [out]), out]), lost.outside g, fresh.outside g out]
      rw [grown_kept fresh.toGrown (by simp [out]), out]
    · rw [notes', notes, fresh.notes]
      simp
    · rw [dissolve, inHand]
      simp [Role.of]

end Xv6.Vm
