import Xv6.Vm.Uvm

set_option autoImplicit false

namespace Xv6.Vm

variable {k : Kernel} {m m' m'' : Ram} {role role' role'' : Nat → Role} {α : Type} {c : RamM α} {d lo hi : Nat} {used : Set Nat}

-- An absent entry of a user page table holds no frame: loaduvm does not look at PTE_P.
def Tidy (m : Ram) (role : Nat → Role) (d : Nat) : Prop :=
  ∀ t i, role t = .tbl d i → i < 512 → ∀ j, (m.word t j).p = false → (m.word t j).frame = 0

-- The roles describe the directory d and no other one.
structure Alone (k : Kernel) (m : Ram) (role : Nat → Role) (d : Nat) : Prop where
  frames : Frames k m role
  dir : role d = .dir
  only : ∀ g, role g = .dir → g = d
  tidy : Tidy m role d

-- Entries of d changed at most from lo up to hi; of the frames in hand only used ones did.
structure Stays (k : Kernel) (m m' : Ram) (role role' : Nat → Role) (d lo hi : Nat) (used : Set Nat) : Prop
    extends Alone k m' role' d where
  kept : Kept m m' d lo hi
  hand : ∀ g ∉ used, role g = .hand → role' g = .hand

abbrev Keeps (k : Kernel) (c : RamM α) (m : Ram) (role : Nat → Role) (d lo hi : Nat) (used : Set Nat) : Prop :=
  Spec k (fun _ => True) (fun _ => False) 0 c m fun _ m' => ∃ role', Stays k m m' role role' d lo hi used

theorem stays_refl (alone : Alone k m role d) : Stays k m m role role d lo hi used :=
  ⟨alone, kept_refl m d lo hi, fun _ _ hand => hand⟩

theorem stays_trans (first : Stays k m m' role role' d lo hi used) (second : Stays k m' m'' role' role'' d lo hi used) :
    Stays k m m'' role role'' d lo hi used :=
  ⟨second.toAlone, kept_trans first.kept second.kept, fun g free hand => second.hand g free (first.hand g free hand)⟩

theorem stays_mono {lo' hi' : Nat} {used' : Set Nat} (stays : Stays k m m' role role' d lo hi used) (low : lo' ≤ lo)
    (high : hi ≤ hi') (more : used ⊆ used') : Stays k m m' role role' d lo' hi' used' :=
  ⟨stays.toAlone, kept_mono stays.kept low high, fun g free hand => stays.hand g (fun now => free (more now)) hand⟩

theorem keeps_after {lo' hi' : Nat} (before : Stays k m m' role role' d lo hi used) (rest : Keeps k c m' role' d lo' hi' used)
    (low : lo ≤ lo') (high : hi' ≤ hi) :
    Spec k (fun _ => True) (fun _ => False) 0 c m' fun _ m'' => ∃ role'', Stays k m m'' role role'' d lo hi used := by
  refine Prog.wp_mono rest ?_
  rintro - m'' ⟨role'', stays⟩
  exact ⟨role'', stays_trans before (stays_mono stays low high subset_rfl)⟩

theorem tidy_step (tidy : Tidy m role d) (tables : ∀ t i, role' t = .tbl d i → role t = .tbl d i)
    (words : ∀ t i, role t = .tbl d i → ∀ j, m'.word t j = m.word t j ∨ ((m'.word t j).p = false → (m'.word t j).frame = 0)) :
    Tidy m' role' d := by
  intro t i table user j absent
  rcases words t i (tables t i table) j with same | zero
  · rw [same] at absent ⊢
    exact tidy t i (tables t i table) user j absent
  · exact zero absent

theorem tidy_frame (tidy : Tidy m role d) {f : Nat} (plain : ∀ i, role f ≠ .tbl d i) (same : ∀ g, g ≠ f → m'.word g = m.word g) :
    Tidy m' role d := by
  refine tidy_step tidy (fun _ _ table => table) fun t i table j => .inl ?_
  rw [same]
  rintro rfl
  exact plain i table

theorem tidy_role (tidy : Tidy m role d) {f : Nat} {r : Role} (now : ∀ i, r ≠ .tbl d i) : Tidy m (upd role f r) d := by
  refine tidy_step tidy (fun t i table => ?_) fun _ _ _ _ => .inl rfl
  by_cases here : t = f
  · rw [here, upd_self] at table
    exact absurd table (now i)
  · rwa [upd_ne here] at table

theorem tidy_set_word (tidy : Tidy m role d) (t j : Nat) {e : Pte} (zero : e.p = false → e.frame = 0) :
    Tidy (m.setWord t j e) role d := by
  refine tidy_step tidy (fun _ _ table => table) fun t' i table j' => ?_
  by_cases there : t' = t
  · rw [there]
    by_cases here : j' = j
    · rw [here, set_word_self]
      exact .inr zero
    · exact .inl (set_word_index m t e here)
  · rw [set_word_frame m j e there]
    exact .inl rfl

section

variable (alone : Alone k m role d)
include alone

theorem alone_upd {f : Nat} {r : Role} (was : role f ≠ .dir) (now : r ≠ .dir) (frames : Frames k m' (upd role f r))
    (tidy : Tidy m' (upd role f r) d) : Alone k m' (upd role f r) d :=
  ⟨frames, (role_iff was now).mpr alone.dir, fun g is => alone.only g ((role_iff was now).mp is), tidy⟩

theorem alone_ne {f : Nat} (other : role f ≠ .dir) : f ≠ d := fun same => other (same ▸ alone.dir)

theorem walk_stays {n : Nat} (user : n < 2 ^ 19) :
    Spec k (fun _ => True) (fun _ => False) 0 (walkpgdir d (n * pgsize) true) m fun r m' => ∃ role',
      Stays k m m' role role' d n n ∅ ∧ ∀ t j, r = some (t, j) → role' t = .tbl d (n / 1024) ∧ j = n % 1024 := by
  unfold walkpgdir
  rw [pdx_page (by omega), ptx_page]
  refine spec_read ?_
  by_cases present : (m.word d (n / 1024)).p = true
  · simp only [present, if_true]
    refine ⟨role, stays_refl alone, fun t j found => ?_⟩
    cases found
    exact ⟨alone.frames.dir d alone.dir _ (by omega) present, rfl⟩
  · have missing : (m.word d (n / 1024)).p = false := by simpa using present
    simp only [missing, if_true]
    refine spec_kalloc (fun _ => ⟨role, stays_refl alone, fun t j never => by cases never⟩) fun t rest head => ?_
    have walked := walked_new alone.frames alone.dir (by omega) missing head
    have was := (frames_alloc alone.frames head).1
    have tidy : Tidy (newTable m rest d (n / 1024) t) (upd role t (.tbl d (n / 1024))) d := by
      intro t' i table small j absent
      by_cases new : t' = t
      · rw [new, new_table_empty (alone_ne alone (by simp [was])).symm]
        rfl
      · rw [upd_ne new] at table
        rw [new_table_other (alone_ne alone (by simp [table])) new] at absent ⊢
        exact alone.tidy t' i table small j absent
    refine spec_fill (spec_write ⟨upd role t (.tbl d (n / 1024)),
      ⟨alone_upd alone (by simp [was]) (by simp) walked.frames tidy, ?_, fun g _ hand => ?_⟩, fun t' j found => ?_⟩)
    · exact ⟨fun j low _ => walked.pdes j (by omega), fun n' bound _ => walked.lookup n' bound⟩
    · rw [grown_kept walked.toGrown (by simp [hand]), hand]
    · cases found
      exact ⟨upd_self _ _ _, rfl⟩

theorem kept_entry {t n : Nat} (table : role t = .tbl d (n / 1024)) (e : Pte) : Kept m (m.setWord t (n % 1024) e) d n (n + 1) := by
  refine ⟨fun i _ _ => ?_, fun n' bound outside => ?_⟩
  · rw [set_word_frame _ _ _ (alone_ne alone (by simp [table])).symm]
  · rw [lookup_set_word alone.frames table bound, if_neg (by omega)]

theorem map_stays {n pa : Nat} (user : n < 2 ^ 19) (hand : role (pa / pgsize) = .hand) (perm : Perm) :
    Spec k (fun _ => True) (fun _ => False) 0 (mapPage d (n * pgsize) pa perm) m fun r m' => ∃ role',
      Stays k m m' role role' d n (n + 1) {pa / pgsize} ∧ (r = false → role' (pa / pgsize) = .hand) := by
  unfold mapPage
  refine Prog.wp_call (walk_stays alone user) ?_
  rintro r m' ⟨role', stays, found⟩
  have inHand := stays.hand _ id hand
  have wide := stays_mono stays (le_refl n) (Nat.le_succ n) (Set.empty_subset {pa / pgsize})
  match r with
  | none => exact ⟨role', wide, fun _ => inHand⟩
  | some (t, j) =>
    obtain ⟨table, rfl⟩ := found t j rfl
    refine spec_read ?_
    by_cases present : (m'.word t (n % 1024)).p = true
    · rw [if_pos present]
      exact spec_panic id
    · rw [if_neg present]
      have mapped := frames_map (j := n % 1024) stays.frames table (by omega) (by omega) (by simpa using present) inHand perm
      have tidy := tidy_set_word (tidy_role (f := pa / pgsize) (r := .page d (1024 * (n / 1024) + n % 1024)) stays.tidy nofun) t
        (n % 1024) (e := perm.entry (pa / pgsize)) nofun
      refine spec_write ⟨_, stays_trans wide ⟨alone_upd stays.toAlone (by simp [inHand]) (by simp) mapped tidy,
        kept_entry stays.toAlone table _, fun g other now => ?_⟩, nofun⟩
      rw [upd_ne other, now]

theorem hand_managed {f : Nat} (hand : role f = .hand) : k.managed f := alone.frames.managed f (by simp [hand])

theorem map_loop_keeps (perm : Perm) (more n pa : Nat) (user : n + more < 2 ^ 19)
    (hand : ∀ i ≤ more, role (pa / pgsize + i) = .hand) :
    Keeps k (mapLoop d perm more (n * pgsize) pa) m role d n (n + more + 1) .univ := by
  induction more generalizing m role n pa with
  | zero =>
    refine Prog.wp_mono (map_stays alone user (hand 0 (le_refl 0)) perm) ?_
    rintro r m' ⟨role', stays, -⟩
    exact ⟨role', stays_mono stays (le_refl n) (le_refl _) (Set.subset_univ _)⟩
  | succ more ih =>
    have next : u32 (n * pgsize + pgsize) = (n + 1) * pgsize := by
      unfold u32 pgsize
      omega
    have frame : u32 (pa + pgsize) / pgsize = pa / pgsize + 1 := by
      have low := (hand_managed alone (hand 1 (by omega))).2
      simp only [u32, pgsize, phystop] at low ⊢
      omega
    unfold mapLoop
    refine Prog.wp_call (map_stays alone (by omega) (hand 0 (by omega)) perm) ?_
    rintro r m' ⟨role', stays, -⟩
    have wide : Stays k m m' role role' d n (n + (more + 1) + 1) .univ :=
      stays_mono stays (le_refl n) (by omega) (Set.subset_univ _)
    by_cases mapped : r = true
    · rw [if_pos mapped, next]
      refine keeps_after wide (ih stays.toAlone (n + 1) _ (by omega) fun i small => ?_) (by omega) (by omega)
      rw [frame, Nat.add_assoc, Nat.add_comm 1 i]
      exact stays.hand _ (by simp) (hand (i + 1) (by omega))
    · rw [if_neg mapped]
      exact ⟨role', wide⟩

theorem mappages_keeps {va size pa : Nat} (perm : Perm) (some_ : 1 ≤ size) (user : va + size ≤ kernbase)
    (hand : ∀ i, va / pgsize + i < npages (va + size) → role (pa / pgsize + i) = .hand) :
    Keeps k (mappages d va size pa perm) m role d (va / pgsize) (npages (va + size)) .univ := by
  obtain ⟨more, same, total⟩ : ∃ more, mappages d va size pa perm = mapLoop d perm more (va / pgsize * pgsize) pa ∧
      va / pgsize + more + 1 = npages (va + size) := by
    refine ⟨_, rfl, ?_⟩
    unfold u32 pgrounddown npages
    simp only [kernbase, pgsize] at *
    omega
  have limit := npages_le user
  rw [same, ← total]
  exact map_loop_keeps alone perm more _ pa (by omega) fun i small => hand i (by omega)

theorem dealloc_loop_keeps {oldsz : Nat} (user : npages oldsz ≤ 2 ^ 19) (fuel n : Nat) :
    Keeps k (deallocLoop d oldsz fuel (n * pgsize)) m role d n (npages oldsz) ∅ := by
  induction fuel generalizing m role n with
  | zero => exact ⟨role, stays_refl alone⟩
  | succ fuel ih =>
    unfold deallocLoop
    by_cases inside : n < npages oldsz
    · have next : n * pgsize + pgsize = (n + 1) * pgsize := by ring
      have skip : (n / 1024 + 1) * 2 ^ 22 = (n / 1024 + 1) * 1024 * pgsize := by ring
      rw [if_pos ((page_lt n oldsz).mpr inside)]
      refine Prog.wp_call (walk_find d (n * pgsize)) ?_
      rintro r m' ⟨rfl, rfl⟩
      rw [pdx_page (by omega), ptx_page, next, skip]
      by_cases pde : (m'.word d (n / 1024)).p = true
      · have table := alone.frames.dir d alone.dir _ (by omega) pde
        rw [if_pos pde]
        generalize (m'.word d (n / 1024)).frame = t at table ⊢
        refine spec_read ?_
        by_cases present : (m'.word t (n % 1024)).p = true
        · obtain ⟨page, shrunk, cleared⟩ := shrunk_one alone.frames table (by omega) (le_refl n) present
          generalize (m'.word t (n % 1024)).frame = f at page shrunk cleared ⊢
          have managed := alone.frames.managed f (by simp [page])
          have freed : Tidy (m'.kfree f) role d := tidy_frame alone.tidy (by simp [page]) fun g other => upd_ne other
          have tidy := tidy_role (f := f) (r := .free) (tidy_set_word freed t (n % 1024) (e := .ofWord 0) fun _ => rfl)
            fun _ => by simp
          rw [if_pos present, if_neg (managed_pos managed)]
          have after := alone_upd alone (by simp [page]) (by simp) shrunk.frames tidy
          refine spec_kfree managed (spec_write (keeps_after ⟨after, kept_mono cleared (le_refl n) inside, fun g _ hand => ?_⟩
            (ih after (n + 1)) (Nat.le_succ n) (le_refl _)))
          rw [shrunk_kept shrunk (by simp [hand]), hand]
        · rw [if_neg present]
          exact keeps_after (stays_refl alone) (ih alone (n + 1)) (Nat.le_succ n) (le_refl _)
      · rw [if_neg pde]
        exact keeps_after (stays_refl alone) (ih alone _) (by omega) (le_refl _)
    · rw [if_neg fun below => inside ((page_lt n oldsz).mp below)]
      exact ⟨role, stays_refl alone⟩

theorem deallocuvm_keeps {oldsz newsz : Nat} (user : oldsz ≤ kernbase) :
    Keeps k (deallocuvm d oldsz newsz) m role d (npages newsz) (npages oldsz) ∅ := by
  unfold deallocuvm
  by_cases up : newsz ≥ oldsz
  · rw [if_pos up]
    exact ⟨role, stays_refl alone⟩
  · rw [if_neg up, pgroundup_eq ((Nat.le_of_not_le up).trans user)]
    exact Prog.wp_call (dealloc_loop_keeps alone (npages_le user) _ _) fun _ _ stays => stays

theorem kalloc_stays {f : Nat} {rest : List Nat} (head : m.freelist = f :: rest) (words : Nat → Pte) :
    Stays k m (taken m rest f words) role (upd role f .hand) d lo hi used := by
  obtain ⟨was, frames⟩ := taken_frames alone.frames head words
  have tidy : Tidy (taken m rest f words) role d := tidy_frame alone.tidy (by simp [was]) fun g other => upd_ne other
  refine ⟨alone_upd alone (by simp [was]) nofun frames (tidy_role tidy nofun), taken_kept alone.frames head alone.dir words,
    fun g _ hand => ?_⟩
  by_cases here : g = f
  · rw [here, upd_self]
  · rw [upd_ne here, hand]

theorem kfree_stays {f : Nat} (hand : role f = .hand) : Stays k m (m.kfree f) role (upd role f .free) d lo hi .univ := by
  have frames := frames_kfree alone.frames (by rw [hand]; trivial) (by simp [hand]) (hand_managed alone hand)
  have tidy : Tidy (m.kfree f) role d := tidy_frame alone.tidy (by simp [hand]) fun g other => upd_ne other
  exact ⟨alone_upd alone (by simp [hand]) nofun frames (tidy_role tidy nofun), kept_other alone.frames lo hi alone.dir
    (alone_ne alone (by simp [hand])) (by simp [hand]) fun g other => upd_ne other, fun g never => absurd (Set.mem_univ g) never⟩

theorem alloc_loop_keeps {oldsz newsz : Nat} (user : newsz < kernbase) (count n : Nat) (total : n + count = npages newsz)
    (low : npages oldsz ≤ n) :
    Keeps k (allocLoop d oldsz newsz count (n * pgsize)) m role d (npages oldsz) (npages newsz) .univ := by
  induction count generalizing m role n with
  | zero => exact ⟨role, stays_refl alone⟩
  | succ count ih =>
    have limit := npages_le (Nat.le_of_lt user)
    have next : n * pgsize + pgsize = (n + 1) * pgsize := by ring
    unfold allocLoop
    refine spec_kalloc (fun _ => ?_) fun f rest head => spec_fill ?_
    · refine Prog.wp_call (deallocuvm_keeps alone (Nat.le_of_lt user)) ?_
      rintro - m' ⟨role', stays⟩
      exact ⟨role', stays_mono stays (le_refl _) (le_refl _) (Set.empty_subset _)⟩
    · have alloc : Stays k m (taken m rest f fun _ => .ofWord 0) role (upd role f .hand) d (npages oldsz) (npages newsz) .univ :=
        kalloc_stays alone head _
      have whole : f * pgsize / pgsize = f := Nat.mul_div_cancel f (by decide)
      rw [mappages_page _ _ _ _ (by omega), next]
      refine Prog.wp_call (map_stays alloc.toAlone (by omega) (by rw [whole, upd_self]) permUser) ?_
      rintro r m' ⟨role', stays, failed⟩
      have before := stays_trans alloc (stays_mono stays low (by omega) (Set.subset_univ _))
      by_cases mapped : r = true
      · rw [if_pos mapped]
        exact keeps_after before (ih before.toAlone (n + 1) (by omega) (by omega)) (le_refl _) (le_refl _)
      · rw [if_neg mapped]
        have inHand := failed (by simpa using mapped)
        rw [whole] at inHand
        refine Prog.wp_call (deallocuvm_keeps before.toAlone (Nat.le_of_lt user)) ?_
        rintro - m'' ⟨role'', undone⟩
        have still := undone.hand f id inHand
        exact spec_kfree (hand_managed undone.toAlone still) ⟨_, stays_trans before (stays_trans
          (stays_mono undone (le_refl _) (le_refl _) (Set.empty_subset _)) (kfree_stays undone.toAlone still))⟩

theorem allocuvm_keeps (oldsz newsz : Nat) :
    Keeps k (allocuvm d oldsz newsz) m role d (npages oldsz) (min (npages newsz) (2 ^ 19)) .univ := by
  unfold allocuvm
  by_cases large : newsz ≥ kernbase
  · rw [if_pos large]
    exact ⟨role, stays_refl alone⟩
  · rw [if_neg large]
    by_cases down : newsz < oldsz
    · rw [if_pos down]
      exact ⟨role, stays_refl alone⟩
    · have below := Nat.lt_of_not_le large
      have mono := npages_mono (Nat.le_of_not_lt down)
      have count : (newsz - npages oldsz * pgsize + pgsize - 1) / pgsize = npages newsz - npages oldsz := by
        unfold npages pgsize
        omega
      rw [if_neg down, pgroundup_eq ((Nat.le_of_not_lt down).trans (Nat.le_of_lt below)), count,
        Nat.min_eq_left (npages_le (Nat.le_of_lt below))]
      exact alloc_loop_keeps alone below _ _ (by omega) (le_refl _)

theorem fill_stays {t i j : Nat} (table : role t = .tbl d i) (user : i < 512) (small : j < 1024) (words : Nat → Pte → Pte) :
    Stays k m (m.fill (m.word t j).frame words) role role d lo hi used := by
  have data : (role (m.word t j).frame).Plain ∨ ∃ d n, role (m.word t j).frame = .page d n := by
    by_cases present : (m.word t j).p = true
    · exact .inr ⟨_, _, alone.frames.entry t d i table user j small present⟩
    · rw [alone.tidy t i table user j (by simpa using present)]
      have out : role 0 = .out := by
        by_contra busy
        exact managed_pos (alone.frames.managed 0 busy) rfl
      rw [out]
      exact .inl trivial
  generalize (m.word t j).frame = f at data ⊢
  have plain : ∀ i, role f ≠ .tbl d i := by
    intro i table
    rw [table] at data
    rcases data with plain | ⟨_, _, page⟩
    · exact plain
    · cases page
  have away : role f ≠ .dir := by
    intro is
    rw [is] at data
    rcases data with plain | ⟨_, _, page⟩
    · exact plain
    · cases page
  exact ⟨⟨frames_fill alone.frames data words, alone.dir, alone.only,
    tidy_frame alone.tidy plain fun g other => fill_ne _ _ other⟩,
    kept_other alone.frames lo hi alone.dir (alone_ne alone away) plain fun g other => fill_ne _ _ other, fun _ _ hand => hand⟩

theorem load_loop_keeps {addr i offset sz : Nat} {ip : Source} (aligned : addr % pgsize = 0) (user : addr + sz ≤ kernbase)
    (count j : Nat) (total : j + count = npages sz) :
    Keeps k (loadLoop d addr ip i offset sz count (j * pgsize)) m role d 0 0 ∅ := by
  induction count generalizing m j with
  | zero => exact ⟨role, stays_refl alone⟩
  | succ count ih =>
    have inside : j * pgsize < sz := (page_lt j sz).mpr (by omega)
    have page : u32 (addr + j * pgsize) = (addr / pgsize + j) * pgsize ∧ addr / pgsize + j < 2 ^ 19 := by
      simp only [u32, pgsize, kernbase] at *
      omega
    have next : j * pgsize + pgsize = (j + 1) * pgsize := by ring
    unfold loadLoop
    refine Prog.wp_call (walk_find d _) ?_
    rintro r m' ⟨rfl, rfl⟩
    rw [page.1, pdx_page (by omega), ptx_page, next]
    by_cases pde : (m'.word d ((addr / pgsize + j) / 1024)).p = true
    · have table := alone.frames.dir d alone.dir _ (by omega) pde
      rw [if_pos pde]
      refine spec_read ?_
      split
      · exact ⟨role, stays_refl alone⟩
      · next bytes _ =>
          have filled : Stays k m' _ role role d 0 0 ∅ := fill_stays (j := (addr / pgsize + j) % 1024) alone table (by omega)
            (Nat.mod_lt _ (by decide)) (moved 0 bytes.length fun i => bytes.getD i 0)
          refine spec_fill ?_
          by_cases whole : bytes.length = chunk sz (j * pgsize)
          · rw [if_pos whole]
            exact keeps_after filled (ih filled.toAlone (j + 1) (by omega)) (le_refl 0) (le_refl 0)
          · rw [if_neg whole]
            exact ⟨role, filled⟩
    · rw [if_neg pde]
      exact spec_panic id

theorem loaduvm_keeps {addr i offset sz : Nat} {ip : Source} (user : addr + sz ≤ kernbase) :
    Keeps k (loaduvm d addr ip i offset sz) m role d 0 0 ∅ := by
  unfold loaduvm
  by_cases aligned : addr % pgsize = 0
  · have all : Keeps k (loadLoop d addr ip i offset sz (npages sz) (0 * pgsize)) m role d 0 0 ∅ :=
      load_loop_keeps alone aligned user (npages sz) 0 (Nat.zero_add _)
    rw [Nat.zero_mul] at all
    rw [if_neg (not_not.mpr aligned)]
    exact all
  · rw [if_pos aligned]
    exact spec_panic id

theorem clearpteu_keeps {uva : Nat} (user : uva < kernbase) :
    Keeps k (clearpteu d uva) m role d (uva / pgsize) (uva / pgsize + 1) ∅ := by
  have high : pdx uva = uva / pgsize / 1024 ∧ uva / pgsize < 2 ^ 19 := by
    simp only [pdx, pgsize, kernbase] at *
    omega
  have low : ptx uva = uva / pgsize % 1024 := rfl
  unfold clearpteu
  refine Prog.wp_call (walk_find d uva) ?_
  rintro r m' ⟨rfl, rfl⟩
  rw [high.1, low]
  by_cases pde : (m'.word d (uva / pgsize / 1024)).p = true
  · have table := alone.frames.dir d alone.dir _ (by omega) pde
    rw [if_pos pde]
    generalize (m'.word d (uva / pgsize / 1024)).frame = t at table ⊢
    exact spec_read (spec_write ⟨role, ⟨frames_entry alone.frames table fun _ => ⟨rfl, rfl⟩, alone.dir, alone.only,
      tidy_set_word alone.tidy _ _ fun absent => alone.tidy t _ table (by omega) _ absent⟩, kept_entry alone table _,
      fun _ _ hand => hand⟩)
  · rw [if_neg pde]
    exact spec_panic id

end

-- A call on the user part of d. A caller of mappages has its pages from kalloc.
inductive UserCall where
  | kalloc
  | mappages (va size pa : Nat) (perm : Perm)
  | allocuvm (oldsz newsz : Nat)
  | deallocuvm (oldsz newsz : Nat)
  | loaduvm (addr : Nat) (ip : Source) (i offset sz : Nat)
  | clearpteu (uva : Nat)

-- Frame f could be given to kfree: it is not free, and d does not lead to it.
structure Spare (k : Kernel) (m : Ram) (d f : Nat) : Prop where
  managed : k.managed f
  taken : f ∉ m.freelist
  dir : f ≠ d
  tables : ∀ i < 1024, (m.word d i).p = true → (m.word d i).frame ≠ f
  pages : ∀ n < 2 ^ 19, ∀ e, lookup m d n = some e → e.frame ≠ f

namespace UserCall

def perform (d : Nat) : UserCall → RamM Unit
  | .kalloc => do
    let _ ← Vm.kalloc
    return ()
  | .mappages va size pa perm => do
    let _ ← Vm.mappages d va size pa perm
    return ()
  | .allocuvm oldsz newsz => do
    let _ ← Vm.allocuvm d oldsz newsz
    return ()
  | .deallocuvm oldsz newsz => do
    let _ ← Vm.deallocuvm d oldsz newsz
    return ()
  | .loaduvm addr ip i offset sz => do
    let _ ← Vm.loaduvm d addr ip i offset sz
    return ()
  | .clearpteu uva => do
    let _ ← Vm.clearpteu d uva
    return ()

def User : UserCall → Prop
  | .mappages va size _ _ => 1 ≤ size ∧ va + size ≤ kernbase
  | .deallocuvm oldsz _ => oldsz ≤ kernbase
  | .loaduvm addr _ _ _ sz => addr + sz ≤ kernbase
  | .clearpteu uva => uva < kernbase
  | _ => True

-- The pages whose translation the call may change, from the first up to the second.
def range : UserCall → Nat × Nat
  | .mappages va size _ _ => (va / pgsize, npages (va + size))
  | .allocuvm oldsz newsz => (npages oldsz, min (npages newsz) (2 ^ 19))
  | .deallocuvm oldsz newsz => (npages newsz, npages oldsz)
  | .clearpteu uva => (uva / pgsize, uva / pgsize + 1)
  | _ => (0, 0)

-- The physical pages that mappages is to map are in no other use.
def Spares (k : Kernel) (m : Ram) (d : Nat) : UserCall → Prop
  | .mappages va size pa _ => ∀ i, va / pgsize + i < npages (va + size) → Spare k m d (pa / pgsize + i)
  | _ => True

end UserCall

section

variable (alone : Alone k m role d)
include alone

theorem spare_plain {f : Nat} (spare : Spare k m d f) : (role f).Plain := by
  cases is : role f with
  | dir => exact absurd (alone.only f is) spare.dir
  | tbl d' i =>
    obtain ⟨dir, small, present, points⟩ := alone.frames.tbl f d' i is
    obtain rfl := alone.only d' dir
    exact absurd points (spare.tables i small present)
  | page d' n =>
    obtain ⟨small, t, table, -⟩ := alone.frames.page f d' n is
    obtain rfl := alone.only d' (alone.frames.tbl t d' _ table).1
    obtain ⟨pde, pte, points⟩ := page_entry alone.frames is
    exact absurd points (spare.pages n small _ (if_pos (by rw [pde, pte]; rfl)))
  | _ => trivial

theorem spares_hand (first count : Nat) (spares : ∀ i < count, Spare k m d (first + i)) :
    ∃ role', Alone k m role' d ∧ ∀ i < count, role' (first + i) = .hand := by
  induction count with
  | zero => exact ⟨role, alone, fun _ never => absurd never (Nat.not_lt_zero _)⟩
  | succ count ih =>
    obtain ⟨role', alone', hand⟩ := ih fun i small => spares i (by omega)
    have spare := spares count (by omega)
    have plain := spare_plain alone' spare
    have busy : role' (first + count) ≠ .free := fun free => spare.taken ((alone'.frames.free _).mpr free)
    have frames : Frames k m (upd role' (first + count) .hand) := by
      refine frames_plain alone'.frames plain trivial (fun _ _ => rfl) alone'.frames.nodup (fun g => ?_) fun _ => spare.managed
      rw [role_iff busy (by simp), alone'.frames.free]
    refine ⟨_, alone_upd alone' (fun is => by rw [is] at plain; exact plain) (by simp) frames (tidy_role alone'.tidy nofun),
      fun i small => ?_⟩
    by_cases last : i = count
    · rw [last, upd_self]
    · rw [upd_ne (by omega), hand i (by omega)]

theorem call_keeps (call : UserCall) (user : call.User) (spares : call.Spares k m d) :
    Spec k (fun _ => True) (fun _ => False) 0 (call.perform d) m fun _ m' => ∃ role', Alone k m' role' d ∧
      Kept m m' d call.range.1 call.range.2 := by
  have done : ∀ {β : Type} {c : RamM β} {role₁ : Nat → Role} {used : Set Nat}, Keeps k c m role₁ d call.range.1 call.range.2 used →
      Spec k (fun _ => True) (fun _ => False) 0 (c >>= fun _ => pure ()) m fun _ m' => ∃ role', Alone k m' role' d ∧
        Kept m m' d call.range.1 call.range.2 := fun keeps =>
    Prog.wp_call keeps fun _ _ ⟨role', stays⟩ => ⟨role', stays.toAlone, stays.kept⟩
  cases call with
  | kalloc =>
    refine spec_kalloc (fun _ => ⟨role, alone, kept_refl m d _ _⟩) fun f rest head => ?_
    have stays : Stays k m (taken m rest f (m.word f)) role (upd role f .hand) d 0 0 ∅ := kalloc_stays alone head (m.word f)
    rw [taken, upd_same] at stays
    exact ⟨_, stays.toAlone, stays.kept⟩
  | mappages va size pa perm =>
    obtain ⟨role', alone', hand⟩ := spares_hand alone (pa / pgsize) (npages (va + size) - va / pgsize)
      fun i small => spares i (by omega)
    exact done (mappages_keeps alone' perm user.1 user.2 fun i inside => hand i (by omega))
  | allocuvm oldsz newsz => exact done (allocuvm_keeps alone oldsz newsz)
  | deallocuvm oldsz newsz => exact done (deallocuvm_keeps alone user)
  | loaduvm addr ip i offset sz => exact done (loaduvm_keeps alone user)
  | clearpteu uva => exact done (clearpteu_keeps alone user)

end

inductive UserRun (k : Kernel) (d : Nat) (m : Ram) : Ram → Prop where
  | refl : UserRun k d m m
  | step {m₁ m₂ : Ram} (call : UserCall) (before : UserRun k d m m₁) (user : call.User) (spares : call.Spares k m₁ d)
      (done : (call.perform d).run (RamOp.exec k) m₁ = .ok () m₂) : UserRun k d m m₂

theorem call_run {call : UserCall} (user : call.User) (spares : call.Spares k m d) (alone : Alone k m role d)
    (done : (call.perform d).run (RamOp.exec k) m = .ok () m') :
    ∃ role', Alone k m' role' d ∧ Kept m m' d call.range.1 call.range.2 :=
  Prog.wp_completes (call_keeps alone call user spares) (Prog.run_completes _ _ _ _ _ _ done)

theorem range_user (call : UserCall) (user : call.User) : call.range.2 ≤ 2 ^ 19 := by
  cases call with
  | mappages va size pa perm => exact npages_le user.2
  | allocuvm oldsz newsz => exact Nat.min_le_right _ _
  | deallocuvm oldsz newsz => exact npages_le user
  | clearpteu uva =>
    simp only [UserCall.User, UserCall.range, kernbase, pgsize] at *
    omega
  | _ => exact Nat.zero_le _

theorem user_run_alone (run : UserRun k d m m') (alone : Alone k m role d) :
    ∃ role', Alone k m' role' d ∧ Kept m m' d 0 (2 ^ 19) := by
  induction run with
  | refl => exact ⟨role, alone, kept_refl m d _ _⟩
  | step call before user spares done ih =>
    obtain ⟨role₁, alone₁, kept₁⟩ := ih
    obtain ⟨role₂, alone₂, kept₂⟩ := call_run user spares alone₁ done
    exact ⟨role₂, alone₂, kept_trans kept₁ (kept_mono kept₂ (Nat.zero_le _) (range_user call user))⟩

-- The physical address, PTE_W and PTE_U of the entry for address a.
def translate (m : Ram) (d a : Nat) : Option (Nat × Bool × Bool) :=
  (lookup m d (a / pgsize)).map fun e => (e.frame * pgsize + a % pgsize, e.w, e.u)

def Kmap.Holds (e : Kmap) (a : Nat) : Prop := e.virt ≤ a ∧ a < e.virt + u32 (e.physEnd + 2 ^ 32 - e.physStart)

structure CarriesKmap (k : Kernel) (m : Ram) (d : Nat) : Prop where
  covered : ∀ e ∈ kmap k, ∀ a, e.Holds a → translate m d a = some (e.physStart + (a - e.virt), e.w, false)
  others : ∀ a, kernbase ≤ a → a < 2 ^ 32 → (∀ e ∈ kmap k, ¬ e.Holds a) → translate m d a = none

theorem covers_iff {e : Kmap} (ok : e.Ok) (a : Nat) : e.Covers (a / pgsize) ↔ e.Holds a := by
  have virt := ok.virt
  rw [Kmap.Covers, Kmap.Holds, ok.size]
  generalize e.pages = pages
  simp only [pgsize] at *
  omega

theorem kmap_phys (k : Kernel) : ∀ e ∈ kmap k, e.physStart % pgsize = 0 := by
  obtain ⟨aligned, low, high⟩ := data_bounds k
  intro e member
  simp only [kmap, List.mem_cons, List.not_mem_nil, or_false] at member
  rcases member with rfl | rfl | rfl | rfl
  · decide
  · exact (by decide : (kernlink - kernbase) % pgsize = 0)
  · simp only [kernbase, pgsize]
    omega
  · decide

theorem carries_kmap (same : ∀ n, 2 ^ 19 ≤ n → n < 2 ^ 20 → lookup m d n = kernelMap k n) : CarriesKmap k m d := by
  refine ⟨fun e member a holds => ?_, fun a kernel bound outside => ?_⟩
  · have ok := kmap_ok k e member
    have covers := (covers_iff ok a).mpr holds
    have limit := ok.bound
    have kernel := ok.kernel
    have inside : e.virt / pgsize ≤ a / pgsize ∧ a / pgsize < e.virt / pgsize + e.pages := covers
    have address : (e.physStart / pgsize + (a / pgsize - e.virt / pgsize)) * pgsize + a % pgsize = e.physStart + (a - e.virt) := by
      have phys := kmap_phys k e member
      have virt := ok.virt
      have above := holds.1
      simp only [pgsize] at *
      omega
    rw [translate, same _ (by omega) (by omega), kernel_map_some member covers, ← address]
    rfl
  · have page : 2 ^ 19 ≤ a / pgsize ∧ a / pgsize < 2 ^ 20 := by
      simp only [kernbase, pgsize] at *
      omega
    have none : ¬ ∃ e ∈ kmap k, e.Covers (a / pgsize) := fun ⟨e, member, covers⟩ =>
      outside e member ((covers_iff (kmap_ok k e member) a).mp covers)
    rw [translate, same _ page.1 page.2, kernel_map_none none]
    rfl

def freeRole (m : Ram) (f : Nat) : Role := if f ∈ m.freelist then .free else .out

theorem free_role_frames (unique : m.freelist.Nodup) (managed : ∀ f ∈ m.freelist, k.managed f) : Frames k m (freeRole m) := by
  have simple : ∀ {f : Nat} {r : Role}, freeRole m f = r → r = .free ∨ r = .out := by
    rintro f r rfl
    unfold freeRole
    split
    · exact .inl rfl
    · exact .inr rfl
  have free : ∀ f, f ∈ m.freelist ↔ freeRole m f = .free := by
    intro f
    unfold freeRole
    split <;> simp [*]
  refine ⟨unique, free, fun f busy => ?_, fun d is => ?_, fun t d i is => ?_, fun t d i is => ?_, fun f d n is => ?_⟩
  · exact managed f ((free f).mpr ((simple rfl).resolve_right busy))
  all_goals rcases simple is with never | never <;> cases never

theorem fresh_alone (fresh : Fresh k m m' (freeRole m) role' d) : Alone k m' role' d := by
  refine ⟨fresh.frames, fresh.dir, fun g is => ?_, fun t i table user => ?_⟩
  · rcases fresh.taken g with same | ⟨-, mine⟩
    · rw [is] at same
      unfold freeRole at same
      split at same <;> cases same
    · rw [is] at mine
      simpa [Role.of] using mine
  · have present := (fresh.frames.tbl t d i table).2.2.1
    rw [fresh.pdes i] at present
    · cases present
    · intro n covered
      have kernel := (kmap_covers k n).mp covered
      omega

theorem setup_fresh (unique : m.freelist.Nodup) (managed : ∀ f ∈ m.freelist, k.managed f) (enough : 577 ≤ m.freelist.length) :
    ∃ d m₁ role, (setupkvm k).run (RamOp.exec k) m = .ok (some d) m₁ ∧ Fresh k m m₁ (freeRole m) role d := by
  obtain ⟨r, m₁, finished, ⟨-, few, -⟩ | ⟨d, role, rfl, fresh⟩⟩ :=
    spec_run (setupkvm_spec (free_role_frames unique managed))
  · omega
  · exact ⟨d, m₁, role, finished, fresh⟩

theorem kernel_map_kept (k : Kernel) (m : Ram) (unique : m.freelist.Nodup) (managed : ∀ f ∈ m.freelist, k.managed f) :
    ∃ r m₁, (setupkvm k).run (RamOp.exec k) m = .ok r m₁ ∧ ∀ d, r = some d → ∀ m₂, UserRun k d m₁ m₂ →
      CarriesKmap k m₂ d ∧ ∀ call : UserCall, call.User → call.Spares k m₂ d → ∀ m₃,
        (call.perform d).run (RamOp.exec k) m₂ = .ok () m₃ →
          ∀ a < 2 ^ 32, a / pgsize < call.range.1 ∨ call.range.2 ≤ a / pgsize → translate m₃ d a = translate m₂ d a := by
  obtain ⟨r, m₁, finished, outcome⟩ := spec_run (setupkvm_spec (free_role_frames unique managed))
  refine ⟨r, m₁, finished, ?_⟩
  rintro d rfl m₂ run
  rcases outcome with ⟨never, -⟩ | ⟨d', role', same, fresh⟩
  · cases never
  cases same
  obtain ⟨role₂, alone, kept⟩ := user_run_alone run (fresh_alone fresh)
  refine ⟨carries_kmap fun n above bound => (kept.lookup n bound (.inr above)).trans (fresh.kernel n bound),
    fun call user spares m₃ done a bound outside => ?_⟩
  obtain ⟨-, -, kept'⟩ := call_run user spares alone done
  rw [translate, translate, kept'.lookup _ (by simp only [pgsize]; omega) outside]

def thousand : Ram := ⟨List.range' 1024 1000, fun _ _ => .ofWord 0, []⟩

theorem thousand_nodup : thousand.freelist.Nodup := List.nodup_range'

theorem thousand_length : thousand.freelist.length = 1000 := List.length_range'

theorem thousand_managed : ∀ f ∈ thousand.freelist, linked.managed f := by
  intro f member
  obtain ⟨low, high⟩ := List.mem_range'_1.mp member
  refine ⟨?_, ?_⟩
  · simp only [linked, kernbase, pgsize]
    omega
  · simp only [phystop, pgsize]
    omega

theorem kernel_map_kept_thousand : ∃ d m₁, (setupkvm linked).run (RamOp.exec linked) thousand = .ok (some d) m₁ ∧
    CarriesKmap linked m₁ d := by
  obtain ⟨d, m₁, role, finished, -⟩ := setup_fresh thousand_nodup thousand_managed (by rw [thousand_length]; decide)
  obtain ⟨r, m₂, same, holds⟩ := kernel_map_kept linked thousand thousand_nodup thousand_managed
  rw [finished] at same
  cases same
  exact ⟨d, m₁, finished, (holds d rfl m₁ .refl).1⟩

theorem thousand_free {f : Nat} (free : freeRole thousand f = .free) : f < 0x1010 := by
  unfold freeRole at free
  split at free
  · next member =>
      obtain ⟨-, high⟩ := List.mem_range'_1.mp member
      omega
  · cases free

-- mappages maps the page directory itself at user page 0, and deallocuvm frees it.
theorem directory_maps_itself : ∃ d m₁ m₂ m₃, (setupkvm linked).run (RamOp.exec linked) thousand = .ok (some d) m₁ ∧
    (mappages d 0 pgsize (d * pgsize) permUser).run (RamOp.exec linked) m₁ = .ok true m₂ ∧
    (deallocuvm d pgsize 0).run (RamOp.exec linked) m₂ = .ok 0 m₃ ∧ translate m₃ d kernbase = none := by
  obtain ⟨d, m₁, role, finished, fresh⟩ := setup_fresh thousand_nodup thousand_managed (by rw [thousand_length]; decide)
  have low := thousand_free fresh.was
  have managed := fresh.frames.managed d (by simp [fresh.dir])
  have missing : (m₁.word d 0).p = false := by
    refine fresh.pdes 0 fun n covered => ?_
    have kernel := (kmap_covers linked n).mp covered
    omega
  obtain ⟨t, rest, head⟩ : ∃ t rest, m₁.freelist = t :: rest := by
    refine List.exists_cons_of_ne_nil fun empty => ?_
    have room := fresh.room
    rw [Vm.room, empty, thousand_length, List.length_nil] at room
    omega
  have was := (frames_alloc fresh.frames head).1
  have away : d ≠ t := role_ne fresh.dir was
  have new := thousand_free (grown_was_free fresh.toGrown was)
  have walk : (walkpgdir d 0 true).run (RamOp.exec linked) m₁ = .ok (some (t, 0)) (newTable m₁ rest d 0 t) := by
    simp [walkpgdir, read, kalloc, clear, fill, write, Prog.run, RamOp.exec, head, newTable, pdx, ptx, missing]
  have map : (mappages d 0 pgsize (d * pgsize) permUser).run (RamOp.exec linked) m₁ =
      .ok true ((newTable m₁ rest d 0 t).setWord t 0 (permUser.entry d)) := by
    have page := mappages_page d 0 (d * pgsize) permUser (by decide)
    rw [Nat.zero_mul] at page
    rw [page, mapPage, Prog.run_bind _ walk]
    simp [read, write, Prog.run, RamOp.exec, new_table_empty away, Pte.ofWord]
  have out : freeRole thousand 0x1010 = .out := if_neg fun member => by
    have high := (List.mem_range'_1.mp member).2
    omega
  have zero : (newTable m₁ rest d 0 t).word 0x1010 0 = .ofWord 0 := by
    rw [new_table_other (by omega) (by omega), fresh.outside _ out]
    rfl
  have entered : (newTable m₁ rest d 0 t).word d 0 = permUser.entry t := set_word_self _ _ _ _
  generalize newTable m₁ rest d 0 t = m₂ at map zero entered
  refine ⟨d, m₁, _, ((m₂.setWord t 0 (permUser.entry d)).kfree d).setWord t 0 (.ofWord 0), finished, map, ?_, ?_⟩
  · have entered' : (m₂.setWord t 0 (permUser.entry d)).word d 0 = permUser.entry t := by rw [set_word_frame _ _ _ away, entered]
    have start : pgroundup 0 = 0 := rfl
    simp [deallocuvm, deallocLoop, start, walkpgdir, read, kfree, write, Prog.run, RamOp.exec, pdx, ptx, entered', managed,
      managed_pos managed]
  · have gone : (((m₂.setWord t 0 (permUser.entry d)).kfree d).setWord t 0 (.ofWord 0)).word d 512 = .ofWord 0x01010101 := by
      rw [set_word_frame _ _ _ away]
      exact congrFun (upd_self _ _ _) 512
    have blank : (((m₂.setWord t 0 (permUser.entry d)).kfree d).setWord t 0 (.ofWord 0)).word 0x1010 0 = .ofWord 0 := by
      have other : ((m₂.setWord t 0 (permUser.entry d)).kfree d).word 0x1010 = (m₂.setWord t 0 (permUser.entry d)).word 0x1010 :=
        upd_ne (by omega)
      rw [set_word_frame _ _ _ (by omega), other, set_word_frame _ _ _ (by omega), zero]
    have page : kernbase / pgsize / 1024 = 512 ∧ kernbase / pgsize % 1024 = 0 := by decide
    have frame : (Pte.ofWord 0x01010101).frame = 0x1010 := by decide
    rw [translate, lookup, page.1, page.2, gone, frame, blank]
    rfl

end Xv6.Vm
