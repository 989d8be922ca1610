import Xv6.Vm.Kvm

set_option autoImplicit false

namespace Xv6.Vm

variable {k : Kernel} {m m' m'' : Ram} {role role' role'' : Nat → Role} {cond : Event RamOp Ram → Prop}
  {bad : String → Prop} {pid : Nat}

structure Shrunk (k : Kernel) (m m' : Ram) (role role' : Nat → Role) (d lo : Nat) : Prop where
  frames : Frames k m' role'
  freed : ∀ f, role' f = role f ∨ ∃ n, lo ≤ n ∧ role f = .page d n ∧ role' f = .free
  data : ∀ f, role' f = role f → (∀ i, role f ≠ .tbl d i) → m'.word f = m.word f
  notes : m'.notes = m.notes

theorem shrunk_refl (frames : Frames k m role) {d lo : Nat} : Shrunk k m m role role d lo :=
  ⟨frames, fun _ => .inl rfl, fun _ _ _ => rfl, rfl⟩

theorem shrunk_kept {d lo f : Nat} (shrunk : Shrunk k m m' role role' d lo) (other : ∀ n, role f ≠ .page d n) :
    role' f = role f :=
  (shrunk.freed f).resolve_right fun ⟨n, _, page, _⟩ => other n page

theorem shrunk_outside {d lo f : Nat} (shrunk : Shrunk k m m' role role' d lo) (out : role f = .out ∨ role f = .dir) :
    m'.word f = m.word f := by
  refine shrunk.data f (shrunk_kept shrunk fun n => ?_) fun i => ?_
  · rcases out with is | is <;> simp [is]
  · rcases out with is | is <;> simp [is]

theorem shrunk_page {d lo f d' n : Nat} (shrunk : Shrunk k m m' role role' d lo) (page : role' f = .page d' n) :
    role f = .page d' n := by
  rcases shrunk.freed f with same | ⟨_, _, _, free⟩
  · rw [← same]
    exact page
  · rw [page] at free
    cases free

theorem shrunk_trans {d lo hi : Nat} (first : Shrunk k m m' role role' d lo) (second : Shrunk k m' m'' role' role'' d hi)
    (order : lo ≤ hi) : Shrunk k m m'' role role'' d lo := by
  refine ⟨second.frames, fun f => ?_, fun f same plain => ?_, second.notes.trans first.notes⟩
  · rcases second.freed f with same | ⟨n, high, page, free⟩
    · rw [same]
      exact first.freed f
    · exact .inr ⟨n, order.trans high, shrunk_page first page, free⟩
  · have kept : role' f = role f := by
      rcases first.freed f with same' | ⟨n, -, page, free⟩
      · exact same'
      · -- a frame given back stays on the free list
        have still := shrunk_kept second fun n' => by rw [free]; simp
        rw [← same, still]
    rw [second.data f (by rw [kept]; exact same) (by rw [kept]; exact plain), first.data f kept plain]

theorem kfree_set_word (m : Ram) {f t : Nat} (j : Nat) (e : Pte) (other : f ≠ t) :
    (m.kfree f).setWord t j e = (m.setWord t j e).kfree f := by
  simp only [Ram.kfree, Ram.setWord, Ram.mk.injEq, and_true, true_and]
  rw [upd_ne (Ne.symm other)]
  funext g
  by_cases here : g = f
  · rw [here, upd_ne other, upd_self, upd_self]
  · by_cases there : g = t
    · rw [there, upd_self, upd_ne (Ne.symm other), upd_self]
    · rw [upd_ne there, upd_ne here, upd_ne here, upd_ne there]

theorem managed_pos {f : Nat} (managed : k.managed f) : f ≠ 0 := by
  rintro rfl
  have text := k.text
  have order := k.order
  have above := managed.1
  unfold kernlink extmem at text
  omega

theorem shrunk_one (frames : Frames k m role) {d t n lo : Nat} (table : role t = .tbl d (n / 1024)) (user : n < 2 ^ 19)
    (low : lo ≤ n) (present : (m.word t (n % 1024)).p = true) :
    role (m.word t (n % 1024)).frame = .page d n ∧
      Shrunk k m ((m.kfree (m.word t (n % 1024)).frame).setWord t (n % 1024) (.ofWord 0)) role
        (upd role (m.word t (n % 1024)).frame .free) d lo ∧
      Kept m ((m.kfree (m.word t (n % 1024)).frame).setWord t (n % 1024) (.ofWord 0)) d n (n + 1) := by
  have page := frames.entry t d _ table (by omega) (n % 1024) (by omega) present
  rw [show 1024 * (n / 1024) + n % 1024 = n by omega] at page
  have inHand := frames_unmap frames table (by omega) (by omega) present
  have is := (frames.tbl t d _ table).1
  generalize (m.word t (n % 1024)).frame = f at page inHand ⊢
  have away : f ≠ t := role_ne page table
  have notDir : d ≠ t := role_ne is table
  have given := frames_kfree inHand (f := f) (by rw [upd_self]; trivial) (by rw [upd_self]; simp)
    (frames.managed f (by simp [page]))
  rw [upd_twice, ← kfree_set_word m _ _ away] at given
  have cleared : Kept m (m.setWord t (n % 1024) (.ofWord 0)) d n (n + 1) := by
    refine ⟨fun j _ _ => by rw [set_word_frame _ _ _ notDir], fun n' bound outside => ?_⟩
    rw [lookup_set_word frames table bound, if_neg (by omega)]
  have freed : Kept (m.setWord t (n % 1024) (.ofWord 0)) ((m.setWord t (n % 1024) (.ofWord 0)).kfree f) d n (n + 1) := by
    refine kept_other inHand _ _ ?_ ?_ (fun i => by rw [upd_self]; simp) fun g other => upd_ne other
    · rw [upd_ne]
      · exact is
      · exact role_ne is page
    · exact role_ne page is
  refine ⟨page, ⟨given, fun g => ?_, fun g same plain => ?_, rfl⟩, ?_⟩
  · by_cases here : g = f
    · rw [here, upd_self]
      exact .inr ⟨n, low, page, rfl⟩
    · exact .inl (upd_ne here)
  · have notPage : g ≠ f := by
      rintro rfl
      rw [upd_self, page] at same
      cases same
    have notTable : g ≠ t := by
      rintro rfl
      exact plain _ table
    rw [set_word_frame _ _ _ notTable]
    exact upd_ne notPage
  · rw [kfree_set_word m _ _ away]
    exact kept_trans cleared freed

def npages (sz : Nat) : Nat := (sz + pgsize - 1) / pgsize

theorem page_lt (n sz : Nat) : n * pgsize < sz ↔ n < npages sz := by
  unfold npages pgsize
  omega

theorem npages_le {sz : Nat} (user : sz ≤ kernbase) : npages sz ≤ 2 ^ 19 := by
  unfold npages kernbase pgsize at *
  omega

def freedFrames (m : Ram) (d lo hi : Nat) : List Nat :=
  ((List.range' lo (hi - lo)).filterMap fun n => (lookup m d n).map Pte.frame).reverse

theorem freed_frames_some {d n hi : Nat} {e : Pte} (found : lookup m d n = some e) (inside : n < hi)
    (later : ∀ n', n < n' → n' < hi → lookup m' d n' = lookup m d n') :
    freedFrames m d n hi = freedFrames m' d (n + 1) hi ++ [e.frame] := by
  have same : ((List.range' (n + 1) (hi - (n + 1))).filterMap fun n => (lookup m' d n).map Pte.frame) =
      (List.range' (n + 1) (hi - (n + 1))).filterMap fun n => (lookup m d n).map Pte.frame := by
    refine List.filterMap_congr fun n' member => ?_
    obtain ⟨low, high⟩ := List.mem_range'_1.mp member
    rw [later n' (by omega) (by omega)]
  have count : hi - n = hi - (n + 1) + 1 := by omega
  rw [freedFrames, freedFrames, same, count, List.range'_succ, List.filterMap_cons, found]
  exact List.reverse_cons

theorem freed_frames_none {d n hi : Nat} (skip : Nat) (missing : ∀ n', n ≤ n' → n' < n + skip → lookup m d n' = none) :
    freedFrames m d n hi = freedFrames m d (n + skip) hi := by
  induction skip generalizing n with
  | zero => rfl
  | succ skip ih =>
    have step : freedFrames m d n hi = freedFrames m d (n + 1) hi := by
      by_cases inside : n < hi
      · have count : hi - n = hi - (n + 1) + 1 := by omega
        rw [freedFrames, freedFrames, count, List.range'_succ, List.filterMap_cons, missing n (le_refl n) (by omega)]
        rfl
      · have none : hi - n = 0 := by omega
        have none' : hi - (n + 1) = 0 := by omega
        rw [freedFrames, freedFrames, none, none']
        rfl
    rw [step, ih fun n' low high => missing n' (by omega) (by omega), Nat.add_assoc, Nat.add_comm 1 skip]

theorem dealloc_loop_spec {d oldsz lo : Nat} (user : npages oldsz ≤ 2 ^ 19) (fuel n : Nat) (frames : Frames k m role)
    (is : role d = .dir) (low : lo ≤ n) (enough : npages oldsz ≤ n + fuel) :
    Spec k cond bad pid (deallocLoop d oldsz fuel (n * pgsize)) m fun _ m' => ∃ role',
      Shrunk k m m' role role' d lo ∧ (∀ f n', role' f = .page d n' → n ≤ n' → npages oldsz ≤ n') ∧
      Kept m m' d n (npages oldsz) ∧ m'.freelist = freedFrames m d n (npages oldsz) ++ m.freelist := by
  have done : ∀ {m : Ram} {n : Nat}, npages oldsz ≤ n → m.freelist = freedFrames m d n (npages oldsz) ++ m.freelist := by
    intro m n above
    have none : npages oldsz - n = 0 := by omega
    rw [freedFrames, none]
    rfl
  induction fuel generalizing m role n with
  | zero => exact ⟨role, shrunk_refl frames, fun f n' _ above => by omega, kept_refl m d _ _, done (by omega)⟩
  | succ fuel ih =>
    unfold deallocLoop
    by_cases inside : n < npages oldsz
    · have next : n * pgsize + pgsize = (n + 1) * pgsize := by ring
      have skip : (n / 1024 + 1) * 2 ^ 22 = (n / 1024 + 1) * 1024 * pgsize := by ring
      rw [if_pos ((page_lt n oldsz).mpr inside)]
      refine Prog.wp_call (walk_find d (n * pgsize)) ?_
      rintro r m' ⟨rfl, rfl⟩
      rw [pdx_page (by omega), ptx_page]
      by_cases pde : (m'.word d (n / 1024)).p = true
      · have table := frames.dir d is _ (by omega) pde
        have entry : lookup m' d n = if (m'.word (m'.word d (n / 1024)).frame (n % 1024)).p then
            some (m'.word (m'.word d (n / 1024)).frame (n % 1024)) else none := by
          rw [lookup, pde, Bool.true_and]
        rw [if_pos pde]
        generalize tbl : (m'.word d (n / 1024)).frame = t at table entry ⊢
        refine spec_read ?_
        by_cases present : (m'.word t (n % 1024)).p = true
        · obtain ⟨page, shrunk, cleared⟩ := shrunk_one frames table (by omega) low present
          rw [if_pos present] at entry
          rw [if_pos present]
          generalize points : (m'.word t (n % 1024)).frame = f at page shrunk cleared ⊢
          have managed := frames.managed f (by rw [page]; simp)
          rw [if_neg (managed_pos managed), next]
          refine spec_kfree managed (spec_write ?_)
          have is' : upd role f .free d = .dir := by
            rw [shrunk_kept shrunk fun n' => by rw [is]; simp]
            exact is
          refine Prog.wp_mono (ih (n + 1) shrunk.frames is' (by omega) (by omega)) ?_
          rintro - m'' ⟨role'', later, gone, kept, list⟩
          refine ⟨role'', shrunk_trans shrunk later (le_refl lo), fun g n' page' above => ?_,
            kept_trans (kept_mono cleared (le_refl n) inside) (kept_mono kept (by omega) (le_refl _)), ?_⟩
          · refine gone g n' page' (Nat.lt_of_le_of_ne above ?_)
            -- No other frame has the role of page n.
            rintro rfl
            have before := shrunk_page later page'
            rw [page_unique frames (shrunk_page shrunk before) page, upd_self] at before
            cases before
          · rw [list, freed_frames_some entry inside fun n' above below => cleared.lookup n' (by omega) (by omega), points,
              List.append_assoc]
            rfl
        · rw [if_neg present] at entry
          rw [if_neg present, next]
          refine Prog.wp_mono (ih (n + 1) frames is (by omega) (by omega)) ?_
          rintro - m'' ⟨role'', later, gone, kept, list⟩
          refine ⟨role'', later, fun g n' page above => gone g n' page (Nat.lt_of_le_of_ne above ?_),
            kept_mono kept (by omega) (le_refl _), ?_⟩
          · rintro rfl
            have mapped := (page_entry frames (shrunk_page later page)).2.1
            rw [tbl] at mapped
            exact present mapped
          · have missing : ∀ n', n ≤ n' → n' < n + 1 → lookup m' d n' = none := by
              intro n' above below
              rw [show n' = n by omega, entry]
            rw [list, freed_frames_none 1 missing]
      · have missing : ∀ n', n ≤ n' → n' < n + ((n / 1024 + 1) * 1024 - n) → lookup m' d n' = none := by
          intro n' above below
          rw [lookup, show n' / 1024 = n / 1024 by omega, Bool.eq_false_iff.mpr pde]
          rfl
        rw [if_neg pde, skip]
        refine Prog.wp_mono (ih _ frames is (by omega) (by omega)) ?_
        rintro - m'' ⟨role'', later, gone, kept, list⟩
        refine ⟨role'', later, fun g n' page above => gone g n' page ?_, kept_mono kept (by omega) (le_refl _), ?_⟩
        · by_contra before
          have entry := (page_entry frames (shrunk_page later page)).1
          rw [show n' / 1024 = n / 1024 by omega] at entry
          exact pde entry
        · rw [list, freed_frames_none _ missing, show n + ((n / 1024 + 1) * 1024 - n) = (n / 1024 + 1) * 1024 by omega]
    · rw [if_neg fun below => inside ((page_lt n oldsz).mp below)]
      exact ⟨role, shrunk_refl frames, fun f n' _ above => by omega, kept_refl m d _ _, done (by omega)⟩

theorem pgroundup_eq {sz : Nat} (user : sz ≤ 2 ^ 31) : pgroundup sz = npages sz * pgsize := by
  unfold pgroundup npages u32 pgsize
  omega

theorem npages_mono {a b : Nat} (order : a ≤ b) : npages a ≤ npages b := by
  unfold npages pgsize
  omega

theorem deallocuvm_spec {d oldsz newsz : Nat} (user : oldsz ≤ 2 ^ 31) (frames : Frames k m role) (is : role d = .dir) :
    Spec k cond bad pid (deallocuvm d oldsz newsz) m fun r m' => (oldsz ≤ newsz ∧ r = oldsz ∧ m' = m) ∨
      (newsz < oldsz ∧ r = newsz ∧ ∃ role', Shrunk k m m' role role' d (npages newsz) ∧
        (∀ f n, role' f = .page d n → npages newsz ≤ n → npages oldsz ≤ n) ∧ Kept m m' d (npages newsz) (npages oldsz) ∧
        m'.freelist = freedFrames m d (npages newsz) (npages oldsz) ++ m.freelist) := by
  unfold deallocuvm
  by_cases up : newsz ≥ oldsz
  · rw [if_pos up]
    exact .inl ⟨up, rfl, rfl⟩
  · have enough : npages oldsz ≤ npages newsz + (oldsz / pgsize + 1) := by
      unfold npages pgsize
      omega
    have limit : npages oldsz ≤ 2 ^ 19 := by
      unfold npages pgsize
      omega
    rw [if_neg up, pgroundup_eq (by omega)]
    refine Prog.wp_call (dealloc_loop_spec limit _ _ frames is (le_refl _) enough) ?_
    rintro - m' ⟨role', shrunk, gone⟩
    exact .inr ⟨by omega, rfl, role', shrunk, gone⟩

structure Undone (k : Kernel) (m m' : Ram) (role role' : Nat → Role) (d lo : Nat) : Prop where
  frames : Frames k m' role'
  moved : ∀ f, role' f = role f ∨ (role f = .free ∧ ∃ i, role' f = .tbl d i) ∨
    ∃ n, lo ≤ n ∧ role f = .page d n ∧ role' f = .free
  gone : ∀ f n, role' f = .page d n → n < lo
  kept : Kept m m' d lo (2 ^ 19)
  data : ∀ g, role g ≠ .free → g ≠ d → (∀ i, role g ≠ .tbl d i) → (∀ n, lo ≤ n → role g ≠ .page d n) → m'.word g = m.word g
  notes : m'.notes = m.notes

theorem undone_after {d lo n hi : Nat} (grown : Grown k m m' role role' (Pages d n hi)) (kept : Kept m m' d n hi)
    (data : Untouched m m' role d) (undone : Undone k m' m'' role' role'' d lo) (low : lo ≤ n) (high : hi ≤ 2 ^ 19) :
    Undone k m m'' role role'' d lo := by
  refine ⟨undone.frames, fun f => ?_, undone.gone, kept_trans (kept_mono kept low high) undone.kept,
    fun g busy other plain pages => ?_, undone.notes.trans grown.notes⟩
  · rcases undone.moved f with same | ⟨free, tbl⟩ | ⟨n', high, page, free⟩
    · rcases grown.taken f with same' | ⟨free, tbl | ⟨n', above, -, page⟩⟩
      · exact .inl (same.trans same')
      · exact .inr (.inl ⟨free, by rw [same]; exact tbl⟩)
      · have left := undone.gone f n' (same.trans page)
        omega
    · rcases grown.taken f with same' | ⟨free', -⟩
      · exact .inr (.inl ⟨same'.symm.trans free, tbl⟩)
      · exact .inr (.inl ⟨free', tbl⟩)
    · rcases grown.taken f with same' | ⟨free', -⟩
      · exact .inr (.inr ⟨n', high, same'.symm.trans page, free⟩)
      · exact .inl (free.trans free'.symm)
  · have same := grown_kept grown busy
    rw [undone.data g (by rw [same]; exact busy) other (by rw [same]; exact plain) (by rw [same]; exact pages),
      data g busy other plain]

theorem undo_spec {d oldsz newsz n : Nat} (user : newsz ≤ 2 ^ 31) (order : oldsz < newsz) (frames : Frames k m role)
    (is : role d = .dir) (top : ∀ f n', role f = .page d n' → n' < n) (within : n ≤ npages newsz) :
    Spec k cond bad pid (deallocuvm d newsz oldsz) m fun _ m' => ∃ role',
      Shrunk k m m' role role' d (npages oldsz) ∧ (∀ f n', role' f = .page d n' → n' < npages oldsz) ∧
      Kept m m' d (npages oldsz) (2 ^ 19) := by
  refine Prog.wp_mono (deallocuvm_spec user frames is) ?_
  rintro r m' (⟨impossible, -, -⟩ | ⟨-, -, role', shrunk, gone, kept, -⟩)
  · omega
  · refine ⟨role', shrunk, fun f n' page => ?_, kept_mono kept (le_refl _) (npages_le user)⟩
    by_contra above
    have old := top f n' (shrunk_page shrunk page)
    have left := gone f n' page (by omega)
    omega

theorem shrunk_data {d lo g : Nat} (shrunk : Shrunk k m m' role role' d lo) (plain : ∀ i, role g ≠ .tbl d i)
    (pages : ∀ n, lo ≤ n → role g ≠ .page d n) : m'.word g = m.word g :=
  shrunk.data g ((shrunk.freed g).resolve_right fun ⟨n, low, page, _⟩ => pages n low page) plain

theorem undone_of_shrunk {d lo : Nat} (shrunk : Shrunk k m m' role role' d lo) (kept : Kept m m' d lo (2 ^ 19))
    (gone : ∀ f n, role' f = .page d n → n < lo) : Undone k m m' role role' d lo :=
  ⟨shrunk.frames, fun f => (shrunk.freed f).imp_right .inr, gone, kept, fun _ _ _ plain pages => shrunk_data shrunk plain pages,
    shrunk.notes⟩

def taken (m : Ram) (rest : List Nat) (f : Nat) (words : Nat → Pte) : Ram :=
  { m with freelist := rest, word := upd m.word f words }

theorem taken_frames (frames : Frames k m role) {f : Nat} {rest : List Nat} (head : m.freelist = f :: rest)
    (words : Nat → Pte) : role f = .free ∧ Frames k (taken m rest f words) (upd role f .hand) := by
  obtain ⟨was, inHand⟩ := frames_alloc frames head
  exact ⟨was, frames_words inHand (.inl (by rw [upd_self]; trivial)) words⟩

theorem taken_room {d f : Nat} {rest : List Nat} (head : m.freelist = f :: rest) (words : Nat → Pte) (away : d ≠ f) :
    room (taken m rest f words) d = room m d - 1 := by
  unfold room absent taken
  simp only [upd_ne away, head, List.length_cons]
  push_cast
  ring

theorem taken_kept {d f lo hi : Nat} {rest : List Nat} (frames : Frames k m role) (head : m.freelist = f :: rest)
    (is : role d = .dir) (words : Nat → Pte) : Kept m (taken m rest f words) d lo hi := by
  have was := (taken_frames frames head words).1
  refine kept_other frames lo hi is ?_ (fun i => by simp [was]) fun g other => upd_ne other
  rintro rfl
  rw [is] at was
  cases was

theorem undone_kfree {d lo f : Nat} {rest : List Nat} {words : Nat → Pte} (head : m.freelist = f :: rest) (is : role d = .dir)
    (frames : Frames k m role) (shrunk : Shrunk k (taken m rest f words) m' (upd role f .hand) role' d lo)
    (kept : Kept (taken m rest f words) m' d lo (2 ^ 19)) (gone : ∀ g n, role' g = .page d n → n < lo) :
    k.managed f ∧ Undone k m (m'.kfree f) role (upd role' f .free) d lo := by
  have was := (taken_frames frames head words).1
  have away : d ≠ f := role_ne is was
  have inHand : role' f = .hand := by
    rw [shrunk_kept shrunk fun n => by rw [upd_self]; simp]
    exact upd_self _ _ _
  have managed := shrunk.frames.managed f (by rw [inHand]; simp)
  have isDir : role' d = .dir := by
    rw [shrunk_kept shrunk fun n => by rw [upd_ne away, is]; simp, upd_ne away]
    exact is
  have given : Kept m' (m'.kfree f) d lo (2 ^ 19) :=
    kept_other shrunk.frames _ _ isDir (Ne.symm away) (fun i => by simp [inHand]) fun g other => upd_ne other
  refine ⟨managed, frames_kfree shrunk.frames (by rw [inHand]; trivial) (by rw [inHand]; simp) managed, fun g => ?_,
    fun g n page => ?_, kept_trans (kept_trans (taken_kept frames head is words) kept) given,
    fun g busy other plain pages => ?_, shrunk.notes⟩
  · by_cases here : g = f
    · rw [here, upd_self]
      exact .inl was.symm
    · rw [upd_ne here]
      have freed := shrunk.freed g
      rw [upd_ne here] at freed
      exact freed.imp_right .inr
  · by_cases here : g = f
    · rw [here, upd_self] at page
      cases page
    · rw [upd_ne here] at page
      exact gone g n page
  · have here : g ≠ f := by
      rintro rfl
      exact busy was
    have first : (m'.kfree f).word g = m'.word g := upd_ne here
    have last : (taken m rest f words).word g = m.word g := upd_ne here
    rw [first, shrunk_data shrunk (by rw [upd_ne here]; exact plain) (by rw [upd_ne here]; exact pages), last]

theorem grown_taken {f : Nat} {rest : List Nat} {words : Nat → Pte} {new : Nat → Role → Prop} (was : role f = .free)
    (grown : Grown k (taken m rest f words) m' role role' new) : Grown k m m' role role' new := by
  refine ⟨grown.frames, grown.taken, fun g out => ?_, grown.notes⟩
  have other : g ≠ f := role_ne out was
  rw [grown.outside g out]
  exact upd_ne other

theorem untouched_taken {d f : Nat} {rest : List Nat} {words : Nat → Pte} (was : role f = .free)
    (data : Untouched (taken m rest f words) m' (upd role f .hand) d) : Untouched m m' role d := by
  intro g busy other plain
  have here : g ≠ f := by
    rintro rfl
    exact busy was
  have same : upd role f .hand g = role g := upd_ne here
  rw [data g (by rw [same]; exact busy) other (by rw [same]; exact plain)]
  exact upd_ne here

def Zeroed (m : Ram) (role : Nat → Role) (d lo hi : Nat) : Prop :=
  ∀ n, lo ≤ n → n < hi → ∃ f, role f = .page d n ∧ lookup m d n = some (permUser.entry f) ∧ ∀ j, m.word f j = .ofWord 0

theorem alloc_loop_spec {d oldsz newsz : Nat} (user : newsz < 2 ^ 31) (count n : Nat) (frames : Frames k m role)
    (is : role d = .dir) (total : n + count = npages newsz) (low : npages oldsz ≤ n)
    (top : ∀ f n', role f = .page d n' → n' < n) :
    Spec k cond bad pid (allocLoop d oldsz newsz count (n * pgsize)) m fun r m' =>
      (r = newsz ∧ ∃ role', Grown k m m' role role' (Pages d n (npages newsz)) ∧ room m' d = room m d - count ∧
        Kept m m' d n (npages newsz) ∧ Untouched m m' role d ∧ Zeroed m' role' d n (npages newsz)) ∨
      (r = 0 ∧ room m d < count ∧ ∃ role', Undone k m m' role role' d (npages oldsz)) := by
  induction count generalizing m role n with
  | zero =>
    exact .inl ⟨rfl, role, grown_refl frames, by simp, kept_refl m d _ _, untouched_refl m role d,
      fun n' above below => by omega⟩
  | succ count ih =>
    have limit : npages newsz ≤ 2 ^ 19 := by
      unfold npages pgsize
      omega
    have order : oldsz < newsz := by
      by_contra up
      have mono := npages_mono (Nat.le_of_not_lt up)
      omega
    unfold allocLoop
    refine spec_kalloc (fun empty => ?_) fun f rest head => ?_
    · refine Prog.wp_call (undo_spec (by omega) order frames is top (by omega)) ?_
      rintro - m' ⟨role', shrunk, gone, kept⟩
      refine .inr ⟨rfl, ?_, role', undone_of_shrunk shrunk kept gone⟩
      rw [room, empty, List.length_nil]
      omega
    · refine spec_fill ?_
      have same : (({ m with freelist := rest } : Ram).fill f fun _ _ => .ofWord 0) = taken m rest f fun _ => .ofWord 0 := rfl
      obtain ⟨was, frames₁⟩ := taken_frames frames head fun _ => .ofWord 0
      have away : d ≠ f := role_ne is was
      have space := taken_room head (fun _ => .ofWord 0) away
      rw [same, mappages_page _ _ _ _ (by omega)]
      refine Prog.wp_call (map_user frames₁ was is (by omega) (fun g page => absurd (top g n page) (by omega)) permUser) ?_
      rintro r m' (⟨rfl, rfl, full⟩ | ⟨rfl, role', grown, page, space', kept, found, data⟩)
      · have is₁ : upd role f .hand d = .dir := by rw [upd_ne away, is]
        refine Prog.wp_call (undo_spec (n := n) (by omega) order frames₁ is₁ (fun g n' page => ?_) (by omega)) ?_
        · by_cases here : g = f
          · rw [here, upd_self] at page
            cases page
          · rw [upd_ne here] at page
            exact top g n' page
        · rintro - m'' ⟨role'', shrunk, gone, kept⟩
          obtain ⟨managed, undone⟩ := undone_kfree head is frames shrunk kept gone
          refine spec_kfree managed (.inr ⟨rfl, ?_, _, undone⟩)
          push_cast
          omega
      · have whole := grown_taken was grown
        have is' : role' d = .dir := by rw [grown_kept whole (by simp [is]), is]
        have next : n * pgsize + pgsize = (n + 1) * pgsize := by ring
        have mapped₁ := kept_trans (taken_kept frames head is fun _ => .ofWord 0) kept
        have data₁ := untouched_taken was data
        -- f is not written while it is mapped
        have zero : ∀ j, m'.word f j = .ofWord 0 := by
          intro j
          rw [data f (by rw [upd_self]; simp) (Ne.symm away) (by rw [upd_self]; simp)]
          exact congrFun (upd_self m.word f fun _ => .ofWord 0) j
        rw [if_pos rfl, next]
        refine Prog.wp_mono (ih (n + 1) whole.frames is' (by omega) (by omega) fun g n' page' => ?_) ?_
        · rcases grown_page whole page' with old | ⟨-, -, bound⟩
          · exact Nat.lt_succ_of_lt (top g n' old)
          · exact bound
        · rintro r m'' (⟨rfl, role'', later, space'', kept', data', zeroed⟩ | ⟨rfl, full, role'', undone⟩)
          · refine .inl ⟨rfl, role'', grown_trans (grown_mono whole ?_) (grown_mono later ?_), ?_,
              kept_trans (kept_mono mapped₁ (le_refl n) (by omega)) (kept_mono kept' (by omega) (le_refl _)),
              untouched_trans whole data₁ data', fun n' above below => ?_⟩
            · exact fun f r pages => pages_mono pages (le_refl n) (by omega)
            · exact fun f r pages => pages_mono pages (by omega) (le_refl _)
            · rw [space'', space', space]
              push_cast
              ring
            · by_cases here : n' = n
              · rw [here]
                refine ⟨f, by rw [grown_kept later (by simp [page]), page], ?_, fun j => ?_⟩
                · rw [kept'.lookup n (by omega) (.inl (by omega)), found]
                · rw [data' f (by simp [page]) (Ne.symm away) (by simp [page]), zero j]
              · exact zeroed n' (by omega) below
          · refine .inr ⟨rfl, ?_, role'', undone_after whole mapped₁ data₁ undone low (by omega)⟩
            rw [space', space] at full
            push_cast
            omega

structure Allocated (k : Kernel) (m m' : Ram) (role role' : Nat → Role) (d oldsz newsz r : Nat) : Prop
    extends Grown k m m' role role' (Pages d (npages oldsz) (npages r)) where
  size : r = 0 ∨ (r = max oldsz newsz ∧ r ≤ 2 ^ 31)
  small : r ≠ 0 → newsz < 2 ^ 31
  enough : oldsz ≤ newsz → newsz < 2 ^ 31 → (npages newsz - npages oldsz : Int) ≤ room m d →
    r = newsz ∧ room m' d = room m d - (npages newsz - npages oldsz)
  kept : r ≠ 0 → Kept m m' d (npages oldsz) (npages r)
  undone : r = 0 → Kept m m' d (npages oldsz) (2 ^ 19)
  zeroed : Zeroed m' role' d (npages oldsz) (npages r)
  data : Untouched m m' role d

theorem allocuvm_spec {d oldsz newsz : Nat} (user : oldsz ≤ 2 ^ 31) (frames : Frames k m role) (is : role d = .dir)
    (top : ∀ f n, role f = .page d n → n < npages oldsz) :
    Spec k cond bad pid (allocuvm d oldsz newsz) m fun r m' => ∃ role', Allocated k m m' role role' d oldsz newsz r := by
  unfold allocuvm
  by_cases large : newsz ≥ kernbase
  · rw [if_pos large]
    have limit : 2 ^ 31 ≤ newsz := large
    exact ⟨role, grown_refl frames, .inl rfl, fun some_ => absurd rfl some_, fun _ below => by omega,
      fun some_ => absurd rfl some_, fun _ => kept_refl m d _ _, fun n _ below => absurd below (Nat.not_lt_zero n), untouched_refl m role d⟩
  · have below : newsz < 2 ^ 31 := Nat.lt_of_not_le large
    rw [if_neg large]
    by_cases down : newsz < oldsz
    · rw [if_pos down]
      exact ⟨role, grown_refl frames, .inr ⟨by omega, user⟩, fun _ => below, fun up => by omega, fun _ => kept_refl m d _ _,
        fun _ => kept_refl m d _ _, fun n above below => by omega, untouched_refl m role d⟩
    · have mono := npages_mono (Nat.le_of_not_lt down)
      have count : (newsz - npages oldsz * pgsize + pgsize - 1) / pgsize = npages newsz - npages oldsz := by
        unfold npages pgsize
        omega
      rw [if_neg down, pgroundup_eq user, count]
      refine Prog.wp_mono (alloc_loop_spec below _ _ frames is (by omega) (le_refl _) top) ?_
      rintro r m' (⟨rfl, role', grown, space, kept, data, zeroed⟩ | ⟨rfl, full, role', undone⟩)
      · refine ⟨role', grown, .inr ⟨by omega, by omega⟩, fun _ => below, fun _ _ _ => ⟨rfl, ?_⟩, fun _ => kept,
          fun _ => kept_mono kept (le_refl _) (npages_le (by omega)), zeroed, data⟩
        rw [space]
        push_cast [mono]
        ring
      · have data : Untouched m m' role d := fun g busy other plain =>
          undone.data g busy other plain fun n above page => absurd (top g n page) (by omega)
        refine ⟨role', ⟨undone.frames, fun f => ?_, fun f out => ?_, undone.notes⟩, .inl rfl, fun some_ => absurd rfl some_,
          fun _ _ room => ?_, fun some_ => absurd rfl some_, fun _ => undone.kept, fun n _ below => absurd below (Nat.not_lt_zero n), data⟩
        · rcases undone.moved f with same | ⟨free, tbl⟩ | ⟨n, above, page, -⟩
          · exact .inl same
          · exact .inr ⟨free, .inl tbl⟩
          · exact absurd (top f n page) (by omega)
        · refine data f (by simp [out]) ?_ (by simp [out])
          rintro rfl
          rw [is] at out
          cases out
        · push_cast [mono] at full
          omega

def tablesFreed (role : Nat → Role) (d i f : Nat) : Role :=
  match role f with
  | .tbl d' j => if d' = d ∧ j < i then .free else dissolve role d .hand f
  | _ => dissolve role d .hand f

theorem tables_freed_zero (d : Nat) : tablesFreed role d 0 = dissolve role d .hand := by
  funext f
  unfold tablesFreed
  split <;> simp

theorem tables_freed_next (d i f : Nat) :
    tablesFreed role d (i + 1) f = if role f = .tbl d i then .free else tablesFreed role d i f := by
  by_cases here : role f = .tbl d i
  · simp [tablesFreed, here]
  · rw [if_neg here]
    unfold tablesFreed
    split
    · next d' j is =>
        have other : ¬ (d' = d ∧ j = i) := by
          rintro ⟨rfl, rfl⟩
          exact here is
        have same : (d' = d ∧ j < i + 1) ↔ (d' = d ∧ j < i) := by omega
        simp only [same]
    · rfl

theorem free_tables_spec {m₁ : Ram} {d : Nat} (frames₁ : Frames k m₁ role) (is : role d = .dir)
    (count i : Nat) (total : i + count = 1024) (frames : Frames k m (tablesFreed role d i)) (dir : m.word d = m₁.word d)
    (outside : ∀ f, role f = .out → m.word f = m₁.word f) (notes : m.notes = m₁.notes) :
    Spec k cond bad pid (.loop (freeTable d) i count) m fun _ m' => Frames k m' (tablesFreed role d 1024) ∧
      (∀ f, role f = .out → m'.word f = m₁.word f) ∧ m'.notes = m₁.notes := by
  induction count generalizing m i with
  | zero =>
    have done : i = 1024 := by omega
    rw [done] at frames
    exact ⟨frames, outside, notes⟩
  | succ count ih =>
    unfold Prog.loop freeTable
    simp only [Prog.bind_assoc]
    refine spec_read ?_
    rw [dir]
    by_cases present : (m₁.word d i).p = true
    · have table := frames₁.dir d is i (by omega) present
      generalize points : (m₁.word d i).frame = t at table ⊢
      have inHand : tablesFreed role d i t = .hand := by
        simp [tablesFreed, table, dissolve, Role.of]
      have managed := frames₁.managed t (by rw [table]; simp)
      have next : tablesFreed role d (i + 1) = upd (tablesFreed role d i) t .free := by
        funext f
        rw [tables_freed_next]
        by_cases here : f = t
        · rw [here, if_pos table, upd_self]
        · rw [upd_ne here, if_neg]
          intro other
          exact here (((frames₁.tbl f d i other).2.2.2.symm).trans points)
      rw [if_pos present]
      refine spec_kfree managed (ih (i + 1) (by omega) ?_ ?_ ?_ notes)
      · rw [next]
        exact frames_kfree frames (by rw [inHand]; trivial) (by rw [inHand]; simp) managed
      · rw [← dir]
        refine upd_ne ?_
        rintro rfl
        rw [is] at table
        cases table
      · intro f out
        rw [← outside f out]
        refine upd_ne ?_
        rintro rfl
        rw [table] at out
        cases out
    · rw [if_neg present]
      refine ih (i + 1) (by omega) ?_ dir outside notes
      have next : tablesFreed role d (i + 1) = tablesFreed role d i := by
        funext f
        rw [tables_freed_next, if_neg]
        intro table
        exact present (frames₁.tbl f d i table).2.2.1
      rw [next]
      exact frames

theorem freevm_spec (frames : Frames k m role) {d : Nat} (is : role d = .dir) :
    Spec k cond bad pid (freevm d) m fun _ m' => Frames k m' (dissolve role d .free) ∧
      (∀ f, role f = .out → m'.word f = m.word f) ∧ m'.notes = m.notes := by
  unfold freevm
  refine Prog.wp_call (deallocuvm_spec (by decide) frames is) ?_
  rintro r m₁ (⟨impossible, -, -⟩ | ⟨-, -, role₁, shrunk, gone, -⟩)
  · exact absurd impossible (by decide)
  have none : ∀ f n, role₁ f ≠ .page d n := by
    intro f n page
    have above : npages kernbase ≤ n := gone f n page (by rw [show npages 0 = 0 by decide]; exact Nat.zero_le n)
    have below := (shrunk.frames.page f d n page).1
    have all : npages kernbase = 2 ^ 19 := by decide
    omega
  have is₁ : role₁ d = .dir := by
    rw [shrunk_kept shrunk fun n => by rw [is]; simp]
    exact is
  have start := frames_dissolve shrunk.frames d (r := .hand) trivial (by simp)
  rw [← tables_freed_zero] at start
  refine Prog.wp_call (free_tables_spec shrunk.frames is₁ 1024 0 rfl start rfl (fun _ _ => rfl) rfl) ?_
  rintro - m₂ ⟨frames₂, outside, notes⟩
  have last : tablesFreed role₁ d 1024 d = .hand := by simp [tablesFreed, is₁, dissolve, Role.of]
  have managed := shrunk.frames.managed d (by rw [is₁]; simp)
  have final : upd (tablesFreed role₁ d 1024) d .free = dissolve role d .free := by
    funext f
    by_cases here : f = d
    · rw [here, upd_self, dissolve, is]
      simp [Role.of]
    · rw [upd_ne here]
      rcases shrunk.freed f with same | ⟨n, -, page, free⟩
      · cases kind : role f with
        | tbl d' j =>
          have small := (frames.tbl f d' j kind).2.1
          by_cases mine : d' = d <;> simp [tablesFreed, dissolve, Role.of, same, kind, mine, small]
        | page d' n =>
          have other : d' ≠ d := by
            rintro rfl
            exact none f n (same.trans kind)
          simp [tablesFreed, dissolve, Role.of, same, kind, other]
        | dir => simp [tablesFreed, dissolve, Role.of, same, kind, here]
        | _ => simp [tablesFreed, dissolve, Role.of, same, kind]
      · simp [tablesFreed, dissolve, Role.of, page, free]
  refine spec_kfree_last managed ⟨?_, fun f out => ?_, notes.trans shrunk.notes⟩
  · rw [← final]
    exact frames_kfree frames₂ (by rw [last]; trivial) (by rw [last]; simp) managed
  · have out₁ : role₁ f = .out := by rw [shrunk_kept shrunk fun n => by rw [out]; simp, out]
    have other : f ≠ d := role_ne out is
    rw [← shrunk_outside shrunk (.inl out), ← outside f out₁]
    exact upd_ne other

theorem dissolve_new (frames : Frames k m role) {d : Nat} (was : role d = .free)
    (taken : ∀ f, role' f = role f ∨ (role f = .free ∧ (role' f).of d f = true)) : dissolve role' d .free = role := by
  funext f
  rcases taken f with same | ⟨free, mine⟩
  · rw [dissolve, same, none_of_free frames was f]
    rfl
  · rw [dissolve, if_pos mine, free]

theorem freevm_new {d : Nat} (frames : Frames k m role) (was : role d = .free)
    (grown : Grown k m m' role role' fun f r => r.of d f = true) (is : role' d = .dir) :
    Spec k cond bad pid (freevm d) m' fun _ m'' => Failed k m m'' role role := by
  refine Prog.wp_mono (freevm_spec grown.frames is) ?_
  rintro - m'' ⟨frames', outside, notes⟩
  rw [dissolve_new frames was grown.taken] at frames'
  refine failed_clean frames' (fun f out => ?_) (notes.trans grown.notes)
  rw [outside f (by rw [grown_kept grown (by simp [out]), out]), grown.outside f out]

theorem pages_of {d lo hi f : Nat} {r : Role} (pages : Pages d lo hi f r) : r.of d f = true := by
  rcases pages with ⟨i, rfl⟩ | ⟨n, -, -, rfl⟩ <;> simp [Role.of]

end Xv6.Vm
