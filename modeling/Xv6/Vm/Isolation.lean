import Xv6.Vm.Calls

set_option autoImplicit false

namespace Xv6.Vm

variable {k : Kernel} {t t' : Tables} {m m' m'' : Ram} {role role' role'' : Nat → Role} {cond : Event RamOp Ram → Prop}
  {bad : String → Prop} {pid : Nat}

def freed (role : Nat → Role) (first count f : Nat) : Role := if first ≤ f ∧ f < first + count then .free else role f

theorem freed_next (first count : Nat) : freed (upd role first .free) (first + 1) count = freed role first (count + 1) := by
  funext f
  unfold freed
  by_cases here : f = first
  · rw [if_neg (by omega), if_pos (by omega), here, upd_self]
  · rw [upd_ne here]
    have same : (first + 1 ≤ f ∧ f < first + 1 + count) ↔ (first ≤ f ∧ f < first + (count + 1)) := by omega
    simp only [same]

theorem freerange_spec (count first : Nat) (frames : Frames k m role)
    (unused : ∀ f, first ≤ f → f < first + count → role f = .out ∧ k.managed f) :
    Spec k cond bad pid (freerange first count) m fun _ m' => Frames k m' (freed role first count) ∧
      m'.freelist.length = m.freelist.length + count ∧ m'.notes = m.notes := by
  unfold freerange
  induction count generalizing m role first with
  | zero =>
    have same : freed role first 0 = role := by
      funext f
      exact if_neg (by omega)
    rw [same]
    exact ⟨frames, rfl, rfl⟩
  | succ count ih =>
    obtain ⟨out, managed⟩ := unused first (le_refl first) (by omega)
    have frames₁ := frames_kfree frames (by rw [out]; trivial) (by simp [out]) managed
    refine spec_kfree managed (Prog.wp_mono (ih (first + 1) frames₁ fun f low high => ?_) ?_)
    · rw [upd_ne (by omega)]
      exact unused f (by omega) (by omega)
    · rintro - m' ⟨frames', length, notes⟩
      rw [freed_next] at frames'
      refine ⟨frames', ?_, notes⟩
      rw [length, Ram.kfree, List.length_cons]
      omega

theorem startothers_spec (count i : Nat) (frames : Frames k m role) (safe : ∀ msg, bad msg → count = 0) :
    Spec k cond bad pid (.loop (fun _ => startother) i count) m fun _ m' =>
      ∃ role', Grown k m m' role role' fun _ r => r = .hand := by
  induction count generalizing m role i with
  | zero => exact ⟨role, grown_refl frames⟩
  | succ count ih =>
    have harmless : ∀ msg, ¬ bad msg := fun msg isBad => Nat.succ_ne_zero count (safe msg isBad)
    refine spec_kalloc (fun _ => harmless _) fun f rest head => ?_
    obtain ⟨was, frames'⟩ := frames_alloc frames head
    have taken : Grown k m { m with freelist := rest } role (upd role f .hand) fun _ r => r = .hand := by
      refine ⟨frames', fun g => ?_, fun _ _ => rfl, rfl⟩
      by_cases here : g = f
      · rw [here, upd_self]
        exact .inr ⟨was, rfl⟩
      · exact .inl (upd_ne here)
    refine Prog.wp_mono (ih (i + 1) frames' fun msg isBad => absurd isBad (harmless msg)) ?_
    rintro - m' ⟨role', grown⟩
    exact ⟨role', grown_trans taken grown⟩

theorem inituvm_spec {d sz : Nat} (init : Nat → UInt8) (small : sz < pgsize) (frames : Frames k m role) (is : role d = .dir)
    (unmapped : ∀ f n, role f ≠ .page d n) (safe : ∀ msg, bad msg → 1 ≤ room m d) :
    Spec k cond bad pid (inituvm d init sz) m fun _ m' => ∃ role',
      Grown k m m' role role' (fun f r => Pages d 0 1 f r ∨ r = .hand) ∧
      (1 ≤ room m d → room m' d = room m d - 1 ∧ ∃ f, lookup m' d 0 = some (permUser.entry f)) := by
  unfold inituvm
  rw [if_neg (Nat.not_le.mpr small)]
  refine spec_kalloc (fun empty isBad => ?_) fun f rest head => spec_fill ?_
  · have some_ := safe _ isBad
    rw [room, empty, List.length_nil] at some_
    omega
  · obtain ⟨was, frames₁⟩ := taken_frames frames head fun _ => .ofWord 0
    have same : ({ m with freelist := rest } : Ram).fill f (fun _ _ => .ofWord 0) = taken m rest f fun _ => .ofWord 0 := rfl
    have away : d ≠ f := role_ne is was
    have space := taken_room head (fun _ => .ofWord 0) away
    have map : mappages d 0 pgsize (f * pgsize) permUser = mapPage d (0 * pgsize) (f * pgsize) permUser := by
      rw [← mappages_page d 0 _ permUser (by omega), Nat.zero_mul]
    rw [same, map]
    refine Prog.wp_call (map_user frames₁ was is (by omega) (fun g => unmapped g 0) permUser) ?_
    rw [← Prog.bind_unit (memmove f 0 init sz)]
    rintro r m' (⟨-, rfl, full⟩ | ⟨-, role', grown, page, space', -, found, -⟩)
    · refine spec_fill ⟨upd role f .hand, ⟨frames_fill frames₁ (.inl (by rw [upd_self]; trivial)) _, fun g => ?_,
        fun g out => ?_, rfl⟩, fun enough => by omega⟩
      · by_cases here : g = f
        · rw [here, upd_self]
          exact .inr ⟨was, .inr rfl⟩
        · exact .inl (upd_ne here)
      · have other : g ≠ f := role_ne out was
        rw [fill_ne _ _ other]
        exact upd_ne other
    · have whole := grown_taken was grown
      have isDir : role' d = .dir := by rw [grown_kept whole (by simp [is]), is]
      have filled := rewritten_fill grown.frames isDir page (moved 0 sz init)
      have kept : _ ∧ Kept m' (m'.fill f (moved 0 sz init)) d 0 0 := kept_fill grown.frames isDir page _
      refine spec_fill ⟨role', grown_trans (grown_mono whole fun g r pages => .inl pages) (grown_of_rewritten filled),
        fun _ => ⟨?_, f, ?_⟩⟩
      · rw [room, absent, kept.1]
        exact space'.trans space
      · rw [kept.2.lookup 0 (by omega) (.inr (le_refl 0)), found]

theorem power_on_frames (k : Kernel) (word : Nat → Nat → Pte) : Frames k (powerOn word) fun _ => .out := by
  refine ⟨List.nodup_nil, fun f => ?_, fun f used => absurd rfl used, fun d is => ?_, fun t d i is => ?_, fun t d i is => ?_,
    fun f d n is => ?_⟩
  · simp [powerOn]
  all_goals cases is

theorem managed_low (k : Kernel) {f : Nat} (low : k.first ≤ f) (high : f < 0xE000) : k.managed f := by
  have text := k.text
  have order := k.order
  unfold Kernel.first at low
  unfold Kernel.managed
  simp only [kernlink, kernbase, extmem, pgsize, phystop] at *
  omega

theorem owned_no_tables {d : Nat} (frames : Frames k m role) (is : role d = .dir) : Owned k (noTables d) m role := by
  have roots : ∀ d' owner, (noTables d).Root d' owner → owner = none ∧ d' = d := by
    intro d' owner root
    cases owner with
    | none => exact ⟨rfl, root.symm⟩
    | some q => exact absurd rfl root.1.1
  refine ⟨frames, fun d' owner root => ?_, fun d' owner owner' root root' => ?_, fun q d' root => ?_, fun q f stack => ?_,
    fun i f pipe => ?_, fun i j f pipe => ?_, fun i _ => rfl⟩
  · rw [(roots d' owner root).2]
    exact is
  · rw [(roots d' owner root).1, (roots d' owner' root').1]
  · cases (roots d' _ root).1
  · cases stack
  · cases pipe
  · cases pipe

structure Booted (k : Kernel) (t : Tables) (m : Ram) (role : Nat → Role) (p d : Nat) : Prop where
  owned : Owned k t m role
  slot : p < nproc
  state : (t.ptable.proc p).state = .runnable
  dir : t.pgdir p = some d
  size : t.sz p = pgsize
  notes : m.notes = []

theorem userinit_spec {kpgdir : Nat} (initcode : Initcode) (frames : Frames k m role) (is : role kpgdir = .dir)
    (notes : m.notes = []) (safe : ∀ msg, bad msg → 1000 ≤ m.freelist.length) :
    Spec k cond bad pid (userinit k (noTables kpgdir) initcode) m fun t' m' => ∃ role' p d, Booted k t' m' role' p d ∧
      (1000 ≤ m.freelist.length → room m' d = m.freelist.length - 579 ∧ ∃ f, lookup m' d 0 = some (permUser.entry f)) := by
  unfold userinit
  refine Prog.wp_call (allocproc_spec (owned_no_tables frames is)) ?_
  rintro ⟨t₁, found⟩ m₁ (⟨none, rfl, -, why⟩ | ⟨np, f, rest, some_, was, head, rfl, search, shape, owned₁⟩)
  · simp only at none
    subst none
    refine spec_panic fun isBad => ?_
    have many := safe _ isBad
    rcases why with full | empty
    · cases full
    · rw [empty] at many
      cases many
  simp only at some_ shape owned₁
  subst some_
  obtain ⟨slot, -, entry⟩ := Ptable.allocproc_some _ search
  have length : m.freelist.length = rest.length + 1 := by rw [head, List.length_cons]
  refine Prog.wp_call (setupkvm_spec owned₁.frames) ?_
  rintro r m₂ (⟨rfl, few, -⟩ | ⟨d, role₂, rfl, fresh⟩)
  · refine spec_panic fun isBad => ?_
    have many := safe _ isBad
    simp only at few
    omega
  have owned₂ := owned_grown owned₁ fresh.was fresh.toGrown
  have space : room m₂ d = rest.length - 577 := fresh.room
  refine Prog.wp_call (inituvm_spec initcode.byte initcode.small fresh.frames fresh.dir fresh.unmapped fun msg isBad => ?_) ?_
  · have many := safe _ isBad
    omega
  rintro - m₃ ⟨role₃, grown, enough⟩
  have busy : ∀ g, t₁.Refers g → role₃ g = role₂ g := fun g refers => grown_kept grown (refers_busy owned₂ refers)
  have free : ∀ owner, ¬ t₁.Root d owner := by
    intro owner root
    have other := owned₁.root d owner root
    rw [fresh.was] at other
    cases other
  -- the page of the new directory is the only one added
  have added : ∀ g d' n, role₃ g = .page d' n → role₂ g = .page d' n ∨ (d' = d ∧ n = 0) := by
    intro g d' n page
    rcases grown.taken g with same | ⟨-, (⟨i, tbl⟩ | ⟨n', -, low, new⟩) | hand⟩
    · exact .inl (same ▸ page)
    · rw [page] at tbl
      cases tbl
    · rw [page] at new
      cases new
      exact .inr ⟨rfl, by omega⟩
    · rw [page] at hand
      cases hand
  have owned₃ : Owned k t₁ m₃ role₃ := by
    refine ⟨grown.frames, fun d' owner root => ?_, owned₂.apart, fun q d' root => ?_, fun q g stack => ?_, fun i g pipe => ?_,
      owned₂.once, owned₂.closed⟩
    · rw [busy d' (.inl ⟨owner, root⟩)]
      exact owned₂.root d' owner root
    · refine ⟨(owned₂.size q d' root).1, fun g n page => ?_⟩
      rcases added g d' n page with old | ⟨rfl, -⟩
      · exact (owned₂.size q d' root).2 g n old
      · exact absurd root (free _)
    · rw [busy g (.inr (.inl ⟨q, stack⟩))]
      exact owned₂.stack q g stack
    · rw [busy g (.inr (.inr ⟨i, pipe⟩))]
      exact owned₂.pipe i g pipe
  have isDir : role₃ d = .dir := by rw [grown_kept grown (by simp [fresh.dir]), fresh.dir]
  have one : npages pgsize = 1 := rfl
  have named := owned_labels owned₃ (upd t₁.tf np ⟨0, pgsize⟩) (upd t₁.name np (nameOf "initcode".toUTF8.toList))
  have booted := owned_new_root np pgsize { (t₁.ptable.setState np .runnable) with initproc := np } named isDir free
    (by decide) (fun g n page => ?_) fun q other now => ?_
  · refine ⟨role₃, np, d, ⟨booted, slot, ?_, upd_self _ _ _, upd_self _ _ _, ?_⟩, fun many => ?_⟩
    · simp [Tables.setPgdir, Tables.setSz, Tables.setState, Ptable.setState]
    · rw [grown.notes, fresh.notes]
      exact notes
    · obtain ⟨space', found⟩ := enough (by omega)
      exact ⟨by omega, found⟩
  · rw [one]
    rcases added g d n page with old | ⟨-, rfl⟩
    · exact absurd old (fresh.unmapped g n)
    · exact Nat.zero_lt_one
  · simpa only [Tables.live, Ptable.setState, Ptable.set_ne _ _ other] using now

theorem boot_spec (others : Nat) (initcode : Initcode) (word : Nat → Nat → Pte)
    (safe : ∀ msg, bad msg → k.first ≤ 400 ∧ others = 0) :
    Spec k cond bad pid (boot k others initcode) (powerOn word) fun t m => ∃ role p d, Booted k t m role p d ∧
      (others = 0 → 55000 ≤ room m d ∧ ∃ f, lookup m d 0 = some (permUser.entry f)) := by
  unfold boot
  refine Prog.wp_call (freerange_spec (1024 - k.first) k.first (power_on_frames k word) fun f above below => ?_) ?_
  · exact ⟨rfl, managed_low k above (by omega)⟩
  rintro - m₁ ⟨frames₁, length₁, notes₁⟩
  refine Prog.wp_call (setupkvm_spec frames₁) ?_
  rintro r m₂ (⟨rfl, few, -⟩ | ⟨kpgdir, role₂, rfl, fresh⟩)
  · refine spec_panic fun isBad => ?_
    have small := (safe _ isBad).1
    omega
  -- there is no free frame before kinit2 unless the kernel ends below 4 MB
  have low : k.first < 1024 := by
    by_contra above
    have none : freed (fun _ => Role.out) k.first (1024 - k.first) kpgdir = .out := if_neg (by omega)
    have was := fresh.was
    rw [none] at was
    cases was
  refine Prog.wp_call (startothers_spec others 0 fresh.frames fun msg isBad => (safe msg isBad).2) ?_
  rintro - m₃ ⟨role₃, grown⟩
  have outside : ∀ f, 1024 ≤ f → role₃ f = .out := by
    intro f high
    have first : freed (fun _ => Role.out) k.first (1024 - k.first) f = .out := if_neg (by omega)
    have second : role₂ f = .out := by rw [grown_kept fresh.toGrown (by simp [first]), first]
    rw [grown_kept grown (by simp [second]), second]
  refine Prog.wp_call (freerange_spec (phystop / pgsize - 1024) 1024 grown.frames fun f above below => ?_) ?_
  · refine ⟨outside f above, managed_low k (by omega) ?_⟩
    simp only [phystop, pgsize] at below
    omega
  rintro - m₄ ⟨frames₄, length₄, notes₄⟩
  have size : phystop / pgsize - 1024 = 56320 := by decide
  rw [size] at frames₄ length₄
  have isDir₃ : role₃ kpgdir = .dir := by rw [grown_kept grown (by simp [fresh.dir]), fresh.dir]
  have isDir : freed role₃ 1024 56320 kpgdir = .dir := by
    refine (if_neg fun inside => ?_).trans isDir₃
    rw [outside kpgdir inside.1] at isDir₃
    cases isDir₃
  have notes : m₄.notes = [] := by
    rw [notes₄, grown.notes, fresh.notes, notes₁]
    rfl
  refine Prog.wp_mono (userinit_spec initcode frames₄ isDir notes fun _ _ => by omega) ?_
  rintro t m ⟨role, p, d, booted, more⟩
  refine ⟨role, p, d, booted, fun _ => ?_⟩
  obtain ⟨space, found⟩ := more (by omega)
  exact ⟨by omega, found⟩

theorem boots_owned {s : State} (boots : Boots k WalkFound s) : ∃ role, Owned k s.tables s.ram role := by
  obtain ⟨others, initcode, word, done⟩ := boots
  have spec : Spec k WalkFound (fun _ => False) 0 (boot k others initcode) (powerOn word) _ :=
    boot_spec others initcode word fun _ isBad => isBad.elim
  obtain ⟨role, p, d, booted, -⟩ := Prog.wp_completes spec done
  exact ⟨role, booted.owned⟩

theorem calls_owned {s s' : State} (calls : Calls k WalkFound s s') (owned : Owned k s.tables s.ram role) :
    ∃ role', Owned k s'.tables s'.ram role' := by
  obtain ⟨p, -, alive, call, r, done⟩ := calls
  have spec : Spec k WalkFound (fun _ => False) p (perform k s.tables p call) s.ram _ :=
    perform_spec (fun _ => id) (fun _ _ => id) owned (alive_live alive) call
  exact Prog.wp_completes spec done

theorem reached_owned {s : State} (reached : Reached k WalkFound s) : ∃ role, Owned k s.tables s.ram role := by
  obtain ⟨first, boots, calls⟩ := reached
  induction calls with
  | refl => exact boots_owned boots
  | tail _ last ih =>
    obtain ⟨role, owned⟩ := ih
    exact calls_owned last owned

theorem spec_cur_some {α : Type} {Q : α → Ram → Prop} {p d : Nat} {next : Nat → RamM α} (dir : t.pgdir p = some d)
    (rest : Spec k cond bad pid (next d) m Q) : Spec k cond bad pid (curPgdir t p >>= next) m Q := by
  unfold curPgdir
  rw [dir]
  exact rest

structure Large (k : Kernel) (t : Tables) (m : Ram) (role : Nat → Role) (p d : Nat) : Prop where
  owned : Owned k t m role
  slot : p < nproc
  state : (t.ptable.proc p).state = .runnable
  dir : t.pgdir p = some d
  size : t.sz p = 0x2004000
  notes : m.notes = []
  room : 40000 ≤ room m d
  high : ∃ f, role f = .page d 8192
  low : ∃ f, lookup m d 0 = some (permUser.entry f)

theorem sbrk_large {p d : Nat} (booted : Booted k t m role p d) (space : 55000 ≤ room m d)
    (low : ∃ f, lookup m d 0 = some (permUser.entry f)) :
    Spec k cond bad pid (perform k t p (.sbrk 0x2003000)) m fun r m' => ∃ role', Large k r.1 m' role' p d := by
  have live : t.live p := alive_live (by rw [booted.state]; rfl)
  have root : t.Root d (some p) := ⟨live, booted.dir⟩
  have is := booted.owned.root d _ root
  obtain ⟨limit, top⟩ := booted.owned.size p d root
  have newsz : addInt (t.sz p) 0x2003000 = 0x2004000 := by rw [booted.size]; decide
  have small : npages (t.sz p) = 1 := by rw [booted.size]; rfl
  have large : npages 0x2004000 = 8196 := rfl
  have grow : Spec k cond bad pid (growproc t p 0x2003000) m fun r m' => ∃ role', Large k r.1 m' role' p d := by
    unfold growproc
    refine spec_cur_some booted.dir ?_
    rw [if_pos (by decide), newsz]
    refine Prog.wp_call (allocuvm_spec limit booted.owned.frames is top) ?_
    rintro r m' ⟨role', allocated⟩
    obtain ⟨rfl, space'⟩ := allocated.enough (by rw [booted.size]; decide) (by decide) (by rw [small, large]; omega)
    have kept := (allocated.kept (by decide)).lookup 0 (by decide) (.inl (by rw [small]; decide))
    obtain ⟨f, found⟩ := low
    rw [if_neg (by decide)]
    refine ⟨role', owned_allocated booted.owned root allocated (by decide), booted.slot, booted.state, booted.dir, upd_self _ _ _,
      allocated.notes.trans booted.notes, ?_, ?_, f, kept.trans found⟩
    · rw [space', small, large]
      omega
    · obtain ⟨g, page, -⟩ := allocated.zeroed 8192 (by rw [small]; decide) (by rw [large]; decide)
      exact ⟨g, page⟩
  exact Prog.wp_call grow fun _ _ large => large

def noCode : Initcode := ⟨fun _ => 0, 0, by decide⟩

theorem large_reached (small : k.first ≤ 400) : ∃ t m role p d, Reached k WalkFound ⟨t, m⟩ ∧ Large k t m role p d := by
  have boots : Spec k (fun _ => True) (fun _ => True) 0 (boot k 0 noCode) (powerOn fun _ _ => .ofWord 0) _ :=
    boot_spec 0 noCode (fun _ _ => .ofWord 0) fun _ _ => ⟨small, rfl⟩
  obtain ⟨t, m, done, role, p, d, booted, more⟩ := Prog.wp_total exec_ready boots
  obtain ⟨space, low⟩ := more rfl
  have sbrk : Spec k (fun _ => True) (fun _ => True) p (perform k t p (.sbrk 0x2003000)) m _ := sbrk_large booted space low
  obtain ⟨⟨t', r⟩, m', done', role', large⟩ := Prog.wp_total exec_ready sbrk
  have first : Boots k WalkFound ⟨t, m⟩ := ⟨0, _, _, completes_quiet done rfl booted.notes⟩
  have alive : (t.ptable.proc p).state.alive = true := by
    rw [booted.state]
    rfl
  have next : Calls k WalkFound ⟨t, m⟩ ⟨t', m'⟩ :=
    ⟨p, booted.slot, alive, _, r, completes_quiet done' booted.notes large.notes⟩
  exact ⟨t', m', role', p, d, ⟨_, first, .single next⟩, large⟩

theorem linked_first : linked.first ≤ 400 := by decide

theorem pages_exclusive (k : Kernel) (s : State) (reached : Reached k WalkFound s) : Exclusive k s := by
  obtain ⟨role, owned⟩ := reached_owned reached
  exact exclusive_of_owned owned

theorem pages_exclusive_grown : ∃ s, Reached linked WalkFound s ∧ s.ram.freelist ≠ [] ∧ Exclusive linked s := by
  obtain ⟨t, m, role, p, d, reached, large⟩ := large_reached linked_first
  refine ⟨⟨t, m⟩, reached, fun empty => ?_, pages_exclusive linked ⟨t, m⟩ reached⟩
  have space := large.room
  rw [room, empty, List.length_nil] at space
  omega

end Xv6.Vm
