import Xv6.Vm.Uvm

set_option autoImplicit false

namespace Xv6.Vm

variable {k : Kernel} {m m' m'' : Ram} {role role' role'' : Nat → Role} {cond : Event RamOp Ram → Prop}
  {bad : String → Prop} {pid : Nat}

-- A page directory whose kernel part user code has no access to.
structure Directory (k : Kernel) (m : Ram) (role : Nat → Role) (d : Nat) : Prop where
  frames : Frames k m role
  dir : role d = .dir
  supervisor : ∀ n, 2 ^ 19 ≤ n → n < 2 ^ 20 → ∀ e, lookup m d n = some e → e.u = false

structure Space (k : Kernel) (m : Ram) (role : Nat → Role) (d sz : Nat) : Prop where
  frames : Frames k m role
  dir : role d = .dir
  top : ∀ f n, role f = .page d n → n < npages sz
  full : ∀ n < npages sz, ∃ f, role f = .page d n
  limit : sz ≤ 2 ^ 31
  supervisor : ∀ n, 2 ^ 19 ≤ n → n < 2 ^ 20 → ∀ e, lookup m d n = some e → e.u = false

theorem Space.directory {d sz : Nat} (space : Space k m role d sz) : Directory k m role d :=
  ⟨space.frames, space.dir, space.supervisor⟩

-- Only the contents of user pages, or flags of their entries, changed.
structure Rewritten (k : Kernel) (m m' : Ram) (role : Nat → Role) (d : Nat) : Prop where
  frames : Frames k m' role
  outside : ∀ f, role f = .out → m'.word f = m.word f
  notes : m'.notes = m.notes
  kept : Kept m m' d 0 (2 ^ 19)

theorem rewritten_refl {d : Nat} (frames : Frames k m role) : Rewritten k m m role d :=
  ⟨frames, fun _ _ => rfl, rfl, kept_refl m d _ _⟩

theorem rewritten_trans {d : Nat} (first : Rewritten k m m' role d) (second : Rewritten k m' m'' role d) :
    Rewritten k m m'' role d :=
  ⟨second.frames, fun f out => (second.outside f out).trans (first.outside f out), second.notes.trans first.notes,
    kept_trans first.kept second.kept⟩

theorem grown_of_rewritten {d : Nat} {new : Nat → Role → Prop} (rewritten : Rewritten k m m' role d) :
    Grown k m m' role role new :=
  ⟨rewritten.frames, fun _ => .inl rfl, rewritten.outside, rewritten.notes⟩

theorem space_rewritten {d sz : Nat} (space : Space k m role d sz) (rewritten : Rewritten k m m' role d) :
    Space k m' role d sz := by
  refine ⟨rewritten.frames, space.dir, space.top, space.full, space.limit, fun n low high e found => ?_⟩
  rw [rewritten.kept.lookup n high (.inr low)] at found
  exact space.supervisor n low high e found

theorem space_allocated {d oldsz newsz r : Nat} (space : Space k m role d oldsz)
    (allocated : Allocated k m m' role role' d oldsz newsz r) (some_ : r ≠ 0) : Space k m' role' d r := by
  obtain ⟨size, limit⟩ := allocated.size.resolve_left some_
  have mono := npages_mono (show oldsz ≤ r by omega)
  refine ⟨allocated.frames, ?_, fun f n page => ?_, fun n below => ?_, limit, fun n low high e found => ?_⟩
  · rw [grown_kept allocated.toGrown (by simp [space.dir]), space.dir]
  · rcases grown_page allocated.toGrown page with old | ⟨-, -, bound⟩
    · exact (space.top f n old).trans_le mono
    · exact bound
  · by_cases old : n < npages oldsz
    · obtain ⟨f, page⟩ := space.full n old
      exact ⟨f, by rw [grown_kept allocated.toGrown (by simp [page]), page]⟩
    · obtain ⟨f, page, -⟩ := allocated.zeroed n (by omega) below
      exact ⟨f, page⟩
  · rw [(allocated.kept some_).lookup n high (.inr (by have := npages_le limit; omega))] at found
    exact space.supervisor n low high e found

theorem space_rounded {d sz : Nat} (space : Space k m role d sz) : Space k m role d (pgroundup sz) := by
  have limit := space.limit
  have rounded := pgroundup_eq limit
  have pages : npages (pgroundup sz) = npages sz := by
    rw [rounded]
    unfold npages pgsize
    omega
  refine ⟨space.frames, space.dir, ?_, ?_, ?_, space.supervisor⟩
  · rw [pages]
    exact space.top
  · rw [pages]
    exact space.full
  · rw [rounded]
    unfold npages pgsize
    omega

theorem space_fresh {d : Nat} (fresh : Fresh k m m' role role' d) : Space k m' role' d 0 := by
  refine ⟨fresh.frames, fresh.dir, fun f n page => absurd page (fresh.unmapped f n),
    fun n below => absurd below (Nat.not_lt_zero n), Nat.zero_le _, fun n low high e found => ?_⟩
  rw [fresh.kernel n high] at found
  exact kernel_map_supervisor found

theorem kept_fill {d f d' n lo hi : Nat} (frames : Frames k m role) (is : role d = .dir) (page : role f = .page d' n)
    (words : Nat → Pte → Pte) : (m.fill f words).word d = m.word d ∧ Kept m (m.fill f words) d lo hi := by
  have other : f ≠ d := role_ne page is
  exact ⟨fill_ne _ _ (Ne.symm other), kept_other frames _ _ is other (by simp [page]) fun g away => fill_ne _ _ away⟩

theorem rewritten_fill {d f d' n : Nat} (frames : Frames k m role) (is : role d = .dir) (page : role f = .page d' n)
    (words : Nat → Pte → Pte) : Rewritten k m (m.fill f words) role d := by
  refine ⟨frames_fill frames (.inr ⟨d', n, page⟩) words, fun g out => fill_ne _ _ ?_, rfl, (kept_fill frames is page words).2⟩
  rintro rfl
  rw [page] at out
  cases out

theorem rewritten_entry {d t n : Nat} {e : Pte} (frames : Frames k m role) (table : role t = .tbl d (n / 1024))
    (user : n < 2 ^ 19) (same : e.p = (m.word t (n % 1024)).p ∧ e.frame = (m.word t (n % 1024)).frame) :
    Rewritten k m (m.setWord t (n % 1024) e) role d := by
  have is := (frames.tbl t d _ table).1
  have away : d ≠ t := role_ne is table
  refine ⟨frames_entry frames table fun _ => same, fun f out => set_word_frame _ _ _ ?_, rfl,
    fun j _ _ => by rw [set_word_frame _ _ _ away], fun n' bound outside => ?_⟩
  · exact role_ne out table
  · rw [lookup_set_word frames table bound, if_neg (by omega)]

theorem pdx_eq {va : Nat} (bound : va < 2 ^ 32) : pdx va = va / 4096 / 1024 := by
  unfold pdx
  omega

theorem ptx_eq (va : Nat) : ptx va = va / 4096 % 1024 := by
  unfold ptx
  omega

def onePage (first : Pte) : Ram where
  freelist := []
  word f i :=
    match f, i with
    | 1000, 0 => permUser.entry 1001
    | 1001, 0 => permUser.entry 1002
    | 1002, 0 => first
    | _, _ => .ofWord 0
  notes := []

def onePageRole : Nat → Role
  | 1000 => .dir
  | 1001 => .tbl 1000 0
  | 1002 => .page 1000 0
  | _ => .out

theorem one_page_role (f : Nat) : (f = 1000 ∧ onePageRole f = .dir) ∨ (f = 1001 ∧ onePageRole f = .tbl 1000 0) ∨
    (f = 1002 ∧ onePageRole f = .page 1000 0) ∨ onePageRole f = .out := by
  unfold onePageRole
  split
  · exact .inl ⟨rfl, rfl⟩
  · exact .inr (.inl ⟨rfl, rfl⟩)
  · exact .inr (.inr (.inl ⟨rfl, rfl⟩))
  · exact .inr (.inr (.inr rfl))

theorem one_page_entry (first : Pte) {f i : Nat} (table : f = 1000 ∨ f = 1001) (present : ((onePage first).word f i).p = true) :
    i = 0 := by
  by_contra other
  have empty : (onePage first).word f i = .ofWord 0 := by
    rcases table with rfl | rfl
    · cases i with
      | zero => exact absurd rfl other
      | succ i => rfl
    · cases i with
      | zero => exact absurd rfl other
      | succ i => rfl
  rw [empty] at present
  cases present

theorem one_page_frames (first : Pte) : Frames linked (onePage first) onePageRole := by
  refine ⟨List.nodup_nil, fun f => ?_, fun f used => ?_, fun d is i _ present => ?_, fun t d i is => ?_,
    fun t d i is _ j _ present => ?_, fun f d n is => ?_⟩
  · rcases one_page_role f with ⟨-, role_⟩ | ⟨-, role_⟩ | ⟨-, role_⟩ | role_ <;> simp [onePage, role_]
  · rcases one_page_role f with ⟨rfl, -⟩ | ⟨rfl, -⟩ | ⟨rfl, -⟩ | out
    · decide
    · decide
    · decide
    · exact absurd out used
  · rcases one_page_role d with ⟨rfl, -⟩ | ⟨-, role_⟩ | ⟨-, role_⟩ | role_
    · rw [one_page_entry first (.inl rfl) present]
      rfl
    all_goals
      rw [is] at role_
      cases role_
  · rcases one_page_role t with ⟨-, role_⟩ | ⟨rfl, role_⟩ | ⟨-, role_⟩ | role_ <;> rw [is] at role_ <;> cases role_
    exact ⟨rfl, by decide, rfl, rfl⟩
  · rcases one_page_role t with ⟨-, role_⟩ | ⟨rfl, role_⟩ | ⟨-, role_⟩ | role_ <;> rw [is] at role_ <;> cases role_
    rw [one_page_entry first (.inr rfl) present]
    rfl
  · rcases one_page_role f with ⟨-, role_⟩ | ⟨-, role_⟩ | ⟨rfl, role_⟩ | role_ <;> rw [is] at role_ <;> cases role_
    exact ⟨by decide, 1001, rfl, rfl, rfl⟩

theorem one_page_lookup (first : Pte) (n : Nat) : lookup (onePage first) 1000 n = if n = 0 then some (permUser.entry 1002) else none := by
  by_cases zero : n = 0
  · rw [if_pos zero, zero]
    rfl
  · rw [if_neg zero, lookup]
    by_cases present : ((onePage first).word 1000 (n / 1024)).p = true
    · have low := one_page_entry first (.inl rfl) present
      have other : ((onePage first).word 1001 (n % 1024)).p = false := by
        rw [Bool.eq_false_iff]
        intro there
        have index := one_page_entry first (.inr rfl) there
        omega
      rw [low]
      exact if_neg (by rw [Bool.and_eq_true, not_and]; exact fun _ => Bool.eq_false_iff.mp other)
    · rw [Bool.eq_false_iff.mpr present]
      rfl

end Xv6.Vm
