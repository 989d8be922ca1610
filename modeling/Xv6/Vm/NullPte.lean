import Xv6.Vm.Isolation

set_option autoImplicit false

namespace Xv6.Vm

variable {k : Kernel} {t : Tables} {m m' m'' : Ram} {role : Nat → Role} {cond : Event RamOp Ram → Prop}
  {bad : String → Prop} {pid : Nat}

-- The word at address 0 of p reads as an entry for pgtab, the page table of its last pages.
structure Armed (k : Kernel) (t : Tables) (m : Ram) (role : Nat → Role) (p d first f pgtab : Nat) : Prop where
  slot : p < nproc
  state : (t.ptable.proc p).state = .runnable
  dir : t.pgdir p = some d
  size : t.sz p = 0x2004000
  frames : Frames k m role
  outside : ∀ g, g = d ∨ g = first ∨ g = f ∨ g = pgtab → role g = .out
  apart : pgtab ≠ d
  pde : (m.word d 0).p = true ∧ (m.word d 0).frame = first
  pte : (m.word first 0).p = true ∧ (m.word first 0).frame = f
  word : m.word f 0 = permUser.entry pgtab
  high : (m.word d 8).p = true ∧ (m.word d 8).frame = pgtab

theorem lookup_some {d n : Nat} {e : Pte} (found : lookup m d n = some e) :
    (m.word d (n / 1024)).p = true ∧ m.word (m.word d (n / 1024)).frame (n % 1024) = e ∧ e.p = true := by
  unfold lookup at found
  split at found
  · next present =>
      obtain ⟨pde, pte⟩ := Bool.and_eq_true_iff.mp present
      cases found
      exact ⟨pde, rfl, pte⟩
  · cases found

theorem of_word_entry (f : Nat) : Pte.ofWord (f * 4096 + 7) = permUser.entry f := by
  unfold Pte.ofWord Perm.entry pgsize
  congr 1
  · omega
  · simp only [decide_eq_true_eq]
    omega
  · simp only [decide_eq_true_eq]
    omega
  · simp only [decide_eq_true_eq]
    omega
  · apply Fin.ext
    simp only [Fin.val_zero]
    omega

theorem store_first {p d f w : Nat} (dir : t.pgdir p = some d) (pde : (m.word d 0).p = true)
    (pte : m.word (m.word d 0).frame 0 = permUser.entry f) :
    Spec k cond bad pid (store t p 0 w) m fun _ m' => m' = m.setWord f 0 (.ofWord w) := by
  unfold store
  refine spec_cur_some dir ?_
  rw [if_neg (by decide)]
  refine spec_read ?_
  rw [show pdx 0 = 0 from rfl, pde]
  refine spec_read ?_
  rw [show ptx 0 = 0 from rfl, pte]
  rw [← Prog.bind_unit (write _ _ _)]
  exact spec_write rfl

theorem store_armed {p d : Nat} (large : Large k t m role p d) :
    ∃ w, Spec k cond bad pid (perform k t p (.store 0 w)) m fun r m' => r.1 = t ∧ 2000 ≤ m'.freelist.length ∧
      (∀ n < 2 ^ 20, lookup m' d n = lookup m d n) ∧ ∃ first f pgtab, Armed k t m' (dissolve role d .out) p d first f pgtab := by
  have live : t.live p := alive_live (by rw [large.state]; rfl)
  have is := large.owned.root d (some p) ⟨live, large.dir⟩
  have frames := large.owned.frames
  obtain ⟨f, found⟩ := large.low
  obtain ⟨pde, pte, -⟩ := lookup_some found
  simp only [Nat.zero_div, Nat.zero_mod] at pde pte
  have table := frames.dir d is 0 (by decide) pde
  have page : role f = .page d 0 := by
    have entry := frames.entry _ d 0 table (by decide) 0 (by decide) (by rw [pte, entry_present])
    rw [pte] at entry
    exact entry
  obtain ⟨g, high⟩ := large.high
  obtain ⟨pde', -, -⟩ := page_entry frames high
  have table' := frames.dir d is 8 (by decide) pde'
  have notDir : d ≠ f := role_ne is page
  have notFirst : (m.word d 0).frame ≠ f := by
    intro same
    rw [same, page] at table
    cases table
  have many : 40000 ≤ m.freelist.length := by
    have space := large.room
    unfold room at space
    omega
  refine ⟨(m.word d 8).frame * 4096 + 7, Prog.wp_call (store_first large.dir pde pte) ?_⟩
  rintro - m' rfl
  have written := (owned_write large.owned page 0 (.ofWord ((m.word d 8).frame * 4096 + 7))).frames
  have dissolved := frames_dissolve written d (r := .out) trivial (by simp)
  have lookups : ∀ n < 2 ^ 20, lookup (m.setWord f 0 (.ofWord ((m.word d 8).frame * 4096 + 7))) d n = lookup m d n :=
    fun n => lookup_other frames is (Ne.symm notDir) (by simp [page]) fun g other => set_word_frame _ _ _ other
  refine ⟨rfl, Nat.le_trans (by decide) many, lookups, (m.word d 0).frame, f, (m.word d 8).frame, large.slot, large.state, large.dir,
    large.size, dissolved, fun g which => ?_, ?_, ?_, ?_, ?_, ?_⟩
  · rcases which with rfl | rfl | rfl | rfl
    · simp [dissolve, is, Role.of]
    · simp [dissolve, table, Role.of]
    · simp [dissolve, page, Role.of]
    · simp [dissolve, table', Role.of]
  · intro same
    rw [same, is] at table'
    cases table'
  · rw [set_word_frame _ _ _ notDir]
    exact ⟨pde, rfl⟩
  · rw [set_word_frame _ _ _ notFirst, pte]
    exact ⟨rfl, rfl⟩
  · rw [set_word_self, of_word_entry]
  · rw [set_word_frame _ _ _ notDir]
    exact ⟨pde', rfl⟩

theorem armed_first {p d first f pgtab : Nat} (armed : Armed k t m role p d first f pgtab) :
    FirstWord m d (permUser.entry pgtab) := by
  refine ⟨armed.pde.1, ?_, ?_⟩
  · rw [armed.pde.2]
    exact armed.pte.1
  · rw [armed.pde.2, armed.pte.2]
    exact armed.word

theorem uva2ka_supervisor {cur d' va : Nat} {e : Pte} (bound : va < 2 ^ 32) (found : lookup m d' (va / 4096) = some e)
    (denied : e.u = false) : Spec k cond bad pid (uva2ka cur d' va) m fun r m' => r = none ∧ m' = m := by
  obtain ⟨pde, pte, -⟩ := lookup_some found
  rw [← pdx_eq bound, ← ptx_eq] at pte
  rw [← pdx_eq bound] at pde
  unfold uva2ka
  refine Prog.wp_call (walk_find d' va) ?_
  rintro r m' ⟨rfl, rfl⟩
  rw [if_pos pde]
  refine spec_read ⟨?_, rfl⟩
  rw [pte, userFrame, denied, Bool.and_false]
  rfl

theorem moved_word {word : Nat} (small : word < 2 ^ 32) {src : Nat → UInt8} {j : Nat} (inside : j < 1024)
    (bytes : ∀ i < 4, src (4 * j + i) = leByte word i) (e : Pte) : moved 0 4096 src j e = .ofWord word := by
  have all : ∀ i < 4, (if 0 ≤ 4 * j + i ∧ 4 * j + i < 0 + 4096 then src (4 * j + i - 0) else leByte e.toWord i) = leByte word i := by
    intro i four
    rw [if_pos (by omega), Nat.sub_zero, bytes i four]
  have value : word % 256 ^ 4 = word := Nat.mod_eq_of_lt small
  rw [moved, if_pos (by omega), le_value_congr _ _ 4 all, le_value_byte, value]

-- One page is written through the word at address 0; the next page is the kernel's.
theorem copyout_null {p d first f pgtab d' : Nat} (armed : Armed k t m role p d first f pgtab) (is : role d' = .dir)
    (missing : (m.word d' 1015).p = false) {e : Pte} (found : lookup m d' 0xFE000 = some e) (denied : e.u = false)
    {word : Nat} (small : word < 2 ^ 32) {src : Nat → UInt8} (bytes : ∀ i < 4096, src i = leByte word (i % 4)) (fuel : Nat) {len : Nat}
    (long : 4096 < len) :
    Spec k cond bad pid (copyoutLoop d d' src (fuel + 2) 0xFDFFF000 0 len) m fun r m' => r = false ∧
      Frames k m' role ∧ (∀ g, role g = .out → g ≠ pgtab → m'.word g = m.word g) ∧ ∀ j < 1024, m'.word pgtab j = .ofWord word := by
  have out := armed.outside pgtab (.inr (.inr (.inr rfl)))
  have start : pgrounddown 0xFDFFF000 = 0xFDFFF000 := by decide
  have next : u32 (0xFDFFF000 + pgsize) = 0xFE000000 := by decide
  have start' : pgrounddown 0xFE000000 = 0xFE000000 := by decide
  have count : min (pgsize - (0xFDFFF000 - 0xFDFFF000)) len = 4096 := by
    simp only [pgsize]
    omega
  have away : pgtab ≠ d' := role_ne out is
  unfold copyoutLoop
  rw [if_neg (by omega), start, count, next, Nat.sub_self]
  refine Prog.wp_call (uva2ka_null (armed_first armed) missing) ?_
  rintro r m₁ ⟨rfl, rfl⟩
  have target : userFrame (permUser.entry pgtab) = some pgtab := rfl
  rw [target]
  refine spec_fill ?_
  have noted := frames_notes armed.frames (.nullPte :: m.notes)
  have filled := frames_fill noted (f := pgtab) (.inl (by rw [out]; trivial)) (moved 0 4096 fun i => src (0 + i))
  generalize after : ({ m with notes := .nullPte :: m.notes } : Ram).fill pgtab (moved 0 4096 fun i => src (0 + i)) = m₂ at filled ⊢
  have others : ∀ g, g ≠ pgtab → m₂.word g = m.word g := by
    intro g other
    rw [← after, fill_ne _ _ other]
  have found' : lookup m₂ d' (0xFE000000 / 4096) = some e := by
    rw [lookup_other armed.frames is away (by simp [out]) others (by decide)]
    exact found
  unfold copyoutLoop
  rw [if_neg (by omega), start']
  refine Prog.wp_call (uva2ka_supervisor (by decide) found' denied) ?_
  rintro r m₃ ⟨rfl, rfl⟩
  refine ⟨rfl, filled, fun g _ other => others g other, fun j inside => ?_⟩
  rw [← after, fill_self]
  refine moved_word small inside (fun i four => ?_) _
  rw [Nat.zero_add, bytes _ (by omega), show (4 * j + i) % 4 = i by omega]

-- A string of 0x2003000 bytes with its NUL: the stack pointer goes from 0x2000 to 0xFDFFF000.
def longArg : Arg where
  len := 0x2002FFF
  byte i := leByte 0x0DFFFFFF (i % 4)
  nonzero i _ := by
    have all : ∀ j < 4, leByte 0x0DFFFFFF j ≠ 0 := by decide
    exact all _ (Nat.mod_lt i (by decide))
  short := by decide

def bareElf : List UInt8 := [0x7F, 0x45, 0x4C, 0x46] ++ List.replicate 48 0

theorem bare_elf_read : (Source.ofFile bareElf).readi 0 0 0 elfSize = some bareElf ∧ bareElf.length = elfSize ∧
    (Elfhdr.ofBytes bareElf).magic = elfMagic ∧ (Elfhdr.ofBytes bareElf).phnum = 0 := by
  decide

theorem armed_outside {p d first f pgtab : Nat} {role' : Nat → Role} (armed : Armed k t m role p d first f pgtab)
    (frames : Frames k m' role') (out : ∀ g, role g = .out → role' g = .out ∧ m'.word g = m.word g) :
    Armed k t m' role' p d first f pgtab := by
  have dir := out d (armed.outside d (.inl rfl))
  have table := out first (armed.outside first (.inr (.inl rfl)))
  have page := out f (armed.outside f (.inr (.inr (.inl rfl))))
  refine ⟨armed.slot, armed.state, armed.dir, armed.size, frames, fun g which => (out g (armed.outside g which)).1, armed.apart,
    ?_, ?_, ?_, ?_⟩
  · rw [dir.2]
    exact armed.pde
  · rw [table.2]
    exact armed.pte
  · rw [page.2]
    exact armed.word
  · rw [dir.2]
    exact armed.high

theorem grown_outside {role' : Nat → Role} {new : Nat → Role → Prop} (grown : Grown k m m' role role' new) (g : Nat)
    (out : role g = .out) : role' g = .out ∧ m'.word g = m.word g :=
  ⟨by rw [grown_kept grown (by simp [out]), out], grown.outside g out⟩

theorem exec_stack_null {p d first f pgtab d' : Nat} (armed : Armed k t m role p d first f pgtab) (space : Space k m role d' 0)
    (enough : 2 ≤ room m d') (missing : (m.word d' 1015).p = false) {e : Pte} (found : lookup m d' 0xFE000 = some e) :
    Spec k cond bad pid (execStack d d' 0 [longArg]) m fun r m' => r = none ∧ ∃ role', Frames k m' role' ∧ role' d' = .dir ∧
      (∀ g, role g = .out → role' g = .out) ∧ m'.word d = m.word d ∧ ∀ j < 1024, m'.word pgtab j = .ofWord 0x0DFFFFFF := by
  have denied := space.supervisor 0xFE000 (by decide) (by decide) e found
  refine exec_stack_begun space enough fun m₂ role₁ begun => ?_
  have out : ∀ g, role g = .out → role₁ g = .out ∧ m₂.word g = m.word g := by
    intro g is
    refine ⟨((begun.taken g).resolve_right fun new => ?_).trans is, begun.data g (by simp [is]) ?_ (by simp [is])⟩
    · rw [is] at new
      cases new.1
    · exact role_ne is space.dir
  have armed₂ := armed_outside armed begun.space.frames out
  have missing₂ : (m₂.word d' 1015).p = false := by
    rw [begun.kept.pdes 1015 (by decide) (by decide)]
    exact missing
  have found₂ : lookup m₂ d' 0xFE000 = some e := by
    rw [begun.kept.lookup _ (by decide) (.inr (by decide))]
    exact found
  have sp : u32 (2 * pgsize + 2 ^ 32 - u32 (longArg.len + 1)) / 4 * 4 = 0xFDFFF000 := by decide
  refine Prog.wp_call (P := fun pushed m' => pushed = Option.none ∧ Frames k m' role₁ ∧
    (∀ g, role₁ g = .out → g ≠ pgtab → m'.word g = m₂.word g) ∧ ∀ j < 1024, m'.word pgtab j = .ofWord 0x0DFFFFFF) ?_ ?_
  · unfold execArgs
    rw [if_neg (by decide)]
    simp only [sp]
    have bytes : ∀ i < 4096, longArg.buf i = leByte 0x0DFFFFFF (i % 4) := by
      intro i small
      exact if_pos (Nat.lt_trans small (by decide))
    refine Prog.wp_call (copyout_null armed₂ begun.space.dir missing₂ found₂ denied (by decide) bytes 0x2002FFE (by decide)) ?_
    rintro r m₃ ⟨rfl, frames, others, words⟩
    exact ⟨rfl, frames, others, words⟩
  · rintro pushed m₃ ⟨rfl, frames, others, words⟩
    refine ⟨rfl, role₁, frames, begun.space.dir, fun g is => (out g is).1, ?_, words⟩
    rw [others d (armed₂.outside d (.inl rfl)) (Ne.symm armed.apart), (out d (armed.outside d (.inl rfl))).2]

theorem exec_null {p d first f pgtab : Nat} (armed : Armed k t m role p d first f pgtab) (many : 2000 ≤ m.freelist.length) :
    Spec k cond bad pid (execImage k d (.ofFile bareElf) [longArg]) m fun r m' => r = none ∧ m'.word d = m.word d ∧
      ∀ j < 1024, m'.word pgtab j = .ofWord 0x0DFFFFFF := by
  obtain ⟨read, length, magic, phnum⟩ := bare_elf_read
  unfold execImage
  simp only [read, length, magic]
  rw [if_neg (by decide), if_neg (by decide)]
  refine Prog.wp_call (setupkvm_spec armed.frames) ?_
  rintro r m₁ (⟨rfl, few, -⟩ | ⟨d', role₁, rfl, fresh⟩)
  · omega
  have space₁ : room m₁ d' = m.freelist.length - 577 := fresh.room
  have armed₁ := armed_outside armed fresh.frames fun g out => grown_outside fresh.toGrown g out
  have missing : (m₁.word d' 1015).p = false := by
    refine fresh.pdes 1015 fun n covered => ?_
    rw [kmap_covers] at covered
    omega
  obtain ⟨entry, member, covers⟩ := (kmap_covers k 0xFE000).mpr (.inr (by decide))
  have found : lookup m₁ d' 0xFE000 = some (entry.entry 0xFE000) := by
    rw [fresh.kernel 0xFE000 (by decide), kernel_map_some member covers]
  refine Prog.wp_call (P := fun r m' => r = none ∧ ∃ role', Frames k m' role' ∧ role' d' = .dir ∧
    (∀ g, role₁ g = .out → role' g = .out) ∧ m'.word d = m₁.word d ∧ ∀ j < 1024, m'.word pgtab j = .ofWord 0x0DFFFFFF) ?_ ?_
  · unfold execBody
    rw [phnum]
    exact exec_stack_null armed₁ (space_fresh fresh) (by omega) missing found
  rintro r m₂ ⟨rfl, role₂, frames₂, is₂, out₂, same, words⟩
  refine Prog.wp_call (freevm_spec frames₂ is₂) ?_
  rintro - m₃ ⟨-, outside, -⟩
  refine ⟨rfl, ?_, fun j small => ?_⟩
  · rw [outside d (out₂ d (armed₁.outside d (.inl rfl))), same]
    exact (grown_outside fresh.toGrown d (armed.outside d (.inl rfl))).2
  · rw [outside pgtab (out₂ pgtab (armed₁.outside pgtab (.inr (.inr (.inr rfl))))), words j small]

theorem exec_fails_null {p d first f pgtab : Nat} (armed : Armed k t m role p d first f pgtab)
    (many : 2000 ≤ m.freelist.length) :
    Spec k cond bad pid (exec k t p [] (some (.ofFile bareElf)) [longArg]) m fun r m' => r = (t, false) ∧ m'.word d = m.word d ∧
      ∀ j < 1024, m'.word pgtab j = .ofWord 0x0DFFFFFF := by
  have short : ¬ ([longArg].length ≥ maxarg || [longArg].any fun arg => arg.len ≥ t.sz p) = true := by
    rw [armed.size]
    decide
  unfold exec
  rw [if_neg short]
  refine spec_cur_some armed.dir ?_
  refine Prog.wp_call (exec_null armed many) ?_
  rintro r m₁ ⟨rfl, same, words⟩
  exact ⟨rfl, same, words⟩

theorem null_lookup {p d first f pgtab : Nat} (armed : Armed k t m role p d first f pgtab) (dir : m'.word d = m.word d)
    (words : ∀ j < 1024, m'.word pgtab j = .ofWord 0x0DFFFFFF) {j : Nat} (bound : j < 1024) :
    lookup m' d (8192 + j) = some (.ofWord 0x0DFFFFFF) := by
  have row : (8192 + j) / 1024 = 8 := by omega
  have column : (8192 + j) % 1024 = j := by omega
  unfold lookup
  rw [row, column, dir, armed.high.1, armed.high.2, words j bound]
  rfl

theorem reached_any {s : State} (reached : Reached k cond s) : Reached k (fun _ => True) s := by
  obtain ⟨first, ⟨others, initcode, word, booted⟩, calls⟩ := reached
  refine ⟨first, ⟨others, initcode, word, Prog.run_completes _ 0 _ _ _ _ (Prog.completes_run _ _ _ _ _ _ _ booted)⟩, ?_⟩
  refine Relation.ReflTransGen.mono ?_ _ _ calls
  rintro s s' ⟨p, slot, alive, call, r, done⟩
  exact ⟨p, slot, alive, call, r, Prog.run_completes _ p _ _ _ _ (Prog.completes_run _ _ _ _ _ _ _ done)⟩

structure Exploited (k : Kernel) (s : State) (p d : Nat) (m' : Ram) : Prop where
  slot : p < nproc
  alive : (s.tables.ptable.proc p).state.alive = true
  reached : Reached k (fun _ => True) s
  dir : s.tables.pgdir p = some d
  fails : (exec k s.tables p [] (some (.ofFile bareElf)) [longArg]).Completes (RamOp.exec k) (fun _ => True) p s.ram
    (s.tables, false) m'
  distinct : ∀ e e', lookup s.ram d 8192 = some e → lookup s.ram d 8193 = some e' → e.frame ≠ e'.frame
  after : ∀ j < 1024, lookup m' d (8192 + j) = some (.ofWord 0x0DFFFFFF)

theorem exec_exploited (small : k.first ≤ 400) : ∃ s p d m', Exploited k s p d m' := by
  obtain ⟨t, m, role, p, d, reached, large⟩ := large_reached small
  have alive : (t.ptable.proc p).state.alive = true := by
    rw [large.state]
    rfl
  have frames := large.owned.frames
  have is := large.owned.root d (some p) ⟨alive_live alive, large.dir⟩
  obtain ⟨w, stores⟩ := @store_armed k t m role (fun _ => True) (fun _ => True) p p d large
  obtain ⟨⟨t₁, r₁⟩, m₁, done₁, same, many, lookups, first, f, pgtab, armed⟩ := Prog.wp_total exec_ready stores
  dsimp only at same
  subst t₁
  have execs := @exec_fails_null k t m₁ _ (fun _ => True) (fun _ => True) p p d first f pgtab armed many
  obtain ⟨_, m₂, done₂, rfl, dir, words⟩ := Prog.wp_total exec_ready execs
  have next₁ : Calls k (fun _ => True) ⟨t, m⟩ ⟨t, m₁⟩ := ⟨p, large.slot, alive, _, r₁, done₁⟩
  obtain ⟨start, boots, calls⟩ := reached_any reached
  refine ⟨⟨t, m₁⟩, p, d, m₂, large.slot, alive, ⟨start, boots, calls.tail next₁⟩, large.dir, done₂, fun e e' found found' frame => ?_,
    fun j bound => null_lookup armed dir words bound⟩
  rw [lookups _ (by decide)] at found found'
  have role₁ := lookup_page frames is (by decide) found
  have role₂ := lookup_page frames is (by decide) found'
  rw [frame, role₂] at role₁
  cases role₁

-- One frame is mapped at two addresses of the process.
theorem exec_maps_twice (small : k.first ≤ 400) : ∃ s p d e e', Reached k (fun _ => True) s ∧ s.tables.Root d (some p) ∧
    lookup s.ram d 8192 = some e ∧ lookup s.ram d 8193 = some e' ∧ e.frame = 0xDFFF ∧ e'.frame = 0xDFFF := by
  obtain ⟨s, p, d, m', exploited⟩ := exec_exploited small
  obtain ⟨start, boots, calls⟩ := exploited.reached
  have fails : (perform k s.tables p (.exec [] (some (.ofFile bareElf)) [longArg])).Completes (RamOp.exec k) (fun _ => True) p s.ram
      (s.tables, some (-1)) m' := by
    refine Prog.run_completes _ p _ _ _ _ ?_
    rw [perform, Prog.run_bind _ (Prog.completes_run _ _ _ _ _ _ _ exploited.fails)]
    rfl
  have next : Calls k (fun _ => True) s ⟨s.tables, m'⟩ := ⟨p, exploited.slot, exploited.alive, _, _, fails⟩
  exact ⟨⟨s.tables, m'⟩, p, d, _, _, ⟨start, boots, calls.tail next⟩, ⟨alive_live exploited.alive, exploited.dir⟩,
    exploited.after 0 (by decide), exploited.after 1 (by decide), by decide, by decide⟩

theorem pages_shared_after_failed_exec : ∃ s, Reached linked (fun _ => True) s ∧ ¬ Exclusive linked s := by
  obtain ⟨s, p, d, e, e', reached, root, found, found', frame, frame'⟩ := exec_maps_twice linked_first
  refine ⟨s, reached, fun exclusive => ?_⟩
  have same := exclusive.place 0xDFFF (by decide) (.page (some p) 8192) (.page (some p) 8193)
    ⟨by decide, d, e, root, found, frame⟩ ⟨by decide, d, e', root, found', frame'⟩
  cases same

end Xv6.Vm
