import Xv6.Vm.Copyout

set_option autoImplicit false

namespace Xv6.Vm

variable {k : Kernel} {m m' m'' : Ram} {role role' role'' : Nat → Role} {cond : Event RamOp Ram → Prop}
  {bad : String → Prop} {pid : Nat}

def overlay (img : Nat → UInt8) (va : Nat) (p : Nat → UInt8) (len a : Nat) : UInt8 :=
  if va ≤ a ∧ a < va + len then p (a - va) else img a

theorem overlay_inside {img : Nat → UInt8} {va : Nat} {p : Nat → UInt8} {len i : Nat} (inside : i < len) :
    overlay img va p len (va + i) = p i := by
  rw [overlay, if_pos (by omega), Nat.add_sub_cancel_left]

theorem overlay_outside {img : Nat → UInt8} {va : Nat} {p : Nat → UInt8} {len a : Nat} (outside : a < va ∨ va + len ≤ a) :
    overlay img va p len a = img a :=
  if_neg (by omega)

def Holds (m : Ram) (d count : Nat) (img : Nat → UInt8) : Prop :=
  ∀ n < count, ∃ e, lookup m d n = some e ∧ ∀ o < pgsize, m.byte e.frame o = img (n * pgsize + o)

theorem holds_wrote {d count va len : Nat} {img p : Nat → UInt8} (directory : Directory k m role d) (user : count ≤ 2 ^ 19)
    (holds : Holds m d count img) (wrote : Wrote m m' d va p len) (fits : va + len ≤ count * pgsize)
    (pages : ∀ a < len, (userPage m d (pageOf va a)).isSome) : Holds m' d count (overlay img va p len) := by
  intro n below
  obtain ⟨e, found, bytes⟩ := holds n below
  refine ⟨e, by rw [(wrote_lookup directory wrote (by omega)).2, found], fun o small => ?_⟩
  have page := lookup_page directory.frames directory.dir (by omega) found
  by_cases inside : va ≤ n * pgsize + o ∧ n * pgsize + o < va + len
  · obtain ⟨a, same⟩ := Nat.exists_eq_add_of_le inside.1
    have number : pageOf va a = n := by
      unfold pageOf
      simp only [pgsize] at *
      omega
    have offset : (va + a) % pgsize = o := by
      simp only [pgsize] at *
      omega
    obtain ⟨f, access⟩ := Option.isSome_iff_exists.mp (pages a (by omega))
    obtain ⟨e', found', -, rfl⟩ := user_page_some access
    have entry := wrote.hit a (by omega) e'.frame access
    rw [number, found] at found'
    cases found'
    rw [offset] at entry
    rw [entry, same, overlay_inside (by omega)]
  · rw [wrote.miss e.frame o, bytes o small, overlay_outside (by omega)]
    intro a below' access offset
    have page' := (user_page_role directory (page_of_lt va a) access).2
    rw [page] at page'
    have number := (Role.page.inj page').2
    unfold pageOf at number
    simp only [pgsize] at *
    omega

def Open (m : Ram) (d count : Nat) : Prop := ∀ n < count, ∃ f, lookup m d n = some (permUser.entry f)

theorem open_user_page {d count n : Nat} (open_ : Open m d count) (below : n < count) :
    ∃ f, lookup m d n = some (permUser.entry f) ∧ userPage m d n = some f := by
  obtain ⟨f, found⟩ := open_ n below
  refine ⟨f, found, ?_⟩
  rw [userPage, found]
  rfl

theorem open_wrote {d count va len : Nat} {p : Nat → UInt8} (directory : Directory k m role d) (user : count ≤ 2 ^ 19)
    (open_ : Open m d count) (wrote : Wrote m m' d va p len) : Open m' d count := by
  intro n below
  rw [(wrote_lookup directory wrote (by omega)).2]
  exact open_ n below

theorem holds_allocated {d oldsz newsz r : Nat} {img : Nat → UInt8} (space : Space k m role d oldsz)
    (allocated : Allocated k m m' role role' d oldsz newsz r) (some_ : r ≠ 0) (holds : Holds m d (npages oldsz) img)
    (beyond : ∀ a, npages oldsz * pgsize ≤ a → img a = 0) : Holds m' d (npages r) img := by
  obtain ⟨-, limit⟩ := allocated.size.resolve_left some_
  have user := npages_le limit
  have zero : ∀ i, leByte (Pte.ofWord 0).toWord i = 0 := by
    intro i
    rw [to_word_of_word, leByte, Nat.zero_div]
    rfl
  intro n below
  by_cases old : n < npages oldsz
  · obtain ⟨e, found, bytes⟩ := holds n old
    have page := lookup_page space.frames space.dir (by omega) found
    have notDir : e.frame ≠ d := by
      intro same
      rw [same, space.dir] at page
      cases page
    have words := allocated.data e.frame (by simp [page]) notDir (by simp [page])
    refine ⟨e, by rw [(allocated.kept some_).lookup n (by omega) (.inl old), found], fun o small => ?_⟩
    rw [← bytes o small]
    unfold Ram.byte
    rw [words]
  · obtain ⟨f, -, found, words⟩ := allocated.zeroed n (Nat.le_of_not_lt old) below
    refine ⟨_, found, fun o _ => ?_⟩
    have above : npages oldsz * pgsize ≤ n * pgsize + o :=
      (Nat.mul_le_mul_right pgsize (Nat.le_of_not_lt old)).trans (Nat.le_add_right _ _)
    rw [beyond _ above, entry_frame, Ram.byte, words, zero]

theorem open_allocated {d oldsz newsz r : Nat} (allocated : Allocated k m m' role role' d oldsz newsz r) (some_ : r ≠ 0)
    (open_ : Open m d (npages oldsz)) : Open m' d (npages r) := by
  obtain ⟨-, limit⟩ := allocated.size.resolve_left some_
  have user := npages_le limit
  intro n below
  by_cases old : n < npages oldsz
  · rw [(allocated.kept some_).lookup n (by omega) (.inl old)]
    exact open_ n old
  · obtain ⟨f, -, found, -⟩ := allocated.zeroed n (Nat.le_of_not_lt old) below
    exact ⟨f, found⟩

def Source.segment (ip : Source) (i offset sz b : Nat) : UInt8 :=
  let a := b / pgsize * pgsize
  ((ip.readi i (b / pgsize + 1) (u32 (offset + a)) (chunk sz a)).getD []).getD (b - a) 0

def Source.Reads (ip : Source) (i offset sz j : Nat) : Prop :=
  ∀ j', j ≤ j' → j' * pgsize < sz → ∃ bytes,
    ip.readi i (j' + 1) (u32 (offset + j' * pgsize)) (chunk sz (j' * pgsize)) = some bytes ∧ bytes.length = chunk sz (j' * pgsize)

theorem load_loop_spec {d addr i offset sz pages : Nat} {ip : Source} (aligned : addr % pgsize = 0)
    (directory : Directory k m role d) (open_ : Open m d pages) (within : addr + sz ≤ pages * pgsize) (user : pages ≤ 2 ^ 19)
    (count j : Nat) (total : j + count = (sz + pgsize - 1) / pgsize) (now : Rewritten k m m' role d)
    (wrote : Wrote m m' d addr (ip.segment i offset sz) (min (j * pgsize) sz)) :
    Spec k cond bad pid (loadLoop d addr ip i offset sz count (j * pgsize)) m' fun r m'' =>
      Rewritten k m m'' role d ∧ (r = true → Wrote m m'' d addr (ip.segment i offset sz) sz ∧ ip.Reads i offset sz j) := by
  induction count generalizing m' j with
  | zero =>
    have all : min (j * pgsize) sz = sz := by
      simp only [pgsize] at *
      omega
    rw [all] at wrote
    refine ⟨now, fun _ => ⟨wrote, fun j' above more => ?_⟩⟩
    simp only [pgsize] at *
    omega
  | succ count ih =>
    have going : j * pgsize < sz := by
      simp only [pgsize] at *
      omega
    have page : u32 (addr + j * pgsize) = (addr / pgsize + j) * pgsize := by
      unfold u32
      simp only [pgsize] at *
      omega
    have below : addr / pgsize + j < pages := by
      simp only [pgsize] at *
      omega
    have next : j * pgsize + pgsize = (j + 1) * pgsize := by ring
    have done : min (j * pgsize) sz = j * pgsize := by omega
    rw [done] at wrote
    obtain ⟨f, found, access⟩ := open_user_page open_ below
    have role_ := (user_page_role directory (by omega) access).2
    obtain ⟨pde, pte⟩ : (m'.word d ((addr / pgsize + j) / 1024)).p = true ∧
        (m'.word (m'.word d ((addr / pgsize + j) / 1024)).frame ((addr / pgsize + j) % 1024)).frame = f := by
      obtain ⟨present, -, points⟩ := page_entry now.frames role_
      exact ⟨present, points⟩
    have number : pageOf addr (j * pgsize) = addr / pgsize + j := by
      unfold pageOf
      simp only [pgsize] at *
      omega
    unfold loadLoop
    refine Prog.wp_call (walk_find d _) ?_
    rintro r m₁ ⟨rfl, rfl⟩
    rw [page, pdx_page (by omega), ptx_page, if_pos pde]
    refine spec_read ?_
    rw [pte, next]
    have size : chunk sz (j * pgsize) = if sz - j * pgsize < pgsize then sz - j * pgsize else pgsize := rfl
    generalize named : chunk sz (j * pgsize) = n at size ⊢
    cases answer : ip.readi i (j * pgsize / pgsize + 1) (u32 (offset + j * pgsize)) n with
    | none => exact ⟨now, nofun⟩
    | some bytes =>
      refine spec_fill ?_
      have now' := rewritten_trans now (rewritten_fill now.frames directory.dir role_
        (moved 0 bytes.length fun i => bytes.getD i 0))
      by_cases full : bytes.length = n
      · rw [if_pos full]
        have small : n ≤ pgsize := by
          rw [size]
          split <;> omega
        have positive : 0 < n := by
          rw [size]
          split
          · omega
          · decide
        have bytes_ : ∀ b < n, bytes.getD b 0 = ip.segment i offset sz (j * pgsize + b) := by
          intro b inside
          have start : (j * pgsize + b) / pgsize = j := by
            simp only [pgsize] at *
            omega
          have number' : j * pgsize / pgsize = j := Nat.mul_div_cancel j (by decide)
          rw [number'] at answer
          rw [Source.segment, start, named, answer, Nat.add_sub_cancel_left]
          rfl
        have along : ∀ b < n, pageOf addr (j * pgsize + b) = pageOf addr (j * pgsize) ∧
            (addr + (j * pgsize + b)) % pgsize = 0 + b := by
          intro b inside
          unfold pageOf
          simp only [pgsize] at *
          omega
        have short : j * pgsize + n ≤ 2 ^ 32 := by
          simp only [pgsize] at *
          omega
        have wrote' := wrote_step directory wrote positive short (by rw [number]; exact access) along
        rw [← moved_congr 0 bytes_] at wrote'
        have total' : j * pgsize + n = min ((j + 1) * pgsize) sz := by
          rw [size]
          split <;> omega
        rw [full] at now'
        rw [total'] at wrote'
        rw [full]
        refine Prog.wp_mono (ih (j + 1) (by omega) now' wrote') ?_
        rintro r m'' ⟨after, done⟩
        refine ⟨after, fun all => ⟨(done all).1, fun j' above more => ?_⟩⟩
        by_cases here : j' = j
        · rw [here, named]
          rw [Nat.mul_div_cancel j (by decide)] at answer
          exact ⟨bytes, answer, full⟩
        · exact (done all).2 j' (by omega) more
      · rw [if_neg full]
        exact ⟨now', nofun⟩

theorem loaduvm_spec {d addr i offset sz pages : Nat} {ip : Source} (aligned : addr % pgsize = 0)
    (directory : Directory k m role d) (open_ : Open m d pages) (within : addr + sz ≤ pages * pgsize) (user : pages ≤ 2 ^ 19) :
    Spec k cond bad pid (loaduvm d addr ip i offset sz) m fun r m' =>
      Rewritten k m m' role d ∧ (r = true → Wrote m m' d addr (ip.segment i offset sz) sz ∧ ip.Reads i offset sz 0) := by
  unfold loaduvm
  rw [if_neg (not_not.mpr aligned), ← Nat.zero_mul pgsize]
  refine load_loop_spec aligned directory open_ within user _ 0 (Nat.zero_add _) (rewritten_refl directory.frames) ?_
  rw [Nat.zero_mul, Nat.zero_min]
  exact wrote_refl m d addr _

def Building {α : Type} (k : Kernel) (m : Ram) (role : Nat → Role) (d : Nat) (good : α → (Nat → Role) → Ram → Prop)
    (r : Option α) (m' : Ram) : Prop :=
  ∃ role', Grown k m m' role role' (fun f r => r.of d f = true) ∧ ∀ a, r = some a → good a role' m'

theorem spec_stop {α : Type} {d : Nat} {good : α → (Nat → Role) → Ram → Prop}
    (grown : Grown k m m' role role' fun f r => r.of d f = true) :
    Spec k cond bad pid (pure none) m' fun r m'' => Building k m role d good r m'' :=
  ⟨role', grown, nofun⟩

theorem spec_done {α : Type} {d : Nat} {good : α → (Nat → Role) → Ram → Prop} {a : α}
    (grown : Grown k m m' role role' fun f r => r.of d f = true) (holds : good a role' m') :
    Spec k cond bad pid (pure (some a)) m' fun r m'' => Building k m role d good r m'' := by
  refine ⟨role', grown, fun b same => ?_⟩
  cases same
  exact holds

theorem field_lt (bytes : List UInt8) (off k : Nat) : field bytes off k < 256 ^ k := le_value_lt _ k

def Source.load (ip : Source) (phoff : Nat) : Nat → Nat → (Nat → UInt8) → Nat → UInt8
  | 0, _, img => img
  | count + 1, i, img =>
    let ph := Proghdr.ofBytes ((ip.readi (i + 1) 0 (u32 (phoff + i * phSize)) phSize).getD [])
    if ph.type ≠ elfProgLoad then ip.load phoff count (i + 1) img
    else ip.load phoff count (i + 1) (overlay img ph.vaddr (ip.segment (i + 1) ph.off ph.filesz) ph.filesz)

-- The program headers from number i on are read completely, and so are their segments.
def Source.Accepts (ip : Source) (phoff : Nat) : Nat → Nat → Prop
  | 0, _ => True
  | count + 1, i => ∃ bytes, ip.readi (i + 1) 0 (u32 (phoff + i * phSize)) phSize = some bytes ∧ bytes.length = phSize ∧
      ((Proghdr.ofBytes bytes).type = elfProgLoad →
        ip.Reads (i + 1) (Proghdr.ofBytes bytes).off (Proghdr.ofBytes bytes).filesz 0) ∧ ip.Accepts phoff count (i + 1)

-- The new address space of sz bytes holds img below sz, and img is zero from there on.
structure Loaded (k : Kernel) (m : Ram) (d : Nat) (img : Nat → UInt8) (sz : Nat) (role : Nat → Role) : Prop where
  space : Space k m role d sz
  holds : Holds m d (npages sz) img
  open_ : Open m d (npages sz)
  beyond : ∀ a, npages sz * pgsize ≤ a → img a = 0

theorem exec_load_spec {d phoff : Nat} {ip : Source} (count i sz : Nat) {img : Nat → UInt8} (loaded : Loaded k m d img sz role) :
    Spec k cond bad pid (execLoad d ip phoff count i sz) m fun r m' =>
      Building k m role d (fun sz' role' m' => Loaded k m' d (ip.load phoff count i img) sz' role' ∧ ip.Accepts phoff count i) r m' := by
  induction count generalizing m role i sz img with
  | zero => exact spec_done (grown_refl loaded.space.frames) ⟨loaded, trivial⟩
  | succ count ih =>
    have space := loaded.space
    unfold execLoad Source.load Source.Accepts
    cases answer : ip.readi (i + 1) 0 (u32 (phoff + i * phSize)) phSize with
    | none => exact spec_stop (grown_refl space.frames)
    | some bytes =>
      simp only [Option.getD_some, Option.some.injEq, exists_eq_left']
      have fits : (Proghdr.ofBytes bytes).memsz < 2 ^ 32 := field_lt bytes 20 4
      generalize Proghdr.ofBytes bytes = ph at fits ⊢
      split
      · exact spec_stop (grown_refl space.frames)
      next complete =>
      split
      · next other =>
        refine Prog.wp_mono (ih (i + 1) sz loaded) ?_
        rintro r m' ⟨role', grown, good⟩
        refine ⟨role', grown, fun sz' same => ⟨(good sz' same).1, not_not.mp complete, fun load => absurd load other, (good sz' same).2⟩⟩
      split
      · exact spec_stop (grown_refl space.frames)
      next files =>
      split
      · exact spec_stop (grown_refl space.frames)
      next wraps =>
      refine Prog.wp_call (allocuvm_spec space.limit space.frames space.dir space.top) ?_
      rintro r m₁ ⟨role₁, allocated⟩
      have grown := grown_mono allocated.toGrown fun f r pages => pages_of pages
      split
      · exact spec_stop grown
      next some_ =>
      have space₁ := space_allocated space allocated some_
      have holds₁ := holds_allocated space allocated some_ loaded.holds loaded.beyond
      have open₁ := open_allocated allocated some_ loaded.open_
      have user := npages_le space₁.limit
      split
      · exact spec_stop grown
      next aligned =>
      have order : sz ≤ r ∧ ph.vaddr + ph.memsz ≤ r := by
        have size := (allocated.size.resolve_left some_).1
        unfold u32 at size wraps
        omega
      have within : ph.vaddr + ph.filesz ≤ npages r * pgsize := by
        unfold npages
        simp only [pgsize]
        omega
      refine Prog.wp_call (loaduvm_spec (not_not.mp aligned) space₁.directory open₁ within user) ?_
      rintro full m₂ ⟨rewritten, read⟩
      have grown' := grown_trans grown (grown_of_rewritten rewritten)
      split
      next all =>
        obtain ⟨wrote, reads⟩ := read all
        have pages : ∀ a < ph.filesz, (userPage m₁ d (pageOf ph.vaddr a)).isSome := by
          intro a below
          have inside : pageOf ph.vaddr a < npages r := by
            unfold pageOf
            simp only [pgsize] at *
            omega
          obtain ⟨f, -, access⟩ := open_user_page open₁ inside
          rw [access]
          rfl
        have holds₂ := holds_wrote space₁.directory user holds₁ wrote within pages
        have beyond : ∀ a, npages r * pgsize ≤ a →
            overlay img ph.vaddr (ip.segment (i + 1) ph.off ph.filesz) ph.filesz a = 0 := by
          intro a above
          rw [overlay_outside (.inr (by omega))]
          exact loaded.beyond a ((Nat.mul_le_mul_right pgsize (npages_mono order.1)).trans above)
        refine Prog.wp_mono (ih (i + 1) r ⟨space_rewritten space₁ rewritten, holds₂,
          open_wrote space₁.directory user open₁ wrote, beyond⟩) ?_
        rintro r' m' ⟨role', later, good⟩
        refine ⟨role', grown_trans grown' later, fun sz' same => ?_⟩
        exact ⟨(good sz' same).1, not_not.mp complete, fun _ => reads, (good sz' same).2⟩
      · exact spec_stop grown'

-- The strings of args in the image, from hi downwards, none below lo; ptrs are their addresses.
def Strings (img : Nat → UInt8) (lo : Nat) : List Arg → List Nat → Nat → Prop
  | [], [], hi => lo ≤ hi
  | arg :: args, ptr :: ptrs, hi =>
    ptr + arg.len + 1 ≤ hi ∧ (∀ i ≤ arg.len, img (ptr + i) = arg.buf i) ∧ Strings img lo args ptrs ptr
  | _, _, _ => False

theorem strings_low {img : Nat → UInt8} {lo hi : Nat} {args : List Arg} {ptrs : List Nat} (strings : Strings img lo args ptrs hi) :
    lo ≤ hi ∧ ptrs.length = args.length ∧ ∀ ptr ∈ ptrs, ptr < hi := by
  induction args generalizing ptrs hi with
  | nil =>
    cases ptrs with
    | nil => exact ⟨strings, rfl, nofun⟩
    | cons ptr ptrs => exact strings.elim
  | cons arg args ih =>
    cases ptrs with
    | nil => exact strings.elim
    | cons ptr ptrs =>
      obtain ⟨below, -, rest⟩ := strings
      obtain ⟨low, length, others⟩ := ih rest
      refine ⟨by omega, by rw [List.length_cons, length, List.length_cons], fun ptr' member => ?_⟩
      rcases List.mem_cons.mp member with rfl | later
      · omega
      · have := others ptr' later
        omega

theorem strings_congr {img img' : Nat → UInt8} {lo hi : Nat} {args : List Arg} {ptrs : List Nat}
    (strings : Strings img lo args ptrs hi) (same : ∀ a, lo ≤ a → img' a = img a) : Strings img' lo args ptrs hi := by
  induction args generalizing ptrs hi with
  | nil =>
    cases ptrs with
    | nil => exact strings
    | cons ptr ptrs => exact strings.elim
  | cons arg args ih =>
    cases ptrs with
    | nil => exact strings.elim
    | cons ptr ptrs =>
      obtain ⟨below, bytes, rest⟩ := strings
      have low := (strings_low rest).1
      exact ⟨below, fun i small => by rw [same _ (by omega), bytes i small], ih rest⟩

-- The stack page c + 1, and the page c below it that user code has no access to.
structure Stack (k : Kernel) (m : Ram) (role : Nat → Role) (d c : Nat) (img : Nat → UInt8) : Prop where
  space : Space k m role d ((c + 2) * pgsize)
  holds : Holds m d (c + 2) img
  guard : ∃ e, lookup m d c = some e ∧ e.u = false

theorem guard_denied {d c : Nat} {img : Nat → UInt8} (stack : Stack k m role d c img) : userPage m d c = none := by
  obtain ⟨e, found, denied⟩ := stack.guard
  rw [userPage, found, Option.bind_some, userFrame, denied, Bool.and_false]
  rfl

theorem stack_pages {d c : Nat} {img : Nat → UInt8} (stack : Stack k m role d c img) : c + 2 ≤ 2 ^ 19 := by
  have limit := stack.space.limit
  simp only [pgsize] at limit
  omega

-- copyout of a range that ends at sp meets the page below unless it is inside the stack page.
theorem pushed_within {d c va len sp : Nat} {img : Nat → UInt8} (stack : Stack k m role d c img) (low : (c + 1) * pgsize ≤ sp)
    (high : sp ≤ (c + 2) * pgsize) (aligned : sp % 4 = 0) (some_ : 0 < len) (short : len ≤ 2 ^ 31)
    (start : va = u32 (sp + 2 ^ 32 - len) / 4 * 4) (all : ∀ a < len, (userPage m d (pageOf va a)).isSome) :
    va % 4 = 0 ∧ (c + 1) * pgsize ≤ va ∧ va + len ≤ sp := by
  have pages := stack_pages stack
  unfold u32 at start
  simp only [pgsize] at low high ⊢
  by_cases fits : len ≤ sp - (c + 1) * 4096
  · omega
  · -- a byte of the range that is in page c: the last one if sp is the lowest address of
    have met : ∃ a < len, pageOf va a = c := by
      unfold pageOf
      simp only [pgsize]
      by_cases bottom : sp = (c + 1) * 4096
      · exact ⟨len - 1, by omega, by omega⟩
      · exact ⟨((c + 1) * 4096 - 1 + 2 ^ 32 - va) % 2 ^ 32, by omega, by omega⟩
    obtain ⟨a, inside, page⟩ := met
    have access := all a inside
    rw [page, guard_denied stack] at access
    cases access

theorem stack_wrote {d c va len : Nat} {img p : Nat → UInt8} (stack : Stack k m role d c img) (rewritten : Rewritten k m m' role d)
    (wrote : Wrote m m' d va p len) (fits : va + len ≤ (c + 2) * pgsize) (all : ∀ a < len, (userPage m d (pageOf va a)).isSome) :
    Stack k m' role d c (overlay img va p len) := by
  have pages := stack_pages stack
  refine ⟨space_rewritten stack.space rewritten, holds_wrote stack.space.directory pages stack.holds wrote fits all, ?_⟩
  rw [(wrote_lookup stack.space.directory wrote (by omega)).2]
  exact stack.guard

theorem exec_args_spec {cur d c : Nat} (found : ∀ m m', ¬ cond ⟨pid, .probe .nullPte, (), m, m'⟩) (args : List Arg)
    (pushed : List Nat) (sp : Nat) {img : Nat → UInt8} (stack : Stack k m role d c img) (low : (c + 1) * pgsize ≤ sp)
    (high : sp ≤ (c + 2) * pgsize) (aligned : sp % 4 = 0) (few : pushed.length ≤ maxarg) :
    Spec k cond bad pid (execArgs cur d args pushed sp) m fun r m' => Rewritten k m m' role d ∧
      ∀ pushed' sp', r = some (pushed', sp') → ∃ img' ptrs, Stack k m' role d c img' ∧ pushed' = ptrs.reverse ++ pushed ∧
        Strings img' sp' args ptrs sp ∧ (∀ a, a < (c + 1) * pgsize ∨ sp ≤ a → img' a = img a) ∧ (c + 1) * pgsize ≤ sp' ∧
        sp' % 4 = 0 ∧ pushed'.length ≤ maxarg := by
  induction args generalizing m pushed sp img with
  | nil =>
    refine ⟨rewritten_refl stack.space.frames, fun pushed' sp' same => ?_⟩
    cases same
    exact ⟨img, [], stack, rfl, Nat.le_refl sp, fun _ _ => rfl, low, aligned, few⟩
  | cons arg rest ih =>
    unfold execArgs
    split
    · exact ⟨rewritten_refl stack.space.frames, nofun⟩
    · next free =>
      have short := arg.short
      simp only [kernbase] at short
      have size : u32 (arg.len + 1) = arg.len + 1 := Nat.mod_eq_of_lt (by omega)
      rw [size]
      generalize start : u32 (sp + 2 ^ 32 - (arg.len + 1)) / 4 * 4 = va
      have bound : va < 2 ^ 32 := by
        rw [← start]
        unfold u32
        omega
      refine Prog.wp_call (copyout_spec bound (by omega) stack.space.directory (.inr found)) ?_
      rintro copied m₁ ⟨rewritten, ⟨rfl, wrote, all⟩ | ⟨rfl, -⟩⟩
      · obtain ⟨aligned', low', high'⟩ :=
          pushed_within stack low high aligned (Nat.succ_pos arg.len) (by omega) start.symm all
        have stack₁ := stack_wrote stack rewritten wrote (by omega) all
        rw [if_pos rfl]
        refine Prog.wp_mono (ih (va :: pushed) va stack₁ low' (by omega) aligned' (by rw [List.length_cons]; omega)) ?_
        rintro r m₂ ⟨later, result⟩
        refine ⟨rewritten_trans rewritten later, fun pushed' sp' same => ?_⟩
        obtain ⟨img', ptrs, stack', rfl, strings, frame, base, multiple⟩ := result pushed' sp' same
        refine ⟨img', va :: ptrs, stack', by simp, ⟨by omega, fun i small => ?_, strings⟩, fun a outside => ?_, base, multiple⟩
        · rw [frame _ (.inr (by omega)), overlay_inside (by omega)]
        · rw [frame a (by omega), overlay_outside (by omega)]
      · exact ⟨rewritten, nofun⟩

theorem clearpteu_spec {d sz n : Nat} (space : Space k m role d sz) (below : n < npages sz) :
    Spec k cond bad pid (clearpteu d (n * pgsize)) m fun _ m' => Rewritten k m m' role d ∧
      (∀ n' < 2 ^ 20, n' ≠ n → lookup m' d n' = lookup m d n') ∧
      (∃ e, lookup m d n = some e ∧ lookup m' d n = some { e with u := false }) ∧
      ∀ g, (∀ i, role g ≠ .tbl d i) → m'.word g = m.word g := by
  have small := npages_le space.limit
  obtain ⟨f, page⟩ := space.full n below
  obtain ⟨pde, pte, -⟩ := page_entry space.frames page
  have table := space.frames.dir d space.dir _ (by omega) pde
  unfold clearpteu
  refine Prog.wp_call (walk_find d _) ?_
  rintro r m' ⟨rfl, rfl⟩
  rw [pdx_page (by omega), ptx_page, if_pos pde]
  refine spec_read ?_
  rw [← Prog.bind_unit (write _ _ _)]
  refine spec_write ⟨rewritten_entry space.frames table (by omega) ⟨rfl, rfl⟩, fun n' bound other => ?_,
    ⟨m'.word (m'.word d (n / 1024)).frame (n % 1024), ?_, ?_⟩, fun g plain => ?_⟩
  · rw [lookup_set_word space.frames table bound, if_neg other]
  · rw [lookup, pde, pte]
    rfl
  · rw [lookup_set_word space.frames table (by omega), if_pos rfl, if_pos pte]
  · refine set_word_frame _ _ _ ?_
    rintro rfl
    exact plain _ table

def wordAt (img : Nat → UInt8) (a : Nat) : Nat := leValue (fun i => img (a + i)) 4

theorem word_at_overlay {img : Nat → UInt8} {va j : Nat} {words : List Nat} (inside : j < words.length) (small : words.getD j 0 < 2 ^ 32) :
    wordAt (overlay img va (wordBytes words) (4 * words.length)) (va + 4 * j) = words.getD j 0 := by
  have bytes : ∀ i < 4, overlay img va (wordBytes words) (4 * words.length) (va + 4 * j + i) = leByte (words.getD j 0) i := by
    intro i four
    rw [Nat.add_assoc, overlay_inside (by omega), wordBytes, show (4 * j + i) / 4 = j by omega, show (4 * j + i) % 4 = i by omega]
  rw [wordAt, le_value_congr _ _ 4 bytes, le_value_byte]
  exact Nat.mod_eq_of_lt small

def ArgStack (img : Nat → UInt8) (args : List Arg) (base esp sz : Nat) : Prop :=
  base ≤ esp ∧ ∃ ptrs : List Nat, ptrs.length = args.length ∧
    (∀ j < args.length + 4, wordAt img (esp + 4 * j) = ([0xffffffff, args.length, esp + 12] ++ ptrs ++ [0]).getD j 0) ∧
    Strings img (esp + 4 * (args.length + 4)) args ptrs sz

theorem ustack_stored {img : Nat → UInt8} {args : List Arg} {ptrs : List Nat} {base esp sp sz : Nat}
    (strings : Strings img sp args ptrs sz) (size : esp + 4 * (args.length + 4) = sp) (low : base ≤ esp) (high : sz ≤ 2 ^ 31) :
    ArgStack (overlay img esp (wordBytes (ustack ptrs.reverse sp)) ((3 + ptrs.length + 1) * 4)) args base esp sz := by
  obtain ⟨below, length, inside⟩ := strings_low strings
  have array : u32 (sp + 2 ^ 32 - (args.length + 1) * 4) = esp + 12 := by
    unfold u32
    omega
  have words : ustack ptrs.reverse sp = [0xffffffff, args.length, esp + 12] ++ ptrs ++ [0] := by
    rw [ustack, List.length_reverse, List.reverse_reverse, length, array]
  have count : ([0xffffffff, args.length, esp + 12] ++ ptrs ++ [0]).length = args.length + 4 := by
    simp only [List.length_append, List.length_cons, List.length_nil, length]
    omega
  have small : ∀ w ∈ [0xffffffff, args.length, esp + 12] ++ ptrs ++ [0], w < 2 ^ 32 := by
    intro w member
    simp only [List.mem_append, List.mem_cons, List.not_mem_nil, or_false] at member
    rcases member with ((rfl | rfl | rfl) | pointer) | rfl
    · decide
    · omega
    · omega
    · have := inside w pointer
      omega
    · decide
  have bytes : (3 + ptrs.length + 1) * 4 = 4 * ([0xffffffff, args.length, esp + 12] ++ ptrs ++ [0]).length := by
    rw [count, length]
    omega
  rw [words, bytes]
  refine ⟨low, ptrs, length, fun j inside' => ?_, ?_⟩
  · have here : j < ([0xffffffff, args.length, esp + 12] ++ ptrs ++ [0]).length := by omega
    refine word_at_overlay here (small _ ?_)
    rw [List.getD_eq_getElem?_getD, List.getElem?_eq_getElem here, Option.getD_some]
    exact List.getElem_mem here
  · rw [size]
    refine strings_congr strings fun a above => overlay_outside (.inr ?_)
    omega

structure Ready (k : Kernel) (m : Ram) (d : Nat) (img : Nat → UInt8) (c : Nat) (args : List Arg) (result : Nat × Nat)
    (role : Nat → Role) : Prop where
  size : result.1 = (c + 2) * pgsize ∧ result.1 < kernbase
  stack : ∃ img', Stack k m role d c img' ∧ (∀ a < (c + 1) * pgsize, img' a = img a) ∧
    ArgStack img' args ((c + 1) * pgsize) result.2 result.1

theorem ready_space {d c : Nat} {img : Nat → UInt8} {args : List Arg} {result : Nat × Nat}
    (ready : Ready k m d img c args result role) : Space k m role d result.1 := by
  obtain ⟨img', stack, -⟩ := ready.stack
  rw [ready.size.1]
  exact stack.space

structure Begun (k : Kernel) (m m' : Ram) (role role' : Nat → Role) (d : Nat) : Prop where
  space : Space k m' role' d (2 * pgsize)
  taken : ∀ f, role' f = role f ∨ (role f = .free ∧ (role' f).of d f = true)
  data : Untouched m m' role d
  kept : Kept m m' d 0 2
  stack : ∃ f, lookup m' d 1 = some (permUser.entry f)
  notes : m'.notes = m.notes

theorem exec_stack_begun {cur d : Nat} {args : List Arg} {Q : Option (Nat × Nat) → Ram → Prop} (space : Space k m role d 0)
    (enough : 2 ≤ room m d)
    (rest : ∀ m' role', Begun k m m' role role' d → Spec k cond bad pid (do
      match ← execArgs cur d args [] (2 * pgsize) with
      | none => return none
      | some (pushed, sp) => do
        let size := (3 + pushed.length + 1) * 4
        let sp' := u32 (sp + 2 ^ 32 - size)
        if ← copyout cur d sp' (wordBytes (ustack pushed sp)) size then return some (2 * pgsize, sp') else return none) m' Q) :
    Spec k cond bad pid (execStack cur d 0 args) m Q := by
  have zero : pgroundup 0 = 0 := by decide
  have none : npages 0 = 0 := rfl
  have two : npages (2 * pgsize) = 2 := rfl
  have size : (2 * pgsize) - 2 * pgsize = 0 * pgsize := rfl
  unfold execStack
  rw [zero, Nat.zero_add]
  refine Prog.wp_call (allocuvm_spec space.limit space.frames space.dir space.top) ?_
  rintro r m₁ ⟨role₁, allocated⟩
  obtain ⟨rfl, -⟩ := allocated.enough (Nat.zero_le _) (by decide) (by rw [two, none]; omega)
  have some_ : 2 * pgsize ≠ 0 := by decide
  have space₁ := space_allocated space allocated some_
  have kept₁ := allocated.kept some_
  rw [if_neg some_, size]
  refine Prog.wp_call (clearpteu_spec space₁ (by rw [two]; decide)) ?_
  rintro - m₂ ⟨cleared, others, -, data⟩
  refine rest m₂ role₁ ⟨space_rewritten space₁ cleared, fun f => ?_, fun g busy other plain => ?_, ?_, ?_, ?_⟩
  · exact (allocated.taken f).imp_right fun new => ⟨new.1, pages_of new.2⟩
  · have same := grown_kept allocated.toGrown busy
    rw [data g (by rw [same]; exact plain), allocated.data g busy other plain]
  · refine ⟨fun j low high => ?_, fun n bound outside => ?_⟩
    · rw [cleared.kept.pdes j low high, kept₁.pdes j low high]
    · rw [others n bound (by omega), kept₁.lookup n bound (by omega)]
  · obtain ⟨f, -, found, -⟩ := allocated.zeroed 1 (by rw [none]; decide) (by rw [two]; decide)
    exact ⟨f, (others 1 (by decide) (by decide)).trans found⟩
  · rw [cleared.notes, allocated.notes]

theorem exec_stack_spec {cur d sz : Nat} (found : ∀ m m', ¬ cond ⟨pid, .probe .nullPte, (), m, m'⟩) (args : List Arg)
    {img : Nat → UInt8} (loaded : Loaded k m d img sz role) :
    Spec k cond bad pid (execStack cur d sz args) m fun r m' =>
      Building k m role d (fun result role' m' => Ready k m' d img (npages sz) args result role') r m' := by
  have rounded := space_rounded loaded.space
  have multiple := pgroundup_eq loaded.space.limit
  have pages : npages (pgroundup sz) = npages sz := by
    rw [multiple]
    unfold npages pgsize
    omega
  have holds := loaded.holds
  have beyond := loaded.beyond
  rw [← pages] at holds beyond
  unfold execStack
  generalize pgroundup sz = low at rounded multiple pages holds beyond ⊢
  generalize high : low + 2 * pgsize = newsz
  refine Prog.wp_call (allocuvm_spec rounded.limit rounded.frames rounded.dir rounded.top) ?_
  rintro r m₁ ⟨role₁, allocated⟩
  have grown := grown_mono allocated.toGrown fun f r pages => pages_of pages
  split
  · exact spec_stop grown
  next some_ =>
  have space₁ := space_allocated rounded allocated some_
  have holds₁ := holds_allocated rounded allocated some_ holds beyond
  have larger := (allocated.size.resolve_left some_).1
  have size : r = (npages sz + 2) * pgsize := by
    rw [Nat.add_mul]
    omega
  have total : npages r = npages sz + 2 := by
    rw [size]
    unfold npages pgsize
    omega
  have guard : r - 2 * pgsize = npages sz * pgsize := by omega
  have limit := npages_le space₁.limit
  rw [guard]
  refine Prog.wp_call (clearpteu_spec space₁ (by omega)) ?_
  rintro - m₂ ⟨cleared, others, ⟨e, before, denied⟩, data⟩
  have stack₂ : Stack k m₂ role₁ d (npages sz) img := by
    refine ⟨by rw [← size]; exact space_rewritten space₁ cleared, fun n below => ?_, _, denied, rfl⟩
    obtain ⟨e', found', bytes⟩ := holds₁ n (by omega)
    have page := lookup_page space₁.frames space₁.dir (by omega) found'
    have same : ∃ e'', lookup m₂ d n = some e'' ∧ e''.frame = e'.frame := by
      by_cases here : n = npages sz
      · rw [here, before] at found'
        cases found'
        refine ⟨{ e with u := false }, ?_, rfl⟩
        rw [here, denied]
      · exact ⟨e', by rw [others n (by omega) here, found'], rfl⟩
    obtain ⟨e'', entry, frame⟩ := same
    refine ⟨e'', entry, fun o small => ?_⟩
    rw [← bytes o small, frame]
    unfold Ram.byte
    rw [data e'.frame (by simp [page])]
  have base : (npages sz + 1) * pgsize ≤ r := by
    rw [size]
    exact Nat.mul_le_mul_right pgsize (by omega)
  have aligned : r % 4 = 0 := by
    rw [size]
    unfold pgsize
    omega
  refine Prog.wp_call (exec_args_spec found args [] r stack₂ base (le_of_eq size) aligned (Nat.zero_le maxarg)) ?_
  rintro pushed m₃ ⟨copied, result⟩
  have first := rewritten_trans cleared copied
  cases pushed with
  | none => exact spec_stop (grown_trans grown (grown_of_rewritten first))
  | some both =>
    obtain ⟨pushed, sp⟩ := both
    obtain ⟨img', ptrs, stack₃, rfl, strings, frame, low', aligned', few⟩ := result pushed sp rfl
    obtain ⟨top, length, -⟩ := strings_low strings
    rw [List.append_nil] at few ⊢
    rw [List.length_reverse] at few
    simp only [maxarg] at few
    simp only [List.length_reverse]
    generalize start : u32 (sp + 2 ^ 32 - (3 + ptrs.length + 1) * 4) = esp
    have rounded' : esp = u32 (sp + 2 ^ 32 - (3 + ptrs.length + 1) * 4) / 4 * 4 := by
      rw [← start]
      unfold u32
      omega
    have bound : esp < 2 ^ 32 := by
      rw [← start]
      exact Nat.mod_lt _ (by decide)
    refine Prog.wp_call (copyout_spec bound (by omega) stack₃.space.directory (.inr found)) ?_
    rintro done m₄ ⟨rewritten, ⟨rfl, wrote, all⟩ | ⟨rfl, -⟩⟩
    · have all' := rewritten_trans first rewritten
      obtain ⟨-, low'', high''⟩ := pushed_within stack₃ low' (top.trans (le_of_eq size)) aligned' (by omega) (by omega) rounded' all
      have stack₄ := stack_wrote stack₃ rewritten wrote (high''.trans (top.trans (le_of_eq size))) all
      have limit' := space₁.limit
      have exact_ : esp + 4 * (args.length + 4) = sp := by
        rw [← start, ← length]
        unfold u32
        omega
      rw [if_pos rfl]
      refine spec_done (grown_trans grown (grown_of_rewritten all')) ⟨⟨size, ?_⟩, _, stack₄, fun a below => ?_, ?_⟩
      · have less := allocated.small some_
        unfold kernbase
        omega
      · rw [overlay_outside (.inl (by omega)), frame a (.inl below)]
      · exact ustack_stored strings exact_ low'' limit'
    · exact spec_stop (grown_trans grown (grown_of_rewritten (rewritten_trans first rewritten)))

theorem exec_body_spec {cur d : Nat} (found : ∀ m m', ¬ cond ⟨pid, .probe .nullPte, (), m, m'⟩) (ip : Source) (elf : Elfhdr)
    (args : List Arg) (space : Space k m role d 0) :
    Spec k cond bad pid (execBody cur d ip elf args) m fun r m' =>
      Building k m role d (fun result role' m' => ip.Accepts elf.phoff elf.phnum 0 ∧
        ∃ c, Ready k m' d (ip.load elf.phoff elf.phnum 0 fun _ => 0) c args result role') r m' := by
  have empty : Loaded k m d (fun _ => 0) 0 role :=
    ⟨space, fun n below => absurd below (Nat.not_lt_zero n), fun n below => absurd below (Nat.not_lt_zero n), fun _ _ => rfl⟩
  unfold execBody
  refine Prog.wp_call (exec_load_spec elf.phnum 0 0 empty) ?_
  rintro r m' ⟨role', grown, loaded⟩
  cases r with
  | none => exact spec_stop grown
  | some sz =>
    obtain ⟨image, accepted⟩ := loaded sz rfl
    refine Prog.wp_mono (exec_stack_spec found args image) ?_
    rintro r m'' ⟨role'', grown', ready⟩
    exact ⟨role'', grown_trans grown grown', fun result same => ⟨accepted, _, ready result same⟩⟩

theorem exec_image_spec (found : ∀ m m', ¬ cond ⟨pid, .probe .nullPte, (), m, m'⟩) (cur : Nat) (ip : Source)
    (args : List Arg) (frames : Frames k m role) :
    Spec k cond bad pid (execImage k cur ip args) m fun r m' => (r = none ∧ ∃ role', Failed k m m' role role') ∨
      ∃ image role', r = some image ∧ role image.pgdir = .free ∧ Grown k m m' role role' (fun f r => r.of image.pgdir f = true) ∧
        ∃ bytes c, ip.readi 0 0 0 elfSize = some bytes ∧ image.eip = (Elfhdr.ofBytes bytes).entry ∧
          ip.Accepts (Elfhdr.ofBytes bytes).phoff (Elfhdr.ofBytes bytes).phnum 0 ∧
          Ready k m' image.pgdir (ip.load (Elfhdr.ofBytes bytes).phoff (Elfhdr.ofBytes bytes).phnum 0 fun _ => 0) c args
            (image.sz, image.esp) role' := by
  unfold execImage
  cases answer : ip.readi 0 0 0 elfSize with
  | none => exact .inl ⟨rfl, role, failed_clean frames (fun _ _ => rfl) rfl⟩
  | some bytes =>
    simp only
    split
    · exact .inl ⟨rfl, role, failed_clean frames (fun _ _ => rfl) rfl⟩
    split
    · exact .inl ⟨rfl, role, failed_clean frames (fun _ _ => rfl) rfl⟩
    refine Prog.wp_call (setupkvm_spec frames) ?_
    rintro r m₁ (⟨rfl, -, role', failed⟩ | ⟨d, role₁, rfl, fresh⟩)
    · exact .inl ⟨rfl, role', failed⟩
    refine Prog.wp_call (exec_body_spec found ip (Elfhdr.ofBytes bytes) args (space_fresh fresh)) ?_
    rintro r m₂ ⟨role₂, grown, ready⟩
    have whole := grown_trans fresh.toGrown grown
    cases r with
    | none =>
      have is₂ : role₂ d = .dir := by rw [grown_kept grown (by simp [fresh.dir]), fresh.dir]
      exact Prog.wp_call (freevm_new frames fresh.was whole is₂) fun _ _ failed => .inl ⟨rfl, role, failed⟩
    | some both =>
      obtain ⟨accepted, c, done⟩ := ready both rfl
      exact .inr ⟨_, role₂, rfl, fresh.was, whole, bytes, c, rfl, rfl, accepted, done⟩

end Xv6.Vm
