import Xv6.Vm.Space

set_option autoImplicit false

namespace Xv6.Vm

variable {k : Kernel} {m m' m'' : Ram} {role role' role'' : Nat → Role} {cond : Event RamOp Ram → Prop}
  {bad : String → Prop} {pid : Nat}

theorem to_word_of_word (w : Nat) : (Pte.ofWord w).toWord = w := by
  unfold Pte.ofWord Pte.toWord
  have bit : ∀ b : Nat, (decide (b % 2 = 1)).toNat = b % 2 := by
    intro b
    by_cases odd : b % 2 = 1
    · simp [odd]
    · simp only [odd, decide_false, Bool.toNat_false]
      omega
  simp only [bit, pgsize]
  omega

theorem byte_moved (m : Ram) (f off n : Nat) (src : Nat → UInt8) (o : Nat) :
    (m.fill f (moved off n src)).byte f o = if off ≤ o ∧ o < off + n then src (o - off) else m.byte f o := by
  have split_ : 4 * (o / 4) + o % 4 = o := by omega
  unfold Ram.byte
  rw [fill_self, moved]
  by_cases touched : 4 * (o / 4) < off + n ∧ off < 4 * (o / 4) + 4
  · rw [if_pos touched, to_word_of_word, le_byte_value _ 4 _ (Nat.mod_lt o (by decide)), split_]
  · rw [if_neg touched, if_neg (by omega)]

theorem moved_congr {n : Nat} {src src' : Nat → UInt8} (off : Nat) (same : ∀ i < n, src i = src' i) :
    moved off n src = moved off n src' := by
  funext j e
  unfold moved
  by_cases touched : 4 * j < off + n ∧ off < 4 * j + 4
  · rw [if_pos touched, if_pos touched]
    refine congrArg Pte.ofWord (le_value_congr _ _ 4 fun i _ => ?_)
    by_cases inside : off ≤ 4 * j + i ∧ 4 * j + i < off + n
    · rw [if_pos inside, if_pos inside, same _ (by omega)]
    · rw [if_neg inside, if_neg inside]
  · rw [if_neg touched, if_neg touched]

theorem byte_fill_ne (m : Ram) {f g : Nat} (words : Nat → Pte → Pte) (o : Nat) (other : g ≠ f) :
    (m.fill f words).byte g o = m.byte g o := by
  unfold Ram.byte
  rw [fill_ne _ _ other]

def userPage (m : Ram) (d n : Nat) : Option Nat := (lookup m d n).bind userFrame

theorem user_page_some {d n f : Nat} (user : userPage m d n = some f) : ∃ e, lookup m d n = some e ∧ e.u = true ∧ e.frame = f := by
  unfold userPage at user
  cases found : lookup m d n with
  | none =>
    rw [found] at user
    cases user
  | some e =>
    rw [found, Option.bind_some, userFrame] at user
    split at user
    · next flags =>
        cases user
        exact ⟨e, rfl, (Bool.and_eq_true_iff.mp flags).2, rfl⟩
    · cases user

theorem user_page_role {d n f : Nat} (directory : Directory k m role d) (bound : n < 2 ^ 20) (user : userPage m d n = some f) :
    n < 2 ^ 19 ∧ role f = .page d n := by
  obtain ⟨e, found, access, rfl⟩ := user_page_some user
  have low : n < 2 ^ 19 := by
    by_contra high
    rw [directory.supervisor n (by omega) bound e found] at access
    cases access
  exact ⟨low, lookup_page directory.frames directory.dir low found⟩

theorem user_page_inj {d n n' f : Nat} (directory : Directory k m role d) (bound : n < 2 ^ 20) (bound' : n' < 2 ^ 20)
    (user : userPage m d n = some f) (user' : userPage m d n' = some f) : n = n' := by
  have page := (user_page_role directory bound user).2
  rw [(user_page_role directory bound' user').2] at page
  exact (Role.page.inj page).2.symm

def pageOf (va a : Nat) : Nat := (va + a) / pgsize % 2 ^ 20

theorem page_of_lt (va a : Nat) : pageOf va a < 2 ^ 20 := Nat.mod_lt _ (by decide)

structure Wrote (m m' : Ram) (d va : Nat) (p : Nat → UInt8) (len : Nat) : Prop where
  hit : ∀ a < len, ∀ f, userPage m d (pageOf va a) = some f → m'.byte f ((va + a) % pgsize) = p a
  miss : ∀ f o, (∀ a < len, userPage m d (pageOf va a) = some f → (va + a) % pgsize ≠ o) → m'.byte f o = m.byte f o
  others : ∀ f, (∀ a < len, userPage m d (pageOf va a) ≠ some f) → m'.word f = m.word f
  freelist : m'.freelist = m.freelist
  notes : m'.notes = m.notes

theorem wrote_refl (m : Ram) (d va : Nat) (p : Nat → UInt8) : Wrote m m d va p 0 :=
  ⟨fun _ never => absurd never (Nat.not_lt_zero _), fun _ _ _ => rfl, fun _ _ => rfl, rfl, rfl⟩

theorem wrote_step {d va done n off f : Nat} {p : Nat → UInt8} (directory : Directory k m role d) (wrote : Wrote m m' d va p done)
    (some_ : 0 < n) (short : done + n ≤ 2 ^ 32) (user : userPage m d (pageOf va done) = some f)
    (along : ∀ i < n, pageOf va (done + i) = pageOf va done ∧ (va + (done + i)) % pgsize = off + i) :
    Wrote m (m'.fill f (moved off n fun i => p (done + i))) d va p (done + n) := by
  refine ⟨fun a below g there => ?_, fun g o apart => ?_, fun g apart => ?_, wrote.freelist, wrote.notes⟩
  · by_cases new : done ≤ a
    · obtain ⟨i, rfl⟩ := Nat.exists_eq_add_of_le new
      obtain ⟨page, offset⟩ := along i (by omega)
      rw [page, user] at there
      cases there
      rw [offset, byte_moved, if_pos (by omega), Nat.add_sub_cancel_left]
    · have old := wrote.hit a (by omega) g there
      by_cases same : g = f
      · subst same
        have page := user_page_inj directory (page_of_lt _ _) (page_of_lt _ _) there user
        rw [byte_moved, if_neg, old]
        -- the bytes written now are at other addresses
        intro inside
        obtain ⟨page', offset⟩ := along ((va + a) % pgsize - off) (by omega)
        unfold pageOf at page page'
        simp only [pgsize] at page page' offset inside
        omega
      · rw [byte_fill_ne _ _ _ same, old]
  · have before := wrote.miss g o fun a below => apart a (by omega)
    by_cases same : g = f
    · subst same
      rw [byte_moved, if_neg, before]
      intro inside
      obtain ⟨page, offset⟩ := along (o - off) (by omega)
      exact apart (done + (o - off)) (by omega) (by rw [page]; exact user) (by rw [offset]; omega)
    · rw [byte_fill_ne _ _ _ same, before]
  · rw [fill_ne, wrote.others g fun a below => apart a (by omega)]
    rintro rfl
    exact apart done (by omega) user

theorem wrote_lookup {d va len n : Nat} {p : Nat → UInt8} (directory : Directory k m role d) (wrote : Wrote m m' d va p len)
    (bound : n < 2 ^ 20) : m'.word d = m.word d ∧ lookup m' d n = lookup m d n := by
  have dir : m'.word d = m.word d := by
    refine wrote.others d fun a _ user => ?_
    have page := (user_page_role directory (page_of_lt _ _) user).2
    rw [directory.dir] at page
    cases page
  refine ⟨dir, ?_⟩
  unfold lookup
  rw [dir]
  by_cases present : (m.word d (n / 1024)).p = true
  · have table := directory.frames.dir d directory.dir _ (by omega) present
    rw [wrote.others]
    intro a _ user
    rw [(user_page_role directory (page_of_lt _ _) user).2] at table
    cases table
  · simp [present]

theorem wrote_user_page {d va len n : Nat} {p : Nat → UInt8} (directory : Directory k m role d) (wrote : Wrote m m' d va p len)
    (bound : n < 2 ^ 20) : userPage m' d n = userPage m d n := by
  rw [userPage, (wrote_lookup directory wrote bound).2, userPage]

theorem uva2ka_spec {cur d va : Nat} (bound : va < 2 ^ 32)
    (found : (m.word d (pdx va)).p = true ∨ ∀ m m', ¬ cond ⟨pid, .probe .nullPte, (), m, m'⟩) :
    Spec k cond bad pid (uva2ka cur d va) m fun r m' => m' = m ∧ (m.word d (pdx va)).p = true ∧ r = userPage m d (va / pgsize) := by
  unfold uva2ka
  refine Prog.wp_call (walk_find d va) ?_
  rintro r m' ⟨rfl, rfl⟩
  by_cases pde : (m'.word d (pdx va)).p = true
  · rw [if_pos pde]
    refine spec_read ⟨rfl, pde, ?_⟩
    rw [userPage, lookup, ← pdx_eq bound, ← ptx_eq, pde, Bool.true_and]
    by_cases present : (m'.word (m'.word d (pdx va)).frame (ptx va)).p = true
    · rw [if_pos present]
      rfl
    · rw [if_neg present, userFrame, Bool.eq_false_iff.mpr present]
      rfl
  · rw [if_neg pde]
    exact spec_probe fun null => absurd null (found.resolve_left pde _ _)

structure FirstWord (m : Ram) (cur : Nat) (e : Pte) : Prop where
  pde : (m.word cur 0).p = true
  pte : (m.word (m.word cur 0).frame 0).p = true
  word : m.word (m.word (m.word cur 0).frame 0).frame 0 = e

theorem uva2ka_null {cur d va : Nat} {e : Pte} (first : FirstWord m cur e) (missing : (m.word d (pdx va)).p = false) :
    Spec k cond bad pid (uva2ka cur d va) m fun r m' => r = userFrame e ∧ m' = { m with notes := .nullPte :: m.notes } := by
  unfold uva2ka
  refine Prog.wp_call (walk_find d va) ?_
  rintro r m' ⟨rfl, rfl⟩
  rw [if_neg (by simp [missing])]
  refine spec_probe fun _ => ?_
  unfold loadWord
  simp only [Prog.bind_assoc]
  refine spec_read ?_
  rw [show pdx 0 = 0 from rfl]
  simp only [first.pde, Bool.not_true, Bool.false_eq_true, if_false, Prog.bind_assoc]
  refine spec_read ?_
  rw [show ptx 0 = 0 from rfl]
  simp only [first.pte, Bool.not_true, Bool.false_eq_true, if_false]
  exact spec_read ⟨congrArg userFrame first.word, rfl⟩

abbrev Table (m : Ram) (d va a : Nat) : Prop := (m.word d (pageOf va a / 1024)).p = true

theorem table_of_user {d va a : Nat} (user : (userPage m d (pageOf va a)).isSome) : Table m d va a := by
  by_contra missing
  rw [userPage, lookup, Bool.eq_false_iff.mpr missing] at user
  cases user

-- All bytes were written, or those before the first page that is not the user's.
def Copyout (m : Ram) (d va : Nat) (p : Nat → UInt8) (len : Nat) (r : Bool) (m' : Ram) : Prop :=
  (r = true ∧ Wrote m m' d va p len ∧ ∀ a < len, (userPage m d (pageOf va a)).isSome) ∨
  (r = false ∧ ∃ got < len, Wrote m m' d va p got ∧ (∀ a < got, (userPage m d (pageOf va a)).isSome) ∧
    Table m d va got ∧ userPage m d (pageOf va got) = none)

theorem copyout_loop_spec {cur d va len : Nat} {p : Nat → UInt8} (short : len ≤ 2 ^ 32) (directory : Directory k m role d)
    (found : (∀ a < len, (∀ b < a, (userPage m d (pageOf va b)).isSome) → Table m d va a) ∨
      ∀ m m', ¬ cond ⟨pid, .probe .nullPte, (), m, m'⟩)
    (fuel done : Nat) (going : done < len) (enough : len ≤ done + fuel) (now : Rewritten k m m' role d)
    (wrote : Wrote m m' d va p done) (before : ∀ a < done, (userPage m d (pageOf va a)).isSome) :
    Spec k cond bad pid (copyoutLoop cur d p fuel (u32 (va + done)) done (len - done)) m' fun r m'' =>
      Rewritten k m m'' role d ∧ Copyout m d va p len r m'' := by
  induction fuel generalizing m' done with
  | zero => omega
  | succ fuel ih =>
    have page : pgrounddown (u32 (va + done)) / pgsize = pageOf va done := by
      unfold pgrounddown u32 pageOf
      simp only [pgsize]
      omega
    have low : pgrounddown (u32 (va + done)) < 2 ^ 32 := by
      unfold pgrounddown u32
      simp only [pgsize]
      omega
    have offset : u32 (va + done) - pgrounddown (u32 (va + done)) = (va + done) % pgsize := by
      unfold pgrounddown u32
      simp only [pgsize]
      omega
    have room : (va + done) % pgsize < pgsize := Nat.mod_lt _ (by decide)
    have dir := (wrote_lookup directory wrote (page_of_lt va done)).1
    have index : pdx (pgrounddown (u32 (va + done))) = pageOf va done / 1024 := by
      rw [pdx_eq low, ← page]
    unfold copyoutLoop
    rw [if_neg (by omega), offset]
    have table : (m'.word d (pdx (pgrounddown (u32 (va + done))))).p = true ∨ ∀ m m', ¬ cond ⟨pid, .probe .nullPte, (), m, m'⟩ := by
      rw [index, dir]
      exact found.imp_left fun tables => tables done going before
    refine Prog.wp_call (uva2ka_spec low table) ?_
    rintro r m₁ ⟨rfl, present, rfl⟩
    rw [index, dir] at present
    rw [page, wrote_user_page directory wrote (page_of_lt va done)]
    cases user : userPage m d (pageOf va done) with
    | none => exact ⟨now, .inr ⟨rfl, done, going, wrote, before, present, user⟩⟩
    | some f =>
      have role_ := (user_page_role directory (page_of_lt va done) user).2
      generalize count : min (pgsize - (va + done) % pgsize) (len - done) = n
      have positive : 0 < n := by omega
      have along : ∀ i < n, pageOf va (done + i) = pageOf va done ∧
          (va + (done + i)) % pgsize = (va + done) % pgsize + i := by
        intro i small
        unfold pageOf
        simp only [pgsize] at count room ⊢
        omega
      have wrote' := wrote_step directory wrote positive (by omega) user along
      have now' := rewritten_trans now (rewritten_fill now.frames directory.dir role_
        (moved ((va + done) % pgsize) n fun i => p (done + i)))
      have before' : ∀ a < done + n, (userPage m d (pageOf va a)).isSome := by
        intro a below
        by_cases old : a < done
        · exact before a old
        · obtain ⟨i, rfl⟩ := Nat.exists_eq_add_of_le (Nat.le_of_not_lt old)
          rw [(along i (by omega)).1, user]
          rfl
      refine spec_fill ?_
      have left : len - done - n = len - (done + n) := by omega
      rw [left]
      by_cases more : done + n < len
      · have next : u32 (pgrounddown (u32 (va + done)) + pgsize) = u32 (va + (done + n)) := by
          unfold pgrounddown u32
          simp only [pgsize] at count ⊢
          omega
        rw [next]
        exact ih (done + n) more (by omega) now' wrote' before'
      · have all : done + n = len := by omega
        rw [all] at wrote' before' ⊢
        rw [Nat.sub_self]
        cases fuel with
        | zero => exact ⟨now', .inl ⟨rfl, wrote', before'⟩⟩
        | succ fuel =>
          unfold copyoutLoop
          rw [if_pos rfl]
          exact ⟨now', .inl ⟨rfl, wrote', before'⟩⟩

theorem copyout_spec {cur d va len : Nat} {p : Nat → UInt8} (bound : va < 2 ^ 32) (short : len ≤ 2 ^ 32)
    (directory : Directory k m role d)
    (found : (∀ a < len, (∀ b < a, (userPage m d (pageOf va b)).isSome) → Table m d va a) ∨
      ∀ m m', ¬ cond ⟨pid, .probe .nullPte, (), m, m'⟩) :
    Spec k cond bad pid (copyout cur d va p len) m fun r m' => Rewritten k m m' role d ∧ Copyout m d va p len r m' := by
  unfold copyout
  have none : ∀ a < 0, (userPage m d (pageOf va a)).isSome := fun a never => absurd never (Nat.not_lt_zero a)
  by_cases empty : len = 0
  · subst empty
    exact ⟨rewritten_refl directory.frames, .inl ⟨rfl, wrote_refl m d va p, none⟩⟩
  · have start : Spec k cond bad pid (copyoutLoop cur d p len (u32 (va + 0)) 0 (len - 0)) m _ :=
      copyout_loop_spec short directory found len 0 (by omega) (by omega) (rewritten_refl directory.frames)
        (wrote_refl m d va p) none
    rwa [Nat.add_zero, u32, Nat.mod_eq_of_lt bound, Nat.sub_zero] at start

-- No entry is read through a null pointer, and exactly the bytes the user has access to are written.
def CopyoutExact (k : Kernel) (m : Ram) (cur d va : Nat) (p : Nat → UInt8) (len : Nat) : Prop :=
  ∃ r m', (copyout cur d va p len).run (RamOp.exec k) m = .ok r m' ∧ m'.notes = m.notes ∧
    (r = true ↔ ∀ a < len, (userPage m d (pageOf va a)).isSome) ∧
    (r = true → Wrote m m' d va p len) ∧
    (r = false → ∃ got < len, (∀ a < got, (userPage m d (pageOf va a)).isSome) ∧ userPage m d (pageOf va got) = none ∧
      Wrote m m' d va p got)

-- Up to the first page that is not the user's there is a page table for every byte.
def TablesFound (m : Ram) (d va len : Nat) : Prop :=
  ∀ a < len, (∀ b < a, (userPage m d (pageOf va b)).isSome) → Table m d va a

theorem copyout_exact_iff (k : Kernel) (m : Ram) (role : Nat → Role) (cur d va : Nat) (p : Nat → UInt8) (len : Nat)
    (directory : Directory k m role d) (bound : va < 2 ^ 32) (short : len < 2 ^ 32) :
    CopyoutExact k m cur d va p len ↔ TablesFound m d va len := by
  constructor
  · rintro ⟨r, m', finished, notes, -⟩
    -- without the probe the run is one in which walkpgdir always found a table
    obtain ⟨extra, more, found⟩ := completes_found (Prog.run_completes _ 0 _ _ _ _ finished)
    rw [notes, List.self_eq_append_left] at more
    have done := found (by simp [more])
    have spec : Spec k WalkFound (fun _ => False) 0 (copyout cur d va p len) m _ :=
      copyout_spec bound (Nat.le_of_lt short) directory (.inr fun _ _ never => never)
    obtain ⟨-, ⟨-, -, users⟩ | ⟨-, got, below, -, users, table, stop⟩⟩ := Prog.wp_completes spec done
    · intro a inside _
      exact table_of_user (users a inside)
    · intro a inside before
      rcases Nat.lt_trichotomy a got with less | rfl | more
      · exact table_of_user (users a less)
      · exact table
      · have user := before got more
        rw [stop] at user
        cases user
  · intro tables
    obtain ⟨r, m', finished, -, copied⟩ := spec_run (copyout_spec bound (Nat.le_of_lt short) directory (.inl tables))
    refine ⟨r, m', finished, ?_⟩
    rcases copied with ⟨rfl, wrote, users⟩ | ⟨rfl, got, below, wrote, users, -, stop⟩
    · exact ⟨wrote.notes, ⟨fun _ => users, fun _ => rfl⟩, fun _ => wrote, fun never => (by cases never)⟩
    · refine ⟨wrote.notes, ⟨fun never => (by cases never), fun all => ?_⟩, fun never => (by cases never),
        fun _ => ⟨got, below, users, stop, wrote⟩⟩
      have user := all got below
      rw [stop] at user
      cases user

theorem one_page_directory (first : Pte) : Directory linked (onePage first) onePageRole 1000 := by
  refine ⟨one_page_frames first, rfl, fun n low _ e found => ?_⟩
  rw [one_page_lookup, if_neg (by omega)] at found
  cases found

theorem copyout_exact_iff_page : CopyoutExact linked (onePage (.ofWord 0)) 1000 1000 0 (fun _ => 7) 4096 ↔
    TablesFound (onePage (.ofWord 0)) 1000 0 4096 :=
  copyout_exact_iff linked _ onePageRole 1000 1000 0 (fun _ => 7) 4096 (one_page_directory _) (by decide) (by decide)

-- The word at address 0 is used as an entry, and copyout overwrites the process's own page table.
theorem copyout_hits_table :
    let m := onePage (permUser.entry 1001)
    Directory linked m onePageRole 1000 ∧ userPage m 1000 (pageOf 0x40000000 0) = none ∧
      (∃ m', (copyout 1000 1000 0x40000000 (fun _ => 0xAB) 1).run (RamOp.exec linked) m = .ok true m' ∧
        m.byte 1001 0 = 7 ∧ m'.byte 1001 0 = 0xAB) ∧
      ¬ CopyoutExact linked m 1000 1000 0x40000000 (fun _ => 0xAB) 1 := by
  have bad : userPage (onePage (permUser.entry 1001)) 1000 (pageOf 0x40000000 0) = none := by decide
  refine ⟨one_page_directory _, bad, ⟨_, rfl, by decide, by decide⟩, ?_⟩
  rintro ⟨r, m', finished, -, users, -⟩
  cases finished
  have user := users.mp rfl 0 (by decide)
  rw [bad] at user
  cases user

end Xv6.Vm
