import Mathlib.Data.Finset.Card
import Xv6.Vm.Frames

set_option autoImplicit false

namespace Xv6.Vm

def Role.of (d f : Nat) : Role → Bool
  | .dir => f = d
  | .tbl d' _ => d' = d
  | .page d' _ => d' = d
  | _ => false

section

variable {k : Kernel} {cond : Event RamOp Ram → Prop} {bad : String → Prop} {pid : Nat} {α : Type} {m m' : Ram}
  {Q : α → Ram → Prop}

abbrev Spec (k : Kernel) (cond : Event RamOp Ram → Prop) (bad : String → Prop) (pid : Nat) {α : Type} (c : RamM α)
    (m : Ram) (Q : α → Ram → Prop) : Prop :=
  c.wp (RamOp.exec k) cond bad pid m Q

def WalkFound (e : Event RamOp Ram) : Prop :=
  match e with
  | { act := .probe .nullPte, .. } => False
  | _ => True

theorem exec_ready {β : Type} (o : RamOp β) (m : Ram) : RamOp.exec k o m ≠ .blocked := by
  cases o with
  | kalloc =>
    simp only [RamOp.exec]
    cases m.freelist <;> simp
  | kfree f =>
    simp only [RamOp.exec]
    split <;> simp
  | _ => simp [RamOp.exec]

theorem exec_notes (pid : Nat) {β : Type} {o : RamOp β} {r : β} (step : RamOp.exec k o m = .ok r m') :
    (m'.notes = m.notes ∧ WalkFound ⟨pid, o, r, m, m'⟩) ∨
      ∃ note, m'.notes = note :: m.notes ∧ (note ≠ .nullPte → WalkFound ⟨pid, o, r, m, m'⟩) := by
  cases o with
  | kalloc =>
    refine .inl ⟨?_, trivial⟩
    simp only [RamOp.exec] at step
    split at step <;> cases step <;> rfl
  | kfree f =>
    refine .inl ⟨?_, trivial⟩
    simp only [RamOp.exec] at step
    split at step <;> cases step
    rfl
  | probe note =>
    cases step
    refine .inr ⟨note, rfl, fun other => ?_⟩
    cases note with
    | nullPte => exact absurd rfl other
    | _ => trivial
  | panic msg => cases step
  | _ =>
    cases step
    exact .inl ⟨rfl, trivial⟩

theorem completes_found {α : Type} {c : RamM α} {a : α} (done : c.Completes (RamOp.exec k) (fun _ => True) pid m a m') :
    ∃ extra, m'.notes = extra ++ m.notes ∧ (.nullPte ∉ extra → c.Completes (RamOp.exec k) WalkFound pid m a m') := by
  induction c generalizing m with
  | ret b => exact ⟨[], by rw [done.2]; rfl, fun _ => done⟩
  | op o next ih =>
    obtain ⟨r, m₁, step, -, rest⟩ := done
    obtain ⟨extra, notes, found⟩ := ih r rest
    rcases exec_notes pid step with ⟨same, ok⟩ | ⟨note, one, ok⟩
    · exact ⟨extra, by rw [notes, same], fun none => ⟨r, m₁, step, ok, found none⟩⟩
    · refine ⟨extra ++ [note], by rw [notes, one, List.append_assoc]; rfl, fun none => ⟨r, m₁, step, ?_, ?_⟩⟩
      · refine ok fun same => none ?_
        rw [same]
        simp
      · exact found fun member => none (List.mem_append_left _ member)

theorem completes_quiet {α : Type} {c : RamM α} {a : α} (done : c.Completes (RamOp.exec k) (fun _ => True) pid m a m')
    (before : m.notes = []) (after : m'.notes = []) : c.Completes (RamOp.exec k) WalkFound pid m a m' := by
  obtain ⟨extra, notes, found⟩ := completes_found done
  rw [before, after, List.append_nil] at notes
  exact found (by simp [← notes])

theorem spec_run {α : Type} {c : RamM α} {Q : α → Ram → Prop} (spec : Spec k (fun _ => True) (fun _ => True) 0 c m Q) :
    ∃ a m', c.run (RamOp.exec k) m = .ok a m' ∧ Q a m' := by
  obtain ⟨a, m', done, holds⟩ := Prog.wp_total exec_ready spec
  exact ⟨a, m', Prog.completes_run _ _ _ _ _ _ _ done, holds⟩

theorem spec_read {f i : Nat} {next : Pte → RamM α} (rest : Spec k cond bad pid (next (m.word f i)) m Q) :
    Spec k cond bad pid (read f i >>= next) m Q :=
  fun _ => rest

theorem spec_write {f i : Nat} {e : Pte} {next : Unit → RamM α}
    (rest : Spec k cond bad pid (next ()) (m.setWord f i e) Q) : Spec k cond bad pid (write f i e >>= next) m Q :=
  fun _ => rest

theorem spec_fill {f : Nat} {words : Nat → Pte → Pte} {next : Unit → RamM α}
    (rest : Spec k cond bad pid (next ()) (m.fill f words) Q) : Spec k cond bad pid (fill f words >>= next) m Q :=
  fun _ => rest

theorem spec_copy {dst src : Nat} {next : Unit → RamM α}
    (rest : Spec k cond bad pid (next ()) { m with word := upd m.word dst (m.word src) } Q) :
    Spec k cond bad pid (copy dst src >>= next) m Q :=
  fun _ => rest

theorem spec_probe {note : Probe} {next : Unit → RamM α}
    (rest : cond ⟨pid, .probe note, (), m, { m with notes := note :: m.notes }⟩ →
      Spec k cond bad pid (next ()) { m with notes := note :: m.notes } Q) :
    Spec k cond bad pid (probe note >>= next) m Q :=
  rest

theorem spec_kalloc {next : Option Nat → RamM α} (none : m.freelist = [] → Spec k cond bad pid (next none) m Q)
    (some : ∀ f rest, m.freelist = f :: rest → Spec k cond bad pid (next (some f)) { m with freelist := rest } Q) :
    Spec k cond bad pid (kalloc >>= next) m Q := by
  unfold Spec kalloc
  simp only [Prog.lift_bind, Prog.wp, RamOp.exec]
  cases head : m.freelist with
  | nil => exact fun _ => none head
  | cons f rest => exact fun _ => some f rest head

theorem spec_kfree {f : Nat} {next : Unit → RamM α} (managed : k.managed f)
    (rest : Spec k cond bad pid (next ()) (m.kfree f) Q) : Spec k cond bad pid (kfree f >>= next) m Q := by
  unfold Spec kfree
  simp only [Prog.lift_bind, Prog.wp, RamOp.exec, if_pos managed]
  exact fun _ => rest

theorem spec_kfree_last {f : Nat} {Q : Unit → Ram → Prop} (managed : k.managed f) (holds : Q () (m.kfree f)) :
    Spec k cond bad pid (kfree f) m Q := by
  rw [← Prog.bind_unit (kfree f)]
  exact spec_kfree managed holds

theorem spec_panic {msg : String} (harmless : ¬ bad msg) : Spec k cond bad pid (panic msg : RamM α) m Q := harmless

end

-- Frames only left the free list, for roles that new allows.
structure Grown (k : Kernel) (m m' : Ram) (role role' : Nat → Role) (new : Nat → Role → Prop) : Prop where
  frames : Frames k m' role'
  taken : ∀ f, role' f = role f ∨ (role f = .free ∧ new f (role' f))
  outside : ∀ f, role f = .out → m'.word f = m.word f
  notes : m'.notes = m.notes

variable {k : Kernel} {m m' m'' : Ram} {role role' role'' : Nat → Role} {new : Nat → Role → Prop}

theorem grown_refl (frames : Frames k m role) : Grown k m m role role new := ⟨frames, fun _ => .inl rfl, fun _ _ => rfl, rfl⟩

theorem grown_kept (grown : Grown k m m' role role' new) {f : Nat} (busy : role f ≠ .free) : role' f = role f :=
  (grown.taken f).resolve_right fun taken => busy taken.1

theorem grown_trans (first : Grown k m m' role role' new) (second : Grown k m' m'' role' role'' new) :
    Grown k m m'' role role'' new := by
  refine ⟨second.frames, fun f => ?_, fun f out => ?_, second.notes.trans first.notes⟩
  · rcases second.taken f with same | ⟨free, now⟩
    · rw [same]
      exact first.taken f
    · rcases first.taken f with same' | ⟨free', -⟩
      · exact .inr ⟨same'.symm.trans free, now⟩
      · exact .inr ⟨free', now⟩
  · rw [second.outside f (by rw [grown_kept first (by simp [out])]; exact out), first.outside f out]

theorem grown_mono {wide : Nat → Role → Prop} (grown : Grown k m m' role role' new) (weaker : ∀ f r, new f r → wide f r) :
    Grown k m m' role role' wide :=
  ⟨grown.frames, fun f => (grown.taken f).imp_right fun taken => ⟨taken.1, weaker f _ taken.2⟩, grown.outside, grown.notes⟩

theorem grown_was_free (grown : Grown k m m' role role' new) {f : Nat} (free : role' f = .free) : role f = .free := by
  rcases grown.taken f with same | ⟨was, -⟩
  · exact same.symm.trans free
  · exact was

theorem grown_notes (grown : Grown k m m' role role' new) (notes : List Probe) :
    Grown k { m with notes := notes } { m' with notes := notes } role role' new :=
  ⟨frames_notes grown.frames notes, grown.taken, grown.outside, rfl⟩

def Pages (d lo hi : Nat) (_ : Nat) (r : Role) : Prop := (∃ i, r = .tbl d i) ∨ ∃ n, lo ≤ n ∧ n < hi ∧ r = .page d n

theorem pages_mono {d lo hi lo' hi' f : Nat} {r : Role} (pages : Pages d lo hi f r) (low : lo' ≤ lo) (high : hi ≤ hi') :
    Pages d lo' hi' f r := by
  rcases pages with tbl | ⟨n, above, below, page⟩
  · exact .inl tbl
  · exact .inr ⟨n, low.trans above, below.trans_le high, page⟩

theorem grown_page {d lo hi : Nat} (grown : Grown k m m' role role' (Pages d lo hi)) {f d' n : Nat} (is : role' f = .page d' n) :
    role f = .page d' n ∨ (d' = d ∧ lo ≤ n ∧ n < hi) := by
  rcases grown.taken f with same | ⟨-, ⟨i, tbl⟩ | ⟨n', low, high, page⟩⟩
  · exact .inl (same ▸ is)
  · rw [is] at tbl
    cases tbl
  · rw [is] at page
    cases page
    exact .inr ⟨rfl, low, high⟩

abbrev InUse (i : Nat) : Prop := i < 568 ∨ (1016 ≤ i ∧ i < 1024)

def absent (m : Ram) (d : Nat) : Finset Nat := (Finset.range 1024).filter fun i => InUse i ∧ (m.word d i).p = false

def lookup (m : Ram) (d n : Nat) : Option Pte :=
  if (m.word d (n / 1024)).p && (m.word (m.word d (n / 1024)).frame (n % 1024)).p then
    some (m.word (m.word d (n / 1024)).frame (n % 1024))
  else none

def room (m : Ram) (d : Nat) : Int := m.freelist.length - (absent m d).card

def Untouched (m m' : Ram) (role : Nat → Role) (d : Nat) : Prop :=
  ∀ g, role g ≠ .free → g ≠ d → (∀ i, role g ≠ .tbl d i) → m'.word g = m.word g

theorem untouched_refl (m : Ram) (role : Nat → Role) (d : Nat) : Untouched m m role d := fun _ _ _ _ => rfl

theorem untouched_trans {d : Nat} (grown : Grown k m m' role role' new) (first : Untouched m m' role d)
    (second : Untouched m' m'' role' d) : Untouched m m'' role d := by
  intro g busy other plain
  have kept := grown_kept grown busy
  rw [second g (by rw [kept]; exact busy) other (by rw [kept]; exact plain), first g busy other plain]

structure Walked (k : Kernel) (m m' : Ram) (role role' : Nat → Role) (d i t : Nat) : Prop
    extends Grown k m m' role role' (Pages d 0 0) where
  table : role' t = .tbl d i
  room : room m' d = room m d
  lookup : ∀ n < 2 ^ 20, lookup m' d n = lookup m d n
  pdes : ∀ j, j ≠ i → m'.word d j = m.word d j
  data : Untouched m m' role d

variable {cond : Event RamOp Ram → Prop} {bad : String → Prop} {pid : Nat}

theorem pdx_lt (va : Nat) : pdx va < 1024 := Nat.mod_lt _ (by decide)

theorem ptx_lt (va : Nat) : ptx va < 1024 := Nat.mod_lt _ (by decide)

theorem walk_find (d va : Nat) : Spec k cond bad pid (walkpgdir d va false) m fun r m' => m' = m ∧
    r = if (m.word d (pdx va)).p then some ((m.word d (pdx va)).frame, ptx va) else none := by
  unfold walkpgdir
  refine spec_read ?_
  by_cases present : (m.word d (pdx va)).p = true
  · simp only [present, if_true]
    exact ⟨rfl, rfl⟩
  · simp only [present]
    exact ⟨rfl, rfl⟩

@[simp] theorem fill_self (m : Ram) (f : Nat) (words : Nat → Pte → Pte) (j : Nat) :
    (m.fill f words).word f j = words j (m.word f j) := by
  simp [Ram.fill]

theorem fill_ne (m : Ram) {f g : Nat} (words : Nat → Pte → Pte) (other : g ≠ f) : (m.fill f words).word g = m.word g :=
  upd_ne other

theorem frames_fill (frames : Frames k m role) {f : Nat} (was : (role f).Plain ∨ ∃ d n, role f = .page d n)
    (words : Nat → Pte → Pte) : Frames k (m.fill f words) role :=
  frames_words frames was _

def newTable (m : Ram) (rest : List Nat) (d i t : Nat) : Ram :=
  (({ m with freelist := rest } : Ram).fill t fun _ _ => .ofWord 0).setWord d i (permUser.entry t)

theorem new_table_other {rest : List Nat} {d i t g : Nat} (notDir : g ≠ d) (notNew : g ≠ t) :
    (newTable m rest d i t).word g = m.word g := by
  rw [newTable, set_word_frame _ _ _ notDir, fill_ne _ _ notNew]

theorem new_table_dir {rest : List Nat} {d i j t : Nat} (away : d ≠ t) (other : j ≠ i) :
    (newTable m rest d i t).word d j = m.word d j := by
  rw [newTable, set_word_index _ _ _ other, fill_ne _ _ away]

theorem new_table_empty {rest : List Nat} {d i t : Nat} (away : d ≠ t) (j : Nat) :
    (newTable m rest d i t).word t j = .ofWord 0 := by
  rw [newTable, set_word_frame _ _ _ (Ne.symm away), fill_self]

theorem new_table_frames (frames : Frames k m role) {d i t : Nat} {rest : List Nat} (is : role d = .dir) (small : i < 1024)
    (missing : (m.word d i).p = false) (head : m.freelist = t :: rest) :
    Frames k (newTable m rest d i t) (upd role t (.tbl d i)) := by
  obtain ⟨was, taken⟩ := frames_alloc frames head
  have away : d ≠ t := role_ne is was
  have cleared := frames_fill taken (f := t) (.inl (by rw [upd_self]; trivial)) fun _ _ => .ofWord 0
  have entered := frames_new_tbl cleared (d := d) (t := t) (i := i) (by rw [upd_ne away]; exact is) small
    (by rw [fill_ne _ _ away]; exact missing) (upd_self _ _ _) (fun j => by rw [fill_self]; rfl) permUser
  rwa [upd_twice] at entered

theorem new_table_absent {d i t : Nat} {rest : List Nat} (away : d ≠ t) :
    absent (newTable m rest d i t) d = (absent m d).erase i := by
  ext j
  rw [Finset.mem_erase, absent, absent, Finset.mem_filter, Finset.mem_filter]
  by_cases here : j = i
  · rw [here, newTable, set_word_self]
    simp
  · rw [new_table_dir away here]
    simp [here]

theorem new_table_lookup (frames : Frames k m role) {d i t : Nat} {rest : List Nat} (is : role d = .dir)
    (missing : (m.word d i).p = false) (was : role t = .free) (n : Nat) (bound : n < 2 ^ 20) :
    lookup (newTable m rest d i t) d n = lookup m d n := by
  have away : d ≠ t := role_ne is was
  unfold lookup
  by_cases here : n / 1024 = i
  · have entered : (newTable m rest d i t).word d i = permUser.entry t := set_word_self _ _ _ _
    rw [here, missing, entered, entry_frame, new_table_empty away]
    simp [Pte.ofWord]
  · rw [new_table_dir away here]
    by_cases present : (m.word d (n / 1024)).p = true
    · have table := frames.dir d is _ (by omega) present
      rw [new_table_other]
      · intro same
        rw [same, is] at table
        cases table
      · intro same
        rw [same, was] at table
        cases table
    · simp [present]

theorem walked_new (frames : Frames k m role) {d i t : Nat} {rest : List Nat} (is : role d = .dir) (used : InUse i)
    (missing : (m.word d i).p = false) (head : m.freelist = t :: rest) :
    Walked k m (newTable m rest d i t) role (upd role t (.tbl d i)) d i t := by
  have was := (frames_alloc frames head).1
  have small : i < 1024 := by omega
  have away : d ≠ t := role_ne is was
  refine ⟨⟨new_table_frames frames is small missing head, fun f => ?_, fun f out => ?_, rfl⟩, upd_self _ _ _, ?_,
    new_table_lookup frames is missing was, fun j other => new_table_dir away other, fun g busy other _ => ?_⟩
  · by_cases here : f = t
    · rw [here, upd_self]
      exact .inr ⟨was, .inl ⟨i, rfl⟩⟩
    · exact .inl (upd_ne here)
  · refine new_table_other ?_ ?_
    · exact role_ne out is
    · exact role_ne out was
  · have gone : i ∈ absent m d := Finset.mem_filter.mpr ⟨Finset.mem_range.mpr small, used, missing⟩
    have size := Finset.card_erase_add_one gone
    have list : (newTable m rest d i t).freelist.length + 1 = m.freelist.length := by
      rw [head]
      rfl
    rw [room, room, new_table_absent away]
    omega
  · refine new_table_other other ?_
    rintro rfl
    exact busy was

-- The kernel part of directory d is the same, and its entries for pages outside lo up to hi.
structure Kept (m m' : Ram) (d lo hi : Nat) : Prop where
  pdes : ∀ j, 512 ≤ j → j < 1024 → m'.word d j = m.word d j
  lookup : ∀ n < 2 ^ 20, n < lo ∨ hi ≤ n → lookup m' d n = lookup m d n

theorem kept_refl (m : Ram) (d lo hi : Nat) : Kept m m d lo hi := ⟨fun _ _ _ => rfl, fun _ _ _ => rfl⟩

theorem kept_trans {d lo hi : Nat} (first : Kept m m' d lo hi) (second : Kept m' m'' d lo hi) : Kept m m'' d lo hi :=
  ⟨fun j low high => (second.pdes j low high).trans (first.pdes j low high),
    fun n bound outside => (second.lookup n bound outside).trans (first.lookup n bound outside)⟩

theorem kept_mono {d lo hi lo' hi' : Nat} (kept : Kept m m' d lo hi) (low : lo' ≤ lo) (high : hi ≤ hi') : Kept m m' d lo' hi' :=
  ⟨kept.pdes, fun n bound outside => kept.lookup n bound (outside.imp (fun below => below.trans_le low) fun above => high.trans above)⟩

theorem walk_alloc (frames : Frames k m role) {d : Nat} (is : role d = .dir) (va : Nat) (used : InUse (pdx va)) :
    Spec k cond bad pid (walkpgdir d va true) m fun r m' => (r = none ∧ m' = m ∧ room m d < 0) ∨
      ∃ t role', r = some (t, ptx va) ∧ Walked k m m' role role' d (pdx va) t := by
  unfold walkpgdir
  refine spec_read ?_
  by_cases present : (m.word d (pdx va)).p = true
  · simp only [present, if_true]
    refine .inr ⟨_, role, rfl, grown_refl frames, ?_, rfl, fun _ _ => rfl, fun _ _ => rfl, untouched_refl m role d⟩
    exact frames.dir d is _ (pdx_lt va) present
  · have missing : (m.word d (pdx va)).p = false := by simpa using present
    have gone : pdx va ∈ absent m d := Finset.mem_filter.mpr ⟨Finset.mem_range.mpr (pdx_lt va), used, missing⟩
    simp only [present, if_true]
    refine spec_kalloc (fun empty => ?_) fun t rest head => ?_
    · refine .inl ⟨rfl, rfl, ?_⟩
      have some_ := Finset.card_pos.mpr ⟨_, gone⟩
      rw [room, empty, List.length_nil]
      omega
    · exact spec_fill (spec_write (.inr ⟨t, upd role t (.tbl d (pdx va)), rfl,
        walked_new frames is used missing head⟩))

theorem pdx_page {n : Nat} (bound : n < 2 ^ 20) : pdx (n * pgsize) = n / 1024 := by
  unfold pdx pgsize
  omega

theorem ptx_page (n : Nat) : ptx (n * pgsize) = n % 1024 := by
  unfold ptx pgsize
  omega

theorem room_set_word {d t : Nat} (j : Nat) (e : Pte) (away : d ≠ t) : room (m.setWord t j e) d = room m d := by
  unfold room absent
  rw [set_word_frame m j e away]
  rfl

theorem entry_absent (frames : Frames k m role) {d t n : Nat} (table : role t = .tbl d (n / 1024)) (user : n < 2 ^ 19)
    (unmapped : ∀ f, role f ≠ .page d n) : (m.word t (n % 1024)).p = false := by
  by_contra present
  have page := frames.entry t d _ table (by omega) (n % 1024) (by omega) (by simpa using present)
  rw [show 1024 * (n / 1024) + n % 1024 = n by omega] at page
  exact unmapped _ page

theorem lookup_set_word (frames : Frames k m role) {d t n n' : Nat} {e : Pte} (table : role t = .tbl d (n / 1024))
    (bound : n' < 2 ^ 20) :
    lookup (m.setWord t (n % 1024) e) d n' = if n' = n then (if e.p then some e else none) else lookup m d n' := by
  obtain ⟨is, small, present, points⟩ := frames.tbl t d _ table
  have away : d ≠ t := role_ne is table
  unfold lookup
  rw [set_word_frame m _ _ away]
  by_cases here : n' = n
  · rw [here, points, set_word_self, present]
    simp
  · rw [if_neg here]
    by_cases sameTbl : n' / 1024 = n / 1024
    · rw [sameTbl, points, set_word_index m t e (by omega)]
    · by_cases pde : (m.word d (n' / 1024)).p = true
      · have table' := frames.dir d is _ (by omega) pde
        rw [set_word_frame]
        intro same
        rw [same, table] at table'
        exact sameTbl (Role.tbl.inj table').2.symm
      · simp [pde]

theorem lookup_page {d n : Nat} {e : Pte} (frames : Frames k m role) (is : role d = .dir) (user : n < 2 ^ 19)
    (found : lookup m d n = some e) : role e.frame = .page d n := by
  unfold lookup at found
  split at found
  · next present =>
      obtain ⟨pde, pte⟩ := Bool.and_eq_true_iff.mp present
      cases found
      have page := frames.entry _ d _ (frames.dir d is _ (by omega) pde) (by omega) (n % 1024) (by omega) pte
      rwa [show 1024 * (n / 1024) + n % 1024 = n by omega] at page
  · cases found

theorem lookup_other (frames : Frames k m role) {d g n : Nat} (is : role d = .dir) (other : g ≠ d)
    (plain : ∀ i, role g ≠ .tbl d i) (same : ∀ g', g' ≠ g → m'.word g' = m.word g') (bound : n < 2 ^ 20) :
    lookup m' d n = lookup m d n := by
  unfold lookup
  rw [same d (Ne.symm other)]
  by_cases present : (m.word d (n / 1024)).p = true
  · have table := frames.dir d is _ (by omega) present
    rw [same]
    intro here
    rw [here] at table
    exact plain _ table
  · simp [present]

theorem kept_other (frames : Frames k m role) {d g : Nat} (lo hi : Nat) (is : role d = .dir) (other : g ≠ d)
    (plain : ∀ i, role g ≠ .tbl d i) (same : ∀ g', g' ≠ g → m'.word g' = m.word g') : Kept m m' d lo hi :=
  ⟨fun j _ _ => by rw [same d (Ne.symm other)], fun _ bound _ => lookup_other frames is other plain same bound⟩

theorem map_user {f d n : Nat} (frames : Frames k m (upd role f .hand)) (was : role f = .free) (is : role d = .dir)
    (user : n < 2 ^ 19) (unmapped : ∀ g, role g ≠ .page d n) (perm : Perm) :
    Spec k cond bad pid (mapPage d (n * pgsize) (f * pgsize) perm) m fun r m' => (r = false ∧ m' = m ∧ room m d < 0) ∨
      (r = true ∧ ∃ role', Grown k m m' role role' (Pages d n (n + 1)) ∧ role' f = .page d n ∧ room m' d = room m d ∧
        Kept m m' d n (n + 1) ∧ lookup m' d n = some (perm.entry f) ∧ Untouched m m' (upd role f .hand) d) := by
  have away : d ≠ f := role_ne is was
  unfold mapPage
  have used : InUse (pdx (n * pgsize)) := by
    rw [pdx_page (by omega)]
    omega
  refine Prog.wp_call (walk_alloc frames (by rw [upd_ne away]; exact is) (n * pgsize) used) ?_
  rintro r m' (⟨rfl, rfl, full⟩ | ⟨t, role', rfl, walked⟩)
  · exact .inl ⟨rfl, rfl, full⟩
  · have table := walked.table
    rw [pdx_page (by omega)] at table
    have inHand : role' f = .hand := by
      rw [grown_kept walked.toGrown (by rw [upd_self]; simp), upd_self]
    have still : ∀ g, role' g ≠ .page d n := by
      intro g page
      rcases grown_page walked.toGrown page with old | ⟨-, -, impossible⟩
      · by_cases here : g = f
        · rw [here, upd_self] at old
          cases old
        · rw [upd_ne here] at old
          exact unmapped g old
      · omega
    have absent := entry_absent walked.frames table user still
    rw [ptx_page]
    refine spec_read ?_
    rw [absent]
    have notDir : d ≠ t := by
      rintro rfl
      rw [(walked.frames.tbl _ _ _ table).1] at table
      cases table
    refine spec_write (.inr ⟨rfl, upd role' f (.page d n), ?_, upd_self _ _ _, ?_, ?_, ?_, fun g busy other plain => ?_⟩)
    · have mapped := frames_map walked.frames table (by omega) (by omega) absent inHand perm
      rw [show 1024 * (n / 1024) + n % 1024 = n by omega] at mapped
      rw [show f * pgsize / pgsize = f from Nat.mul_div_cancel f (by decide)]
      refine ⟨mapped, fun g => ?_, fun g out => ?_, walked.notes⟩
      · by_cases here : g = f
        · rw [here, upd_self]
          exact .inr ⟨was, .inr ⟨n, le_refl n, by omega, rfl⟩⟩
        · rw [upd_ne here]
          have taken := walked.taken g
          rw [upd_ne here] at taken
          refine taken.imp_right fun new => ⟨new.1, ?_⟩
          rcases new.2 with tbl | ⟨_, _, impossible, _⟩
          · exact .inl tbl
          · omega
      · have notHand : g ≠ f := role_ne out was
        have out' : upd role f .hand g = .out := by rw [upd_ne notHand]; exact out
        rw [set_word_frame, walked.outside g out']
        rintro rfl
        rw [grown_kept walked.toGrown (by rw [out']; simp), out'] at table
        cases table
    · rw [← walked.room]
      exact room_set_word _ _ notDir
    · refine ⟨fun j low high => ?_, fun n' bound outside => ?_⟩
      · rw [set_word_frame _ _ _ notDir, walked.pdes j]
        rw [pdx_page (by omega)]
        omega
      · rw [lookup_set_word walked.frames table bound, if_neg (by omega), walked.lookup n' bound]
    · rw [lookup_set_word walked.frames table (by omega), if_pos rfl, if_pos (entry_present _ _), Nat.mul_div_cancel f (by decide)]
    · rw [set_word_frame, walked.data g busy other plain]
      rintro rfl
      rw [grown_kept walked.toGrown busy] at table
      exact plain _ table

structure KernelMapped (k : Kernel) (m m' : Ram) (role role' : Nat → Role) (d : Nat) (entry : Nat → Pte)
    (range : Nat → Prop) : Prop extends Grown k m m' role role' (Pages d 0 0) where
  room : room m' d = room m d
  others : ∀ n < 2 ^ 20, ¬ range n → lookup m' d n = lookup m d n
  mapped : ∀ n < 2 ^ 20, range n → lookup m' d n = some (entry n)
  pdes : ∀ j, (∀ n, range n → j ≠ n / 1024) → m'.word d j = m.word d j
  data : Untouched m m' role d

theorem kernel_mapped_trans {d : Nat} {entry : Nat → Pte} {first second : Nat → Prop}
    (one : KernelMapped k m m' role role' d entry first) (two : KernelMapped k m' m'' role' role'' d entry second) :
    KernelMapped k m m'' role role'' d entry fun n => first n ∨ second n := by
  refine ⟨grown_trans one.toGrown two.toGrown, two.room.trans one.room, fun n bound outside => ?_, fun n bound inside => ?_,
    fun j apart => ?_, untouched_trans one.toGrown one.data two.data⟩
  · rw [two.others n bound fun now => outside (.inr now), one.others n bound fun now => outside (.inl now)]
  · by_cases late : second n
    · exact two.mapped n bound late
    · rw [two.others n bound late]
      exact one.mapped n bound (inside.resolve_right late)
  · rw [two.pdes j fun n now => apart n (.inr now), one.pdes j fun n now => apart n (.inl now)]

theorem kernel_mapped_congr {d : Nat} {entry : Nat → Pte} {first second : Nat → Prop}
    (one : KernelMapped k m m' role role' d entry first) (same : ∀ n, second n ↔ first n) :
    KernelMapped k m m' role role' d entry second := by
  rwa [funext fun n => propext (same n)]

theorem map_kernel (frames : Frames k m role) {d n : Nat} (is : role d = .dir) (kernel : 2 ^ 19 ≤ n) (used : InUse (n / 1024))
    (pa : Nat) (perm : Perm) (fresh : bad "remap" → lookup m d n = none) {entry : Nat → Pte}
    (new : entry n = perm.entry (pa / pgsize)) :
    Spec k cond bad pid (mapPage d (n * pgsize) pa perm) m fun r m' => (r = false ∧ m' = m ∧ room m d < 0) ∨
      (r = true ∧ ∃ role', KernelMapped k m m' role role' d entry fun n' => n' = n) := by
  have bound : n < 2 ^ 20 := by omega
  unfold mapPage
  refine Prog.wp_call (walk_alloc frames is (n * pgsize) (by rwa [pdx_page bound])) ?_
  rintro r m' (⟨rfl, rfl, full⟩ | ⟨t, role', rfl, walked⟩)
  · exact .inl ⟨rfl, rfl, full⟩
  · have table := walked.table
    rw [pdx_page bound] at table
    obtain ⟨is', small, present, points⟩ := walked.frames.tbl t d _ table
    have away : d ≠ t := role_ne is' table
    rw [ptx_page]
    refine spec_read ?_
    by_cases mapped : (m'.word t (n % 1024)).p = true
    · simp only [mapped, if_true]
      refine spec_panic fun isBad => ?_
      have old := walked.lookup n bound
      rw [fresh isBad, lookup, points, present, mapped] at old
      cases old
    · simp only [mapped]
      refine spec_write (.inr ⟨rfl, role', ?_⟩)
      have entered : ∀ n' < 2 ^ 20, lookup (m'.setWord t (n % 1024) (perm.entry (pa / pgsize))) d n' =
          if n' = n then some (perm.entry (pa / pgsize)) else lookup m' d n' :=
        fun n' bound' => lookup_set_word walked.frames table bound'
      have busy : ∀ g, role g ≠ .free → (∀ i, role g ≠ .tbl d i) → g ≠ t := by
        rintro g used plain rfl
        rw [grown_kept walked.toGrown used] at table
        exact plain _ table
      refine ⟨⟨frames_entry walked.frames table (fun user => by omega), walked.taken, fun f out => ?_, walked.notes⟩,
        (room_set_word _ _ away).trans walked.room, fun n' bound' other => ?_, fun n' bound' here => ?_, fun j apart => ?_,
        fun g used other plain => ?_⟩
      · rw [set_word_frame _ _ _ (busy f (by simp [out]) (by simp [out])), walked.outside f out]
      · rw [entered n' bound', if_neg other]
        exact walked.lookup n' bound'
      · rw [entered n' bound', if_pos here, here, new]
      · rw [set_word_frame _ _ _ away, walked.pdes j]
        rw [pdx_page bound]
        exact apart n rfl
      · rw [set_word_frame _ _ _ (busy g used plain), walked.data g used other plain]

theorem map_loop_kernel {d : Nat} (pa : Nat) (perm : Perm) (more n : Nat) (frames : Frames k m role) (is : role d = .dir)
    (kernel : 2 ^ 19 ≤ n) (used : ∀ n', n ≤ n' → n' ≤ n + more → InUse (n' / 1024))
    (fresh : bad "remap" → ∀ n', n ≤ n' → n' ≤ n + more → lookup m d n' = none) {entry : Nat → Pte}
    (fits : pa / pgsize + more < 2 ^ 20) (new : ∀ i ≤ more, entry (n + i) = perm.entry (pa / pgsize + i)) :
    Spec k cond bad pid (mapLoop d perm more (n * pgsize) pa) m fun r m' =>
      (r = false ∧ room m d < 0 ∧ ∃ role', Grown k m m' role role' (Pages d 0 0) ∧ Untouched m m' role d) ∨
      (r = true ∧ ∃ role', KernelMapped k m m' role role' d entry fun n' => n ≤ n' ∧ n' ≤ n + more) := by
  induction more generalizing m role n pa with
  | zero =>
    refine Prog.wp_mono (map_kernel frames is kernel (used n (le_refl n) (by omega)) pa perm
      (fun isBad => fresh isBad n (le_refl n) (by omega)) (new 0 (le_refl 0))) ?_
    rintro r m' (⟨rfl, rfl, full⟩ | ⟨rfl, role', mapped⟩)
    · exact .inl ⟨rfl, full, role, grown_refl frames, untouched_refl _ _ _⟩
    · exact .inr ⟨rfl, role', kernel_mapped_congr mapped fun n' => by omega⟩
  | succ more ih =>
    unfold mapLoop
    have last := used (n + (more + 1)) (by omega) (le_refl _)
    refine Prog.wp_call (map_kernel frames is kernel (used n (le_refl n) (by omega)) pa perm
      (fun isBad => fresh isBad n (le_refl n) (by omega)) (new 0 (Nat.zero_le _))) ?_
    rintro r m' (⟨rfl, rfl, full⟩ | ⟨rfl, role', mapped⟩)
    · exact .inl ⟨rfl, full, role, grown_refl frames, untouched_refl _ _ _⟩
    · have next : u32 (n * pgsize + pgsize) = (n + 1) * pgsize := by
        unfold u32 pgsize
        omega
      have frame : u32 (pa + pgsize) / pgsize = pa / pgsize + 1 := by
        unfold u32
        simp only [pgsize] at fits ⊢
        omega
      rw [if_pos rfl, next]
      have is' : role' d = .dir := by rw [grown_kept mapped.toGrown (by simp [is]), is]
      refine Prog.wp_mono (ih _ (n + 1) mapped.frames is' (by omega)
        (fun n' low high => used n' (by omega) (by omega)) (fun isBad n' low high => ?_) (by omega) fun i small => ?_) ?_
      · rw [mapped.others n' (by omega) (by omega)]
        exact fresh isBad n' (by omega) (by omega)
      · rw [frame, Nat.add_assoc, Nat.add_assoc, Nat.add_comm 1 i]
        exact new (i + 1) (by omega)
      · rintro r m'' (⟨rfl, full, role'', grown, data⟩ | ⟨rfl, role'', later⟩)
        · exact .inl ⟨rfl, mapped.room ▸ full, role'', grown_trans mapped.toGrown grown,
            untouched_trans mapped.toGrown mapped.data data⟩
        · exact .inr ⟨rfl, role'', kernel_mapped_congr (kernel_mapped_trans mapped later) fun n' => by omega⟩

theorem mappages_eq (d v count pa : Nat) (perm : Perm) (some_ : 1 ≤ count) (bound : v + count ≤ 2 ^ 20) :
    mappages d (v * pgsize) (count * pgsize) pa perm = mapLoop d perm (count - 1) (v * pgsize) pa := by
  have first : pgrounddown (v * pgsize) = v * pgsize := by
    unfold pgrounddown pgsize
    omega
  have last : pgrounddown (u32 (v * pgsize + count * pgsize + 2 ^ 32 - 1)) = (v + count - 1) * pgsize := by
    unfold pgrounddown u32 pgsize
    omega
  have steps : u32 ((v + count - 1) * pgsize + 2 ^ 32 - v * pgsize) / pgsize = count - 1 := by
    unfold u32 pgsize
    omega
  simp only [mappages, first, last, steps]

theorem mappages_page (d n pa : Nat) (perm : Perm) (bound : n < 2 ^ 20) :
    mappages d (n * pgsize) pgsize pa perm = mapPage d (n * pgsize) pa perm := by
  have whole := mappages_eq d n 1 pa perm (le_refl 1) (by omega)
  rwa [one_mul] at whole

def Kmap.pages (e : Kmap) : Nat := u32 (e.physEnd + 2 ^ 32 - e.physStart) / pgsize

def Kmap.Covers (e : Kmap) (n : Nat) : Prop := e.virt / pgsize ≤ n ∧ n < e.virt / pgsize + e.pages

instance (e : Kmap) (n : Nat) : Decidable (e.Covers n) := inferInstanceAs (Decidable (_ ∧ _))

def Kmap.entry (e : Kmap) (n : Nat) : Pte := e.perm.entry (e.physStart / pgsize + (n - e.virt / pgsize))

structure Kmap.Ok (e : Kmap) : Prop where
  virt : e.virt = e.virt / pgsize * pgsize
  size : u32 (e.physEnd + 2 ^ 32 - e.physStart) = e.pages * pgsize
  some_ : 1 ≤ e.pages
  kernel : 2 ^ 19 ≤ e.virt / pgsize
  bound : e.virt / pgsize + e.pages ≤ 2 ^ 20
  phys : e.physStart / pgsize + e.pages ≤ 2 ^ 20
  used : ∀ n, e.Covers n → InUse (n / 1024)

theorem map_kmap {d : Nat} {e : Kmap} (ok : e.Ok) (frames : Frames k m role) (is : role d = .dir)
    (fresh : bad "remap" → ∀ n, e.Covers n → lookup m d n = none) {entry : Nat → Pte}
    (new : ∀ n, e.Covers n → entry n = e.entry n) :
    Spec k cond bad pid (mappages d e.virt (u32 (e.physEnd + 2 ^ 32 - e.physStart)) e.physStart e.perm) m fun r m' =>
      (r = false ∧ room m d < 0 ∧ ∃ role', Grown k m m' role role' (Pages d 0 0) ∧ Untouched m m' role d) ∨
      (r = true ∧ ∃ role', KernelMapped k m m' role role' d entry e.Covers) := by
  have bound := ok.bound
  have positive := ok.some_
  have phys := ok.phys
  have entries : ∀ i ≤ e.pages - 1, entry (e.virt / pgsize + i) = e.perm.entry (e.physStart / pgsize + i) := by
    intro i small
    rw [new _ ⟨by omega, by omega⟩, Kmap.entry, Nat.add_sub_cancel_left]
  rw [ok.virt, ok.size, mappages_eq _ _ _ _ _ positive bound]
  refine Prog.wp_mono (map_loop_kernel e.physStart e.perm (e.pages - 1) (e.virt / pgsize) frames is ok.kernel
    (fun n low high => ok.used n ⟨low, by omega⟩) (fun isBad n low high => fresh isBad n ⟨low, by omega⟩) (by omega) entries) ?_
  rintro r m' (⟨rfl, full, role', grown⟩ | ⟨rfl, role', mapped⟩)
  · exact .inl ⟨rfl, full, role', grown⟩
  · refine .inr ⟨rfl, role', kernel_mapped_congr mapped fun n => ?_⟩
    unfold Kmap.Covers
    omega

theorem map_kernel_list {d : Nat} (list : List Kmap) (ok : ∀ e ∈ list, e.Ok) (frames : Frames k m role) (is : role d = .dir)
    (apart : bad "remap" → list.Pairwise fun e e' => ∀ n, e.Covers n → ¬ e'.Covers n)
    (fresh : bad "remap" → ∀ e ∈ list, ∀ n, e.Covers n → lookup m d n = none) {entry : Nat → Pte}
    (new : ∀ e ∈ list, ∀ n, e.Covers n → entry n = e.entry n) :
    Spec k cond bad pid (mapKernel d list) m fun r m' =>
      (r = false ∧ room m d < 0 ∧ ∃ role', Grown k m m' role role' (Pages d 0 0) ∧ Untouched m m' role d) ∨
      (r = true ∧ ∃ role', KernelMapped k m m' role role' d entry fun n => ∃ e ∈ list, e.Covers n) := by
  induction list generalizing m role with
  | nil =>
    refine .inr ⟨rfl, role, grown_refl frames, rfl, fun _ _ _ => rfl, fun n _ inside => ?_, fun _ _ => rfl, untouched_refl _ _ _⟩
    obtain ⟨e, impossible, -⟩ := inside
    cases impossible
  | cons e rest ih =>
    unfold mapKernel
    refine Prog.wp_call (map_kmap (ok e List.mem_cons_self) frames is (fun isBad => fresh isBad e List.mem_cons_self)
      (new e List.mem_cons_self)) ?_
    rintro r m' (⟨rfl, full, role', grown⟩ | ⟨rfl, role', mapped⟩)
    · exact .inl ⟨rfl, full, role', grown⟩
    · rw [if_pos rfl]
      have is' : role' d = .dir := by rw [grown_kept mapped.toGrown (by simp [is]), is]
      have tail := fun e' member => ok e' (List.mem_cons_of_mem e member)
      refine Prog.wp_mono (ih tail mapped.frames is' (fun isBad => (List.pairwise_cons.mp (apart isBad)).2)
        (fun isBad e' member n covered => ?_) fun e' member => new e' (List.mem_cons_of_mem e member)) ?_
      · have bound := (tail e' member).bound
        have other : ¬ e.Covers n := fun mine => (List.pairwise_cons.mp (apart isBad)).1 e' member n mine covered
        rw [mapped.others n (by have := covered.2; omega) other]
        exact fresh isBad e' (List.mem_cons_of_mem e member) n covered
      · rintro r m'' (⟨rfl, full, role'', grown, data⟩ | ⟨rfl, role'', later⟩)
        · exact .inl ⟨rfl, mapped.room ▸ full, role'', grown_trans mapped.toGrown grown,
            untouched_trans mapped.toGrown mapped.data data⟩
        · refine .inr ⟨rfl, role'', kernel_mapped_congr (kernel_mapped_trans mapped later) fun n => ?_⟩
          simp

theorem kmap_entry {e : Kmap} (v count : Nat) (virt : e.virt = v * pgsize)
    (size : u32 (e.physEnd + 2 ^ 32 - e.physStart) = count * pgsize) : e.virt / pgsize = v ∧ e.pages = count := by
  rw [Kmap.pages, virt, size]
  exact ⟨Nat.mul_div_cancel _ (by decide), Nat.mul_div_cancel _ (by decide)⟩

theorem kmap_entry_ok {e : Kmap} (v count : Nat) (virt : e.virt = v * pgsize)
    (size : u32 (e.physEnd + 2 ^ 32 - e.physStart) = count * pgsize) (some_ : 1 ≤ count) (kernel : 2 ^ 19 ≤ v)
    (bound : v + count ≤ 0x8E000 ∨ (0xFE000 ≤ v ∧ v + count ≤ 0x100000)) (phys : e.physStart / pgsize + count ≤ 2 ^ 20) :
    e.Ok := by
  obtain ⟨page, pages⟩ := kmap_entry v count virt size
  refine ⟨by rw [page, virt], by rw [pages, size], by rw [pages]; exact some_, by rw [page]; exact kernel,
    by rw [page, pages]; omega, by rw [pages]; exact phys, fun n covered => ?_⟩
  rw [Kmap.Covers, page, pages] at covered
  omega

theorem data_bounds (k : Kernel) : k.data % 4096 = 0 ∧ 0x80101000 ≤ k.data ∧ k.data ≤ 0x8DFFF000 := by
  have aligned := k.aligned
  have text := k.text
  have fits := k.fits
  simp only [kernlink, kernbase, extmem, pgsize, phystop] at aligned text fits
  omega

theorem kmap_pages (k : Kernel) :
    (kernbase = 0x80000 * pgsize ∧ u32 (extmem + 2 ^ 32 - 0) = 0x100 * pgsize) ∧
    (kernlink = 0x80100 * pgsize ∧
      u32 (k.data - kernbase + 2 ^ 32 - (kernlink - kernbase)) = (k.data / 4096 - 0x80100) * pgsize) ∧
    (k.data = k.data / 4096 * pgsize ∧ u32 (phystop + 2 ^ 32 - (k.data - kernbase)) = (0x8E000 - k.data / 4096) * pgsize) ∧
    (devspace = 0xFE000 * pgsize ∧ u32 (0 + 2 ^ 32 - devspace) = 0x2000 * pgsize) := by
  obtain ⟨aligned, low, high⟩ := data_bounds k
  refine ⟨⟨by decide, by decide⟩, ⟨by decide, ?_⟩, ⟨?_, ?_⟩, by decide, by decide⟩
  · simp only [u32, kernlink, kernbase, extmem, pgsize]
    omega
  · simp only [pgsize]
    omega
  · simp only [u32, kernbase, phystop, pgsize]
    omega

theorem kmap_ok (k : Kernel) : ∀ e ∈ kmap k, e.Ok := by
  obtain ⟨aligned, low, high⟩ := data_bounds k
  obtain ⟨⟨ioVirt, ioSize⟩, ⟨textVirt, textSize⟩, ⟨dataVirt, dataSize⟩, devVirt, devSize⟩ := kmap_pages k
  intro e member
  simp only [kmap, List.mem_cons, List.not_mem_nil, or_false] at member
  rcases member with rfl | rfl | rfl | rfl
  · exact kmap_entry_ok _ _ ioVirt ioSize (by decide) (by decide) (by decide) (by decide)
  · exact kmap_entry_ok _ _ textVirt textSize (by omega) (by decide) (by omega) (by simp only [kernlink, kernbase, extmem, pgsize]; omega)
  · exact kmap_entry_ok _ _ dataVirt dataSize (by omega) (by omega) (by omega) (by simp only [kernbase, pgsize]; omega)
  · exact kmap_entry_ok _ _ devVirt devSize (by decide) (by decide) (by decide) (by decide)

end Xv6.Vm
