import Xv6.Vm.Memory

set_option autoImplicit false

namespace Xv6.Vm

@[simp] theorem entry_present (perm : Perm) (f : Nat) : (perm.entry f).p = true := rfl

@[simp] theorem entry_frame (perm : Perm) (f : Nat) : (perm.entry f).frame = f := rfl

-- What a frame is used for. tbl d i: the page table of entry i of directory d. page d n:
-- user page n of d. hand: allocated, and in no structure yet. out: not the allocator's, or
-- lost.
inductive Role where
  | out
  | free
  | hand
  | dir
  | tbl (d i : Nat)
  | page (d n : Nat)
  | kstack (q : Nat)
  | pipe
deriving DecidableEq

-- The roles describe the free list and every page directory and page table: their
-- entries are exactly the frames with the role of that entry. Only entries below
-- KERNBASE (i < 512) map frames that have a role.
structure Frames (k : Kernel) (m : Ram) (role : Nat → Role) : Prop where
  nodup : m.freelist.Nodup
  free : ∀ f, f ∈ m.freelist ↔ role f = .free
  managed : ∀ f, role f ≠ .out → k.managed f
  dir : ∀ d, role d = .dir → ∀ i < 1024, (m.word d i).p = true → role (m.word d i).frame = .tbl d i
  tbl : ∀ t d i, role t = .tbl d i → role d = .dir ∧ i < 1024 ∧ (m.word d i).p = true ∧ (m.word d i).frame = t
  entry : ∀ t d i, role t = .tbl d i → i < 512 → ∀ j < 1024, (m.word t j).p = true →
    role (m.word t j).frame = .page d (1024 * i + j)
  page : ∀ f d n, role f = .page d n → n < 2 ^ 19 ∧
    ∃ t, role t = .tbl d (n / 1024) ∧ (m.word t (n % 1024)).p = true ∧ (m.word t (n % 1024)).frame = f

theorem frames_notes {k : Kernel} {m : Ram} {role : Nat → Role} (frames : Frames k m role) (notes : List Probe) :
    Frames k { m with notes := notes } role :=
  ⟨frames.nodup, frames.free, frames.managed, frames.dir, frames.tbl, frames.entry, frames.page⟩

theorem page_entry {k : Kernel} {m : Ram} {role : Nat → Role} (frames : Frames k m role) {f d n : Nat}
    (page : role f = .page d n) : (m.word d (n / 1024)).p = true ∧
      (m.word (m.word d (n / 1024)).frame (n % 1024)).p = true ∧ (m.word (m.word d (n / 1024)).frame (n % 1024)).frame = f := by
  obtain ⟨-, t, table, entry⟩ := frames.page f d n page
  obtain ⟨-, -, present, points⟩ := frames.tbl t d _ table
  rw [points]
  exact ⟨present, entry⟩

theorem page_unique {k : Kernel} {m : Ram} {role : Nat → Role} (frames : Frames k m role) {f g d n : Nat}
    (first : role f = .page d n) (second : role g = .page d n) : f = g := by
  rw [← (page_entry frames first).2.2, ← (page_entry frames second).2.2]

def Role.Plain : Role → Prop
  | .dir => False
  | .tbl _ _ => False
  | .page _ _ => False
  | _ => True

variable {k : Kernel} {m m' : Ram} {role : Nat → Role} {f : Nat}

theorem role_iff {g : Nat} {r x : Role} (old : role f ≠ x) (new : r ≠ x) : upd role f r g = x ↔ role g = x := by
  by_cases here : g = f
  · rw [here, upd_self]
    exact ⟨fun equal => absurd equal new, fun equal => absurd equal old⟩
  · rw [upd_ne here]

theorem role_same {g : Nat} {r x y : Role} (was : role f = y) (old : y ≠ x := by simp) (new : r ≠ x := by simp) :
    upd role f r g = x ↔ role g = x :=
  role_iff (by rwa [was]) new

theorem role_ne {g : Nat} {x y : Role} (one : role f = x) (two : role g = y) (differ : x ≠ y := by simp) : f ≠ g := by
  rintro rfl
  exact differ (one.symm.trans two)

theorem free_upd (frames : Frames k m role) {r : Role} (was : role f ≠ .free) (now : r ≠ .free) (g : Nat) :
    g ∈ m.freelist ↔ upd role f r g = .free := by
  rw [role_iff was now]
  exact frames.free g

theorem managed_upd (frames : Frames k m role) {r : Role} (was : role f ≠ .out) (g : Nat) (used : upd role f r g ≠ .out) :
    k.managed g := by
  by_cases here : g = f
  · rw [here]
    exact frames.managed f was
  · rw [upd_ne here] at used
    exact frames.managed g used

theorem frames_plain (frames : Frames k m role) {r : Role} (was : (role f).Plain) (now : r.Plain)
    (words : ∀ g, ¬ (role g).Plain → m'.word g = m.word g) (nodup : m'.freelist.Nodup)
    (free : ∀ g, g ∈ m'.freelist ↔ upd role f r g = .free) (managed : r ≠ .out → k.managed f) :
    Frames k m' (upd role f r) := by
  have same : ∀ {g : Nat} {x : Role}, ¬ x.Plain → (upd role f r g = x ↔ role g = x) :=
    fun busy => role_iff (fun equal => busy (equal ▸ was)) (fun equal => busy (equal ▸ now))
  have dirs : ∀ {g : Nat}, upd role f r g = .dir ↔ role g = .dir := same id
  have tbls : ∀ {g d i : Nat}, upd role f r g = .tbl d i ↔ role g = .tbl d i := same id
  have pages : ∀ {g d n : Nat}, upd role f r g = .page d n ↔ role g = .page d n := same id
  have dirWords : ∀ g, role g = .dir → m'.word g = m.word g := fun g is => words g (by rw [is]; exact id)
  have tblWords : ∀ g d i, role g = .tbl d i → m'.word g = m.word g := fun g d i is => words g (by rw [is]; exact id)
  refine ⟨nodup, free, fun g used => ?_, fun d is i small present => ?_, fun t d i is => ?_,
    fun t d i is user j small present => ?_, fun g d n is => ?_⟩
  · by_cases here : g = f
    · rw [here, upd_self] at used
      rw [here]
      exact managed used
    · rw [upd_ne here] at used
      exact frames.managed g used
  · rw [dirs] at is
    rw [dirWords d is] at present ⊢
    exact tbls.mpr (frames.dir d is i small present)
  · rw [tbls] at is
    have facts := frames.tbl t d i is
    rw [dirs, dirWords d facts.1]
    exact facts
  · rw [tbls] at is
    rw [tblWords t d i is] at present ⊢
    exact pages.mpr (frames.entry t d i is user j small present)
  · rw [pages] at is
    obtain ⟨small, t, table, present, points⟩ := frames.page g d n is
    refine ⟨small, t, tbls.mpr table, ?_⟩
    rw [tblWords t d _ table]
    exact ⟨present, points⟩

theorem frames_alloc (frames : Frames k m role) {rest : List Nat} (head : m.freelist = f :: rest) :
    role f = .free ∧ Frames k { m with freelist := rest } (upd role f .hand) := by
  have unique := frames.nodup
  rw [head, List.nodup_cons] at unique
  have was : role f = .free := (frames.free f).mp (by rw [head]; exact List.mem_cons_self)
  refine ⟨was, frames_plain frames (by rw [was]; trivial) trivial (fun _ _ => rfl) unique.2 (fun g => ?_) fun _ => ?_⟩
  · by_cases here : g = f
    · rw [here, upd_self]
      exact ⟨fun member => absurd member unique.1, nofun⟩
    · rw [upd_ne here, ← frames.free g, head, List.mem_cons]
      simp [here]
  · exact frames.managed f (by simp [was])

theorem frames_kfree (frames : Frames k m role) (was : (role f).Plain) (busy : role f ≠ .free) (managed : k.managed f) :
    Frames k (m.kfree f) (upd role f .free) := by
  have absent : f ∉ m.freelist := fun member => busy ((frames.free f).mp member)
  refine frames_plain frames was trivial (fun g structured => ?_) (List.nodup_cons.mpr ⟨absent, frames.nodup⟩) (fun g => ?_)
    fun _ => managed
  · refine upd_ne fun same => structured ?_
    rw [same]
    exact was
  · by_cases here : g = f
    · rw [here, upd_self]
      exact ⟨fun _ => rfl, fun _ => List.mem_cons_self⟩
    · rw [upd_ne here, ← frames.free g]
      exact List.mem_cons.trans (or_iff_right here)

theorem frames_words (frames : Frames k m role) (was : (role f).Plain ∨ ∃ d n, role f = .page d n) (words : Nat → Pte) :
    Frames k { m with word := upd m.word f words } role := by
  have dirWords : ∀ g, role g = .dir → g ≠ f := by
    rintro g is rfl
    rcases was with plain | ⟨d, n, page⟩
    · rw [is] at plain
      exact plain
    · rw [is] at page
      cases page
  have tblWords : ∀ g d i, role g = .tbl d i → g ≠ f := by
    rintro g d i is rfl
    rcases was with plain | ⟨d, n, page⟩
    · rw [is] at plain
      exact plain
    · rw [is] at page
      cases page
  refine ⟨frames.nodup, frames.free, frames.managed, fun d is i small present => ?_, fun t d i is => ?_,
    fun t d i is user j small present => ?_, fun g d n is => ?_⟩
  · simp only [upd_ne (dirWords d is)] at present ⊢
    exact frames.dir d is i small present
  · have facts := frames.tbl t d i is
    simp only [upd_ne (dirWords d facts.1)]
    exact facts
  · simp only [upd_ne (tblWords t d i is)] at present ⊢
    exact frames.entry t d i is user j small present
  · obtain ⟨small, t, table, facts⟩ := frames.page g d n is
    refine ⟨small, t, table, ?_⟩
    simp only [upd_ne (tblWords t d _ table)]
    exact facts

theorem frames_new_dir (frames : Frames k m role) (was : role f = .hand) (empty : ∀ i, (m.word f i).p = false) :
    Frames k m (upd role f .dir) := by
  refine ⟨frames.nodup, free_upd frames (by simp [was]) (by simp), managed_upd frames (by simp [was]), fun d is i small present => ?_, fun t d i is => ?_,
    fun t d i is user j small present => ?_, fun g d n is => ?_⟩
  · by_cases here : d = f
    · rw [here, empty i] at present
      cases present
    · rw [upd_ne here] at is
      exact (role_same was).mpr (frames.dir d is i small present)
  · rw [role_same was] at is
    obtain ⟨owner, facts⟩ := frames.tbl t d i is
    refine ⟨?_, facts⟩
    rw [upd_ne (role_ne owner was)]
    exact owner
  · rw [role_same was] at is
    exact (role_same was).mpr (frames.entry t d i is user j small present)
  · rw [role_same was] at is
    obtain ⟨small, t, table, facts⟩ := frames.page g d n is
    exact ⟨small, t, (role_same was).mpr table, facts⟩

@[simp] theorem set_word_self (m : Ram) (f i : Nat) (e : Pte) : (m.setWord f i e).word f i = e := by
  simp [Ram.setWord]

theorem set_word_index (m : Ram) (f : Nat) {i j : Nat} (e : Pte) (other : j ≠ i) :
    (m.setWord f i e).word f j = m.word f j := by
  simp [Ram.setWord, upd_ne other]

theorem set_word_frame (m : Ram) {f g : Nat} (i : Nat) (e : Pte) (other : g ≠ f) : (m.setWord f i e).word g = m.word g :=
  upd_ne other

theorem set_word_other (m : Ram) {f g i j : Nat} (e : Pte) (other : ¬ (g = f ∧ j = i)) :
    (m.setWord f i e).word g j = m.word g j := by
  by_cases here : g = f
  · subst here
    exact set_word_index m g e fun same => other ⟨rfl, same⟩
  · rw [set_word_frame m i e here]

theorem set_word_present (m : Ram) {f i j g : Nat} {e : Pte} (absent : (m.word f i).p = false)
    (present : (m.word g j).p = true) : (m.setWord f i e).word g j = m.word g j := by
  refine set_word_other m e ?_
  rintro ⟨rfl, rfl⟩
  rw [absent] at present
  cases present

theorem frames_new_tbl (frames : Frames k m role) {d t i : Nat} (is : role d = .dir) (small : i < 1024)
    (absent : (m.word d i).p = false) (was : role t = .hand) (empty : ∀ j, (m.word t j).p = false) (perm : Perm) :
    Frames k (m.setWord d i (perm.entry t)) (upd role t (.tbl d i)) := by
  have away : t ≠ d := role_ne was is
  refine ⟨frames.nodup, free_upd frames (by simp [was]) (by simp), managed_upd frames (by simp [was]), fun d' is' i' small' present => ?_, fun t' d' i' is' => ?_,
    fun t' d' i' is' user j small' present => ?_, fun g d' n is' => ?_⟩
  · rw [role_same was] at is'
    by_cases here : d' = d ∧ i' = i
    · obtain ⟨rfl, rfl⟩ := here
      rw [set_word_self, entry_frame, upd_self]
    · rw [set_word_other m _ here] at present ⊢
      have old := frames.dir d' is' i' small' present
      rw [upd_ne (role_ne old was)]
      exact old
  · by_cases here : t' = t
    · rw [here, upd_self] at is'
      cases is'
      rw [upd_ne (Ne.symm away), set_word_self]
      exact ⟨is, small, rfl, here.symm⟩
    · rw [upd_ne here] at is'
      obtain ⟨owner, small', present, points⟩ := frames.tbl t' d' i' is'
      rw [set_word_present m absent present, upd_ne (role_ne owner was)]
      exact ⟨owner, small', present, points⟩
  · by_cases here : t' = t
    · rw [here, set_word_frame m i _ away, empty j] at present
      cases present
    · rw [upd_ne here] at is'
      rw [set_word_frame m i _ (role_ne is' is)] at present ⊢
      have old := frames.entry t' d' i' is' user j small' present
      rw [upd_ne (role_ne old was)]
      exact old
  · rw [role_same was] at is'
    obtain ⟨small', t', table, present, points⟩ := frames.page g d' n is'
    refine ⟨small', t', ?_, ?_⟩
    · rw [upd_ne (role_ne table was)]
      exact table
    · rw [set_word_present m absent present]
      exact ⟨present, points⟩

theorem frames_map (frames : Frames k m role) {d t i j : Nat} (is : role t = .tbl d i) (user : i < 512) (small : j < 1024)
    (absent : (m.word t j).p = false) (was : role f = .hand) (perm : Perm) :
    Frames k (m.setWord t j (perm.entry f)) (upd role f (.page d (1024 * i + j))) := by
  have away : f ≠ t := role_ne was is
  refine ⟨frames.nodup, free_upd frames (by simp [was]) (by simp), managed_upd frames (by simp [was]), fun d' is' i' small' present => ?_, fun t' d' i' is' => ?_,
    fun t' d' i' is' user' j' small' present => ?_, fun g d' n is' => ?_⟩
  · rw [role_same was] at is'
    rw [set_word_frame m j _ (role_ne is' is)] at present ⊢
    exact (role_same was).mpr (frames.dir d' is' i' small' present)
  · rw [role_same was] at is'
    obtain ⟨owner, small', present, points⟩ := frames.tbl t' d' i' is'
    rw [role_same was, set_word_present m absent present]
    exact ⟨owner, small', present, points⟩
  · rw [role_same was] at is'
    by_cases here : t' = t ∧ j' = j
    · obtain ⟨rfl, rfl⟩ := here
      rw [is] at is'
      cases is'
      rw [set_word_self, entry_frame, upd_self]
    · rw [set_word_other m _ here] at present ⊢
      have old := frames.entry t' d' i' is' user' j' small' present
      rw [upd_ne (role_ne old was)]
      exact old
  · by_cases here : g = f
    · rw [here, upd_self] at is'
      cases is'
      have high : (1024 * i + j) / 1024 = i := by omega
      have low : (1024 * i + j) % 1024 = j := by omega
      refine ⟨by omega, t, ?_, ?_⟩
      · rw [high, upd_ne (Ne.symm away)]
        exact is
      · rw [low, set_word_self]
        exact ⟨rfl, here.symm⟩
    · rw [upd_ne here] at is'
      obtain ⟨small', t', table, present, points⟩ := frames.page g d' n is'
      refine ⟨small', t', (role_same was).mpr table, ?_⟩
      rw [set_word_present m absent present]
      exact ⟨present, points⟩

theorem frames_entry (frames : Frames k m role) {d t i j : Nat} {e : Pte} (is : role t = .tbl d i)
    (same : i < 512 → e.p = (m.word t j).p ∧ e.frame = (m.word t j).frame) : Frames k (m.setWord t j e) role := by
  have kept : ∀ t' d' i', role t' = .tbl d' i' → i' < 512 → ∀ j', ((m.setWord t j e).word t' j').p = (m.word t' j').p ∧
      ((m.setWord t j e).word t' j').frame = (m.word t' j').frame := by
    intro t' d' i' is' user j'
    by_cases sameTbl : t' = t
    · subst sameTbl
      rw [is] at is'
      cases is'
      by_cases sameIndex : j' = j
      · rw [sameIndex, set_word_self]
        exact same user
      · rw [set_word_index m t' _ sameIndex]
        exact ⟨rfl, rfl⟩
    · rw [set_word_frame m j _ sameTbl]
      exact ⟨rfl, rfl⟩
  refine ⟨frames.nodup, frames.free, frames.managed, fun d' is' i' small' present => ?_, fun t' d' i' is' => ?_,
    fun t' d' i' is' user j' small' present => ?_, fun g d' n is' => ?_⟩
  · rw [set_word_frame m j _ (role_ne is' is)] at present ⊢
    exact frames.dir d' is' i' small' present
  · have facts := frames.tbl t' d' i' is'
    rw [set_word_frame m j _ (role_ne facts.1 is)]
    exact facts
  · obtain ⟨sameP, sameFrame⟩ := kept t' d' i' is' user j'
    rw [sameP] at present
    rw [sameFrame]
    exact frames.entry t' d' i' is' user j' small' present
  · obtain ⟨small', t', table, present, points⟩ := frames.page g d' n is'
    obtain ⟨sameP, sameFrame⟩ := kept t' d' _ table (by omega) (n % 1024)
    exact ⟨small', t', table, sameP.trans present, sameFrame.trans points⟩

theorem frames_unmap (frames : Frames k m role) {d t i j : Nat} (is : role t = .tbl d i) (user : i < 512) (small : j < 1024)
    (present : (m.word t j).p = true) :
    Frames k (m.setWord t j (.ofWord 0)) (upd role (m.word t j).frame .hand) := by
  have was := frames.entry t d i is user j small present
  generalize points : (m.word t j).frame = f at was ⊢
  refine ⟨frames.nodup, free_upd frames (by simp [was]) (by simp), managed_upd frames (by simp [was]), fun d' is' i' small' present' => ?_, fun t' d' i' is' => ?_,
    fun t' d' i' is' user' j' small' present' => ?_, fun g d' n is' => ?_⟩
  · rw [role_same was] at is'
    rw [set_word_frame m j _ (role_ne is' is)] at present' ⊢
    exact (role_same was).mpr (frames.dir d' is' i' small' present')
  · rw [role_same was] at is'
    have facts := frames.tbl t' d' i' is'
    rw [role_same was, set_word_frame m j _ (role_ne facts.1 is)]
    exact facts
  · rw [role_same was] at is'
    have other : ¬ (t' = t ∧ j' = j) := by
      rintro ⟨rfl, rfl⟩
      rw [set_word_self] at present'
      cases present'
    rw [set_word_other m _ other] at present' ⊢
    have old := frames.entry t' d' i' is' user' j' small' present'
    refine (role_same was fun equal => other ?_).mpr old
    -- Two entries of the same page are one and the same entry.
    obtain ⟨sameDir, sameIndex⟩ := Role.page.inj equal
    have sameTbl : i' = i := by omega
    subst sameDir
    subst sameTbl
    rw [← (frames.tbl t' d i' is').2.2.2, ← (frames.tbl t d i' is).2.2.2]
    exact ⟨rfl, by omega⟩
  · have there : g ≠ f := by
      rintro rfl
      rw [upd_self] at is'
      cases is'
    rw [upd_ne there] at is'
    obtain ⟨small', t', table, present', points'⟩ := frames.page g d' n is'
    refine ⟨small', t', (role_same was).mpr table, ?_⟩
    rw [set_word_other m _ fun both => there (by rw [← points', ← points, both.1, both.2])]
    exact ⟨present', points'⟩

end Xv6.Vm
