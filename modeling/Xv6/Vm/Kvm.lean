import Mathlib.Order.Interval.Finset.Nat
import Xv6.Vm.Paging

set_option autoImplicit false

namespace Xv6.Vm

variable {k : Kernel} {m m' m'' : Ram} {role role' role'' : Nat → Role} {cond : Event RamOp Ram → Prop}
  {bad : String → Prop} {pid : Nat}

theorem kmap_covers (k : Kernel) (n : Nat) :
    (∃ e ∈ kmap k, e.Covers n) ↔ (0x80000 ≤ n ∧ n < 0x8E000) ∨ (0xFE000 ≤ n ∧ n < 0x100000) := by
  obtain ⟨aligned, low, high⟩ := data_bounds k
  obtain ⟨⟨ioVirt, ioSize⟩, ⟨textVirt, textSize⟩, ⟨dataVirt, dataSize⟩, devVirt, devSize⟩ := kmap_pages k
  have io := kmap_entry (e := ⟨kernbase, 0, extmem, true⟩) _ _ ioVirt ioSize
  have text := kmap_entry (e := ⟨kernlink, kernlink - kernbase, k.data - kernbase, false⟩) _ _ textVirt textSize
  have data := kmap_entry (e := ⟨k.data, k.data - kernbase, phystop, true⟩) _ _ dataVirt dataSize
  have dev := kmap_entry (e := ⟨devspace, devspace, 0, true⟩) _ _ devVirt devSize
  simp only [kmap, List.mem_cons, List.not_mem_nil, or_false, exists_eq_or_imp, exists_eq_left, Kmap.Covers, io.1, io.2,
    text.1, text.2, data.1, data.2, dev.1, dev.2]
  omega

theorem kmap_apart (k : Kernel) : (kmap k).Pairwise fun e e' => ∀ n, e.Covers n → ¬ e'.Covers n := by
  obtain ⟨aligned, low, high⟩ := data_bounds k
  obtain ⟨⟨ioVirt, ioSize⟩, ⟨textVirt, textSize⟩, ⟨dataVirt, dataSize⟩, devVirt, devSize⟩ := kmap_pages k
  have io := kmap_entry (e := ⟨kernbase, 0, extmem, true⟩) _ _ ioVirt ioSize
  have text := kmap_entry (e := ⟨kernlink, kernlink - kernbase, k.data - kernbase, false⟩) _ _ textVirt textSize
  have data := kmap_entry (e := ⟨k.data, k.data - kernbase, phystop, true⟩) _ _ dataVirt dataSize
  have dev := kmap_entry (e := ⟨devspace, devspace, 0, true⟩) _ _ devVirt devSize
  simp only [kmap, List.pairwise_cons, List.mem_cons, List.not_mem_nil, or_false, forall_eq_or_imp, forall_eq, Kmap.Covers,
    io.1, io.2, text.1, text.2, data.1, data.2, dev.1, dev.2, List.Pairwise.nil, and_true, false_implies, implies_true]
  refine ⟨⟨fun n _ => ?_, fun n _ => ?_, fun n _ => ?_⟩, ⟨fun n _ => ?_, fun n _ => ?_⟩, fun n _ => ?_⟩ <;> omega

def kernelMap (k : Kernel) (n : Nat) : Option Pte := ((kmap k).find? fun e => e.Covers n).map fun e => e.entry n

theorem find_apart {list : List Kmap} {n : Nat} (apart : list.Pairwise fun e e' => ∀ n, e.Covers n → ¬ e'.Covers n) {e : Kmap}
    (member : e ∈ list) (covers : e.Covers n) : (list.find? fun e => e.Covers n) = some e := by
  induction list with
  | nil => cases member
  | cons first rest ih =>
    obtain ⟨here, later⟩ := List.pairwise_cons.mp apart
    rcases List.mem_cons.mp member with rfl | inRest
    · exact List.find?_cons_of_pos (by simpa using covers)
    · have other : ¬ first.Covers n := fun mine => here e inRest n mine covers
      rw [List.find?_cons_of_neg (by simpa using other)]
      exact ih later inRest

theorem kernel_map_some {e : Kmap} {n : Nat} (member : e ∈ kmap k) (covers : e.Covers n) : kernelMap k n = some (e.entry n) := by
  rw [kernelMap, find_apart (kmap_apart k) member covers]
  rfl

theorem kernel_map_none {n : Nat} (outside : ¬ ∃ e ∈ kmap k, e.Covers n) : kernelMap k n = none := by
  rw [kernelMap, List.find?_eq_none.mpr]
  · rfl
  · intro e member covers
    exact outside ⟨e, member, by simpa using covers⟩

theorem kernel_map_supervisor {n : Nat} {e : Pte} (found : kernelMap k n = some e) : e.u = false := by
  by_cases covered : ∃ e ∈ kmap k, e.Covers n
  · obtain ⟨entry, member, covers⟩ := covered
    rw [kernel_map_some member covers] at found
    cases found
    rfl
  · rw [kernel_map_none covered] at found
    cases found

def dissolve (role : Nat → Role) (d : Nat) (r : Role) (f : Nat) : Role := if (role f).of d f then r else role f

theorem dissolve_iff {d f : Nat} {r x : Role} (other : r ≠ x) :
    dissolve role d r f = x ↔ role f = x ∧ (role f).of d f = false := by
  unfold dissolve
  by_cases mine : (role f).of d f = true
  · simp [mine, other]
  · simp [mine]

theorem frames_dissolve (frames : Frames k m role) (d : Nat) {r : Role} (plain : r.Plain) (busy : r ≠ .free) :
    Frames k m (dissolve role d r) := by
  have structured : ∀ {x : Role}, ¬ x.Plain → r ≠ x := fun hard same => hard (same ▸ plain)
  have dirs : ∀ {f : Nat}, dissolve role d r f = .dir ↔ role f = .dir ∧ f ≠ d := by
    intro f
    rw [dissolve_iff (structured id)]
    exact and_congr_right fun is => by simp [is, Role.of]
  have tbls : ∀ {f d' i : Nat}, dissolve role d r f = .tbl d' i ↔ role f = .tbl d' i ∧ d' ≠ d := by
    intro f d' i
    rw [dissolve_iff (structured id)]
    exact and_congr_right fun is => by simp [is, Role.of]
  have pages : ∀ {f d' n : Nat}, dissolve role d r f = .page d' n ↔ role f = .page d' n ∧ d' ≠ d := by
    intro f d' n
    rw [dissolve_iff (structured id)]
    exact and_congr_right fun is => by simp [is, Role.of]
  refine ⟨frames.nodup, fun f => ?_, fun f used => ?_, fun d' is i small present => ?_, fun t d' i is => ?_,
    fun t d' i is user j small present => ?_, fun f d' n is => ?_⟩
  · rw [frames.free f, dissolve_iff busy]
    exact ⟨fun free => ⟨free, by rw [free]; rfl⟩, fun both => both.1⟩
  · refine frames.managed f fun out => used ?_
    rw [dissolve, out]
    rfl
  · obtain ⟨is, other⟩ := dirs.mp is
    exact tbls.mpr ⟨frames.dir d' is i small present, other⟩
  · obtain ⟨is, other⟩ := tbls.mp is
    obtain ⟨owner, facts⟩ := frames.tbl t d' i is
    exact ⟨dirs.mpr ⟨owner, other⟩, facts⟩
  · obtain ⟨is, other⟩ := tbls.mp is
    exact pages.mpr ⟨frames.entry t d' i is user j small present, other⟩
  · obtain ⟨is, other⟩ := pages.mp is
    obtain ⟨small, t, table, facts⟩ := frames.page f d' n is
    exact ⟨small, t, tbls.mpr ⟨table, other⟩, facts⟩

theorem none_of_free (frames : Frames k m role) {d : Nat} (was : role d = .free) (f : Nat) : (role f).of d f = false := by
  cases kind : role f with
  | dir =>
    have other : f ≠ d := role_ne kind was
    simp [Role.of, other]
  | tbl d' i =>
    have other : d' ≠ d := by
      rintro rfl
      have owner := (frames.tbl f d' i kind).1
      rw [was] at owner
      cases owner
    simp [Role.of, other]
  | page d' n =>
    have other : d' ≠ d := by
      rintro rfl
      obtain ⟨-, t, table, -⟩ := frames.page f d' n kind
      have owner := (frames.tbl t d' _ table).1
      rw [was] at owner
      cases owner
    simp [Role.of, other]
  | _ => rfl

-- Unless a probe was passed, the free list holds what it held before.
structure Failed (k : Kernel) (m m' : Ram) (role role' : Nat → Role) : Prop where
  frames : Frames k m' role'
  lost : ∀ f, role' f = role f ∨ (role f = .free ∧ role' f = .hand)
  outside : ∀ f, role f = .out → m'.word f = m.word f
  clean : (m'.notes = m.notes ∧ role' = role) ∨ (m'.notes ≠ m.notes ∧ ∃ f, role f = .free ∧ role' f ≠ .free)

theorem failed_clean (frames : Frames k m' role) (outside : ∀ f, role f = .out → m'.word f = m.word f)
    (notes : m'.notes = m.notes) : Failed k m m' role role :=
  ⟨frames, fun _ => .inl rfl, outside, .inl ⟨notes, rfl⟩⟩

structure Fresh (k : Kernel) (m m' : Ram) (role role' : Nat → Role) (d : Nat) : Prop
    extends Grown k m m' role role' (fun f r => r.of d f = true) where
  head : ∃ rest, m.freelist = d :: rest
  was : role d = .free
  dir : role' d = .dir
  unmapped : ∀ f n, role' f ≠ .page d n
  room : room m' d = m.freelist.length - 577
  kernel : ∀ n < 2 ^ 20, lookup m' d n = kernelMap k n
  data : ∀ g, role g ≠ .free → m'.word g = m.word g
  pdes : ∀ j, (∀ n, (∃ e ∈ kmap k, e.Covers n) → j ≠ n / 1024) → (m'.word d j).p = false

theorem empty_dir (frames : Frames k m role) {d : Nat} {rest : List Nat} (head : m.freelist = d :: rest) :
    ∃ m₁, m₁ = ({ m with freelist := rest } : Ram).fill d (fun _ _ => .ofWord 0) ∧ role d = .free ∧
      Frames k m₁ (upd role d .dir) ∧ (∀ i, m₁.word d i = .ofWord 0) ∧ room m₁ d = m.freelist.length - 577 := by
  obtain ⟨was, taken⟩ := frames_alloc frames head
  have empty : ∀ i, (({ m with freelist := rest } : Ram).fill d fun _ _ => .ofWord 0).word d i = .ofWord 0 := by
    intro i
    rw [fill_self]
  refine ⟨_, rfl, was, ?_, empty, ?_⟩
  · have cleared := frames_fill taken (f := d) (.inl (by rw [upd_self]; trivial)) fun _ _ => .ofWord 0
    have made := frames_new_dir cleared (upd_self _ _ _) fun i => by rw [empty]; rfl
    rwa [upd_twice] at made
  · have all : absent (({ m with freelist := rest } : Ram).fill d fun _ _ => .ofWord 0) d =
        Finset.range 568 ∪ Finset.Ico 1016 1024 := by
      ext i
      rw [absent, Finset.mem_filter, empty, Finset.mem_union, Finset.mem_range, Finset.mem_range, Finset.mem_Ico]
      simp only [Pte.ofWord]
      constructor
      · exact fun inside => inside.2.1
      · exact fun used => ⟨by omega, used, rfl⟩
    have apart : Disjoint (Finset.range 568) (Finset.Ico 1016 1024) := by
      refine Finset.disjoint_left.mpr fun i low high => ?_
      rw [Finset.mem_range] at low
      rw [Finset.mem_Ico] at high
      omega
    rw [room, all, Finset.card_union_of_disjoint apart, Finset.card_range, Nat.card_Ico, head, List.length_cons, Ram.fill]
    push_cast
    ring

theorem grown_from_dir {d : Nat} (grown : Grown k m' m'' (upd role d .dir) role' (Pages d 0 0)) (was : role d = .free)
    (words : ∀ f, f ≠ d → m'.word f = m.word f) (notes : m'.notes = m.notes) :
    role' d = .dir ∧ Grown k m m'' role role' fun f r => r.of d f = true := by
  have dir : role' d = .dir := by rw [grown_kept grown (by rw [upd_self]; simp), upd_self]
  refine ⟨dir, grown.frames, fun f => ?_, fun f out => ?_, grown.notes.trans notes⟩
  · by_cases here : f = d
    · rw [here, dir]
      exact .inr ⟨was, by simp [Role.of]⟩
    · have taken := grown.taken f
      rw [upd_ne here] at taken
      refine taken.imp_right fun new => ⟨new.1, ?_⟩
      rcases new.2 with ⟨i, tbl⟩ | ⟨_, _, impossible, _⟩
      · simp [tbl, Role.of]
      · omega
  · have other : f ≠ d := role_ne out was
    rw [grown.outside f (by rw [upd_ne other]; exact out), words f other]

theorem setupkvm_spec (frames : Frames k m role) :
    Spec k cond bad pid (setupkvm k) m fun r m' =>
      (r = none ∧ m.freelist.length < 577 ∧ ∃ role', Failed k m m' role role') ∨
      ∃ d role', r = some d ∧ Fresh k m m' role role' d := by
  unfold setupkvm
  refine spec_kalloc (fun empty => ?_) fun d rest head => ?_
  · exact .inl ⟨rfl, by rw [empty]; decide, role, failed_clean frames (fun _ _ => rfl) rfl⟩
  · refine spec_fill ?_
    obtain ⟨m₁, same, was, frames₁, empty, space⟩ := empty_dir frames head
    rw [← same, if_neg (by decide)]
    have unused : ∀ n, lookup m₁ d n = none := by
      intro n
      rw [lookup, empty]
      rfl
    have words : ∀ f, f ≠ d → m₁.word f = m.word f := by
      intro f other
      rw [same, fill_ne _ _ other]
    have notes : m₁.notes = m.notes := by
      rw [same]
      rfl
    have unmapped : ∀ f n, upd role d .dir f ≠ .page d n := by
      intro f n page
      obtain ⟨-, t, table, -⟩ := frames₁.page f d n page
      have present := (frames₁.tbl t d _ table).2.2.1
      rw [empty] at present
      cases present
    have entries : ∀ e ∈ kmap k, ∀ n, e.Covers n → (kernelMap k n).getD (.ofWord 0) = e.entry n := by
      intro e member n covers
      rw [kernel_map_some member covers, Option.getD_some]
    refine Prog.wp_call (map_kernel_list (kmap k) (kmap_ok k) frames₁ (upd_self _ _ _) (fun _ => kmap_apart k)
      (fun _ _ _ n _ => unused n) entries) ?_
    rintro r m' (⟨rfl, full, role', grown, -⟩ | ⟨rfl, role', mapped⟩)
    · obtain ⟨dir, whole⟩ := grown_from_dir grown was words notes
      have given := frames_dissolve (frames_notes whole.frames (.setupFailed :: m'.notes)) d (r := .hand) trivial (by simp)
      refine spec_probe fun _ => .inl ⟨rfl, by omega, _, given, fun f => ?_, whole.outside, .inr ⟨?_, d, was, ?_⟩⟩
      · rcases whole.taken f with kept | ⟨free, mine⟩
        · rw [dissolve, kept, none_of_free frames was f]
          exact .inl rfl
        · rw [dissolve, if_pos mine]
          exact .inr ⟨free, rfl⟩
      · rw [whole.notes]
        simp
      · rw [dissolve, dir]
        simp [Role.of]
    · obtain ⟨dir, whole⟩ := grown_from_dir mapped.toGrown was words notes
      refine .inr ⟨d, role', rfl, whole, ⟨rest, head⟩, was, dir, fun f n page => ?_, mapped.room.trans space, fun n bound => ?_,
        fun g busy => ?_, fun j apart => ?_⟩
      · rcases grown_page mapped.toGrown page with old | ⟨-, -, impossible⟩
        · exact unmapped f n old
        · omega
      · by_cases covered : ∃ e ∈ kmap k, e.Covers n
        · obtain ⟨e, member, covers⟩ := covered
          rw [mapped.mapped n bound ⟨e, member, covers⟩, entries e member n covers, kernel_map_some member covers]
        · rw [mapped.others n bound covered, unused n, kernel_map_none covered]
      · have other : g ≠ d := by
          rintro rfl
          exact busy was
        have plain : ∀ i, upd role d .dir g ≠ .tbl d i := by
          intro i table
          obtain ⟨-, -, present, -⟩ := frames₁.tbl g d i table
          rw [empty] at present
          cases present
        rw [mapped.data g (by rw [upd_ne other]; exact busy) other plain, words g other]
      · rw [mapped.pdes j apart, empty]
        rfl

end Xv6.Vm
