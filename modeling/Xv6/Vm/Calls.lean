import Xv6.Vm.Exclusive

set_option autoImplicit false

namespace Xv6.Vm

variable {k : Kernel} {t t' : Tables} {m m' m'' : Ram} {role role' role'' : Nat → Role} {cond : Event RamOp Ram → Prop}
  {bad : String → Prop} {pid page : Nat} {w : Bool} {α : Type} {Q : α → Ram → Prop}

theorem spec_cur {p : Nat} {next : Nat → RamM α} (quiet : ∀ msg, ¬ bad msg)
    (rest : ∀ d, t.pgdir p = some d → Spec k cond bad pid (next d) m Q) :
    Spec k cond bad pid (curPgdir t p >>= next) m Q := by
  unfold curPgdir
  cases dir : t.pgdir p with
  | none => exact quiet _
  | some d => exact rest d dir

theorem alive_live {p : Nat} (alive : (t.ptable.proc p).state.alive = true) : t.live p := by
  constructor
  · intro state
    rw [state] at alive
    cases alive
  · intro state
    rw [state] at alive
    cases alive

theorem frames_take (frames : Frames k m role) {f : Nat} {rest : List Nat} {r : Role} (head : m.freelist = f :: rest)
    (plain : r.Plain) (busy : r ≠ .free) : role f = .free ∧ Frames k { m with freelist := rest } (upd role f r) := by
  obtain ⟨was, taken⟩ := frames_alloc frames head
  refine ⟨was, ?_⟩
  rw [← upd_twice role f .hand r]
  refine frames_plain taken (by rw [upd_self]; trivial) plain (fun _ _ => rfl) taken.nodup (fun g => ?_)
    fun _ => frames.managed f (by simp [was])
  rw [role_iff (by rw [upd_self]; simp) busy]
  exact taken.free g

theorem owned_take (owned : Owned k t m role) {f : Nat} {rest : List Nat} {r : Role} (head : m.freelist = f :: rest)
    (plain : r.Plain) (busy : r ≠ .free) :
    role f = .free ∧ Owned k t { m with freelist := rest } (upd role f r) := by
  obtain ⟨was, frames⟩ := frames_take owned.frames head plain busy
  exact ⟨was, owned_plain owned frames (fun refers => refers_busy owned refers was) plain⟩

theorem allocproc_spec (owned : Owned k t m role) :
    Spec k cond bad pid (allocproc t) m fun r m' =>
      (r.2 = none ∧ m' = m ∧ Owned k r.1 m role ∧ (t.ptable.allocproc.1 = none ∨ m.freelist = [])) ∨
      ∃ np f rest, r.2 = some np ∧ role f = .free ∧ m.freelist = f :: rest ∧ m' = { m with freelist := rest } ∧
        t.ptable.allocproc.1 = some np ∧ r.1 = ({ t with ptable := t.ptable.allocproc.2 } : Tables).setKstack np (some f) ∧
        Owned k r.1 m' (upd role f (.kstack np)) := by
  unfold allocproc
  cases search : t.ptable.allocproc with
  | mk found ptable =>
    cases found with
    | none => exact .inl ⟨rfl, rfl, owned, .inl rfl⟩
    | some np =>
      obtain ⟨-, -, shape⟩ := t.ptable.allocproc_some (congrArg Prod.fst search)
      rw [search] at shape
      simp only at shape
      have fewer : ∀ q, Tables.live { t with ptable := ptable } q → t.live q := by
        intro q live
        by_cases here : q = np
        · subst here
          simp [Tables.live, shape] at live
        · rwa [Tables.live, shape, Ptable.set_ne _ _ here] at live
      refine spec_kalloc (fun empty => ?_) fun f rest head => ?_
      · refine .inl ⟨rfl, rfl, owned_ptable (owned_kstack (owned_ptable owned fewer) fun g some_ => by cases some_) ?_, .inr empty⟩
        intro q live
        by_cases here : q = np
        · subst here
          simp [Tables.live, Ptable.setState] at live
        · rwa [Tables.live, Ptable.setState, Ptable.set_ne _ _ here] at live
      · obtain ⟨was, taken⟩ := owned_take owned (r := .kstack np) head trivial (by simp)
        refine .inr ⟨np, f, rest, rfl, was, head, rfl, rfl, rfl, ?_⟩
        refine owned_kstack (owned_ptable taken fewer) fun g some_ => ?_
        cases some_
        exact upd_self _ _ _

def SameFiles (files files' : Nat → File) : Prop :=
  ∀ i, (files' i).pipe = (files i).pipe ∧ (files' i).writable = (files i).writable ∧ ((files' i).ref = 0 → (files i).ref = 0)

theorem same_files_set (i : Nat) (file : File) (pipe : file.pipe = (t.file i).pipe)
    (writable : file.writable = (t.file i).writable) (ref : file.ref ≠ 0) : SameFiles t.file (upd t.file i file) := by
  intro j
  by_cases here : j = i
  · subst here
    rw [upd_self]
    exact ⟨pipe, writable, fun zero => absurd zero ref⟩
  · rw [upd_ne here]
    exact ⟨rfl, rfl, id⟩

theorem owned_same_files (owned : Owned k t m role) {files : Nat → File} (same : SameFiles t.file files) :
    Owned k { t with file := files } m role := by
  refine ⟨owned.frames, owned.root, owned.apart, owned.size, owned.stack, fun i f pipe => ?_, fun i j f first second ends => ?_,
    fun i zero => ?_⟩
  · simp only [(same i).1, (same i).2.1] at pipe ⊢
    exact owned.pipe i f pipe
  · simp only [(same i).1, (same j).1, (same i).2.1, (same j).2.1] at first second ends
    exact owned.once i j f first second ends
  · simp only [(same i).1]
    exact owned.closed i ((same i).2.2 zero)

theorem fork_files_spec (quiet : ∀ msg, ¬ bad msg) (p np : Nat) (fds : List Nat) :
    Spec k cond bad pid (forkFiles p np fds t) m fun t' m' => m' = m ∧
      ∃ files ofile, t' = { t with file := files, ofile := ofile } ∧ SameFiles t.file files := by
  induction fds generalizing t with
  | nil => exact ⟨rfl, t.file, t.ofile, rfl, fun _ => ⟨rfl, rfl, id⟩⟩
  | cons fd rest ih =>
    unfold forkFiles
    cases t.ofile p fd with
    | none => exact ih
    | some i =>
      simp only [filedup]
      split
      · exact quiet _
      · refine Prog.wp_mono ih ?_
        rintro t' m' ⟨same, files, ofile, rfl, later⟩
        refine ⟨same, files, ofile, rfl, fun j => ?_⟩
        have first := same_files_set i { t.file i with ref := (t.file i).ref + 1 } rfl rfl (by simp)
        exact ⟨(later j).1.trans (first j).1, (later j).2.1.trans (first j).2.1, fun zero => (first j).2.2 ((later j).2.2 zero)⟩

theorem failed_kstack {f np : Nat} {rest : List Nat} (was : role f = .free) (managed : k.managed f)
    (failed : Failed k { m with freelist := rest } m' (upd role f (.kstack np)) role') :
    Failed k m (m'.kfree f) role (upd role' f .free) := by
  have stack : role' f = .kstack np := by
    have kept := failed.lost f
    rw [upd_self] at kept
    exact kept.resolve_right fun lost => by cases lost.1
  refine ⟨frames_kfree failed.frames (by rw [stack]; trivial) (by simp [stack]) managed, fun g => ?_, fun g out => ?_, ?_⟩
  · by_cases here : g = f
    · rw [here, upd_self, was]
      exact .inl rfl
    · have kept := failed.lost g
      rw [upd_ne here] at kept
      rw [upd_ne here]
      exact kept
  · have other : g ≠ f := role_ne out was
    exact (upd_ne other).trans (failed.outside g (by rw [upd_ne other]; exact out))
  · rcases failed.clean with ⟨notes, same⟩ | ⟨notes, g, free, gone⟩
    · refine .inl ⟨notes, ?_⟩
      rw [same, upd_twice, ← was, upd_same]
    · have other : g ≠ f := by
        rintro rfl
        rw [upd_self] at free
        cases free
      rw [upd_ne other] at free
      exact .inr ⟨notes, g, free, by rw [upd_ne other]; exact gone⟩

theorem owned_unfork (owned : Owned k t m role) {np f : Nat} (stack : role f = .kstack np) (here : t.kstack np = some f) :
    Owned k (((t.setPgdir np none).setKstack np none).setState np .unused) (m.kfree f) (upd role f .free) := by
  have managed := owned.frames.managed f (by simp [stack])
  have fewer : ∀ d owner, Tables.Root (((t.setPgdir np none).setKstack np none).setState np .unused) d owner → t.Root d owner := by
    intro d owner root
    cases owner with
    | none => exact root
    | some q =>
      by_cases same : q = np
      · subst same
        have none := root.2
        simp [Tables.setPgdir, Tables.setKstack, Tables.setState] at none
      · obtain ⟨live, dir⟩ := root
        simp only [Tables.live, Tables.setState, Tables.setKstack, Tables.setPgdir, Ptable.setState,
          Ptable.set_ne _ _ same, upd_ne same] at live dir
        exact ⟨live, dir⟩
  have dropped : Owned k (((t.setPgdir np none).setKstack np none).setState np .unused) m role :=
    owned_fewer (owned_kstack (q := np) (f := none) owned fun g some_ => by cases some_) fewer
  have frames := frames_kfree owned.frames (by rw [stack]; trivial) (by simp [stack]) managed
  refine owned_plain dropped frames (fun refers => ?_) trivial
  rcases refers with ⟨owner, root⟩ | ⟨q, other⟩ | ⟨i, pipe⟩
  · have is := dropped.root f owner root
    rw [stack] at is
    cases is
  · have is := dropped.stack q f other
    rw [stack] at is
    cases is
    simp [Tables.setState, Tables.setKstack, Tables.setPgdir] at other
  · have is := (dropped.pipe i f pipe).1
    rw [stack] at is
    cases is

theorem fork_spec (quiet : ∀ msg, ¬ bad msg) (owned : Owned k t m role) {p : Nat} (live : t.live p) :
    Spec k cond bad pid (fork k t p) m fun r m' =>
      (r.2 = none ∧ ∃ role', Failed k m m' role role' ∧ Owned k r.1 m' role') ∨
      (r.2 = some t.ptable.nextpid ∧ ∃ role', Owned k r.1 m' role') := by
  unfold fork
  refine Prog.wp_call (allocproc_spec owned) ?_
  rintro ⟨t₁, found⟩ m₁ (⟨none, rfl, owned₁, -⟩ | ⟨np, f, rest, some_, was, head, rfl, search, shape, owned₁⟩)
  · simp only at none
    subst none
    exact .inl ⟨rfl, role, failed_clean owned.frames (fun _ _ => rfl) rfl, owned₁⟩
  simp only at some_ shape owned₁
  subst some_
  obtain ⟨-, unused, entry⟩ := t.ptable.allocproc_some search
  have embryo : t₁.ptable.proc np = { t.ptable.proc np with state := .embryo, pid := t.ptable.nextpid } := by
    rw [shape]
    simp [Tables.setKstack, entry]
  have managed := owned.frames.managed f (by simp [was])
  refine spec_cur quiet fun d dir => ?_
  have limit : t₁.sz p ≤ 2 ^ 31 := by
    have before : t.pgdir p = some d := by rw [← dir, shape]; rfl
    have size := (owned.size p d ⟨live, before⟩).1
    rw [shape]
    exact size
  refine Prog.wp_call (copyuvm_spec owned₁.frames limit fun msg isBad => absurd isBad (quiet msg)) ?_
  rintro r m₂ (⟨rfl, role₂, failed⟩ | ⟨d', role₂, rfl, copied⟩)
  · have here : t₁.kstack np = some f := by
      rw [shape]
      exact upd_self _ _ _
    have owned₂ := owned_failed owned₁ failed
    rw [here]
    exact spec_kfree managed (.inl ⟨rfl, _, failed_kstack was managed failed, owned_unfork owned₂ (owned₂.stack np f here) here⟩)
  · have owned₂ := owned_grown owned₁ copied.was copied.toGrown
    refine Prog.wp_call (fork_files_spec quiet p np (List.range nofile)) ?_
    rintro t' m₃ ⟨rfl, files, ofile, rfl, same⟩
    refine .inr ⟨?_, role₂, ?_⟩
    · simp [Tables.setPgdir, Tables.setSz, Tables.setTf, embryo]
    · refine owned_new_root _ _ _ (owned_labels (owned_ofile (owned_same_files owned₂ same)) _ _) copied.dir
        (fun owner root => ?_) limit copied.top fun q other now => ?_
      · have busy := owned₁.root d' owner root
        rw [copied.was] at busy
        cases busy
      · simpa only [Tables.live, Tables.setState, Tables.setSz, Tables.setPgdir, Tables.setTf, Tables.setName, Ptable.setState,
          Ptable.set_ne _ _ other] using now

theorem owned_freevm (owned : Owned k t m role) {d : Nat} (unused : ∀ owner, ¬ t.Root d owner)
    (frames : Frames k m' (dissolve role d .free)) : Owned k t m' (dissolve role d .free) := by
  refine owned_roles owned frames (fun f refers => ?_) fun f d' n is page => ?_
  · have other : (role f).of d f = false := by
      rcases refers with ⟨owner, root⟩ | ⟨q, stack⟩ | ⟨i, pipe⟩
      · have away : f ≠ d := by
          rintro rfl
          exact unused owner root
        simp [owned.root f owner root, Role.of, away]
      · rw [owned.stack q f stack]
        rfl
      · rw [(owned.pipe i f pipe).1]
        rfl
    rw [dissolve, other]
    rfl
  · exact ((dissolve_iff (by simp)).mp page).1

theorem exec_spec (quiet : ∀ msg, ¬ bad msg) (found : ∀ m m', ¬ cond ⟨pid, .probe .nullPte, (), m, m'⟩)
    (owned : Owned k t m role) {p : Nat} (live : t.live p) (path : List UInt8) (ip : Option Source) (args : List Arg) :
    Spec k cond bad pid (exec k t p path ip args) m fun r m' =>
      (r.2 = false ∧ ∃ role', Failed k m m' role role' ∧ Owned k r.1 m' role') ∨
      (r.2 = true ∧ ∃ role', Owned k r.1 m' role') := by
  have stop : Failed k m m role role := failed_clean owned.frames (fun _ _ => rfl) rfl
  unfold exec
  split
  · exact .inl ⟨rfl, role, stop, owned⟩
  cases ip with
  | none => exact .inl ⟨rfl, role, stop, owned⟩
  | some ip =>
    refine spec_cur quiet fun old dir => ?_
    refine Prog.wp_call (exec_image_spec found old ip args owned.frames) ?_
    rintro r m₁ (⟨rfl, role', failed⟩ | ⟨⟨d, sz, eip, esp⟩, role₁, rfl, was, grown, bytes, c, -, -, -, ready⟩)
    · exact .inl ⟨rfl, role', failed, owned_failed owned failed⟩
    · have owned₁ := owned_labels (owned_grown owned was grown) (upd t.tf p ⟨eip, esp⟩) (upd t.name p (nameOf (lastName path)))
      have space := ready_space ready
      have fresh : ∀ owner, ¬ t.Root d owner := by
        intro owner root
        have busy := owned.root d owner root
        rw [was] at busy
        cases busy
      have switched : Owned k ((((t.setName p (nameOf (lastName path))).setTf p ⟨eip, esp⟩).setPgdir p (some d)).setSz p sz)
          m₁ role₁ :=
        owned_new_root p sz t.ptable owned₁ space.dir fresh space.limit space.top fun q _ now => now
      refine Prog.wp_call (freevm_spec owned₁.frames (owned₁.root old (some p) ⟨live, dir⟩)) ?_
      rintro - m₂ ⟨frames, -, -⟩
      refine .inr ⟨rfl, _, owned_freevm switched (fun owner root => ?_) frames⟩
      cases owner with
      | none =>
        have same := owned.apart old (some p) none ⟨live, dir⟩ root
        cases same
      | some q =>
        by_cases here : q = p
        · subst here
          have same : some d = some old := (upd_self t.pgdir q (some d)).symm.trans root.2
          cases same
          exact fresh (some q) ⟨live, dir⟩
        · have dir' : t.pgdir q = some old := (upd_ne here).symm.trans root.2
          have same := owned.apart old (some p) (some q) ⟨live, dir⟩ ⟨root.1, dir'⟩
          cases same
          exact here rfl

theorem owned_resized (owned : Owned k t m role) {p d sz : Nat} (root : t.Root d (some p)) (frames : Frames k m' role')
    (kept : ∀ f, t.Refers f → role' f = role f) (limit : sz ≤ 2 ^ 31) (top : ∀ f n, role' f = .page d n → n < npages sz)
    (others : ∀ f d' n, d' ≠ d → role' f = .page d' n → role f = .page d' n) : Owned k (t.setSz p sz) m' role' := by
  refine owned_memory owned frames kept fun q d' root' => ?_
  by_cases here : q = p
  · subst here
    have same : d' = d := Option.some.inj (root'.2.symm.trans root.2)
    rw [upd_self, same]
    exact ⟨limit, top⟩
  · have away : d' ≠ d := by
      rintro rfl
      have same := owned.apart d' _ _ root root'
      cases same
      exact here rfl
    rw [upd_ne here]
    obtain ⟨limit', top'⟩ := owned.size q d' root'
    exact ⟨limit', fun f n page => top' f n (others f d' n away page)⟩

theorem owned_allocated (owned : Owned k t m role) {p d newsz r : Nat} (root : t.Root d (some p))
    (allocated : Allocated k m m' role role' d (t.sz p) newsz r) (some_ : r ≠ 0) : Owned k (t.setSz p r) m' role' := by
  obtain ⟨-, top⟩ := owned.size p d root
  obtain ⟨size, limit⟩ := allocated.size.resolve_left some_
  refine owned_resized owned root allocated.frames (fun f refers => grown_kept allocated.toGrown (refers_busy owned refers)) limit
    (fun f n page => ?_) fun f d' n away page => ?_
  · rcases grown_page allocated.toGrown page with old | ⟨-, -, bound⟩
    · exact (top f n old).trans_le (npages_mono (by omega))
    · exact bound
  · exact (grown_page allocated.toGrown page).resolve_right fun new => away new.1

theorem growproc_spec (quiet : ∀ msg, ¬ bad msg) (owned : Owned k t m role) {p : Nat} (live : t.live p) (n : Int) :
    Spec k cond bad pid (growproc t p n) m fun r m' => ∃ role', Owned k r.1 m' role' := by
  unfold growproc
  refine spec_cur quiet fun d dir => ?_
  have root : t.Root d (some p) := ⟨live, dir⟩
  have is := owned.root d _ root
  obtain ⟨limit, top⟩ := owned.size p d root
  split
  · refine Prog.wp_call (allocuvm_spec limit owned.frames is top) ?_
    rintro r m' ⟨role', allocated⟩
    split
    next zero =>
      refine ⟨role', owned_roles owned allocated.frames (fun f refers => ?_) fun f d' n _ page => ?_⟩
      · exact grown_kept allocated.toGrown (refers_busy owned refers)
      · refine (grown_page allocated.toGrown page).resolve_right fun new => ?_
        have none : npages r = 0 := by rw [zero]; rfl
        omega
    next some_ => exact ⟨role', owned_allocated owned root allocated some_⟩
  split
  · refine Prog.wp_call (deallocuvm_spec limit owned.frames is) ?_
    rintro r m' (⟨-, rfl, rfl⟩ | ⟨less, rfl, role', shrunk, gone, -⟩)
    · split
      · exact ⟨role, owned⟩
      · exact ⟨role, owned_resized owned root owned.frames (fun _ _ => rfl) limit top fun f d' n _ page => page⟩
    · have kept : ∀ f, t.Refers f → role' f = role f := by
        refine fun f refers => shrunk_kept shrunk fun n page => ?_
        rcases refers_role owned refers with dir | ⟨q, stack⟩ | pipe <;> simp_all
      split
      · exact ⟨role', owned_roles owned shrunk.frames kept fun f d' n _ page => shrunk_page shrunk page⟩
      · refine ⟨role', owned_resized owned root shrunk.frames kept (by omega) (fun f n page => ?_)
          fun f d' n _ page => shrunk_page shrunk page⟩
        by_contra large
        have high := gone f n page (by omega)
        have low := top f n (shrunk_page shrunk page)
        omega
  · exact ⟨role, owned⟩

theorem owned_close_file (owned : Owned k t m role) (i : Nat) :
    Owned k (t.setFile i { t.file i with ref := 0, pipe := none }) m role := by
  have files : ∀ j f, ((t.setFile i { t.file i with ref := 0, pipe := none }).file j).pipe = some f →
      j ≠ i ∧ (t.setFile i { t.file i with ref := 0, pipe := none }).file j = t.file j := by
    intro j f pipe
    by_cases here : j = i
    · subst here
      simp [Tables.setFile] at pipe
    · exact ⟨here, upd_ne here⟩
  refine ⟨owned.frames, owned.root, owned.apart, owned.size, owned.stack, fun j f pipe => ?_,
    fun j j' f first second ends => ?_, fun j zero => ?_⟩
  · obtain ⟨-, same⟩ := files j f pipe
    rw [same] at pipe ⊢
    exact owned.pipe j f pipe
  · obtain ⟨-, same⟩ := files j f first
    obtain ⟨-, same'⟩ := files j' f second
    rw [same] at first ends
    rw [same'] at second ends
    exact owned.once j j' f first second ends
  · by_cases here : j = i
    · subst here
      simp [Tables.setFile]
    · simp only [Tables.setFile, upd_ne here] at zero ⊢
      exact owned.closed j zero

theorem open_other {page f : Nat} {writable w on : Bool} (other : f ≠ page ∨ w ≠ writable) :
    (t.setOpen page writable on).pipeOpen f w = t.pipeOpen f w := by
  by_cases here : f = page
  · subst here
    have away : w ≠ writable := other.resolve_left fun away => away rfl
    simp [Tables.setOpen, away]
  · simp [Tables.setOpen, upd_ne here]

theorem open_self (page : Nat) (writable on : Bool) : (t.setOpen page writable on).pipeOpen page writable = on := by
  simp [Tables.setOpen]

theorem owned_close_end (owned : Owned k t m role) {page : Nat} {w : Bool}
    (last : ∀ j, (t.file j).pipe = some page → (t.file j).writable ≠ w) : Owned k (t.setOpen page w false) m role := by
  refine ⟨owned.frames, owned.root, owned.apart, owned.size, owned.stack, fun j f pipe => ?_, owned.once, owned.closed⟩
  obtain ⟨is, on⟩ := owned.pipe j f pipe
  refine ⟨is, ?_⟩
  rw [open_other]
  · exact on
  · by_cases here : f = page
    · subst here
      exact .inr (last j pipe)
    · exact .inl here

def Tables.shut (t : Tables) (i page : Nat) : Tables :=
  (t.setFile i { t.file i with ref := 0, pipe := none }).setOpen page (t.file i).writable false

theorem owned_shut (owned : Owned k t m role) {i page : Nat} (pipe : (t.file i).pipe = some page) :
    Owned k (t.shut i page) m role := by
  refine owned_close_end (owned_close_file owned i) fun j some_ same => ?_
  by_cases here : j = i
  · subst here
    simp [Tables.setFile] at some_
  · simp only [Tables.setFile, upd_ne here] at some_ same
    exact here (owned.once j i page some_ pipe same)

theorem owned_closed_pipe (owned : Owned k t m role) {page : Nat} (is : role page = .pipe)
    (closed : ∀ w, t.pipeOpen page w = false) :
    k.managed page ∧ Owned k t (m.kfree page) (upd role page .free) := by
  have managed := owned.frames.managed page (by simp [is])
  have frames := frames_kfree owned.frames (by rw [is]; trivial) (by simp [is]) managed
  refine ⟨managed, owned_plain owned frames (fun refers => ?_) trivial⟩
  rcases refers with ⟨owner, root⟩ | ⟨q, stack⟩ | ⟨j, pipe⟩
  · have other := owned.root page owner root
    rw [is] at other
    cases other
  · have other := owned.stack q page stack
    rw [is] at other
    cases other
  · have on := (owned.pipe j page pipe).2
    rw [closed] at on
    cases on

theorem pipeclose_spec (owned : Owned k (t.setOpen page w false) m role) (is : role page = .pipe) :
    Spec k cond bad pid (pipeclose t page w) m fun t' m' => t' = t.setOpen page w false ∧
      (((∀ w', t'.pipeOpen page w' = false) ∧ m' = m.kfree page ∧ Owned k t' m' (upd role page .free)) ∨
        ((∃ w', t'.pipeOpen page w' = true) ∧ m' = m ∧ Owned k t' m' role)) := by
  simp only [pipeclose]
  split
  next both =>
    obtain ⟨noReader, noWriter⟩ := Bool.and_eq_true_iff.mp both
    simp only [Bool.not_eq_true'] at noReader noWriter
    have closed : ∀ w', (t.setOpen page w false).pipeOpen page w' = false := fun w' => by
      cases w'
      · exact noReader
      · exact noWriter
    obtain ⟨managed, freed⟩ := owned_closed_pipe owned is closed
    exact spec_kfree managed ⟨rfl, .inl ⟨closed, rfl, freed⟩⟩
  next some_ =>
    refine ⟨rfl, .inr ⟨?_, rfl, owned⟩⟩
    by_contra none
    simp only [not_exists, Bool.not_eq_true] at none
    simp [none] at some_

theorem fileclose_spec (quiet : ∀ msg, ¬ bad msg) (owned : Owned k t m role) (i : Nat) :
    Spec k cond bad pid (fileclose t i) m fun t' m' => t'.ptable = t.ptable ∧ ∃ role', Owned k t' m' role' := by
  unfold fileclose
  split
  · exact quiet _
  split
  next many =>
    refine ⟨rfl, role, owned_same_files owned (same_files_set i _ rfl rfl ?_)⟩
    exact Nat.ne_of_gt many
  cases pipe : (t.file i).pipe with
  | none => exact ⟨rfl, role, owned_close_file owned i⟩
  | some page =>
    refine Prog.wp_mono (pipeclose_spec (owned_shut owned pipe) (owned.pipe i page pipe).1) ?_
    rintro t' m' ⟨rfl, ⟨-, -, owned'⟩ | ⟨-, -, owned'⟩⟩
    · exact ⟨rfl, _, owned'⟩
    · exact ⟨rfl, _, owned'⟩

theorem sys_close_spec (quiet : ∀ msg, ¬ bad msg) (owned : Owned k t m role) (p : Nat) (fd : Int) :
    Spec k cond bad pid (sysClose t p fd) m fun r m' => ∃ role', Owned k r.1 m' role' := by
  unfold sysClose
  split
  · exact ⟨role, owned⟩
  cases t.ofile p fd.toNat with
  | none => exact ⟨role, owned⟩
  | some i =>
    refine Prog.wp_call (fileclose_spec quiet (owned_ofile owned) i) ?_
    rintro t' m' ⟨-, role', owned'⟩
    exact ⟨role', owned'⟩

theorem exit_files_spec (quiet : ∀ msg, ¬ bad msg) (p : Nat) (fds : List Nat) (owned : Owned k t m role) :
    Spec k cond bad pid (exitFiles p fds t) m fun t' m' => t'.ptable = t.ptable ∧ ∃ role', Owned k t' m' role' := by
  induction fds generalizing t m role with
  | nil => exact ⟨rfl, role, owned⟩
  | cons fd rest ih =>
    unfold exitFiles
    cases t.ofile p fd with
    | none => exact ih owned
    | some i =>
      refine Prog.wp_call (fileclose_spec quiet owned i) ?_
      rintro t' m' ⟨same, role', owned'⟩
      refine Prog.wp_mono (ih (owned_ofile owned')) ?_
      rintro t'' m'' ⟨same', later⟩
      exact ⟨same'.trans same, later⟩

theorem exit_resting (ptable : Ptable) {p q : Nat} (other : q ≠ p) {state : ProcState}
    (resting : state = .unused ∨ state = .embryo) (now : (ptable.proc q).state = state) :
    ((ptable.exit p).proc q).state = state := by
  have woken := Ptable.exit_loop_proc ptable p q
  have base : (if q < nproc then (ptable.proc q).passTo p ptable.initproc else ptable.proc q).state = state := by
    split
    · exact now
    · exact now
  rw [Ptable.exit_eq, Ptable.setState, Ptable.set_ne _ _ other]
  rcases woken with same | ⟨asleep, -⟩
  · rw [same]
    exact base
  · rw [base] at asleep
    rcases resting with rfl | rfl <;> cases asleep

theorem exit_spec (quiet : ∀ msg, ¬ bad msg) (owned : Owned k t m role) {p : Nat} (live : t.live p) :
    Spec k cond bad pid (exit t p) m fun t' m' => ∃ role', Owned k t' m' role' := by
  unfold exit
  split
  · exact quiet _
  refine Prog.wp_call (exit_files_spec quiet p (List.range nofile) owned) ?_
  rintro t' m' ⟨same, role', owned'⟩
  refine ⟨role', owned_ptable owned' fun q now => ?_⟩
  by_cases here : q = p
  · rw [here, Tables.live, same]
    exact live
  · exact ⟨fun unused => now.1 (exit_resting _ here (.inl rfl) unused), fun embryo => now.2 (exit_resting _ here (.inr rfl) embryo)⟩

theorem owned_reap (q : Nat) (ptable : Ptable) (owned : Owned k t m role) (unused : (ptable.proc q).state = .unused)
    (others : ∀ r, r ≠ q → ptable.proc r = t.ptable.proc r) :
    Owned k (({ t with ptable := ptable } : Tables).setKstack q none) m role := by
  refine owned_kstack (owned_ptable owned fun r now => ?_) fun g some_ => by cases some_
  by_cases here : r = q
  · subst here
    exact absurd unused now.1
  · simpa only [Tables.live, others r here] using now

theorem wait_spec (quiet : ∀ msg, ¬ bad msg) (owned : Owned k t m role) (p : Nat) :
    Spec k cond bad pid (wait t p) m fun r m' => ∃ role', Owned k r.1 m' role' := by
  unfold wait
  cases search : (List.range nproc).find? fun q => (t.ptable.proc q).parent = some p ∧ (t.ptable.proc q).state = .zombie with
  | none => exact ⟨role, owned⟩
  | some q =>
    have child := List.find?_some search
    obtain ⟨-, zombie⟩ := of_decide_eq_true child
    have live : t.live q := ⟨by simp [zombie], by simp [zombie]⟩
    have after : (t.ptable.wait p).2 =
        t.ptable.set q { t.ptable.proc q with pid := 0, parent := none, killed := false, state := .unused } := by
      simp only [Ptable.wait, search]
    have reaped := owned_reap q (t.ptable.wait p).2 owned (by simp [after])
      fun r other => by rw [after, Ptable.set_ne _ _ other]
    dsimp only
    cases stack : t.kstack q with
    | none => exact quiet _
    | some f =>
      have is := owned.stack q f stack
      have managed := owned.frames.managed f (by simp [is])
      refine spec_kfree managed ?_
      have frames := frames_kfree owned.frames (by rw [is]; trivial) (by simp [is]) managed
      cases dir : t.pgdir q with
      | none => exact quiet _
      | some d =>
        have root : t.Root d (some q) := ⟨live, dir⟩
        have isDir : upd role f .free d = .dir := by
          rw [upd_ne, owned.root d _ root]
          rintro rfl
          rw [owned.root d _ root] at is
          cases is
        have first := owned_plain reaped frames (fun refers => ?_) trivial
        · refine Prog.wp_call (freevm_spec frames isDir) ?_
          rintro - m' ⟨frames', -, -⟩
          refine ⟨_, owned_freevm first (fun owner now => ?_) frames'⟩
          have before : t.Root d owner ∧ owner ≠ some q := by
            cases owner with
            | none => exact ⟨now, by simp⟩
            | some r =>
              by_cases here : r = q
              · subst here
                have dead := now.1.1
                simp [Tables.setKstack, after] at dead
              · refine ⟨⟨?_, now.2⟩, by simpa using here⟩
                simpa only [Tables.live, Tables.setKstack, after, Ptable.set_ne _ _ here] using now.1
          exact before.2 (owned.apart d _ _ root before.1).symm
        · rcases refers with ⟨owner, now⟩ | ⟨r, now⟩ | ⟨i, now⟩
          · have other := reaped.root f owner now
            rw [is] at other
            cases other
          · have other := reaped.stack r f now
            rw [is] at other
            cases other
            simp [Tables.setKstack] at now
          · have other := (reaped.pipe i f now).1
            rw [is] at other
            cases other

theorem filealloc_cases (t : Tables) : filealloc t = (none, t) ∨
    ∃ i, (t.file i).ref = 0 ∧ filealloc t = (some i, t.setFile i { t.file i with ref := 1 }) := by
  unfold filealloc
  cases search : (List.range nfile).find? fun i => (t.file i).ref = 0 with
  | none => exact .inl rfl
  | some i =>
    have unused := List.find?_some search
    exact .inr ⟨i, of_decide_eq_true unused, rfl⟩

structure SameProcs (t t' : Tables) : Prop where
  ptable : t'.ptable = t.ptable
  sz : t'.sz = t.sz

theorem same_procs_trans {t'' : Tables} (first : SameProcs t t') (second : SameProcs t' t'') : SameProcs t t'' :=
  ⟨second.ptable.trans first.ptable, second.sz.trans first.sz⟩

def Fresh1 (t : Tables) (i : Nat) : Prop := (t.file i).ref = 1 ∧ (t.file i).pipe = none

theorem owned_filealloc (owned : Owned k t m role) {i : Nat} (unused : (t.file i).ref = 0) :
    Owned k (t.setFile i { t.file i with ref := 1 }) m role ∧ Fresh1 (t.setFile i { t.file i with ref := 1 }) i := by
  refine ⟨owned_same_files owned (same_files_set i _ rfl rfl (by simp)), ?_, ?_⟩
  · simp [Tables.setFile]
  · simpa [Tables.setFile] using owned.closed i unused

theorem close_if_spec (owned : Owned k t m role) (file : Option Nat) (fresh : ∀ i, file = some i → Fresh1 t i) :
    Spec k cond bad pid (closeIf t file) m fun t' m' => m' = m ∧ SameProcs t t' ∧ Owned k t' m role ∧
      ∀ j, file ≠ some j → t'.file j = t.file j := by
  cases file with
  | none => exact ⟨rfl, ⟨rfl, rfl⟩, owned, fun _ _ => rfl⟩
  | some i =>
    obtain ⟨one, none⟩ := fresh i rfl
    simp only [closeIf, fileclose, one, none, Nat.lt_irrefl, Nat.sub_self, if_false, gt_iff_lt]
    refine ⟨rfl, ⟨rfl, rfl⟩, ?_, fun j other => upd_ne fun same => other (congrArg some same.symm)⟩
    have closed := owned_close_file owned i
    simpa only [none] using closed

theorem pipealloc_bad_spec (owned : Owned k t m role) (f0 f1 : Option Nat) (fresh0 : ∀ i, f0 = some i → Fresh1 t i)
    (fresh1 : ∀ i, f1 = some i → Fresh1 t i) (apart : ∀ i, f0 = some i → f1 ≠ some i) :
    Spec k cond bad pid (pipeallocBad t f0 f1) m fun r m' => r.2 = none ∧ m' = m ∧ SameProcs t r.1 ∧ Owned k r.1 m role := by
  unfold pipeallocBad
  refine Prog.wp_call (close_if_spec owned f0 fresh0) ?_
  rintro t₁ m₁ ⟨rfl, same₁, owned₁, files⟩
  refine Prog.wp_call (close_if_spec owned₁ f1 fun i is => ?_) ?_
  · rw [Fresh1, files i fun is' => apart i is' is]
    exact fresh1 i is
  · rintro t₂ m₂ ⟨rfl, same₂, owned₂, -⟩
    exact ⟨rfl, rfl, same_procs_trans same₁ same₂, owned₂⟩

def Tables.newPipe (t : Tables) (f0 f1 page : Nat) : Tables :=
  let t := (t.setOpen page false true).setOpen page true true
  let t := t.setFile f0 { t.file f0 with pipe := some page, writable := false }
  t.setFile f1 { t.file f1 with pipe := some page, writable := true }

theorem new_pipe_file {f0 f1 : Nat} (apart : f0 ≠ f1) (j : Nat) : (t.newPipe f0 f1 page).file j =
    if j = f1 then { t.file f1 with pipe := some page, writable := true }
    else if j = f0 then { t.file f0 with pipe := some page, writable := false } else t.file j := by
  by_cases here : j = f1
  · subst here
    simp [Tables.newPipe, Tables.setFile, Tables.setOpen, upd_ne (Ne.symm apart)]
  · by_cases here' : j = f0
    · subst here'
      simp [Tables.newPipe, Tables.setFile, Tables.setOpen, upd_ne here, here]
    · simp [Tables.newPipe, Tables.setFile, Tables.setOpen, upd_ne here, upd_ne here', here, here']

theorem new_pipe_open {f0 f1 : Nat} (f : Nat) (w : Bool) :
    (t.newPipe f0 f1 page).pipeOpen f w = if f = page then true else t.pipeOpen f w := by
  by_cases here : f = page
  · subst here
    cases w <;> simp [Tables.newPipe, Tables.setFile, Tables.setOpen]
  · simp [Tables.newPipe, Tables.setFile, Tables.setOpen, upd_ne here, here]

theorem new_pipe_ends {f0 f1 : Nat} (apart : f0 ≠ f1) (unused : ∀ j, (t.file j).pipe ≠ some page) {j f : Nat}
    (pipe : ((t.newPipe f0 f1 page).file j).pipe = some f) :
    (f = page ∧ j = if ((t.newPipe f0 f1 page).file j).writable then f1 else f0) ∨
      (f ≠ page ∧ (t.newPipe f0 f1 page).file j = t.file j) := by
  rw [new_pipe_file apart] at pipe ⊢
  split at pipe
  · next here =>
      cases pipe
      exact .inl ⟨rfl, by simp [here]⟩
  · split at pipe
    · next other here =>
        cases pipe
        exact .inl ⟨rfl, by simp [here, apart]⟩
    · next other other' =>
        refine .inr ⟨?_, by rw [if_neg other, if_neg other']⟩
        rintro rfl
        exact unused j pipe

theorem owned_new_pipe (owned : Owned k t m role) {f0 f1 : Nat} (is : role page = .pipe)
    (unused : ∀ j, (t.file j).pipe ≠ some page) (apart : f0 ≠ f1) (fresh0 : Fresh1 t f0) (fresh1 : Fresh1 t f1) :
    Owned k (t.newPipe f0 f1 page) m role := by
  refine ⟨owned.frames, owned.root, owned.apart, owned.size, owned.stack, fun j f pipe => ?_, fun i j f first second ends => ?_,
    fun j zero => ?_⟩
  · rw [new_pipe_open]
    rcases new_pipe_ends apart unused pipe with ⟨rfl, -⟩ | ⟨away, same⟩
    · exact ⟨is, if_pos rfl⟩
    · rw [same] at pipe ⊢
      rw [if_neg away]
      exact owned.pipe j f pipe
  · rcases new_pipe_ends apart unused first with ⟨rfl, here⟩ | ⟨away, same⟩
    · rcases new_pipe_ends apart unused second with ⟨-, here'⟩ | ⟨away, -⟩
      · rw [here, here', ends]
      · exact absurd rfl away
    · rcases new_pipe_ends apart unused second with ⟨page_, -⟩ | ⟨-, same'⟩
      · exact absurd page_ away
      · rw [same] at first ends
        rw [same'] at second ends
        exact owned.once i j f first second ends
  · rw [new_pipe_file apart] at zero ⊢
    split at zero
    · rw [fresh1.1] at zero
      cases zero
    · split at zero
      · rw [fresh0.1] at zero
        cases zero
      · next other other' =>
          rw [if_neg other, if_neg other']
          exact owned.closed j zero

theorem pipealloc_spec (owned : Owned k t m role) :
    Spec k cond bad pid (pipealloc t) m fun r m' => SameProcs t r.1 ∧ ((r.2 = none ∧ m' = m ∧ Owned k r.1 m role) ∨
      ∃ f0 f1 page rest, r.2 = some (f0, f1) ∧ f0 ≠ f1 ∧ m.freelist = page :: rest ∧ m' = { m with freelist := rest } ∧
        role page = .free ∧ r.1.file f0 = ⟨1, some page, false⟩ ∧ r.1.file f1 = ⟨1, some page, true⟩ ∧
        (∀ w, r.1.pipeOpen page w = true) ∧ Owned k r.1 m' (upd role page .pipe)) := by
  unfold pipealloc
  rcases filealloc_cases t with full | ⟨f0, unused0, made0⟩
  · rw [full]
    refine Prog.wp_mono (pipealloc_bad_spec owned none none (by simp) (by simp) (by simp)) ?_
    rintro r m' ⟨none, same, procs, owned'⟩
    exact ⟨procs, .inl ⟨none, same, owned'⟩⟩
  rw [made0]
  obtain ⟨owned₁, fresh0⟩ := owned_filealloc owned unused0
  dsimp only
  generalize one : t.setFile f0 { t.file f0 with ref := 1 } = t₁ at owned₁ fresh0
  have procs₁ : SameProcs t t₁ := by rw [← one]; exact ⟨rfl, rfl⟩
  rcases filealloc_cases t₁ with full | ⟨f1, unused1, made1⟩
  · rw [full]
    refine Prog.wp_mono (pipealloc_bad_spec owned₁ (some f0) none (fun i is => by cases is; exact fresh0) (by simp) (by simp)) ?_
    rintro r m' ⟨none, same, procs, owned'⟩
    exact ⟨same_procs_trans procs₁ procs, .inl ⟨none, same, owned'⟩⟩
  rw [made1]
  have apart : f0 ≠ f1 := by
    rintro rfl
    rw [fresh0.1] at unused1
    cases unused1
  obtain ⟨owned₂, fresh1⟩ := owned_filealloc owned₁ unused1
  have fresh0' : Fresh1 (t₁.setFile f1 { t₁.file f1 with ref := 1 }) f0 := by
    simpa only [Fresh1, Tables.setFile, upd_ne apart] using fresh0
  dsimp only
  generalize two : t₁.setFile f1 { t₁.file f1 with ref := 1 } = t₂ at owned₂ fresh1 fresh0'
  have procs₂ : SameProcs t t₂ := by
    refine same_procs_trans procs₁ ?_
    rw [← two]
    exact ⟨rfl, rfl⟩
  refine spec_kalloc (fun _ => ?_) fun page rest head => ?_
  · refine Prog.wp_mono (pipealloc_bad_spec owned₂ (some f0) (some f1) (fun i is => by cases is; exact fresh0')
      (fun i is => by cases is; exact fresh1) fun i is is' => ?_) ?_
    · cases is
      cases is'
      exact apart rfl
    · rintro r m' ⟨none, same, procs, owned'⟩
      exact ⟨same_procs_trans procs₂ procs, .inl ⟨none, same, owned'⟩⟩
  · obtain ⟨was, taken⟩ := owned_take owned₂ (r := .pipe) head trivial (by simp)
    have unused : ∀ j, (t₂.file j).pipe ≠ some page := by
      intro j pipe
      have is := (owned₂.pipe j page pipe).1
      rw [was] at is
      cases is
    have made := owned_new_pipe taken (upd_self _ _ _) unused apart fresh0' fresh1
    refine ⟨⟨procs₂.ptable, procs₂.sz⟩, .inr ⟨f0, f1, page, rest, rfl, apart, head, rfl, was, ?_, ?_, fun w => ?_, made⟩⟩
    · refine (new_pipe_file apart f0).trans ?_
      rw [if_neg apart, if_pos rfl]
      dsimp only
      rw [fresh0'.1]
    · refine (new_pipe_file apart f1).trans ?_
      rw [if_pos rfl]
      dsimp only
      rw [fresh1.1]
    · refine (new_pipe_open page w).trans ?_
      rw [if_pos rfl]

theorem fdalloc_cases (t : Tables) (p i : Nat) :
    fdalloc t p i = none ∨ ∃ fd, fdalloc t p i = some (fd, t.setOfile p fd (some i)) := by
  unfold fdalloc
  cases (List.range nofile).find? fun fd => t.ofile p fd = none with
  | none => exact .inl rfl
  | some fd => exact .inr ⟨fd, rfl⟩

theorem fileclose_end_spec (owned : Owned k t m role) {i : Nat} (file : t.file i = ⟨1, some page, w⟩) :
    Spec k cond bad pid (fileclose t i) m fun t' m' => t' = t.shut i page ∧
      (((∀ w', t'.pipeOpen page w' = false) ∧ m' = m.kfree page ∧ Owned k t' m' (upd role page .free)) ∨
        ((∃ w', t'.pipeOpen page w' = true) ∧ m' = m ∧ Owned k t' m' role)) := by
  have pipe : (t.file i).pipe = some page := by rw [file]
  have shut := owned_shut owned pipe
  have is := (owned.pipe i page pipe).1
  unfold fileclose
  unfold Tables.shut at shut ⊢
  rw [file] at shut ⊢
  exact pipeclose_spec shut is

theorem close_both_spec (owned : Owned k t m (upd role page .pipe)) (was : role page = .free) {rf wf : Nat} (apart : rf ≠ wf)
    (reader : t.file rf = ⟨1, some page, false⟩) (writer : t.file wf = ⟨1, some page, true⟩) (on : t.pipeOpen page true = true) :
    Spec k cond bad pid (closeBoth t rf wf) m fun r m' => r.2 = false ∧ m' = m.kfree page ∧ Owned k r.1 m' role := by
  unfold closeBoth
  refine Prog.wp_call (fileclose_end_spec owned reader) ?_
  rintro t₁ m₁ ⟨rfl, first⟩
  have still : (t.shut rf page).pipeOpen page true = true := by
    rw [Tables.shut, reader, open_other (.inr (by simp))]
    exact on
  have writer' : (t.shut rf page).file wf = ⟨1, some page, true⟩ := (upd_ne (Ne.symm apart)).trans writer
  rcases first with ⟨closed, -, -⟩ | ⟨-, rfl, owned₁⟩
  · rw [closed] at still
    cases still
  · refine Prog.wp_call (fileclose_end_spec owned₁ writer') ?_
    rintro t₂ m₂ ⟨rfl, second⟩
    rcases second with ⟨-, rfl, owned₂⟩ | ⟨⟨w, open_⟩, -, -⟩
    · rw [upd_twice, ← was, upd_same] at owned₂
      exact ⟨rfl, rfl, owned₂⟩
    · cases w with
      | true =>
        rw [Tables.shut, writer', open_self] at open_
        cases open_
      | false =>
        rw [Tables.shut, writer', open_other (.inr (by simp)), Tables.setFile] at open_
        simp only at open_
        rw [Tables.shut, reader, open_self] at open_
        cases open_

theorem user_entry (frames : Frames k m role) {d va : Nat} (is : role d = .dir) (user : va < 2 ^ 31)
    (pde : (m.word d (pdx va)).p = true) (pte : (m.word (m.word d (pdx va)).frame (ptx va)).p = true) :
    ∃ n, role (m.word (m.word d (pdx va)).frame (ptx va)).frame = .page d n := by
  have table := frames.dir d is _ (pdx_lt va) pde
  have low : pdx va < 512 := by
    unfold pdx
    omega
  exact ⟨_, frames.entry _ d _ table low _ (ptx_lt va) pte⟩

theorem owned_write (owned : Owned k t m role) {f d n : Nat} (page : role f = .page d n) (j : Nat) (e : Pte) :
    Owned k t (m.setWord f j e) role :=
  owned_roles owned (frames_words owned.frames (.inr ⟨d, n, page⟩) _) (fun _ _ => rfl) fun _ _ _ _ page => page

theorem store_word_spec (quiet : ∀ msg, ¬ bad msg) (owned : Owned k t m role) {d va : Nat} (is : role d = .dir)
    (user : va < 2 ^ 31) (e : Pte) : Spec k cond bad pid (storeWord d va e) m fun _ m' => Owned k t m' role := by
  unfold storeWord
  refine spec_read ?_
  split
  · exact quiet _
  next pde =>
  refine spec_read ?_
  split
  · exact quiet _
  next pte =>
  obtain ⟨n, page⟩ := user_entry owned.frames is user (by simpa using pde) (by simpa using pte)
  rw [← Prog.bind_unit (write _ _ _)]
  exact spec_write (owned_write owned page _ e)

theorem sys_pipe_spec (quiet : ∀ msg, ¬ bad msg) (owned : Owned k t m role) {p : Nat} (live : t.live p) (va : Nat) :
    Spec k cond bad pid (sysPipe t p va) m fun r m' => (r.2 = false ∧ Failed k m m' role role ∧ Owned k r.1 m' role) ∨
      (r.2 = true ∧ ∃ role', Owned k r.1 m' role') := by
  have stop : Failed k m m role role := failed_clean owned.frames (fun _ _ => rfl) rfl
  unfold sysPipe
  split
  · exact .inl ⟨rfl, stop, owned⟩
  next inside =>
  refine Prog.wp_call (pipealloc_spec owned) ?_
  rintro ⟨t₁, r⟩ m₁ ⟨procs, ⟨none, rfl, owned₁⟩ | ⟨rf, wf, page, rest, some_, apart, head, rfl, was, reader, writer, on, owned₁⟩⟩
  · simp only at none owned₁
    subst none
    exact .inl ⟨rfl, stop, owned₁⟩
  simp only at some_ procs reader writer on owned₁
  subst some_
  have undo : ∀ {ofile : Nat → Nat → Option Nat}, Spec k cond bad pid (closeBoth { t₁ with ofile := ofile } rf wf)
      { m with freelist := rest } fun r m' => (r.2 = false ∧ Failed k m m' role role ∧ Owned k r.1 m' role) ∨
        (r.2 = true ∧ ∃ role', Owned k r.1 m' role') := by
    intro ofile
    refine Prog.wp_mono (close_both_spec (owned_ofile owned₁) was apart reader writer (on true)) ?_
    rintro r m' ⟨failed, rfl, owned'⟩
    refine .inl ⟨failed, failed_clean owned'.frames (fun f out => upd_ne ?_) rfl, owned'⟩
    rintro rfl
    rw [was] at out
    cases out
  dsimp only
  rcases fdalloc_cases t₁ p rf with full | ⟨fd0, made⟩
  · rw [full]
    exact undo
  rw [made]
  dsimp only
  rcases fdalloc_cases (t₁.setOfile p fd0 (some rf)) p wf with full | ⟨fd1, made'⟩
  · rw [full]
    exact undo
  rw [made']
  refine spec_cur quiet fun d dir => ?_
  have live₁ : t₁.live p := by
    rw [Tables.live, procs.ptable]
    exact live
  have is := owned₁.root d (some p) ⟨live₁, dir⟩
  have small : va + 4 < 2 ^ 31 := by
    have limit := (owned₁.size p d ⟨live₁, dir⟩).1
    rw [procs.sz] at limit
    unfold u32 at inside
    omega
  have owned₂ : Owned k ((t₁.setOfile p fd0 (some rf)).setOfile p fd1 (some wf)) { m with freelist := rest } (upd role page .pipe) :=
    owned_ofile owned₁
  refine Prog.wp_call (store_word_spec quiet owned₂ is (by omega) _) fun _ m₂ owned₃ => ?_
  refine Prog.wp_call (store_word_spec quiet owned₃ is small _) fun _ m₃ owned₄ => ?_
  exact .inr ⟨rfl, _, owned₄⟩

theorem store_spec (quiet : ∀ msg, ¬ bad msg) (owned : Owned k t m role) {p : Nat} (live : t.live p) (va w : Nat) :
    Spec k cond bad pid (store t p va w) m fun _ m' => Owned k t m' role := by
  unfold store
  refine spec_cur quiet fun d dir => ?_
  split
  · exact owned
  next user =>
  refine spec_read ?_
  split
  · exact owned
  next pde =>
  refine spec_read ?_
  split
  · exact owned
  next pte =>
  simp only [Bool.not_eq_true', Bool.not_eq_false, Bool.and_eq_true] at pde pte
  have low : va < 2 ^ 31 := not_le.mp user
  obtain ⟨n, page⟩ := user_entry owned.frames (owned.root d (some p) ⟨live, dir⟩) low pde pte.1.1
  rw [← Prog.bind_unit (write _ _ _)]
  exact spec_write (owned_write owned page _ _)

theorem perform_spec (quiet : ∀ msg, ¬ bad msg) (found : ∀ m m', ¬ cond ⟨pid, .probe .nullPte, (), m, m'⟩)
    (owned : Owned k t m role) {p : Nat} (live : t.live p) (call : Call) :
    Spec k cond bad pid (perform k t p call) m fun r m' => ∃ role', Owned k r.1 m' role' := by
  cases call with
  | fork =>
    refine Prog.wp_call (fork_spec quiet owned live) ?_
    rintro r m' (⟨-, role', -, owned'⟩ | ⟨-, role', owned'⟩)
    · exact ⟨role', owned'⟩
    · exact ⟨role', owned'⟩
  | exec path ip args =>
    refine Prog.wp_call (exec_spec quiet found owned live path ip args) ?_
    rintro r m' (⟨-, role', -, owned'⟩ | ⟨-, role', owned'⟩)
    · exact ⟨role', owned'⟩
    · exact ⟨role', owned'⟩
  | sbrk n => exact Prog.wp_call (growproc_spec quiet owned live n) fun _ _ owned' => owned'
  | pipe va =>
    refine Prog.wp_call (sys_pipe_spec quiet owned live va) ?_
    rintro r m' (⟨-, -, owned'⟩ | ⟨-, role', owned'⟩)
    · exact ⟨role, owned'⟩
    · exact ⟨role', owned'⟩
  | close fd => exact Prog.wp_call (sys_close_spec quiet owned p fd) fun _ _ owned' => owned'
  | exit => exact Prog.wp_call (exit_spec quiet owned live) fun _ _ owned' => owned'
  | wait =>
    refine Prog.wp_call (wait_spec quiet owned p) ?_
    rintro ⟨t', r⟩ m' owned'
    cases r
    · exact owned'
    · exact owned'
    · exact owned'
  | store va w => exact Prog.wp_call (store_spec quiet owned live va w) fun _ _ owned' => ⟨role, owned'⟩

end Xv6.Vm
