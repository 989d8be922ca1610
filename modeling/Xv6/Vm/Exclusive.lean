import Xv6.Vm.Copyuvm
import Xv6.Vm.Exec
import Xv6.Vm.System

set_option autoImplicit false

namespace Xv6.Vm

def Tables.live (t : Tables) (q : Nat) : Prop :=
  (t.ptable.proc q).state ≠ .unused ∧ (t.ptable.proc q).state ≠ .embryo

def Tables.Root (t : Tables) (d : Nat) : Option Nat → Prop
  | none => t.kpgdir = d
  | some q => t.live q ∧ t.pgdir q = some d

inductive Use where
  | free (i : Nat)
  | page (owner : Option Nat) (n : Nat)
  | dir (owner : Option Nat)
  | table (owner : Option Nat) (i : Nat)
  | kstack (q : Nat)
  | pipe

def Uses (s : State) (f : Nat) : Use → Prop
  | .free i => s.ram.freelist[i]? = some f
  | .page owner n => n < 2 ^ 19 ∧ ∃ d e, s.tables.Root d owner ∧ lookup s.ram d n = some e ∧ e.frame = f
  | .dir owner => s.tables.Root f owner
  | .table owner i => i < 1024 ∧ ∃ d, s.tables.Root d owner ∧ (s.ram.word d i).p = true ∧ (s.ram.word d i).frame = f
  | .kstack q => s.tables.kstack q = some f
  | .pipe => ∃ i, (s.tables.file i).pipe = some f

-- Every frame is used in at most one place, and a pipe has at most one file for each end.
structure Exclusive (k : Kernel) (s : State) : Prop where
  place : ∀ f, k.managed f → ∀ u v, Uses s f u → Uses s f v → u = v
  ends : ∀ i j f, (s.tables.file i).pipe = some f → (s.tables.file j).pipe = some f →
    (s.tables.file i).writable = (s.tables.file j).writable → i = j

structure Owned (k : Kernel) (t : Tables) (m : Ram) (role : Nat → Role) : Prop where
  frames : Frames k m role
  root : ∀ d owner, t.Root d owner → role d = .dir
  apart : ∀ d owner owner', t.Root d owner → t.Root d owner' → owner = owner'
  size : ∀ q d, t.Root d (some q) → t.sz q ≤ 2 ^ 31 ∧ ∀ f n, role f = .page d n → n < npages (t.sz q)
  stack : ∀ q f, t.kstack q = some f → role f = .kstack q
  pipe : ∀ i f, (t.file i).pipe = some f → role f = .pipe ∧ t.pipeOpen f (t.file i).writable = true
  once : ∀ i j f, (t.file i).pipe = some f → (t.file j).pipe = some f →
    (t.file i).writable = (t.file j).writable → i = j
  closed : ∀ i, (t.file i).ref = 0 → (t.file i).pipe = none

variable {k : Kernel} {t t' : Tables} {m m' m'' : Ram} {role role' role'' : Nat → Role} {cond : Event RamOp Ram → Prop}
  {bad : String → Prop} {pid : Nat}

def Use.Fits (t : Tables) (m : Ram) (f : Nat) (r : Role) : Use → Prop
  | .free i => r = .free ∧ m.freelist[i]? = some f
  | .page owner n => ∃ d, t.Root d owner ∧ r = .page d n
  | .dir owner => t.Root f owner ∧ r = .dir
  | .table owner i => ∃ d, t.Root d owner ∧ r = .tbl d i
  | .kstack q => r = .kstack q
  | .pipe => r = .pipe

section

variable (owned : Owned k t m role)
include owned

theorem use_fits {f : Nat} {u : Use} (used : Uses ⟨t, m⟩ f u) : u.Fits t m f (role f) := by
  cases u with
  | free i => exact ⟨(owned.frames.free f).mp (List.mem_of_getElem? used), used⟩
  | page owner n =>
    obtain ⟨small, d, e, root, found, points⟩ := used
    refine ⟨d, root, ?_⟩
    unfold lookup at found
    split at found
    · next present =>
        obtain ⟨pde, pte⟩ := Bool.and_eq_true_iff.mp present
        cases found
        have table := owned.frames.dir d (owned.root d owner root) _ (by omega) pde
        have page := owned.frames.entry _ d _ table (by omega) (n % 1024) (by omega) pte
        rw [show 1024 * (n / 1024) + n % 1024 = n by omega] at page
        rw [← points]
        exact page
    · cases found
  | dir owner => exact ⟨used, owned.root f owner used⟩
  | table owner i =>
    obtain ⟨small, d, root, present, points⟩ := used
    refine ⟨d, root, ?_⟩
    rw [← points]
    exact owned.frames.dir d (owned.root d owner root) i small present
  | kstack q => exact owned.stack q f used
  | pipe =>
    obtain ⟨i, used⟩ := used
    exact (owned.pipe i f used).1

theorem fits_unique {f : Nat} {u v : Use} (first : u.Fits t m f (role f))
    (second : v.Fits t m f (role f)) : u = v := by
  generalize role f = r at first second
  cases u with
  | free i =>
    obtain ⟨rfl, here⟩ := first
    cases v <;> simp_all [Use.Fits]
    exact (List.getElem?_inj (List.getElem?_eq_some_iff.mp here).1 owned.frames.nodup).mp (here.trans second.symm)
  | page owner n =>
    obtain ⟨d, root, rfl⟩ := first
    cases v <;> simp_all [Use.Fits]
    exact owned.apart d _ _ root second.1
  | dir owner =>
    obtain ⟨root, rfl⟩ := first
    cases v <;> simp_all [Use.Fits]
    exact owned.apart f _ _ root second
  | table owner i =>
    obtain ⟨d, root, rfl⟩ := first
    cases v <;> simp_all [Use.Fits]
    exact owned.apart d _ _ root second.1
  | kstack q =>
    obtain rfl := first
    cases v <;> simp_all [Use.Fits]
  | pipe =>
    obtain rfl := first
    cases v <;> simp_all [Use.Fits]

theorem exclusive_of_owned : Exclusive k ⟨t, m⟩ :=
  ⟨fun _ _ _ _ first second => fits_unique owned (use_fits owned first) (use_fits owned second), owned.once⟩

def Tables.Refers (t : Tables) (f : Nat) : Prop :=
  (∃ owner, t.Root f owner) ∨ (∃ q, t.kstack q = some f) ∨ ∃ i, (t.file i).pipe = some f

theorem owned_memory (frames : Frames k m' role') {sz : Nat → Nat}
    (kept : ∀ f, t.Refers f → role' f = role f)
    (size : ∀ q d, t.Root d (some q) → sz q ≤ 2 ^ 31 ∧ ∀ f n, role' f = .page d n → n < npages (sz q)) :
    Owned k { t with sz := sz } m' role' := by
  refine ⟨frames, fun d owner root => ?_, owned.apart, size, fun q f stack => ?_, fun i f pipe => ?_, owned.once,
    owned.closed⟩
  · rw [kept d (.inl ⟨owner, root⟩)]
    exact owned.root d owner root
  · rw [kept f (.inr (.inl ⟨q, stack⟩))]
    exact owned.stack q f stack
  · rw [kept f (.inr (.inr ⟨i, pipe⟩))]
    exact owned.pipe i f pipe

theorem owned_labels (tf : Nat → Trapframe) (name : Nat → List UInt8) :
    Owned k { t with tf := tf, name := name } m role :=
  ⟨owned.frames, owned.root, owned.apart, owned.size, owned.stack, owned.pipe, owned.once, owned.closed⟩

theorem owned_roles (frames : Frames k m' role') (kept : ∀ f, t.Refers f → role' f = role f)
    (pages : ∀ f d n, role d = .dir → role' f = .page d n → role f = .page d n) : Owned k t m' role' := by
  refine owned_memory owned frames kept fun q d root => ?_
  obtain ⟨limit, top⟩ := owned.size q d root
  exact ⟨limit, fun f n page => top f n (pages f d n (owned.root d _ root) page)⟩

theorem refers_role {f : Nat} (refers : t.Refers f) :
    role f = .dir ∨ (∃ q, role f = .kstack q) ∨ role f = .pipe := by
  rcases refers with ⟨owner, root⟩ | ⟨q, stack⟩ | ⟨i, pipe⟩
  · exact .inl (owned.root f owner root)
  · exact .inr (.inl ⟨q, owned.stack q f stack⟩)
  · exact .inr (.inr (owned.pipe i f pipe).1)

theorem refers_busy {f : Nat} (refers : t.Refers f) : role f ≠ .free := by
  intro free
  rcases refers_role owned refers with is | ⟨q, is⟩ | is <;> simp [is] at free

theorem owned_failed (failed : Failed k m m' role role') : Owned k t m' role' := by
  refine owned_roles owned failed.frames (fun f refers => ?_) fun f d n is page => ?_
  · exact (failed.lost f).resolve_right fun lost => refers_busy owned refers lost.1
  · rcases failed.lost f with same | ⟨-, hand⟩
    · rw [← same]
      exact page
    · rw [hand] at page
      cases page

theorem owned_grown {d : Nat} (was : role d = .free)
    (grown : Grown k m m' role role' fun f r => r.of d f = true) : Owned k t m' role' := by
  refine owned_roles owned grown.frames (fun f refers => grown_kept grown (refers_busy owned refers)) fun f d' n is page => ?_
  rcases grown.taken f with same | ⟨-, mine⟩
  · rw [← same]
    exact page
  · rw [page] at mine
    have same : d' = d := of_decide_eq_true mine
    rw [same, was] at is
    cases is

theorem owned_plain {f : Nat} {r : Role} (frames : Frames k m' (upd role f r))
    (was : ¬ t.Refers f) (now : r.Plain) : Owned k t m' (upd role f r) := by
  refine owned_roles owned frames (fun g refers => upd_ne ?_) fun g d n is page => ?_
  · rintro rfl
    exact was refers
  · by_cases here : g = f
    · rw [here, upd_self] at page
      rw [page] at now
      exact now.elim
    · rwa [upd_ne here] at page

theorem owned_fewer {ptable : Ptable} {pgdir : Nat → Option Nat}
    (fewer : ∀ d owner, Tables.Root { t with ptable := ptable, pgdir := pgdir } d owner → t.Root d owner) :
    Owned k { t with ptable := ptable, pgdir := pgdir } m role :=
  ⟨owned.frames, fun d owner now => owned.root d owner (fewer d owner now),
    fun d owner owner' now now' => owned.apart d owner owner' (fewer d _ now) (fewer d _ now'),
    fun q d now => owned.size q d (fewer d _ now), owned.stack, owned.pipe, owned.once, owned.closed⟩

theorem owned_ptable {ptable : Ptable}
    (fewer : ∀ q, Tables.live { t with ptable := ptable } q → t.live q) : Owned k { t with ptable := ptable } m role := by
  refine owned_fewer owned fun d owner now => ?_
  cases owner with
  | none => exact now
  | some q => exact ⟨fewer q now.1, now.2⟩

theorem owned_kstack {q : Nat} {f : Option Nat} (is : ∀ g, f = some g → role g = .kstack q) :
    Owned k (t.setKstack q f) m role := by
  refine ⟨owned.frames, owned.root, owned.apart, owned.size, fun p g stack => ?_, owned.pipe, owned.once, owned.closed⟩
  by_cases here : p = q
  · subst here
    exact is g ((upd_self t.kstack p f).symm.trans stack)
  · exact owned.stack p g ((upd_ne here).symm.trans stack)

theorem owned_ofile {ofile : Nat → Nat → Option Nat} : Owned k { t with ofile := ofile } m role :=
  ⟨owned.frames, owned.root, owned.apart, owned.size, owned.stack, owned.pipe, owned.once, owned.closed⟩

end

theorem owned_new_root (p : Nat) {d : Nat} (sz : Nat) (ptable : Ptable) (owned : Owned k t m role) (is : role d = .dir)
    (fresh : ∀ owner, ¬ t.Root d owner) (limit : sz ≤ 2 ^ 31) (top : ∀ f n, role f = .page d n → n < npages sz)
    (others : ∀ q, q ≠ p → Tables.live { t with ptable := ptable } q → t.live q) :
    Owned k { t with ptable := ptable, pgdir := upd t.pgdir p (some d), sz := upd t.sz p sz } m role := by
  have roots : ∀ d' owner,
      Tables.Root { t with ptable := ptable, pgdir := upd t.pgdir p (some d), sz := upd t.sz p sz } d' owner →
        (owner = some p ∧ d' = d) ∨ (owner ≠ some p ∧ t.Root d' owner) := by
    intro d' owner root
    cases owner with
    | none => exact .inr ⟨by simp, root⟩
    | some q =>
      by_cases here : q = p
      · subst here
        exact .inl ⟨rfl, (Option.some.inj ((upd_self t.pgdir q (some d)).symm.trans root.2)).symm⟩
      · exact .inr ⟨by simpa using here, others q here root.1, (upd_ne here).symm.trans root.2⟩
  refine ⟨owned.frames, fun d' owner root => ?_, fun d' owner owner' root root' => ?_, fun q d' root => ?_, owned.stack,
    owned.pipe, owned.once, owned.closed⟩
  · rcases roots d' owner root with ⟨-, rfl⟩ | ⟨-, old⟩
    · exact is
    · exact owned.root d' owner old
  · rcases roots d' owner root with ⟨rfl, rfl⟩ | ⟨-, old⟩
    · rcases roots d' owner' root' with ⟨rfl, -⟩ | ⟨-, old'⟩
      · rfl
      · exact absurd old' (fresh owner')
    · rcases roots d' owner' root' with ⟨rfl, rfl⟩ | ⟨-, old'⟩
      · exact absurd old (fresh owner)
      · exact owned.apart d' owner owner' old old'
  · rcases roots d' (some q) root with ⟨same, rfl⟩ | ⟨other, old⟩
    · cases same
      simp only [upd_self]
      exact ⟨limit, top⟩
    · simp only [upd_ne fun same => other (congrArg some same)]
      exact owned.size q d' old

end Xv6.Vm
