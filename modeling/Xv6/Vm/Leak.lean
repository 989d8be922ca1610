import Xv6.Vm.Isolation

set_option autoImplicit false

namespace Xv6.Vm

variable {k : Kernel} {t : Tables} {m m' : Ram} {role role' : Nat → Role} {p : Nat}

def SamePages (m m' : Ram) : Prop := ∀ f, f ∈ m'.freelist ↔ f ∈ m.freelist

theorem failed_same_iff (frames : Frames k m role) (failed : Failed k m m' role role') :
    SamePages m m' ↔ m'.notes = m.notes := by
  rcases failed.clean with ⟨notes, same⟩ | ⟨notes, f, free, gone⟩
  · refine ⟨fun _ => notes, fun _ f => ?_⟩
    rw [failed.frames.free, frames.free, same]
  · refine ⟨fun same => ?_, fun clean => absurd clean notes⟩
    exact absurd ((failed.frames.free f).mp ((same f).mpr ((frames.free f).mpr free))) gone

theorem failed_same (frames : Frames k m role) (failed : Failed k m m' role role) : SamePages m m' := by
  intro f
  rw [failed.frames.free, frames.free]

theorem allocated_none_empty {d oldsz newsz f : Nat} (frames : Frames k m role)
    (allocated : Allocated k m m' role role' d oldsz newsz 0) (free : f ∈ m.freelist) :
    f ∈ m'.freelist ∨ ∃ i < 512, (m'.word d i).p = true ∧ (m'.word d i).frame = f ∧ ∀ j < 1024, (m'.word f j).p = false := by
  have was := (frames.free f).mp free
  rcases allocated.taken f with same | ⟨-, ⟨i, table⟩ | ⟨n, -, below, -⟩⟩
  · exact .inl ((allocated.frames.free f).mpr (same.trans was))
  · obtain ⟨is', small, present, points⟩ := allocated.frames.tbl f d i table
    have is : role d = .dir := by
      rcases allocated.taken d with same | ⟨-, ⟨i', other⟩ | ⟨n, -, below, -⟩⟩
      · exact same.symm.trans is'
      · rw [is'] at other
        cases other
      · exact absurd below (Nat.not_lt_zero n)
    have new : (m.word d i).p = false := by
      refine Bool.eq_false_iff.mpr fun old => ?_
      have table' := frames.dir d is i small old
      have kept := grown_kept allocated.toGrown (by rw [table']; simp)
      obtain ⟨-, -, -, points'⟩ := allocated.frames.tbl _ d i (kept.trans table')
      rw [← points', points, was] at table'
      cases table'
    have user : i < 512 := by
      by_contra high
      rw [(allocated.undone rfl).pdes i (by omega) small, new] at present
      cases present
    refine .inr ⟨i, user, present, points, fun j bound => Bool.eq_false_iff.mpr fun mapped => ?_⟩
    -- A page that it maps was mapped before, through a table that d still has at i.
    have page' := allocated.frames.entry f d i table user j bound mapped
    have page := (grown_page allocated.toGrown page').resolve_right fun ⟨_, _, below⟩ => Nat.not_lt_zero _ below
    have entry := (page_entry frames page).1
    rw [show (1024 * i + j) / 1024 = i by omega, new] at entry
    cases entry
  · exact absurd below (Nat.not_lt_zero n)

def Leftover (t : Tables) (m m' : Ram) (p : Nat) : Call → Prop
  | .fork => t.ptable.nextpid ≠ -1 → (SamePages m m' ↔ m'.notes = m.notes)
  | .exec _ _ _ => SamePages m m' ↔ m'.notes = m.notes
  | .pipe _ => SamePages m m'
  | .sbrk _ => ∀ f ∈ m.freelist, f ∈ m'.freelist ∨ ∃ d, t.pgdir p = some d ∧ ∃ i < 512, (m'.word d i).p = true ∧
      (m'.word d i).frame = f ∧ ∀ j < 1024, (m'.word f j).p = false
  | _ => True

theorem growproc_leftover (owned : Owned k t m role) (live : t.live p) (n : Int) (cond : Event RamOp Ram → Prop) :
    Spec k cond (fun _ => False) p (growproc t p n) m fun r m' => r.2 = false → Leftover t m m' p (.sbrk n) := by
  unfold growproc
  refine spec_cur (fun _ never => never) fun d dir => ?_
  have root : t.Root d (some p) := ⟨live, dir⟩
  have is := owned.root d _ root
  obtain ⟨limit, top⟩ := owned.size p d root
  split
  · refine Prog.wp_call (allocuvm_spec limit owned.frames is top) ?_
    intro r m' allocated
    split
    next zero =>
      subst zero
      obtain ⟨role', allocated⟩ := allocated
      intro _ f free
      exact (allocated_none_empty owned.frames allocated free).imp_right fun table => ⟨d, dir, table⟩
    next => exact fun never => absurd never Bool.noConfusion
  split
  · refine Prog.wp_call (deallocuvm_spec limit owned.frames is) ?_
    intro r m' freed
    have grows : ∀ f ∈ m.freelist, f ∈ m'.freelist := by
      intro f free
      rcases freed with ⟨-, -, rfl⟩ | ⟨-, -, role', shrunk, -⟩
      · exact free
      · have was := (owned.frames.free f).mp free
        rw [shrunk.frames.free, shrunk_kept shrunk fun n => by rw [was]; simp, was]
    split
    · exact fun _ f free => .inl (grows f free)
    · exact fun _ f free => .inl (grows f free)
  · exact fun never => absurd never Bool.noConfusion

theorem perform_leftover (owned : Owned k t m role) (live : t.live p) (call : Call) :
    Spec k WalkFound (fun _ => False) p (perform k t p call) m fun r m' => r.2 = some (-1) → Leftover t m m' p call := by
  have quiet : ∀ msg : String, ¬ False := fun _ never => never
  have found : ∀ m m', ¬ WalkFound ⟨p, .probe .nullPte, (), m, m'⟩ := fun _ _ never => never
  cases call with
  | fork =>
    refine Prog.wp_call (fork_spec quiet owned live) ?_
    rintro ⟨t', r⟩ m' (⟨rfl, role', failed, -⟩ | ⟨rfl, -⟩) minus
    · exact fun _ => failed_same_iff owned.frames failed
    · exact fun pid => absurd (Option.some.inj minus) pid
  | exec path ip args =>
    refine Prog.wp_call (exec_spec quiet found owned live path ip args) ?_
    rintro ⟨t', r⟩ m' (⟨rfl, role', failed, -⟩ | ⟨rfl, -⟩) minus
    · exact failed_same_iff owned.frames failed
    · exact absurd minus (by simp [result])
  | sbrk n =>
    refine Prog.wp_call (growproc_leftover owned live n WalkFound) ?_
    rintro ⟨t', ok⟩ m' left minus
    cases ok with
    | false => exact left rfl
    | true =>
      have size := Option.some.inj minus
      simp only [if_true] at size
      omega
  | pipe va =>
    refine Prog.wp_call (sys_pipe_spec quiet owned live va) ?_
    rintro ⟨t', r⟩ m' (⟨rfl, failed, -⟩ | ⟨rfl, -⟩) minus
    · exact failed_same owned.frames failed
    · exact absurd minus (by simp [result])
  | close fd => exact Prog.wp_mono (perform_spec quiet found owned live (.close fd)) fun _ _ _ _ => trivial
  | exit => exact Prog.wp_mono (perform_spec quiet found owned live .exit) fun _ _ _ _ => trivial
  | wait => exact Prog.wp_mono (perform_spec quiet found owned live .wait) fun _ _ _ _ => trivial
  | store va w => exact Prog.wp_mono (perform_spec quiet found owned live (.store va w)) fun _ _ _ _ => trivial

-- A kernel directory in frame 999, and frame 1000 is the only free one.
def lastPage : Ram := ⟨[1000], fun _ _ => .ofWord 0, []⟩

def lastPageRole (f : Nat) : Role := if f = 1000 then .free else if f = 999 then .dir else .out

theorem last_page_cases (f : Nat) :
    (f = 1000 ∧ lastPageRole f = .free) ∨ (f = 999 ∧ lastPageRole f = .dir) ∨ (f ≠ 1000 ∧ lastPageRole f = .out) := by
  unfold lastPageRole
  by_cases last : f = 1000
  · exact .inl ⟨last, if_pos last⟩
  · by_cases dir : f = 999
    · exact .inr (.inl ⟨dir, by rw [if_neg last, if_pos dir]⟩)
    · exact .inr (.inr ⟨last, by rw [if_neg last, if_neg dir]⟩)

theorem last_page_owned : Owned linked (noTables 999) lastPage lastPageRole := by
  refine owned_no_tables ⟨List.nodup_singleton 1000, fun f => ?_, fun f busy => ?_, fun d _ i _ present => ?_, fun f d i table => ?_,
    fun f d i table => ?_, fun f d n page => ?_⟩ (by decide)
  · rcases last_page_cases f with ⟨rfl, is⟩ | ⟨rfl, is⟩ | ⟨other, is⟩
    · simp [is, lastPage]
    · simp [is, lastPage]
    · simp [is, lastPage, other]
  · rcases last_page_cases f with ⟨rfl, -⟩ | ⟨rfl, -⟩ | ⟨-, is⟩
    · decide
    · decide
    · exact absurd is busy
  · exact absurd present (by simp [lastPage, Pte.ofWord])
  · rcases last_page_cases f with ⟨-, is⟩ | ⟨-, is⟩ | ⟨-, is⟩ <;> simp [is] at table
  · rcases last_page_cases f with ⟨-, is⟩ | ⟨-, is⟩ | ⟨-, is⟩ <;> simp [is] at table
  · rcases last_page_cases f with ⟨-, is⟩ | ⟨-, is⟩ | ⟨-, is⟩ <;> simp [is] at page

def lostAll : Res Ram (Option Nat) → Bool
  | .ok none m' => m'.freelist.isEmpty
  | _ => false

theorem lost_all_iff (res : Res Ram (Option Nat)) : lostAll res = true ↔ ∃ m', res = .ok none m' ∧ m'.freelist = [] := by
  unfold lostAll
  split
  · simp
  · next other =>
      refine ⟨fun never => absurd never Bool.false_ne_true, ?_⟩
      rintro ⟨m', is, -⟩
      exact absurd is (other m')

end Xv6.Vm
