import Xv6.Sh.Wiring

set_option autoImplicit false

namespace Xv6.Sh

def Sys.Node (s : Sys) (g : Nat → Owes) (id : Nat) : Prop := (∃ p, (g p).pipe = some id) ∨ id ∈ s.waits ∨ id ∈ s.enters

-- Shell processes keep to Ok, and no two processes owe the same for a pipe.
structure Inv (s : Sys) (g : Nat → Owes) : Prop where
  pids : ∀ p, s.nextPid ≤ p → s.proc p = none
  thread : ∀ p pr prog, s.proc p = some pr → pr.code = some prog →
    Ok prog (g p) pr.left pr.fds ∨ (Foreign prog ∧ g p = .none)
  idle : ∀ p, (∀ pr, s.proc p = some pr → pr.code = none) → g p = .none
  sides : ∀ p pr id, s.proc p = some pr → id ∈ pr.left → id < s.nextPipe
  ends : ∀ p pr id, s.proc p = some pr → Holds pr.fds id → id < s.nextPipe
  nodes : ∀ id, s.Node g id → id < s.nextPipe
  held : ∀ id, s.Node g id → ∀ p pr, s.proc p = some pr → Holds pr.fds id → id ∈ pr.left ∨ (g p).pipe = some id
  pair : ∀ p q id, p ≠ q → (g p).pipe = some id → (g q).pipe = some id →
    (g p = .closing id ∧ g q = .entering id) ∨ (g p = .entering id ∧ g q = .closing id)
  waited : ∀ p, ∀ id ∈ s.waits, g p ≠ .forking id ∧ g p ≠ .closing id
  entered : ∀ p, ∀ id ∈ s.enters, g p ≠ .forking id ∧ g p ≠ .entering id

section

variable {s : Sys} {g : Nat → Owes} {p : Nat} {pr : Proc}

theorem set_self (s : Sys) (p : Nat) (pr : Proc) : (s.set p pr).proc p = some pr := upd_self _ _ _

theorem set_other (s : Sys) {p q : Nat} (pr : Proc) (other : q ≠ p) : (s.set p pr).proc q = s.proc q := upd_ne other

theorem set_cases {q : Nat} {pr pr' : Proc} (found : (s.set p pr).proc q = some pr') :
    (q = p ∧ pr' = pr) ∨ (q ≠ p ∧ s.proc q = some pr') := by
  by_cases same : q = p
  · rw [same, set_self] at found
    exact .inl ⟨same, (Option.some.inj found).symm⟩
  · rw [set_other s pr same] at found
    exact .inr ⟨same, found⟩

structure Fits (s : Sys) (g : Nat → Owes) (p : Nat) (pr : Proc) : Prop where
  thread : ∀ prog, pr.code = some prog → Ok prog (g p) pr.left pr.fds ∨ (Foreign prog ∧ g p = .none)
  sides : ∀ id ∈ pr.left, id < s.nextPipe
  ends : ∀ id, Holds pr.fds id → id < s.nextPipe
  held : ∀ id, s.Node g id → Holds pr.fds id → id ∈ pr.left ∨ (g p).pipe = some id

theorem inv_of_fits (pids : ∀ p, s.nextPid ≤ p → s.proc p = none) (fits : ∀ p pr, s.proc p = some pr → Fits s g p pr)
    (idle : ∀ p, (∀ pr, s.proc p = some pr → pr.code = none) → g p = .none) (nodes : ∀ id, s.Node g id → id < s.nextPipe)
    (pair : ∀ p q id, p ≠ q → (g p).pipe = some id → (g q).pipe = some id →
      (g p = .closing id ∧ g q = .entering id) ∨ (g p = .entering id ∧ g q = .closing id))
    (waited : ∀ p, ∀ id ∈ s.waits, g p ≠ .forking id ∧ g p ≠ .closing id)
    (entered : ∀ p, ∀ id ∈ s.enters, g p ≠ .forking id ∧ g p ≠ .entering id) : Inv s g :=
  ⟨pids, fun p pr prog found => (fits p pr found).thread prog, idle, fun p pr id found => (fits p pr found).sides id,
    fun p pr id found => (fits p pr found).ends id, nodes, fun id node p pr found => (fits p pr found).held id node,
    pair, waited, entered⟩

theorem fits_still {s' : Sys} {g' : Nat → Owes} (inv : Inv s g) (at_ : s.proc p = some pr) (owes : g' p = g p)
    (pipes : s.nextPipe ≤ s'.nextPipe) (nodes : ∀ id, s'.Node g' id → s.Node g id ∨ s.nextPipe ≤ id) : Fits s' g' p pr := by
  refine ⟨fun prog code => ?_, fun id member => Nat.lt_of_lt_of_le (inv.sides p pr id at_ member) pipes,
    fun id holds => Nat.lt_of_lt_of_le (inv.ends p pr id at_ holds) pipes, fun id node holds => ?_⟩
  · rw [owes]
    exact inv.thread p pr prog at_ code
  · rw [owes]
    rcases nodes id node with old | new
    · exact inv.held id old p pr at_ holds
    · exact absurd (inv.ends p pr id at_ holds) (Nat.not_lt.mpr new)

theorem pids_set (inv : Inv s g) (at_ : s.proc p = some pr) (pr' : Proc) (q : Nat) (large : s.nextPid ≤ q) :
    (s.set p pr').proc q = none := by
  have other : q ≠ p := by
    rintro rfl
    rw [inv.pids q large] at at_
    cases at_
  rw [set_other s pr' other]
  exact inv.pids q large

theorem idle_set (inv : Inv s g) {pr' : Proc} (runs : pr'.code ≠ none) {q : Nat}
    (stopped : ∀ pr'', (s.set p pr').proc q = some pr'' → pr''.code = none) : q ≠ p ∧ g q = .none := by
  by_cases same : q = p
  · subst same
    exact absurd (stopped _ (set_self _ _ _)) runs
  · exact ⟨same, inv.idle q fun pr'' found => stopped pr'' ((set_other _ _ same).trans found)⟩

theorem pair_upd (inv : Inv s g) {o : Owes} (fresh : ∀ q id, q ≠ p → (g q).pipe = some id → o.pipe ≠ some id) :
    ∀ q q' id, q ≠ q' → (upd g p o q).pipe = some id → (upd g p o q').pipe = some id →
      (upd g p o q = .closing id ∧ upd g p o q' = .entering id) ∨ (upd g p o q = .entering id ∧ upd g p o q' = .closing id) := by
  intro q q' id apart own own'
  by_cases first : q = p
  · have second : q' ≠ p := fun same => apart (first.trans same.symm)
    rw [first, upd_self] at own
    rw [upd_ne second] at own'
    exact absurd own (fresh q' id second own')
  · rw [upd_ne first] at own ⊢
    by_cases second : q' = p
    · rw [second, upd_self] at own'
      exact absurd own' (fresh q id first own)
    · rw [upd_ne second] at own' ⊢
      exact inv.pair q q' id apart own own'

theorem inv_goes (inv : Inv s g) (at_ : s.proc p = some pr) {fds : Table} {prog : ShProg}
    (fewer : ∀ id, Holds fds id → Holds pr.fds id) (thread : Ok prog (g p) pr.left fds ∨ (Foreign prog ∧ g p = .none)) :
    Inv (s.set p (pr.goes fds prog)) g := by
  refine inv_of_fits (pids_set inv at_ _) (fun q pr' found => ?_) (fun q stopped => (idle_set inv (Option.some_ne_none _) stopped).2) inv.nodes
    inv.pair inv.waited inv.entered
  rcases set_cases found with ⟨rfl, rfl⟩ | ⟨-, old⟩
  · refine ⟨fun prog' code => ?_, fun id => inv.sides q pr id at_, fun id holds => inv.ends q pr id at_ (fewer id holds),
      fun id node holds => inv.held id node q pr at_ (fewer id holds)⟩
    cases code
    exact thread
  · exact fits_still inv old rfl (Nat.le_refl _) fun _ => .inl

theorem inv_pipe (inv : Inv s g) (at_ : s.proc p = some pr) {fds : Table} {prog : ShProg} {o : Owes}
    (ends : ∀ id, Holds fds id → Holds pr.fds id ∨ id = s.nextPipe) (before : g p = .none)
    (thread : Ok prog o pr.left fds ∨ (Foreign prog ∧ o = .none)) (owes : o = .none ∨ o = .forking s.nextPipe) :
    Inv { s.set p (pr.goes fds prog) with nextPipe := s.nextPipe + 1 } (upd g p o) := by
  have nodes : ∀ id, Sys.Node { s.set p (pr.goes fds prog) with nextPipe := s.nextPipe + 1 } (upd g p o) id →
      s.Node g id ∨ (id = s.nextPipe ∧ o = .forking id) := by
    rintro id (⟨q, own⟩ | rest)
    · by_cases same : q = p
      · rw [same, upd_self] at own
        rcases owes with rfl | rfl
        · cases own
        · cases own
          exact .inr ⟨rfl, rfl⟩
      · rw [upd_ne same] at own
        exact .inl (.inl ⟨q, own⟩)
    · exact .inl (.inr rest)
  have fresh : ∀ id, s.Node g id → o.pipe ≠ some id := by
    intro id node now
    have small := inv.nodes id node
    rcases owes with rfl | rfl
    · cases now
    · cases now
      omega
  refine inv_of_fits (pids_set inv at_ _) (fun q pr' found => ?_) (fun q stopped => ?_) (fun id node => ?_)
    (pair_upd inv fun q id _ own => fresh id (.inl ⟨q, own⟩)) (fun q id member => ?_) (fun q id member => ?_)
  · rcases set_cases found with ⟨rfl, rfl⟩ | ⟨other, old⟩
    · refine ⟨fun prog' code => ?_, fun id member => Nat.lt_succ_of_lt (inv.sides q pr id at_ member), fun id holds => ?_,
        fun id node holds => ?_⟩
      · cases code
        rw [upd_self]
        exact thread
      · rcases ends id holds with had | rfl
        · exact Nat.lt_succ_of_lt (inv.ends q pr id at_ had)
        · exact Nat.lt_succ_self _
      · rcases nodes id node with known | ⟨rfl, own⟩
        · have small := inv.nodes id known
          have had := (ends id holds).resolve_right (by omega)
          refine .inl ((inv.held id known q pr at_ had).resolve_right ?_)
          rw [before]
          simp [Owes.pipe]
        · rw [upd_self, own]
          exact .inr rfl
    · refine fits_still inv old (upd_ne other) (Nat.le_succ _) fun id node => (nodes id node).imp_right ?_
      rintro ⟨rfl, -⟩
      exact Nat.le_refl _
  · obtain ⟨other, none⟩ := idle_set inv (Option.some_ne_none _) stopped
    rw [upd_ne other]
    exact none
  · rcases nodes id node with old | ⟨rfl, -⟩
    · exact Nat.lt_succ_of_lt (inv.nodes id old)
    · exact Nat.lt_succ_self _
  · by_cases here : q = p
    · rw [here, upd_self]
      have never := fresh id (.inr (.inl member))
      exact ⟨fun same => never (by rw [same]; rfl), fun same => never (by rw [same]; rfl)⟩
    · rw [upd_ne here]
      exact inv.waited q id member
  · by_cases here : q = p
    · rw [here, upd_self]
      have never := fresh id (.inr (.inr member))
      exact ⟨fun same => never (by rw [same]; rfl), fun same => never (by rw [same]; rfl)⟩
    · rw [upd_ne here]
      exact inv.entered q id member

theorem alone_closing (inv : Inv s g) {q id : Nat} (other : q ≠ p) (own : g p = .closing id) :
    g q ≠ .forking id ∧ g q ≠ .closing id := by
  refine ⟨fun never => ?_, fun never => ?_⟩ <;>
    rcases inv.pair q p id other (by rw [never]; rfl) (by rw [own]; rfl) with ⟨one, two⟩ | ⟨one, two⟩ <;>
    simp_all

theorem alone_entering (inv : Inv s g) {q id : Nat} (other : q ≠ p) (own : g p = .entering id) :
    g q ≠ .forking id ∧ g q ≠ .entering id := by
  refine ⟨fun never => ?_, fun never => ?_⟩ <;>
    rcases inv.pair q p id other (by rw [never]; rfl) (by rw [own]; rfl) with ⟨one, two⟩ | ⟨one, two⟩ <;>
    simp_all

theorem inv_mark (inv : Inv s g) (at_ : s.proc p = some pr) {prog : ShProg} {id : Nat} {m : Mark}
    (owes : (m = .waits id ∧ g p = .closing id) ∨ (m = .enters id ∧ g p = .entering id)) (gone : ¬ Holds pr.fds id)
    (thread : Ok prog .none pr.left pr.fds) : Inv ((s.set p (pr.goes pr.fds prog)).marked m) (upd g p .none) := by
  have proc : ((s.set p (pr.goes pr.fds prog)).marked m).proc = (s.set p (pr.goes pr.fds prog)).proc := by
    cases m <;> rfl
  have pid : ((s.set p (pr.goes pr.fds prog)).marked m).nextPid = s.nextPid := by
    cases m <;> rfl
  have number : ((s.set p (pr.goes pr.fds prog)).marked m).nextPipe = s.nextPipe := by
    cases m <;> rfl
  have mine : (g p).pipe = some id := by
    rcases owes with ⟨-, own⟩ | ⟨-, own⟩ <;> rw [own] <;> rfl
  have nodes : ∀ id', ((s.set p (pr.goes pr.fds prog)).marked m).Node (upd g p .none) id' → s.Node g id' := by
    rintro id' (⟨q, own⟩ | waits | enters)
    · by_cases here : q = p
      · rw [here, upd_self] at own
        cases own
      · rw [upd_ne here] at own
        exact .inl ⟨q, own⟩
    · rcases owes with ⟨rfl, -⟩ | ⟨rfl, -⟩
      · rcases List.mem_cons.mp waits with rfl | old
        · exact .inl ⟨p, mine⟩
        · exact .inr (.inl old)
      · exact .inr (.inl waits)
    · rcases owes with ⟨rfl, -⟩ | ⟨rfl, -⟩
      · exact .inr (.inr enters)
      · rcases List.mem_cons.mp enters with rfl | old
        · exact .inl ⟨p, mine⟩
        · exact .inr (.inr old)
  refine inv_of_fits ?_ (fun q pr' found => ?_) (fun q stopped => ?_) (fun id' node => ?_)
    (pair_upd inv fun _ _ _ _ => nofun) (fun q id' member => ?_) (fun q id' member => ?_)
  · rw [proc, pid]
    exact pids_set inv at_ _
  · rw [proc] at found
    rcases set_cases found with ⟨rfl, rfl⟩ | ⟨other, old⟩
    · refine ⟨fun prog' code => ?_, fun id' => ?_, fun id' => ?_, fun id' node holds => ?_⟩
      · cases code
        rw [upd_self]
        exact .inl thread
      · rw [number]
        exact inv.sides q pr id' at_
      · rw [number]
        exact inv.ends q pr id' at_
      · refine .inl ((inv.held id' (nodes id' node) q pr at_ holds).resolve_right fun own => gone ?_)
        rw [mine] at own
        cases own
        exact holds
    · exact fits_still inv old (upd_ne other) (Nat.le_of_eq number.symm) fun id' node => .inl (nodes id' node)
  · rw [proc] at stopped
    obtain ⟨other, none⟩ := idle_set inv (Option.some_ne_none _) stopped
    rw [upd_ne other]
    exact none
  · rw [number]
    exact inv.nodes id' (nodes id' node)
  · by_cases here : q = p
    · rw [here, upd_self]
      simp
    · rw [upd_ne here]
      rcases owes with ⟨rfl, own⟩ | ⟨rfl, -⟩
      · rcases List.mem_cons.mp member with rfl | old
        · exact alone_closing inv here own
        · exact inv.waited q id' old
      · exact inv.waited q id' member
  · by_cases here : q = p
    · rw [here, upd_self]
      simp
    · rw [upd_ne here]
      rcases owes with ⟨rfl, -⟩ | ⟨rfl, own⟩
      · exact inv.entered q id' member
      · rcases List.mem_cons.mp member with rfl | old
        · exact alone_entering inv here own
        · exact inv.entered q id' old

theorem inv_fork (inv : Inv s g) (at_ : s.proc p = some pr) {mine childs : ShProg} {side : List Nat} {o c : Owes}
    (known : ∀ id ∈ side, id < s.nextPipe) (parent : Ok mine o pr.left pr.fds ∨ (Foreign mine ∧ o = .none))
    (child : Ok childs c (side ++ pr.left) pr.fds ∨ (Foreign childs ∧ c = .none))
    (shape : (o = g p ∧ c = .none ∧ ∀ id, (g p).pipe = some id → id ∈ side) ∨
      ∃ id, g p = .forking id ∧ o = .closing id ∧ c = .entering id) :
    Inv { (s.set p (pr.goes pr.fds mine)).set s.nextPid ⟨pr.fds, side ++ pr.left, p, some childs⟩ with nextPid := s.nextPid + 1 }
      (upd (upd g p o) s.nextPid c) := by
  have apart : p ≠ s.nextPid := by
    intro same
    rw [inv.pids p (Nat.le_of_eq same.symm)] at at_
    cases at_
  have childGhost : upd (upd g p o) s.nextPid c s.nextPid = c := upd_self _ _ _
  have ownGhost : upd (upd g p o) s.nextPid c p = o := by rw [upd_ne apart, upd_self]
  have otherGhost : ∀ q, q ≠ s.nextPid → q ≠ p → upd (upd g p o) s.nextPid c q = g q := fun q new other => by
    rw [upd_ne new, upd_ne other]
  have ghost : ∀ q, (q = s.nextPid ∧ upd (upd g p o) s.nextPid c q = c) ∨ (q = p ∧ upd (upd g p o) s.nextPid c q = o) ∨
      (q ≠ s.nextPid ∧ q ≠ p ∧ upd (upd g p o) s.nextPid c q = g q) := by
    intro q
    by_cases new : q = s.nextPid
    · exact .inl ⟨new, by rw [new, childGhost]⟩
    · by_cases here : q = p
      · exact .inr (.inl ⟨here, by rw [here, ownGhost]⟩)
      · exact .inr (.inr ⟨new, here, otherGhost q new here⟩)
  have procs : ∀ {q : Nat} {pr' : Proc},
      ((s.set p (pr.goes pr.fds mine)).set s.nextPid ⟨pr.fds, side ++ pr.left, p, some childs⟩).proc q = some pr' →
      (q = s.nextPid ∧ pr' = ⟨pr.fds, side ++ pr.left, p, some childs⟩) ∨ (q = p ∧ pr' = pr.goes pr.fds mine) ∨
        (q ≠ s.nextPid ∧ q ≠ p ∧ s.proc q = some pr') := by
    intro q pr' found
    rcases set_cases found with new | ⟨old, found'⟩
    · exact .inl new
    · rcases set_cases found' with here | ⟨other, found''⟩
      · exact .inr (.inl here)
      · exact .inr (.inr ⟨old, other, found''⟩)
  -- What the two owe, the parent owed before.
  have owed : ∀ q id, (upd (upd g p o) s.nextPid c q).pipe = some id → (q = p ∨ q = s.nextPid) → (g p).pipe = some id := by
    intro q id own which
    rcases ghost q with ⟨-, same⟩ | ⟨-, same⟩ | ⟨new, here, -⟩
    · rw [same] at own
      rcases shape with ⟨-, rfl, -⟩ | ⟨id', before, -, rfl⟩
      · cases own
      · rw [before]
        exact own
    · rw [same] at own
      rcases shape with ⟨rfl, -, -⟩ | ⟨id', before, rfl, -⟩
      · exact own
      · rw [before]
        exact own
    · exact absurd which (by simp [new, here])
  have nodes : ∀ id, Sys.Node s (upd (upd g p o) s.nextPid c) id → s.Node g id := by
    rintro id (⟨q, own⟩ | rest)
    · rcases ghost q with ⟨new, -⟩ | ⟨here, -⟩ | ⟨-, -, same⟩
      · exact .inl ⟨p, owed q id own (.inr new)⟩
      · exact .inl ⟨p, owed q id own (.inl here)⟩
      · rw [same] at own
        exact .inl ⟨q, own⟩
    · exact .inr rest
  refine inv_of_fits (fun q large => ?_) (fun q pr' found => ?_) (fun q stopped => ?_) (fun id node => inv.nodes id (nodes id node))
    (fun q q' id different own own' => ?_) (fun q id member => ?_) (fun q id member => ?_)
  · exact (set_other _ _ (Nat.ne_of_gt large)).trans (pids_set inv at_ _ q (Nat.le_of_succ_le large))
  · rcases procs found with ⟨rfl, rfl⟩ | ⟨rfl, rfl⟩ | ⟨new, other, old⟩
    · refine ⟨fun prog code => ?_, fun id member => ?_, fun id => inv.ends p pr id at_, fun id node holds => ?_⟩
      · cases code
        rw [childGhost]
        exact child
      · rcases List.mem_append.mp member with first | rest
        · exact known id first
        · exact inv.sides p pr id at_ rest
      · rw [childGhost]
        rcases inv.held id (nodes id node) p pr at_ holds with left | own
        · exact .inl (List.mem_append_right _ left)
        · rcases shape with ⟨-, -, mine⟩ | ⟨id', forks, -, rfl⟩
          · exact .inl (List.mem_append_left _ (mine id own))
          · rw [forks] at own
            exact .inr own
    · refine ⟨fun prog code => ?_, fun id => inv.sides q pr id at_, fun id => inv.ends q pr id at_, fun id node holds => ?_⟩
      · cases code
        rw [ownGhost]
        exact parent
      · rw [ownGhost]
        refine (inv.held id (nodes id node) q pr at_ holds).imp_right fun own => ?_
        rcases shape with ⟨rfl, -, -⟩ | ⟨id', forks, rfl, -⟩
        · exact own
        · rw [forks] at own
          exact own
    · exact fits_still inv old (otherGhost q new other) (Nat.le_refl _) fun id node => .inl (nodes id node)
  · by_cases new : q = s.nextPid
    · subst new
      exact absurd (stopped _ (set_self _ _ _)) (by simp)
    · obtain ⟨other, none⟩ := idle_set inv (Option.some_ne_none _) fun pr' found => stopped pr' ((set_other _ _ new).trans found)
      rw [otherGhost q new other]
      exact none
  · -- One of the two and another process never owe for the same pipe, unless o is as before.
    have mixed : ∀ q', q' ≠ s.nextPid → q' ≠ p → (g p).pipe = some id → (g q').pipe = some id → o = g p ∧ c = .none := by
      intro q' _ other first second
      rcases shape with ⟨same, none, -⟩ | ⟨id', forks, -, -⟩
      · exact ⟨same, none⟩
      · rcases inv.pair p q' id (Ne.symm other) first second with ⟨never, -⟩ | ⟨never, -⟩ <;> rw [forks] at never <;> cases never
    rcases ghost q with ⟨rfl, same⟩ | ⟨rfl, same⟩ | ⟨new, here, same⟩ <;>
      rcases ghost q' with ⟨rfl, same'⟩ | ⟨rfl, same'⟩ | ⟨new', here', same'⟩
    · exact absurd rfl different
    · rw [same] at own ⊢
      rw [same'] at own' ⊢
      rcases shape with ⟨-, rfl, -⟩ | ⟨id', -, rfl, rfl⟩
      · cases own
      · cases own
        exact .inr ⟨rfl, rfl⟩
    · have first := owed _ id own (.inr rfl)
      rw [same'] at own'
      rw [same, (mixed q' new' here' first own').2] at own
      cases own
    · rw [same] at own ⊢
      rw [same'] at own' ⊢
      rcases shape with ⟨-, rfl, -⟩ | ⟨id', -, rfl, rfl⟩
      · cases own'
      · cases own
        exact .inl ⟨rfl, rfl⟩
    · exact absurd rfl different
    · have first := owed _ id own (.inl rfl)
      rw [same'] at own' ⊢
      rw [same, (mixed q' new' here' first own').1]
      exact inv.pair q q' id different first own'
    · have second := owed _ id own' (.inr rfl)
      rw [same] at own
      rw [same', (mixed q new here second own).2] at own'
      cases own'
    · have second := owed _ id own' (.inl rfl)
      rw [same] at own ⊢
      rw [same', (mixed q new here second own).1]
      exact inv.pair q q' id different own second
    · rw [same] at own ⊢
      rw [same'] at own' ⊢
      exact inv.pair q q' id different own own'
  · have before := inv.waited p id member
    rcases ghost q with ⟨-, same⟩ | ⟨-, same⟩ | ⟨-, -, same⟩
    · rw [same]
      rcases shape with ⟨-, rfl, -⟩ | ⟨id', -, -, rfl⟩ <;> simp
    · rw [same]
      rcases shape with ⟨rfl, -, -⟩ | ⟨id', forks, rfl, -⟩
      · exact before
      · refine ⟨by simp, fun never => before.1 ?_⟩
        cases never
        exact forks
    · rw [same]
      exact inv.waited q id member
  · have before := inv.entered p id member
    rcases ghost q with ⟨-, same⟩ | ⟨-, same⟩ | ⟨-, -, same⟩
    · rw [same]
      rcases shape with ⟨-, rfl, -⟩ | ⟨id', forks, -, rfl⟩
      · simp
      · refine ⟨by simp, fun never => before.1 ?_⟩
        cases never
        exact forks
    · rw [same]
      rcases shape with ⟨rfl, -, -⟩ | ⟨id', -, rfl, -⟩
      · exact before
      · simp
    · rw [same]
      exact inv.entered q id member

theorem inv_reap (inv : Inv s g) (q : Nat) (dead : ∀ pr, s.proc q = some pr → pr.code = none) :
    Inv { s with proc := upd s.proc q none } g := by
  have others : ∀ {q' : Nat} {pr' : Proc}, upd s.proc q none q' = some pr' → s.proc q' = some pr' := by
    intro q' pr' found
    by_cases here : q' = q
    · rw [here, upd_self] at found
      cases found
    · rw [upd_ne here] at found
      exact found
  refine ⟨fun q' large => ?_, fun q' pr' prog found => inv.thread q' pr' prog (others found), fun q' stopped => ?_,
    fun q' pr' id found => inv.sides q' pr' id (others found), fun q' pr' id found => inv.ends q' pr' id (others found), inv.nodes,
    fun id node q' pr' found => inv.held id node q' pr' (others found), inv.pair, inv.waited, inv.entered⟩
  · by_cases here : q' = q
    · rw [here]
      exact upd_self _ _ _
    · exact (upd_ne here).trans (inv.pids q' large)
  · by_cases here : q' = q
    · rw [here]
      exact inv.idle q dead
    · exact inv.idle q' fun pr' found => stopped pr' ((upd_ne here).trans found)

theorem exited_cases {q : Nat} {pr' : Proc} (found : (s.exited p pr).proc q = some pr') :
    (q = p ∧ pr' = { pr with fds := fun _ => none, code := none }) ∨
      (q ≠ p ∧ ∃ old, s.proc q = some old ∧ pr'.fds = old.fds ∧ pr'.left = old.left ∧ pr'.code = old.code) := by
  by_cases here : q = p
  · rw [Sys.exited] at found
    dsimp only at found
    rw [if_pos here] at found
    exact .inl ⟨here, (Option.some.inj found).symm⟩
  · rw [Sys.exited] at found
    dsimp only at found
    rw [if_neg here] at found
    obtain ⟨old, before, same⟩ := Option.map_eq_some_iff.mp found
    refine .inr ⟨here, old, before, ?_⟩
    rw [← same]
    split <;> exact ⟨rfl, rfl, rfl⟩

theorem inv_exit (inv : Inv s g) (at_ : s.proc p = some pr) (free : g p = .none) : Inv (s.exited p pr) g := by
  refine inv_of_fits (fun q large => ?_) (fun q pr' found => ?_) (fun q stopped => ?_) inv.nodes inv.pair inv.waited inv.entered
  · have absent := inv.pids q large
    have other : q ≠ p := by
      rintro rfl
      rw [absent] at at_
      cases at_
    rw [Sys.exited]
    dsimp only
    rw [if_neg other, absent]
    rfl
  · rcases exited_cases found with ⟨rfl, rfl⟩ | ⟨-, old, before, fds, left, code⟩
    · exact ⟨nofun, fun id => inv.sides q pr id at_, fun id ⟨fd, never⟩ => (nomatch never),
        fun id node ⟨fd, never⟩ => (nomatch never)⟩
    · have fits := fits_still inv before rfl (Nat.le_refl s.nextPipe) fun _ => .inl
      refine ⟨fun prog runs => ?_, ?_, ?_, ?_⟩
      · rw [fds, left]
        exact fits.thread prog (code.symm.trans runs)
      · rw [left]
        exact fits.sides
      · rw [fds]
        exact fits.ends
      · rw [fds, left]
        exact fits.held
  · by_cases here : q = p
    · rw [here, free]
    · refine inv.idle q fun old before => ?_
      have now : ∃ pr', (s.exited p pr).proc q = some pr' := by
        rw [Sys.exited]
        dsimp only
        rw [if_neg here, before]
        exact ⟨_, rfl⟩
      obtain ⟨pr', found⟩ := now
      rcases exited_cases found with ⟨same, -⟩ | ⟨-, old', before', -, -, code⟩
      · exact absurd same here
      · rw [before] at before'
        cases before'
        exact code.symm.trans (stopped pr' found)

theorem step_inv {s' : Sys} (inv : Inv s g) (step : Step s s') : ∃ g', Inv s' g' := by
  cases step with
  | close p pr fd next at_ =>
    refine ⟨g, inv_goes inv at_.proc (fun id => close_holds) ?_⟩
    exact (inv.thread p pr _ at_.proc at_.code).imp (fun ok => ok.2) fun foreign => ⟨foreign.1 (), foreign.2⟩
  | open_ p pr file mode next at_ =>
    refine ⟨g, inv_goes inv at_.proc (fun id holds => ?_) ?_⟩
    · rcases put_holds holds with old | never
      · exact old
      · cases never
    · exact (inv.thread p pr _ at_.proc at_.code).imp (fun ok => ok.2) fun foreign => ⟨foreign.1 _, foreign.2⟩
  | dup p pr fd next at_ =>
    refine ⟨g, inv_goes inv at_.proc (fun id => dup_holds) ?_⟩
    exact (inv.thread p pr _ at_.proc at_.code).imp (fun ok => ok.2) fun foreign => ⟨foreign.1 _, foreign.2⟩
  | pipe p pr next at_ =>
    have ends : ∀ id, Holds (pr.fds.pipe s.nextPipe).2 id → Holds pr.fds id ∨ id = s.nextPipe := fun id holds =>
      (pipe_holds holds).imp_right And.left
    rcases inv.thread p pr _ at_.proc at_.code with ok | foreign
    · have fresh : s.nextPipe ∉ pr.left := fun old => Nat.lt_irrefl _ (inv.sides p pr _ at_.proc old)
      refine ⟨_, inv_pipe inv at_.proc ends ok.2.1 (.inl (ok.2.2 s.nextPipe fresh)) ?_⟩
      unfold Owes.after
      split
      · exact .inr rfl
      · exact .inl rfl
    · exact ⟨_, inv_pipe inv at_.proc ends foreign.2 (.inr ⟨foreign.1 _, rfl⟩) (.inl rfl)⟩
  | fork p pr side next at_ =>
    rcases side with _ | id
    · have nobody : ∀ id ∈ Option.toList (none : Option Nat), id < s.nextPipe := nofun
      rcases inv.thread p pr _ at_.proc at_.code with ok | foreign
      · rcases ok.2 with ⟨free, child, parent⟩ | ⟨id, forks, child, parent⟩
        · refine ⟨_, inv_fork inv at_.proc nobody (.inl parent) (.inl child) (.inl ⟨free.symm, rfl, fun id own => ?_⟩)⟩
          rw [free] at own
          cases own
        · exact ⟨_, inv_fork inv at_.proc nobody (.inl parent) (.inl child) (.inr ⟨id, forks, rfl, rfl⟩)⟩
      · refine ⟨_, inv_fork inv at_.proc nobody (.inr ⟨foreign.1 false, rfl⟩) (.inr ⟨foreign.1 true, rfl⟩)
          (.inl ⟨foreign.2.symm, rfl, fun id own => ?_⟩)⟩
        rw [foreign.2] at own
        cases own
    · rcases inv.thread p pr _ at_.proc at_.code with ok | foreign
      · have known : id < s.nextPipe := inv.nodes id (.inl ⟨p, by rw [ok.2.1]; rfl⟩)
        refine ⟨_, inv_fork inv at_.proc (fun i member => ?_) (.inl ok.2.2.2) (.inl ok.2.2.1)
          (.inl ⟨ok.2.1.symm, rfl, fun i own => ?_⟩)⟩
        · rw [List.mem_singleton.mp member]
          exact known
        · rw [ok.2.1] at own
          cases own
          exact List.mem_singleton_self _
      · exact foreign.1.elim
  | reap p pr q child next at_ other found mine dead =>
    have goes : Inv (s.set p (pr.goes pr.fds (next ()))) g := by
      refine inv_goes inv at_.proc (fun _ holds => holds) ?_
      exact (inv.thread p pr _ at_.proc at_.code).imp (fun ok => ok.2) fun foreign => ⟨foreign.1 (), foreign.2⟩
    refine ⟨g, inv_reap goes q fun pr' now => ?_⟩
    rw [set_other _ _ other, found] at now
    cases now
    exact dead
  | childless p pr next at_ none_ =>
    refine ⟨g, inv_goes inv at_.proc (fun _ holds => holds) ?_⟩
    exact (inv.thread p pr _ at_.proc at_.code).imp (fun ok => ok.2) fun foreign => ⟨foreign.1 (), foreign.2⟩
  | execFails p pr argv env next at_ =>
    refine ⟨g, inv_goes inv at_.proc (fun _ holds => holds) ?_⟩
    rcases inv.thread p pr _ at_.proc at_.code with ok | foreign
    · exact .inl ok.2.2.2
    · exact foreign.1.elim
  | exec p pr argv env next prog at_ foreign =>
    refine ⟨g, inv_goes inv at_.proc (fun _ holds => holds) (.inr ⟨foreign, ?_⟩)⟩
    rcases inv.thread p pr _ at_.proc at_.code with ok | never
    · exact ok.2.1
    · exact never.1.elim
  | exit p pr next at_ =>
    refine ⟨g, inv_exit inv at_.proc ?_⟩
    rcases inv.thread p pr _ at_.proc at_.code with ok | foreign
    · exact ok.2
    · exact foreign.2
  | mark p pr m next at_ =>
    rcases inv.thread p pr _ at_.proc at_.code with ok | foreign
    · cases m with
      | waits id => exact ⟨_, inv_mark inv at_.proc (.inl ⟨rfl, ok.2.1⟩) ok.2.2.1 ok.2.2.2⟩
      | enters id => exact ⟨_, inv_mark inv at_.proc (.inr ⟨rfl, ok.2.1⟩) ok.2.2.1 ok.2.2.2⟩
    · exact foreign.1.elim

end

theorem start_inv (cmd : Cmd) (standard : cmd.Standard) : Inv (start cmd) fun _ => .none := by
  have only : ∀ {p : Nat} {pr : Proc}, (start cmd).proc p = some pr →
      p = 1 ∧ pr = ⟨Env.table .initial, [], 0, some (runcmd cmd .initial)⟩ := by
    intro p pr found
    by_cases here : p = 1
    · rw [here] at found
      exact ⟨here, (Option.some.inj found).symm⟩
    · have absent : (start cmd).proc p = none := if_neg here
      rw [absent] at found
      cases found
  have noEnds : ∀ id, ¬ Holds (Env.table .initial) id := by
    rintro id ⟨fd, leads⟩
    unfold Env.table at leads
    split at leads <;> cases leads
  refine ⟨fun p large => ?_, fun p pr prog found code => ?_, fun _ _ => rfl, fun p pr id found member => ?_,
    fun p pr id found holds => ?_, fun id node => ?_, fun id node p pr found holds => ?_,
    nofun, nofun, nofun⟩
  · exact if_neg (Nat.ne_of_gt large)
  · obtain ⟨-, rfl⟩ := only found
    cases code
    exact .inl (runcmd_ok cmd .initial [] standard fun id holds => absurd holds (noEnds id))
  · obtain ⟨-, rfl⟩ := only found
    cases member
  · obtain ⟨-, rfl⟩ := only found
    exact absurd holds (noEnds id)
  · rcases node with ⟨p, never⟩ | never | never <;> cases never
  · obtain ⟨-, rfl⟩ := only found
    exact absurd holds (noEnds id)

theorem runs_inv {cmd : Cmd} (standard : cmd.Standard) {s : Sys} (runs : Runs cmd s) : ∃ g, Inv s g := by
  induction runs with
  | start => exact ⟨_, start_inv cmd standard⟩
  | step s s' _ step before =>
    obtain ⟨g, inv⟩ := before
    exact step_inv inv step

end Xv6.Sh
