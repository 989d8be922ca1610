import Xv6.Sh.Run

set_option autoImplicit false

namespace Xv6.Sh

-- What is left to do for a pipe: the forks of both sides, or the close of its copies.
inductive Owes where
  | none
  | forking (id : Nat)
  | closing (id : Nat)
  | entering (id : Nat)
deriving DecidableEq

def Owes.pipe : Owes → Option Nat
  | .none => Option.none
  | .forking id => some id
  | .closing id => some id
  | .entering id => some id

def Holds (t : Table) (id : Nat) : Prop := ∃ fd, t fd = some (.writeEnd id)

-- Write ends only of pipes on whose left side it is, apart from the one still to be closed.
def Held (g : Owes) (left : List Nat) (t : Table) : Prop := ∀ id, Holds t id → id ∈ left ∨ g.pipe = some id

def Owes.after (r : Option (Nat × Nat × Nat)) (id : Nat) : Owes := if r.isSome then .forking id else .none

def Ok : ShProg → Owes → List Nat → Table → Prop
  | .ret _, _, _, _ => True
  | .op (.close fd) next, g, left, t => Held g left t ∧ Ok (next ()) g left (t.close fd)
  | .op (.open_ file mode) next, g, left, t =>
    Held g left t ∧ Ok (next (t.put (.file file mode)).1) g left (t.put (.file file mode)).2
  | .op (.dup fd) next, g, left, t => Held g left t ∧ Ok (next (t.dup fd).1) g left (t.dup fd).2
  | .op .pipe next, g, left, t => Held g left t ∧ g = .none ∧
      ∀ id, id ∉ left → Ok (next (t.pipe id).1) (.after (t.pipe id).1 id) left (t.pipe id).2
  | .op (.fork (some id)) next, g, left, t => Held g left t ∧ g = .forking id ∧
      Ok (next true) .none (id :: left) t ∧ Ok (next false) (.forking id) left t
  | .op (.fork none) next, g, left, t => Held g left t ∧
      ((g = .none ∧ Ok (next true) .none left t ∧ Ok (next false) .none left t) ∨
        ∃ id, g = .forking id ∧ Ok (next true) (.entering id) left t ∧ Ok (next false) (.closing id) left t)
  | .op .wait next, g, left, t => Held g left t ∧ Ok (next ()) g left t
  | .op (.exec _ env) next, g, left, t => Held g left t ∧ g = .none ∧ t = env.table ∧ Ok (next ()) g left t
  | .op .exit _, g, left, t => Held g left t ∧ g = .none
  | .op (.mark (.waits id)) next, g, left, t => Held g left t ∧ g = .closing id ∧ ¬ Holds t id ∧ Ok (next ()) .none left t
  | .op (.mark (.enters id)) next, g, left, t => Held g left t ∧ g = .entering id ∧ ¬ Holds t id ∧ Ok (next ()) .none left t

section

variable {t : Table} {env : Env}

theorem fdalloc_first {fd : Nat} (small : fd < nofile) (free : t fd = none) (before : ∀ i < fd, (t i).isSome = true) :
    fdalloc t = some fd := by
  unfold fdalloc
  rw [List.find?_range_eq_some]
  refine ⟨by rw [free]; rfl, List.mem_range.mpr small, fun i less => ?_⟩
  rw [← Option.not_isSome, before i less]
  rfl

theorem table_some {fd : Nat} (small : fd < 3) : env.table fd = some (env fd) := if_pos small

theorem table_none {fd : Nat} (large : 3 ≤ fd) : env.table fd = none := if_neg (Nat.not_lt_of_le large)

theorem table_upd {fd : Nat} (small : fd < 3) (o : Obj) : upd env.table fd (some o) = Env.table (upd env fd o) := by
  funext i
  by_cases here : i = fd
  · rw [here, upd_self, table_some small, upd_self]
  · rw [upd_ne here]
    unfold Env.table
    rw [upd_ne here]

theorem close_put {fd : Nat} (small : fd < 3) (o : Obj) :
    (env.table.close fd).put o = (some fd, Env.table (upd env fd o)) := by
  have found : fdalloc (env.table.close fd) = some fd := by
    refine fdalloc_first (Nat.lt_trans small (by decide)) (upd_self _ _ _) fun i less => ?_
    rw [Table.close, upd_ne (Nat.ne_of_lt less), table_some (Nat.lt_trans less small)]
    rfl
  unfold Table.put
  rw [found, ← table_upd small]
  dsimp only [Table.close]
  rw [upd_twice]

def piped (env : Env) (id : Nat) : Table := upd (upd env.table 3 (some (.readEnd id))) 4 (some (.writeEnd id))

theorem piped_low {fd id : Nat} (small : fd < 3) : piped env id fd = some (env fd) := by
  unfold piped
  rw [upd_ne (by omega), upd_ne (by omega), table_some small]

theorem piped_read (id : Nat) : piped env id 3 = some (.readEnd id) := by
  unfold piped
  rw [upd_ne (by decide), upd_self]

theorem piped_write (id : Nat) : piped env id 4 = some (.writeEnd id) := upd_self _ _ _

theorem table_pipe (env : Env) (id : Nat) : env.table.pipe id = (some (3, 4, id), piped env id) := by
  have first : env.table.put (.readEnd id) = (some 3, upd env.table 3 (some (.readEnd id))) := by
    have found : fdalloc env.table = some 3 := by
      refine fdalloc_first (by decide) (table_none (Nat.le_refl 3)) fun i less => ?_
      rw [table_some less]
      rfl
    unfold Table.put
    rw [found]
  have second : Table.put (upd env.table 3 (some (.readEnd id))) (.writeEnd id) = (some 4, piped env id) := by
    have found : fdalloc (upd env.table 3 (some (.readEnd id))) = some 4 := by
      refine fdalloc_first (by decide) ?_ fun i less => ?_
      · rw [upd_ne (by decide), table_none (by decide)]
      · by_cases three : i = 3
        · rw [three, upd_self]
          rfl
        · rw [upd_ne three, table_some (by omega)]
          rfl
    unfold Table.put
    rw [found]
    rfl
  unfold Table.pipe
  rw [first]
  dsimp only
  rw [second]

theorem side_table {fd src id : Nat} {o : Obj} (small : fd < 3) (which : src = 3 ∨ src = 4) (leads : piped env id src = some o) :
    ((((piped env id).close fd).dup src).2.close 3).close 4 = Env.table (upd env fd o) := by
  have other : src ≠ fd := by omega
  have kept : (piped env id).close fd src = some o := by
    rw [Table.close, upd_ne other, leads]
  have found : fdalloc ((piped env id).close fd) = some fd := by
    refine fdalloc_first (Nat.lt_trans small (by decide)) (upd_self _ _ _) fun i less => ?_
    rw [Table.close, upd_ne (Nat.ne_of_lt less), piped_low (Nat.lt_trans less small)]
    rfl
  unfold Table.dup
  rw [kept]
  dsimp only
  unfold Table.put
  rw [found, ← table_upd small]
  dsimp only [Table.close, piped]
  funext i
  by_cases four : i = 4
  · rw [four, upd_self, upd_ne (by omega), table_none (by decide)]
  · rw [upd_ne four]
    by_cases three : i = 3
    · rw [three, upd_self, upd_ne (by omega), table_none (by decide)]
    · rw [upd_ne three]
      by_cases here : i = fd
      · rw [here, upd_self, upd_self]
      · rw [upd_ne here, upd_ne here, upd_ne here, upd_ne four, upd_ne three]

theorem parent_table (id : Nat) : ((piped env id).close 3).close 4 = env.table := by
  dsimp only [Table.close, piped]
  funext i
  by_cases four : i = 4
  · rw [four, upd_self, table_none (by decide)]
  · rw [upd_ne four]
    by_cases three : i = 3
    · rw [three, upd_self, table_none (by decide)]
    · rw [upd_ne three, upd_ne four, upd_ne three]

theorem close_holds {fd id : Nat} (holds : Holds (t.close fd) id) : Holds t id := by
  obtain ⟨i, at_⟩ := holds
  by_cases here : i = fd
  · rw [here, Table.close, upd_self] at at_
    cases at_
  · rw [Table.close, upd_ne here] at at_
    exact ⟨i, at_⟩

theorem put_holds {o : Obj} {id : Nat} (holds : Holds (t.put o).2 id) : Holds t id ∨ o = .writeEnd id := by
  unfold Table.put at holds
  split at holds
  · exact .inl holds
  · next fd _ =>
      obtain ⟨i, at_⟩ := holds
      dsimp only at at_
      by_cases here : i = fd
      · rw [here, upd_self] at at_
        exact .inr (Option.some.inj at_)
      · rw [upd_ne here] at at_
        exact .inl ⟨i, at_⟩

theorem dup_holds {fd id : Nat} (holds : Holds (t.dup fd).2 id) : Holds t id := by
  unfold Table.dup at holds
  split at holds
  · exact holds
  · next o from_ =>
      rcases put_holds holds with old | same
      · exact old
      · exact ⟨fd, by rw [from_, same]⟩

theorem pipe_holds {new id : Nat} (holds : Holds (t.pipe new).2 id) :
    Holds t id ∨ (id = new ∧ (t.pipe new).1.isSome = true) := by
  unfold Table.pipe at holds ⊢
  split at holds
  · exact .inl holds
  · next fd0 t' first =>
      split at holds
      · exact .inl holds
      · next fd1 t'' second =>
          have both : Holds t id ∨ id = new := by
            have last : Holds (t'.put (.writeEnd new)).2 id := by
              rw [second]
              exact holds
            rcases put_holds last with old | same
            · have before : Holds (t.put (.readEnd new)).2 id := by
                rw [first]
                exact old
              rcases put_holds before with older | never
              · exact .inl older
              · cases never
            · cases same
              exact .inr rfl
          rcases both with old | same
          · exact .inl old
          · exact .inr ⟨same, rfl⟩

theorem held_mono {t' : Table} {g : Owes} {left : List Nat} (held : Held g left t) (fewer : ∀ id, Holds t' id → Holds t id) :
    Held g left t' := fun id holds => held id (fewer id holds)

theorem piped_holds {new id : Nat} (holds : Holds (piped env new) id) : Holds env.table id ∨ id = new := by
  have same := congrArg Prod.snd (table_pipe env new)
  dsimp only at same
  rw [← same] at holds
  exact (pipe_holds holds).imp_right And.left

end

def Cmd.Standard : Cmd → Prop
  | .exec _ => True
  | .redir cmd _ _ fd => fd < 3 ∧ cmd.Standard
  | .pipe left right => left.Standard ∧ right.Standard
  | .list left right => left.Standard ∧ right.Standard
  | .back cmd => cmd.Standard

theorem exit_ok {left : List Nat} {t : Table} (held : Held .none left t) : Ok exit .none left t := ⟨held, rfl⟩

theorem held_none {g : Owes} {left left' : List Nat} {t : Table} (held : Held .none left t) (keeps : ∀ id ∈ left, id ∈ left') :
    Held g left' t := fun id holds => .inl (keeps id ((held id holds).resolve_right (by simp [Owes.pipe])))

theorem table_held {left : List Nat} {env : Env} {fd : Nat} {o : Obj} (held : Held .none left env.table)
    (new : ∀ id, o = .writeEnd id → id ∈ left) (small : fd < 3) : Held .none left (Env.table (upd env fd o)) := by
  rintro id ⟨i, at_⟩
  rw [← table_upd small] at at_
  by_cases here : i = fd
  · rw [here, upd_self] at at_
    exact .inl (new id (Option.some.inj at_))
  · rw [upd_ne here] at at_
    exact held id ⟨i, at_⟩

theorem side_ok {g : Owes} {left : List Nat} {env : Env} {fd src id : Nat} {o : Obj} {rest : ShProg} (small : fd < 3)
    (which : src = 3 ∨ src = 4) (leads : piped env id src = some o) (held : Held g left (piped env id))
    (ok : Ok rest g left (Env.table (upd env fd o))) :
    Ok (do
      .lift (.close fd)
      let _ ← .lift (.dup src)
      .lift (.close 3)
      .lift (.close 4)
      rest) g left (piped env id) := by
  have held₁ : Held g left ((piped env id).close fd) := held_mono held fun _ holds => close_holds holds
  have held₂ : Held g left (((piped env id).close fd).dup src).2 := held_mono held₁ fun _ holds => dup_holds holds
  refine ⟨held, held₁, held₂, held_mono held₂ fun _ holds => close_holds holds, ?_⟩
  have same := side_table small which leads
  rw [same]
  exact ok

theorem runcmd_ok (cmd : Cmd) (env : Env) (left : List Nat) (standard : cmd.Standard) (held : Held .none left env.table) :
    Ok (runcmd cmd env) .none left env.table := by
  induction cmd generalizing env left with
  | exec argv =>
    unfold runcmd
    split
    · exact exit_ok held
    · exact ⟨held, rfl, rfl, exit_ok held⟩
  | redir cmd file mode fd ih =>
    obtain ⟨small, standard⟩ := standard
    have opened := table_held (o := .file file mode) held nofun small
    refine ⟨held, held_mono held fun _ => close_holds, ?_⟩
    rw [close_put small]
    exact ih _ left standard opened
  | list first second ih₁ ih₂ =>
    exact ⟨held, .inl ⟨rfl, ih₁ env left standard.1 held, held, ih₂ env left standard.2 held⟩⟩
  | back cmd ih => exact ⟨held, .inl ⟨rfl, ih env left standard held, exit_ok held⟩⟩
  | pipe first second ih₁ ih₂ =>
    refine ⟨held, rfl, fun id new => ?_⟩
    rw [table_pipe]
    have mine : ∀ g left', (∀ old ∈ left, old ∈ left') → (id ∈ left' ∨ Owes.pipe g = some id) → Held g left' (piped env id) := by
      intro g left' keeps own id' holds
      rcases piped_holds holds with old | rfl
      · exact held_none held keeps id' old
      · exact own
    have kept : ∀ old ∈ left, old ∈ left := fun _ old => old
    have wider : ∀ old ∈ left, old ∈ id :: left := fun _ old => List.mem_cons_of_mem id old
    have gone : ¬ Holds env.table id := fun holds => (held id holds).elim new (by simp [Owes.pipe])
    have forking : Held (.forking id) left (piped env id) := mine _ left kept (.inr rfl)
    refine ⟨forking, rfl, ?_, forking, .inr ⟨id, rfl, ?_, ?_⟩⟩
    · refine side_ok (by decide) (.inr rfl) (piped_write id) (mine .none (id :: left) wider (.inl List.mem_cons_self))
        (ih₁ _ _ standard.1 (table_held (held_none held wider) (fun id' same => ?_) (by decide)))
      cases same
      exact List.mem_cons_self
    · have reads := table_held held (o := .readEnd id) nofun (show 0 < 3 by decide)
      refine side_ok (by decide) (.inl rfl) (piped_read id) (mine (.entering id) left kept (.inr rfl))
        ⟨held_none reads kept, rfl, fun holds => ?_, ih₂ _ _ standard.2 reads⟩
      exact (reads id holds).elim new (by simp [Owes.pipe])
    · have held₀ : Held (.closing id) left (piped env id) := mine _ left kept (.inr rfl)
      have held₁ : Held (.closing id) left ((piped env id).close 3) := held_mono held₀ fun _ holds => close_holds holds
      refine ⟨held₀, held₁, ?_⟩
      rw [parent_table]
      exact ⟨held_none held kept, rfl, gone, held, held, exit_ok held⟩

end Xv6.Sh
