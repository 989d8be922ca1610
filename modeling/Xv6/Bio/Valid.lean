import Xv6.Bio.Driver

set_option autoImplicit false

namespace Xv6.Bio

open Ide (nbuf Body)

def Inv (trace : Trace) (s : State) (ghosts : Nat → Ghost) : Prop := Holders s ghosts ∧ ∃ queue, Driver (seen trace) s ghosts queue

section

variable {trace : Trace} {s s' : State} {ghosts : Nat → Ghost} {p : Nat}

theorem onIde_ok {β : Type} {result : Res Ide.State β} {r : β} (done : s.onIde result = .ok r s') :
    ∃ ide, result = .ok r ide ∧ s' = { s with ide := ide } := by
  cases result with
  | ok r' ide =>
    cases done
    exact ⟨ide, rfl, rfl⟩
  | panic msg => cases done
  | blocked => cases done

theorem wait_ok {b : Nat} {returned : Bool} (executed : Act.exec (.wait p b) s = .ok returned s') :
    s.ide.chan p = none ∧ ∃ ide, s.ide.test p b = .ok returned ide ∧ s' = { s with ide := ide } := by
  simp only [Act.exec] at executed
  split at executed
  · exact ⟨‹_›, onIde_ok executed⟩
  · cases executed

theorem inv_write {seen : Seen} {queue : List (Nat × Held)} {g : Ghost} {held : List Held} {changed : List Nat} {h : Held} {x : Body}
    (holders : Holders s ghosts) (driver : Driver seen s ghosts queue) (at_ : ghosts p = ⟨held, changed, .out⟩) (mine : h ∈ held)
    (valid : x.valid = (s.body h.b).valid) (dev : x.dev = (s.body h.b).dev) (blockno : x.blockno = (s.body h.b).blockno)
    (perm : g.locks.Perm held) (loose : g.phase.loose = none) (calm : ∀ k, g.phase ≠ .wanting k) (out : ∀ k, g.phase ≠ .waiting k)
    (less : ∀ k ∈ g.held, k ∈ held) (starting : ∀ k, g.phase = .starting k → k = h ∧ x.done = false) :
    Holders (s.setBody h.b x) (upd ghosts p g) ∧ ∃ queue, Driver seen (s.setBody h.b x) (upd ghosts p g) queue := by
  have unit : x.unit = (s.body h.b).unit := by
    unfold Body.unit
    rw [dev]
  refine ⟨holders_keep holders rfl rfl rfl (funext fun c => setBody_owner _ c) (fun c => ?_) (by rw [at_]; exact perm)
    (by rw [at_]; exact loose) (fun k is => absurd is (calm k)), queue,
    driver_write holders driver at_ mine valid ⟨unit, blockno⟩ out less starting⟩
  rw [setBody_body]
  split
  · rename_i here
    rw [here]
    exact ⟨dev, blockno⟩
  · exact ⟨rfl, rfl⟩

theorem moves_keep {β : Type} {act : Act β} {r : β} {g : Ghost} (inv : Inv trace s ghosts) (executed : act.exec s = .ok r s')
    (fine : failedRead ⟨p, act, r, s, s'⟩ = false) (moved : Moves p act r (ghosts p) g) :
    Inv (trace ++ [⟨p, act, r, s, s'⟩]) s' (upd ghosts p g) := by
  obtain ⟨holders, queue, driver⟩ := inv
  unfold Inv
  rw [seen_snoc]
  generalize at_ : ghosts p = before at moved
  have ready : ∀ h ∈ before.held, (s.body h.b).valid = true := fun h mine => driver.ready p h (at_ ▸ mine)
  have absent : (∀ h, before.phase ≠ .waiting h) → ∀ r ∈ queue, r.1 ≠ p := fun calm => not_queued driver (at_ ▸ calm)
  cases moved with
  | bget dev blockno b recycled held changed =>
    have got : s.bget dev blockno = .ok (b, recycled) s' := executed
    refine ⟨holders_bget holders at_ got, queue, ?_⟩
    obtain ⟨-, ⟨rfl, -, -, rfl⟩ | ⟨rfl, zero, -, rfl, -⟩⟩ := bget_cases holders got
    · exact driver_move driver (absent nofun) nofun rfl rfl rfl rfl rfl rfl ready nofun
    · obtain ⟨-, -, free⟩ := unused_free holders zero
      have keep : ∀ q h, h ∈ (ghosts q).locks → (s.assign dev blockno b).body h.b = s.body h.b := by
        intro q h member
        rw [assign_body, if_neg (free q h (.inl member))]
      refine driver_step driver (absent nofun) nofun (fun q _ => keep q) (setBody_next _) rfl rfl rfl rfl rfl
        (fun h mine => ?_) nofun (fun c dirty => ?_) fun c => ?_
      · rw [keep p h (by rw [at_]; exact mine)]
        exact ready h mine
      · rw [assign_body] at dirty ⊢
        split at dirty
        · cases dirty
        · rename_i other
          rw [if_neg other]
          exact driver.dirty c dirty
      · show upd (seen trace).loaded b none c = _
        rw [assign_body]
        by_cases here : c = b
        · rw [here, upd_self, if_pos rfl]
          rfl
        · rw [upd_ne here, if_neg here]
          exact driver.loaded c
  | acquire h held changed =>
    simp only [Act.exec] at executed
    split at executed
    · rename_i free
      cases executed
      exact ⟨holders_acquire holders at_ free, queue, driver_move driver (absent nofun) nofun
        (funext fun c => setOwner_body _ c) (setOwner_next _) rfl rfl rfl rfl ready nofun⟩
    · cases executed
  | valid h held changed =>
    obtain ⟨valid, rfl⟩ := Res.ok.inj executed
    refine ⟨holders_keep holders rfl rfl rfl rfl (fun _ => ⟨rfl, rfl⟩) (by rw [at_]; exact List.Perm.refl _) (by rw [at_]; rfl)
      nofun, queue, driver_move driver (absent nofun) nofun rfl rfl rfl rfl rfl rfl ?_ nofun⟩
    intro k mine
    rcases List.mem_cons.mp mine with rfl | old
    · exact valid
    · exact ready k old
  | invalid h held changed =>
    obtain ⟨invalid, rfl⟩ := Res.ok.inj executed
    refine ⟨holders_keep holders rfl rfl rfl rfl (fun _ => ⟨rfl, rfl⟩) (by rw [at_]; exact List.Perm.refl _) (by rw [at_]; rfl)
      nofun, queue, driver_move driver (absent nofun) nofun rfl rfl rfl rfl rfl rfl ready ?_⟩
    intro k is
    cases is
    show ((s.body h.b).valid && _) = false
    rw [invalid]
    rfl
  | check h held changed =>
    simp only [Act.exec] at executed
    split at executed
    · cases executed
    · split at executed
      · cases executed
      · split at executed
        · cases executed
        · cases executed
          rw [← at_, upd_same]
          exact ⟨holders, queue, driver⟩
  | enqueue h held changed =>
    obtain ⟨ide, queued, rfl⟩ := onIde_ok executed
    obtain ⟨-, body, owner, driver'⟩ := driver_enqueue holders driver at_ queued
    refine ⟨holders_keep holders rfl rfl rfl owner (fun _ => by rw [body]; exact ⟨rfl, rfl⟩) ?_ (by rw [at_]; rfl)
      nofun, _, driver'⟩
    rw [at_]
    exact List.Perm.refl _
  | enqueued h held changed =>
    obtain ⟨ide, queued, rfl⟩ := onIde_ok executed
    exact nomatch (driver_enqueue holders driver at_ queued).1
  | wait h held changed =>
    obtain ⟨-, ide, tested, rfl⟩ := wait_ok executed
    rw [← at_, upd_same]
    rcases Ide.test_spec tested with ⟨never, -⟩ | ⟨-, -, rfl⟩
    · cases never
    · exact ⟨holders_same holders rfl rfl rfl rfl rfl, queue, driver_same driver rfl rfl rfl rfl rfl rfl⟩
  | waited h held changed =>
    obtain ⟨-, ide, tested, rfl⟩ := wait_ok executed
    rcases Ide.test_spec tested with ⟨-, done, rfl⟩ | ⟨never, -⟩
    · refine ⟨holders_keep holders rfl rfl rfl rfl (fun _ => ⟨rfl, rfl⟩) (by rw [at_]; exact List.Perm.refl _) (by rw [at_]; rfl)
        nofun, queue, driver_move driver ?_ nofun rfl rfl rfl rfl rfl rfl ?_ nofun⟩
      · intro r member same
        obtain ⟨phase, busy⟩ := driver.queued r member
        rw [same, at_] at phase
        cases phase
        exact Bool.false_ne_true (busy.symm.trans done)
      · intro k mine
        rcases List.mem_cons.mp mine with rfl | old
        · exact (Bool.and_eq_true_iff.mp done).1
        · exact ready k old
    · cases never
  | mark h held changed mine =>
    simp only [Act.exec] at executed
    split at executed
    · cases executed
    · cases executed
      refine inv_write holders driver at_ mine rfl rfl rfl (List.perm_cons_erase mine).symm rfl nofun
        nofun (fun k => List.mem_of_mem_erase) fun k is => ?_
      cases is
      exact ⟨rfl, Bool.and_false _⟩
  | logWrite h held changed mine =>
    cases executed
    exact inv_write holders driver at_ mine rfl rfl rfl (List.Perm.refl _) rfl nofun
      nofun (fun _ member => member) nofun
  | edit h data held changed mine =>
    cases executed
    exact inv_write holders driver at_ mine rfl rfl rfl (List.Perm.refl _) rfl nofun
      nofun (fun _ member => member) nofun
  | release h held changed mine =>
    simp only [Act.exec] at executed
    split at executed
    · cases executed
    · cases executed
      exact ⟨holders_release holders at_ mine, queue, driver_move driver (absent nofun) nofun
        (funext fun c => setOwner_body _ c) (setOwner_next _) rfl rfl rfl rfl (fun k member => ready k (List.mem_of_mem_erase member))
        nofun⟩
  | drop b held changed =>
    cases executed
    obtain ⟨-, ide, error⟩ := drop_fields (s := s) (b := b)
    have body : (s.drop b).body = s.body := by
      unfold State.body
      rw [ide]
    exact ⟨holders_drop holders at_, queue, driver_move driver (absent nofun) nofun body (by rw [ide]) (by rw [ide])
      (by rw [ide]) (by rw [ide]) error ready nofun⟩
  | complete failed =>
    obtain ⟨body, owner, refcnt, next, prev, driver'⟩ := driver_complete (p := p) driver executed
    rw [← at_, upd_same]
    exact ⟨holders_same holders next prev refcnt owner body, queue, driver'⟩
  | intr found =>
    obtain ⟨r, rest, -, -, -, bodies, owner, refcnt, next, prev, -⟩ := ideintr_cases driver executed
    obtain ⟨queue', driver'⟩ := driver_intr holders driver executed fine
    refine ⟨holders_keep holders next prev refcnt owner (fun c => ?_) (by rw [at_]) (by rw [at_]) (fun h is => by rw [at_]; exact is),
      queue', ?_⟩
    · rw [bodies]
      split
      · rename_i here
        rw [here]
        exact ⟨rfl, rfl⟩
      · exact ⟨rfl, rfl⟩
    · rw [← at_, upd_same]
      exact driver'
  | kill q =>
    cases executed
    rw [← at_, upd_same]
    exact ⟨holders_same holders rfl rfl rfl rfl rfl, queue, driver_same driver rfl rfl rfl rfl rfl rfl⟩

end

abbrev Runs (disk : Nat → Nat → Block) (havedisk1 : Bool) (cond : Ev → Prop) : Trace → Config Act State Task → Prop :=
  Reach Act.exec Calls cond (start disk havedisk1)

-- A buffer is valid only with data transferred from or to its block since it was assigned.
structure Faithful (trace : Trace) (c : Config Act State Task) : Prop where
  valid : ∀ before e, before ++ [e] <+: trace → ∀ b, b < nbuf → (e.post.body b).valid = true →
    loaded (before ++ [e]) b = some ((e.post.body b).unit, (e.post.body b).blockno)
  returned : ∀ p held changed, c.thread p = .ret (.idle held changed) → ∀ h ∈ held, (c.shared.body h.b).dev = h.dev ∧
    (c.shared.body h.b).blockno = h.blockno ∧ (c.shared.body h.b).valid = true ∧ loaded trace h.b = some (h.dev % 2, h.blockno)

section

variable {disk : Nat → Nat → Block} {havedisk1 : Bool} {trace : Trace} {c : Config Act State Task}

theorem start_driver (disk : Nat → Nat → Block) (havedisk1 : Bool) :
    Driver (seen []) (start disk havedisk1).shared (fun _ => ⟨[], [], .out⟩) [] := by
  obtain ⟨ide, -, -⟩ := binitLoop_fields (s := { State.boot disk havedisk1 with
    next := upd (State.boot disk havedisk1).next head head, prev := upd (State.boot disk havedisk1).prev head head }) (b := 0) nbuf
  have ide' : (start disk havedisk1).shared.ide = (State.boot disk havedisk1).ide := ide
  have body : ∀ b, (start disk havedisk1).shared.body b = ⟨false, false, 0, 0, Buf.zero⟩ := by
    intro b
    unfold State.body
    rw [ide']
    rfl
  refine ⟨nofun, nofun, nofun,
    nofun, ?_, List.nodup_nil, .idle ?_ ?_, fun b dirty => ?_, fun b => ?_⟩
  · rw [ide']
    rfl
  · rw [ide']
    rfl
  · rw [ide']
    rfl
  · rw [body] at dirty
    cases dirty
  · rw [body]
    rfl

theorem runs_inv (runs : Runs disk havedisk1 (fun e => failedRead e = false) trace c) :
    ∃ ghosts, Inv trace c.shared ghosts ∧ ∀ p task, c.thread p = .ret task → Final task (ghosts p) := by
  have first : ∃ ghosts, Inv [] (start disk havedisk1).shared ghosts ∧ ∀ p,
      Safe Act.exec (fun e => failedRead e = false) Inv p Final ((start disk havedisk1).thread p) (ghosts p) :=
    ⟨fun _ => ⟨[], [], .out⟩, ⟨start_holders disk havedisk1, [], start_driver disk havedisk1⟩, fun _ => rfl⟩
  obtain ⟨ghosts, inv, threads⟩ := reach_invariant Final first
    (fun p l g prog final call => follows_safe (Moves p)
      (fun act r g' trace s s' ghosts inv executed fine moved => moves_keep inv executed fine moved) (calls_follow final call)) runs
  refine ⟨ghosts, inv, fun p task at_ => ?_⟩
  have safe := threads p
  rw [at_] at safe
  exact safe

theorem inv_valid {s : State} {ghosts : Nat → Ghost} (inv : Inv trace s ghosts) {b : Nat} (valid : (s.body b).valid = true) :
    loaded trace b = some ((s.body b).unit, (s.body b).blockno) := by
  obtain ⟨-, queue, driver⟩ := inv
  rw [loaded, driver.loaded b]
  exact if_pos valid

theorem inv_returned {s : State} {ghosts : Nat → Ghost} (inv : Inv trace s ghosts) {p : Nat} {held : List Held} {changed : List Nat}
    (final : Final (.idle held changed) (ghosts p)) {h : Held} (mine : h ∈ held) : (s.body h.b).dev = h.dev ∧
      (s.body h.b).blockno = h.blockno ∧ (s.body h.b).valid = true ∧ loaded trace h.b = some (h.dev % 2, h.blockno) := by
  have at_ : ghosts p = ⟨held, changed, .out⟩ := final
  have mine' : h ∈ (ghosts p).held := by
    rw [at_]
    exact mine
  have whole := inv
  obtain ⟨holders, queue, driver⟩ := inv
  obtain ⟨-, dev, blockno⟩ := holders.place p h (.inl (locks_of_held mine'))
  have valid := driver.ready p h mine'
  refine ⟨dev, blockno, valid, ?_⟩
  rw [inv_valid whole valid, Body.unit, dev, blockno]

theorem fine_faithful (runs : Runs disk havedisk1 (fun e => failedRead e = false) trace c) : Faithful trace c := by
  obtain ⟨ghosts, inv, final⟩ := runs_inv runs
  refine ⟨?_, fun p held changed at_ h mine => inv_returned inv (final p _ at_) mine⟩
  clear inv final
  induction runs with
  | init =>
    intro before e start
    exact absurd (List.prefix_nil.mp start) (List.append_ne_nil_of_right_ne_nil before (List.cons_ne_nil e []))
  | call trace c p l prog _ _ _ ih => exact ih
  | step trace c p act next r s runs at_ executed met ih =>
    intro before e start b small valid
    rcases List.prefix_concat_iff.mp start with same | earlier
    · obtain ⟨rfl, last⟩ := List.append_inj' same rfl
      cases last
      obtain ⟨ghosts, inv, -⟩ := runs_inv (.step before c p act next r s runs at_ executed met)
      exact inv_valid inv valid
    · exact ih before e earlier b small valid

theorem failed_unfaithful {s s' : State} {ghosts : Nat → Ghost} {p : Nat} {β : Type} {act : Act β} {r : β} (inv : Inv trace s ghosts)
    (executed : act.exec s = .ok r s') (failed : failedRead ⟨p, act, r, s, s'⟩ = true) :
    ∃ b, b < nbuf ∧ (s'.body b).valid = true ∧ loaded (trace ++ [⟨p, act, r, s, s'⟩]) b = none := by
  obtain ⟨holders, queue, driver⟩ := inv
  cases act with
  | intr =>
    obtain ⟨first, rest, rfl, rfl, -, bodies, -⟩ := ideintr_cases driver executed
    obtain ⟨phase, busy⟩ := driver.queued first List.mem_cons_self
    obtain ⟨small, -⟩ := holders.place first.1 first.2 (.inl (locks_of_waiting phase))
    have read : outcome (s.body first.2.b).dirty s.error = .unread := by
      cases result : outcome (s.body first.2.b).dirty s.error with
      | unread => rfl
      | read =>
        rw [result] at failed
        cases failed
      | wrote =>
        rw [result] at failed
        cases failed
      | unwritten =>
        rw [result] at failed
        cases failed
    have clean : (s.body first.2.b).dirty = false := by
      cases dirty : (s.body first.2.b).dirty with
      | false => rfl
      | true =>
        rw [dirty] at read
        cases error : s.error with
        | true =>
          rw [error] at read
          cases read
        | false =>
          rw [error] at read
          cases read
    have invalid : (s.body first.2.b).valid = false := by
      unfold Body.done at busy
      rw [clean, Bool.not_false, Bool.and_true] at busy
      exact busy
    refine ⟨first.2.b, small, ?_, ?_⟩
    · rw [bodies, if_pos rfl]
      rfl
    · rw [loaded, seen_snoc, read]
      show (seen trace).loaded first.2.b = none
      rw [driver.loaded first.2.b, Body.source, invalid]
      rfl
  | _ => cases failed

theorem faithful_fine (runs : Runs disk havedisk1 (fun _ => True) trace c)
    (valid : ∀ before e, before ++ [e] <+: trace → ∀ b, b < nbuf → (e.post.body b).valid = true →
      loaded (before ++ [e]) b = some ((e.post.body b).unit, (e.post.body b).blockno)) : ∀ e ∈ trace, failedRead e = false := by
  induction runs with
  | init => exact nofun
  | call trace c p l prog _ _ _ ih => exact ih valid
  | step trace c p act next r s runs at_ executed _ ih =>
    have earlier := ih fun before e start => valid before e (start.trans (List.prefix_append _ _))
    obtain ⟨ghosts, inv, -⟩ := runs_inv (reach_of_trace runs earlier)
    intro e member
    rcases List.mem_append.mp member with old | new
    · exact earlier e old
    · rw [List.mem_singleton.mp new]
      cases failed : failedRead ⟨p, act, r, c.shared, s⟩ with
      | false => rfl
      | true =>
        obtain ⟨b, small, is, none_⟩ := failed_unfaithful inv executed failed
        rw [valid trace _ (List.prefix_refl _) b small is] at none_
        cases none_

end

-- ideintr sets B_VALID whatever idewait says.
theorem buffers_faithful_iff (disk : Nat → Nat → Block) (havedisk1 : Bool) (trace : Trace) (c : Config Act State Task)
    (runs : Runs disk havedisk1 (fun _ => True) trace c) : Faithful trace c ↔ ∀ e ∈ trace, failedRead e = false :=
  ⟨fun faithful => faithful_fine runs faithful.valid, fun fine => fine_faithful (reach_of_trace runs fine)⟩

def platter : Nat → Nat → Block := fun unit sector => if unit = 0 ∧ sector = 5 then Buf.ofFn fun _ => 1 else Buf.zero

def readTurns (blockno : Nat) (failed : Bool) : List (Turn Act Task) :=
  [.call 1 (.idle [] []) (bread 1 0 blockno [] []), .step 1, .step 1, .step 1, .step 1, .step 1,
    .call 2 (.idle [] []) (device (.complete failed) [] []), .step 2, .call 2 (.idle [] []) (device .intr [] []), .step 2,
    .call 1 (.waiting ⟨0, 0, blockno⟩ [] []) (iderwOn 1 ⟨0, 0, blockno⟩ [] []), .step 1]

theorem readTurns_allowed (blockno : Nat) (failed : Bool) : ∀ turn ∈ readTurns blockno failed, turn.Allowed Calls := by
  unfold readTurns
  simp only [List.forall_mem_cons, Turn.Allowed]
  exact ⟨.bread 1 0 blockno [] [], trivial, trivial, trivial, trivial, trivial, .complete 2 failed [] [], trivial, .intr 2 [] [], trivial,
    .wait 1 _ [] [], trivial, nofun⟩

def hasByte (blockno : Nat) (byte : UInt8) (outcome : Trace × Config Act State Task) : Bool :=
  outcome.2.idle 1 = some (.idle [⟨0, 0, blockno⟩] []) && (outcome.2.shared.body 0).data.get 0 == byte

theorem buffers_faithful_after_read : ∃ trace c, Runs platter false (fun _ => True) trace c ∧ (∀ e ∈ trace, failedRead e = false) ∧
    c.thread 1 = .ret (.idle [⟨0, 0, 5⟩] []) ∧ (c.shared.body 0).data.get 0 = 1 ∧ Faithful trace c := by
  have played : ((start platter false).play Act.exec (readTurns 5 false)).any
      (fun outcome => outcome.1.all (fun e => !failedRead e) && hasByte 5 1 outcome) = true := by decide +kernel
  obtain ⟨⟨trace, c⟩, run, met⟩ := (Option.any_eq_true _ _).mp played
  rw [hasByte, Bool.and_eq_true, Bool.and_eq_true, List.all_eq_true, decide_eq_true_eq, beq_iff_eq] at met
  have reached : Runs platter false (fun _ => True) trace c :=
    play_reach (readTurns 5 false) (fun _ _ => trivial) (readTurns_allowed 5 false) .init run
  have fine : ∀ e ∈ trace, failedRead e = false := fun e member => Bool.not_eq_true' _ ▸ met.1 e member
  exact ⟨trace, c, reached, fine, idle_some met.2.1, met.2.2, (buffers_faithful_iff platter false trace c reached).mpr fine⟩

-- The other buffers are taken by processes 3 to 31, so that block 6 gets the buffer of block 5.
def reuseTurns : List (Turn Act Task) :=
  readTurns 5 false ++ [.call 1 (.idle [⟨0, 0, 5⟩] []) (brelse ⟨0, 0, 5⟩ [⟨0, 0, 5⟩] []), .step 1, .step 1] ++
    ((List.range 29).flatMap fun k => [.call (k + 3) (.idle [] []) (bread (k + 3) 0 (k + 100) [] []), .step (k + 3)]) ++ readTurns 6 true

theorem reuseTurns_allowed : ∀ turn ∈ reuseTurns, turn.Allowed Calls := by
  intro turn member
  rcases List.mem_append.mp member with member | last
  · rcases List.mem_append.mp member with member | others
    · rcases List.mem_append.mp member with first | released
      · exact readTurns_allowed 5 false turn first
      · rcases List.mem_cons.mp released with rfl | steps
        · exact .brelse 1 _ _ _ List.mem_cons_self
        · rcases List.mem_cons.mp steps with rfl | last
          · trivial
          · rw [List.mem_singleton.mp last]
            trivial
    · obtain ⟨k, -, here⟩ := List.mem_flatMap.mp others
      rcases List.mem_cons.mp here with rfl | here
      · exact .bread _ 0 _ [] []
      · rw [List.mem_singleton.mp here]
        trivial
  · exact readTurns_allowed 6 true turn last

-- bread(0, 6) returns a valid buffer with the data of block 5, its previous occupant.
theorem bread_returns_previous_block : ∃ trace c, Runs platter false (fun _ => True) trace c ∧
    c.thread 1 = .ret (.idle [⟨0, 0, 6⟩] []) ∧ (c.shared.body 0).valid = true ∧ (c.shared.body 0).blockno = 6 ∧
    (c.shared.body 0).data.get 0 = (platter 0 5).get 0 ∧ (platter 0 5).get 0 ≠ (platter 0 6).get 0 ∧ ¬ Faithful trace c := by
  have played : ((start platter false).play Act.exec reuseTurns).any (fun outcome => loaded outcome.1 0 = none &&
      ((outcome.2.shared.body 0).valid && (outcome.2.shared.body 0).blockno == 6) && hasByte 6 1 outcome) = true := by decide +kernel
  obtain ⟨⟨trace, c⟩, run, met⟩ := (Option.any_eq_true _ _).mp played
  simp only [hasByte, Bool.and_eq_true, decide_eq_true_eq, beq_iff_eq] at met
  obtain ⟨⟨none_, valid, blockno⟩, returned, byte⟩ := met
  have reached : Runs platter false (fun _ => True) trace c :=
    play_reach reuseTurns (fun _ _ => trivial) reuseTurns_allowed .init run
  refine ⟨trace, c, reached, idle_some returned, valid, blockno, byte, by decide, fun faithful => ?_⟩
  obtain ⟨-, -, -, there⟩ := faithful.returned 1 _ _ (idle_some returned) ⟨0, 0, 6⟩ List.mem_cons_self
  rw [none_] at there
  cases there

end Xv6.Bio
