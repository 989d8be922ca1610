import Xv6.Bio.Holders

set_option autoImplicit false

namespace Xv6.Bio

open Ide (nbuf Body)

-- The block of the last command that did not fail, and the block that each buffer's data is of.
structure Seen where
  place : Option (Nat × Nat)
  loaded : Nat → Option (Nat × Nat)

def Seen.after (seen : Seen) : Ev → Seen
  | { act := .complete failed, pre := s, .. } =>
    { seen with place := if failed then none else s.ide.active.head?.map fun c => (c.unit, c.sector) }
  | { act := .bget _ _, res := (b, true), .. } => { seen with loaded := upd seen.loaded b none }
  | { act := .intr, res := some (b, .read), .. } => { seen with loaded := upd seen.loaded b seen.place }
  | { act := .intr, res := some (b, .wrote), .. } => { seen with loaded := upd seen.loaded b seen.place }
  | _ => seen

def seen (trace : Trace) : Seen := trace.foldl Seen.after ⟨none, fun _ => none⟩

def loaded (trace : Trace) (b : Nat) : Option (Nat × Nat) := (seen trace).loaded b

def failedRead : Ev → Bool
  | { act := .intr, res := some (_, .unread), .. } => true
  | _ => false

theorem seen_snoc (trace : Trace) (e : Ev) : seen (trace ++ [e]) = (seen trace).after e := by
  unfold seen
  rw [List.foldl_append]
  rfl

def Body.source (x : Body) : Option (Nat × Nat) := if x.valid then some (x.unit, x.blockno) else none

-- Nothing to do, or the first request's command in progress, or its interrupt raised.
inductive Progress (seen : Seen) (s : State) : List (Nat × Held) → Prop where
  | idle (active : s.ide.active = []) (raised : s.ide.raised = 0) : Progress seen s []
  | busy (r : Nat × Held) (rest : List (Nat × Held)) (active : s.ide.active = [(s.body r.2.b).command])
      (raised : s.ide.raised = 0) : Progress seen s (r :: rest)
  | ready (r : Nat × Held) (rest : List (Nat × Held)) (active : s.ide.active = []) (raised : s.ide.raised = 1)
      (place : seen.place = if s.error then none else some ((s.body r.2.b).unit, (s.body r.2.b).blockno)) : Progress seen s (r :: rest)

structure Driver (seen : Seen) (s : State) (ghosts : Nat → Ghost) (queue : List (Nat × Held)) : Prop where
  ready : ∀ p, ∀ h ∈ (ghosts p).held, (s.body h.b).valid = true
  starting : ∀ p h, (ghosts p).phase = .starting h → (s.body h.b).done = false
  waiting : ∀ p h, (ghosts p).phase = .waiting h → (p, h) ∈ queue ∨ (s.body h.b).done = true
  queued : ∀ r ∈ queue, (ghosts r.1).phase = .waiting r.2 ∧ (s.body r.2.b).done = false
  chain : Chain s.ide.next s.ide.idequeue (queue.map fun r => r.2.b)
  nodup : (queue.map fun r => r.2.b).Nodup
  progress : Progress seen s queue
  dirty : ∀ b, (s.body b).dirty = true → (s.body b).valid = true
  loaded : ∀ b, seen.loaded b = Body.source (s.body b)

section

variable {seen seen' : Seen} {s s' : State} {ghosts : Nat → Ghost} {g : Ghost} {p b : Nat} {queue : List (Nat × Held)}

theorem locks_of_waiting {h : Held} (phase : g.phase = .waiting h) : h ∈ g.locks := by
  unfold Ghost.locks
  rw [phase]
  exact List.mem_cons_self

theorem locks_of_starting {h : Held} (phase : g.phase = .starting h) : h ∈ g.locks := by
  unfold Ghost.locks
  rw [phase]
  exact List.mem_cons_self

theorem locks_of_held {h : Held} (mine : h ∈ g.held) : h ∈ g.locks := List.mem_append_right _ mine

theorem progress_keep (bodies : ∀ r ∈ queue, s'.body r.2.b = s.body r.2.b) (active : s'.ide.active = s.ide.active)
    (raised : s'.ide.raised = s.ide.raised) (error : s'.error = s.error) (place : seen'.place = seen.place)
    (progress : Progress seen s queue) : Progress seen' s' queue := by
  cases progress with
  | idle nothing quiet => exact .idle (active.trans nothing) (raised.trans quiet)
  | busy r rest one quiet =>
    refine .busy r rest ?_ (raised.trans quiet)
    rw [active, bodies r List.mem_cons_self]
    exact one
  | ready r rest nothing one there =>
    refine .ready r rest (active.trans nothing) (raised.trans one) ?_
    rw [place, error, bodies r List.mem_cons_self]
    exact there

theorem not_queued (driver : Driver seen s ghosts queue) (out : ∀ h, (ghosts p).phase ≠ .waiting h) : ∀ r ∈ queue, r.1 ≠ p :=
  fun r member same => out r.2 (same ▸ (driver.queued r member).1)

theorem driver_step (driver : Driver seen s ghosts queue) (absent : ∀ r ∈ queue, r.1 ≠ p) (out : ∀ h, g.phase ≠ .waiting h)
    (keep : ∀ q, q ≠ p → ∀ h ∈ (ghosts q).locks, s'.body h.b = s.body h.b) (next : s'.ide.next = s.ide.next)
    (first : s'.ide.idequeue = s.ide.idequeue) (active : s'.ide.active = s.ide.active) (raised : s'.ide.raised = s.ide.raised)
    (error : s'.error = s.error) (place : seen'.place = seen.place) (ready : ∀ h ∈ g.held, (s'.body h.b).valid = true)
    (starting : ∀ h, g.phase = .starting h → (s'.body h.b).done = false)
    (dirty : ∀ b, (s'.body b).dirty = true → (s'.body b).valid = true) (loaded : ∀ b, seen'.loaded b = Body.source (s'.body b)) :
    Driver seen' s' (upd ghosts p g) queue := by
  have other : ∀ r ∈ queue, r.1 ≠ p ∧ s'.body r.2.b = s.body r.2.b := by
    intro r member
    have different := absent r member
    exact ⟨different, keep r.1 different r.2 (locks_of_waiting (driver.queued r member).1)⟩
  refine ⟨fun q h mine => ?_, fun q h is => ?_, fun q h is => ?_, fun r member => ?_, ?_, driver.nodup, ?_, dirty, loaded⟩
  · by_cases here : q = p
    · rw [here, upd_self] at mine
      exact ready h mine
    · rw [upd_ne here] at mine
      rw [keep q here h (locks_of_held mine)]
      exact driver.ready q h mine
  · by_cases here : q = p
    · rw [here, upd_self] at is
      exact starting h is
    · rw [upd_ne here] at is
      rw [keep q here h (locks_of_starting is)]
      exact driver.starting q h is
  · by_cases here : q = p
    · rw [here, upd_self] at is
      exact absurd is (out h)
    · rw [upd_ne here] at is
      rw [keep q here h (locks_of_waiting is)]
      exact driver.waiting q h is
  · obtain ⟨different, same⟩ := other r member
    rw [upd_ne different, same]
    exact driver.queued r member
  · rw [next, first]
    exact driver.chain
  · exact progress_keep (fun r member => (other r member).2) active raised error place driver.progress

theorem setBody_next (x : Body) : (s.setBody b x).ide.next = s.ide.next := Ide.setBuf_next _ _ _ rfl

theorem setOwner_next (q : Option Nat) : (s.setOwner b q).ide.next = s.ide.next := Ide.setBuf_next _ _ _ rfl

theorem driver_move (driver : Driver seen s ghosts queue) (absent : ∀ r ∈ queue, r.1 ≠ p) (out : ∀ h, g.phase ≠ .waiting h)
    (body : s'.body = s.body) (next : s'.ide.next = s.ide.next) (first : s'.ide.idequeue = s.ide.idequeue)
    (active : s'.ide.active = s.ide.active) (raised : s'.ide.raised = s.ide.raised) (error : s'.error = s.error)
    (ready : ∀ h ∈ g.held, (s.body h.b).valid = true) (starting : ∀ h, g.phase = .starting h → (s.body h.b).done = false) :
    Driver seen s' (upd ghosts p g) queue := by
  refine driver_step driver absent out ?_ next first active raised error rfl ?_ ?_ ?_ ?_
  · exact fun _ _ h _ => congrFun body h.b
  · rw [body]
    exact ready
  · rw [body]
    exact starting
  · rw [body]
    exact driver.dirty
  · rw [body]
    exact driver.loaded

theorem driver_write (holders : Holders s ghosts) (driver : Driver seen s ghosts queue) {held : List Held} {changed : List Nat} {h : Held}
    (at_ : ghosts p = ⟨held, changed, .out⟩) (mine : h ∈ held) {x : Body} (valid : x.valid = (s.body h.b).valid)
    (place : x.unit = (s.body h.b).unit ∧ x.blockno = (s.body h.b).blockno) (out : ∀ h, g.phase ≠ .waiting h) (less : ∀ k ∈ g.held, k ∈ held)
    (starting : ∀ k, g.phase = .starting k → k = h ∧ x.done = false) : Driver seen (s.setBody h.b x) (upd ghosts p g) queue := by
  have locked : h ∈ (ghosts p).locks := by
    rw [at_]
    exact mine
  have known : ∀ k ∈ held, (s.body k.b).valid = true := by
    intro k member
    refine driver.ready p k ?_
    rw [at_]
    exact member
  have valid' : ∀ c, ((s.setBody h.b x).body c).valid = (s.body c).valid := by
    intro c
    rw [setBody_body]
    split
    · rename_i same
      rw [valid, same]
    · rfl
  have quiet : ∀ k, (ghosts p).phase ≠ .waiting k := by
    rw [at_]
    exact nofun
  refine driver_step driver (not_queued driver quiet) out ?_ (setBody_next x) rfl rfl rfl rfl rfl ?_ ?_ ?_ ?_
  · intro q other k member
    rw [setBody_body, if_neg]
    exact fun same => other (owner_unique holders member locked same)
  · intro k member
    rw [valid']
    exact known k (less k member)
  · intro k is
    obtain ⟨rfl, busy⟩ := starting k is
    rw [setBody_body, if_pos rfl]
    exact busy
  · intro c dirty
    rw [valid']
    rw [setBody_body] at dirty
    split at dirty
    · rename_i same
      rw [same]
      exact known h mine
    · exact driver.dirty c dirty
  · intro c
    rw [driver.loaded c, setBody_body]
    split
    · rename_i same
      unfold Body.source
      rw [same, valid, place.1, place.2]
    · rfl

theorem driver_same (driver : Driver seen s ghosts queue) (body : s'.body = s.body) (next : s'.ide.next = s.ide.next)
    (first : s'.ide.idequeue = s.ide.idequeue) (active : s'.ide.active = s.ide.active) (raised : s'.ide.raised = s.ide.raised)
    (error : s'.error = s.error) : Driver seen s' ghosts queue := by
  refine ⟨?_, ?_, ?_, ?_, ?_, driver.nodup, ?_, ?_, ?_⟩
  · rw [body]
    exact driver.ready
  · rw [body]
    exact driver.starting
  · rw [body]
    exact driver.waiting
  · rw [body]
    exact driver.queued
  · rw [next, first]
    exact driver.chain
  · exact progress_keep (fun r _ => congrFun body r.2.b) active raised error rfl driver.progress
  · rw [body]
    exact driver.dirty
  · rw [body]
    exact driver.loaded

theorem driver_enqueue (holders : Holders s ghosts) (driver : Driver seen s ghosts queue) {held : List Held} {changed : List Nat} {h : Held}
    (at_ : ghosts p = ⟨held, changed, .starting h⟩) {returned : Bool} {ide : Ide.State} (queued : s.ide.enqueue p h.b = .ok returned ide) :
    returned = false ∧ ({ s with ide := ide } : State).body = s.body ∧ ({ s with ide := ide } : State).owner = s.owner ∧
      Driver seen { s with ide := ide } (upd ghosts p ⟨held, changed, .waiting h⟩) (queue ++ [(p, h)]) := by
  have phase : (ghosts p).phase = .starting h := by rw [at_]
  have absent : ∀ r ∈ queue, r.1 ≠ p := not_queued driver fun k never => by rw [phase] at never; cases never
  have notThere : h.b ∉ queue.map fun r => r.2.b := by
    intro member
    obtain ⟨r, inside, same⟩ := List.mem_map.mp member
    exact absent r inside (owner_unique holders (locks_of_waiting (driver.queued r inside).1) (locks_of_starting phase) same)
  have small : ∀ c ∈ queue.map fun r => r.2.b, c < nbuf := by
    intro c member
    obtain ⟨r, inside, rfl⟩ := List.mem_map.mp member
    exact (holders.place r.1 r.2 (.inl (locks_of_waiting (driver.queued r inside).1))).1
  obtain ⟨result, chain, -, raised, -, active, fields⟩ := Ide.enqueue_cases driver.chain driver.nodup small notThere queued
  have busy := driver.starting p h phase
  have body : ({ s with ide := ide } : State).body = s.body := funext fun c => (fields c).1
  have owner : ({ s with ide := ide } : State).owner = s.owner := funext fun c => (fields c).2
  refine ⟨result.trans busy, body, owner, ⟨fun q k mine => ?_, fun q k is => ?_, fun q k is => ?_, fun r member => ?_, ?_, ?_, ?_, ?_, ?_⟩⟩
  · rw [body]
    by_cases here : q = p
    · rw [here, upd_self] at mine
      refine driver.ready p k ?_
      rw [at_]
      exact mine
    · rw [upd_ne here] at mine
      exact driver.ready q k mine
  · rw [body]
    by_cases here : q = p
    · rw [here, upd_self] at is
      cases is
    · rw [upd_ne here] at is
      exact driver.starting q k is
  · rw [body]
    by_cases here : q = p
    · rw [here, upd_self] at is
      cases is
      rw [here]
      exact .inl (List.mem_append_right _ List.mem_cons_self)
    · rw [upd_ne here] at is
      exact (driver.waiting q k is).imp_left (List.mem_append_left _)
  · rw [body]
    rcases List.mem_append.mp member with old | new
    · rw [upd_ne (absent r old)]
      exact driver.queued r old
    · rw [List.mem_singleton.mp new, upd_self]
      exact ⟨rfl, busy⟩
  · rw [List.map_append]
    exact chain
  · rw [List.map_append, List.nodup_append]
    refine ⟨driver.nodup, List.pairwise_singleton _ _, fun c member d last same => notThere ?_⟩
    have here : d = h.b := List.mem_singleton.mp last
    rw [← here, ← same]
    exact member
  · have progress := driver.progress
    rw [List.map_eq_nil_iff, ne_eq, List.map_eq_nil_iff] at active
    rcases active with ⟨rfl, start⟩ | ⟨some_, same⟩
    · cases progress with
      | idle nothing quiet =>
        refine .busy (p, h) [] ?_ (raised.trans quiet)
        rw [body, start, nothing]
        rfl
    · cases progress with
      | idle _ _ => exact absurd rfl some_
      | busy r rest one quiet =>
        refine .busy r (rest ++ [(p, h)]) ?_ (raised.trans quiet)
        rw [body]
        exact same.trans one
      | ready r rest nothing one place =>
        refine .ready r (rest ++ [(p, h)]) (same.trans nothing) (raised.trans one) ?_
        rw [body]
        exact place
  · rw [body]
    exact driver.dirty
  · rw [body]
    exact driver.loaded

theorem complete_cases (driver : Driver seen s ghosts queue) {failed : Bool} (completed : s.complete failed = .ok () s') :
    ∃ r rest, queue = r :: rest ∧ s.ide.active = [(s.body r.2.b).command] ∧ s'.ide.active = [] ∧ s'.ide.raised = 1 ∧ s'.error = failed ∧
      s'.ide.buf = s.ide.buf ∧ s'.ide.idequeue = s.ide.idequeue ∧ s'.refcnt = s.refcnt ∧ s'.next = s.next ∧ s'.prev = s.prev := by
  have progress := driver.progress
  unfold State.complete Ide.State.complete at completed
  cases progress with
  | idle nothing _ =>
    rw [nothing] at completed
    cases completed
  | ready _ _ nothing _ _ =>
    rw [nothing] at completed
    cases completed
  | busy r rest one quiet =>
    refine ⟨r, rest, rfl, one, ?_⟩
    rw [one] at completed
    dsimp only at completed
    rw [quiet] at completed
    cases write : (s.body r.2.b).command.write <;> cases failed <;> rw [write] at completed <;> cases completed <;>
      exact ⟨rfl, rfl, rfl, rfl, rfl, rfl, rfl, rfl⟩

theorem driver_complete (driver : Driver seen s ghosts queue) {failed : Bool} (completed : s.complete failed = .ok () s') :
    s'.body = s.body ∧ s'.owner = s.owner ∧ s'.refcnt = s.refcnt ∧ s'.next = s.next ∧ s'.prev = s.prev ∧
      Driver (seen.after ⟨p, .complete failed, (), s, s'⟩) s' ghosts queue := by
  obtain ⟨r, rest, rfl, started, active, raised, error, bufs, first, refcnt, next, prev⟩ := complete_cases driver completed
  have body : s'.body = s.body := by
    unfold State.body
    rw [bufs]
  have owner : s'.owner = s.owner := by
    unfold State.owner
    rw [bufs]
  refine ⟨body, owner, refcnt, next, prev, ⟨?_, ?_, ?_, ?_, ?_, driver.nodup, ?_, ?_, ?_⟩⟩
  · rw [body]
    exact driver.ready
  · rw [body]
    exact driver.starting
  · rw [body]
    exact driver.waiting
  · rw [body]
    exact driver.queued
  · have links : s'.ide.next = s.ide.next := by
      unfold Ide.State.next
      rw [bufs]
    rw [links, first]
    exact driver.chain
  · refine .ready r rest active raised ?_
    show (if failed then none else s.ide.active.head?.map fun c => (c.unit, c.sector)) = _
    rw [started, error, body]
    rfl
  · rw [body]
    exact driver.dirty
  · rw [body]
    exact driver.loaded

theorem finish_spec {t t' : Ide.State} {rest : List Nat} {x : Body} (chain : Chain t.next t.idequeue (b :: rest))
    (finished : finish t b x = .ok () t') :
    t'.buf = upd t.buf b { t.buf b with body := x } ∧ t'.next = t.next ∧ Chain t'.next t'.idequeue rest ∧ t'.raised = t.raised ∧
      t'.disk = t.disk ∧ ((rest = [] ∧ t'.active = t.active) ∨
        ∃ c more, rest = c :: more ∧ t'.active = t.active ++ [(t'.buf c).body.command]) := by
  have linked : Chain t.next (t.buf b).qnext rest := chain.2
  have links : ∀ u : Ide.State, u.buf = upd t.buf b { t.buf b with body := x } → u.next = t.next := by
    intro u bufs
    have same : u.next = (t.setBuf b { t.buf b with body := x }).next := by
      funext c
      unfold Ide.State.next Ide.State.setBuf
      rw [bufs]
    exact same.trans (Ide.setBuf_next t b _ rfl)
  unfold finish at finished
  dsimp only [Ide.State.setBody, Ide.State.setBuf, Ide.State.wakeup] at finished
  cases rest with
  | nil =>
    have ended : (t.buf b).qnext = none := linked
    split at finished
    · cases finished
      exact ⟨rfl, links _ rfl, ended, rfl, rfl, .inl ⟨rfl, rfl⟩⟩
    next c another =>
      rw [ended] at another
      cases another
  | cons c more =>
    have follows : (t.buf b).qnext = some c := linked.1
    split at finished
    next none_ =>
      rw [follows] at none_
      cases none_
    next c' second =>
      rw [follows] at second
      cases second
      unfold Ide.State.idestart at finished
      split at finished
      · cases finished
      · cases finished
        refine ⟨rfl, links _ rfl, ?_, rfl, rfl, .inr ⟨c, more, rfl, rfl⟩⟩
        rw [links _ rfl]
        exact ⟨follows, linked.2⟩

theorem ideintr_cases (driver : Driver seen s ghosts queue) {found : Option (Nat × Outcome)} (ran : s.ideintr = .ok found s') :
    ∃ r rest, queue = r :: rest ∧ found = some (r.2.b, outcome (s.body r.2.b).dirty s.error) ∧
      seen.place = (if s.error then none else some ((s.body r.2.b).unit, (s.body r.2.b).blockno)) ∧
      (∀ c, s'.body c = if c = r.2.b then Body.served (s.body r.2.b) s.error s.ide.port else s.body c) ∧ s'.owner = s.owner ∧
      s'.refcnt = s.refcnt ∧ s'.next = s.next ∧ s'.prev = s.prev ∧ s'.ide.disk = s.ide.disk ∧
      Chain s'.ide.next s'.ide.idequeue (rest.map fun r => r.2.b) ∧ s'.ide.raised = 0 ∧
      ((rest = [] ∧ s'.ide.active = []) ∨ ∃ r' more, rest = r' :: more ∧ s'.ide.active = [(s'.body r'.2.b).command]) := by
  have progress := driver.progress
  have chain := driver.chain
  unfold State.ideintr at ran
  cases progress with
  | idle _ zero =>
    rw [if_pos zero] at ran
    cases ran
  | busy _ _ _ zero =>
    rw [if_pos zero] at ran
    cases ran
  | ready r rest nothing one place =>
    rw [if_neg (by rw [one]; decide)] at ran
    dsimp only at ran
    have first : s.ide.idequeue = some r.2.b := chain.1
    rw [first] at ran
    dsimp only at ran
    split at ran
    case h_1 _ ide finished =>
      cases ran
      have chain' : Chain ({ s.ide with raised := s.ide.raised - 1 } : Ide.State).next s.ide.idequeue
          (r.2.b :: rest.map fun r => r.2.b) := chain
      obtain ⟨bufs, next, linked, raised, disk, active⟩ := finish_spec chain' finished
      refine ⟨r, rest, rfl, rfl, place, fun c => ?_, funext fun c => ?_, rfl, rfl, rfl, disk, linked, ?_, ?_⟩
      · show (ide.buf c).body = _
        rw [bufs]
        by_cases here : c = r.2.b
        · rw [here, upd_self, if_pos rfl]
        · rw [upd_ne here, if_neg here]
          rfl
      · show (ide.buf c).owner = _
        rw [bufs]
        by_cases here : c = r.2.b
        · rw [here, upd_self]
          rfl
        · rw [upd_ne here]
          rfl
      · show ide.raised = 0
        rw [raised, one]
      · rcases active with ⟨last, same⟩ | ⟨c, more, split, started⟩
        · exact .inl ⟨List.map_eq_nil_iff.mp last, same.trans nothing⟩
        · cases rest with
          | nil => cases split
          | cons r' more' =>
            cases split
            refine .inr ⟨r', more', rfl, ?_⟩
            show ide.active = _
            rw [started]
            show s.ide.active ++ _ = _
            rw [nothing]
            rfl
    case h_2 => cases ran
    case h_3 => cases ran

theorem loaded_served {found : Option (Nat × Outcome)} {x : Body} {error : Bool} (port : Block)
    (result : found = some (b, outcome x.dirty error)) (place : seen.place = if error then none else some (x.unit, x.blockno))
    (dirty : x.dirty = true → x.valid = true) (before : seen.loaded b = Body.source x) (fine : failedRead ⟨p, .intr, found, s, s'⟩ = false) :
    (seen.after ⟨p, .intr, found, s, s'⟩).loaded = upd seen.loaded b (Body.source (Body.served x error port)) := by
  have target : Body.source (Body.served x error port) = some (x.unit, x.blockno) := rfl
  rw [target, result]
  rw [result] at fine
  unfold outcome at fine ⊢
  cases marked : x.dirty with
  | true =>
    cases error with
    | true =>
      have same : seen.loaded b = some (x.unit, x.blockno) := by
        rw [before]
        exact if_pos (dirty marked)
      rw [← same, upd_same]
      rfl
    | false =>
      rw [if_neg Bool.false_ne_true] at place
      rw [← place]
      rfl
  | false =>
    cases error with
    | true =>
      rw [marked] at fine
      cases fine
    | false =>
      rw [if_neg Bool.false_ne_true] at place
      rw [← place]
      rfl

theorem driver_intr (holders : Holders s ghosts) (driver : Driver seen s ghosts queue) {found : Option (Nat × Outcome)}
    (ran : s.ideintr = .ok found s') (fine : failedRead ⟨p, .intr, found, s, s'⟩ = false) :
    ∃ queue', Driver (seen.after ⟨p, .intr, found, s, s'⟩) s' ghosts queue' := by
  obtain ⟨r, rest, rfl, result, place, bodies, -, -, -, -, -, chain, raised, active⟩ := ideintr_cases driver ran
  obtain ⟨phase, busy⟩ := driver.queued r List.mem_cons_self
  obtain ⟨apart, nodup⟩ := List.nodup_cons.mp driver.nodup
  have elsewhere : ∀ r' ∈ rest, r'.2.b ≠ r.2.b := fun r' member same => apart (List.mem_map.mpr ⟨r', member, same⟩)
  have done : (s'.body r.2.b).done = true := by
    rw [bodies, if_pos rfl]
    rfl
  refine ⟨rest, ⟨fun q h mine => ?_, fun q h is => ?_, fun q h is => ?_, fun r' member => ?_, chain, nodup, ?_, fun c dirty => ?_, fun c => ?_⟩⟩
  · rw [bodies]
    split
    · rfl
    · exact driver.ready q h mine
  · have other : h.b ≠ r.2.b := by
      intro same
      have here := owner_unique holders (locks_of_starting is) (locks_of_waiting phase) same
      rw [here, phase] at is
      cases is
    rw [bodies, if_neg other]
    exact driver.starting q h is
  · by_cases here : h.b = r.2.b
    · rw [here]
      exact .inr done
    · rw [bodies, if_neg here]
      rcases driver.waiting q h is with member | ended
      · rcases List.mem_cons.mp member with first | later
        · exact absurd (congrArg (fun r => r.2.b) first) here
        · exact .inl later
      · exact .inr ended
  · rw [bodies, if_neg (elsewhere r' member)]
    exact driver.queued r' (List.mem_cons_of_mem r member)
  · rcases active with ⟨rfl, nothing⟩ | ⟨r', more, rfl, one⟩
    · exact .idle nothing raised
    · exact .busy r' more one raised
  · rw [bodies] at dirty ⊢
    split at dirty
    · cases dirty
    · rename_i other
      rw [if_neg other]
      exact driver.dirty c dirty
  · rw [loaded_served s.ide.port result place (driver.dirty r.2.b) (driver.loaded r.2.b) fine, bodies]
    by_cases here : c = r.2.b
    · rw [here, upd_self, if_pos rfl]
    · rw [upd_ne here, if_neg here]
      exact driver.loaded c

end

end Xv6.Bio
