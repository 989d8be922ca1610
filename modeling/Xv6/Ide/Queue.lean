import Xv6.Ide.Steps

set_option autoImplicit false

namespace Xv6.Ide

structure Request where
  pid : Nat
  b : Nat
  entry : Body

structure Finished where
  request : Request
  before : Nat → Nat → Block
  after : Nat → Nat → Block
  result : Body

def Request.effect (r : Request) (disk : Nat → Nat → Block) : Nat → Nat → Block :=
  if r.entry.dirty then upd disk r.entry.unit (upd (disk r.entry.unit) r.entry.blockno r.entry.data) else disk

-- The disk block was overwritten if and only if the buffer was dirty.
structure Finished.Ok (f : Finished) : Prop where
  effect : f.after = f.request.effect f.before
  done : f.result.done = true
  place : f.result.unit = f.request.entry.unit ∧ f.result.blockno = f.request.entry.blockno
  data : f.result.data = f.after f.result.unit f.result.blockno
  kept : f.request.entry.dirty = true → f.result.data = f.request.entry.data

def requestOf : Ev → Option Request
  | { act := .enqueue p b, pre := s, .. } => some ⟨p, b, (s.buf b).body⟩
  | _ => none

def commandOf : Ev → Option ((Nat → Nat → Block) × (Nat → Nat → Block))
  | { act := .complete, pre := s, post := s', .. } => some (s.disk, s'.disk)
  | _ => none

def handledOf : Ev → Option (Nat × Body)
  | { act := .intr, res := some b, post := s', .. } => some (b, (s'.buf b).body)
  | _ => none

def returnOf : Ev → Option (Nat × Nat)
  | { act := .enqueue p b, res := true, .. } => some (p, b)
  | { act := .wait p b, res := true, .. } => some (p, b)
  | _ => none

def requests (trace : List Ev) : List Request := trace.filterMap requestOf

def commands (trace : List Ev) : List ((Nat → Nat → Block) × (Nat → Nat → Block)) := trace.filterMap commandOf

def handled (trace : List Ev) : List (Nat × Body) := trace.filterMap handledOf

inductive Phase where
  | out
  | checked (b : Nat)
  | waiting (b : Nat)

def Finished.disks (f : Finished) : (Nat → Nat → Block) × (Nat → Nat → Block) := (f.before, f.after)

def Finished.outcome (f : Finished) : Nat × Body := (f.request.b, f.result)

def Request.Spares (r : Request) (x : Body) : Prop :=
  r.entry.dirty = false ∨ r.entry.unit ≠ x.unit ∨ r.entry.blockno ≠ x.blockno

-- Nothing to do, or the first request's command in progress, or its interrupt raised.
inductive Progress (s : State) (done : List Finished) (commands : List ((Nat → Nat → Block) × (Nat → Nat → Block))) :
    List Request → Prop where
  | idle (active : s.active = []) (raised : s.raised = 0) (past : commands = done.map Finished.disks) : Progress s done commands []
  | busy (r : Request) (rest : List Request) (active : s.active = [r.entry.command]) (raised : s.raised = 0)
      (past : commands = done.map Finished.disks) : Progress s done commands (r :: rest)
  | ready (r : Request) (rest : List Request) (before : Nat → Nat → Block) (active : s.active = []) (raised : s.raised = 1)
      (past : commands = done.map Finished.disks ++ [(before, s.disk)]) (effect : s.disk = r.effect before)
      (port : r.entry.dirty = false → s.port = s.disk r.entry.unit r.entry.blockno) : Progress s done commands (r :: rest)

structure Served (s : State) (done : List Finished) (pending : List Request) (p b : Nat) : Prop where
  last : ∃ xs f ys, done = xs ++ f :: ys ∧ f.request.pid = p ∧ f.request.b = b ∧ (∀ g ∈ ys, g.request.pid ≠ p) ∧
    (s.buf b).body = f.result ∧
    ((∀ g ∈ ys, g.request.Spares f.result) → (∀ r ∈ pending, r.Spares f.result) →
      s.disk f.result.unit f.result.blockno = f.result.data)
  none_ : ∀ r ∈ pending, r.pid ≠ p
  owner : (s.buf b).owner = some p

structure Inv (trace : List Ev) (s : State) (ghosts : Nat → Phase) (done : List Finished) (pending : List Request) : Prop where
  all : requests trace = done.map Finished.request ++ pending
  past : handled trace = done.map Finished.outcome
  fine : ∀ f ∈ done, f.Ok
  chain : Chain s.next s.idequeue (pending.map Request.b)
  nodup : (pending.map Request.b).Nodup
  small : ∀ r ∈ pending, r.b < nbuf
  held : ∀ r ∈ pending, (s.buf r.b).body = r.entry ∧ r.entry.done = false ∧ (s.buf r.b).owner = some r.pid ∧
    ghosts r.pid = .waiting r.b
  progress : Progress s done (commands trace) pending
  checked : ∀ p b, ghosts p = .checked b → (s.buf b).owner = some p ∧ (s.buf b).body.done = false ∧ b < nbuf
  waits : ∀ p b, ghosts p = .waiting b → (∃ r ∈ pending, r.pid = p ∧ r.b = b) ∨ Served s done pending p b

section

variable {trace : List Ev} {e : Ev} {s s' : State} {ghosts : Nat → Phase} {done : List Finished} {pending : List Request} {p b : Nat}

theorem requests_snoc : requests (trace ++ [e]) = requests trace ++ (requestOf e).toList := by
  rw [requests, List.filterMap_append, requests]
  cases found : requestOf e <;> simp [found]

theorem commands_snoc : commands (trace ++ [e]) = commands trace ++ (commandOf e).toList := by
  rw [commands, List.filterMap_append, commands]
  cases found : commandOf e <;> simp [found]

theorem handled_snoc : handled (trace ++ [e]) = handled trace ++ (handledOf e).toList := by
  rw [handled, List.filterMap_append, handled]
  cases found : handledOf e <;> simp [found]

structure Frame (s s' : State) (ghosts : Nat → Phase) : Prop where
  queue : s'.idequeue = s.idequeue
  next : s'.next = s.next
  disk : s'.disk = s.disk
  active : s'.active = s.active
  raised : s'.raised = s.raised
  port : s'.port = s.port
  bufs : ∀ p b, ghosts p ≠ .out → (s.buf b).owner = some p → s'.buf b = s.buf b

theorem progress_frame {commands : List ((Nat → Nat → Block) × (Nat → Nat → Block))} (disk : s'.disk = s.disk)
    (active : s'.active = s.active) (raised : s'.raised = s.raised) (port : s'.port = s.port)
    (progress : Progress s done commands pending) : Progress s' done commands pending := by
  cases progress with
  | idle none_ quiet past => exact .idle (active.trans none_) (raised.trans quiet) past
  | busy r rest one quiet past => exact .busy r rest (active.trans one) (raised.trans quiet) past
  | ready r rest before none_ one past effect ready =>
    refine .ready r rest before (active.trans none_) (raised.trans one) ?_ (disk.trans effect) fun clean => ?_
    · rw [disk]
      exact past
    · rw [port, disk]
      exact ready clean

section

variable (inv : Inv trace s ghosts done pending)
include inv

theorem inv_frame (frame : Frame s s' ghosts) (noRequest : requestOf e = none)
    (noCommand : commandOf e = none) (noHandler : handledOf e = none) : Inv (trace ++ [e]) s' ghosts done pending := by
  have keeps : ∀ r ∈ pending, s'.buf r.b = s.buf r.b := by
    intro r member
    obtain ⟨-, -, owner, waiting⟩ := inv.held r member
    exact frame.bufs r.pid r.b (fun out => by rw [out] at waiting; cases waiting) owner
  refine ⟨?_, ?_, inv.fine, ?_, inv.nodup, inv.small, fun r member => ?_, ?_, fun p b is => ?_, fun p b is => ?_⟩
  · rw [requests_snoc, noRequest, Option.toList_none, List.append_nil]
    exact inv.all
  · rw [handled_snoc, noHandler, Option.toList_none, List.append_nil]
    exact inv.past
  · rw [frame.next, frame.queue]
    exact inv.chain
  · rw [keeps r member]
    exact inv.held r member
  · rw [commands_snoc, noCommand, Option.toList_none, List.append_nil]
    exact progress_frame frame.disk frame.active frame.raised frame.port inv.progress
  · have before := inv.checked p b is
    rw [frame.bufs p b (fun out => by rw [out] at is; cases is) before.1]
    exact before
  · rcases inv.waits p b is with queued | served
    · exact .inl queued
    · have same := frame.bufs p b (fun out => by rw [out] at is; cases is) served.owner
      refine .inr ⟨?_, served.none_, by rw [same]; exact served.owner⟩
      rw [same, frame.disk]
      exact served.last

theorem inv_phase (none_ : ∀ r ∈ pending, r.pid ≠ p) {g : Phase}
    (checked : ∀ b, g = .checked b → (s.buf b).owner = some p ∧ (s.buf b).body.done = false ∧ b < nbuf)
    (leaves : ∀ b, g ≠ .waiting b) : Inv trace s (upd ghosts p g) done pending := by
  refine ⟨inv.all, inv.past, inv.fine, inv.chain, inv.nodup, inv.small, fun r member => ?_, inv.progress, fun q b is => ?_,
    fun q b is => ?_⟩
  · rw [upd_ne (none_ r member)]
    exact inv.held r member
  · by_cases here : q = p
    · rw [here, upd_self] at is
      rw [here]
      exact checked b is
    · rw [upd_ne here] at is
      exact inv.checked q b is
  · by_cases here : q = p
    · rw [here, upd_self] at is
      exact absurd is (leaves b)
    · rw [upd_ne here] at is
      exact inv.waits q b is

theorem not_pending (other : ∀ b, ghosts p ≠ .waiting b) : ∀ r ∈ pending, r.pid ≠ p := by
  intro r member same
  have waiting := (inv.held r member).2.2.2
  rw [same] at waiting
  exact other r.b waiting

theorem not_queued (owner : (s.buf b).owner = some p) (other : ∀ b, ghosts p ≠ .waiting b) :
    ∀ r ∈ pending, r.b ≠ b := by
  intro r member same
  obtain ⟨-, -, holder, -⟩ := inv.held r member
  rw [same, owner] at holder
  exact not_pending inv other r member (Option.some.inj holder).symm

end

theorem frame_setBuf (x : DiskBuf) (same : x.qnext = (s.buf b).qnext)
    (free : ∀ p, ghosts p ≠ .out → (s.buf b).owner ≠ some p) : Frame s (s.setBuf b x) ghosts := by
  refine ⟨rfl, setBuf_next s b x same, rfl, rfl, rfl, rfl, fun p c inside owner => setBuf_ne _ _ fun here => ?_⟩
  rw [here] at owner
  exact free p inside owner

theorem lock_frame (taken : Act.exec (.lock p b) s = .ok () s') : Frame s s' ghosts := by
  rw [Act.exec] at taken
  split at taken
  case isTrue free =>
    cases taken
    refine frame_setBuf _ rfl fun q _ owner => ?_
    rw [free] at owner
    cases owner
  case isFalse => cases taken

theorem unlock_frame (out : ghosts p = .out) (taken : Act.exec (.unlock p b) s = .ok () s') : Frame s s' ghosts := by
  rw [Act.exec] at taken
  split at taken
  case isTrue holder =>
    cases taken
    refine frame_setBuf _ rfl fun q inside owner => ?_
    rw [holder] at owner
    cases owner
    exact inside out
  case isFalse => cases taken

theorem edit_frame {x : Body} (out : ghosts p = .out) (taken : Act.exec (.edit p b x) s = .ok () s') : Frame s s' ghosts := by
  rw [Act.exec] at taken
  split at taken
  case isTrue holder =>
    cases taken
    refine frame_setBuf _ rfl fun q inside owner => ?_
    rw [holder] at owner
    cases owner
    exact inside out
  case isFalse => cases taken

theorem kill_frame {q : Nat} (taken : Act.exec (.kill q) s = .ok () s') : Frame s s' ghosts := by
  cases taken
  exact ⟨rfl, rfl, rfl, rfl, rfl, rfl, fun _ _ _ _ => rfl⟩

theorem frame_refl (s : State) : Frame s s ghosts := ⟨rfl, rfl, rfl, rfl, rfl, rfl, fun _ _ _ _ => rfl⟩

theorem check_spec (taken : Act.exec (.check p b) s = .ok () s') :
    s' = s ∧ (s.buf b).owner = some p ∧ (s.buf b).body.done = false := by
  rw [Act.exec] at taken
  split at taken
  · cases taken
  next holder =>
    split at taken
    · cases taken
    next busy =>
      split at taken
      · cases taken
      · cases taken
        exact ⟨rfl, not_not.mp holder, Bool.not_eq_true _ ▸ busy⟩

theorem inv_append (inv : Inv trace s ghosts done pending) (phase : ghosts p = .checked b) {returned : Bool}
    (chain : Chain s'.next s'.idequeue (pending.map Request.b ++ [b])) (disk : s'.disk = s.disk) (raised : s'.raised = s.raised)
    (port : s'.port = s.port)
    (active : (pending = [] ∧ s'.active = s.active ++ [(s.buf b).body.command]) ∨ (pending ≠ [] ∧ s'.active = s.active))
    (fields : ∀ c, (s'.buf c).body = (s.buf c).body ∧ (s'.buf c).owner = (s.buf c).owner) :
    Inv (trace ++ [⟨p, .enqueue p b, returned, s, s'⟩]) s' (upd ghosts p (.waiting b)) done
      (pending ++ [⟨p, b, (s.buf b).body⟩]) := by
  obtain ⟨owner, busy, small⟩ := inv.checked p b phase
  have notWaiting : ∀ c, ghosts p ≠ .waiting c := fun c never => by rw [phase] at never; cases never
  have absent := not_queued inv owner notWaiting
  have others := not_pending inv notWaiting
  refine ⟨?_, ?_, inv.fine, ?_, ?_, fun r member => ?_, fun r member => ?_, ?_, fun q c is => ?_, fun q c is => ?_⟩
  · rw [requests_snoc, inv.all, List.append_assoc]
    rfl
  · rw [handled_snoc, inv.past]
    exact List.append_nil _
  · rw [List.map_append]
    exact chain
  · rw [List.map_append, List.nodup_append]
    refine ⟨inv.nodup, List.pairwise_singleton _ _, fun c member d last same => ?_⟩
    obtain ⟨r, queued, rfl⟩ := List.mem_map.mp member
    exact absent r queued (same.trans (List.mem_singleton.mp last))
  · rcases List.mem_append.mp member with old | new
    · exact inv.small r old
    · rw [List.mem_singleton.mp new]
      exact small
  · rw [(fields r.b).1, (fields r.b).2]
    rcases List.mem_append.mp member with old | new
    · rw [upd_ne (others r old)]
      exact inv.held r old
    · rw [List.mem_singleton.mp new]
      exact ⟨rfl, busy, owner, upd_self _ _ _⟩
  · rw [commands_snoc]
    refine progress_frame (s := { s with active := s'.active }) disk rfl raised port ?_
    have none_ : (commandOf ⟨p, .enqueue p b, returned, s, s'⟩).toList = [] := rfl
    rw [none_, List.append_nil]
    have progress := inv.progress
    rcases active with ⟨rfl, start⟩ | ⟨some_, same⟩
    · cases progress with
      | idle nothing quiet past =>
        refine .busy _ [] ?_ quiet past
        dsimp only
        rw [start, nothing]
        rfl
    · cases progress with
      | idle => exact absurd rfl some_
      | busy r rest one quiet past => exact .busy r _ (same.trans one) quiet past
      | ready r rest before nothing one past effect ready => exact .ready r _ before (same.trans nothing) one past effect ready
  · by_cases here : q = p
    · rw [here, upd_self] at is
      cases is
    · rw [upd_ne here] at is
      rw [(fields c).1, (fields c).2]
      exact inv.checked q c is
  · by_cases here : q = p
    · rw [here, upd_self] at is
      cases is
      exact .inl ⟨_, List.mem_append_right _ List.mem_cons_self, here.symm, rfl⟩
    · rw [upd_ne here] at is
      rcases inv.waits q c is with ⟨r, queued, facts⟩ | served
      · exact .inl ⟨r, List.mem_append_left _ queued, facts⟩
      · refine .inr ⟨?_, fun r member => ?_, ?_⟩
        · obtain ⟨xs, f, ys, split, pid, buf, later, body, current⟩ := served.last
          refine ⟨xs, f, ys, split, pid, buf, later, (fields c).1.trans body, fun spared spared' => ?_⟩
          rw [disk]
          exact current spared fun r queued => spared' r (List.mem_append_left _ queued)
        · rcases List.mem_append.mp member with old | new
          · exact served.none_ r old
          · rw [List.mem_singleton.mp new]
            exact Ne.symm here
        · rw [(fields c).2]
          exact served.owner

theorem enqueue_spec (inv : Inv trace s ghosts done pending) (phase : ghosts p = .checked b) {returned : Bool}
    (queued : s.enqueue p b = .ok returned s') :
    returned = false ∧ Inv (trace ++ [⟨p, .enqueue p b, returned, s, s'⟩]) s' (upd ghosts p (.waiting b)) done
      (pending ++ [⟨p, b, (s.buf b).body⟩]) := by
  obtain ⟨owner, busy, small⟩ := inv.checked p b phase
  have notWaiting : ∀ c, ghosts p ≠ .waiting c := fun c never => by rw [phase] at never; cases never
  have absent : b ∉ pending.map Request.b := by
    intro member
    obtain ⟨r, inside, same⟩ := List.mem_map.mp member
    exact not_queued inv owner notWaiting r inside same
  have bounded : ∀ c ∈ pending.map Request.b, c < nbuf := by
    intro c member
    obtain ⟨r, inside, rfl⟩ := List.mem_map.mp member
    exact inv.small r inside
  obtain ⟨result, chain, disk, raised, port, active, fields⟩ := enqueue_cases inv.chain inv.nodup bounded absent queued
  rw [List.map_eq_nil_iff, ne_eq, List.map_eq_nil_iff] at active
  exact ⟨result.trans busy, inv_append inv phase chain disk raised port active fields⟩

theorem effect_spares {r : Request} {x : Body} (spares : r.Spares x) (disk : Nat → Nat → Block) :
    r.effect disk x.unit x.blockno = disk x.unit x.blockno := by
  unfold Request.effect
  rcases spares with clean | unit | sector
  · rw [clean, if_neg (by decide)]
  · split
    · rw [upd_ne (Ne.symm unit)]
    · rfl
  · split
    · by_cases same : x.unit = r.entry.unit
      · rw [same, upd_self, upd_ne (Ne.symm sector)]
      · rw [upd_ne same]
    · rfl

theorem complete_spec (inv : Inv trace s ghosts done pending) (completed : s.complete = .ok () s') :
    Inv (trace ++ [⟨p, .complete, (), s, s'⟩]) s' ghosts done pending := by
  have progress := inv.progress
  unfold State.complete at completed
  cases progress with
  | idle nothing _ _ =>
    rw [nothing] at completed
    cases completed
  | ready _ _ _ nothing _ _ _ _ =>
    rw [nothing] at completed
    cases completed
  | busy r rest one quiet past =>
    rw [one] at completed
    dsimp only at completed
    have after : s'.buf = s.buf ∧ s'.idequeue = s.idequeue ∧ s'.active = [] ∧ s'.raised = 1 ∧ s'.disk = r.effect s.disk ∧
        (r.entry.dirty = false → s'.port = s'.disk r.entry.unit r.entry.blockno) := by
      split at completed
      case isTrue write =>
        have dirty : r.entry.dirty = true := write
        cases completed
        refine ⟨rfl, rfl, rfl, by dsimp only; rw [quiet], ?_, fun clean => by rw [dirty] at clean; cases clean⟩
        rw [Request.effect, if_pos dirty, Body.command, if_pos dirty]
      case isFalse read =>
        have clean : r.entry.dirty = false := Bool.not_eq_true _ ▸ read
        cases completed
        refine ⟨rfl, rfl, rfl, by dsimp only; rw [quiet], ?_, fun _ => rfl⟩
        rw [Request.effect, clean, if_neg (by decide)]
    obtain ⟨bufs, queue, active, raised, disk, port⟩ := after
    refine ⟨?_, ?_, inv.fine, ?_, inv.nodup, inv.small, ?_, ?_, ?_, fun q c is => ?_⟩
    · rw [requests_snoc, inv.all]
      exact List.append_nil _
    · rw [handled_snoc, inv.past]
      exact List.append_nil _
    · have next : s'.next = s.next := by
        funext c
        unfold State.next
        rw [bufs]
      rw [next, queue]
      exact inv.chain
    · rw [bufs]
      exact inv.held
    · rw [commands_snoc, past]
      exact .ready r rest s.disk active raised rfl disk port
    · rw [bufs]
      exact inv.checked
    · rcases inv.waits q c is with queued | served
      · exact .inl queued
      · refine .inr ⟨?_, served.none_, by rw [bufs]; exact served.owner⟩
        obtain ⟨xs, f, ys, split, pid, buf, later, body, current⟩ := served.last
        refine ⟨xs, f, ys, split, pid, buf, later, by rw [bufs]; exact body, fun spared spared' => ?_⟩
        rw [disk, effect_spares (spared' r List.mem_cons_self)]
        exact current spared spared'

def Request.result (r : Request) (port : Block) : Body :=
  { r.entry with valid := true, dirty := false, data := if r.entry.dirty then r.entry.data else port }

theorem finished_ok {r : Request} {before disk : Nat → Nat → Block} {port : Block} (effect : disk = r.effect before)
    (ready : r.entry.dirty = false → port = disk r.entry.unit r.entry.blockno) : Finished.Ok ⟨r, before, disk, r.result port⟩ := by
  refine ⟨effect, rfl, ⟨rfl, rfl⟩, ?_, fun dirty => if_pos dirty⟩
  have place : (r.result port).unit = r.entry.unit ∧ (r.result port).blockno = r.entry.blockno := ⟨rfl, rfl⟩
  dsimp only
  rw [place.1, place.2]
  cases clean : r.entry.dirty with
  | true =>
    have data : (r.result port).data = r.entry.data := if_pos clean
    rw [data, effect, Request.effect, if_pos clean, upd_self, upd_self]
  | false =>
    have data : (r.result port).data = port := if_neg (by rw [clean]; decide)
    rw [data]
    exact ready clean

theorem ideintr_spec {r : Request} {rest : List Request} {found : Option Nat} (raised : s.raised = 1) (active : s.active = [])
    (chain : Chain s.next s.idequeue ((r :: rest).map Request.b)) (body : (s.buf r.b).body = r.entry)
    (handled_ : s.ideintr = .ok found s') :
    found = some r.b ∧ s'.idequeue = (s.buf r.b).qnext ∧ s'.disk = s.disk ∧ s'.port = s.port ∧ s'.raised = 0 ∧
      (s'.buf r.b).body = r.result s.port ∧ (s'.buf r.b).owner = (s.buf r.b).owner ∧ s'.next = s.next ∧
      (∀ c, c ≠ r.b → s'.buf c = s.buf c) ∧
      ((rest = [] ∧ s'.active = []) ∨ ∃ r' more, rest = r' :: more ∧ s'.active = [(s'.buf r'.b).body.command]) := by
  have queue : s.idequeue = some r.b := chain.1
  have next : Chain s.next (s.buf r.b).qnext (rest.map Request.b) := chain.2
  unfold State.ideintr at handled_
  rw [raised, if_neg (by decide)] at handled_
  dsimp only at handled_
  rw [queue] at handled_
  dsimp only at handled_
  have frames : ∀ t : State, t.buf = upd s.buf r.b { s.buf r.b with body := r.result s.port } →
      (t.buf r.b).body = r.result s.port ∧ (t.buf r.b).owner = (s.buf r.b).owner ∧ t.next = s.next ∧
        ∀ c, c ≠ r.b → t.buf c = s.buf c := by
    intro t bufs
    have same : t.next = (s.setBuf r.b { s.buf r.b with body := r.result s.port }).next := by
      funext c
      unfold State.next State.setBuf
      rw [bufs]
    refine ⟨by rw [bufs, upd_self], by rw [bufs, upd_self], same.trans (setBuf_next s r.b _ rfl), fun c other => ?_⟩
    rw [bufs, upd_ne other]
  have result : ({ (s.buf r.b).body with
      valid := true, dirty := false, data := if (s.buf r.b).body.dirty then (s.buf r.b).body.data else s.port } : Body) =
      r.result s.port := by
    rw [body]
    rfl
  dsimp only [State.setBody, State.setBuf, State.wakeup] at handled_
  rw [result] at handled_
  cases rest with
  | nil =>
    have ended : (s.buf r.b).qnext = none := next
    split at handled_
    · cases handled_
      obtain ⟨body', owner', next', others⟩ := frames
        { s with
          raised := 1 - 1, idequeue := (s.buf r.b).qnext, buf := upd s.buf r.b { s.buf r.b with body := r.result s.port } } rfl
      exact ⟨rfl, rfl, rfl, rfl, rfl, body', owner', next', others, .inl ⟨rfl, active⟩⟩
    next c more =>
      rw [ended] at more
      cases more
  | cons r' more =>
    have follows : (s.buf r.b).qnext = some r'.b := next.1
    split at handled_
    next none_ =>
      rw [follows] at none_
      cases none_
    next c second =>
      rw [follows] at second
      cases second
      unfold State.idestart at handled_
      split at handled_
      next s₂ start =>
        split at start
        · cases start
        · cases start
          cases handled_
          obtain ⟨body', owner', next', others⟩ := frames
            { s with
              raised := 1 - 1, idequeue := (s.buf r.b).qnext
              buf := upd s.buf r.b { s.buf r.b with body := r.result s.port } } rfl
          refine ⟨rfl, rfl, rfl, rfl, rfl, body', owner', next', others, .inr ⟨r', more, rfl, ?_⟩⟩
          dsimp only
          rw [active]
          rfl
      · cases handled_
      · cases handled_

theorem intr_spec (inv : Inv trace s ghosts done pending) {found : Option Nat} (ran : s.ideintr = .ok found s') :
    ∃ done' pending', Inv (trace ++ [⟨p, .intr, found, s, s'⟩]) s' ghosts done' pending' := by
  have progress := inv.progress
  have quiet : s.raised ≠ 0 := by
    intro zero
    unfold State.ideintr at ran
    rw [if_pos zero] at ran
    cases ran
  cases progress with
  | idle _ zero _ => exact absurd zero quiet
  | busy _ _ _ zero _ => exact absurd zero quiet
  | ready r rest before active raised past effect ready =>
    obtain ⟨body, -, owner, phase⟩ := inv.held r List.mem_cons_self
    obtain ⟨rfl, queue, disk, port, raised', body', owner', next', others, started⟩ :=
      ideintr_spec raised active inv.chain body ran
    obtain ⟨apart, nodup⟩ := List.nodup_cons.mp inv.nodup
    have elsewhere : ∀ r' ∈ rest, r'.b ≠ r.b := fun r' member same => apart (same ▸ List.mem_map_of_mem member)
    have ok := finished_ok effect ready
    refine ⟨done ++ [⟨r, before, s.disk, r.result s.port⟩], rest, ?_, ?_, fun f member => ?_, ?_, nodup,
      fun r' member => inv.small r' (List.mem_cons_of_mem _ member), fun r' member => ?_, ?_, fun q c is => ?_, fun q c is => ?_⟩
    · have none_ : (requestOf ⟨p, .intr, some r.b, s, s'⟩).toList = [] := rfl
      rw [requests_snoc, inv.all, none_, List.append_nil, List.map_append, List.append_assoc]
      rfl
    · have last : handledOf ⟨p, .intr, some r.b, s, s'⟩ = some (r.b, r.result s.port) := by
        rw [handledOf, body']
      rw [handled_snoc, inv.past, last, List.map_append]
      rfl
    · rcases List.mem_append.mp member with old | new
      · exact inv.fine f old
      · rw [List.mem_singleton.mp new]
        exact ok
    · rw [next', queue]
      exact inv.chain.2
    · rw [others r'.b (elsewhere r' member)]
      exact inv.held r' (List.mem_cons_of_mem _ member)
    · have none_ : (commandOf ⟨p, .intr, some r.b, s, s'⟩).toList = [] := rfl
      have past' : commands trace = (done ++ [(⟨r, before, s.disk, r.result s.port⟩ : Finished)]).map Finished.disks := by
        rw [past, List.map_append]
        rfl
      rw [commands_snoc, none_, List.append_nil]
      rcases started with ⟨rfl, nothing⟩ | ⟨r', more, rfl, one⟩
      · exact .idle nothing raised' past'
      · have body₂ := (inv.held r' (List.mem_cons_of_mem _ List.mem_cons_self)).1
        rw [others r'.b (elsewhere r' List.mem_cons_self), body₂] at one
        exact .busy r' more one raised' past'
    · have before_ := inv.checked q c is
      have other : c ≠ r.b := by
        intro same
        rw [same, owner] at before_
        have pid := Option.some.inj before_.1
        rw [pid, is] at phase
        cases phase
      rw [others c other]
      exact before_
    · have here : q = r.pid → c = r.b → Served s' (done ++ [⟨r, before, s.disk, r.result s.port⟩]) rest q c := by
        rintro rfl rfl
        refine ⟨⟨done, _, [], rfl, rfl, rfl, nofun, body', fun _ _ => ?_⟩, fun r' member same => ?_,
          owner'.trans owner⟩
        · rw [disk]
          exact ok.data.symm
        · have waiting := (inv.held r' (List.mem_cons_of_mem _ member)).2.2.2
          rw [same, phase] at waiting
          exact elsewhere r' member (Phase.waiting.inj waiting).symm
      rcases inv.waits q c is with ⟨r', member, pid, buf⟩ | served
      · rcases List.mem_cons.mp member with rfl | later
        · exact .inr (here pid.symm buf.symm)
        · exact .inl ⟨r', later, pid, buf⟩
      · have notFirst := served.none_ r List.mem_cons_self
        have other : c ≠ r.b := by
          intro same
          have holder := served.owner
          rw [same, owner] at holder
          exact notFirst (Option.some.inj holder)
        refine .inr ⟨?_, fun r' member => served.none_ r' (List.mem_cons_of_mem _ member), by rw [others c other]; exact served.owner⟩
        obtain ⟨xs, f, ys, split, pid, buf, later, body₁, current⟩ := served.last
        refine ⟨xs, f, ys ++ [⟨r, before, s.disk, r.result s.port⟩], ?_, pid, buf, fun g member => ?_, ?_, fun spared spared' => ?_⟩
        · rw [split, List.append_assoc]
          rfl
        · rcases List.mem_append.mp member with old | new
          · exact later g old
          · rw [List.mem_singleton.mp new]
            exact notFirst
        · rw [others c other]
          exact body₁
        · rw [disk]
          refine current (fun g member => spared g (List.mem_append_left _ member)) fun r' member => ?_
          rcases List.mem_cons.mp member with rfl | later'
          · exact spared _ (List.mem_append_right _ List.mem_cons_self)
          · exact spared' r' later'

end

def Returned (trace : List Ev) (s : State) (done : List Finished) (pending : List Request) : Prop :=
  ∀ before e p b, trace = before ++ [e] → returnOf e = some (p, b) → Served s done pending p b

def Holds (trace : List Ev) (s : State) (ghosts : Nat → Phase) : Prop :=
  ∃ done pending, Inv trace s ghosts done pending ∧ Returned trace s done pending

def Final : Task → Phase → Prop
  | .idle, g => g = .out
  | .waiting b, g => g = .waiting b

section

variable {trace : List Ev} {e : Ev} {s s' : State} {ghosts : Nat → Phase} {done : List Finished} {pending : List Request} {p b : Nat}

theorem returned_none (quiet : returnOf e = none) : Returned (trace ++ [e]) s' done pending := by
  intro before e' p b split returns
  have last := (List.append_inj' split rfl).2
  cases last
  rw [quiet] at returns
  cases returns

theorem holds_frame (holds : Holds trace s ghosts) (frame : Frame s s' ghosts) (noRequest : requestOf e = none)
    (noCommand : commandOf e = none) (noHandler : handledOf e = none) (quiet : returnOf e = none) : Holds (trace ++ [e]) s' ghosts := by
  obtain ⟨done, pending, inv, -⟩ := holds
  exact ⟨done, pending, inv_frame inv frame noRequest noCommand noHandler, returned_none quiet⟩

theorem single_safe {act : Act Unit}
    (keeps : ∀ trace s s' ghosts, ghosts p = .out → Holds trace s ghosts → act.exec s = .ok () s' →
      Holds (trace ++ [⟨p, act, (), s, s'⟩]) s' ghosts) :
    Safe Act.exec (fun _ => True) Holds p Final (single act) .out := by
  intro trace s ghosts out holds r s' executed _
  refine ⟨.out, ?_, rfl⟩
  rw [← out, upd_same]
  exact keeps trace s s' ghosts out holds executed

theorem interrupt_safe : Safe Act.exec (fun _ => True) Holds p Final interrupt .out := by
  intro trace s ghosts out holds r s' executed _
  refine ⟨.out, ?_, rfl⟩
  rw [← out, upd_same]
  obtain ⟨done, pending, inv, -⟩ := holds
  obtain ⟨done', pending', inv'⟩ := intr_spec (p := p) inv executed
  exact ⟨done', pending', inv', returned_none rfl⟩

theorem iderw_safe (small : b < nbuf) : Safe Act.exec (fun _ => True) Holds p Final (iderw p b) .out := by
  intro trace s ghosts out holds r s' executed _
  obtain ⟨rfl, owner, busy⟩ := check_spec executed
  obtain ⟨done, pending, inv, -⟩ := holds
  have none_ := not_pending (p := p) inv fun c never => by rw [out] at never; cases never
  have framed := inv_frame (e := ⟨p, .check p b, r, s', s'⟩) inv (frame_refl s') rfl rfl rfl
  have checked : Inv (trace ++ [⟨p, .check p b, r, s', s'⟩]) s' (upd ghosts p (.checked b)) done pending := by
    refine inv_phase framed none_ (fun c same => ?_) nofun
    cases same
    exact ⟨owner, busy, small⟩
  refine ⟨.checked b, ⟨done, pending, checked, returned_none rfl⟩, ?_⟩
  intro trace s ghosts phase holds returned s' executed _
  obtain ⟨done, pending, inv, -⟩ := holds
  obtain ⟨rfl, inv'⟩ := enqueue_spec inv phase executed
  exact ⟨.waiting b, ⟨_, _, inv', returned_none rfl⟩, rfl⟩

theorem iderwOn_safe : Safe Act.exec (fun _ => True) Holds p Final (iderwOn p b) (.waiting b) := by
  intro trace s ghosts phase holds returned s' executed _
  obtain ⟨done, pending, inv, -⟩ := holds
  have executed : Act.exec (.wait p b) s = .ok returned s' := executed
  rw [Act.exec] at executed
  split at executed
  case isFalse => cases executed
  case isTrue =>
    rcases test_spec executed with ⟨rfl, ended, rfl⟩ | ⟨rfl, -, rfl⟩
    · rcases inv.waits p b phase with ⟨r, member, -, rfl⟩ | served
      · obtain ⟨body, busy, -, -⟩ := inv.held r member
        rw [body, busy] at ended
        cases ended
      · have framed := inv_frame (e := ⟨p, .wait p b, true, s', s'⟩) inv (frame_refl s') rfl rfl rfl
        have left := inv_phase (g := .out) framed served.none_ nofun nofun
        refine ⟨.out, ⟨done, pending, left, fun before e q c split returns => ?_⟩, rfl⟩
        have last := (List.append_inj' split rfl).2
        cases last
        cases returns
        exact served
    · refine ⟨.waiting b, ?_, rfl⟩
      rw [← phase, upd_same]
      exact ⟨done, pending, inv_frame inv ⟨rfl, rfl, rfl, rfl, rfl, rfl, fun _ _ _ _ => rfl⟩ rfl rfl rfl, returned_none rfl⟩

theorem calls_safe {l : Task} {g : Phase} {prog : Prog Act Task} (final : Final l g) (call : Calls p l prog) :
    Safe Act.exec (fun _ => True) Holds p Final prog g := by
  cases call with
  | lock b =>
    cases final
    exact single_safe fun _ _ _ _ _ holds taken => holds_frame holds (lock_frame taken) rfl rfl rfl rfl
  | unlock b =>
    cases final
    exact single_safe fun _ _ _ _ out holds taken => holds_frame holds (unlock_frame out taken) rfl rfl rfl rfl
  | edit b x =>
    cases final
    exact single_safe fun _ _ _ _ out holds taken => holds_frame holds (edit_frame out taken) rfl rfl rfl rfl
  | iderw b small =>
    cases final
    exact iderw_safe small
  | wait b =>
    cases final
    exact iderwOn_safe
  | complete =>
    cases final
    refine single_safe fun _ _ _ _ _ holds taken => ?_
    obtain ⟨done, pending, inv, -⟩ := holds
    exact ⟨done, pending, complete_spec inv taken, returned_none rfl⟩
  | intr =>
    cases final
    exact interrupt_safe
  | kill q =>
    cases final
    exact single_safe fun _ _ _ _ _ holds taken => holds_frame holds (kill_frame taken) rfl rfl rfl rfl

end

theorem fresh_holds {start : Xv6.Config Act State Task} (fresh : Config.Fresh start) : Holds [] start.shared fun _ => .out := by
  refine ⟨[], [], ⟨rfl, rfl, nofun, fresh.queue, List.nodup_nil, nofun,
    nofun, .idle fresh.active fresh.raised rfl, nofun,
    nofun⟩, fun before e _ _ split => ?_⟩
  cases before <;> cases split

theorem reach_holds {start c : Xv6.Config Act State Task} {trace : List Ev} (fresh : Config.Fresh start)
    (reached : Reach Act.exec Calls (fun _ => True) start trace c) : ∃ ghosts, Holds trace c.shared ghosts := by
  obtain ⟨ghosts, holds, -⟩ := reach_invariant Final
    ⟨fun _ => .out, fresh_holds fresh, fun p => by rw [fresh.threads p]; exact rfl⟩
    (fun p l g prog final call => calls_safe final call) reached
  exact ⟨ghosts, holds⟩

-- At most one command is in progress, that of the oldest request; requests are handled in order, each
-- once, and leave their buffer valid, clean and equal to the disk block.
theorem requests_complete_in_order {start c : Xv6.Config Act State Task} {trace : List Ev} (fresh : Config.Fresh start)
    (reached : Reach Act.exec Calls (fun _ => True) start trace c) :
    ∃ done pending, Chain c.shared.next c.shared.idequeue (pending.map Request.b) ∧ (pending.map Request.b).Nodup ∧
      c.shared.active.length + c.shared.raised ≤ 1 ∧
      (∀ command ∈ c.shared.active, ∃ r rest, pending = r :: rest ∧ command = (c.shared.buf r.b).body.command) ∧
      requests trace = done.map Finished.request ++ pending ∧ handled trace = done.map Finished.outcome ∧
      (∃ last, commands trace = done.map Finished.disks ++ last ∧ last.length ≤ 1) ∧ (∀ f ∈ done, f.Ok) ∧
      ∀ before e p b, trace = before ++ [e] → returnOf e = some (p, b) →
        ∃ xs f ys, done = xs ++ f :: ys ∧ f.request.pid = p ∧ f.request.b = b ∧ (∀ g ∈ ys, g.request.pid ≠ p) ∧
          (∀ r ∈ pending, r.pid ≠ p) ∧ (c.shared.buf b).body = f.result ∧
          ((∀ g ∈ ys, g.request.Spares f.result) → (∀ r ∈ pending, r.Spares f.result) →
            c.shared.disk f.result.unit f.result.blockno = f.result.data) := by
  obtain ⟨ghosts, done, pending, inv, returned⟩ := reach_holds fresh reached
  have commands_ : (∃ last, commands trace = done.map Finished.disks ++ last ∧ last.length ≤ 1) ∧
      c.shared.active.length + c.shared.raised ≤ 1 ∧
      ∀ command ∈ c.shared.active, ∃ r rest, pending = r :: rest ∧ command = (c.shared.buf r.b).body.command := by
    have progress := inv.progress
    cases progress with
    | idle active raised past =>
      rw [active, raised]
      exact ⟨⟨[], past.trans (List.append_nil _).symm, Nat.zero_le 1⟩, Nat.zero_le 1, nofun⟩
    | busy r rest active raised past =>
      rw [active, raised]
      refine ⟨⟨[], past.trans (List.append_nil _).symm, Nat.zero_le 1⟩, Nat.le_refl 1, fun command member => ⟨r, rest, rfl, ?_⟩⟩
      rw [(inv.held r List.mem_cons_self).1]
      exact List.mem_singleton.mp member
    | ready r rest before active raised past =>
      rw [active, raised]
      exact ⟨⟨_, past, Nat.le_refl 1⟩, Nat.le_refl 1, nofun⟩
  refine ⟨done, pending, inv.chain, inv.nodup, commands_.2.1, commands_.2.2, inv.all, inv.past, commands_.1, inv.fine, ?_⟩
  intro before e p b split returns
  have served := returned before e p b split returns
  obtain ⟨xs, f, ys, parts, pid, buf, later, body, current⟩ := served.last
  exact ⟨xs, f, ys, parts, pid, buf, later, served.none_, body, current⟩

-- Process 3 is the disk and the interrupt handler.

def readBody : Body := ⟨false, false, 0, 5, Buf.zero⟩

def writeBody : Body := ⟨true, true, 0, 5, Buf.ofFn fun _ => 1⟩

def powerOn : Xv6.Config Act State Task where
  shared := ⟨fun _ => ⟨readBody, none, none⟩, none, false, fun _ => none, fun _ _ => Buf.zero, [], 0, Buf.zero⟩
  thread := fun _ => .ret .idle

theorem powerOn_fresh : Config.Fresh powerOn := ⟨fun _ => rfl, rfl, rfl, rfl, fun _ => rfl⟩

def readTurns : List (Turn Act Task) :=
  [.call 1 .idle (single (.lock 1 0)), .step 1, .call 1 .idle (single (.edit 1 0 readBody)), .step 1,
    .call 1 .idle (iderw 1 0), .step 1, .step 1]

def writeTurns : List (Turn Act Task) :=
  [.call 2 .idle (single (.lock 2 1)), .step 2, .call 2 .idle (single (.edit 2 1 writeBody)), .step 2,
    .call 2 .idle (iderw 2 1), .step 2, .step 2]

def diskTurns : List (Turn Act Task) := [.call 3 .idle (single .complete), .step 3, .call 3 .idle interrupt, .step 3]

def returnTurns : List (Turn Act Task) := [.call 1 (.waiting 0) (iderwOn 1 0), .step 1]

theorem turns_allowed : ∀ turn ∈ readTurns ++ writeTurns ++ diskTurns ++ diskTurns ++ returnTurns, turn.Allowed Calls := by
  unfold readTurns writeTurns diskTurns returnTurns
  simp only [List.cons_append, List.nil_append, List.forall_mem_cons, Turn.Allowed]
  refine ⟨.lock 1 0, trivial, .edit 1 0 _, trivial, .iderw 1 0 (by decide), trivial, trivial, .lock 2 1, trivial, .edit 2 1 _,
    trivial, .iderw 2 1 (by decide), trivial, trivial, .complete 3, trivial, .intr 3, trivial, .complete 3, trivial, .intr 3, trivial,
    .wait 1 0, trivial, nofun⟩

def returnsWith (buf disk : UInt8) (outcome : List Ev × Xv6.Config Act State Task) : Bool :=
  match outcome.1.getLast? with
  | none => false
  | some e => decide (returnOf e = some (1, 0)) && ((outcome.2.shared.buf 0).body.data.get 0 == buf) &&
      ((outcome.2.shared.disk 0 5).get 0 == disk)

theorem returnsWith_spec {buf disk : UInt8} {trace : List Ev} {c : Xv6.Config Act State Task}
    (met : returnsWith buf disk (trace, c) = true) : ∃ before e, trace = before ++ [e] ∧ returnOf e = some (1, 0) ∧
      (c.shared.buf 0).body.data.get 0 = buf ∧ (c.shared.disk 0 5).get 0 = disk := by
  unfold returnsWith at met
  split at met
  · cases met
  next e last =>
    rw [Bool.and_eq_true, Bool.and_eq_true, decide_eq_true_eq, beq_iff_eq, beq_iff_eq] at met
    obtain ⟨before, split⟩ := List.getLast?_eq_some_iff.mp last
    exact ⟨before, e, split, met.1.1, met.1.2, met.2⟩

theorem play_returns {turns : List (Turn Act Task)} {buf disk : UInt8} (allowed : ∀ turn ∈ turns, turn.Allowed Calls)
    (played : (powerOn.play Act.exec turns).any (returnsWith buf disk) = true) :
    ∃ trace c, Reach Act.exec Calls (fun _ => True) powerOn trace c ∧ ∃ before e, trace = before ++ [e] ∧
      returnOf e = some (1, 0) ∧ (c.shared.buf 0).body.data.get 0 = buf ∧ (c.shared.disk 0 5).get 0 = disk := by
  cases run : powerOn.play Act.exec turns with
  | none =>
    rw [run] at played
    cases played
  | some outcome =>
    rw [run] at played
    have reached := play_reach turns (fun _ _ => trivial) allowed .init run
    exact ⟨_, _, reached, returnsWith_spec played⟩

theorem requests_complete_in_order_read : Config.Fresh powerOn ∧ ∃ trace c,
    Reach Act.exec Calls (fun _ => True) powerOn trace c ∧ ∃ f : Finished, f.Ok ∧ f.request.pid = 1 ∧ f.request.b = 0 ∧
      (c.shared.buf 0).body = f.result := by
  have played : (powerOn.play Act.exec (readTurns ++ writeTurns ++ diskTurns ++ diskTurns ++ returnTurns)).any
      (returnsWith 0 1) = true := by decide +kernel
  obtain ⟨trace, c, reached, before, e, split, returns, -, -⟩ := play_returns turns_allowed played
  obtain ⟨done, pending, -, -, -, -, -, -, -, fine, returned⟩ := requests_complete_in_order powerOn_fresh reached
  obtain ⟨xs, f, ys, parts, pid, buf, -, -, body, -⟩ := returned before e 1 0 split returns
  refine ⟨powerOn_fresh, trace, c, reached, f, fine f ?_, pid, buf, body⟩
  rw [parts]
  exact List.mem_append_right _ List.mem_cons_self

-- iderw(b) returns although b->data is not what the disk block holds by then.
theorem iderw_returns_stale : ∃ trace c, Reach Act.exec Calls (fun _ => True) powerOn trace c ∧ ∃ before e, trace = before ++ [e] ∧
    returnOf e = some (1, 0) ∧ (c.shared.buf 0).body.data.get 0 = 0 ∧ (c.shared.disk 0 5).get 0 = 1 :=
  play_returns turns_allowed (by decide +kernel)

end Xv6.Ide
