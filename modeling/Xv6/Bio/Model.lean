import Xv6.Ide.Model
import Xv6.Lib.Cycle

set_option autoImplicit false

namespace Xv6.Bio

open Ide (nbuf Body)

-- The buffer cache over the state of the disk driver. bcache.head has the index nbuf in
-- the links. error: the status register shows IDE_DF or IDE_ERR for the last command.
structure State where
  ide : Ide.State
  refcnt : Nat → Nat
  next : Nat → Nat
  prev : Nat → Nat
  error : Bool

abbrev head : Nat := nbuf

inductive Outcome where
  | read
  | unread
  | wrote
  | unwritten
deriving DecidableEq

def outcome (dirty error : Bool) : Outcome :=
  if dirty then (if error then .unwritten else .wrote) else (if error then .unread else .read)

-- ideintr's changes to the buffer: insl only without an error, the flags always.
def Body.served (x : Body) (error : Bool) (port : Block) : Body :=
  { x with valid := true, dirty := false, data := if outcome x.dirty error = .read then port else x.data }

def finish (s : Ide.State) (b : Nat) (x : Body) : Res Ide.State Unit :=
  let s := { s with idequeue := (s.buf b).qnext }
  let s := (s.setBody b x).wakeup b
  match s.idequeue with
  | none => .ok () s
  | some c => s.idestart c

namespace State

def body (s : State) (b : Nat) : Body := (s.ide.buf b).body

def owner (s : State) (b : Nat) : Option Nat := (s.ide.buf b).owner

def setBody (s : State) (b : Nat) (x : Body) : State := { s with ide := s.ide.setBody b x }

def setOwner (s : State) (b : Nat) (p : Option Nat) : State := { s with ide := s.ide.setOwner b p }

def setRefcnt (s : State) (b n : Nat) : State := { s with refcnt := upd s.refcnt b n }

def unlink (s : State) (b : Nat) : State :=
  let s := { s with prev := upd s.prev (s.next b) (s.prev b) }
  { s with next := upd s.next (s.prev b) (s.next b) }

def pushFront (s : State) (b : Nat) : State :=
  let s := { s with next := upd s.next b (s.next head), prev := upd s.prev b head }
  let s := { s with prev := upd s.prev (s.next head) b }
  { s with next := upd s.next head b }

def binitLoop : Nat → Nat → State → State
  | 0, _, s => s
  | left + 1, b, s => binitLoop left (b + 1) (s.pushFront b)

def binit (s : State) : State :=
  binitLoop nbuf 0 { s with next := upd s.next head head, prev := upd s.prev head head }

def cached (s : State) (dev blockno b : Nat) : Bool := (s.body b).dev = dev ∧ (s.body b).blockno = blockno

def unused (s : State) (b : Nat) : Bool := s.refcnt b = 0 ∧ (s.body b).dirty = false

def assign (s : State) (dev blockno b : Nat) : State :=
  (s.setBody b { s.body b with dev := dev, blockno := blockno, valid := false, dirty := false }).setRefcnt b 1

-- bget under bcache.lock: the buffer, and whether it was recycled.
def bget (s : State) (dev blockno : Nat) : Res State (Nat × Bool) :=
  match scan s.next (s.cached dev blockno) head (nbuf + 1) (s.next head) with
  | none => .blocked
  | some (some b) => .ok (b, false) (s.setRefcnt b (s.refcnt b + 1))
  | some none =>
    match scan s.prev s.unused head (nbuf + 1) (s.prev head) with
    | none => .blocked
    | some none => .panic "bget: no buffers"
    | some (some b) => .ok (b, true) (s.assign dev blockno b)

def drop (s : State) (b : Nat) : State :=
  let s := s.setRefcnt b (s.refcnt b - 1)
  if s.refcnt b = 0 then (s.unlink b).pushFront b else s

def onIde {β : Type} (s : State) : Res Ide.State β → Res State β
  | .ok r ide => .ok r { s with ide := ide }
  | .panic msg => .panic msg
  | .blocked => .blocked

-- The disk finishes the oldest command; when it fails nothing is transferred.
def complete (s : State) (failed : Bool) : Res State Unit :=
  match s.ide.complete with
  | .ok _ ide =>
    if failed then .ok () { s with ide := { ide with disk := s.ide.disk, port := s.ide.port }, error := true }
    else .ok () { s with ide := ide, error := false }
  | .panic msg => .panic msg
  | .blocked => .blocked

def ideintr (s : State) : Res State (Option (Nat × Outcome)) :=
  if s.ide.raised = 0 then .blocked
  else
    let ide := { s.ide with raised := s.ide.raised - 1 }
    match ide.idequeue with
    | none => .ok none { s with ide := ide }
    | some b =>
      match finish ide b (Body.served (s.body b) s.error ide.port) with
      | .ok _ ide => .ok (some (b, outcome (s.body b).dirty s.error)) { s with ide := ide }
      | .panic msg => .panic msg
      | .blocked => .blocked

end State

-- bget, drop: under bcache.lock. acquire, release: acquiresleep and releasesleep. mark: bwrite up to
-- iderw. check, enqueue, wait: iderw. edit: the holder changes the data. complete: the disk's step.
inductive Act : Type → Type 1 where
  | bget (dev blockno : Nat) : Act (Nat × Bool)
  | acquire (p b : Nat) : Act Unit
  | isValid (b : Nat) : Act Bool
  | check (b : Nat) : Act Unit
  | enqueue (p b : Nat) : Act Bool
  | wait (p b : Nat) : Act Bool
  | mark (b : Nat) : Act Unit
  | logWrite (b : Nat) : Act Unit
  | edit (b : Nat) (data : Block) : Act Unit
  | release (b : Nat) : Act Unit
  | drop (b : Nat) : Act Unit
  | complete (failed : Bool) : Act Unit
  | intr : Act (Option (Nat × Outcome))
  | kill (q : Nat) : Act Unit

def Act.exec {β : Type} : Act β → State → Res State β
  | .bget dev blockno, s => s.bget dev blockno
  | .acquire p b, s => if s.owner b = none then .ok () (s.setOwner b (some p)) else .blocked
  | .isValid b, s => .ok (s.body b).valid s
  | .check b, s =>
    if s.owner b = none then .panic "iderw: buf not locked"
    else if (s.body b).done then .panic "iderw: nothing to do"
    else if (s.body b).dev ≠ 0 ∧ s.ide.havedisk1 = false then .panic "iderw: ide disk 1 not present"
    else .ok () s
  | .enqueue p b, s => s.onIde (s.ide.enqueue p b)
  | .wait p b, s => if s.ide.chan p = none then s.onIde (s.ide.test p b) else .blocked
  | .mark b, s => if s.owner b = none then .panic "bwrite" else .ok () (s.setBody b { s.body b with dirty := true })
  | .logWrite b, s => .ok () (s.setBody b { s.body b with dirty := true })
  | .edit b data, s => .ok () (s.setBody b { s.body b with data := data })
  | .release b, s => if s.owner b = none then .panic "brelse" else .ok () (s.setOwner b none)
  | .drop b, s => .ok () (s.drop b)
  | .complete failed, s => s.complete failed
  | .intr, s => s.ideintr
  | .kill q, s => .ok () { s with ide := { s.ide with chan := upd s.ide.chan q none } }

abbrev BioM (α : Type) : Type 1 := Prog Act α

structure Held where
  b : Nat
  dev : Nat
  blockno : Nat
deriving DecidableEq

-- Between sections: the buffers held, those changed since, and the one that iderw waits for.
inductive Task where
  | idle (held : List Held) (changed : List Nat)
  | waiting (h : Held) (held : List Held) (changed : List Nat)
deriving DecidableEq

def after (h : Held) (held : List Held) (changed : List Nat) (returned : Bool) : Task :=
  if returned then .idle (h :: held) changed else .waiting h held changed

def without (b : Nat) (changed : List Nat) : List Nat := changed.filter (· ≠ b)

def iderw (p : Nat) (h : Held) (held : List Held) (changed : List Nat) : BioM Task := do
  .lift (.check h.b)
  let returned ← .lift (.enqueue p h.b)
  pure (after h held changed returned)

def iderwOn (p : Nat) (h : Held) (held : List Held) (changed : List Nat) : BioM Task := do
  let returned ← .lift (.wait p h.b)
  pure (after h held changed returned)

def bread (p dev blockno : Nat) (held : List Held) (changed : List Nat) : BioM Task := do
  let got ← .lift (.bget dev blockno)
  .lift (.acquire p got.1)
  let valid ← .lift (.isValid got.1)
  if valid then pure (.idle (⟨got.1, dev, blockno⟩ :: held) changed)
  else iderw p ⟨got.1, dev, blockno⟩ held changed

def bwrite (p : Nat) (h : Held) (held : List Held) (changed : List Nat) : BioM Task := do
  .lift (.mark h.b)
  iderw p h (held.erase h) (without h.b changed)

def brelse (h : Held) (held : List Held) (changed : List Nat) : BioM Task := do
  .lift (.release h.b)
  .lift (.drop h.b)
  pure (.idle (held.erase h) (without h.b changed))

def logWrite (h : Held) (held : List Held) (changed : List Nat) : BioM Task := do
  .lift (.logWrite h.b)
  pure (.idle held (without h.b changed))

def edit (h : Held) (data : Block) (held : List Held) (changed : List Nat) : BioM Task := do
  .lift (.edit h.b data)
  pure (.idle held (h.b :: changed))

def device {β : Type} (act : Act β) (held : List Held) (changed : List Nat) : BioM Task := do
  let _ ← .lift act
  pure (.idle held changed)

-- The disk and the interrupt handler run in the time of some idle process.
inductive Calls : Nat → Task → BioM Task → Prop where
  | bread (p dev blockno : Nat) (held : List Held) (changed : List Nat) :
      Calls p (.idle held changed) (bread p dev blockno held changed)
  | bwrite (p : Nat) (h : Held) (held : List Held) (changed : List Nat) (mine : h ∈ held) :
      Calls p (.idle held changed) (bwrite p h held changed)
  | brelse (p : Nat) (h : Held) (held : List Held) (changed : List Nat) (mine : h ∈ held) :
      Calls p (.idle held changed) (brelse h held changed)
  | logWrite (p : Nat) (h : Held) (held : List Held) (changed : List Nat) (mine : h ∈ held) :
      Calls p (.idle held changed) (logWrite h held changed)
  | edit (p : Nat) (h : Held) (data : Block) (held : List Held) (changed : List Nat) (mine : h ∈ held) :
      Calls p (.idle held changed) (edit h data held changed)
  | wait (p : Nat) (h : Held) (held : List Held) (changed : List Nat) :
      Calls p (.waiting h held changed) (iderwOn p h held changed)
  | complete (p : Nat) (failed : Bool) (held : List Held) (changed : List Nat) :
      Calls p (.idle held changed) (device (.complete failed) held changed)
  | intr (p : Nat) (held : List Held) (changed : List Nat) : Calls p (.idle held changed) (device .intr held changed)
  | kill (p q : Nat) (held : List Held) (changed : List Nat) : Calls p (.idle held changed) (device (.kill q) held changed)

def State.boot (disk : Nat → Nat → Block) (havedisk1 : Bool) : State where
  ide := ⟨fun _ => ⟨⟨false, false, 0, 0, Buf.zero⟩, none, none⟩, none, havedisk1, fun _ => none, disk, [], 0, Buf.zero⟩
  refcnt := fun _ => 0
  next := fun _ => 0
  prev := fun _ => 0
  error := false

def start (disk : Nat → Nat → Block) (havedisk1 : Bool) : Config Act State Task :=
  ⟨(State.boot disk havedisk1).binit, fun _ => .ret (.idle [] [])⟩

abbrev Ev : Type 1 := Event Act State

abbrev Trace : Type 1 := List Ev

end Xv6.Bio
