import Xv6.Lib.Links
import Xv6.Lib.Machine
import Xv6.Param

set_option autoImplicit false

namespace Xv6.Ide

abbrev nbuf : Nat := maxopblocks * 3

-- struct buf without the links of the buffer cache: what the disk driver works on, the
-- holder of the sleep lock, and the link of the disk queue.
structure Body where
  valid : Bool
  dirty : Bool
  dev : Nat
  blockno : Nat
  data : Block

structure DiskBuf where
  body : Body
  owner : Option Nat
  qnext : Option Nat

structure Command where
  write : Bool
  unit : Nat
  sector : Nat
  data : Block

-- active: the commands that were started and are not completed, oldest first. raised: the
-- interrupts that no handler has run for. port: the block that the disk holds ready after
-- a read. chan: the buffer that a process sleeps on.
structure State where
  buf : Nat → DiskBuf
  idequeue : Option Nat
  havedisk1 : Bool
  chan : Nat → Option Nat
  disk : Nat → Nat → Block
  active : List Command
  raised : Nat
  port : Block

def Body.unit (x : Body) : Nat := x.dev % 2

def Body.command (x : Body) : Command where
  write := x.dirty
  unit := x.unit
  sector := x.blockno
  data := if x.dirty then x.data else Buf.zero

def Body.done (x : Body) : Bool := x.valid && !x.dirty

namespace State

def next (s : State) (b : Nat) : Option Nat := (s.buf b).qnext

def setBuf (s : State) (b : Nat) (x : DiskBuf) : State := { s with buf := upd s.buf b x }

def setNext (s : State) (b : Nat) (p : Option Nat) : State := s.setBuf b { s.buf b with qnext := p }

def setBody (s : State) (b : Nat) (x : Body) : State := s.setBuf b { s.buf b with body := x }

def setOwner (s : State) (b : Nat) (p : Option Nat) : State := s.setBuf b { s.buf b with owner := p }

def sleep (s : State) (p b : Nat) : State := { s with chan := upd s.chan p (some b) }

def wakeup (s : State) (b : Nat) : State := { s with chan := fun p => if s.chan p = some b then none else s.chan p }

def idestart (s : State) (b : Nat) : Res State Unit :=
  if (s.buf b).body.blockno ≥ fssize then .panic "incorrect blockno"
  else .ok () { s with active := s.active ++ [(s.buf b).body.command] }

def append (s : State) (b : Nat) : Res State Unit :=
  let s := s.setNext b none
  match s.idequeue with
  | none => .ok () { s with idequeue := some b }
  | some first =>
    match lastOf s.next nbuf first with
    | none => .blocked
    | some last => .ok () (s.setNext last (some b))

def test (s : State) (p b : Nat) : Res State Bool :=
  if (s.buf b).body.done then .ok true s else .ok false (s.sleep p b)

def enqueue (s : State) (p b : Nat) : Res State Bool :=
  match s.append b with
  | .ok _ s =>
    if s.idequeue = some b then
      match s.idestart b with
      | .ok _ s => s.test p b
      | .panic msg => .panic msg
      | .blocked => .blocked
    else s.test p b
  | .panic msg => .panic msg
  | .blocked => .blocked

def complete (s : State) : Res State Unit :=
  match s.active with
  | [] => .blocked
  | c :: rest =>
    if c.write then
      .ok () { s with active := rest, raised := s.raised + 1, disk := upd s.disk c.unit (upd (s.disk c.unit) c.sector c.data) }
    else .ok () { s with active := rest, raised := s.raised + 1, port := s.disk c.unit c.sector }

def ideintr (s : State) : Res State (Option Nat) :=
  if s.raised = 0 then .blocked
  else
    let s := { s with raised := s.raised - 1 }
    match s.idequeue with
    | none => .ok none s
    | some b =>
      let x := (s.buf b).body
      let s := { s with idequeue := (s.buf b).qnext }
      let s := s.setBody b { x with valid := true, dirty := false, data := if x.dirty then x.data else s.port }
      let s := s.wakeup b
      match s.idequeue with
      | none => .ok (some b) s
      | some c =>
        match s.idestart c with
        | .ok _ s => .ok (some b) s
        | .panic msg => .panic msg
        | .blocked => .blocked

end State

-- Sections: the checks of iderw, its code under idelock up to the first sleep or the return,
-- the code from a sleep to the next or the return, the interrupt handler, and the disk. The
-- holder of a buffer changes it between calls; kill wakes a sleeper.
inductive Act : Type → Type 1 where
  | lock (p b : Nat) : Act Unit
  | unlock (p b : Nat) : Act Unit
  | edit (p b : Nat) (x : Body) : Act Unit
  | check (p b : Nat) : Act Unit
  | enqueue (p b : Nat) : Act Bool
  | wait (p b : Nat) : Act Bool
  | complete : Act Unit
  | intr : Act (Option Nat)
  | kill (q : Nat) : Act Unit

def Act.exec {β : Type} : Act β → State → Res State β
  | .lock p b, s => if (s.buf b).owner = none then .ok () (s.setOwner b (some p)) else .blocked
  | .unlock p b, s => if (s.buf b).owner = some p then .ok () (s.setOwner b none) else .panic "brelse"
  | .edit p b x, s => if (s.buf b).owner = some p then .ok () (s.setBody b x) else .blocked
  | .check p b, s =>
    if (s.buf b).owner ≠ some p then .panic "iderw: buf not locked"
    else if (s.buf b).body.done then .panic "iderw: nothing to do"
    else if (s.buf b).body.dev ≠ 0 ∧ s.havedisk1 = false then .panic "iderw: ide disk 1 not present"
    else .ok () s
  | .enqueue p b, s => s.enqueue p b
  | .wait p b, s => if s.chan p = none then s.test p b else .blocked
  | .complete, s => s.complete
  | .intr, s => s.ideintr
  | .kill q, s => .ok () { s with chan := upd s.chan q none }

inductive Task where
  | idle
  | waiting (b : Nat)
deriving DecidableEq

def after (b : Nat) (returned : Bool) : Task := if returned then .idle else .waiting b

def iderw (p b : Nat) : Prog Act Task := do
  .lift (.check p b)
  let returned ← .lift (.enqueue p b)
  pure (after b returned)

def iderwOn (p b : Nat) : Prog Act Task := do
  let returned ← .lift (.wait p b)
  pure (after b returned)

def single (act : Act Unit) : Prog Act Task := do
  .lift act
  pure .idle

def interrupt : Prog Act Task := do
  let _ ← .lift .intr
  pure .idle

-- The disk and the interrupt handler run as processes that do nothing else meanwhile.
inductive Calls : Nat → Task → Prog Act Task → Prop where
  | lock (p b : Nat) : Calls p .idle (single (.lock p b))
  | unlock (p b : Nat) : Calls p .idle (single (.unlock p b))
  | edit (p b : Nat) (x : Body) : Calls p .idle (single (.edit p b x))
  | iderw (p b : Nat) (small : b < nbuf) : Calls p .idle (iderw p b)
  | wait (p b : Nat) : Calls p (.waiting b) (iderwOn p b)
  | complete (p : Nat) : Calls p .idle (single .complete)
  | intr (p : Nat) : Calls p .idle interrupt
  | kill (p q : Nat) : Calls p .idle (single (.kill q))

abbrev Ev : Type 1 := Event Act State

structure Config.Fresh (c : Xv6.Config Act State Task) : Prop where
  unlocked : ∀ b, (c.shared.buf b).owner = none
  queue : c.shared.idequeue = none
  active : c.shared.active = []
  raised : c.shared.raised = 0
  threads : ∀ p, c.thread p = .ret .idle

end Xv6.Ide
