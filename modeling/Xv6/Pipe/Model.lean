import Xv6.Lib.Machine
import Xv6.Lib.Ring

set_option autoImplicit false

namespace Xv6

abbrev pipesize : Nat := 512

-- struct pipe. nread and nwrite are 32-bit counters that run freely.
structure Pipe where
  data : Nat → UInt8
  nread : Nat
  nwrite : Nat
  readopen : Bool
  writeopen : Bool

-- pipealloc's initial values; the buffer holds whatever the page held.
def Pipe.alloc (data : Nat → UInt8) : Pipe := ⟨data, 0, 0, true, true⟩

inductive PipeChan where
  | nread
  | nwrite
deriving DecidableEq, Repr

-- chan is set while the process is SLEEPING on one of the pipe's two channels.
structure PipeProc where
  chan : Option PipeChan
  killed : Bool

structure PipeSys where
  pipe : Pipe
  proc : Nat → PipeProc

namespace Pipe

def full (p : Pipe) : Bool := p.nwrite = (p.nread + pipesize) % 2 ^ 32

def put (p : Pipe) (b : UInt8) : Pipe :=
  { p with data := upd p.data (p.nwrite % pipesize) b, nwrite := (p.nwrite + 1) % 2 ^ 32 }

def next (p : Pipe) : Pipe := { p with nread := (p.nread + 1) % 2 ^ 32 }

end Pipe

namespace PipeSys

def wakeup (s : PipeSys) (chan : PipeChan) : PipeSys :=
  { s with proc := fun q => if (s.proc q).chan = some chan then { s.proc q with chan := none } else s.proc q }

def sleep (s : PipeSys) (p : Nat) (chan : PipeChan) : PipeSys :=
  { s with proc := upd s.proc p { s.proc p with chan := some chan } }

end PipeSys

-- The end of a section of pipewrite: a return of n, a return of -1, or a sleep; i
-- bytes of the call have been stored.
inductive WriteResult where
  | returned
  | failed (i : Nat)
  | asleep (i : Nat)

inductive ReadResult where
  | returned (bytes : List UInt8)
  | failed
  | asleep

def pipewriteLoop (p : Nat) (addr : Nat → UInt8) : Nat → Nat → PipeSys → WriteResult × PipeSys
  | 0, _, s => (.returned, s.wakeup .nread)
  | left + 1, i, s =>
    if s.pipe.full then
      if !s.pipe.readopen || (s.proc p).killed then (.failed i, s)
      else (.asleep i, (s.wakeup .nread).sleep p .nwrite)
    else pipewriteLoop p addr left (i + 1) { s with pipe := s.pipe.put (addr i) }

def pipereadCopy : Nat → Pipe → List UInt8 × Pipe
  | 0, p => ([], p)
  | left + 1, p =>
    if p.nread = p.nwrite then ([], p)
    else
      let rest := pipereadCopy left p.next
      (p.data (p.nread % pipesize) :: rest.1, rest.2)

def pipereadSection (p : Nat) (n : Int) (s : PipeSys) : ReadResult × PipeSys :=
  if s.pipe.nread = s.pipe.nwrite ∧ s.pipe.writeopen then
    if (s.proc p).killed then (.failed, s) else (.asleep, s.sleep p .nread)
  else
    let copied := pipereadCopy n.toNat s.pipe
    (.returned copied.1, ({ s with pipe := copied.2 } : PipeSys).wakeup .nwrite)

-- kfree of the pipe's page, when both ends are closed, is the memory allocator's.
def pipecloseSection (writable : Bool) (s : PipeSys) : PipeSys :=
  if writable then ({ s with pipe := { s.pipe with writeopen := false } } : PipeSys).wakeup .nread
  else ({ s with pipe := { s.pipe with readopen := false } } : PipeSys).wakeup .nwrite

def pipeKill (q : Nat) (s : PipeSys) : PipeSys := { s with proc := upd s.proc q ⟨none, true⟩ }

-- Sections: the code between taking and giving up p->lock, and kill.
inductive PipeOp : Type → Type 1 where
  | write (p : Nat) (addr : Nat → UInt8) (n : Int) (i : Nat) : PipeOp WriteResult
  | read (p : Nat) (n : Int) : PipeOp ReadResult
  | close (writable : Bool) : PipeOp Unit
  | kill (q : Nat) : PipeOp Unit

-- A sleeping process executes nothing until it is woken.
def PipeOp.exec {β : Type} : PipeOp β → PipeSys → Res PipeSys β
  | .write p addr n i, s =>
    if (s.proc p).chan = none then
      let r := pipewriteLoop p addr (n.toNat - i) i s
      .ok r.1 r.2
    else .blocked
  | .read p n, s =>
    if (s.proc p).chan = none then
      let r := pipereadSection p n s
      .ok r.1 r.2
    else .blocked
  | .close writable, s => .ok () (pipecloseSection writable s)
  | .kill q, s => .ok () (pipeKill q s)

inductive PipeTask where
  | idle
  | writing (addr : Nat → UInt8) (n : Int) (i : Nat)
  | reading (n : Int)

def WriteResult.task (addr : Nat → UInt8) (n : Int) : WriteResult → PipeTask
  | .asleep i => .writing addr n i
  | _ => .idle

def ReadResult.task (n : Int) : ReadResult → PipeTask
  | .asleep => .reading n
  | _ => .idle

def pipewrite (p : Nat) (addr : Nat → UInt8) (n : Int) (i : Nat) : Prog PipeOp PipeTask := do
  let r ← .lift (.write p addr n i)
  pure (r.task addr n)

def piperead (p : Nat) (n : Int) : Prog PipeOp PipeTask := do
  let r ← .lift (.read p n)
  pure (r.task n)

def pipeclose (writable : Bool) : Prog PipeOp PipeTask := do
  .lift (.close writable)
  pure .idle

def killProg (q : Nat) : Prog PipeOp PipeTask := do
  .lift (.kill q)
  pure .idle

-- An idle process makes any call; one in the middle of a call goes on with it.
inductive PipeCalls : Nat → PipeTask → Prog PipeOp PipeTask → Prop where
  | write (p : Nat) (addr : Nat → UInt8) (n : Int) : PipeCalls p .idle (pipewrite p addr n 0)
  | read (p : Nat) (n : Int) : PipeCalls p .idle (piperead p n)
  | close (p : Nat) (writable : Bool) : PipeCalls p .idle (pipeclose writable)
  | kill (p q : Nat) : PipeCalls p .idle (killProg q)
  | writeOn (p : Nat) (addr : Nat → UInt8) (n : Int) (i : Nat) : PipeCalls p (.writing addr n i) (pipewrite p addr n i)
  | readOn (p : Nat) (n : Int) : PipeCalls p (.reading n) (piperead p n)

abbrev PipeEvent : Type 1 := Event PipeOp PipeSys

structure PipeSys.Fresh (s : PipeSys) : Prop where
  pipe : ∃ data, s.pipe = Pipe.alloc data
  awake : ∀ p, (s.proc p).chan = none

end Xv6
