import Xv6.Lib.Machine
import Xv6.Proc.Table

set_option autoImplicit false

namespace Xv6

-- Kernel threads, named by the stack they run on.
inductive KThread where
  | proc (q : Nat)
  | scheduler (c : Nat)
deriving DecidableEq, Repr

-- The current process, cr3 (none is kpgdir), the stack executed on, the depth of pushcli nesting.
structure Cpu where
  proc : Option Nat
  pgdir : Option Nat
  stack : KThread
  ncli : Nat

-- Spin locks are numbered; lock l is the CPU that holds l.
structure Smp where
  table : Ptable
  lock : Nat → Option Nat
  cpu : Nat → Cpu

abbrev ptableLock : Nat := 0

-- enterSleep and leaveSleep mark the call of sleep and its return.
inductive SmpOp : Type → Type 1 where
  | acquire (th : KThread) (l : Nat) : SmpOp Unit
  | release (th : KThread) (l : Nat) : SmpOp Unit
  | sched (th : KThread) : SmpOp Unit
  | setRunnable (th : KThread) : SmpOp Unit
  | enterSleep (th : KThread) (chan : Chan) (lk : Nat) : SmpOp Unit
  | sleepOn (th : KThread) (chan : Chan) : SmpOp Unit
  | clearChan (th : KThread) : SmpOp Unit
  | leaveSleep (th : KThread) (lk : Nat) : SmpOp Unit
  | wakeup1 (th : KThread) (chan : Chan) : SmpOp Unit
  | allocproc (th : KThread) : SmpOp (Option Nat)
  | abandon (th : KThread) (np : Nat) : SmpOp Unit
  | adopt (th : KThread) (np : Nat) : SmpOp Unit
  | ready (th : KThread) (np : Nat) : SmpOp Unit
  | exit (th : KThread) : SmpOp Unit
  | wait (th : KThread) : SmpOp WaitResult
  | kill (th : KThread) (pid : Int) : SmpOp Bool
  | trap (th : KThread) : SmpOp Unit
  | dispatch (th : KThread) (q : Nat) : SmpOp Bool
  | leaveProc (th : KThread) : SmpOp Unit

namespace Smp

variable (ncpu : Nat)

def here (s : Smp) (th : KThread) : Option Nat := (List.range ncpu).find? fun c => (s.cpu c).stack = th

variable {β : Type}

-- A thread that no CPU executes makes no step.
def onCpu (s : Smp) (th : KThread) (f : Nat → Res Smp β) : Res Smp β :=
  match s.here ncpu th with
  | some c => f c
  | none => .blocked

def current (s : Smp) (th : KThread) (f : Nat → Nat → Res Smp β) : Res Smp β :=
  s.onCpu ncpu th fun c =>
    match (s.cpu c).proc with
    | some q => f c q
    | none => .panic "null proc"

def setTable (s : Smp) (t : Ptable) : Smp := { s with table := t }

def setCpu (s : Smp) (c : Nat) (cpu : Cpu) : Smp := { s with cpu := upd s.cpu c cpu }

def holding (s : Smp) (lk c : Nat) (r : Res Smp β) : Res Smp β := if s.lock lk = some c then r else .blocked

end Smp

def SmpOp.exec (ncpu : Nat) {β : Type} : SmpOp β → Smp → Res Smp β
  | .acquire th l, s => s.onCpu ncpu th fun c =>
    if s.lock l = some c then .panic "acquire"
    else if s.lock l ≠ none then .blocked
    else .ok () { s.setCpu c { s.cpu c with ncli := (s.cpu c).ncli + 1 } with lock := upd s.lock l (some c) }
  | .release th l, s => s.onCpu ncpu th fun c =>
    if s.lock l ≠ some c then .panic "release"
    else if (s.cpu c).ncli = 0 then .panic "popcli"
    else .ok () { s.setCpu c { s.cpu c with ncli := (s.cpu c).ncli - 1 } with lock := upd s.lock l none }
  | .sched th, s => s.current ncpu th fun c p =>
    if s.lock ptableLock ≠ some c then .panic "sched ptable.lock"
    else if (s.cpu c).ncli ≠ 1 then .panic "sched locks"
    else if (s.table.proc p).state = .running then .panic "sched running"
    else .ok () (s.setCpu c { s.cpu c with stack := .scheduler c })
  | .setRunnable th, s => s.current ncpu th fun _ p => .ok () (s.setTable (s.table.setState p .runnable))
  | .enterSleep th _ lk, s => s.current ncpu th fun c _ => s.holding lk c (.ok () s)
  | .sleepOn th chan, s => s.current ncpu th fun _ p =>
    .ok () (s.setTable (s.table.set p { s.table.proc p with chan := some chan, state := .sleeping }))
  | .clearChan th, s => s.current ncpu th fun _ p =>
    .ok () (s.setTable (s.table.set p { s.table.proc p with chan := none }))
  | .leaveSleep th _, s => s.onCpu ncpu th fun _ => .ok () s
  | .wakeup1 th chan, s => s.onCpu ncpu th fun c =>
    s.holding ptableLock c (.ok () (s.setTable (s.table.wakeup1 (some chan))))
  | .allocproc th, s => s.onCpu ncpu th fun _ => .ok s.table.allocproc.1 (s.setTable s.table.allocproc.2)
  | .abandon th np, s => s.onCpu ncpu th fun _ => .ok () (s.setTable (s.table.setState np .unused))
  | .adopt th np, s => s.current ncpu th fun _ p =>
    .ok () (s.setTable (s.table.set np { s.table.proc np with parent := some p }))
  | .ready th np, s => s.onCpu ncpu th fun _ => .ok () (s.setTable (s.table.setState np .runnable))
  | .exit th, s => s.current ncpu th fun _ p =>
    if p = s.table.initproc then .panic "init exiting" else .ok () (s.setTable (s.table.exit p))
  | .wait th, s => s.current ncpu th fun _ p => .ok (s.table.wait p).1 (s.setTable (s.table.wait p).2)
  | .kill th pid, s => s.onCpu ncpu th fun _ => .ok (s.table.kill pid).1 (s.setTable (s.table.kill pid).2)
  | .trap th, s => s.current ncpu th fun _ p =>
    .ok () (s.setTable (s.table.set p { s.table.proc p with killed := true }))
  | .dispatch th q, s => s.onCpu ncpu th fun c =>
    if (s.table.proc q).state ≠ .runnable then .ok false s
    else .ok true ((s.setTable (s.table.setState q .running)).setCpu c
      { s.cpu c with proc := some q, pgdir := some q, stack := .proc q })
  | .leaveProc th, s => s.onCpu ncpu th fun c => .ok () (s.setCpu c { s.cpu c with proc := none, pgdir := none })

-- What a thread goes on with when its code between two lock operations is done.
inductive KTask where
  | idle
  | out
  | relock (lk : Nat)
  | embryo (np : Nat)
  | adopted (np : Nat)
  | waiting
deriving DecidableEq, Repr

abbrev SmpM (α : Type) : Type 1 := Prog SmpOp α

namespace Smp

def acquire (th : KThread) (l : Nat) : SmpM Unit := .lift (.acquire th l)
def release (th : KThread) (l : Nat) : SmpM Unit := .lift (.release th l)

def yield (th : KThread) : SmpM Unit := do
  acquire th ptableLock
  .lift (.setRunnable th)
  .lift (.sched th)
  release th ptableLock

def forkret (th : KThread) : SmpM Unit := release th ptableLock

def swapLocks (th : KThread) (lk : Nat) : SmpM Unit :=
  if lk = ptableLock then .ret () else do
    acquire th ptableLock
    release th lk

-- sleep up to its last acquire, before which an interrupt may preempt the process.
def sleep (th : KThread) (chan : Chan) (lk : Nat) : SmpM Unit := do
  .lift (.enterSleep th chan lk)
  swapLocks th lk
  .lift (.sleepOn th chan)
  .lift (.sched th)
  .lift (.clearChan th)

def relock (th : KThread) (lk : Nat) : SmpM Unit := do
  acquire th lk
  .lift (.leaveSleep th lk)

def sleepCall (th : KThread) (chan : Chan) (lk : Nat) : SmpM KTask := do
  sleep th chan lk
  if lk = ptableLock then do
    .lift (.leaveSleep th lk)
    return .out
  else do
    release th ptableLock
    return .relock lk

def wakeup (th : KThread) (chan : Chan) : SmpM Unit := do
  acquire th ptableLock
  .lift (.wakeup1 th chan)
  release th ptableLock

def handler (th : KThread) (lk : Nat) (chan : Chan) : SmpM Unit := do
  acquire th lk
  wakeup th chan
  release th lk

def kill (th : KThread) (pid : Int) : SmpM Bool := do
  acquire th ptableLock
  let found ← .lift (.kill th pid)
  release th ptableLock
  return found

def fork (th : KThread) : SmpM KTask := do
  acquire th ptableLock
  let np ← .lift (.allocproc th)
  release th ptableLock
  match np with
  | some np => return .embryo np
  | none => return .out

def forkReady (th : KThread) (np : Nat) : SmpM Unit := do
  acquire th ptableLock
  .lift (.ready th np)
  release th ptableLock

-- What the slot runs after sched is forkret of the next process that gets it.
def exit (th : KThread) : SmpM Unit := do
  acquire th ptableLock
  .lift (.exit th)
  .lift (.sched th)
  forkret th

def waitRound (p : Nat) : SmpM KTask := do
  let r ← .lift (.wait (.proc p))
  match r with
  | .sleeps => do
    sleep (.proc p) (.proc p) ptableLock
    .lift (.leaveSleep (.proc p) ptableLock)
    return .waiting
  | .reaped _ => do
    release (.proc p) ptableLock
    return .out
  | .failed => do
    release (.proc p) ptableLock
    return .out

def wait (p : Nat) : SmpM KTask := do
  acquire (.proc p) ptableLock
  waitRound p

def schedulerSlot (c q : Nat) : SmpM Unit := do
  let chosen ← .lift (.dispatch (.scheduler c) q)
  if chosen then .lift (.leaveProc (.scheduler c)) else .ret ()

def scheduler (c : Nat) : SmpM Unit := do
  acquire (.scheduler c) ptableLock
  .loop (schedulerSlot c) 0 nproc
  release (.scheduler c) ptableLock

end Smp

-- Threads 0, ..., NPROC - 1 are the process slots, thread NPROC + c is the scheduler of
-- CPU c. Interrupts add yield and their handlers wherever the thread may hold no lock,
-- which leaves out wait's loop.
inductive SmpCalls (ncpu : Nat) : Nat → KTask → SmpM KTask → Prop where
  | acquire (p l : Nat) (slot : p < nproc) : SmpCalls ncpu p .out (Smp.acquire (.proc p) l >>= fun _ => .ret .out)
  | release (p l : Nat) (slot : p < nproc) : SmpCalls ncpu p .out (Smp.release (.proc p) l >>= fun _ => .ret .out)
  | yield (p : Nat) (task : KTask) (slot : p < nproc) (unlocked : task ≠ .waiting) :
      SmpCalls ncpu p task (Smp.yield (.proc p) >>= fun _ => .ret task)
  | wakeup (p : Nat) (task : KTask) (chan : Chan) (slot : p < nproc) (unlocked : task ≠ .waiting) :
      SmpCalls ncpu p task (Smp.wakeup (.proc p) chan >>= fun _ => .ret task)
  | handler (p : Nat) (task : KTask) (lk : Nat) (chan : Chan) (slot : p < nproc) (unlocked : task ≠ .waiting) :
      SmpCalls ncpu p task (Smp.handler (.proc p) lk chan >>= fun _ => .ret task)
  | wakeup1 (p : Nat) (chan : Chan) (slot : p < nproc) :
      SmpCalls ncpu p .out (.op (.wakeup1 (.proc p) chan) fun _ => .ret .out)
  | sleep (p a lk : Nat) (slot : p < nproc) : SmpCalls ncpu p .out (Smp.sleepCall (.proc p) (.addr a) lk)
  | relock (p lk : Nat) (slot : p < nproc) :
      SmpCalls ncpu p (.relock lk) (Smp.relock (.proc p) lk >>= fun _ => .ret .out)
  | kill (p : Nat) (pid : Int) (slot : p < nproc) : SmpCalls ncpu p .out (Smp.kill (.proc p) pid >>= fun _ => .ret .out)
  | trap (p : Nat) (slot : p < nproc) : SmpCalls ncpu p .out (.op (.trap (.proc p)) fun _ => .ret .out)
  | fork (p : Nat) (slot : p < nproc) : SmpCalls ncpu p .out (Smp.fork (.proc p))
  | forkFails (p np : Nat) (slot : p < nproc) :
      SmpCalls ncpu p (.embryo np) (.op (.abandon (.proc p) np) fun _ => .ret .out)
  | forkAdopts (p np : Nat) (slot : p < nproc) :
      SmpCalls ncpu p (.embryo np) (.op (.adopt (.proc p) np) fun _ => .ret (.adopted np))
  | forkReady (p np : Nat) (slot : p < nproc) :
      SmpCalls ncpu p (.adopted np) (Smp.forkReady (.proc p) np >>= fun _ => .ret .out)
  | exit (p : Nat) (slot : p < nproc) : SmpCalls ncpu p .out (Smp.exit (.proc p) >>= fun _ => .ret .out)
  | wait (p : Nat) (slot : p < nproc) : SmpCalls ncpu p .out (Smp.wait p)
  | waitRound (p : Nat) (slot : p < nproc) : SmpCalls ncpu p .waiting (Smp.waitRound p)
  | scheduler (c : Nat) (exists_ : c < ncpu) : SmpCalls ncpu (nproc + c) .idle (Smp.scheduler c >>= fun _ => .ret .idle)
  | interrupt (c lk : Nat) (chan : Chan) (exists_ : c < ncpu) :
      SmpCalls ncpu (nproc + c) .idle (Smp.handler (.scheduler c) lk chan >>= fun _ => .ret .idle)

def Ptable.userinit : Ptable :=
  { (⟨fun _ => ⟨.unused, 0, none, none, false⟩, 1, 0⟩ : Ptable).allocproc.2.setState 0 .runnable with initproc := 0 }

def bootSmp : Config SmpOp Smp KTask where
  shared := { table := .userinit, lock := fun _ => none, cpu := fun c => ⟨none, none, .scheduler c, 0⟩ }
  thread := fun i => if i < nproc then Smp.forkret (.proc i) >>= fun _ => .ret .out else .ret .idle

abbrev SmpReach (ncpu : Nat) (cond : Event SmpOp Smp → Prop) : List (Event SmpOp Smp) → Config SmpOp Smp KTask → Prop :=
  Reach (SmpOp.exec ncpu) (SmpCalls ncpu) cond bootSmp

end Xv6
