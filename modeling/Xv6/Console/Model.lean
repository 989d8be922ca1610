import Xv6.Lib.Machine
import Xv6.Lib.Ring

set_option autoImplicit false

namespace Xv6.Console

abbrev inputBuf : Nat := 128

abbrev backspace : Nat := 0x100

def ctrl (x : Char) : UInt8 := .ofNat (x.toNat - '@'.toNat)

def newline : UInt8 := 10

def carriageReturn : UInt8 := 13

def delete : UInt8 := 0x7f

-- struct input. The indices are 32-bit counters that run freely.
structure Input where
  buf : Nat → UInt8
  r : Nat
  w : Nat
  e : Nat

-- asleep is set while the process is SLEEPING on &input.r.
structure Reader where
  asleep : Bool
  killed : Bool

-- out lists the arguments of consputc.
structure Cons where
  input : Input
  proc : Nat → Reader
  out : List Nat

def dec (x : Nat) : Nat := if x = 0 then 2 ^ 32 - 1 else x - 1

namespace Input

def put (i : Input) (c : UInt8) : Input := { i with buf := upd i.buf (i.e % inputBuf) c, e := (i.e + 1) % 2 ^ 32 }

def erase (i : Input) : Input := { i with e := dec i.e }

def commit (i : Input) : Input := { i with w := i.e }

def next (i : Input) : Input := { i with r := (i.r + 1) % 2 ^ 32 }

def unread (i : Input) : Input := { i with r := dec i.r }

end Input

namespace Cons

def consputc (s : Cons) (c : Nat) : Cons := { s with out := s.out ++ [c] }

def wakeup (s : Cons) : Cons := { s with proc := fun q => { s.proc q with asleep := false } }

def sleep (s : Cons) (p : Nat) : Cons := { s with proc := upd s.proc p { s.proc p with asleep := true } }

end Cons

-- The loop of ^U. It ends at e = w, so e - w bounds the number of rounds.
def killLine : Nat → Cons → Cons
  | 0, s => s
  | left + 1, s =>
    if s.input.e ≠ s.input.w ∧ s.input.buf (dec s.input.e % inputBuf) ≠ newline then
      killLine left (({ s with input := s.input.erase } : Cons).consputc backspace)
    else s

def ordinary (c : UInt8) (s : Cons) : Cons :=
  if c ≠ 0 ∧ ringCount (2 ^ 32) s.input.r s.input.e < inputBuf then
    let c := if c = carriageReturn then newline else c
    let s := ({ s with input := s.input.put c } : Cons).consputc c.toNat
    if c = newline ∨ c = ctrl 'D' ∨ s.input.e = (s.input.r + inputBuf) % 2 ^ 32 then
      ({ s with input := s.input.commit } : Cons).wakeup
    else s
  else s

-- One round of consoleintr's loop; the flag is doprocdump.
def intrChar (c : UInt8) (s : Cons) : Bool × Cons :=
  if c = ctrl 'P' then (true, s)
  else if c = ctrl 'U' then (false, killLine (ringCount (2 ^ 32) s.input.w s.input.e) s)
  else if c = ctrl 'H' ∨ c = delete then
    if s.input.e ≠ s.input.w then (false, ({ s with input := s.input.erase } : Cons).consputc backspace) else (false, s)
  else (false, ordinary c s)

def intrLoop : List UInt8 → Bool → Cons → Bool × Cons
  | [], doprocdump, s => (doprocdump, s)
  | c :: rest, doprocdump, s =>
    let r := intrChar c s
    intrLoop rest (doprocdump || r.1) r.2

inductive ReadResult where
  | returned (dst : List UInt8)
  | failed (dst : List UInt8)
  | asleep (dst : List UInt8)

def readLoop (p target : Nat) : Nat → List UInt8 → Cons → ReadResult × Cons
  | 0, dst, s => (.returned dst, s)
  | n + 1, dst, s =>
    if s.input.r = s.input.w then
      if (s.proc p).killed then (.failed dst, s) else (.asleep dst, s.sleep p)
    else
      let c := s.input.buf (s.input.r % inputBuf)
      let s := { s with input := s.input.next }
      if c = ctrl 'D' then
        if n + 1 < target then (.returned dst, { s with input := s.input.unread }) else (.returned dst, s)
      else if c = newline then (.returned (dst ++ [c]), s)
      else readLoop p target n (dst ++ [c]) s

def writeLoop (buf : Nat → UInt8) : Nat → Nat → Cons → Cons
  | 0, _, s => s
  | left + 1, i, s => writeLoop buf left (i + 1) (s.consputc (buf i).toNat)

-- Sections: the code between taking and giving up cons.lock, and kill.
inductive ConsoleOp : Type → Type 1 where
  | intr (chars : List UInt8) : ConsoleOp Bool
  | read (p target : Nat) (dst : List UInt8) : ConsoleOp ReadResult
  | write (buf : Nat → UInt8) (n : Int) : ConsoleOp Unit
  | kill (q : Nat) : ConsoleOp Unit

def ConsoleOp.exec {β : Type} : ConsoleOp β → Cons → Res Cons β
  | .intr chars, s =>
    let r := intrLoop chars false s
    .ok r.1 r.2
  | .read p target dst, s =>
    if (s.proc p).asleep then .blocked
    else
      let r := readLoop p target (target - dst.length) dst s
      .ok r.1 r.2
  | .write buf n, s => .ok () (writeLoop buf n.toNat 0 s)
  | .kill q, s => .ok () { s with proc := upd s.proc q ⟨false, true⟩ }

inductive Task where
  | idle
  | reading (target : Nat) (dst : List UInt8)
deriving DecidableEq

def ReadResult.task (target : Nat) : ReadResult → Task
  | .asleep dst => .reading target dst
  | _ => .idle

def consoleintr (chars : List UInt8) : Prog ConsoleOp Task := do
  let _doprocdump ← .lift (.intr chars)
  pure .idle

def consolereadOn (p target : Nat) (dst : List UInt8) : Prog ConsoleOp Task := do
  let r ← .lift (.read p target dst)
  pure (r.task target)

def consoleread (p : Nat) (n : Int) : Prog ConsoleOp Task := consolereadOn p n.toNat []

def consolewrite (buf : Nat → UInt8) (n : Int) : Prog ConsoleOp Task := do
  .lift (.write buf n)
  pure .idle

def kill (q : Nat) : Prog ConsoleOp Task := do
  .lift (.kill q)
  pure .idle

-- consoleintr runs on whatever process the interrupt finds.
inductive Calls : Nat → Task → Prog ConsoleOp Task → Prop where
  | intr (p : Nat) (chars : List UInt8) : Calls p .idle (consoleintr chars)
  | read (p : Nat) (n : Int) : Calls p .idle (consoleread p n)
  | readOn (p target : Nat) (dst : List UInt8) : Calls p (.reading target dst) (consolereadOn p target dst)
  | write (p : Nat) (buf : Nat → UInt8) (n : Int) : Calls p .idle (consolewrite buf n)
  | kill (p q : Nat) : Calls p .idle (kill q)

abbrev ConsoleEvent : Type 1 := Event ConsoleOp Cons

structure Cons.Fresh (s : Cons) : Prop where
  counters : s.input.r = 0 ∧ s.input.w = 0 ∧ s.input.e = 0
  awake : ∀ p, (s.proc p).asleep = false

end Xv6.Console
