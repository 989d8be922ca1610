import Xv6.Lib.Prog
import Xv6.Sh.Parser

set_option autoImplicit false

namespace Xv6.Sh

abbrev nofile : Nat := 16

-- A file the first process has open, a file opened by name, or an end of a pipe.
inductive Obj where
  | initial (i : Nat)
  | file (name : Word) (mode : Nat)
  | readEnd (pipe : Nat)
  | writeEnd (pipe : Nat)
deriving DecidableEq

abbrev Table : Type := Nat → Option Obj

def fdalloc (t : Table) : Option Nat := (List.range nofile).find? fun fd => (t fd).isNone

namespace Table

def close (t : Table) (fd : Nat) : Table := upd t fd none

def put (t : Table) (o : Obj) : Option Nat × Table :=
  match fdalloc t with
  | none => (none, t)
  | some fd => (some fd, upd t fd (some o))

def dup (t : Table) (fd : Nat) : Option Nat × Table :=
  match t fd with
  | none => (none, t)
  | some o => t.put o

def pipe (t : Table) (id : Nat) : Option (Nat × Nat × Nat) × Table :=
  match t.put (.readEnd id) with
  | (none, _) => (none, t)
  | (some fd0, t') =>
    match t'.put (.writeEnd id) with
    | (none, _) => (none, t)
    | (some fd1, t'') => (some (fd0, fd1, id), t'')

end Table

abbrev Env : Type := Nat → Obj

inductive Mark where
  | waits (pipe : Nat)
  | enters (pipe : Nat)

-- fork returns true in the child, exec returns only when it fails. The number of a pipe, the side of a
-- fork, the environment of exec and the marks are bookkeeping: no decision depends on them.
inductive ShOp : Type → Type 1 where
  | close (fd : Nat) : ShOp Unit
  | open_ (file : Word) (mode : Nat) : ShOp (Option Nat)
  | dup (fd : Nat) : ShOp (Option Nat)
  | pipe : ShOp (Option (Nat × Nat × Nat))
  | fork (side : Option Nat) : ShOp Bool
  | wait : ShOp Unit
  | exec (argv : List Word) (env : Env) : ShOp Unit
  | exit : ShOp Unit
  | mark (m : Mark) : ShOp Unit

abbrev ShProg : Type 1 := Prog ShOp Unit

def exit : ShProg := .lift .exit

-- runcmd, with the environment that the enclosing commands ask for. runcmd never returns,
-- so the code after a call of it is left out.
def runcmd : Cmd → Env → ShProg
  | .exec argv, env => do
    if argv = [] then exit
    else do
      .lift (.exec argv env)
      exit
  | .redir cmd file mode fd, env => do
    .lift (.close fd)
    match ← .lift (.open_ file mode) with
    | none => exit
    | some _ => runcmd cmd (upd env fd (.file file mode))
  | .list left right, env => do
    if ← .lift (.fork none) then runcmd left env
    else do
      .lift .wait
      runcmd right env
  | .pipe left right, env => do
    match ← .lift .pipe with
    | none => exit
    | some (p0, p1, id) => do
      if ← .lift (.fork (some id)) then do
        .lift (.close 1)
        let _ ← .lift (.dup p1)
        .lift (.close p0)
        .lift (.close p1)
        runcmd left (upd env 1 (.writeEnd id))
      else if ← .lift (.fork none) then do
        .lift (.close 0)
        let _ ← .lift (.dup p0)
        .lift (.close p0)
        .lift (.close p1)
        .lift (.mark (.enters id))
        runcmd right (upd env 0 (.readEnd id))
      else do
        .lift (.close p0)
        .lift (.close p1)
        .lift (.mark (.waits id))
        .lift .wait
        .lift .wait
        exit
  | .back cmd, env => do
    if ← .lift (.fork none) then runcmd cmd env else exit

-- left lists the pipes on whose left side it is; code is none after exit.
structure Proc where
  fds : Table
  left : List Nat
  parent : Nat
  code : Option ShProg

structure Sys where
  proc : Nat → Option Proc
  nextPid : Nat
  nextPipe : Nat
  waits : List Nat
  enters : List Nat

def Foreign : ShProg → Prop
  | .ret _ => True
  | .op (.exec _ _) _ => False
  | .op (.mark _) _ => False
  | .op (.fork (some _)) _ => False
  | .op _ next => ∀ r, Foreign (next r)

namespace Sys

def set (s : Sys) (p : Nat) (pr : Proc) : Sys := { s with proc := upd s.proc p (some pr) }

structure At (s : Sys) (p : Nat) (pr : Proc) {β : Type} (act : ShOp β) (next : β → ShProg) : Prop where
  proc : s.proc p = some pr
  code : pr.code = some (.op act next)

end Sys

def Proc.goes (pr : Proc) (fds : Table) (prog : ShProg) : Proc := { pr with fds := fds, code := some prog }

def Sys.marked (s : Sys) : Mark → Sys
  | .waits id => { s with waits := id :: s.waits }
  | .enters id => { s with enters := id :: s.enters }

-- exit closes all files and gives the children to init (process 0, outside of the system).
def Sys.exited (s : Sys) (p : Nat) (pr : Proc) : Sys :=
  { s with proc := fun q =>
      if q = p then some { pr with fds := fun _ => none, code := none }
      else (s.proc q).map fun child => if child.parent = p then { child with parent := 0 } else child }

inductive Step : Sys → Sys → Prop where
  | close (s : Sys) (p : Nat) (pr : Proc) (fd : Nat) (next : Unit → ShProg) (at_ : s.At p pr (.close fd) next) :
      Step s (s.set p (pr.goes (pr.fds.close fd) (next ())))
  | open_ (s : Sys) (p : Nat) (pr : Proc) (file : Word) (mode : Nat) (next : Option Nat → ShProg)
      (at_ : s.At p pr (.open_ file mode) next) :
      Step s (s.set p (pr.goes (pr.fds.put (.file file mode)).2 (next (pr.fds.put (.file file mode)).1)))
  | dup (s : Sys) (p : Nat) (pr : Proc) (fd : Nat) (next : Option Nat → ShProg) (at_ : s.At p pr (.dup fd) next) :
      Step s (s.set p (pr.goes (pr.fds.dup fd).2 (next (pr.fds.dup fd).1)))
  | pipe (s : Sys) (p : Nat) (pr : Proc) (next : Option (Nat × Nat × Nat) → ShProg) (at_ : s.At p pr .pipe next) :
      Step s { s.set p (pr.goes (pr.fds.pipe s.nextPipe).2 (next (pr.fds.pipe s.nextPipe).1)) with nextPipe := s.nextPipe + 1 }
  | fork (s : Sys) (p : Nat) (pr : Proc) (side : Option Nat) (next : Bool → ShProg) (at_ : s.At p pr (.fork side) next) :
      Step s { (s.set p (pr.goes pr.fds (next false))).set s.nextPid ⟨pr.fds, side.toList ++ pr.left, p, some (next true)⟩ with
        nextPid := s.nextPid + 1 }
  | reap (s : Sys) (p : Nat) (pr : Proc) (q : Nat) (child : Proc) (next : Unit → ShProg) (at_ : s.At p pr .wait next)
      (other : q ≠ p) (found : s.proc q = some child) (mine : child.parent = p) (dead : child.code = none) :
      Step s { s.set p (pr.goes pr.fds (next ())) with proc := upd (s.set p (pr.goes pr.fds (next ()))).proc q none }
  | childless (s : Sys) (p : Nat) (pr : Proc) (next : Unit → ShProg) (at_ : s.At p pr .wait next)
      (none_ : ∀ q child, s.proc q = some child → child.parent ≠ p) : Step s (s.set p (pr.goes pr.fds (next ())))
  | execFails (s : Sys) (p : Nat) (pr : Proc) (argv : List Word) (env : Env) (next : Unit → ShProg)
      (at_ : s.At p pr (.exec argv env) next) : Step s (s.set p (pr.goes pr.fds (next ())))
  | exec (s : Sys) (p : Nat) (pr : Proc) (argv : List Word) (env : Env) (next : Unit → ShProg) (prog : ShProg)
      (at_ : s.At p pr (.exec argv env) next) (foreign : Foreign prog) : Step s (s.set p (pr.goes pr.fds prog))
  | exit (s : Sys) (p : Nat) (pr : Proc) (next : Unit → ShProg) (at_ : s.At p pr .exit next) : Step s (s.exited p pr)
  | mark (s : Sys) (p : Nat) (pr : Proc) (m : Mark) (next : Unit → ShProg) (at_ : s.At p pr (.mark m) next) :
      Step s ((s.set p (pr.goes pr.fds (next ()))).marked m)

def Env.table (env : Env) : Table := fun fd => if fd < 3 then some (env fd) else none

def start (cmd : Cmd) : Sys where
  proc := upd (fun _ => none) 1 (some ⟨Env.table .initial, [], 0, some (runcmd cmd .initial)⟩)
  nextPid := 2
  nextPipe := 0
  waits := []
  enters := []

inductive Runs (cmd : Cmd) : Sys → Prop where
  | start : Runs cmd (start cmd)
  | step (s s' : Sys) (before : Runs cmd s) (step : Step s s') : Runs cmd s'

end Xv6.Sh
