import Mathlib.Data.List.Basic

set_option autoImplicit false

namespace Xv6.Sh

-- Lines are byte strings without the terminating NUL; a pointer into the line is the rest
-- of the line from there.
abbrev Word : Type := List UInt8

def whitespace : List UInt8 := [32, 9, 13, 10, 11]

-- "<|>&;()"
def symbols : List UInt8 := [60, 124, 62, 38, 59, 40, 41]

abbrev maxargs : Nat := 10

abbrev oRdonly : Nat := 0

abbrev oWronlyCreate : Nat := 0x201

inductive Cmd where
  | exec (argv : List Word)
  | redir (cmd : Cmd) (file : Word) (mode fd : Nat)
  | pipe (left right : Cmd)
  | list (left right : Cmd)
  | back (cmd : Cmd)
deriving DecidableEq

-- What gettoken returns; a word comes with its text from q to eq.
inductive Token where
  | word (text : Word)
  | lt
  | gt
  | gtgt
  | bar
  | amp
  | semi
  | lparen
  | rparen
deriving DecidableEq

def strchr (s : List UInt8) (c : UInt8) : Bool := s.contains c

-- *s
def star (s : List UInt8) : UInt8 := s.headD 0

def skip (s : List UInt8) : List UInt8 := s.dropWhile (strchr whitespace)

def plain (c : UInt8) : Bool := !strchr whitespace c && !strchr symbols c

def single : UInt8 → Option Token
  | 124 => some .bar
  | 40 => some .lparen
  | 41 => some .rparen
  | 59 => some .semi
  | 38 => some .amp
  | 60 => some .lt
  | _ => none

def switch (s : List UInt8) : Option Token × List UInt8 :=
  if star s = 0 then (none, s)
  else
    match single (star s) with
    | some t => (some t, s.tail)
    | none =>
      if star s = 62 then if star s.tail = 62 then (some .gtgt, s.tail.tail) else (some .gt, s.tail)
      else (some (.word (s.takeWhile plain)), s.dropWhile plain)

def gettoken (s : List UInt8) : Option Token × List UInt8 :=
  let r := switch (skip s)
  (r.1, skip r.2)

def peek (s toks : List UInt8) : Bool × List UInt8 :=
  let s := skip s
  (star s ≠ 0 && strchr toks (star s), s)

-- leftovers prints the rest of the line before panic("syntax").
inductive Parse (α : Type) where
  | ok (value : α)
  | panic (msg : String)
  | leftovers (s : List UInt8)
  | diverges

namespace Parse

def bind {α β : Type} : Parse α → (α → Parse β) → Parse β
  | .ok a, f => f a
  | .panic msg, _ => .panic msg
  | .leftovers s, _ => .leftovers s
  | .diverges, _ => .diverges

instance : Monad Parse where
  pure := .ok
  bind := bind

end Parse

inductive RedirOp where
  | lt
  | gt
  | gtgt
deriving DecidableEq

structure Redir where
  op : RedirOp
  file : Word
deriving DecidableEq

def redirOf (tok : Option Token) (file : Word) : Option Redir :=
  match tok with
  | some .lt => some ⟨.lt, file⟩
  | some .gt => some ⟨.gt, file⟩
  | some .gtgt => some ⟨.gtgt, file⟩
  | _ => none

def redircmd (cmd : Cmd) (r : Redir) : Cmd :=
  match r.op with
  | .lt => .redir cmd r.file oRdonly 0
  | .gt => .redir cmd r.file oWronlyCreate 1
  | .gtgt => .redir cmd r.file oWronlyCreate 1

-- parseredirs. The caller wraps the redirections around its command: parseexec goes on
-- filling the EXEC node that is already inside of them.
def redirsLoop : Nat → List UInt8 → Parse (List Redir × List UInt8)
  | 0, _ => .diverges
  | n + 1, s =>
    let (more, s) := peek s [60, 62]
    if more then
      let (tok, s) := gettoken s
      let (file, s) := gettoken s
      match file with
      | some (.word text) => do
        let (rs, s) ← redirsLoop n s
        return ((redirOf tok text).toList ++ rs, s)
      | _ => .panic "missing file for redirection"
    else return ([], s)

def parseredirs (s : List UInt8) : Parse (List Redir × List UInt8) := redirsLoop (s.length + 1) s

def wordsLoop : Nat → List Word → List Redir → List UInt8 → Parse ((List Word × List Redir) × List UInt8)
  | 0, _, _, _ => .diverges
  | n + 1, argv, rs, s =>
    let (stop, s) := peek s [124, 41, 38, 59]
    if stop then return ((argv, rs), s)
    else
      let (tok, s) := gettoken s
      match tok with
      | none => return ((argv, rs), s)
      | some (.word text) =>
        if argv.length + 1 ≥ maxargs then .panic "too many args"
        else do
          let (more, s) ← parseredirs s
          wordsLoop n (argv ++ [text]) (rs ++ more) s
      | some _ => .panic "syntax"

def backLoop : Nat → Cmd → List UInt8 → Parse (Cmd × List UInt8)
  | 0, _, _ => .diverges
  | n + 1, cmd, s =>
    let (more, s) := peek s [38]
    if more then backLoop n (.back cmd) (gettoken s).2 else return (cmd, s)

-- The number bounds the depth of the recursion.
mutual

def parseline : Nat → List UInt8 → Parse (Cmd × List UInt8)
  | 0, _ => .diverges
  | n + 1, s => do
    let (cmd, s) ← parsepipe n s
    let (cmd, s) ← backLoop (s.length + 1) cmd s
    let (more, s) := peek s [59]
    if more then
      let (right, s) ← parseline n (gettoken s).2
      return (.list cmd right, s)
    else return (cmd, s)

def parsepipe : Nat → List UInt8 → Parse (Cmd × List UInt8)
  | 0, _ => .diverges
  | n + 1, s => do
    let (cmd, s) ← parseexec n s
    let (more, s) := peek s [124]
    if more then
      let (right, s) ← parsepipe n (gettoken s).2
      return (.pipe cmd right, s)
    else return (cmd, s)

def parseexec : Nat → List UInt8 → Parse (Cmd × List UInt8)
  | 0, _ => .diverges
  | n + 1, s =>
    let (block, s) := peek s [40]
    if block then parseblock n s
    else do
      let (rs, s) ← parseredirs s
      let ((argv, rs), s) ← wordsLoop (s.length + 1) [] rs s
      return (rs.foldl redircmd (.exec argv), s)

def parseblock : Nat → List UInt8 → Parse (Cmd × List UInt8)
  | 0, _ => .diverges
  | n + 1, s =>
    let (opens, s) := peek s [40]
    if !opens then .panic "parseblock"
    else do
      let (cmd, s) ← parseline n (gettoken s).2
      let (closes, s) := peek s [41]
      if !closes then .panic "syntax - missing )"
      else do
        let (rs, s) ← parseredirs (gettoken s).2
        return (rs.foldl redircmd cmd, s)

end

def parsecmd (line : List UInt8) : Parse Cmd := do
  let (cmd, s) ← parseline (4 * line.length + 4) line
  let (_, s) := peek s []
  if s ≠ [] then .leftovers s else return cmd

end Xv6.Sh
