import Xv6.Lib.Machine
import Xv6.Param

set_option autoImplicit false

namespace Xv6

-- struct log. The header's block[0..n) is a list; n is its length.
structure Log where
  start : Nat
  size : Nat
  outstanding : Int
  committing : Bool
  lh : List Nat

-- The kernel as the log sees it. cache is what bread returns for a block: the
-- cached buffer, or the disk block when no buffer holds it. M is the memory of
-- the client that modifies buffers (the inode cache, file table and processes).
structure Sys (M : Type) where
  cache : Nat → Block
  disk : Nat → Block
  log : Log
  mem : M

-- What a section holding a buffer does with it: brelse unchanged, log_write, or
-- bwrite. The client's memory may change while the buffer is held.
inductive Sec (M β : Type) where
  | keep (r : β) (m : M)
  | logged (r : β) (data : Block) (m : M)
  | written (r : β) (data : Block) (m : M)
  | panic (msg : String)

-- Atomic sections. probe marks a program point for specifications; it does nothing.
inductive Op (M N : Type) : Type → Type 1 where
  | beginOp : Op M N Unit
  | endOp : Op M N Bool
  | endCommit : Op M N Unit
  | lhN : Op M N Nat
  | readHead : Op M N Unit
  | writeHead : Op M N Unit
  | writeLog (tail : Nat) : Op M N Unit
  | install (tail : Nat) : Op M N Unit
  | clearLog : Op M N Unit
  | mem {β : Type} (f : M → Res M β) : Op M N β
  | buf {β : Type} (b : Nat) (f : Block → M → Sec M β) : Op M N β
  | probe (note : N) : Op M N Unit

-- struct logheader in the first bytes of the header block: n, then block[].
def putEntries (data : Block) (i : Nat) : List Nat → Block
  | [] => data
  | b :: rest => putEntries (data.putLE (4 + 4 * i) 4 b) (i + 1) rest

def putHeader (data : Block) (lh : List Nat) : Block := putEntries (data.putLE 0 4 lh.length) 0 lh

-- n is a signed int: a negative count reads no entry.
def headerCount (data : Block) : Nat :=
  if data.getLE 0 4 < 2 ^ 31 then data.getLE 0 4 else 0

def getHeader (data : Block) : List Nat :=
  (List.range (headerCount data)).map fun i => data.getLE (4 + 4 * i) 4

def absorb (b : Nat) : List Nat → List Nat
  | [] => [b]
  | x :: rest => if x = b then b :: rest else x :: absorb b rest

namespace Sys

variable {M : Type}

def setLog (s : Sys M) (log : Log) : Sys M := { s with log := log }

def bwrite (s : Sys M) (b : Nat) (data : Block) : Sys M :=
  { s with cache := upd s.cache b data, disk := upd s.disk b data }

def logWrite (s : Sys M) (b : Nat) (data : Block) : Res (Sys M) Unit :=
  if logsize ≤ s.log.lh.length ∨ (s.log.size : Int) - 1 ≤ s.log.lh.length then
    .panic "too big a transaction"
  else if s.log.outstanding < 1 then
    .panic "log_write outside of trans"
  else
    .ok () { s with cache := upd s.cache b data, log := { s.log with lh := absorb b s.log.lh } }

def beginOp (s : Sys M) : Res (Sys M) Unit :=
  if s.log.committing then .blocked
  else if (s.log.lh.length : Int) + (s.log.outstanding + 1) * maxopblocks > logsize then .blocked
  else .ok () (s.setLog { s.log with outstanding := s.log.outstanding + 1 })

def endOp (s : Sys M) : Res (Sys M) Bool :=
  if s.log.committing then .panic "log.committing"
  else if s.log.outstanding - 1 = 0 then
    .ok true (s.setLog { s.log with outstanding := s.log.outstanding - 1, committing := true })
  else .ok false (s.setLog { s.log with outstanding := s.log.outstanding - 1 })

def endCommit (s : Sys M) : Sys M := s.setLog { s.log with committing := false }

def readHead (s : Sys M) : Sys M := s.setLog { s.log with lh := getHeader (s.cache s.log.start) }

def writeHead (s : Sys M) : Sys M := s.bwrite s.log.start (putHeader (s.cache s.log.start) s.log.lh)

def writeLog (s : Sys M) (tail : Nat) : Sys M :=
  s.bwrite (s.log.start + tail + 1) (s.cache (s.log.lh.getD tail 0))

def install (s : Sys M) (tail : Nat) : Sys M :=
  s.bwrite (s.log.lh.getD tail 0) (s.cache (s.log.start + tail + 1))

def clearLog (s : Sys M) : Sys M := s.setLog { s.log with lh := [] }

def onMem {β : Type} (s : Sys M) : Res M β → Res (Sys M) β
  | .ok r m => .ok r { s with mem := m }
  | .panic msg => .panic msg
  | .blocked => .blocked

def onBuf {β : Type} (s : Sys M) (b : Nat) : Sec M β → Res (Sys M) β
  | .keep r m => .ok r { s with mem := m }
  | .logged r data m =>
    match ({ s with mem := m } : Sys M).logWrite b data with
    | .ok _ next => .ok r next
    | .panic msg => .panic msg
    | .blocked => .blocked
  | .written r data m => .ok r (({ s with mem := m } : Sys M).bwrite b data)
  | .panic msg => .panic msg

end Sys

def Op.exec {M N β : Type} : Op M N β → Sys M → Res (Sys M) β
  | .beginOp, s => s.beginOp
  | .endOp, s => s.endOp
  | .endCommit, s => .ok () s.endCommit
  | .lhN, s => .ok s.log.lh.length s
  | .readHead, s => .ok () s.readHead
  | .writeHead, s => .ok () s.writeHead
  | .writeLog tail, s => .ok () (s.writeLog tail)
  | .install tail, s => .ok () (s.install tail)
  | .clearLog, s => .ok () s.clearLog
  | .mem f, s => s.onMem (f s.mem)
  | .buf b f, s => s.onBuf b (f (s.cache b) s.mem)
  | .probe _, s => .ok () s

section

variable {M N : Type}

abbrev KProg (M N α : Type) : Type 1 := Prog (Op M N) α

def beginOp : KProg M N Unit := .lift .beginOp

def writeLog : KProg M N Unit := do
  let n ← .lift .lhN
  Prog.loop (fun tail => .lift (.writeLog tail)) 0 n

def writeHead : KProg M N Unit := .lift .writeHead

def installTrans : KProg M N Unit := do
  let n ← .lift .lhN
  Prog.loop (fun tail => .lift (.install tail)) 0 n

def commit : KProg M N Unit := do
  let n ← .lift .lhN
  if n > 0 then
    writeLog
    writeHead
    installTrans
    .lift .clearLog
    writeHead

def endOp : KProg M N Unit := do
  let doCommit ← .lift .endOp
  if doCommit then
    commit
    .lift .endCommit

def recoverFromLog : KProg M N Unit := do
  .lift .readHead
  installTrans
  .lift .clearLog
  writeHead

end

end Xv6
