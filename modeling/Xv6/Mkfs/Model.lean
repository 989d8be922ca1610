import Xv6.Fs.Sysfile

set_option autoImplicit false

namespace Xv6.Mkfs

-- Why mkfs does not exit with status 0: a failed assert, or perror and exit(1).
inductive Fail where
  | assertion (text : String)
  | open_ (name : Name)
  | read
deriving DecidableEq

structure Mk where
  img : Nat → Block
  size : Nat
  freeinode : Nat
  freeblock : Nat

def rsect (m : Mk) (sec : Nat) : Except Fail Block := if sec < m.size then .ok (m.img sec) else .error .read

def wsect (m : Mk) (sec : Nat) (data : Block) : Mk := { m with img := upd m.img sec data, size := max m.size (sec + 1) }

def winode (m : Mk) (inum : Nat) (din : Dinode) : Except Fail Mk := do
  let buf ← rsect m (mkfsSuperblock.iblock inum)
  .ok (wsect m (mkfsSuperblock.iblock inum) (putDinode buf (inum % ipb) din))

def rinode (m : Mk) (inum : Nat) : Except Fail Dinode := do
  let buf ← rsect m (mkfsSuperblock.iblock inum)
  .ok (getDinode buf (inum % ipb))

def freshDinode (type : Nat) : Dinode where
  type := type
  major := 0
  minor := 0
  nlink := 1
  size := 0
  addrs := Buf.zero

def ialloc (m : Mk) (type : Nat) : Except Fail (Nat × Mk) := do
  let next ← winode { m with freeinode := m.freeinode + 1 } m.freeinode (freshDinode type)
  .ok (m.freeinode, next)

def balloc (m : Mk) : Except Fail Mk :=
  if m.freeblock < bsize * 8 then
    .ok (wsect m mkfsSuperblock.bmapstart ((List.range m.freeblock).foldl setBit Buf.zero))
  else .error (.assertion "used < BSIZE*8")

-- din.addrs[i], which is freeblock++ if it was 0.
def needAddr (m : Mk) (din : Dinode) (i : Nat) : Dinode × Mk :=
  if din.addr i = 0 then (din.setAddr i m.freeblock, { m with freeblock := m.freeblock + 1 }) else (din, m)

def needEntry (m : Mk) (ind j : Nat) : Except Fail (Nat × Mk) := do
  let indirect ← rsect m ind
  if indirect.getLE (4 * j) 4 = 0 then
    let indirect := indirect.putLE (4 * j) 4 m.freeblock
    .ok (indirect.getLE (4 * j) 4, wsect { m with freeblock := m.freeblock + 1 } ind indirect)
  else .ok (indirect.getLE (4 * j) 4, m)

def iappendBlock (m : Mk) (din : Dinode) (fbn : Nat) : Except Fail (Nat × Dinode × Mk) :=
  if fbn < ndirect then
    let (din, m) := needAddr m din fbn
    .ok (din.addr fbn, din, m)
  else do
    let (din, m) := needAddr m din ndirect
    let (x, m) ← needEntry m (din.addr ndirect) (fbn - ndirect)
    .ok (x, din, m)

def iappendChunk (m : Mk) (din : Dinode) (off : Nat) (p : List UInt8) : Except Fail (Dinode × Mk × Nat) :=
  if off / bsize < maxfile then do
    let (x, din, m) ← iappendBlock m din (off / bsize)
    let n1 := min p.length ((off / bsize + 1) * bsize - off)
    let buf ← rsect m x
    .ok (din, wsect m x (buf.splice (off - off / bsize * bsize) n1 fun i => p.getD i 0), n1)
  else .error (.assertion "fbn < MAXFILE")

-- Every iteration takes at least one byte, so the length of p bounds their number.
def iappendLoop : Nat → Mk → Dinode → Nat → List UInt8 → Except Fail (Dinode × Nat × Mk)
  | 0, m, din, off, _ => .ok (din, off, m)
  | left + 1, m, din, off, p =>
    if p.length > 0 then do
      let (din, m, n1) ← iappendChunk m din off p
      iappendLoop left m din (off + n1) (p.drop n1)
    else .ok (din, off, m)

def iappend (m : Mk) (inum : Nat) (p : List UInt8) : Except Fail Mk := do
  let din ← rinode m inum
  let (din, off, m) ← iappendLoop p.length m din din.size p
  winode m inum { din with size := off }

def direntBytes (de : Dirent) : List UInt8 := (List.range 16).map (Buf.get de)

-- The name, and what the calls of read return (none if the file cannot be opened).
structure HostFile where
  name : Name
  reads : Option (List (List UInt8))
  text : 0 ∉ name
  sizes : ∀ pieces ∈ reads, ∀ piece ∈ pieces, 0 < piece.length ∧ piece.length ≤ bsize

def underscore : UInt8 := 95

def strip (name : Name) : Name := if name.head? = some underscore then name.tail else name

def addPieces (inum : Nat) : Mk → List (List UInt8) → Except Fail Mk
  | m, [] => .ok m
  | m, piece :: rest => do
    let m ← iappend m inum piece
    addPieces inum m rest

def addFile (m : Mk) (file : HostFile) : Except Fail Mk :=
  if slash ∈ file.name then .error (.assertion "index(argv[i], '/') == 0")
  else
    match file.reads with
    | none => .error (.open_ file.name)
    | some pieces => do
      let (inum, m) ← ialloc m tFile
      let m ← iappend m rootino (direntBytes (Dirent.make (strip file.name) inum))
      addPieces inum m pieces

def addFiles : Mk → List HostFile → Except Fail Mk
  | m, [] => .ok m
  | m, file :: rest => do
    let m ← addFile m file
    addFiles m rest

def superBlock (sb : Superblock) : Block :=
  ((((((Buf.zero.putLE 0 4 sb.size).putLE 4 4 sb.nblocks).putLE 8 4 sb.ninodes).putLE 12 4 sb.nlog).putLE 16 4 sb.logstart).putLE
    20 4 sb.inodestart).putLE 24 4 sb.bmapstart

def start : Mk where
  img := upd (fun _ => Buf.zero) 1 (superBlock mkfsSuperblock)
  size := fssize
  freeinode := 1
  freeblock := mkfsNmeta

def makeRoot (m : Mk) : Except Fail Mk := do
  let (inum, m) ← ialloc m tDir
  if inum = rootino then do
    let m ← iappend m inum (direntBytes (Dirent.make dot inum))
    iappend m inum (direntBytes (Dirent.make dotdot inum))
  else .error (.assertion "rootino == ROOTINO")

def fixRoot (m : Mk) : Except Fail Mk := do
  let din ← rinode m rootino
  winode m rootino { din with size := (din.size / bsize + 1) * bsize }

-- main, for an image that can be opened; the files are its arguments from argv[2] on.
def mkfs (files : List HostFile) : Except Fail Mk := do
  let m ← makeRoot start
  let m ← addFiles m files
  let m ← fixRoot m
  balloc m

end Xv6.Mkfs
