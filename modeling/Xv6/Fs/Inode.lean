import Xv6.Log.Model

set_option autoImplicit false

namespace Xv6

-- struct dinode. addrs is kept as its 52 bytes: block numbers for block-mapped
-- inodes, file contents for T_SFILE.
structure Dinode where
  type : Nat
  major : Nat
  minor : Nat
  nlink : Nat
  size : Nat
  addrs : Buf 52

namespace Dinode

def addr (d : Dinode) (i : Nat) : Nat := d.addrs.getLE (4 * i) 4

def setAddr (d : Dinode) (i b : Nat) : Dinode := { d with addrs := d.addrs.putLE (4 * i) 4 b }

end Dinode

def getDinode (data : Block) (slot : Nat) : Dinode where
  type := data.getLE (64 * slot) 2
  major := data.getLE (64 * slot + 2) 2
  minor := data.getLE (64 * slot + 4) 2
  nlink := data.getLE (64 * slot + 6) 2
  size := data.getLE (64 * slot + 8) 4
  addrs := Buf.ofFn fun o => data.get (64 * slot + 12 + o)

def putDinode (data : Block) (slot : Nat) (d : Dinode) : Block :=
  (((((data.putLE (64 * slot) 2 d.type).putLE (64 * slot + 2) 2 d.major).putLE (64 * slot + 4) 2 d.minor).putLE
    (64 * slot + 6) 2 d.nlink).putLE (64 * slot + 8) 4 d.size).splice (64 * slot + 12) 52 d.addrs.get

def initDinode (data : Block) (slot type : Nat) : Block :=
  (data.splice (64 * slot) 64 (fun _ => 0)).putLE (64 * slot) 2 type

-- struct inode: din is the copy of the disk inode, valid and busy are the flags.
structure Inode where
  inum : Nat
  ref : Int
  locked : Bool
  pid : Nat
  valid : Bool
  busy : Bool
  din : Dinode

inductive FdType where
  | none
  | pipe
  | inode
deriving DecidableEq, Repr

structure File where
  type : FdType
  ref : Int
  readable : Bool
  writable : Bool
  ip : Nat
  off : Nat

inductive ProcState where
  | unused
  | embryo
  | sleeping
  | runnable
  | running
  | zombie
deriving DecidableEq, Repr

def ProcState.alive : ProcState → Bool
  | .sleeping => true
  | .runnable => true
  | .running => true
  | _ => false

structure Proc where
  state : ProcState
  ofile : Nat → Option Nat
  cwd : Option Nat

-- Kernel memory the file system works on. oracle supplies the outcomes decided
-- outside it: device transfers, page allocation, the contents of an executable.
structure Mem where
  icache : Nat → Inode
  ftable : Nat → File
  proc : Nat → Proc
  oracle : Nat → Nat

inductive Note where
  | createFailed
  | linkInto (dp : Nat)
  | freeing (ip : Nat)
deriving DecidableEq, Repr

abbrev Fs : Type := Sys Mem
abbrev FsOp : Type → Type 1 := Op Mem Note
abbrev FsM (α : Type) : Type 1 := KProg Mem Note α

namespace Mem

def setInode (m : Mem) (k : Nat) (ip : Inode) : Mem := { m with icache := upd m.icache k ip }

def setFile (m : Mem) (f : Nat) (file : File) : Mem := { m with ftable := upd m.ftable f file }

def setProc (m : Mem) (p : Nat) (proc : Proc) : Mem := { m with proc := upd m.proc p proc }

end Mem

def kpanic {α : Type} (msg : String) : FsM α := .lift (.mem fun _ => .panic msg)

def probe (note : Note) : FsM Unit := .lift (.probe note)

def choose : FsM Nat := .lift (.mem fun m => .ok (m.oracle 0) { m with oracle := fun i => m.oracle (i + 1) })

def getInode (k : Nat) : FsM Inode := .lift (.mem fun m => .ok (m.icache k) m)

def modInode (k : Nat) (f : Inode → Inode) : FsM Unit :=
  .lift (.mem fun m => .ok () (m.setInode k (f (m.icache k))))

def modDin (k : Nat) (f : Dinode → Dinode) : FsM Unit := modInode k fun ip => { ip with din := f ip.din }

def readLE (b off len : Nat) : FsM Nat := .lift (.buf b fun data m => .keep (data.getLE off len) m)

def bzero (b : Nat) : FsM Unit := .lift (.buf b fun _ m => .logged () Buf.zero m)

def bitSet (data : Block) (bi : Nat) : Bool := (data.get (bi / 8) &&& UInt8.ofNat (1 <<< (bi % 8))) != 0

def setBit (data : Block) (bi : Nat) : Block :=
  data.splice (bi / 8) 1 fun _ => data.get (bi / 8) ||| UInt8.ofNat (1 <<< (bi % 8))

def clearBit (data : Block) (bi : Nat) : Block :=
  data.splice (bi / 8) 1 fun _ => data.get (bi / 8) &&& ~~~ UInt8.ofNat (1 <<< (bi % 8))

def findFree (data : Block) (bi : Nat) : Nat → Option Nat
  | 0 => none
  | left + 1 => if bitSet data bi then findFree data (bi + 1) left else some bi

def ballocFrom (sb : Superblock) (b : Nat) : Nat → FsM Nat
  | 0 => kpanic "balloc: out of blocks"
  | left + 1 => do
    let found ← .lift (.buf (sb.bblock b) fun data m =>
      match findFree data 0 (min bpb (sb.size - b)) with
      | some bi => .logged (some bi) (setBit data bi) m
      | none => .keep none m)
    match found with
    | some bi => do
      bzero (b + bi)
      pure (b + bi)
    | none => ballocFrom sb (b + bpb) left

def balloc (sb : Superblock) : FsM Nat := ballocFrom sb 0 ((sb.size + bpb - 1) / bpb)

def bfree (sb : Superblock) (b : Nat) : FsM Unit :=
  .lift (.buf (sb.bblock b) fun data m =>
    if bitSet data (b % bpb) then .logged () (clearBit data (b % bpb)) m else .panic "freeing free block")

def iget (inum : Nat) : FsM Nat :=
  .lift (.mem fun m =>
    match (List.range ninode).find? fun k => 0 < (m.icache k).ref ∧ (m.icache k).inum = inum with
    | some k => .ok k (m.setInode k { m.icache k with ref := (m.icache k).ref + 1 })
    | none =>
      match (List.range ninode).find? fun k => (m.icache k).ref = 0 with
      | some k => .ok k (m.setInode k { m.icache k with inum := inum, ref := 1, valid := false, busy := false })
      | none => .panic "iget: no inodes")

def idup (k : Nat) : FsM Nat := do
  modInode k fun ip => { ip with ref := ip.ref + 1 }
  pure k

def iallocFrom (sb : Superblock) (type inum : Nat) : Nat → FsM Nat
  | 0 => kpanic "ialloc: no inodes"
  | left + 1 => do
    let free ← .lift (.buf (sb.iblock inum) fun data m =>
      if (getDinode data (inum % ipb)).type = 0 then .logged true (initDinode data (inum % ipb) type) m
      else .keep false m)
    if free then iget inum else iallocFrom sb type (inum + 1) left

def ialloc (sb : Superblock) (type : Nat) : FsM Nat := iallocFrom sb type 1 (sb.ninodes - 1)

def iupdate (sb : Superblock) (k : Nat) : FsM Unit := do
  let ip ← getInode k
  .lift (.buf (sb.iblock ip.inum) fun data m =>
    .logged () (putDinode data ((m.icache k).inum % ipb) (m.icache k).din) m)

def acquiresleep (p k : Nat) : FsM Unit :=
  .lift (.mem fun m =>
    if (m.icache k).locked then .blocked
    else .ok () (m.setInode k { m.icache k with locked := true, pid := p }))

def releasesleep (k : Nat) : FsM Unit := modInode k fun ip => { ip with locked := false, pid := 0 }

def ilock (sb : Superblock) (p k : Nat) : FsM Unit := do
  let ip ← getInode k
  if ip.ref < 1 then kpanic "ilock"
  else do
    acquiresleep p k
    let ip ← getInode k
    if ip.valid then pure ()
    else do
      .lift (.buf (sb.iblock ip.inum) fun data m =>
        .keep () (m.setInode k { m.icache k with din := getDinode data ((m.icache k).inum % ipb) }))
      modInode k fun ip => { ip with valid := true }
      let ip ← getInode k
      if ip.din.type = 0 then kpanic "ilock: no type" else pure ()

def iunlock (k : Nat) : FsM Unit := do
  let ip ← getInode k
  if !ip.locked || ip.ref < 1 then kpanic "iunlock"
  else releasesleep k

def itruncDirect (sb : Superblock) (k i : Nat) : FsM Unit := do
  let ip ← getInode k
  if ip.din.addr i ≠ 0 then do
    bfree sb (ip.din.addr i)
    modDin k fun d => d.setAddr i 0
  else pure ()

def itruncEntry (sb : Superblock) (ind j : Nat) : FsM Unit := do
  let a ← readLE ind (4 * j) 4
  if a ≠ 0 then bfree sb a else pure ()

def itruncIndirect (sb : Superblock) (k : Nat) : FsM Unit := do
  let ip ← getInode k
  if ip.din.addr ndirect ≠ 0 then do
    Prog.loop (itruncEntry sb (ip.din.addr ndirect)) 0 nindirect
    bfree sb (ip.din.addr ndirect)
    modDin k fun d => d.setAddr ndirect 0
  else pure ()

def itrunc (sb : Superblock) (k : Nat) : FsM Unit := do
  Prog.loop (itruncDirect sb k) 0 ndirect
  itruncIndirect sb k
  modDin k fun d => { d with size := 0 }
  iupdate sb k

-- iput's first section under icache.lock.
def iputCheck (k : Nat) : FsM Bool :=
  .lift (.mem fun m =>
    if (m.icache k).ref = 1 ∧ (m.icache k).valid ∧ (m.icache k).din.nlink = 0 then
      if (m.icache k).busy then .panic "iput busy"
      else .ok true (m.setInode k { m.icache k with busy := true })
    else .ok false (m.setInode k { m.icache k with ref := (m.icache k).ref - 1 }))

def iputDone (k : Nat) : FsM Unit :=
  modInode k fun ip => { ip with valid := false, busy := false, ref := ip.ref - 1 }

-- A T_SFILE has no blocks to free.
def iputContents (sb : Superblock) (k : Nat) : FsM Unit := do
  let ip ← getInode k
  if ip.din.type ≠ tSfile then itrunc sb k else pure ()

def iputFree (sb : Superblock) (k : Nat) : FsM Unit := do
  probe (.freeing k)
  iputContents sb k
  modDin k fun d => { d with type := 0 }
  iupdate sb k
  iputDone k

def iput (sb : Superblock) (k : Nat) : FsM Unit := do
  let free ← iputCheck k
  if free then iputFree sb k else pure ()

def iunlockput (sb : Superblock) (k : Nat) : FsM Unit := do
  iunlock k
  iput sb k

def bmapDirect (sb : Superblock) (k i : Nat) : FsM Nat := do
  let ip ← getInode k
  if ip.din.addr i = 0 then do
    let addr ← balloc sb
    modDin k fun d => d.setAddr i addr
    pure addr
  else pure (ip.din.addr i)

def bmapEntry (sb : Superblock) (ind j : Nat) : FsM Nat := do
  let addr ← readLE ind (4 * j) 4
  if addr = 0 then do
    let fresh ← balloc sb
    .lift (.buf ind fun data m => .logged () (data.putLE (4 * j) 4 fresh) m)
    pure fresh
  else pure addr

def bmap (sb : Superblock) (k bn : Nat) : FsM Nat :=
  if bn < ndirect then bmapDirect sb k bn
  else if bn - ndirect < nindirect then do
    let ind ← bmapDirect sb k ndirect
    bmapEntry sb ind (bn - ndirect)
  else kpanic "bmap: out of range"

def chooseBytes (n : Nat) : FsM (List UInt8) :=
  .lift (.mem fun m => .ok ((List.range n).map fun i => UInt8.ofNat (m.oracle i))
    { m with oracle := fun i => m.oracle (i + n) })

-- consoleread: what arrives, and whether the reader is killed, is up to the oracle.
def consoleread (sb : Superblock) (p k n : Nat) : FsM (Option (List UInt8)) := do
  iunlock k
  let r ← choose
  let bytes ← chooseBytes (min n (r - 1))
  ilock sb p k
  pure (if r = 0 then none else some bytes)

def consolewrite (sb : Superblock) (p k n : Nat) : FsM (Option Nat) := do
  iunlock k
  ilock sb p k
  pure (some n)

def readiLoop (sb : Superblock) (k n : Nat) : Nat → Nat → Nat → FsM (List UInt8)
  | 0, _, _ => pure []
  | left + 1, tot, off =>
    if tot < n then do
      let sector ← bmap sb k (off / bsize)
      if sector = 0 then kpanic "readi: trying to read a block that was never allocated"
      else do
        let m := min (n - tot) (bsize - off % bsize)
        let bytes ← .lift (.buf sector fun data mem =>
          .keep ((List.range m).map fun i => data.get (off % bsize + i)) mem)
        let rest ← readiLoop sb k n left (tot + m) (off + m)
        pure (bytes ++ rest)
    else pure []

def readiCount (size off n : Nat) : Nat := if off + n > size then size - off else n

-- none is the return value -1; some bytes is a return of their number.
def readi (sb : Superblock) (p k off n : Nat) : FsM (Option (List UInt8)) := do
  let ip ← getInode k
  if ip.din.type = tDev then
    if ndev ≤ ip.din.major ∨ ip.din.major ≠ console then pure none else consoleread sb p k n
  else if off > ip.din.size ∨ (off + n) % 2 ^ 32 < off then pure none
  else if ip.din.type = tSfile then
    pure (some ((List.range (readiCount ip.din.size off n)).map fun i => ip.din.addrs.get (off + i)))
  else do
    let bytes ← readiLoop sb k (readiCount ip.din.size off n) (readiCount ip.din.size off n) 0 off
    pure (some bytes)

-- The loop returns the final n and off.
def writeiLoop (sb : Superblock) (k : Nat) (src : Nat → UInt8) (n : Nat) : Nat → Nat → Nat → FsM (Nat × Nat)
  | 0, _, off => pure (n, off)
  | left + 1, tot, off =>
    if tot < n then do
      let sector ← bmap sb k (off / bsize)
      if sector = 0 then pure (tot, off)
      else do
        let m := min (n - tot) (bsize - off % bsize)
        .lift (.buf sector fun data mem =>
          .written () (data.splice (off % bsize) m fun i => src (tot + i)) mem)
        writeiLoop sb k src n left (tot + m) (off + m)
    else pure (n, off)

def writeiData (sb : Superblock) (k : Nat) (src : Nat → UInt8) (off n : Nat) : FsM (Nat × Nat) := do
  let ip ← getInode k
  if ip.din.type = tSfile then do
    modDin k fun d => { d with addrs := d.addrs.splice off n src }
    pure (n, off + n)
  else writeiLoop sb k src n n 0 off

def writeiGrow (k n off : Nat) : FsM Unit := do
  let ip ← getInode k
  if n > 0 ∧ off > ip.din.size then modDin k fun d => { d with size := off } else pure ()

def writeiUpdate (sb : Superblock) (k n off : Nat) : FsM Unit := do
  let ip ← getInode k
  if ip.din.type = tSfile ∨ (n > 0 ∧ off > ip.din.size) then do
    writeiGrow k n off
    iupdate sb k
  else pure ()

def writeiCount (type off n : Nat) : Nat :=
  let n := if off + n > maxfile * bsize then maxfile * bsize - off else n
  if type = tSfile ∧ off + n > (ndirect + 1) * 4 then (ndirect + 1) * 4 - off else n

def writei (sb : Superblock) (p k : Nat) (src : Nat → UInt8) (off n : Nat) : FsM (Option Nat) := do
  let ip ← getInode k
  if ip.din.type = tDev then
    if ndev ≤ ip.din.major ∨ ip.din.major ≠ console then pure none else consolewrite sb p k n
  else if off > ip.din.size ∨ (off + n) % 2 ^ 32 < off then pure none
  else do
    let done ← writeiData sb k src off (writeiCount ip.din.type off n)
    writeiUpdate sb k done.1 done.2
    pure (some done.1)

end Xv6
