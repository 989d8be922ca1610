import Xv6.Fs.Dir

set_option autoImplicit false

namespace Xv6

def getFile (f : Nat) : FsM File := .lift (.mem fun m => .ok (m.ftable f) m)

def modFile (f : Nat) (g : File → File) : FsM Unit :=
  .lift (.mem fun m => .ok () (m.setFile f (g (m.ftable f))))

def filealloc : FsM (Option Nat) :=
  .lift (.mem fun m =>
    match (List.range nfile).find? fun f => (m.ftable f).ref = 0 with
    | some f => .ok (some f) (m.setFile f { m.ftable f with ref := 1 })
    | none => .ok none m)

def filedup (f : Nat) : FsM Unit :=
  .lift (.mem fun m =>
    if (m.ftable f).ref < 1 then .panic "filedup"
    else .ok () (m.setFile f { m.ftable f with ref := (m.ftable f).ref + 1 }))

-- The section of fileclose under ftable.lock: the file, if this was its last reference.
def filecloseRef (f : Nat) : FsM (Option File) :=
  .lift (.mem fun m =>
    if (m.ftable f).ref < 1 then .panic "fileclose"
    else if (m.ftable f).ref - 1 > 0 then
      .ok none (m.setFile f { m.ftable f with ref := (m.ftable f).ref - 1 })
    else .ok (some (m.ftable f)) (m.setFile f { m.ftable f with ref := 0, type := .none }))

-- pipeclose works on the pipe alone.
def fileclose (sb : Superblock) (f : Nat) : FsM Unit := do
  let last ← filecloseRef f
  match last with
  | none => pure ()
  | some ff =>
    if ff.type = .inode then do
      beginOp
      iput sb ff.ip
      endOp
    else pure ()

def filestat (sb : Superblock) (p f : Nat) : FsM Int := do
  let file ← getFile f
  if file.type = .inode then do
    ilock sb p file.ip
    iunlock file.ip
    pure 0
  else pure (-1)

def advanceOff (f : Nat) (r : Int) : FsM Unit :=
  if r > 0 then modFile f fun file => { file with off := file.off + r.toNat } else pure ()

def readResult : Option (List UInt8) → Int
  | some bytes => bytes.length
  | none => -1

def fileread (sb : Superblock) (p f n : Nat) : FsM Int := do
  let file ← getFile f
  if !file.readable then pure (-1)
  else
    match file.type with
    | .pipe => do
      let r ← choose
      pure (r - 1)
    | .inode => do
      ilock sb p file.ip
      let bytes ← readi sb p file.ip file.off n
      advanceOff f (readResult bytes)
      iunlock file.ip
      pure (readResult bytes)
    | .none => kpanic "fileread"

def filewriteMax : Nat := ((logsize - 1 - 1 - 2) / 2) * 512

def writeResult : Option Nat → Int
  | some r => r
  | none => -1

def filewriteChunk (sb : Superblock) (p f : Nat) (src : Nat → UInt8) (n1 : Nat) : FsM Int := do
  beginOp
  let file ← getFile f
  ilock sb p file.ip
  let r ← writei sb p file.ip src file.off n1
  advanceOff f (writeResult r)
  iunlock file.ip
  endOp
  pure (writeResult r)

-- The loop of filewrite: i bytes have been written.
def filewriteLoop (sb : Superblock) (p f : Nat) (addr : Nat → UInt8) (n : Nat) : Nat → Nat → FsM Int
  | 0, i => pure (if i = n then n else -1)
  | left + 1, i =>
    if i < n then do
      let r ← filewriteChunk sb p f (fun o => addr (i + o)) (min (n - i) filewriteMax)
      if r < 0 then pure (if i = n then n else -1)
      else if r ≠ min (n - i) filewriteMax then kpanic "short filewrite"
      else filewriteLoop sb p f addr n left (i + r.toNat)
    else pure (if i = n then n else -1)

def filewrite (sb : Superblock) (p f : Nat) (addr : Nat → UInt8) (n : Nat) : FsM Int := do
  let file ← getFile f
  if !file.writable then pure (-1)
  else
    match file.type with
    | .pipe => do
      let r ← choose
      pure (r - 1)
    | .inode => filewriteLoop sb p f addr n n 0
    | .none => kpanic "filewrite"

-- sysfile.c. An argument is none when argint, argptr or argstr failed on it.

def getProc (p : Nat) : FsM Proc := .lift (.mem fun m => .ok (m.proc p) m)

def modProc (p : Nat) (g : Proc → Proc) : FsM Unit :=
  .lift (.mem fun m => .ok () (m.setProc p (g (m.proc p))))

def setOfile (p fd : Nat) (f : Option Nat) : FsM Unit :=
  modProc p fun proc => { proc with ofile := upd proc.ofile fd f }

def argfd (p : Nat) (fd : Option Int) : FsM (Option (Nat × Nat)) := do
  let proc ← getProc p
  match fd with
  | none => pure none
  | some fd =>
    if fd < 0 ∨ fd ≥ nofile then pure none
    else pure ((proc.ofile fd.toNat).map fun f => (fd.toNat, f))

def fdalloc (p f : Nat) : FsM (Option Nat) :=
  .lift (.mem fun m =>
    match (List.range nofile).find? fun fd => (m.proc p).ofile fd = none with
    | some fd => .ok (some fd)
        (m.setProc p { m.proc p with ofile := upd (m.proc p).ofile fd (some f) })
    | none => .ok none m)

def sysDup (p : Nat) (fd : Option Int) : FsM Int := do
  let arg ← argfd p fd
  match arg with
  | none => pure (-1)
  | some (_, f) => do
    let new ← fdalloc p f
    match new with
    | none => pure (-1)
    | some new => do
      filedup f
      pure new

def sysRead (sb : Superblock) (p : Nat) (fd : Option Int) (n : Option Nat) : FsM Int := do
  let arg ← argfd p fd
  match arg, n with
  | some (_, f), some n => fileread sb p f n
  | _, _ => pure (-1)

def sysWrite (sb : Superblock) (p : Nat) (fd : Option Int) (data : Option (List UInt8)) : FsM Int := do
  let arg ← argfd p fd
  match arg, data with
  | some (_, f), some data => filewrite sb p f (cstr data) data.length
  | _, _ => pure (-1)

def sysClose (sb : Superblock) (p : Nat) (fd : Option Int) : FsM Int := do
  let arg ← argfd p fd
  match arg with
  | none => pure (-1)
  | some (fd, f) => do
    setOfile p fd none
    fileclose sb f
    pure 0

def sysFstat (sb : Superblock) (p : Nat) (fd : Option Int) (st : Bool) : FsM Int := do
  let arg ← argfd p fd
  match arg, st with
  | some (_, f), true => filestat sb p f
  | _, _ => pure (-1)

def incNlink (d : Dinode) : Dinode := { d with nlink := (d.nlink + 1) % 2 ^ 16 }

def decNlink (d : Dinode) : Dinode := { d with nlink := (d.nlink + 2 ^ 16 - 1) % 2 ^ 16 }

def sysLinkBad (sb : Superblock) (p ip : Nat) : FsM Int := do
  ilock sb p ip
  modDin ip decNlink
  iupdate sb ip
  iunlockput sb ip
  endOp
  pure (-1)

def sysLink (sb : Superblock) (p : Nat) (old new : Option Path) : FsM Int :=
  match old, new with
  | some old, some new => do
    beginOp
    let found ← namei sb p old
    match found with
    | none => do
      endOp
      pure (-1)
    | some ip => do
      ilock sb p ip
      let node ← getInode ip
      if node.din.type = tDir then do
        iunlockput sb ip
        endOp
        pure (-1)
      else do
        modDin ip incNlink
        iupdate sb ip
        iunlock ip
        let parent ← nameiparent sb p new
        match parent with
        | none => sysLinkBad sb p ip
        | some (dp, name) => do
          ilock sb p dp
          let node ← getInode ip
          let linked ← dirlink sb p dp name node.inum
          if linked then do
            iunlockput sb dp
            iput sb ip
            endOp
            pure 0
          else do
            iunlockput sb dp
            sysLinkBad sb p ip
  | _, _ => pure (-1)

def isdiremptyFrom (sb : Superblock) (p k off : Nat) : Nat → FsM Bool
  | 0 => pure true
  | left + 1 => do
    let de ← readDirent sb p k off "isdirempty: readi"
    if de.inum ≠ 0 then pure false else isdiremptyFrom sb p k (off + 16) left

def isdirempty (sb : Superblock) (p k : Nat) : FsM Bool := do
  let dp ← getInode k
  isdiremptyFrom sb p k (2 * 16) ((dp.din.size + 15 - 2 * 16) / 16)

def dot : Name := [46]
def dotdot : Name := [46, 46]

-- nlink is a signed short.
def nlinkBelowOne (d : Dinode) : Bool := d.nlink = 0 || 2 ^ 15 ≤ d.nlink

def sysUnlinkBad (sb : Superblock) (dp : Nat) : FsM Int := do
  iunlockput sb dp
  endOp
  pure (-1)

def unlinkParent (sb : Superblock) (dp ip : Nat) : FsM Unit := do
  let node ← getInode ip
  if node.din.type = tDir then do
    modDin dp decNlink
    iupdate sb dp
  else pure ()

def sysUnlinkEntry (sb : Superblock) (p dp ip off : Nat) : FsM Int := do
  let r ← writei sb p dp (fun _ => 0) off 16
  if r ≠ some 16 then kpanic "unlink: writei"
  else do
    unlinkParent sb dp ip
    iunlockput sb dp
    modDin ip decNlink
    iupdate sb ip
    iunlockput sb ip
    endOp
    pure 0

def removable (sb : Superblock) (p ip : Nat) : FsM Bool := do
  let node ← getInode ip
  if node.din.type = tDir then isdirempty sb p ip else pure true

def sysUnlink (sb : Superblock) (p : Nat) (path : Option Path) : FsM Int :=
  match path with
  | none => pure (-1)
  | some path => do
    beginOp
    let parent ← nameiparent sb p path
    match parent with
    | none => do
      endOp
      pure (-1)
    | some (dp, name) => do
      ilock sb p dp
      if namecmpEq (cstr name) (cstr dot) ∨ namecmpEq (cstr name) (cstr dotdot) then sysUnlinkBad sb dp
      else do
        let found ← dirlookup sb p dp name
        match found with
        | none => sysUnlinkBad sb dp
        | some (ip, off) => do
          ilock sb p ip
          let node ← getInode ip
          if nlinkBelowOne node.din then kpanic "unlink: nlink < 1"
          else do
            let empty ← removable sb p ip
            if empty then sysUnlinkEntry sb p dp ip off
            else do
              iunlockput sb ip
              sysUnlinkBad sb dp

def createEntry (sb : Superblock) (p dp : Nat) (name : Name) (inum : Nat) (msg : String) : FsM Unit := do
  let linked ← dirlink sb p dp name inum
  if !linked then kpanic msg else pure ()

def createDots (sb : Superblock) (p dp ip type : Nat) : FsM Unit :=
  if type = tDir then do
    modDin dp incNlink
    iupdate sb dp
    let child ← getInode ip
    createEntry sb p ip dot child.inum "create dots"
    let parent ← getInode dp
    createEntry sb p ip dotdot parent.inum "create dots"
  else pure ()

def createLink (sb : Superblock) (p dp ip : Nat) (name : Name) (type major minor : Nat) : FsM Unit := do
  modDin ip fun d => { d with major := major % 2 ^ 16, minor := minor % 2 ^ 16, nlink := 1 }
  iupdate sb ip
  createDots sb p dp ip type
  let child ← getInode ip
  createEntry sb p dp name child.inum "create: dirlink"
  iunlockput sb dp

def create (sb : Superblock) (p : Nat) (path : Path) (type major minor : Nat) : FsM (Option Nat) := do
  let parent ← nameiparent sb p path
  match parent with
  | none => pure none
  | some (dp, name) => do
    ilock sb p dp
    let found ← dirlookup sb p dp name
    match found with
    | some (ip, _) => do
      iunlockput sb dp
      ilock sb p ip
      let node ← getInode ip
      if type = tFile ∧ node.din.type = tFile then pure (some ip)
      else if type = tSfile ∧ node.din.type = tSfile then pure (some ip)
      else do
        iunlockput sb ip
        pure none
    | none => do
      let ip ← ialloc sb type
      ilock sb p ip
      createLink sb p dp ip name type major minor
      pure (some ip)

def sysOpenFile (sb : Superblock) (p ip omode : Nat) : FsM Int := do
  let f ← filealloc
  match f with
  | none => do
    iunlockput sb ip
    endOp
    pure (-1)
  | some f => do
    let fd ← fdalloc p f
    match fd with
    | none => do
      fileclose sb f
      iunlockput sb ip
      endOp
      pure (-1)
    | some fd => do
      iunlock ip
      endOp
      modFile f fun file => { file with
        type := .inode, ip := ip, off := 0
        readable := (omode &&& oWronly) = 0
        writable := (omode &&& oWronly) ≠ 0 ∨ (omode &&& oRdwr) ≠ 0 }
      pure fd

def sysOpen (sb : Superblock) (p : Nat) (path : Option Path) (omode : Option Nat) : FsM Int :=
  match path, omode with
  | some path, some omode => do
    beginOp
    if (omode &&& oCreate) ≠ 0 then do
      let ip ← create sb p path (if (omode &&& oSfile) ≠ 0 then tSfile else tFile) 0 0
      match ip with
      | none => do
        -- return -1 without end_op
        probe .createFailed
        pure (-1)
      | some ip => sysOpenFile sb p ip omode
    else do
      let ip ← namei sb p path
      match ip with
      | none => do
        endOp
        pure (-1)
      | some ip => do
        ilock sb p ip
        let node ← getInode ip
        if node.din.type = tDir ∧ omode ≠ oRdonly then do
          iunlockput sb ip
          endOp
          pure (-1)
        else sysOpenFile sb p ip omode
  | _, _ => pure (-1)

-- The common body of sys_mkdir and sys_mknod; args is none when an argument fetch failed.
def sysMake (sb : Superblock) (p type : Nat) (args : Option (Path × Nat × Nat)) : FsM Int := do
  beginOp
  match args with
  | none => do
    endOp
    pure (-1)
  | some (path, major, minor) => do
    let ip ← create sb p path type major minor
    match ip with
    | none => do
      endOp
      pure (-1)
    | some ip => do
      iunlockput sb ip
      endOp
      pure 0

def sysMkdir (sb : Superblock) (p : Nat) (path : Option Path) : FsM Int :=
  sysMake sb p tDir (path.map fun path => (path, 0, 0))

def sysMknod (sb : Superblock) (p : Nat) (path : Option Path) (major minor : Option Nat) : FsM Int :=
  sysMake sb p tDev (path.bind fun path => major.bind fun major => minor.map fun minor => (path, major, minor))

def putCwd (sb : Superblock) (p : Nat) : FsM Unit := do
  let cwd ← getCwd p
  match cwd with
  | some cwd => iput sb cwd
  | none => kpanic "no cwd"

def sysChdir (sb : Superblock) (p : Nat) (path : Option Path) : FsM Int := do
  beginOp
  match path with
  | none => do
    endOp
    pure (-1)
  | some path => do
    let ip ← namei sb p path
    match ip with
    | none => do
      endOp
      pure (-1)
    | some ip => do
      ilock sb p ip
      let node ← getInode ip
      if node.din.type ≠ tDir then do
        iunlockput sb ip
        endOp
        pure (-1)
      else do
        iunlock ip
        putCwd sb p
        endOp
        modProc p fun proc => { proc with cwd := some ip }
        pure 0

-- exec.c. The ELF headers' numbers and the outcomes on the page directory are the oracle's.

def loaduvm (sb : Superblock) (p ip : Nat) : Nat → FsM Bool
  | 0 => pure true
  | left + 1 => do
    let off ← choose
    let n ← choose
    let bytes ← readi sb p ip off n
    if bytes.map List.length = some n then loaduvm sb p ip left else pure false

def loadPages (sb : Superblock) (p ip sane pages : Nat) : FsM Bool :=
  if sane = 0 then pure false else loaduvm sb p ip pages

def loadSegments (sb : Superblock) (p ip : Nat) : Nat → FsM Bool
  | 0 => pure true
  | left + 1 => do
    let off ← choose
    let ph ← readi sb p ip off 32
    let progLoad ← choose
    if ph.map List.length ≠ some 32 then pure false
    else if progLoad = 0 then loadSegments sb p ip left
    else do
      let sane ← choose
      let pages ← choose
      let loaded ← loadPages sb p ip sane pages
      if loaded then loadSegments sb p ip left else pure false

def exec (sb : Superblock) (p : Nat) (path : Path) : FsM Int := do
  beginOp
  let ip ← namei sb p path
  match ip with
  | none => do
    endOp
    pure (-1)
  | some ip => do
    ilock sb p ip
    let elf ← readi sb p ip 0 52
    let accepted ← choose
    if elf.map List.length ≠ some 52 ∨ accepted = 0 then do
      iunlockput sb ip
      endOp
      pure (-1)
    else do
      let phnum ← choose
      let loaded ← loadSegments sb p ip phnum
      if !loaded then do
        iunlockput sb ip
        endOp
        pure (-1)
      else do
        iunlockput sb ip
        endOp
        -- past this point ip = 0 and no transaction is open
        let stack ← choose
        if stack = 0 then pure (-1) else pure 0

def sysExec (sb : Superblock) (p : Nat) (path : Option Path) (argvFits : Bool) : FsM Int :=
  match path with
  | none => pure (-1)
  | some path => if argvFits then exec sb p path else pure (-1)

def allocproc : FsM (Option Nat) := do
  let slot ← .lift (.mem fun m =>
    match (List.range nproc).find? fun q => (m.proc q).state = .unused with
    | some q => .ok (some q) (m.setProc q { m.proc q with state := .embryo })
    | none => .ok none m)
  match slot with
  | none => pure none
  | some q => do
    let kstack ← choose
    if kstack = 0 then do
      modProc q fun proc => { proc with state := .unused }
      pure none
    else pure (some q)

def forkFiles (p q fd : Nat) : FsM Unit := do
  let parent ← getProc p
  match parent.ofile fd with
  | none => pure ()
  | some f => do
    filedup f
    setOfile q fd (some f)

def forkCwd (p q : Nat) : FsM Unit := do
  let cwd ← getCwd p
  match cwd with
  | some cwd => do
    let cwd ← idup cwd
    modProc q fun proc => { proc with cwd := some cwd }
  | none => kpanic "fork: no cwd"

def fork (p : Nat) : FsM Int := do
  let np ← allocproc
  match np with
  | none => pure (-1)
  | some q => do
    let pgdir ← choose
    if pgdir = 0 then do
      modProc q fun proc => { proc with state := .unused }
      pure (-1)
    else do
      Prog.loop (forkFiles p q) 0 nofile
      forkCwd p q
      modProc q fun proc => { proc with state := .runnable }
      pure q

def exitFile (sb : Superblock) (p fd : Nat) : FsM Unit := do
  let proc ← getProc p
  match proc.ofile fd with
  | none => pure ()
  | some f => do
    fileclose sb f
    setOfile p fd none

-- initproc is the first slot of the process table.
def exit (sb : Superblock) (p : Nat) : FsM Int :=
  if p = 0 then kpanic "init exiting"
  else do
    Prog.loop (exitFile sb p) 0 nofile
    beginOp
    putCwd sb p
    endOp
    modProc p fun proc => { proc with cwd := none }
    modProc p fun proc => { proc with state := .zombie }
    pure 0

def reap (q : Nat) : FsM Int :=
  .lift (.mem fun m =>
    if (m.proc q).state = .zombie then .ok q (m.setProc q { m.proc q with state := .unused })
    else .ok (-1) m)

inductive Call where
  | dup (fd : Option Int)
  | read (fd : Option Int) (n : Option Nat)
  | write (fd : Option Int) (data : Option (List UInt8))
  | close (fd : Option Int)
  | fstat (fd : Option Int) (st : Bool)
  | link (old new : Option Path)
  | unlink (path : Option Path)
  | open (path : Option Path) (omode : Option Nat)
  | mkdir (path : Option Path)
  | mknod (path : Option Path) (major minor : Option Nat)
  | chdir (path : Option Path)
  | exec (path : Option Path) (argvFits : Bool)
  | fork
  | exit
  | wait (child : Nat)
deriving DecidableEq, Repr

def callBody (sb : Superblock) (p : Nat) : Call → FsM Int
  | .dup fd => sysDup p fd
  | .read fd n => sysRead sb p fd n
  | .write fd data => sysWrite sb p fd data
  | .close fd => sysClose sb p fd
  | .fstat fd st => sysFstat sb p fd st
  | .link old new => sysLink sb p old new
  | .unlink path => sysUnlink sb p path
  | .open path omode => sysOpen sb p path omode
  | .mkdir path => sysMkdir sb p path
  | .mknod path major minor => sysMknod sb p path major minor
  | .chdir path => sysChdir sb p path
  | .exec path argvFits => sysExec sb p path argvFits
  | .fork => fork p
  | .exit => exit sb p
  | .wait child => reap child

def scheduled (p : Nat) : FsM Unit := .lift (.mem fun m => if (m.proc p).state.alive then .ok () m else .blocked)

def syscall (sb : Superblock) (p : Nat) (call : Call) : FsM Int := do
  scheduled p
  callBody sb p call

end Xv6
