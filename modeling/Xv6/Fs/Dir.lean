import Xv6.Fs.Inode

set_option autoImplicit false

namespace Xv6

abbrev Name : Type := List UInt8
abbrev Path : Type := List UInt8

def cstr (s : List UInt8) (i : Nat) : UInt8 := s.getD i 0

def strncmpEq (p q : Nat → UInt8) : Nat → Bool
  | 0 => true
  | n + 1 =>
    if p 0 ≠ 0 ∧ p 0 = q 0 then strncmpEq (fun i => p (i + 1)) (fun i => q (i + 1)) n
    else p 0 == q 0

def namecmpEq (s t : Nat → UInt8) : Bool := strncmpEq s t dirsiz

abbrev Dirent : Type := Buf 16

def Dirent.inum (de : Dirent) : Nat := Buf.getLE de 0 2

def Dirent.name (de : Dirent) (i : Nat) : UInt8 := if i < dirsiz then Buf.get de (2 + i) else 0

-- strncpy(de.name, name, DIRSIZ) and de.inum = inum.
def Dirent.make (name : Name) (inum : Nat) : Dirent :=
  Buf.putLE (Buf.ofFn fun o => if 2 ≤ o ∧ o < 2 + dirsiz then cstr name (o - 2) else 0) 0 2 inum

def Dirent.ofBytes (bytes : List UInt8) : Dirent := Buf.ofFn fun o => bytes.getD o 0

-- readi(dp, &de, off, sizeof(de)) != sizeof(de) panics with the caller's message.
def readDirent (sb : Superblock) (p k off : Nat) (msg : String) : FsM Dirent := do
  let bytes ← readi sb p k off 16
  match bytes with
  | some bytes => if bytes.length = 16 then pure (Dirent.ofBytes bytes) else kpanic msg
  | none => kpanic msg

def dirlookupFrom (sb : Superblock) (p k : Nat) (name : Name) (off : Nat) : Nat → FsM (Option (Nat × Nat))
  | 0 => pure none
  | left + 1 => do
    let de ← readDirent sb p k off "dirlink read"
    if de.inum = 0 then dirlookupFrom sb p k name (off + 16) left
    else if namecmpEq (cstr name) de.name then do
      let ip ← iget de.inum
      pure (some (ip, off))
    else dirlookupFrom sb p k name (off + 16) left

def dirlookup (sb : Superblock) (p k : Nat) (name : Name) : FsM (Option (Nat × Nat)) := do
  let dp ← getInode k
  if dp.din.type ≠ tDir then kpanic "dirlookup not DIR"
  else dirlookupFrom sb p k name 0 ((dp.din.size + 15) / 16)

def emptyFrom (sb : Superblock) (p k off : Nat) : Nat → FsM Nat
  | 0 => pure off
  | left + 1 => do
    let de ← readDirent sb p k off "dirlink read"
    if de.inum = 0 then pure off else emptyFrom sb p k (off + 16) left

-- false is the return value -1.
def dirlink (sb : Superblock) (p k : Nat) (name : Name) (inum : Nat) : FsM Bool := do
  let found ← dirlookup sb p k name
  match found with
  | some (ip, _) => do
    iput sb ip
    pure false
  | none => do
    probe (.linkInto k)
    let dp ← getInode k
    let off ← emptyFrom sb p k 0 ((dp.din.size + 15) / 16)
    let r ← writei sb p k (Buf.get (Dirent.make name inum)) off 16
    if r = some 16 then pure true else kpanic "dirlink"

def slash : UInt8 := 47

def skipelem (path : Path) : Option (Name × Path) :=
  let path := path.dropWhile (· = slash)
  if path = [] then none
  else some ((path.takeWhile (· ≠ slash)).take dirsiz,
    (path.dropWhile (· ≠ slash)).dropWhile (· = slash))

-- The loop of namex; every element consumes at least one byte of the path.
def namexLoop (sb : Superblock) (p : Nat) (parent : Bool) : Nat → Nat → Path → FsM (Option (Nat × Name))
  | 0, ip, _ =>
    if parent then do
      iput sb ip
      pure none
    else pure (some (ip, []))
  | left + 1, ip, path =>
    match skipelem path with
    | none =>
      if parent then do
        iput sb ip
        pure none
      else pure (some (ip, []))
    | some (name, path) => do
      ilock sb p ip
      let node ← getInode ip
      if node.din.type ≠ tDir then do
        iunlockput sb ip
        pure none
      else if parent ∧ path = [] then do
        iunlock ip
        pure (some (ip, name))
      else do
        let next ← dirlookup sb p ip name
        match next with
        | none => do
          iunlockput sb ip
          pure none
        | some (next, _) => do
          iunlockput sb ip
          namexLoop sb p parent left next path

def getCwd (p : Nat) : FsM (Option Nat) := .lift (.mem fun m => .ok (m.proc p).cwd m)

def namexStart (p : Nat) (path : Path) : FsM Nat :=
  if path.head? = some slash then iget rootino
  else do
    let cwd ← getCwd p
    match cwd with
    | some cwd => idup cwd
    | none => kpanic "namex: no cwd"

def namex (sb : Superblock) (p : Nat) (path : Path) (parent : Bool) : FsM (Option (Nat × Name)) := do
  let ip ← namexStart p path
  namexLoop sb p parent path.length ip path

def namei (sb : Superblock) (p : Nat) (path : Path) : FsM (Option Nat) := do
  let found ← namex sb p path false
  pure (found.map Prod.fst)

def nameiparent (sb : Superblock) (p : Nat) (path : Path) : FsM (Option (Nat × Name)) := namex sb p path true

end Xv6
