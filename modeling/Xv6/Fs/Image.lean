import Xv6.Fs.Sysfile

set_option autoImplicit false

namespace Xv6

-- Small disks with the layout of mkfs.

def dirDinode (nlink size b : Nat) : Dinode :=
  ({ type := tDir, major := 0, minor := 0, nlink := nlink, size := size, addrs := Buf.zero } : Dinode).setAddr 0 b

def dirBlock (entries : List (Name × Nat)) : Block :=
  Buf.ofFn fun o =>
    match entries[o / 16]? with
    | some e => Buf.get (Dirent.make e.1 e.2) (o % 16)
    | none => 0

def putDinodes (data : Block) : List (Nat × Dinode) → Block
  | [] => data
  | (inum, d) :: rest => putDinodes (putDinode data (inum % ipb) d) rest

def usedBits (used : Nat) : Block :=
  Buf.ofFn fun o => if 8 * o + 8 ≤ used then 255 else UInt8.ofNat (2 ^ (used - 8 * o) - 1)

def image (inodes : List (Nat × Dinode)) (dirs : List (List (Name × Nat))) : Nat → Block := fun b =>
  if b = mkfsSuperblock.inodestart then putDinodes Buf.zero inodes
  else if b = mkfsSuperblock.bmapstart then usedBits (mkfsNmeta + dirs.length)
  else if mkfsNmeta ≤ b then
    match dirs[b - mkfsNmeta]? with
    | some entries => dirBlock entries
    | none => Buf.zero
  else Buf.zero

-- mkfs leaves empty entries at the end of the root directory; here there is one.
def rootImage : Nat → Block := image [(1, dirDinode 1 48 mkfsNmeta)] [[(dot, 1), (dotdot, 1)]]

def freeInode : Inode := ⟨0, 0, false, 0, false, false, ⟨0, 0, 0, 0, 0, Buf.zero⟩⟩

def bootMem : Mem where
  icache := fun k => if k = 0 then { freeInode with inum := rootino, ref := 1 } else freeInode
  ftable := fun _ => ⟨.none, 0, false, false, 0, 0⟩
  proc := fun p => ⟨if p = 0 then .running else .unused, fun _ => none, if p = 0 then some 0 else none⟩
  oracle := fun _ => 0

def boot (disk : Nat → Block) : Fs where
  cache := disk
  disk := disk
  log := { start := mkfsSuperblock.logstart, size := mkfsSuperblock.nlog, outstanding := 0, committing := false, lh := [] }
  mem := bootMem

end Xv6
