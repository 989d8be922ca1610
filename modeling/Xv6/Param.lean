import Xv6.Lib.Buf

set_option autoImplicit false

namespace Xv6

-- param.h
abbrev nproc : Nat := 64
abbrev nofile : Nat := 16
abbrev nfile : Nat := 100
abbrev ninode : Nat := 50
abbrev ndev : Nat := 10
abbrev maxarg : Nat := 32
abbrev maxopblocks : Nat := 10
abbrev logsize : Nat := maxopblocks * 3
abbrev fssize : Nat := 1000

-- fs.h
abbrev rootino : Nat := 1
abbrev bsize : Nat := 512
abbrev ndirect : Nat := 12
abbrev nindirect : Nat := bsize / 4
abbrev maxfile : Nat := ndirect + nindirect
abbrev ipb : Nat := bsize / 64
abbrev bpb : Nat := bsize * 8
abbrev dirsiz : Nat := 14

-- stat.h
abbrev tDir : Nat := 1
abbrev tFile : Nat := 2
abbrev tDev : Nat := 3
abbrev tSfile : Nat := 4

-- file.h: the only entry of devsw[] that is set
abbrev console : Nat := 1

-- fcntl.h
abbrev oRdonly : Nat := 0x000
abbrev oWronly : Nat := 0x001
abbrev oRdwr : Nat := 0x002
abbrev oCreate : Nat := 0x200
abbrev oSfile : Nat := 0x400

abbrev Block : Type := Buf bsize

structure Superblock where
  size : Nat
  nblocks : Nat
  ninodes : Nat
  nlog : Nat
  logstart : Nat
  inodestart : Nat
  bmapstart : Nat
deriving DecidableEq, Repr

def Superblock.iblock (sb : Superblock) (inum : Nat) : Nat := inum / ipb + sb.inodestart

def Superblock.bblock (sb : Superblock) (b : Nat) : Nat := b / bpb + sb.bmapstart

-- First block after the bitmap: boot, super, log, inode and bitmap blocks precede it.
def Superblock.nmeta (sb : Superblock) : Nat := sb.bmapstart + (sb.size / bpb + 1)

-- mkfs.c
def mkfsNinodes : Nat := 200
def mkfsNbitmap : Nat := fssize / (bsize * 8) + 1
def mkfsNinodeblocks : Nat := mkfsNinodes / ipb + 1
def mkfsNlog : Nat := logsize
def mkfsNmeta : Nat := 2 + mkfsNlog + mkfsNinodeblocks + mkfsNbitmap

def mkfsSuperblock : Superblock where
  size := fssize
  nblocks := fssize - mkfsNmeta
  ninodes := mkfsNinodes
  nlog := mkfsNlog
  logstart := 2
  inodestart := 2 + mkfsNlog
  bmapstart := 2 + mkfsNlog + mkfsNinodeblocks

end Xv6
