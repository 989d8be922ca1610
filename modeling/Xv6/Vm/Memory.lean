import Xv6.Param
import Xv6.Lib.Buf
import Xv6.Lib.Prog

set_option autoImplicit false

namespace Xv6.Vm

abbrev pgsize : Nat := 4096
abbrev npdentries : Nat := 1024
abbrev kernbase : Nat := 0x80000000
abbrev extmem : Nat := 0x100000
abbrev phystop : Nat := 0xE000000
abbrev devspace : Nat := 0xFE000000
abbrev kernlink : Nat := kernbase + extmem

def u32 (n : Nat) : Nat := n % 2 ^ 32

def pdx (va : Nat) : Nat := va / 2 ^ 22 % 1024

def ptx (va : Nat) : Nat := va / 2 ^ 12 % 1024

def pgrounddown (a : Nat) : Nat := a / pgsize * pgsize

def pgroundup (sz : Nat) : Nat := u32 (sz + pgsize - 1) / pgsize * pgsize

-- The addresses data and end of the linked kernel (kernel.ld).
structure Kernel where
  data : Nat
  end_ : Nat
  aligned : data % pgsize = 0
  text : kernlink < data
  order : data ≤ end_
  fits : data < kernbase + phystop

def linked : Kernel where
  data := 0x80109000
  end_ := 0x80115000
  aligned := by decide
  text := by decide
  order := by decide
  fits := by decide

-- A 32-bit word read as a page directory or page table entry: PTE_ADDR as a frame
-- number, the flags PTE_P, PTE_W and PTE_U, and the nine bits above them.
structure Pte where
  frame : Nat
  p : Bool
  w : Bool
  u : Bool
  rest : Fin 512
deriving DecidableEq, Repr

def Pte.ofWord (w : Nat) : Pte :=
  ⟨w / pgsize, w % 2 = 1, w / 2 % 2 = 1, w / 4 % 2 = 1, ⟨w / 8 % 512, Nat.mod_lt _ (by decide)⟩⟩

def Pte.toWord (e : Pte) : Nat := e.frame * pgsize + e.rest * 8 + e.u.toNat * 4 + e.w.toNat * 2 + e.p.toNat

-- The perm argument of mappages, with PTE_P left out.
structure Perm where
  w : Bool
  u : Bool
  rest : Fin 512
deriving DecidableEq, Repr

-- PTE_W|PTE_U
abbrev permUser : Perm := ⟨true, true, 0⟩

-- PTE_FLAGS
def Pte.flags (e : Pte) : Perm := ⟨e.w, e.u, e.rest⟩

-- pa | perm | PTE_P
def Perm.entry (perm : Perm) (frame : Nat) : Pte := ⟨frame, true, perm.w, perm.u, perm.rest⟩

-- mappages fails in setupkvm or in copyuvm, walkpgdir returns 0 to uva2ka.
inductive Probe where
  | setupFailed
  | copyFailed
  | nullPte
deriving DecidableEq, Repr

-- The free list, each frame as 1024 words, and the probes passed.
structure Ram where
  freelist : List Nat
  word : Nat → Nat → Pte
  notes : List Probe

-- fill gives each word of the page a new value; copy is a memmove of a whole page.
inductive RamOp : Type → Type 1 where
  | kalloc : RamOp (Option Nat)
  | kfree (f : Nat) : RamOp Unit
  | read (f i : Nat) : RamOp Pte
  | write (f i : Nat) (e : Pte) : RamOp Unit
  | fill (f : Nat) (words : Nat → Pte → Pte) : RamOp Unit
  | copy (dst src : Nat) : RamOp Unit
  | probe (note : Probe) : RamOp Unit
  | panic {α : Type} (msg : String) : RamOp α

abbrev RamM (α : Type) : Type 1 := Prog RamOp α

-- kfree's check of the page at kernel address P2V(f * PGSIZE).
def Kernel.managed (k : Kernel) (f : Nat) : Prop := k.end_ ≤ kernbase + f * pgsize ∧ f * pgsize < phystop

instance (k : Kernel) (f : Nat) : Decidable (k.managed f) := inferInstanceAs (Decidable (_ ∧ _))

namespace Ram

def setWord (m : Ram) (f i : Nat) (e : Pte) : Ram := { m with word := upd m.word f (upd (m.word f) i e) }

def fill (m : Ram) (f : Nat) (words : Nat → Pte → Pte) : Ram :=
  { m with word := upd m.word f fun j => words j (m.word f j) }

def byte (m : Ram) (f o : Nat) : UInt8 := leByte (m.word f (o / 4)).toWord (o % 4)

-- kfree fills the page with bytes 1 and puts it at the head of the list.
def kfree (m : Ram) (f : Nat) : Ram :=
  { m with freelist := f :: m.freelist, word := upd m.word f fun _ => .ofWord 0x01010101 }

end Ram

def RamOp.exec (k : Kernel) {β : Type} : RamOp β → Ram → Res Ram β
  | .kalloc, m =>
    match m.freelist with
    | [] => .ok none m
    | f :: rest => .ok (some f) { m with freelist := rest }
  | .kfree f, m => if k.managed f then .ok () (m.kfree f) else .panic "kfree"
  | .read f i, m => .ok (m.word f i) m
  | .write f i e, m => .ok () (m.setWord f i e)
  | .fill f words, m => .ok () (m.fill f words)
  | .copy dst src, m => .ok () { m with word := upd m.word dst (m.word src) }
  | .probe note, m => .ok () { m with notes := note :: m.notes }
  | .panic msg, _ => .panic msg

def kalloc : RamM (Option Nat) := .lift .kalloc

def kfree (f : Nat) : RamM Unit := .lift (.kfree f)

def read (f i : Nat) : RamM Pte := .lift (.read f i)

def write (f i : Nat) (e : Pte) : RamM Unit := .lift (.write f i e)

def fill (f : Nat) (words : Nat → Pte → Pte) : RamM Unit := .lift (.fill f words)

def clear (f : Nat) : RamM Unit := fill f fun _ _ => .ofWord 0

-- Word j of a page after memmove of n bytes of src to offset off, where it was e before.
def moved (off n : Nat) (src : Nat → UInt8) (j : Nat) (e : Pte) : Pte :=
  if 4 * j < off + n ∧ off < 4 * j + 4 then
    .ofWord (leValue (fun i => if off ≤ 4 * j + i ∧ 4 * j + i < off + n then src (4 * j + i - off) else leByte e.toWord i) 4)
  else e

def memmove (f off : Nat) (src : Nat → UInt8) (n : Nat) : RamM Unit := fill f (moved off n src)

def copy (dst src : Nat) : RamM Unit := .lift (.copy dst src)

def probe (note : Probe) : RamM Unit := .lift (.probe note)

def panic {α : Type} (msg : String) : RamM α := .lift (.panic msg)

def freerange (first count : Nat) : RamM Unit := .loop kfree first count

-- The entry for va is entry number PTX(va) of the page table returned.
def walkpgdir (pgdir va : Nat) (alloc : Bool) : RamM (Option (Nat × Nat)) := do
  let pde ← read pgdir (pdx va)
  if pde.p then return some (pde.frame, ptx va)
  else if alloc then do
    match ← kalloc with
    | none => return none
    | some pgtab => do
      clear pgtab
      write pgdir (pdx va) (permUser.entry pgtab)
      return some (pgtab, ptx va)
  else return none

def mapPage (pgdir a pa : Nat) (perm : Perm) : RamM Bool := do
  match ← walkpgdir pgdir a true with
  | none => return false
  | some (pgtab, j) => do
    let pte ← read pgtab j
    if pte.p then panic "remap"
    else do
      write pgtab j (perm.entry (pa / pgsize))
      return true

-- more is the number of pages after the one at a, up to last.
def mapLoop (pgdir : Nat) (perm : Perm) : Nat → Nat → Nat → RamM Bool
  | 0, a, pa => mapPage pgdir a pa perm
  | more + 1, a, pa => do
    if ← mapPage pgdir a pa perm then mapLoop pgdir perm more (u32 (a + pgsize)) (u32 (pa + pgsize))
    else return false

def mappages (pgdir va size pa : Nat) (perm : Perm) : RamM Bool :=
  let a := pgrounddown va
  let last := pgrounddown (u32 (va + size + 2 ^ 32 - 1))
  mapLoop pgdir perm (u32 (last + 2 ^ 32 - a) / pgsize) a pa

-- perm is PTE_W or 0.
structure Kmap where
  virt : Nat
  physStart : Nat
  physEnd : Nat
  w : Bool

def Kmap.perm (e : Kmap) : Perm := ⟨e.w, false, 0⟩

def kmap (k : Kernel) : List Kmap :=
  [⟨kernbase, 0, extmem, true⟩, ⟨kernlink, kernlink - kernbase, k.data - kernbase, false⟩,
    ⟨k.data, k.data - kernbase, phystop, true⟩, ⟨devspace, devspace, 0, true⟩]

def mapKernel (pgdir : Nat) : List Kmap → RamM Bool
  | [] => return true
  | e :: rest => do
    if ← mappages pgdir e.virt (u32 (e.physEnd + 2 ^ 32 - e.physStart)) e.physStart e.perm then mapKernel pgdir rest
    else return false

def setupkvm (k : Kernel) : RamM (Option Nat) := do
  match ← kalloc with
  | none => return none
  | some pgdir => do
    clear pgdir
    if kernbase + phystop > devspace then panic "PHYSTOP too high"
    else do
      if ← mapKernel pgdir (kmap k) then return some pgdir
      else do
        probe .setupFailed
        return none

-- mem is not checked: a null mem faults in memset.
def inituvm (pgdir : Nat) (init : Nat → UInt8) (sz : Nat) : RamM Unit := do
  if sz ≥ pgsize then panic "inituvm: more than a page"
  else do
    match ← kalloc with
    | none => panic "trap"
    | some mem => do
      clear mem
      let _ ← mappages pgdir 0 pgsize (mem * pgsize) permUser
      memmove mem 0 init sz

-- The pages a, a + PGSIZE, ... below oldsz; a missing page table skips to the next one.
-- fuel bounds the number of pages.
def deallocLoop (pgdir oldsz : Nat) : Nat → Nat → RamM Unit
  | 0, _ => return ()
  | fuel + 1, a =>
    if a < oldsz then do
      match ← walkpgdir pgdir a false with
      | none => deallocLoop pgdir oldsz fuel ((pdx a + 1) * 2 ^ 22)
      | some (pgtab, j) => do
        let pte ← read pgtab j
        if pte.p then do
          if pte.frame = 0 then panic "kfree"
          else do
            kfree pte.frame
            write pgtab j (.ofWord 0)
            deallocLoop pgdir oldsz fuel (a + pgsize)
        else deallocLoop pgdir oldsz fuel (a + pgsize)
    else return ()

def deallocuvm (pgdir oldsz newsz : Nat) : RamM Nat := do
  if newsz ≥ oldsz then return oldsz
  else do
    deallocLoop pgdir oldsz (oldsz / pgsize + 1) (pgroundup newsz)
    return newsz

def allocLoop (pgdir oldsz newsz : Nat) : Nat → Nat → RamM Nat
  | 0, _ => return newsz
  | count + 1, a => do
    match ← kalloc with
    | none => do
      let _ ← deallocuvm pgdir newsz oldsz
      return 0
    | some mem => do
      clear mem
      if ← mappages pgdir a pgsize (mem * pgsize) permUser then allocLoop pgdir oldsz newsz count (a + pgsize)
      else do
        let _ ← deallocuvm pgdir newsz oldsz
        kfree mem
        return 0

def allocuvm (pgdir oldsz newsz : Nat) : RamM Nat := do
  if newsz ≥ kernbase then return 0
  else if newsz < oldsz then return oldsz
  else allocLoop pgdir oldsz newsz ((newsz - pgroundup oldsz + pgsize - 1) / pgsize) (pgroundup oldsz)

def freeTable (pgdir i : Nat) : RamM Unit := do
  let pde ← read pgdir i
  if pde.p then kfree pde.frame else return ()

def freevm (pgdir : Nat) : RamM Unit := do
  let _ ← deallocuvm pgdir kernbase 0
  .loop (freeTable pgdir) 0 npdentries
  kfree pgdir

-- The page at i of pgdir is copied to d; false is the jump to bad.
def copyPage (pgdir d i : Nat) : RamM Bool := do
  match ← walkpgdir pgdir i false with
  | none => panic "copyuvm: pte should exist"
  | some (pgtab, j) => do
    let pte ← read pgtab j
    if !pte.p then panic "copyuvm: page not present"
    else do
      match ← kalloc with
      | none => return false
      | some mem => do
        copy mem pte.frame
        if ← mappages d i pgsize (mem * pgsize) pte.flags then return true
        else do
          probe .copyFailed
          return false

def copyLoop (pgdir d : Nat) : Nat → Nat → RamM Bool
  | 0, _ => return true
  | count + 1, i => do
    if ← copyPage pgdir d i then copyLoop pgdir d count (i + pgsize) else return false

def copyuvm (k : Kernel) (pgdir sz : Nat) : RamM (Option Nat) := do
  match ← setupkvm k with
  | none => return none
  | some d => do
    if ← copyLoop pgdir d ((sz + pgsize - 1) / pgsize) 0 then return some d
    else do
      freevm d
      return none

def clearpteu (pgdir uva : Nat) : RamM Unit := do
  match ← walkpgdir pgdir uva false with
  | none => panic "clearpteu"
  | some (pgtab, j) => do
    let pte ← read pgtab j
    write pgtab j { pte with u := false }

-- A load by the kernel at a user address, translated by the page directory in use.
def loadWord (cur va : Nat) : RamM Pte := do
  let pde ← read cur (pdx va)
  if !pde.p then panic "trap"
  else do
    let pte ← read pde.frame (ptx va)
    if !pte.p then panic "trap" else read pte.frame (va % pgsize / 4)

def userFrame (pte : Pte) : Option Nat := if pte.p && pte.u then some pte.frame else none

-- uva2ka does not check the pointer it gets from walkpgdir: *pte is then the word at
-- address 0 of the running process.
def uva2ka (cur pgdir uva : Nat) : RamM (Option Nat) := do
  match ← walkpgdir pgdir uva false with
  | none => do
    probe .nullPte
    let pte ← loadWord cur 0
    return userFrame pte
  | some (pgtab, j) => do
    let pte ← read pgtab j
    return userFrame pte

-- Each round copies at least one byte; done is the number of bytes copied before.
def copyoutLoop (cur pgdir : Nat) (p : Nat → UInt8) : Nat → Nat → Nat → Nat → RamM Bool
  | 0, _, _, _ => return true
  | fuel + 1, va, done, len =>
    if len = 0 then return true
    else do
      match ← uva2ka cur pgdir (pgrounddown va) with
      | none => return false
      | some pa => do
        let n := min (pgsize - (va - pgrounddown va)) len
        memmove pa (va - pgrounddown va) (fun i => p (done + i)) n
        copyoutLoop cur pgdir p fuel (u32 (pgrounddown va + pgsize)) (done + n) (len - n)

def copyout (cur pgdir va : Nat) (p : Nat → UInt8) (len : Nat) : RamM Bool :=
  copyoutLoop cur pgdir p len va 0 len

-- What readi(ip, dst, off, n) returns to exec: the bytes, or none for -1. A device may
-- answer every call differently: i is the number of the program header, from 1 on, and j
-- the number of the page of its segment; 0 stands for the ELF header, and for a header.
structure Source where
  readi : (i j off n : Nat) → Option (List UInt8)
  short : ∀ i j off n bytes, readi i j off n = some bytes → bytes.length ≤ n

def Source.ofFile (data : List UInt8) : Source where
  readi _ _ off n := if off > data.length ∨ u32 (off + n) < off then none else some ((data.drop off).take n)
  short _ _ off n bytes := by
    intro read
    split at read
    · cases read
    · cases read
      exact List.length_take_le n _

def field (bytes : List UInt8) (off k : Nat) : Nat := leValue (fun i => bytes.getD (off + i) 0) k

def elfMagic : Nat := 0x464C457F

structure Elfhdr where
  magic : Nat
  entry : Nat
  phoff : Nat
  phnum : Nat

abbrev elfSize : Nat := 52

def Elfhdr.ofBytes (bytes : List UInt8) : Elfhdr :=
  ⟨field bytes 0 4, field bytes 24 4, field bytes 28 4, field bytes 44 2⟩

structure Proghdr where
  type : Nat
  off : Nat
  vaddr : Nat
  filesz : Nat
  memsz : Nat

abbrev phSize : Nat := 32

abbrev elfProgLoad : Nat := 1

def Proghdr.ofBytes (bytes : List UInt8) : Proghdr :=
  ⟨field bytes 0 4, field bytes 4 4, field bytes 8 4, field bytes 16 4, field bytes 20 4⟩

def chunk (sz a : Nat) : Nat := if sz - a < pgsize then sz - a else pgsize

def loadLoop (pgdir addr : Nat) (ip : Source) (i offset sz : Nat) : Nat → Nat → RamM Bool
  | 0, _ => return true
  | count + 1, a => do
    match ← walkpgdir pgdir (u32 (addr + a)) false with
    | none => panic "loaduvm: address should exist"
    | some (pgtab, j) => do
      let pte ← read pgtab j
      match ip.readi i (a / pgsize + 1) (u32 (offset + a)) (chunk sz a) with
      | none => return false
      | some bytes => do
        memmove pte.frame 0 (fun i => bytes.getD i 0) bytes.length
        if bytes.length = chunk sz a then loadLoop pgdir addr ip i offset sz count (a + pgsize) else return false

def loaduvm (pgdir addr : Nat) (ip : Source) (i offset sz : Nat) : RamM Bool := do
  if addr % pgsize ≠ 0 then panic "loaduvm: addr must be page aligned"
  else loadLoop pgdir addr ip i offset sz ((sz + pgsize - 1) / pgsize) 0

-- The program headers from number i on, count of them; none is the jump to bad.
def execLoad (pgdir : Nat) (ip : Source) (phoff : Nat) : Nat → Nat → Nat → RamM (Option Nat)
  | 0, _, sz => return some sz
  | count + 1, i, sz =>
    match ip.readi (i + 1) 0 (u32 (phoff + i * phSize)) phSize with
    | none => return none
    | some bytes =>
      let ph := Proghdr.ofBytes bytes
      if bytes.length ≠ phSize then return none
      else if ph.type ≠ elfProgLoad then execLoad pgdir ip phoff count (i + 1) sz
      else if ph.memsz < ph.filesz then return none
      else if u32 (ph.vaddr + ph.memsz) < ph.vaddr then return none
      else do
        let sz' ← allocuvm pgdir sz (u32 (ph.vaddr + ph.memsz))
        if sz' = 0 then return none
        else if ph.vaddr % pgsize ≠ 0 then return none
        else do
          if ← loaduvm pgdir ph.vaddr ip (i + 1) ph.off ph.filesz then execLoad pgdir ip phoff count (i + 1) sz'
          else return none

structure Arg where
  len : Nat
  byte : Nat → UInt8
  nonzero : ∀ i < len, byte i ≠ 0
  short : len < kernbase

def Arg.buf (arg : Arg) (i : Nat) : UInt8 := if i < arg.len then arg.byte i else 0

def execArgs (cur pgdir : Nat) : List Arg → List Nat → Nat → RamM (Option (List Nat × Nat))
  | [], pushed, sp => return some (pushed, sp)
  | arg :: rest, pushed, sp =>
    if pushed.length ≥ maxarg then return none
    else do
      let sp' := u32 (sp + 2 ^ 32 - u32 (arg.len + 1)) / 4 * 4
      if ← copyout cur pgdir sp' arg.buf (arg.len + 1) then execArgs cur pgdir rest (sp' :: pushed) sp' else return none

-- ustack: the fake return address, argc, argv, the addresses of the strings and 0.
def ustack (pushed : List Nat) (sp : Nat) : List Nat :=
  [0xffffffff, pushed.length, u32 (sp + 2 ^ 32 - (pushed.length + 1) * 4)] ++ pushed.reverse ++ [0]

def wordBytes (words : List Nat) (i : Nat) : UInt8 := leByte (words.getD (i / 4) 0) (i % 4)

@[irreducible] def execStack (cur pgdir sz : Nat) (args : List Arg) : RamM (Option (Nat × Nat)) := do
  let sz' ← allocuvm pgdir (pgroundup sz) (pgroundup sz + 2 * pgsize)
  if sz' = 0 then return none
  else do
    clearpteu pgdir (sz' - 2 * pgsize)
    match ← execArgs cur pgdir args [] sz' with
    | none => return none
    | some (pushed, sp) => do
      let size := (3 + pushed.length + 1) * 4
      let sp' := u32 (sp + 2 ^ 32 - size)
      if ← copyout cur pgdir sp' (wordBytes (ustack pushed sp)) size then return some (sz', sp') else return none

def execBody (cur pgdir : Nat) (ip : Source) (elf : Elfhdr) (args : List Arg) : RamM (Option (Nat × Nat)) := do
  match ← execLoad pgdir ip elf.phoff elf.phnum 0 0 with
  | none => return none
  | some sz => execStack cur pgdir sz args

structure Image where
  pgdir : Nat
  sz : Nat
  eip : Nat
  esp : Nat

-- exec up to the commit, or none after the jump to bad.
def execImage (k : Kernel) (cur : Nat) (ip : Source) (args : List Arg) : RamM (Option Image) := do
  match ip.readi 0 0 0 elfSize with
  | none => return none
  | some bytes =>
    let elf := Elfhdr.ofBytes bytes
    if bytes.length ≠ elfSize then return none
    else if elf.magic ≠ elfMagic then return none
    else do
      match ← setupkvm k with
      | none => return none
      | some pgdir => do
        match ← execBody cur pgdir ip elf args with
        | some (sz, sp) => return some ⟨pgdir, sz, elf.entry, sp⟩
        | none => do
          freevm pgdir
          return none

end Xv6.Vm
