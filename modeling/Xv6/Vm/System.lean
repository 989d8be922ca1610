import Mathlib.Logic.Relation
import Xv6.Proc.Table
import Xv6.Vm.Memory

set_option autoImplicit false

namespace Xv6.Vm

structure File where
  ref : Nat
  pipe : Option Nat
  writable : Bool

structure Trapframe where
  eip : Nat
  esp : Nat

-- The kernel data that holds pages: the process table with each process's kstack, pgdir,
-- sz and ofile, the file table, and readopen and writeopen of the pipe in a page, here as
-- pipeOpen page writable; and tf and name of each process.
structure Tables where
  kpgdir : Nat
  ptable : Ptable
  kstack : Nat → Option Nat
  pgdir : Nat → Option Nat
  sz : Nat → Nat
  ofile : Nat → Nat → Option Nat
  file : Nat → File
  pipeOpen : Nat → Bool → Bool
  tf : Nat → Trapframe
  name : Nat → List UInt8

namespace Tables

def setState (t : Tables) (p : Nat) (state : ProcState) : Tables := { t with ptable := t.ptable.setState p state }

def setKstack (t : Tables) (p : Nat) (f : Option Nat) : Tables := { t with kstack := upd t.kstack p f }

def setPgdir (t : Tables) (p : Nat) (d : Option Nat) : Tables := { t with pgdir := upd t.pgdir p d }

def setSz (t : Tables) (p sz : Nat) : Tables := { t with sz := upd t.sz p sz }

def setTf (t : Tables) (p : Nat) (tf : Trapframe) : Tables := { t with tf := upd t.tf p tf }

def setName (t : Tables) (p : Nat) (name : List UInt8) : Tables := { t with name := upd t.name p name }

def setFile (t : Tables) (i : Nat) (file : File) : Tables := { t with file := upd t.file i file }

def setOfile (t : Tables) (p fd : Nat) (i : Option Nat) : Tables := { t with ofile := upd t.ofile p (upd (t.ofile p) fd i) }

def setOpen (t : Tables) (page : Nat) (writable on : Bool) : Tables :=
  { t with pipeOpen := upd t.pipeOpen page fun w => if w = writable then on else t.pipeOpen page w }

end Tables

def kfreePtr : Option Nat → RamM Unit
  | none => panic "kfree"
  | some f => kfree f

def freevmPtr : Option Nat → RamM Unit
  | none => panic "freevm: no pgdir"
  | some d => freevm d

def curPgdir (t : Tables) (p : Nat) : RamM Nat :=
  match t.pgdir p with
  | none => panic "switchuvm: no pgdir"
  | some d => return d

def allocproc (t : Tables) : RamM (Tables × Option Nat) :=
  match t.ptable.allocproc with
  | (none, _) => return (t, none)
  | (some np, ptable) => do
    match ← kalloc with
    | none => return (({ t with ptable := ptable }.setKstack np none).setState np .unused, none)
    | some f => return ({ t with ptable := ptable }.setKstack np (some f), some np)

-- _binary_initcode_start and _binary_initcode_size: less than a page.
structure Initcode where
  byte : Nat → UInt8
  size : Nat
  small : size < pgsize

-- safestrcpy(name, s, sizeof(name))
def nameOf (s : List UInt8) : List UInt8 := s.take 15

-- allocproc's result is not checked: a null p faults.
def userinit (k : Kernel) (t : Tables) (initcode : Initcode) : RamM Tables := do
  match ← allocproc t with
  | (_, none) => panic "trap"
  | (t, some p) => do
    match ← setupkvm k with
    | none => panic "userinit: out of memory?"
    | some d => do
      inituvm d initcode.byte initcode.size
      let t := (t.setTf p ⟨0, pgsize⟩).setName p (nameOf "initcode".toUTF8.toList)
      let t := ((t.setPgdir p (some d)).setSz p pgsize).setState p .runnable
      return { t with ptable := { t.ptable with initproc := p } }

-- The stack of one more processor; a null stack faults there.
def startother : RamM Unit := do
  match ← kalloc with
  | none => panic "trap"
  | some _ => return ()

def noProc : Pcb := ⟨.unused, 0, none, none, false⟩

def noTables (kpgdir : Nat) : Tables where
  kpgdir := kpgdir
  ptable := ⟨fun _ => noProc, 1, 0⟩
  kstack := fun _ => none
  pgdir := fun _ => none
  sz := fun _ => 0
  ofile := fun _ _ => none
  file := fun _ => ⟨0, none, false⟩
  pipeOpen := fun _ _ => false
  tf := fun _ => ⟨0, 0⟩
  name := fun _ => []

def Kernel.first (k : Kernel) : Nat := (k.end_ - kernbase + pgsize - 1) / pgsize

-- main: kinit1, kvmalloc, startothers, kinit2, userinit.
def boot (k : Kernel) (others : Nat) (initcode : Initcode) : RamM Tables := do
  freerange k.first (1024 - k.first)
  match ← setupkvm k with
  | none => panic "trap"
  | some kpgdir => do
    .loop (fun _ => startother) 0 others
    freerange 1024 (phystop / pgsize - 1024)
    userinit k (noTables kpgdir) initcode

def addInt (sz : Nat) (n : Int) : Nat := ((sz + n) % 2 ^ 32).toNat

def growproc (t : Tables) (p : Nat) (n : Int) : RamM (Tables × Bool) := do
  let d ← curPgdir t p
  if n > 0 then do
    let sz ← allocuvm d (t.sz p) (addInt (t.sz p) n)
    if sz = 0 then return (t, false) else return (t.setSz p sz, true)
  else if n < 0 then do
    let sz ← deallocuvm d (t.sz p) (addInt (t.sz p) n)
    if sz = 0 then return (t, false) else return (t.setSz p sz, true)
  else return (t, true)

def filealloc (t : Tables) : Option Nat × Tables :=
  match (List.range nfile).find? fun i => (t.file i).ref = 0 with
  | none => (none, t)
  | some i => (some i, t.setFile i { t.file i with ref := 1 })

def filedup (t : Tables) (i : Nat) : RamM Tables :=
  if (t.file i).ref < 1 then panic "filedup"
  else return t.setFile i { t.file i with ref := (t.file i).ref + 1 }

def pipeclose (t : Tables) (page : Nat) (writable : Bool) : RamM Tables := do
  let t := t.setOpen page writable false
  if !t.pipeOpen page false && !t.pipeOpen page true then do
    kfree page
    return t
  else return t

def fileclose (t : Tables) (i : Nat) : RamM Tables :=
  if (t.file i).ref < 1 then panic "fileclose"
  else if (t.file i).ref - 1 > 0 then return t.setFile i { t.file i with ref := (t.file i).ref - 1 }
  else
    let closed := t.setFile i { t.file i with ref := 0, pipe := none }
    match (t.file i).pipe with
    | none => return closed
    | some page => pipeclose closed page (t.file i).writable

def closeIf (t : Tables) : Option Nat → RamM Tables
  | none => return t
  | some i => fileclose t i

def pipeallocBad (t : Tables) (f0 f1 : Option Nat) : RamM (Tables × Option (Nat × Nat)) := do
  let t ← closeIf t f0
  let t ← closeIf t f1
  return (t, none)

def pipealloc (t : Tables) : RamM (Tables × Option (Nat × Nat)) :=
  match filealloc t with
  | (none, t) => pipeallocBad t none none
  | (some f0, t) =>
    match filealloc t with
    | (none, t) => pipeallocBad t (some f0) none
    | (some f1, t) => do
      match ← kalloc with
      | none => pipeallocBad t (some f0) (some f1)
      | some page => do
        let t := (t.setOpen page false true).setOpen page true true
        let t := t.setFile f0 { t.file f0 with pipe := some page, writable := false }
        return (t.setFile f1 { t.file f1 with pipe := some page, writable := true }, some (f0, f1))

def fdalloc (t : Tables) (p i : Nat) : Option (Nat × Tables) :=
  match (List.range nofile).find? fun fd => t.ofile p fd = none with
  | none => none
  | some fd => some (fd, t.setOfile p fd (some i))

def storeWord (cur va : Nat) (e : Pte) : RamM Unit := do
  let pde ← read cur (pdx va)
  if !pde.p then panic "trap"
  else do
    let pte ← read pde.frame (ptx va)
    if !pte.p then panic "trap" else write pte.frame (va % pgsize / 4) e

def closeBoth (t : Tables) (rf wf : Nat) : RamM (Tables × Bool) := do
  let t ← fileclose t rf
  let t ← fileclose t wf
  return (t, false)

def sysPipe (t : Tables) (p va : Nat) : RamM (Tables × Bool) := do
  if va ≥ t.sz p ∨ u32 (va + 8) > t.sz p then return (t, false)
  else do
    match ← pipealloc t with
    | (t, none) => return (t, false)
    | (t, some (rf, wf)) =>
      match fdalloc t p rf with
      | none => closeBoth t rf wf
      | some (fd0, t) =>
        match fdalloc t p wf with
        | none => closeBoth (t.setOfile p fd0 none) rf wf
        | some (fd1, t) => do
          let d ← curPgdir t p
          storeWord d va (.ofWord fd0)
          storeWord d (va + 4) (.ofWord fd1)
          return (t, true)

def sysClose (t : Tables) (p : Nat) (fd : Int) : RamM (Tables × Bool) :=
  if fd < 0 ∨ fd ≥ nofile then return (t, false)
  else
    match t.ofile p fd.toNat with
    | none => return (t, false)
    | some i => do
      let t ← fileclose (t.setOfile p fd.toNat none) i
      return (t, true)

def forkFiles (p np : Nat) : List Nat → Tables → RamM Tables
  | [], t => return t
  | fd :: rest, t =>
    match t.ofile p fd with
    | none => forkFiles p np rest t
    | some i => do
      let t ← filedup t i
      forkFiles p np rest (t.setOfile np fd (some i))

def fork (k : Kernel) (t : Tables) (p : Nat) : RamM (Tables × Option Int) := do
  match ← allocproc t with
  | (t, none) => return (t, none)
  | (t, some np) => do
    let d ← curPgdir t p
    match ← copyuvm k d (t.sz p) with
    | none => do
      kfreePtr (t.kstack np)
      return (((t.setPgdir np none).setKstack np none).setState np .unused, none)
    | some d' => do
      let t := (t.setPgdir np (some d')).setSz np (t.sz p)
      let t := { t with ptable := t.ptable.set np { t.ptable.proc np with parent := some p } }
      let t ← forkFiles p np (List.range nofile) (t.setTf np (t.tf p))
      return ((t.setName np (nameOf (t.name p))).setState np .runnable, some (t.ptable.proc np).pid)

def lastName (path : List UInt8) : List UInt8 := path.foldl (fun last c => if c = 47 then [] else last ++ [c]) []

-- sys_exec checks argv; ip is none when the path has no file.
def exec (k : Kernel) (t : Tables) (p : Nat) (path : List UInt8) (ip : Option Source) (args : List Arg) : RamM (Tables × Bool) := do
  if args.length ≥ maxarg || args.any fun arg => arg.len ≥ t.sz p then return (t, false)
  else
    match ip with
    | none => return (t, false)
    | some ip => do
      let old ← curPgdir t p
      match ← execImage k old ip args with
      | none => return (t, false)
      | some image => do
        let t := (t.setName p (nameOf (lastName path))).setTf p ⟨image.eip, image.esp⟩
        freevm old
        return ((t.setPgdir p (some image.pgdir)).setSz p image.sz, true)

def exitFiles (p : Nat) : List Nat → Tables → RamM Tables
  | [], t => return t
  | fd :: rest, t =>
    match t.ofile p fd with
    | none => exitFiles p rest t
    | some i => do
      let t ← fileclose t i
      exitFiles p rest (t.setOfile p fd none)

def exit (t : Tables) (p : Nat) : RamM Tables := do
  if p = t.ptable.initproc then panic "init exiting"
  else do
    let t ← exitFiles p (List.range nofile) t
    return { t with ptable := t.ptable.exit p }

-- One pass of wait. An exited child's pgdir is freed but not cleared.
def wait (t : Tables) (p : Nat) : RamM (Tables × WaitResult) :=
  match (List.range nproc).find? fun q => (t.ptable.proc q).parent = some p ∧ (t.ptable.proc q).state = .zombie with
  | none => return (t, (t.ptable.wait p).1)
  | some q => do
    kfreePtr (t.kstack q)
    freevmPtr (t.pgdir q)
    return ({ t with ptable := (t.ptable.wait p).2 }.setKstack q none, (t.ptable.wait p).1)

-- A store by user code to its own memory. The kernel's part has no PTE_U; there, and where
-- the page table entry does not allow the access, it faults and changes nothing. walkpgdir
-- gives every directory entry all permissions.
def store (t : Tables) (p va w : Nat) : RamM Unit := do
  let d ← curPgdir t p
  if va ≥ kernbase then return ()
  else do
    let pde ← read d (pdx va)
    if !pde.p then return ()
    else do
      let pte ← read pde.frame (ptx va)
      if !(pte.p && pte.w && pte.u) then return () else write pte.frame (va % pgsize / 4) (.ofWord w)

inductive Call where
  | fork
  | exec (path : List UInt8) (ip : Option Source) (args : List Arg)
  | sbrk (n : Int)
  | pipe (va : Nat)
  | close (fd : Int)
  | exit
  | wait
  | store (va w : Nat)

def result (ok : Bool) : Option Int := some (if ok then 0 else -1)

-- A call by process p, with its return value: none from exit, and from a wait that sleeps.
def perform (k : Kernel) (t : Tables) (p : Nat) : Call → RamM (Tables × Option Int)
  | .fork => do
    let (t, pid) ← fork k t p
    return (t, some (pid.getD (-1)))
  | .exec path ip args => do
    let (t, ok) ← exec k t p path ip args
    return (t, result ok)
  | .sbrk n => do
    let (t', ok) ← growproc t p n
    return (t', some (if ok then t.sz p else -1))
  | .pipe va => do
    let (t, ok) ← sysPipe t p va
    return (t, result ok)
  | .close fd => do
    let (t, ok) ← sysClose t p fd
    return (t, result ok)
  | .exit => do
    let t ← exit t p
    return (t, none)
  | .wait => do
    let (t, r) ← wait t p
    match r with
    | .reaped pid => return (t, some pid)
    | .failed => return (t, some (-1))
    | .sleeps => return (t, none)
  | .store va w => do
    store t p va w
    return (t, none)

structure State where
  tables : Tables
  ram : Ram

def powerOn (word : Nat → Nat → Pte) : Ram := ⟨[], word, []⟩

def Boots (k : Kernel) (cond : Event RamOp Ram → Prop) (s : State) : Prop :=
  ∃ others initcode word, (boot k others initcode).Completes (RamOp.exec k) cond 0 (powerOn word) s.tables s.ram

def Calls (k : Kernel) (cond : Event RamOp Ram → Prop) (s s' : State) : Prop :=
  ∃ p < nproc, (s.tables.ptable.proc p).state.alive = true ∧ ∃ call r,
    (perform k s.tables p call).Completes (RamOp.exec k) cond p s.ram (s'.tables, r) s'.ram

-- The states after boot and any number of calls, in runs whose memory operations all
-- satisfy cond.
def Reached (k : Kernel) (cond : Event RamOp Ram → Prop) (s : State) : Prop :=
  ∃ first, Boots k cond first ∧ Relation.ReflTransGen (Calls k cond) first s

end Xv6.Vm
