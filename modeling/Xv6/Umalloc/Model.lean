import Xv6.Lib.Prog
import Xv6.Lib.Spans

set_option autoImplicit false

namespace Xv6.Umalloc

-- union header; sizes are in units of sizeof(Header).
structure Header where
  ptr : Nat
  size : Nat
deriving DecidableEq

-- The memory as headers by their byte address, the static freep, and the process's break.
-- gaps says how the next calls of sbrk go: none fails, and some gap returns a region that
-- far above the last one. regions records those returned.
structure Heap where
  mem : Nat → Header
  freep : Nat
  brk : Nat
  gaps : List (Option Nat)
  regions : List Span

abbrev word : Nat := 2 ^ 32

-- p + units, for p of type Header *.
def add (p units : Nat) : Nat := (p + 8 * units) % word

-- (Header *)ap - 1.
def header (ap : Nat) : Nat := (ap + (word - 8)) % word

def freeLoop (mem : Nat → Header) (bp : Nat) : Nat → Nat → Option Nat
  | 0, _ => none
  | n + 1, p =>
    if bp > p ∧ bp < (mem p).ptr then some p
    else if p ≥ (mem p).ptr ∧ (bp > p ∨ bp < (mem p).ptr) then some p
    else freeLoop mem bp n (mem p).ptr

-- The header at p after the block at n was joined to it if they touch, and linked otherwise.
def join (mem : Nat → Header) (p n : Nat) : Header :=
  if add p (mem p).size = n then ⟨(mem n).ptr, ((mem p).size + (mem n).size) % word⟩ else ⟨n, (mem p).size⟩

def free (fuel ap : Nat) (h : Heap) : Option Heap := do
  let bp := header ap
  let p ← freeLoop h.mem bp fuel h.freep
  let mem := upd h.mem bp (join h.mem bp (h.mem p).ptr)
  let mem := upd mem p (join mem p bp)
  some { h with mem := mem, freep := p }

def sbrk (bytes : Nat) (h : Heap) : Option Nat × Heap :=
  match h.gaps with
  | [] => (none, h)
  | none :: gaps => (none, { h with gaps := gaps })
  | some gap :: gaps =>
    if h.brk + gap + bytes < word then
      (some (h.brk + gap),
        { h with gaps := gaps, brk := h.brk + gap + bytes, regions := ⟨h.brk + gap, bytes⟩ :: h.regions })
    else (none, { h with gaps := gaps })

def morecore (fuel nu : Nat) (h : Heap) : Option (Nat × Heap) := do
  let nu := if nu < 4096 then 4096 else nu
  match sbrk (nu * 8 % word) h with
  | (none, h) => some (0, h)
  | (some hp, h) => do
    let h := { h with mem := upd h.mem hp { h.mem hp with size := nu } }
    let h ← free fuel (add hp 1) h
    some (h.freep, h)

def take (nunits prevp p : Nat) (h : Heap) : Nat × Heap :=
  if (h.mem p).size = nunits then
    (add p 1, { h with mem := upd h.mem prevp { h.mem prevp with ptr := (h.mem p).ptr }, freep := prevp })
  else
    let size := (h.mem p).size - nunits
    let mem := upd h.mem p { h.mem p with size := size }
    let p := add p size
    (add p 1, { h with mem := upd mem p { mem p with size := nunits }, freep := prevp })

def mallocLoop (nunits : Nat) : Nat → Nat → Nat → Heap → Option (Nat × Heap)
  | 0, _, _, _ => none
  | n + 1, prevp, p, h =>
    if (h.mem p).size ≥ nunits then some (take nunits prevp p h)
    else if p = h.freep then
      match morecore n nunits h with
      | none => none
      | some (p, h) => if p = 0 then some (0, h) else mallocLoop nunits n p (h.mem p).ptr h
    else mallocLoop nunits n p (h.mem p).ptr h

def units (nbytes : Nat) : Nat := (nbytes + 8 - 1) % word / 8 + 1

def init (base : Nat) (h : Heap) : Heap :=
  if h.freep = 0 then { h with mem := upd h.mem base ⟨base, 0⟩, freep := base } else h

def malloc (base fuel nbytes : Nat) (h : Heap) : Option (Nat × Heap) :=
  mallocLoop (units nbytes) fuel (init base h).freep ((init base h).mem (init base h).freep).ptr (init base h)

structure Block where
  addr : Nat
  units : Nat
  asked : Nat
deriving DecidableEq

structure Sys where
  heap : Heap
  live : List Block

abbrev maxRequest : Nat := 2 ^ 31 - 64

-- A write may change every header that overlaps the part of a block after its own header.
inductive Step (base : Nat) : Sys → Sys → Prop where
  | fails (s : Sys) (fuel nbytes : Nat) (h : Heap) (bound : nbytes ≤ maxRequest)
      (done : malloc base fuel nbytes s.heap = some (0, h)) : Step base s { s with heap := h }
  | malloc (s : Sys) (fuel nbytes ap : Nat) (h : Heap) (bound : nbytes ≤ maxRequest) (real : ap ≠ 0)
      (done : malloc base fuel nbytes s.heap = some (ap, h)) :
      Step base s ⟨h, ⟨header ap, (h.mem (header ap)).size, nbytes⟩ :: s.live⟩
  | free (s : Sys) (fuel : Nat) (b : Block) (h : Heap) (mine : b ∈ s.live)
      (done : free fuel (add b.addr 1) s.heap = some h) : Step base s ⟨h, s.live.erase b⟩
  | write (s : Sys) (mem : Nat → Header)
      (inside : ∀ a, mem a = s.heap.mem a ∨ ∃ b ∈ s.live, b.addr < a ∧ a < b.addr + 8 * b.units) :
      Step base s { s with heap := { s.heap with mem := mem } }

-- The program's data, with base in it, ends at the first break.
structure Fresh (base : Nat) (h : Heap) : Prop where
  address : 0 < base
  above : base + 8 ≤ h.brk
  bound : h.brk < word
  freep : h.freep = 0
  none_ : h.regions = []

inductive Runs (base : Nat) : Sys → Prop where
  | start (h : Heap) (fresh : Fresh base h) : Runs base ⟨h, []⟩
  | step (s s' : Sys) (before : Runs base s) (step : Step base s s') : Runs base s'

end Xv6.Umalloc
