import Xv6.Vm.Memory

set_option autoImplicit false

namespace Xv6.Syscall

open Vm (u32 kernbase)

-- proc->sz, tf->esp, and memory at the addresses that the page directory maps.
structure Caller where
  sz : Nat
  esp : Nat
  mapped : Nat → Bool
  byte : Nat → UInt8

inductive Load : Type → Type 1 where
  | load (a : Nat) : Load UInt8

abbrev ArgM (α : Type) : Type 1 := Prog Load α

def Load.exec (u : Caller) {β : Type} : Load β → List Nat → Res (List Nat) β
  | .load a, log => if u.mapped a then .ok (u.byte a) (log ++ [a]) else .panic "trap"

def load (a : Nat) : ArgM UInt8 := .lift (.load a)

-- *(int*)addr
def loadInt (addr : Nat) : ArgM Nat := do
  let b0 ← load addr
  let b1 ← load (u32 (addr + 1))
  let b2 ← load (u32 (addr + 2))
  let b3 ← load (u32 (addr + 3))
  pure (b0.toNat + 256 * (b1.toNat + 256 * (b2.toNat + 256 * b3.toNat)))

-- none is the return value -1.
def fetchint (u : Caller) (addr : Nat) : ArgM (Option Nat) :=
  if addr ≥ u.sz ∨ u32 (addr + 4) > u.sz then pure none
  else do
    let v ← loadInt addr
    pure (some v)

def fetchstrLoop (start : Nat) : Nat → Nat → ArgM (Option Nat)
  | 0, _ => pure none
  | left + 1, s => do
    let c ← load s
    if c = 0 then pure (some (s - start)) else fetchstrLoop start left (s + 1)

def fetchstr (u : Caller) (addr : Nat) : ArgM (Option Nat) :=
  if addr ≥ u.sz then pure none else fetchstrLoop addr (u.sz - addr) addr

def argAddr (u : Caller) (n : Nat) : Nat := u32 (u.esp + 4 + 4 * n)

def argint (u : Caller) (n : Nat) : ArgM (Option Nat) := fetchint u (argAddr u n)

def argptr (u : Caller) (n : Nat) (size : Int) : ArgM (Option Nat) := do
  match ← argint u n with
  | none => pure none
  | some i => if size < 0 ∨ i ≥ u.sz ∨ u32 (i + size.toNat) > u.sz then pure none else pure (some i)

def argstr (u : Caller) (n : Nat) : ArgM (Option (Nat × Nat)) := do
  match ← argint u n with
  | none => pure none
  | some addr => do
    match ← fetchstr u addr with
    | none => pure none
    | some len => pure (some (addr, len))

-- The loop of sys_exec from argv[i] on; left is the number of elements of argv after i.
def gatherArgs (u : Caller) (uargv : Nat) : Nat → Nat → ArgM (Option (List Nat))
  | 0, _ => pure none
  | left + 1, i => do
    match ← fetchint u (u32 (uargv + 4 * i)) with
    | none => pure none
    | some uarg =>
      if uarg = 0 then pure (some [])
      else do
        match ← fetchstr u uarg with
        | none => pure none
        | some _ => do
          match ← gatherArgs u uargv left (i + 1) with
          | none => pure none
          | some rest => pure (some (uarg :: rest))

-- sys_exec up to its call of exec: path, uargv, and the pointers in argv.
def execArguments (u : Caller) : ArgM (Option (Nat × Nat × List Nat)) := do
  match ← argstr u 0 with
  | none => pure none
  | some (path, _) => do
    match ← argint u 1 with
    | none => pure none
    | some uargv => do
      match ← gatherArgs u uargv maxarg 0 with
      | none => pure none
      | some argv => pure (some (path, uargv, argv))

end Xv6.Syscall
