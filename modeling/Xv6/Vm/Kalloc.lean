import Xv6.Lib.Links
import Xv6.Vm.System

set_option autoImplicit false

namespace Xv6.Vm

-- kalloc.c: kmem.freelist and the words of memory, by their kernel addresses. The link r->next is
-- the first word of a free page.
structure Kmem where
  freelist : Nat
  word : Nat → Nat

namespace Kmem

-- memset(v, 1, PGSIZE)
def fill (m : Kmem) (v a : Nat) : Nat := if v ≤ a ∧ a < v + pgsize then 0x01010101 else m.word a

-- none is panic("kfree").
def kfree (k : Kernel) (m : Kmem) (v : Nat) : Option Kmem :=
  if v % pgsize ≠ 0 ∨ v < k.end_ ∨ phystop ≤ v - kernbase then none else some ⟨v, upd (m.fill v) v m.freelist⟩

def kalloc (m : Kmem) : Nat × Kmem :=
  let r := m.freelist
  if r ≠ 0 then (r, { m with freelist := m.word r }) else (r, m)

end Kmem

-- P2V of a frame.
def addr (f : Nat) : Nat := kernbase + f * pgsize

def completed {σ β : Type} : Res σ β → Option (β × σ)
  | .ok r s => some (r, s)
  | .panic _ => none
  | .blocked => none

-- What the kernel does with the allocator and with its pages.
inductive Req where
  | kalloc
  | kfree (f : Nat)
  | store (f i : Nat) (e : Pte)

-- The address that kalloc returns, or 0.
def Req.memory (k : Kernel) : Req → Kmem → Option (Nat × Kmem)
  | .kalloc, m => some m.kalloc
  | .kfree f, m => (m.kfree k (addr f)).map fun m' => (0, m')
  | .store f i e, m => some (0, { m with word := upd m.word (addr f + 4 * i) e.toWord })

def Req.ram (k : Kernel) : Req → Ram → Option (Nat × Ram)
  | .kalloc, m => (completed (RamOp.exec k .kalloc m)).map fun r => ((r.1.map addr).getD 0, r.2)
  | .kfree f, m => (completed (RamOp.exec k (.kfree f) m)).map fun r => (0, r.2)
  | .store f i e, m => (completed (RamOp.exec k (.write f i e) m)).map fun r => (0, r.2)

-- No page is freed twice, and none is written while it is free.
def Req.Proper : Req → Ram → Prop
  | .kalloc, _ => True
  | .kfree f, m => f ∉ m.freelist
  | .store f i _, m => f ∉ m.freelist ∧ i < 1024

section

variable {σ : Type} (step : Req → σ → Option (Nat × σ))

-- The results of the requests, up to a panic.
def runReqs : List Req → σ → List Nat × Option σ
  | [], s => ([], some s)
  | req :: rest, s =>
    match step req s with
    | none => ([], none)
    | some (r, s') => (r :: (runReqs rest s').1, (runReqs rest s').2)

end

def Proper (k : Kernel) : List Req → Ram → Prop
  | [], _ => True
  | req :: rest, m => req.Proper m ∧ ∀ r m', req.ram k m = some (r, m') → Proper k rest m'

-- The free pages are linked in the order of the list fs.
structure Linked (k : Kernel) (m : Kmem) (fs : List Nat) : Prop where
  head : m.freelist = (fs.map addr).headD 0
  links : Links m.word (fs.map addr) 0
  nodup : fs.Nodup
  managed : ∀ f ∈ fs, k.managed f

theorem outside {f g : Nat} (other : g ≠ f) : addr g < addr f ∨ addr f + pgsize ≤ addr g := by
  unfold addr pgsize
  omega

section

variable {k : Kernel} {m : Kmem} {fs : List Nat} {f : Nat}

-- Stores outside of the free pages' first words leave the list alone.
theorem linked_frame {word : Nat → Nat} (linked : Linked k m fs) (same : ∀ g ∈ fs, word (addr g) = m.word (addr g)) :
    Linked k { m with word := word } fs := by
  refine ⟨linked.head, links_congr _ _ ?_ linked.links, linked.nodup, linked.managed⟩
  intro a member
  obtain ⟨g, free, rfl⟩ := List.mem_map.mp member
  exact same g free

theorem kfree_managed (f : Nat) :
    (addr f % pgsize ≠ 0 ∨ addr f < k.end_ ∨ phystop ≤ addr f - kernbase) ↔ ¬ k.managed f := by
  have aligned : addr f % pgsize = 0 := by
    unfold addr pgsize kernbase
    omega
  unfold Kernel.managed
  rw [aligned, addr]
  omega

theorem kfree_linked (linked : Linked k m fs) (managed : k.managed f) (new : f ∉ fs) :
    ∃ m', m.kfree k (addr f) = some m' ∧ Linked k m' (f :: fs) := by
  refine ⟨_, if_neg fun bad => (kfree_managed f).mp bad managed, rfl, ⟨?_, ?_⟩, List.nodup_cons.mpr ⟨new, linked.nodup⟩, ?_⟩
  · show upd (m.fill (addr f)) (addr f) m.freelist (addr f) = _
    rw [upd_self]
    exact linked.head
  · refine links_congr _ _ ?_ linked.links
    intro a member
    obtain ⟨g, free, rfl⟩ := List.mem_map.mp member
    have other : g ≠ f := fun same => new (same ▸ free)
    show upd (m.fill (addr f)) (addr f) m.freelist (addr g) = m.word (addr g)
    have apart := outside other
    have away : addr g ≠ addr f := by
      unfold pgsize at apart
      omega
    rw [upd_ne away]
    exact if_neg (by omega)
  · intro g member
    rcases List.mem_cons.mp member with rfl | free
    · exact managed
    · exact linked.managed g free

theorem kalloc_linked (linked : Linked k m (f :: fs)) : m.kalloc.1 = addr f ∧ Linked k m.kalloc.2 fs := by
  have head : m.freelist = addr f := linked.head
  have some_ : addr f ≠ 0 := by
    unfold addr kernbase
    omega
  unfold Kmem.kalloc
  rw [head, if_pos some_]
  refine ⟨rfl, linked.links.1, linked.links.2, (List.nodup_cons.mp linked.nodup).2, fun g free => ?_⟩
  exact linked.managed g (List.mem_cons_of_mem f free)

theorem req_linked {ram : Ram} {req : Req} (linked : Linked k m ram.freelist) (proper : req.Proper ram) :
    req.memory k m = none ∧ req.ram k ram = none ∨
    ∃ r m' ram', req.memory k m = some (r, m') ∧ req.ram k ram = some (r, ram') ∧ Linked k m' ram'.freelist := by
  cases req with
  | kalloc =>
    cases list : ram.freelist with
    | nil =>
      rw [list] at linked
      have head : m.freelist = 0 := linked.head
      refine .inr ⟨0, m, ram, ?_, ?_, list ▸ linked⟩
      · rw [Req.memory, Kmem.kalloc, head]
        rfl
      · rw [Req.ram, RamOp.exec, list]
        rfl
    | cons f rest =>
      rw [list] at linked
      obtain ⟨result, linked'⟩ := kalloc_linked linked
      refine .inr ⟨addr f, m.kalloc.2, { ram with freelist := rest }, ?_, ?_, linked'⟩
      · rw [Req.memory, ← result]
      · rw [Req.ram, RamOp.exec, list]
        rfl
  | kfree f =>
    rw [Req.memory, Req.ram, RamOp.exec]
    by_cases managed : k.managed f
    · obtain ⟨m', freed, linked'⟩ := kfree_linked linked managed proper
      rw [freed, if_pos managed]
      exact .inr ⟨0, m', _, rfl, rfl, linked'⟩
    · have panics : m.kfree k (addr f) = none := if_pos ((kfree_managed f).mpr managed)
      rw [panics, if_neg managed]
      exact .inl ⟨rfl, rfl⟩
  | store f i e =>
    refine .inr ⟨0, _, _, rfl, rfl, linked_frame linked fun g free => upd_ne ?_⟩
    have apart := outside fun same : g = f => proper.1 (same ▸ free)
    have low := proper.2
    unfold pgsize at apart
    omega

-- The linked list in the free pages does what the model's list of free frames does, in every run
-- of allocations, frees and stores to pages that are in use.
theorem kalloc_refines_list (k : Kernel) (reqs : List Req) (m : Kmem) (ram : Ram) (linked : Linked k m ram.freelist)
    (proper : Proper k reqs ram) :
    (runReqs (Req.memory k) reqs m).1 = (runReqs (Req.ram k) reqs ram).1 ∧
    ((runReqs (Req.memory k) reqs m).2 = none ↔ (runReqs (Req.ram k) reqs ram).2 = none) ∧
    ∀ m' ram', (runReqs (Req.memory k) reqs m).2 = some m' → (runReqs (Req.ram k) reqs ram).2 = some ram' →
      Linked k m' ram'.freelist := by
  induction reqs generalizing m ram with
  | nil =>
    refine ⟨rfl, ⟨fun never => absurd never (Option.some_ne_none m), fun never => absurd never (Option.some_ne_none ram)⟩, ?_⟩
    intro m' ram' same same'
    cases same
    cases same'
    exact linked
  | cons req rest ih =>
    unfold runReqs
    rcases req_linked linked proper.1 with ⟨here, there⟩ | ⟨r, m', ram', here, there, linked'⟩
    · rw [here, there]
      exact ⟨rfl, Iff.rfl.trans ⟨fun _ => rfl, fun _ => rfl⟩, fun m' ram' never => absurd never.symm (Option.some_ne_none m')⟩
    · rw [here, there]
      obtain ⟨results, panics, final⟩ := ih m' ram' linked' (proper.2 r ram' there)
      exact ⟨congrArg (r :: ·) results, panics, final⟩

end

-- A page is freed, allocated and written, and then the list is empty.
def reuse : List Req := [.kfree 2000, .kalloc, .store 2000 0 (.ofWord 7), .kalloc]

theorem kalloc_refines_list_reuse :
    (runReqs (Req.memory Vm.linked) reuse ⟨0, fun _ => 0⟩).1 = [0, addr 2000, 0, 0] ∧ Proper Vm.linked reuse ⟨[], fun _ _ => .ofWord 0, []⟩ := by
  have empty : Linked Vm.linked ⟨0, fun _ => 0⟩ [] := ⟨rfl, trivial, List.nodup_nil, fun f never => absurd never List.not_mem_nil⟩
  have proper : Proper Vm.linked reuse ⟨[], fun _ _ => .ofWord 0, []⟩ := by
    refine ⟨List.not_mem_nil, fun r m step => ?_⟩
    cases step
    refine ⟨trivial, fun r m step => ?_⟩
    cases step
    refine ⟨⟨List.not_mem_nil, by decide⟩, fun r m step => ?_⟩
    cases step
    exact ⟨trivial, fun r m _ => trivial⟩
  exact ⟨(kalloc_refines_list Vm.linked reuse _ _ empty proper).1, proper⟩

end Xv6.Vm
