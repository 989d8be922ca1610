import Xv6.Umalloc.Runs

set_option autoImplicit false

namespace Xv6.Umalloc

open Spans

abbrev pgsize : Nat := 4096

abbrev kernbase : Nat := 2 ^ 31

-- The allocator in its process: memory by headers, the static freep, proc->sz and the pages
-- that are mapped. grants says for the next calls of allocuvm that need pages whether there
-- are enough of them; regions records what sbrk has returned.
structure User where
  mem : Nat → Header
  freep : Nat
  sz : Nat
  mapped : Nat → Bool
  grants : List Bool
  regions : List Span

-- An access outside of the mapped pages ends the process. spent: the fuel has run out.
inductive Out (α : Type) where
  | ok (value : α)
  | fault
  | spent

namespace Out

def bind {α β : Type} : Out α → (α → Out β) → Out β
  | .ok a, f => f a
  | .fault, _ => .fault
  | .spent, _ => .spent

instance : Monad Out where
  pure := .ok
  bind := bind

theorem ok_bind {α β : Type} (a : α) (f : α → Out β) : (Out.ok a >>= f) = f a := rfl

theorem spent_bind {α β : Type} (f : α → Out β) : ((Out.spent : Out α) >>= f) = .spent := rfl

end Out

def pgroundup (a : Nat) : Nat := (a + pgsize - 1) % word / pgsize * pgsize

namespace User

def unmap (u : User) (a e : Nat) : User :=
  { u with mapped := fun page => u.mapped page && !(a ≤ page * pgsize && page * pgsize < e) }

def allocuvm (u : User) (oldsz newsz : Nat) : Option Nat × User :=
  if newsz ≥ kernbase then (none, u)
  else if newsz < oldsz then (some oldsz, u)
  else if pgroundup oldsz ≥ newsz then (some newsz, u)
  else
    match u.grants with
    | [] => (none, u.unmap (pgroundup oldsz) newsz)
    | false :: grants => (none, { u.unmap (pgroundup oldsz) newsz with grants := grants })
    | true :: grants =>
      (some newsz, { u with
        grants := grants
        mapped := fun page => u.mapped page || (pgroundup oldsz ≤ page * pgsize && page * pgsize < newsz) })

def deallocuvm (u : User) (oldsz newsz : Nat) : Nat × User :=
  if newsz ≥ oldsz then (oldsz, u) else (newsz, u.unmap (pgroundup newsz) oldsz)

def moved (sz : Nat) (n : Int) : Nat := ((sz + n) % word).toNat

def growproc (u : User) (n : Int) : Bool × User :=
  if n > 0 then
    match u.allocuvm u.sz (moved u.sz n) with
    | (none, u) => (false, u)
    | (some sz, u) => (true, { u with sz := sz })
  else if n < 0 then
    let (sz, u) := u.deallocuvm u.sz (moved u.sz n)
    if sz = 0 then (false, u) else (true, { u with sz := sz })
  else (true, u)

def signed (bytes : Nat) : Int := if bytes < 2 ^ 31 then bytes else (bytes : Int) - word

def sbrk (u : User) (bytes : Nat) : Option Nat × User :=
  match u.growproc (signed bytes) with
  | (false, u) => (none, u)
  | (true, u') =>
    (some u.sz, if u.sz < u'.sz then { u' with regions := ⟨u.sz, u'.sz - u.sz⟩ :: u'.regions } else u')

def has (u : User) (a : Nat) : Bool := u.mapped (a / pgsize) && u.mapped ((a + 7) / pgsize)

def load (u : User) (a : Nat) : Out Header := if u.has a then .ok (u.mem a) else .fault

def store (u : User) (a : Nat) (h : Header) : Out User :=
  if u.has a then .ok { u with mem := upd u.mem a h } else .fault

def freeLoop (u : User) (bp : Nat) : Nat → Nat → Out Nat
  | 0, _ => .spent
  | n + 1, p => do
    let h ← u.load p
    if bp > p ∧ bp < h.ptr then pure p
    else if p ≥ h.ptr ∧ (bp > p ∨ bp < h.ptr) then pure p
    else freeLoop u bp n h.ptr

def join (u : User) (p n : Nat) : Out Header := do
  let h ← u.load p
  if add p h.size = n then do
    let next ← u.load n
    pure ⟨next.ptr, (h.size + next.size) % word⟩
  else pure ⟨n, h.size⟩

def free (fuel ap : Nat) (u : User) : Out User := do
  let bp := header ap
  let p ← u.freeLoop bp fuel u.freep
  let h ← u.load p
  let first ← u.join bp h.ptr
  let u ← u.store bp first
  let second ← u.join p bp
  let u ← u.store p second
  pure { u with freep := p }

def morecore (fuel nu : Nat) (u : User) : Out (Nat × User) :=
  let nu := if nu < 4096 then 4096 else nu
  match u.sbrk (nu * 8 % word) with
  | (none, u) => pure (0, u)
  | (some hp, u) => do
    let h ← u.load hp
    let u ← u.store hp { h with size := nu }
    let u ← free fuel (add hp 1) u
    pure (u.freep, u)

def take (nunits prevp p : Nat) (u : User) : Out (Nat × User) := do
  let h ← u.load p
  if h.size = nunits then do
    let prev ← u.load prevp
    let u ← u.store prevp { prev with ptr := h.ptr }
    pure (add p 1, { u with freep := prevp })
  else do
    let u ← u.store p { h with size := h.size - nunits }
    let p := add p (h.size - nunits)
    let last ← u.load p
    let u ← u.store p { last with size := nunits }
    pure (add p 1, { u with freep := prevp })

def mallocLoop (nunits : Nat) : Nat → Nat → Nat → User → Out (Nat × User)
  | 0, _, _, _ => .spent
  | n + 1, prevp, p, u => do
    let h ← u.load p
    if h.size ≥ nunits then take nunits prevp p u
    else if p = u.freep then do
      let (p, u) ← morecore n nunits u
      if p = 0 then pure (0, u)
      else do
        let h ← u.load p
        mallocLoop nunits n p h.ptr u
    else mallocLoop nunits n p h.ptr u

def init (base : Nat) (u : User) : Out User :=
  if u.freep = 0 then do
    let u ← u.store base ⟨base, 0⟩
    pure { u with freep := base }
  else pure u

def malloc (base fuel nbytes : Nat) (u : User) : Out (Nat × User) := do
  let u ← init base u
  let h ← u.load u.freep
  mallocLoop (units nbytes) fuel u.freep h.ptr u

def outcomes (n : Nat) : Nat → List Bool → List (Option Nat)
  | _, [] => []
  | sz, granted :: grants =>
    if sz + n ≥ kernbase then []
    else if granted then some 0 :: outcomes n (sz + n) grants
    else none :: outcomes n sz grants

def heap (n : Nat) (u : User) : Heap := ⟨u.mem, u.freep, u.sz, outcomes n u.sz u.grants, u.regions⟩

structure Paged (u : User) : Prop where
  pages : ∀ page, u.mapped page = true ↔ page * pgsize < u.sz
  bound : u.sz ≤ kernbase

section

variable {u : User} {n : Nat}

theorem has_below (paged : u.Paged) {a : Nat} (low : a + 8 ≤ u.sz) : u.has a = true := by
  unfold has
  rw [Bool.and_eq_true, paged.pages, paged.pages]
  have first := Nat.div_mul_le_self a pgsize
  have second := Nat.div_mul_le_self (a + 7) pgsize
  omega

theorem load_ok {a : Nat} (has_ : u.has a = true) : u.load a = .ok (u.mem a) := if_pos has_

theorem store_ok {a : Nat} {h : Header} (has_ : u.has a = true) : u.store a h = .ok { u with mem := upd u.mem a h } := if_pos has_

theorem unmap_above (paged : u.Paged) {a e : Nat} (above : u.sz ≤ a) : u.unmap a e = u := by
  have same : (fun page => u.mapped page && !(a ≤ page * pgsize && page * pgsize < e)) = u.mapped := by
    funext page
    cases mapped : u.mapped page with
    | false => rfl
    | true =>
      have low := (paged.pages page).mp mapped
      have before : decide (a ≤ page * pgsize) = false := decide_eq_false (by omega)
      rw [before]
      rfl
  unfold unmap
  rw [same]

theorem pgroundup_near {a : Nat} (low : a ≤ kernbase) : a ≤ pgroundup a ∧ pgroundup a < a + pgsize ∧ pgroundup a % pgsize = 0 := by
  unfold pgroundup
  rw [Nat.mod_eq_of_lt (by unfold word pgsize kernbase at *; omega)]
  unfold pgsize
  omega

theorem page_range {a e page : Nat} (low : a ≤ kernbase) (grows : a ≤ e) :
    page * pgsize < e ↔ page * pgsize < a ∨ pgroundup a ≤ page * pgsize ∧ page * pgsize < e := by
  obtain ⟨above, near, whole⟩ := pgroundup_near low
  unfold pgsize at *
  omega

theorem growproc_grows (paged : u.Paged) (large : pgsize ≤ n) (small : n < 2 ^ 31) :
    ∃ grants, (u.growproc n = (false, { u with grants := grants }) ∧ Umalloc.sbrk n (u.heap n) = (none, heap n { u with grants := grants })) ∨
      ∃ mapped, u.growproc n = (true, { u with grants := grants, mapped := mapped, sz := u.sz + n }) ∧
        Paged { u with grants := grants, mapped := mapped, sz := u.sz + n } ∧
        Umalloc.sbrk n (u.heap n) = (some u.sz, heap n
          { u with grants := grants, mapped := mapped, sz := u.sz + n, regions := ⟨u.sz, n⟩ :: u.regions }) := by
  have bound := paged.bound
  have size : moved u.sz n = u.sz + n := by
    unfold moved
    rw [Int.emod_eq_of_lt (by omega) (by unfold word kernbase at *; omega)]
    omega
  obtain ⟨-, near, -⟩ := pgroundup_near bound
  unfold growproc
  rw [if_pos (by unfold pgsize at large; omega), size]
  unfold allocuvm
  by_cases high : u.sz + n ≥ kernbase
  · refine ⟨u.grants, .inl ⟨?_, ?_⟩⟩
    · rw [if_pos high]
    · unfold Umalloc.sbrk heap
      dsimp only
      cases u.grants with
      | nil => rfl
      | cons granted grants => rw [outcomes, if_pos high]
  · rw [if_neg high, if_neg (by omega), if_neg (by omega)]
    cases granted : u.grants with
    | nil =>
      refine ⟨[], .inl ⟨?_, ?_⟩⟩
      · dsimp only
        rw [unmap_above paged (pgroundup_near bound).1, ← granted]
      · unfold Umalloc.sbrk heap
        rw [granted]
        rfl
    | cons first grants =>
      refine ⟨grants, ?_⟩
      cases first with
      | false =>
        refine .inl ⟨?_, ?_⟩
        · dsimp only
          rw [unmap_above paged (pgroundup_near bound).1]
        · unfold Umalloc.sbrk heap
          rw [granted, outcomes, if_neg high]
          rfl
      | true =>
        refine .inr ⟨_, rfl, ⟨fun page => ?_, by dsimp only; omega⟩, ?_⟩
        · dsimp only
          rw [Bool.or_eq_true, Bool.and_eq_true, decide_eq_true_iff, decide_eq_true_iff, paged.pages]
          exact (page_range bound (Nat.le_add_right _ _)).symm
        · unfold Umalloc.sbrk heap
          rw [granted, outcomes, if_neg high, if_pos rfl]
          dsimp only
          rw [if_pos (by unfold word kernbase at *; omega)]
          rfl

theorem sbrk_sim (paged : u.Paged) (large : pgsize ≤ n) (small : n < 2 ^ 31) :
    ∃ u', u.sbrk n = ((Umalloc.sbrk n (u.heap n)).1, u') ∧ u'.heap n = (Umalloc.sbrk n (u.heap n)).2 ∧ u'.Paged := by
  have plain : signed n = n := if_pos small
  unfold sbrk
  rw [plain]
  obtain ⟨grants, ⟨fails, same⟩ | ⟨mapped, grows, paged', same⟩⟩ := growproc_grows paged large small
  · rw [fails, same]
    exact ⟨_, rfl, rfl, ⟨paged.pages, paged.bound⟩⟩
  · rw [grows, same]
    dsimp only
    rw [if_pos (by unfold pgsize at large; omega), Nat.add_sub_cancel_left]
    exact ⟨_, rfl, rfl, ⟨paged'.pages, paged'.bound⟩⟩

end

def Agrees (n : Nat) : Out (Nat × User) → Option (Nat × Heap) → Prop
  | .ok (a, u), some (a', h) => a = a' ∧ u.heap n = h ∧ u.Paged
  | .spent, none => True
  | _, _ => False

section

variable {u : User} {n : Nat} {S : Nat → Prop}

theorem freeLoop_sim (closed : ∀ a, S a → u.has a = true ∧ S (u.mem a).ptr) (bp fuel p : Nat) (known : S p) :
    (u.freeLoop bp fuel p = .spent ∧ Umalloc.freeLoop u.mem bp fuel p = none) ∨
      ∃ q, S q ∧ u.freeLoop bp fuel p = .ok q ∧ Umalloc.freeLoop u.mem bp fuel p = some q := by
  induction fuel generalizing p with
  | zero => exact .inl ⟨rfl, rfl⟩
  | succ fuel ih =>
    unfold freeLoop Umalloc.freeLoop
    rw [load_ok (closed p known).1, Out.ok_bind]
    split
    · exact .inr ⟨p, known, rfl, rfl⟩
    · split
      · exact .inr ⟨p, known, rfl, rfl⟩
      · exact ih _ (closed p known).2

theorem join_sim {p q : Nat} (first : u.has p = true) (second : u.has q = true) : u.join p q = .ok (Umalloc.join u.mem p q) := by
  unfold join Umalloc.join
  rw [load_ok first, Out.ok_bind]
  split
  · rw [load_ok second]
    rfl
  · rfl

theorem free_sim (closed : ∀ a, S a → u.has a = true ∧ S (u.mem a).ptr) (first : S u.freep) {ap : Nat} (block : u.has (header ap) = true)
    (fuel : Nat) : (u.free fuel ap = .spent ∧ Umalloc.free fuel ap (u.heap n) = none) ∨
      ∃ mem p, u.free fuel ap = .ok { u with mem := mem, freep := p } ∧
        Umalloc.free fuel ap (u.heap n) = some { u.heap n with mem := mem, freep := p } := by
  unfold free Umalloc.free
  dsimp only
  rcases freeLoop_sim closed (header ap) fuel u.freep first with ⟨spent, none_⟩ | ⟨p, known, done, found⟩
  · refine .inl ⟨?_, ?_⟩
    · rw [spent, Out.spent_bind]
    · show Option.bind (Umalloc.freeLoop u.mem (header ap) fuel u.freep) _ = none
      rw [none_]
      rfl
  · obtain ⟨here, next⟩ := closed p known
    obtain ⟨mem, made⟩ : ∃ mem, mem = upd u.mem (header ap) (Umalloc.join u.mem (header ap) (u.mem p).ptr) := ⟨_, rfl⟩
    have here' : ({ u with mem := mem } : User).has p = true := here
    have block' : ({ u with mem := mem } : User).has (header ap) = true := block
    refine .inr ⟨upd mem p (Umalloc.join mem p (header ap)), p, ?_, ?_⟩
    · rw [done, Out.ok_bind, load_ok here, Out.ok_bind, join_sim block (closed _ next).1, Out.ok_bind, store_ok block, Out.ok_bind,
        ← made, join_sim here' block', Out.ok_bind, store_ok here', Out.ok_bind]
      rfl
    · show Option.bind (Umalloc.freeLoop u.mem (header ap) fuel u.freep) _ = _
      rw [found, made]
      rfl

theorem take_sim {nunits prev p : Nat} (here : u.has p = true) (before : u.has prev = true)
    (rest : (u.mem p).size ≠ nunits → u.has (add p ((u.mem p).size - nunits)) = true) :
    ∃ mem, u.take nunits prev p = .ok ((Umalloc.take nunits prev p (u.heap n)).1, { u with mem := mem, freep := prev }) ∧
      (Umalloc.take nunits prev p (u.heap n)).2 = { u.heap n with mem := mem, freep := prev } := by
  unfold take Umalloc.take
  rw [load_ok here, Out.ok_bind]
  by_cases whole : (u.mem p).size = nunits
  · have whole' : ((u.heap n).mem p).size = nunits := whole
    rw [if_pos whole, if_pos whole', load_ok before, Out.ok_bind, store_ok before, Out.ok_bind]
    exact ⟨_, rfl, rfl⟩
  · have whole' : ((u.heap n).mem p).size ≠ nunits := whole
    obtain ⟨mem, made⟩ : ∃ mem, mem = upd u.mem p { u.mem p with size := (u.mem p).size - nunits } := ⟨_, rfl⟩
    have rest' : ({ u with mem := mem } : User).has (add p ((u.mem p).size - nunits)) = true := rest whole
    rw [if_neg whole, if_neg whole', store_ok here, Out.ok_bind, ← made]
    dsimp only
    rw [load_ok rest', Out.ok_bind, store_ok rest', Out.ok_bind]
    refine ⟨_, rfl, ?_⟩
    rw [made]
    rfl

end

section

variable {base : Nat} {u : User} {n : Nat} {live : List Block} {fs : List Span}

theorem nodes_low (inv : Inv base ⟨u.heap n, live⟩ fs) {a : Nat} (node : a ∈ (nodes base fs).map Span.start) : a + 8 ≤ u.sz := by
  obtain ⟨f, member, rfl⟩ := List.mem_map.mp node
  rcases List.mem_cons.mp member with rfl | old
  · exact inv.brk.1
  · have high := (free_bounds inv old).2
    have real := inv.list.real f old
    have size := inv.list.stored.sizes f member
    unfold Span.fin at high
    change f.start + f.len ≤ u.sz at high
    omega

theorem nodes_closed (paged : u.Paged) (inv : Inv base ⟨u.heap n, live⟩ fs) (a : Nat) (node : a ∈ (nodes base fs).map Span.start) :
    u.has a = true ∧ (u.mem a).ptr ∈ (nodes base fs).map Span.start := by
  refine ⟨has_below paged (nodes_low inv node), ?_⟩
  rcases links_inside inv.list.stored.links a node with inside | last
  · exact inside
  · have last' : (u.mem a).ptr = base := last
    rw [last']
    exact List.mem_cons_self

theorem freep_node (inv : Inv base ⟨u.heap n, live⟩ fs) : u.freep ∈ (nodes base fs).map Span.start := inv.list.freep

theorem morecore_sim (paged : u.Paged) (inv : Inv base ⟨u.heap n, live⟩ fs) (fuel nu : Nat)
    (bytes : (if nu < 4096 then 4096 else nu) * 8 % word = n) (large : 8 * 4096 ≤ n) (small : n < 2 ^ 31) :
    Agrees n (u.morecore fuel nu) (Umalloc.morecore fuel nu (u.heap n)) := by
  unfold morecore Umalloc.morecore
  dsimp only
  rw [bytes]
  obtain ⟨u', asked, same, paged'⟩ := sbrk_sim paged (by unfold pgsize; omega) small
  generalize size : (if nu < 4096 then 4096 else nu) = nu' at bytes ⊢
  rw [asked]
  obtain ⟨gaps, fails | ⟨start, above, room, grows⟩⟩ := sbrk_cases n (u.heap n)
  · rw [fails] at same ⊢
    exact ⟨rfl, same, paged'⟩
  · rw [grows] at same ⊢
    dsimp only at same ⊢
    have memory : u'.mem = u.mem := congrArg Heap.mem same
    have first : u'.freep = u.freep := congrArg Heap.freep same
    have ends : u'.sz = start + n := congrArg Heap.brk same
    have low : u.sz ≤ start := above
    have fits : u'.has start = true := has_below paged' (by omega)
    obtain ⟨u₁, made⟩ : ∃ u₁ : User, u₁ = { u' with mem := upd u'.mem start { u'.mem start with size := nu' } } := ⟨_, rfl⟩
    have stored : u'.store start { u'.mem start with size := nu' } = .ok u₁ := by
      rw [store_ok fits, made]
    have whole : u₁.heap n = ⟨upd u.mem start ⟨(u.mem start).ptr, nu'⟩, u.freep, start + n, gaps, ⟨start, n⟩ :: u.regions⟩ := by
      have this : u₁.heap n = { u'.heap n with mem := upd (u'.heap n).mem start ⟨((u'.heap n).mem start).ptr, nu'⟩ } := by
        rw [made]
        rfl
      rw [this, same]
      rfl
    have paged₁ : u₁.Paged := by
      rw [made]
      exact ⟨paged'.pages, paged'.bound⟩
    have closed : ∀ a, a ∈ (nodes base fs).map Span.start → u₁.has a = true ∧ (u₁.mem a).ptr ∈ (nodes base fs).map Span.start := by
      intro a node
      have below := nodes_low inv node
      refine ⟨has_below paged₁ (by rw [made]; dsimp only; omega), ?_⟩
      have kept : u₁.mem a = u.mem a := by
        rw [made]
        dsimp only
        rw [upd_ne (by omega), memory]
      rw [kept]
      exact (nodes_closed paged inv a node).2
    have node : u₁.freep ∈ (nodes base fs).map Span.start := by
      rw [made]
      dsimp only
      rw [first]
      exact freep_node inv
    have here : header (add start 1) = start := header_add (by omega)
    have block : u₁.has (header (add start 1)) = true := by
      rw [here, made]
      exact fits
    rw [load_ok fits, Out.ok_bind, stored, Out.ok_bind]
    change Agrees n _ (Option.bind (Umalloc.free fuel (add start 1)
      ⟨upd u.mem start ⟨(u.mem start).ptr, nu'⟩, u.freep, start + n, gaps, ⟨start, n⟩ :: u.regions⟩) _)
    rw [← whole]
    rcases free_sim (n := n) closed node block fuel with ⟨spent, none_⟩ | ⟨mem, p, done, found⟩
    · rw [spent, none_]
      trivial
    · rw [done, found]
      exact ⟨rfl, rfl, paged₁.pages, paged₁.bound⟩

theorem rest_low (inv : Inv base ⟨u.heap n, live⟩ fs) {p nunits : Nat} (node : p ∈ (nodes base fs).map Span.start) (some_ : 0 < nunits)
    (fits : (u.mem p).size ≥ nunits) : add p ((u.mem p).size - nunits) + 8 ≤ u.sz := by
  obtain ⟨f, member, rfl⟩ := List.mem_map.mp node
  have size : f.len = 8 * (u.mem f.start).size := inv.list.stored.sizes f member
  have bound := inv.list.bound f member
  rcases List.mem_cons.mp member with rfl | old
  · change 0 = 8 * (u.mem base).size at size
    change (u.mem base).size ≥ nunits at fits
    omega
  · have high : f.fin ≤ u.sz := (free_bounds inv old).2
    unfold add
    unfold Span.fin at *
    rw [Nat.mod_eq_of_lt (by omega)]
    omega

theorem agrees_none {x : Out (Nat × User)} (agrees : Agrees n x none) : x = .spent := by
  cases x with
  | ok r => exact agrees.elim
  | fault => exact agrees.elim
  | spent => rfl

theorem agrees_some {x : Out (Nat × User)} {r : Nat × Heap} (agrees : Agrees n x (some r)) :
    ∃ u, x = .ok (r.1, u) ∧ u.heap n = r.2 ∧ u.Paged := by
  cases x with
  | ok r' =>
    obtain ⟨first, same, paged⟩ := agrees
    exact ⟨r'.2, by rw [← first], same, paged⟩
  | fault => exact agrees.elim
  | spent => exact agrees.elim

theorem morecore_inv {h : Heap} (inv : Inv base ⟨h, live⟩ fs) {nunits fuel : Nat} (bound : nunits ≤ 2 ^ 28) {r : Nat × Heap}
    (asked : Umalloc.morecore fuel nunits h = some r) (real : r.1 ≠ 0) : ∃ fs', Inv base ⟨r.2, live⟩ fs' ∧ r.1 = r.2.freep := by
  rcases morecore_spec inv nunits bound with ⟨gaps, fails⟩ | ⟨h', t, grows, grown, -⟩
  · rw [fails fuel] at asked
    cases asked
    exact absurd rfl real
  · have more := morecore_mono asked (Nat.le_max_left fuel (fs.length + 1))
    rw [grows _ (Nat.lt_of_lt_of_le (Nat.lt_succ_self _) (Nat.le_max_right _ _))] at more
    obtain ⟨first, second⟩ := Prod.mk.inj (Option.some.inj more)
    rw [← first, ← second]
    exact ⟨_, grown, rfl⟩

theorem mallocLoop_sim {nunits : Nat} (some_ : 0 < nunits) (bytes : (if nunits < 4096 then 4096 else nunits) * 8 % word = n)
    (large : 8 * 4096 ≤ n) (small : n < 2 ^ 31) (bound : nunits ≤ 2 ^ 28) (fuel : Nat) {prev p : Nat} (paged : u.Paged)
    (inv : Inv base ⟨u.heap n, live⟩ fs) (known : prev ∈ (nodes base fs).map Span.start) (next : (u.mem prev).ptr = p) :
    Agrees n (u.mallocLoop nunits fuel prev p) (Umalloc.mallocLoop nunits fuel prev p (u.heap n)) := by
  induction fuel generalizing u fs prev p with
  | zero => trivial
  | succ fuel ih =>
    have node : p ∈ (nodes base fs).map Span.start := by
      rw [← next]
      exact (nodes_closed paged inv prev known).2
    have here := (nodes_closed paged inv p node).1
    unfold mallocLoop Umalloc.mallocLoop
    rw [load_ok here, Out.ok_bind]
    by_cases fits : (u.mem p).size ≥ nunits
    · have fits' : ((u.heap n).mem p).size ≥ nunits := fits
      rw [if_pos fits, if_pos fits']
      obtain ⟨mem, taken, same⟩ := take_sim (n := n) here (nodes_closed paged inv prev known).1
        fun _ => has_below paged (rest_low inv node some_ fits)
      show Agrees n _ (some ((Umalloc.take nunits prev p (u.heap n)).1, (Umalloc.take nunits prev p (u.heap n)).2))
      rw [taken, same]
      exact ⟨rfl, rfl, paged.pages, paged.bound⟩
    · have fits' : ¬ ((u.heap n).mem p).size ≥ nunits := fits
      rw [if_neg fits, if_neg fits']
      by_cases last : p = u.freep
      · have last' : p = (u.heap n).freep := last
        rw [if_pos last, if_pos last']
        have agrees := morecore_sim paged inv fuel nunits bytes large small
        cases asked : Umalloc.morecore fuel nunits (u.heap n) with
        | none =>
          rw [asked] at agrees
          rw [agrees_none agrees]
          trivial
        | some r =>
          rw [asked] at agrees
          obtain ⟨u', done, same, paged'⟩ := agrees_some agrees
          rw [done, Out.ok_bind]
          dsimp only
          by_cases failed : r.1 = 0
          · rw [if_pos failed, if_pos failed]
            exact ⟨rfl, same, paged'⟩
          · rw [if_neg failed, if_neg failed]
            obtain ⟨fs', inv', first⟩ := morecore_inv inv bound asked failed
            rw [← same] at inv' first ⊢
            have node' : r.1 ∈ (nodes base fs').map Span.start := by
              rw [first]
              exact freep_node inv'
            rw [load_ok (nodes_closed paged' inv' r.1 node').1, Out.ok_bind]
            exact ih paged' inv' node' rfl
      · have last' : ¬ p = (u.heap n).freep := last
        rw [if_neg last, if_neg last']
        exact ih paged inv node rfl

end

end User

end Xv6.Umalloc
