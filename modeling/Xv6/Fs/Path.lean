import Xv6.Fs.Directory
import Xv6.Fs.Image

set_option autoImplicit false

namespace Xv6

def components (path : Path) : List Name := ((path.splitOn slash).filter (· ≠ [])).map key

section

variable {path : Path}

theorem components_nil : components [] = [] := rfl

theorem components_slash (path : Path) : components (slash :: path) = components path := by
  unfold components
  rw [List.splitOn_cons_eq_if_modifyHead, if_pos (by decide), List.filter_cons_of_neg (by simp)]

theorem components_skip (path : Path) : components (path.dropWhile (· = slash)) = components path := by
  induction path with
  | nil => rfl
  | cons a rest ih =>
    by_cases here : a = slash
    · rw [List.dropWhile_cons_of_pos (by simp [here]), ih, here, components_slash]
    · rw [List.dropWhile_cons_of_neg (by simp [here])]

theorem skip_head {a : UInt8} {more : Path} (skipped : path.dropWhile (· = slash) = a :: more) : a ≠ slash := by
  have some_ : path.dropWhile (· = slash) ≠ [] := by
    rw [skipped]
    exact List.cons_ne_nil _ _
  have head := List.head_dropWhile_not (fun b : UInt8 => decide (b = slash)) some_
  simp only [skipped, List.head_cons, decide_eq_false_iff_not] at head
  exact head

theorem components_cons {a : UInt8} (more : Path) (first : a ≠ slash) : components (a :: more) =
    key ((a :: more).takeWhile (· ≠ slash)) :: components ((a :: more).dropWhile (· ≠ slash)) := by
  have some_ : (a :: more).takeWhile (· ≠ slash) ≠ [] := by
    rw [List.takeWhile_cons_of_pos (by simp [first])]
    exact List.cons_ne_nil _ _
  have free : slash ∉ (a :: more).takeWhile (· ≠ slash) := by
    intro member
    have kept := List.all_eq_true.mp List.all_takeWhile slash member
    exact absurd rfl (of_decide_eq_true kept)
  have split : (a :: more).takeWhile (· ≠ slash) ++ (a :: more).dropWhile (· ≠ slash) = a :: more := List.takeWhile_append_dropWhile
  have rest := List.head_dropWhile_not (fun b : UInt8 => decide (b ≠ slash)) (l := a :: more)
  generalize (a :: more).takeWhile (· ≠ slash) = word at some_ free split
  generalize (a :: more).dropWhile (· ≠ slash) = tail at split rest
  rw [← split]
  cases tail with
  | nil =>
    unfold components
    rw [List.append_nil, List.splitOn_eq_singleton free, List.filter_cons_of_pos (by simp [some_])]
    rfl
  | cons b tail =>
    have last : b = slash := not_not.mp (of_decide_eq_false (rest (List.cons_ne_nil _ _)))
    rw [last, components_slash]
    unfold components
    rw [List.splitOn_append_cons_self_of_not_mem free, List.filter_cons_of_pos (by simp [some_]), List.map_cons]

theorem skipelem_none (ended : skipelem path = none) : components path = [] := by
  unfold skipelem at ended
  dsimp only at ended
  split at ended
  case isTrue empty => rw [← components_skip, empty, components_nil]
  case isFalse => cases ended

theorem skipelem_some {name : Name} {rest : Path} (next : skipelem path = some (name, rest)) :
    components path = name :: components rest ∧ key name = name ∧ rest.length < path.length ∧ (rest = [] ↔ components rest = []) ∧
      (0 ∉ path → 0 ∉ name ∧ 0 ∉ rest) := by
  unfold skipelem at next
  dsimp only at next
  split at next
  case isTrue => cases next
  case isFalse some_ =>
    cases next
    generalize whole : path.dropWhile (· = slash) = tail at some_
    obtain ⟨a, more, rfl⟩ := List.exists_cons_of_ne_nil some_
    have first := skip_head whole
    have shorter : (a :: more).length ≤ path.length := by
      rw [← whole]
      exact (List.dropWhile_suffix _).length_le
    have inside : 0 ∉ path → 0 ∉ a :: more := fun text member => text ((List.dropWhile_sublist _).mem (whole ▸ member))
    refine ⟨?_, ?_, ?_, ?_, fun text => ⟨fun member => ?_, fun member => ?_⟩⟩
    · rw [← components_skip path, whole, components_skip]
      exact components_cons more first
    · rw [key, List.take_take, Nat.min_self]
    · have cut : ((a :: more).dropWhile (· ≠ slash)).length < (a :: more).length := by
        rw [List.dropWhile_cons_of_pos (by simp [first])]
        exact Nat.lt_succ_of_le (List.dropWhile_suffix _).length_le
      have cut' := (List.dropWhile_suffix (fun b : UInt8 => decide (b = slash)) (l := (a :: more).dropWhile (· ≠ slash))).length_le
      omega
    · generalize left : ((a :: more).dropWhile (· ≠ slash)).dropWhile (· = slash) = rest
      cases rest with
      | nil => exact ⟨fun _ => components_nil, fun _ => rfl⟩
      | cons b rest =>
        rw [components_cons rest (skip_head left)]
        exact ⟨nofun, nofun⟩
    · exact inside text ((List.takeWhile_sublist _).mem (List.mem_of_mem_take member))
    · exact inside text ((List.dropWhile_sublist _).mem ((List.dropWhile_sublist _).mem member))

end

section

variable {sb : Superblock} {t : Fs} {p k : Nat}

theorem withInode_icache (ip : Inode) (j : Nat) : (t.withInode k ip).mem.icache j = if j = k then ip else t.mem.icache j := by
  by_cases here : j = k
  · rw [here, withInode_self, if_pos rfl]
  · rw [if_neg here]
    exact upd_ne here

theorem iunlock_run (locked : (t.mem.icache k).locked = true) (held : 1 ≤ (t.mem.icache k).ref) :
    (iunlock k).run Op.exec t = .ok () (t.withInode k { t.mem.icache k with locked := false, pid := 0 }) := by
  have fine : ¬ ((!(t.mem.icache k).locked || decide ((t.mem.icache k).ref < 1)) = true) := by
    rw [locked, Bool.not_true, Bool.false_or, decide_eq_true_eq]
    omega
  rw [iunlock, Prog.run_bind _ run_getInode, if_neg fine]
  rfl

theorem iput_run (kept : ¬ ((t.mem.icache k).ref = 1 ∧ (t.mem.icache k).valid = true ∧ (t.mem.icache k).din.nlink = 0)) :
    (iput sb k).run Op.exec t = .ok () (t.withInode k { t.mem.icache k with ref := (t.mem.icache k).ref - 1 }) := by
  have dropped : (iputCheck k).run Op.exec t = .ok false (t.withInode k { t.mem.icache k with ref := (t.mem.icache k).ref - 1 }) := by
    rw [iputCheck, Prog.run_lift, Op.exec, if_neg kept]
    rfl
  rw [iput, Prog.run_bind _ dropped]
  rfl

theorem iunlockput_run (locked : (t.mem.icache k).locked = true) (held : 1 ≤ (t.mem.icache k).ref)
    (kept : (t.mem.icache k).ref = 1 → (t.mem.icache k).din.nlink ≠ 0) :
    (iunlockput sb k).run Op.exec t =
      .ok () (t.withInode k { t.mem.icache k with locked := false, pid := 0, ref := (t.mem.icache k).ref - 1 }) := by
  rw [iunlockput, Prog.run_bind _ (iunlock_run locked held), iput_run]
  · rw [withInode_self, withInode_twice]
  · rw [withInode_self]
    exact fun free => kept free.1 free.2.2

-- Entry k becomes ip when iget takes a reference to the inode: the entry is for it, or no entry is and k is free.
def Gets (t : Fs) (inum k : Nat) (ip : Inode) : Prop :=
  (0 < (t.mem.icache k).ref ∧ (t.mem.icache k).inum = inum ∧ ip = { t.mem.icache k with ref := (t.mem.icache k).ref + 1 }) ∨
    ((t.mem.icache k).ref = 0 ∧ (∀ j < ninode, 0 < (t.mem.icache j).ref → (t.mem.icache j).inum ≠ inum) ∧
      ip = { t.mem.icache k with inum := inum, ref := 1, valid := false, busy := false })

theorem iget_cases (t : Fs) (inum : Nat) :
    ((iget inum).run Op.exec t = .panic "iget: no inodes" ∧ ∀ j < ninode, (t.mem.icache j).ref ≠ 0) ∨
      ∃ k ip, k < ninode ∧ (iget inum).run Op.exec t = .ok k (t.withInode k ip) ∧ Gets t inum k ip := by
  rw [iget, Prog.run_lift, Op.exec]
  cases cached : (List.range ninode).find? fun k => 0 < (t.mem.icache k).ref ∧ (t.mem.icache k).inum = inum with
  | some k =>
    have here := List.find?_some cached
    have found := of_decide_eq_true here
    exact .inr ⟨k, _, List.mem_range.mp (List.mem_of_find?_eq_some cached), rfl, .inl ⟨found.1, found.2, rfl⟩⟩
  | none =>
    dsimp only
    cases free : (List.range ninode).find? fun k => (t.mem.icache k).ref = 0 with
    | some k =>
      have here := List.find?_some free
      have found := of_decide_eq_true here
      refine .inr ⟨k, _, List.mem_range.mp (List.mem_of_find?_eq_some free), rfl, .inr ⟨found, fun j small used same => ?_, rfl⟩⟩
      exact List.find?_eq_none.mp cached j (List.mem_range.mpr small) (decide_eq_true ⟨used, same⟩)
    | none =>
      refine .inl ⟨rfl, fun j small zero => ?_⟩
      exact List.find?_eq_none.mp free j (List.mem_range.mpr small) (decide_eq_true zero)

end

def Superblock.node (sb : Superblock) (img : Nat → Block) (inum : Nat) : Dinode := getDinode (img (sb.iblock inum)) (inum % ipb)

def entryOf (sb : Superblock) (img : Nat → Block) (i : Nat) (name : Name) : Option Nat :=
  if (sb.node img i).type = tDir then (lookup img (sb.node img i) name).map Binding.inum else none

def follow (sb : Superblock) (img : Nat → Block) : Nat → List Name → Option Nat
  | i, [] => some i
  | i, name :: rest => (entryOf sb img i name).bind fun j => follow sb img j rest

def followParent (sb : Superblock) (img : Nat → Block) (i : Nat) (names : List Name) : Option (Nat × Name) :=
  (follow sb img i names.dropLast).bind fun j =>
    if (sb.node img j).type = tDir then names.getLast?.map fun name => (j, name) else none

theorem followParent_nil (sb : Superblock) (img : Nat → Block) (i : Nat) : followParent sb img i [] = none := ite_self _

theorem followParent_last {sb : Superblock} {img : Nat → Block} {i : Nat} (dir : (sb.node img i).type = tDir) (name : Name) :
    followParent sb img i [name] = some (i, name) := if_pos dir

inductive Below (sb : Superblock) (img : Nat → Block) (start : Nat) : Nat → Prop where
  | start : Below sb img start start
  | entry (i : Nat) (e : Binding) (before : Below sb img start i) (dir : (sb.node img i).type = tDir)
      (inside : e ∈ bindings img (sb.node img i)) : Below sb img start e.inum

structure Cached (sb : Superblock) (st : Fs) : Prop where
  once : ∀ j < ninode, ∀ k < ninode, 0 < (st.mem.icache j).ref → 0 < (st.mem.icache k).ref →
    (st.mem.icache j).inum = (st.mem.icache k).inum → j = k
  count : ∀ k < ninode, 0 ≤ (st.mem.icache k).ref
  free : ∀ k < ninode, (st.mem.icache k).locked = false
  copy : ∀ k < ninode, 0 < (st.mem.icache k).ref → (st.mem.icache k).valid = true →
    (st.mem.icache k).din = sb.node st.cache (st.mem.icache k).inum

-- The tree below start: inodes in use with a link or a reference, directories that can be read.
structure Tree (sb : Superblock) (st : Fs) (start : Nat) : Prop where
  used : ∀ i, Below sb st.cache start i → (sb.node st.cache i).type ≠ 0
  kept : ∀ i, Below sb st.cache start i → (sb.node st.cache i).nlink ≠ 0 ∨
    ∃ k < ninode, 0 < (st.mem.icache k).ref ∧ (st.mem.icache k).inum = i
  whole : ∀ i, Below sb st.cache start i → (sb.node st.cache i).type = tDir → (sb.node st.cache i).size % 16 = 0
  solid : ∀ i, Below sb st.cache start i → (sb.node st.cache i).type = tDir →
    Solid st.cache (sb.node st.cache i) (sb.node st.cache i).size

structure Holding (sb : Superblock) (st s : Fs) (r : Option Nat) : Prop where
  rest : s = { st with mem := { st.mem with icache := s.mem.icache } }
  ref : ∀ j, (s.mem.icache j).ref = (st.mem.icache j).ref + if r = some j then 1 else 0
  kept : ∀ j < ninode, 0 < (st.mem.icache j).ref → (s.mem.icache j).inum = (st.mem.icache j).inum
  cached : Cached sb s

section

variable {sb : Superblock} {st s : Fs} {p k i start : Nat}

theorem holding_cache {r : Option Nat} (holding : Holding sb st s r) : s.cache = st.cache := by
  rw [holding.rest]

theorem tree_readable (tree : Tree sb st start) (reached : Below sb st.cache start i) (dir : (sb.node st.cache i).type = tDir) :
    Readable st.cache (sb.node st.cache i) :=
  ⟨dir, tree.whole i reached dir, Buf.getLE_lt _ _ _, tree.solid i reached dir⟩

def lockedAs (sb : Superblock) (s : Fs) (p k i : Nat) : Inode :=
  { s.mem.icache k with locked := true, pid := p, valid := true, din := sb.node s.cache i }

theorem holding_ref (holding : Holding sb st s (some k)) : (s.mem.icache k).ref = (st.mem.icache k).ref + 1 := by
  rw [holding.ref k, if_pos rfl]

theorem holding_lock (holding : Holding sb st s (some k)) (counts : ∀ j < ninode, 0 ≤ (st.mem.icache j).ref) (small : k < ninode)
    (names : (s.mem.icache k).inum = i) (used : (sb.node st.cache i).type ≠ 0) :
    (ilock sb p k).run Op.exec s = .ok () (s.withInode k (lockedAs sb s p k i)) := by
  have count := counts k small
  have held : 1 ≤ (s.mem.icache k).ref := by
    rw [holding_ref holding]
    omega
  refine ilock_locks ⟨names, held, holding.cached.free k small, fun valid => ?_⟩ ?_
  · have copied := holding.cached.copy k small (by omega) valid
    rw [names] at copied
    exact copied
  · have same := holding_cache holding
    unfold Superblock.node at used
    rw [same]
    exact used

theorem withInode_comm (t : Fs) {j k : Nat} (different : j ≠ k) (a b : Inode) :
    (t.withInode j a).withInode k b = (t.withInode k b).withInode j a := by
  unfold Fs.withInode Mem.setInode
  dsimp only
  have same : upd (upd t.mem.icache j a) k b = upd (upd t.mem.icache k b) j a := by
    funext m
    by_cases here : m = k
    · rw [here, upd_self, upd_ne (Ne.symm different), upd_self]
    · rw [upd_ne here]
      by_cases there : m = j
      · rw [there, upd_self, upd_self]
      · rw [upd_ne there, upd_ne there, upd_ne here]
  rw [same]

theorem cached_with (cached : Cached sb s) {ip : Inode} (free : ip.locked = false) (count : 0 ≤ ip.ref)
    (copy : 0 < ip.ref → ip.valid = true → ip.din = sb.node s.cache ip.inum)
    (once : 0 < ip.ref → ∀ j < ninode, j ≠ k → 0 < (s.mem.icache j).ref → (s.mem.icache j).inum ≠ ip.inum) :
    Cached sb (s.withInode k ip) := by
  refine ⟨fun j small m small' used used' same => ?_, fun j small => ?_, fun j small => ?_, fun j small used valid => ?_⟩
  · rw [withInode_icache] at used same
    rw [withInode_icache] at used' same
    by_cases here : j = k
    · by_cases there : m = k
      · exact here.trans there.symm
      · rw [if_pos here] at used same
        rw [if_neg there] at used' same
        exact absurd same.symm (once used m small' there used')
    · by_cases there : m = k
      · rw [if_neg here] at used same
        rw [if_pos there] at used' same
        exact absurd same (once used' j small here used)
      · rw [if_neg here] at used same
        rw [if_neg there] at used' same
        exact cached.once j small m small' used used' same
  · rw [withInode_icache]
    split
    · exact count
    · exact cached.count j small
  · rw [withInode_icache]
    split
    · exact free
    · exact cached.free j small
  · rw [withInode_icache] at used valid ⊢
    split at used
    · rename_i here
      rw [if_pos here] at valid ⊢
      exact copy used valid
    · rename_i other
      rw [if_neg other] at valid ⊢
      exact cached.copy j small used valid

theorem holding_with {r r' : Option Nat} (holding : Holding sb st s r) {ip : Inode}
    (ref : ip.ref = (st.mem.icache k).ref + if r' = some k then 1 else 0) (others : ∀ j, j ≠ k → (r' = some j ↔ r = some j))
    (kept : k < ninode → 0 < (st.mem.icache k).ref → ip.inum = (st.mem.icache k).inum) (cached : Cached sb (s.withInode k ip)) :
    Holding sb st (s.withInode k ip) r' := by
  refine ⟨?_, fun j => ?_, fun j small used => ?_, cached⟩
  · have before := holding.rest
    unfold Fs.withInode Mem.setInode
    dsimp only
    rw [before]
  · rw [withInode_icache]
    by_cases here : j = k
    · rw [if_pos here, here]
      exact ref
    · rw [if_neg here, holding.ref j]
      simp only [others j here]
  · rw [withInode_icache]
    by_cases here : j = k
    · rw [if_pos here, here]
      rw [here] at small used
      exact kept small used
    · rw [if_neg here]
      exact holding.kept j small used

def releasedAs (sb : Superblock) (s : Fs) (k i : Nat) : Inode :=
  { s.mem.icache k with locked := false, pid := 0, valid := true, din := sb.node s.cache i, ref := (s.mem.icache k).ref - 1 }

structure Walk (sb : Superblock) (st s : Fs) (start k i : Nat) : Prop where
  holding : Holding sb st s (some k)
  counts : ∀ j < ninode, 0 ≤ (st.mem.icache j).ref
  small : k < ninode
  names : (s.mem.icache k).inum = i
  reached : Below sb st.cache start i
  alive : (st.mem.icache k).ref = 0 → (sb.node st.cache i).nlink ≠ 0

section

variable (walk : Walk sb st s start k i)
include walk

theorem walk_others {j : Nat} (small : j < ninode) (other : j ≠ k) (used : 0 < (s.mem.icache j).ref) :
    (s.mem.icache j).inum ≠ i := by
  intro same
  have mine : 0 < (s.mem.icache k).ref := by
    have count := walk.counts k walk.small
    rw [holding_ref walk.holding]
    omega
  exact other (walk.holding.cached.once j small k walk.small used mine (same.trans walk.names.symm))

theorem walk_cached {ip : Inode} (names : ip.inum = i) (free : ip.locked = false) (count : 0 ≤ ip.ref)
    (copy : ip.valid = true → ip.din = sb.node s.cache i) : Cached sb (s.withInode k ip) := by
  refine cached_with walk.holding.cached free count (fun _ valid => ?_) fun _ j small other used => ?_
  · rw [names]
    exact copy valid
  · rw [names]
    exact walk_others walk small other used

theorem walk_kept {ip : Inode} (names : ip.inum = i) (small : k < ninode)
    (used : 0 < (st.mem.icache k).ref) : ip.inum = (st.mem.icache k).inum := by
  rw [names, ← walk.names]
  exact walk.holding.kept k small used

theorem walk_unlock : (iunlock k).run Op.exec (s.withInode k (lockedAs sb s p k i)) =
      .ok () (s.withInode k { lockedAs sb s p k i with locked := false, pid := 0 }) ∧
    Holding sb st (s.withInode k { lockedAs sb s p k i with locked := false, pid := 0 }) (some k) := by
  have count := walk.counts k walk.small
  have ref := holding_ref walk.holding
  have locked : ((s.withInode k (lockedAs sb s p k i)).mem.icache k).locked = true := by
    rw [withInode_self]
    rfl
  have held : 1 ≤ ((s.withInode k (lockedAs sb s p k i)).mem.icache k).ref := by
    rw [withInode_self]
    show 1 ≤ (s.mem.icache k).ref
    omega
  have unlocked := iunlock_run locked held
  rw [withInode_self, withInode_twice] at unlocked
  refine ⟨unlocked, holding_with walk.holding ?_ (fun j _ => Iff.rfl) (walk_kept walk walk.names) (walk_cached walk walk.names rfl ?_ ?_)⟩
  · rw [if_pos rfl]
    exact ref
  · show 0 ≤ (s.mem.icache k).ref
    omega
  · exact fun _ => rfl

theorem walk_released {ip : Inode} (names : ip.inum = i) (free : ip.locked = false)
    (ref : ip.ref = (s.mem.icache k).ref - 1) (copy : ip.valid = true → ip.din = sb.node s.cache i) :
    Holding sb st (s.withInode k ip) none := by
  have count := walk.counts k walk.small
  have more := holding_ref walk.holding
  refine holding_with walk.holding ?_ (fun j other => ?_) (walk_kept walk names) (walk_cached walk names free ?_ copy)
  · rw [ref, more, if_neg nofun]
    omega
  · exact ⟨nofun, fun same => absurd (Option.some.inj same).symm other⟩
  · rw [ref]
    omega

theorem walk_put {t : Fs} (here : t.mem.icache k = lockedAs sb s p k i) :
    (iunlockput sb k).run Op.exec t = .ok () (t.withInode k (releasedAs sb s k i)) := by
  have count := walk.counts k walk.small
  have ref := holding_ref walk.holding
  have locked : (t.mem.icache k).locked = true := by rw [here]; rfl
  have held : 1 ≤ (t.mem.icache k).ref := by
    rw [here]
    show 1 ≤ (s.mem.icache k).ref
    omega
  have kept : (t.mem.icache k).ref = 1 → (t.mem.icache k).din.nlink ≠ 0 := by
    rw [here]
    intro last
    have last' : (s.mem.icache k).ref = 1 := last
    have none_ : (st.mem.icache k).ref = 0 := by omega
    show (sb.node s.cache i).nlink ≠ 0
    rw [holding_cache walk.holding]
    exact walk.alive none_
  rw [iunlockput_run locked held kept, here]
  rfl

end

def Room (m : Mem) : Prop := ∃ a b, a ≠ b ∧ a < ninode ∧ b < ninode ∧ (m.icache a).ref = 0 ∧ (m.icache b).ref = 0

theorem full_room (k : Nat) (full : ∀ j < ninode, (s.mem.icache j).ref ≠ 0)
    (refs : ∀ j, j ≠ k → (s.mem.icache j).ref = (st.mem.icache j).ref) : ¬ Room st.mem := by
  rintro ⟨a, b, different, smallA, smallB, freeA, freeB⟩
  by_cases here : a = k
  · exact full b smallB ((refs b fun there => different (here.trans there.symm)).trans freeB)
  · exact full a smallA ((refs a here).trans freeA)

theorem holding_none (holding : Holding sb st s none) (j : Nat) : (s.mem.icache j).ref = (st.mem.icache j).ref := by
  rw [holding.ref j, if_neg nofun, Int.add_zero]

theorem holding_taken (holding : Holding sb st s none) (tree : Tree sb st start) {inum : Nat} {ip : Inode} (small : k < ninode)
    (reached : Below sb st.cache start inum) (taken : Gets s inum k ip) : Walk sb st (s.withInode k ip) start k inum := by
  have same := holding_none holding
  have counts : ∀ j < ninode, 0 ≤ (st.mem.icache j).ref := fun j low => same j ▸ holding.cached.count j low
  have others : ∀ j, j ≠ k → (some k = some j ↔ none = some j) := fun j other =>
    ⟨fun here => absurd (Option.some.inj here).symm other, nofun⟩
  have free := holding.cached.free k small
  rcases taken with ⟨used, names, rfl⟩ | ⟨zero, absent, rfl⟩
  · have cached : Cached sb (s.withInode k { s.mem.icache k with ref := (s.mem.icache k).ref + 1 }) := by
      refine cached_with holding.cached free ?_ (fun _ => holding.cached.copy k small used) fun _ j low other used' there => ?_
      · show 0 ≤ (s.mem.icache k).ref + 1
        omega
      · exact other (holding.cached.once j low k small used' used there)
    refine ⟨holding_with holding ?_ others (holding.kept k) cached, counts, small, ?_, reached, fun none_ => ?_⟩
    · rw [if_pos rfl, ← same k]
    · rw [withInode_self]
      exact names
    · rw [same k] at used
      omega
  · have unused : (st.mem.icache k).ref = 0 := (same k).symm.trans zero
    have cached : Cached sb (s.withInode k { s.mem.icache k with inum := inum, ref := 1, valid := false, busy := false }) :=
      cached_with holding.cached free (Int.zero_le_ofNat 1) nofun fun _ j low _ used => absent j low used
    refine ⟨holding_with holding ?_ others (fun _ used => ?_) cached, counts, small, ?_, reached, fun _ => ?_⟩
    · rw [unused, if_pos rfl]
      rfl
    · omega
    · rw [withInode_self]
    · -- an inode without links has an entry already
      refine (tree.kept inum reached).resolve_right fun ⟨j, low, used, names⟩ => ?_
      have used' : 0 < (s.mem.icache j).ref := by rw [same j]; exact used
      exact absent j low used' ((holding.kept j low used).trans names)

theorem walk_next (walk : Walk sb st s start k i) (tree : Tree sb st start) {inum : Nat} (reached : Below sb st.cache start inum) :
    ((iget inum).run Op.exec (s.withInode k (lockedAs sb s p k i)) = .panic "iget: no inodes" ∧ ¬ Room st.mem) ∨
      ∃ k' t u, (iget inum).run Op.exec (s.withInode k (lockedAs sb s p k i)) = .ok k' t ∧
        (iunlockput sb k).run Op.exec t = .ok () u ∧ Walk sb st u start k' inum := by
  have count := walk.counts k walk.small
  have mine := holding_ref walk.holding
  have others : ∀ (ip : Inode) (j : Nat), j ≠ k → (s.withInode k ip).mem.icache j = s.mem.icache j := by
    intro ip j other
    rw [withInode_icache, if_neg other]
  rcases iget_cases (s.withInode k (lockedAs sb s p k i)) inum with ⟨stopped, full⟩ | ⟨k', ip, small, got, taken⟩
  · refine .inl ⟨stopped, full_room k full fun j other => ?_⟩
    rw [others _ j other, walk.holding.ref j, if_neg fun same => other (Option.some.inj same).symm, Int.add_zero]
  · right
    by_cases here : k' = k
    · -- the directory itself
      subst here
      rw [withInode_twice] at got
      unfold Gets at taken
      rw [withInode_self] at taken
      rcases taken with ⟨-, names, rfl⟩ | ⟨zero, -⟩
      · have same : i = inum := walk.names.symm.trans names
        have put : (iunlockput sb k').run Op.exec
            (s.withInode k' { lockedAs sb s p k' i with ref := (lockedAs sb s p k' i).ref + 1 }) = _ := iunlockput_run
          (by rw [withInode_self]; rfl) (by rw [withInode_self]; show 1 ≤ (s.mem.icache k').ref + 1; omega)
          (by rw [withInode_self]; intro last; have last' : (s.mem.icache k').ref + 1 = 1 := last; omega)
        have back : (lockedAs sb s p k' i).ref + 1 - 1 = (lockedAs sb s p k' i).ref := by omega
        rw [withInode_self, withInode_twice] at put
        dsimp only at put
        rw [back] at put
        refine ⟨k', _, _, got, put, (walk_unlock (p := p) walk).2, walk.counts, small, ?_, reached, ?_⟩
        · rw [withInode_self]
          exact names
        · rw [← same]
          exact walk.alive
      · have zero' : (s.mem.icache k').ref = 0 := zero
        omega
    · have released : Holding sb st (s.withInode k (releasedAs sb s k i)) none :=
        walk_released walk walk.names rfl rfl fun _ => rfl
      have taken' : Gets (s.withInode k (releasedAs sb s k i)) inum k' ip := by
        unfold Gets at taken ⊢
        rw [others _ k' here] at taken ⊢
        refine taken.imp_right fun fresh => ⟨fresh.1, fun j low used => ?_, fresh.2.2⟩
        have absent := fresh.2.1 j low
        by_cases there : j = k
        · rw [there, withInode_self] at used absent ⊢
          have used' : 0 < (s.mem.icache k).ref - 1 := used
          exact absent (show 0 < (s.mem.icache k).ref by omega)
        · rw [others _ j there] at used absent ⊢
          exact absent used
      have next := holding_taken released tree small reached taken'
      have still : ((s.withInode k (lockedAs sb s p k i)).withInode k' ip).mem.icache k = lockedAs sb s p k i := by
        rw [withInode_icache, if_neg (Ne.symm here), withInode_self]
      have put := walk_put walk still
      rw [withInode_comm _ here, withInode_twice] at put
      exact ⟨k', _, _, got, put, next⟩

def Finds (sb : Superblock) (st : Fs) (target : Option (Nat × Name)) (res : Res Fs (Option (Nat × Name))) : Prop :=
  (res = .panic "iget: no inodes" ∧ ¬ Room st.mem) ∨
    ∃ found s, res = .ok found s ∧ Holding sb st s (found.map Prod.fst) ∧
      (found.map fun r => ((s.mem.icache r.1).inum, r.2)) = target

def target (sb : Superblock) (img : Nat → Block) (parent : Bool) (i : Nat) (names : List Name) : Option (Nat × Name) :=
  if parent then followParent sb img i names else (follow sb img i names).map fun j => (j, [])

theorem target_next {img : Nat → Block} {parent : Bool} {name : Name} {names : List Name} {j : Nat}
    (more : ¬ (parent = true ∧ names = [])) (entry : entryOf sb img i name = some j) :
    target sb img parent i (name :: names) = target sb img parent j names := by
  unfold target
  cases parent with
  | false =>
    rw [if_neg Bool.false_ne_true, if_neg Bool.false_ne_true, follow, entry]
    rfl
  | true =>
    obtain ⟨next, rest, rfl⟩ := List.exists_cons_of_ne_nil fun last => more ⟨rfl, last⟩
    rw [if_pos rfl, if_pos rfl, followParent, followParent, List.dropLast_cons_of_ne_nil (List.cons_ne_nil _ _), follow, entry,
      List.getLast?_cons_cons]
    rfl

theorem target_lost {img : Nat → Block} {parent : Bool} {name : Name} {names : List Name} (more : ¬ (parent = true ∧ names = []))
    (lost : entryOf sb img i name = none) : target sb img parent i (name :: names) = none := by
  unfold target
  cases parent with
  | false =>
    rw [if_neg Bool.false_ne_true, follow, lost]
    rfl
  | true =>
    obtain ⟨next, rest, rfl⟩ := List.exists_cons_of_ne_nil fun last => more ⟨rfl, last⟩
    rw [if_pos rfl, followParent, List.dropLast_cons_of_ne_nil (List.cons_ne_nil _ _), follow, lost]
    rfl

theorem target_file {img : Nat → Block} (parent : Bool) {name : Name} {names : List Name} (file : (sb.node img i).type ≠ tDir) :
    target sb img parent i (name :: names) = none := by
  by_cases last : parent = true ∧ names = []
  · rw [target, if_pos last.1, last.2]
    exact if_neg file
  · exact target_lost last (if_neg file)

theorem walk_ends (walk : Walk sb st s start k i) (parent : Bool) :
    Finds sb st (target sb st.cache parent i [])
      ((if parent then do iput sb k; pure none else pure (some (k, [])) : FsM (Option (Nat × Name))).run Op.exec s) := by
  cases parent with
  | false => exact .inr ⟨some (k, []), s, rfl, walk.holding, congrArg (fun j => some (j, [])) walk.names⟩
  | true =>
    have kept : ¬ ((s.mem.icache k).ref = 1 ∧ (s.mem.icache k).valid = true ∧ (s.mem.icache k).din.nlink = 0) := by
      rintro ⟨last, valid, unlinked⟩
      have ref := holding_ref walk.holding
      have copied := walk.holding.cached.copy k walk.small (by omega) valid
      rw [copied, walk.names, holding_cache walk.holding] at unlinked
      exact walk.alive (by omega) unlinked
    have copy : (s.mem.icache k).valid = true → (s.mem.icache k).din = sb.node s.cache i := by
      intro valid
      have count := walk.counts k walk.small
      have ref := holding_ref walk.holding
      have copied := walk.holding.cached.copy k walk.small (by omega) valid
      rw [walk.names] at copied
      exact copied
    have holding : Holding sb st (s.withInode k { s.mem.icache k with ref := (s.mem.icache k).ref - 1 }) none :=
      walk_released walk walk.names (walk.holding.cached.free k walk.small) rfl copy
    refine .inr ⟨none, _, ?_, holding, ?_⟩
    · rw [if_pos rfl, Prog.run_bind _ (iput_run kept)]
      rfl
    · rw [target, if_pos rfl, followParent_nil]
      rfl

theorem namexLoop_spec (tree : Tree sb st start) (parent : Bool) (left : Nat) (path : Path) (enough : path.length ≤ left)
    (text : 0 ∉ path) (walk : Walk sb st s start k i) :
    Finds sb st (target sb st.cache parent i (components path)) ((namexLoop sb p parent left k path).run Op.exec s) := by
  induction left generalizing s k i path with
  | zero =>
    rw [List.length_eq_zero_iff.mp (Nat.le_zero.mp enough)]
    exact walk_ends walk parent
  | succ left ih =>
    rw [namexLoop]
    cases next : skipelem path with
    | none =>
      rw [skipelem_none next]
      exact walk_ends walk parent
    | some both =>
      obtain ⟨name, rest⟩ := both
      obtain ⟨parts, short, shorter, ended, clean⟩ := skipelem_some next
      obtain ⟨textName, textRest⟩ := clean text
      have same := holding_cache walk.holding
      have locked : (ilock sb p k).run Op.exec s = _ :=
        holding_lock walk.holding walk.counts walk.small walk.names (tree.used i walk.reached)
      dsimp only
      rw [parts, Prog.run_bind _ locked, Prog.run_bind _ run_getInode, withInode_self]
      have put : (iunlockput sb k).run Op.exec (s.withInode k (lockedAs sb s p k i)) = _ := walk_put walk (withInode_self _ _ _)
      rw [withInode_twice] at put
      have released : Holding sb st (s.withInode k (releasedAs sb s k i)) none :=
        walk_released walk walk.names rfl rfl fun _ => rfl
      have copied : (lockedAs sb s p k i).din = sb.node st.cache i := congrArg (fun img => sb.node img i) same
      rw [copied]
      by_cases file : (sb.node st.cache i).type ≠ tDir
      · rw [if_pos file, target_file parent file, Prog.run_bind _ put]
        exact .inr ⟨none, _, rfl, released, rfl⟩
      · have dir := not_not.mp file
        rw [if_neg file]
        by_cases last : parent = true ∧ rest = []
        · obtain ⟨unlocked, kept⟩ := walk_unlock (p := p) walk
          rw [if_pos last, Prog.run_bind _ unlocked]
          refine .inr ⟨some (k, name), _, rfl, kept, ?_⟩
          rw [target, if_pos last.1, ended.mp last.2, followParent_last dir]
          show some (((s.withInode k _).mem.icache k).inum, name) = _
          rw [withInode_self]
          exact congrArg (fun j => some (j, name)) walk.names
        · have more : ¬ (parent = true ∧ components rest = []) := fun both => last ⟨both.1, ended.mpr both.2⟩
          have readable : Readable (s.withInode k (lockedAs sb s p k i)).cache
              ((s.withInode k (lockedAs sb s p k i)).mem.icache k).din := by
            rw [withInode_self, copied]
            show Readable s.cache _
            rw [same]
            exact tree_readable tree walk.reached dir
          have looked : (dirlookup sb p k name).run Op.exec (s.withInode k (lockedAs sb s p k i)) = _ :=
            dirlookup_spec readable textName
          have image : (s.withInode k (lockedAs sb s p k i)).cache = st.cache := same
          rw [withInode_self, copied, image, short] at looked
          have entry : entryOf sb st.cache i name = (lookup st.cache (sb.node st.cache i) name).map Binding.inum := if_pos dir
          rw [if_neg last]
          cases found : lookup st.cache (sb.node st.cache i) name with
          | none =>
            rw [found] at looked entry
            rw [target_lost more entry, Prog.run_bind _ looked, Prog.run_bind _ put]
            exact .inr ⟨none, _, rfl, released, rfl⟩
          | some e =>
            rw [found] at looked entry
            dsimp only at looked
            have reached : Below sb st.cache start e.inum := .entry i e walk.reached dir (List.mem_of_find?_eq_some found)
            rcases walk_next (p := p) walk tree reached with ⟨stopped, full⟩ | ⟨k', t, u, got, put', walk'⟩
            · rw [Prog.run_bind_eq, stopped] at looked
              rw [Prog.run_bind_eq, looked]
              exact .inl ⟨rfl, full⟩
            · rw [Prog.run_bind _ got] at looked
              rw [target_next more entry, Prog.run_bind _ looked]
              dsimp only
              rw [Prog.run_bind _ put']
              exact ih rest (by omega) textRest walk'

def origin (st : Fs) (c : Nat) (path : Path) : Nat := if path.head? = some slash then rootino else (st.mem.icache c).inum

theorem holding_refl (cached : Cached sb st) : Holding sb st st none := by
  refine ⟨rfl, fun j => ?_, fun _ _ _ => rfl, cached⟩
  rw [if_neg nofun, Int.add_zero]

def In (st : Fs) (p c : Nat) : Prop := (st.mem.proc p).cwd = some c ∧ c < ninode ∧ 0 < (st.mem.icache c).ref

theorem namexStart_spec (path : Path) {c : Nat} (cached : Cached sb st) (cwd : path.head? ≠ some slash → In st p c)
    (tree : Tree sb st (origin st c path)) :
    ((namexStart p path).run Op.exec st = .panic "iget: no inodes" ∧ ¬ Room st.mem) ∨
      ∃ k s, (namexStart p path).run Op.exec st = .ok k s ∧ Walk sb st s (origin st c path) k (origin st c path) := by
  have holding := holding_refl cached
  unfold namexStart
  by_cases absolute : path.head? = some slash
  · have root : origin st c path = rootino := if_pos absolute
    rw [root] at tree ⊢
    rw [if_pos absolute]
    rcases iget_cases st rootino with ⟨stopped, full⟩ | ⟨k, ip, low, got, taken⟩
    · exact .inl ⟨stopped, full_room 0 full fun _ _ => rfl⟩
    · exact .inr ⟨k, _, got, holding_taken holding tree low .start taken⟩
  · have here : origin st c path = (st.mem.icache c).inum := if_neg absolute
    rw [here] at tree ⊢
    obtain ⟨entry, small, held⟩ := cwd absolute
    have current : (getCwd p).run Op.exec st = .ok (some c) st := by
      rw [← entry]
      rfl
    have walk := holding_taken holding tree small .start (.inl ⟨held, rfl, rfl⟩)
    refine .inr ⟨c, _, ?_, walk⟩
    rw [if_neg absolute, Prog.run_bind _ current]
    rfl

theorem namex_spec (path : Path) (parent : Bool) {c : Nat} (text : 0 ∉ path) (cached : Cached sb st)
    (cwd : path.head? ≠ some slash → In st p c) (tree : Tree sb st (origin st c path)) :
    Finds sb st (target sb st.cache parent (origin st c path) (components path)) ((namex sb p path parent).run Op.exec st) := by
  rcases namexStart_spec path cached cwd tree with ⟨stopped, full⟩ | ⟨k, s, begun, walk⟩
  · rw [namex, Prog.run_bind_eq, stopped]
    exact .inl ⟨rfl, full⟩
  · rw [namex, Prog.run_bind _ begun]
    exact namexLoop_spec tree parent _ path (Nat.le_refl _) text walk

-- The result is what following the components leads to, unless iget has run out of entries.
theorem path_resolution (path : Path) {c : Nat} (text : 0 ∉ path) (cached : Cached sb st)
    (cwd : path.head? ≠ some slash → In st p c) (tree : Tree sb st (origin st c path)) :
    (((namei sb p path).run Op.exec st = .panic "iget: no inodes" ∧ ¬ Room st.mem) ∨
      ∃ found s, (namei sb p path).run Op.exec st = .ok found s ∧ Holding sb st s found ∧
        (found.map fun k => (s.mem.icache k).inum) = follow sb st.cache (origin st c path) (components path)) ∧
    (((nameiparent sb p path).run Op.exec st = .panic "iget: no inodes" ∧ ¬ Room st.mem) ∨
      ∃ found s, (nameiparent sb p path).run Op.exec st = .ok found s ∧ Holding sb st s (found.map Prod.fst) ∧
        (found.map fun r => ((s.mem.icache r.1).inum, r.2)) = followParent sb st.cache (origin st c path) (components path)) := by
  refine ⟨?_, namex_spec path true text cached cwd tree⟩
  rcases namex_spec path false text cached cwd tree with ⟨stopped, full⟩ | ⟨found, s, done, holding, reached⟩
  · rw [namei, Prog.run_bind_eq, stopped]
    exact .inl ⟨rfl, full⟩
  · refine .inr ⟨found.map Prod.fst, s, ?_, holding, ?_⟩
    · rw [namei, Prog.run_bind _ done]
      rfl
    · have numbers := congrArg (Option.map Prod.fst) reached
      rw [target, if_neg Bool.false_ne_true, Option.map_map, Option.map_map] at numbers
      rw [Option.map_map]
      exact numbers.trans (congrFun Option.map_id _)

end

def oneFile : Nat → Block :=
  image [(1, dirDinode 1 48 mkfsNmeta), (2, ⟨tFile, 0, 0, 1, 0, Buf.zero⟩)] [[(dot, 1), (dotdot, 1), ([97], 2)]]

theorem oneFile_reached {i : Nat} (reached : Below mkfsSuperblock oneFile rootino i) : i = 1 ∨ i = 2 := by
  induction reached with
  | start => exact .inl rfl
  | entry i e before dir inside ih =>
    rcases ih with rfl | rfl
    · have all : ∀ e ∈ bindings oneFile (mkfsSuperblock.node oneFile 1), e.inum = 1 ∨ e.inum = 2 := by decide +kernel
      exact all e inside
    · have file : (mkfsSuperblock.node oneFile 2).type ≠ tDir := by decide +kernel
      exact absurd dir file

theorem oneFile_tree {st : Fs} (disk : st.cache = oneFile) : Tree mkfsSuperblock st rootino := by
  have file : (mkfsSuperblock.node oneFile 2).type ≠ tDir := by decide +kernel
  refine ⟨fun i reached => ?_, fun i reached => ?_, fun i reached dir => ?_, fun i reached dir => ?_⟩
  all_goals rw [disk] at *
  · rcases oneFile_reached reached with rfl | rfl
    · decide +kernel
    · decide +kernel
  · rcases oneFile_reached reached with rfl | rfl
    · exact .inl (by decide +kernel)
    · exact .inl (by decide +kernel)
  · rcases oneFile_reached reached with rfl | rfl
    · decide +kernel
    · exact absurd dir file
  · rcases oneFile_reached reached with rfl | rfl
    · have size : (mkfsSuperblock.node oneFile 1).size = 48 := by decide +kernel
      have first : mapped oneFile (mkfsSuperblock.node oneFile 1) 0 ≠ 0 := by decide +kernel
      intro o inside
      have block : o / bsize = 0 := Nat.div_eq_of_lt (by rw [size] at inside; unfold bsize; omega)
      rw [block]
      exact ⟨by decide, first⟩
    · exact absurd dir file

def crowded (count : Nat) : Fs :=
  { boot oneFile with mem := { bootMem with icache := fun k =>
      if k = 0 then { freeInode with inum := rootino, ref := 1 }
      else if k ≤ count then { freeInode with inum := 100 + k, ref := 1 } else freeInode } }

theorem crowded_cached (count : Nat) : Cached mkfsSuperblock (crowded count) := by
  have entry : ∀ k, (crowded count).mem.icache k = freeInode ∨ ((crowded count).mem.icache k =
      { freeInode with inum := if k = 0 then rootino else 100 + k, ref := 1 }) := by
    intro k
    unfold crowded
    dsimp only
    by_cases root : k = 0
    · rw [if_pos root, if_pos root]
      exact .inr rfl
    · rw [if_neg root, if_neg root]
      split
      · exact .inr rfl
      · exact .inl rfl
  refine ⟨fun j _ k _ used used' same => ?_, fun k _ => ?_, fun k _ => ?_, fun k _ _ valid => ?_⟩
  · rcases entry j with free | taken
    · rw [free] at used
      exact absurd used (by decide)
    · rcases entry k with free' | taken'
      · rw [free'] at used'
        exact absurd used' (by decide)
      · rw [taken, taken'] at same
        dsimp only at same
        unfold rootino at same
        split at same <;> split at same <;> omega
  · rcases entry k with free | taken
    · rw [free]
      decide
    · rw [taken]
      exact Int.zero_le_ofNat 1
  · rcases entry k with free | taken
    · rw [free]
      rfl
    · rw [taken]
      rfl
  · rcases entry k with free | taken
    · rw [free] at valid
      cases valid
    · rw [taken] at valid
      cases valid

theorem path_resolution_one_file : ∃ found s, (namei mkfsSuperblock 0 [slash, 97]).run Op.exec (crowded 0) = .ok found s ∧
    Holding mkfsSuperblock (crowded 0) s found ∧ (found.map fun k => (s.mem.icache k).inum) = some 2 := by
  have resolved := path_resolution (p := 0) [slash, 97] (c := 0) (by decide) (crowded_cached 0)
    (fun relative => absurd rfl relative) (oneFile_tree rfl)
  have room : Room (crowded 0).mem := ⟨1, 2, by decide, by decide, by decide, rfl, rfl⟩
  obtain ⟨found, s, done, holding, reached⟩ := resolved.1.resolve_left fun stopped => stopped.2 room
  have leads : follow mkfsSuperblock oneFile rootino (components [slash, 97]) = some 2 := by decide +kernel
  exact ⟨found, s, done, holding, reached.trans leads⟩

-- With every entry of the inode cache taken, an existing file is not found: iget panics.
theorem namei_out_of_entries : Cached mkfsSuperblock (crowded 49) ∧ Tree mkfsSuperblock (crowded 49) rootino ∧
    follow mkfsSuperblock (crowded 49).cache rootino (components [slash, 97]) = some 2 ∧
    (namei mkfsSuperblock 0 [slash, 97]).run Op.exec (crowded 49) = .panic "iget: no inodes" := by
  refine ⟨crowded_cached 49, oneFile_tree rfl, by decide +kernel, ?_⟩
  rfl

end Xv6
