import Xv6.Fs.Dir

set_option autoImplicit false

namespace Xv6

def mapped (img : Nat → Block) (d : Dinode) (bn : Nat) : Nat :=
  if bn < ndirect then d.addr bn
  else if d.addr ndirect = 0 then 0
  else (img (d.addr ndirect)).getLE (4 * (bn - ndirect)) 4

def byteAt (img : Nat → Block) (d : Dinode) (o : Nat) : UInt8 := (img (mapped img d (o / bsize))).get (o % bsize)

def Solid (img : Nat → Block) (d : Dinode) (size : Nat) : Prop :=
  ∀ o < size, o / bsize < maxfile ∧ mapped img d (o / bsize) ≠ 0

section

variable {img : Nat → Block} {d : Dinode} {bn : Nat}

theorem mapped_direct (small : bn < ndirect) : mapped img d bn = d.addr bn := if_pos small

theorem mapped_entry (large : ¬ bn < ndirect) (some_ : d.addr ndirect ≠ 0) :
    mapped img d bn = (img (d.addr ndirect)).getLE (4 * (bn - ndirect)) 4 := by
  unfold mapped
  rw [if_neg large, if_neg some_]

theorem mapped_none (large : ¬ bn < ndirect) (none_ : d.addr ndirect = 0) : mapped img d bn = 0 := by
  unfold mapped
  rw [if_neg large, if_pos none_]

end

section

variable {sb : Superblock} {st : Fs} {p k : Nat}

theorem run_getInode : (getInode k).run Op.exec st = .ok (st.mem.icache k) st := rfl

theorem bmapDirect_run {i : Nat} (some_ : (st.mem.icache k).din.addr i ≠ 0) :
    (bmapDirect sb k i).run Op.exec st = .ok ((st.mem.icache k).din.addr i) st := by
  rw [bmapDirect, Prog.run_bind _ run_getInode, if_neg some_]
  rfl

theorem bmapEntry_run {ind j : Nat} (some_ : (st.cache ind).getLE (4 * j) 4 ≠ 0) :
    (bmapEntry sb ind j).run Op.exec st = .ok ((st.cache ind).getLE (4 * j) 4) st := by
  have first : (readLE ind (4 * j) 4).run Op.exec st = .ok ((st.cache ind).getLE (4 * j) 4) st := rfl
  rw [bmapEntry, Prog.run_bind _ first, if_neg some_]
  rfl

theorem bmap_run {bn : Nat} (small : bn < maxfile) (some_ : mapped st.cache (st.mem.icache k).din bn ≠ 0) :
    (bmap sb k bn).run Op.exec st = .ok (mapped st.cache (st.mem.icache k).din bn) st := by
  unfold bmap
  by_cases direct : bn < ndirect
  · rw [mapped_direct direct] at some_ ⊢
    rw [if_pos direct]
    exact bmapDirect_run some_
  · have present : (st.mem.icache k).din.addr ndirect ≠ 0 := fun none_ => some_ (mapped_none direct none_)
    have inside : bn - ndirect < nindirect := by
      unfold maxfile at small
      omega
    rw [mapped_entry direct present] at some_ ⊢
    rw [if_neg direct, if_pos inside, Prog.run_bind _ (bmapDirect_run present)]
    exact bmapEntry_run some_

theorem byteAt_block (img : Nat → Block) (d : Dinode) {off i : Nat} (within : i < bsize - off % bsize) :
    byteAt img d (off + i) = (img (mapped img d (off / bsize))).get (off % bsize + i) := by
  have block : (off + i) / bsize = off / bsize := by
    unfold bsize at *
    omega
  have offset : (off + i) % bsize = off % bsize + i := by
    unfold bsize at *
    omega
  rw [byteAt, block, offset]

theorem readiLoop_run {n size : Nat} (solid : Solid st.cache (st.mem.icache k).din size) (left tot off : Nat)
    (enough : n - tot ≤ left) (inside : off + (n - tot) ≤ size) :
    (readiLoop sb k n left tot off).run Op.exec st =
      .ok ((List.range (n - tot)).map fun i => byteAt st.cache (st.mem.icache k).din (off + i)) st := by
  induction left generalizing tot off with
  | zero =>
    rw [Nat.le_zero.mp enough]
    rfl
  | succ left ih =>
    rw [readiLoop]
    by_cases more : tot < n
    · obtain ⟨small, some_⟩ := solid off (by omega)
      have positive : 0 < min (n - tot) (bsize - off % bsize) := by
        have := Nat.mod_lt off (by decide : 0 < bsize)
        omega
      have most := Nat.min_le_left (n - tot) (bsize - off % bsize)
      have block := Nat.min_le_right (n - tot) (bsize - off % bsize)
      have read : (Prog.lift (.buf (mapped st.cache (st.mem.icache k).din (off / bsize)) fun data mem =>
          .keep ((List.range (min (n - tot) (bsize - off % bsize))).map fun i => data.get (off % bsize + i)) mem) :
          FsM (List UInt8)).run Op.exec st =
          .ok ((List.range (min (n - tot) (bsize - off % bsize))).map fun i => byteAt st.cache (st.mem.icache k).din (off + i)) st := by
        rw [Prog.run_lift]
        refine congrArg (fun bytes => Res.ok bytes st) (List.map_congr_left fun i member => ?_)
        exact (byteAt_block _ _ (Nat.lt_of_lt_of_le (List.mem_range.mp member) block)).symm
      generalize min (n - tot) (bsize - off % bsize) = m at positive most block read
      have rest := ih (tot + m) (off + m) (by omega) (by omega)
      rw [if_pos more, Prog.run_bind _ (bmap_run small some_), if_neg some_, Prog.run_bind _ read, Prog.run_bind _ rest]
      have count : n - tot = m + (n - (tot + m)) := by omega
      rw [count, List.range_add, List.map_append, List.map_map]
      refine congrArg (fun bytes => Res.ok (_ ++ bytes) st) (List.map_congr_left fun i _ => ?_)
      rw [Function.comp, Nat.add_assoc]
    · rw [if_neg more, Nat.sub_eq_zero_of_le (Nat.not_lt.mp more)]
      rfl

theorem readi_run {off n : Nat} (blocks : (st.mem.icache k).din.type ≠ tDev ∧ (st.mem.icache k).din.type ≠ tSfile)
    (solid : Solid st.cache (st.mem.icache k).din (off + readiCount (st.mem.icache k).din.size off n))
    (start : off ≤ (st.mem.icache k).din.size) (small : off + n < 2 ^ 32) :
    (readi sb p k off n).run Op.exec st =
      .ok (some ((List.range (readiCount (st.mem.icache k).din.size off n)).map fun i =>
        byteAt st.cache (st.mem.icache k).din (off + i))) st := by
  have loop : (readiLoop sb k (readiCount (st.mem.icache k).din.size off n) (readiCount (st.mem.icache k).din.size off n) 0 off).run
      Op.exec st = _ := readiLoop_run solid _ 0 off (Nat.le_refl _) (Nat.le_refl _)
  have fine : ¬ (off > (st.mem.icache k).din.size ∨ (off + n) % 2 ^ 32 < off) := by
    rw [Nat.mod_eq_of_lt small]
    omega
  rw [readi, Prog.run_bind _ run_getInode, if_neg blocks.1, if_neg fine, if_neg blocks.2, Prog.run_bind _ loop]
  rfl

def dirEntry (img : Nat → Block) (d : Dinode) (j : Nat) : Dirent := Buf.ofFn fun o => byteAt img d (16 * j + o)

variable {j : Nat}

theorem readDirent_run (dir : (st.mem.icache k).din.type = tDir) (inside : 16 * (j + 1) ≤ (st.mem.icache k).din.size)
    (small : (st.mem.icache k).din.size < 2 ^ 32) (solid : Solid st.cache (st.mem.icache k).din (16 * (j + 1))) (msg : String) :
    (readDirent sb p k (16 * j) msg).run Op.exec st = .ok (dirEntry st.cache (st.mem.icache k).din j) st := by
  have count : readiCount (st.mem.icache k).din.size (16 * j) 16 = 16 := if_neg (by omega)
  have blocks : (st.mem.icache k).din.type ≠ tDev ∧ (st.mem.icache k).din.type ≠ tSfile := by
    rw [dir]
    decide
  have read : (readi sb p k (16 * j) 16).run Op.exec st = _ := readi_run blocks (by rw [count]; exact solid) (by omega) (by omega)
  rw [count] at read
  rw [readDirent, Prog.run_bind _ read]
  dsimp only
  rw [List.length_map, List.length_range, if_pos rfl]
  refine congrArg (fun de => Res.ok de st) (Buf.ext_get _ _ fun o low => ?_)
  rw [Dirent.ofBytes, Buf.get_ofFn _ _ low, dirEntry, Buf.get_ofFn _ _ low, List.getD_eq_getElem?_getD, List.getElem?_map,
    List.getElem?_range low]
  rfl

theorem dirlookupFrom_run (dir : (st.mem.icache k).din.type = tDir) (inside : 16 * (j + 1) ≤ (st.mem.icache k).din.size)
    (small : (st.mem.icache k).din.size < 2 ^ 32) (solid : Solid st.cache (st.mem.icache k).din (16 * (j + 1))) {name : Name}
    (used : (dirEntry st.cache (st.mem.icache k).din j).inum ≠ 0)
    (same : namecmpEq (cstr name) (dirEntry st.cache (st.mem.icache k).din j).name = true)
    (left base : Nat) (low : base ≤ j) (enough : j < base + left)
    (before : ∀ i, base ≤ i → i < j → namecmpEq (cstr name) (dirEntry st.cache (st.mem.icache k).din i).name = false) :
    (dirlookupFrom sb p k name (16 * base) left).run Op.exec st =
      (iget (dirEntry st.cache (st.mem.icache k).din j).inum >>= fun ip => pure (some (ip, 16 * j)) : FsM _).run Op.exec st := by
  induction left generalizing base with
  | zero => omega
  | succ left ih =>
    have read : (readDirent sb p k (16 * base) "dirlink read").run Op.exec st = _ :=
      readDirent_run dir (by omega) small (fun o within => solid o (by omega)) _
    rw [dirlookupFrom, Prog.run_bind _ read]
    by_cases here : base = j
    · rw [here, if_neg used, if_pos same]
    · have next := ih (base + 1) (by omega) (by omega) (fun i later => before i (by omega))
      have other := before base (Nat.le_refl _) (by omega)
      rw [Nat.mul_succ] at next
      by_cases empty : (dirEntry st.cache (st.mem.icache k).din base).inum = 0
      · rw [if_pos empty]
        exact next
      · rw [if_neg empty, other, if_neg (by decide)]
        exact next

theorem dirlookup_run (dir : (st.mem.icache k).din.type = tDir) (inside : 16 * (j + 1) ≤ (st.mem.icache k).din.size)
    (small : (st.mem.icache k).din.size < 2 ^ 32) (solid : Solid st.cache (st.mem.icache k).din (16 * (j + 1))) {name : Name}
    (used : (dirEntry st.cache (st.mem.icache k).din j).inum ≠ 0)
    (same : namecmpEq (cstr name) (dirEntry st.cache (st.mem.icache k).din j).name = true)
    (before : ∀ i < j, namecmpEq (cstr name) (dirEntry st.cache (st.mem.icache k).din i).name = false) :
    (dirlookup sb p k name).run Op.exec st =
      (iget (dirEntry st.cache (st.mem.icache k).din j).inum >>= fun ip => pure (some (ip, 16 * j)) : FsM _).run Op.exec st := by
  rw [dirlookup, Prog.run_bind _ run_getInode, if_neg (not_not.mpr dir)]
  exact dirlookupFrom_run dir inside small solid used same _ 0 (Nat.zero_le _) (by omega) fun i _ => before i

end

def CanGet (m : Mem) (inum : Nat) : Prop :=
  ∃ k < ninode, (m.icache k).ref = 0 ∨ 0 < (m.icache k).ref ∧ (m.icache k).inum = inum

theorem iget_run {st : Fs} {inum : Nat} (can : CanGet st.mem inum) :
    ∃ k st', (iget inum).run Op.exec st = .ok k st' ∧ (st'.mem.icache k).inum = inum := by
  unfold iget
  rw [Prog.run_lift]
  unfold Op.exec
  dsimp only
  cases cached : (List.range ninode).find? fun k => 0 < (st.mem.icache k).ref ∧ (st.mem.icache k).inum = inum with
  | some k =>
    have matches_ := List.find?_some cached
    have inum' := (of_decide_eq_true matches_).2
    refine ⟨k, _, rfl, ?_⟩
    unfold Mem.setInode
    dsimp only
    rw [upd_self]
    exact inum'
  | none =>
    cases free : (List.range ninode).find? fun k => (st.mem.icache k).ref = 0 with
    | some k =>
      refine ⟨k, _, rfl, ?_⟩
      unfold Mem.setInode
      dsimp only
      rw [upd_self]
    | none =>
      obtain ⟨k, inside, either⟩ := can
      have absent := List.find?_eq_none.mp cached k (List.mem_range.mpr inside)
      have busy := List.find?_eq_none.mp free k (List.mem_range.mpr inside)
      rw [decide_eq_true_eq] at absent busy
      exact (either.elim busy absent).elim

theorem strncmpEq_iff (n : Nat) (p q : Nat → UInt8) (endP : ∀ i, p i = 0 → p (i + 1) = 0) (endQ : ∀ i, q i = 0 → q (i + 1) = 0) :
    strncmpEq p q n = true ↔ ∀ i < n, p i = q i := by
  induction n generalizing p q with
  | zero => exact ⟨fun _ i never => absurd never (Nat.not_lt_zero i), fun _ => rfl⟩
  | succ n ih =>
    rw [strncmpEq, Nat.forall_lt_succ_left]
    by_cases more : p 0 ≠ 0 ∧ p 0 = q 0
    · rw [if_pos more, ih _ _ (fun i => endP (i + 1)) (fun i => endQ (i + 1))]
      exact ⟨fun rest => ⟨more.2, rest⟩, fun all => all.2⟩
    · rw [if_neg more, beq_iff_eq]
      refine ⟨fun first => ⟨first, fun i _ => ?_⟩, fun all => all.1⟩
      have zero : p 0 = 0 := by
        by_contra some_
        exact more ⟨some_, first⟩
      have ended : ∀ (f : Nat → UInt8), f 0 = 0 → (∀ i, f i = 0 → f (i + 1) = 0) → ∀ i, f i = 0 := by
        intro f start next i
        induction i with
        | zero => exact start
        | succ i ih => exact next i ih
      rw [ended p zero endP, ended q (first ▸ zero) endQ]

-- An unlocked entry of the inode cache that agrees with the disk, if it is valid.
structure Agrees (sb : Superblock) (st : Fs) (k inum : Nat) : Prop where
  names : (st.mem.icache k).inum = inum
  held : 1 ≤ (st.mem.icache k).ref
  free : (st.mem.icache k).locked = false
  copy : (st.mem.icache k).valid = true → (st.mem.icache k).din = getDinode (st.cache (sb.iblock inum)) (inum % ipb)

def Fs.withInode (st : Fs) (k : Nat) (ip : Inode) : Fs := { st with mem := st.mem.setInode k ip }

theorem withInode_self (st : Fs) (k : Nat) (ip : Inode) : (st.withInode k ip).mem.icache k = ip := upd_self _ _ _

theorem withInode_twice (st : Fs) (k : Nat) (ip ip' : Inode) : (st.withInode k ip).withInode k ip' = st.withInode k ip' := by
  unfold Fs.withInode Mem.setInode
  dsimp only
  rw [upd_twice]

theorem run_modInode (st : Fs) (k : Nat) (f : Inode → Inode) :
    (modInode k f).run Op.exec st = .ok () (st.withInode k (f (st.mem.icache k))) := rfl

theorem run_load (sb : Superblock) (st : Fs) (k : Nat) :
    (Prog.lift (.buf (sb.iblock (st.mem.icache k).inum) fun data m =>
      .keep () (m.setInode k { m.icache k with din := getDinode data ((m.icache k).inum % ipb) })) : FsM Unit).run Op.exec st =
      .ok () (st.withInode k { st.mem.icache k with
        din := getDinode (st.cache (sb.iblock (st.mem.icache k).inum)) ((st.mem.icache k).inum % ipb) }) := rfl

theorem ilock_locks {sb : Superblock} {st : Fs} {p k inum : Nat} (agrees : Agrees sb st k inum)
    (used : (getDinode (st.cache (sb.iblock inum)) (inum % ipb)).type ≠ 0) :
    (ilock sb p k).run Op.exec st = .ok () (st.withInode k { st.mem.icache k with
      locked := true, pid := p, valid := true, din := getDinode (st.cache (sb.iblock inum)) (inum % ipb) }) := by
  obtain ⟨names, held, free, copy⟩ := agrees
  generalize slot : st.mem.icache k = ip at *
  have acquired : (acquiresleep p k).run Op.exec st = .ok () (st.withInode k { ip with locked := true, pid := p }) := by
    have unlocked : ¬ (st.mem.icache k).locked = true := by
      rw [slot, free]
      decide
    rw [acquiresleep, Prog.run_lift, Op.exec, if_neg unlocked, slot]
    rfl
  have counted : ¬ (st.mem.icache k).ref < 1 := by
    rw [slot]
    exact Int.not_lt.mpr held
  rw [ilock, Prog.run_bind _ run_getInode, if_neg counted, Prog.run_bind _ acquired, Prog.run_bind _ run_getInode]
  have slot₁ := withInode_self st k { ip with locked := true, pid := p }
  by_cases valid : ip.valid = true
  · have loaded : ((st.withInode k { ip with locked := true, pid := p }).mem.icache k).valid = true := by
      rw [slot₁]
      exact valid
    rw [if_pos loaded, ← copy valid, ← valid]
    rfl
  · have unloaded : ¬ ((st.withInode k { ip with locked := true, pid := p }).mem.icache k).valid = true := by
      rw [slot₁]
      exact valid
    have read := run_load sb (st.withInode k { ip with locked := true, pid := p }) k
    rw [slot₁, withInode_twice] at read
    dsimp only at read
    rw [names] at read
    rw [if_neg unloaded, slot₁]
    dsimp only
    rw [names, Prog.run_bind _ read, Prog.run_bind _ (run_modInode _ _ _), withInode_self, withInode_twice,
      Prog.run_bind _ run_getInode]
    split
    case isTrue zero =>
      rw [withInode_self] at zero
      exact absurd zero used
    case isFalse => rfl

theorem ilock_run {sb : Superblock} {st : Fs} {p k inum : Nat} (agrees : Agrees sb st k inum)
    (used : (getDinode (st.cache (sb.iblock inum)) (inum % ipb)).type ≠ 0) :
    ∃ ip : Inode, (ilock sb p k).run Op.exec st = .ok () (st.withInode k ip) ∧ ip.inum = inum ∧
      ip.ref = (st.mem.icache k).ref ∧ ip.din = getDinode (st.cache (sb.iblock inum)) (inum % ipb) :=
  ⟨_, ilock_locks agrees used, agrees.names, rfl, rfl⟩

theorem canGet_withInode {st : Fs} {k inum : Nat} {ip : Inode} (ref : ip.ref = (st.mem.icache k).ref)
    (names : ip.inum = (st.mem.icache k).inum) (can : CanGet st.mem inum) : CanGet (st.withInode k ip).mem inum := by
  obtain ⟨j, inside, either⟩ := can
  refine ⟨j, inside, ?_⟩
  by_cases here : j = k
  · rw [here, withInode_self, ref, names]
    exact here ▸ either
  · have other : (st.withInode k ip).mem.icache j = st.mem.icache j := upd_ne here
    rw [other]
    exact either

end Xv6
