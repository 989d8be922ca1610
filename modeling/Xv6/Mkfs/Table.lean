import Xv6.Mkfs.Append

set_option autoImplicit false

namespace Xv6.Mkfs

def dinode (img : Nat → Block) (inum : Nat) : Dinode := getDinode (img (mkfsSuperblock.iblock inum)) (inum % ipb)

def inodeRoom : Nat := mkfsNinodeblocks * ipb

section

variable {data : Block} {slot slot' : Nat} {d : Dinode}

structure Small (d : Dinode) : Prop where
  type : d.type < 256 ^ 2
  major : d.major < 256 ^ 2
  minor : d.minor < 256 ^ 2
  nlink : d.nlink < 256 ^ 2
  size : d.size < 256 ^ 4

theorem getDinode_small (data : Block) (slot : Nat) : Small (getDinode data slot) :=
  ⟨Buf.getLE_lt _ _ _, Buf.getLE_lt _ _ _, Buf.getLE_lt _ _ _, Buf.getLE_lt _ _ _, Buf.getLE_lt _ _ _⟩

theorem getDinode_putDinode (inside : slot < ipb) (small : Small d) : getDinode (putDinode data slot d) slot = d := by
  have room : 64 * slot + 64 ≤ bsize := by
    unfold ipb bsize at *
    omega
  have type : (putDinode data slot d).getLE (64 * slot) 2 = d.type := by
    rw [putDinode, Buf.getLE_splice_outside _ _ _ _ _ _ (by omega), Buf.getLE_putLE_outside _ _ _ _ _ _ (by omega),
      Buf.getLE_putLE_outside _ _ _ _ _ _ (by omega), Buf.getLE_putLE_outside _ _ _ _ _ _ (by omega),
      Buf.getLE_putLE_outside _ _ _ _ _ _ (by omega), Buf.getLE_putLE _ _ _ _ (by omega), Nat.mod_eq_of_lt small.type]
  have major : (putDinode data slot d).getLE (64 * slot + 2) 2 = d.major := by
    rw [putDinode, Buf.getLE_splice_outside _ _ _ _ _ _ (by omega), Buf.getLE_putLE_outside _ _ _ _ _ _ (by omega),
      Buf.getLE_putLE_outside _ _ _ _ _ _ (by omega), Buf.getLE_putLE_outside _ _ _ _ _ _ (by omega),
      Buf.getLE_putLE _ _ _ _ (by omega), Nat.mod_eq_of_lt small.major]
  have minor : (putDinode data slot d).getLE (64 * slot + 4) 2 = d.minor := by
    rw [putDinode, Buf.getLE_splice_outside _ _ _ _ _ _ (by omega), Buf.getLE_putLE_outside _ _ _ _ _ _ (by omega),
      Buf.getLE_putLE_outside _ _ _ _ _ _ (by omega), Buf.getLE_putLE _ _ _ _ (by omega), Nat.mod_eq_of_lt small.minor]
  have nlink : (putDinode data slot d).getLE (64 * slot + 6) 2 = d.nlink := by
    rw [putDinode, Buf.getLE_splice_outside _ _ _ _ _ _ (by omega), Buf.getLE_putLE_outside _ _ _ _ _ _ (by omega),
      Buf.getLE_putLE _ _ _ _ (by omega), Nat.mod_eq_of_lt small.nlink]
  have size : (putDinode data slot d).getLE (64 * slot + 8) 4 = d.size := by
    rw [putDinode, Buf.getLE_splice_outside _ _ _ _ _ _ (by omega), Buf.getLE_putLE _ _ _ _ (by omega), Nat.mod_eq_of_lt small.size]
  have addrs : (Buf.ofFn fun o => (putDinode data slot d).get (64 * slot + 12 + o)) = d.addrs := by
    apply Buf.ext_get
    intro o inside'
    rw [Buf.get_ofFn _ o inside', putDinode, Buf.get_splice _ _ _ _ _ (by omega), if_pos (by omega), Nat.add_sub_cancel_left]
  unfold getDinode
  rw [type, major, minor, nlink, size, addrs]

theorem get_putDinode_outside {o : Nat} (outside : o < 64 * slot ∨ 64 * slot + 64 ≤ o) : (putDinode data slot d).get o = data.get o := by
  unfold putDinode Buf.putLE
  rw [Buf.get_splice_outside _ _ _ _ _ (by omega), Buf.get_splice_outside _ _ _ _ _ (by omega),
    Buf.get_splice_outside _ _ _ _ _ (by omega), Buf.get_splice_outside _ _ _ _ _ (by omega),
    Buf.get_splice_outside _ _ _ _ _ (by omega), Buf.get_splice_outside _ _ _ _ _ (by omega)]

theorem getDinode_congr {data' : Block} (same : ∀ o, 64 * slot ≤ o → o < 64 * slot + 64 → data'.get o = data.get o) :
    getDinode data' slot = getDinode data slot := by
  unfold getDinode
  rw [Buf.getLE_congr data' data (64 * slot) 2 fun i less => same _ (by omega) (by omega),
    Buf.getLE_congr data' data (64 * slot + 2) 2 fun i less => same _ (by omega) (by omega),
    Buf.getLE_congr data' data (64 * slot + 4) 2 fun i less => same _ (by omega) (by omega),
    Buf.getLE_congr data' data (64 * slot + 6) 2 fun i less => same _ (by omega) (by omega),
    Buf.getLE_congr data' data (64 * slot + 8) 4 fun i less => same _ (by omega) (by omega)]
  congr 1
  apply Buf.ext_get
  intro o inside
  rw [Buf.get_ofFn _ o inside, Buf.get_ofFn _ o inside]
  exact same _ (by omega) (by omega)

theorem getDinode_other (other : slot' ≠ slot) : getDinode (putDinode data slot d) slot' = getDinode data slot' :=
  getDinode_congr fun o low high => get_putDinode_outside (by omega)

end

section

variable {img img' : Nat → Block} {D D' : Nat → Dinode} {free : Nat} {g : List Node} {own : Nat → Nat × Slot}

theorem disk_congr (disk : Disk img D free g own)
    (same : ∀ i < g.length, (D' i).type = (D i).type ∧ (D' i).nlink = (D i).nlink ∧ (D' i).addrs = (D i).addrs) :
    Disk img D' free g own := by
  have addr : ∀ i < g.length, ∀ j, (D' i).addr j = (D i).addr j := by
    intro i inside j
    unfold Dinode.addr
    rw [(same i inside).2.2]
  have mapping : ∀ i < g.length, ∀ bn, mapped img (D' i) bn = mapped img (D i) bn := by
    intro i inside bn
    unfold mapped
    rw [addr i inside, addr i inside]
  have refs : ∀ i < g.length, ∀ slot, ref img (D' i) slot = ref img (D i) slot := by
    intro i inside slot
    cases slot with
    | data bn => rw [ref, ref, mapping i inside]
    | indirect => exact addr i inside ndirect
  refine ⟨fun i n found => ?_, fun i slot inside used => ?_, fun b low high => ?_, disk.zero, disk.low, disk.count⟩
  · have inside := (List.getElem?_eq_some_iff.mp found).1
    have holds := disk.nodes i n found
    refine ⟨(same i inside).1.trans holds.type, (same i inside).2.1.trans holds.nlink, fun bn small => ?_, ?_, fun o within => ?_,
      holds.room, holds.most⟩
    · rw [mapping i inside]
      exact holds.map bn small
    · rw [addr i inside]
      exact holds.ind
    · rw [mapping i inside]
      exact holds.bytes o within
  · rw [refs i inside] at used ⊢
    exact disk.owns i slot inside used
  · obtain ⟨inside, leads⟩ := disk.owned b low high
    exact ⟨inside, (refs _ inside _).trans leads⟩

theorem iblock_low {inum : Nat} (inside : inum < inodeRoom) : mkfsSuperblock.iblock inum < mkfsSuperblock.bmapstart := by
  have room : inodeRoom = 208 := rfl
  have start : mkfsSuperblock.bmapstart = 58 := rfl
  have block : mkfsSuperblock.iblock inum = inum / 8 + 32 := rfl
  omega

theorem iblock_same {inum inum' : Nat} (same : mkfsSuperblock.iblock inum = mkfsSuperblock.iblock inum') (slot : inum % ipb = inum' % ipb) :
    inum = inum' := by
  have block : ∀ i, mkfsSuperblock.iblock i = i / 8 + 32 := fun _ => rfl
  rw [block, block] at same
  unfold ipb bsize at slot
  omega

theorem dinode_write {inum : Nat} {d : Dinode} (small : Small d) (inum' : Nat) :
    dinode (upd img (mkfsSuperblock.iblock inum) (putDinode (img (mkfsSuperblock.iblock inum)) (inum % ipb) d)) inum' =
      if inum' = inum then d else dinode img inum' := by
  unfold dinode
  by_cases here : inum' = inum
  · rw [if_pos here, here, upd_self]
    exact getDinode_putDinode (Nat.mod_lt _ (by decide)) small
  · rw [if_neg here]
    by_cases block : mkfsSuperblock.iblock inum' = mkfsSuperblock.iblock inum
    · rw [block, upd_self, getDinode_other fun slot => here (iblock_same block slot)]
    · rw [upd_ne block]

end

end Xv6.Mkfs
