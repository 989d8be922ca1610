import Mathlib.Data.List.GetD
import Xv6.Fs.Read
import Xv6.Mkfs.Model

set_option autoImplicit false

namespace Xv6.Mkfs

inductive Slot where
  | data (bn : Nat)
  | indirect
deriving DecidableEq

def ref (img : Nat → Block) (d : Dinode) : Slot → Nat
  | .data bn => if bn < maxfile then mapped img d bn else 0
  | .indirect => d.addr ndirect

-- Its type and contents, how many blocks it was given, and whether one of them is indirect.
structure Node where
  type : Nat
  bytes : List UInt8
  blocks : Nat
  ind : Bool

def Node.cost (n : Node) : Nat := n.blocks + if n.ind then 1 else 0

structure Holds (img : Nat → Block) (d : Dinode) (n : Node) : Prop where
  type : d.type = n.type
  nlink : d.nlink = 1
  map : ∀ bn < maxfile, mapped img d bn ≠ 0 ↔ bn < n.blocks
  ind : d.addr ndirect ≠ 0 ↔ n.ind = true
  bytes : ∀ o < n.blocks * bsize, (img (mapped img d (o / bsize))).get (o % bsize) = n.bytes.getD o 0
  room : n.bytes.length ≤ n.blocks * bsize
  most : n.blocks ≤ maxfile

-- Inode i + 1 is D i and holds g[i]; own says which inode has a data block, and in which place.
structure Disk (img : Nat → Block) (D : Nat → Dinode) (free : Nat) (g : List Node) (own : Nat → Nat × Slot) : Prop where
  nodes : ∀ i n, g[i]? = some n → Holds img (D i) n
  owns : ∀ i slot, i < g.length → ref img (D i) slot ≠ 0 →
    mkfsNmeta ≤ ref img (D i) slot ∧ ref img (D i) slot < free ∧ own (ref img (D i) slot) = (i, slot)
  owned : ∀ b, mkfsNmeta ≤ b → b < free → (own b).1 < g.length ∧ ref img (D (own b).1) (own b).2 = b
  zero : ∀ b, free ≤ b → img b = Buf.zero
  low : mkfsNmeta ≤ free
  count : free = mkfsNmeta + (g.map Node.cost).sum

section

variable {img img' : Nat → Block} {D : Nat → Dinode} {free : Nat} {g : List Node} {own : Nat → Nat × Slot} {d : Dinode} {n : Node}
  {i : Nat}

theorem ref_data {bn : Nat} (small : bn < maxfile) : ref img d (.data bn) = mapped img d bn := if_pos small

theorem mapped_frame (same : d.addr ndirect ≠ 0 → img' (d.addr ndirect) = img (d.addr ndirect)) (bn : Nat) :
    mapped img' d bn = mapped img d bn := by
  unfold mapped
  split
  · rfl
  · split
    · rfl
    · rw [same (by assumption)]

theorem ref_frame (same : d.addr ndirect ≠ 0 → img' (d.addr ndirect) = img (d.addr ndirect)) (slot : Slot) :
    ref img' d slot = ref img d slot := by
  cases slot with
  | data bn => rw [ref, ref, mapped_frame same]
  | indirect => rfl

theorem holds_frame (holds : Holds img d n) (same : ∀ slot, ref img d slot ≠ 0 → img' (ref img d slot) = img (ref img d slot)) :
    Holds img' d n := by
  have mapping := mapped_frame (same .indirect)
  refine ⟨holds.type, holds.nlink, fun bn small => ?_, holds.ind, fun o inside => ?_, holds.room, holds.most⟩
  · rw [mapping]
    exact holds.map bn small
  · have block : o / bsize < n.blocks := Nat.div_lt_of_lt_mul (by rw [Nat.mul_comm]; exact inside)
    have small : o / bsize < maxfile := Nat.lt_of_lt_of_le block holds.most
    have used := (holds.map _ small).mpr block
    have kept := same (.data (o / bsize))
    rw [ref_data small] at kept
    rw [mapping, kept used]
    exact holds.bytes o inside

theorem cost_set (n' : Node) (at_ : g[i]? = some n) :
    ((g.set i n').map Node.cost).sum + n.cost = (g.map Node.cost).sum + n'.cost := by
  induction g generalizing i with
  | nil => cases at_
  | cons a g ih =>
    cases i with
    | zero =>
      cases at_
      simp only [List.set_cons_zero, List.map_cons, List.sum_cons]
      omega
    | succ i =>
      have rest := ih at_
      simp only [List.set_cons_succ, List.map_cons, List.sum_cons]
      omega

theorem disk_step (disk : Disk img D free g own) (at_ : g[i]? = some n) {d' : Dinode} {n' : Node} {free' : Nat}
    {own' : Nat → Nat × Slot} (frame : ∀ b, mkfsNmeta ≤ b → b < free → (own b).1 ≠ i → img' b = img b)
    (holds : Holds img' d' n')
    (owns : ∀ slot, ref img' d' slot ≠ 0 →
      mkfsNmeta ≤ ref img' d' slot ∧ ref img' d' slot < free' ∧ own' (ref img' d' slot) = (i, slot))
    (same : ∀ b < free, own' b = own b)
    (kept : ∀ b, mkfsNmeta ≤ b → b < free → (own b).1 = i → ref img' d' (own b).2 = b)
    (new : ∀ b, free ≤ b → b < free' → (own' b).1 = i ∧ ref img' d' (own' b).2 = b)
    (zero : ∀ b, free' ≤ b → img' b = Buf.zero) (grow : free ≤ free') (count : free' + n.cost = free + n'.cost) :
    Disk img' (upd D i d') free' (g.set i n') own' := by
  obtain ⟨here, found⟩ := List.getElem?_eq_some_iff.mp at_
  have others : ∀ j < g.length, j ≠ i → ∀ slot, ref img (D j) slot ≠ 0 → img' (ref img (D j) slot) = img (ref img (D j) slot) := by
    intro j inside other slot used
    obtain ⟨low, high, owner⟩ := disk.owns j slot inside used
    exact frame _ low high (by rw [owner]; exact other)
  have otherRefs : ∀ j < g.length, j ≠ i → ∀ slot, ref img' (D j) slot = ref img (D j) slot := fun j inside other =>
    ref_frame (others j inside other .indirect)
  refine ⟨fun j m found => ?_, fun j slot inside used => ?_, fun b low high => ?_, zero, Nat.le_trans disk.low grow, ?_⟩
  · by_cases same : j = i
    · subst same
      rw [List.getElem?_set_self here] at found
      cases found
      rw [upd_self]
      exact holds
    · rw [List.getElem?_set_ne (Ne.symm same)] at found
      rw [upd_ne same]
      have inside := (List.getElem?_eq_some_iff.mp found).1
      exact holds_frame (disk.nodes j m found) (others j inside same)
  · rw [List.length_set] at inside
    by_cases here' : j = i
    · subst here'
      rw [upd_self] at used ⊢
      exact owns slot used
    · rw [upd_ne here', otherRefs j inside here'] at used ⊢
      obtain ⟨low, high, owner⟩ := disk.owns j slot inside used
      exact ⟨low, Nat.lt_of_lt_of_le high grow, (same _ high).trans owner⟩
  · rw [List.length_set]
    by_cases old : b < free
    · obtain ⟨inside, leads⟩ := disk.owned b low old
      rw [same b old]
      refine ⟨inside, ?_⟩
      by_cases mine : (own b).1 = i
      · rw [mine, upd_self]
        exact kept b low old mine
      · rw [upd_ne mine, otherRefs _ inside mine]
        exact leads
    · obtain ⟨owner, leads⟩ := new b (Nat.le_of_not_lt old) high
      rw [owner, upd_self]
      exact ⟨here, leads⟩
  · have sums := cost_set n' at_
    have before := disk.count
    omega

theorem addr_set {j b : Nat} (bound : b < 2 ^ 32) (small : j ≤ ndirect) : (d.setAddr j b).addr j = b := by
  unfold Dinode.setAddr Dinode.addr
  rw [Buf.getLE_putLE _ _ _ _ (by unfold ndirect at small; omega)]
  exact Nat.mod_eq_of_lt bound

theorem addr_set_other {j k b : Nat} (other : j ≠ k) : (d.setAddr k b).addr j = d.addr j := by
  unfold Dinode.setAddr Dinode.addr
  exact Buf.getLE_putLE_outside _ _ _ _ _ _ (by omega)

theorem disk_grow (disk : Disk img D free g own) (at_ : g[i]? = some n) {d' : Dinode} {n' : Node} {sl : Slot}
    (refs : ∀ slot, ref img' d' slot = if slot = sl then free else ref img (D i) slot) (fresh : ref img (D i) sl = 0)
    (frame : ∀ b, mkfsNmeta ≤ b → b < free → (own b).1 ≠ i → img' b = img b) (zero : ∀ b, free + 1 ≤ b → img' b = img b)
    (holds : Holds img' d' n') (count : n'.cost = n.cost + 1) :
    Disk img' (upd D i d') (free + 1) (g.set i n') (upd own free (i, sl)) := by
  have inside := (List.getElem?_eq_some_iff.mp at_).1
  have low := disk.low
  refine disk_step disk at_ frame holds (fun slot used => ?_) (fun b old => upd_ne (Nat.ne_of_lt old)) (fun b low' old mine => ?_)
    (fun b above below => ?_) (fun b above => ?_) (Nat.le_succ free) (by omega)
  · rw [refs] at used ⊢
    by_cases here : slot = sl
    · rw [if_pos here, upd_self, here]
      exact ⟨low, Nat.lt_succ_self free, rfl⟩
    · rw [if_neg here] at used ⊢
      obtain ⟨low', high, owner⟩ := disk.owns i slot inside used
      exact ⟨low', Nat.lt_succ_of_lt high, (upd_ne (Nat.ne_of_lt high)).trans owner⟩
  · have leads := (disk.owned b low' old).2
    rw [mine] at leads
    rw [refs, if_neg, leads]
    intro same
    rw [same, fresh] at leads
    have positive : 0 < mkfsNmeta := by decide
    omega
  · have only : b = free := by omega
    rw [only, upd_self, refs, if_pos rfl]
    exact ⟨rfl, rfl⟩
  · rw [zero b above]
    exact disk.zero b (Nat.le_of_succ_le above)

theorem holds_grow (holds : Holds img d n) {d' : Dinode} (type : d'.type = d.type) (nlink : d'.nlink = d.nlink)
    (indirect : d'.addr ndirect = d.addr ndirect) (empty : img' free = Buf.zero) (real : free ≠ 0) (room : n.blocks < maxfile)
    (data : ∀ bn < maxfile, mapped img' d' bn = if bn = n.blocks then free else mapped img d bn)
    (frame : ∀ bn < n.blocks, img' (mapped img d bn) = img (mapped img d bn)) :
    Holds img' d' { n with blocks := n.blocks + 1 } := by
  refine ⟨type.trans holds.type, nlink.trans holds.nlink, fun bn small => ?_, ?_, fun o inside => ?_, ?_, room⟩
  · rw [data bn small]
    by_cases last : bn = n.blocks
    · rw [if_pos last]
      exact ⟨fun _ => Nat.lt_succ_of_le (Nat.le_of_eq last), fun _ => real⟩
    · rw [if_neg last, holds.map bn small]
      dsimp only
      omega
  · rw [indirect]
    exact holds.ind
  · have block : o / bsize < n.blocks + 1 := Nat.div_lt_of_lt_mul (by rw [Nat.mul_comm]; exact inside)
    rw [data _ (Nat.lt_of_lt_of_le block room)]
    by_cases last : o / bsize = n.blocks
    · have above : n.blocks * bsize ≤ o := by
        rw [← last]
        exact Nat.div_mul_le_self o bsize
      rw [if_pos last, empty, Buf.get_zero, List.getD_eq_default _ _ (Nat.le_trans holds.room above)]
    · have old : o / bsize < n.blocks := Nat.lt_of_le_of_ne (Nat.le_of_lt_succ block) last
      rw [if_neg last, frame _ old]
      exact holds.bytes o ((Nat.div_lt_iff_lt_mul (by decide)).mp old)
  · exact Nat.le_trans holds.room (Nat.mul_le_mul_right _ (Nat.le_succ _))

theorem disk_direct (disk : Disk img D free g own) (at_ : g[i]? = some n) (room : n.blocks < ndirect) (bound : free < 2 ^ 32) :
    Disk img (upd D i ((D i).setAddr n.blocks free)) (free + 1) (g.set i { n with blocks := n.blocks + 1 })
      (upd own free (i, .data n.blocks)) := by
  have holds := disk.nodes i n at_
  have most : n.blocks < maxfile := Nat.lt_trans room (by decide)
  have new : ((D i).setAddr n.blocks free).addr n.blocks = free := addr_set bound (Nat.le_of_lt room)
  have indirect : ((D i).setAddr n.blocks free).addr ndirect = (D i).addr ndirect := addr_set_other (Nat.ne_of_gt room)
  have data : ∀ bn, mapped img ((D i).setAddr n.blocks free) bn = if bn = n.blocks then free else mapped img (D i) bn := by
    intro bn
    split
    case isTrue here => rw [here, mapped_direct room, new]
    case isFalse other =>
      unfold mapped
      rw [indirect, addr_set_other other]
  refine disk_grow disk at_ (fun slot => ?_) ?_ (fun _ _ _ _ => rfl) (fun _ _ => rfl) ?_ (by unfold Node.cost; dsimp only; omega)
  · cases slot with
    | data bn =>
      rw [ref, ref, data]
      by_cases here : bn = n.blocks
      · rw [here, if_pos rfl, if_pos rfl, if_pos most]
      · rw [if_neg here, if_neg (c := Slot.data bn = _) (by simpa using here)]
    | indirect =>
      rw [ref, ref, indirect]
      rfl
  · rw [ref_data most]
    by_contra used
    exact Nat.lt_irrefl _ ((holds.map _ most).mp used)
  · have real : free ≠ 0 := Nat.ne_of_gt (Nat.lt_of_lt_of_le (by decide) disk.low)
    exact holds_grow holds rfl rfl indirect (disk.zero free (Nat.le_refl free)) real most (fun bn _ => data bn) fun _ _ => rfl

theorem disk_indirect (disk : Disk img D free g own) (at_ : g[i]? = some n) (none_ : n.ind = false) (bound : free < 2 ^ 32) :
    Disk img (upd D i ((D i).setAddr ndirect free)) (free + 1) (g.set i { n with ind := true }) (upd own free (i, .indirect)) := by
  have holds := disk.nodes i n at_
  have real : free ≠ 0 := Nat.ne_of_gt (Nat.lt_of_lt_of_le (by decide) disk.low)
  have absent : (D i).addr ndirect = 0 := by
    by_contra used
    rw [holds.ind.mp used] at none_
    cases none_
  have new : ((D i).setAddr ndirect free).addr ndirect = free := addr_set bound (Nat.le_refl ndirect)
  have data : ∀ bn < maxfile, mapped img ((D i).setAddr ndirect free) bn = mapped img (D i) bn := by
    intro bn small
    by_cases direct : bn < ndirect
    · rw [mapped_direct direct, mapped_direct direct, addr_set_other (Nat.ne_of_lt direct)]
    · rw [mapped_entry direct (by rw [new]; exact real), mapped_none direct absent, new, disk.zero free (Nat.le_refl free),
        Buf.getLE_zero]
  refine disk_grow disk at_ (fun slot => ?_) absent (fun _ _ _ _ => rfl) (fun _ _ => rfl) ?_ ?_
  · cases slot with
    | data bn =>
      rw [ref, ref, if_neg (c := Slot.data bn = _) (by simp)]
      split
      case isTrue small => exact data bn small
      case isFalse => rfl
    | indirect => exact new
  · refine ⟨holds.type, holds.nlink, fun bn small => ?_, ?_, fun o inside => ?_, holds.room, holds.most⟩
    · rw [data bn small]
      exact holds.map bn small
    · rw [new]
      exact ⟨fun _ => rfl, fun _ => real⟩
    · have block : o / bsize < n.blocks := Nat.div_lt_of_lt_mul (by rw [Nat.mul_comm]; exact inside)
      rw [data _ (Nat.lt_of_lt_of_le block holds.most)]
      exact holds.bytes o inside
  · unfold Node.cost
    rw [none_]
    rfl

theorem disk_entry (disk : Disk img D free g own) (at_ : g[i]? = some n) (some_ : n.ind = true) (large : ndirect ≤ n.blocks)
    (room : n.blocks < maxfile) (bound : free < 2 ^ 32) :
    Disk (upd img ((D i).addr ndirect) ((img ((D i).addr ndirect)).putLE (4 * (n.blocks - ndirect)) 4 free)) D (free + 1)
      (g.set i { n with blocks := n.blocks + 1 }) (upd own free (i, .data n.blocks)) := by
  have inside := (List.getElem?_eq_some_iff.mp at_).1
  have holds := disk.nodes i n at_
  have present : (D i).addr ndirect ≠ 0 := holds.ind.mpr some_
  obtain ⟨low, high, owner⟩ := disk.owns i .indirect inside present
  generalize made : (img ((D i).addr ndirect)).putLE (4 * (n.blocks - ndirect)) 4 free = entries
  have other : ∀ b, (own b).1 ≠ i ∨ (own b).2 ≠ .indirect → b ≠ (D i).addr ndirect := by
    rintro b different rfl
    have same : own ((D i).addr ndirect) = (i, .indirect) := owner
    rw [same] at different
    simp at different
  have data : ∀ bn < maxfile, mapped (upd img ((D i).addr ndirect) entries) (D i) bn =
      if bn = n.blocks then free else mapped img (D i) bn := by
    intro bn small
    by_cases direct : bn < ndirect
    · rw [mapped_direct direct, mapped_direct direct, if_neg (by omega)]
    · rw [mapped_entry direct present, mapped_entry direct present, upd_self, ← made]
      by_cases here : bn = n.blocks
      · rw [if_pos here, here, Buf.getLE_putLE _ _ _ _ (by unfold maxfile ndirect nindirect bsize at *; omega)]
        exact Nat.mod_eq_of_lt bound
      · rw [if_neg here]
        exact Buf.getLE_putLE_outside _ _ _ _ _ _ (by omega)
  have real : free ≠ 0 := Nat.ne_of_gt (Nat.lt_of_lt_of_le (by decide) disk.low)
  have grown : Disk (upd img ((D i).addr ndirect) entries) (upd D i (D i)) (free + 1) (g.set i { n with blocks := n.blocks + 1 })
      (upd own free (i, .data n.blocks)) := by
    refine disk_grow disk at_ (fun slot => ?_) ?_ (fun b _ _ mine => upd_ne (other b (.inl mine)))
      (fun b above => upd_ne ?_) ?_ (by unfold Node.cost; dsimp only; omega)
    · cases slot with
      | data bn =>
        rw [ref, ref]
        by_cases small : bn < maxfile
        · rw [if_pos small, if_pos small, data bn small]
          by_cases here : bn = n.blocks
          · rw [here, if_pos rfl, if_pos rfl]
          · rw [if_neg here, if_neg (by simpa using here)]
        · rw [if_neg small, if_neg small, if_neg (by rintro ⟨⟩; exact small room)]
      | indirect => rfl
    · rw [ref_data room]
      by_contra used
      exact Nat.lt_irrefl _ ((holds.map _ room).mp used)
    · have : ref img (D i) .indirect = (D i).addr ndirect := rfl
      omega
    · refine holds_grow holds rfl rfl rfl ?_ real room data fun bn old => upd_ne (other _ (.inr ?_))
      · have apart : free ≠ (D i).addr ndirect := Nat.ne_of_gt high
        rw [upd_ne apart]
        exact disk.zero free (Nat.le_refl free)
      · have small : bn < maxfile := Nat.lt_trans old room
        have used := (holds.map bn small).mpr old
        rw [← ref_data small] at used ⊢
        rw [(disk.owns i _ inside used).2.2]
        simp
  rw [upd_same] at grown
  exact grown

theorem disk_write (disk : Disk img D free g own) (at_ : g[i]? = some n) (q : List UInt8) (last : Nat)
    (blocks : n.blocks = last + 1) (start : last * bsize ≤ n.bytes.length) (fits : n.bytes.length + q.length ≤ n.blocks * bsize) :
    Disk (upd img (mapped img (D i) last)
        ((img (mapped img (D i) last)).splice (n.bytes.length - last * bsize) q.length fun j => q.getD j 0)) D free
      (g.set i { n with bytes := n.bytes ++ q }) own := by
  have inside := (List.getElem?_eq_some_iff.mp at_).1
  have holds := disk.nodes i n at_
  have small : last < maxfile := by
    have := holds.most
    omega
  have used : ref img (D i) (.data last) ≠ 0 := by
    rw [ref_data small]
    exact (holds.map last small).mpr (by omega)
  obtain ⟨low, high, owner⟩ := disk.owns i (.data last) inside used
  have here : ref img (D i) (.data last) = mapped img (D i) last := ref_data small
  rw [here] at low high owner
  generalize made : (img (mapped img (D i) last)).splice (n.bytes.length - last * bsize) q.length (fun j => q.getD j 0) = data
  have other : ∀ b, own b ≠ (i, .data last) → upd img (mapped img (D i) last) data b = img b := by
    intro b different
    refine upd_ne ?_
    rintro rfl
    exact different owner
  have indirect : (D i).addr ndirect ≠ 0 → upd img (mapped img (D i) last) data ((D i).addr ndirect) = img ((D i).addr ndirect) := by
    intro present
    refine other _ ?_
    have mine := (disk.owns i .indirect inside present).2.2
    have same : ref img (D i) .indirect = (D i).addr ndirect := rfl
    rw [← same, mine]
    simp
  have refs := ref_frame indirect
  have mapping := mapped_frame indirect
  have holds' : Holds (upd img (mapped img (D i) last) data) (D i) { n with bytes := n.bytes ++ q } := by
    refine ⟨holds.type, holds.nlink, fun bn small => ?_, holds.ind, fun o within => ?_, ?_, holds.most⟩
    · rw [mapping]
      exact holds.map bn small
    · have block : o / bsize < n.blocks := Nat.div_lt_of_lt_mul (by rw [Nat.mul_comm]; exact within)
      have before := holds.bytes o within
      have split : o = o / bsize * bsize + o % bsize := (Nat.div_add_mod' o bsize).symm
      have rest : o % bsize < bsize := Nat.mod_lt _ (by decide)
      rw [mapping]
      dsimp only
      by_cases same : o / bsize = last
      · rw [same] at before split ⊢
        rw [blocks, Nat.succ_mul] at fits
        rw [upd_self, ← made, Buf.get_splice _ _ _ _ _ (by omega)]
        by_cases new : n.bytes.length ≤ o ∧ o < n.bytes.length + q.length
        · rw [if_pos (by omega), List.getD_append_right _ _ _ _ new.1]
          congr 1
          omega
        · rw [if_neg (by omega), before]
          by_cases old : o < n.bytes.length
          · rw [List.getD_append _ _ _ _ old]
          · rw [List.getD_eq_default _ _ (Nat.le_of_not_lt old), List.getD_eq_default]
            rw [List.length_append]
            omega
      · have less : o / bsize < last := by omega
        have early : o < n.bytes.length := Nat.lt_of_lt_of_le ((Nat.div_lt_iff_lt_mul (by decide)).mp less) start
        have small' : o / bsize < maxfile := Nat.lt_trans less small
        have used' := (holds.map _ small').mpr block
        rw [← ref_data small'] at used'
        have mine := (disk.owns i _ inside used').2.2
        rw [ref_data small'] at mine
        rw [other _ (by rw [mine]; simpa using same), before, List.getD_append _ _ _ _ early]
    · rw [List.length_append]
      exact fits
  have written : Disk (upd img (mapped img (D i) last) data) (upd D i (D i)) free (g.set i { n with bytes := n.bytes ++ q }) own := by
    refine disk_step disk at_ (fun b _ _ mine => other b (fun same => mine (by rw [same]))) holds' (fun slot used => ?_)
      (fun _ _ => rfl) (fun b low' old mine => ?_) (fun b above below => ?_) (fun b above => ?_) (Nat.le_refl free) rfl
    · rw [refs] at used ⊢
      exact disk.owns i slot inside used
    · rw [refs]
      have leads := (disk.owned b low' old).2
      rw [mine] at leads
      exact leads
    · omega
    · rw [upd_ne (by omega)]
      exact disk.zero b above
  rw [upd_same] at written
  exact written

theorem fresh_addr (type j : Nat) : (freshDinode type).addr j = 0 := Buf.getLE_zero _ _

theorem disk_new (disk : Disk img D free g own) (type : Nat) :
    Disk img (upd D g.length (freshDinode type)) free (g ++ [⟨type, [], 0, false⟩]) own := by
  have none_ : ∀ bn, mapped img (freshDinode type) bn = 0 := by
    intro bn
    by_cases direct : bn < ndirect
    · rw [mapped_direct direct, fresh_addr]
    · exact mapped_none direct (fresh_addr type ndirect)
  refine ⟨fun i n found => ?_, fun i slot inside used => ?_, fun b low high => ?_, disk.zero, disk.low, ?_⟩
  · by_cases old : i < g.length
    · rw [List.getElem?_append_left old] at found
      rw [upd_ne (Nat.ne_of_lt old)]
      exact disk.nodes i n found
    · have bound := (List.getElem?_eq_some_iff.mp found).1
      rw [List.length_append, List.length_singleton] at bound
      have here : i = g.length := by omega
      rw [here, List.getElem?_concat_length] at found
      cases found
      rw [here, upd_self]
      refine ⟨rfl, rfl, fun bn _ => ?_, ?_, fun o never => ?_, Nat.zero_le _, Nat.zero_le _⟩
      · rw [none_]
        exact ⟨fun never => absurd rfl never, fun never => absurd never (Nat.not_lt_zero _)⟩
      · rw [fresh_addr]
        exact ⟨fun never => absurd rfl never, nofun⟩
      · rw [Nat.zero_mul] at never
        exact absurd never (Nat.not_lt_zero _)
  · rw [List.length_append, List.length_singleton] at inside
    by_cases old : i < g.length
    · rw [upd_ne (Nat.ne_of_lt old)] at used ⊢
      exact disk.owns i slot old used
    · have here : i = g.length := by omega
      rw [here, upd_self] at used
      cases slot with
      | data bn =>
        rw [ref, none_] at used
        simp at used
      | indirect => exact absurd (fresh_addr type ndirect) used
  · obtain ⟨inside, leads⟩ := disk.owned b low high
    rw [upd_ne (Nat.ne_of_lt inside), List.length_append]
    exact ⟨Nat.lt_add_right _ inside, leads⟩
  · rw [List.map_append, List.sum_append]
    exact disk.count

theorem disk_meta (disk : Disk img D free g own) (same : ∀ b, mkfsNmeta ≤ b → img' b = img b) : Disk img' D free g own := by
  have kept : ∀ i < g.length, ∀ slot, ref img (D i) slot ≠ 0 → img' (ref img (D i) slot) = img (ref img (D i) slot) :=
    fun i inside slot used => same _ (disk.owns i slot inside used).1
  have refs : ∀ i < g.length, ∀ slot, ref img' (D i) slot = ref img (D i) slot := fun i inside => ref_frame (kept i inside .indirect)
  refine ⟨fun i n found => ?_, fun i slot inside used => ?_, fun b low high => ?_, fun b above => ?_, disk.low, disk.count⟩
  · exact holds_frame (disk.nodes i n found) (kept i (List.getElem?_eq_some_iff.mp found).1)
  · rw [refs i inside] at used ⊢
    exact disk.owns i slot inside used
  · obtain ⟨inside, leads⟩ := disk.owned b low high
    exact ⟨inside, (refs _ inside _).trans leads⟩
  · rw [same b (Nat.le_trans disk.low above)]
    exact disk.zero b above

end

end Xv6.Mkfs
