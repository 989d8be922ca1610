import Xv6.Lib.Path
import Xv6.Log.Commit
import Xv6.Fs.Sysfile

set_option autoImplicit false

namespace Xv6

open Prog

-- Sections that leave the file table and the processes alone.
def Sec.KeepsTables {β : Type} (m : Mem) : Sec Mem β → Prop
  | .keep _ next => next.ftable = m.ftable ∧ next.proc = m.proc
  | .logged _ _ next => next.ftable = m.ftable ∧ next.proc = m.proc
  | .written _ _ next => next.ftable = m.ftable ∧ next.proc = m.proc
  | .panic _ => True

def InodeLevel {β : Type} : FsOp β → Prop
  | .mem f => ∀ m r next, f m = .ok r next → next.ftable = m.ftable ∧ next.proc = m.proc
  | .buf _ f => ∀ data m, (f data m).KeepsTables m
  | .probe note => note ≠ .createFailed
  | _ => False

def Res.Leaves {β : Type} (calm : String → Prop) (Q : Mem → Prop) : Res Mem β → Prop
  | .ok _ next => Q next
  | .panic msg => calm msg
  | .blocked => True

def Sec.Leaves {β : Type} (calm : String → Prop) (Q : Mem → Prop) : Sec Mem β → Prop
  | .keep _ next => Q next
  | .logged _ _ next => Q next
  | .written _ _ next => Q next
  | .panic msg => calm msg

def Relates (calm : String → Prop) (R : Mem → Mem → Prop) {β : Type} : FsOp β → Prop
  | .mem f => ∀ m, (f m).Leaves calm (R m)
  | .buf _ f => ∀ data m, (f data m).Leaves calm (R m)
  | .probe note => note ≠ .createFailed
  | _ => False

section

variable {calm calm' : String → Prop} {R R' : Mem → Mem → Prop} {β : Type}

theorem relates_mono (calmer : ∀ msg, calm msg → calm' msg) (weaker : ∀ m next, R m next → R' m next) (act : FsOp β)
    (relates : Relates calm R act) : Relates calm' R' act := by
  cases act with
  | mem f =>
    intro m
    have leaves := relates m
    cases res : f m with
    | ok r next =>
      rw [res] at leaves
      exact weaker m next leaves
    | panic msg =>
      rw [res] at leaves
      exact calmer msg leaves
    | blocked => trivial
  | buf b f =>
    intro data m
    have leaves := relates data m
    cases sec : f data m with
    | panic msg =>
      rw [sec] at leaves
      exact calmer msg leaves
    | _ =>
      rw [sec] at leaves
      exact weaker m _ leaves
  | probe note => exact relates
  | _ => exact relates.elim

theorem relates_keeps (refl : ∀ m, R m m) (act : FsOp β) (relates : Relates calm R act) (s next : Fs) (r : β)
    (executed : act.exec s = .ok r next) : R s.mem next.mem ∧ next.log.outstanding = s.log.outstanding := by
  cases act with
  | mem f =>
    have leaves := relates s.mem
    obtain ⟨m, stepped, rfl⟩ := on_mem_ok s next _ r executed
    rw [stepped] at leaves
    exact ⟨leaves, rfl⟩
  | buf b f =>
    have leaves := relates (s.cache b) s.mem
    rcases on_buf_ok s next b _ r executed with ⟨m, sec, rfl⟩ | ⟨data, m, sec, logged⟩ | ⟨data, m, sec, rfl⟩
    · rw [sec] at leaves
      exact ⟨leaves, rfl⟩
    · obtain ⟨-, -, -, rfl⟩ := (log_write_ok _ next b data).mp logged
      rw [sec] at leaves
      exact ⟨leaves, rfl⟩
    · rw [sec] at leaves
      exact ⟨leaves, rfl⟩
  | probe note =>
    cases executed
    exact ⟨refl s.mem, rfl⟩
  | _ => exact relates.elim

end

def SameTables (m next : Mem) : Prop := next.ftable = m.ftable ∧ next.proc = m.proc

theorem inode_level_iff {β : Type} (act : FsOp β) : InodeLevel act ↔ Relates (fun _ => True) SameTables act := by
  cases act with
  | mem f =>
    refine forall_congr' fun m => ?_
    cases f m with
    | ok r next => exact ⟨fun keeps => keeps r next rfl, fun same _ _ executed => by cases executed; exact same⟩
    | _ => exact ⟨fun _ => trivial, nofun⟩
  | buf b f =>
    refine forall_congr' fun data => forall_congr' fun m => ?_
    cases f data m <;> rfl
  | _ => rfl

theorem inode_level_keeps {β : Type} (act : FsOp β) (level : InodeLevel act) (s next : Fs) (r : β)
    (executed : act.exec s = .ok r next) :
    (next.mem.ftable = s.mem.ftable ∧ next.mem.proc = s.mem.proc) ∧ next.log.outstanding = s.log.outstanding :=
  relates_keeps (fun _ => ⟨rfl, rfl⟩) act ((inode_level_iff act).mp level) s next r executed

def refPanics : List String := ["ilock", "filedup", "fileclose"]

structure SameHolders (m next : Mem) : Prop where
  tables : SameTables m next
  inum : ∀ k, (next.icache k).inum = (m.icache k).inum
  ref : ∀ k, (next.icache k).ref = (m.icache k).ref
  locked : ∀ k, (next.icache k).locked = (m.icache k).locked

abbrev ContentLevel {β : Type} : FsOp β → Prop := Relates (· ∉ refPanics) SameHolders

-- iget never gives two entries to one inode number.
def Distinct (m : Mem) : Prop :=
  ∀ j < ninode, ∀ k < ninode, 0 < (m.icache j).ref → 0 < (m.icache k).ref → (m.icache j).inum = (m.icache k).inum → j = k

def StaysDistinct (m next : Mem) : Prop := SameTables m next ∧ (Distinct m → Distinct next)

abbrev EntryLevel {β : Type} : FsOp β → Prop := Relates (fun _ => True) StaysDistinct

theorem content_entry {β : Type} (act : FsOp β) (level : ContentLevel act) : EntryLevel act := by
  refine relates_mono (fun _ _ => trivial) (fun m next same => ⟨same.tables, fun distinct j inside k inside' held held' names => ?_⟩) act level
  rw [same.ref] at held held'
  rw [same.inum, same.inum] at names
  exact distinct j inside k inside' held held' names

theorem entry_level {β : Type} (act : FsOp β) (level : EntryLevel act) : InodeLevel act :=
  (inode_level_iff act).mpr (relates_mono (fun _ _ => trivial) (fun _ _ stays => stays.1) act level)

theorem same_holders_refl (m : Mem) : SameHolders m m := ⟨⟨rfl, rfl⟩, fun _ => rfl, fun _ => rfl, fun _ => rfl⟩

theorem same_holders_set {m : Mem} {k : Nat} {ip : Inode} (inum : ip.inum = (m.icache k).inum) (ref : ip.ref = (m.icache k).ref)
    (locked : ip.locked = (m.icache k).locked) : SameHolders m (m.setInode k ip) := by
  have entry : ∀ {β : Type} (g : Inode → β), g ip = g (m.icache k) → ∀ j, g ((m.setInode k ip).icache j) = g (m.icache j) := by
    intro β g same j
    by_cases here : j = k
    · rw [here, ← same]
      exact congrArg g (upd_self _ _ _)
    · exact congrArg g (upd_ne here)
  exact ⟨⟨rfl, rfl⟩, entry Inode.inum inum, entry Inode.ref ref, entry Inode.locked locked⟩

theorem stays_distinct_set {m : Mem} {k : Nat} {ip : Inode} (inum : ip.inum = (m.icache k).inum)
    (ref : 0 < ip.ref → 0 < (m.icache k).ref) : StaysDistinct m (m.setInode k ip) := by
  have entry : ∀ j, ((m.setInode k ip).icache j).inum = (m.icache j).inum ∧
      (0 < ((m.setInode k ip).icache j).ref → 0 < (m.icache j).ref) := by
    intro j
    by_cases here : j = k
    · rw [here, show (m.setInode k ip).icache k = ip from upd_self _ _ _]
      exact ⟨inum, ref⟩
    · rw [show (m.setInode k ip).icache j = m.icache j from upd_ne here]
      exact ⟨rfl, id⟩
  refine ⟨⟨rfl, rfl⟩, fun distinct i inside j inside' held held' names => ?_⟩
  rw [(entry i).1, (entry j).1] at names
  exact distinct i inside j inside' ((entry i).2 held) ((entry j).2 held') names

theorem entry_of_contents {α : Type} {c : FsM α} (each : c.Each ContentLevel) : c.Each EntryLevel := each_mono each content_entry

theorem level_of_entry {α : Type} {c : FsM α} (each : c.Each EntryLevel) : c.Each InodeLevel := each_mono each entry_level

theorem level_of_contents {α : Type} {c : FsM α} (each : c.Each ContentLevel) : c.Each InodeLevel :=
  level_of_entry (entry_of_contents each)

theorem kpanic_contents {α : Type} {msg : String} (calm : msg ∉ refPanics) : (kpanic msg : FsM α).Each ContentLevel :=
  ⟨fun _ => calm, fun _ => trivial⟩

theorem get_inode_contents (k : Nat) : (getInode k).Each ContentLevel :=
  ⟨fun _ => same_holders_refl _, fun _ => trivial⟩

theorem mod_din_contents (k : Nat) (f : Dinode → Dinode) : (modDin k f).Each ContentLevel :=
  ⟨fun _ => same_holders_set rfl rfl rfl, fun _ => trivial⟩

theorem choose_contents : choose.Each ContentLevel :=
  ⟨fun _ => ⟨⟨rfl, rfl⟩, fun _ => rfl, fun _ => rfl, fun _ => rfl⟩, fun _ => trivial⟩

theorem choose_bytes_contents (n : Nat) : (chooseBytes n).Each ContentLevel :=
  ⟨fun _ => ⟨⟨rfl, rfl⟩, fun _ => rfl, fun _ => rfl, fun _ => rfl⟩, fun _ => trivial⟩

theorem read_le_contents (b off len : Nat) : (readLE b off len).Each ContentLevel :=
  ⟨fun _ _ => same_holders_refl _, fun _ => trivial⟩

theorem bzero_contents (b : Nat) : (bzero b).Each ContentLevel := ⟨fun _ _ => same_holders_refl _, fun _ => trivial⟩

variable (sb : Superblock)

theorem balloc_from_contents (b left : Nat) : (ballocFrom sb b left).Each ContentLevel := by
  induction left generalizing b with
  | zero => exact kpanic_contents (by decide)
  | succ left ih =>
    refine each_bind (each_lift ?_) (fun found => ?_)
    · intro data m
      dsimp only
      split
      · exact same_holders_refl _
      · exact same_holders_refl _
    · cases found with
      | none => exact ih (b + bpb)
      | some bi => exact each_bind (bzero_contents _) (fun _ => trivial)

theorem balloc_contents : (balloc sb).Each ContentLevel := balloc_from_contents sb 0 _

theorem bfree_contents (b : Nat) : (bfree sb b).Each ContentLevel := by
  refine each_lift ?_
  intro data m
  dsimp only
  split
  · exact same_holders_refl _
  · exact (by decide : "freeing free block" ∉ refPanics)

theorem iupdate_contents (k : Nat) : (iupdate sb k).Each ContentLevel :=
  each_bind (get_inode_contents k) (fun _ => each_lift (fun _ _ => same_holders_refl _))

theorem itrunc_direct_contents (k i : Nat) : (itruncDirect sb k i).Each ContentLevel := by
  refine each_bind (get_inode_contents k) (fun ip => ?_)
  split
  · exact each_bind (bfree_contents sb _) (fun _ => mod_din_contents k _)
  · trivial

theorem itrunc_entry_contents (ind j : Nat) : (itruncEntry sb ind j).Each ContentLevel := by
  refine each_bind (read_le_contents _ _ _) (fun a => ?_)
  split
  · exact bfree_contents sb a
  · trivial

theorem itrunc_indirect_contents (k : Nat) : (itruncIndirect sb k).Each ContentLevel := by
  refine each_bind (get_inode_contents k) (fun ip => ?_)
  split
  · refine each_bind (each_loop (itrunc_entry_contents sb _) 0 nindirect) (fun _ => ?_)
    exact each_bind (bfree_contents sb _) (fun _ => mod_din_contents k _)
  · trivial

theorem itrunc_contents (k : Nat) : (itrunc sb k).Each ContentLevel :=
  each_bind (each_loop (itrunc_direct_contents sb k) 0 ndirect) (fun _ => each_bind (itrunc_indirect_contents sb k)
    (fun _ => each_bind (mod_din_contents k _) (fun _ => iupdate_contents sb k)))

theorem iput_contents (k : Nat) : (iputContents sb k).Each ContentLevel := by
  refine each_bind (get_inode_contents k) (fun ip => ?_)
  split
  · exact itrunc_contents sb k
  · trivial

theorem bmap_direct_contents (k i : Nat) : (bmapDirect sb k i).Each ContentLevel := by
  refine each_bind (get_inode_contents k) (fun ip => ?_)
  split
  · exact each_bind (balloc_contents sb) (fun _ => each_bind (mod_din_contents k _) (fun _ => trivial))
  · trivial

theorem bmap_entry_contents (ind j : Nat) : (bmapEntry sb ind j).Each ContentLevel := by
  refine each_bind (read_le_contents _ _ _) (fun a => ?_)
  split
  · exact each_bind (balloc_contents sb) (fun _ => each_bind (each_lift (fun _ _ => same_holders_refl _)) (fun _ => trivial))
  · trivial

theorem bmap_contents (k bn : Nat) : (bmap sb k bn).Each ContentLevel := by
  unfold bmap
  split
  · exact bmap_direct_contents sb k bn
  · split
    · exact each_bind (bmap_direct_contents sb k ndirect) (fun ind => bmap_entry_contents sb ind _)
    · exact kpanic_contents (by decide)

theorem readi_loop_contents (k n left tot off : Nat) : (readiLoop sb k n left tot off).Each ContentLevel := by
  induction left generalizing tot off with
  | zero => trivial
  | succ left ih =>
    unfold readiLoop
    split
    · refine each_bind (bmap_contents sb k _) (fun sector => ?_)
      split
      · exact kpanic_contents (by decide)
      · exact each_bind (each_lift (fun _ _ => same_holders_refl _)) (fun _ => each_bind (ih _ _) (fun _ => trivial))
    · trivial

theorem writei_loop_contents (k : Nat) (src : Nat → UInt8) (n left tot off : Nat) :
    (writeiLoop sb k src n left tot off).Each ContentLevel := by
  induction left generalizing tot off with
  | zero => trivial
  | succ left ih =>
    unfold writeiLoop
    split
    · refine each_bind (bmap_contents sb k _) (fun sector => ?_)
      split
      · trivial
      · exact each_bind (each_lift (fun _ _ => same_holders_refl _)) (fun _ => ih _ _)
    · trivial

theorem writei_data_contents (k : Nat) (src : Nat → UInt8) (off n : Nat) :
    (writeiData sb k src off n).Each ContentLevel := by
  refine each_bind (get_inode_contents k) (fun ip => ?_)
  split
  · exact each_bind (mod_din_contents k _) (fun _ => trivial)
  · exact writei_loop_contents sb k src n n 0 off

theorem writei_grow_contents (k n off : Nat) : (writeiGrow k n off).Each ContentLevel := by
  refine each_bind (get_inode_contents k) (fun ip => ?_)
  split
  · exact mod_din_contents k _
  · trivial

theorem writei_update_contents (k n off : Nat) : (writeiUpdate sb k n off).Each ContentLevel := by
  refine each_bind (get_inode_contents k) (fun ip => ?_)
  split
  · exact each_bind (writei_grow_contents k n off) (fun _ => iupdate_contents sb k)
  · trivial

theorem stays_distinct_refl (m : Mem) : StaysDistinct m m := ⟨⟨rfl, rfl⟩, id⟩

theorem kpanic_entry {α : Type} (msg : String) : (kpanic msg : FsM α).Each EntryLevel := ⟨fun _ => trivial, fun _ => trivial⟩

theorem get_inode_entry (k : Nat) : (getInode k).Each EntryLevel := entry_of_contents (get_inode_contents k)

theorem choose_entry : choose.Each EntryLevel := entry_of_contents choose_contents

theorem mod_din_entry (k : Nat) (f : Dinode → Dinode) : (modDin k f).Each EntryLevel := entry_of_contents (mod_din_contents k f)

theorem iupdate_entry (k : Nat) : (iupdate sb k).Each EntryLevel := entry_of_contents (iupdate_contents sb k)

theorem mod_inode_entry {k : Nat} {f : Inode → Inode} (same : ∀ ip, (f ip).inum = ip.inum ∧ (0 < (f ip).ref → 0 < ip.ref)) :
    (modInode k f).Each EntryLevel :=
  ⟨fun _ => stays_distinct_set (same _).1 (same _).2, fun _ => trivial⟩

theorem iget_entry (inum : Nat) : (iget inum).Each EntryLevel := by
  refine each_lift ?_
  intro m
  dsimp only
  split
  case h_1 k found =>
    have held := List.find?_some found
    rw [decide_eq_true_eq] at held
    exact stays_distinct_set rfl fun _ => held.1
  case h_2 cached =>
    split
    case h_1 r found =>
      refine ⟨⟨rfl, rfl⟩, fun distinct i inside j inside' held held' names => ?_⟩
      have others : ∀ i < ninode, 0 < (m.icache i).ref → (m.icache i).inum ≠ inum := fun i inside held same =>
        List.find?_eq_none.mp cached i (List.mem_range.mpr inside) (decide_eq_true ⟨held, same⟩)
      by_cases first : i = r
      · by_cases second : j = r
        · rw [first, second]
        · rw [first, show (m.setInode r _).icache r = _ from upd_self _ _ _,
            show (m.setInode r _).icache j = _ from upd_ne second] at names
          rw [show (m.setInode r _).icache j = _ from upd_ne second] at held'
          exact absurd names.symm (others j inside' held')
      · rw [show (m.setInode r _).icache i = _ from upd_ne first] at held names
        by_cases second : j = r
        · rw [second, show (m.setInode r _).icache r = _ from upd_self _ _ _] at names
          exact absurd names (others i inside held)
        · rw [show (m.setInode r _).icache j = _ from upd_ne second] at held' names
          exact distinct i inside j inside' held held' names
    case h_2 => trivial

theorem ialloc_from_entry (type inum left : Nat) : (iallocFrom sb type inum left).Each EntryLevel := by
  induction left generalizing inum with
  | zero => exact kpanic_entry _
  | succ left ih =>
    refine each_bind (each_lift ?_) (fun free => ?_)
    · intro data m
      dsimp only
      split
      · exact stays_distinct_refl m
      · exact stays_distinct_refl m
    · cases free with
      | true => exact iget_entry inum
      | false => exact ih (inum + 1)

theorem ialloc_entry (type : Nat) : (ialloc sb type).Each EntryLevel := ialloc_from_entry sb type 1 _

theorem acquiresleep_entry (p k : Nat) : (acquiresleep p k).Each EntryLevel := by
  refine each_lift ?_
  intro m
  dsimp only
  split
  · trivial
  · exact stays_distinct_set rfl id

theorem ilock_entry (p k : Nat) : (ilock sb p k).Each EntryLevel := by
  refine each_bind (get_inode_entry k) (fun ip => ?_)
  split
  · exact kpanic_entry _
  · refine each_bind (acquiresleep_entry p k) (fun _ => each_bind (get_inode_entry k) (fun ip => ?_))
    split
    · trivial
    · refine each_bind (each_lift (fun _ _ => stays_distinct_set rfl id)) (fun _ => ?_)
      refine each_bind (mod_inode_entry (fun _ => ⟨rfl, id⟩)) (fun _ => each_bind (get_inode_entry k) (fun ip => ?_))
      split
      · exact kpanic_entry _
      · trivial

theorem iunlock_entry (k : Nat) : (iunlock k).Each EntryLevel := by
  refine each_bind (get_inode_entry k) (fun ip => ?_)
  split
  · exact kpanic_entry _
  · exact mod_inode_entry fun _ => ⟨rfl, id⟩

theorem iput_check_entry (k : Nat) : (iputCheck k).Each EntryLevel := by
  refine each_lift ?_
  intro m
  dsimp only
  split
  · split
    · trivial
    · exact stays_distinct_set rfl id
  · exact stays_distinct_set rfl fun held => by dsimp only at held; omega

theorem iput_free_entry (k : Nat) : (iputFree sb k).Each EntryLevel :=
  each_bind (each_lift (by simp [Relates])) (fun _ => each_bind (entry_of_contents (iput_contents sb k)) (fun _ =>
    each_bind (mod_din_entry k _) (fun _ => each_bind (iupdate_entry sb k) (fun _ =>
      mod_inode_entry fun _ => ⟨rfl, fun held => by dsimp only at held; omega⟩))))

theorem iput_entry (k : Nat) : (iput sb k).Each EntryLevel := by
  refine each_bind (iput_check_entry k) (fun free => ?_)
  cases free with
  | false => trivial
  | true => exact iput_free_entry sb k

theorem iunlockput_entry (k : Nat) : (iunlockput sb k).Each EntryLevel :=
  each_bind (iunlock_entry k) (fun _ => iput_entry sb k)

theorem consoleread_entry (p k n : Nat) : (consoleread sb p k n).Each EntryLevel :=
  each_bind (iunlock_entry k) (fun _ => each_bind choose_entry (fun _ => each_bind (entry_of_contents (choose_bytes_contents _))
    (fun _ => each_bind (ilock_entry sb p k) (fun _ => trivial))))

theorem consolewrite_entry (p k n : Nat) : (consolewrite sb p k n).Each EntryLevel :=
  each_bind (iunlock_entry k) (fun _ => each_bind (ilock_entry sb p k) (fun _ => trivial))

theorem readi_entry (p k off n : Nat) : (readi sb p k off n).Each EntryLevel := by
  refine each_bind (get_inode_entry k) (fun ip => ?_)
  split
  · split
    · trivial
    · exact consoleread_entry sb p k n
  · split
    · trivial
    · split
      · trivial
      · exact each_bind (entry_of_contents (readi_loop_contents sb k _ _ _ _)) (fun _ => trivial)

theorem writei_entry (p k : Nat) (src : Nat → UInt8) (off n : Nat) :
    (writei sb p k src off n).Each EntryLevel := by
  refine each_bind (get_inode_entry k) (fun ip => ?_)
  split
  · split
    · trivial
    · exact consolewrite_entry sb p k n
  · split
    · trivial
    · exact each_bind (entry_of_contents (writei_data_contents sb k src off _)) (fun _ => each_bind (entry_of_contents (writei_update_contents sb k _ _)) (fun _ => trivial))

theorem read_dirent_entry (p k off : Nat) (msg : String) : (readDirent sb p k off msg).Each EntryLevel := by
  refine each_bind (readi_entry sb p k off 16) (fun bytes => ?_)
  cases bytes with
  | none => exact kpanic_entry _
  | some bytes =>
    dsimp only
    split
    · trivial
    · exact kpanic_entry _

theorem dirlookup_from_entry (p k : Nat) (name : Name) (off left : Nat) :
    (dirlookupFrom sb p k name off left).Each EntryLevel := by
  induction left generalizing off with
  | zero => trivial
  | succ left ih =>
    refine each_bind (read_dirent_entry sb p k off _) (fun de => ?_)
    split
    · exact ih _
    · split
      · exact each_bind (iget_entry _) (fun _ => trivial)
      · exact ih _

theorem dirlookup_entry (p k : Nat) (name : Name) : (dirlookup sb p k name).Each EntryLevel := by
  refine each_bind (get_inode_entry k) (fun dp => ?_)
  split
  · exact kpanic_entry _
  · exact dirlookup_from_entry sb p k name 0 _

theorem empty_from_entry (p k off left : Nat) : (emptyFrom sb p k off left).Each EntryLevel := by
  induction left generalizing off with
  | zero => trivial
  | succ left ih =>
    refine each_bind (read_dirent_entry sb p k off _) (fun de => ?_)
    split
    · trivial
    · exact ih _

theorem dirlink_entry (p k : Nat) (name : Name) (inum : Nat) : (dirlink sb p k name inum).Each EntryLevel := by
  refine each_bind (dirlookup_entry sb p k name) (fun found => ?_)
  cases found with
  | some found => exact each_bind (iput_entry sb found.1) (fun _ => trivial)
  | none =>
    refine each_bind (each_lift (by simp [Relates])) (fun _ => each_bind (get_inode_entry k) (fun dp => ?_))
    refine each_bind (empty_from_entry sb p k 0 _) (fun off => each_bind (writei_entry sb p k _ off 16) (fun r => ?_))
    split
    · trivial
    · exact kpanic_entry _

theorem namex_loop_entry (p : Nat) (parent : Bool) (left ip : Nat) (path : Path) :
    (namexLoop sb p parent left ip path).Each EntryLevel := by
  have stop (ip : Nat) : (if parent then do
      iput sb ip
      pure none
    else pure (some (ip, [])) : FsM (Option (Nat × Name))).Each EntryLevel := by
    split
    · exact each_bind (iput_entry sb ip) (fun _ => trivial)
    · trivial
  induction left generalizing ip path with
  | zero => exact stop ip
  | succ left ih =>
    unfold namexLoop
    cases skipelem path with
    | none => exact stop ip
    | some elem =>
      refine each_bind (ilock_entry sb p ip) (fun _ => each_bind (get_inode_entry ip) (fun node => ?_))
      split
      · exact each_bind (iunlockput_entry sb ip) (fun _ => trivial)
      · split
        · exact each_bind (iunlock_entry ip) (fun _ => trivial)
        · refine each_bind (dirlookup_entry sb p ip _) (fun next => ?_)
          cases next with
          | none => exact each_bind (iunlockput_entry sb ip) (fun _ => trivial)
          | some next => exact each_bind (iunlockput_entry sb ip) (fun _ => ih _ _)

theorem isdirempty_entry (p k : Nat) : (isdirempty sb p k).Each EntryLevel := by
  have scan (off left : Nat) : (isdiremptyFrom sb p k off left).Each EntryLevel := by
    induction left generalizing off with
    | zero => trivial
    | succ left ih =>
      refine each_bind (read_dirent_entry sb p k off _) (fun de => ?_)
      split
      · trivial
      · exact ih _
  exact each_bind (get_inode_entry k) (fun _ => scan _ _)

theorem create_entry_entry (p dp : Nat) (name : Name) (inum : Nat) (msg : String) :
    (createEntry sb p dp name inum msg).Each EntryLevel := by
  refine each_bind (dirlink_entry sb p dp name inum) (fun linked => ?_)
  split
  · exact kpanic_entry _
  · trivial

theorem create_dots_entry (p dp ip type : Nat) : (createDots sb p dp ip type).Each EntryLevel := by
  unfold createDots
  split
  · exact each_bind (mod_din_entry dp _) (fun _ => each_bind (iupdate_entry sb dp) (fun _ =>
      each_bind (get_inode_entry ip) (fun _ => each_bind (create_entry_entry sb p ip dot _ _) (fun _ =>
        each_bind (get_inode_entry dp) (fun _ => create_entry_entry sb p ip dotdot _ _)))))
  · trivial

theorem create_link_entry (p dp ip : Nat) (name : Name) (type major minor : Nat) :
    (createLink sb p dp ip name type major minor).Each EntryLevel :=
  each_bind (mod_din_entry ip _) (fun _ => each_bind (iupdate_entry sb ip) (fun _ =>
    each_bind (create_dots_entry sb p dp ip type) (fun _ => each_bind (get_inode_entry ip) (fun _ =>
      each_bind (create_entry_entry sb p dp name _ _) (fun _ => iunlockput_entry sb dp)))))

theorem load_segments_entry (p ip left : Nat) : (loadSegments sb p ip left).Each EntryLevel := by
  have pages (left : Nat) : (loaduvm sb p ip left).Each EntryLevel := by
    induction left with
    | zero => trivial
    | succ left ih =>
      refine each_bind choose_entry (fun off => each_bind choose_entry (fun n =>
        each_bind (readi_entry sb p ip off n) (fun bytes => ?_)))
      split
      · exact ih
      · trivial
  induction left with
  | zero => trivial
  | succ left ih =>
    refine each_bind choose_entry (fun off => each_bind (readi_entry sb p ip off 32) (fun ph =>
      each_bind choose_entry (fun progLoad => ?_)))
    split
    · trivial
    · split
      · exact ih
      · refine each_bind choose_entry (fun sane => each_bind choose_entry (fun count =>
          each_bind (c := loadPages sb p ip sane count) ?_ (fun loaded => ?_)))
        · unfold loadPages
          split
          · trivial
          · exact pages count
        · split
          · exact ih
          · trivial

theorem get_inode_level (k : Nat) : (getInode k).Each InodeLevel := level_of_contents (get_inode_contents k)

theorem choose_level : choose.Each InodeLevel := level_of_contents choose_contents

theorem mod_din_level (k : Nat) (f : Dinode → Dinode) : (modDin k f).Each InodeLevel := level_of_contents (mod_din_contents k f)

theorem iupdate_level (k : Nat) : (iupdate sb k).Each InodeLevel := level_of_contents (iupdate_contents sb k)

theorem ilock_level (p k : Nat) : (ilock sb p k).Each InodeLevel := level_of_entry (ilock_entry sb p k)

theorem iunlock_level (k : Nat) : (iunlock k).Each InodeLevel := level_of_entry (iunlock_entry k)

theorem iput_level (k : Nat) : (iput sb k).Each InodeLevel := level_of_entry (iput_entry sb k)

theorem iunlockput_level (k : Nat) : (iunlockput sb k).Each InodeLevel := level_of_entry (iunlockput_entry sb k)

theorem readi_level (p k off n : Nat) : (readi sb p k off n).Each InodeLevel :=
  level_of_entry (readi_entry sb p k off n)

theorem writei_level (p k : Nat) (src : Nat → UInt8) (off n : Nat) :
    (writei sb p k src off n).Each InodeLevel := level_of_entry (writei_entry sb p k src off n)

theorem dirlookup_level (p k : Nat) (name : Name) : (dirlookup sb p k name).Each InodeLevel :=
  level_of_entry (dirlookup_entry sb p k name)

theorem dirlink_level (p k : Nat) (name : Name) (inum : Nat) : (dirlink sb p k name inum).Each InodeLevel :=
  level_of_entry (dirlink_entry sb p k name inum)

theorem isdirempty_level (p k : Nat) : (isdirempty sb p k).Each InodeLevel :=
  level_of_entry (isdirempty_entry sb p k)

theorem load_segments_level (p ip left : Nat) : (loadSegments sb p ip left).Each InodeLevel :=
  level_of_entry (load_segments_entry sb p ip left)

theorem idup_level (k : Nat) : (idup k).Each InodeLevel :=
  each_bind ⟨fun _ _ _ executed => (by cases executed; exact ⟨rfl, rfl⟩), fun _ => trivial⟩ (fun _ => trivial)

theorem get_cwd_level (p : Nat) : (getCwd p).Each InodeLevel :=
  each_lift (fun _ _ _ executed => by cases executed; exact ⟨rfl, rfl⟩)

theorem namex_start_level (p : Nat) (path : Path) : (namexStart p path).Each InodeLevel := by
  unfold namexStart
  split
  · exact level_of_entry (iget_entry rootino)
  · refine each_bind (get_cwd_level p) (fun cwd => ?_)
    cases cwd with
    | none => exact level_of_entry (kpanic_entry _)
    | some cwd => exact idup_level cwd

theorem namex_level (p : Nat) (path : Path) (parent : Bool) : (namex sb p path parent).Each InodeLevel :=
  each_bind (namex_start_level p path) (fun ip => level_of_entry (namex_loop_entry sb p parent _ ip path))

theorem namei_level (p : Nat) (path : Path) : (namei sb p path).Each InodeLevel :=
  each_bind (namex_level sb p path false) (fun _ => trivial)

theorem nameiparent_level (p : Nat) (path : Path) : (nameiparent sb p path).Each InodeLevel :=
  namex_level sb p path true

theorem create_level (p : Nat) (path : Path) (type major minor : Nat) :
    (create sb p path type major minor).Each InodeLevel := by
  refine each_bind (nameiparent_level sb p path) (fun parent => ?_)
  cases parent with
  | none => trivial
  | some parent =>
    obtain ⟨dp, name⟩ := parent
    refine each_bind (ilock_level sb p dp) (fun _ => each_bind (dirlookup_level sb p dp name) (fun found => ?_))
    cases found with
    | some found =>
      refine each_bind (iunlockput_level sb dp) (fun _ => each_bind (ilock_level sb p _) (fun _ =>
        each_bind (get_inode_level _) (fun node => ?_)))
      split
      · trivial
      · split
        · trivial
        · exact each_bind (iunlockput_level sb _) (fun _ => trivial)
    | none =>
      exact each_bind (level_of_entry (ialloc_entry sb type)) (fun ip => each_bind (ilock_level sb p ip) (fun _ =>
        each_bind (level_of_entry (create_link_entry sb p dp ip name type major minor)) (fun _ => trivial)))

end Xv6
