import Xv6.Log.Commit
import Xv6.Fs.Bitmap
import Xv6.Fs.Image

set_option autoImplicit false

namespace Xv6

def Superblock.bitAt (sb : Superblock) (img : Nat → Block) (b : Nat) : Bool := bitSet (img (sb.bblock b)) (b % bpb)

def Superblock.used (sb : Superblock) (img : Nat → Block) : Set Nat := {b | b < sb.size ∧ sb.bitAt img b = true}

def Superblock.isBitmap (sb : Superblock) (b : Nat) : Prop := sb.bmapstart ≤ b ∧ b < sb.nmeta

def Log.Room (log : Log) (count : Nat) : Prop :=
  log.lh.length + count ≤ logsize ∧ log.lh.length + count < log.size ∧ 1 ≤ log.outstanding

def Fs.logged (st : Fs) (b : Nat) (data : Block) : Fs :=
  { st with cache := upd st.cache b data, log := { st.log with lh := absorb b st.log.lh } }

def Superblock.taken (sb : Superblock) (st : Fs) (b : Nat) : Fs :=
  (st.logged (sb.bblock b) (setBit (st.cache (sb.bblock b)) (b % bpb))).logged b Buf.zero

def Superblock.freed (sb : Superblock) (st : Fs) (b : Nat) : Fs :=
  st.logged (sb.bblock b) (clearBit (st.cache (sb.bblock b)) (b % bpb))

section

variable {sb : Superblock} {st : Fs} {b : Nat} {data : Block}

theorem logged_run {β : Type} {r : β} (st : Fs) (b : Nat) (f : Block → Mem → Sec Mem β) (count : Nat)
    (sec : f (st.cache b) st.mem = .logged r data st.mem) (room : st.log.Room (count + 1)) :
    (Prog.lift (.buf b f) : FsM β).run Op.exec st = .ok r (st.logged b data) ∧ (st.logged b data).log.Room count := by
  obtain ⟨short, fits, inside⟩ := room
  have grows := absorb_length b st.log.lh
  have done : st.logWrite b data = .ok () (st.logged b data) :=
    (log_write_ok st _ b data).mpr ⟨by omega, by omega, inside, rfl⟩
  have done' : ({ st with mem := st.mem } : Fs).logWrite b data = .ok () (st.logged b data) := done
  refine ⟨?_, ?_, ?_, inside⟩
  · rw [Prog.run_lift, Op.exec, sec, Sys.onBuf, done']
  · show (absorb b st.log.lh).length + count ≤ logsize
    omega
  · show (absorb b st.log.lh).length + count < st.log.size
    omega

theorem findFree_some {bi left r : Nat} (low : bi ≤ r) (inside : r < bi + left) (clear : bitSet data r = false)
    (least : ∀ i, bi ≤ i → i < r → bitSet data i = true) : findFree data bi left = some r := by
  induction left generalizing bi with
  | zero => omega
  | succ left ih =>
    rw [findFree]
    by_cases here : bi = r
    · rw [here, clear, if_neg Bool.false_ne_true]
    · rw [if_pos (least bi (Nat.le_refl _) (by omega))]
      exact ih (by omega) (by omega) fun i later => least i (by omega)

theorem findFree_none {bi left : Nat} (full : ∀ i, bi ≤ i → i < bi + left → bitSet data i = true) : findFree data bi left = none := by
  induction left generalizing bi with
  | zero => rfl
  | succ left ih =>
    rw [findFree, if_pos (full bi (Nat.le_refl _) (by omega))]
    exact ih fun i low inside => full i (by omega) (by omega)

theorem bblock_add {i bi : Nat} (inside : bi < bpb) : sb.bblock (bpb * i + bi) = sb.bblock (bpb * i) := by
  unfold Superblock.bblock
  rw [Nat.mul_add_div (by decide), Nat.div_eq_of_lt inside, Nat.mul_div_cancel_left _ (by decide), Nat.add_zero]

theorem bitAt_add {img : Nat → Block} {i bi : Nat} (inside : bi < bpb) :
    sb.bitAt img (bpb * i + bi) = bitSet (img (sb.bblock (bpb * i))) bi := by
  rw [Superblock.bitAt, bblock_add inside, Nat.mul_add_mod, Nat.mod_eq_of_lt inside]

def takeFree (n : Nat) (data : Block) (m : Mem) : Sec Mem (Option Nat) :=
  match findFree data 0 n with
  | some bi => .logged (some bi) (setBit data bi) m
  | none => .keep none m

theorem ballocFrom_next {left i : Nat} (full : ∀ c, bpb * i ≤ c → c < min (bpb * i + bpb) sb.size → sb.bitAt st.cache c = true) :
    (ballocFrom sb (bpb * i) (left + 1)).run Op.exec st = (ballocFrom sb (bpb * (i + 1)) left).run Op.exec st := by
  have none_ : findFree (st.cache (sb.bblock (bpb * i))) 0 (min bpb (sb.size - bpb * i)) = none := by
    refine findFree_none fun bi _ inside => ?_
    have set := full (bpb * i + bi) (Nat.le_add_right _ _) (by omega)
    rw [bitAt_add (by omega)] at set
    exact set
  have kept : (Prog.lift (.buf (sb.bblock (bpb * i)) (takeFree (min bpb (sb.size - bpb * i)))) : FsM (Option Nat)).run Op.exec st =
      .ok none st := by
    rw [Prog.run_lift, Op.exec, takeFree, none_]
    rfl
  rw [ballocFrom]
  exact Prog.run_bind _ kept _

theorem ballocFrom_out (left i : Nat) (full : ∀ c < sb.size, sb.bitAt st.cache c = true) :
    (ballocFrom sb (bpb * i) left).run Op.exec st = .panic "balloc: out of blocks" := by
  induction left generalizing i with
  | zero => rfl
  | succ left ih =>
    rw [ballocFrom_next fun c _ inside => full c (by omega)]
    exact ih (i + 1)

theorem ballocFrom_takes (inside : b < sb.size) (clear : sb.bitAt st.cache b = false) (least : ∀ c < b, sb.bitAt st.cache c = true)
    (room : st.log.Room 2) (left i : Nat) (low : bpb * i ≤ b) (enough : b < bpb * (i + left)) :
    (ballocFrom sb (bpb * i) left).run Op.exec st = .ok b (sb.taken st b) := by
  induction left generalizing i with
  | zero => exact absurd enough (Nat.not_lt.mpr low)
  | succ left ih =>
    by_cases here : b < bpb * i + bpb
    · obtain ⟨bi, rfl⟩ := Nat.exists_eq_add_of_le low
      have small : bi < bpb := by omega
      have found : findFree (st.cache (sb.bblock (bpb * i))) 0 (min bpb (sb.size - bpb * i)) = some bi := by
        refine findFree_some (Nat.zero_le _) (by omega) ?_ fun c _ less => ?_
        · rw [bitAt_add small] at clear
          exact clear
        · have set := least (bpb * i + c) (by omega)
          rw [bitAt_add (by omega)] at set
          exact set
      have marked := logged_run st (sb.bblock (bpb * i)) (takeFree (min bpb (sb.size - bpb * i))) 1 (r := some bi)
        (by rw [takeFree, found]) room
      have zeroed := logged_run _ (bpb * i + bi) (fun _ m => .logged () Buf.zero m) 0 rfl marked.2
      rw [ballocFrom, Superblock.taken, bblock_add small, Nat.mul_add_mod, Nat.mod_eq_of_lt small]
      exact (Prog.run_bind _ marked.1 _).trans (Prog.run_bind _ zeroed.1 _)
    · rw [ballocFrom_next fun c _ inside => least c (by omega)]
      exact ih (i + 1) (by rw [Nat.mul_add]; omega) (by rw [Nat.add_assoc, Nat.add_comm 1 left]; exact enough)

theorem balloc_takes (sb : Superblock) (st : Fs) (b : Nat) (inside : b < sb.size) (clear : sb.bitAt st.cache b = false)
    (least : ∀ c < b, sb.bitAt st.cache c = true) (room : st.log.Room 2) : (balloc sb).run Op.exec st = .ok b (sb.taken st b) := by
  refine ballocFrom_takes inside clear least room _ 0 (Nat.zero_le _) ?_
  unfold bpb bsize
  omega

theorem bfree_run (sb : Superblock) (st : Fs) (b : Nat) (room : st.log.Room 1) : (bfree sb b).run Op.exec st =
    if sb.bitAt st.cache b = true then .ok () (sb.freed st b) else .panic "freeing free block" := by
  unfold Superblock.bitAt
  by_cases set : bitSet (st.cache (sb.bblock b)) (b % bpb) = true
  · rw [if_pos set]
    exact (logged_run st _ _ 0 (if_pos set) room).1
  · rw [if_neg set, bfree, Prog.run_lift, Op.exec, if_neg set]
    rfl

theorem bit_same {c : Nat} (same : sb.bblock c = sb.bblock b) : c % bpb = b % bpb ↔ c = b := by
  have word : c / bpb = b / bpb := Nat.add_right_cancel same
  refine ⟨fun rest => ?_, fun here => here ▸ rfl⟩
  rw [← Nat.div_add_mod c bpb, word, rest, Nat.div_add_mod]

theorem bitAt_taken {c : Nat} (apart : sb.bblock c ≠ b) :
    sb.bitAt (sb.taken st b).cache c = true ↔ c = b ∨ sb.bitAt st.cache c = true := by
  unfold Superblock.bitAt
  show bitSet (upd (upd st.cache (sb.bblock b) _) b Buf.zero (sb.bblock c)) _ = true ↔ _
  rw [upd_ne apart]
  by_cases same : sb.bblock c = sb.bblock b
  · rw [same, upd_self, bitSet_setBit (Nat.mod_lt _ (by decide)), bit_same same]
  · rw [upd_ne same]
    exact ⟨.inr, fun either => either.resolve_left fun here => same (here ▸ rfl)⟩

theorem bitAt_freed (c : Nat) : sb.bitAt (sb.freed st b).cache c = true ↔ c ≠ b ∧ sb.bitAt st.cache c = true := by
  unfold Superblock.bitAt
  show bitSet (upd st.cache (sb.bblock b) _ (sb.bblock c)) _ = true ↔ _
  by_cases same : sb.bblock c = sb.bblock b
  · rw [same, upd_self, bitSet_clearBit (Nat.mod_lt _ (by decide)), ne_eq, bit_same same]
  · rw [upd_ne same]
    exact ⟨fun set => ⟨fun here => same (here ▸ rfl), set⟩, fun both => both.2⟩

theorem bblock_bitmap {c : Nat} (inside : c < sb.size) : sb.isBitmap (sb.bblock c) := by
  have most := Nat.div_le_div_right (c := bpb) (Nat.le_of_lt inside)
  refine ⟨Nat.le_add_left _ _, ?_⟩
  unfold Superblock.bblock Superblock.nmeta
  omega

theorem least_free (sb : Superblock) (img : Nat → Block) : (∀ c < sb.size, sb.bitAt img c = true) ∨
    ∃ b < sb.size, sb.bitAt img b = false ∧ ∀ c < b, sb.bitAt img c = true := by
  by_cases full : ∀ c < sb.size, sb.bitAt img c = true
  · exact .inl full
  · have some_ : ∃ b, b < sb.size ∧ sb.bitAt img b = false := by
      obtain ⟨b, rest⟩ := not_forall.mp full
      obtain ⟨inside, clear⟩ := Classical.not_imp.mp rest
      exact ⟨b, inside, Bool.not_eq_true _ ▸ clear⟩
    obtain ⟨inside, clear⟩ := Nat.find_spec some_
    refine .inr ⟨Nat.find some_, inside, clear, fun c less => ?_⟩
    have before := Nat.find_min some_ less
    by_contra unset
    exact before ⟨by omega, Bool.not_eq_true _ ▸ unset⟩

structure Allocates (sb : Superblock) (st : Fs) (b : Nat) (st' : Fs) : Prop where
  inside : b < sb.size
  clear : sb.bitAt st.cache b = false
  least : ∀ c < b, sb.bitAt st.cache c = true
  zeroed : st'.cache b = Buf.zero
  others : ∀ c, c ≠ b → c ≠ sb.bblock b → st'.cache c = st.cache c
  bits : ¬ sb.isBitmap b → ∀ c, sb.isBitmap (sb.bblock c) → (sb.bitAt st'.cache c = true ↔ c = b ∨ sb.bitAt st.cache c = true)
  insertion : ¬ sb.isBitmap b → sb.used st'.cache = insert b (sb.used st.cache)

structure Frees (sb : Superblock) (st : Fs) (b : Nat) (st' : Fs) : Prop where
  bits : ∀ c, sb.bitAt st'.cache c = true ↔ c ≠ b ∧ sb.bitAt st.cache c = true
  others : ∀ c, c ≠ sb.bblock b → st'.cache c = st.cache c
  removal : sb.used st'.cache = sb.used st.cache \ {b}

theorem taken_allocates (inside : b < sb.size) (clear : sb.bitAt st.cache b = false) (least : ∀ c < b, sb.bitAt st.cache c = true) :
    Allocates sb st b (sb.taken st b) := by
  have bits : ¬ sb.isBitmap b → ∀ c, sb.isBitmap (sb.bblock c) →
      (sb.bitAt (sb.taken st b).cache c = true ↔ c = b ∨ sb.bitAt st.cache c = true) :=
    fun data c bitmap => bitAt_taken fun here => data (here ▸ bitmap)
  refine ⟨inside, clear, least, upd_self _ _ _, fun c other away => ?_, bits, fun data => ?_⟩
  · show upd (upd st.cache (sb.bblock b) _) b Buf.zero c = _
    rw [upd_ne other, upd_ne away]
  · ext c
    constructor
    · rintro ⟨small, set⟩
      exact ((bits data c (bblock_bitmap small)).mp set).imp_right fun old => ⟨small, old⟩
    · rintro (rfl | ⟨small, old⟩)
      · exact ⟨inside, (bits data c (bblock_bitmap inside)).mpr (.inl rfl)⟩
      · exact ⟨small, (bits data c (bblock_bitmap small)).mpr (.inr old)⟩

theorem freed_frees : Frees sb st b (sb.freed st b) := by
  refine ⟨bitAt_freed, fun c away => upd_ne away, ?_⟩
  ext c
  constructor
  · rintro ⟨small, set⟩
    obtain ⟨other, old⟩ := (bitAt_freed c).mp set
    exact ⟨⟨small, old⟩, other⟩
  · rintro ⟨⟨small, old⟩, other⟩
    exact ⟨small, (bitAt_freed c).mpr ⟨other, old⟩⟩

def inTransaction (count : Nat) : Fs :=
  { boot (fun b => if b = mkfsSuperblock.bmapstart then usedBits count else Buf.zero) with
    log := { start := 2, size := mkfsNlog, outstanding := 1, committing := false, lh := [] } }

end

end Xv6
