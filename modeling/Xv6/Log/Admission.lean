import Mathlib.Algebra.BigOperators.Group.Finset.Basic
import Mathlib.Algebra.Order.BigOperators.Group.Finset
import Xv6.Log.Group

set_option autoImplicit false

namespace Xv6

theorem absorb_length_mem (b : Nat) (l : List Nat) (member : b ∈ l) : (absorb b l).length = l.length := by
  induction l with
  | nil => cases member
  | cons y rest ih =>
    by_cases same : y = b
    · simp [absorb, same]
    · have tail : b ∈ rest := by
        rcases List.mem_cons.mp member with head | tail
        · exact absurd head.symm same
        · exact tail
      simp [absorb, same, ih tail]

section

variable {M N : Type}

def SmallTransactions (_ : Nat) (_ : Unit) (prog : KProg M N Unit) : Prop :=
  ∃ ws : List (Nat × (Block → Block)), prog = transaction ws ∧ (ws.map Prod.fst).toFinset.card ≤ maxopblocks

def Op.isBegin {β : Type} : Op M N β → Bool
  | .beginOp => true
  | _ => false

-- The reservations, this operation's included, leave two of the log's blocks unused.
def Roomy (e : Event (Op M N) (Sys M)) : Prop :=
  e.act.isBegin = true →
    (e.pre.log.lh.length : Int) + (e.pre.log.outstanding + 1) * maxopblocks + 2 ≤ e.pre.log.size

abbrev Written : Type := Option (Finset Nat)

def reserved (w : Written) : Nat := maxopblocks - (w.getD ∅).card

-- What the admitted operations may still add fits in the log, two blocks to spare.
structure Reserved (size : Nat) (s : Sys M) (written : Nat → Written) : Prop where
  sameSize : s.log.size = size
  listed : ∀ p w, written p = some w → ∀ b ∈ w, b ∈ s.log.lh
  fits : ∃ insiders : Finset Nat, (∀ p, p ∈ insiders ↔ written p ≠ none) ∧ s.log.outstanding = insiders.card ∧
    s.log.lh.length + ∑ p ∈ insiders, reserved (written p) + 2 ≤ size

theorem reserved_begin (size : Nat) (s next : Sys M) (written : Nat → Written) (p : Nat)
    (inv : Reserved size s written) (out : written p = none) (started : s.beginOp = .ok () next)
    (roomy : (s.log.lh.length : Int) + (s.log.outstanding + 1) * maxopblocks + 2 ≤ s.log.size) :
    Reserved size next (upd written p (some ∅)) := by
  obtain ⟨-, rfl⟩ := begin_op_ok s next started
  obtain ⟨insiders, iff, count, -⟩ := inv.fits
  have absent : p ∉ insiders := by
    rw [iff]
    simp [out]
  refine ⟨inv.sameSize, ?_, insert p insiders, ?_, ?_, ?_⟩
  · intro q w found b member
    by_cases same : q = p
    · subst same
      simp only [upd_self, Option.some.injEq] at found
      simp [← found] at member
    · rw [upd_ne same] at found
      exact inv.listed q w found b member
  · intro q
    rw [Finset.mem_insert, iff]
    by_cases same : q = p
    · subst same
      simp
    · simp [same, upd_ne same]
  · rw [Finset.card_insert_of_notMem absent]
    show s.log.outstanding + 1 = _
    rw [count]
    simp
  · have each : ∑ q ∈ insert p insiders, reserved (upd written p (some ∅) q) ≤ (insert p insiders).card * maxopblocks := by
      have bound := Finset.sum_le_card_nsmul (insert p insiders) (fun q => reserved (upd written p (some ∅) q)) maxopblocks
        (fun q _ => Nat.sub_le _ _)
      simpa using bound
    rw [Finset.card_insert_of_notMem absent] at each
    show s.log.lh.length + _ + 2 ≤ size
    rw [← inv.sameSize]
    simp only [maxopblocks] at each roomy ⊢
    omega

theorem reserved_sum_split (insiders : Finset Nat) (written : Nat → Written) (p : Nat) (w : Written)
    (member : p ∈ insiders) :
    ∑ q ∈ insiders, reserved (upd written p w q) = reserved w + ∑ q ∈ insiders.erase p, reserved (written q) := by
  rw [← Finset.add_sum_erase _ _ member, upd_self]
  congr 1
  apply Finset.sum_congr rfl
  intro q inside
  rw [upd_ne (Finset.ne_of_mem_erase inside)]

theorem reserved_write (size : Nat) (s next : Sys M) (written : Nat → Written) (p b : Nat) (data : Block) (w : Finset Nat)
    (inv : Reserved size s written) (own : written p = some w) (small : (insert b w).card ≤ maxopblocks)
    (logged : s.logWrite b data = .ok () next) : Reserved size next (upd written p (some (insert b w))) := by
  obtain ⟨-, -, -, rfl⟩ := (log_write_ok s next b data).mp logged
  obtain ⟨insiders, iff, count, fits⟩ := inv.fits
  have member : p ∈ insiders := by
    rw [iff]
    simp [own]
  refine ⟨inv.sameSize, ?_, insiders, ?_, count, ?_⟩
  · intro q v found c inside
    show c ∈ absorb b s.log.lh
    rw [mem_absorb]
    by_cases same : q = p
    · subst same
      simp only [upd_self, Option.some.injEq] at found
      rw [← found, Finset.mem_insert] at inside
      exact inside.imp_right (inv.listed q w own c)
    · rw [upd_ne same] at found
      exact Or.inr (inv.listed q v found c inside)
  · intro q
    rw [iff]
    by_cases same : q = p
    · subst same
      simp [own]
    · rw [upd_ne same]
  · show (absorb b s.log.lh).length + _ + 2 ≤ size
    have before := reserved_sum_split insiders written p (written p) member
    rw [upd_same, own] at before
    rw [reserved_sum_split insiders written p _ member]
    rw [before] at fits
    by_cases again : b ∈ w
    · rw [Finset.insert_eq_of_mem again, absorb_length_mem b _ (inv.listed p w own b again)]
      exact fits
    · have grows := absorb_length b s.log.lh
      simp only [reserved, Option.getD_some, Finset.card_insert_of_notMem again] at fits small ⊢
      omega

theorem reserved_leave (size : Nat) (s next : Sys M) (written : Nat → Written) (p : Nat) (r : Bool) (w : Finset Nat)
    (inv : Reserved size s written) (own : written p = some w) (ended : s.endOp = .ok r next) :
    Reserved size next (upd written p none) := by
  obtain ⟨-, -, rfl⟩ := end_op_ok s next r ended
  obtain ⟨insiders, iff, count, fits⟩ := inv.fits
  have member : p ∈ insiders := by
    rw [iff]
    simp [own]
  refine ⟨inv.sameSize, ?_, insiders.erase p, ?_, ?_, ?_⟩
  · intro q v found
    by_cases same : q = p
    · subst same
      simp at found
    · rw [upd_ne same] at found
      exact inv.listed q v found
  · intro q
    rw [Finset.mem_erase, iff]
    by_cases same : q = p
    · subst same
      simp
    · simp [same, upd_ne same]
  · have positive := Finset.card_pos.mpr ⟨p, member⟩
    rw [Finset.card_erase_of_mem member]
    show s.log.outstanding - 1 = _
    rw [count]
    omega
  · have before := reserved_sum_split insiders written p (written p) member
    have rest : ∑ q ∈ insiders.erase p, reserved (upd written p none q) = ∑ q ∈ insiders.erase p, reserved (written q) := by
      apply Finset.sum_congr rfl
      intro q inside
      rw [upd_ne (Finset.ne_of_mem_erase inside)]
    rw [upd_same] at before
    rw [rest]
    show s.log.lh.length + _ + 2 ≤ size
    omega

inductive Reservation where
  | idle
  | inside (w : Finset Nat)
  | busy

def Reservation.written : Reservation → Written
  | .inside w => some w
  | _ => none

structure Admitted (size : Nat) (s : Sys M) (ghosts : Nat → Reservation) : Prop where
  reserved : Reserved size s (fun p => (ghosts p).written)
  alone : s.log.committing = true → ∀ p, (ghosts p).written = none
  busy : ∀ p, ghosts p = .busy → s.log.committing = true
  only : ∀ p q, ghosts p = .busy → ghosts q = .busy → p = q

theorem written_upd (ghosts : Nat → Reservation) (p : Nat) (g : Reservation) :
    (fun q => (upd ghosts p g q).written) = upd (fun q => (ghosts q).written) p g.written := by
  funext q
  by_cases same : q = p
  · subst same
    simp
  · rw [upd_ne same, upd_ne same]

theorem busy_upd (ghosts : Nat → Reservation) (p q : Nat) (g : Reservation) (calm : g ≠ .busy)
    (busy : upd ghosts p g q = .busy) : ghosts q = .busy := by
  by_cases same : q = p
  · subst same
    rw [upd_self] at busy
    exact absurd busy calm
  · rwa [upd_ne same] at busy

theorem admitted_begin (size : Nat) (s next : Sys M) (ghosts : Nat → Reservation) (p : Nat)
    (inv : Admitted size s ghosts) (idle : ghosts p = .idle) (started : s.beginOp = .ok () next)
    (roomy : (s.log.lh.length : Int) + (s.log.outstanding + 1) * maxopblocks + 2 ≤ s.log.size) :
    Admitted size next (upd ghosts p (.inside ∅)) := by
  have kept := reserved_begin size s next _ p inv.reserved (by simp [idle, Reservation.written]) started roomy
  obtain ⟨⟨open_, -⟩, rfl⟩ := begin_op_ok s next started
  refine ⟨?_, ?_, ?_, ?_⟩
  · rw [written_upd]
    exact kept
  · intro committing
    have now : s.log.committing = true := committing
    rw [open_] at now
    cases now
  · intro q busy
    exact inv.busy q (busy_upd ghosts p q _ (by simp) busy)
  · intro q r busyQ busyR
    exact inv.only q r (busy_upd ghosts p q _ (by simp) busyQ) (busy_upd ghosts p r _ (by simp) busyR)

theorem admitted_write (size : Nat) (s next : Sys M) (ghosts : Nat → Reservation) (p b : Nat) (data : Block)
    (w : Finset Nat) (inv : Admitted size s ghosts) (own : ghosts p = .inside w)
    (small : (insert b w).card ≤ maxopblocks) (logged : s.logWrite b data = .ok () next) :
    Admitted size next (upd ghosts p (.inside (insert b w))) := by
  have kept := reserved_write size s next _ p b data w inv.reserved (by simp [own, Reservation.written]) small logged
  obtain ⟨-, -, -, rfl⟩ := (log_write_ok s next b data).mp logged
  refine ⟨?_, ?_, ?_, ?_⟩
  · rw [written_upd]
    exact kept
  · intro committing
    have none := inv.alone committing p
    simp [own, Reservation.written] at none
  · intro q busy
    exact inv.busy q (busy_upd ghosts p q _ (by simp) busy)
  · intro q r busyQ busyR
    exact inv.only q r (busy_upd ghosts p q _ (by simp) busyQ) (busy_upd ghosts p r _ (by simp) busyR)

theorem admitted_end (size : Nat) (s next : Sys M) (ghosts : Nat → Reservation) (p : Nat) (r : Bool) (w : Finset Nat)
    (inv : Admitted size s ghosts) (own : ghosts p = .inside w) (ended : s.endOp = .ok r next) :
    Admitted size next (upd ghosts p (if r then .busy else .idle)) := by
  have kept := reserved_leave size s next _ p r w inv.reserved (by simp [own, Reservation.written]) ended
  obtain ⟨open_, last, rfl⟩ := end_op_ok s next r ended
  have none (q : Nat) : ghosts q ≠ .busy := by
    intro busy
    rw [inv.busy q busy] at open_
    cases open_
  have shape : (if r then Reservation.busy else .idle).written = Option.none := by cases r <;> rfl
  rw [← shape, ← written_upd] at kept
  refine ⟨kept, ?_, ?_, ?_⟩
  · intro committing q
    obtain ⟨insiders, iff, count, -⟩ := kept.fits
    have committed : r = true := committing
    have empty : insiders = ∅ := by
      apply Finset.card_eq_zero.mp
      have zero : s.log.outstanding - 1 = 0 := by simpa [committed] using last
      have same : s.log.outstanding - 1 = insiders.card := count
      omega
    by_contra some
    have member := (iff q).mpr some
    simp [empty] at member
  · intro q busy
    show r = true
    cases r with
    | true => rfl
    | false => exact absurd (busy_upd ghosts p q _ (by simp) busy) (none q)
  · intro q t busyQ busyT
    by_cases sameQ : q = p
    · by_cases sameT : t = p
      · rw [sameQ, sameT]
      · rw [upd_ne sameT] at busyT
        exact absurd busyT (none t)
    · rw [upd_ne sameQ] at busyQ
      exact absurd busyQ (none q)

theorem admitted_commit (size : Nat) (s next : Sys M) (ghosts : Nat → Reservation) (p : Nat)
    (inv : Admitted size s ghosts) (own : ghosts p = .busy) (sameSize : next.log.size = s.log.size)
    (sameOut : next.log.outstanding = s.log.outstanding) (sameFlag : next.log.committing = s.log.committing)
    (short : next.log.lh.length ≤ s.log.lh.length) : Admitted size next (upd ghosts p .busy) := by
  have flag := inv.busy p own
  have alone := inv.alone flag
  have same : upd ghosts p .busy = ghosts := by
    rw [← own]
    exact upd_same ghosts p
  obtain ⟨insiders, iff, count, fits⟩ := inv.reserved.fits
  rw [same]
  refine ⟨⟨sameSize.trans inv.reserved.sameSize, ?_, insiders, iff, sameOut.trans count, by omega⟩, fun _ => alone, ?_, inv.only⟩
  · intro q w found
    rw [alone q] at found
    cases found
  · intro q busy
    rw [sameFlag]
    exact flag

theorem admitted_finish (size : Nat) (s : Sys M) (ghosts : Nat → Reservation) (p : Nat)
    (inv : Admitted size s ghosts) (own : ghosts p = .busy) : Admitted size s.endCommit (upd ghosts p .idle) := by
  have none (q : Nat) (busy : upd ghosts p .idle q = .busy) : False := by
    have same := inv.only q p (busy_upd ghosts p q _ (by simp) busy) own
    rw [same, upd_self] at busy
    cases busy
  have unchanged : upd (fun q => (ghosts q).written) p Reservation.idle.written = fun q => (ghosts q).written := by
    have here : (ghosts p).written = Reservation.idle.written := by
      rw [own]
      rfl
    rw [← here]
    exact upd_same (fun q => (ghosts q).written) p
  refine ⟨?_, ?_, fun q busy => (none q busy).elim, fun q _ busy => (none q busy).elim⟩
  · rw [written_upd, unchanged]
    exact ⟨inv.reserved.sameSize, inv.reserved.listed, inv.reserved.fits⟩
  · intro committing
    cases committing

theorem small_writes_safe (size p : Nat) (ws : List (Nat × (Block → Block))) (w : Finset Nat)
    (small : (w ∪ (ws.map Prod.fst).toFinset).card ≤ maxopblocks) :
    Safe Op.exec Roomy (fun _ => Admitted size) p (fun _ g => ∃ w, g = .inside w)
      (logWrites ws : KProg M N Unit) (.inside w) := by
  induction ws generalizing w with
  | nil => exact ⟨w, rfl⟩
  | cons head rest ih =>
    obtain ⟨b, f⟩ := head
    intro trace s ghosts own inv r next executed _
    have logged := log_write_section b f s next r executed
    have all : w ∪ (((b, f) :: rest).map Prod.fst).toFinset = insert b w ∪ (rest.map Prod.fst).toFinset := by
      simp [Finset.insert_union, Finset.union_insert]
    rw [all] at small
    have fits : (insert b w).card ≤ maxopblocks := (Finset.card_le_card Finset.subset_union_left).trans small
    exact ⟨.inside (insert b w), admitted_write size s next ghosts p b _ w inv own fits logged, ih _ small⟩

theorem small_end_safe (size p : Nat) (w : Finset Nat) :
    Safe Op.exec Roomy (fun _ => Admitted size) p (fun _ g => g = .idle) (endOp : KProg M N Unit) (.inside w) := by
  intro trace s ghosts own inv r next executed _
  refine ⟨_, admitted_end size s next ghosts p r w inv own executed, ?_⟩
  cases r with
  | false => rfl
  | true =>
    show Safe Op.exec Roomy (fun _ => Admitted size) p _ (commit >>= fun _ => .lift .endCommit) Reservation.busy
    refine safe_call (commit_safe Reservation.busy Reservation.busy ?_ ?_ ?_) ?_
    · intro β act quiet g phase trace s ghosts own inv r next executed
      have sameLog := (quiet_keeps_log act quiet s next r executed).1
      rw [or_self] at phase
      rw [phase] at own ⊢
      exact admitted_commit size s next ghosts p inv own (by rw [sameLog]) (by rw [sameLog]) (by rw [sameLog]) (by rw [sameLog])
    · intro trace s ghosts own inv _
      exact admitted_commit size s s ghosts p inv own rfl rfl rfl (le_refl _)
    · intro trace s ghosts own inv
      exact admitted_commit size s s.clearLog ghosts p inv own rfl rfl rfl (Nat.zero_le _)
    · rintro _ _ rfl trace s ghosts own inv _ next executed _
      cases executed
      exact ⟨.idle, admitted_finish size s ghosts p inv own, rfl⟩

theorem small_transaction_safe (size p : Nat) (ws : List (Nat × (Block → Block)))
    (small : (ws.map Prod.fst).toFinset.card ≤ maxopblocks) :
    Safe Op.exec Roomy (fun _ => Admitted size) p (fun _ g => g = .idle) (transaction ws : KProg M N Unit) .idle := by
  intro trace s ghosts own inv r next executed roomy
  refine ⟨.inside ∅, admitted_begin size s next ghosts p inv own executed (roomy rfl), ?_⟩
  show Safe Op.exec Roomy (fun _ => Admitted size) p _ (logWrites ws >>= fun _ => endOp) (Reservation.inside ∅)
  refine safe_call (small_writes_safe size p ws ∅ (by simpa using small)) ?_
  rintro _ _ ⟨w, rfl⟩
  exact small_end_safe size p w

theorem admission_leaves_room (s : Sys M) (size : s.log.size = mkfsSuperblock.nlog) (idle : s.log.outstanding = 0)
    (open_ : s.log.committing = false) (empty : s.log.lh = []) (trace : List (Event (Op M N) (Sys M)))
    (c : Config (Op M N) (Sys M) Unit)
    (reached : Reach Op.exec SmallTransactions Roomy ⟨s, fun _ => .ret ()⟩ trace c) :
    (∀ b data, c.shared.logWrite b data ≠ .panic "too big a transaction") ∧
    ∀ i < c.shared.log.lh.length, c.shared.log.start + i + 1 ≤ c.shared.log.start + c.shared.log.size - 1 := by
  have initial : Admitted mkfsSuperblock.nlog s (fun _ => .idle) := by
    refine ⟨⟨size, ?_, ∅, ?_, ?_, ?_⟩, ?_, ?_, ?_⟩
    all_goals simp [idle, open_, empty, Reservation.written]
    decide
  have begins : ∃ ghosts, Admitted mkfsSuperblock.nlog s ghosts ∧ ∀ p, Safe Op.exec Roomy
      (fun _ => Admitted mkfsSuperblock.nlog) p (fun _ g => g = .idle) (.ret () : KProg M N Unit) (ghosts p) :=
    ⟨fun _ => .idle, initial, fun _ => rfl⟩
  have safe (p : Nat) (l : Unit) (g : Reservation) (prog : KProg M N Unit) (final : g = .idle)
      (allowed : SmallTransactions p l prog) :
      Safe Op.exec Roomy (fun _ => Admitted mkfsSuperblock.nlog) p (fun _ g => g = .idle) prog g := by
    obtain ⟨ws, rfl, small⟩ := allowed
    rw [final]
    exact small_transaction_safe _ p ws small
  obtain ⟨ghosts, inv, -⟩ := reach_invariant _ begins safe reached
  obtain ⟨_, -, -, fits⟩ := inv.reserved.fits
  have atSize : c.shared.log.size = 30 := inv.reserved.sameSize
  have bound : mkfsSuperblock.nlog = 30 := rfl
  constructor
  · intro b data
    have room : ¬ (logsize ≤ c.shared.log.lh.length ∨ (c.shared.log.size : Int) - 1 ≤ c.shared.log.lh.length) := by
      simp only [logsize, maxopblocks]
      omega
    rw [Sys.logWrite, if_neg room]
    by_cases outside : c.shared.log.outstanding < 1
    · rw [if_pos outside]
      simp
    · rw [if_neg outside]
      simp
  · intro i inside
    omega

def mkfsLogState : Sys Unit where
  cache := fun _ => Buf.zero
  disk := fun _ => Buf.zero
  log := { start := mkfsSuperblock.logstart, size := mkfsSuperblock.nlog, outstanding := 0, committing := false, lh := [] }
  mem := ()

theorem admission_leaves_room_one_write :
    ∃ trace, ∃ c : Config (Op Unit Unit) (Sys Unit) Unit,
      Reach Op.exec SmallTransactions Roomy ⟨mkfsLogState, fun _ => .ret ()⟩ trace c ∧ c.shared.log.lh = [59] ∧
      ∀ b data, c.shared.logWrite b data ≠ .panic "too big a transaction" := by
  let prog : KProg Unit Unit Unit := transaction [(59, id)]
  have called : Reach Op.exec SmallTransactions Roomy ⟨mkfsLogState, fun _ => .ret ()⟩ []
      ⟨mkfsLogState, upd (fun _ => .ret ()) 0 prog⟩ :=
    .call [] _ 0 () prog .init rfl ⟨_, rfl, by decide⟩
  have begun := Reach.step [] _ 0 .beginOp _ () _ called rfl rfl (fun _ => by decide)
  have logged := Reach.step _ _ 0 (.buf 59 fun data m => .logged () (id data) m) _ () _ begun rfl rfl nofun
  exact ⟨_, _, logged, rfl, (admission_leaves_room mkfsLogState rfl rfl rfl rfl _ _ logged).1⟩

-- Three operations of ten distinct blocks each are admitted together.
theorem admission_overfills_log :
    ∃ trace, ∃ c : Config (Op Unit Unit) (Sys Unit) Unit,
      Reach Op.exec SmallTransactions (fun _ => True) ⟨mkfsLogState, fun _ => .ret ()⟩ trace c ∧
      c.panicOf Op.exec 2 = some "too big a transaction" := by
  let prog (p : Nat) : KProg Unit Unit Unit := transaction ((List.range 10).map fun i => (100 + 10 * p + i, id))
  have small (p : Nat) : SmallTransactions p () (prog p) := by
    refine ⟨_, rfl, (List.toFinset_card_le _).trans ?_⟩
    simp
  have called0 : Reach Op.exec SmallTransactions (fun _ => True) ⟨mkfsLogState, fun _ => .ret ()⟩ []
      ⟨mkfsLogState, upd (fun _ => .ret ()) 0 (prog 0)⟩ := .call [] _ 0 () _ .init rfl (small 0)
  have called1 := Reach.call [] _ 1 () _ called0 rfl (small 1)
  have called2 := Reach.call [] _ 2 () _ called1 rfl (small 2)
  let pids : List Nat := [0, 1, 2] ++ List.replicate 10 0 ++ List.replicate 10 1 ++ List.replicate 9 2
  have full : ((⟨mkfsLogState, upd (upd (upd (fun _ => .ret ()) 0 (prog 0)) 1 (prog 1)) 2 (prog 2)⟩ :
      Config (Op Unit Unit) (Sys Unit) Unit).schedule Op.exec pids).bind (fun c => c.2.panicOf Op.exec 2) =
      some "too big a transaction" := by decide +kernel
  obtain ⟨⟨trace, c⟩, scheduled, stopped⟩ := Option.bind_eq_some_iff.mp full
  exact ⟨_, c, schedule_reach (fun _ => trivial) pids called2 scheduled, stopped⟩

end

end Xv6
