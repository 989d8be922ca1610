import Xv6.Log.Recovery

set_option autoImplicit false

namespace Xv6

theorem mem_absorb (b x : Nat) (l : List Nat) : x ∈ absorb b l ↔ x = b ∨ x ∈ l := by
  induction l with
  | nil => simp [absorb]
  | cons y rest ih =>
    by_cases same : y = b
    · simp [absorb, same]
    · simp only [absorb, if_neg same, List.mem_cons, ih]
      tauto

theorem absorb_nodup (b : Nat) (l : List Nat) (nodup : l.Nodup) : (absorb b l).Nodup := by
  induction l with
  | nil => simp [absorb]
  | cons y rest ih =>
    obtain ⟨fresh, tail⟩ := List.nodup_cons.mp nodup
    by_cases same : y = b
    · rw [absorb, if_pos same, ← same]
      exact nodup
    · rw [absorb, if_neg same, List.nodup_cons, mem_absorb]
      exact ⟨by tauto, ih tail⟩

theorem absorb_length (b : Nat) (l : List Nat) : (absorb b l).length ≤ l.length + 1 := by
  induction l with
  | nil => simp [absorb]
  | cons y rest ih =>
    by_cases same : y = b
    · simp [absorb, same]
    · simp only [absorb, if_neg same, List.length_cons]
      omega

section

variable {M N : Type}

theorem log_write_ok (s next : Sys M) (b : Nat) (data : Block) :
    s.logWrite b data = .ok () next ↔ s.log.lh.length < logsize ∧ s.log.lh.length + 1 < s.log.size ∧
      1 ≤ s.log.outstanding ∧
      next = { s with cache := upd s.cache b data, log := { s.log with lh := absorb b s.log.lh } } := by
  simp only [Sys.logWrite]
  by_cases full : logsize ≤ s.log.lh.length ∨ (s.log.size : Int) - 1 ≤ s.log.lh.length
  · rw [if_pos full]
    simp only [reduceCtorEq, false_iff]
    omega
  · rw [if_neg full]
    by_cases outside : s.log.outstanding < 1
    · rw [if_pos outside]
      simp only [reduceCtorEq, false_iff]
      omega
    · rw [if_neg outside, Res.ok.injEq]
      simp only [true_and]
      constructor
      · intro same
        exact ⟨by omega, by omega, by omega, same.symm⟩
      · intro ok
        exact ok.2.2.2.symm

theorem begin_op_ok (s next : Sys M) (started : s.beginOp = .ok () next) :
    (s.log.committing = false ∧ (s.log.lh.length : Int) + (s.log.outstanding + 1) * maxopblocks ≤ logsize) ∧
      next = s.setLog { s.log with outstanding := s.log.outstanding + 1 } := by
  simp only [Sys.beginOp] at started
  by_cases committing : s.log.committing = true
  · simp [committing] at started
  · rw [if_neg committing] at started
    by_cases full : (s.log.lh.length : Int) + (s.log.outstanding + 1) * maxopblocks > logsize
    · rw [if_pos full] at started
      cases started
    · rw [if_neg full, Res.ok.injEq] at started
      exact ⟨⟨by simpa using committing, by omega⟩, started.2.symm⟩

theorem end_op_ok (s next : Sys M) (r : Bool) (ended : s.endOp = .ok r next) :
    s.log.committing = false ∧ (if r then s.log.outstanding - 1 = 0 else s.log.outstanding - 1 ≠ 0) ∧
      next = s.setLog { s.log with outstanding := s.log.outstanding - 1, committing := r } := by
  simp only [Sys.endOp] at ended
  by_cases committing : s.log.committing = true
  · simp [committing] at ended
  · rw [if_neg committing] at ended
    have open_ : s.log.committing = false := by simpa using committing
    by_cases last : s.log.outstanding - 1 = 0
    · rw [if_pos last, Res.ok.injEq] at ended
      obtain ⟨rfl, rfl⟩ := ended
      exact ⟨open_, by simpa using last, rfl⟩
    · rw [if_neg last, Res.ok.injEq] at ended
      obtain ⟨rfl, rfl⟩ := ended
      refine ⟨open_, by simpa using last, ?_⟩
      rw [← open_]

theorem on_buf_ok {β : Type} (s next : Sys M) (b : Nat) (sec : Sec M β) (r : β) (executed : s.onBuf b sec = .ok r next) :
    (∃ m, sec = .keep r m ∧ next = { s with mem := m }) ∨
    (∃ data m, sec = .logged r data m ∧ ({ s with mem := m } : Sys M).logWrite b data = .ok () next) ∨
    (∃ data m, sec = .written r data m ∧ next = ({ s with mem := m } : Sys M).bwrite b data) := by
  cases sec with
  | keep r' m =>
    simp only [Sys.onBuf, Res.ok.injEq] at executed
    obtain ⟨rfl, rfl⟩ := executed
    exact Or.inl ⟨m, rfl, rfl⟩
  | logged r' data m =>
    simp only [Sys.onBuf] at executed
    cases outcome : ({ s with mem := m } : Sys M).logWrite b data with
    | ok u t =>
      simp only [outcome, Res.ok.injEq] at executed
      obtain ⟨rfl, rfl⟩ := executed
      exact Or.inr (Or.inl ⟨data, m, rfl, outcome⟩)
    | panic msg => simp [outcome] at executed
    | blocked => simp [outcome] at executed
  | written r' data m =>
    simp only [Sys.onBuf, Res.ok.injEq] at executed
    obtain ⟨rfl, rfl⟩ := executed
    exact Or.inr (Or.inr ⟨data, m, rfl, rfl⟩)
  | panic msg => simp [Sys.onBuf] at executed

theorem on_mem_ok {β : Type} (s next : Sys M) (res : Res M β) (r : β) (executed : s.onMem res = .ok r next) :
    ∃ m, res = .ok r m ∧ next = { s with mem := m } := by
  cases res with
  | ok r' m =>
    simp only [Sys.onMem, Res.ok.injEq] at executed
    obtain ⟨rfl, rfl⟩ := executed
    exact ⟨m, rfl, rfl⟩
  | panic msg => simp [Sys.onMem] at executed
  | blocked => simp [Sys.onMem] at executed

theorem on_mem_panic {β : Type} {s : Sys M} {res : Res M β} {msg : String} (stopped : s.onMem res = .panic msg) : res = .panic msg := by
  cases res with
  | panic msg' =>
    cases stopped
    rfl
  | _ => cases stopped

theorem log_write_panic {s : Sys M} {b : Nat} {data : Block} {msg : String} (stopped : s.logWrite b data = .panic msg) :
    msg = "too big a transaction" ∧ (logsize ≤ s.log.lh.length ∨ s.log.size ≤ s.log.lh.length + 1) ∨
      msg = "log_write outside of trans" ∧ s.log.outstanding < 1 := by
  unfold Sys.logWrite at stopped
  split at stopped
  case isTrue full =>
    cases stopped
    exact .inl ⟨rfl, by omega⟩
  case isFalse =>
    split at stopped
    case isTrue outside =>
      cases stopped
      exact .inr ⟨rfl, outside⟩
    case isFalse => cases stopped

theorem on_buf_panic {β : Type} {s : Sys M} {b : Nat} {sec : Sec M β} {msg : String} (stopped : s.onBuf b sec = .panic msg) :
    sec = .panic msg ∨ ∃ r data m, sec = .logged r data m ∧ ({ s with mem := m } : Sys M).logWrite b data = .panic msg := by
  cases sec with
  | panic msg' =>
    cases stopped
    exact .inl rfl
  | logged r data m =>
    refine .inr ⟨r, data, m, rfl, ?_⟩
    unfold Sys.onBuf at stopped
    cases outcome : ({ s with mem := m } : Sys M).logWrite b data with
    | panic msg' =>
      simp only [outcome, Res.panic.injEq] at stopped
      rw [stopped]
    | _ => simp [outcome] at stopped
  | _ => cases stopped

def logWrites : List (Nat × (Block → Block)) → KProg M N Unit
  | [] => pure ()
  | (b, f) :: rest => do
    .lift (.buf b fun data m => .logged () (f data) m)
    logWrites rest

theorem log_write_section (b : Nat) (f : Block → Block) (s next : Sys M) (r : Unit)
    (executed : (Op.buf b fun data m => .logged () (f data) m : Op M N Unit).exec s = .ok r next) :
    s.logWrite b (f (s.cache b)) = .ok () next := by
  simp only [Op.exec, Sys.onBuf] at executed
  cases outcome : s.logWrite b (f (s.cache b)) with
  | ok u t =>
    rw [outcome] at executed
    exact executed
  | panic msg => simp [outcome] at executed
  | blocked => simp [outcome] at executed

def applyWrites (d : Nat → Block) : List (Nat × (Block → Block)) → Nat → Block
  | [] => d
  | (b, f) :: rest => applyWrites (upd d b (f (d b))) rest

theorem apply_writes_other (d : Nat → Block) (ws : List (Nat × (Block → Block))) (b : Nat)
    (other : b ∉ ws.map Prod.fst) : applyWrites d ws b = d b := by
  induction ws generalizing d with
  | nil => rfl
  | cons w rest ih =>
    simp only [List.map_cons, List.mem_cons, not_or] at other
    rw [applyWrites, ih _ other.2, upd_ne other.1]

theorem copying_log_write (s next : Sys M) (old : Nat → Block) (b : Nat) (data : Block) (copying : Copying s old 0)
    (home : Home s.log.start s.log.size b) (logged : s.logWrite b data = .ok () next) : Copying next old 0 := by
  obtain ⟨short, room, -, rfl⟩ := (log_write_ok s next b data).mp logged
  have grows := absorb_length b s.log.lh
  refine ⟨copying.settled, ?_, ?_, ?_, ?_, by simp⟩
  · show (absorb b s.log.lh).length ≤ logsize
    omega
  · show (absorb b s.log.lh).length < s.log.size
    omega
  · intro c member
    rcases (mem_absorb b c s.log.lh).mp member with rfl | old
    · exact home
    · exact copying.home c old
  · intro c homeC outside
    have other : ¬ (c = b ∨ c ∈ s.log.lh) := fun member => outside ((mem_absorb b c s.log.lh).mpr member)
    show upd s.cache b data c = s.disk c
    rw [upd_ne (fun same => other (Or.inl same))]
    exact copying.clean c homeC (fun member => other (Or.inr member))

theorem log_writes_spec (ws : List (Nat × (Block → Block))) (s t : Sys M) (old : Nat → Block)
    (copying : Copying s old 0) (home : ∀ w ∈ ws, Home s.log.start s.log.size w.1)
    (made : (logWrites ws : KProg M N Unit).run Op.exec s = .ok () t) :
    Copying t old 0 ∧ t.cache = applyWrites s.cache ws ∧ t.log.start = s.log.start ∧ t.log.size = s.log.size := by
  induction ws generalizing s with
  | nil =>
    cases made
    exact ⟨copying, rfl, rfl, rfl⟩
  | cons w rest ih =>
    obtain ⟨b, f⟩ := w
    obtain ⟨_, next, first, made⟩ := (Prog.run_bind_ok Op.exec _ _ _ _ _).mp made
    rw [Prog.run_lift] at first
    have logged := log_write_section b f s next _ first
    have kept := copying_log_write s next old b _ copying (home (b, f) (by simp)) logged
    obtain ⟨-, -, -, rfl⟩ := (log_write_ok s next b _).mp logged
    exact ih _ kept (fun w member => home w (by simp [member])) made

def Op.isWriteHead {β : Type} : Op M N β → Bool
  | .writeHead => true
  | _ => false

def HeaderWritten (trace : List (Event (Op M N) (Sys M))) : Prop := ∃ e ∈ trace, e.act.isWriteHead = true

theorem header_written_append (trace : List (Event (Op M N) (Sys M))) (e : Event (Op M N) (Sys M))
    (other : e.act.isWriteHead = false) (before : ¬ HeaderWritten trace) : ¬ HeaderWritten (trace ++ [e]) := by
  rintro ⟨x, member, head⟩
  rcases List.mem_append.mp member with old | new
  · exact before ⟨x, old, head⟩
  · rw [List.mem_singleton.mp new, other] at head
    cases head

theorem installing_congr (s : Sys M) (v w : Nat → Block) (t : Nat) (installing : Installing s v t)
    (bound : t ≤ s.log.lh.length) (same : ∀ b, Home s.log.start s.log.size b → v b = w b) : Installing s w t := by
  have listed (i : Nat) (inside : i < s.log.lh.length) : v (s.log.lh.getD i 0) = w (s.log.lh.getD i 0) := by
    apply same
    apply installing.rep.home
    rw [installing.listed]
    exact getD_mem _ i inside
  refine ⟨represents_congr _ _ _ _ _ installing.rep same, installing.listed, ?_, ?_⟩
  · intro i inside
    rw [installing.logged i inside, listed i inside]
  · intro i before
    rw [installing.done i before, listed i (by omega)]

-- Until its first write_head recovery restores the old contents, from then on the cache's.
theorem commit_along (pid : Nat) (t : Sys M) (old : Nat → Block) (copying : Copying t old 0) :
    (commit : KProg M N Unit).Along Op.exec pid
      (fun trace s => Represents t.log.start t.log.size s.disk t.cache ∨
        Represents t.log.start t.log.size s.disk old ∧ ¬ HeaderWritten trace)
      (fun _ _ last => Settled t.log.start t.log.size last.disk t.cache) [] t := by
  have unwritten : ¬ HeaderWritten ([] : List (Event (Op M N) (Sys M))) := by simp [HeaderWritten]
  have rep := settled_represents _ _ _ _ copying.settled
  refine ⟨Or.inr ⟨rep, unwritten⟩, ?_⟩
  intro n same counted
  cases counted
  have unwritten := header_written_append _ ⟨pid, .lhN, t.log.lh.length, t, t⟩ rfl unwritten
  by_cases some : t.log.lh.length > 0
  · show Prog.Along Op.exec pid _ _ (if t.log.lh.length > 0 then _ else _) _ t
    rw [if_pos some]
    apply Prog.along_bind
    refine ⟨Or.inr ⟨rep, unwritten⟩, ?_⟩
    intro n same counted
    cases counted
    have unwritten := header_written_append _ ⟨pid, .lhN, t.log.lh.length, t, t⟩ rfl unwritten
    refine Prog.along_mono (Prog.along_loop Op.writeLog t.log.lh.length (fun i trace s => Copying s old i ∧ s.log = t.log ∧
      (∀ b, Home t.log.start t.log.size b → s.cache b = t.cache b) ∧ ¬ HeaderWritten trace)
      ?_ ?_ 0 _ (Nat.zero_add _) _ t ⟨copying, rfl, fun _ _ => rfl, unwritten⟩) ?_
    · intro i trace s inv
      have settled := inv.1.settled
      rw [inv.2.1] at settled
      exact Or.inr ⟨settled_represents _ _ _ _ settled, inv.2.2.2⟩
    · intro i trace s next bound inv executed
      cases executed
      obtain ⟨now, sameLog, sameCache, none⟩ := inv
      have room := now.room
      have listed : i < s.log.lh.length := sameLog ▸ bound
      refine ⟨copying_write_log s old i now listed, sameLog, ?_, header_written_append _ _ rfl none⟩
      intro b home
      rw [← sameCache b home]
      rw [← sameLog] at home
      exact upd_ne (home_ne_log _ _ b i home (by omega))
    · intro _ trace s inv
      obtain ⟨now, sameLog, sameCache, none⟩ := inv
      have settled := now.settled
      have installing := copying_write_head s old (sameLog ▸ now)
      rw [sameLog] at settled
      refine ⟨Or.inr ⟨settled_represents _ _ _ _ settled, none⟩, ?_⟩
      intro _ next executed
      cases executed
      refine install_and_clear_along _ _ t.cache (fun _ _ now => Or.inl now) _ _ (congrArg Log.start sameLog)
        (congrArg Log.size sameLog) (installing_congr _ _ _ 0 installing (Nat.zero_le _) ?_)
      intro b home
      apply sameCache
      rw [← sameLog]
      exact home
  · have empty : t.log.lh = [] := List.length_eq_zero_iff.mp (by omega)
    have settled : Settled t.log.start t.log.size t.disk t.cache := by
      refine ⟨copying.settled.room, copying.settled.empty, ?_⟩
      intro b home
      exact (copying.clean b home (by simp [empty])).symm
    show Prog.Along Op.exec pid _ _ (if t.log.lh.length > 0 then _ else _) _ t
    rw [if_neg some]
    exact ⟨Or.inr ⟨rep, unwritten⟩, settled⟩

theorem crash_in_commit_recovers (pid : Nat) (s t crashed : Sys M) (ws : List (Nat × (Block → Block)))
    (trace : List (Event (Op M N) (Sys M))) (last : Nat → Block) (room : 0 < s.log.size)
    (empty : (s.disk s.log.start).getLE 0 4 = 0) (fresh : s.log.lh = []) (clean : s.cache = s.disk)
    (home : ∀ w ∈ ws, Home s.log.start s.log.size w.1)
    (made : (logWrites ws : KProg M N Unit).run Op.exec s = .ok () t)
    (stopped : (commit : KProg M N Unit).Stops Op.exec pid t trace crashed)
    (recovered : Recovers M N s.log.start s.log.size crashed.disk last) :
    ((∀ b, Home s.log.start s.log.size b → last b = s.disk b) ∨
      (∀ b, Home s.log.start s.log.size b → last b = applyWrites s.disk ws b)) ∧
    (HeaderWritten trace → ∀ b, Home s.log.start s.log.size b → last b = applyWrites s.disk ws b) ∧
    (∀ b, Home s.log.start s.log.size b → b ∉ ws.map Prod.fst → last b = s.disk b) ∧
    (last s.log.start).getLE 0 4 = 0 := by
  have begins : Copying s s.disk 0 := by
    refine ⟨⟨room, empty, fun _ _ => rfl⟩, ?_, ?_, ?_, ?_, by simp⟩
    · simp [fresh]
    · simpa [fresh] using room
    · simp [fresh]
    · intro b _ _
      rw [clean]
  obtain ⟨copying, contents, sameStart, sameSize⟩ := log_writes_spec ws s t s.disk begins home made
  rw [clean] at contents
  have cut := Prog.along_stops (commit_along pid t s.disk copying) stopped
  rw [contents, sameStart, sameSize, List.nil_append] at cut
  rcases cut with new | ⟨old, unwritten⟩
  · have settled := recovers_settled new recovered
    refine ⟨Or.inr settled.inPlace, fun _ => settled.inPlace, ?_, settled.empty⟩
    intro b outer other
    rw [settled.inPlace b outer, apply_writes_other _ _ _ other]
  · have settled := recovers_settled old recovered
    exact ⟨Or.inl settled.inPlace, fun written => absurd written unwritten,
      fun b outer _ => settled.inPlace b outer, settled.empty⟩

theorem crash_in_commit_recovers_after_header :
    let s : Sys Unit := ⟨fun _ => Buf.zero, fun _ => Buf.zero, ⟨2, 30, 1, false, []⟩, ()⟩
    let ws : List (Nat × (Block → Block)) := [(59, fun data => data.putLE 0 4 7)]
    ∃ t crashed : Sys Unit, ∃ trace : List (Event (Op Unit Unit) (Sys Unit)), ∃ last,
      (logWrites ws : KProg Unit Unit Unit).run Op.exec s = .ok () t ∧
      (commit : KProg Unit Unit Unit).Stops Op.exec 0 t trace crashed ∧
      Recovers Unit Unit 2 30 crashed.disk last ∧ HeaderWritten trace ∧ last 59 = applyWrites s.disk ws 59 := by
  intro s ws
  have home (w : Nat × (Block → Block)) (member : w ∈ ws) : Home 2 30 w.1 := by
    rw [List.mem_singleton.mp member]
    exact ⟨by decide, Or.inr (by decide)⟩
  let t : Sys Unit := { s with cache := upd s.cache 59 (Buf.zero.putLE 0 4 7), log := { s.log with lh := [59] } }
  have made : (logWrites ws : KProg Unit Unit Unit).run Op.exec s = .ok () t := rfl
  let trace : List (Event (Op Unit Unit) (Sys Unit)) :=
    [⟨0, .lhN, 1, t, t⟩, ⟨0, .lhN, 1, t, t⟩, ⟨0, .writeLog 0, (), t, t.writeLog 0⟩,
      ⟨0, .writeHead, (), t.writeLog 0, (t.writeLog 0).writeHead⟩]
  have stopped : (commit : KProg Unit Unit Unit).Stops Op.exec 0 t trace (t.writeLog 0).writeHead :=
    Or.inr ⟨_, _, _, rfl, rfl, Or.inr ⟨_, _, _, rfl, rfl, Or.inr ⟨_, _, _, rfl, rfl,
      Or.inr ⟨_, _, _, rfl, rfl, Or.inl ⟨rfl, rfl⟩⟩⟩⟩⟩
  have written : HeaderWritten trace := ⟨trace.getLast (by simp [trace]), List.getLast_mem _, rfl⟩
  obtain ⟨last, done⟩ := recover_completes (N := Unit) 2 30 () (t.writeLog 0).writeHead.disk
  have recovered := Recovers.completed () _ _ done
  have result := crash_in_commit_recovers 0 s t _ ws trace last.disk (by decide) (Buf.getLE_zero 0 4) rfl rfl home
    made stopped recovered
  exact ⟨t, _, trace, last.disk, made, stopped, recovered, written, result.2.1 written 59 ⟨by decide, Or.inr (by decide)⟩⟩

end

end Xv6
