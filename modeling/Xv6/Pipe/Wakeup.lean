import Xv6.Pipe.Fifo

set_option autoImplicit false

namespace Xv6

-- pipewrite returns -1 with bytes stored since it took the lock.
def PipeOp.Abandons {β : Type} : PipeOp β → PipeSys → Prop
  | .write p _ n i, s => s.pipe.count < pipesize ∧ pipesize < s.pipe.count + (n.toNat - i) ∧
      (s.pipe.readopen = false ∨ (s.proc p).killed = true)
  | _, _ => False

def Announces (e : PipeEvent) : Prop := ¬ e.act.Abandons e.pre

structure NoneStuck (s : PipeSys) : Prop where
  readers : ∀ q, (s.proc q).chan = some .nread → s.pipe.count = 0 ∧ s.pipe.writeopen = true
  writers : ∀ q, (s.proc q).chan = some .nwrite → s.pipe.count = pipesize ∧ s.pipe.readopen = true

theorem wakeup_chan (s : PipeSys) (chan : PipeChan) (q : Nat) (c : PipeChan) (asleep : ((s.wakeup chan).proc q).chan = some c) :
    c ≠ chan ∧ (s.proc q).chan = some c := by
  simp only [PipeSys.wakeup] at asleep
  by_cases woken : (s.proc q).chan = some chan
  · rw [if_pos woken] at asleep
    cases asleep
  · rw [if_neg woken] at asleep
    refine ⟨?_, asleep⟩
    rintro rfl
    exact woken asleep

theorem contents_length (p : Pipe) : p.contents.length = p.count := ring_contents_length p.data

theorem write_none_stuck (p : Nat) (addr : Nat → UInt8) (n : Int) (i : Nat) (s next : PipeSys) (r : WriteResult)
    (valid : s.pipe.Valid) (stuck : NoneStuck s) (executed : (PipeOp.write p addr n i).exec s = .ok r next)
    (announces : ¬ (PipeOp.write p addr n i).Abandons s) : next.pipe.Valid ∧ NoneStuck next := by
  simp only [PipeOp.exec] at executed
  split at executed
  · cases executed
    have wrote := pipewrite_loop_writes p addr (n.toNat - i) i s valid
    generalize pipewriteLoop p addr (n.toNat - i) i s = section_ at wrote
    obtain ⟨r, next⟩ := section_
    have wrote : Writes addr i (i + (n.toNat - i)) p s r next := wrote
    refine ⟨wrote.valid, ?_⟩
    have ends := wrote.ends
    have result := wrote.result
    have before := wrote.from_
    have grown : next.pipe.count = s.pipe.count + (r.upto (i + (n.toNat - i)) - i) := by
      have length := congrArg List.length wrote.contents
      simpa only [List.length_append, contents_length, slice, List.length_map, List.length_range'] using length
    cases r with
    | returned =>
      have woken : next.proc = (s.wakeup .nread).proc := result
      constructor
      · intro q asleep
        rw [woken] at asleep
        exact absurd rfl (wakeup_chan s .nread q .nread asleep).1
      · intro q asleep
        rw [woken] at asleep
        obtain ⟨full, open_⟩ := stuck.writers q (wakeup_chan s .nread q .nwrite asleep).2
        have fits := wrote.valid.fits
        have still : next.pipe.count = pipesize := by omega
        exact ⟨still, ends.1.trans open_⟩
    | failed j =>
      obtain ⟨full, why, same⟩ : next.pipe.full = true ∧ _ ∧ next.proc = s.proc := result
      have atEnd : next.pipe.count = pipesize := (pipe_full_iff _ wrote.valid).mp full
      have left : j < i + (n.toNat - i) := by
        rcases wrote.left with never | left
        · cases never
        · exact left
      have grown : next.pipe.count = s.pipe.count + (j - i) := grown
      have before : i ≤ j := before
      -- nothing was stored, so the pipe was full before
      have unchanged : s.pipe.count = pipesize := by
        by_contra room
        have fits := valid.fits
        exact announces ⟨by omega, by omega, why⟩
      constructor
      · intro q asleep
        rw [same] at asleep
        obtain ⟨empty, -⟩ := stuck.readers q asleep
        rw [empty] at unchanged
        cases unchanged
      · intro q asleep
        rw [same] at asleep
        exact ⟨atEnd, ends.1.trans (stuck.writers q asleep).2⟩
    | asleep j =>
      obtain ⟨full, open_, slept⟩ : next.pipe.full = true ∧ _ ∧ next.proc = _ := result
      have atEnd : next.pipe.count = pipesize := (pipe_full_iff _ wrote.valid).mp full
      constructor
      · intro q asleep
        rw [slept] at asleep
        by_cases here : q = p
        · simp [PipeSys.sleep, here] at asleep
        · simp only [PipeSys.sleep, upd_ne here] at asleep
          exact absurd rfl (wakeup_chan s .nread q .nread asleep).1
      · intro q _
        exact ⟨atEnd, ends.1.trans open_⟩
  · cases executed

theorem read_none_stuck (p : Nat) (n : Int) (s next : PipeSys) (r : ReadResult) (valid : s.pipe.Valid) (stuck : NoneStuck s)
    (executed : (PipeOp.read p n).exec s = .ok r next) : next.pipe.Valid ∧ NoneStuck next := by
  simp only [PipeOp.exec] at executed
  split at executed
  · cases executed
    simp only [pipereadSection]
    by_cases waits : s.pipe.nread = s.pipe.nwrite ∧ s.pipe.writeopen = true
    · rw [if_pos waits]
      have empty := (pipe_empty_iff s.pipe valid).mp waits.1
      split
      · exact ⟨valid, stuck⟩
      · refine ⟨valid, ⟨fun q _ => ⟨empty, waits.2⟩, ?_⟩⟩
        intro q asleep
        by_cases here : q = p
        · simp [PipeSys.sleep, here] at asleep
        · simp only [PipeSys.sleep, upd_ne here] at asleep
          exact stuck.writers q asleep
    · rw [if_neg waits]
      obtain ⟨kept, taken, -, writeopen, -⟩ := piperead_copy_takes n.toNat s.pipe valid
      refine ⟨kept, ⟨?_, ?_⟩⟩
      · intro q asleep
        obtain ⟨empty, open_⟩ := stuck.readers q (wakeup_chan _ .nwrite q .nread asleep).2
        exact absurd ⟨(pipe_empty_iff s.pipe valid).mpr empty, open_⟩ waits
      · intro q asleep
        exact absurd rfl (wakeup_chan _ .nwrite q .nwrite asleep).1
  · cases executed

theorem close_none_stuck (writable : Bool) (s : PipeSys) (valid : s.pipe.Valid) (stuck : NoneStuck s) :
    (pipecloseSection writable s).pipe.Valid ∧ NoneStuck (pipecloseSection writable s) := by
  cases writable with
  | true =>
    refine ⟨⟨valid.readBound, valid.writeBound, valid.fits⟩, ⟨?_, ?_⟩⟩
    · intro q asleep
      exact absurd rfl (wakeup_chan _ .nread q .nread asleep).1
    · intro q asleep
      exact stuck.writers q (wakeup_chan _ .nread q .nwrite asleep).2
  | false =>
    refine ⟨⟨valid.readBound, valid.writeBound, valid.fits⟩, ⟨?_, ?_⟩⟩
    · intro q asleep
      exact stuck.readers q (wakeup_chan _ .nwrite q .nread asleep).2
    · intro q asleep
      exact absurd rfl (wakeup_chan _ .nwrite q .nwrite asleep).1

theorem kill_none_stuck (q : Nat) (s : PipeSys) (stuck : NoneStuck s) : NoneStuck (pipeKill q s) := by
  have old (c : PipeChan) (p : Nat) (asleep : ((pipeKill q s).proc p).chan = some c) : (s.proc p).chan = some c := by
    by_cases here : p = q
    · simp [pipeKill, here] at asleep
    · simpa only [pipeKill, upd_ne here] using asleep
  exact ⟨fun p asleep => stuck.readers p (old .nread p asleep), fun p asleep => stuck.writers p (old .nwrite p asleep)⟩

theorem pipe_calls_none_stuck (p : Nat) (l : PipeTask) (g : Unit) (prog : Prog PipeOp PipeTask) (_ : True)
    (allowed : PipeCalls p l prog) :
    Safe PipeOp.exec Announces (fun _ s (_ : Nat → Unit) => s.pipe.Valid ∧ NoneStuck s) p (fun _ _ => True) prog g := by
  cases allowed with
  | write addr n =>
    intro trace s _ _ inv r next executed met
    exact ⟨(), write_none_stuck p addr n 0 s next r inv.1 inv.2 executed met, trivial⟩
  | writeOn addr n i =>
    intro trace s _ _ inv r next executed met
    exact ⟨(), write_none_stuck p addr n i s next r inv.1 inv.2 executed met, trivial⟩
  | read n =>
    intro trace s _ _ inv r next executed _
    exact ⟨(), read_none_stuck p n s next r inv.1 inv.2 executed, trivial⟩
  | readOn n =>
    intro trace s _ _ inv r next executed _
    exact ⟨(), read_none_stuck p n s next r inv.1 inv.2 executed, trivial⟩
  | close writable =>
    intro trace s _ _ inv r next executed _
    cases executed
    exact ⟨(), close_none_stuck writable s inv.1 inv.2, trivial⟩
  | kill q =>
    intro trace s _ _ inv r next executed _
    cases executed
    exact ⟨(), ⟨inv.1, kill_none_stuck q s inv.2⟩, trivial⟩

theorem pipe_none_stuck (s : PipeSys) (fresh : s.Fresh) (trace : List PipeEvent) (c : Config PipeOp PipeSys PipeTask)
    (reached : Reach PipeOp.exec PipeCalls Announces ⟨s, fun _ => .ret .idle⟩ trace c) : NoneStuck c.shared := by
  have awake : NoneStuck s := by
    constructor
    · intro q asleep
      rw [fresh.awake q] at asleep
      cases asleep
    · intro q asleep
      rw [fresh.awake q] at asleep
      cases asleep
  have initially : ∃ g : Nat → Unit, (s.pipe.Valid ∧ NoneStuck s) ∧ ∀ p, Safe PipeOp.exec Announces
      (fun _ s (_ : Nat → Unit) => s.pipe.Valid ∧ NoneStuck s) p (fun _ _ => True) (.ret PipeTask.idle) (g p) :=
    ⟨fun _ => (), ⟨fresh_valid s fresh, awake⟩, fun _ => trivial⟩
  obtain ⟨_, inv, -⟩ := reach_invariant _ initially pipe_calls_none_stuck reached
  exact inv.2

theorem pipe_none_stuck_one_reader :
    ∃ trace c, Reach PipeOp.exec PipeCalls Announces ⟨freshPipe, fun _ => .ret .idle⟩ trace c ∧
      (c.shared.proc 0).chan = some .nread ∧ NoneStuck c.shared := by
  have called : Reach PipeOp.exec PipeCalls Announces ⟨freshPipe, fun _ => .ret .idle⟩ []
      ⟨freshPipe, upd (fun _ => .ret .idle) 0 (piperead 0 1)⟩ := .call [] _ 0 .idle _ .init rfl (.read 0 1)
  have slept := Reach.step [] _ 0 (.read 0 1) _ .asleep (freshPipe.sleep 0 .nread) called rfl rfl (by intro never; exact never)
  exact ⟨_, _, slept, rfl, pipe_none_stuck freshPipe fresh_pipe _ _ slept⟩

-- Process 0 sleeps in piperead; the killed process 1 fills the pipe and returns -1.
theorem killed_writer_strands_reader :
    ∃ trace c, Reach PipeOp.exec PipeCalls (fun _ => True) ⟨freshPipe, fun _ => .ret .idle⟩ trace c ∧
      (c.shared.proc 0).chan = some .nread ∧ c.shared.pipe.count = pipesize := by
  let addr : Nat → UInt8 := fun _ => 0
  have reader : Reach PipeOp.exec PipeCalls (fun _ => True) ⟨freshPipe, fun _ => .ret .idle⟩ []
      ⟨freshPipe, upd (fun _ => .ret .idle) 0 (piperead 0 1)⟩ := .call [] _ 0 .idle _ .init rfl (.read 0 1)
  have writer := Reach.call [] _ 1 .idle _ reader rfl (.write 1 addr 513)
  have killer := Reach.call [] _ 2 .idle _ writer rfl (.kill 2 1)
  have strands : ((⟨freshPipe, upd (upd (upd (fun _ => .ret .idle) 0 (piperead 0 1)) 1 (pipewrite 1 addr 513 0)) 2
      (killProg 1)⟩ : Config PipeOp PipeSys PipeTask).schedule PipeOp.exec [0, 2, 1]).any
      (fun r => (r.2.shared.proc 0).chan == some .nread && r.2.shared.pipe.count == pipesize) = true := by decide +kernel
  obtain ⟨⟨trace, c⟩, scheduled, holds⟩ := (Option.any_eq_true _ _).mp strands
  simp only [Bool.and_eq_true, beq_iff_eq] at holds
  exact ⟨_, c, schedule_reach (fun _ => trivial) _ killer scheduled, holds.1, holds.2⟩

end Xv6
