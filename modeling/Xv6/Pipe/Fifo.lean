import Xv6.Pipe.Model

set_option autoImplicit false

namespace Xv6

def Pipe.contents (p : Pipe) : List UInt8 := ringContents pipesize (2 ^ 32) p.data p.nread p.nwrite

def Pipe.count (p : Pipe) : Nat := ringCount (2 ^ 32) p.nread p.nwrite

structure Pipe.Valid (p : Pipe) : Prop where
  readBound : p.nread < 2 ^ 32
  writeBound : p.nwrite < 2 ^ 32
  fits : p.count ≤ pipesize

theorem pipe_full_iff (p : Pipe) (valid : p.Valid) : p.full = true ↔ p.count = pipesize := by
  rw [Pipe.full, decide_eq_true_iff]
  exact ring_count_full valid.readBound valid.writeBound (by decide)

theorem pipe_empty_iff (p : Pipe) (valid : p.Valid) : p.nread = p.nwrite ↔ p.count = 0 :=
  (ring_count_zero valid.readBound valid.writeBound).symm

theorem put_valid (p : Pipe) (b : UInt8) (valid : p.Valid) (room : p.full = false) :
    (p.put b).Valid ∧ (p.put b).contents = p.contents ++ [b] := by
  have below : p.count < pipesize := by
    have apart : p.count ≠ pipesize := fun same => by
      rw [(pipe_full_iff p valid).mpr same] at room
      cases room
    have fits := valid.fits
    omega
  have grown : (p.put b).count = p.count + 1 :=
    ring_count_push valid.readBound valid.writeBound (Nat.lt_of_le_of_lt below (by decide))
  refine ⟨⟨valid.readBound, Nat.mod_lt _ (by decide), by omega⟩, ?_⟩
  exact ring_push p.data b (by decide) valid.readBound valid.writeBound (by decide) below

theorem next_valid (p : Pipe) (valid : p.Valid) (some : p.nread ≠ p.nwrite) :
    p.next.Valid ∧ p.contents = p.data (p.nread % pipesize) :: p.next.contents := by
  have apart : ringCount (2 ^ 32) p.nread p.nwrite ≠ 0 := fun none => some ((pipe_empty_iff p valid).mpr none)
  have shrunk : p.next.count + 1 = p.count := ring_count_pop valid.readBound valid.writeBound apart
  have fits := valid.fits
  refine ⟨⟨Nat.mod_lt _ (by decide), valid.writeBound, by omega⟩, ?_⟩
  exact ring_pop p.data (by decide) valid.readBound valid.writeBound apart

def slice (addr : Nat → UInt8) (i j : Nat) : List UInt8 := (List.range' i (j - i)).map addr

theorem slice_same (addr : Nat → UInt8) (i : Nat) : slice addr i i = [] := by
  rw [slice, Nat.sub_self]
  rfl

theorem slice_cons (addr : Nat → UInt8) (i j : Nat) (before : i < j) : slice addr i j = addr i :: slice addr (i + 1) j := by
  rw [slice, slice, show j - i = j - (i + 1) + 1 by omega, List.range'_succ, List.map_cons]

theorem slice_append (addr : Nat → UInt8) (i j k : Nat) (first : i ≤ j) (second : j ≤ k) :
    slice addr i j ++ slice addr j k = slice addr i k := by
  obtain ⟨a, rfl⟩ := Nat.exists_eq_add_of_le first
  obtain ⟨b, rfl⟩ := Nat.exists_eq_add_of_le second
  rw [slice, slice, slice, ← List.map_append, show i + a - i = a by omega, show i + a + b - (i + a) = b by omega,
    show i + a + b - i = a + b by omega, List.range'_append_1]

def WriteResult.upto (n : Nat) : WriteResult → Nat
  | .returned => n
  | .failed i => i
  | .asleep i => i

def WriteResult.Ends (p : Nat) (s next : PipeSys) : WriteResult → Prop
  | .returned => next.proc = (s.wakeup .nread).proc
  | .failed _ => next.pipe.full = true ∧ (s.pipe.readopen = false ∨ (s.proc p).killed = true) ∧ next.proc = s.proc
  | .asleep _ => next.pipe.full = true ∧ s.pipe.readopen = true ∧ next.proc = ((s.wakeup .nread).sleep p .nwrite).proc

-- The bytes from i on are appended; it sleeps or fails only with the pipe full and bytes left.
structure Writes (addr : Nat → UInt8) (i n : Nat) (p : Nat) (s : PipeSys) (r : WriteResult) (next : PipeSys) : Prop where
  from_ : i ≤ r.upto n
  upto : r.upto n ≤ n
  left : r = .returned ∨ r.upto n < n
  valid : next.pipe.Valid
  contents : next.pipe.contents = s.pipe.contents ++ slice addr i (r.upto n)
  ends : next.pipe.readopen = s.pipe.readopen ∧ next.pipe.writeopen = s.pipe.writeopen
  result : r.Ends p s next

theorem pipewrite_loop_writes (p : Nat) (addr : Nat → UInt8) (left i : Nat) (s : PipeSys) (valid : s.pipe.Valid) :
    Writes addr i (i + left) p s (pipewriteLoop p addr left i s).1 (pipewriteLoop p addr left i s).2 := by
  induction left generalizing i s with
  | zero =>
    refine ⟨Nat.le_refl _, Nat.le_refl _, Or.inl rfl, valid, ?_, ⟨rfl, rfl⟩, rfl⟩
    show s.pipe.contents = s.pipe.contents ++ slice addr i i
    rw [slice_same, List.append_nil]
  | succ left ih =>
    rw [pipewriteLoop]
    by_cases full : s.pipe.full = true
    · rw [if_pos full]
      have none : s.pipe.contents = s.pipe.contents ++ slice addr i i := by rw [slice_same, List.append_nil]
      by_cases stop : (!s.pipe.readopen || (s.proc p).killed) = true
      · rw [if_pos stop]
        have why : s.pipe.readopen = false ∨ (s.proc p).killed = true := by simpa using stop
        exact ⟨Nat.le_refl _, Nat.le_add_right i _, Or.inr (Nat.lt_add_of_pos_right (Nat.succ_pos left)), valid, none,
          ⟨rfl, rfl⟩, full, why, rfl⟩
      · rw [if_neg stop]
        have open_ : s.pipe.readopen = true := by
          cases readopen : s.pipe.readopen with
          | true => rfl
          | false => simp [readopen] at stop
        exact ⟨Nat.le_refl _, Nat.le_add_right i _, Or.inr (Nat.lt_add_of_pos_right (Nat.succ_pos left)), valid, none,
          ⟨rfl, rfl⟩, full, open_, rfl⟩
    · rw [if_neg full]
      obtain ⟨stored, contents⟩ := put_valid s.pipe (addr i) valid (by simpa using full)
      have rest := ih (i + 1) { s with pipe := s.pipe.put (addr i) } stored
      rw [show i + 1 + left = i + (left + 1) by omega] at rest
      have before := rest.from_
      refine ⟨by omega, rest.upto, rest.left, rest.valid, ?_, rest.ends, ?_⟩
      · rw [rest.contents, contents, List.append_assoc, slice_cons addr i _ (by omega), List.singleton_append]
      · have result := rest.result
        cases ends : (pipewriteLoop p addr left (i + 1) { s with pipe := s.pipe.put (addr i) }).1 <;>
          rw [ends] at result <;> exact result

theorem piperead_copy_takes (left : Nat) (p : Pipe) (valid : p.Valid) :
    (pipereadCopy left p).2.Valid ∧ p.contents = (pipereadCopy left p).1 ++ (pipereadCopy left p).2.contents ∧
      (pipereadCopy left p).2.readopen = p.readopen ∧ (pipereadCopy left p).2.writeopen = p.writeopen ∧
      ((pipereadCopy left p).1 = [] → left = 0 ∨ p.nread = p.nwrite) := by
  induction left generalizing p with
  | zero => exact ⟨valid, rfl, rfl, rfl, fun _ => Or.inl rfl⟩
  | succ left ih =>
    rw [pipereadCopy]
    by_cases empty : p.nread = p.nwrite
    · rw [if_pos empty]
      exact ⟨valid, rfl, rfl, rfl, fun _ => Or.inr empty⟩
    · rw [if_neg empty]
      obtain ⟨popped, contents⟩ := next_valid p valid empty
      obtain ⟨kept, taken, readopen, writeopen, -⟩ := ih p.next popped
      refine ⟨kept, ?_, readopen, writeopen, nofun⟩
      rw [contents, taken, List.cons_append]

def PipeOp.stored {β : Type} : PipeOp β → β → List UInt8
  | .write _ addr n i, r => slice addr i (r.upto n.toNat)
  | _, _ => []

def PipeOp.handed {β : Type} : PipeOp β → β → List UInt8
  | .read _ _, .returned bytes => bytes
  | _, _ => []

def storedBytes (trace : List PipeEvent) : List UInt8 := trace.flatMap fun e => e.act.stored e.res

def handedBytes (trace : List PipeEvent) : List UInt8 := trace.flatMap fun e => e.act.handed e.res

def PipeOp.startsWrite {β : Type} : PipeOp β → Bool
  | .write _ _ _ i => i = 0
  | _ => false

def callBytes (p : Nat) (trace : List PipeEvent) : List UInt8 :=
  trace.foldl (fun bytes e => if e.pid = p then (if e.act.startsWrite then [] else bytes) ++ e.act.stored e.res else bytes) []

def PipeOp.wrote {β : Type} : PipeOp β → β → Option ((Nat → UInt8) × Int)
  | .write _ addr n _, .returned => some (addr, n)
  | _, _ => none

def PipeOp.readsNone {β : Type} : PipeOp β → β → Bool
  | .read _ n, .returned bytes => 0 < n ∧ bytes = []
  | _, _ => false

def WritesWhole (trace : List PipeEvent) : Prop :=
  ∀ before e after, trace = before ++ e :: after → ∀ addr n, e.act.wrote e.res = some (addr, n) →
    callBytes e.pid (before ++ [e]) = slice addr 0 n.toNat

def EndOfFile (trace : List PipeEvent) : Prop :=
  ∀ e ∈ trace, e.act.readsNone e.res = true → e.pre.pipe.nread = e.pre.pipe.nwrite ∧ e.pre.pipe.writeopen = false

structure FifoInv (trace : List PipeEvent) (s : PipeSys) (task : Nat → PipeTask) : Prop where
  valid : s.pipe.Valid
  stream : storedBytes trace = handedBytes trace ++ s.pipe.contents
  progress : ∀ p addr n i, task p = .writing addr n i → i ≤ n.toNat ∧ callBytes p trace = slice addr 0 i
  whole : WritesWhole trace
  eof : EndOfFile trace

theorem stored_append (trace : List PipeEvent) (e : PipeEvent) :
    storedBytes (trace ++ [e]) = storedBytes trace ++ e.act.stored e.res := by
  simp [storedBytes]

theorem handed_append (trace : List PipeEvent) (e : PipeEvent) :
    handedBytes (trace ++ [e]) = handedBytes trace ++ e.act.handed e.res := by
  simp [handedBytes]

theorem call_bytes_append (p : Nat) (trace : List PipeEvent) (e : PipeEvent) : callBytes p (trace ++ [e]) =
    if e.pid = p then (if e.act.startsWrite then [] else callBytes p trace) ++ e.act.stored e.res else callBytes p trace := by
  rw [callBytes, List.foldl_append]
  rfl

theorem writes_whole_append (trace : List PipeEvent) (e : PipeEvent) (whole : WritesWhole trace)
    (now : ∀ addr n, e.act.wrote e.res = some (addr, n) → callBytes e.pid (trace ++ [e]) = slice addr 0 n.toNat) :
    WritesWhole (trace ++ [e]) := by
  intro before x after split addr n returned
  rcases List.eq_nil_or_concat after with none | ⟨rest, last, many⟩
  · subst none
    obtain ⟨rfl, same⟩ := List.append_inj' split rfl
    cases same
    exact now addr n returned
  · rw [many, List.concat_eq_append, ← List.cons_append, ← List.append_assoc] at split
    exact whole before x rest (List.append_inj' split rfl).1 addr n returned

theorem eof_append (trace : List PipeEvent) (e : PipeEvent) (eof : EndOfFile trace)
    (now : e.act.readsNone e.res = true → e.pre.pipe.nread = e.pre.pipe.nwrite ∧ e.pre.pipe.writeopen = false) :
    EndOfFile (trace ++ [e]) := by
  intro x member none
  rcases List.mem_append.mp member with old | new
  · exact eof x old none
  · rw [List.mem_singleton.mp new] at none ⊢
    exact now none

theorem progress_append (trace : List PipeEvent) (e : PipeEvent) (task : Nat → PipeTask) (g : PipeTask)
    (progress : ∀ p addr n i, task p = .writing addr n i → i ≤ n.toNat ∧ callBytes p trace = slice addr 0 i)
    (own : ∀ addr n i, g = .writing addr n i → i ≤ n.toNat ∧ callBytes e.pid (trace ++ [e]) = slice addr 0 i) :
    ∀ p addr n i, upd task e.pid g p = .writing addr n i →
      i ≤ n.toNat ∧ callBytes p (trace ++ [e]) = slice addr 0 i := by
  intro p addr n i writing
  by_cases same : p = e.pid
  · rw [same, upd_self] at writing
    rw [same]
    exact own addr n i writing
  · rw [upd_ne same] at writing
    rw [call_bytes_append, if_neg (fun equal => same equal.symm)]
    exact progress p addr n i writing

theorem fifo_write (p : Nat) (addr : Nat → UInt8) (n : Int) (i : Nat) (trace : List PipeEvent) (s : PipeSys)
    (task : Nat → PipeTask) (inv : FifoInv trace s task) (bound : i ≤ n.toNat)
    (far : i ≠ 0 → callBytes p trace = slice addr 0 i) (r : WriteResult) (next : PipeSys)
    (executed : (PipeOp.write p addr n i).exec s = .ok r next) :
    FifoInv (trace ++ [⟨p, .write p addr n i, r, s, next⟩]) next (upd task p (r.task addr n)) := by
  simp only [PipeOp.exec] at executed
  split at executed
  · cases executed
    have wrote := pipewrite_loop_writes p addr (n.toNat - i) i s inv.valid
    rw [Nat.add_sub_cancel' bound] at wrote
    generalize pipewriteLoop p addr (n.toNat - i) i s = section_ at wrote
    have bytes : callBytes p (trace ++ [⟨p, .write p addr n i, section_.1, s, section_.2⟩]) =
        slice addr 0 (section_.1.upto n.toNat) := by
      rw [call_bytes_append, if_pos rfl]
      by_cases start : i = 0
      · simp only [PipeOp.startsWrite, start, decide_true, if_true, List.nil_append, PipeOp.stored]
      · simp only [PipeOp.startsWrite, start, decide_false, Bool.false_eq_true, if_false, PipeOp.stored]
        rw [far start, slice_append addr 0 i _ (Nat.zero_le i) wrote.from_]
    refine ⟨wrote.valid, ?_, ?_, ?_, ?_⟩
    · rw [stored_append, handed_append, inv.stream, wrote.contents]
      simp only [PipeOp.stored, PipeOp.handed, List.append_nil, List.append_assoc]
    · refine progress_append trace ⟨p, .write p addr n i, section_.1, s, section_.2⟩ task _ inv.progress ?_
      intro addr' n' j writing
      have upto := wrote.upto
      cases ended : section_.1 with
      | returned => simp [ended, WriteResult.task] at writing
      | failed k => simp [ended, WriteResult.task] at writing
      | asleep k =>
        simp only [ended, WriteResult.task, PipeTask.writing.injEq] at writing
        obtain ⟨rfl, rfl, rfl⟩ := writing
        rw [ended] at bytes upto
        exact ⟨upto, by simpa only [ended, WriteResult.upto] using bytes⟩
    · refine writes_whole_append trace _ inv.whole ?_
      intro addr' n' returned
      cases ended : section_.1 with
      | returned =>
        simp only [ended, PipeOp.wrote, Option.some.injEq, Prod.mk.injEq] at returned
        obtain ⟨rfl, rfl⟩ := returned
        simpa only [ended, WriteResult.upto] using bytes
      | failed k => simp [ended, PipeOp.wrote] at returned
      | asleep k => simp [ended, PipeOp.wrote] at returned
    · exact eof_append trace _ inv.eof nofun
  · cases executed

theorem fifo_read (p : Nat) (n : Int) (trace : List PipeEvent) (s : PipeSys) (task : Nat → PipeTask)
    (inv : FifoInv trace s task) (r : ReadResult) (next : PipeSys) (executed : (PipeOp.read p n).exec s = .ok r next) :
    FifoInv (trace ++ [⟨p, .read p n, r, s, next⟩]) next (upd task p (r.task n)) := by
  have untouched (bytes : ReadResult) (last : PipeSys) : ∀ q addr m i, upd task p (bytes.task n) q = .writing addr m i →
      i ≤ m.toNat ∧ callBytes q (trace ++ [⟨p, .read p n, bytes, s, last⟩]) = slice addr 0 i := by
    refine progress_append trace ⟨p, .read p n, bytes, s, last⟩ task _ inv.progress ?_
    intro addr m i writing
    cases bytes <;> simp [ReadResult.task] at writing
  simp only [PipeOp.exec] at executed
  split at executed
  · cases executed
    simp only [pipereadSection]
    by_cases waits : s.pipe.nread = s.pipe.nwrite ∧ s.pipe.writeopen = true
    · rw [if_pos waits]
      split
      · refine ⟨inv.valid, ?_, untouched _ _, ?_, ?_⟩
        · rw [stored_append, handed_append, inv.stream]
          simp [PipeOp.stored, PipeOp.handed]
        · exact writes_whole_append trace _ inv.whole nofun
        · exact eof_append trace _ inv.eof nofun
      · refine ⟨inv.valid, ?_, untouched _ _, ?_, ?_⟩
        · rw [stored_append, handed_append, inv.stream]
          simp [PipeOp.stored, PipeOp.handed, PipeSys.sleep]
        · exact writes_whole_append trace _ inv.whole nofun
        · exact eof_append trace _ inv.eof nofun
    · rw [if_neg waits]
      obtain ⟨valid, taken, -, -, short⟩ := piperead_copy_takes n.toNat s.pipe inv.valid
      refine ⟨valid, ?_, untouched _ _, ?_, ?_⟩
      · rw [stored_append, handed_append, inv.stream, taken]
        simp [PipeOp.stored, PipeOp.handed, PipeSys.wakeup]
      · exact writes_whole_append trace _ inv.whole nofun
      · refine eof_append trace _ inv.eof ?_
        intro none
        simp only [PipeOp.readsNone, decide_eq_true_eq] at none
        have empty : s.pipe.nread = s.pipe.nwrite := by
          rcases short none.2 with zero | empty
          · omega
          · exact empty
        exact ⟨empty, by simpa [empty] using waits⟩
  · cases executed

theorem fifo_idle {β : Type} (act : PipeOp β) (p : Nat) (r : β) (trace : List PipeEvent) (s next : PipeSys)
    (task : Nat → PipeTask) (inv : FifoInv trace s task) (stores : act.stored r = []) (hands : act.handed r = [])
    (wrote : act.wrote r = none) (reads : act.readsNone r = false) (valid : next.pipe.Valid)
    (contents : next.pipe.contents = s.pipe.contents) :
    FifoInv (trace ++ [⟨p, act, r, s, next⟩]) next (upd task p .idle) := by
  refine ⟨valid, ?_, ?_, ?_, ?_⟩
  · rw [stored_append, handed_append, inv.stream, contents, stores, hands, List.append_nil, List.append_nil]
  · exact progress_append trace ⟨p, act, r, s, next⟩ task .idle inv.progress nofun
  · refine writes_whole_append trace _ inv.whole ?_
    intro addr n returned
    rw [wrote] at returned
    cases returned
  · refine eof_append trace _ inv.eof ?_
    intro none
    rw [reads] at none
    cases none

abbrev FifoSafe (p : Nat) (c : Prog PipeOp PipeTask) (g : PipeTask) : Prop :=
  Safe PipeOp.exec (fun _ => True) FifoInv p (fun l g' => l = g') c g

theorem pipewrite_safe (p : Nat) (addr : Nat → UInt8) (n : Int) (i : Nat) (g : PipeTask)
    (at_ : g = .writing addr n i ∨ i = 0) : FifoSafe p (pipewrite p addr n i) g := by
  intro trace s task own inv r next executed _
  refine ⟨r.task addr n, ?_, rfl⟩
  rcases at_ with writing | start
  · obtain ⟨bound, far⟩ := inv.progress p addr n i (own.trans writing)
    exact fifo_write p addr n i trace s task inv bound (fun _ => far) r next executed
  · subst start
    exact fifo_write p addr n 0 trace s task inv (Nat.zero_le _) (fun apart => absurd rfl apart) r next executed

theorem pipe_calls_safe (p : Nat) (l g : PipeTask) (prog : Prog PipeOp PipeTask) (same : l = g)
    (allowed : PipeCalls p l prog) : FifoSafe p prog g := by
  cases allowed with
  | write addr n => exact pipewrite_safe p addr n 0 g (Or.inr rfl)
  | writeOn addr n i => exact pipewrite_safe p addr n i g (Or.inl same.symm)
  | read n =>
    intro trace s task _ inv r next executed _
    exact ⟨r.task n, fifo_read p n trace s task inv r next executed, rfl⟩
  | readOn n =>
    intro trace s task _ inv r next executed _
    exact ⟨r.task n, fifo_read p n trace s task inv r next executed, rfl⟩
  | close writable =>
    intro trace s task _ inv r next executed _
    cases executed
    refine ⟨.idle, fifo_idle (.close writable) p () trace s _ task inv rfl rfl rfl rfl ?_ ?_, rfl⟩
    · cases writable <;> exact ⟨inv.valid.readBound, inv.valid.writeBound, inv.valid.fits⟩
    · cases writable <;> rfl
  | kill q =>
    intro trace s task _ inv r next executed _
    cases executed
    exact ⟨.idle, fifo_idle (.kill q) p () trace s _ task inv rfl rfl rfl rfl inv.valid rfl, rfl⟩

theorem fresh_valid (s : PipeSys) (fresh : s.Fresh) : s.pipe.Valid := by
  obtain ⟨data, atStart⟩ := fresh.pipe
  have none : ringCount (2 ^ 32) 0 0 = 0 := (ring_count_zero (Nat.two_pow_pos 32) (Nat.two_pow_pos 32)).mpr rfl
  rw [atStart]
  refine ⟨Nat.two_pow_pos 32, Nat.two_pow_pos 32, ?_⟩
  show ringCount (2 ^ 32) 0 0 ≤ pipesize
  rw [none]
  exact Nat.zero_le _

theorem pipe_is_fifo (s : PipeSys) (fresh : s.Fresh) (trace : List PipeEvent) (c : Config PipeOp PipeSys PipeTask)
    (reached : Reach PipeOp.exec PipeCalls (fun _ => True) ⟨s, fun _ => .ret .idle⟩ trace c) :
    c.shared.pipe.count ≤ pipesize ∧ storedBytes trace = handedBytes trace ++ c.shared.pipe.contents ∧
      WritesWhole trace ∧ EndOfFile trace := by
  obtain ⟨data, atStart⟩ := fresh.pipe
  have begins : FifoInv [] s (fun _ => .idle) := by
    refine ⟨fresh_valid s fresh, ?_, fun _ _ _ _ writing => (by cases writing), ?_, ?_⟩
    · have none : ringContents pipesize (2 ^ 32) data 0 0 = [] := ring_contents_empty data (Nat.two_pow_pos 32)
      rw [atStart]
      show [] = [] ++ ringContents pipesize (2 ^ 32) data 0 0
      rw [none, List.append_nil]
    · intro before e after split
      simp at split
    · intro e member
      cases member
  have initially : ∃ task, FifoInv [] s task ∧ ∀ p, FifoSafe p (.ret .idle) (task p) :=
    ⟨fun _ => .idle, begins, fun _ => rfl⟩
  obtain ⟨task, inv, -⟩ := reach_invariant _ initially pipe_calls_safe reached
  exact ⟨inv.valid.fits, inv.stream, inv.whole, inv.eof⟩

def freshPipe : PipeSys := ⟨Pipe.alloc fun _ => 0, fun _ => ⟨none, false⟩⟩

theorem fresh_pipe : freshPipe.Fresh := ⟨⟨_, rfl⟩, fun _ => rfl⟩

theorem pipe_is_fifo_three_bytes :
    ∃ trace c, Reach PipeOp.exec PipeCalls (fun _ => True) ⟨freshPipe, fun _ => .ret .idle⟩ trace c ∧
      handedBytes trace = [7, 8] ∧ c.shared.pipe.contents = [9] ∧
      storedBytes trace = handedBytes trace ++ c.shared.pipe.contents := by
  let addr : Nat → UInt8 := fun i => UInt8.ofNat (7 + i)
  have writer : Reach PipeOp.exec PipeCalls (fun _ => True) ⟨freshPipe, fun _ => .ret .idle⟩ []
      ⟨freshPipe, upd (fun _ => .ret .idle) 0 (pipewrite 0 addr 3 0)⟩ := .call [] _ 0 .idle _ .init rfl (.write 0 addr 3)
  have reader := Reach.call [] _ 1 .idle _ writer rfl (.read 1 2)
  have transfers : ((⟨freshPipe, upd (upd (fun _ => .ret .idle) 0 (pipewrite 0 addr 3 0)) 1 (piperead 1 2)⟩ :
      Config PipeOp PipeSys PipeTask).schedule PipeOp.exec [0, 1]).any
      (fun r => handedBytes r.1 == [7, 8] && r.2.shared.pipe.contents == [9]) = true := by decide +kernel
  obtain ⟨⟨trace, c⟩, scheduled, holds⟩ := (Option.any_eq_true _ _).mp transfers
  have reached := schedule_reach (fun _ => trivial) _ reader scheduled
  simp only [Bool.and_eq_true, beq_iff_eq] at holds
  exact ⟨_, c, reached, holds.1, holds.2, (pipe_is_fifo freshPipe fresh_pipe _ c reached).2.1⟩

end Xv6
