import Xv6.Console.Line

set_option autoImplicit false

namespace Xv6.Console

structure Shows (l : Line) (i : Input) : Prop where
  valid : i.Valid
  taken : l.taken ≤ l.committed.length
  queue : i.queue = l.committed.drop l.taken
  line : i.line = l.pending
  open_ : newline ∉ l.pending

section

variable {l : Line} {s : Cons}

theorem shows_length {i : Input} (shows_ : Shows l i) : i.queue.length = l.committed.length - l.taken := by
  rw [shows_.queue, List.length_drop]

theorem kill_line_shows (left : Nat) (s : Cons) (valid : s.input.Valid) (enough : s.input.line.length ≤ left)
    (open_ : newline ∉ s.input.line) :
    (killLine left s).input.Valid ∧ (killLine left s).input.queue = s.input.queue ∧ (killLine left s).input.line = [] := by
  induction left generalizing s with
  | zero => exact ⟨valid, rfl, List.length_eq_zero_iff.mp (Nat.le_zero.mp enough)⟩
  | succ left ih =>
    unfold killLine
    by_cases done : s.input.e = s.input.w
    · rw [if_neg (fun more => more.1 done)]
      exact ⟨valid, rfl, (line_empty_iff valid).mp done⟩
    · obtain ⟨valid', queue, line⟩ := erase_effect valid done
      have last : s.input.buf (dec s.input.e % inputBuf) ≠ newline := by
        intro same
        rw [line, same] at open_
        exact open_ (List.mem_append_right _ (List.mem_singleton_self newline))
      rw [if_pos ⟨done, last⟩]
      rw [line, List.length_append, List.length_singleton] at enough
      rw [line] at open_
      obtain ⟨valid'', queue', line'⟩ := ih (({ s with input := s.input.erase } : Cons).consputc backspace) valid'
        (Nat.le_of_succ_le_succ enough) fun member => open_ (List.mem_append_left _ member)
      exact ⟨valid'', queue'.trans queue, line'⟩

theorem ordinary_shows (c : UInt8) (shows_ : Shows l s.input) :
    Shows (if c = 0 ∨ inputBuf ≤ l.committed.length - l.taken + l.pending.length then l
      else l.add (if c = carriageReturn then newline else c)) (ordinary c s).input := by
  have valid := shows_.valid
  have length := shows_length shows_
  have count := unread_count valid
  rw [shows_.line, length] at count
  by_cases dropped : c = 0 ∨ inputBuf ≤ l.committed.length - l.taken + l.pending.length
  · have same : ordinary c s = s := by
      unfold ordinary
      rw [if_neg]
      rintro ⟨nonzero, room⟩
      rw [count] at room
      rcases dropped with zero | full
      · exact nonzero zero
      · exact Nat.not_le_of_lt room full
    rw [if_pos dropped, same]
    exact shows_
  · have kept : c ≠ 0 ∧ ringCount (2 ^ 32) s.input.r s.input.e < inputBuf := by
      rw [count]
      exact ⟨fun zero => dropped (.inl zero), Nat.lt_of_not_le fun full => dropped (.inr full)⟩
    unfold ordinary
    rw [if_neg dropped, if_pos kept]
    generalize (if c = carriageReturn then newline else c) = c
    have put := put_effect valid c kept.2
    have total : (s.input.put c).e = ((s.input.put c).r + inputBuf) % 2 ^ 32 ↔
        l.committed.length - l.taken + (l.pending ++ [c]).length = inputBuf := by
      rw [ring_count_full put.bounds.1 put.bounds.2.2 (by decide), put.count, shows_.line, length, List.length_append]
      rfl
    have room : s.input.queue.length + s.input.line.length < inputBuf := by
      rw [← unread_count valid]
      exact kept.2
    unfold Line.add
    by_cases commits : c = newline ∨ c = ctrl 'D' ∨ l.committed.length - l.taken + (l.pending ++ [c]).length = inputBuf
    · obtain ⟨valid', queue, line⟩ := put_commit put room
      have commits' : c = newline ∨ c = ctrl 'D' ∨ (s.input.put c).e = ((s.input.put c).r + inputBuf) % 2 ^ 32 := by
        rw [total]
        exact commits
      simp only [if_pos commits]
      split
      case isFalse never => exact absurd commits' never
      refine ⟨valid', ?_, ?_, line, List.not_mem_nil⟩
      · rw [List.length_append]
        exact Nat.le_trans shows_.taken (Nat.le_add_right _ _)
      · rw [List.drop_append_of_le_length shows_.taken, ← shows_.queue, ← shows_.line]
        exact queue
    · have commits' : ¬ (c = newline ∨ c = ctrl 'D' ∨ (s.input.put c).e = ((s.input.put c).r + inputBuf) % 2 ^ 32) := by
        rw [total]
        exact commits
      have short : l.committed.length - l.taken + (l.pending ++ [c]).length ≠ inputBuf := fun full => commits (.inr (.inr full))
      simp only [if_neg commits]
      split
      case isTrue never => exact absurd never commits'
      refine ⟨put_valid put ?_, shows_.taken, put.queue.trans shows_.queue, ?_, fun member => ?_⟩
      · rw [length, shows_.line] at room ⊢
        rw [List.length_append, List.length_singleton] at short
        omega
      · exact put.line.trans (by rw [shows_.line])
      · rcases List.mem_append.mp member with old | new
        · exact shows_.open_ old
        · exact commits (.inl (List.mem_singleton.mp new).symm)

theorem intr_char_shows (c : UInt8) (shows_ : Shows l s.input) : Shows (l.key c) (intrChar c s).2.input := by
  have valid := shows_.valid
  unfold Line.key intrChar
  by_cases dump : c = ctrl 'P'
  · rw [if_pos dump, if_pos dump]
    exact shows_
  rw [if_neg dump, if_neg dump]
  by_cases kills : c = ctrl 'U'
  · rw [if_pos kills, if_pos kills]
    have enough : s.input.line.length ≤ ringCount (2 ^ 32) s.input.w s.input.e :=
      Nat.le_of_eq (ring_contents_length _)
    obtain ⟨valid', queue, line⟩ := kill_line_shows _ s valid enough (by rw [shows_.line]; exact shows_.open_)
    exact ⟨valid', shows_.taken, queue.trans shows_.queue, line, List.not_mem_nil⟩
  rw [if_neg kills, if_neg kills]
  by_cases erases : c = ctrl 'H' ∨ c = delete
  · rw [if_pos erases, if_pos erases]
    by_cases some_ : s.input.e ≠ s.input.w
    · rw [if_pos some_]
      obtain ⟨valid', queue, line⟩ := erase_effect valid some_
      rw [shows_.line] at line
      refine ⟨valid', shows_.taken, queue.trans shows_.queue, ?_, fun member => shows_.open_ (List.dropLast_subset _ member)⟩
      show s.input.erase.line = l.pending.dropLast
      rw [line, List.dropLast_concat]
    · rw [if_neg some_]
      have empty := (line_empty_iff valid).mp (Decidable.not_not.mp some_)
      rw [shows_.line] at empty
      exact ⟨valid, shows_.taken, shows_.queue, by rw [shows_.line, empty]; rfl, by rw [empty]; exact List.not_mem_nil⟩
  rw [if_neg erases, if_neg erases]
  exact ordinary_shows c shows_

theorem intr_loop_shows (chars : List UInt8) (doprocdump : Bool) (l : Line) (s : Cons) (shows_ : Shows l s.input) :
    Shows (chars.foldl Line.key l) (intrLoop chars doprocdump s).2.input := by
  induction chars generalizing doprocdump l s with
  | nil => exact shows_
  | cons c rest ih => exact ih _ _ _ (intr_char_shows c shows_)

-- What is returned is full, or ends with a newline, or stops before a ^D.
def ReadResult.Ends (target : Nat) (i : Input) : ReadResult → Prop
  | .returned dst => dst.length = target ∨ dst.getLast? = some newline ∨ dst = [] ∨ i.queue.head? = some (ctrl 'D')
  | .failed _ => i.queue = []
  | .asleep dst => i.queue = [] ∧ newline ∉ dst ∧ dst.length < target

structure Reads (target : Nat) (dst : List UInt8) (i i' : Input) (r : ReadResult) : Prop where
  valid : i'.Valid
  line : i'.line = i.line
  takes : ∃ new, r.dst = dst ++ new ∧ i.queue = new ++ r.eof target ++ i'.queue
  short : r.dst.length ≤ target
  bytes : ctrl 'D' ∉ r.dst
  lines : newline ∉ r.dst.dropLast
  ends : r.Ends target i'

theorem eof_short {target : Nat} {all : List UInt8} (some_ : all ≠ [] ∨ target = 0) : (ReadResult.returned all).eof target = [] := by
  cases all with
  | nil => exact if_pos (some_.resolve_left fun never => never rfl)
  | cons first rest => rfl

theorem not_mem_concat {dst : List UInt8} {c d : UInt8} (old : d ∉ dst) (new : c ≠ d) : d ∉ dst ++ [c] := by
  intro member
  rcases List.mem_append.mp member with before | last
  · exact old before
  · exact new (List.mem_singleton.mp last).symm

theorem read_loop_reads (p target n : Nat) (dst : List UInt8) (s : Cons) (valid : s.input.Valid) (left : dst.length + n = target)
    (bytes : ctrl 'D' ∉ dst) (lines : newline ∉ dst) :
    Reads target dst s.input (readLoop p target n dst s).2.input (readLoop p target n dst s).1 := by
  have early : newline ∉ dst.dropLast := fun member => lines (List.dropLast_subset _ member)
  induction n generalizing dst s with
  | zero =>
    have none : (ReadResult.returned dst).eof target = [] := by
      refine eof_short ?_
      cases dst with
      | nil => exact .inr left.symm
      | cons first rest => exact .inl (List.cons_ne_nil _ _)
    exact ⟨valid, rfl, ⟨[], (List.append_nil _).symm, by simp only [readLoop]; rw [none]; rfl⟩, Nat.le_of_eq left, bytes, early,
      .inl left⟩
  | succ n ih =>
    unfold readLoop
    by_cases empty : s.input.r = s.input.w
    · have none := (queue_empty_iff valid).mp empty
      rw [if_pos empty]
      by_cases killed : (s.proc p).killed = true
      · rw [if_pos killed]
        exact ⟨valid, rfl, ⟨[], (List.append_nil _).symm, rfl⟩, by simp only [ReadResult.dst]; omega, bytes, early, none⟩
      · rw [if_neg killed]
        exact ⟨valid, rfl, ⟨[], (List.append_nil _).symm, rfl⟩, by simp only [ReadResult.dst]; omega, bytes, early, none, lines,
          by omega⟩
    · obtain ⟨valid', line, queue⟩ := next_effect valid empty
      rw [if_neg empty]
      dsimp only
      by_cases eof : s.input.buf (s.input.r % inputBuf) = ctrl 'D'
      · rw [if_pos eof]
        rw [eof] at queue
        by_cases after : n + 1 < target
        · have some_ : dst ≠ [] := by
            intro nil
            rw [nil, List.length_nil] at left
            omega
          rw [if_pos after, unread_next valid]
          refine ⟨valid, rfl, ⟨[], (List.append_nil _).symm, by rw [eof_short (.inl some_)]; rfl⟩, ?_, bytes, early, ?_⟩
          · simp only [ReadResult.dst]
            omega
          · exact .inr (.inr (.inr (by rw [queue]; rfl)))
        · have nil : dst = [] := List.length_eq_zero_iff.mp (by omega)
          subst nil
          have taken : (ReadResult.returned []).eof target = [ctrl 'D'] := if_neg (by omega)
          rw [if_neg after]
          exact ⟨valid', line, ⟨[], rfl, by rw [taken]; exact queue⟩, Nat.zero_le _, bytes, early, .inr (.inr (.inl rfl))⟩
      · rw [if_neg eof]
        have bytes' := not_mem_concat bytes eof
        by_cases ends : s.input.buf (s.input.r % inputBuf) = newline
        · rw [if_pos ends]
          generalize s.input.buf (s.input.r % inputBuf) = c at *
          have none : (ReadResult.returned (dst ++ [c])).eof target = [] := eof_short (.inl (by simp))
          refine ⟨valid', line, ⟨[c], rfl, by rw [none]; exact queue⟩, ?_, bytes', ?_, .inr (.inl ?_)⟩
          · simp only [ReadResult.dst, List.length_append, List.length_singleton]
            omega
          · simp only [ReadResult.dst, List.dropLast_concat]
            exact lines
          · rw [List.getLast?_concat, ends]
        · rw [if_neg ends]
          have lines' := not_mem_concat lines ends
          generalize s.input.buf (s.input.r % inputBuf) = c at *
          have rest := ih (dst ++ [c]) { s with input := s.input.next } valid'
            (by rw [List.length_append, List.length_singleton]; omega) bytes' lines'
            fun member => lines' (List.dropLast_subset _ member)
          obtain ⟨new, whole, queue'⟩ := rest.takes
          refine ⟨rest.valid, rest.line.trans line, ⟨c :: new, ?_, ?_⟩, rest.short, rest.bytes, rest.lines, rest.ends⟩
          · rw [whole, List.append_assoc]
            rfl
          · rw [queue]
            exact congrArg (c :: ·) queue'

end

def Line.Extends (l' l : Line) : Prop := l'.taken = l.taken ∧ ∃ more, l'.committed = l.committed ++ more

theorem add_extends (l : Line) (c : UInt8) : (l.add c).Extends l := by
  unfold Line.add
  dsimp only
  split
  · exact ⟨rfl, _, rfl⟩
  · exact ⟨rfl, [], (List.append_nil _).symm⟩

theorem key_extends (l : Line) (c : UInt8) : (l.key c).Extends l := by
  have same : ∀ pending, Line.Extends { l with pending := pending } l := fun _ => ⟨rfl, [], (List.append_nil _).symm⟩
  unfold Line.key
  split
  · exact same _
  split
  · exact same _
  split
  · exact same _
  split
  · exact same _
  · exact add_extends l _

theorem keys_extend (chars : List UInt8) (l : Line) : (chars.foldl Line.key l).Extends l := by
  induction chars generalizing l with
  | nil => exact ⟨rfl, [], (List.append_nil _).symm⟩
  | cons c rest ih =>
    obtain ⟨taken, more, committed⟩ := key_extends l c
    obtain ⟨taken', more', committed'⟩ := ih (l.key c)
    exact ⟨taken'.trans taken, more ++ more', by rw [List.foldl_cons, committed', committed, List.append_assoc]⟩

def ConsoleOp.ReadsWell {β : Type} (before after : Cons) : ConsoleOp β → β → Prop
  | .read _ target dst, r => Reads target dst before.input after.input r
  | _, _ => True

def Task.Midway : Task → Prop
  | .idle => True
  | .reading target dst => dst.length ≤ target ∧ ctrl 'D' ∉ dst ∧ newline ∉ dst

structure LineInv (trace : List ConsoleEvent) (s : Cons) (task : Nat → Task) : Prop where
  shows_ : Shows (edited trace) s.input
  consumed : consumedBytes trace = (edited trace).committed.take (edited trace).taken
  delivered : deliveredBytes trace = (consumedBytes trace).filter (· ≠ ctrl 'D')
  reading : ∀ p, (task p).Midway
  reads : ∀ e ∈ trace, e.act.ReadsWell e.pre e.post e.res

section

variable {trace : List ConsoleEvent} {s : Cons} {task : Nat → Task}

theorem edited_append (trace : List ConsoleEvent) (e : ConsoleEvent) : edited (trace ++ [e]) = (edited trace).event e := by
  rw [edited, List.foldl_append]
  rfl

theorem consumed_append (trace : List ConsoleEvent) (e : ConsoleEvent) :
    consumedBytes (trace ++ [e]) = consumedBytes trace ++ e.act.consumed e.res := by
  simp [consumedBytes]

theorem delivered_append (trace : List ConsoleEvent) (e : ConsoleEvent) :
    deliveredBytes (trace ++ [e]) = deliveredBytes trace ++ e.act.delivered e.res := by
  simp [deliveredBytes]

theorem midway_upd (reading : ∀ p, (task p).Midway) (p : Nat) {g : Task} (own : g.Midway) (q : Nat) : (upd task p g q).Midway := by
  by_cases here : q = p
  · rw [here, upd_self]
    exact own
  · rw [upd_ne here]
    exact reading q

theorem reads_append (reads : ∀ e ∈ trace, e.act.ReadsWell e.pre e.post e.res) (e : ConsoleEvent)
    (last : e.act.ReadsWell e.pre e.post e.res) : ∀ e' ∈ trace ++ [e], e'.act.ReadsWell e'.pre e'.post e'.res := by
  intro e' member
  rcases List.mem_append.mp member with old | new
  · exact reads e' old
  · rw [List.mem_singleton.mp new]
    exact last

theorem inv_intr (inv : LineInv trace s task) (p : Nat) (chars : List UInt8) :
    LineInv (trace ++ [⟨p, .intr chars, (intrLoop chars false s).1, s, (intrLoop chars false s).2⟩]) (intrLoop chars false s).2
      (upd task p .idle) := by
  obtain ⟨taken, more, committed⟩ := keys_extend chars (edited trace)
  have shows_ := intr_loop_shows chars false (edited trace) s inv.shows_
  have same : edited (trace ++ [⟨p, .intr chars, (intrLoop chars false s).1, s, (intrLoop chars false s).2⟩]) =
      chars.foldl Line.key (edited trace) := by
    rw [edited_append]
    rfl
  refine ⟨by rw [same]; exact shows_, ?_, ?_, midway_upd inv.reading p trivial, reads_append inv.reads _ trivial⟩
  · rw [consumed_append, same, taken, committed, List.take_append_of_le_length inv.shows_.taken, ← inv.consumed]
    exact List.append_nil _
  · rw [consumed_append, delivered_append, List.filter_append, ← inv.delivered]
    rfl

theorem inv_other {β : Type} (inv : LineInv trace s task) (p : Nat) (act : ConsoleOp β) (r : β) (s' : Cons)
    (typed : act.typed = []) (consumed : act.consumed r = []) (delivered : act.delivered r = [])
    (reads : act.ReadsWell s s' r) (input : s'.input = s.input) :
    LineInv (trace ++ [⟨p, act, r, s, s'⟩]) s' (upd task p .idle) := by
  have same : edited (trace ++ [⟨p, act, r, s, s'⟩]) = edited trace := by
    rw [edited_append, Line.event, typed, consumed]
    rfl
  refine ⟨by rw [same, input]; exact inv.shows_, ?_, ?_, midway_upd inv.reading p trivial, reads_append inv.reads _ reads⟩
  · rw [consumed_append, same, consumed, List.append_nil]
    exact inv.consumed
  · rw [consumed_append, delivered_append, consumed, delivered, List.append_nil, List.append_nil]
    exact inv.delivered

theorem eof_filter (target : Nat) (r : ReadResult) : (r.eof target).filter (· ≠ ctrl 'D') = [] := by
  unfold ReadResult.eof
  split
  · split
    · rfl
    · simp
  · rfl

theorem inv_read (inv : LineInv trace s task) (p target : Nat) (dst : List UInt8) (own : Task.Midway (.reading target dst)) :
    let r := readLoop p target (target - dst.length) dst s
    LineInv (trace ++ [⟨p, .read p target dst, r.1, s, r.2⟩]) r.2 (upd task p (r.1.task target)) := by
  intro r
  have reads : Reads target dst s.input r.2.input r.1 := by
    refine read_loop_reads p target _ dst s inv.shows_.valid ?_ own.2.1 own.2.2
    have bound := own.1
    omega
  obtain ⟨new, whole, queue⟩ := reads.takes
  have delivered : r.1.dst.drop dst.length = new := by rw [whole, List.drop_left]
  have consumed : ConsoleOp.consumed (.read p target dst) r.1 = new ++ r.1.eof target := by
    rw [ConsoleOp.consumed, delivered]
  have same : edited (trace ++ [⟨p, .read p target dst, r.1, s, r.2⟩]) = (edited trace).read (new ++ r.1.eof target) := by
    rw [edited_append, Line.event, consumed]
    rfl
  rw [inv.shows_.queue] at queue
  have length := congrArg List.length queue
  rw [List.length_drop, List.length_append] at length
  refine ⟨?_, ?_, ?_, midway_upd inv.reading p ?_, reads_append inv.reads _ reads⟩
  · rw [same]
    refine ⟨reads.valid, ?_, ?_, reads.line.trans inv.shows_.line, inv.shows_.open_⟩
    · have before := inv.shows_.taken
      simp only [Line.read]
      omega
    · simp only [Line.read]
      rw [← List.drop_drop, queue, List.drop_left]
  · rw [consumed_append, same, consumed, inv.consumed]
    simp only [Line.read]
    rw [List.take_add, queue, List.take_left]
  · rw [consumed_append, delivered_append, consumed, List.filter_append, ← inv.delivered, List.filter_append, eof_filter,
      List.append_nil]
    refine congrArg (deliveredBytes trace ++ ·) (delivered.trans (List.filter_eq_self.mpr fun c member => ?_).symm)
    refine decide_eq_true fun eof => reads.bytes ?_
    rw [whole, ← eof]
    exact List.mem_append_right _ member
  · have ends := reads.ends
    have bytes := reads.bytes
    cases result : r.1 with
    | returned all => trivial
    | failed all => trivial
    | asleep all =>
      rw [result] at ends bytes
      exact ⟨Nat.le_of_lt ends.2.2, bytes, ends.2.1⟩

abbrev LineSafe (p : Nat) (c : Prog ConsoleOp Task) (g : Task) : Prop :=
  Safe ConsoleOp.exec (fun _ => True) LineInv p (fun l g' => l = g') c g

theorem write_loop_input (buf : Nat → UInt8) (left i : Nat) (s : Cons) : (writeLoop buf left i s).input = s.input := by
  induction left generalizing i s with
  | zero => rfl
  | succ left ih => exact ih (i + 1) (s.consputc (buf i).toNat)

theorem read_safe (p target : Nat) (dst : List UInt8) (g : Task) (own : g = .reading target dst ∨ dst = []) :
    LineSafe p (consolereadOn p target dst) g := by
  intro trace s task mine inv r s' executed _
  have midway : Task.Midway (.reading target dst) := by
    rcases own with reading | start
    · rw [← reading, ← mine]
      exact inv.reading p
    · rw [start]
      exact ⟨Nat.zero_le _, List.not_mem_nil, List.not_mem_nil⟩
  simp only [ConsoleOp.exec] at executed
  split at executed
  · cases executed
  · cases executed
    exact ⟨_, inv_read inv p target dst midway, rfl⟩

theorem calls_safe (p : Nat) (l g : Task) (prog : Prog ConsoleOp Task) (same : l = g) (allowed : Calls p l prog) :
    LineSafe p prog g := by
  cases allowed with
  | intr chars =>
    intro trace s task _ inv r s' executed _
    cases executed
    exact ⟨.idle, inv_intr inv p chars, rfl⟩
  | read n => exact read_safe p n.toNat [] g (.inr rfl)
  | readOn target dst => exact read_safe p target dst g (.inl same.symm)
  | write buf n =>
    intro trace s task _ inv r s' executed _
    cases executed
    exact ⟨.idle, inv_other inv p (.write buf n) () _ rfl rfl rfl trivial (write_loop_input buf n.toNat 0 s), rfl⟩
  | kill q =>
    intro trace s task _ inv r s' executed _
    cases executed
    exact ⟨.idle, inv_other inv p (.kill q) () _ rfl rfl rfl trivial rfl, rfl⟩

end

theorem fresh_inv (s : Cons) (fresh : s.Fresh) : LineInv [] s fun _ => .idle := by
  obtain ⟨r, w, e⟩ := fresh.counters
  have bound : 0 < 2 ^ 32 := by decide
  have none : ringCount (2 ^ 32) 0 0 = 0 := (ring_count_zero bound bound).mpr rfl
  have valid : s.input.Valid := by
    refine ⟨?_, ?_, ?_, ?_, ?_, fun _ => ?_⟩
    · rw [r]
      exact bound
    · rw [w]
      exact bound
    · rw [e]
      exact bound
    · exact Nat.le_of_eq (by rw [r, w, e])
    · rw [r, e, none]
      exact Nat.zero_le _
    · rw [w, e]
  have queue : s.input.queue = [] := (queue_empty_iff valid).mp (by rw [r, w])
  have line : s.input.line = [] := (line_empty_iff valid).mp (by rw [e, w])
  refine ⟨⟨valid, Nat.le_refl _, queue, line, List.not_mem_nil⟩, rfl, rfl, fun _ => trivial, fun e member => ?_⟩
  cases member

theorem console_line_discipline (s : Cons) (fresh : s.Fresh) (trace : List ConsoleEvent) (c : Config ConsoleOp Cons Task)
    (reached : Reach ConsoleOp.exec Calls (fun _ => True) ⟨s, fun _ => .ret .idle⟩ trace c) :
    let i := c.shared.input
    ringCount (2 ^ 32) i.r i.w ≤ ringCount (2 ^ 32) i.r i.e ∧ ringCount (2 ^ 32) i.r i.e ≤ inputBuf ∧
      (ringCount (2 ^ 32) i.r i.e = inputBuf → i.w = i.e) ∧ i.line = (edited trace).pending ∧
      (edited trace).committed = consumedBytes trace ++ i.queue ∧
      deliveredBytes trace = (consumedBytes trace).filter (· ≠ ctrl 'D') ∧
      ∀ e ∈ trace, e.act.ReadsWell e.pre e.post e.res := by
  have initially : ∃ task, LineInv [] s task ∧ ∀ p, LineSafe p (.ret .idle) (task p) :=
    ⟨fun _ => .idle, fresh_inv s fresh, fun _ => rfl⟩
  obtain ⟨task, inv, -⟩ := reach_invariant _ initially calls_safe reached
  have valid := inv.shows_.valid
  refine ⟨valid.order, valid.fits, valid.full, inv.shows_.line, ?_, inv.delivered, inv.reads⟩
  rw [inv.consumed, inv.shows_.queue, List.take_append_drop]

def bootCons : Cons := ⟨⟨fun _ => 0, 0, 0, 0⟩, fun _ => ⟨false, false⟩, []⟩

def typeAndRead : List (Turn ConsoleOp Task) :=
  [.call 0 .idle (consoleintr [104, 105, 8, 111, 13, 4]), .step 0, .call 1 .idle (consoleread 1 10), .step 1,
    .call 1 .idle (consoleread 1 10), .step 1]

theorem console_line_discipline_typed : ∃ trace c,
    Reach ConsoleOp.exec Calls (fun _ => True) ⟨bootCons, fun _ => .ret .idle⟩ trace c ∧
      deliveredBytes trace = [104, 111, 10] ∧ consumedBytes trace = [104, 111, 10, 4] ∧
      (edited trace).committed = consumedBytes trace ++ c.shared.input.queue := by
  have ran : ((⟨bootCons, fun _ => .ret .idle⟩ : Config ConsoleOp Cons Task).play ConsoleOp.exec typeAndRead).any
      (fun r => deliveredBytes r.1 == [104, 111, 10] && consumedBytes r.1 == [104, 111, 10, 4]) = true := by
    decide +kernel
  have allowed : ∀ turn ∈ typeAndRead, turn.Allowed Calls := by
    simp only [typeAndRead, List.forall_mem_cons, List.not_mem_nil, Turn.Allowed, false_implies, implies_true, and_true, true_and]
    exact ⟨.intr 0 _, .read 1 10, .read 1 10⟩
  obtain ⟨⟨trace, c⟩, played, good⟩ := (Option.any_eq_true _ _).mp ran
  obtain ⟨delivered, consumed⟩ := Bool.and_eq_true_iff.mp good
  have reached := play_reach typeAndRead (fun _ _ => trivial) allowed .init played
  exact ⟨_, c, reached, eq_of_beq delivered, eq_of_beq consumed,
    (console_line_discipline bootCons ⟨⟨rfl, rfl, rfl⟩, fun _ => rfl⟩ _ c reached).2.2.2.2.1⟩

end Xv6.Console
