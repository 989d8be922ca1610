import Xv6.Console.Model

set_option autoImplicit false

namespace Xv6.Console

-- The bytes committed so far, how many of them the readers have taken, and the line being edited.
structure Line where
  committed : List UInt8
  pending : List UInt8
  taken : Nat

namespace Line

def add (l : Line) (c : UInt8) : Line :=
  let line := l.pending ++ [c]
  if c = newline ∨ c = ctrl 'D' ∨ l.committed.length - l.taken + line.length = inputBuf then
    { l with committed := l.committed ++ line, pending := [] }
  else { l with pending := line }

def key (l : Line) (c : UInt8) : Line :=
  if c = ctrl 'P' then l
  else if c = ctrl 'U' then { l with pending := [] }
  else if c = ctrl 'H' ∨ c = delete then { l with pending := l.pending.dropLast }
  else if c = 0 ∨ inputBuf ≤ l.committed.length - l.taken + l.pending.length then l
  else l.add (if c = carriageReturn then newline else c)

end Line

def ReadResult.dst : ReadResult → List UInt8
  | .returned dst => dst
  | .failed dst => dst
  | .asleep dst => dst

def ReadResult.eof (target : Nat) : ReadResult → List UInt8
  | .returned [] => if target = 0 then [] else [ctrl 'D']
  | _ => []

def ConsoleOp.delivered {β : Type} : ConsoleOp β → β → List UInt8
  | .read _ _ dst, r => r.dst.drop dst.length
  | _, _ => []

def ConsoleOp.consumed {β : Type} : ConsoleOp β → β → List UInt8
  | .read _ target dst, r => r.dst.drop dst.length ++ r.eof target
  | _, _ => []

def ConsoleOp.typed {β : Type} : ConsoleOp β → List UInt8
  | .intr chars => chars
  | _ => []

def Line.read (l : Line) (bytes : List UInt8) : Line := { l with taken := l.taken + bytes.length }

def Line.event (l : Line) (e : ConsoleEvent) : Line := (e.act.typed.foldl Line.key l).read (e.act.consumed e.res)

def edited (trace : List ConsoleEvent) : Line := trace.foldl Line.event ⟨[], [], 0⟩

def deliveredBytes (trace : List ConsoleEvent) : List UInt8 := trace.flatMap fun e => e.act.delivered e.res

def consumedBytes (trace : List ConsoleEvent) : List UInt8 := trace.flatMap fun e => e.act.consumed e.res

namespace Input

def queue (i : Input) : List UInt8 := ringContents inputBuf (2 ^ 32) i.buf i.r i.w

def line (i : Input) : List UInt8 := ringContents inputBuf (2 ^ 32) i.buf i.w i.e

structure Valid (i : Input) : Prop where
  rBound : i.r < 2 ^ 32
  wBound : i.w < 2 ^ 32
  eBound : i.e < 2 ^ 32
  order : ringCount (2 ^ 32) i.r i.w ≤ ringCount (2 ^ 32) i.r i.e
  fits : ringCount (2 ^ 32) i.r i.e ≤ inputBuf
  full : ringCount (2 ^ 32) i.r i.e = inputBuf → i.w = i.e

end Input

section

variable {i : Input}

theorem slots_divide : inputBuf ∣ 2 ^ 32 := by decide

theorem contents_split (valid : i.Valid) : ringContents inputBuf (2 ^ 32) i.buf i.r i.e = i.queue ++ i.line :=
  ring_split i.buf slots_divide valid.rBound valid.wBound valid.eBound valid.order

theorem unread_count (valid : i.Valid) : ringCount (2 ^ 32) i.r i.e = i.queue.length + i.line.length := by
  rw [Input.queue, Input.line, ring_contents_length, ring_contents_length]
  exact (ring_count_add valid.rBound valid.wBound valid.eBound valid.order).symm

theorem line_empty_iff (valid : i.Valid) : i.e = i.w ↔ i.line = [] := by
  rw [← List.length_eq_zero_iff, Input.line, ring_contents_length, ring_count_zero valid.wBound valid.eBound]
  exact eq_comm

theorem queue_empty_iff (valid : i.Valid) : i.r = i.w ↔ i.queue = [] := by
  rw [← List.length_eq_zero_iff, Input.queue, ring_contents_length, ring_count_zero valid.rBound valid.wBound]

structure Put (i i' : Input) (c : UInt8) : Prop where
  bounds : i'.r < 2 ^ 32 ∧ i'.w < 2 ^ 32 ∧ i'.e < 2 ^ 32
  count : ringCount (2 ^ 32) i'.r i'.e = i.queue.length + i.line.length + 1
  same : ringCount (2 ^ 32) i'.r i'.w = i.queue.length
  queue : i'.queue = i.queue
  line : i'.line = i.line ++ [c]

theorem put_effect (valid : i.Valid) (c : UInt8) (room : ringCount (2 ^ 32) i.r i.e < inputBuf) : Put i (i.put c) c := by
  have bound : (i.put c).e < 2 ^ 32 := Nat.mod_lt _ (by decide)
  have count := ring_count_push valid.rBound valid.eBound (Nat.lt_trans (Nat.succ_lt_succ room) (by decide))
  have same : ringCount (2 ^ 32) i.r i.w = i.queue.length := by rw [Input.queue, ring_contents_length]
  have order : ringCount (2 ^ 32) (i.put c).r (i.put c).w ≤ ringCount (2 ^ 32) (i.put c).r (i.put c).e := by
    have before := valid.order
    show ringCount (2 ^ 32) i.r i.w ≤ ringCount (2 ^ 32) i.r ((i.e + 1) % 2 ^ 32)
    omega
  have whole := ring_push i.buf c slots_divide valid.rBound valid.eBound (by decide) room
  have split : (i.put c).queue ++ (i.put c).line = i.queue ++ (i.line ++ [c]) := by
    rw [← List.append_assoc, ← contents_split valid, ← whole]
    exact (ring_split (i.put c).buf slots_divide valid.rBound valid.wBound bound order).symm
  have lengths : (i.put c).queue.length = i.queue.length := by
    rw [Input.queue, Input.queue, ring_contents_length, ring_contents_length]
    rfl
  obtain ⟨queue, line⟩ := List.append_inj split lengths
  exact ⟨⟨valid.rBound, valid.wBound, bound⟩, by rw [← unread_count valid]; exact count, same, queue, line⟩

theorem put_valid {i' : Input} {c : UInt8} (put : Put i i' c) (room : i.queue.length + i.line.length + 1 < inputBuf) :
    i'.Valid := by
  obtain ⟨r, w, e⟩ := put.bounds
  refine ⟨r, w, e, ?_, ?_, fun full => ?_⟩
  · rw [put.count, put.same]
    omega
  · rw [put.count]
    omega
  · rw [put.count] at full
    omega

theorem put_commit {i' : Input} {c : UInt8} (put : Put i i' c) (room : i.queue.length + i.line.length < inputBuf) :
    i'.commit.Valid ∧ i'.commit.queue = i.queue ++ (i.line ++ [c]) ∧ i'.commit.line = [] := by
  obtain ⟨r, w, e⟩ := put.bounds
  have fits : ringCount (2 ^ 32) i'.r i'.e ≤ inputBuf := by
    rw [put.count]
    exact room
  have order : ringCount (2 ^ 32) i'.r i'.w ≤ ringCount (2 ^ 32) i'.r i'.e := by
    rw [put.count, put.same]
    omega
  refine ⟨⟨r, e, e, Nat.le_refl _, fits, fun _ => rfl⟩, ?_, ring_contents_empty i'.buf e⟩
  rw [← put.queue, ← put.line]
  exact ring_split i'.buf slots_divide r w e order

theorem dec_eq {x : Nat} (bound : x < 2 ^ 32) : dec x = (x + (2 ^ 32 - 1)) % 2 ^ 32 := by
  unfold dec
  split <;> omega

theorem erase_effect (valid : i.Valid) (some : i.e ≠ i.w) : i.erase.Valid ∧ i.erase.queue = i.queue ∧
    i.line = i.erase.line ++ [i.buf (dec i.e % inputBuf)] := by
  have back := dec_eq valid.eBound
  have bound : dec i.e < 2 ^ 32 := by
    rw [back]
    exact Nat.mod_lt _ (by decide)
  have nonempty : ringCount (2 ^ 32) i.w i.e ≠ 0 := fun zero =>
    some ((ring_count_zero valid.wBound valid.eBound).mp zero).symm
  have whole := ring_count_add valid.rBound valid.wBound valid.eBound valid.order
  have less := ring_count_unpush valid.rBound valid.eBound (by omega)
  have last := ring_unpush i.buf slots_divide valid.wBound valid.eBound nonempty
  rw [← back] at less last
  have fits := valid.fits
  refine ⟨⟨valid.rBound, valid.wBound, bound, ?_, ?_, fun full => ?_⟩, rfl, last⟩
  · show ringCount (2 ^ 32) i.r i.w ≤ ringCount (2 ^ 32) i.r (dec i.e)
    omega
  · show ringCount (2 ^ 32) i.r (dec i.e) ≤ inputBuf
    omega
  · have count : ringCount (2 ^ 32) i.r (dec i.e) = inputBuf := full
    omega

theorem next_effect (valid : i.Valid) (some : i.r ≠ i.w) : i.next.Valid ∧ i.next.line = i.line ∧
    i.queue = i.buf (i.r % inputBuf) :: i.next.queue := by
  have bound : i.next.r < 2 ^ 32 := Nat.mod_lt _ (by decide)
  have nonempty : ringCount (2 ^ 32) i.r i.w ≠ 0 := fun zero => some ((ring_count_zero valid.rBound valid.wBound).mp zero)
  have order := valid.order
  have fits := valid.fits
  have less : ringCount (2 ^ 32) i.next.r i.w + 1 = ringCount (2 ^ 32) i.r i.w :=
    ring_count_pop valid.rBound valid.wBound nonempty
  have less' : ringCount (2 ^ 32) i.next.r i.e + 1 = ringCount (2 ^ 32) i.r i.e :=
    ring_count_pop valid.rBound valid.eBound (by omega)
  refine ⟨⟨bound, valid.wBound, valid.eBound, ?_, ?_, fun full => ?_⟩, rfl,
    ring_pop i.buf slots_divide valid.rBound valid.wBound nonempty⟩
  · show ringCount (2 ^ 32) i.next.r i.w ≤ ringCount (2 ^ 32) i.next.r i.e
    omega
  · show ringCount (2 ^ 32) i.next.r i.e ≤ inputBuf
    omega
  · have count : ringCount (2 ^ 32) i.next.r i.e = inputBuf := full
    omega

theorem unread_next (valid : i.Valid) : i.next.unread = i := by
  have bound := valid.rBound
  have back : dec ((i.r + 1) % 2 ^ 32) = i.r := by
    unfold dec
    split <;> omega
  unfold Input.unread Input.next
  simp only [back]

end

end Xv6.Console
