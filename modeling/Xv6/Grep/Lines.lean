import Xv6.Grep.Match

set_option autoImplicit false

namespace Xv6.Grep

def newline : UInt8 := 10

-- ulib's strchr: how far the first c is, if it comes before the NUL.
def strchr (c : UInt8) : Text → Option Nat
  | [] => none
  | x :: s => if x = 0 then none else if x = c then some 0 else (strchr c s).map (· + 1)

def scan (pattern : Text) : Nat → Text → Text × Text
  | 0, p => ([], p)
  | left + 1, p =>
    match strchr newline p with
    | none => ([], p)
    | some q =>
      let rest := scan pattern left (p.drop (q + 1))
      ((if match_ pattern (p.take q) then p.take (q + 1) else []) ++ rest.1, rest.2)

-- The bytes moved to the front of buf after the loop has stopped at p. If p == buf, m is 0.
def kept (buf p : Text) : Text := if p.length = buf.length then [] else p

-- read(fd, buf+m, sizeof(buf)-m-1) with n + 1 bytes ready, or less at the end of the input.
def readCount (n m : Nat) (input : Text) : Nat := min (min (n + 1) (1024 - m - 1)) input.length

-- buf holds the m bytes kept, ready is what each read finds; the input's length bounds the rounds.
def grepLoop (pattern : Text) (ready : Nat → Nat) : Nat → Nat → Text → Text → Text
  | 0, _, _, _ => []
  | left + 1, i, buf, input =>
    let n := readCount (ready i) buf.length input
    if n = 0 then []
    else
      let buf := buf ++ input.take n
      let done := scan pattern buf.length buf
      done.1 ++ grepLoop pattern ready left (i + 1) (kept buf done.2) (input.drop n)

def grep (pattern : Text) (ready : Nat → Nat) (input : Text) : Text := grepLoop pattern ready input.length 0 [] input

def linesFrom (line : Text) : Text → List Text
  | [] => []
  | c :: s => if c = newline then line :: linesFrom [] s else linesFrom (line ++ [c]) s

def lines (input : Text) : List Text := linesFrom [] input

def matching (pattern : Text) (ls : List Text) : Text := (ls.filter (match_ pattern)).flatMap (· ++ [newline])

def remainder (line : Text) : Text → Text
  | [] => line
  | c :: s => if c = newline then remainder [] s else remainder (line ++ [c]) s

def pieces (ready : Nat → Nat) : Nat → Nat → Text → Text → List Text
  | 0, _, _, _ => []
  | left + 1, i, buf, input =>
    let n := readCount (ready i) buf.length input
    if n = 0 then []
    else
      let whole := buf ++ input.take n
      input.take n :: pieces ready left (i + 1) (kept whole (remainder [] whole)) (input.drop n)

-- Every piece has a newline in it, or no newline comes after it.
def EndsLine : List Text → Prop
  | [] => True
  | piece :: rest => (newline ∈ piece ∨ newline ∉ rest.flatten) ∧ EndsLine rest

section

variable {line a b p : Text}

theorem lines_append (line a b : Text) : linesFrom line (a ++ b) = linesFrom line a ++ linesFrom (remainder line a) b := by
  induction a generalizing line with
  | nil => rfl
  | cons c s ih =>
    rw [List.cons_append, linesFrom, linesFrom, remainder]
    split
    · rw [ih, List.cons_append]
    · exact ih _

theorem remainder_append (line a b : Text) : remainder line (a ++ b) = remainder (remainder line a) b := by
  induction a generalizing line with
  | nil => rfl
  | cons c s ih =>
    rw [List.cons_append, remainder, remainder]
    split
    · exact ih _
    · exact ih _

theorem lines_none (none_ : newline ∉ a) : linesFrom line a = [] := by
  induction a generalizing line with
  | nil => rfl
  | cons c s ih =>
    rw [linesFrom, if_neg (Ne.symm (List.ne_of_not_mem_cons none_))]
    exact ih (List.not_mem_of_not_mem_cons none_)

theorem remainder_none (none_ : newline ∉ a) : remainder line a = line ++ a := by
  induction a generalizing line with
  | nil => rw [remainder, List.append_nil]
  | cons c s ih =>
    rw [remainder, if_neg (Ne.symm (List.ne_of_not_mem_cons none_)), ih (List.not_mem_of_not_mem_cons none_), List.append_assoc]
    rfl

theorem remainder_clean (clean : newline ∉ line) : newline ∉ remainder line a := by
  induction a generalizing line with
  | nil => exact clean
  | cons c s ih =>
    rw [remainder]
    split
    · exact ih List.not_mem_nil
    · next other =>
        refine ih fun member => ?_
        rcases List.mem_append.mp member with old | new
        · exact clean old
        · exact other (List.mem_singleton.mp new).symm

theorem remainder_short (some_ : newline ∈ a) : (remainder line a).length < a.length := by
  induction a generalizing line with
  | nil => cases some_
  | cons c s ih =>
    rw [remainder, List.length_cons]
    by_cases later : newline ∈ s
    · split
      · exact Nat.lt_succ_of_lt (ih later)
      · exact Nat.lt_succ_of_lt (ih later)
    · have first : c = newline := ((List.mem_cons.mp some_).resolve_right later).symm
      rw [if_pos first, remainder_none later, List.nil_append]
      exact Nat.lt_succ_self _

theorem remainder_suffix (line a : Text) : remainder line a <:+ line ++ a := by
  induction a generalizing line with
  | nil => exact ⟨[], (List.append_nil line).symm⟩
  | cons c s ih =>
    rw [remainder]
    split
    · have tail := ih []
      rw [List.nil_append] at tail
      exact tail.trans ⟨line ++ [c], by rw [List.append_assoc]; rfl⟩
    · have tail := ih (line ++ [c])
      rw [List.append_assoc] at tail
      exact tail

theorem strchr_none (text : (0 : UInt8) ∉ p) (none_ : strchr newline p = none) : newline ∉ p := by
  induction p with
  | nil => exact List.not_mem_nil
  | cons x s ih =>
    rw [strchr, if_neg (Ne.symm (List.ne_of_not_mem_cons text))] at none_
    split at none_
    · cases none_
    · next other =>
        rw [Option.map_eq_none_iff] at none_
        rw [List.mem_cons, not_or]
        exact ⟨Ne.symm other, ih (List.not_mem_of_not_mem_cons text) none_⟩

theorem strchr_some {q : Nat} (found : strchr newline p = some q) :
    newline ∉ p.take q ∧ p = p.take q ++ newline :: p.drop (q + 1) ∧ p.take (q + 1) = p.take q ++ [newline] := by
  induction p generalizing q with
  | nil => cases found
  | cons x s ih =>
    rw [strchr] at found
    split at found
    · cases found
    · split at found
      · next same =>
          cases found
          rw [same]
          exact ⟨List.not_mem_nil, rfl, rfl⟩
      · next other =>
          obtain ⟨r, later, rfl⟩ := Option.map_eq_some_iff.mp found
          obtain ⟨clean, split_, upto⟩ := ih later
          rw [List.take_succ_cons, List.drop_succ_cons, List.take_succ_cons, List.mem_cons, not_or, List.cons_append, ← split_, upto]
          exact ⟨⟨Ne.symm other, clean⟩, rfl, rfl⟩

theorem matching_append (pattern : Text) (ls ls' : List Text) :
    matching pattern (ls ++ ls') = matching pattern ls ++ matching pattern ls' := by
  unfold matching
  rw [List.filter_append, List.flatMap_append]

theorem matching_cons (pattern l : Text) (ls : List Text) :
    matching pattern (l :: ls) = (if match_ pattern l then l ++ [newline] else []) ++ matching pattern ls := by
  unfold matching
  rw [List.filter_cons]
  split
  · rw [List.flatMap_cons]
  · rfl

theorem scan_lines (pattern : Text) (left : Nat) (p : Text) (text : (0 : UInt8) ∉ p) (enough : p.length ≤ left) :
    scan pattern left p = (matching pattern (lines p), remainder [] p) := by
  induction left generalizing p with
  | zero =>
    rw [List.length_eq_zero_iff.mp (Nat.le_zero.mp enough)]
    rfl
  | succ left ih =>
    rw [scan]
    cases found : strchr newline p with
    | none =>
      have clean := strchr_none text found
      rw [lines, lines_none clean, remainder_none clean]
      rfl
    | some q =>
      obtain ⟨clean, split_, upto⟩ := strchr_some found
      have sizes := congrArg List.length split_
      rw [List.length_append, List.length_cons] at sizes
      have rest := ih (p.drop (q + 1)) (fun member => text (List.mem_of_mem_drop member)) (by omega)
      have first : lines p = p.take q :: lines (p.drop (q + 1)) := by
        rw [lines, split_, lines_append, lines_none clean, remainder_none clean, List.nil_append, linesFrom, if_pos rfl, ← split_]
        rfl
      have last : remainder [] p = remainder [] (p.drop (q + 1)) := by
        rw [split_, remainder_append, remainder, if_pos rfl, ← split_]
      dsimp only
      rw [rest, first, last, matching_cons, upto]

theorem kept_some (clean : newline ∉ line) (some_ : newline ∈ a) : kept (line ++ a) (remainder [] (line ++ a)) = remainder line a := by
  have less : (remainder [] (line ++ a)).length < (line ++ a).length := remainder_short (List.mem_append_right line some_)
  rw [kept, if_neg (Nat.ne_of_lt less), remainder_append, remainder_none clean, List.nil_append]

theorem kept_none (clean : newline ∉ line) (none_ : newline ∉ a) : kept (line ++ a) (remainder [] (line ++ a)) = [] := by
  rw [kept, remainder_append, remainder_none clean, List.nil_append, remainder_none none_, if_pos rfl]

theorem lines_whole (clean : newline ∉ line) : lines (line ++ a) = linesFrom line a := by
  rw [lines, lines_append, lines_none clean, remainder_none clean, List.nil_append, List.nil_append]

theorem lines_first {before after : Text} (clean : newline ∉ before) (line : Text) :
    linesFrom line (before ++ newline :: after) = (line ++ before) :: linesFrom [] after := by
  rw [lines_append, lines_none clean, remainder_none clean, List.nil_append, linesFrom, if_pos rfl]

theorem match_empty (text : Text) : match_ [] text = true := by
  cases text <;> rfl

theorem lines_longer (line a : Text) (some_ : newline ∈ a) :
    (matching [] (linesFrom line a)).length = line.length + (matching [] (linesFrom [] a)).length := by
  obtain ⟨before, after, rfl, clean⟩ := List.eq_append_cons_of_mem some_
  rw [lines_first clean, lines_first clean, matching_cons, matching_cons, if_pos (match_empty _), if_pos (match_empty _)]
  simp only [List.length_append, List.nil_append]
  omega

end

section

variable {ready : Nat → Nat} {left i : Nat} {buf input : Text}

structure Pending (buf input : Text) : Prop where
  text : (0 : UInt8) ∉ buf ++ input
  clean : newline ∉ buf
  short : ∀ line, line <:+: buf ++ input → newline ∉ line → line.length < 1023

theorem pending_infix {buf' input' : Text} (pending : Pending buf input) (clean : newline ∉ buf') (inside : buf' ++ input' <:+: buf ++ input) :
    Pending buf' input' := by
  refine ⟨fun zero => pending.text (inside.subset zero), clean, fun line within => ?_⟩
  exact pending.short line (within.trans inside)

theorem read_some (pending : Pending buf input) (more : input ≠ []) (n : Nat) : 0 < readCount n buf.length input := by
  have room := pending.short buf (List.infix_append' [] buf input) pending.clean
  have length := List.length_pos_iff.mpr more
  unfold readCount
  omega

def carry (buf piece : Text) : Text := if newline ∈ piece then remainder buf piece else []

theorem kept_carry (clean : newline ∉ buf) (piece : Text) :
    kept (buf ++ piece) (remainder [] (buf ++ piece)) = carry buf piece := by
  by_cases some_ : newline ∈ piece
  · rw [carry, if_pos some_]
    exact kept_some clean some_
  · rw [carry, if_neg some_]
    exact kept_none clean some_

theorem pending_carry {piece rest : Text} (pending : Pending buf (piece ++ rest)) : Pending (carry buf piece) rest := by
  by_cases some_ : newline ∈ piece
  · rw [carry, if_pos some_]
    refine pending_infix pending (remainder_clean pending.clean) ?_
    obtain ⟨before, split_⟩ := remainder_suffix buf piece
    rw [← List.append_assoc buf piece rest, ← split_, List.append_assoc]
    exact (List.suffix_append _ _).isInfix
  · rw [carry, if_neg some_]
    refine pending_infix pending List.not_mem_nil ?_
    rw [List.nil_append, ← List.append_assoc buf piece rest]
    exact (List.suffix_append _ _).isInfix

theorem round (pending : Pending buf input) (more : input ≠ []) (ready : Nat → Nat) (left i : Nat) :
    ∃ piece rest, input = piece ++ rest ∧ piece ≠ [] ∧
      pieces ready (left + 1) i buf input = piece :: pieces ready left (i + 1) (carry buf piece) rest ∧
      ∀ pattern, grepLoop pattern ready (left + 1) i buf input =
        matching pattern (linesFrom buf piece) ++ grepLoop pattern ready left (i + 1) (carry buf piece) rest := by
  have some_ := read_some pending more (ready i)
  generalize count : readCount (ready i) buf.length input = n at some_
  have nonzero : n ≠ 0 := Nat.ne_of_gt some_
  have part : buf ++ input.take n <+: buf ++ input := List.prefix_append_right_inj buf |>.mpr (List.take_prefix n input)
  have text : (0 : UInt8) ∉ buf ++ input.take n := fun zero => pending.text (part.subset zero)
  refine ⟨input.take n, input.drop n, (List.take_append_drop n input).symm, ?_, ?_, fun pattern => ?_⟩
  · intro none_
    rcases List.take_eq_nil_iff.mp none_ with zero | done
    · exact nonzero zero
    · exact more done
  · simp only [pieces, count, if_neg nonzero, kept_carry pending.clean]
  · simp only [grepLoop, count, if_neg nonzero, scan_lines pattern _ _ text (Nat.le_refl _), kept_carry pending.clean,
      lines_whole pending.clean]

theorem stops (pattern : Text) (ready : Nat → Nat) (left i : Nat) (buf : Text) : grepLoop pattern ready left i buf [] = [] := by
  cases left with
  | zero => rfl
  | succ left => rw [grepLoop, readCount, List.length_nil, Nat.min_zero, if_pos rfl]

theorem pieces_stop (ready : Nat → Nat) (left i : Nat) (buf : Text) : pieces ready left i buf [] = [] := by
  cases left with
  | zero => rfl
  | succ left => rw [pieces, readCount, List.length_nil, Nat.min_zero, if_pos rfl]

theorem loop_induction {motive : Nat → Nat → Text → Text → Prop} (ready : Nat → Nat)
    (done : ∀ left i buf, motive left i buf [])
    (step : ∀ left i buf piece rest, Pending buf (piece ++ rest) → piece ≠ [] → rest.length ≤ left →
      pieces ready (left + 1) i buf (piece ++ rest) = piece :: pieces ready left (i + 1) (carry buf piece) rest →
      (∀ pattern, grepLoop pattern ready (left + 1) i buf (piece ++ rest) =
        matching pattern (linesFrom buf piece) ++ grepLoop pattern ready left (i + 1) (carry buf piece) rest) →
      motive left (i + 1) (carry buf piece) rest → motive (left + 1) i buf (piece ++ rest))
    (left i : Nat) (buf input : Text) (pending : Pending buf input) (enough : input.length ≤ left) : motive left i buf input := by
  induction left generalizing i buf input with
  | zero =>
    rw [List.length_eq_zero_iff.mp (Nat.le_zero.mp enough)]
    exact done 0 i buf
  | succ left ih =>
    by_cases more : input = []
    · rw [more]
      exact done (left + 1) i buf
    · obtain ⟨piece, rest, rfl, nonempty, taken, output⟩ := round pending more ready left i
      have shorter : rest.length ≤ left := by
        have size := List.length_pos_iff.mpr nonempty
        rw [List.length_append] at enough
        omega
      exact step left i buf piece rest pending nonempty shorter taken output
        (ih (i + 1) (carry buf piece) rest (pending_carry pending) shorter)

theorem pieces_flatten (ready : Nat → Nat) (left i : Nat) (buf input : Text) (pending : Pending buf input)
    (enough : input.length ≤ left) : (pieces ready left i buf input).flatten = input := by
  refine loop_induction (motive := fun left i buf input => (pieces ready left i buf input).flatten = input) ready ?_ ?_
    left i buf input pending enough
  · intro left i buf
    rw [pieces_stop, List.flatten_nil]
  · intro left i buf piece rest _ _ _ taken _ ih
    rw [taken, List.flatten_cons, ih]

theorem loop_lines (pattern : Text) (ready : Nat → Nat) (left i : Nat) (buf input : Text) (pending : Pending buf input)
    (enough : input.length ≤ left) (ends : EndsLine (pieces ready left i buf input)) :
    grepLoop pattern ready left i buf input = matching pattern (linesFrom buf input) := by
  refine loop_induction (motive := fun left i buf input => EndsLine (pieces ready left i buf input) →
    grepLoop pattern ready left i buf input = matching pattern (linesFrom buf input)) ready ?_ ?_ left i buf input pending enough ends
  · intro left i buf _
    rw [stops]
    rfl
  · intro left i buf piece rest pending _ shorter taken output ih ends
    rw [taken, EndsLine, pieces_flatten ready left (i + 1) _ rest (pending_carry pending) shorter] at ends
    rw [output pattern, ih ends.2, lines_append, matching_append]
    by_cases some_ : newline ∈ piece
    · rw [carry, if_pos some_]
    · have last : newline ∉ rest := ends.1.resolve_left some_
      rw [lines_none last, lines_none last]

theorem loop_loses (ready : Nat → Nat) (left i : Nat) (buf input : Text) (pending : Pending buf input) (enough : input.length ≤ left) :
    (grepLoop [] ready left i buf input).length ≤ (matching [] (linesFrom buf input)).length ∧
      ((grepLoop [] ready left i buf input).length = (matching [] (linesFrom buf input)).length →
        EndsLine (pieces ready left i buf input)) := by
  refine loop_induction (motive := fun left i buf input =>
    (grepLoop [] ready left i buf input).length ≤ (matching [] (linesFrom buf input)).length ∧
      ((grepLoop [] ready left i buf input).length = (matching [] (linesFrom buf input)).length →
        EndsLine (pieces ready left i buf input))) ready ?_ ?_ left i buf input pending enough
  · intro left i buf
    rw [stops, pieces_stop]
    exact ⟨Nat.le_refl 0, fun _ => trivial⟩
  · intro left i buf piece rest pending nonempty shorter taken output ih
    rw [taken, EndsLine, pieces_flatten ready left (i + 1) _ rest (pending_carry pending) shorter, output [], lines_append,
      matching_append, List.length_append, List.length_append]
    by_cases some_ : newline ∈ piece
    · rw [carry, if_pos some_] at ih ⊢
      exact ⟨Nat.add_le_add_left ih.1 _, fun same => ⟨.inl some_, ih.2 (Nat.add_left_cancel same)⟩⟩
    · rw [carry, if_neg some_] at ih ⊢
      by_cases later : newline ∈ rest
      · have size : 0 < (remainder buf piece).length := by
          rw [remainder_none some_, List.length_append]
          exact Nat.add_pos_right _ (List.length_pos_iff.mpr nonempty)
        have longer := lines_longer (remainder buf piece) rest later
        refine ⟨by omega, fun same => ?_⟩
        have := ih.1
        omega
      · rw [lines_none later] at ih ⊢
        exact ⟨Nat.add_le_add_left ih.1 _, fun same => ⟨.inr later, ih.2 (Nat.add_left_cancel same)⟩⟩

-- A read that stops inside a line without having ended one is dropped.
theorem grep_prints_lines_iff (ready : Nat → Nat) (input : Text) (text : (0 : UInt8) ∉ input)
    (short : ∀ line, line <:+: input → newline ∉ line → line.length < 1023) :
    (∀ pattern, grep pattern ready input = matching pattern (lines input)) ↔
      EndsLine (pieces ready input.length 0 [] input) := by
  have pending : Pending [] input := ⟨text, List.not_mem_nil, short⟩
  constructor
  · intro all
    refine (loop_loses ready input.length 0 [] input pending (Nat.le_refl _)).2 ?_
    exact congrArg List.length (all [])
  · intro ends pattern
    exact loop_lines pattern ready input.length 0 [] input pending (Nat.le_refl _) ends

theorem grep_prints_lines_of_two_reads :
    grep [99] (fun _ => 2) [97, 98, 10, 99, 100, 10] = matching [99] (lines [97, 98, 10, 99, 100, 10]) := by
  refine (grep_prints_lines_iff (fun _ => 2) [97, 98, 10, 99, 100, 10] (by decide) ?_).mpr ?_ [99]
  · exact fun line inside _ => Nat.lt_of_le_of_lt inside.length_le (by decide)
  · exact ⟨.inl (by decide), .inl (by decide), trivial⟩

-- "ab\n" delivered byte by byte, and in one read.
theorem grep_loses_split_line :
    (0 : UInt8) ∉ ([97, 98, 10] : Text) ∧
      (∀ line, line <:+: ([97, 98, 10] : Text) → newline ∉ line → line.length < 1023) ∧
      matching [97] (lines [97, 98, 10]) = [97, 98, 10] ∧
      grep [97] (fun _ => 2) [97, 98, 10] = [97, 98, 10] ∧ grep [97] (fun _ => 0) [97, 98, 10] = [] := by
  refine ⟨by decide, fun line inside _ => Nat.lt_of_le_of_lt inside.length_le (by decide), by decide, by decide, by decide⟩

end

end Xv6.Grep
