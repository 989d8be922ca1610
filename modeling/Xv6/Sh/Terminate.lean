import Xv6.Sh.Pointers

set_option autoImplicit false

namespace Xv6.Sh.Ptr

def IsString (mem : Nat → UInt8) (q : Nat) (word : Word) : Prop :=
  (∀ i (less : i < word.length), mem (q + i) = word[i] ∧ word[i] ≠ 0) ∧ mem (q + word.length) = 0

-- The tree that pointers and strings in memory make up.
def Reads (mem : Nat → UInt8) : PCmd → Cmd → Prop
  | .exec argv _, .exec words => words.length < maxargs ∧ argv words.length = none ∧
      ∀ i (less : i < words.length), ∃ q, argv i = some q ∧ IsString mem q words[i]
  | .redir cmd file _ mode fd, .redir cmd' word mode' fd' =>
    Reads mem cmd cmd' ∧ IsString mem file word ∧ mode = mode' ∧ fd = fd'
  | .pipe left right, .pipe left' right' => Reads mem left left' ∧ Reads mem right right'
  | .list left right, .list left' right' => Reads mem left left' ∧ Reads mem right right'
  | .back cmd, .back cmd' => Reads mem cmd cmd'
  | _, _ => False

def wordEnds (argv eargv : Nat → Option Nat) : Nat → Nat → List Nat
  | 0, _ => []
  | left + 1, i =>
    match argv i, eargv i with
    | some _, some e => e :: wordEnds argv eargv left (i + 1)
    | _, _ => []

def ends : PCmd → List Nat
  | .exec argv eargv => wordEnds argv eargv maxargs 0
  | .redir cmd _ efile _ _ => ends cmd ++ [efile]
  | .pipe left right => ends left ++ ends right
  | .list left right => ends left ++ ends right
  | .back cmd => ends cmd

def Buffer.zeros (b : Buffer) (at_ : List Nat) : Buffer := at_.foldl Buffer.zero b

theorem zeros_mem (b : Buffer) (at_ : List Nat) (i : Nat) : (b.zeros at_).mem i = if i ∈ at_ then 0 else b.mem i := by
  induction at_ generalizing b with
  | nil => rfl
  | cons e rest ih =>
    show ((b.zero e).zeros rest).mem i = _
    rw [ih]
    by_cases later : i ∈ rest
    · rw [if_pos later, if_pos (List.mem_cons_of_mem e later)]
    · rw [if_neg later]
      by_cases here : i = e
      · rw [here, if_pos List.mem_cons_self]
        exact if_pos rfl
      · rw [if_neg fun member => (List.mem_cons.mp member).elim here later]
        exact if_neg here

theorem zeros_writes (b : Buffer) (at_ : List Nat) : (b.zeros at_).writes = b.writes ++ at_ := by
  induction at_ generalizing b with
  | nil => exact (List.append_nil _).symm
  | cons e rest ih =>
    show ((b.zero e).zeros rest).writes = _
    rw [ih]
    show b.writes ++ [e] ++ rest = _
    rw [List.append_assoc]
    rfl

theorem zeros_append (b : Buffer) (at_ at' : List Nat) : b.zeros (at_ ++ at') = (b.zeros at_).zeros at' := List.foldl_append

theorem zeroWords_eq (argv eargv : Nat → Option Nat) (left i : Nat) (b : Buffer) :
    zeroWords argv eargv left i b = b.zeros (wordEnds argv eargv left i) := by
  induction left generalizing i b with
  | zero => rfl
  | succ left ih =>
    unfold zeroWords wordEnds
    cases argv i with
    | none => rfl
    | some q =>
      cases eargv i with
      | none => rfl
      | some e => exact ih (i + 1) (b.zero e)

theorem nulterminate_eq (cmd : PCmd) (b : Buffer) : nulterminate cmd b = b.zeros (ends cmd) := by
  induction cmd generalizing b with
  | exec argv eargv => exact zeroWords_eq argv eargv maxargs 0 b
  | redir cmd file efile mode fd ih =>
    rw [nulterminate, ends, ih, zeros_append]
    rfl
  | pipe left right left_ih right_ih => rw [nulterminate, ends, left_ih, right_ih, zeros_append]
  | list left right left_ih right_ih => rw [nulterminate, ends, left_ih, right_ih, zeros_append]
  | back cmd ih => exact ih b

def Gap (line : List UInt8) (e : Nat) : Prop := e ≤ line.length ∧ ∀ c ∈ (line.drop e).head?, plain c = false

section

variable {line : List UInt8}

theorem span_gap {q e : Nat} {word : Word} (span : Span line q e word) : Gap line e := ⟨span.bound, span.stop⟩

theorem wordEnds_gap {argv eargv : Nat → Option Nat} {words : List Word} (args : ArgSpans line argv eargv words)
    (last : argv words.length = none) (left i : Nat) (within : i ≤ words.length) :
    ∀ e ∈ wordEnds argv eargv left i, Gap line e := by
  induction left generalizing i with
  | zero => exact nofun
  | succ left ih =>
    unfold wordEnds
    rcases Nat.lt_or_eq_of_le within with less | rfl
    · obtain ⟨q, e, argv_, eargv_, span⟩ := args.spans i less
      rw [argv_, eargv_]
      intro e' member
      rcases List.mem_cons.mp member with rfl | later
      · exact span_gap span
      · exact ih (i + 1) less e' later
    · rw [last]
      exact nofun

theorem ends_gap {cmd : PCmd} {cmd' : Cmd} (spans : Spans line cmd cmd') : ∀ e ∈ ends cmd, Gap line e := by
  induction cmd generalizing cmd' with
  | exec argv eargv =>
    cases cmd' with
    | exec words => exact wordEnds_gap spans.1 spans.2 maxargs 0 (Nat.zero_le _)
    | _ => exact spans.elim
  | redir cmd file efile mode fd ih =>
    cases cmd' with
    | redir inner word mode' fd' =>
      intro e member
      rcases List.mem_append.mp member with inside | here
      · exact ih spans.1 e inside
      · rw [List.mem_singleton.mp here]
        exact span_gap spans.2.1
    | _ => exact spans.elim
  | pipe left right left_ih right_ih =>
    cases cmd' with
    | pipe left' right' => exact fun e member => (List.mem_append.mp member).elim (left_ih spans.1 e) (right_ih spans.2 e)
    | _ => exact spans.elim
  | list left right left_ih right_ih =>
    cases cmd' with
    | list left' right' => exact fun e member => (List.mem_append.mp member).elim (left_ih spans.1 e) (right_ih spans.2 e)
    | _ => exact spans.elim
  | back cmd ih =>
    cases cmd' with
    | back inner =>
      have inside : Spans line cmd inner := spans
      exact ih inside
    | _ => exact spans.elim

theorem span_byte {q e : Nat} {word : Word} (span : Span line q e word) {i : Nat} (less : i < word.length) :
    (line)[q + i]? = some word[i] := by
  rw [← List.getElem?_drop, span.text, List.getElem?_append_left less, List.getElem?_eq_getElem less]

theorem span_no_gap {q e : Nat} {word : Word} (span : Span line q e word) {i : Nat} (less : i < word.length) : ¬ Gap line (q + i) := by
  intro gap
  have never := gap.2 word[i] (by rw [List.head?_drop]; exact span_byte span less)
  rw [span.run _ (List.getElem_mem less)] at never
  cases never

theorem span_string {q e : Nat} {word : Word} (text : 0 ∉ line) (span : Span line q e word) {at_ : List Nat} (here : e ∈ at_)
    (gaps : ∀ e ∈ at_, Gap line e) : IsString (Buffer.zeros ⟨star line, []⟩ at_).mem q word := by
  refine ⟨fun i less => ?_, ?_⟩
  · have byte := span_byte span less
    refine ⟨?_, fun zero => text ?_⟩
    · rw [zeros_mem, if_neg fun member => span_no_gap span less (gaps _ member)]
      show line.getD (q + i) 0 = word[i]
      rw [List.getD_eq_getElem?_getD, byte]
      rfl
    · rw [← zero]
      exact List.mem_of_getElem? byte
  · rw [zeros_mem, ← span.size, if_pos here]

theorem wordEnds_mem {argv eargv : Nat → Option Nat} {words : List Word} (args : ArgSpans line argv eargv words) (left i k : Nat)
    (within : i ≤ k) (near : k < i + left) (less : k < words.length) {e : Nat} (eargv_ : eargv k = some e) :
    e ∈ wordEnds argv eargv left i := by
  induction left generalizing i with
  | zero => omega
  | succ left ih =>
    obtain ⟨q', e', argv', eargv', -⟩ := args.spans i (Nat.lt_of_le_of_lt within less)
    unfold wordEnds
    rw [argv', eargv']
    rcases Nat.lt_or_eq_of_le within with later | rfl
    · exact List.mem_cons_of_mem e' (ih (i + 1) later (by omega))
    · cases eargv_.symm.trans eargv'
      exact List.mem_cons_self

theorem reads_zeros {cmd : PCmd} {cmd' : Cmd} (text : 0 ∉ line) (spans : Spans line cmd cmd') {at_ : List Nat}
    (all : ∀ e ∈ ends cmd, e ∈ at_) (gaps : ∀ e ∈ at_, Gap line e) : Reads (Buffer.zeros ⟨star line, []⟩ at_).mem cmd cmd' := by
  induction cmd generalizing cmd' with
  | exec argv eargv =>
    cases cmd' with
    | exec words =>
      obtain ⟨args, last⟩ := spans
      refine ⟨args.few, last, fun i less => ?_⟩
      obtain ⟨q, e, argv_, eargv_, span⟩ := args.spans i less
      have few := args.few
      have here := wordEnds_mem args maxargs 0 i (Nat.zero_le i) (by omega) less eargv_
      exact ⟨q, argv_, span_string text span (all e here) gaps⟩
    | _ => exact spans.elim
  | redir cmd file efile mode fd ih =>
    cases cmd' with
    | redir inner word mode' fd' =>
      refine ⟨ih spans.1 fun e member => all e (List.mem_append_left _ member), ?_, spans.2.2⟩
      exact span_string text spans.2.1 (all efile (List.mem_append_right _ (List.mem_singleton_self efile))) gaps
    | _ => exact spans.elim
  | pipe left right left_ih right_ih =>
    cases cmd' with
    | pipe left' right' =>
      exact ⟨left_ih spans.1 fun e member => all e (List.mem_append_left _ member),
        right_ih spans.2 fun e member => all e (List.mem_append_right _ member)⟩
    | _ => exact spans.elim
  | list left right left_ih right_ih =>
    cases cmd' with
    | list left' right' =>
      exact ⟨left_ih spans.1 fun e member => all e (List.mem_append_left _ member),
        right_ih spans.2 fun e member => all e (List.mem_append_right _ member)⟩
    | _ => exact spans.elim
  | back cmd ih =>
    cases cmd' with
    | back inner =>
      have inside : Spans line cmd inner := spans
      exact ih inside all
    | _ => exact spans.elim

end

-- Every string of the tree is the word of the line that it points to.
theorem nulterminate_keeps_words (line : List UInt8) (text : 0 ∉ line) (cmd : PCmd) (b : Buffer) (parsed : parsecmd line = .ok (cmd, b)) :
    ∃ words, Sh.parsecmd line = .ok words ∧ Spans line cmd words ∧ Reads b.mem cmd words ∧ ∀ i ∈ b.writes, i ≤ line.length := by
  have sim := parsecmd_sim line
  rw [parsed] at sim
  generalize abstract : Sh.parsecmd line = result at sim
  cases sim with
  | ok _ words related =>
    obtain ⟨spans, same⟩ := related
    dsimp only at spans same
    have gaps := ends_gap spans
    rw [same, nulterminate_eq]
    refine ⟨words, rfl, spans, reads_zeros text spans (fun e member => member) gaps, fun i written => ?_⟩
    rw [zeros_writes, List.nil_append] at written
    exact (gaps i written).1

-- a>f: the '>' after the word becomes its NUL.
theorem nulterminate_keeps_words_redir :
    ∃ cmd b, parsecmd [97, 62, 102] = .ok (cmd, b) ∧ Reads b.mem cmd (.redir (.exec [[97]]) [102] oWronlyCreate 1) := by
  have abstract : Sh.parsecmd [97, 62, 102] = .ok (.redir (.exec [[97]]) [102] oWronlyCreate 1) := rfl
  have sim := parsecmd_sim [97, 62, 102]
  rw [abstract] at sim
  generalize parsed : parsecmd [97, 62, 102] = result at sim
  cases sim with
  | ok r _ _ =>
    obtain ⟨words, abstract', -, reads, -⟩ := nulterminate_keeps_words [97, 62, 102] (by decide) r.1 r.2 parsed
    cases abstract.symm.trans abstract'
    exact ⟨r.1, r.2, rfl, reads⟩

end Xv6.Sh.Ptr
