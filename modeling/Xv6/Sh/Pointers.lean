import Mathlib.Data.List.Forall2
import Mathlib.Data.List.TakeWhile
import Xv6.Sh.Parser

set_option autoImplicit false

namespace Xv6.Sh.Ptr

-- The parser on the line's buffer: a pointer is an offset into it, and what the tree keeps
-- of a word is where it starts and where it ends.
inductive PCmd where
  | exec (argv eargv : Nat → Option Nat)
  | redir (cmd : PCmd) (file efile mode fd : Nat)
  | pipe (left right : PCmd)
  | list (left right : PCmd)
  | back (cmd : PCmd)

section

variable (line : List UInt8)

def star (i : Nat) : UInt8 := line.getD i 0

-- while(s < es && strchr(whitespace, *s)) s++
def skip (i : Nat) : Nat := i + ((line.drop i).takeWhile (strchr whitespace)).length

def wordEnd (i : Nat) : Nat := i + ((line.drop i).takeWhile plain).length

-- The switch of gettoken: ret and where s is after it. A word is 'a', a ">>" is '+'.
def switch (i : Nat) : UInt8 × Nat :=
  if star line i = 0 then (0, i)
  else if star line i ∈ [124, 40, 41, 59, 38, 60] then (star line i, i + 1)
  else if star line i = 62 then if star line (i + 1) = 62 then (43, i + 2) else (62, i + 1)
  else (97, wordEnd line i)

structure Got where
  ret : UInt8
  q : Nat
  eq : Nat
  ps : Nat

def gettoken (ps : Nat) : Got :=
  let q := skip line ps
  let r := switch line q
  ⟨r.1, q, r.2, skip line r.2⟩

def peek (ps : Nat) (toks : List UInt8) : Bool × Nat :=
  let s := skip line ps
  (star line s ≠ 0 && strchr toks (star line s), s)

structure PRedir where
  op : RedirOp
  file : Nat
  efile : Nat

def redirOf (tok : UInt8) (q eq : Nat) : Option PRedir :=
  if tok = 60 then some ⟨.lt, q, eq⟩
  else if tok = 62 then some ⟨.gt, q, eq⟩
  else if tok = 43 then some ⟨.gtgt, q, eq⟩
  else none

def redircmd (cmd : PCmd) (r : PRedir) : PCmd :=
  match r.op with
  | .lt => .redir cmd r.file r.efile oRdonly 0
  | .gt => .redir cmd r.file r.efile oWronlyCreate 1
  | .gtgt => .redir cmd r.file r.efile oWronlyCreate 1

def redirsLoop : Nat → Nat → Parse (List PRedir × Nat)
  | 0, _ => .diverges
  | n + 1, ps =>
    let more := peek line ps [60, 62]
    if more.1 then
      let tok := gettoken line more.2
      let file := gettoken line tok.ps
      if file.ret = 97 then do
        let (rs, ps) ← redirsLoop n file.ps
        return ((redirOf tok.ret file.q file.eq).toList ++ rs, ps)
      else .panic "missing file for redirection"
    else return ([], more.2)

def parseredirs (ps : Nat) : Parse (List PRedir × Nat) := redirsLoop line (line.length - ps + 1) ps

structure Args where
  argv : Nat → Option Nat
  eargv : Nat → Option Nat
  argc : Nat

def Args.push (a : Args) (q eq : Nat) : Args :=
  ⟨fun i => if i = a.argc then some q else a.argv i, fun i => if i = a.argc then some eq else a.eargv i, a.argc + 1⟩

def wordsLoop : Nat → Args → List PRedir → Nat → Parse ((Args × List PRedir) × Nat)
  | 0, _, _, _ => .diverges
  | n + 1, a, rs, ps =>
    let stop := peek line ps [124, 41, 38, 59]
    if stop.1 then return ((a, rs), stop.2)
    else
      let tok := gettoken line stop.2
      if tok.ret = 0 then return ((a, rs), tok.ps)
      else if tok.ret ≠ 97 then .panic "syntax"
      else if (a.push tok.q tok.eq).argc ≥ maxargs then .panic "too many args"
      else do
        let (more, ps) ← parseredirs line tok.ps
        wordsLoop n (a.push tok.q tok.eq) (rs ++ more) ps

-- cmd->argv[argc] = 0; cmd->eargv[argc] = 0;
def Args.cmd (a : Args) : PCmd :=
  .exec (fun i => if i = a.argc then none else a.argv i) fun i => if i = a.argc then none else a.eargv i

def backLoop : Nat → PCmd → Nat → Parse (PCmd × Nat)
  | 0, _, _ => .diverges
  | n + 1, cmd, ps =>
    let more := peek line ps [38]
    if more.1 then backLoop n (.back cmd) (gettoken line more.2).ps else return (cmd, more.2)

mutual

def parseline : Nat → Nat → Parse (PCmd × Nat)
  | 0, _ => .diverges
  | n + 1, ps => do
    let (cmd, ps) ← parsepipe n ps
    let (cmd, ps) ← backLoop line (line.length - ps + 1) cmd ps
    let more := peek line ps [59]
    if more.1 then
      let (right, ps) ← parseline n (gettoken line more.2).ps
      return (.list cmd right, ps)
    else return (cmd, more.2)

def parsepipe : Nat → Nat → Parse (PCmd × Nat)
  | 0, _ => .diverges
  | n + 1, ps => do
    let (cmd, ps) ← parseexec n ps
    let more := peek line ps [124]
    if more.1 then
      let (right, ps) ← parsepipe n (gettoken line more.2).ps
      return (.pipe cmd right, ps)
    else return (cmd, more.2)

def parseexec : Nat → Nat → Parse (PCmd × Nat)
  | 0, _ => .diverges
  | n + 1, ps =>
    let block := peek line ps [40]
    if block.1 then parseblock n block.2
    else do
      let (rs, ps) ← parseredirs line block.2
      let ((a, rs), ps) ← wordsLoop line (line.length - ps + 1) ⟨fun _ => none, fun _ => none, 0⟩ rs ps
      return (rs.foldl redircmd a.cmd, ps)

def parseblock : Nat → Nat → Parse (PCmd × Nat)
  | 0, _ => .diverges
  | n + 1, ps =>
    let opens := peek line ps [40]
    if !opens.1 then .panic "parseblock"
    else do
      let (cmd, ps) ← parseline n (gettoken line opens.2).ps
      let closes := peek line ps [41]
      if !closes.1 then .panic "syntax - missing )"
      else do
        let (rs, ps) ← parseredirs line (gettoken line closes.2).ps
        return (rs.foldl redircmd cmd, ps)

end

end

structure Buffer where
  mem : Nat → UInt8
  writes : List Nat

def Buffer.zero (b : Buffer) (i : Nat) : Buffer := ⟨fun j => if j = i then 0 else b.mem j, b.writes ++ [i]⟩

-- for(i=0; ecmd->argv[i]; i++) *ecmd->eargv[i] = 0, over at most left entries.
def zeroWords (argv eargv : Nat → Option Nat) : Nat → Nat → Buffer → Buffer
  | 0, _, b => b
  | left + 1, i, b =>
    match argv i with
    | none => b
    | some _ =>
      match eargv i with
      | none => b
      | some e => zeroWords argv eargv left (i + 1) (b.zero e)

def nulterminate : PCmd → Buffer → Buffer
  | .exec argv eargv, b => zeroWords argv eargv maxargs 0 b
  | .redir cmd _ efile _ _, b => (nulterminate cmd b).zero efile
  | .pipe left right, b => nulterminate right (nulterminate left b)
  | .list left right, b => nulterminate right (nulterminate left b)
  | .back cmd, b => nulterminate cmd b

def parsecmd (line : List UInt8) : Parse (PCmd × Buffer) := do
  let (cmd, ps) ← parseline line (4 * line.length + 4) 0
  let rest := peek line ps []
  if rest.2 ≠ line.length then .leftovers (line.drop rest.2)
  else return (cmd, nulterminate cmd ⟨star line, []⟩)

structure Span (line : List UInt8) (q e : Nat) (word : Word) : Prop where
  text : line.drop q = word ++ line.drop e
  size : e = q + word.length
  bound : e ≤ line.length
  run : ∀ c ∈ word, plain c = true
  stop : ∀ c ∈ (line.drop e).head?, plain c = false

def RedirSpan (line : List UInt8) (r : PRedir) (r' : Redir) : Prop := r.op = r'.op ∧ Span line r.file r.efile r'.file

structure ArgSpans (line : List UInt8) (argv eargv : Nat → Option Nat) (words : List Word) : Prop where
  spans : ∀ i (less : i < words.length), ∃ q e, argv i = some q ∧ eargv i = some e ∧ Span line q e words[i]
  few : words.length < maxargs

-- The two trees have the same shape, and the words are where the pointers say.
def Spans (line : List UInt8) : PCmd → Cmd → Prop
  | .exec argv eargv, .exec words => ArgSpans line argv eargv words ∧ argv words.length = none
  | .redir cmd file efile mode fd, .redir cmd' word mode' fd' =>
    Spans line cmd cmd' ∧ Span line file efile word ∧ mode = mode' ∧ fd = fd'
  | .pipe left right, .pipe left' right' => Spans line left left' ∧ Spans line right right'
  | .list left right, .list left' right' => Spans line left left' ∧ Spans line right right'
  | .back cmd, .back cmd' => Spans line cmd cmd'
  | _, _ => False

inductive Sim {α β : Type} (R : α → β → Prop) : Parse α → Parse β → Prop where
  | ok (a : α) (b : β) (related : R a b) : Sim R (.ok a) (.ok b)
  | panic (msg : String) : Sim R (.panic msg) (.panic msg)
  | leftovers (s : List UInt8) : Sim R (.leftovers s) (.leftovers s)
  | diverges : Sim R .diverges .diverges

theorem sim_bind {α β α' β' : Type} {R : α → β → Prop} {R' : α' → β' → Prop} {x : Parse α} {y : Parse β} {f : α → Parse α'}
    {g : β → Parse β'} (first : Sim R x y) (rest : ∀ a b, R a b → Sim R' (f a) (g b)) : Sim R' (x >>= f) (y >>= g) := by
  cases first with
  | ok a b related => exact rest a b related
  | panic msg => exact .panic msg
  | leftovers s => exact .leftovers s
  | diverges => exact .diverges

structure At (line : List UInt8) (i : Nat) (s : List UInt8) : Prop where
  rest : s = line.drop i
  bound : i ≤ line.length

section

variable {line : List UInt8} {i : Nat} {s : List UInt8}

section

variable (at_ : At line i s)
include at_

theorem at_length : s.length = line.length - i := by
  rw [at_.rest, List.length_drop]

theorem at_star : star line i = Sh.star s := by
  rw [at_.rest, star, Sh.star, List.headD_eq_head?_getD, List.head?_drop, List.getD_eq_getElem?_getD]

theorem at_tail (more : Sh.star s ≠ 0) : At line (i + 1) s.tail := by
  have less : i < line.length := by
    rcases Nat.lt_or_ge i line.length with less | past
    · exact less
    · rw [at_.rest, List.drop_eq_nil_of_le past] at more
      exact absurd rfl more
  exact ⟨by rw [at_.rest, List.tail_drop], less⟩

theorem at_while (kind : UInt8 → Bool) :
    At line (i + ((line.drop i).takeWhile kind).length) (s.dropWhile kind) := by
  have split_ : s.takeWhile kind ++ s.dropWhile kind = s := List.takeWhile_append_dropWhile
  have sizes := congrArg List.length split_
  rw [List.length_append, at_length at_] at sizes
  rw [← at_.rest]
  refine ⟨?_, ?_⟩
  · rw [← List.drop_drop, ← at_.rest]
    calc s.dropWhile kind = (s.takeWhile kind ++ s.dropWhile kind).drop (s.takeWhile kind).length := (List.drop_left).symm
      _ = s.drop (s.takeWhile kind).length := by rw [split_]
  · have := at_.bound
    omega

theorem at_skip : At line (skip line i) (Sh.skip s) := at_while at_ (strchr whitespace)

theorem peek_sim (toks : List UInt8) :
    ∃ found i' s', peek line i toks = (found, i') ∧ Sh.peek s toks = (found, s') ∧ At line i' s' := by
  have skipped := at_skip at_
  refine ⟨_, _, _, rfl, ?_, skipped⟩
  rw [Sh.peek, at_star skipped]

theorem word_span : Span line i (wordEnd line i) (s.takeWhile plain) := by
  have after := at_while at_ plain
  refine ⟨?_, ?_, after.bound, ?_, ?_⟩
  · rw [wordEnd, ← after.rest, ← at_.rest, List.takeWhile_append_dropWhile]
  · rw [wordEnd, at_.rest]
  · exact fun c member => List.mem_takeWhile_imp member
  · intro c head
    have other := List.head?_dropWhile_not plain s
    rw [wordEnd, ← after.rest] at head
    rw [Option.mem_def.mp head] at other
    exact other

end

def Tok (line : List UInt8) (ret : UInt8) (q eq : Nat) : Option Token → Prop
  | none => ret = 0
  | some (.word text) => ret = 97 ∧ Span line q eq text
  | some .lt => ret = 60
  | some .gt => ret = 62
  | some .gtgt => ret = 43
  | some .bar => ret = 124
  | some .amp => ret = 38
  | some .semi => ret = 59
  | some .lparen => ret = 40
  | some .rparen => ret = 41

theorem tok_cases {line : List UInt8} {ret : UInt8} {q eq : Nat} {t : Option Token} (tok : Tok line ret q eq t) :
    (t = none ∧ ret = 0) ∨ (∃ text, t = some (.word text) ∧ ret = 97 ∧ Span line q eq text) ∨
      ∃ t', t = some t' ∧ (∀ text, t' ≠ .word text) ∧ ret ≠ 0 ∧ ret ≠ 97 := by
  unfold Tok at tok
  split at tok
  · exact .inl ⟨rfl, tok⟩
  · exact .inr (.inl ⟨_, rfl, tok⟩)
  all_goals
    subst tok
    refine .inr (.inr ⟨_, rfl, ?_, by decide, by decide⟩)
    intro text never
    cases never

theorem single_none {c : UInt8} (other : c ∉ [124, 40, 41, 59, 38, 60]) : single c = none := by
  unfold single
  split <;> simp_all

theorem single_some {c : UInt8} (one : c ∈ [124, 40, 41, 59, 38, 60]) (line : List UInt8) (q eq : Nat) :
    ∃ t, single c = some t ∧ Tok line c q eq (some t) := by
  simp only [List.mem_cons, List.not_mem_nil, or_false] at one
  rcases one with rfl | rfl | rfl | rfl | rfl | rfl
  · exact ⟨.bar, rfl, rfl⟩
  · exact ⟨.lparen, rfl, rfl⟩
  · exact ⟨.rparen, rfl, rfl⟩
  · exact ⟨.semi, rfl, rfl⟩
  · exact ⟨.amp, rfl, rfl⟩
  · exact ⟨.lt, rfl, rfl⟩

theorem switch_sim (at_ : At line i s) :
    ∃ t s', Sh.switch s = (t, s') ∧ At line (switch line i).2 s' ∧ Tok line (switch line i).1 i (switch line i).2 t := by
  unfold switch Sh.switch
  rw [at_star at_]
  by_cases ends : Sh.star s = 0
  · rw [if_pos ends, if_pos ends]
    exact ⟨none, s, rfl, at_, rfl⟩
  · have next := at_tail at_ ends
    rw [if_neg ends, if_neg ends]
    by_cases one : Sh.star s ∈ [124, 40, 41, 59, 38, 60]
    · obtain ⟨t, found, tok⟩ := single_some one line i (i + 1)
      rw [if_pos one, found]
      exact ⟨some t, s.tail, rfl, next, tok⟩
    · rw [if_neg one, single_none one]
      dsimp only
      by_cases gt : Sh.star s = 62
      · rw [if_pos gt, if_pos gt, at_star next]
        by_cases twice : Sh.star s.tail = 62
        · rw [if_pos twice, if_pos twice]
          have after := at_tail next (by rw [twice]; decide)
          exact ⟨some .gtgt, s.tail.tail, rfl, after, rfl⟩
        · rw [if_neg twice, if_neg twice]
          exact ⟨some .gt, s.tail, rfl, next, rfl⟩
      · rw [if_neg gt, if_neg gt]
        exact ⟨some (.word (s.takeWhile plain)), s.dropWhile plain, rfl, at_while at_ plain, rfl, word_span at_⟩

theorem gettoken_sim (at_ : At line i s) : ∃ t s', Sh.gettoken s = (t, s') ∧ At line (gettoken line i).ps s' ∧
    Tok line (gettoken line i).ret (gettoken line i).q (gettoken line i).eq t := by
  obtain ⟨t, s', taken, after, tok⟩ := switch_sim (at_skip at_)
  refine ⟨t, Sh.skip s', ?_, at_skip after, tok⟩
  rw [Sh.gettoken, taken]

def RedirsAt (line : List UInt8) (r : List PRedir × Nat) (r' : List Redir × List UInt8) : Prop :=
  List.Forall₂ (RedirSpan line) r.1 r'.1 ∧ At line r.2 r'.2

def CmdAt (line : List UInt8) (r : PCmd × Nat) (r' : Cmd × List UInt8) : Prop := Spans line r.1 r'.1 ∧ At line r.2 r'.2

structure ArgsAt (line : List UInt8) (a : Args) (words : List Word) : Prop where
  argc : a.argc = words.length
  spans : ArgSpans line a.argv a.eargv words

theorem redirOf_sim {ret : UInt8} {q eq file efile : Nat} {t : Option Token} {word : Word} (tok : Tok line ret q eq t)
    (span : Span line file efile word) :
    List.Forall₂ (RedirSpan line) (redirOf ret file efile).toList (Sh.redirOf t word).toList := by
  unfold Tok at tok
  split at tok
  all_goals
    first
    | rw [tok.1]
    | rw [tok]
  all_goals first
    | exact .nil
    | exact .cons ⟨rfl, span⟩ .nil

theorem redirsLoop_sim (n : Nat) (at_ : At line i s) : Sim (RedirsAt line) (redirsLoop line n i) (Sh.redirsLoop n s) := by
  induction n generalizing i s with
  | zero => exact .diverges
  | succ n ih =>
    obtain ⟨more, i₁, s₁, peeked, peeked', at₁⟩ := peek_sim at_ [60, 62]
    unfold redirsLoop Sh.redirsLoop
    rw [peeked, peeked']
    dsimp only
    cases more with
    | false => exact .ok _ _ ⟨.nil, at₁⟩
    | true =>
      obtain ⟨t, s₂, taken, at₂, tok⟩ := gettoken_sim at₁
      obtain ⟨t', s₃, taken', at₃, tok'⟩ := gettoken_sim at₂
      rw [if_pos rfl, if_pos rfl, taken]
      dsimp only
      rw [taken']
      dsimp only
      rcases tok_cases tok' with ⟨rfl, ret⟩ | ⟨text, rfl, ret, span⟩ | ⟨t'', rfl, other, -, ret⟩
      · rw [if_neg (by rw [ret]; decide)]
        exact .panic _
      · rw [if_pos ret]
        refine sim_bind (ih at₃) ?_
        rintro ⟨rs, i'⟩ ⟨rs', s'⟩ ⟨spans, at'⟩
        exact .ok _ _ ⟨List.rel_append (redirOf_sim tok span) spans, at'⟩
      · rw [if_neg ret]
        cases t'' with
        | word text => exact absurd rfl (other text)
        | _ => exact .panic _

theorem parseredirs_sim (at_ : At line i s) : Sim (RedirsAt line) (parseredirs line i) (Sh.parseredirs s) := by
  rw [parseredirs, Sh.parseredirs, at_length at_]
  exact redirsLoop_sim _ at_

theorem push_at {a : Args} {words : List Word} (args : ArgsAt line a words) {q e : Nat} {word : Word} (span : Span line q e word)
    (few : words.length + 1 < maxargs) : ArgsAt line (a.push q e) (words ++ [word]) := by
  have size : (words ++ [word]).length = words.length + 1 := by rw [List.length_append, List.length_singleton]
  refine ⟨by rw [size, ← args.argc]; rfl, fun i less => ?_, by rw [size]; exact few⟩
  by_cases last : i = words.length
  · refine ⟨q, e, if_pos (last.trans args.argc.symm), if_pos (last.trans args.argc.symm), ?_⟩
    rw [List.getElem_concat_length last]
    exact span
  · have less' : i < words.length := by omega
    have other : i ≠ a.argc := fun same => last (same.trans args.argc)
    obtain ⟨q', e', argv, eargv, span'⟩ := args.spans.spans i less'
    refine ⟨q', e', (if_neg other).trans argv, (if_neg other).trans eargv, ?_⟩
    rw [List.getElem_append_left less']
    exact span'

def WordsAt (line : List UInt8) (r : (Args × List PRedir) × Nat) (r' : (List Word × List Redir) × List UInt8) : Prop :=
  ArgsAt line r.1.1 r'.1.1 ∧ List.Forall₂ (RedirSpan line) r.1.2 r'.1.2 ∧ At line r.2 r'.2

theorem wordsLoop_sim (n : Nat) {a : Args} {words : List Word} {rs : List PRedir} {rs' : List Redir} (args : ArgsAt line a words)
    (spans : List.Forall₂ (RedirSpan line) rs rs') (at_ : At line i s) :
    Sim (WordsAt line) (wordsLoop line n a rs i) (Sh.wordsLoop n words rs' s) := by
  induction n generalizing a words rs rs' i s with
  | zero => exact .diverges
  | succ n ih =>
    obtain ⟨stop, i₁, s₁, peeked, peeked', at₁⟩ := peek_sim at_ [124, 41, 38, 59]
    unfold wordsLoop Sh.wordsLoop
    rw [peeked, peeked']
    dsimp only
    cases stop with
    | true => exact .ok _ _ ⟨args, spans, at₁⟩
    | false =>
      obtain ⟨t, s₂, taken, at₂, tok⟩ := gettoken_sim at₁
      rw [if_neg Bool.false_ne_true, if_neg Bool.false_ne_true, taken]
      dsimp only
      rcases tok_cases tok with ⟨rfl, ret⟩ | ⟨text, rfl, ret, span⟩ | ⟨t', rfl, other, nonzero, ret⟩
      · rw [if_pos ret]
        exact .ok _ _ ⟨args, spans, at₂⟩
      · have full : (a.push (gettoken line i₁).q (gettoken line i₁).eq).argc = words.length + 1 := by
          rw [← args.argc]
          rfl
        have nonzero : (gettoken line i₁).ret ≠ 0 := by
          rw [ret]
          decide
        rw [if_neg nonzero, if_neg (not_not_intro ret), full]
        dsimp only
        by_cases many : words.length + 1 ≥ maxargs
        · rw [if_pos many, if_pos many]
          exact .panic _
        · rw [if_neg many, if_neg many]
          refine sim_bind (parseredirs_sim at₂) ?_
          rintro ⟨more, i'⟩ ⟨more', s'⟩ ⟨spans', at'⟩
          exact ih (push_at args span (by omega)) (List.rel_append spans spans') at'
      · rw [if_neg nonzero, if_pos ret]
        cases t' with
        | word text => exact absurd rfl (other text)
        | _ => exact .panic _

theorem args_spans {a : Args} {words : List Word} (args : ArgsAt line a words) : Spans line a.cmd (.exec words) := by
  refine ⟨⟨fun i less => ?_, args.spans.few⟩, if_pos args.argc.symm⟩
  have other : i ≠ a.argc := by
    rw [args.argc]
    exact Nat.ne_of_lt less
  obtain ⟨q, e, argv, eargv, span⟩ := args.spans.spans i less
  exact ⟨q, e, (if_neg other).trans argv, (if_neg other).trans eargv, span⟩

theorem redircmd_spans {cmd : PCmd} {cmd' : Cmd} {r : PRedir} {r' : Redir} (spans : Spans line cmd cmd') (redir : RedirSpan line r r') :
    Spans line (redircmd cmd r) (Sh.redircmd cmd' r') := by
  obtain ⟨op, span⟩ := redir
  unfold redircmd Sh.redircmd
  rw [op]
  cases r'.op with
  | lt => exact ⟨spans, span, rfl, rfl⟩
  | gt => exact ⟨spans, span, rfl, rfl⟩
  | gtgt => exact ⟨spans, span, rfl, rfl⟩

theorem redirs_spans {cmd : PCmd} {cmd' : Cmd} {rs : List PRedir} {rs' : List Redir} (spans : Spans line cmd cmd')
    (redirs : List.Forall₂ (RedirSpan line) rs rs') : Spans line (rs.foldl redircmd cmd) (rs'.foldl Sh.redircmd cmd') := by
  induction redirs generalizing cmd cmd' with
  | nil => exact spans
  | cons redir _ ih => exact ih (redircmd_spans spans redir)

theorem backLoop_sim (n : Nat) {cmd : PCmd} {cmd' : Cmd} (spans : Spans line cmd cmd') (at_ : At line i s) :
    Sim (CmdAt line) (backLoop line n cmd i) (Sh.backLoop n cmd' s) := by
  induction n generalizing cmd cmd' i s with
  | zero => exact .diverges
  | succ n ih =>
    obtain ⟨more, i₁, s₁, peeked, peeked', at₁⟩ := peek_sim at_ [38]
    unfold backLoop Sh.backLoop
    rw [peeked, peeked']
    dsimp only
    cases more with
    | false => exact .ok _ _ ⟨spans, at₁⟩
    | true =>
      obtain ⟨t, s₂, taken, at₂, -⟩ := gettoken_sim at₁
      rw [if_pos rfl, if_pos rfl, taken]
      exact ih spans at₂

end

section

variable {line : List UInt8} {n : Nat}

theorem line_sim (pipe : ∀ {i s}, At line i s → Sim (CmdAt line) (parsepipe line n i) (Sh.parsepipe n s))
    (rest : ∀ {i s}, At line i s → Sim (CmdAt line) (parseline line n i) (Sh.parseline n s)) {i : Nat} {s : List UInt8}
    (at_ : At line i s) : Sim (CmdAt line) (parseline line (n + 1) i) (Sh.parseline (n + 1) s) := by
  unfold parseline Sh.parseline
  refine sim_bind (pipe at_) ?_
  rintro ⟨cmd, i₁⟩ ⟨cmd', s₁⟩ ⟨spans, at₁⟩
  dsimp only
  rw [at_length at₁]
  refine sim_bind (backLoop_sim _ spans at₁) ?_
  rintro ⟨cmd, i₂⟩ ⟨cmd', s₂⟩ ⟨spans, at₂⟩
  obtain ⟨more, i₃, s₃, peeked, peeked', at₃⟩ := peek_sim at₂ [59]
  dsimp only
  rw [peeked, peeked']
  dsimp only
  cases more with
  | false => exact .ok _ _ ⟨spans, at₃⟩
  | true =>
    obtain ⟨t, s₄, taken, at₄, -⟩ := gettoken_sim at₃
    rw [if_pos rfl, if_pos rfl, taken]
    refine sim_bind (rest at₄) ?_
    rintro ⟨right, i₅⟩ ⟨right', s₅⟩ ⟨spans', at₅⟩
    exact .ok _ _ ⟨⟨spans, spans'⟩, at₅⟩

theorem pipe_sim (simple : ∀ {i s}, At line i s → Sim (CmdAt line) (parseexec line n i) (Sh.parseexec n s))
    (rest : ∀ {i s}, At line i s → Sim (CmdAt line) (parsepipe line n i) (Sh.parsepipe n s)) {i : Nat} {s : List UInt8}
    (at_ : At line i s) : Sim (CmdAt line) (parsepipe line (n + 1) i) (Sh.parsepipe (n + 1) s) := by
  unfold parsepipe Sh.parsepipe
  refine sim_bind (simple at_) ?_
  rintro ⟨cmd, i₁⟩ ⟨cmd', s₁⟩ ⟨spans, at₁⟩
  obtain ⟨more, i₂, s₂, peeked, peeked', at₂⟩ := peek_sim at₁ [124]
  dsimp only
  rw [peeked, peeked']
  dsimp only
  cases more with
  | false => exact .ok _ _ ⟨spans, at₂⟩
  | true =>
    obtain ⟨t, s₃, taken, at₃, -⟩ := gettoken_sim at₂
    rw [if_pos rfl, if_pos rfl, taken]
    refine sim_bind (rest at₃) ?_
    rintro ⟨right, i₄⟩ ⟨right', s₄⟩ ⟨spans', at₄⟩
    exact .ok _ _ ⟨⟨spans, spans'⟩, at₄⟩

theorem exec_sim (block : ∀ {i s}, At line i s → Sim (CmdAt line) (parseblock line n i) (Sh.parseblock n s)) {i : Nat}
    {s : List UInt8} (at_ : At line i s) : Sim (CmdAt line) (parseexec line (n + 1) i) (Sh.parseexec (n + 1) s) := by
  obtain ⟨opens, i₁, s₁, peeked, peeked', at₁⟩ := peek_sim at_ [40]
  unfold parseexec Sh.parseexec
  rw [peeked, peeked']
  dsimp only
  cases opens with
  | true => exact block at₁
  | false =>
    rw [if_neg (by decide), if_neg (by decide)]
    refine sim_bind (parseredirs_sim at₁) ?_
    rintro ⟨rs, i₂⟩ ⟨rs', s₂⟩ ⟨redirs, at₂⟩
    dsimp only
    rw [at_length at₂]
    have none_ : ArgsAt line ⟨fun _ => none, fun _ => none, 0⟩ [] := ⟨rfl, fun i less => absurd less (Nat.not_lt_zero i), by decide⟩
    refine sim_bind (wordsLoop_sim _ none_ redirs at₂) ?_
    rintro ⟨⟨a, rs⟩, i₃⟩ ⟨⟨words, rs'⟩, s₃⟩ ⟨args, redirs, at₃⟩
    exact .ok _ _ ⟨redirs_spans (args_spans args) redirs, at₃⟩

theorem block_sim (inner : ∀ {i s}, At line i s → Sim (CmdAt line) (parseline line n i) (Sh.parseline n s)) {i : Nat}
    {s : List UInt8} (at_ : At line i s) : Sim (CmdAt line) (parseblock line (n + 1) i) (Sh.parseblock (n + 1) s) := by
  obtain ⟨opens, i₁, s₁, peeked, peeked', at₁⟩ := peek_sim at_ [40]
  unfold parseblock Sh.parseblock
  rw [peeked, peeked']
  dsimp only
  cases opens with
  | false => exact .panic _
  | true =>
    obtain ⟨t, s₂, taken, at₂, -⟩ := gettoken_sim at₁
    rw [if_neg (by decide), if_neg (by decide), taken]
    refine sim_bind (inner at₂) ?_
    rintro ⟨cmd, i₃⟩ ⟨cmd', s₃⟩ ⟨spans, at₃⟩
    obtain ⟨closes, i₄, s₄, peeked, peeked', at₄⟩ := peek_sim at₃ [41]
    dsimp only
    rw [peeked, peeked']
    dsimp only
    cases closes with
    | false => exact .panic _
    | true =>
      obtain ⟨t, s₅, taken, at₅, -⟩ := gettoken_sim at₄
      rw [if_neg (by decide), if_neg (by decide), taken]
      refine sim_bind (parseredirs_sim at₅) ?_
      rintro ⟨rs, i₆⟩ ⟨rs', s₆⟩ ⟨redirs, at₆⟩
      exact .ok _ _ ⟨redirs_spans spans redirs, at₆⟩

end

theorem parse_sim (line : List UInt8) (n : Nat) :
    (∀ {i s}, At line i s → Sim (CmdAt line) (parseline line n i) (Sh.parseline n s)) ∧
      (∀ {i s}, At line i s → Sim (CmdAt line) (parsepipe line n i) (Sh.parsepipe n s)) ∧
      (∀ {i s}, At line i s → Sim (CmdAt line) (parseexec line n i) (Sh.parseexec n s)) ∧
      ∀ {i s}, At line i s → Sim (CmdAt line) (parseblock line n i) (Sh.parseblock n s) := by
  induction n with
  | zero =>
    simp only [parseline, Sh.parseline, parsepipe, Sh.parsepipe, parseexec, Sh.parseexec, parseblock, Sh.parseblock]
    exact ⟨fun _ => .diverges, fun _ => .diverges, fun _ => .diverges, fun _ => .diverges⟩
  | succ n ih =>
    obtain ⟨rest, pipe, simple, block⟩ := ih
    exact ⟨line_sim pipe rest, pipe_sim simple pipe, exec_sim block, block_sim rest⟩

theorem parsecmd_sim (line : List UInt8) :
    Sim (fun (r : PCmd × Buffer) c => Spans line r.1 c ∧ r.2 = nulterminate r.1 ⟨star line, []⟩) (parsecmd line) (Sh.parsecmd line) := by
  unfold parsecmd Sh.parsecmd
  refine sim_bind ((parse_sim line _).1 ⟨rfl, Nat.zero_le _⟩) ?_
  rintro ⟨cmd, i⟩ ⟨cmd', s⟩ ⟨spans, at_⟩
  obtain ⟨found, i', s', peeked, peeked', at'⟩ := peek_sim at_ []
  dsimp only
  rw [peeked, peeked']
  dsimp only
  have ends : i' ≠ line.length ↔ s' ≠ [] := by
    rw [at'.rest, Ne, Ne, List.drop_eq_nil_iff]
    have := at'.bound
    omega
  by_cases more : s' = []
  · rw [if_neg fun other => ends.mp other more, if_neg fun other => other more]
    exact .ok _ _ ⟨spans, rfl⟩
  · rw [if_pos (ends.mpr more), if_pos more, at'.rest]
    exact .leftovers _

end Xv6.Sh.Ptr
