import Xv6.Sh.Accept

set_option autoImplicit false

namespace Xv6.Sh

-- A line for a command tree: what is below a node stands in a block of its own.
def Cmd.line : Cmd → Line
  | .exec argv => .last (.one (.exec [] (argv.map fun word => (word, [])))) 0
  | .redir cmd file mode _ => .last (.one (.block cmd.line [⟨if mode = oRdonly then .lt else .gt, file⟩])) 0
  | .pipe left right => .last (.more (.block left.line []) (.one (.block right.line []))) 0
  | .list left right => .seq (.one (.block left.line [])) 0 right.line
  | .back cmd => .last (.one (.block cmd.line [])) 1

def spaced (ts : List Token) : List UInt8 := ts.flatMap fun t => t.text ++ [32]

def Cmd.print (cmd : Cmd) : List UInt8 := spaced cmd.line.tokens

def IsWord (word : Word) : Prop := word ≠ [] ∧ ∀ c ∈ word, c ∉ whitespace ∧ c ∉ symbols ∧ c ≠ 0

-- The trees of the parser: fewer than MAXARGS words, and descriptors 0 and 1 redirected.
def Cmd.Printable : Cmd → Prop
  | .exec argv => argv.length < maxargs ∧ ∀ word ∈ argv, IsWord word
  | .redir cmd file mode fd => cmd.Printable ∧ IsWord file ∧ (mode = oRdonly ∧ fd = 0 ∨ mode = oWronlyCreate ∧ fd = 1)
  | .pipe left right => left.Printable ∧ right.Printable
  | .list left right => left.Printable ∧ right.Printable
  | .back cmd => cmd.Printable

def Token.Ok : Token → Prop
  | .word text => IsWord text
  | _ => True

theorem scans_spaced (ts : List Token) (ok : ∀ t ∈ ts, t.Ok) : Scans (spaced ts) ts ∧ 0 ∉ spaced ts := by
  induction ts with
  | nil => exact ⟨.nil, List.not_mem_nil⟩
  | cons t rest ih =>
    obtain ⟨here, later⟩ := List.forall_mem_cons.mp ok
    obtain ⟨scans, text⟩ := ih later
    have split : spaced (t :: rest) = t.text ++ 32 :: spaced rest := by
      rw [spaced, List.flatMap_cons, List.append_assoc]
      rfl
    rw [split]
    refine ⟨.token t _ rest ?_ (.space 32 _ rest (by decide) scans), fun zero => ?_⟩
    · cases t with
      | word text => exact ⟨here.1, here.2, by simp [whitespace]⟩
      | gt => simp [Token.Before]
      | _ => trivial
    · rcases List.mem_append.mp zero with inside | after
      · cases t with
        | word text => exact (here.2 0 inside).2.2 rfl
        | _ => simp [Token.text] at inside
      · exact text (List.mem_of_ne_of_mem (by decide) after)

theorem line_ok (cmd : Cmd) (printable : cmd.Printable) : cmd.line.Fits ∧ cmd.line.cmd = cmd ∧ ∀ t ∈ cmd.line.tokens, t.Ok := by
  induction cmd with
  | exec argv =>
    have bare : (argv.map fun word => (word, ([] : List Redir))).flatMap Prod.snd = [] := by simp
    refine ⟨?_, ?_, ?_⟩
    · show (argv.map fun word => (word, ([] : List Redir))).length ≤ 9
      rw [List.length_map]
      exact Nat.le_of_lt_succ printable.1
    · simp [Cmd.line, Line.cmd, Pipeline.cmd, Simple.cmd, Function.comp_def, bare]
    · intro t member
      simp [Cmd.line, Line.tokens, Pipeline.tokens, Simple.tokens, redirTokens, argTokens, List.flatMap_map] at member
      obtain ⟨word, inside, rfl⟩ := member
      exact printable.2 word inside
  | redir cmd file mode fd ih =>
    obtain ⟨below, word, standard⟩ := printable
    obtain ⟨fits, same, ok⟩ := ih below
    rcases standard with ⟨rfl, rfl⟩ | ⟨rfl, rfl⟩
    all_goals
      refine ⟨fits, by simp [Cmd.line, Line.cmd, Pipeline.cmd, Simple.cmd, redircmd, same], ?_⟩
      simpa [Cmd.line, Line.tokens, Pipeline.tokens, Simple.tokens, redirTokens, or_imp, forall_and, RedirOp.token, Token.Ok, word] using ok
  | pipe left right ihLeft ihRight =>
    obtain ⟨fits, same, ok⟩ := ihLeft printable.1
    obtain ⟨fits', same', ok'⟩ := ihRight printable.2
    refine ⟨⟨fits, fits'⟩, by simp [Cmd.line, Line.cmd, Pipeline.cmd, Simple.cmd, same, same'], ?_⟩
    simpa [Cmd.line, Line.tokens, Pipeline.tokens, Simple.tokens, redirTokens, or_imp, forall_and, Token.Ok] using ⟨ok, ok'⟩
  | list left right ihLeft ihRight =>
    obtain ⟨fits, same, ok⟩ := ihLeft printable.1
    obtain ⟨fits', same', ok'⟩ := ihRight printable.2
    refine ⟨⟨fits, fits'⟩, by simp [Cmd.line, Line.cmd, Pipeline.cmd, Simple.cmd, same, same'], ?_⟩
    simpa [Cmd.line, Line.tokens, Pipeline.tokens, Simple.tokens, redirTokens, or_imp, forall_and, Token.Ok] using ⟨ok, ok'⟩
  | back cmd ih =>
    obtain ⟨fits, same, ok⟩ := ih printable
    refine ⟨fits, by simp [Cmd.line, Line.cmd, Pipeline.cmd, Simple.cmd, same], ?_⟩
    simpa [Cmd.line, Line.tokens, Pipeline.tokens, Simple.tokens, redirTokens, or_imp, forall_and, Token.Ok] using ok

theorem scans_ok {line : List UInt8} {ts : List Token} (scans : Scans line ts) : ∀ t ∈ ts, t.Ok := by
  induction scans with
  | nil => exact fun t never => absurd never List.not_mem_nil
  | space c s ts white rest ih => exact ih
  | token t s ts before rest ih =>
    refine List.forall_mem_cons.mpr ⟨?_, ih⟩
    cases t with
    | word text => exact ⟨before.1, before.2.1⟩
    | _ => trivial

theorem redirs_printable (rs : List Redir) (cmd : Cmd) (printable : cmd.Printable) (ok : ∀ t ∈ redirTokens rs, t.Ok) :
    (rs.foldl redircmd cmd).Printable := by
  induction rs generalizing cmd with
  | nil => exact printable
  | cons r rest ih =>
    have file : IsWord r.file := ok (.word r.file) (by simp [redirTokens])
    refine ih (redircmd cmd r) ?_ fun t member => ok t (List.mem_append_right _ member)
    unfold redircmd
    cases r.op with
    | lt => exact ⟨printable, file, .inl ⟨rfl, rfl⟩⟩
    | gt => exact ⟨printable, file, .inr ⟨rfl, rfl⟩⟩
    | gtgt => exact ⟨printable, file, .inr ⟨rfl, rfl⟩⟩

theorem backs_printable (n : Nat) (cmd : Cmd) (printable : cmd.Printable) : (Cmd.back^[n] cmd).Printable := by
  induction n generalizing cmd with
  | zero => exact printable
  | succ n ih => exact ih (.back cmd) printable

mutual

theorem line_printable : ∀ d : Line, d.Fits → (∀ t ∈ d.tokens, t.Ok) → d.cmd.Printable
  | .last pipe backs, fits, ok =>
    backs_printable backs _ (pipeline_printable pipe fits fun t member => ok t (List.mem_append_left _ member))
  | .seq pipe backs rest, fits, ok =>
    have first := fun t member => ok t (List.mem_append_left _ (List.mem_append_left _ member))
    have later := fun t member => ok t (List.mem_append_right _ (List.mem_cons_of_mem _ member))
    ⟨backs_printable backs _ (pipeline_printable pipe fits.1 first), line_printable rest fits.2 later⟩

theorem pipeline_printable : ∀ d : Pipeline, d.Fits → (∀ t ∈ d.tokens, t.Ok) → d.cmd.Printable
  | .one simple, fits, ok => simple_printable simple fits ok
  | .more simple rest, fits, ok =>
    have first := fun t member => ok t (List.mem_append_left _ member)
    have later := fun t member => ok t (List.mem_append_right _ (List.mem_cons_of_mem _ member))
    ⟨simple_printable simple fits.1 first, pipeline_printable rest fits.2 later⟩

theorem simple_printable : ∀ d : Simple, d.Fits → (∀ t ∈ d.tokens, t.Ok) → d.cmd.Printable
  | .block line rs, fits, ok =>
    have inside := fun t member => ok t (List.mem_append_left _ (List.mem_cons_of_mem _ member))
    have after := fun t member => ok t (List.mem_append_right _ (List.mem_cons_of_mem _ member))
    redirs_printable rs _ (line_printable line fits inside) after
  | .exec rs args, fits, ok => by
    refine redirs_printable _ _ ⟨?_, fun word member => ?_⟩ fun t member => ok t ?_
    · rw [List.length_map]
      exact Nat.lt_succ_of_le fits
    · obtain ⟨arg, inside, rfl⟩ := List.mem_map.mp member
      exact ok (.word arg.1) (List.mem_append_right _ (List.mem_flatMap.mpr ⟨arg, inside, List.mem_cons_self⟩))
    · rw [redirTokens, List.flatMap_append, List.flatMap_assoc] at member
      refine (List.mem_append.mp member).elim (List.mem_append_left _) fun later => List.mem_append_right _ ?_
      obtain ⟨arg, inside, here⟩ := List.mem_flatMap.mp later
      exact List.mem_flatMap.mpr ⟨arg, inside, List.mem_cons_of_mem _ here⟩

end

-- The parser's command trees are those that can be printed, and it reads what is printed back.
theorem printed_cmd_parses (cmd : Cmd) : (cmd.Printable ↔ ∃ line, 0 ∉ line ∧ parsecmd line = .ok cmd) ∧
    (cmd.Printable → 0 ∉ cmd.print ∧ parsecmd cmd.print = .ok cmd) := by
  have back : cmd.Printable → 0 ∉ cmd.print ∧ parsecmd cmd.print = .ok cmd := by
    intro printable
    obtain ⟨fits, same, ok⟩ := line_ok cmd printable
    obtain ⟨scans, text⟩ := scans_spaced cmd.line.tokens ok
    exact ⟨text, (parsecmd_ok_iff scans cmd).mpr ⟨cmd.line, fits, rfl, same⟩⟩
  refine ⟨⟨fun printable => ⟨cmd.print, back printable⟩, ?_⟩, back⟩
  rintro ⟨line, text, parsed⟩
  obtain ⟨ts, scans⟩ := scans_exist line text
  obtain ⟨d, fits, tokens, rfl⟩ := (parsecmd_ok_iff scans cmd).mp parsed
  exact line_printable d fits (tokens ▸ scans_ok scans)

-- ( a ) | ( b > f )
theorem printed_cmd_parses_pipe : ∃ line, 0 ∉ line ∧
    parsecmd line = .ok (.pipe (.exec [[97]]) (.redir (.exec [[98]]) [102] oWronlyCreate 1)) := by
  refine (printed_cmd_parses _).1.mp ⟨⟨by decide, ?_⟩, ⟨by decide, ?_⟩, ?_, .inr ⟨rfl, rfl⟩⟩
  all_goals simp [IsWord, whitespace, symbols]

end Xv6.Sh
