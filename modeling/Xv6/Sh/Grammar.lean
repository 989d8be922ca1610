import Mathlib.Data.List.TakeWhile
import Mathlib.Logic.Function.Iterate
import Xv6.Sh.Parser

set_option autoImplicit false

namespace Xv6.Sh

def Token.text : Token → List UInt8
  | .word text => text
  | .lt => [60]
  | .gt => [62]
  | .gtgt => [62, 62]
  | .bar => [124]
  | .amp => [38]
  | .semi => [59]
  | .lparen => [40]
  | .rparen => [41]

-- A token that is read before s: a word is a maximal run of plain characters, and a '>'
-- is not followed by another one.
def Token.Before (s : List UInt8) : Token → Prop
  | .word text => text ≠ [] ∧ (∀ c ∈ text, c ∉ whitespace ∧ c ∉ symbols ∧ c ≠ 0) ∧
      ∀ c ∈ s.head?, c ∈ whitespace ∨ c ∈ symbols
  | .gt => s.head? ≠ some 62
  | _ => True

-- The line s consists of these tokens with whitespace between them.
inductive Scans : List UInt8 → List Token → Prop where
  | nil : Scans [] []
  | space (c : UInt8) (s : List UInt8) (ts : List Token) (white : c ∈ whitespace) (rest : Scans s ts) : Scans (c :: s) ts
  | token (t : Token) (s : List UInt8) (ts : List Token) (before : t.Before s) (rest : Scans s ts) :
      Scans (t.text ++ s) (t :: ts)

-- Derivations of
--   line   ::= pipe '&'* [';' line]
--   pipe   ::= simple ['|' pipe]
--   simple ::= '(' line ')' redir* | redir* (word redir*)*
--   redir  ::= ('<' | '>' | '>>') word
mutual

inductive Line where
  | last (pipe : Pipeline) (backs : Nat)
  | seq (pipe : Pipeline) (backs : Nat) (rest : Line)

inductive Pipeline where
  | one (simple : Simple)
  | more (simple : Simple) (rest : Pipeline)

inductive Simple where
  | block (line : Line) (redirs : List Redir)
  | exec (redirs : List Redir) (args : List (Word × List Redir))

end

def RedirOp.token : RedirOp → Token
  | .lt => .lt
  | .gt => .gt
  | .gtgt => .gtgt

def redirTokens (rs : List Redir) : List Token := rs.flatMap fun r => [r.op.token, .word r.file]

def argTokens (args : List (Word × List Redir)) : List Token := args.flatMap fun arg => .word arg.1 :: redirTokens arg.2

mutual

def Line.tokens : Line → List Token
  | .last pipe backs => pipe.tokens ++ List.replicate backs .amp
  | .seq pipe backs rest => pipe.tokens ++ List.replicate backs .amp ++ .semi :: rest.tokens

def Pipeline.tokens : Pipeline → List Token
  | .one simple => simple.tokens
  | .more simple rest => simple.tokens ++ .bar :: rest.tokens

def Simple.tokens : Simple → List Token
  | .block line rs => .lparen :: line.tokens ++ .rparen :: redirTokens rs
  | .exec rs args => redirTokens rs ++ argTokens args

end

mutual

def Line.cmd : Line → Cmd
  | .last pipe backs => Cmd.back^[backs] pipe.cmd
  | .seq pipe backs rest => .list (Cmd.back^[backs] pipe.cmd) rest.cmd

def Pipeline.cmd : Pipeline → Cmd
  | .one simple => simple.cmd
  | .more simple rest => .pipe simple.cmd rest.cmd

def Simple.cmd : Simple → Cmd
  | .block line rs => rs.foldl redircmd line.cmd
  | .exec rs args => (rs ++ args.flatMap Prod.snd).foldl redircmd (.exec (args.map Prod.fst))

end

mutual

def Line.Fits : Line → Prop
  | .last pipe _ => pipe.Fits
  | .seq pipe _ rest => pipe.Fits ∧ rest.Fits

def Pipeline.Fits : Pipeline → Prop
  | .one simple => simple.Fits
  | .more simple rest => simple.Fits ∧ rest.Fits

def Simple.Fits : Simple → Prop
  | .block line _ => line.Fits
  | .exec _ args => args.length ≤ 9

end

section

variable {s s' : List UInt8} {t : Token} {ts ts' : List Token}

theorem strchr_iff (set : List UInt8) (c : UInt8) : strchr set c = true ↔ c ∈ set := List.contains_iff_mem

theorem plain_iff (c : UInt8) : plain c = true ↔ c ∉ whitespace ∧ c ∉ symbols := by
  unfold plain
  rw [Bool.and_eq_true, Bool.not_eq_true', Bool.not_eq_true', ← Bool.not_eq_true, ← Bool.not_eq_true, strchr_iff, strchr_iff]

theorem skip_white {c : UInt8} (white : c ∈ whitespace) (s : List UInt8) : skip (c :: s) = skip s := by
  unfold skip
  rw [List.dropWhile_cons_of_pos ((strchr_iff whitespace c).mpr white)]

theorem skip_other {c : UInt8} (other : c ∉ whitespace) (s : List UInt8) : skip (c :: s) = c :: s := by
  unfold skip
  rw [List.dropWhile_cons_of_neg fun white => other ((strchr_iff whitespace c).mp white)]

theorem text_first (before : t.Before s) : ∃ c rest, t.text = c :: rest ∧ c ∉ whitespace ∧ c ≠ 0 := by
  cases t with
  | word text =>
    obtain ⟨some_, run, -⟩ := before
    cases text with
    | nil => exact absurd rfl some_
    | cons c rest =>
      obtain ⟨white, -, nonzero⟩ := run c List.mem_cons_self
      exact ⟨c, rest, rfl, white, nonzero⟩
  | lt => exact ⟨60, [], rfl, by decide, by decide⟩
  | gt => exact ⟨62, [], rfl, by decide, by decide⟩
  | gtgt => exact ⟨62, [62], rfl, by decide, by decide⟩
  | bar => exact ⟨124, [], rfl, by decide, by decide⟩
  | amp => exact ⟨38, [], rfl, by decide, by decide⟩
  | semi => exact ⟨59, [], rfl, by decide, by decide⟩
  | lparen => exact ⟨40, [], rfl, by decide, by decide⟩
  | rparen => exact ⟨41, [], rfl, by decide, by decide⟩

theorem skip_text (before : t.Before s) : skip (t.text ++ s) = t.text ++ s := by
  obtain ⟨c, rest, text, other, -⟩ := text_first before
  rw [text]
  exact skip_other other (rest ++ s)

theorem switch_word {text : Word} (before : Token.Before s (.word text)) :
    switch (text ++ s) = (some (.word text), s) := by
  obtain ⟨some_, run, maximal⟩ := before
  have all : ∀ c ∈ text, plain c = true := fun c member => (plain_iff c).mpr ⟨(run c member).1, (run c member).2.1⟩
  have take : (text ++ s).takeWhile plain = text ∧ (text ++ s).dropWhile plain = s := by
    rw [List.takeWhile_append_of_pos all, List.dropWhile_append_of_pos all]
    cases s with
    | nil => exact ⟨List.append_nil text, rfl⟩
    | cons c rest =>
      have stop : ¬ plain c = true := by
        rw [plain_iff]
        rcases maximal c rfl with white | symbol
        · exact fun both => both.1 white
        · exact fun both => both.2 symbol
      rw [List.takeWhile_cons_of_neg stop, List.dropWhile_cons_of_neg stop]
      exact ⟨List.append_nil text, rfl⟩
  cases text with
  | nil => exact absurd rfl some_
  | cons c rest =>
    obtain ⟨-, symbol, nonzero⟩ := run c List.mem_cons_self
    have other : single c = none := by
      unfold single
      split <;> first | rfl | exact absurd (by decide) symbol
    have first : star (c :: rest ++ s) = c := rfl
    unfold switch
    rw [first, if_neg nonzero, other]
    dsimp only
    rw [if_neg (by rintro rfl; exact symbol (by decide)), take.1, take.2]

theorem gettoken_text (before : t.Before s) : gettoken (t.text ++ s) = (some t, skip s) := by
  have step : switch (t.text ++ s) = (some t, s) := by
    cases t with
    | word text => exact switch_word before
    | gt =>
      cases s with
      | nil => rfl
      | cons c rest =>
        have other : c ≠ 62 := fun same => before (by rw [same]; rfl)
        have next : star (c :: rest) = c := rfl
        show (if star (c :: rest) = 62 then _ else _) = _
        rw [next, if_neg other]
        rfl
    | _ => rfl
  unfold gettoken
  rw [skip_text before, step]

theorem scans_skip (scans : Scans s ts) : Scans (skip s) ts := by
  induction scans with
  | nil => exact .nil
  | space c s ts white rest ih =>
    rw [skip_white white]
    exact ih
  | token t s ts before rest ih =>
    rw [skip_text before]
    exact .token t s ts before rest

theorem skip_length (s : List UInt8) : (skip s).length ≤ s.length := (List.dropWhile_suffix _).length_le

theorem scans_cons (scans : Scans s (t :: ts)) : ∃ rest, gettoken s = (some t, rest) ∧ Scans rest ts ∧ rest.length < s.length := by
  generalize whole : t :: ts = all at scans
  induction scans with
  | nil => cases whole
  | space c s all white rest ih =>
    obtain ⟨left, taken, scans, less⟩ := ih whole
    have same : gettoken (c :: s) = gettoken s := by
      unfold gettoken
      rw [skip_white white]
    exact ⟨left, same.trans taken, scans, Nat.lt_succ_of_lt less⟩
  | token t' s ts' before rest ih =>
    cases whole
    refine ⟨skip s, gettoken_text before, scans_skip rest, ?_⟩
    obtain ⟨c, more, text, -⟩ := text_first before
    have shorter := skip_length s
    rw [text, List.length_append, List.length_cons]
    omega

theorem scans_nil (scans : Scans s []) : gettoken s = (none, []) ∧ skip s = [] := by
  generalize empty : ([] : List Token) = all at scans
  induction scans with
  | nil => exact ⟨rfl, rfl⟩
  | space c s all white rest ih =>
    obtain ⟨ends, blank⟩ := ih empty
    have same : gettoken (c :: s) = gettoken s := by
      unfold gettoken
      rw [skip_white white]
    exact ⟨same.trans ends, by rw [skip_white white]; exact blank⟩
  | token t' s ts' before rest ih => cases empty

theorem scans_unique (first : Scans s ts) (second : Scans s ts') : ts = ts' := by
  induction ts generalizing s ts' with
  | nil =>
    cases ts' with
    | nil => rfl
    | cons t' ts' =>
      obtain ⟨rest, taken, -⟩ := scans_cons second
      rw [(scans_nil first).1] at taken
      cases taken
  | cons t ts ih =>
    obtain ⟨rest, taken, scans, -⟩ := scans_cons first
    cases ts' with
    | nil =>
      rw [(scans_nil second).1] at taken
      cases taken
    | cons t' ts' =>
      obtain ⟨rest', taken', scans', -⟩ := scans_cons second
      rw [taken] at taken'
      cases taken'
      rw [ih scans scans']

theorem scans_length (scans : Scans s ts) : ts.length ≤ s.length := by
  induction scans with
  | nil => exact Nat.le_refl _
  | space c s ts white rest ih => exact Nat.le_succ_of_le ih
  | token t s ts before rest ih =>
    obtain ⟨c, more, text, -⟩ := text_first before
    rw [text, List.length_append, List.length_cons, List.length_cons]
    omega

theorem scans_exist (s : List UInt8) (text : 0 ∉ s) : ∃ ts, Scans s ts := by
  generalize bound : s.length = n
  induction n using Nat.strongRecOn generalizing s with
  | _ n ih =>
    cases s with
    | nil => exact ⟨[], .nil⟩
    | cons c rest =>
      rw [List.length_cons] at bound
      have after : ∀ s', s' <:+ rest → ∃ ts, Scans s' ts := by
        intro s' suffix
        have shorter := suffix.length_le
        exact ih s'.length (by omega) s' (fun zero => text (List.mem_cons_of_mem c (suffix.subset zero))) rfl
      obtain ⟨ts, scans⟩ := after rest (List.suffix_refl rest)
      by_cases white : c ∈ whitespace
      · exact ⟨ts, .space c rest ts white scans⟩
      by_cases symbol : c ∈ symbols
      · simp only [symbols, List.mem_cons, List.not_mem_nil, or_false] at symbol
        rcases symbol with rfl | rfl | rfl | rfl | rfl | rfl | rfl
        · exact ⟨_, .token .lt rest ts trivial scans⟩
        · exact ⟨_, .token .bar rest ts trivial scans⟩
        · cases rest with
          | nil => exact ⟨_, .token .gt [] ts (by simp [Token.Before]) scans⟩
          | cons d more =>
            by_cases double : d = 62
            · subst double
              obtain ⟨ts', scans'⟩ := after more (List.suffix_cons 62 more)
              exact ⟨_, .token .gtgt more ts' trivial scans'⟩
            · exact ⟨_, .token .gt (d :: more) ts (by simpa [Token.Before] using double) scans⟩
        · exact ⟨_, .token .amp rest ts trivial scans⟩
        · exact ⟨_, .token .semi rest ts trivial scans⟩
        · exact ⟨_, .token .lparen rest ts trivial scans⟩
        · exact ⟨_, .token .rparen rest ts trivial scans⟩
      · have first : plain c = true := (plain_iff c).mpr ⟨white, symbol⟩
        have split : c :: rest = (c :: rest.takeWhile plain) ++ rest.dropWhile plain := by
          rw [List.cons_append, List.takeWhile_append_dropWhile]
        obtain ⟨ts', scans'⟩ := after (rest.dropWhile plain) (List.dropWhile_suffix plain)
        refine ⟨.word (c :: rest.takeWhile plain) :: ts', ?_⟩
        rw [split]
        refine .token (.word _) _ _ ⟨List.cons_ne_nil _ _, fun d member => ?_, fun d stop => ?_⟩ scans'
        · have is : plain d = true := by
            rcases List.mem_cons.mp member with rfl | later
            · exact first
            · exact List.mem_takeWhile_imp later
          have nonzero : d ≠ 0 := by
            rintro rfl
            refine text ?_
            rw [split]
            exact List.mem_append_left _ member
          exact ⟨((plain_iff d).mp is).1, ((plain_iff d).mp is).2, nonzero⟩
        · have ends : ¬ plain d = true := by
            have not_ := List.head?_dropWhile_not plain rest
            rw [Option.mem_def.mp stop] at not_
            simpa using not_
          rw [plain_iff] at ends
          by_contra neither
          exact ends (not_or.mp neither)

def peeks (set : List UInt8) : List Token → Bool
  | [] => false
  | .word _ :: _ => false
  | t :: _ => strchr set (star t.text)

theorem peek_eq (scans : Scans s ts) (set : List UInt8) (sym : set ⊆ symbols) : peek s set = (peeks set ts, skip s) := by
  unfold peek
  dsimp only
  induction scans with
  | nil => rfl
  | space c s ts white rest ih =>
    rw [skip_white white]
    exact ih
  | token t s ts before rest ih =>
    obtain ⟨c, more, text, -, nonzero⟩ := text_first before
    have first : star (t.text ++ s) = c := by
      rw [text]
      rfl
    have first' : star t.text = c := by
      rw [text]
      rfl
    rw [skip_text before, first, decide_eq_true nonzero, Bool.true_and]
    cases t with
    | word w =>
      have run := (before.2.1 c (by rw [show w = c :: more from text]; exact List.mem_cons_self)).2.1
      have none : strchr set c = false := by
        rw [← Bool.not_eq_true, strchr_iff]
        exact fun member => run (sym member)
      rw [none]
      rfl
    | _ =>
      rw [← first']
      rfl

end

end Xv6.Sh
