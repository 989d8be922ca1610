import Xv6.Sh.Grammar

set_option autoImplicit false

namespace Xv6.Sh

def NoRedir (ts : List Token) : Prop := ∀ op : RedirOp, ts.head? ≠ some op.token

def Over (ts : List Token) : Prop := ∀ t ∈ ts.head?, t = .bar ∨ t = .rparen ∨ t = .amp ∨ t = .semi

def Simple.Stops (ts : List Token) : Simple → Prop
  | .block _ _ => NoRedir ts
  | .exec _ _ => Over ts

def Pipeline.Stops (ts : List Token) : Pipeline → Prop
  | .one simple => simple.Stops ts ∧ ts.head? ≠ some .bar
  | .more _ rest => rest.Stops ts

def Line.Stops (ts : List Token) : Line → Prop
  | .last pipe backs => ts.head? ≠ some .amp ∧ ts.head? ≠ some .semi ∧ (backs = 0 → pipe.Stops ts)
  | .seq _ _ rest => rest.Stops ts

section

variable {ts ts' : List Token}

theorem over_no_redir (stop : Over ts) : NoRedir ts := by
  intro op head
  rcases stop _ head with same | same | same | same <;> cases op <;> cases same

theorem args_no_redir (args : List (Word × List Redir)) (stop : Over ts) : NoRedir (argTokens args ++ ts) := by
  cases args with
  | nil => exact over_no_redir stop
  | cons arg rest =>
    intro op head
    cases op <;> cases head

theorem redirs_unique (rs rs' : List Redir) (same : redirTokens rs ++ ts = redirTokens rs' ++ ts') (stops : NoRedir ts)
    (stops' : NoRedir ts') : rs = rs' ∧ ts = ts' := by
  induction rs generalizing rs' with
  | nil =>
    cases rs' with
    | nil => exact ⟨rfl, same⟩
    | cons r' rest' =>
      refine absurd ?_ (stops r'.op)
      rw [show ts = redirTokens (r' :: rest') ++ ts' from same]
      rfl
  | cons r rest ih =>
    cases rs' with
    | nil =>
      refine absurd ?_ (stops' r.op)
      rw [show ts' = redirTokens (r :: rest) ++ ts from same.symm]
      rfl
    | cons r' rest' =>
      obtain ⟨op, file⟩ := r
      obtain ⟨op', file'⟩ := r'
      injection same with ops more
      injection more with files more
      injection files with files
      obtain ⟨rests, tails⟩ := ih rest' more
      have ops' : op = op' := by
        cases op <;> cases op' <;> first | rfl | cases ops
      have both : file = file' := files
      exact ⟨by rw [ops', both, rests], tails⟩

theorem args_unique (args args' : List (Word × List Redir)) (same : argTokens args ++ ts = argTokens args' ++ ts')
    (stop : Over ts) (stop' : Over ts') : args = args' ∧ ts = ts' := by
  induction args generalizing args' with
  | nil =>
    cases args' with
    | nil => exact ⟨rfl, same⟩
    | cons arg' rest' =>
      have word := stop (.word arg'.1) (by rw [show ts = argTokens (arg' :: rest') ++ ts' from same]; rfl)
      rcases word with never | never | never | never <;> cases never
  | cons arg rest ih =>
    cases args' with
    | nil =>
      have word := stop' (.word arg.1) (by rw [show ts' = argTokens (arg :: rest) ++ ts from same.symm]; rfl)
      rcases word with never | never | never | never <;> cases never
    | cons arg' rest' =>
      have split : ∀ (a : Word × List Redir) (more : List (Word × List Redir)) (tail : List Token),
          argTokens (a :: more) ++ tail = .word a.1 :: (redirTokens a.2 ++ (argTokens more ++ tail)) := by
        intro a more tail
        simp [argTokens]
      rw [split, split] at same
      injection same with words more
      injection words with words
      obtain ⟨redirs, more⟩ := redirs_unique _ _ more (args_no_redir rest stop) (args_no_redir rest' stop')
      obtain ⟨rests, tails⟩ := ih rest' more
      exact ⟨by rw [rests, Prod.ext words redirs], tails⟩

theorem backs_unique (n n' : Nat) (same : List.replicate n Token.amp ++ ts = List.replicate n' Token.amp ++ ts')
    (stops : ts.head? ≠ some .amp) (stops' : ts'.head? ≠ some .amp) : n = n' ∧ ts = ts' := by
  induction n generalizing n' with
  | zero =>
    cases n' with
    | zero => exact ⟨rfl, same⟩
    | succ n' => exact absurd (by rw [show ts = List.replicate (n' + 1) Token.amp ++ ts' from same]; rfl) stops
  | succ n ih =>
    cases n' with
    | zero => exact absurd (by rw [show ts' = List.replicate (n + 1) Token.amp ++ ts from same.symm]; rfl) stops'
    | succ n' =>
      injection same with _ more
      obtain ⟨count, tails⟩ := ih n' more
      exact ⟨by rw [count], tails⟩

theorem simple_stops (d : Simple) (stop : Over ts) : d.Stops ts := by
  cases d with
  | block line redirs => exact over_no_redir stop
  | exec redirs args => exact stop

theorem over_cons {t : Token} (is : t = .bar ∨ t = .rparen ∨ t = .amp ∨ t = .semi) (ts : List Token) : Over (t :: ts) := by
  intro t' head
  cases head
  exact is

theorem pipeline_stops (stop : Over ts) (last : ts.head? ≠ some .bar) : ∀ d : Pipeline, d.Stops ts
  | .one simple => ⟨simple_stops simple stop, last⟩
  | .more _ rest => pipeline_stops stop last rest

theorem exec_not_block (rs : List Redir) (args : List (Word × List Redir)) (stop : Over ts) :
    ¬ (Simple.tokens (.exec rs args) ++ ts).head? = some .lparen := by
  intro head
  simp only [Simple.tokens, List.append_assoc] at head
  cases rs with
  | cons r rest =>
    obtain ⟨op, file⟩ := r
    cases op <;> cases head
  | nil =>
    cases args with
    | cons arg rest => cases head
    | nil =>
      rcases stop _ head with never | never | never | never <;> cases never

theorem backs_stop {d : Pipeline} {n : Nat} (stops : n = 0 → d.Stops ts) : d.Stops (List.replicate n .amp ++ ts) := by
  cases n with
  | zero => exact stops rfl
  | succ n => exact pipeline_stops (over_cons (.inr (.inr (.inl rfl))) _) (by simp) d

theorem line_stops (stop : Over ts) (last : ts.head? = none ∨ ts.head? = some .rparen) : ∀ d : Line, d.Stops ts
  | .last pipe backs => by
    refine ⟨?_, ?_, fun _ => pipeline_stops stop ?_ pipe⟩
    · rcases last with head | head <;> rw [head] <;> simp
    · rcases last with head | head <;> rw [head] <;> simp
    · rcases last with head | head <;> rw [head] <;> simp
  | .seq _ _ rest => line_stops stop last rest

end

mutual

theorem line_unique : ∀ (d d' : Line) {ts ts' : List Token}, d.tokens ++ ts = d'.tokens ++ ts' → d.Stops ts → d'.Stops ts' →
    d = d' ∧ ts = ts'
  | .last p n, .last p' n', ts, ts', same, stops, stops' => by
    simp only [Line.tokens, List.append_assoc] at same
    obtain ⟨rfl, more⟩ := pipeline_unique p p' same (backs_stop stops.2.2) (backs_stop stops'.2.2)
    obtain ⟨rfl, rfl⟩ := backs_unique n n' more stops.1 stops'.1
    exact ⟨rfl, rfl⟩
  | .last p n, .seq p' n' rest', ts, ts', same, stops, stops' => by
    simp only [Line.tokens, List.append_assoc, List.cons_append] at same
    obtain ⟨-, more⟩ := pipeline_unique p p' same (backs_stop stops.2.2)
      (backs_stop fun _ => pipeline_stops (over_cons (.inr (.inr (.inr rfl))) _) (by simp) p')
    obtain ⟨-, rest⟩ := backs_unique n n' more stops.1 (by simp)
    exact absurd (by rw [rest]; rfl) stops.2.1
  | .seq p n rest, .last p' n', ts, ts', same, stops, stops' => by
    simp only [Line.tokens, List.append_assoc, List.cons_append] at same
    obtain ⟨-, more⟩ := pipeline_unique p p' same
      (backs_stop fun _ => pipeline_stops (over_cons (.inr (.inr (.inr rfl))) _) (by simp) p) (backs_stop stops'.2.2)
    obtain ⟨-, tail⟩ := backs_unique n n' more (by simp) stops'.1
    exact absurd (by rw [← tail]; rfl) stops'.2.1
  | .seq p n rest, .seq p' n' rest', ts, ts', same, stops, stops' => by
    simp only [Line.tokens, List.append_assoc, List.cons_append] at same
    have semi : ∀ (q : Pipeline) (tail : List Token), q.Stops (.semi :: tail) := fun q tail =>
      pipeline_stops (over_cons (.inr (.inr (.inr rfl))) tail) (by simp) q
    obtain ⟨rfl, more⟩ := pipeline_unique p p' same (backs_stop fun _ => semi p _) (backs_stop fun _ => semi p' _)
    obtain ⟨rfl, tail⟩ := backs_unique n n' more (by simp) (by simp)
    injection tail with _ tail
    obtain ⟨rfl, rfl⟩ := line_unique rest rest' tail stops stops'
    exact ⟨rfl, rfl⟩

theorem pipeline_unique : ∀ (d d' : Pipeline) {ts ts' : List Token}, d.tokens ++ ts = d'.tokens ++ ts' → d.Stops ts →
    d'.Stops ts' → d = d' ∧ ts = ts'
  | .one s, .one s', ts, ts', same, stops, stops' => by
    obtain ⟨rfl, rfl⟩ := simple_unique s s' same stops.1 stops'.1
    exact ⟨rfl, rfl⟩
  | .one s, .more s' rest', ts, ts', same, stops, stops' => by
    simp only [Pipeline.tokens, List.append_assoc, List.cons_append] at same
    obtain ⟨-, tail⟩ := simple_unique s s' same stops.1 (simple_stops s' (over_cons (.inl rfl) _))
    exact absurd (by rw [tail]; rfl) stops.2
  | .more s rest, .one s', ts, ts', same, stops, stops' => by
    simp only [Pipeline.tokens, List.append_assoc, List.cons_append] at same
    obtain ⟨-, tail⟩ := simple_unique s s' same (simple_stops s (over_cons (.inl rfl) _)) stops'.1
    exact absurd (by rw [← tail]; rfl) stops'.2
  | .more s rest, .more s' rest', ts, ts', same, stops, stops' => by
    simp only [Pipeline.tokens, List.append_assoc, List.cons_append] at same
    obtain ⟨rfl, tail⟩ := simple_unique s s' same (simple_stops s (over_cons (.inl rfl) _))
      (simple_stops s' (over_cons (.inl rfl) _))
    injection tail with _ tail
    obtain ⟨rfl, rfl⟩ := pipeline_unique rest rest' tail stops stops'
    exact ⟨rfl, rfl⟩

theorem simple_unique : ∀ (d d' : Simple) {ts ts' : List Token}, d.tokens ++ ts = d'.tokens ++ ts' → d.Stops ts → d'.Stops ts' →
    d = d' ∧ ts = ts'
  | .block l rs, .block l' rs', ts, ts', same, stops, stops' => by
    simp only [Simple.tokens, List.append_assoc, List.cons_append] at same
    injection same with _ same
    have closes : ∀ tail, Over (Token.rparen :: tail) := over_cons (.inr (.inl rfl))
    obtain ⟨rfl, tail⟩ := line_unique l l' same (line_stops (closes _) (.inr rfl) l) (line_stops (closes _) (.inr rfl) l')
    injection tail with _ tail
    obtain ⟨rfl, rfl⟩ := redirs_unique rs rs' tail stops stops'
    exact ⟨rfl, rfl⟩
  | .block l rs, .exec rs' args', ts, ts', same, stops, stops' => by
    exact (exec_not_block rs' args' stops' (by rw [← same]; rfl)).elim
  | .exec rs args, .block l' rs', ts, ts', same, stops, stops' => by
    exact (exec_not_block rs args stops (by rw [same]; rfl)).elim
  | .exec rs args, .exec rs' args', ts, ts', same, stops, stops' => by
    simp only [Simple.tokens, List.append_assoc] at same
    obtain ⟨rfl, more⟩ := redirs_unique rs rs' same (args_no_redir args stops) (args_no_redir args' stops')
    obtain ⟨rfl, rfl⟩ := args_unique args args' more stops stops'
    exact ⟨rfl, rfl⟩

end

end Xv6.Sh
