import Xv6.Sh.Unique

set_option autoImplicit false

namespace Xv6.Sh

-- The value of a derivation that cannot be continued, or a panic and no such derivation.
def Settles {D A : Type} (tokens : D → List Token) (value : D → A) (stops : D → List Token → Prop) (ts : List Token)
    (r : Parse (A × List UInt8)) : Prop :=
  (∃ d rest s', r = .ok (value d, s') ∧ ts = tokens d ++ rest ∧ Scans s' rest ∧ stops d rest) ∨
    ((∃ msg, r = .panic msg) ∧ ∀ d rest, stops d rest → ts ≠ tokens d ++ rest)

section

variable {s : List UInt8} {ts : List Token}

theorem redirs_cons {op : RedirOp} {more rest : List Token} (rs : List Redir) (stops : NoRedir rest)
    (same : op.token :: more = redirTokens rs ++ rest) :
    ∃ file rs', rs = ⟨op, file⟩ :: rs' ∧ more = .word file :: (redirTokens rs' ++ rest) := by
  cases rs with
  | nil => exact absurd (by rw [show rest = op.token :: more from same.symm]; rfl) (stops op)
  | cons r rs' =>
    obtain ⟨op', file⟩ := r
    injection same with ops more
    have ops' : op = op' := by
      cases op <;> cases op' <;> first | rfl | cases ops
    exact ⟨file, rs', by rw [ops'], more⟩

theorem redir_of_token (op : RedirOp) (file : Word) : redirOf (some op.token) file = some ⟨op, file⟩ := by
  cases op <;> rfl

theorem redirs_settle (n : Nat) (scans : Scans s ts) (enough : ts.length < n) :
    Settles redirTokens (fun rs => rs) (fun _ rest => NoRedir rest) ts (redirsLoop n s) := by
  induction n generalizing s ts with
  | zero => exact absurd enough (Nat.not_lt_zero _)
  | succ n ih =>
    unfold redirsLoop
    rw [peek_eq scans [60, 62] (by decide)]
    have start := scans_skip scans
    by_cases none : NoRedir ts
    · have quiet : peeks [60, 62] ts = false := by
        cases ts with
        | nil => rfl
        | cons t more =>
          cases t with
          | lt => exact absurd rfl (none .lt)
          | gt => exact absurd rfl (none .gt)
          | gtgt => exact absurd rfl (none .gtgt)
          | _ => rfl
      rw [quiet]
      exact .inl ⟨[], ts, skip s, rfl, rfl, start, none⟩
    · obtain ⟨op, first⟩ := not_forall_not.mp none
      obtain ⟨more, rfl⟩ : ∃ more, ts = op.token :: more := by
        cases ts with
        | nil => cases first
        | cons t more =>
          cases first
          exact ⟨more, rfl⟩
      have found : peeks [60, 62] (op.token :: more) = true := by
        cases op <;> rfl
      obtain ⟨s₁, taken, scans₁, -⟩ := scans_cons start
      rw [found]
      dsimp only
      rw [if_pos rfl, taken]
      dsimp only
      have missing : (∀ file more', more ≠ .word file :: more') → ∀ rs rest, NoRedir rest →
          op.token :: more ≠ redirTokens rs ++ rest := by
        intro no rs rest stops same
        obtain ⟨file, rs', -, next⟩ := redirs_cons rs stops same
        exact no file _ next
      cases more with
      | nil =>
        rw [(scans_nil scans₁).1]
        exact .inr ⟨⟨_, rfl⟩, missing nofun⟩
      | cons t more =>
        obtain ⟨s₂, taken', scans₂, -⟩ := scans_cons scans₁
        rw [taken']
        cases t with
        | word file =>
          dsimp only
          rw [redir_of_token]
          simp only [List.length_cons] at enough
          rcases ih scans₂ (by omega) with ⟨rs, rest, s', done, split, scans', stops⟩ | ⟨⟨msg, fails⟩, none'⟩
          · rw [done]
            refine .inl ⟨⟨op, file⟩ :: rs, rest, s', rfl, ?_, scans', stops⟩
            rw [split]
            rfl
          · rw [fails]
            refine .inr ⟨⟨msg, rfl⟩, fun rs rest stops same => ?_⟩
            obtain ⟨file', rs', -, next⟩ := redirs_cons rs stops same
            injection next with _ next
            exact none' rs' rest stops next
        | _ => exact .inr ⟨⟨_, rfl⟩, missing nofun⟩

theorem parseredirs_settle (scans : Scans s ts) :
    Settles redirTokens (fun rs => rs) (fun _ rest => NoRedir rest) ts (parseredirs s) :=
  redirs_settle (s.length + 1) scans (Nat.lt_succ_of_le (scans_length scans))

theorem not_over {t : Token} {more : List Token} (other : t ≠ .bar ∧ t ≠ .rparen ∧ t ≠ .amp ∧ t ≠ .semi) :
    ¬ Over (t :: more) := by
  intro stop
  rcases stop t rfl with same | same | same | same
  · exact other.1 same
  · exact other.2.1 same
  · exact other.2.2.1 same
  · exact other.2.2.2 same

theorem args_split (arg : Word × List Redir) (args : List (Word × List Redir)) (rest : List Token) :
    argTokens (arg :: args) ++ rest = .word arg.1 :: (redirTokens arg.2 ++ (argTokens args ++ rest)) := by
  simp [argTokens]

theorem args_cons {text : Word} {more rest : List Token} (args : List (Word × List Redir)) (stop : Over rest)
    (same : .word text :: more = argTokens args ++ rest) :
    ∃ rs args', args = (text, rs) :: args' ∧ more = redirTokens rs ++ (argTokens args' ++ rest) := by
  cases args with
  | nil =>
    rw [show rest = .word text :: more from same.symm] at stop
    exact absurd stop (not_over (by simp))
  | cons arg args' =>
    obtain ⟨text', rs⟩ := arg
    rw [args_split] at same
    injection same with words more
    injection words with words
    exact ⟨rs, args', by rw [words], more⟩

theorem args_other {t : Token} {more rest : List Token} (args : List (Word × List Redir)) (stop : Over rest)
    (no : ∀ text, t ≠ .word text) (other : ¬ Over (t :: more)) : t :: more ≠ argTokens args ++ rest := by
  intro same
  cases args with
  | nil =>
    rw [show rest = t :: more from same.symm] at stop
    exact other stop
  | cons arg args' =>
    rw [args_split] at same
    injection same with first
    exact no arg.1 first

def collect (argv : List Word) (rs : List Redir) (args : List (Word × List Redir)) : List Word × List Redir :=
  (argv ++ args.map Prod.fst, rs ++ args.flatMap Prod.snd)

theorem collect_nil (argv : List Word) (rs : List Redir) : collect argv rs [] = (argv, rs) := by
  simp [collect]

theorem collect_cons (argv : List Word) (rs rs' : List Redir) (text : Word) (args : List (Word × List Redir)) :
    collect (argv ++ [text]) (rs ++ rs') args = collect argv rs ((text, rs') :: args) := by
  simp [collect]

theorem words_settle (n : Nat) (argv : List Word) (rs : List Redir) (scans : Scans s ts) (enough : ts.length < n)
    (short : argv.length ≤ 9) :
    Settles argTokens (collect argv rs) (fun args rest => Over rest ∧ argv.length + args.length ≤ 9) ts
      (wordsLoop n argv rs s) := by
  induction n generalizing s ts argv rs with
  | zero => exact absurd enough (Nat.not_lt_zero _)
  | succ n ih =>
    have start := scans_skip scans
    have ended : ∀ s' : List UInt8, Parse.ok ((argv, rs), s') = Parse.ok (collect argv rs [], s') := by
      intro s'
      rw [collect_nil]
    unfold wordsLoop
    rw [peek_eq scans [124, 41, 38, 59] (by decide)]
    dsimp only
    cases ts with
    | nil =>
      rw [(scans_nil start).1]
      exact .inl ⟨[], [], [], ended [], rfl, .nil, ⟨nofun, short⟩⟩
    | cons t more =>
      obtain ⟨s₁, taken, scans₁, -⟩ := scans_cons start
      have stop : ∀ is : t = .bar ∨ t = .rparen ∨ t = .amp ∨ t = .semi, Settles argTokens (collect argv rs)
          (fun args rest => Over rest ∧ argv.length + args.length ≤ 9) (t :: more) (.ok ((argv, rs), skip s)) := fun is =>
        .inl ⟨[], t :: more, skip s, ended (skip s), rfl, start, over_cons is more, short⟩
      cases t with
      | bar => exact stop (.inl rfl)
      | rparen => exact stop (.inr (.inl rfl))
      | amp => exact stop (.inr (.inr (.inl rfl)))
      | semi => exact stop (.inr (.inr (.inr rfl)))
      | word text =>
        rw [show peeks [124, 41, 38, 59] (.word text :: more) = false from rfl, taken]
        dsimp only
        rw [if_neg (by decide)]
        by_cases many : argv.length + 1 ≥ maxargs
        · rw [if_pos many]
          refine .inr ⟨⟨_, rfl⟩, fun args rest stops same => ?_⟩
          obtain ⟨rs', args', rfl, -⟩ := args_cons args stops.1 same
          have count := stops.2
          rw [List.length_cons] at count
          exact absurd many (by unfold maxargs; omega)
        · rw [if_neg many]
          rw [List.length_cons] at enough
          rcases parseredirs_settle scans₁ with ⟨rs₁, rest₁, s₂, done, split, scans₂, none⟩ | ⟨⟨msg, fails⟩, none⟩
          · rw [done]
            have left : rest₁.length ≤ more.length := by
              rw [split, List.length_append]
              exact Nat.le_add_left _ _
            have fits : (argv ++ [text]).length ≤ 9 := by
              rw [List.length_append, List.length_singleton]
              unfold maxargs at many
              omega
            rcases ih (argv ++ [text]) (rs ++ rs₁) scans₂ (by omega) fits with
              ⟨args, rest, s', done', split', scans', stops⟩ | ⟨⟨msg, fails⟩, none'⟩
            · refine .inl ⟨(text, rs₁) :: args, rest, s', ?_, ?_, scans', stops.1, ?_⟩
              · show wordsLoop n (argv ++ [text]) (rs ++ rs₁) s₂ = _
                rw [done', collect_cons]
              · rw [args_split, split, split']
              · have count := stops.2
                rw [List.length_append, List.length_singleton] at count
                rw [List.length_cons]
                omega
            · refine .inr ⟨⟨msg, fails⟩, fun args rest stops same => ?_⟩
              obtain ⟨rs', args', rfl, more'⟩ := args_cons args stops.1 same
              rw [split] at more'
              obtain ⟨-, tail⟩ := redirs_unique rs₁ rs' more' none (args_no_redir args' stops.1)
              refine none' args' rest ⟨stops.1, ?_⟩ tail
              have count := stops.2
              rw [List.length_cons] at count
              rw [List.length_append, List.length_singleton]
              omega
          · rw [fails]
            refine .inr ⟨⟨msg, rfl⟩, fun args rest stops same => ?_⟩
            obtain ⟨rs', args', rfl, more'⟩ := args_cons args stops.1 same
            exact none rs' _ (args_no_redir args' stops.1) more'
      | _ =>
        rw [taken]
        exact .inr ⟨⟨_, rfl⟩, fun args rest stops => args_other args stops.1 (fun _ => by simp) (not_over (by simp))⟩

def separators : List (UInt8 × Token) := [(38, .amp), (59, .semi), (124, .bar), (40, .lparen), (41, .rparen)]

theorem peek_separator {c : UInt8} {t : Token} (is : (c, t) ∈ separators) (scans : Scans s ts) :
    peek s [c] = (decide (ts.head? = some t), skip s) := by
  have sym : ∀ p ∈ separators, p.1 ∈ symbols := by decide
  have heads : ∀ p ∈ separators, ∀ u more, peeks [p.1] (u :: more) = decide (some u = some p.2) := by
    intro p member u more
    simp only [separators, List.mem_cons, List.not_mem_nil, or_false] at member
    rcases member with rfl | rfl | rfl | rfl | rfl <;> cases u <;> rfl
  rw [peek_eq scans [c] (by simpa using sym _ is)]
  cases ts with
  | nil => rfl
  | cons u more => rw [heads _ is u more, List.head?_cons]

theorem head_cons {t : Token} (head : ts.head? = some t) : ∃ more, ts = t :: more := by
  cases ts with
  | nil => cases head
  | cons u more =>
    cases head
    exact ⟨more, rfl⟩

theorem backs_settle (n : Nat) (cmd : Cmd) (scans : Scans s ts) (enough : ts.length < n) :
    ∃ backs rest s', backLoop n cmd s = .ok (Cmd.back^[backs] cmd, s') ∧ ts = List.replicate backs .amp ++ rest ∧ Scans s' rest ∧
      rest.head? ≠ some .amp := by
  induction n generalizing s ts cmd with
  | zero => exact absurd enough (Nat.not_lt_zero _)
  | succ n ih =>
    have start := scans_skip scans
    unfold backLoop
    rw [peek_separator (t := .amp) (by decide) scans]
    by_cases more : ts.head? = some .amp
    · obtain ⟨ts', rfl⟩ := head_cons more
      obtain ⟨s₁, taken, scans₁, -⟩ := scans_cons start
      obtain ⟨backs, rest, s', done, split, scans', stops⟩ := ih (.back cmd) scans₁ (Nat.lt_of_succ_lt_succ enough)
      refine ⟨backs + 1, rest, s', ?_, by rw [split]; rfl, scans', stops⟩
      show backLoop n (.back cmd) (gettoken (skip s)).2 = _
      rw [taken, done]
      rfl
    · rw [decide_eq_false more]
      exact ⟨0, ts, skip s, rfl, rfl, start, more⟩

abbrev LineSettles (ts : List Token) (r : Parse (Cmd × List UInt8)) : Prop :=
  Settles Line.tokens Line.cmd (fun d rest => d.Fits ∧ d.Stops rest) ts r

abbrev PipelineSettles (ts : List Token) (r : Parse (Cmd × List UInt8)) : Prop :=
  Settles Pipeline.tokens Pipeline.cmd (fun d rest => d.Fits ∧ d.Stops rest) ts r

abbrev SimpleSettles (ts : List Token) (r : Parse (Cmd × List UInt8)) : Prop :=
  Settles Simple.tokens Simple.cmd (fun d rest => d.Fits ∧ d.Stops rest) ts r

section

variable {n : Nat}

theorem line_settle (pipe : ∀ {s ts}, Scans s ts → 4 * ts.length + 3 ≤ n → PipelineSettles ts (parsepipe n s))
    (line : ∀ {s ts}, Scans s ts → 4 * ts.length + 4 ≤ n → LineSettles ts (parseline n s)) (scans : Scans s ts)
    (enough : 4 * ts.length + 4 ≤ n + 1) : LineSettles ts (parseline (n + 1) s) := by
  unfold parseline
  rcases pipe scans (by omega) with ⟨p, ts₁, s₁, done, rfl, scans₁, fits, stops⟩ | ⟨⟨msg, fails⟩, none⟩
  · rw [done]
    obtain ⟨backs, ts₂, s₂, done₂, rfl, scans₂, last⟩ := backs_settle (s₁.length + 1) p.cmd scans₁
      (Nat.lt_succ_of_le (scans_length scans₁))
    dsimp only [bind, Parse.bind]
    rw [done₂]
    dsimp only [bind, Parse.bind]
    rw [peek_separator (t := .semi) (by decide) scans₂]
    dsimp only
    have kept : backs = 0 → p.Stops ts₂ := by
      rintro rfl
      exact stops
    -- The pipeline and the '&'s of any other derivation are the same.
    have same : ∀ (q : Pipeline) m rest, q.Stops (List.replicate m .amp ++ rest) → rest.head? ≠ some .amp →
        p.tokens ++ (List.replicate backs .amp ++ ts₂) = q.tokens ++ (List.replicate m .amp ++ rest) → ts₂ = rest := by
      intro q m rest stops' last' whole
      obtain ⟨-, tails⟩ := pipeline_unique p q whole stops stops'
      exact (backs_unique backs m tails last last').2
    by_cases more : ts₂.head? = some .semi
    · obtain ⟨ts₃, rfl⟩ := head_cons more
      obtain ⟨s₃, taken, scans₃, -⟩ := scans_cons (scans_skip scans₂)
      have shorter : 4 * ts₃.length + 4 ≤ n := by
        simp only [List.length_append, List.length_cons] at enough
        omega
      rw [decide_eq_true more, if_pos rfl, taken]
      rcases line scans₃ shorter with ⟨d, rest, s', done₃, rfl, scans', fits', stops'⟩ | ⟨⟨msg, fails⟩, none⟩
      · rw [done₃]
        refine .inl ⟨.seq p backs d, rest, s', rfl, ?_, scans', ⟨fits, fits'⟩, stops'⟩
        simp only [Line.tokens, List.append_assoc, List.cons_append]
      · rw [fails]
        refine .inr ⟨⟨msg, rfl⟩, fun d rest good whole => ?_⟩
        cases d with
        | last q m =>
          rw [Line.tokens, List.append_assoc] at whole
          have tail := same q m rest (backs_stop good.2.2.2) good.2.1 whole
          exact good.2.2.1 (by rw [← tail]; rfl)
        | seq q m d' =>
          rw [Line.tokens, List.append_assoc, List.append_assoc, List.cons_append] at whole
          have semi : q.Stops (.semi :: (d'.tokens ++ rest)) := pipeline_stops (over_cons (.inr (.inr (.inr rfl))) _) (by simp) q
          have tail := same q m _ (backs_stop fun _ => semi) (by simp) whole
          injection tail with _ tail
          exact none d' rest ⟨good.1.2, good.2⟩ tail
    · rw [decide_eq_false more]
      refine .inl ⟨.last p backs, ts₂, skip s₂, rfl, ?_, scans_skip scans₂, fits, last, more, kept⟩
      rw [Line.tokens, List.append_assoc]
  · rw [fails]
    refine .inr ⟨⟨msg, rfl⟩, fun d rest good whole => ?_⟩
    cases d with
    | last q m =>
      rw [Line.tokens, List.append_assoc] at whole
      exact none q _ ⟨good.1, backs_stop good.2.2.2⟩ whole
    | seq q m d' =>
      rw [Line.tokens, List.append_assoc, List.append_assoc, List.cons_append] at whole
      have semi : q.Stops (.semi :: (d'.tokens ++ rest)) := pipeline_stops (over_cons (.inr (.inr (.inr rfl))) _) (by simp) q
      exact none q _ ⟨good.1.1, backs_stop fun _ => semi⟩ whole

theorem pipe_settle (simple : ∀ {s ts}, Scans s ts → 4 * ts.length + 2 ≤ n → SimpleSettles ts (parseexec n s))
    (pipe : ∀ {s ts}, Scans s ts → 4 * ts.length + 3 ≤ n → PipelineSettles ts (parsepipe n s)) (scans : Scans s ts)
    (enough : 4 * ts.length + 3 ≤ n + 1) : PipelineSettles ts (parsepipe (n + 1) s) := by
  unfold parsepipe
  have bar : ∀ (d : Simple) rest, d.Stops (.bar :: rest) := fun d rest => simple_stops d (over_cons (.inl rfl) rest)
  rcases simple scans (by omega) with ⟨d, ts₁, s₁, done, rfl, scans₁, fits, stops⟩ | ⟨⟨msg, fails⟩, none⟩
  · rw [done]
    dsimp only [bind, Parse.bind]
    rw [peek_separator (t := .bar) (by decide) scans₁]
    dsimp only
    by_cases more : ts₁.head? = some .bar
    · obtain ⟨ts₂, rfl⟩ := head_cons more
      obtain ⟨s₂, taken, scans₂, -⟩ := scans_cons (scans_skip scans₁)
      have shorter : 4 * ts₂.length + 3 ≤ n := by
        simp only [List.length_append, List.length_cons] at enough
        omega
      rw [decide_eq_true more, if_pos rfl, taken]
      rcases pipe scans₂ shorter with ⟨p, rest, s', done₂, rfl, scans', fits', stops'⟩ | ⟨⟨msg, fails⟩, none⟩
      · rw [done₂]
        refine .inl ⟨.more d p, rest, s', rfl, ?_, scans', ⟨fits, fits'⟩, stops'⟩
        simp only [Pipeline.tokens, List.append_assoc, List.cons_append]
      · rw [fails]
        refine .inr ⟨⟨msg, rfl⟩, fun q rest good whole => ?_⟩
        cases q with
        | one d' =>
          obtain ⟨-, tail⟩ := simple_unique d d' whole stops good.2.1
          exact good.2.2 (by rw [← tail]; rfl)
        | more d' p' =>
          rw [Pipeline.tokens, List.append_assoc, List.cons_append] at whole
          obtain ⟨-, tail⟩ := simple_unique d d' whole stops (bar d' _)
          injection tail with _ tail
          exact none p' rest ⟨good.1.2, good.2⟩ tail
    · rw [decide_eq_false more]
      exact .inl ⟨.one d, ts₁, skip s₁, rfl, rfl, scans_skip scans₁, fits, stops, more⟩
  · rw [fails]
    refine .inr ⟨⟨msg, rfl⟩, fun q rest good whole => ?_⟩
    cases q with
    | one d' => exact none d' rest ⟨good.1, good.2.1⟩ whole
    | more d' p' =>
      rw [Pipeline.tokens, List.append_assoc, List.cons_append] at whole
      exact none d' _ ⟨good.1.1, bar d' _⟩ whole

theorem exec_settle
    (block : ∀ {s ts}, Scans s ts → ts.head? = some .lparen → 4 * ts.length + 1 ≤ n → SimpleSettles ts (parseblock n s))
    (scans : Scans s ts) (enough : 4 * ts.length + 2 ≤ n + 1) : SimpleSettles ts (parseexec (n + 1) s) := by
  have start := scans_skip scans
  unfold parseexec
  rw [peek_separator (t := .lparen) (by decide) scans]
  dsimp only
  by_cases opens : ts.head? = some .lparen
  · rw [decide_eq_true opens, if_pos rfl]
    exact block start opens (by omega)
  · rw [decide_eq_false opens, if_neg Bool.false_ne_true]
    -- A derivation of these tokens is no block.
    have isExec : ∀ (d : Simple) rest, d.Fits ∧ d.Stops rest → ts = d.tokens ++ rest →
        ∃ rs args, args.length ≤ 9 ∧ Over rest ∧ ts = redirTokens rs ++ (argTokens args ++ rest) := by
      intro d rest good whole
      cases d with
      | block l rs => exact absurd (by rw [whole]; rfl) opens
      | exec rs args =>
        rw [Simple.tokens, List.append_assoc] at whole
        exact ⟨rs, args, good.1, good.2, whole⟩
    rcases parseredirs_settle start with ⟨rs, ts₁, s₁, done, split, scans₁, stops⟩ | ⟨⟨msg, fails⟩, none⟩
    · rw [done]
      dsimp only [bind, Parse.bind]
      rcases words_settle (s₁.length + 1) [] rs scans₁ (Nat.lt_succ_of_le (scans_length scans₁)) (Nat.zero_le 9) with
        ⟨args, rest, s', done', rfl, scans', stop, count⟩ | ⟨⟨msg, fails⟩, none⟩
      · rw [done']
        rw [List.length_nil, Nat.zero_add] at count
        refine .inl ⟨.exec rs args, rest, s', rfl, ?_, scans', count, stop⟩
        rw [split, Simple.tokens, List.append_assoc]
      · rw [fails]
        refine .inr ⟨⟨msg, rfl⟩, fun d rest good whole => ?_⟩
        obtain ⟨rs', args, count, stop, whole'⟩ := isExec d rest good whole
        rw [split] at whole'
        obtain ⟨-, tail⟩ := redirs_unique rs rs' whole' stops (args_no_redir args stop)
        exact none args rest ⟨stop, by rw [List.length_nil, Nat.zero_add]; exact count⟩ tail
    · rw [fails]
      refine .inr ⟨⟨msg, rfl⟩, fun d rest good whole => ?_⟩
      obtain ⟨rs', args, -, stop, whole'⟩ := isExec d rest good whole
      exact none rs' _ (args_no_redir args stop) whole'

theorem block_settle (line : ∀ {s ts}, Scans s ts → 4 * ts.length + 4 ≤ n → LineSettles ts (parseline n s)) (scans : Scans s ts)
    (opens : ts.head? = some .lparen) (enough : 4 * ts.length + 1 ≤ n + 1) : SimpleSettles ts (parseblock (n + 1) s) := by
  obtain ⟨ts₁, rfl⟩ := head_cons opens
  obtain ⟨s₁, taken, scans₁, -⟩ := scans_cons (scans_skip scans)
  have closes : ∀ (d : Line) rest, d.Stops (.rparen :: rest) := fun d rest =>
    line_stops (over_cons (.inr (.inl rfl)) rest) (.inr rfl) d
  -- A derivation of these tokens is a block.
  have isBlock : ∀ (d : Simple) rest, d.Fits ∧ d.Stops rest → .lparen :: ts₁ = d.tokens ++ rest →
      ∃ (l : Line) (rs : List Redir), l.Fits ∧ NoRedir rest ∧ ts₁ = l.tokens ++ (.rparen :: (redirTokens rs ++ rest)) := by
    intro d rest good whole
    cases d with
    | block l rs =>
      simp only [Simple.tokens, List.append_assoc, List.cons_append] at whole
      injection whole with _ whole
      exact ⟨l, rs, good.1, good.2, whole⟩
    | exec rs args => exact absurd (by rw [← whole]; rfl) (exec_not_block rs args good.2)
  unfold parseblock
  rw [peek_separator (t := .lparen) (by decide) scans]
  dsimp only
  rw [decide_eq_true opens, if_neg (by decide), taken]
  rw [List.length_cons] at enough
  rcases line scans₁ (by omega) with ⟨l, ts₂, s₂, done, rfl, scans₂, fits, stops⟩ | ⟨⟨msg, fails⟩, none⟩
  · rw [done]
    dsimp only [bind, Parse.bind]
    rw [peek_separator (t := .rparen) (by decide) scans₂]
    dsimp only
    by_cases close : ts₂.head? = some .rparen
    · obtain ⟨ts₃, rfl⟩ := head_cons close
      obtain ⟨s₃, taken', scans₃, -⟩ := scans_cons (scans_skip scans₂)
      rw [decide_eq_true close, if_neg (by decide), taken']
      dsimp only
      rcases parseredirs_settle scans₃ with ⟨rs, rest, s', done', rfl, scans', quiet⟩ | ⟨⟨msg, fails⟩, none⟩
      · rw [done']
        refine .inl ⟨.block l rs, rest, s', rfl, ?_, scans', fits, quiet⟩
        simp only [Simple.tokens, List.append_assoc, List.cons_append]
      · rw [fails]
        refine .inr ⟨⟨msg, rfl⟩, fun d rest good whole => ?_⟩
        obtain ⟨l', rs, -, quiet, whole'⟩ := isBlock d rest good whole
        obtain ⟨-, tail⟩ := line_unique l l' whole' stops (closes l' _)
        injection tail with _ tail
        exact none rs rest quiet tail
    · rw [decide_eq_false close]
      refine .inr ⟨⟨_, rfl⟩, fun d rest good whole => ?_⟩
      obtain ⟨l', rs, -, -, whole'⟩ := isBlock d rest good whole
      obtain ⟨-, tail⟩ := line_unique l l' whole' stops (closes l' _)
      exact close (by rw [tail]; rfl)
  · rw [fails]
    refine .inr ⟨⟨msg, rfl⟩, fun d rest good whole => ?_⟩
    obtain ⟨l', rs, fits, -, whole'⟩ := isBlock d rest good whole
    exact none l' _ ⟨fits, closes l' _⟩ whole'

end

theorem parse_settles (n : Nat) : (∀ {s ts}, Scans s ts → 4 * ts.length + 4 ≤ n → LineSettles ts (parseline n s)) ∧
    (∀ {s ts}, Scans s ts → 4 * ts.length + 3 ≤ n → PipelineSettles ts (parsepipe n s)) ∧
    (∀ {s ts}, Scans s ts → 4 * ts.length + 2 ≤ n → SimpleSettles ts (parseexec n s)) ∧
    ∀ {s ts}, Scans s ts → ts.head? = some .lparen → 4 * ts.length + 1 ≤ n → SimpleSettles ts (parseblock n s) := by
  induction n with
  | zero => exact ⟨fun _ never => by omega, fun _ never => by omega, fun _ never => by omega, fun _ _ never => by omega⟩
  | succ n ih =>
    obtain ⟨line, pipe, simple, block⟩ := ih
    exact ⟨line_settle pipe line, pipe_settle simple pipe, exec_settle block, block_settle line⟩

theorem line_ends (d : Line) : d.Stops [] := by
  refine line_stops ?_ (.inl rfl) d
  intro _ never
  cases never

theorem tokens_unique {d d' : Line} {ts rest : List Token} (first : d.tokens = ts) (second : ts = d'.tokens ++ rest)
    (stops : d'.Stops rest) : d = d' ∧ [] = rest := by
  refine line_unique d d' ?_ (line_ends d) stops
  rw [List.append_nil, first, second]

theorem parsecmd_ok_iff {line : List UInt8} {ts : List Token} (scans : Scans line ts) (cmd : Cmd) :
    parsecmd line = .ok cmd ↔ ∃ d : Line, d.Fits ∧ d.tokens = ts ∧ d.cmd = cmd := by
  have bound := scans_length scans
  unfold parsecmd
  rcases (parse_settles (4 * line.length + 4)).1 scans (by omega) with
    ⟨d, rest, s', done, split, scans', fits, stops⟩ | ⟨⟨msg, fails⟩, none⟩
  · rw [done]
    dsimp only [bind, Parse.bind, peek]
    by_cases stop : rest = []
    · subst stop
      rw [List.append_nil] at split
      rw [if_neg (by rw [(scans_nil scans').2]; simp)]
      constructor
      · intro same
        cases same
        exact ⟨d, fits, split.symm, rfl⟩
      · rintro ⟨d', -, tokens, rfl⟩
        rw [(tokens_unique tokens (by rw [split, List.append_nil]) (line_ends d)).1]
        rfl
    · have left : skip s' ≠ [] := by
        intro blank
        have none := scans_skip scans'
        rw [blank] at none
        exact stop (scans_unique none .nil)
      rw [if_pos left]
      constructor
      · intro same
        cases same
      · rintro ⟨d', -, tokens, rfl⟩
        exact absurd (tokens_unique tokens split stops).2.symm stop
  · rw [fails]
    constructor
    · intro same
      cases same
    · rintro ⟨d', fits, tokens, rfl⟩
      exact absurd (by rw [List.append_nil, tokens]) (none d' [] ⟨fits, line_ends d'⟩)

theorem parsecmd_derivation {line : List UInt8} {cmd : Cmd} (text : 0 ∉ line) (parsed : parsecmd line = .ok cmd) :
    ∃ d : Line, d.Fits ∧ Scans line d.tokens ∧ d.cmd = cmd := by
  obtain ⟨ts, scans⟩ := scans_exist line text
  obtain ⟨d, fits, rfl, same⟩ := (parsecmd_ok_iff scans cmd).mp parsed
  exact ⟨d, fits, scans, same⟩

theorem parsecmd_ends {line : List UInt8} {ts : List Token} (scans : Scans line ts) : parsecmd line ≠ .diverges := by
  have bound := scans_length scans
  unfold parsecmd
  rcases (parse_settles (4 * line.length + 4)).1 scans (by omega) with ⟨d, rest, s', done, -⟩ | ⟨⟨msg, fails⟩, -⟩
  · rw [done]
    dsimp only [bind, Parse.bind]
    split <;> intro never <;> cases never
  · rw [fails]
    intro never
    cases never

theorem parser_accepts_grammar (line : List UInt8) (text : 0 ∉ line) :
    ∃ ts, Scans line ts ∧ (∀ ts', Scans line ts' → ts' = ts) ∧ parsecmd line ≠ .diverges ∧
    (∀ cmd, parsecmd line = .ok cmd ↔ ∃ d : Line, d.Fits ∧ d.tokens = ts ∧ d.cmd = cmd) ∧
    ∀ d d' : Line, d.tokens = ts → d'.tokens = ts → d = d' := by
  obtain ⟨ts, scans⟩ := scans_exist line text
  refine ⟨ts, scans, fun ts' other => scans_unique other scans, parsecmd_ends scans, parsecmd_ok_iff scans, ?_⟩
  intro d d' first second
  exact (tokens_unique first (by rw [second, List.append_nil]) (line_ends d')).1

-- a>f&
theorem parser_accepts_grammar_redir :
    parsecmd [97, 62, 102, 38] = .ok (.back (.redir (.exec [[97]]) [102] oWronlyCreate 1)) ∧
      ∃ d : Line, d.Fits ∧ d.cmd = .back (.redir (.exec [[97]]) [102] oWronlyCreate 1) := by
  have parsed : parsecmd [97, 62, 102, 38] = .ok (.back (.redir (.exec [[97]]) [102] oWronlyCreate 1)) := by rfl
  obtain ⟨ts, -, -, -, accepts, -⟩ := parser_accepts_grammar [97, 62, 102, 38] (by decide)
  obtain ⟨d, fits, -, same⟩ := (accepts _).mp parsed
  exact ⟨parsed, d, fits, same⟩

end

end Xv6.Sh
