import LambdaCalculus.Proofs.Program.Reading

/-!
# What the reader accepts

At every moment the tokens taken so far are those of derivations that are complete and of one that
is begun: `Reader.Read` says which pieces of it each part of the reader stands for.  A token that
the reader takes goes on with the derivation, so a program that comes out has one.

* `Read.feed` — a token that is taken goes on with the derivation.
* `exists_document_of_run` — what is read as a program are the tokens of a derivation of it.
* `exists_document_of_parse` — and so for a text.
-/

namespace LambdaCalculus

namespace Reader

/-! ## Derivations that are begun -/

/-- The tokens of a chain, or of none yet, whose items are in reverse order. -/
def ItemsRead (items : List Expr) (ts : List Token) : Prop :=
  items = [] ∧ ts = [] ∨ ∃ c : Grammar.Chain, items = c.exprs.reverse ∧ ts = c.tokens

/-- The tokens of parameters, or of none yet, which are in reverse order. -/
def ParamsRead (names : List String) (ts : List Token) : Prop :=
  names = [] ∧ ts = [] ∨ ∃ ps : Grammar.Params, names = ps.names.reverse ∧ ts = ps.tokens

/-- The tokens that open the frames, innermost last. -/
inductive FramesRead : List Frame → List Token → Prop where
  /-- No frame is open. -/
  | nil : FramesRead [] []
  /-- Parentheses, after some items. -/
  | paren {frames : List Frame} {before : List Expr} {ts us : List Token}
      (hframes : FramesRead frames ts) (hbefore : ItemsRead before us) (opening : Span) :
      FramesRead (.paren before :: frames) (ts ++ (us ++ [⟨.lparen, opening⟩]))
  /-- An abstraction, after some items. -/
  | lambda {frames : List Frame} {before : List Expr} {ts us : List Token}
      (hframes : FramesRead frames ts) (hbefore : ItemsRead before us) (sign : Span)
      (ps : Grammar.Params) (dot : Span) :
      FramesRead (.lambda before sign.start ps.names.reverse :: frames)
        (ts ++ (us ++ ⟨.lambda, sign⟩ :: ps.tokens ++ [⟨.dot, dot⟩]))

/-- The tokens before the term of a statement. -/
def GoalRead : Goal → List Token → Prop
  | .expression, ts => ts = []
  | .binding start x, ts => ∃ word place sign : Span, start = word.start ∧
      ts = [⟨.letWord, word⟩, ⟨.name x, place⟩, ⟨.equals, sign⟩]

/-- The tokens of a term that is begun. -/
def TermRead (goal : Goal) (frames : List Frame) (items : List Expr) (ts : List Token) : Prop :=
  ∃ before opened current, GoalRead goal before ∧ FramesRead frames opened ∧
    ItemsRead items current ∧ ts = before ++ (opened ++ current)

/-- The tokens of a statement that is begun. -/
def ModeRead : Mode → List Token → Prop
  | .statement, ts => ts = []
  | .binder start, ts => ∃ word : Span, start = word.start ∧ ts = [⟨.letWord, word⟩]
  | .equals start x, ts => ∃ word place : Span, start = word.start ∧
      ts = [⟨.letWord, word⟩, ⟨.name x, place⟩]
  | .term goal frames items, ts => TermRead goal frames items ts
  | .params goal frames items start names, ts => ∃ before current, ∃ sign : Span,
      start = sign.start ∧ TermRead goal frames items before ∧ ParamsRead names current ∧
      ts = before ++ ⟨.lambda, sign⟩ :: current

/-- The tokens of the complete statements, which are in reverse order, and the sign after them. -/
def CompleteRead (complete : List Statement) (ts : List Token) : Prop :=
  complete = [] ∧ ts = [] ∨ ∃ (cs : Grammar.Clauses) (semicolon : Span),
    complete = cs.statements.reverse ∧ ts = cs.tokens ++ [⟨.semicolon, semicolon⟩]

/-- The reader has taken the tokens. -/
def Read (r : Reader) (ts : List Token) : Prop :=
  ∃ before current, CompleteRead r.complete before ∧ ModeRead r.mode current ∧
    ts = before ++ current

/-! ## Pieces that go on -/

theorem ItemsRead.snoc {items : List Expr} {ts : List Token} (h : ItemsRead items ts)
    (a : Grammar.Atom) : ItemsRead (a.expr :: items) (ts ++ a.tokens) := by
  rcases h with ⟨rfl, rfl⟩ | ⟨c, rfl, rfl⟩
  · exact .inr ⟨.one a, rfl, rfl⟩
  · refine .inr ⟨.snoc c a, ?_, rfl⟩
    rw [Grammar.Chain.exprs, List.reverse_append]
    rfl

theorem ParamsRead.snoc {names : List String} {ts : List Token} (h : ParamsRead names ts)
    (place : Span) (x : String) : ParamsRead (x :: names) (ts ++ [⟨.name x, place⟩]) := by
  rcases h with ⟨rfl, rfl⟩ | ⟨ps, rfl, rfl⟩
  · exact .inr ⟨.one place x, rfl, rfl⟩
  · refine .inr ⟨.snoc ps place x, ?_, rfl⟩
    rw [Grammar.Params.names, List.reverse_append]
    rfl

theorem TermRead.snoc {goal : Goal} {frames : List Frame} {items : List Expr} {ts : List Token}
    (h : TermRead goal frames items ts) (a : Grammar.Atom) :
    TermRead goal frames (a.expr :: items) (ts ++ a.tokens) := by
  obtain ⟨before, opened, current, hgoal, hframes, hitems, rfl⟩ := h
  refine ⟨before, opened, _, hgoal, hframes, hitems.snoc a, ?_⟩
  simp only [List.append_assoc]

theorem TermRead.paren {goal : Goal} {frames : List Frame} {items : List Expr} {ts : List Token}
    (h : TermRead goal frames items ts) (opening : Span) :
    TermRead goal (.paren items :: frames) [] (ts ++ [⟨.lparen, opening⟩]) := by
  obtain ⟨before, opened, current, hgoal, hframes, hitems, rfl⟩ := h
  refine ⟨before, _, [], hgoal, .paren hframes hitems opening, .inl ⟨rfl, rfl⟩, ?_⟩
  simp only [List.append_assoc, List.append_nil]

theorem TermRead.lambda {goal : Goal} {frames : List Frame} {items : List Expr} {ts : List Token}
    (h : TermRead goal frames items ts) (sign : Span) (ps : Grammar.Params) (dot : Span) :
    TermRead goal (.lambda items sign.start ps.names.reverse :: frames) []
      (ts ++ ⟨.lambda, sign⟩ :: ps.tokens ++ [⟨.dot, dot⟩]) := by
  obtain ⟨before, opened, current, hgoal, hframes, hitems, rfl⟩ := h
  refine ⟨before, _, [], hgoal, .lambda hframes hitems sign ps dot, .inl ⟨rfl, rfl⟩, ?_⟩
  simp only [List.append_assoc, List.append_nil, List.cons_append]

theorem CompleteRead.snoc {complete : List Statement} {ts : List Token}
    (h : CompleteRead complete ts) (c : Grammar.Clause) :
    ∃ cs : Grammar.Clauses, cs.statements = (c.statement :: complete).reverse ∧
      cs.tokens = ts ++ c.tokens := by
  rcases h with ⟨rfl, rfl⟩ | ⟨cs, semicolon, rfl, rfl⟩
  · exact ⟨.one c, rfl, rfl⟩
  · refine ⟨.snoc cs semicolon c, ?_, ?_⟩
    · rw [List.reverse_cons, List.reverse_reverse, Grammar.Clauses.statements]
    · rw [Grammar.Clauses.tokens, List.append_assoc, List.singleton_append]

/-! ## Terms that come to an end -/

/-- The items of a term that ends here are those of a chain. -/
theorem ItemsRead.phrase {items : List Expr} {ts : List Token} {e : Expr}
    (h : ItemsRead items ts) (he : Expr.ofItems? items = some e) :
    ∃ t : Grammar.Phrase, t.expr = e ∧ t.tokens = ts := by
  rcases h with ⟨rfl, rfl⟩ | ⟨c, rfl, rfl⟩
  · cases he
  · rw [Expr.ofItems?_reverse c.exprs_ne_nil] at he
    exact ⟨.chain c, Option.some.inj he, rfl⟩

/-- Where a term ends, so do the abstractions that it is the body of. -/
theorem FramesRead.settle {frames rest : List Frame} {ts : List Token} {e : Expr}
    (h : FramesRead frames ts) (t : Grammar.Phrase) (hsettle : settle frames t.expr = (rest, e)) :
    ∃ (us : List Token) (u : Grammar.Phrase), FramesRead rest us ∧ u.expr = e ∧
      us ++ u.tokens = ts ++ t.tokens := by
  induction h generalizing t with
  | nil =>
    cases hsettle
    exact ⟨[], t, .nil, rfl, rfl⟩
  | paren hframes hbefore opening =>
    cases hsettle
    exact ⟨_, t, .paren hframes hbefore opening, rfl, rfl⟩
  | lambda hframes hbefore sign ps dot ih =>
    rw [Reader.settle] at hsettle
    rcases hbefore with ⟨rfl, rfl⟩ | ⟨c, rfl, rfl⟩
    · rw [Expr.closeLambda_nil] at hsettle
      obtain ⟨us, u, hus, hu, htokens⟩ := ih (.lambda sign ps dot t) hsettle
      refine ⟨us, u, hus, hu, ?_⟩
      simp only [htokens, Grammar.Phrase.tokens, List.nil_append, List.append_assoc,
        List.cons_append]
    · rw [Expr.closeLambda_reverse c.exprs_ne_nil] at hsettle
      obtain ⟨us, u, hus, hu, htokens⟩ := ih (.chainLambda c sign ps dot t) hsettle
      refine ⟨us, u, hus, hu, ?_⟩
      simp only [htokens, Grammar.Phrase.tokens, List.nil_append, List.append_assoc,
        List.cons_append]

/-- A term that ends here, with the abstractions that end with it. -/
theorem TermRead.settle {goal : Goal} {frames rest : List Frame} {items : List Expr}
    {ts : List Token} {e e' : Expr} (h : TermRead goal frames items ts)
    (he : Expr.ofItems? items = some e) (hsettle : Reader.settle frames e = (rest, e')) :
    ∃ (before opened : List Token) (t : Grammar.Phrase), GoalRead goal before ∧
      FramesRead rest opened ∧ t.expr = e' ∧ ts = before ++ (opened ++ t.tokens) := by
  obtain ⟨before, opened, current, hgoal, hframes, hitems, rfl⟩ := h
  obtain ⟨t, rfl, rfl⟩ := hitems.phrase he
  obtain ⟨us, u, hus, hu, htokens⟩ := hframes.settle t hsettle
  exact ⟨before, us, u, hgoal, hus, hu, by rw [htokens]⟩

/-- The tokens of a statement that ends here are those of a derivation of it. -/
theorem TermRead.clause {goal : Goal} {frames : List Frame} {items : List Expr} {ts : List Token}
    {s : Statement} (h : TermRead goal frames items ts)
    (hs : statement? goal frames items = some s) :
    ∃ c : Grammar.Clause, c.statement = s ∧ c.tokens = ts := by
  obtain ⟨e, he, hs⟩ := Option.bind_eq_some_iff.mp hs
  rcases hsettle : Reader.settle frames e with ⟨_ | ⟨frame, rest⟩, e'⟩
  · rw [hsettle] at hs
    cases hs
    obtain ⟨before, opened, t, hgoal, hopened, rfl, rfl⟩ := h.settle he hsettle
    cases hopened
    cases goal with
    | expression =>
      cases hgoal
      exact ⟨.expression t, rfl, rfl⟩
    | binding start x =>
      obtain ⟨word, place, sign, rfl, rfl⟩ := hgoal
      exact ⟨.binding word place x sign t, rfl, rfl⟩
  · rw [hsettle] at hs
    cases hs

/-! ## One more token -/

theorem TermRead.feed {goal : Goal} {frames : List Frame} {items : List Expr} {ts : List Token}
    {t : Token} {mode : Mode} (h : TermRead goal frames items ts)
    (hmode : feedTerm? goal frames items t = some mode) : ModeRead mode (ts ++ [t]) := by
  obtain ⟨lexeme, place⟩ := t
  cases lexeme with
  | name x =>
    cases hmode
    exact h.snoc (.name place x)
  | number n =>
    cases hmode
    exact h.snoc (.number place n)
  | character c =>
    cases hmode
    exact h.snoc (.character place c)
  | lambda =>
    cases hmode
    exact ⟨ts, [], place, rfl, h, .inl ⟨rfl, rfl⟩, rfl⟩
  | lparen =>
    cases hmode
    exact h.paren place
  | rparen =>
    obtain ⟨e, he, hmode⟩ := Option.bind_eq_some_iff.mp hmode
    rcases hsettle : Reader.settle frames e with ⟨_ | ⟨outer | _, rest⟩, e'⟩
    · rw [hsettle] at hmode
      cases hmode
    · rw [hsettle] at hmode
      cases hmode
      obtain ⟨before, opened, u, hgoal, hopened, rfl, rfl⟩ := h.settle he hsettle
      obtain - | ⟨hframes, hbefore, opening⟩ := hopened
      refine ⟨before, _, _, hgoal, hframes, hbefore.snoc (.paren opening u place), ?_⟩
      simp only [Grammar.Atom.tokens, List.append_assoc, List.cons_append, List.nil_append]
    · rw [hsettle] at hmode
      cases hmode
  | letWord | dot | equals | semicolon => cases hmode

/-- After the sign of an abstraction come its parameters, and then its body. -/
theorem ModeRead.feed_params {complete : List Statement} {goal : Goal} {frames : List Frame}
    {items : List Expr} {start : Int} {names : List String} {ts : List Token} {t : Token}
    {r : Reader} (h : ModeRead (.params goal frames items start names) ts)
    (hfeed : feed? ⟨complete, .params goal frames items start names⟩ t = some r) :
    ∃ mode, r = ⟨complete, mode⟩ ∧ ModeRead mode (ts ++ [t]) := by
  obtain ⟨us, vs, sign, rfl, hread, hparams, rfl⟩ := h
  obtain ⟨lexeme, place⟩ := t
  cases lexeme with
  | name x =>
    cases hfeed
    refine ⟨_, rfl, us, _, sign, rfl, hread, hparams.snoc place x, ?_⟩
    rw [List.append_assoc, List.cons_append]
  | dot =>
    rcases hparams with ⟨rfl, rfl⟩ | ⟨ps, rfl, rfl⟩
    · cases hfeed
    have hnames : ps.names.reverse ≠ [] := mt List.reverse_eq_nil_iff.mp ps.names_ne_nil
    obtain ⟨y, ys, hys⟩ := List.exists_cons_of_ne_nil hnames
    refine ⟨.term goal (.lambda items sign.start ps.names.reverse :: frames) [], ?_,
      hread.lambda sign ps place⟩
    rw [hys] at hfeed ⊢
    cases hfeed
    rfl
  | _ => cases hfeed

/-- A token that is taken goes on with the derivation. -/
theorem Read.feed {r r' : Reader} {ts : List Token} {t : Token} (h : r.Read ts)
    (hfeed : r.feed? t = some r') : r'.Read (ts ++ [t]) := by
  obtain ⟨complete, mode⟩ := r
  obtain ⟨before, current, hcomplete, hmode, rfl⟩ := h
  -- every token but the one that ends a statement leaves the complete statements alone
  have hwithin {mode' : Mode} (hmode' : ModeRead mode' (current ++ [t])) :
      Read ⟨complete, mode'⟩ (before ++ current ++ [t]) :=
    ⟨before, current ++ [t], hcomplete, hmode', List.append_assoc ..⟩
  have hterm {goal : Goal} {frames : List Frame} {items : List Expr}
      (hread : TermRead goal frames items current)
      (hmap : (feedTerm? goal frames items t).map (Reader.mk complete ·) = some r') :
      r'.Read (before ++ current ++ [t]) := by
    obtain ⟨mode', hmode', rfl⟩ := Option.map_eq_some_iff.mp hmap
    exact hwithin (hread.feed hmode')
  obtain ⟨lexeme, place⟩ := t
  cases mode with
  | statement =>
    cases hmode
    have hbegin : TermRead .expression [] [] [] := ⟨[], [], [], rfl, .nil, .inl ⟨rfl, rfl⟩, rfl⟩
    cases lexeme with
    | letWord =>
      cases hfeed
      exact hwithin ⟨place, rfl, rfl⟩
    | _ => exact hterm hbegin hfeed
  | binder start =>
    obtain ⟨word, rfl, rfl⟩ := hmode
    cases lexeme with
    | name x =>
      cases hfeed
      exact hwithin ⟨word, place, rfl, rfl⟩
    | _ => cases hfeed
  | equals start x =>
    obtain ⟨word, p, rfl, rfl⟩ := hmode
    cases lexeme with
    | equals =>
      cases hfeed
      exact hwithin ⟨_, [], [], ⟨word, p, place, rfl, rfl⟩, .nil, .inl ⟨rfl, rfl⟩, rfl⟩
    | _ => cases hfeed
  | term goal frames items =>
    cases lexeme with
    | semicolon =>
      obtain ⟨s, hs, rfl⟩ := Option.map_eq_some_iff.mp hfeed
      obtain ⟨c, rfl, rfl⟩ := hmode.clause hs
      obtain ⟨cs, hstatements, htokens⟩ := hcomplete.snoc c
      refine ⟨_, [], .inr ⟨cs, place, ?_, rfl⟩, rfl, ?_⟩
      · rw [hstatements, List.reverse_reverse]
      · rw [htokens, List.append_nil]
    | _ => exact hterm hmode hfeed
  | params goal frames items start names =>
    obtain ⟨mode', rfl, hmode'⟩ := hmode.feed_params hfeed
    exact hwithin hmode'

/-! ## The whole text -/

/-- A program that comes out has a derivation from the tokens taken. -/
theorem Read.finish {r : Reader} {ts : List Token} {p : Program} (h : r.Read ts)
    (hp : r.finish? = some p) : ∃ d : Grammar.Document, d.tokens = ts ∧ d.program = p := by
  obtain ⟨complete, mode⟩ := r
  obtain ⟨before, current, hcomplete, hmode, rfl⟩ := h
  cases mode with
  | statement =>
    cases hmode
    rcases hcomplete with ⟨rfl, rfl⟩ | ⟨cs, semicolon, rfl, rfl⟩
    · cases hp
    refine ⟨.trailing cs semicolon, (List.append_nil _).symm, ?_⟩
    unfold finish? at hp
    split at hp
    · cases hp
      rw [List.reverse_reverse]
      rfl
    · contradiction
    · cases hp
  | term goal frames items =>
    obtain ⟨s, hs, rfl⟩ := Option.map_eq_some_iff.mp hp
    obtain ⟨c, rfl, rfl⟩ := hmode.clause hs
    obtain ⟨cs, hstatements, htokens⟩ := hcomplete.snoc c
    exact ⟨.plain cs, htokens, congrArg Program.mk hstatements⟩
  | binder | equals | params => cases hp

theorem Read.feedAll {r r' : Reader} {ts us : List Token} (h : r.Read ts)
    (hfeed : r.feedAll? us = some r') : r'.Read (ts ++ us) := by
  induction us generalizing r ts with
  | nil =>
    cases hfeed
    rw [List.append_nil]
    exact h
  | cons t us ih =>
    rw [feedAll?_cons] at hfeed
    obtain ⟨s, hs, hfeed⟩ := Option.bind_eq_some_iff.mp hfeed
    rw [← List.singleton_append, ← List.append_assoc]
    exact ih (h.feed hs) hfeed

/-- What is read as a program are the tokens of a derivation of it. -/
theorem exists_document_of_run {source : String} {ts : List Token} {p : Program}
    (h : run source .start ts none = .ok p) :
    ∃ d : Grammar.Document, d.tokens = ts ∧ d.program = p := by
  obtain ⟨r, hr, hp⟩ := run_eq_ok_iff.mp h
  have hstart : Read .start [] := ⟨[], [], .inl ⟨rfl, rfl⟩, rfl, rfl⟩
  exact (hstart.feedAll hr).finish hp

/-- Where the text is at fault, no program comes out. -/
theorem run_fault (source : String) (r : Reader) (ts : List Token) (fault : Fault) (p : Program) :
    run source r ts (some fault) ≠ .ok p := by
  induction ts generalizing r with
  | nil =>
    intro h
    cases h
  | cons t ts ih =>
    rw [run]
    split
    · exact ih _
    · intro h
      cases h

end Reader

/-- A text that is read as a program is in order, and its tokens have a derivation. -/
theorem exists_document_of_parse {source : String} {p : Program}
    (h : Program.parse source = .ok p) :
    ∃ d : Grammar.Document, d.tokens = (lex source).tokens ∧ d.program = p := by
  have hrun : Reader.run source .start (lex source).tokens (lex source).fault? = .ok p := h
  cases hfault : (lex source).fault? with
  | none =>
    rw [hfault] at hrun
    exact Reader.exists_document_of_run hrun
  | some fault =>
    rw [hfault] at hrun
    exact (Reader.run_fault source .start _ fault p hrun).elim

end LambdaCalculus
