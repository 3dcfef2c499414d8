import LambdaCalculus.Program.Reader
import LambdaCalculus.Proofs.Program.Grammar
import Mathlib.Data.List.Basic

/-!
# The reader and the grammar

The reader takes the tokens of a derivation one by one and comes out with its tree.

* `feedAll?_phrase` — after the tokens of a term, what is open closes to the term.
* `run_tokens` — the tokens of a derivation are read as its program.
-/

namespace LambdaCalculus

/-! ## Building nodes -/

theorem Expr.ofItems?_reverse {es : List Expr} (h : es ≠ []) :
    Expr.ofItems? es.reverse = some (Expr.chain es) := by
  obtain ⟨last, init, hlast⟩ := List.exists_cons_of_ne_nil (mt List.reverse_eq_nil_iff.mp h)
  obtain ⟨first, rest, rfl⟩ := List.exists_cons_of_ne_nil h
  have hgetLast : (first :: rest).getLastD default = last := by
    rw [List.getLastD_eq_getLast?, List.getLast?_eq_head?_reverse, hlast]
    rfl
  rw [chain, hgetLast]
  unfold ofItems?
  rw [List.reverse_reverse, hlast]
  rfl

theorem Expr.closeLambda_nil (start : Int) (params : List String) (body : Expr) :
    Expr.closeLambda [] start params.reverse body = .lam ⟨start, body.span.stop⟩ params body := by
  rw [closeLambda, List.reverse_reverse]

theorem Expr.closeLambda_reverse {es : List Expr} (h : es ≠ []) (start : Int)
    (params : List String) (body : Expr) :
    Expr.closeLambda es.reverse start params.reverse body =
      Expr.chain (es ++ [.lam ⟨start, body.span.stop⟩ params body]) := by
  have hitems := ofItems?_reverse
    (List.append_ne_nil_of_right_ne_nil es (List.cons_ne_nil (.lam ⟨start, body.span.stop⟩ params body) []))
  rw [List.reverse_append] at hitems
  rw [closeLambda, List.reverse_reverse]
  · exact congrArg (Option.getD · _) hitems
  · exact mt List.reverse_eq_nil_iff.mp h

namespace Reader

/-- The reader after some more tokens, if they can all come next. -/
def feedAll? (r : Reader) (ts : List Token) : Option Reader := ts.foldlM feed? r

@[simp] theorem feedAll?_nil (r : Reader) : r.feedAll? [] = some r := rfl

@[simp] theorem feedAll?_append (r : Reader) (ts us : List Token) :
    r.feedAll? (ts ++ us) = (r.feedAll? ts).bind (feedAll? · us) :=
  List.foldlM_append

@[simp] theorem feedAll?_cons (r : Reader) (t : Token) (ts : List Token) :
    r.feedAll? (t :: ts) = (r.feed? t).bind (feedAll? · ts) :=
  List.foldlM_cons

theorem run_append (source : String) {r r' : Reader} {ts : List Token} (h : r.feedAll? ts = some r')
    (rest : List Token) (fault? : Option Fault) :
    run source r (ts ++ rest) fault? = run source r' rest fault? := by
  induction ts generalizing r with
  | nil =>
    cases h
    rfl
  | cons t ts ih =>
    rw [feedAll?_cons] at h
    obtain ⟨s, hs, h⟩ := Option.bind_eq_some_iff.mp h
    rw [List.cons_append, run, hs]
    exact ih h

/-! ## Reading a derivation -/

theorem feedAll?_params (ps : Grammar.Params) (complete : List Statement) (goal : Goal)
    (frames : List Frame) (items : List Expr) (start : Int) (names : List String) :
    feedAll? ⟨complete, .params goal frames items start names⟩ ps.tokens =
      some ⟨complete, .params goal frames items start (ps.names.reverse ++ names)⟩ := by
  induction ps generalizing names with
  | one p x => rfl
  | snoc before p x ih =>
    have hlast (names : List String) :
        feed? ⟨complete, .params goal frames items start names⟩ ⟨.name x, p⟩ =
          some ⟨complete, .params goal frames items start (x :: names)⟩ := rfl
    simp [Grammar.Params.tokens, Grammar.Params.names, ih, hlast]

/-- The reader stands at the end of a term: what is open inside the frames closes to `e`. -/
def EndsAt (r : Reader) (complete : List Statement) (goal : Goal) (frames : List Frame)
    (e : Expr) : Prop :=
  ∃ inner items e', r = ⟨complete, .term goal inner items⟩ ∧ Expr.ofItems? items = some e' ∧
    settle inner e' = settle frames e

/-- The parameters of an abstraction and the sign after them open its body. -/
theorem feedAll?_lambda (complete : List Statement) (goal : Goal) (frames : List Frame)
    (items : List Expr) (sign : Span) (ps : Grammar.Params) (dot : Span) (rest : List Token) :
    feedAll? ⟨complete, .term goal frames items⟩
        (⟨.lambda, sign⟩ :: ps.tokens ++ ⟨.dot, dot⟩ :: rest) =
      feedAll? ⟨complete, .term goal (.lambda items sign.start ps.names.reverse :: frames) []⟩
        rest := by
  have hsign : feed? ⟨complete, .term goal frames items⟩ ⟨.lambda, sign⟩ =
      some ⟨complete, .params goal frames items sign.start []⟩ := rfl
  have hdot (names : List String) (hnames : names ≠ []) :
      feed? ⟨complete, .params goal frames items sign.start names⟩ ⟨.dot, dot⟩ =
        some ⟨complete, .term goal (.lambda items sign.start names :: frames) []⟩ := by
    obtain ⟨x, xs, rfl⟩ := List.exists_cons_of_ne_nil hnames
    rfl
  have hnames : ps.names.reverse ≠ [] := mt List.reverse_eq_nil_iff.mp ps.names_ne_nil
  simp [hsign, feedAll?_params, hdot _ hnames]

/-- The sign after a term in parentheses closes them. -/
theorem EndsAt.feed?_rparen {r : Reader} {complete : List Statement} {goal : Goal}
    {frames : List Frame} {before : List Expr} {e : Expr}
    (h : r.EndsAt complete goal (.paren before :: frames) e) (place : Span) :
    r.feed? ⟨.rparen, place⟩ = some ⟨complete, .term goal frames (e :: before)⟩ := by
  obtain ⟨inner, items, e', rfl, he, hsettle⟩ := h
  simp only [feed?, feedTerm?, he, Option.bind_eq_bind, Option.bind_some, hsettle]
  rfl

mutual

theorem feedAll?_atom (complete : List Statement) (goal : Goal) :
    ∀ (a : Grammar.Atom) (frames : List Frame) (items : List Expr),
      feedAll? ⟨complete, .term goal frames items⟩ a.tokens =
        some ⟨complete, .term goal frames (a.expr :: items)⟩
  | .name p x, _, _ => rfl
  | .number p n, _, _ => rfl
  | .character p c, _, _ => rfl
  | .paren opening body closing, frames, items => by
    obtain ⟨r, hr, hends⟩ := feedAll?_phrase complete goal body (.paren items :: frames)
    have hopening : feed? ⟨complete, .term goal frames items⟩ ⟨.lparen, opening⟩ =
        some ⟨complete, .term goal (.paren items :: frames) []⟩ := rfl
    simp [Grammar.Atom.tokens, Grammar.Atom.expr, hopening, hr, hends.feed?_rparen closing]

theorem feedAll?_chain (complete : List Statement) (goal : Goal) :
    ∀ (c : Grammar.Chain) (frames : List Frame) (items : List Expr),
      feedAll? ⟨complete, .term goal frames items⟩ c.tokens =
        some ⟨complete, .term goal frames (c.exprs.reverse ++ items)⟩
  | .one a, frames, items => feedAll?_atom complete goal a frames items
  | .snoc before a, frames, items => by
    simp [Grammar.Chain.tokens, Grammar.Chain.exprs, feedAll?_chain complete goal before,
      feedAll?_atom complete goal a]

theorem feedAll?_phrase (complete : List Statement) (goal : Goal) :
    ∀ (t : Grammar.Phrase) (frames : List Frame),
      ∃ r, feedAll? ⟨complete, .term goal frames []⟩ t.tokens = some r ∧
        r.EndsAt complete goal frames t.expr
  | .chain c, frames => by
    refine ⟨_, feedAll?_chain complete goal c frames [], frames, _, _, rfl, ?_, rfl⟩
    rw [List.append_nil]
    exact Expr.ofItems?_reverse c.exprs_ne_nil
  | .lambda sign ps dot body, frames => by
    obtain ⟨r, hr, inner, items, e, hmode, he, hsettle⟩ :=
      feedAll?_phrase complete goal body (.lambda [] sign.start ps.names.reverse :: frames)
    refine ⟨r, ?_, inner, items, e, hmode, he, ?_⟩
    · rw [Grammar.Phrase.tokens, feedAll?_lambda, hr]
    · rw [hsettle, settle, Expr.closeLambda_nil]
      rfl
  | .chainLambda c sign ps dot body, frames => by
    obtain ⟨r, hr, inner, items, e, hmode, he, hsettle⟩ :=
      feedAll?_phrase complete goal body (.lambda c.exprs.reverse sign.start ps.names.reverse :: frames)
    refine ⟨r, ?_, inner, items, e, hmode, he, ?_⟩
    · rw [Grammar.Phrase.tokens, List.append_assoc, feedAll?_append, feedAll?_chain complete goal c,
        Option.bind_some, List.append_nil, feedAll?_lambda, hr]
    · rw [hsettle, settle, Expr.closeLambda_reverse c.exprs_ne_nil]
      rfl

end

/-! ## Reading statements -/

mutual

/-- A term begins with a token that begins no other statement and ends none. -/
theorem atom_opens : ∀ a : Grammar.Atom, ∃ t ts, a.tokens = t :: ts ∧
    t.lexeme ≠ .letWord ∧ t.lexeme ≠ .semicolon
  | .name _ _ => ⟨_, _, rfl, Lexeme.noConfusion, Lexeme.noConfusion⟩
  | .number _ _ => ⟨_, _, rfl, Lexeme.noConfusion, Lexeme.noConfusion⟩
  | .character _ _ => ⟨_, _, rfl, Lexeme.noConfusion, Lexeme.noConfusion⟩
  | .paren _ _ _ => ⟨_, _, rfl, Lexeme.noConfusion, Lexeme.noConfusion⟩

theorem chain_opens : ∀ c : Grammar.Chain, ∃ t ts, c.tokens = t :: ts ∧
    t.lexeme ≠ .letWord ∧ t.lexeme ≠ .semicolon
  | .one a => atom_opens a
  | .snoc before a => by
    obtain ⟨t, ts, hts, hopens⟩ := chain_opens before
    exact ⟨t, ts ++ a.tokens, by rw [Grammar.Chain.tokens, hts, List.cons_append], hopens⟩

theorem phrase_opens : ∀ t : Grammar.Phrase, ∃ u us, t.tokens = u :: us ∧
    u.lexeme ≠ .letWord ∧ u.lexeme ≠ .semicolon
  | .chain c => chain_opens c
  | .lambda _ _ _ _ => ⟨_, _, rfl, Lexeme.noConfusion, Lexeme.noConfusion⟩
  | .chainLambda c sign ps dot body => by
    obtain ⟨t, ts, hts, hopens⟩ := chain_opens c
    exact ⟨t, _, by rw [Grammar.Phrase.tokens, hts]; rfl, hopens⟩

end

/-- The reader stands at the end of a statement. -/
def EndsStatement (r : Reader) (complete : List Statement) (s : Statement) : Prop :=
  ∃ goal inner items, r = ⟨complete, .term goal inner items⟩ ∧
    statement? goal inner items = some s

theorem EndsAt.statement {r : Reader} {complete : List Statement} {goal : Goal} {e : Expr}
    (h : r.EndsAt complete goal [] e) : r.EndsStatement complete (Goal.statement goal e) := by
  obtain ⟨inner, items, e', rfl, he, hsettle⟩ := h
  refine ⟨goal, inner, items, rfl, ?_⟩
  simp only [statement?, he, Option.bind_eq_bind, Option.bind_some, hsettle]
  rfl

theorem feedAll?_clause (complete : List Statement) (c : Grammar.Clause) :
    ∃ r, feedAll? ⟨complete, .statement⟩ c.tokens = some r ∧
      r.EndsStatement complete c.statement := by
  cases c with
  | binding word place x sign value =>
    obtain ⟨r, hr, hends⟩ := feedAll?_phrase complete (.binding word.start x) value []
    exact ⟨r, hr, hends.statement⟩
  | expression body =>
    obtain ⟨r, hr, hends⟩ := feedAll?_phrase complete .expression body []
    refine ⟨r, ?_, hends.statement⟩
    obtain ⟨t, ts, hts, hword, hsemicolon⟩ := phrase_opens body
    have hfirst : feed? ⟨complete, .statement⟩ t = feed? ⟨complete, .term .expression [] []⟩ t := by
      obtain ⟨lexeme, place⟩ := t
      cases lexeme <;> first | rfl | contradiction
    rw [hts, feedAll?_cons] at hr
    rw [Grammar.Clause.tokens, hts, feedAll?_cons, hfirst, hr]

theorem feed?_semicolon {r : Reader} {complete : List Statement} {s : Statement}
    (h : r.EndsStatement complete s) (place : Span) :
    r.feed? ⟨.semicolon, place⟩ = some ⟨s :: complete, .statement⟩ := by
  obtain ⟨goal, inner, items, rfl, hs⟩ := h
  simp only [feed?, hs]
  rfl

theorem finish?_of_endsStatement {r : Reader} {complete : List Statement} {s : Statement}
    (h : r.EndsStatement complete s) : r.finish? = some ⟨(s :: complete).reverse⟩ := by
  obtain ⟨goal, inner, items, rfl, hs⟩ := h
  rw [finish?]
  simp only [hs, Option.map_some]

theorem feedAll?_clauses (cs : Grammar.Clauses) :
    ∃ r complete s, feedAll? .start cs.tokens = some r ∧ r.EndsStatement complete s ∧
      (s :: complete).reverse = cs.statements := by
  induction cs with
  | one c =>
    obtain ⟨r, hr, hends⟩ := feedAll?_clause [] c
    exact ⟨r, [], c.statement, hr, hends, rfl⟩
  | snoc before semicolon c ih =>
    obtain ⟨r, complete, s, hr, hends, hstatements⟩ := ih
    obtain ⟨r', hr', hends'⟩ := feedAll?_clause (s :: complete) c
    refine ⟨r', s :: complete, c.statement, ?_, hends', ?_⟩
    · simp [Grammar.Clauses.tokens, hr, feed?_semicolon hends, hr']
    · rw [List.reverse_cons, hstatements, Grammar.Clauses.statements]

/-- A program comes out if all tokens can come next and the program can end after them. -/
theorem run_eq_ok_iff {source : String} {r : Reader} {ts : List Token} {p : Program} :
    run source r ts none = .ok p ↔ ∃ r', r.feedAll? ts = some r' ∧ r'.finish? = some p := by
  constructor
  · intro h
    induction ts generalizing r with
    | nil =>
      rw [run] at h
      split at h
      · rename_i hp
        cases h
        exact ⟨r, rfl, hp⟩
      · cases h
    | cons t ts ih =>
      rw [run] at h
      split at h
      · rename_i s hs
        obtain ⟨r', hr', hp⟩ := ih h
        exact ⟨r', by rw [feedAll?_cons, hs, Option.bind_some, hr'], hp⟩
      · cases h
  · rintro ⟨r', hr', hp⟩
    rw [← List.append_nil ts, run_append source hr', run, hp]
    rfl

/-- The tokens of a derivation are read as its program. -/
theorem run_tokens (source : String) (d : Grammar.Document) :
    run source .start d.tokens none = .ok d.program := by
  rw [run_eq_ok_iff]
  cases d with
  | plain cs =>
    obtain ⟨r, complete, s, hr, hends, hstatements⟩ := feedAll?_clauses cs
    refine ⟨r, hr, ?_⟩
    rw [finish?_of_endsStatement hends, hstatements]
    rfl
  | trailing cs semicolon =>
    obtain ⟨r, complete, s, hr, hends, hstatements⟩ := feedAll?_clauses cs
    refine ⟨⟨s :: complete, .statement⟩, ?_, ?_⟩
    · simp [Grammar.Document.tokens, hr, feed?_semicolon hends]
    · exact congrArg (fun statements => some (Program.mk statements)) hstatements

end Reader

end LambdaCalculus
