import LambdaCalculus.Proofs.Program.Recognition

/-!
# Programs that stand elsewhere

The reader makes no other use of places than to put them together: the place of a node begins where
some token begins and ends where some token ends.  So where all beginnings are moved by one
function and all ends by another, and neither changes their order, the same tree is read with its
places moved in the same way.

* `Span.relocate`, `Token.relocate`, `Program.relocate` — beginnings and ends that are moved.
* `Grammar.Document.relocate` — a derivation whose tokens are moved.
* `Reader.run_relocate` — what is read from tokens that are moved.
-/

namespace LambdaCalculus

/-! ## Moving places -/

/-- What stood before something is not moved behind it. -/
def KeepsOrder (f : Int → Int) : Prop := ∀ i j, i ≤ j → f i ≤ f j

theorem KeepsOrder.map_min {f : Int → Int} (hf : KeepsOrder f) (i j : Int) :
    f (min i j) = min (f i) (f j) := by
  rcases Int.le_total i j with h | h
  · rw [Int.min_eq_left h, Int.min_eq_left (hf i j h)]
  · rw [Int.min_eq_right h, Int.min_eq_right (hf j i h)]

theorem KeepsOrder.map_max {f : Int → Int} (hf : KeepsOrder f) (i j : Int) :
    f (max i j) = max (f i) (f j) := by
  rcases Int.le_total i j with h | h
  · rw [Int.max_eq_right h, Int.max_eq_right (hf i j h)]
  · rw [Int.max_eq_left h, Int.max_eq_left (hf j i h)]

section
variable (f g : Int → Int)

/-- The place with its beginning moved by `f` and its end by `g`. -/
def Span.relocate (p : Span) : Span := ⟨f p.start, g p.stop⟩

/-- The token with its place moved. -/
def Token.relocate (t : Token) : Token := ⟨t.lexeme, t.span.relocate f g⟩

mutual

/-- The expression with all places in it moved. -/
def Expr.relocate : Expr → Expr
  | .var p x => .var (p.relocate f g) x
  | .number p n => .number (p.relocate f g) n
  | .character p text => .character (p.relocate f g) text
  | .lam p params body => .lam (p.relocate f g) params body.relocate
  | .app p items => .app (p.relocate f g) (relocateAll items)

/-- The expressions with all places in them moved. -/
def Expr.relocateAll : List Expr → List Expr
  | [] => []
  | e :: es => e.relocate :: relocateAll es

end

/-- The statement with all places in it moved. -/
def Statement.relocate : Statement → Statement
  | .binding p x value => .binding (p.relocate f g) x (value.relocate f g)
  | .expression p body => .expression (p.relocate f g) (body.relocate f g)

/-- The program with all places in it moved. -/
def Program.relocate (p : Program) : Program := ⟨p.statements.map (Statement.relocate f g)⟩

end

section
variable {f g : Int → Int}

theorem Expr.span_relocate (e : Expr) : (e.relocate f g).span = e.span.relocate f g := by
  cases e <;> rfl

theorem Expr.relocateAll_eq_map (es : List Expr) :
    Expr.relocateAll f g es = es.map (Expr.relocate f g) := by
  induction es with
  | nil => rfl
  | cons e es ih => rw [relocateAll, ih, List.map_cons]

variable (hf : KeepsOrder f) (hg : KeepsOrder g)
include hf hg

theorem Span.relocate_join (p q : Span) :
    (p.join q).relocate f g = (p.relocate f g).join (q.relocate f g) := by
  rw [Span.join, Span.join, Span.relocate, hf.map_min, hg.map_max]
  rfl

/-- An application over all its items' places is one over all the places they have moved to. -/
theorem Expr.relocate_chain {es : List Expr} (hne : es ≠ []) :
    (Expr.chain es).relocate f g = Expr.chain (es.map (Expr.relocate f g)) := by
  obtain ⟨e, es, rfl⟩ := List.exists_cons_of_ne_nil hne
  have hlast : ((e :: es).map (Expr.relocate f g)).getLastD default =
      ((e :: es).getLastD default).relocate f g := by
    rw [List.getLastD_eq_getLast?, List.getLastD_eq_getLast?, List.getLast?_map,
      List.getLast?_eq_some_getLast (List.cons_ne_nil e es)]
    rfl
  rw [Expr.chain, Expr.chain, hlast, Expr.relocate, Span.relocate_join hf hg, relocateAll_eq_map,
    span_relocate, List.map_cons, List.headD_cons, List.headD_cons, span_relocate]

end

/-! ## Moving derivations -/

namespace Grammar

section
variable (f g : Int → Int)

/-- The derivation with the places of its tokens moved. -/
def Params.relocate : Params → Params
  | .one p x => .one (p.relocate f g) x
  | .snoc before p x => .snoc before.relocate (p.relocate f g) x

mutual

/-- The derivation with the places of its tokens moved. -/
def Atom.relocate : Atom → Atom
  | .name p x => .name (p.relocate f g) x
  | .number p n => .number (p.relocate f g) n
  | .character p c => .character (p.relocate f g) c
  | .paren opening body closing =>
    .paren (opening.relocate f g) body.relocate (closing.relocate f g)

/-- The derivation with the places of its tokens moved. -/
def Chain.relocate : Chain → Chain
  | .one a => .one a.relocate
  | .snoc before a => .snoc before.relocate a.relocate

/-- The derivation with the places of its tokens moved. -/
def Phrase.relocate : Phrase → Phrase
  | .chain items => .chain items.relocate
  | .lambda sign params dot body =>
    .lambda (sign.relocate f g) (params.relocate f g) (dot.relocate f g) body.relocate
  | .chainLambda items sign params dot body =>
    .chainLambda items.relocate (sign.relocate f g) (params.relocate f g) (dot.relocate f g)
      body.relocate

end

/-- The derivation with the places of its tokens moved. -/
def Clause.relocate : Clause → Clause
  | .binding word p x sign value =>
    .binding (word.relocate f g) (p.relocate f g) x (sign.relocate f g) (value.relocate f g)
  | .expression body => .expression (body.relocate f g)

/-- The derivation with the places of its tokens moved. -/
def Clauses.relocate : Clauses → Clauses
  | .one c => .one (c.relocate f g)
  | .snoc before semicolon c =>
    .snoc before.relocate (semicolon.relocate f g) (c.relocate f g)

/-- The derivation with the places of its tokens moved. -/
def Document.relocate : Document → Document
  | .plain clauses => .plain (clauses.relocate f g)
  | .trailing clauses semicolon => .trailing (clauses.relocate f g) (semicolon.relocate f g)

/-! ### Their tokens -/

theorem Params.tokens_relocate (ps : Params) :
    (ps.relocate f g).tokens = ps.tokens.map (Token.relocate f g) := by
  induction ps with
  | one p x => rfl
  | snoc before p x ih =>
    rw [relocate, tokens, tokens, ih, List.map_append]
    rfl

mutual

theorem Atom.tokens_relocate : ∀ a : Atom,
    (a.relocate f g).tokens = a.tokens.map (Token.relocate f g)
  | .name _ _ => rfl
  | .number _ _ => rfl
  | .character _ _ => rfl
  | .paren _ body _ => by
    rw [Atom.relocate, Atom.tokens, Atom.tokens, body.tokens_relocate, List.map_append,
      List.map_cons]
    rfl

theorem Chain.tokens_relocate : ∀ c : Chain,
    (c.relocate f g).tokens = c.tokens.map (Token.relocate f g)
  | .one a => a.tokens_relocate
  | .snoc before a => by
    rw [Chain.relocate, Chain.tokens, Chain.tokens, before.tokens_relocate, a.tokens_relocate,
      List.map_append]

theorem Phrase.tokens_relocate : ∀ t : Phrase,
    (t.relocate f g).tokens = t.tokens.map (Token.relocate f g)
  | .chain c => c.tokens_relocate
  | .lambda _ ps _ body => by
    rw [Phrase.relocate, Phrase.tokens, Phrase.tokens, ps.tokens_relocate, body.tokens_relocate,
      List.map_append, List.map_cons, List.map_cons]
    rfl
  | .chainLambda c _ ps _ body => by
    rw [Phrase.relocate, Phrase.tokens, Phrase.tokens, c.tokens_relocate, ps.tokens_relocate,
      body.tokens_relocate, List.map_append, List.map_append, List.map_cons, List.map_cons]
    rfl

end

theorem Clause.tokens_relocate (c : Clause) :
    (c.relocate f g).tokens = c.tokens.map (Token.relocate f g) := by
  cases c with
  | binding word p x sign value =>
    rw [relocate, tokens, tokens, value.tokens_relocate]
    rfl
  | expression body => exact body.tokens_relocate f g

theorem Clauses.tokens_relocate (cs : Clauses) :
    (cs.relocate f g).tokens = cs.tokens.map (Token.relocate f g) := by
  induction cs with
  | one c => exact c.tokens_relocate f g
  | snoc before semicolon c ih =>
    rw [relocate, tokens, tokens, ih, c.tokens_relocate, List.map_append, List.map_cons]
    rfl

theorem Document.tokens_relocate (d : Document) :
    (d.relocate f g).tokens = d.tokens.map (Token.relocate f g) := by
  cases d with
  | plain cs => exact cs.tokens_relocate f g
  | trailing cs semicolon =>
    rw [relocate, tokens, tokens, cs.tokens_relocate, List.map_append]
    rfl

theorem Params.names_relocate (ps : Params) : (ps.relocate f g).names = ps.names := by
  induction ps with
  | one p x => rfl
  | snoc before p x ih => rw [relocate, names, names, ih]

end

/-! ### Their trees -/

section
variable {f g : Int → Int}

mutual

theorem Atom.expr_relocate (hf : KeepsOrder f) (hg : KeepsOrder g) : ∀ a : Atom,
    (a.relocate f g).expr = a.expr.relocate f g
  | .name _ _ => rfl
  | .number _ _ => rfl
  | .character _ _ => rfl
  | .paren _ body _ => body.expr_relocate hf hg

theorem Chain.exprs_relocate (hf : KeepsOrder f) (hg : KeepsOrder g) : ∀ c : Chain,
    (c.relocate f g).exprs = c.exprs.map (Expr.relocate f g)
  | .one a => by
    rw [Chain.relocate, Chain.exprs, Chain.exprs, a.expr_relocate hf hg]
    rfl
  | .snoc before a => by
    rw [Chain.relocate, Chain.exprs, Chain.exprs, before.exprs_relocate hf hg,
      a.expr_relocate hf hg, List.map_append]
    rfl

theorem Phrase.expr_relocate (hf : KeepsOrder f) (hg : KeepsOrder g) : ∀ t : Phrase,
    (t.relocate f g).expr = t.expr.relocate f g
  | .chain c => by
    rw [Phrase.relocate, Phrase.expr, Phrase.expr, c.exprs_relocate hf hg,
      Expr.relocate_chain hf hg c.exprs_ne_nil]
  | .lambda _ ps _ body => by
    rw [Phrase.relocate, Phrase.expr, Phrase.expr, body.expr_relocate hf hg, ps.names_relocate,
      Expr.span_relocate]
    rfl
  | .chainLambda c _ ps _ body => by
    rw [Phrase.relocate, Phrase.expr, Phrase.expr, c.exprs_relocate hf hg,
      body.expr_relocate hf hg, ps.names_relocate, Expr.span_relocate, Expr.relocate_chain hf hg
        (List.append_ne_nil_of_left_ne_nil c.exprs_ne_nil _), List.map_append]
    rfl

end

variable (hf : KeepsOrder f) (hg : KeepsOrder g)
include hf hg

theorem Clause.statement_relocate (c : Clause) :
    (c.relocate f g).statement = c.statement.relocate f g := by
  cases c with
  | binding word p x sign value =>
    rw [relocate, statement, statement, value.expr_relocate hf hg, Expr.span_relocate]
    rfl
  | expression body =>
    rw [relocate, statement, statement, body.expr_relocate hf hg, Expr.span_relocate]
    rfl

theorem Clauses.statements_relocate (cs : Clauses) :
    (cs.relocate f g).statements = cs.statements.map (Statement.relocate f g) := by
  induction cs with
  | one c =>
    rw [relocate, statements, statements, c.statement_relocate hf hg]
    rfl
  | snoc before semicolon c ih =>
    rw [relocate, statements, statements, ih, c.statement_relocate hf hg, List.map_append]
    rfl

theorem Document.program_relocate (d : Document) :
    (d.relocate f g).program = d.program.relocate f g := by
  cases d with
  | plain cs => exact congrArg Program.mk (cs.statements_relocate hf hg)
  | trailing cs semicolon => exact congrArg Program.mk (cs.statements_relocate hf hg)

end

end Grammar

/-- From tokens that have moved, in order, the same program is read, and its places have moved. -/
theorem Reader.run_relocate {f g : Int → Int} (hf : KeepsOrder f) (hg : KeepsOrder g)
    {source : String} {ts : List Token} {p : Program} (h : run source .start ts none = .ok p)
    (source' : String) :
    run source' .start (ts.map (Token.relocate f g)) none = .ok (p.relocate f g) := by
  obtain ⟨d, rfl, rfl⟩ := exists_document_of_run h
  rw [← d.tokens_relocate f g, ← d.program_relocate hf hg]
  exact run_tokens source' (d.relocate f g)

end LambdaCalculus
