import LambdaCalculus.Proofs.Program.Covering

/-!
# Places in the tree of a program

Every node of a tree that was read from a text knows its place.  The place is put together from those
of tokens and of parts by other rules in each construct, and parentheses drop out of it on the way.
What comes of it is simple: a node goes from the first token of its text that is no opening
parenthesis to the last one that is no closing parenthesis.

* `Program.nodes` — the nodes of a tree; `Grammar.Document.pieces` — the same nodes, each with the
  tokens of its text.
* `Node.Placed` — what follows for a node: its place lies in the text and is not empty, its parts lie
  inside it, one after the other, and names and literals stand where they are said to stand.
* `places_of_parse` — so it is with every node of a program that was read.
-/

namespace LambdaCalculus

/-! ## Nodes -/

/-- A node of the tree of a program. -/
inductive Node where
  | statement (s : Statement)
  | expr (e : Expr)

namespace Node

/-- The place of the node. -/
def span : Node → Span
  | .statement s => s.span
  | .expr e => e.span

/-- The nodes right below it, in the order of the text. -/
def children : Node → List Expr
  | .statement s => [s.expr]
  | .expr (.lam _ _ body) => [body]
  | .expr (.app _ items) => items
  | .expr _ => []

/-- What stands at the place of a name or a literal is a way to write it. -/
def Shown (text : List Char) : Node → Prop
  | .expr (.var p x) => Lexeme.Written (.name x) (p.extract text)
  | .expr (.number p v) => ∃ n : Nat, v = n ∧ Lexeme.Written (.number n) (p.extract text)
  | .expr (.character p u) =>
    ∃ c, u = String.singleton c ∧ Lexeme.Written (.character c) (p.extract text)
  | _ => True

/-- The node has its place in the text. -/
structure Placed (text : List Char) (n : Node) : Prop where
  /-- The place does not begin before the text. -/
  start_nonneg : 0 ≤ n.span.start
  /-- It is not empty. -/
  nonempty : n.span.start < n.span.stop
  /-- It does not end after the text. -/
  within : n.span.stop ≤ text.length
  /-- The nodes right below stand inside it. -/
  inside : ∀ e ∈ n.children, n.span.start ≤ e.span.start ∧ e.span.stop ≤ n.span.stop
  /-- They stand one after the other. -/
  apart : n.children.Pairwise fun e e' => e.span.stop ≤ e'.span.start
  /-- A name or a literal stands where it is said to stand. -/
  shown : n.Shown text

end Node

mutual

/-- The expression and all those below it. -/
def Expr.nodes : Expr → List Node
  | .var p x => [.expr (.var p x)]
  | .number p n => [.expr (.number p n)]
  | .character p text => [.expr (.character p text)]
  | .lam p params body => .expr (.lam p params body) :: body.nodes
  | .app p items => .expr (.app p items) :: nodesOf items

/-- The expressions and all those below them. -/
def Expr.nodesOf : List Expr → List Node
  | [] => []
  | e :: es => e.nodes ++ nodesOf es

end

/-- The nodes of the tree of a program. -/
def Program.nodes (p : Program) : List Node :=
  p.statements.flatMap fun s => .statement s :: s.expr.nodes

theorem Expr.nodesOf_append (es es' : List Expr) :
    nodesOf (es ++ es') = nodesOf es ++ nodesOf es' := by
  induction es with
  | nil => rfl
  | cons e es ih => rw [List.cons_append, nodesOf, nodesOf, ih, List.append_assoc]

/-! ## Nodes with their texts -/

namespace Grammar

/-- The expression of a term, with the tokens of the term. -/
def Phrase.piece (u : Phrase) : Node × List Token := (.expr u.expr, u.tokens)

mutual

/-- The nodes of an atom, each with the tokens of its text. -/
def Atom.pieces : Atom → List (Node × List Token)
  | .name p x => [(.expr (.var p x), [⟨.name x, p⟩])]
  | .number p n => [(.expr (.number p n), [⟨.number n, p⟩])]
  | .character p c => [(.expr (.character p (String.singleton c)), [⟨.character c, p⟩])]
  | .paren _ body _ => body.pieces

/-- The nodes of a chain, each with the tokens of its text. -/
def Chain.pieces : Chain → List (Node × List Token)
  | .one a => a.pieces
  | .snoc before a => before.pieces ++ a.pieces

/-- The nodes of a term, each with the tokens of its text. -/
def Phrase.pieces : Phrase → List (Node × List Token)
  | .chain items => (Phrase.chain items).piece :: items.pieces
  | .lambda sign params dot body => (Phrase.lambda sign params dot body).piece :: body.pieces
  | .chainLambda items sign params dot body =>
    (Phrase.chainLambda items sign params dot body).piece ::
      (items.pieces ++ (Phrase.lambda sign params dot body).piece :: body.pieces)

end

/-- The nodes of a statement, each with the tokens of its text. -/
def Clause.pieces (c : Clause) : List (Node × List Token) :=
  (.statement c.statement, c.tokens) ::
    match c with
    | .binding _ _ _ _ value => value.pieces
    | .expression body => body.pieces

/-- The nodes of statements, each with the tokens of its text. -/
def Clauses.pieces : Clauses → List (Node × List Token)
  | .one c => c.pieces
  | .snoc before _ c => before.pieces ++ c.pieces

/-- The nodes of a program, each with the tokens of its text. -/
def Document.pieces : Document → List (Node × List Token)
  | .plain clauses => clauses.pieces
  | .trailing clauses _ => clauses.pieces

mutual

theorem map_pieces_atom : ∀ a : Atom, a.pieces.map Prod.fst = a.expr.nodes
  | .name _ _ => rfl
  | .number _ _ => rfl
  | .character _ _ => rfl
  | .paren _ body _ => map_pieces_phrase body

theorem map_pieces_chain : ∀ c : Chain, c.pieces.map Prod.fst = Expr.nodesOf c.exprs
  | .one a => by
    rw [Chain.pieces, map_pieces_atom a, Chain.exprs, Expr.nodesOf, Expr.nodesOf, List.append_nil]
  | .snoc before a => by
    rw [Chain.pieces, List.map_append, map_pieces_chain before, map_pieces_atom a, Chain.exprs,
      Expr.nodesOf_append, Expr.nodesOf, Expr.nodesOf, List.append_nil]

theorem map_pieces_phrase : ∀ u : Phrase, u.pieces.map Prod.fst = u.expr.nodes
  | .chain items => by
    rw [Phrase.pieces, List.map_cons, map_pieces_chain items]
    rfl
  | .lambda _ _ _ body => by
    rw [Phrase.pieces, List.map_cons, map_pieces_phrase body]
    rfl
  | .chainLambda items sign params dot body => by
    have hitems := Expr.nodesOf_append items.exprs [(Phrase.lambda sign params dot body).expr]
    rw [Phrase.pieces, List.map_cons, List.map_append, List.map_cons, map_pieces_chain items,
      map_pieces_phrase body, ← List.append_nil body.expr.nodes]
    exact congrArg (_ :: ·) hitems.symm

end

theorem map_pieces_clause (c : Clause) :
    c.pieces.map Prod.fst = .statement c.statement :: c.statement.expr.nodes := by
  cases c with
  | binding word p x sign value => exact congrArg (_ :: ·) (map_pieces_phrase value)
  | expression body => exact congrArg (_ :: ·) (map_pieces_phrase body)

theorem map_pieces_clauses (cs : Clauses) :
    cs.pieces.map Prod.fst = (Program.mk cs.statements).nodes := by
  induction cs with
  | one c =>
    rw [Clauses.pieces, map_pieces_clause]
    exact (List.append_nil _).symm
  | snoc before semicolon c ih =>
    rw [Clauses.pieces, List.map_append, ih, map_pieces_clause, Clauses.statements, Program.nodes,
      Program.nodes, List.flatMap_append, List.flatMap_singleton]

/-- The nodes with their texts are the nodes of the tree. -/
theorem map_pieces (d : Document) : d.pieces.map Prod.fst = d.program.nodes := by
  cases d with
  | plain cs => exact map_pieces_clauses cs
  | trailing cs semicolon => exact map_pieces_clauses cs

end Grammar

/-! ## Parts of a node -/

section
variable {text : List Char} {ts : List Token} {blocks : List (List Token)}

/-- A node whose parts have their texts one after the other within its own text has its place. -/
theorem Node.Placed.of_blocks {n : Node} (hts : Standing text ts) (hn : n.span.Covers ts)
    (h : List.Forall₂ Span.Covers (n.children.map Expr.span) blocks)
    (hsub : blocks.flatten.Sublist ts) (hshown : n.Shown text) : n.Placed text := by
  obtain ⟨t, ht, -, hstart⟩ := exists_mem_of_startOf hn.start
  obtain ⟨u, hu, -, hstop⟩ := exists_mem_of_stopOf hn.stop
  have hapart := apart_of_blocks h (hts.inOrder.sublist hsub)
  exact {
    start_nonneg := hstart ▸ (hts.within t ht).1
    nonempty := hn.nonempty
    within := hstop ▸ (hts.within u hu).2
    inside := List.forall_mem_map.mp (inside_of_blocks hn hts.inOrder h hsub)
    apart := List.pairwise_map.mp hapart
    shown := hshown }

/-- An application of items whose texts follow one another goes from the first to the last. -/
theorem covers_chain {es : List Expr} (hne : es ≠ [])
    (h : List.Forall₂ Span.Covers (es.map Expr.span) blocks) (hts : InOrder blocks.flatten) :
    (Expr.chain es).span.Covers blocks.flatten := by
  obtain ⟨e, es, rfl⟩ := List.exists_cons_of_ne_nil hne
  obtain ⟨us, blocks, hfirst, hrest, rfl⟩ := List.forall₂_cons_left_iff.mp h
  rcases List.eq_nil_or_concat es with rfl | ⟨mid, last, rfl⟩
  · cases hrest
    have hspan : (Expr.chain [e]).span = e.span := by
      show e.span.join e.span = e.span
      rw [Span.join, min_self, max_self]
    simpa [hspan] using hfirst
  · rw [List.concat_eq_append, List.map_append] at hrest
    -- the text of the last item is the last one
    have hend := List.forall₂_drop (mid.map Expr.span).length hrest
    rw [List.drop_left] at hend
    obtain ⟨vs, none, hlast, hnone, hvs⟩ := List.forall₂_cons_left_iff.mp hend
    cases hnone
    have hsplit : blocks = blocks.take (mid.map Expr.span).length ++ [vs] := by
      rw [← hvs, List.take_append_drop]
    have hblocks : us ++ blocks.flatten =
        us ++ (blocks.take (mid.map Expr.span).length).flatten ++ vs := by
      have hflatten := congrArg List.flatten hsplit
      rw [List.flatten_concat] at hflatten
      rw [List.append_assoc, ← hflatten]
    have hspan : (Expr.chain (e :: mid.concat last)).span = e.span.join last.span := by
      rw [Expr.chain, List.concat_eq_append, ← List.cons_append, List.getLastD_concat]
      rfl
    rw [List.flatten_cons, hblocks] at hts ⊢
    rw [hspan]
    exact hfirst.join hlast hts

end

/-! ## All nodes -/

/-- Every node has its text among the tokens, goes from its beginning to its end, and has its place. -/
def AllPlaced (text : List Char) (ts : List Token) (pieces : List (Node × List Token)) : Prop :=
  ∀ piece ∈ pieces, piece.2 <:+: ts ∧ piece.1.span.Covers piece.2 ∧ piece.1.Placed text

theorem AllPlaced.widen {text : List Char} {ts us : List Token} {pieces : List (Node × List Token)}
    (h : AllPlaced text ts pieces) (hsub : ts <:+: us) : AllPlaced text us pieces := by
  intro piece hpiece
  obtain ⟨hts, hplaced⟩ := h piece hpiece
  exact ⟨hts.trans hsub, hplaced⟩

theorem AllPlaced.cons {text : List Char} {ts : List Token} {n : Node}
    {pieces : List (Node × List Token)} (hcovers : n.span.Covers ts) (hplaced : n.Placed text)
    (h : AllPlaced text ts pieces) : AllPlaced text ts ((n, ts) :: pieces) :=
  List.forall_mem_cons.mpr ⟨⟨List.infix_rfl, hcovers, hplaced⟩, h⟩

theorem AllPlaced.append {text : List Char} {ts : List Token} {ps qs : List (Node × List Token)}
    (hps : AllPlaced text ts ps) (hqs : AllPlaced text ts qs) : AllPlaced text ts (ps ++ qs) :=
  List.forall_mem_append.mpr ⟨hps, hqs⟩

namespace Grammar

variable {text : List Char}

/-- A name or a literal has the place of its token. -/
theorem placed_leaf {n : Node} {l : Lexeme} (hlparen : l ≠ .lparen) (hrparen : l ≠ .rparen)
    (hchildren : n.children = []) (hts : Standing text [⟨l, n.span⟩])
    (hshown : l.Written (n.span.extract text) → n.Shown text) :
    n.span.Covers [⟨l, n.span⟩] ∧ AllPlaced text [⟨l, n.span⟩] [(n, [⟨l, n.span⟩])] := by
  have hcovers : n.span.Covers [⟨l, n.span⟩] :=
    Span.Covers.token hlparen hrparen (hts.inOrder.2 _ List.mem_cons_self)
  have hnone : List.Forall₂ Span.Covers (n.children.map Expr.span) [] := by
    rw [hchildren]
    exact .nil
  exact ⟨hcovers, .cons hcovers (.of_blocks hts hcovers hnone (List.nil_sublist _)
    (hshown (hts.written _ List.mem_cons_self))) (List.forall_mem_nil _)⟩

theorem Phrase.lambda_tokens (sign : Span) (params : Params) (dot : Span) (body : Phrase) :
    (Phrase.lambda sign params dot body).tokens =
      ⟨.lambda, sign⟩ :: (params.tokens ++ [⟨.dot, dot⟩]) ++ body.tokens := by
  simp [Phrase.tokens]

theorem Phrase.chainLambda_tokens (items : Chain) (sign : Span) (params : Params) (dot : Span)
    (body : Phrase) : (Phrase.chainLambda items sign params dot body).tokens =
      items.tokens ++ (Phrase.lambda sign params dot body).tokens := by
  simp [Phrase.tokens]

theorem Phrase.suffix_lambda (sign : Span) (params : Params) (dot : Span) (body : Phrase) :
    body.tokens <:+ (Phrase.lambda sign params dot body).tokens := by
  rw [Phrase.lambda_tokens]
  exact List.suffix_append ..

/-- An abstraction goes from its sign to the end of its body. -/
theorem placed_lambda {sign : Span} {params : Params} {dot : Span} {body : Phrase}
    (hts : Standing text (Phrase.lambda sign params dot body).tokens)
    (hcovers : body.expr.span.Covers body.tokens) (hbody : AllPlaced text body.tokens body.pieces) :
    (Phrase.lambda sign params dot body).expr.span.Covers
        (Phrase.lambda sign params dot body).tokens ∧
      AllPlaced text (Phrase.lambda sign params dot body).tokens
        (Phrase.lambda sign params dot body).pieces := by
  have hbehind := Phrase.suffix_lambda sign params dot body
  have hwhole : (Phrase.lambda sign params dot body).expr.span.Covers
      (Phrase.lambda sign params dot body).tokens := by
    have hinOrder := hts.inOrder
    rw [Phrase.lambda_tokens] at hinOrder ⊢
    exact hcovers.led (by simp) hinOrder
  refine ⟨hwhole, .cons hwhole ?_ (hbody.widen hbehind.isInfix)⟩
  refine .of_blocks hts hwhole (.cons hcovers .nil) ?_ trivial
  rw [List.flatten_singleton]
  exact hbehind.sublist

/-- An application goes from its first item to its last. -/
theorem placed_items {es : List Expr} {ts : List Token} {blocks : List (List Token)} (hne : es ≠ [])
    (hts : Standing text ts) (h : List.Forall₂ Span.Covers (es.map Expr.span) blocks)
    (hflatten : blocks.flatten = ts) :
    (Expr.chain es).span.Covers ts ∧ (Node.expr (Expr.chain es)).Placed text := by
  subst hflatten
  have hcovers := covers_chain hne h hts.inOrder
  exact ⟨hcovers, .of_blocks hts hcovers h (List.Sublist.refl _) trivial⟩

mutual

theorem placed_atom : ∀ a : Atom, Standing text a.tokens →
    a.expr.span.Covers a.tokens ∧ AllPlaced text a.tokens a.pieces
  | .name p x, hts =>
    placed_leaf (n := .expr (.var p x)) (by simp) (by simp) rfl hts id
  | .number p n, hts =>
    placed_leaf (n := .expr (.number p n)) (by simp) (by simp) rfl hts fun h => ⟨n, rfl, h⟩
  | .character p c, hts =>
    placed_leaf (n := .expr (.character p (String.singleton c))) (by simp) (by simp) rfl hts
      fun h => ⟨c, rfl, h⟩
  | .paren opening body closing, hts => by
    have hpart : body.tokens <:+: (Atom.paren opening body closing).tokens :=
      ⟨[⟨.lparen, opening⟩], [⟨.rparen, closing⟩], rfl⟩
    obtain ⟨hcovers, hbody⟩ := placed_phrase body (hts.sublist hpart.sublist)
    exact ⟨hcovers.paren opening closing, hbody.widen hpart⟩

theorem placed_chain : ∀ c : Chain, Standing text c.tokens →
    (∃ blocks, List.Forall₂ Span.Covers (c.exprs.map Expr.span) blocks ∧ blocks.flatten = c.tokens) ∧
      AllPlaced text c.tokens c.pieces
  | .one a, hts => by
    obtain ⟨hcovers, ha⟩ := placed_atom a hts
    exact ⟨⟨[a.tokens], .cons hcovers .nil, List.flatten_singleton⟩, ha⟩
  | .snoc before a, hts => by
    have hbefore : before.tokens <+: (Chain.snoc before a).tokens := List.prefix_append ..
    have hafter : a.tokens <:+ (Chain.snoc before a).tokens := List.suffix_append ..
    obtain ⟨⟨blocks, hblocks, hflatten⟩, hpieces⟩ :=
      placed_chain before (hts.sublist hbefore.sublist)
    obtain ⟨hcovers, ha⟩ := placed_atom a (hts.sublist hafter.sublist)
    refine ⟨⟨blocks ++ [a.tokens], ?_, ?_⟩,
      (hpieces.widen hbefore.isInfix).append (ha.widen hafter.isInfix)⟩
    · rw [Chain.exprs, List.map_append]
      exact List.rel_append hblocks (.cons hcovers .nil)
    · rw [List.flatten_concat, hflatten, Chain.tokens]

theorem placed_phrase : ∀ u : Phrase, Standing text u.tokens →
    u.expr.span.Covers u.tokens ∧ AllPlaced text u.tokens u.pieces
  | .chain items, hts => by
    obtain ⟨⟨blocks, hblocks, hflatten⟩, hpieces⟩ := placed_chain items hts
    obtain ⟨hcovers, hplaced⟩ := placed_items items.exprs_ne_nil hts hblocks hflatten
    exact ⟨hcovers, .cons hcovers hplaced hpieces⟩
  | .lambda sign params dot body, hts => by
    have hbehind := Phrase.suffix_lambda sign params dot body
    obtain ⟨hcovers, hbody⟩ := placed_phrase body (hts.sublist hbehind.sublist)
    exact placed_lambda hts hcovers hbody
  | .chainLambda items sign params dot body, hts => by
    have htokens := Phrase.chainLambda_tokens items sign params dot body
    have hbefore : items.tokens <+: (Phrase.chainLambda items sign params dot body).tokens :=
      htokens ▸ List.prefix_append ..
    have hafter : (Phrase.lambda sign params dot body).tokens <:+
        (Phrase.chainLambda items sign params dot body).tokens :=
      htokens ▸ List.suffix_append ..
    have hlambda := hts.sublist hafter.sublist
    have hbehind := Phrase.suffix_lambda sign params dot body
    obtain ⟨⟨blocks, hblocks, hflatten⟩, hitems⟩ := placed_chain items (hts.sublist hbefore.sublist)
    obtain ⟨hbodyCovers, hbody⟩ := placed_phrase body (hlambda.sublist hbehind.sublist)
    obtain ⟨hlambdaCovers, hlambdaPieces⟩ := placed_lambda hlambda hbodyCovers hbody
    -- the abstraction is one more item
    have hall : List.Forall₂ Span.Covers
        ((items.exprs ++ [(Phrase.lambda sign params dot body).expr]).map Expr.span)
        (blocks ++ [(Phrase.lambda sign params dot body).tokens]) := by
      rw [List.map_append]
      exact List.rel_append hblocks (.cons hlambdaCovers .nil)
    have hflatten : (blocks ++ [(Phrase.lambda sign params dot body).tokens]).flatten =
        (Phrase.chainLambda items sign params dot body).tokens := by
      rw [List.flatten_concat, hflatten, htokens]
    obtain ⟨hcovers, hplaced⟩ := placed_items (by simp) hts hall hflatten
    exact ⟨hcovers, .cons hcovers hplaced
      ((hitems.widen hbefore.isInfix).append (hlambdaPieces.widen hafter.isInfix))⟩

end

theorem placed_clause (c : Clause) (hts : Standing text c.tokens) :
    c.statement.span.Covers c.tokens ∧ AllPlaced text c.tokens c.pieces := by
  cases c with
  | binding word p x sign value =>
    have htokens : (Clause.binding word p x sign value).tokens =
        ⟨.letWord, word⟩ :: [⟨.name x, p⟩, ⟨.equals, sign⟩] ++ value.tokens := rfl
    have hbehind : value.tokens <:+ (Clause.binding word p x sign value).tokens :=
      htokens ▸ List.suffix_append ..
    obtain ⟨hvalue, hpieces⟩ := placed_phrase value (hts.sublist hbehind.sublist)
    have hcovers : (Clause.binding word p x sign value).statement.span.Covers
        (Clause.binding word p x sign value).tokens := by
      have hinOrder := hts.inOrder
      rw [htokens] at hinOrder ⊢
      exact hvalue.led (by simp) hinOrder
    refine ⟨hcovers, .cons hcovers ?_ (hpieces.widen hbehind.isInfix)⟩
    exact .of_blocks hts hcovers (.cons hvalue .nil)
      (List.flatten_singleton ▸ hbehind.sublist) trivial
  | expression body =>
    obtain ⟨hcovers, hpieces⟩ := placed_phrase body hts
    refine ⟨hcovers, .cons hcovers ?_ hpieces⟩
    exact .of_blocks hts hcovers (.cons hcovers .nil)
      (List.flatten_singleton ▸ List.Sublist.refl body.tokens) trivial

/-- The statements have their texts one after the other. -/
theorem placed_clauses (cs : Clauses) (hts : Standing text cs.tokens) :
    (∃ blocks, List.Forall₂ Span.Covers (cs.statements.map Statement.span) blocks ∧
      blocks.flatten.Sublist cs.tokens) ∧ AllPlaced text cs.tokens cs.pieces := by
  induction cs with
  | one c =>
    obtain ⟨hcovers, hpieces⟩ := placed_clause c hts
    exact ⟨⟨[c.tokens], .cons hcovers .nil, List.flatten_singleton ▸ List.Sublist.refl c.tokens⟩,
      hpieces⟩
  | snoc before semicolon c ih =>
    have hbefore : before.tokens <+: (Clauses.snoc before semicolon c).tokens := List.prefix_append ..
    have hafter : c.tokens <:+ (Clauses.snoc before semicolon c).tokens :=
      ⟨before.tokens ++ [⟨.semicolon, semicolon⟩], by simp [Clauses.tokens]⟩
    obtain ⟨⟨blocks, hblocks, hflatten⟩, hpieces⟩ := ih (hts.sublist hbefore.sublist)
    obtain ⟨hcovers, hc⟩ := placed_clause c (hts.sublist hafter.sublist)
    refine ⟨⟨blocks ++ [c.tokens], ?_, ?_⟩,
      (hpieces.widen hbefore.isInfix).append (hc.widen hafter.isInfix)⟩
    · rw [Clauses.statements, List.map_append]
      exact List.rel_append hblocks (.cons hcovers .nil)
    · rw [List.flatten_concat]
      exact hflatten.append (List.sublist_cons_self _ c.tokens)

/-- The nodes of a program have their places, and its statements stand one after the other. -/
theorem placed_document (d : Document) (hts : Standing text d.tokens) :
    AllPlaced text d.tokens d.pieces ∧
      d.program.statements.Pairwise fun s s' => s.span.stop ≤ s'.span.start := by
  have hclauses (cs : Clauses) (hcs : cs.tokens <+: d.tokens) : AllPlaced text d.tokens cs.pieces ∧
      cs.statements.Pairwise fun s s' => s.span.stop ≤ s'.span.start := by
    have hstanding := hts.sublist hcs.sublist
    obtain ⟨⟨blocks, hblocks, hsub⟩, hpieces⟩ := placed_clauses cs hstanding
    have hapart := apart_of_blocks hblocks (hstanding.inOrder.sublist hsub)
    exact ⟨hpieces.widen hcs.isInfix, List.pairwise_map.mp hapart⟩
  cases d with
  | plain cs => exact hclauses cs List.prefix_rfl
  | trailing cs semicolon => exact hclauses cs (List.prefix_append ..)

end Grammar

/-- **Every node of a program that was read has its place.**  It goes from the first token of its text
that is no `(` to the last one that is no `)`.  So it lies in the source and is not empty; its parts
lie inside it, one after the other; and a name or a literal stands there as it is written. -/
theorem places_of_parse {source : String} {p : Program} (h : Program.parse source = .ok p) :
    (∃ d : Grammar.Document, d.tokens = (lex source).tokens ∧ d.program = p ∧
      d.pieces.map Prod.fst = p.nodes ∧
      ∀ piece ∈ d.pieces, piece.2 <:+: d.tokens ∧ piece.1.span.Covers piece.2) ∧
    (∀ n ∈ p.nodes, n.Placed source.toList) ∧
    p.statements.Pairwise fun s s' => s.span.stop ≤ s'.span.start := by
  obtain ⟨d, htokens, rfl⟩ := exists_document_of_parse h
  have hstanding := standing_of_parse h
  rw [← htokens] at hstanding
  obtain ⟨hpieces, hapart⟩ := Grammar.placed_document d hstanding
  have hnodes := Grammar.map_pieces d
  refine ⟨⟨d, htokens, rfl, hnodes, ?_⟩, ?_, hapart⟩
  · intro piece hpiece
    obtain ⟨hpart, hcovers, -⟩ := hpieces piece hpiece
    exact ⟨hpart, hcovers⟩
  · intro n hn
    rw [← hnodes] at hn
    obtain ⟨piece, hpiece, rfl⟩ := List.mem_map.mp hn
    exact (hpieces piece hpiece).2.2

/-- In `let f = (\x. x);(f 'a')(07)` both statements end with a parenthesis and the second begins with
one.  Neither is in its place, and the inner parentheses are in no place at all. -/
theorem places_of_parse_parentheses :
    ∃ p, Program.parse "let f = (\\x. x);(f 'a')(07)" = .ok p ∧
      p.nodes.map Node.span = [⟨0, 14⟩, ⟨9, 14⟩, ⟨9, 14⟩, ⟨13, 14⟩, ⟨13, 14⟩,
        ⟨17, 26⟩, ⟨17, 26⟩, ⟨17, 22⟩, ⟨17, 18⟩, ⟨19, 22⟩, ⟨24, 26⟩, ⟨24, 26⟩] ∧
      ∀ n ∈ p.nodes, n.Placed "let f = (\\x. x);(f 'a')(07)".toList := by
  have hp : Program.parse "let f = (\\x. x);(f 'a')(07)" = .ok
      ⟨[.binding ⟨0, 14⟩ "f"
          (.app ⟨9, 14⟩ [.lam ⟨9, 14⟩ ["x"] (.app ⟨13, 14⟩ [.var ⟨13, 14⟩ "x"])]),
        .expression ⟨17, 26⟩
          (.app ⟨17, 26⟩ [.app ⟨17, 22⟩ [.var ⟨17, 18⟩ "f", .character ⟨19, 22⟩ "a"],
            .app ⟨24, 26⟩ [.number ⟨24, 26⟩ 7]])]⟩ := by
    unfold Program.parse lex
    rw [String.toList_ofList]
    rfl
  exact ⟨_, hp, rfl, (places_of_parse hp).2.1⟩

end LambdaCalculus
