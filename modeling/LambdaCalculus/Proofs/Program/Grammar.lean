import LambdaCalculus.Program.Token
import LambdaCalculus.Program.Tree

/-!
# The grammar of programs

A derivation of a program from the grammar

    program    ::= statements | statements ;
    statements ::= statements ; statement | statement
    statement  ::= let NAME = term | term
    term       ::= λ params . term | chain λ params . term | chain
    params     ::= params NAME | NAME
    chain      ::= chain atom | atom
    atom       ::= NAME | NUMBER | CHARACTER | ( term )

is a tree with one constructor for each rule.  Its leaves are tokens: the constructors keep what the
grammar leaves open about them, which is their place and, for names and literals, what they say.

* `Atom.tokens`, …, `Document.tokens` — the tokens of a derivation, from left to right.
* `Atom.expr`, …, `Document.program` — the tree that a derivation stands for.
-/

namespace LambdaCalculus

/-- An application of the items from left to right, over all their places.  There has to be an
item. -/
def Expr.chain (items : List Expr) : Expr :=
  .app ((items.headD default).span.join (items.getLastD default).span) items

namespace Grammar

/-- Derivations of parameters. -/
inductive Params where
  /-- `NAME` -/
  | one (place : Span) (x : String)
  /-- `params NAME` -/
  | snoc (before : Params) (place : Span) (x : String)

mutual

/-- Derivations of atoms. -/
inductive Atom where
  /-- `NAME` -/
  | name (place : Span) (x : String)
  /-- `NUMBER` -/
  | number (place : Span) (n : Nat)
  /-- `CHARACTER` -/
  | character (place : Span) (c : Char)
  /-- `( term )` -/
  | paren (opening : Span) (body : Phrase) (closing : Span)

/-- Derivations of chains. -/
inductive Chain where
  /-- `atom` -/
  | one (a : Atom)
  /-- `chain atom` -/
  | snoc (before : Chain) (a : Atom)

/-- Derivations of terms. -/
inductive Phrase where
  /-- `chain` -/
  | chain (items : Chain)
  /-- `λ params . term` -/
  | lambda (sign : Span) (params : Params) (dot : Span) (body : Phrase)
  /-- `chain λ params . term` -/
  | chainLambda (items : Chain) (sign : Span) (params : Params) (dot : Span) (body : Phrase)

end

/-- Derivations of statements. -/
inductive Clause where
  /-- `let NAME = term` -/
  | binding (word place : Span) (x : String) (sign : Span) (value : Phrase)
  /-- `term` -/
  | expression (body : Phrase)

/-- Derivations of statements one after the other. -/
inductive Clauses where
  /-- `statement` -/
  | one (c : Clause)
  /-- `statements ; statement` -/
  | snoc (before : Clauses) (semicolon : Span) (c : Clause)

/-- Derivations of programs. -/
inductive Document where
  /-- `statements` -/
  | plain (clauses : Clauses)
  /-- `statements ;` -/
  | trailing (clauses : Clauses) (semicolon : Span)

/-! ## Tokens -/

/-- The tokens of parameters. -/
def Params.tokens : Params → List Token
  | .one p x => [⟨.name x, p⟩]
  | .snoc before p x => before.tokens ++ [⟨.name x, p⟩]

mutual

/-- The tokens of an atom. -/
def Atom.tokens : Atom → List Token
  | .name p x => [⟨.name x, p⟩]
  | .number p n => [⟨.number n, p⟩]
  | .character p c => [⟨.character c, p⟩]
  | .paren opening body closing => ⟨.lparen, opening⟩ :: body.tokens ++ [⟨.rparen, closing⟩]

/-- The tokens of a chain. -/
def Chain.tokens : Chain → List Token
  | .one a => a.tokens
  | .snoc before a => before.tokens ++ a.tokens

/-- The tokens of a term. -/
def Phrase.tokens : Phrase → List Token
  | .chain items => items.tokens
  | .lambda sign params dot body =>
    ⟨.lambda, sign⟩ :: params.tokens ++ ⟨.dot, dot⟩ :: body.tokens
  | .chainLambda items sign params dot body =>
    items.tokens ++ ⟨.lambda, sign⟩ :: params.tokens ++ ⟨.dot, dot⟩ :: body.tokens

end

/-- The tokens of a statement. -/
def Clause.tokens : Clause → List Token
  | .binding word p x sign value =>
    ⟨.letWord, word⟩ :: ⟨.name x, p⟩ :: ⟨.equals, sign⟩ :: value.tokens
  | .expression body => body.tokens

/-- The tokens of statements. -/
def Clauses.tokens : Clauses → List Token
  | .one c => c.tokens
  | .snoc before semicolon c => before.tokens ++ ⟨.semicolon, semicolon⟩ :: c.tokens

/-- The tokens of a program. -/
def Document.tokens : Document → List Token
  | .plain clauses => clauses.tokens
  | .trailing clauses semicolon => clauses.tokens ++ [⟨.semicolon, semicolon⟩]

/-! ## Trees -/

/-- The parameters in order. -/
def Params.names : Params → List String
  | .one _ x => [x]
  | .snoc before _ x => before.names ++ [x]

mutual

/-- The expression of an atom; parentheses leave no trace. -/
def Atom.expr : Atom → Expr
  | .name p x => .var p x
  | .number p n => .number p n
  | .character p c => .character p (String.singleton c)
  | .paren _ body _ => body.expr

/-- The expressions of a chain. -/
def Chain.exprs : Chain → List Expr
  | .one a => [a.expr]
  | .snoc before a => before.exprs ++ [a.expr]

/-- The expression of a term. -/
def Phrase.expr : Phrase → Expr
  | .chain items => .chain items.exprs
  | .lambda sign params _ body => .lam ⟨sign.start, body.expr.span.stop⟩ params.names body.expr
  | .chainLambda items sign params _ body =>
    .chain (items.exprs ++ [.lam ⟨sign.start, body.expr.span.stop⟩ params.names body.expr])

end

/-- The statement of a derivation. -/
def Clause.statement : Clause → Statement
  | .binding word _ x _ value => .binding ⟨word.start, value.expr.span.stop⟩ x value.expr
  | .expression body => .expression body.expr.span body.expr

/-- The statements in order. -/
def Clauses.statements : Clauses → List Statement
  | .one c => [c.statement]
  | .snoc before _ c => before.statements ++ [c.statement]

/-- The program of a derivation. -/
def Document.program : Document → Program
  | .plain clauses => ⟨clauses.statements⟩
  | .trailing clauses _ => ⟨clauses.statements⟩

theorem Params.names_ne_nil (ps : Params) : ps.names ≠ [] := by
  cases ps <;> simp [names]

theorem Chain.exprs_ne_nil (items : Chain) : items.exprs ≠ [] := by
  cases items <;> simp [exprs]

end Grammar

end LambdaCalculus
