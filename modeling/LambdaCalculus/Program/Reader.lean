import LambdaCalculus.Program.Token
import LambdaCalculus.Program.Tree

/-!
# Reading programs

The grammar of programs:

    program   ::= statement (; statement)* [;]
    statement ::= let NAME = term | term
    term      ::= λ NAME+ . term | atom+ | atom+ λ NAME+ . term
    atom      ::= NAME | NUMBER | CHARACTER | ( term )

The body of an abstraction goes on as far as it can.  A *reader* takes the tokens one by one and
knows, at every moment, what it has read and what may come next.  It refuses a token exactly when no
program goes on with it, so the first mistake in a text is the one that is reported.

* `Reader.feed?` takes a token, `none` when the token cannot come next.
* `Reader.finish?` is the program, `none` when the text cannot end here.
* `Program.parse` reads the program of a text, `Expr.parse` a single expression.

Parentheses leave no trace in the tree but that of grouping: a term in parentheses is the term
itself, and its place leaves the parentheses out.
-/

namespace LambdaCalculus

/-! ## Building nodes -/

/-- The term of the items, which are in reverse order: nothing but an application, even of a single
item.  There has to be an item. -/
def Expr.ofItems? (items : List Expr) : Option Expr :=
  match items, items.reverse with
  | last :: _, first :: rest => some (.app (first.span.join last.span) (first :: rest))
  | _, _ => none

/-- The term that ends with an abstraction, which begins at `start` and follows the items `before`;
the items and the parameters are in reverse order. -/
def Expr.closeLambda (before : List Expr) (start : Int) (params : List String) (body : Expr) :
    Expr :=
  let lam := Expr.lam ⟨start, body.span.stop⟩ params.reverse body
  match before with
  | [] => lam
  | _ => (Expr.ofItems? (lam :: before)).getD lam

/-! ## Readers -/

/-- What the term being read is for. -/
inductive Goal where
  | expression
  /-- It is the value of a binding of `name` that begins at `start`. -/
  | binding (start : Int) (name : String)
  deriving Repr

/-- A construct that the term being read stands inside. -/
inductive Frame where
  /-- Parentheses, after the items `before` them in reverse order. -/
  | paren (before : List Expr)
  /-- The body of an abstraction that begins at `start`, after the items `before` it; items and
  parameters are in reverse order. -/
  | lambda (before : List Expr) (start : Int) (params : List String)
  deriving Repr

/-- What a reader is in the middle of. -/
inductive Mode where
  | statement
  /-- After the `let` at `start`. -/
  | binder (start : Int)
  /-- After the name of a binding. -/
  | equals (start : Int) (name : String)
  /-- In a term: inside the frames, innermost first, after the items in reverse order. -/
  | term (goal : Goal) (frames : List Frame) (items : List Expr)
  /-- Among the parameters of the abstraction at `start`, which follows the items; items and
  parameters are in reverse order. -/
  | params (goal : Goal) (frames : List Frame) (items : List Expr) (start : Int)
      (names : List String)
  deriving Repr

/-- A reader: the statements that are complete, in reverse order, and what is being read. -/
structure Reader where
  complete : List Statement
  mode : Mode
  deriving Repr

namespace Reader

/-- Before the first token. -/
def start : Reader := ⟨[], .statement⟩

/-- Ends the abstractions whose bodies end where the term `e` does. -/
def settle : List Frame → Expr → List Frame × Expr
  | .lambda before start params :: frames, e =>
    settle frames (Expr.closeLambda before start params e)
  | frames, e => (frames, e)

/-- The statement that a complete term makes. -/
def Goal.statement (goal : Goal) (e : Expr) : Statement :=
  match goal with
  | .expression => .expression e.span e
  | .binding start name => .binding ⟨start, e.span.stop⟩ name e

/-- The statement of a term that ends here, if it can end here. -/
def statement? (goal : Goal) (frames : List Frame) (items : List Expr) : Option Statement := do
  let e ← Expr.ofItems? items
  match settle frames e with
  | ([], e) => some (Goal.statement goal e)
  | _ => none

/-- What is being read after the token, when it was in a term. -/
def feedTerm? (goal : Goal) (frames : List Frame) (items : List Expr) (t : Token) : Option Mode :=
  match t.lexeme with
  | .name x => some (.term goal frames (.var t.span x :: items))
  | .number n => some (.term goal frames (.number t.span n :: items))
  | .character c => some (.term goal frames (.character t.span (String.singleton c) :: items))
  | .lambda => some (.params goal frames items t.span.start [])
  | .lparen => some (.term goal (.paren items :: frames) [])
  | .rparen => do
    let e ← Expr.ofItems? items
    match settle frames e with
    | (.paren before :: frames, e) => some (.term goal frames (e :: before))
    | _ => none
  | _ => none

/-- The reader after one more token, if the token can come next. -/
def feed? (r : Reader) (t : Token) : Option Reader :=
  match r.mode with
  | .statement =>
    match t.lexeme with
    | .letWord => some ⟨r.complete, .binder t.span.start⟩
    | _ => (feedTerm? .expression [] [] t).map (⟨r.complete, ·⟩)
  | .binder start =>
    match t.lexeme with
    | .name x => some ⟨r.complete, .equals start x⟩
    | _ => none
  | .equals start x =>
    match t.lexeme with
    | .equals => some ⟨r.complete, .term (.binding start x) [] []⟩
    | _ => none
  | .term goal frames items =>
    match t.lexeme with
    | .semicolon => (statement? goal frames items).map (⟨· :: r.complete, .statement⟩)
    | _ => (feedTerm? goal frames items t).map (⟨r.complete, ·⟩)
  | .params goal frames items start names =>
    match t.lexeme, names with
    | .name x, _ => some ⟨r.complete, .params goal frames items start (x :: names)⟩
    | .dot, _ :: _ => some ⟨r.complete, .term goal (.lambda items start names :: frames) []⟩
    | _, _ => none

/-- The program, if it can end here.  A `;` after the last statement is allowed. -/
def finish? (r : Reader) : Option Program :=
  match r.mode, r.complete with
  | .statement, _ :: _ => some ⟨r.complete.reverse⟩
  | .term goal frames items, complete =>
    (statement? goal frames items).map fun s => ⟨(s :: complete).reverse⟩
  | _, _ => none

/-- Reads on to the end of the tokens.  A fault of the text comes to light when the reader asks for
the token that is not there. -/
def run (source : String) : Reader → List Token → Option Fault → Except Fault Program
  | r, t :: rest, fault? =>
    match r.feed? t with
    | some r => run source r rest fault?
    | none => throw (.mistake .unexpectedToken t.span source)
  | _, [], some fault => throw fault
  | r, [], none =>
    match r.finish? with
    | some p => pure p
    | none =>
      let stop := source.length
      throw (.mistake .unexpectedEnd ⟨stop, stop⟩ source)

end Reader

/-! ## Reading a text -/

/-- The program of a text. -/
def Program.parse (source : String) : Except Fault Program :=
  let lexing := lex source
  Reader.run source .start lexing.tokens lexing.fault?

/-- The expression of a text that holds a single one and nothing else. -/
def Expr.parse (source : String) : Except Fault Expr := do
  match (← Program.parse source).statements with
  | [.expression _ e] => pure e
  | s :: _ => throw (.mistake .notOneExpression s.span source)
  | [] => throw (.mistake .notOneExpression ⟨0, source.length⟩ source)

end LambdaCalculus
