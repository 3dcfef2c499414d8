import LambdaCalculus.Text.Position

/-!
# Programs as trees

A program is a sequence of statements; each is a binding or an expression.  Expressions are richer
than terms: an abstraction has any number of parameters, an application any number of items, and
there are literals for numbers and characters.  Every node knows its place in the text.

A tree that was read from a text has at least one parameter on each abstraction, at least one item
in each application, numbers that are natural and characters that are single.  The types do not
ask for it, since trees are also built by hand; `LambdaCalculus.Program.Meaning` refuses those that
break it.
-/

namespace LambdaCalculus

/-- An expression of the language of programs. -/
inductive Expr where
  | var (span : Span) (name : String)
  | number (span : Span) (value : Int)
  | character (span : Span) (text : String)
  /-- `λp1 … pn. body`; parameters may repeat. -/
  | lam (span : Span) (params : List String) (body : Expr)
  /-- `e1 e2 … en`, which associates to the left. -/
  | app (span : Span) (items : List Expr)
  deriving Repr, Inhabited

/-- A statement of a program. -/
inductive Statement where
  /-- `let name = value` -/
  | binding (span : Span) (name : String) (value : Expr)
  | expression (span : Span) (body : Expr)
  deriving Repr, Inhabited

/-- A program: its statements in the order of the text. -/
structure Program where
  statements : List Statement
  deriving Repr, Inhabited

/-- The place of an expression. -/
def Expr.span : Expr → Span
  | .var p _ => p
  | .number p _ => p
  | .character p _ => p
  | .lam p _ _ => p
  | .app p _ => p

/-- The place of a statement. -/
def Statement.span : Statement → Span
  | .binding p _ _ => p
  | .expression p _ => p

end LambdaCalculus
