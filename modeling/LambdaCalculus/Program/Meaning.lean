import LambdaCalculus.Program.Tree
import LambdaCalculus.Term.Numeral

/-!
# What programs mean

A program means a term in which every variable still has nothing but its name.

* An abstraction of several parameters is a tower of abstractions, and an application of several
  items associates to the left.
* A number means its Church numeral, and a character that of its code point.
* `let x1 = e1; …; let xn = en; e` means `(λx1. … (λxn. e) en …) e1`: a binding is seen by the
  statements after it and by no other.

`Expr.meaning` and `Program.meaning` go down into the tree no deeper than a limit.
-/

namespace LambdaCalculus

mutual

/-- The term that an expression means, with room for so many levels. -/
def Expr.meaningWithin : Nat → Expr → Except Fault Term
  | 0, _ => throw .tooDeep
  | _ + 1, .var _ x => pure (.free x)
  | _ + 1, .number _ n => Term.ofInt n
  | _ + 1, .character _ text => Term.ofText text
  | room + 1, .lam p params body =>
    match params with
    | [] => throw (.malformed .noParameters (some p) none)
    | _ :: _ => do
      let body ← body.meaningWithin room
      pure (body.lams params)
  | room + 1, .app p items =>
    match items with
    | [] => throw (.malformed .emptyApplication (some p) none)
    | head :: rest => do
      let head ← head.meaningWithin room
      applyMeanings room head rest

/-- The term applied to what the expressions mean, from left to right. -/
def Expr.applyMeanings (room : Nat) : Term → List Expr → Except Fault Term
  | f, [] => pure f
  | f, e :: rest => do
    let a ← e.meaningWithin room
    applyMeanings room (.app f a) rest

end

/-- The term that an expression means. -/
def Expr.meaning (limit : Nat) (e : Expr) : Except Fault Term :=
  (e.meaningWithin limit).mapError (Fault.during .desugaring)

/-- Puts the term `result` in the sight of the statements before it, the nearest first. -/
def bindAll (limit : Nat) : Term → List Statement → Except Fault Term
  | result, [] => pure result
  | result, .binding _ x value :: before => do
    let value ← value.meaningWithin limit
    bindAll limit (.app (.lam x result) value) before
  | _, .expression p _ :: _ => throw (.malformed .earlyExpression (some p) none)

/-- The term that a program means. -/
def Program.meaning (limit : Nat) (p : Program) : Except Fault Term :=
  match p.statements.reverse with
  | [] => throw (.malformed .noStatements none none)
  | .binding span _ _ :: _ => throw (.malformed .endsInBinding (some span) none)
  | .expression _ body :: before =>
    (do
      let result ← body.meaningWithin limit
      bindAll limit result before).mapError (Fault.during .desugaring)

end LambdaCalculus
