import LambdaCalculus.Program.Reader

/-!
# Standard definitions

Bindings that a program can have before its own: combinators, truth values, natural numbers as
iterators, and pairs.  They are kept as the text of a program, which is read like any other.

* `standardText` is the text.
* `Program.statementsOf` is the statements of a text.
* `standardBindings` is the bindings in order, with their places in that text.
* `Program.withStandard` puts them before a program.
-/

namespace LambdaCalculus

/-- The text of the standard definitions. -/
def standardText : String :=
  r"
let id = \x. x;
let const = \x y. x;
let true = \t f. t;
let false = \t f. f;
let if = \p a b. p a b;
let and = \p q. p q p;
let or = \p q. p p q;
let not = \p. p false true;
let succ = \n f x. f (n f x);
let add = \m n f x. m f (n f x);
let mul = \m n f. m (n f);
let pred = \n f x. n (\g h. h (g f)) (\u. x) (\u. u);
let sub = \m n. n pred m;
let is_zero = \n. n (\x. false) true;
let pair = \a b s. s a b;
let fst = \p. p true;
let snd = \p. p false;
"

/-- The statements of the program in the text; none if it holds no program. -/
def Program.statementsOf (source : String) : List Statement :=
  match parse source with
  | .ok p => p.statements
  | .error _ => []

/-- The standard definitions. -/
def standardBindings : List Statement :=
  Program.statementsOf standardText

/-- The program with the standard definitions before its own statements. -/
def Program.withStandard (p : Program) : Program :=
  ⟨standardBindings ++ p.statements⟩

end LambdaCalculus
