import LambdaCalculus.Term.Reduction

/-!
# Terms as text

A term has two written forms.  The *named* form is program text: an application is `(f x)`, an
abstraction is `λx. body` with the kept name of its parameter, and a variable is its name.  The
*indexed* form leaves names to free variables: an abstraction is `λ. body` and a bound variable is
`#` and its index.  In both an abstraction stands in parentheses only where it is applied, since its
body would otherwise take in the argument.

* `Term.rendered` is the named form, with `λ` or `\` for the binder.
* `Term.indexed` is the indexed form.

Each is built in front of the text that follows it, so a term costs one pass.
-/

namespace LambdaCalculus.Term

/-- The sign that begins an abstraction: `λ`, or `\` in plain ASCII. -/
def lambdaSign (ascii : Bool) : Char :=
  if ascii then '\\' else 'λ'

/-- The named form of the term in front of `rest`. -/
def renderOnto (ascii : Bool) : Term → List Char → List Char
  | .bound _ x, rest => x.toList ++ rest
  | .free x, rest => x.toList ++ rest
  | .lam x b, rest => lambdaSign ascii :: x.toList ++ '.' :: ' ' :: b.renderOnto ascii rest
  | .app f a, rest =>
    let tail := ' ' :: a.renderOnto ascii (')' :: rest)
    '(' :: if f.isLam then '(' :: f.renderOnto ascii (')' :: tail) else f.renderOnto ascii tail

/-- The named form of a term. -/
def rendered (ascii : Bool) (t : Term) : List Char :=
  t.renderOnto ascii []

/-- The indexed form of the term in front of `rest`. -/
def indexedOnto : Term → List Char → List Char
  | .bound i _, rest => '#' :: (toString i).toList ++ rest
  | .free x, rest => x.toList ++ rest
  | .lam _ b, rest => 'λ' :: '.' :: ' ' :: b.indexedOnto rest
  | .app f a, rest =>
    let tail := ' ' :: a.indexedOnto (')' :: rest)
    '(' :: if f.isLam then '(' :: f.indexedOnto (')' :: tail) else f.indexedOnto tail

/-- The indexed form of a term. -/
def indexed (t : Term) : List Char :=
  t.indexedOnto []

end LambdaCalculus.Term
