import LambdaCalculus.Fault
import LambdaCalculus.Term

/-!
# Church numerals

The number `n` is the term `λf. λx. f (f (… x))` with `n` applications of `f`: closed, and with its
indices in place.  A character is the numeral of its code point.

* `Term.numeral` is the numeral of a natural number.
* `Term.ofInt` and `Term.ofText` are the literals of a program, where the number may be negative and
  the text may be no single character.
-/

namespace LambdaCalculus.Term

/-- `n` applications of `f` to `x`, both seen from under the two binders of a numeral. -/
def nest (n : Nat) : Term :=
  n.repeat (.app (.bound 1 "f")) (.bound 0 "x")

/-- The Church numeral of `n`. -/
def numeral (n : Nat) : Term :=
  .lam "f" (.lam "x" (nest n))

/-- The Church numeral of an integer, if it is natural. -/
def ofInt (n : Int) : Except Fault Term :=
  if n < 0 then throw .negativeNumeral else pure (numeral n.toNat)

/-- The Church numeral of the code point of the only character of the text. -/
def ofText (text : String) : Except Fault Term :=
  match text.toList with
  | [c] => pure (numeral c.toNat)
  | _ => throw (.notOneCharacter text)

end LambdaCalculus.Term
