import LambdaCalculus.Fault
import LambdaCalculus.Text.Digit

/-!
# Integers as arguments

An integer is written with decimal digits of any script, perhaps with a sign in front, perhaps with
single underscores between digits, and perhaps with blanks around it.  The blanks are those of ASCII
except the four separator controls, and the spaces of Unicode 14.

* `integer?` reads a whole text as an integer.
-/

namespace LambdaCalculus.Text

/-- May `c` stand around an integer? -/
def isSpace (c : Char) : Bool :=
  let n := c.toNat
  (0x09 ≤ n && n ≤ 0x0d) || n = 0x20 || n = 0x85 || n = 0xa0 || n = 0x1680 ||
    (0x2000 ≤ n && n ≤ 0x200a) || n = 0x2028 || n = 0x2029 || n = 0x202f || n = 0x205f || n = 0x3000

/-- The text without the blanks at its ends. -/
def trimmed (s : List Char) : List Char :=
  ((s.dropWhile isSpace).reverse.dropWhile isSpace).reverse

/-- The digits of a text that begins with a digit, ends with one, and in between holds digits and
single underscores. -/
def groupedDigits? : List Char → Option (List Char)
  | [] => none
  | [c] => if isDigit c then some [c] else none
  | c :: '_' :: rest => if isDigit c then (groupedDigits? rest).map (c :: ·) else none
  | c :: rest => if isDigit c then (groupedDigits? rest).map (c :: ·) else none

/-- The natural number of a text of digits, unless there are too many. -/
def natural? (s : List Char) : Option Nat := do
  let ds ← groupedDigits? s
  if maxDigits < ds.length then none else some (ofDigits ds)

/-- The integer that the text writes. -/
def integer? (s : List Char) : Option Int :=
  match trimmed s with
  | '-' :: rest => (natural? rest).map fun n => -(n : Int)
  | '+' :: rest => (natural? rest).map fun n => (n : Int)
  | rest => (natural? rest).map fun n => (n : Int)

end LambdaCalculus.Text
