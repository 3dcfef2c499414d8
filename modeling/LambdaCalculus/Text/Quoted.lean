import LambdaCalculus.Text.Printable

/-!
# Quoted text

Messages show a piece of a program between quotes, on one line, with nothing invisible in it.  The
quote is `'` unless the text holds a `'` and no `"`.  Inside, a backslash and the quote in use are
escaped by a backslash; newline, carriage return and tab are written `\n`, `\r` and `\t`; any other
character that is not printable is written by its code point in hexadecimal, with two, four or
eight digits.

* `quoted` is the quoted form of a text.
-/

namespace LambdaCalculus.Text

/-- The lower-case hexadecimal digit of `n`, for `n < 16`. -/
def hexDigit (n : Nat) : Char :=
  Char.ofNat (if n < 10 then n + 0x30 else n + 0x57)

/-- The last `width` hexadecimal digits of `n`. -/
def hexDigits : Nat → Nat → List Char
  | 0, _ => []
  | width + 1, n => hexDigits width (n / 16) ++ [hexDigit (n % 16)]

/-- The form of `c` by its code point: the shortest of the widths two, four and eight that
holds it. -/
def escapedPoint (c : Char) : List Char :=
  if c.toNat < 0x100 then '\\' :: 'x' :: hexDigits 2 c.toNat
  else if c.toNat < 0x10000 then '\\' :: 'u' :: hexDigits 4 c.toNat
  else '\\' :: 'U' :: hexDigits 8 c.toNat

/-- How `c` is written between two `quote`s. -/
def quotedChar (quote c : Char) : List Char :=
  if c = quote || c = '\\' then ['\\', c]
  else if c = '\n' then ['\\', 'n']
  else if c = '\r' then ['\\', 'r']
  else if c = '\t' then ['\\', 't']
  else if printable c then [c]
  else escapedPoint c

/-- The quote that encloses `s`: `'` where `s` leaves the choice. -/
def quoteFor (s : List Char) : Char :=
  if '\'' ∈ s ∧ '"' ∉ s then '"' else '\''

/-- The quoted form of a text. -/
def quoted (s : List Char) : List Char :=
  let quote := quoteFor s
  quote :: s.flatMap (quotedChar quote) ++ [quote]

end LambdaCalculus.Text
