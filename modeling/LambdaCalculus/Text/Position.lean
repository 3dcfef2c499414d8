/-!
# Places in a text

A place in a text is a *span* of character offsets, from `start` up to but not including `stop`.
Offsets are integers: a span that was not measured on the text at hand may begin before the text or
end after it.  A negative offset counts from the end of the text, and what still lies outside is
brought to the nearest end.

* `Span.extract` is the piece of the text that a span covers.
* `Span.lineColumn` is the line and the column where it begins, both counted from one.
* `Span.join` is the smallest span over two.
-/

namespace LambdaCalculus

/-- The characters from offset `start` up to, not including, offset `stop`. -/
structure Span where
  start : Int
  stop : Int
  deriving DecidableEq, Repr, Inhabited

namespace Span

/-- The offset `i` as a place in a text of `length` characters. -/
def place (length : Nat) (i : Int) : Nat :=
  if i < 0 then (i + length).toNat else min i.toNat length

/-- The piece of the text that the span covers. -/
def extract (p : Span) (text : List Char) : List Char :=
  (text.take (place text.length p.stop)).drop (place text.length p.start)

/-- The text before the span. -/
def before (p : Span) (text : List Char) : List Char :=
  text.take (place text.length p.start)

/-- The part of a text up to and including its last newline. -/
def wholeLines (text : List Char) : List Char :=
  (text.reverse.dropWhile (· ≠ '\n')).reverse

/-- The line and the column of the span's beginning, both counted from one. -/
def lineColumn (p : Span) (text : List Char) : Int × Int :=
  ((p.before text).count '\n' + 1, p.start - (wholeLines (p.before text)).length + 1)

/-- The smallest span that covers both. -/
def join (p q : Span) : Span :=
  ⟨min p.start q.start, max p.stop q.stop⟩

end Span

end LambdaCalculus
