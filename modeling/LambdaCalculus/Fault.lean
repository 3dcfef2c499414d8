import LambdaCalculus.Term
import LambdaCalculus.Text.Position
import LambdaCalculus.Text.Quoted

/-!
# Faults

Everything that can stop an operation of this library is a `Fault`, named by its cause.  The wording
is in one place, `Fault.message`.

* `Mistake` and `Malformation` say what is wrong with the text of a program and with a program
  whose text is in order.
* `Blank` names what can be missing from a call of the command.
* `Activity` names what went too deep when a term is too deeply nested for the depth allowed.
* `located` shows where in the text a fault lies.
* `Fault.reported` tells the faults that are the program's own, and that a command reports as an
  error, from those that escape it.
-/

namespace LambdaCalculus

/-- What is wrong with the text of a program. -/
inductive Mistake where
  | unexpectedCharacter (c : Char)
  | unknownEscape (c : Char)
  | unexpectedToken
  | unexpectedEnd
  /-- A single expression was asked for. -/
  | notOneExpression
  deriving DecidableEq, Repr

/-- What is wrong with a program whose text is in order. -/
inductive Malformation where
  | noStatements
  | endsInBinding
  /-- A statement before the last is an expression. -/
  | earlyExpression
  | emptyApplication
  | noParameters
  deriving DecidableEq, Repr

/-- The activities that walk a term or a tree and can find it too deep. -/
inductive Activity where
  | desugaring
  | nameResolution
  /-- Looking for a redex and contracting it. -/
  | reduction
  deriving DecidableEq, Repr

/-- The things that a command may be asked to take and not be given. -/
inductive Blank where
  | program
  | budget
  | depth
  deriving DecidableEq, Repr

/-- Why an operation gave no answer. -/
inductive Fault where
  /-- The text `source` is not what was asked for. -/
  | mistake (what : Mistake) (span : Span) (source : String)
  /-- The program makes no sense; the text is there once it is known. -/
  | malformed (what : Malformation) (span : Option Span) (source : Option String)
  | exhausted (activity : Activity)
  /-- The budget of `limit` steps is spent and `last` is still reducible. -/
  | stepLimit (limit : Nat) (last : Term)
  /-- A term is nested too deeply, outside the activities that say so themselves. -/
  | tooDeep
  | negativeIndex
  | negativeNumeral
  /-- A literal for a single character has this text. -/
  | notOneCharacter (text : String)
  | longNumeral (digits : Nat)
  | negativeBudget (budget : Int)
  /-- A number of steps is not one that a counter takes. -/
  | hugeBudget
  | hugeDepth
  | blank (what : Blank)
  /-- A binder was taken from a scope that has none. -/
  | emptyScope
  /-- A file name holds the character of code point zero. -/
  | embeddedNull
  /-- An input is not text. -/
  | undecodable
  /-- Patience ended before the reduction did. -/
  | unfinished
  deriving DecidableEq, Repr

/-- The longest run of digits that is read as a number. -/
def maxDigits : Nat := 4300

/-- The largest budget of steps: what a signed 64-bit counter holds. -/
def maxBudget : Int := 0x7fffffffffffffff

/-- The largest depth: what a signed 32-bit counter holds. -/
def maxDepth : Nat := 0x7fffffff

namespace Mistake

/-- The wording of a mistake. -/
def message : Mistake → List Char
  | .unexpectedCharacter c => "Unexpected character ".toList ++ Text.quoted [c]
  | .unknownEscape c => "Unknown escape sequence ".toList ++ Text.quoted ['\\', c]
  | .unexpectedToken => "Unexpected token".toList
  | .unexpectedEnd => "Unexpected end of input".toList
  | .notOneExpression => "Expected a single expression".toList

end Mistake

namespace Malformation

/-- The wording of a malformation. -/
def message : Malformation → List Char
  | .noStatements => "Program has no statements".toList
  | .endsInBinding => "Program must end with an expression, not a binding".toList
  | .earlyExpression => "Only the final statement may be an expression".toList
  | .emptyApplication => "Application without expressions".toList
  | .noParameters => "Abstraction without parameters".toList

end Malformation

namespace Activity

/-- The activity's name in messages. -/
def name : Activity → List Char
  | .desugaring => "desugaring".toList
  | .nameResolution => "name resolution".toList
  | .reduction => "reduction".toList

end Activity

namespace Blank

/-- The wording when the thing is needed. -/
def message : Blank → List Char
  | .program => "Expected a string".toList
  | .budget => "'<' not supported between instances of 'list' and 'int'".toList
  | .depth => "'list' object cannot be interpreted as an integer".toList

end Blank

/-- A decimal number. -/
def decimal (n : Int) : List Char :=
  (toString n).toList

/-- A message with the place it is about: nothing where no place is known, the bare offsets where
the text is not known, else the line, the column and the piece of text. -/
def located (message : List Char) : Option Span → Option (List Char) → List Char
  | none, _ => message
  | some p, none =>
    message ++ " @ offset ".toList ++ decimal p.start ++ '-' :: decimal p.stop
  | some p, some text =>
    let (line, column) := p.lineColumn text
    message ++ " @ ".toList ++ decimal line ++ ':' :: decimal column ++ ": ".toList ++
      Text.quoted (p.extract text)

/-- The message that a term is nested too deeply for the activity of this name. -/
def exhaustedMessage (activity : List Char) : List Char :=
  "maximum recursion depth exceeded during ".toList ++ activity ++
    "; the term is nested too deeply".toList

/-- The message that a budget of steps is spent. -/
def stepLimitMessage (limit : Int) : List Char :=
  "no normal form reached within ".toList ++ decimal limit ++ " reduction steps".toList

namespace Fault

/-- The wording of a fault; a fault that is only a signal has none. -/
def message? : Fault → Option (List Char)
  | .mistake what p source => some (located what.message (some p) (some source.toList))
  | .malformed what p source => some (located what.message p (source.map (·.toList)))
  | .exhausted activity => some (exhaustedMessage activity.name)
  | .stepLimit limit _ => some (stepLimitMessage limit)
  | .tooDeep => none
  | .negativeIndex => some "De Bruijn indices must be non-negative".toList
  | .negativeNumeral => some "Church numerals must be non-negative".toList
  | .notOneCharacter text =>
    some ("Expected a single character, got ".toList ++ Text.quoted text.toList)
  | .longNumeral digits =>
    some ("Exceeds the limit (".toList ++ decimal maxDigits ++
      " digits) for integer string conversion: value has ".toList ++ decimal digits ++
      " digits; use sys.set_int_max_str_digits() to increase the limit".toList)
  | .negativeBudget budget =>
    some ("Step budget must be non-negative, got ".toList ++ decimal budget)
  | .hugeBudget =>
    some ("Stop argument for islice() must be None or an integer: ".toList ++
      "0 <= x <= sys.maxsize.".toList)
  | .hugeDepth => some "Python int too large to convert to C int".toList
  | .blank what => some what.message
  | .emptyScope => some "pop from empty list".toList
  | .embeddedNull => some "embedded null byte".toList
  | .undecodable => none
  | .unfinished => none

/-- Is the fault one that the command reports as an error of the program? -/
def reported : Fault → Bool
  | .mistake .. | .malformed .. | .exhausted _ | .stepLimit .. => true
  | _ => false

/-- Tells a malformed program's text to a fault that knows the place but not the text. -/
def withSource (source : String) : Fault → Fault
  | .malformed what (some p) none => .malformed what (some p) (some source)
  | f => f

/-- Names the activity that met a term nested too deeply. -/
def during (activity : Activity) : Fault → Fault
  | .tooDeep => .exhausted activity
  | f => f

end Fault

end LambdaCalculus
