import LambdaCalculus.Fault

/-!
# The options of the command

* `Switch` is an option, with its long name, the letter of its short name if it has one, and whether
  a value follows it.
* `Value` is the value of an option.
* `Options` is what a command line asks for.
-/

namespace LambdaCalculus.Command

/-- An option of the command. -/
inductive Switch where
  | help
  | expr
  | prelude
  | maxSteps
  | trace
  | numeral
  | indices
  | ascii
  | recursionLimit
  /-- Tell what is going on; twice, tell every step. -/
  | verbose
  deriving DecidableEq, Repr

namespace Switch

/-- All options, in the order in which they are listed. -/
def all : List Switch :=
  [.help, .expr, .prelude, .maxSteps, .trace, .numeral, .indices, .ascii, .recursionLimit,
    .verbose]

/-- The long name. -/
def long : Switch → List Char
  | .help => "--help".toList
  | .expr => "--expr".toList
  | .prelude => "--prelude".toList
  | .maxSteps => "--max-steps".toList
  | .trace => "--trace".toList
  | .numeral => "--numeral".toList
  | .indices => "--indices".toList
  | .ascii => "--ascii".toList
  | .recursionLimit => "--recursion-limit".toList
  | .verbose => "--verbose".toList

/-- The letter of the short name. -/
def letter? : Switch → Option Char
  | .help => some 'h'
  | .expr => some 'e'
  | .verbose => some 'v'
  | _ => none

/-- Does a value follow? -/
def takesValue : Switch → Bool
  | .expr | .maxSteps | .recursionLimit => true
  | _ => false

/-- The name in messages: both names where there are two. -/
def label (o : Switch) : List Char :=
  match o.letter? with
  | some c => '-' :: c :: '/' :: o.long
  | none => o.long

/-- The option of this letter. -/
def ofLetter? (c : Char) : Option Switch :=
  all.find? fun o => o.letter? = some c

/-- The option of this name, with whether the name is the short one. -/
def ofName? (name : List Char) : Option (Switch × Bool) :=
  match name with
  | ['-', c] => (ofLetter? c).map (·, true)
  | _ => (all.find? fun o => o.long = name).map (·, false)

end Switch

/-- The value of an option, which the command line may leave out, and may leave blank where it has
the option. -/
inductive Value (α : Type) where
  | absent
  /-- The option is there without a value. -/
  | blank
  | given (a : α)
  deriving Repr, DecidableEq

/-- What a command line asks for. -/
structure Options where
  file : Option String := none
  /-- The program itself. -/
  expr : Value String := .absent
  standard : Bool := false
  maxSteps : Value Int := .absent
  trace : Bool := false
  numeral : Bool := false
  indices : Bool := false
  ascii : Bool := false
  depth : Value Nat := .absent
  /-- How often the command was asked to tell what is going on. -/
  verbosity : Nat := 0
  deriving Repr, DecidableEq

end LambdaCalculus.Command
