import LambdaCalculus.Command.Arguments

/-!
# What the command says about itself

* `usageText` is the summary of its options.
* `helpText` is its help.
* `usageErrorText` is what it says when it is called wrongly.
-/

namespace LambdaCalculus.Command

/-- The summary of the options. -/
def usageText : String :=
  r"usage: ulc [-h] [-e EXPR] [--prelude] [--max-steps N] [--trace] [--numeral]
           [--indices] [--ascii] [--recursion-limit N] [-v]
           [file]
"

/-- The help. -/
def helpText : String :=
  usageText ++ r"
Evaluate an untyped lambda calculus program in normal order.

positional arguments:
  file                  program file to evaluate (reads standard input when
                        omitted)

options:
  -h, --help            show this help message and exit
  -e EXPR, --expr EXPR  evaluate EXPR instead of reading a file
  --prelude             make the standard Church-encoded definitions available
  --max-steps N         stop with an error after N reduction steps
  --trace               print every intermediate term
  --numeral             print the result as an integer when it is a Church
                        numeral
  --indices             print bound variables as de Bruijn indices
  --ascii               print '\' instead of 'λ'
  --recursion-limit N   raise the interpreter recursion limit for deeply
                        nested terms
  -v, --verbose         log progress (-v) or every reduction step (-vv) to
                        stderr
"

/-- What the command says when it is called wrongly. -/
def usageErrorText (error : UsageError) : String :=
  usageText ++ "ulc: error: " ++ String.ofList error.message ++ "\n"

end LambdaCalculus.Command
