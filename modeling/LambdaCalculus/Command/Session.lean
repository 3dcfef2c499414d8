import LambdaCalculus.Command.Console
import LambdaCalculus.Command.Usage
import LambdaCalculus.Program.Load
import LambdaCalculus.Term.Rendering
import LambdaCalculus.Text.Decoding

/-!
# A session of the command

The command reads its arguments, finds the program, evaluates it and shows the result.

* The program is the value of `--expr`, else the file, else the input; `origin` names it.
* A fault of the program is shown as an error and the status is one.  Any other fault is not the
  program's doing, and the command stops short with it.
* With `--trace` the term and every term on the way are shown as they are reached.
* With `--numeral` the result is shown as a number if it is one; otherwise it is shown as a term,
  unless the trace has just shown it.

`command` is the whole of it, for any console.
-/

namespace LambdaCalculus.Command

/-- How the command ends. -/
inductive Exit where
  | status (code : Nat)
  /-- With a message to be shown, and the status that failure has. -/
  | failure (message : String)
  deriving DecidableEq, Repr

/-- The depth below which the command cannot run at all. -/
def leastDepth : Nat := 30

/-! ## What is shown -/

/-- `error: `, in bold red where there is colour. -/
def errorLead (colour : Bool) : String :=
  if colour then "\x1b[1m\x1b[31merror: \x1b[0m" else "error: "

/-- The arrow before a step, in cyan where there is colour. -/
def stepLead (colour : Bool) : String :=
  if colour then "\x1b[36m→ \x1b[0m" else "→ "

/-- The form in which the options ask for terms. -/
def Options.form (opts : Options) (t : Term) : List Char :=
  if opts.indices then t.indexed else t.rendered opts.ascii

/-- The name of the place that the program comes from. -/
def Options.origin (opts : Options) : String :=
  match opts.expr, opts.file with
  | .absent, none => "<stdin>"
  | .absent, some name => if name = "-" then "<stdin>" else name
  | _, _ => "<expr>"

/-- Is it told what is going on? -/
def Options.informs (opts : Options) : Bool := 1 ≤ opts.verbosity

/-- Is it told what happens step by step? -/
def Options.details (opts : Options) : Bool := 2 ≤ opts.verbosity

/-- The bounds that the options ask for. -/
def Options.bounds (opts : Options) : Bounds :=
  match opts.depth with
  | .given depth => ⟨depth, Bounds.standard.patience⟩
  | _ => .standard

section
variable {m : Type → Type} [Monad m] [Console m]

/-- Work at a console that a fault may stop. -/
abbrev Work (m : Type → Type) := ExceptT Fault m

/-- Writes to the output. -/
def say (s : String) : Work m Unit :=
  ExceptT.lift (Console.say s)

/-- Writes to the errors. -/
def complain (s : String) : Work m Unit :=
  ExceptT.lift (Console.complain s)

/-- The form of a term that is not too deep to be shown. -/
def formed (opts : Options) (form : Term → List Char) (t : Term) : Work m String :=
  if t.fits opts.bounds.depth then pure (String.ofList (form t)) else throw .tooDeep

/-- Tells of a term under a heading, where every detail is told. -/
def detail (opts : Options) (heading : String) (t : Term) : Work m Unit :=
  if opts.details then do
    let s ← formed opts (Term.rendered false) t
    complain (heading ++ s ++ "\n")
  else pure ()

/-- Tells of a step. -/
def detailStep (opts : Options) (k : Nat) (t : Term) : Work m Unit :=
  tryCatch (detail opts ("DEBUG ulc.core.reduce: step " ++ toString k ++ ": ") t) fun fault =>
    throw (fault.during .reduction)

/-! ## What is done -/

/-- The text that the bytes hold. -/
def decoded (bytes : ByteArray) : Work m String :=
  ExceptT.mk (pure (Text.decode bytes))

/-- The text of the input. -/
def inputText : Work m String := do
  decoded (← ExceptT.lift Console.input)

/-- The text of the file of this name, or the reason why there is none. -/
def fileText (name : String) : Work m (Except Unreadable String) := do
  if name.toList.contains '\x00' then throw .embeddedNull
  match ← ExceptT.lift (Console.fileBytes name) with
  | .error reason => pure (.error reason)
  | .ok bytes => return .ok (← decoded bytes)

/-- The text of the program, or the reason why there is none; a blank program has the blank text. -/
def source (opts : Options) : Work m (Except Unreadable String) := do
  match opts.expr, opts.file with
  | .given text, _ => pure (.ok text)
  | .blank, _ => pure (.ok "")
  | .absent, none => return .ok (← inputText)
  | .absent, some name => if name = "-" then return .ok (← inputText) else fileText name

/-- The term of the program. -/
def loaded (opts : Options) (text : String) : Work m Term := do
  let p ← ExceptT.mk (pure (Program.parse text))
  if opts.details then
    complain ("DEBUG ulc.interpreter: parsed " ++ toString p.statements.length ++
      " statement(s)\n")
  let t ← ExceptT.mk (pure (p.term opts.bounds.depth opts.standard text))
  detail opts "DEBUG ulc.interpreter: resolved: " t
  pure t

/-- Tells of a step, and shows the term that it leads to if the options ask for it. -/
def showStep (colour : Bool) (opts : Options) (k : Nat) (t : Term) : Work m Unit := do
  detailStep opts k t
  if opts.trace then
    let s ← formed opts opts.form t
    say (stepLead colour ++ s ++ "\n")

/-- The normal form of a term, every term on the way being shown if the options ask for it. -/
def reduced (colour : Bool) (opts : Options) (t : Term) : Work m Term := do
  if opts.trace then
    let s ← formed opts opts.form t
    say (s ++ "\n")
  match opts.maxSteps with
  | .absent => evaluateWithin opts.bounds (showStep colour opts) none t
  | .blank => throw (.blank .budget)
  | .given budget => evaluateWithin opts.bounds (showStep colour opts) (some budget) t

/-- The result of the program, and the number that it is shown as. -/
def result (colour : Bool) (opts : Options) (text : String) : Work m (Term × Option Nat) := do
  let t ← loaded opts text
  let r ← reduced colour opts t
  if opts.numeral then
    let n ← countNumeral opts.bounds (detailStep opts) r
    pure (r, n)
  else pure (r, none)

/-- Shows the result. -/
def present (opts : Options) : Term × Option Nat → Work m Unit
  | (_, some n) => say (String.ofList (decimal n) ++ "\n")
  | (r, none) =>
    if opts.trace then pure ()
    else do
      let s ← formed opts opts.form r
      say (s ++ "\n")

/-- Evaluates the program of a text and shows the result, or the fault if it is the program's. -/
def evaluateText (colour : Bool) (opts : Options) (text : String) : Work m Exit := do
  match ← (ExceptT.lift (result colour opts text).run : Work m _) with
  | .ok r =>
    present opts r
    pure (.status 0)
  | .error fault =>
    if fault.reported then
      complain (opts.origin ++ ": " ++ errorLead colour ++
        String.ofList (fault.message?.getD []) ++ "\n")
      pure (.status 1)
    else throw fault

/-- Sees to it that the depth is one at which the command can run. -/
def checkDepth (opts : Options) : Work m Unit :=
  match opts.depth with
  | .absent => pure ()
  | .blank => throw (.blank .depth)
  | .given depth =>
    if maxDepth < depth then throw .hugeDepth
    else if depth < leastDepth then throw .tooDeep
    else pure ()

/-- Does what the options ask for. -/
def perform (colour : Bool) (opts : Options) : Work m Exit := do
  checkDepth opts
  match ← source opts with
  | .error reason =>
    pure (.failure (errorLead colour ++ "cannot read " ++
      String.ofList (Text.quoted opts.origin.toList) ++ ": " ++ String.ofList reason.reason))
  | .ok text =>
    if opts.informs then complain ("INFO ulc.cli: evaluating " ++ opts.origin ++ "\n")
    if opts.expr = .blank then throw (.blank .program)
    evaluateText colour opts text

/-- The command, called with these arguments. -/
def command (colour : Bool) (arguments : List String) : Work m Exit :=
  match readArguments arguments with
  | .error .help => do
    say helpText
    pure (.status 0)
  | .error (.usage error) => do
    complain (usageErrorText error)
    pure (.status 2)
  | .ok opts => perform colour opts

end

end LambdaCalculus.Command
