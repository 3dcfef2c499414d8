import LambdaCalculus.Command.Option
import LambdaCalculus.Text.Integer

/-!
# Reading the command line

Every argument is classified before any is acted on.

* `--` by itself ends the options; all arguments after it are plain.
* An argument that does not begin with `-`, and `-` by itself, is plain.
* The name of an option is that option.  `NAME=VALUE` attaches a value to it, and so does a value
  that follows a short name without a gap.  A long name may be cut short.
* What else begins with `-` is plain if it is a negative number or holds a space; otherwise it is an
  option that nobody knows.

Then the arguments are taken from left to right.  The first plain one that is not the value of an
option is the file.  An option without a value may carry further short options after its letter.
Values are checked as they are met, except that `--` attached to an option leaves it blank; what was
not recognised is reported last.

* `classify` and `classifyAll` classify.
* `Switch.cluster` says which options one argument holds.
* `readArguments` gives the options, or the refusal.
-/

namespace LambdaCalculus.Command

/-- What is wrong with a command line. -/
inductive UsageError where
  | expectedArgument (option : Switch)
  /-- A value is attached to an option that takes none. -/
  | ignoredArgument (option : Switch) (value : List Char)
  | invalidNumber (option : Switch) (value : List Char)
  | tooSmall (option : Switch) (least value : Int)
  /-- A name is short for more than one option. -/
  | ambiguous (argument : List Char) (candidates : List Switch)
  | unrecognized (arguments : List (List Char))
  deriving DecidableEq, Repr

/-- A complaint about an option. -/
def aboutOption (o : Switch) (complaint : List Char) : List Char :=
  "argument ".toList ++ o.label ++ ": ".toList ++ complaint

/-- The wording of what is wrong. -/
def UsageError.message : UsageError → List Char
  | .expectedArgument o => aboutOption o "expected one argument".toList
  | .ignoredArgument o v => aboutOption o ("ignored explicit argument ".toList ++ Text.quoted v)
  | .invalidNumber o v => aboutOption o ("invalid int value: ".toList ++ Text.quoted v)
  | .tooSmall o least v =>
    aboutOption o ("must be at least ".toList ++ decimal least ++ ", got ".toList ++ decimal v)
  | .ambiguous a candidates =>
    "ambiguous option: ".toList ++ a ++ " could match ".toList ++
      (", ".toList).intercalate (candidates.map Switch.long)
  | .unrecognized as => "unrecognized arguments: ".toList ++ [' '].intercalate as

/-- Why a command line gives no options. -/
inductive Refusal where
  /-- It asks what the command is for. -/
  | help
  | usage (error : UsageError)
  deriving DecidableEq, Repr

/-! ## Classes of arguments -/

/-- What an argument is taken for. -/
inductive Argument where
  /-- A file or a value. -/
  | plain
  /-- The end of the options. -/
  | separator
  /-- An option, by its short name or by its long one, with what is attached to it. -/
  | option (which : Switch) (short : Bool) (attached : Option (List Char))
  | unknown
  deriving DecidableEq, Repr

/-- Is the argument a negative number: digits after the sign, or a point among them that digits
follow?  A newline at the end does not count. -/
def isNegativeNumber (a : List Char) : Bool :=
  match a with
  | '-' :: rest =>
    let rest := if rest.getLast? = some '\n' then rest.dropLast else rest
    match rest.dropWhile Text.isDigit with
    | [] => rest ≠ []
    | '.' :: fraction => fraction ≠ [] && fraction.all Text.isDigit
    | _ => false
  | _ => false

/-- The part before the first `=` and, if there is one, the part after it. -/
def splitValue (a : List Char) : List Char × Option (List Char) :=
  match a.dropWhile (· ≠ '=') with
  | _ :: value => (a.takeWhile (· ≠ '='), some value)
  | [] => (a, none)

/-- The options that an argument could mean when it is no option's exact name: those whose long name
begins with it, or the one whose letter it begins with. -/
def candidates (a : List Char) : List (Switch × Bool × Option (List Char)) :=
  match a with
  | '-' :: '-' :: _ =>
    let (name, attached) := splitValue a
    (Switch.all.filter fun o => name.isPrefixOf o.long).map (·, false, attached)
  | '-' :: c :: rest => (Switch.ofLetter? c).toList.map (·, true, some rest)
  | _ => []

/-- The class of an argument before which no `--` stands. -/
def classify (a : List Char) : Except UsageError Argument :=
  match a with
  | '-' :: _ :: _ =>
    match Switch.ofName? a, splitValue a with
    | some (o, short), _ => pure (.option o short none)
    | none, (name, attached) =>
      match Switch.ofName? name, candidates a with
      | some (o, short), _ => pure (.option o short attached)
      | none, [(o, short, attached)] => pure (.option o short attached)
      | none, [] => pure (if isNegativeNumber a || a.contains ' ' then .plain else .unknown)
      | none, several => throw (.ambiguous a (several.map (·.1)))
  | _ => pure .plain

/-- The classes of all arguments. -/
def classifyAll : List (List Char) → Except UsageError (List (List Char × Argument))
  | [] => pure []
  | a :: rest =>
    if a = ['-', '-'] then pure ((a, .separator) :: rest.map (·, .plain))
    else do
      let c ← classify a
      let later ← classifyAll rest
      pure ((a, c) :: later)

/-! ## Options in one argument -/

/-- The options that one argument holds: those without a value and, at the end, perhaps one that
takes a value, with the value if it is attached. -/
structure Cluster where
  simple : List Switch
  valued : Option (Switch × Option (List Char))
  deriving DecidableEq, Repr

/-- The options in the letters after that of `o`. -/
def Switch.clusterFrom (o : Switch) : List Char → Except UsageError Cluster
  | [] => pure (if o.takesValue then ⟨[], some (o, none)⟩ else ⟨[o], none⟩)
  | c :: rest =>
    if o.takesValue then pure ⟨[], some (o, some (c :: rest))⟩
    else match ofLetter? c with
      | some next => do
        let later ← next.clusterFrom rest
        pure ⟨o :: later.simple, later.valued⟩
      | none => throw (.ignoredArgument o (c :: rest))

/-- The options in an argument that begins with `o`. -/
def Switch.cluster (o : Switch) (short : Bool) (attached : Option (List Char)) :
    Except UsageError Cluster :=
  match attached with
  | none => o.clusterFrom []
  | some text =>
    if o.takesValue then pure ⟨[], some (o, some text)⟩
    else if short && text ≠ [] then o.clusterFrom text
    else throw (.ignoredArgument o text)

/-! ## Acting on arguments -/

/-- The options with one more that has no value. -/
def Options.turnOn (opts : Options) : Switch → Except Refusal Options
  | .help => throw .help
  | .prelude => pure { opts with standard := true }
  | .trace => pure { opts with trace := true }
  | .numeral => pure { opts with numeral := true }
  | .indices => pure { opts with indices := true }
  | .ascii => pure { opts with ascii := true }
  | .verbose => pure { opts with verbosity := opts.verbosity + 1 }
  | .expr | .maxSteps | .recursionLimit => pure opts

/-- The number that is the value of an option. -/
def numberAtLeast (least : Int) (o : Switch) (value : List Char) : Except Refusal Int :=
  match Text.integer? value with
  | none => throw (.usage (.invalidNumber o value))
  | some n => if n < least then throw (.usage (.tooSmall o least n)) else pure n

/-- The options with the value of one set. -/
def Options.setValue (opts : Options) (o : Switch) (value : List Char) : Except Refusal Options :=
  match o with
  | .expr => pure { opts with expr := .given (String.ofList value) }
  | .maxSteps => do
    let n ← numberAtLeast 0 o value
    pure { opts with maxSteps := .given n }
  | .recursionLimit => do
    let n ← numberAtLeast 1 o value
    pure { opts with depth := .given n.toNat }
  | _ => pure opts

/-- The options with the value of one left blank. -/
def Options.leaveBlank (opts : Options) : Switch → Options
  | .expr => { opts with expr := .blank }
  | .maxSteps => { opts with maxSteps := .blank }
  | .recursionLimit => { opts with depth := .blank }
  | _ => opts

/-- The options with the value that is attached to one.  Even there `--` is no value. -/
def Options.setAttached (opts : Options) (o : Switch) (value : List Char) :
    Except Refusal Options :=
  if value = ['-', '-'] then pure (opts.leaveBlank o) else opts.setValue o value

/-- Is the file still to come? -/
inductive Expecting where
  | file
  | nothing
  deriving DecidableEq, Repr

/-- Acts on the arguments; those not recognised are collected in reverse order. -/
def act : Options → Expecting → List (List Char) → List (List Char × Argument) →
    Except Refusal Options
  | opts, _, [], [] => pure opts
  | _, _, extras@(_ :: _), [] => throw (.usage (.unrecognized extras.reverse))
  | opts, .nothing, extras, (a, .plain) :: rest => act opts .nothing (a :: extras) rest
  | opts, .nothing, extras, (a, .separator) :: rest => act opts .nothing (a :: extras) rest
  | opts, .file, extras, (_, .separator) :: (a, .plain) :: rest =>
    act { opts with file := some (String.ofList a) } .nothing extras rest
  | opts, .file, extras, (_, .separator) :: rest => act opts .nothing extras rest
  | opts, .file, extras, (a, .plain) :: (_, .separator) :: rest =>
    act { opts with file := some (String.ofList a) } .nothing extras rest
  | opts, .file, extras, (a, .plain) :: rest =>
    act { opts with file := some (String.ofList a) } .nothing extras rest
  | opts, expecting, extras, (a, .unknown) :: rest => act opts expecting (a :: extras) rest
  | opts, expecting, extras, (_, .option o short attached) :: rest => do
    let cluster ← (o.cluster short attached).mapError .usage
    match cluster.valued with
    | none => do
      let opts ← cluster.simple.foldlM Options.turnOn opts
      act opts expecting extras rest
    | some (o, some value) => do
      let opts ← cluster.simple.foldlM Options.turnOn opts
      let opts ← opts.setAttached o value
      act opts expecting extras rest
    | some (o, none) =>
      match rest with
      | (value, .plain) :: rest => do
        let opts ← cluster.simple.foldlM Options.turnOn opts
        let opts ← opts.setValue o value
        act opts expecting extras rest
      | _ => throw (.usage (.expectedArgument o))

/-- The options that the arguments ask for. -/
def readArguments (arguments : List String) : Except Refusal Options := do
  let classified ← (classifyAll (arguments.map (·.toList))).mapError .usage
  act {} .file [] classified

end LambdaCalculus.Command
