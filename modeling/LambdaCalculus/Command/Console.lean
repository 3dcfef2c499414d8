import LambdaCalculus.Command.Directory

/-!
# Consoles

The command talks to a *console*: it reads its input and files from it, and writes output and
errors to it.  Any monad can be a console.

* `Console` is what a monad has to offer.
* `Rehearsal` is a console without a system: everything to be read is laid out beforehand in a
  `Setting`, and everything written is kept in a `Transcript`.
-/

namespace LambdaCalculus.Command

/-- What the command needs of its surroundings. -/
class Console (m : Type → Type) where
  /-- Writes to the output. -/
  say : String → m Unit
  /-- Writes to the errors. -/
  complain : String → m Unit
  input : m ByteArray
  fileBytes : String → m (Except Unreadable ByteArray)

/-- What there is to be read. -/
structure Setting where
  input : ByteArray
  directory : Directory

/-- What has been written. -/
structure Transcript where
  out : String
  err : String
  deriving DecidableEq, Repr

/-- The console of a rehearsal. -/
abbrev Rehearsal := ReaderT Setting (StateM Transcript)

instance : Console Rehearsal where
  say s := modify fun t => { t with out := t.out ++ s }
  complain s := modify fun t => { t with err := t.err ++ s }
  input := do return (← read).input
  fileBytes name := do return (← read).directory.read name

end LambdaCalculus.Command
