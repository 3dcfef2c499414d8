import LambdaCalculus.Evaluation
import LambdaCalculus.Program.Meaning
import LambdaCalculus.Program.Standard
import LambdaCalculus.Scope

/-!
# From text to normal form

* `Program.term` is the term of a program that was read from a text, with its names resolved.
* `load` is the term of a text.
* `run` is the normal form of a text, within an optional budget of steps.
-/

namespace LambdaCalculus

/-- The term of a program, with its names resolved; `source` is the text that it was read from. -/
def Program.term (limit : Nat) (standard : Bool) (source : String) (p : Program) :
    Except Fault Term := do
  let p := if standard then p.withStandard else p
  let named ← (p.meaning limit).mapError (Fault.withSource source)
  named.resolved limit

/-- The term of the program in the text, with or without the standard definitions. -/
def load (limit : Nat) (standard : Bool) (source : String) : Except Fault Term := do
  let p ← Program.parse source
  p.term limit standard source

/-- The normal form of the program in the text. -/
def run (bounds : Bounds) (standard : Bool) (budget : Option Int) (source : String) :
    Except Fault Term := do
  let t ← load bounds.depth standard source
  evaluateWithin bounds (fun _ _ => pure ()) budget t

end LambdaCalculus
