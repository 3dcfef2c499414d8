import LambdaCalculus.Term.Nesting
import LambdaCalculus.Term.Numeral

/-!
# Evaluation

Evaluation repeats the head step.  It can go on for ever, so it runs under `Bounds`: how deep a term
may be nested, and how many steps are taken before evaluation is given up as `Fault.unfinished`.  A
*budget* is another thing: a number of steps that the caller asks for.

* `walk` takes up to a number of steps and shows each term it reaches to a visitor, which may act in
  any monad that knows faults.
* `firstSteps` takes so many steps, and does not mind if more could follow.
* `evaluate` goes on to the normal form.
* `evaluateWithin` does so within an optional budget.
* `countNumeral` reads the natural number that a term stands for: it applies the term to two free
  variables that no program can name, and counts how often the first is applied around the second.
-/

namespace LambdaCalculus

/-- How far evaluation may go. -/
structure Bounds where
  depth : Nat
  /-- The number of steps taken before evaluation is given up. -/
  patience : Nat
  deriving DecidableEq, Repr

/-- The bounds where nothing else is said. -/
def Bounds.standard : Bounds := ⟨5000, 0x4000000000000000⟩

section
variable {m : Type → Type} [Monad m] [MonadExceptOf Fault m]

/-- The value of a computation, its fault passed on as one during the activity. -/
def guarded {α : Type} (activity : Activity) : Except Fault α → m α
  | .ok a => pure a
  | .error fault => throw (fault.during activity)

/-- Up to `n` steps from `t`, numbered from `k + 1` on: the visitor sees the number and the term of
each step, and the last term is the value.  Ends early at a normal form. -/
@[specialize] def walk (limit : Nat) (visit : Nat → Term → m Unit) :
    Nat → Nat → Term → m Term
  | 0, _, t => pure t
  | n + 1, k, t => do
    match ← guarded .reduction (t.stepWithin limit) with
    | none => pure t
    | some u =>
      visit (k + 1) u
      walk limit visit n (k + 1) u

/-- A number of steps as a counter takes it. -/
def checkedCount (n : Int) : m Nat :=
  if n < 0 || maxBudget < n then throw .hugeBudget else pure n.toNat

/-- A budget of steps as a counter takes it. -/
def checkedBudget (budget : Int) : m Nat :=
  if budget < 0 then throw (.negativeBudget budget) else checkedCount budget

/-- The first `n` steps, or all of them if there are fewer. -/
@[specialize] def firstSteps (bounds : Bounds) (visit : Nat → Term → m Unit) (n : Int)
    (t : Term) : m Term := do
  let n ← checkedCount n
  walk bounds.depth visit n 0 t

/-- Steps until there is none left. -/
@[specialize] def evaluate (bounds : Bounds) (visit : Nat → Term → m Unit) (t : Term) : m Term := do
  let last ← walk bounds.depth visit bounds.patience 0 t
  if ← guarded .reduction (last.reducibleWithin bounds.depth) then throw .unfinished
  pure last

/-- Steps until there is none left, or until a budget is spent; then it is a fault if there would
be another. -/
@[specialize] def evaluateWithin (bounds : Bounds) (visit : Nat → Term → m Unit) :
    Option Int → Term → m Term
  | none, t => evaluate bounds visit t
  | some budget, t => do
    let n ← checkedBudget budget
    let last ← walk bounds.depth visit n 0 t
    match last.reducibleWithin bounds.depth with
    | .ok true => throw (.stepLimit n last)
    | .ok false => pure last
    | .error fault => throw fault

/-! ## Numerals -/

/-- The free variable that stands for the successor when a numeral is counted. -/
def succName : String := "#succ"

/-- The free variable that stands for zero when a numeral is counted. -/
def zeroName : String := "#zero"

/-- Counts on from `count` on a term that is already evaluated, for at most so many successors. -/
@[specialize] def countFrom (bounds : Bounds) (visit : Nat → Term → m Unit) :
    Nat → Nat → Term → m (Option Nat)
  | 0, _, _ => throw .unfinished
  | fuel + 1, count, t =>
    match t with
    | .free x => pure (if x = zeroName then some count else none)
    | .app (.free x) inner => do
      if x = succName then
        countFrom bounds visit fuel (count + 1) (← evaluate bounds visit inner)
      else pure none
    | _ => pure none

/-- The natural number that the term is a Church numeral of, if it is one of any. -/
@[specialize] def countNumeral (bounds : Bounds) (visit : Nat → Term → m Unit) (t : Term) :
    m (Option Nat) := do
  let probe ← evaluate bounds visit (.app (.app t (.free succName)) (.free zeroName))
  countFrom bounds visit bounds.patience 0 probe

end

end LambdaCalculus
