import LambdaCalculus.Term.Nesting

/-!
# Scopes and name resolution

A *scope* is the names of the binders in sight, innermost first.  Resolution walks a term with one
scope that it extends at each binder and shortens again on the way out, also when it gives up
because the term is too deep.  A free variable whose name is in the scope becomes bound, with the
place of the nearest binder of that name as its index.  A variable that already has an index keeps
it.

Entering and leaving a binder are calls, and take levels of the room that the limit allows.  A
binder that there is no room to leave stays in the scope.

* `Scope` with `push`, `pop?` and `lookup`.
* `Calls` says how many levels it takes to enter a binder and to leave it.
* `Scoped` is the monad of work in a scope; `Scoped.under` does a piece of it below one more binder.
* `Term.resolveWith` resolves a term in the current scope, `Term.resolveIn` does so where leaving a
  binder takes no more than entering it, and `Term.resolved` in the empty scope.
-/

namespace LambdaCalculus

/-- The names of the binders in sight, innermost first. -/
structure Scope where
  names : List String
  deriving DecidableEq, Repr, Inhabited

namespace Scope

/-- The scope outside all binders. -/
def empty : Scope := ⟨[]⟩

/-- The scope just inside a binder of the name. -/
def push (x : String) (s : Scope) : Scope := ⟨x :: s.names⟩

/-- The scope just outside the innermost binder, if there is one. -/
def pop? : Scope → Option Scope
  | ⟨[]⟩ => none
  | ⟨_ :: xs⟩ => some ⟨xs⟩

/-- How many binders lie between here and the nearest one of the name. -/
def lookup (x : String) (s : Scope) : Option Nat :=
  s.names.idxOf? x

end Scope

/-- How many levels the calls take that enter a binder and leave it. -/
structure Calls where
  enter : Nat
  leave : Nat
  deriving DecidableEq, Repr

namespace Calls

/-- The calls of a runtime that has made each of them some times.  They are made in place then, and
take the one level of the method itself. -/
def settled : Calls := ⟨1, 1⟩

/-- The calls of a fresh runtime at the far end of its first descent: it has entered many binders
and left none, and leaving one still takes the level of a call out of the method. -/
def fresh : Calls := ⟨1, 2⟩

end Calls

/-- Work in a scope, which may fail; the scope outlives the failure. -/
abbrev Scoped := ExceptT Fault (StateM Scope)

namespace Scoped

/-- Enters a binder. -/
def push (x : String) : Scoped Unit :=
  modify (Scope.push x)

/-- Leaves the innermost binder. -/
def pop : Scoped Unit := do
  match (← get).pop? with
  | some s => set s
  | none => throw .emptyScope

/-- A call that goes so many levels deep, if there is room for them. -/
def call {α : Type} (levels room : Nat) (work : Scoped α) : Scoped α :=
  if levels ≤ room then work else throw .tooDeep

/-- Work below one more binder, which is left again whether the work succeeds or not. -/
def under {α : Type} (calls : Calls) (room : Nat) (x : String) (work : Scoped α) : Scoped α := do
  call calls.enter room (push x)
  let result ← tryCatch work fun fault => do
    -- without room to leave the binder, that is the fault that is passed on
    call calls.leave room pop
    throw fault
  call calls.leave room pop
  pure result

end Scoped

namespace Term

/-- Resolves the term in the current scope, with room for so many levels. -/
def resolveWithin (calls : Calls) : Nat → Term → Scoped Term
  | 0, _ => throw .tooDeep
  | _ + 1, .free x => do
    match (← get).lookup x with
    | some i => pure (.bound i x)
    | none => pure (.free x)
  | _ + 1, .bound i x => pure (.bound i x)
  | room + 1, .lam x b => do
    let b ← Scoped.under calls room x (resolveWithin calls room b)
    pure (.lam x b)
  | room + 1, .app f a => do
    let f ← resolveWithin calls room f
    let a ← resolveWithin calls room a
    pure (.app f a)

/-- Resolves the term in the current scope; a term too deep for the limit is reported as such. -/
def resolveWith (calls : Calls) (limit : Nat) (t : Term) : Scoped Term :=
  tryCatch (t.resolveWithin calls limit) fun fault => throw (fault.during .nameResolution)

/-- Resolves the term in the current scope, on a settled runtime. -/
def resolveIn (limit : Nat) (t : Term) : Scoped Term :=
  t.resolveWith .settled limit

/-- The term with its names resolved outside all binders. -/
def resolved (limit : Nat) (t : Term) : Except Fault Term :=
  ((t.resolveIn limit).run.run Scope.empty).1

end Term

end LambdaCalculus
