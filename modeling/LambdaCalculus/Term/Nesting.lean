import LambdaCalculus.Fault
import LambdaCalculus.Term.Reduction

/-!
# Limits on nesting

Work on a term goes down into it, and how far down it may go is limited.  The *room* of an
operation is the number of levels it may still enter; a leaf takes one.  An operation that needs
more room than it has answers `Fault.tooDeep`, and does no more work than the room allows.

* `Term.fits` says that a term is nested no deeper than the room.
* `Term.shiftWithin`, `Term.substWithin`, `Term.betaWithin`, `Term.equalWithin`,
  `Term.reducibleWithin` and `Term.stepWithin` are the operations of the calculus under a limit.
  Where they answer, they answer what the unlimited operation does.
* `Term.shiftWithin` also refuses to make an index negative, and reports what it meets first from
  the left.
-/

namespace LambdaCalculus.Term

/-- Is the term nested no deeper than `room` levels? -/
def fits : Nat → Term → Bool
  | 0, _ => false
  | room + 1, .lam _ b => b.fits room
  | room + 1, .app f a => f.fits room && a.fits room
  | _ + 1, _ => true

/-- Is there room to put `u` into the term?  The term is entered, and `u` is lifted at each of its
binders. -/
def substFits (u : Term) : Nat → Term → Bool
  | 0, _ => false
  | room + 1, .lam _ b => u.fits room && substFits u room b
  | room + 1, .app f a => substFits u room f && substFits u room a
  | _ + 1, _ => true

/-- Adds `d` to every index that is at least the cutoff, unless one would become negative. -/
def shiftWithin (d : Int) : Nat → Int → Term → Except Fault Term
  | 0, _, _ => throw .tooDeep
  | _ + 1, c, .bound i x =>
    if (i : Int) < c then pure (.bound i x)
    else if (i : Int) + d < 0 then throw .negativeIndex
    else pure (.bound ((i : Int) + d).toNat x)
  | _ + 1, _, .free x => pure (.free x)
  | room + 1, c, .lam x b => do
    let b ← shiftWithin d room (c + 1) b
    pure (.lam x b)
  | room + 1, c, .app f a => do
    let f ← shiftWithin d room c f
    let a ← shiftWithin d room c a
    pure (.app f a)

/-- Replaces the variable of index `j` by `u`. -/
def substWithin (room : Nat) (j : Int) (u t : Term) : Except Fault Term :=
  if substFits u room t then pure (subst j u t) else throw .tooDeep

/-- Contracts `(λ. body) arg`: there has to be room for the argument, for the substitution and for
its result. -/
def betaWithin (room : Nat) (body arg : Term) : Except Fault Term :=
  if arg.fits room then
    let lifted := arg.shift 1 0
    if substFits lifted room body then
      let merged := subst 0 lifted body
      if merged.fits room then pure (merged.shift (-1) 0) else throw .tooDeep
    else throw .tooDeep
  else throw .tooDeep

/-- Are the terms equal, names included?  They are compared from the left, up to the first
difference. -/
def equalWithin : Nat → Term → Term → Except Fault Bool
  | 0, _, _ => throw .tooDeep
  | room + 1, .lam x b, .lam y c => if x = y then equalWithin room b c else pure false
  | room + 1, .app f a, .app g c => do
    if ← equalWithin room f g then equalWithin room a c else pure false
  | _ + 1, t, u => pure (t = u)

/-- Has the term a redex at the head of its spine? -/
def reducibleWithin : Nat → Term → Except Fault Bool
  | 0, _ => throw .tooDeep
  | _ + 1, .app (.lam _ _) _ => pure true
  | room + 1, .app (.app f a) _ => reducibleWithin room (.app f a)
  | _ + 1, _ => pure false

/-- One head step, `none` on a term that is not reducible. -/
def stepWithin : Nat → Term → Except Fault (Option Term)
  | 0, _ => throw .tooDeep
  | room + 1, .app (.lam _ b) a => do
    let t ← betaWithin room b a
    pure (some t)
  | room + 1, .app (.app f a) c => do
    let t ← stepWithin room (.app f a)
    pure (t.map (.app · c))
  | _ + 1, _ => pure none

end LambdaCalculus.Term
