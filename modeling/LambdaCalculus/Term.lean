/-!
# Terms of the untyped lambda calculus

A term is a variable, an abstraction or an application.  A *bound* variable carries a de Bruijn
index: the number of binders passed on the way out from the occurrence to its own binder.  A *free*
variable is known by its name alone.  Names on binders and on bound variables are kept for display
and never decide anything.

* `Term.shift d c` moves every index that is at least `c` by `d`, the cutoff `c` growing by one
  under each binder.
* `Term.subst j u` puts `u` in the place of index `j`, lifting `u` under each binder.
* `Term.beta body arg` contracts the redex `(λ. body) arg`: lift the argument over the binder, put
  it in place of index `0`, and lower the whole over the binder that is gone.
* `Term.apps` and `Term.lams` build spines of applications and towers of abstractions.

Offsets are integers, because lowering is a shift by a negative amount.  A shift below zero stops
at zero here; whether an index would have become negative is asked in
`LambdaCalculus.Term.Nesting`, where a shift can be refused.
-/

namespace LambdaCalculus

/-- A lambda term. -/
inductive Term where
  /-- A variable bound by the `index`-th enclosing binder, counted from the innermost one. -/
  | bound (index : Nat) (name : String)
  | free (name : String)
  /-- `λparam. body`. -/
  | lam (param : String) (body : Term)
  | app (fn arg : Term)
  deriving DecidableEq, Repr, Inhabited

namespace Term

/-! ## Shifting and substitution -/

/-- Adds `d` to every index that is at least the cutoff `c`, the cutoff growing under binders. -/
def shift (d : Int) : Int → Term → Term
  | c, .bound i x => if (i : Int) < c then .bound i x else .bound ((i : Int) + d).toNat x
  | _, .free x => .free x
  | c, .lam x b => .lam x (b.shift d (c + 1))
  | c, .app f a => .app (f.shift d c) (a.shift d c)

/-- Replaces the variable of index `j` by `u`, which is lifted under each binder passed. -/
def subst : Int → Term → Term → Term
  | j, u, .bound i x => if (i : Int) = j then u else .bound i x
  | _, _, .free x => .free x
  | j, u, .lam x b => .lam x (subst (j + 1) (u.shift 1 0) b)
  | j, u, .app f a => .app (subst j u f) (subst j u a)

/-- The contractum of `(λ. body) arg`. -/
def beta (body arg : Term) : Term :=
  (subst 0 (arg.shift 1 0) body).shift (-1) 0

/-! ## Spines and towers -/

/-- `h` applied to the given arguments, from left to right. -/
def apps (h : Term) (args : List Term) : Term :=
  args.foldl .app h

/-- `body` under one abstraction for each parameter, the first outermost. -/
def lams (body : Term) (params : List String) : Term :=
  params.foldr .lam body

@[simp] theorem apps_nil (h : Term) : h.apps [] = h := rfl

@[simp] theorem apps_cons (h a : Term) (as : List Term) :
    h.apps (a :: as) = (app h a).apps as := rfl

theorem apps_append (h : Term) (as bs : List Term) :
    h.apps (as ++ bs) = (h.apps as).apps bs :=
  List.foldl_append

@[simp] theorem lams_nil (b : Term) : b.lams [] = b := rfl

@[simp] theorem lams_cons (p : String) (ps : List String) (b : Term) :
    b.lams (p :: ps) = .lam p (b.lams ps) := rfl

end Term

end LambdaCalculus
