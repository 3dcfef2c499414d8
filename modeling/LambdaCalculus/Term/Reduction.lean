import LambdaCalculus.Term

/-!
# Head reduction

Evaluation is in normal order and lazy to the end: the only redex ever contracted is the one at the
head of the spine.  Arguments and the bodies of abstractions are left as they are.

* `Term.reducible` says whether a term has a redex at its head.
* `Term.step?` contracts it, and is `none` on a term that has none.
* `Term.step?_induction` is how a property of steps is proved.
* `Term.after?` is the term after a given number of steps, as long as there are so many.
-/

namespace LambdaCalculus.Term

/-- Is `t` an abstraction? -/
def isLam : Term → Bool
  | .lam _ _ => true
  | _ => false

/-- Has the term a redex at the head of its spine? -/
def reducible : Term → Bool
  | .app f _ => f.isLam || f.reducible
  | _ => false

/-- One head step; `none` on a term that is not reducible. -/
def step? : Term → Option Term
  | .app (.lam _ b) a => some (beta b a)
  | .app (.app f a) c => (step? (.app f a)).map (.app · c)
  | _ => none

/-- The term after exactly `n` head steps; `none` if a term on the way is not reducible. -/
def after? : Nat → Term → Option Term
  | 0, t => some t
  | n + 1, t => t.step?.bind (after? n)

/-- What holds of the contraction of a redex, and of a spine whenever it holds of the head alone, holds
of every step. -/
@[elab_as_elim] theorem step?_induction {P : Term → Term → Prop}
    (contract : ∀ x b a, P (.app (.lam x b) a) (beta b a))
    (spine : ∀ {f g : Term} (c : Term), f.step? = some g → P f g → P (.app f c) (.app g c))
    {t u : Term} (h : t.step? = some u) : P t u := by
  induction t generalizing u with
  | bound i x | free x | lam x b => cases h
  | app f a ihf iha =>
    cases f with
    | bound i x | free x => cases h
    | lam x b =>
      cases h
      exact contract x b a
    | app f c =>
      obtain ⟨g, hg, rfl⟩ := Option.map_eq_some_iff.mp h
      exact spine a hg (ihf hg)

theorem isSome_step? (t : Term) : t.step?.isSome = t.reducible := by
  induction t with
  | bound i x | free x | lam x b => rfl
  | app f a ihf iha =>
    cases f with
    | bound i x | free x | lam x b => rfl
    | app f c => simpa [step?, reducible, isLam] using ihf

end LambdaCalculus.Term
