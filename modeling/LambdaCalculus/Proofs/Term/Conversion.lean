import LambdaCalculus.Proofs.Term.Path
import Mathlib.Logic.Relation

/-!
# Reduction anywhere

Evaluation contracts the redex at the head of the spine and no other.  What it finds is compared
here with what can be found by contracting any redex, inside arguments and under binders too, in any
order, and with what can be found by also going back.

* `Term.Beta` — one redex is contracted, at any position.
* `Term.Reduces` — any number of redexes are, one after the other.
* `Term.Converts` — some are contracted and some contractions are undone.
* `Beta.of_step`, `Leads.reduces` — evaluation is one of these reductions.
-/

namespace LambdaCalculus.Term

open Relation

/-- One redex is contracted, at any position of the term. -/
inductive Beta : Term → Term → Prop where
  /-- The redex is the whole term. -/
  | contract (x : String) (b a : Term) : Beta (app (lam x b) a) (beta b a)
  /-- The redex is under a binder. -/
  | lam (x : String) {b c : Term} (h : Beta b c) : Beta (lam x b) (lam x c)
  /-- The redex is in what is applied. -/
  | fn {f g : Term} (h : Beta f g) (a : Term) : Beta (app f a) (app g a)
  /-- The redex is in the argument. -/
  | arg (f : Term) {a c : Term} (h : Beta a c) : Beta (app f a) (app f c)

/-- Redexes are contracted one after the other. -/
abbrev Reduces : Term → Term → Prop := ReflTransGen Beta

/-- Redexes are contracted, and contractions undone, one after the other. -/
abbrev Converts : Term → Term → Prop := EqvGen Beta

variable {t u f g a c : Term}

theorem Reduces.converts (h : t.Reduces u) : t.Converts u :=
  EqvGen.reflTransGen_le_eqvGen Beta t u h

/-! ## Reduction in a part of a term -/

theorem Reduces.lam (h : t.Reduces u) (x : String) : (lam x t).Reduces (lam x u) :=
  ReflTransGen.lift (Term.lam x) (fun _ _ => Beta.lam x) _ _ h

theorem Reduces.fn (h : f.Reduces g) (a : Term) : (app f a).Reduces (app g a) :=
  ReflTransGen.lift (fun f => app f a) (fun _ _ h => Beta.fn h a) _ _ h

theorem Reduces.arg (f : Term) (h : a.Reduces c) : (app f a).Reduces (app f c) :=
  ReflTransGen.lift (app f) (fun _ _ => Beta.arg f) _ _ h

theorem Reduces.app (hf : f.Reduces g) (ha : a.Reduces c) : (app f a).Reduces (app g c) :=
  (hf.fn a).trans (ha.arg g)

/-! ## Evaluation -/

/-- A head step contracts a redex. -/
theorem Beta.of_step (h : t.step? = some u) : Beta t u :=
  step?_induction .contract (fun c _ ih => .fn ih c) h

theorem Leads.reduces (h : t.Leads u) : t.Reduces u :=
  h.keeps (fun ht hstep => ht.tail (.of_step hstep)) .refl

end LambdaCalculus.Term
