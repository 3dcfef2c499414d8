import LambdaCalculus.Proofs.Evaluation
import LambdaCalculus.Proofs.Program.Loading
import LambdaCalculus.Proofs.Term.Anonymous
import Mathlib.Data.List.Forall2

/-!
# Evaluation with indices follows evaluation with names

Without names, a head step of the textbooks' calculus is a head step of the calculus with indices,
and the names that a term keeps for display play no part in its steps.  So the two evaluations of a
program run side by side, and at every moment they stand at the same term but for names.

* `step?_nameless` — a step with names alone, once they are resolved and forgotten.
* `forall₂_path` — paths that begin at the same term stay together.
* `named_simulation` — the terms that a loaded program shows are those of evaluation with names.
-/

namespace LambdaCalculus

/-- A step of a term with names alone, once its names are resolved and forgotten. -/
theorem Named.step?_nameless (supply : Supply) (t : Named) :
    (t.nameless []).step? = (t.step? supply).map (nameless []) := by
  induction t with
  | var x | lam x b => rfl
  | app f a ihf iha =>
    cases f with
    | var x => rfl
    | lam x b =>
      have hfill := nameless_subst supply (List.not_mem_nil (a := x)) (List.forall_mem_nil _)
        (a := a) (b := b)
      have hbeta := Term.beta_eq_fill (a.below_nameless []) (b.below_nameless [x])
      exact congrArg some (hbeta.trans hfill.symm)
    | app f c =>
      rw [nameless_app, nameless_app, Term.step?, ← nameless_app, ihf, step?, Option.map_map,
        Option.map_map]
      rfl

/-- Paths that begin at the same term, but for names, stay together. -/
theorem forall₂_path (supply : Supply) (n : Nat) {v : Named} {u : Term}
    (h : v.nameless [] = u.anonymous) :
    List.Forall₂ (fun v u => v.nameless [] = u.anonymous) (v :: v.path supply n) (u :: u.path n) := by
  induction n generalizing v u with
  | zero => exact .cons h .nil
  | succ n ih =>
    have hstep := (v.step?_nameless supply).symm.trans (h ▸ u.step?_anonymous)
    rw [Named.path, Term.path]
    cases hu' : u.step? with
    | none =>
      rw [hu', Option.map_none, Option.map_eq_none_iff] at hstep
      rw [hstep]
      exact .cons h .nil
    | some u' =>
      rw [hu', Option.map_some, Option.map_eq_some_iff] at hstep
      obtain ⟨v', hv', h'⟩ := hstep
      rw [hv']
      exact .cons h (ih h')

/-- The terms that a loaded program shows are those that evaluation with names goes through, from
the meaning of the program with its indices forgotten, whatever fresh names it chooses: there are as
many, and each is the same but for the names of binders once its own names are resolved. -/
theorem named_simulation {limit : Nat} {standard : Bool} {source : String} {t : Term}
    (hload : load limit standard source = .ok t) (supply : Supply) :
    ∃ p m, Program.parse source = .ok p ∧
      Settles (fun limit => (if standard then p.withStandard else p).meaning limit) (.ok m) ∧
      ∀ n, ∃ us, Settles (fun limit => shown limit n t) (.ok us) ∧
        List.Forall₂
          (fun v u => ∃ r, Settles (fun limit => v.term.resolved limit) (.ok r) ∧
            r.anonymous = u.anonymous)
          (m.named :: m.named.path supply n) (t :: us) := by
  obtain ⟨p, lets, body, hp, hmeans, rfl⟩ := exists_means_of_load hload
  have hlexical := hmeans.spelled_letIn.lexical
  refine ⟨p, _, hp, hmeans.settles_meaning, fun n => ⟨_, settles_shown n _, ?_⟩⟩
  have hstart : (body.letIn lets).named.nameless [] = ((body.letIn lets).resolve []).anonymous := by
    rw [Named.nameless, Term.term_named, Term.resolve_erased hlexical]
  refine (forall₂_path supply n hstart).imp fun v u h => ?_
  exact ⟨_, Term.settles_resolved v.term, h⟩

/-- In `(λx y. x) y` the inner binder has to be renamed before the step. -/
theorem named_simulation_renamed :
    load 5 false "(\\x y. x) y" = .ok (.app (.lam "x" (.lam "y" (.bound 1 "x"))) (.free "y")) ∧
    ∃ p m, Program.parse "(\\x y. x) y" = .ok p ∧
      Settles (fun limit => p.meaning limit) (.ok m) ∧
      ∀ n, ∃ us, Settles
          (fun limit => shown limit n (.app (.lam "x" (.lam "y" (.bound 1 "x"))) (.free "y")))
          (.ok us) ∧
        List.Forall₂
          (fun v u => ∃ r, Settles (fun limit => v.term.resolved limit) (.ok r) ∧
            r.anonymous = u.anonymous)
          (m.named :: m.named.path .primes n)
          (.app (.lam "x" (.lam "y" (.bound 1 "x"))) (.free "y") :: us) := by
  have hload : load 5 false "(\\x y. x) y" =
      .ok (.app (.lam "x" (.lam "y" (.bound 1 "x"))) (.free "y")) := by
    unfold load Program.parse lex
    rw [String.toList_ofList]
    decide +kernel
  exact ⟨hload, named_simulation hload .primes⟩

end LambdaCalculus
