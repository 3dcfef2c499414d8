import LambdaCalculus.Proofs.Term.Descent

/-!
# Terms that resolution leaves alone

A term may come to resolution half resolved: some of its variables have indices already, and these
are kept, whatever name they carry and whatever the binders around them are called.  So what is left
to be done hangs on the free variables alone, and on what is in sight where they stand.  Where no free
variable is in sight of a binder of its name there is nothing to be done, and after resolution there
never is.

* `Term.StaysFree` — no free variable stands in sight of a binder of its name.
* `resolve_eq_self_iff_staysFree` — these are the terms that resolution does not change.
* `staysFree_resolve` — and those that it gives.
* `resolveIn_bind_resolveIn` — so a second resolution in the same scope adds nothing to the first.
* `resolution_fixed_points` — apart from limits, for the operation that meets one.
-/

namespace LambdaCalculus.Term

/-- No free variable stands in sight of a binder of its name, where the binders `xs` are in sight of
the term and every abstraction brings its parameter in sight of its body. -/
def StaysFree (xs : List String) (t : Term) : Prop :=
  ∀ way ys x, t.descend? xs way = some (ys, free x) → x ∉ ys

/-! ## What resolution does not change -/

theorem staysFree_iff_not_capturedIn {xs : List String} {t : Term} :
    t.StaysFree xs ↔ ¬ t.CapturedIn xs := by
  simp only [capturedIn_iff_descend?, not_exists, not_and, StaysFree]

/-- Resolution changes nothing exactly where no free variable is in sight of a binder of its name. -/
theorem resolve_eq_self_iff_staysFree {xs : List String} {t : Term} :
    resolve xs t = t ↔ t.StaysFree xs := by
  rw [resolve_eq_self_iff, staysFree_iff_not_capturedIn]

/-- A variable that resolution leaves free is in sight of no binder of its name. -/
theorem not_capturedIn_resolve (xs : List String) (t : Term) : ¬ (t.resolve xs).CapturedIn xs := by
  induction t generalizing xs with
  | bound i x => exact not_false
  | free x =>
    cases h : xs.idxOf? x with
    | none =>
      rw [resolve_free_of_none h]
      exact List.idxOf?_eq_none_iff.mp h
    | some i =>
      rw [resolve_free_of_some h]
      exact not_false
  | lam x b ih => exact ih (x :: xs)
  | app f a ihf iha => exact not_or.mpr ⟨ihf xs, iha xs⟩

theorem staysFree_resolve (xs : List String) (t : Term) : (t.resolve xs).StaysFree xs :=
  staysFree_iff_not_capturedIn.mpr (not_capturedIn_resolve xs t)

theorem resolve_resolve (xs : List String) (t : Term) :
    (t.resolve xs).resolve xs = t.resolve xs :=
  resolve_eq_self_iff.mpr (not_capturedIn_resolve xs t)

/-! ## Resolution under a limit -/

/-- A second resolution in the same scope, under the same limit, changes neither the term nor the
scope: there is room for it where there was room for the first. -/
theorem resolveIn_bind_resolveIn (limit : Nat) (t : Term) (s : Scope) :
    (t.resolveIn limit >>= resolveIn limit).run.run s = (t.resolveIn limit).run.run s := by
  have hfirst := resolveIn_run limit t s.names
  have hsecond := resolveIn_run limit (t.resolve s.names) s.names
  rw [fits_resolve, resolve_resolve] at hsecond
  by_cases hfits : t.fits limit = true
  · rw [if_pos hfits] at hfirst hsecond
    rw [bind_run_ok hfirst, hsecond, hfirst]
  · rw [if_neg hfits] at hfirst
    rw [bind_run_error hfirst, hfirst]

/-- The fixed points of resolution in a scope are the terms in which no variable without an index has
the name of an abstraction around it or of a binder of the scope.  What resolution gives is always one
of them, and where it is asked to resolve that again, in the scope as it is then and under the same
limit, nothing changes. -/
theorem resolution_fixed_points (t : Term) (s : Scope) :
    (∃ u, Settles (fun limit => ((t.resolveIn limit).run.run s).1) (.ok u) ∧
      (u = t ↔ t.StaysFree s.names) ∧ u.StaysFree s.names) ∧
    ∀ limit,
      (t.resolveIn limit >>= resolveIn limit).run.run s = (t.resolveIn limit).run.run s := by
  refine ⟨⟨t.resolve s.names, settles_resolveIn t s, ?_, ?_⟩, ?_⟩
  · exact resolve_eq_self_iff_staysFree
  · exact staysFree_resolve s.names t
  · exact fun limit => resolveIn_bind_resolveIn limit t s

/-- Half resolved, `λx. λy. x #1`, whose indexed variable carries a name of its own, is completed
once and then left alone. -/
example : resolve ["w"] (.lam "x" (.lam "y" (.app (.free "x") (.bound 1 "w")))) =
      .lam "x" (.lam "y" (.app (.bound 1 "x") (.bound 1 "w"))) ∧
    resolve ["w"] (.lam "x" (.lam "y" (.app (.bound 1 "x") (.bound 1 "w")))) =
      .lam "x" (.lam "y" (.app (.bound 1 "x") (.bound 1 "w"))) := by
  decide

end LambdaCalculus.Term
