import LambdaCalculus.Proofs.Normalization
import LambdaCalculus.Proofs.Term.Contraction

/-!
# A step and the surroundings of a term

What stands around a term takes no part in the step that the term makes.  A term put in the place of
an index from outside, or a binder slipped in around it, is carried along: the step can be made before
or after.  Both are substitutions for all indices at once, and these commute with a contraction.

* `step?_rename`, `step?_subst`, `step?_shift` — a step before or after.
* `reducible_of_step?` — where there is a step, there is a redex to be seen.
* `step_commutes_with_surroundings` — apart from limits, for the operations that meet one.
-/

namespace LambdaCalculus.Term

theorem reducible_of_step? {t u : Term} (h : t.step? = some u) : t.reducible = true := by
  rw [← isSome_step?, h, Option.isSome_some]

theorem exists_step?_of_reducible {t : Term} (h : t.reducible = true) : ∃ u, t.step? = some u := by
  rw [← isSome_step?] at h
  exact Option.isSome_iff_exists.mp h

/-! ## Before or after -/

section
variable {t u : Term} (h : t.step? = some u)
include h

theorem step?_rename (ρ : Nat → Nat) : (t.rename ρ).step? = some (u.rename ρ) := by
  rw [rename_eq_instantiate, rename_eq_instantiate]
  exact step?_instantiate h _

/-- A term may be put in the place of an index before the step or after it. -/
theorem step?_subst (j : Nat) (v : Term) : (subst j v t).step? = some (subst j v u) := by
  rw [subst_eq_instantiate, subst_eq_instantiate]
  exact step?_instantiate h _

/-- Indices may be raised before the step or after it. -/
theorem step?_shift (n c : Nat) : (t.shift n c).step? = some (u.shift n c) := by
  rw [shift_eq_rename, shift_eq_rename]
  exact step?_rename h _

end

/-- A term that is reducible makes a step, and stays reducible when another is put in the place of an
index, or when indices are raised; the step that it makes then is the one that it made, with the same
put in or the same indices raised. -/
theorem step_commutes_with_surroundings {t : Term} (ht : t.reducible = true) (j : Nat) (v : Term)
    (n c : Nat) :
    ∃ u, Settles (fun room => t.stepWithin room) (.ok (some u)) ∧
      (∃ s r, Settles (fun room => substWithin room j v t) (.ok s) ∧
        Settles (fun room => s.reducibleWithin room) (.ok true) ∧
        Settles (fun room => s.stepWithin room) (.ok (some r)) ∧
        Settles (fun room => substWithin room j v u) (.ok r)) ∧
      ∃ s r, Settles (fun room => shiftWithin n room c t) (.ok s) ∧
        Settles (fun room => s.reducibleWithin room) (.ok true) ∧
        Settles (fun room => s.stepWithin room) (.ok (some r)) ∧
        Settles (fun room => shiftWithin n room c u) (.ok r) := by
  have hsteps {t u : Term} (h : t.step? = some u) :
      Settles (fun room => t.reducibleWithin room) (.ok true) ∧
        Settles (fun room => t.stepWithin room) (.ok (some u)) := by
    rw [← reducible_of_step? h, ← h]
    exact ⟨settles_reducibleWithin t, settles_stepWithin t⟩
  have hmovable (s : Term) : s.Movable n c := movable_of_nonneg (by omega) c s
  obtain ⟨u, hu⟩ := exists_step?_of_reducible ht
  obtain ⟨hsubst, hsubst'⟩ := hsteps (step?_subst hu j v)
  obtain ⟨hshift, hshift'⟩ := hsteps (step?_shift hu n c)
  refine ⟨u, (hsteps hu).2, ⟨subst j v t, subst j v u, ?_, hsubst, hsubst', ?_⟩,
    ⟨t.shift n c, u.shift n c, ?_, hshift, hshift', ?_⟩⟩
  · exact settles_substWithin j v t
  · exact settles_substWithin j v u
  · exact settles_shiftWithin (hmovable t)
  · exact settles_shiftWithin (hmovable u)

/-- `(λx. x #1 #2) #0` steps to `#0 #0 #1`.  With `#3` in the place of index `0` it steps to
`#3 #3 #1`, though under the binder it was `#4` that stood there; with the indices from `1` on raised by
two, to `#0 #0 #3`. -/
theorem step_commutes_with_surroundings_under_binder :
    (app (lam "x" (app (app (bound 0 "x") (bound 1 "y")) (bound 2 "w"))) (bound 0 "y")).reducible =
      true ∧
    ∃ u, Settles (fun room => stepWithin room
        (app (lam "x" (app (app (bound 0 "x") (bound 1 "y")) (bound 2 "w"))) (bound 0 "y")))
        (.ok (some u)) ∧
      Settles (fun room => substWithin room 0 (bound 3 "z") u)
        (.ok (app (app (bound 3 "z") (bound 3 "z")) (bound 1 "w"))) ∧
      Settles (fun room => shiftWithin 2 room 1 u)
        (.ok (app (app (bound 0 "y") (bound 0 "y")) (bound 3 "w"))) := by
  have ht : (app (lam "x" (app (app (bound 0 "x") (bound 1 "y")) (bound 2 "w")))
      (bound 0 "y")).reducible = true := rfl
  obtain ⟨u, hu, ⟨s, r, hs, -, hr, hur⟩, ⟨s', r', hs', -, hr', hur'⟩⟩ :=
    step_commutes_with_surroundings ht 0 (bound 3 "z") 2 1
  refine ⟨ht, u, hu, ?_, ?_⟩
  · cases hs.unique (settles_substWithin 0 (bound 3 "z") _)
    cases hr.unique (settles_stepWithin _)
    exact hur
  · cases hs'.unique (settles_shiftWithin (movable_of_nonneg (by decide) _ _))
    cases hr'.unique (settles_stepWithin _)
    exact hur'

end LambdaCalculus.Term
