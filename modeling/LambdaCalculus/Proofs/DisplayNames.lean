import LambdaCalculus.Proofs.Term.Anonymous
import LambdaCalculus.Proofs.Walking

/-!
# Display names play no part in evaluation

Two terms that differ in nothing but the names of binders and bound variables are evaluated side by
side: under the same bounds as many terms are shown, each differs from the other in nothing but such
names, and evaluation comes to the same end.  A free variable is another thing, it is known by its
name alone; the two by which a numeral is counted are free.

* `after?_anonymous` — the terms that evaluation reaches.
* `Walks.anonymous`, `traced_anonymous` — a walk, and an evaluation as one who watches it sees it.
* `countNumeral_anonymous` — the count of a numeral.
* `evaluation_ignores_display_names` — for two terms.
-/

namespace LambdaCalculus

open Term

theorem Term.after?_anonymous (n : Nat) (t : Term) :
    t.anonymous.after? n = (t.after? n).map anonymous := by
  induction n generalizing t with
  | zero => rfl
  | succ n ih =>
    rw [after?, after?, step?_anonymous]
    cases t.step? with
    | none => rfl
    | some u => exact ih u

/-! ## Walks -/

/-- A walk without names is the same walk. -/
theorem Walks.anonymous {limit n : Nat} {t : Term} {us : List Term} {r : Except Fault Term}
    (h : Walks limit n t us r) :
    Walks limit n t.anonymous (us.map Term.anonymous) (r.map Term.anonymous) := by
  induction h with
  | spent t => exact .spent _
  | ended n h => exact .ended n (by rw [stepWithin_anonymous, h]; rfl)
  | failed n h => exact .failed n (by rw [stepWithin_anonymous, h]; rfl)
  | step h _ ih => exact .step (by rw [stepWithin_anonymous, h]; rfl) ih

theorem finish_anonymous (limit : Nat) (last : Term) :
    finish limit last.anonymous = (finish limit last).map anonymous := by
  rw [finish, finish, reducibleWithin_anonymous]
  rcases last.reducibleWithin limit with fault | _ | _ <;> rfl

/-- An evaluation without names shows the same terms without theirs, and comes to the same. -/
theorem traced_anonymous (bounds : Bounds) (t : Term) :
    traced bounds none t.anonymous =
      ((traced bounds none t).1.map anonymous, (traced bounds none t).2.map anonymous) := by
  obtain ⟨us, r, hwalks, htraced, -⟩ := traced_none bounds t
  obtain ⟨vs, s, hwalks', htraced', -⟩ := traced_none bounds t.anonymous
  obtain ⟨rfl, rfl⟩ := hwalks'.unique hwalks.anonymous
  rw [htraced, htraced']
  cases r with
  | error fault => rfl
  | ok last => exact congrArg (·, us.map anonymous) (finish_anonymous bounds.depth last)

theorem evaluate_anonymous (bounds : Bounds) (t : Term) :
    evaluate bounds silent t.anonymous = (evaluate bounds silent t).map anonymous := by
  rw [evaluate_eq_traced, evaluate_eq_traced, traced_anonymous]

/-! ## Numerals -/

theorem countFrom_anonymous (bounds : Bounds) (fuel count : Nat) (t : Term) :
    countFrom bounds silent fuel count t.anonymous = countFrom bounds silent fuel count t := by
  induction fuel generalizing count t with
  | zero => rfl
  | succ fuel ih =>
    cases t with
    | bound i x | free x | lam x b => rfl
    | app f inner =>
      cases f with
      | bound i x | lam x b | app g c => rfl
      | free x =>
        simp only [anonymous, countFrom, evaluate_anonymous]
        split
        · cases evaluate bounds silent inner with
          | error fault => rfl
          | ok u => exact ih (count + 1) u
        · rfl

/-- A term without names is counted as the same number, or not counted for the same reason. -/
theorem countNumeral_anonymous (bounds : Bounds) (t : Term) :
    countNumeral bounds silent t.anonymous = countNumeral bounds silent t := by
  have hprobe : app (app t.anonymous (free succName)) (free zeroName) =
      (app (app t (free succName)) (free zeroName)).anonymous := rfl
  rw [countNumeral, countNumeral, hprobe, evaluate_anonymous]
  cases evaluate bounds silent (app (app t (free succName)) (free zeroName)) with
  | error fault => rfl
  | ok probe => exact countFrom_anonymous bounds bounds.patience 0 probe

/-! ## Two terms -/

/-- Terms that are the same but for the names of binders and bound variables reach as many terms, and
each is the same but for such names as the other's.  Whatever the bounds, that is so of the terms that
their evaluations show, whose indexed forms are the same text, and of what the evaluations come to;
and the terms are counted as the same number, or not counted for the same reason. -/
theorem evaluation_ignores_display_names {t u : Term} (h : t.anonymous = u.anonymous) :
    t.indexed = u.indexed ∧
    (∀ n, (t.after? n).map anonymous = (u.after? n).map anonymous ∧
      (t.after? n).map indexed = (u.after? n).map indexed) ∧
    ∀ bounds,
      (traced bounds none t).2.map anonymous = (traced bounds none u).2.map anonymous ∧
      (traced bounds none t).2.map indexed = (traced bounds none u).2.map indexed ∧
      (traced bounds none t).1.map anonymous = (traced bounds none u).1.map anonymous ∧
      countNumeral bounds silent t = countNumeral bounds silent u := by
  have hindexed : indexed ∘ anonymous = indexed := funext indexed_anonymous
  have hafter (n : Nat) : (t.after? n).map anonymous = (u.after? n).map anonymous := by
    rw [← after?_anonymous, ← after?_anonymous, h]
  have htraced (bounds : Bounds) := (traced_anonymous bounds t).symm.trans
    ((congrArg (traced bounds none) h).trans (traced_anonymous bounds u))
  refine ⟨?_, ?_, ?_⟩
  · rw [← indexed_anonymous t, ← indexed_anonymous u, h]
  · intro n
    refine ⟨hafter n, ?_⟩
    rw [← hindexed, ← Option.map_map, ← Option.map_map, hafter n]
  · intro bounds
    have hshown := congrArg Prod.snd (htraced bounds)
    refine ⟨hshown, ?_, congrArg Prod.fst (htraced bounds), ?_⟩
    · rw [← hindexed, ← List.map_map, ← List.map_map]
      exact congrArg (List.map indexed) hshown
    · rw [← countNumeral_anonymous bounds t, ← countNumeral_anonymous bounds u, h]

/-- `(λx. x (λy. x y)) #zero` with names on bound variables that clash with those of free ones, and an
index that points to no binder. -/
def Term.clashing : Term :=
  app (lam "#succ" (app (bound 0 "#zero") (lam "#zero" (app (bound 1 "#succ") (bound 7 "#zero")))))
    (free "#zero")

/-- The same term with other names. -/
def Term.distinct : Term :=
  app (lam "x" (app (bound 0 "x") (lam "y" (app (bound 1 "x") (bound 7 "z"))))) (free "#zero")

/-- Both take one step, and are then shown as the same text. -/
theorem evaluation_ignores_clashing_names : clashing.anonymous = distinct.anonymous ∧
    (traced ⟨5, 5⟩ none clashing).2.map indexed = (traced ⟨5, 5⟩ none distinct).2.map indexed ∧
    (traced ⟨5, 5⟩ none distinct).2.map indexed = ["(#zero λ. (#zero #6))".toList] ∧
    countNumeral ⟨5, 5⟩ silent clashing = countNumeral ⟨5, 5⟩ silent distinct := by
  have hsame : clashing.anonymous = distinct.anonymous := rfl
  obtain ⟨-, -, hbounds⟩ := evaluation_ignores_display_names hsame
  obtain ⟨-, hindexed, -, hcount⟩ := hbounds ⟨5, 5⟩
  exact ⟨hsame, hindexed, by decide, hcount⟩

end LambdaCalculus
