import LambdaCalculus.Proofs.Confluence
import LambdaCalculus.Proofs.Counting
import LambdaCalculus.Proofs.Normalization

/-!
# Which terms are counted as a number

A term is counted by applying it to two free variables, evaluating what comes out, and evaluating
the argument of each application of the first that is found.  Nothing else is reduced, and still no
number is missed: a term is counted as `n` exactly if its application to the two variables is
convertible, by contractions anywhere, to `n` applications of the first around the second.

* `Term.successors n` — the applications of the first variable around the second.
* `reduces_of_countNumeral` — what is counted as `n` reduces to them.
* `HeadFirst.exists_counts` — a reduction to them, put in order, is the one that counting goes
  through.
* `countNumeral_iff_converts` — the two together.
-/

namespace LambdaCalculus

open Term

/-- `n` applications of the variable that stands for the successor around the one for zero. -/
def Term.successors (n : Nat) : Term :=
  n.repeat (.app (.free succName)) (.free zeroName)

theorem successors_succ (n : Nat) :
    successors (n + 1) = app (free succName) (successors n) := rfl

/-- The applications have no redex. -/
theorem not_beta_successors (n : Nat) (u : Term) : ¬ Beta (successors n) u := by
  induction n generalizing u with
  | zero => rintro ⟨⟩
  | succ n ih =>
    rw [successors_succ]
    intro h
    cases h with
    | fn h _ => cases h
    | arg _ h => exact ih _ h

/-! ## What is counted is a number -/

theorem reduces_of_countFrom {bounds : Bounds} {fuel count m : Nat} {t : Term}
    (h : countFrom bounds silent fuel count t = .ok (some m)) :
    ∃ n, m = count + n ∧ t.Reduces (successors n) := by
  induction fuel generalizing count t with
  | zero => cases h
  | succ fuel ih =>
    cases t with
    | free x =>
      by_cases hx : x = zeroName
      · subst hx
        rw [countFrom_zero] at h
        cases h
        exact ⟨0, rfl, .refl⟩
      · rw [countFrom, if_neg hx] at h
        cases h
    | app f inner =>
      cases f with
      | free x =>
        by_cases hx : x = succName
        · subst hx
          rw [countFrom_succ] at h
          obtain ⟨u, hu, h⟩ := bind_eq_ok.mp h
          obtain ⟨n, rfl, hn⟩ := ih h
          have hinner : inner.Reduces (successors n) :=
            (leads_of_evaluate hu).1.reduces.trans hn
          exact ⟨n + 1, by omega, hinner.arg (free succName)⟩
        · rw [countFrom, if_neg hx] at h
          cases h
      | _ => cases h
    | _ => cases h

/-- What is counted as `n`, whatever the bounds, reduces to `n` applications. -/
theorem reduces_of_countNumeral {bounds : Bounds} {t : Term} {n : Nat}
    (h : countNumeral bounds silent t = .ok (some n)) :
    (app (app t (free succName)) (free zeroName)).Reduces (successors n) := by
  obtain ⟨probe, hprobe, h⟩ := bind_eq_ok.mp h
  obtain ⟨m, hm, hreduces⟩ := reduces_of_countFrom h
  rw [hm, Nat.zero_add]
  exact (leads_of_evaluate hprobe).1.reduces.trans hreduces

/-! ## Every number is counted -/

/-- A reduction to `n` applications, put in order, leads to a term that is counted as `n`. -/
theorem Term.HeadFirst.exists_counts {n : Nat} {t : Term} (h : HeadFirst t (successors n)) :
    ∃ u, t.Leads u ∧ Counts n u := by
  induction n generalizing t with
  | zero =>
    cases h with
    | free h => exact ⟨_, h, .zero⟩
  | succ n ih =>
    rw [successors_succ] at h
    cases h with
    | @app t f g a c h hf ha =>
      cases hf with
      | free hf =>
        obtain ⟨u, hu, hcounts⟩ := ih ha
        exact ⟨_, h.trans (hf.app a), .succ hu hcounts⟩

/-- A term is counted as `n` exactly if its application to the two variables is convertible to `n`
applications of the first around the second: it is so as soon as some bounds let it be counted at
all, and then all bounds that are wide enough do. -/
theorem countNumeral_iff_converts (t : Term) (n : Nat) :
    (Settles (fun bounds : Bounds => countNumeral bounds silent t) (.ok (some n)) ↔
      (app (app t (free succName)) (free zeroName)).Converts (successors n)) ∧
    ((∃ bounds, countNumeral bounds silent t = .ok (some n)) ↔
      (app (app t (free succName)) (free zeroName)).Converts (successors n)) := by
  have hsound (h : ∃ bounds, countNumeral bounds silent t = .ok (some n)) :
      (app (app t (free succName)) (free zeroName)).Converts (successors n) := by
    obtain ⟨bounds, h⟩ := h
    exact (reduces_of_countNumeral h).converts
  have hcomplete (h : (app (app t (free succName)) (free zeroName)).Converts (successors n)) :
      Settles (fun bounds : Bounds => countNumeral bounds silent t) (.ok (some n)) := by
    have hreduces := h.reduces (not_beta_successors n)
    obtain ⟨u, hu, hcounts⟩ := (HeadFirst.of_reduces hreduces).exists_counts
    exact settles_countNumeral hu hcounts
  have hreached (h : Settles (fun bounds : Bounds => countNumeral bounds silent t) (.ok (some n))) :
      ∃ bounds, countNumeral bounds silent t = .ok (some n) := by
    obtain ⟨bounds, hb⟩ := h.reached
    exact ⟨bounds, hb bounds le_rfl⟩
  exact ⟨⟨hsound ∘ hreached, hcomplete⟩, ⟨hsound, hreached ∘ hcomplete⟩⟩

end LambdaCalculus
