import LambdaCalculus.Proofs.Evaluation
import LambdaCalculus.Proofs.Iteration

/-!
# Counting a numeral

A term is read as a number by applying it to two free variables and counting how often the first
comes out around the second.  What comes out is evaluated only as far as the next application, so
each count goes on from where the last one ended.

* `Counts n t` — the evaluated term is counted as `n`.
* `settles_countFrom` — so it is.
* `settles_countNumeral` — a term is counted as the number that comes out of it.
* `Term.Denotes.counted` — so a term that denotes a number is counted as it.
* `Term.Denotes.exists_last` — a term that denotes a number has a last term, and it is counted as
  that number.
-/

namespace LambdaCalculus

open Term

/-- An evaluated term that is counted as `n`. -/
inductive Counts : Nat → Term → Prop where
  /-- The second of the two variables is left. -/
  | zero : Counts 0 (free zeroName)
  /-- The first stands around something that comes out as a term to count. -/
  | succ {n : Nat} {s t : Term} (hs : s.Leads t) (h : Counts n t) :
      Counts (n + 1) (app (free succName) s)

theorem Counts.step?_eq_none {n : Nat} {t : Term} (h : Counts n t) : t.step? = none := by
  cases h <;> rfl

/-- What iterates the first variable around the second comes out as a term to count. -/
theorem exists_counts_of_iterates {n : Nat} {s : Term}
    (h : Iterates (free succName) (free zeroName) n s) : ∃ t, s.Leads t ∧ Counts n t := by
  induction h with
  | zero h => exact ⟨_, h, .zero⟩
  | succ h _ ih =>
    obtain ⟨t, ht, hcounts⟩ := ih
    exact ⟨_, h, .succ ht hcounts⟩

theorem countFrom_zero (bounds : Bounds) (fuel count : Nat) :
    countFrom bounds silent (fuel + 1) count (free zeroName) = .ok (some count) := rfl

theorem countFrom_succ (bounds : Bounds) (fuel count : Nat) (s : Term) :
    countFrom bounds silent (fuel + 1) count (app (free succName) s) =
      evaluate bounds silent s >>= countFrom bounds silent fuel (count + 1) := rfl

theorem countFrom_limited (bounds : Bounds) {n : Nat} {t : Term} (h : Counts n t)
    (fuel count : Nat) : countFrom bounds silent fuel count t = .ok (some (count + n)) ∨
      ∃ fault, countFrom bounds silent fuel count t = .error fault ∧ fault.IsLimit := by
  induction h generalizing fuel count with
  | zero =>
    cases fuel with
    | zero => exact .inr ⟨.unfinished, rfl, trivial⟩
    | succ fuel => exact .inl (countFrom_zero bounds fuel count)
  | @succ n s t hs h ih =>
    cases fuel with
    | zero => exact .inr ⟨.unfinished, rfl, trivial⟩
    | succ fuel =>
      rw [countFrom_succ]
      rcases (settles_evaluate hs h.step?_eq_none).limited bounds with ht | ⟨fault, hfault, hlimit⟩
      · rw [ht, ok_bind, Nat.add_comm n, ← Nat.add_assoc]
        exact ih fuel (count + 1)
      · exact .inr ⟨fault, by rw [hfault]; rfl, hlimit⟩

theorem countFrom_reached {n : Nat} {t : Term} (h : Counts n t) :
    ∃ i : Bounds, ∀ bounds, i ≤ bounds → ∀ fuel count, n < fuel →
      countFrom bounds silent fuel count t = .ok (some (count + n)) := by
  induction h with
  | zero =>
    refine ⟨.standard, ?_⟩
    intro bounds _ fuel count hfuel
    obtain ⟨fuel, rfl⟩ := Nat.exists_eq_add_of_lt hfuel
    exact countFrom_zero bounds _ count
  | @succ n s t hs h ih =>
    obtain ⟨i, hi⟩ := ih
    obtain ⟨j, hj⟩ := (settles_evaluate hs h.step?_eq_none).reached
    obtain ⟨k, hik, hjk⟩ := exists_ge_ge i j
    refine ⟨k, ?_⟩
    intro bounds hk fuel count hfuel
    obtain ⟨fuel, rfl⟩ := Nat.exists_eq_add_of_lt hfuel
    rw [countFrom_succ, hj bounds (hjk.trans hk), ok_bind,
      hi bounds (hik.trans hk) _ _ (by omega), Nat.add_assoc, Nat.add_comm 1]

/-- An evaluated term is counted as it should, if there is patience enough. -/
theorem settles_countFrom {n : Nat} {t : Term} (h : Counts n t) :
    Settles (fun bounds : Bounds => countFrom bounds silent bounds.patience 0 t)
      (.ok (some n)) := by
  constructor
  · intro bounds
    have hcount := countFrom_limited bounds h bounds.patience 0
    rwa [Nat.zero_add] at hcount
  · obtain ⟨i, hi⟩ := countFrom_reached h
    refine ⟨⟨i.depth, max i.patience (n + 1)⟩, ?_⟩
    intro bounds hb
    have hpatience : max i.patience (n + 1) ≤ bounds.patience := hb.2
    have hbounds : i ≤ bounds := ⟨hb.1, le_trans (Nat.le_max_left ..) hb.2⟩
    rw [hi bounds hbounds _ _ (by omega), Nat.zero_add]

/-- A term is counted as the number that comes out of it. -/
theorem settles_countNumeral {n : Nat} {t u : Term}
    (hu : (t.apps [free succName, free zeroName]).Leads u) (h : Counts n u) :
    Settles (fun bounds : Bounds => countNumeral bounds silent t) (.ok (some n)) :=
  (settles_evaluate hu h.step?_eq_none).bind (settles_countFrom h)

/-- A term that denotes a number comes out as a term to count when it is applied to the two
variables. -/
theorem Term.Denotes.exists_counts {t : Term} {n : Nat} (h : t.Denotes n) :
    ∃ u, (t.apps [free succName, free zeroName]).Leads u ∧ Counts n u := by
  have hsucc : (free succName).Closed := trivial
  have hzero : (free zeroName).Closed := trivial
  exact exists_counts_of_iterates (h.iterates hsucc hzero)

/-- A term that denotes a number is counted as it. -/
theorem Term.Denotes.counted {t : Term} {n : Nat} (h : t.Denotes n) :
    Settles (fun bounds : Bounds => countNumeral bounds silent t) (.ok (some n)) := by
  obtain ⟨u, hu, hcounts⟩ := h.exists_counts
  exact settles_countNumeral hu hcounts

/-- Evaluation of a term that denotes a number comes to an end, at a term that is counted as the
number. -/
theorem Term.Denotes.exists_last {t : Term} {n : Nat} (h : t.Denotes n) :
    ∃ r, t.Leads r ∧ r.step? = none ∧
      Settles (fun bounds : Bounds => countNumeral bounds silent r) (.ok (some n)) := by
  obtain ⟨u, hu, hcounts⟩ := h.exists_counts
  obtain ⟨v, hv, hvlast⟩ := hu.exists_of_app hcounts.step?_eq_none
  obtain ⟨r, hr, hlast⟩ := hv.exists_of_app hvlast
  refine ⟨r, hr, hlast, settles_countNumeral ?_ hcounts⟩
  exact Leads.tail (hr.apps [free succName, free zeroName]) hu hcounts.step?_eq_none

end LambdaCalculus
