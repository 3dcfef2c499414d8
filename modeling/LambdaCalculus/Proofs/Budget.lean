import LambdaCalculus.Proofs.Walking

/-!
# Evaluation within a budget

A budget of steps cuts evaluation off and changes nothing else: the terms shown are the first of
those that are shown without one, the answer is that of evaluation without one, and where the budget
is spent one can go on from the last term as if there had been no break.

That is so apart from limits.  With them an evaluation can fail in ways that are its own, a spent
budget or a term too deep for the reduction, and in two that are not: a budget can be larger than
steps are counted, and the last look for a redex, after the budget is spent, does not say of itself
that it belongs to the reduction.

* `Unfolds f us r` — apart from limits, `us` is seen and what it comes to is `r`.
* `Within n t us r` — so it is for evaluation of `t` within `n` steps, whether watched or not.
* `CutsOff n t us r` — what `us` and `r` have to do with evaluation without a budget.
* `budget_truncates` — a budget only cuts off.
* `evaluate_eq_error`, `evaluate_of_deep` — what evaluation without a budget fails with.
* `budgeted_faults` — what an evaluation within a budget can fail with, and when.
-/

namespace LambdaCalculus

open Term

/-! ## Being watched, apart from limits -/

/-- Whatever the limits, the terms `us` are seen and then `r`, or some of these terms and then the
fault of a limit, and from some limits on it is `us` and `r`. -/
structure Unfolds {ι : Type} [Preorder ι] (f : ι → Except Fault Term × List Term)
    (us : List Term) (r : Except Fault Term) : Prop where
  /-- Where it is anything else, a limit was met on the way. -/
  limited : ∀ i, f i = (r, us) ∨ ∃ fault vs, f i = (.error fault, vs) ∧ fault.IsLimit ∧ vs <+: us
  /-- From some limits on it is `us` and `r`. -/
  reached : ∃ i, ∀ j, i ≤ j → f j = (r, us)

section
variable {ι : Type} [Preorder ι] {f : ι → Except Fault Term × List Term}
  {us us' : List Term} {r r' : Except Fault Term}

/-- One thing is seen at most. -/
theorem Unfolds.unique [IsDirectedOrder ι] (h : Unfolds f us r) (h' : Unfolds f us' r') :
    us = us' ∧ r = r' := by
  obtain ⟨i, hi⟩ := h.reached
  obtain ⟨j, hj⟩ := h'.reached
  obtain ⟨k, hik, hjk⟩ := exists_ge_ge i j
  have heq := (hi k hik).symm.trans (hj k hjk)
  exact ⟨congrArg Prod.snd heq, congrArg Prod.fst heq⟩

/-- Without the terms an outcome is left that settles. -/
theorem Unfolds.settles (h : Unfolds f us r) : Settles (fun i => (f i).1) r := by
  constructor
  · intro i
    rcases h.limited i with hi | ⟨fault, vs, hi, hlimit, -⟩
    · exact .inl (by rw [hi])
    · exact .inr ⟨fault, by rw [hi], hlimit⟩
  · obtain ⟨i, hi⟩ := h.reached
    exact ⟨i, fun j hj => by rw [hi j hj]⟩

end

/-- Apart from limits, evaluation of `t` within `n` steps shows `us` and comes to `r`, and it comes to
`r` as well if nobody watches. -/
structure Within (n : Nat) (t : Term) (us : List Term) (r : Except Fault Term) : Prop where
  /-- What is seen. -/
  watched : Unfolds (fun bounds => traced bounds (some n) t) us r
  /-- What it comes to if nobody watches. -/
  alone : Settles (fun bounds => evaluateWithin bounds silent (some n) t) r

/-- What evaluation of `t` comes to when it is cut off after `n` steps. -/
def Term.cutOff (n : Nat) (t : Term) : Except Fault Term :=
  if (t.ending n).reducible then .error (.stepLimit n (t.ending n)) else .ok (t.ending n)

theorem settles_verdict (n : Nat) (t : Term) : Settles (fun limit => verdict limit n t)
    (if t.reducible then .error (.stepLimit n t) else .ok t) :=
  (settles_reducibleWithin t).bind (.const _)

/-- Within `n` steps the path is shown, and where it ends it is cut off. -/
theorem within_path {n : Nat} (hn : (n : Int) ≤ maxBudget) (t : Term) :
    Within n t (t.path n) (t.cutOff n) := by
  have hwatched : Unfolds (fun bounds => traced bounds (some n) t) (t.path n) (t.cutOff n) := by
    constructor
    · intro bounds
      obtain ⟨us, r, hwalks, htraced, -⟩ := traced_budget bounds hn t
      rw [htraced]
      cases r with
      | error fault =>
        obtain ⟨rfl, -⟩ := hwalks.of_error
        exact .inr ⟨_, us, rfl, trivial, hwalks.isPrefix⟩
      | ok last =>
        obtain ⟨rfl, rfl⟩ := hwalks.eq_of_ok
        rw [ok_bind]
        rcases (settles_verdict n (t.ending n)).limited bounds.depth with h | ⟨fault, h, hlimit⟩
        · exact .inl (by rw [h, cutOff])
        · exact .inr ⟨fault, t.path n, by rw [h], hlimit, List.prefix_rfl⟩
    · obtain ⟨i, hi⟩ := exists_limit_walks n t
      obtain ⟨j, hj⟩ := (settles_verdict n (t.ending n)).reached
      refine ⟨⟨max i j, 0⟩, ?_⟩
      intro bounds hbounds
      have hdepth : max i j ≤ bounds.depth := hbounds.1
      obtain ⟨us, r, hwalks, htraced, -⟩ := traced_budget bounds hn t
      obtain ⟨vs, rfl, hvs⟩ := hi bounds.depth (by omega) 0 us r hwalks
      cases hvs
      rw [htraced, ok_bind, hj bounds.depth (by omega), List.append_nil, cutOff]
  have halone : (fun bounds => evaluateWithin bounds silent (some n) t) =
      fun bounds => (traced bounds (some n) t).1 := by
    funext bounds
    obtain ⟨us, r, -, htraced, hsilent⟩ := traced_budget bounds hn t
    rw [htraced, hsilent]
  exact ⟨hwatched, halone ▸ hwatched.settles⟩

/-! ## Against evaluation without a budget -/

/-- Without a budget the path of `n` is seen first. -/
theorem exists_bounds_take_traced (n : Nat) (t : Term) :
    ∃ i : Bounds, ∀ bounds, i ≤ bounds → (traced bounds none t).2.take n = t.path n := by
  obtain ⟨i, hi⟩ := exists_limit_walks n t
  refine ⟨⟨i, n⟩, ?_⟩
  intro bounds hbounds
  have hpatience : n ≤ bounds.patience := hbounds.2
  obtain ⟨us, r, hwalks, htraced, -⟩ := traced_none bounds t
  obtain ⟨m, hm⟩ := Nat.exists_eq_add_of_le hpatience
  rw [hm] at hwalks
  obtain ⟨vs, rfl, hvs⟩ := hi bounds.depth hbounds.1 m us r hwalks
  rw [htraced]
  cases hmore : (t.ending n).step? with
  | none =>
    -- the path may be shorter than `n`, but then nothing comes after it
    have hnil := hvs.isPrefix
    rw [path_of_none hmore, List.prefix_nil] at hnil
    rw [hnil, List.append_nil]
    exact List.take_of_length_le (length_path_le n t)
  | some u =>
    have hreducible : (t.ending n).reducible = true := by simp [← isSome_step?, hmore]
    exact List.take_left' (path_of_after? (after?_of_reducible_ending hreducible)).1

/-- What is seen without a budget is longer than `n` under some bounds if there are more than `n`
steps, and under none if there are not. -/
theorem exists_lt_length_traced_iff {n : Nat} {t : Term} :
    (∃ bounds, n < (traced bounds none t).2.length) ↔ (t.after? (n + 1)).isSome = true := by
  have hnth {m : Nat} (hm : n < m) : (t.path m)[n]? = t.after? (n + 1) := by
    rw [getElem?_path, if_pos hm]
  constructor
  · rintro ⟨bounds, hlength⟩
    obtain ⟨us, r, hwalks, htraced, -⟩ := traced_none bounds t
    rw [htraced] at hlength
    have hpath : n < (t.path bounds.patience).length := hlength.trans_le hwalks.isPrefix.length_le
    rw [← hnth (hpath.trans_le (length_path_le _ t)), isSome_getElem?]
    exact hpath
  · intro hmore
    obtain ⟨i, hi⟩ := exists_bounds_take_traced (n + 1) t
    rw [← hnth (Nat.lt_succ_self n), isSome_getElem?, ← hi i le_rfl] at hmore
    exact ⟨i, hmore.trans_le (List.length_take_le' _ _)⟩

theorem cutOff_eq_ok_iff {n : Nat} {t u : Term} :
    t.cutOff n = .ok u ↔ (t.ending n).step? = none ∧ t.ending n = u := by
  rw [cutOff, ← isSome_step?]
  cases (t.ending n).step? <;> simp

theorem cutOff_eq_error_iff {n : Nat} {t : Term} {fault : Fault} : t.cutOff n = .error fault ↔
    (t.ending n).reducible = true ∧ .stepLimit n (t.ending n) = fault := by
  rw [cutOff]
  cases (t.ending n).reducible <;> simp

/-- `us` and `r` are what evaluation of `t` shows and comes to when it is cut off after `n` steps. -/
structure CutsOff (n : Nat) (t : Term) (us : List Term) (r : Except Fault Term) : Prop where
  /-- The terms shown are the first `n` that are shown without a budget. -/
  shown : ∃ i : Bounds, ∀ bounds, i ≤ bounds → us = (traced bounds none t).2.take n
  /-- They are the terms after one step, two steps and so on, as long as there are so many. -/
  numbered : ∀ k, us[k]? = if k < n then t.after? (k + 1) else none
  /-- It is a fault if and only if more than `n` terms are shown without a budget. -/
  isFault : (∃ fault, r = .error fault) ↔ ∃ bounds, n < (traced bounds none t).2.length
  /-- The fault names the budget and the term after `n` steps. -/
  fault : ∀ fault, r = .error fault → ∃ last, t.after? n = some last ∧ fault = .stepLimit n last
  /-- An answer is that of evaluation without a budget, reached in at most `n` steps. -/
  answer : ∀ u, r = .ok u ↔ Settles (fun bounds : Bounds => evaluate bounds silent t) (.ok u) ∧
    ∃ k ≤ n, t.after? k = some u

theorem cutsOff_path (n : Nat) (t : Term) : CutsOff n t (t.path n) (t.cutOff n) where
  shown := by
    obtain ⟨i, hi⟩ := exists_bounds_take_traced n t
    exact ⟨i, fun bounds hbounds => (hi bounds hbounds).symm⟩
  numbered k := getElem?_path n k t
  isFault := by simp [cutOff_eq_error_iff, reducible_ending, exists_lt_length_traced_iff]
  fault := by
    intro fault h
    obtain ⟨hmore, rfl⟩ := cutOff_eq_error_iff.mp h
    exact ⟨t.ending n, after?_of_reducible_ending hmore, rfl⟩
  answer := by
    intro u
    rw [cutOff_eq_ok_iff]
    constructor
    · rintro ⟨hlast, rfl⟩
      have hlead := after?_length_path n t
      exact ⟨settles_evaluate ⟨_, hlead⟩ hlast, _, length_path_le n t, hlead⟩
    · rintro ⟨hsettles, k, hk, hu⟩
      obtain ⟨i, hi⟩ := hsettles.reached
      obtain ⟨-, hlast⟩ := leads_of_evaluate (hi i le_rfl)
      have hending : t.ending n = u := ending_of_last hk hu hlast
      exact ⟨by rw [hending, hlast], hending⟩

/-! ## Larger budgets, and budgets one after the other -/

/-- The fault of a spent budget, counted as one of `limit` steps. -/
def Fault.withLimit (limit : Nat) : Fault → Fault
  | .stepLimit _ last => .stepLimit limit last
  | f => f

/-- After an answer there is nothing more to show. -/
theorem path_and_cutOff_of_le {m n : Nat} {t u : Term} (hmn : n ≤ m) (hu : t.cutOff n = .ok u) :
    t.path m = t.path n ∧ t.cutOff m = .ok u := by
  obtain ⟨hlast, rfl⟩ := cutOff_eq_ok_iff.mp hu
  obtain ⟨k, rfl⟩ := Nat.exists_eq_add_of_le hmn
  have hending : t.ending (n + k) = t.ending n := by rw [ending_add, ending_of_none hlast]
  constructor
  · rw [path_add, path_of_none hlast, List.append_nil]
  · exact cutOff_eq_ok_iff.mpr ⟨by rw [hending, hlast], hending⟩

theorem cutOff_add (n m : Nat) (t : Term) :
    t.cutOff (n + m) = ((t.ending n).cutOff m).mapError (Fault.withLimit (n + m)) := by
  rw [cutOff, cutOff, ending_add]
  cases ((t.ending n).ending m).reducible <;> rfl

/-- A budget only cuts evaluation off.  A larger one does not change an answer, and to go on for `m`
steps from where `n` steps have ended is to have a budget of `n + m`. -/
theorem budget_truncates (t : Term) {n : Nat} (hn : (n : Int) ≤ maxBudget) :
    ∃ us r, Within n t us r ∧ CutsOff n t us r ∧
      (∀ m : Nat, n ≤ m → (m : Int) ≤ maxBudget → ∀ u, r = .ok u → Within m t us (.ok u)) ∧
      ∀ m : Nat, ((n + m : Nat) : Int) ≤ maxBudget → ∃ vs s, Within m (us.getLastD t) vs s ∧
        Within (n + m) t (us ++ vs) (s.mapError (Fault.withLimit (n + m))) := by
  refine ⟨t.path n, t.cutOff n, within_path hn t, cutsOff_path n t, ?_, ?_⟩
  · intro m hnm hm u hu
    obtain ⟨hpath, hcut⟩ := path_and_cutOff_of_le hnm hu
    have hwithin := within_path hm t
    rwa [hpath, hcut] at hwithin
  · intro m hm
    refine ⟨(t.ending n).path m, (t.ending n).cutOff m, within_path (by omega) _, ?_⟩
    have hwithin := within_path hm t
    rwa [path_add, cutOff_add] at hwithin

/-- The first of two arguments is asked for. -/
def Term.asking : Term := app (app (lam "x" (lam "y" (bound 1 "x"))) (free "a")) (free "b")

/-- One step later the other argument is left to drop. -/
def Term.dropping : Term := app (lam "y" (free "a")) (free "b")

/-- One step of two is taken, and then the other. -/
theorem budget_truncates_asking : ((1 : Nat) : Int) ≤ maxBudget ∧
    Within 1 asking [dropping] (.error (.stepLimit 1 dropping)) ∧
    CutsOff 1 asking [dropping] (.error (.stepLimit 1 dropping)) ∧
    Within 2 asking [dropping, free "a"] (.ok (free "a")) := by
  have hn : ((1 : Nat) : Int) ≤ maxBudget := by decide
  obtain ⟨us, r, hwithin, hcut, -, hmore⟩ := budget_truncates asking hn
  obtain ⟨rfl, rfl⟩ := hwithin.watched.unique (within_path hn asking).watched
  obtain ⟨vs, s, hlater, hboth⟩ := hmore 1 (by decide)
  obtain ⟨rfl, rfl⟩ := hlater.watched.unique (within_path hn _).watched
  exact ⟨hn, hwithin, hcut, hboth⟩

/-! ## What can go wrong -/

/-- Evaluation without a budget fails where a term is too deep for the reduction, or where patience
ends. -/
theorem evaluate_eq_error {bounds : Bounds} {t : Term} {fault : Fault}
    (h : evaluate bounds silent t = .error fault) :
    fault = .exhausted .reduction ∨ fault = .unfinished := by
  obtain ⟨us, r, hwalks, -, hevaluate⟩ := traced_none bounds t
  have hr : r >>= finish bounds.depth = .error fault := hevaluate.symm.trans h
  cases r with
  | error fault' =>
    cases hr
    exact .inl hwalks.of_error.1
  | ok last =>
    rw [ok_bind, finish] at hr
    rcases hmore : last.reducibleWithin bounds.depth with fault' | _ | _
    · rw [hmore, reducibleWithin_eq_error hmore] at hr
      cases hr
      exact .inl rfl
    · rw [hmore] at hr
      cases hr
    · rw [hmore] at hr
      cases hr
      exact .inr rfl

theorem verdict_eq_error {limit n : Nat} {last : Term} {fault : Fault}
    (h : verdict limit n last = .error fault) : fault = .stepLimit n last ∨
      fault = .tooDeep ∧ last.reducibleWithin limit = .error .tooDeep := by
  rw [verdict] at h
  rcases hmore : last.reducibleWithin limit with fault' | _ | _
  · obtain rfl := reducibleWithin_eq_error hmore
    rw [hmore] at h
    cases h
    exact .inr ⟨rfl, rfl⟩
  · rw [hmore] at h
    cases h
  · rw [hmore] at h
    cases h
    exact .inl rfl

/-- What a walk of `n` steps comes to with the verdict: a spent budget, a term too deep for a step,
or a last term that is too deep to look for another, which is not found out before. -/
theorem Walks.of_verdict_error {limit n : Nat} {t : Term} {us : List Term} {r : Except Fault Term}
    (h : Walks limit n t us r) {fault : Fault} (hr : r >>= verdict limit n = .error fault) :
    fault = .stepLimit n (us.getLastD t) ∨ fault = .exhausted .reduction ∨
      fault = .tooDeep ∧ us.length = n ∧
        (us.getLastD t).reducibleWithin limit = .error .tooDeep := by
  cases r with
  | error fault' =>
    cases hr
    exact .inr (.inl h.of_error.1)
  | ok last =>
    have hlast : us.getLastD t = last := by
      obtain ⟨rfl, rfl⟩ := h.eq_of_ok
      rfl
    rcases verdict_eq_error hr with rfl | ⟨rfl, hdeep⟩
    · exact .inl (by rw [hlast])
    · rcases h.length_or_of_ok with hlength | hended
      · exact .inr (.inr ⟨rfl, hlength, by rw [hlast, hdeep]⟩)
      · rw [reducibleWithin_of_stepWithin hended] at hdeep
        cases hdeep

/-- The bare fault comes of a walk that took all its steps and ended at such a term. -/
theorem Walks.verdict_eq_tooDeep_iff {limit n : Nat} {t : Term} {us : List Term}
    {r : Except Fault Term} (h : Walks limit n t us r) :
    r >>= verdict limit n = .error .tooDeep ↔
      us.length = n ∧ (us.getLastD t).reducibleWithin limit = .error .tooDeep := by
  constructor
  · intro hr
    rcases h.of_verdict_error hr with hr | hr | ⟨-, hlast⟩
    · cases hr
    · cases hr
    · exact hlast
  · rintro ⟨hlength, hdeep⟩
    cases r with
    | error fault => exact absurd hlength h.of_error.2.ne
    | ok last =>
      obtain ⟨rfl, rfl⟩ := h.eq_of_ok
      rw [ok_bind, verdict, ending, hdeep]
      rfl

/-- A term too deep to look for a redex is too deep for a step. -/
theorem Walks.of_deep {limit n : Nat} {t : Term} {us : List Term} {r : Except Fault Term}
    (h : Walks limit (n + 1) t us r) (ht : t.reducibleWithin limit = .error .tooDeep) :
    us = [] ∧ r = .error (.exhausted .reduction) := by
  cases h with
  | ended _ h => cases ht.symm.trans (reducibleWithin_of_stepWithin h)
  | step h _ => cases ht.symm.trans (reducibleWithin_of_stepWithin h)
  | failed _ h =>
    rw [stepWithin_eq_error h]
    exact ⟨rfl, rfl⟩

/-- Without a budget such a term is reported. -/
theorem evaluate_of_deep {bounds : Bounds} {t : Term} (hpatience : 0 < bounds.patience)
    (ht : t.reducibleWithin bounds.depth = .error .tooDeep) :
    evaluate bounds silent t = .error (.exhausted .reduction) := by
  obtain ⟨us, r, hwalks, -, hevaluate⟩ := traced_none bounds t
  obtain ⟨n, hn⟩ := Nat.exists_eq_add_of_le' hpatience
  rw [hn] at hwalks
  obtain ⟨-, rfl⟩ := hwalks.of_deep ht
  exact hevaluate

/-- What an evaluation within a budget can fail with.  A spent budget and a term too deep for the
reduction are the faults that are meant.  A budget larger than steps are counted is another, and so
is the bare fault of a term that is too deep when the budget is spent without a step to find it out:
with any step left, the same term is too deep for the reduction.  So it is without a budget, where
there is no other fault of a term. -/
theorem budgeted_faults (bounds : Bounds) (n : Nat) (t : Term) :
    (∃ us r, traced bounds (some n) t = (r, us) ∧ evaluateWithin bounds silent (some n) t = r ∧
      (∀ fault, r = .error fault → fault = .stepLimit n (us.getLastD t) ∨
        fault = .exhausted .reduction ∨ fault = .tooDeep ∨ fault = .hugeBudget) ∧
      (r = .error .hugeBudget ↔ maxBudget < n) ∧
      (r = .error .tooDeep ↔ (n : Int) ≤ maxBudget ∧ us.length = n ∧
        (us.getLastD t).reducibleWithin bounds.depth = .error .tooDeep) ∧
      (t.reducibleWithin bounds.depth = .error .tooDeep → 0 < n → (n : Int) ≤ maxBudget →
        us = [] ∧ r = .error (.exhausted .reduction))) ∧
    (∀ fault, evaluateWithin bounds silent none t = .error fault →
      fault = .exhausted .reduction ∨ fault = .unfinished) ∧
    (t.reducibleWithin bounds.depth = .error .tooDeep → 0 < bounds.patience →
      evaluateWithin bounds silent none t = .error (.exhausted .reduction)) := by
  refine ⟨?_, fun _ => evaluate_eq_error, fun hdeep hpatience => evaluate_of_deep hpatience hdeep⟩
  by_cases hn : (n : Int) ≤ maxBudget
  · obtain ⟨us, r, hwalks, htraced, hsilent⟩ := traced_budget bounds hn t
    refine ⟨us, _, htraced, hsilent, ?_, ?_, ?_, ?_⟩
    · intro fault h
      rcases hwalks.of_verdict_error h with h | h | ⟨h, -⟩
      · exact .inl h
      · exact .inr (.inl h)
      · exact .inr (.inr (.inl h))
    · constructor
      · intro h
        rcases hwalks.of_verdict_error h with h | h | ⟨h, -⟩ <;> cases h
      · intro h
        omega
    · rw [hwalks.verdict_eq_tooDeep_iff]
      exact (and_iff_right hn).symm
    · intro hdeep hpos _
      obtain ⟨n, rfl⟩ := Nat.exists_eq_add_of_le' hpos
      obtain ⟨rfl, rfl⟩ := hwalks.of_deep hdeep
      exact ⟨rfl, rfl⟩
  · have hhuge : maxBudget < n := by omega
    obtain ⟨htraced, hsilent⟩ := traced_hugeBudget bounds hhuge t
    refine ⟨[], _, htraced, hsilent, ?_, ?_, ?_, ?_⟩
    · intro fault h
      cases h
      exact .inr (.inr (.inr rfl))
    · exact iff_of_true rfl hhuge
    · constructor
      · intro h
        cases h
      · intro h
        exact absurd h.1 hn
    · exact fun _ _ h => absurd h hn

/-- A head with nine arguments. -/
def Term.longSpine : Term := (free "f").apps (List.replicate 9 (free "a"))

/-- Without a step to spend, a spine that is too deep is not told to be too deep for the reduction,
as it is with one or without a budget; and there is a budget that is not taken at all. -/
theorem budgeted_faults_unreported :
    evaluateWithin ⟨5, 5⟩ silent (some 0) longSpine = .error .tooDeep ∧
      evaluateWithin ⟨5, 5⟩ silent (some 1) longSpine = .error (.exhausted .reduction) ∧
      evaluateWithin ⟨5, 5⟩ silent none longSpine = .error (.exhausted .reduction) ∧
      evaluateWithin ⟨5, 5⟩ silent (some 0x8000000000000000) (free "a") = .error .hugeBudget ∧
      Fault.tooDeep.reported = false ∧ Fault.hugeBudget.reported = false :=
  ⟨rfl, rfl, rfl, rfl, rfl, rfl⟩

end LambdaCalculus
