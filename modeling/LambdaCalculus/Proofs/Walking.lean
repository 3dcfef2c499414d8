import LambdaCalculus.Proofs.Evaluation

/-!
# What a walk shows and comes to

A walk under a limit takes its steps one after the other until none is left, there is none to take,
or the limit forbids the next.  `Walks limit n t us r` says that this shows the terms `us` and comes
to `r`; it is the same whether the visitor keeps what it sees (`watch`) or not (`silent`).

* `exists_walks` — so much can be said of every walk.
* `Walks.unique` — and only so much.
* `Walks.isPrefix`, `Walks.eq_of_ok`, `Walks.of_error` — the terms are the first of the path, and
  all of them unless the limit forbade a step.
* `exists_limit_walks` — where the limit is high enough, a walk follows the path and goes on from
  where that ends.
* `traced` — an evaluation with an optional budget, as one who watches it sees it.
* `traced_budget`, `traced_none`, `traced_refused` — what it sees, by budget.
* `evaluateWithin_eq_traced` — what it comes to does not depend on who watches.
* `leads_of_mem_traced`, `getLastD_traced` — all that is seen is reached by steps, and the answer is
  seen last.
-/

namespace LambdaCalculus

open Term

/-! ## Watching -/

/-- A computation that may fail, and keeps the terms that it has shown until then. -/
abbrev Watched := ExceptT Fault (StateM (List Term))

/-- A visitor that keeps what it is shown, whatever happens later. -/
def watch (_ : Nat) (u : Term) : Watched Unit :=
  modify (· ++ [u])

/-- `Walks limit n t us r`: in a walk of at most `n` steps from `t` the terms `us` are shown, and what
it comes to is `r`. -/
inductive Walks (limit : Nat) : Nat → Term → List Term → Except Fault Term → Prop where
  /-- No step is left. -/
  | spent (t : Term) : Walks limit 0 t [] (.ok t)
  /-- There is no step to take. -/
  | ended (n : Nat) {t : Term} (h : t.stepWithin limit = .ok none) : Walks limit (n + 1) t [] (.ok t)
  /-- The limit forbids the step. -/
  | failed (n : Nat) {t : Term} {fault : Fault} (h : t.stepWithin limit = .error fault) :
      Walks limit (n + 1) t [] (.error (fault.during .reduction))
  /-- A step is taken and shown. -/
  | step {n : Nat} {t u : Term} {us : List Term} {r : Except Fault Term}
      (h : t.stepWithin limit = .ok (some u)) (hu : Walks limit n u us r) :
      Walks limit (n + 1) t (u :: us) r

/-- Every walk shows some terms and comes to something, whoever watches. -/
theorem exists_walks (limit n : Nat) (t : Term) : ∃ us r, Walks limit n t us r ∧
    (∀ k seen, (walk limit watch n k t).run.run seen = (r, seen ++ us)) ∧
    ∀ k, walk limit silent n k t = r := by
  induction n generalizing t with
  | zero =>
    refine ⟨[], .ok t, .spent t, ?_, fun _ => rfl⟩
    intro k seen
    rw [List.append_nil]
    rfl
  | succ n ih =>
    simp only [walk_silent_succ]
    rcases h : t.stepWithin limit with fault | _ | u
    · refine ⟨[], _, .failed n h, ?_, fun _ => rfl⟩
      intro k seen
      rw [walk, h, List.append_nil]
      rfl
    · refine ⟨[], _, .ended n h, ?_, fun _ => rfl⟩
      intro k seen
      rw [walk, h, List.append_nil]
      rfl
    · obtain ⟨us, r, hwalks, hrun, hsilent⟩ := ih u
      refine ⟨u :: us, r, .step h hwalks, ?_, fun k => hsilent (k + 1)⟩
      intro k seen
      have hshow : (walk limit watch (n + 1) k t).run.run seen =
          (walk limit watch n (k + 1) u).run.run (seen ++ [u]) := by
        rw [walk, h]
        rfl
      rw [hshow, hrun, List.append_assoc, List.singleton_append]

/-! ## Walks and paths -/

namespace Walks

variable {limit n : Nat} {t last : Term} {us : List Term} {r : Except Fault Term} {fault : Fault}

/-- Only terms of the path are shown. -/
theorem isPrefix (h : Walks limit n t us r) : us <+: t.path n := by
  induction h with
  | spent t => exact List.nil_prefix
  | ended n h => exact List.nil_prefix
  | failed n h => exact List.nil_prefix
  | step h _ ih =>
    rw [path_succ_of_some (eq_step?_of_stepWithin h)]
    exact (List.prefix_cons_inj _).mpr ih

/-- A walk that answers has shown the whole path, and answers with where it ends. -/
theorem eq_of_ok (h : Walks limit n t us (.ok last)) : us = t.path n ∧ last = t.ending n := by
  generalize hr : Except.ok last = r at h
  induction h with
  | spent t =>
    cases hr
    exact ⟨rfl, rfl⟩
  | ended n h =>
    cases hr
    have hnone := eq_step?_of_stepWithin h
    exact ⟨(path_of_none hnone _).symm, (ending_of_none hnone _).symm⟩
  | failed n h => cases hr
  | step h _ ih =>
    have hsome := eq_step?_of_stepWithin h
    obtain ⟨hus, hlast⟩ := ih hr
    rw [path_succ_of_some hsome, ending_succ_of_some hsome]
    exact ⟨by rw [hus], hlast⟩

/-- A walk that answers has taken all its steps, or it has found that there is no more. -/
theorem length_or_of_ok (h : Walks limit n t us (.ok last)) :
    us.length = n ∨ last.stepWithin limit = .ok none := by
  generalize hr : Except.ok last = r at h
  induction h with
  | spent t => exact .inl rfl
  | ended n h =>
    cases hr
    exact .inr h
  | failed n h => cases hr
  | step _ _ ih => exact (ih hr).imp (congrArg Nat.succ) id

/-- A walk that fails has met its limit, and not taken all its steps. -/
theorem of_error (h : Walks limit n t us (.error fault)) :
    fault = .exhausted .reduction ∧ us.length < n := by
  generalize hr : Except.error fault = r at h
  induction h with
  | spent t => cases hr
  | ended n h => cases hr
  | failed n h =>
    cases hr
    rw [stepWithin_eq_error h]
    exact ⟨rfl, Nat.zero_lt_succ n⟩
  | step _ _ ih => exact (ih hr).imp id Nat.succ_lt_succ

end Walks

/-- There is one walk. -/
theorem Walks.unique {limit n : Nat} {t : Term} {us vs : List Term} {r s : Except Fault Term}
    (h : Walks limit n t us r) (h' : Walks limit n t vs s) : us = vs ∧ r = s := by
  induction h generalizing vs s with
  | spent t =>
    cases h'
    exact ⟨rfl, rfl⟩
  | ended n h =>
    cases h' with
    | ended _ _ => exact ⟨rfl, rfl⟩
    | failed _ h' => cases h.symm.trans h'
    | step h' _ => cases h.symm.trans h'
  | failed n h =>
    cases h' with
    | ended _ h' => cases h.symm.trans h'
    | failed _ h' =>
      cases h.symm.trans h'
      exact ⟨rfl, rfl⟩
    | step h' _ => cases h.symm.trans h'
  | step h _ ih =>
    cases h' with
    | ended _ h' => cases h.symm.trans h'
    | failed _ h' => cases h.symm.trans h'
    | step h' hrest =>
      cases h.symm.trans h'
      obtain ⟨rfl, rfl⟩ := ih hrest
      exact ⟨rfl, rfl⟩

/-- Where the limit is high enough, a walk follows the path and goes on from where that ends. -/
theorem exists_limit_walks (n : Nat) (t : Term) : ∃ i, ∀ limit, i ≤ limit → ∀ m us r,
    Walks limit (n + m) t us r → ∃ vs, us = t.path n ++ vs ∧ Walks limit m (t.ending n) vs r := by
  induction n generalizing t with
  | zero =>
    refine ⟨0, ?_⟩
    intro limit _ m us r h
    rw [Nat.zero_add] at h
    exact ⟨us, rfl, h⟩
  | succ n ih =>
    obtain ⟨i, hi⟩ := (settles_stepWithin t).reached
    cases hstep : t.step? with
    | none =>
      refine ⟨i, ?_⟩
      intro limit hlimit m us r h
      have hnone := hi limit hlimit
      rw [hstep] at hnone
      rw [path_of_none hstep, ending_of_none hstep]
      rw [Nat.succ_add] at h
      cases h with
      | ended _ _ =>
        refine ⟨[], rfl, ?_⟩
        cases m with
        | zero => exact .spent t
        | succ m => exact .ended m hnone
      | failed _ h => cases hnone.symm.trans h
      | step h _ => cases hnone.symm.trans h
    | some u =>
      obtain ⟨j, hj⟩ := ih u
      refine ⟨max i j, ?_⟩
      intro limit hlimit m us r h
      have hsome := hi limit (by omega)
      rw [hstep] at hsome
      rw [path_succ_of_some hstep, ending_succ_of_some hstep]
      rw [Nat.succ_add] at h
      cases h with
      | ended _ h => cases hsome.symm.trans h
      | failed _ h => cases hsome.symm.trans h
      | step h hu =>
        cases hsome.symm.trans h
        obtain ⟨vs, rfl, hvs⟩ := hj limit (by omega) m _ r hu
        exact ⟨vs, rfl, hvs⟩

/-! ## Evaluation, watched -/

/-- What an evaluation with an optional budget comes to, and the terms that it shows. -/
def traced (bounds : Bounds) (budget : Option Int) (t : Term) : Except Fault Term × List Term :=
  (evaluateWithin bounds watch budget t).run.run []

/-- What is said of the last term of a walk whose budget was `n`. -/
def verdict (limit n : Nat) (last : Term) : Except Fault Term :=
  last.reducibleWithin limit >>= fun more => if more then .error (.stepLimit n last) else .ok last

/-- What is said of the last term of a walk without a budget. -/
def finish (limit : Nat) (last : Term) : Except Fault Term :=
  (guarded .reduction (last.reducibleWithin limit) : Except Fault _) >>= fun more =>
    if more then .error .unfinished else .ok last

theorem checkedBudget_of_le {m : Type → Type} [Monad m] [MonadExceptOf Fault m] {n : Nat}
    (hn : (n : Int) ≤ maxBudget) : (checkedBudget n : m Nat) = pure n := by
  rw [checkedBudget, if_neg (by omega), checkedCount, Int.toNat_natCast]
  simp [hn]

/-- A budget is taken as it is, or refused by whatever asks for it. -/
theorem checkedBudget_cases (budget : Int) :
    (∃ n : Nat, budget = n ∧ (n : Int) ≤ maxBudget) ∨
      ∃ fault, ∀ (m : Type → Type) [Monad m] [MonadExceptOf Fault m],
        (checkedBudget budget : m Nat) = throw fault := by
  by_cases hneg : budget < 0
  · refine .inr ⟨.negativeBudget budget, ?_⟩
    intro m _ _
    rw [checkedBudget, if_pos hneg]
  · obtain ⟨n, rfl⟩ := Int.eq_ofNat_of_zero_le (not_lt.mp hneg)
    by_cases hn : (n : Int) ≤ maxBudget
    · exact .inl ⟨n, rfl, hn⟩
    · refine .inr ⟨.hugeBudget, ?_⟩
      intro m _ _
      rw [checkedBudget, if_neg hneg, checkedCount, if_pos (by simp; omega)]

/-- What follows a watched computation and shows nothing more leaves what was seen as it is. -/
theorem run_bind_unseen {work : Watched Term} {r : Except Fault Term} {us : List Term}
    (h : work.run.run [] = (r, us)) {next : Term → Watched Term} {f : Term → Except Fault Term}
    (hnext : ∀ last seen, (next last).run.run seen = (f last, seen)) :
    (work >>= next).run.run [] = (r >>= f, us) := by
  cases r with
  | error fault => exact bind_run_error h
  | ok last =>
    rw [bind_run_ok h, hnext]
    rfl

theorem evaluateWithin_some (bounds : Bounds) (budget : Int) (t : Term) :
    evaluateWithin bounds silent (some budget) t = (checkedBudget budget : Except Fault Nat) >>=
      fun n => walk bounds.depth silent n 0 t >>= verdict bounds.depth n := by
  rw [evaluateWithin]
  refine bind_congr ?_
  intro n
  refine bind_congr ?_
  intro last
  rw [verdict]
  rcases last.reducibleWithin bounds.depth with fault | _ | _ <;> rfl

theorem evaluateWithin_silent (bounds : Bounds) {n : Nat} (hn : (n : Int) ≤ maxBudget) (t : Term) :
    evaluateWithin bounds silent (some n) t =
      walk bounds.depth silent n 0 t >>= verdict bounds.depth n := by
  rw [evaluateWithin_some, checkedBudget_of_le hn, pure_bind]

/-- With a budget a walk is taken, and there is a verdict on its last term. -/
theorem traced_budget (bounds : Bounds) {n : Nat} (hn : (n : Int) ≤ maxBudget) (t : Term) :
    ∃ us r, Walks bounds.depth n t us r ∧
      traced bounds (some n) t = (r >>= verdict bounds.depth n, us) ∧
      evaluateWithin bounds silent (some n) t = r >>= verdict bounds.depth n := by
  obtain ⟨us, r, hwalks, hwatch, hsilent⟩ := exists_walks bounds.depth n t
  refine ⟨us, r, hwalks, ?_, ?_⟩
  · rw [traced, evaluateWithin, checkedBudget_of_le hn, pure_bind]
    refine run_bind_unseen (hwatch 0 []) ?_
    intro last seen
    rw [verdict]
    rcases last.reducibleWithin bounds.depth with fault | _ | _ <;> rfl
  · rw [evaluateWithin_silent bounds hn, hsilent]

/-- Without a budget the walk is as long as patience lasts. -/
theorem traced_none (bounds : Bounds) (t : Term) :
    ∃ us r, Walks bounds.depth bounds.patience t us r ∧
      traced bounds none t = (r >>= finish bounds.depth, us) ∧
      evaluateWithin bounds silent none t = r >>= finish bounds.depth := by
  obtain ⟨us, r, hwalks, hwatch, hsilent⟩ := exists_walks bounds.depth bounds.patience t
  refine ⟨us, r, hwalks, ?_, ?_⟩
  · refine run_bind_unseen (hwatch 0 []) ?_
    intro last seen
    rw [finish]
    rcases last.reducibleWithin bounds.depth with fault | _ | _ <;> rfl
  · rw [evaluateWithin, evaluate_silent, hsilent]
    rfl

/-- A budget that is refused is refused before the first step. -/
theorem traced_refused (bounds : Bounds) {budget : Int} {fault : Fault}
    (h : ∀ (m : Type → Type) [Monad m] [MonadExceptOf Fault m],
      (checkedBudget budget : m Nat) = throw fault) (t : Term) :
    traced bounds (some budget) t = (.error fault, []) ∧
      evaluateWithin bounds silent (some budget) t = .error fault := by
  constructor
  · rw [traced, evaluateWithin, h]
    rfl
  · rw [evaluateWithin, h]
    rfl

/-- A budget that is not counted so far is refused. -/
theorem traced_hugeBudget (bounds : Bounds) {n : Nat} (hn : maxBudget < n) (t : Term) :
    traced bounds (some n) t = (.error .hugeBudget, []) ∧
      evaluateWithin bounds silent (some n) t = .error .hugeBudget := by
  apply traced_refused bounds
  intro m _ _
  rw [checkedBudget, if_neg (by omega), checkedCount, if_pos (by simp [hn])]

/-- What an evaluation comes to does not depend on who watches. -/
theorem evaluateWithin_eq_traced (bounds : Bounds) (budget : Option Int) (t : Term) :
    evaluateWithin bounds silent budget t = (traced bounds budget t).1 := by
  cases budget with
  | none =>
    obtain ⟨us, r, -, htraced, hsilent⟩ := traced_none bounds t
    rw [htraced, hsilent]
  | some budget =>
    rcases checkedBudget_cases budget with ⟨n, rfl, hn⟩ | ⟨fault, hrefused⟩
    · obtain ⟨us, r, -, htraced, hsilent⟩ := traced_budget bounds hn t
      rw [htraced, hsilent]
    · obtain ⟨htraced, hsilent⟩ := traced_refused bounds hrefused t
      rw [htraced, hsilent]

theorem evaluate_eq_traced (bounds : Bounds) (t : Term) :
    evaluate bounds silent t = (traced bounds none t).1 :=
  evaluateWithin_eq_traced bounds none t

/-- A verdict on the last term is an answer with it or a fault. -/
theorem eq_of_verdict {limit n : Nat} {last u : Term} (h : verdict limit n last = .ok u) :
    last = u := by
  obtain ⟨more, -, hmore⟩ := bind_eq_ok.mp h
  cases more with
  | false => exact Except.ok.inj hmore
  | true => cases hmore

theorem eq_of_finish {limit : Nat} {last u : Term} (h : finish limit last = .ok u) : last = u := by
  obtain ⟨more, -, hmore⟩ := bind_eq_ok.mp h
  cases more with
  | false => exact Except.ok.inj hmore
  | true => cases hmore

/-- An evaluation is a walk and a word on its last term, unless its budget is refused. -/
theorem traced_cases (bounds : Bounds) (budget : Option Int) (t : Term) :
    (∃ n us r next, Walks bounds.depth n t us r ∧ traced bounds budget t = (r >>= next, us) ∧
      ∀ {last u}, next last = .ok u → last = u) ∨
      ∃ fault, traced bounds budget t = (.error fault, []) := by
  cases budget with
  | none =>
    obtain ⟨us, r, hwalks, htraced, -⟩ := traced_none bounds t
    exact .inl ⟨_, us, r, _, hwalks, htraced, eq_of_finish⟩
  | some budget =>
    rcases checkedBudget_cases budget with ⟨n, rfl, hn⟩ | ⟨fault, hrefused⟩
    · obtain ⟨us, r, hwalks, htraced, -⟩ := traced_budget bounds hn t
      exact .inl ⟨n, us, r, _, hwalks, htraced, eq_of_verdict⟩
    · exact .inr ⟨fault, (traced_refused bounds hrefused t).1⟩

/-- The terms that an evaluation shows are reached by steps. -/
theorem leads_of_mem_traced {bounds : Bounds} {budget : Option Int} {t u : Term}
    (h : u ∈ (traced bounds budget t).2) : t.Leads u := by
  rcases traced_cases bounds budget t with ⟨n, us, r, next, hwalks, htraced, -⟩ | ⟨fault, htraced⟩
  · rw [htraced] at h
    exact leads_of_mem_path (hwalks.isPrefix.subset h)
  · rw [htraced] at h
    cases h

/-- The answer of an evaluation is the last term that it shows. -/
theorem getLastD_traced {bounds : Bounds} {budget : Option Int} {t u : Term}
    (h : (traced bounds budget t).1 = .ok u) : (traced bounds budget t).2.getLastD t = u := by
  rcases traced_cases bounds budget t with ⟨n, us, r, next, hwalks, htraced, hnext⟩ | ⟨fault, htraced⟩
  · rw [htraced] at h ⊢
    obtain ⟨last, rfl, hlast⟩ := bind_eq_ok.mp h
    obtain ⟨rfl, rfl⟩ := hwalks.eq_of_ok
    exact hnext hlast
  · rw [htraced] at h
    cases h

end LambdaCalculus
