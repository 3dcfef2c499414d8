import LambdaCalculus.Proofs.Program.Standard
import LambdaCalculus.Proofs.Term.Combinator

/-!
# What the standard arithmetic computes

Evaluation leaves a numeral as soon as it is an abstraction, with most of the work still inside.  So
a number is not a shape of terms but what they do: a term denotes `n` if, applied to any `f` and `x`,
it comes out as `f` applied to something that comes out as `f` applied to …, `n` times, with `x` in
the end.

* `Term.Iterates f x n s` — evaluation finds `n` applications of `f` around `x` in `s`.
* `Term.Denotes t n` — the term denotes the number.
* `denotes_numeral` — a Church numeral denotes its number.
* `denotes_succ`, `denotes_add`, `denotes_mul`, `denotes_pred`, `denotes_sub` — the standard
  operations denote those on numbers, predecessor and difference ending at zero.
* `denotes_if_isZero`, `denotes_first_pair`, `denotes_second_pair` — the choice of one of two.
-/

namespace LambdaCalculus.Term

/-- Evaluation finds `n` applications of `f` around `x`, one inside the other. -/
inductive Iterates (f x : Term) : Nat → Term → Prop where
  /-- There is nothing around `x`. -/
  | zero {s : Term} (h : s.Leads x) : Iterates f x 0 s
  /-- One application is outside all others. -/
  | succ {n : Nat} {s s' : Term} (h : s.Leads (app f s')) (h' : Iterates f x n s') :
      Iterates f x (n + 1) s

/-- The term denotes the number. -/
structure Denotes (t : Term) (n : Nat) : Prop where
  /-- The term is closed. -/
  closed : t.Closed
  /-- Whatever it is applied to, it iterates. -/
  iterates : ∀ {f x : Term}, f.Closed → x.Closed → Iterates f x n (app (app t f) x)

variable {f x s t u : Term} {m n : Nat}

theorem Iterates.of_leads (hs : s.Leads t) (h : Iterates f x n t) : Iterates f x n s := by
  cases h with
  | zero h => exact .zero (hs.trans h)
  | succ h h' => exact .succ (hs.trans h) h'

/-- Iteration goes on where it starts from something that iterates. -/
theorem Iterates.trans {y : Term} (h : Iterates f y m s) (hy : Iterates f x n y) :
    Iterates f x (m + n) s := by
  induction h with
  | zero h =>
    rw [Nat.zero_add]
    exact hy.of_leads h
  | succ h _ ih =>
    rw [Nat.succ_add]
    exact .succ h ih

/-- What leads to a number denotes it. -/
theorem Denotes.of_leads (hs : s.Closed) (hst : s.Leads t) (h : t.Denotes n) : s.Denotes n :=
  ⟨hs, fun hf hx => (h.iterates hf hx).of_leads ((hst.app _).app _)⟩

/-! ## Steps of the standard definitions -/

theorem leads_truth (ht : t.Closed) (hu : u.Closed) : (Standard.truth.apps [t, u]).Leads t :=
  leads_lams rfl (by decide) (by simp [ht, hu])

theorem leads_falsity (ht : t.Closed) (hu : u.Closed) : (Standard.falsity.apps [t, u]).Leads u :=
  leads_lams rfl (by decide) (by simp [ht, hu])

theorem leads_choice (hs : s.Closed) (ht : t.Closed) (hu : u.Closed) :
    (Standard.choice.apps [s, t, u]).Leads (s.apps [t, u]) :=
  leads_lams rfl (by decide) (by simp [hs, ht, hu])

theorem leads_succ (ht : t.Closed) (hf : f.Closed) (hx : x.Closed) :
    (Standard.succ.apps [t, f, x]).Leads (app f (t.apps [f, x])) :=
  leads_lams rfl (by decide) (by simp [ht, hf, hx])

theorem leads_add (ht : t.Closed) (hu : u.Closed) (hf : f.Closed) (hx : x.Closed) :
    (Standard.add.apps [t, u, f, x]).Leads (t.apps [f, u.apps [f, x]]) :=
  leads_lams rfl (by decide) (by simp [ht, hu, hf, hx])

theorem leads_mul (ht : t.Closed) (hu : u.Closed) (hf : f.Closed) :
    (Standard.mul.apps [t, u, f]).Leads (app t (app u f)) :=
  leads_lams rfl (by decide) (by simp [ht, hu, hf])

theorem leads_sub (ht : t.Closed) (hu : u.Closed) :
    (Standard.sub.apps [t, u]).Leads (u.apps [Standard.pred, t]) :=
  leads_lams rfl (by decide) (by simp [ht, hu])

theorem leads_isZero (ht : t.Closed) :
    (Standard.isZero.apps [t]).Leads (t.apps [lam "x" Standard.falsity, Standard.truth]) :=
  leads_lams rfl (by decide) (by simp [ht])

theorem leads_pair (hs : s.Closed) (ht : t.Closed) (hu : u.Closed) :
    (Standard.pair.apps [s, t, u]).Leads (u.apps [s, t]) :=
  leads_lams rfl (by decide) (by simp [hs, ht, hu])

theorem leads_first (ht : t.Closed) : (Standard.first.apps [t]).Leads (app t Standard.truth) :=
  leads_lams rfl (by decide) (by simp [ht])

theorem leads_second (ht : t.Closed) : (Standard.second.apps [t]).Leads (app t Standard.falsity) :=
  leads_lams rfl (by decide) (by simp [ht])

/-! ## Sums and products -/

theorem denotes_numeral (n : Nat) : (numeral n).Denotes n := by
  have hbelow : (nest n).Below 2 := by
    induction n with
    | zero => exact Nat.zero_lt_two
    | succ n ih => exact ⟨Nat.one_lt_two, ih⟩
  refine ⟨hbelow, ?_⟩
  intro f x hf hx
  have hleads : ((lams (nest n) ["f", "x"]).apps [f, x]).Leads ((nest n).fill [x, f] 0) :=
    leads_lams rfl hbelow (by simp [hf, hx])
  refine .of_leads hleads ?_
  clear hbelow hleads
  induction n with
  | zero => exact .zero (.refl x)
  | succ n ih => exact .succ (.refl _) ih

theorem denotes_succ (ht : t.Denotes n) : (app Standard.succ t).Denotes (n + 1) := by
  refine ⟨⟨by decide, ht.closed⟩, ?_⟩
  intro f x hf hx
  exact .succ (leads_succ ht.closed hf hx) (ht.iterates hf hx)

theorem denotes_add (ht : t.Denotes m) (hu : u.Denotes n) :
    (Standard.add.apps [t, u]).Denotes (m + n) := by
  refine ⟨⟨⟨by decide, ht.closed⟩, hu.closed⟩, ?_⟩
  intro f x hf hx
  have hinner : (u.apps [f, x]).Closed := ⟨⟨hu.closed, hf⟩, hx⟩
  have hiterated := (ht.iterates hf hinner).trans (hu.iterates hf hx)
  exact hiterated.of_leads (leads_add ht.closed hu.closed hf hx)

theorem denotes_mul (ht : t.Denotes m) (hu : u.Denotes n) :
    (Standard.mul.apps [t, u]).Denotes (m * n) := by
  refine ⟨⟨⟨by decide, ht.closed⟩, hu.closed⟩, ?_⟩
  intro f x hf hx
  -- each turn of the outer iteration is a whole inner one
  have hturns {k : Nat} {s : Term} (hs : s.Closed) (h : Iterates (app u f) x k s) :
      Iterates f x (k * n) s := by
    induction h with
    | zero h => exact (Nat.zero_mul n).symm ▸ .zero h
    | @succ k s s' h _ ih =>
      have hs' : s'.Closed := (hs.of_leads h).2
      rw [Nat.succ_mul, Nat.add_comm]
      exact ((hu.iterates hf hs').trans (ih hs')).of_leads h
  have hg : (app u f).Closed := ⟨hu.closed, hf⟩
  have hall : (t.apps [app u f, x]).Closed := ⟨⟨ht.closed, hg⟩, hx⟩
  exact (hturns hall (ht.iterates hg hx)).of_leads ((leads_mul ht.closed hu.closed hf).app x)

/-! ## Predecessors and differences -/

/-- `λg h. h (g f)`: what the predecessor iterates. -/
def delay (f : Term) : Term := lams (app (bound 0 "h") (app (bound 1 "g") f)) ["g", "h"]

theorem closed_delay (hf : f.Closed) : (delay f).Closed :=
  ⟨Nat.zero_lt_two, Nat.one_lt_two, hf.below 2⟩

theorem leads_delay (hf : f.Closed) (hs : s.Closed) (ht : t.Closed) :
    ((delay f).apps [s, t]).Leads (app t (app s f)) := by
  have h : ((delay f).apps [s, t]).Leads (app t (app s (f.fill [t, s] 0))) :=
    leads_lams rfl ⟨Nat.zero_lt_two, Nat.one_lt_two, hf.below 2⟩ (by simp [hs, ht])
  rwa [fill_of_below [t, s] hf] at h

theorem leads_const (p : String) (hx : x.Closed) (ht : t.Closed) : (app (lam p x) t).Leads x := by
  have h : ((lams x [p]).apps [t]).Leads (x.fill [t] 0) :=
    leads_lams rfl (hx.below 1) (by simp [ht])
  rwa [fill_of_below [t] hx] at h

theorem leads_pred (ht : t.Closed) (hf : f.Closed) (hx : x.Closed) :
    (Standard.pred.apps [t, f, x]).Leads
      (t.apps [delay f, lam "u" x, lam "u" (bound 0 "u")]) :=
  leads_lams rfl (by decide) (by simp [ht, hf, hx])

/-- Delayed iteration, applied to `f`, comes out as many times. -/
theorem Iterates.app_delay (hf : f.Closed) (hx : x.Closed) (hs : s.Closed)
    (h : Iterates (delay f) (lam "u" x) n s) : Iterates f x n (app s f) := by
  induction h with
  | zero h => exact .zero ((h.app f).trans (leads_const "u" hx hf))
  | @succ n s s' h _ ih =>
    have hs' : s'.Closed := (hs.of_leads h).2
    exact .succ ((h.app f).trans (leads_delay hf hs' hf)) (ih hs')

theorem denotes_pred (ht : t.Denotes n) : (app Standard.pred t).Denotes (n - 1) := by
  refine ⟨⟨by decide, ht.closed⟩, ?_⟩
  intro f x hf hx
  have hid : (lam "u" (bound 0 "u")).Closed := Nat.zero_lt_one
  have hx' : (lam "u" x).Closed := hx.below 1
  have hs : (t.apps [delay f, lam "u" x]).Closed := ⟨⟨ht.closed, closed_delay hf⟩, hx'⟩
  refine .of_leads (leads_pred ht.closed hf hx) ?_
  cases ht.iterates (closed_delay hf) hx' with
  | zero h => exact .zero ((h.app _).trans (leads_const "u" hx hid))
  | @succ k s s' h h' =>
    -- the outermost application is given away
    have hs' : s'.Closed := (hs.of_leads h).2
    have hrest : (app s' f).Closed := ⟨hs', hf⟩
    have hgiven : ((lams (bound 0 "u") ["u"]).apps [app s' f]).Leads (app s' f) :=
      leads_lams rfl (by decide) (by simp [hrest])
    refine .of_leads ((h.app _).trans ((leads_delay hf hs' hid).trans hgiven)) ?_
    exact h'.app_delay hf hx hs'

theorem denotes_sub (ht : t.Denotes m) (hu : u.Denotes n) :
    (Standard.sub.apps [t, u]).Denotes (m - n) := by
  have hturns {k : Nat} {s : Term} (hs : s.Closed) (h : Iterates Standard.pred t k s) :
      s.Denotes (m - k) := by
    induction h with
    | zero h => exact ht.of_leads hs h
    | @succ k s s' h _ ih => exact (denotes_pred (ih (hs.of_leads h).2)).of_leads hs h
  have hpred : Standard.pred.Closed := by decide
  have hall : (u.apps [Standard.pred, t]).Closed := ⟨⟨hu.closed, hpred⟩, ht.closed⟩
  have hiterated := hturns hall (hu.iterates hpred ht.closed)
  exact hiterated.of_leads ⟨⟨by decide, ht.closed⟩, hu.closed⟩ (leads_sub ht.closed hu.closed)

/-! ## Choices -/

theorem denotes_if_isZero {k : Nat} (hs : s.Denotes k) (ht : t.Denotes m) (hu : u.Denotes n) :
    (Standard.choice.apps [app Standard.isZero s, t, u]).Denotes (if k = 0 then m else n) := by
  have hcondition : (app Standard.isZero s).Closed := ⟨by decide, hs.closed⟩
  have hall : (Standard.choice.apps [app Standard.isZero s, t, u]).Closed :=
    ⟨⟨⟨by decide, hcondition⟩, ht.closed⟩, hu.closed⟩
  have hno : (lam "x" Standard.falsity).Closed := by decide
  have hyes : Standard.truth.Closed := by decide
  have hstart : (s.apps [lam "x" Standard.falsity, Standard.truth]).Closed :=
    ⟨⟨hs.closed, hno⟩, hyes⟩
  have hchoice := (leads_choice hcondition ht.closed hu.closed).trans
    ((leads_isZero hs.closed).apps [t, u])
  cases hs.iterates hno hyes with
  | zero h =>
    have hfirst := (h.apps [t, u]).trans (leads_truth ht.closed hu.closed)
    exact ht.of_leads hall (hchoice.trans hfirst)
  | @succ k s s' h h' =>
    have hs' : s'.Closed := (hstart.of_leads h).2
    have hfalsity := h.trans (leads_const "x" (by decide) hs')
    have hsecond := (hfalsity.apps [t, u]).trans (leads_falsity ht.closed hu.closed)
    exact hu.of_leads hall (hchoice.trans hsecond)

theorem denotes_first_pair (ht : t.Denotes m) (hu : u.Denotes n) :
    (app Standard.first (Standard.pair.apps [t, u])).Denotes m := by
  have hpair : (Standard.pair.apps [t, u]).Closed := ⟨⟨by decide, ht.closed⟩, hu.closed⟩
  have htruth : Standard.truth.Closed := by decide
  have hselect := (leads_pair ht.closed hu.closed htruth).trans (leads_truth ht.closed hu.closed)
  exact ht.of_leads ⟨by decide, hpair⟩ ((leads_first hpair).trans hselect)

theorem denotes_second_pair (ht : t.Denotes m) (hu : u.Denotes n) :
    (app Standard.second (Standard.pair.apps [t, u])).Denotes n := by
  have hpair : (Standard.pair.apps [t, u]).Closed := ⟨⟨by decide, ht.closed⟩, hu.closed⟩
  have hfalsity : Standard.falsity.Closed := by decide
  have hselect := (leads_pair ht.closed hu.closed hfalsity).trans
    (leads_falsity ht.closed hu.closed)
  exact hu.of_leads ⟨by decide, hpair⟩ ((leads_second hpair).trans hselect)

end LambdaCalculus.Term
