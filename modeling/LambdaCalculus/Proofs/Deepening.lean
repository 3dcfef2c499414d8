import LambdaCalculus.Proofs.Scope
import LambdaCalculus.Proofs.Walking
import LambdaCalculus.Program.Load

/-!
# A higher limit keeps outcomes

Under a limit on nesting an operation answers, fails for a reason of its own, or finds a term nested
too deeply.  The last of the three is the only outcome that a higher limit can change: no operation
goes on with a part of an answer, none takes a term that is too deep for something else, and none
asks how much room is left.

`Deepens r s` compares two outcomes: `s` is `r`, unless `r` is that a term was too deep.  It is kept
by every way in which operations are put together, so it follows the operations from the smallest on.

* `Deepens.bind`, `Deepens.mapError`, `Deepens.guard` — the ways of putting operations together.
* `deepens_stepWithin`, `deepens_evaluateWithin` — steps and evaluation.
* `deepens_meaningWithin`, `deepens_resolved`, `deepens_load` — from a text to its term.
* `higher_limit_keeps_outcome` — the operations by name, each with all that it leaves behind.
-/

namespace LambdaCalculus

open Term

/-! ## Comparing outcomes -/

/-- The fault says that a term was nested too deeply. -/
def Fault.IsDepth : Fault → Prop
  | .exhausted _ | .tooDeep => True
  | _ => False

/-- The outcome is that a term was nested too deeply. -/
def MetDepth {α : Type} (r : Except Fault α) : Prop := ∃ fault, r = .error fault ∧ fault.IsDepth

/-- The second outcome is the first, unless that was met for want of depth. -/
inductive Deepens {α : Type} : Except Fault α → Except Fault α → Prop where
  /-- Nothing has changed. -/
  | same (r : Except Fault α) : Deepens r r
  /-- There was not enough depth, and now there may be. -/
  | lifted {fault : Fault} (h : fault.IsDepth) (r : Except Fault α) : Deepens (.error fault) r

namespace Deepens

variable {α β : Type} {r s : Except Fault α}

theorem tooDeep (r : Except Fault α) : Deepens (.error .tooDeep) r :=
  .lifted (show Fault.tooDeep.IsDepth from trivial) r

theorem eq_of_not_metDepth (h : Deepens r s) (hr : ¬ MetDepth r) : s = r := by
  cases h with
  | same => rfl
  | lifted hfault => exact absurd ⟨_, rfl, hfault⟩ hr

/-- Work in two parts is kept if both parts are. -/
theorem bind {f g : α → Except Fault β} (h : Deepens r s) (hfg : ∀ a, Deepens (f a) (g a)) :
    Deepens (r >>= f) (s >>= g) := by
  cases h with
  | same =>
    cases r with
    | error fault => exact .same _
    | ok a => exact hfg a
  | lifted hfault => exact .lifted hfault _

/-- Faults may be reworded, as long as one for want of depth stays one. -/
theorem mapError (h : Deepens r s) {f : Fault → Fault}
    (hf : ∀ fault, fault.IsDepth → (f fault).IsDepth) : Deepens (r.mapError f) (s.mapError f) := by
  cases h with
  | same => exact .same _
  | lifted hfault => exact .lifted (hf _ hfault) _

/-- A test of the depth may pass where it did not. -/
theorem guard {p q : Bool} (hpq : p = true → q = true) (h : Deepens r s) (fault : Fault)
    (hfault : fault.IsDepth) :
    Deepens (if p then r else .error fault) (if q then s else .error fault) := by
  cases p with
  | false => exact .lifted hfault _
  | true =>
    rw [if_pos rfl, if_pos (hpq rfl)]
    exact h

end Deepens

theorem Fault.IsDepth.during {f : Fault} (h : f.IsDepth) (activity : Activity) :
    (f.during activity).IsDepth := by
  cases f <;> exact h

theorem Fault.IsDepth.withSource {f : Fault} (h : f.IsDepth) (source : String) :
    (f.withSource source).IsDepth := by
  cases f with
  | exhausted activity => exact h
  | tooDeep => exact h
  | _ => exact h.elim

theorem Deepens.guarded {α : Type} {r s : Except Fault α} (h : Deepens r s) (activity : Activity) :
    Deepens (guarded activity r : Except Fault α) (guarded activity s) := by
  cases h with
  | same => exact .same _
  | lifted hfault => exact .lifted (hfault.during activity) _

/-! ## Terms -/

/-- Where there is room for one level more, a higher limit has it too. -/
theorem exists_room {room room' : Nat} (h : room + 1 ≤ room') : ∃ n, room' = n + 1 ∧ room ≤ n := by
  obtain ⟨n, rfl⟩ := Nat.exists_eq_add_of_lt h
  exact ⟨room + n, rfl, Nat.le_add_right ..⟩

section
variable {room room' : Nat} (h : room ≤ room')
include h

theorem Term.fits_mono {t : Term} (ht : t.fits room = true) : t.fits room' = true := by
  induction room generalizing room' t with
  | zero => cases ht
  | succ room ih =>
    obtain ⟨room', rfl, hle⟩ := exists_room h
    cases t with
    | bound i x | free x => rfl
    | lam x b => exact ih hle ht
    | app f a =>
      obtain ⟨hf, ha⟩ := Bool.and_eq_true_iff.mp ht
      exact Bool.and_eq_true_iff.mpr ⟨ih hle hf, ih hle ha⟩

theorem Term.substFits_mono {u t : Term} (ht : substFits u room t = true) :
    substFits u room' t = true := by
  induction room generalizing room' t with
  | zero => cases ht
  | succ room ih =>
    obtain ⟨room', rfl, hle⟩ := exists_room h
    cases t with
    | bound i x | free x => rfl
    | lam x b =>
      obtain ⟨hu, hb⟩ := Bool.and_eq_true_iff.mp ht
      exact Bool.and_eq_true_iff.mpr ⟨fits_mono hle hu, ih hle hb⟩
    | app f a =>
      obtain ⟨hf, ha⟩ := Bool.and_eq_true_iff.mp ht
      exact Bool.and_eq_true_iff.mpr ⟨ih hle hf, ih hle ha⟩

theorem deepens_betaWithin (b a : Term) : Deepens (betaWithin room b a) (betaWithin room' b a) := by
  -- the three tests stand inside one another, the argument's outermost
  have hresult := Deepens.guard (fits_mono h (t := subst 0 (a.shift 1 0) b))
    (.same (.ok (beta b a))) .tooDeep trivial
  have hsubst := Deepens.guard (substFits_mono h (u := a.shift 1 0) (t := b)) hresult .tooDeep trivial
  exact Deepens.guard (fits_mono h (t := a)) hsubst .tooDeep trivial

theorem deepens_stepWithin (t : Term) : Deepens (t.stepWithin room) (t.stepWithin room') := by
  induction room generalizing room' t with
  | zero => exact .tooDeep _
  | succ room ih =>
    obtain ⟨room', rfl, hle⟩ := exists_room h
    cases t with
    | bound i x | free x | lam x b => exact .same _
    | app f a =>
      cases f with
      | bound i x | free x => exact .same _
      | lam x b => exact (deepens_betaWithin hle b a).bind fun _ => .same _
      | app f c => exact (ih hle (app f c)).bind fun _ => .same _

theorem deepens_reducibleWithin (t : Term) :
    Deepens (t.reducibleWithin room) (t.reducibleWithin room') := by
  induction room generalizing room' t with
  | zero => exact .tooDeep _
  | succ room ih =>
    obtain ⟨room', rfl, hle⟩ := exists_room h
    cases t with
    | bound i x | free x | lam x b => exact .same _
    | app f a =>
      cases f with
      | bound i x | free x | lam x b => exact .same _
      | app f c => exact ih hle (app f c)

/-! ## Evaluation -/

theorem deepens_walk (n k : Nat) (t : Term) :
    Deepens (walk room silent n k t) (walk room' silent n k t) := by
  induction n generalizing k t with
  | zero => exact .same _
  | succ n ih =>
    rw [walk_silent_succ, walk_silent_succ]
    apply ((deepens_stepWithin h t).guarded .reduction).bind
    intro next
    cases next with
    | none => exact .same _
    | some u => exact ih (k + 1) u

theorem deepens_finish (last : Term) : Deepens (finish room last) (finish room' last) :=
  ((deepens_reducibleWithin h last).guarded .reduction).bind fun _ => .same _

theorem deepens_verdict (n : Nat) (last : Term) :
    Deepens (verdict room n last) (verdict room' n last) :=
  (deepens_reducibleWithin h last).bind fun _ => .same _

theorem deepens_evaluateWithin (patience : Nat) (budget : Option Int) (t : Term) :
    Deepens (evaluateWithin ⟨room, patience⟩ silent budget t)
      (evaluateWithin ⟨room', patience⟩ silent budget t) := by
  cases budget with
  | none =>
    have hevaluate (bounds : Bounds) : evaluateWithin bounds silent none t =
        walk bounds.depth silent bounds.patience 0 t >>= finish bounds.depth :=
      evaluate_silent bounds t
    rw [hevaluate, hevaluate]
    exact (deepens_walk h patience 0 t).bind (deepens_finish h)
  | some budget =>
    -- whether a budget is taken has nothing to do with the limit
    rw [evaluateWithin_some, evaluateWithin_some]
    apply (Deepens.same _).bind
    intro n
    exact (deepens_walk h n 0 t).bind (deepens_verdict h n)

/-! ## Names -/

/-- Names are resolved as under the lower limit, and the scope is left as it was then. -/
theorem deepens_resolveIn (t : Term) (scope : Scope) :
    Deepens ((t.resolveIn room).run.run scope).1 ((t.resolveIn room').run.run scope).1 ∧
      ((t.resolveIn room).run.run scope).2 = ((t.resolveIn room').run.run scope).2 := by
  rw [resolveIn_run, resolveIn_run]
  exact ⟨.guard (fits_mono h) (.same _) _ trivial, rfl⟩

theorem deepens_resolved (t : Term) : Deepens (t.resolved room) (t.resolved room') :=
  (deepens_resolveIn h t Scope.empty).1

/-! ## Programs -/

omit h in
theorem Expr.deepens_applyMeanings
    (hitem : ∀ e : Expr, Deepens (e.meaningWithin room) (e.meaningWithin room'))
    (f : Term) (es : List Expr) :
    Deepens (applyMeanings room f es) (applyMeanings room' f es) := by
  induction es generalizing f with
  | nil => exact .same _
  | cons e es ih =>
    rw [applyMeanings, applyMeanings]
    exact (hitem e).bind fun a => ih (.app f a)

theorem Expr.deepens_meaningWithin (e : Expr) :
    Deepens (e.meaningWithin room) (e.meaningWithin room') := by
  induction room generalizing room' e with
  | zero =>
    rw [meaningWithin]
    exact .tooDeep _
  | succ room ih =>
    obtain ⟨room', rfl, hle⟩ := exists_room h
    cases e with
    | var place x | number place n | character place text => exact .same _
    | lam place params body =>
      cases params with
      | nil => exact .same _
      | cons p ps => exact (ih hle body).bind fun _ => .same _
    | app place items =>
      cases items with
      | nil => exact .same _
      | cons head rest =>
        apply (ih hle head).bind
        intro f
        exact deepens_applyMeanings (ih hle) f rest

theorem deepens_bindAll (result : Term) (ss : List Statement) :
    Deepens (bindAll room result ss) (bindAll room' result ss) := by
  induction ss generalizing result with
  | nil => exact .same _
  | cons s ss ih =>
    cases s with
    | binding place x value =>
      apply (value.deepens_meaningWithin h).bind
      intro v
      exact ih (.app (.lam x result) v)
    | expression place e => exact .same _

theorem Program.deepens_meaning (p : Program) : Deepens (p.meaning room) (p.meaning room') := by
  unfold meaning
  split
  · exact .same _
  · exact .same _
  · rename_i place body before hlast
    apply Deepens.mapError
    · exact (body.deepens_meaningWithin h).bind fun result => deepens_bindAll h result before
    · exact fun _ hfault => hfault.during .desugaring

theorem deepens_load (standard : Bool) (source : String) :
    Deepens (load room standard source) (load room' standard source) := by
  apply (Deepens.same _).bind
  intro p
  apply Deepens.bind
  · apply Deepens.mapError
    · exact Program.deepens_meaning h _
    · exact fun _ hfault => hfault.withSource source
  · exact deepens_resolved h

theorem deepens_run (patience : Nat) (standard : Bool) (budget : Option Int) (source : String) :
    Deepens (run ⟨room, patience⟩ standard budget source)
      (run ⟨room', patience⟩ standard budget source) :=
  (deepens_load h standard source).bind (deepens_evaluateWithin h patience budget)

end

/-- The limit on nesting is only a limit.  A run of a text, one step, an evaluation or the resolution of
names that comes to anything but a term nested too deeply comes to the same under every higher limit:
to the same answer or to the same fault, with the same scope left behind. -/
theorem higher_limit_keeps_outcome {limit limit' : Nat} (h : limit ≤ limit') :
    (∀ patience standard budget source,
      ¬ MetDepth (run ⟨limit, patience⟩ standard budget source) →
        run ⟨limit', patience⟩ standard budget source =
          run ⟨limit, patience⟩ standard budget source) ∧
    (∀ t : Term, ¬ MetDepth (guarded .reduction (t.stepWithin limit) : Except Fault _) →
      (guarded .reduction (t.stepWithin limit') : Except Fault _) =
        guarded .reduction (t.stepWithin limit)) ∧
    (∀ patience t, ¬ MetDepth (evaluate ⟨limit, patience⟩ silent t) →
      evaluate ⟨limit', patience⟩ silent t = evaluate ⟨limit, patience⟩ silent t) ∧
    ∀ (t : Term) scope, ¬ MetDepth ((t.resolveIn limit).run.run scope).1 →
      (t.resolveIn limit').run.run scope = (t.resolveIn limit).run.run scope := by
  refine ⟨?_, ?_, ?_, ?_⟩
  · intro patience standard budget source hrun
    exact (deepens_run h patience standard budget source).eq_of_not_metDepth hrun
  · intro t hstep
    exact ((deepens_stepWithin h t).guarded .reduction).eq_of_not_metDepth hstep
  · intro patience t hevaluate
    exact (deepens_evaluateWithin h patience none t).eq_of_not_metDepth hevaluate
  · intro t scope hresolve
    obtain ⟨houtcome, hscope⟩ := deepens_resolveIn h t scope
    exact Prod.ext (houtcome.eq_of_not_metDepth hresolve) hscope.symm

/-- One step is taken at four levels as at five thousand; at two it is not. -/
theorem higher_limit_keeps_outcome_four : 4 ≤ 5000 ∧
    MetDepth (run ⟨2, 9⟩ false none "(λx. x) a") ∧
    ¬ MetDepth (run ⟨4, 9⟩ false none "(λx. x) a") ∧
    run ⟨5000, 9⟩ false none "(λx. x) a" = .ok (free "a") := by
  have hlow : run ⟨2, 9⟩ false none "(λx. x) a" = .error (.exhausted .desugaring) := by
    unfold run load Program.parse lex
    rw [String.toList_ofList]
    decide +kernel
  have hrun : run ⟨4, 9⟩ false none "(λx. x) a" = .ok (free "a") := by
    unfold run load Program.parse lex
    rw [String.toList_ofList]
    decide +kernel
  have hmet : ¬ MetDepth (run ⟨4, 9⟩ false none "(λx. x) a") := by
    rintro ⟨fault, hfault, -⟩
    rw [hrun] at hfault
    cases hfault
  have hle : 4 ≤ 5000 := by decide
  obtain ⟨hkept, -⟩ := higher_limit_keeps_outcome hle
  exact ⟨hle, ⟨_, hlow, trivial⟩, hmet, (hkept 9 false none _ hmet).trans hrun⟩

end LambdaCalculus
