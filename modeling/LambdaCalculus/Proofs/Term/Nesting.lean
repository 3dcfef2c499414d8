import LambdaCalculus.Proofs.Settling
import LambdaCalculus.Term.Nesting
import Mathlib.Algebra.Order.Ring.Int

/-!
# Nesting limits do not change answers

Every operation of the calculus under a nesting limit settles on the answer of the operation without
one.

* `settles_substWithin`, `settles_betaWithin`, `settles_stepWithin`, `settles_reducibleWithin`.
* `eq_step?_of_stepWithin` — so an answer under a limit is that one.
* `stepWithin_eq_error`, `reducibleWithin_eq_error` — and the only fault is that there is no room.
* `reducibleWithin_of_stepWithin` — where there is room for a step, there is room to look for one.
-/

namespace LambdaCalculus.Term

/-- Every term is nested no deeper than some room. -/
theorem enough_fits (t : Term) : Enough fun room => t.fits room := by
  induction t with
  | bound i x | free x => exact .succ ⟨0, fun _ _ => rfl⟩
  | lam x b ih => exact .succ ih
  | app f a ihf iha => exact .succ (ihf.and iha)

/-- Some room is enough to put `u` into `t`. -/
theorem enough_substFits (u t : Term) : Enough fun room => substFits u room t := by
  induction t with
  | bound i x | free x => exact .succ ⟨0, fun _ _ => rfl⟩
  | lam x b ih => exact .succ ((enough_fits u).and ih)
  | app f a ihf iha => exact .succ (ihf.and iha)

theorem settles_substWithin (j : Int) (u t : Term) :
    Settles (fun room => substWithin room j u t) (.ok (subst j u t)) :=
  Settles.guard (enough_substFits u t) (.const _) .tooDeep trivial

theorem settles_betaWithin (b a : Term) :
    Settles (fun room => betaWithin room b a) (.ok (beta b a)) := by
  -- the three tests stand inside one another, the argument's outermost
  have hresult := Settles.guard (enough_fits (subst 0 (a.shift 1 0) b))
    (Settles.const (.ok (beta b a))) .tooDeep trivial
  have hsubst := Settles.guard (enough_substFits (a.shift 1 0) b) hresult .tooDeep trivial
  exact Settles.guard (enough_fits a) hsubst .tooDeep trivial

theorem settles_stepWithin (t : Term) : Settles (fun room => t.stepWithin room) (.ok t.step?) := by
  induction t with
  | bound i x | free x | lam x b => exact .succ rfl (.const _)
  | app f a ihf iha =>
    cases f with
    | bound i x | free x => exact .succ rfl (.const _)
    | lam x b => exact .succ rfl ((settles_betaWithin b a).map some)
    | app f c => exact .succ rfl (ihf.map (Option.map (app · a)))

theorem settles_reducibleWithin (t : Term) :
    Settles (fun room => t.reducibleWithin room) (.ok t.reducible) := by
  induction t with
  | bound i x | free x | lam x b => exact .succ rfl (.const _)
  | app f a ihf iha =>
    cases f with
    | bound i x | free x | lam x b => exact .succ rfl (.const _)
    | app f c => exact .succ rfl ihf

/-! ## What a limit does -/

variable {limit : Nat} {t : Term}

theorem eq_step?_of_stepWithin {next : Option Term} (h : t.stepWithin limit = .ok next) :
    t.step? = next :=
  Except.ok.inj ((settles_stepWithin t).eq_of_ok h)

/-- A contraction fails for want of room, and for nothing else. -/
theorem betaWithin_eq_error {b a : Term} {fault : Fault} (h : betaWithin limit b a = .error fault) :
    fault = .tooDeep := by
  simp only [betaWithin] at h
  split at h
  · split at h
    · split at h <;> cases h
      rfl
    · cases h
      rfl
  · cases h
    rfl

theorem stepWithin_eq_error {fault : Fault} (h : t.stepWithin limit = .error fault) :
    fault = .tooDeep := by
  fun_induction stepWithin limit t with
  | case1 t =>
    cases h
    rfl
  | case2 room x b a =>
    rcases bind_eq_error.mp h with hb | ⟨u, -, hu⟩
    · exact betaWithin_eq_error hb
    · cases hu
  | case3 room f a c ih =>
    rcases bind_eq_error.mp h with hf | ⟨u, -, hu⟩
    · exact ih hf
    · cases hu
  | case4 => cases h

theorem reducibleWithin_eq_error {fault : Fault} (h : t.reducibleWithin limit = .error fault) :
    fault = .tooDeep := by
  fun_induction reducibleWithin limit t with
  | case1 t =>
    cases h
    rfl
  | case2 => cases h
  | case3 room f a c ih => exact ih h
  | case4 => cases h

theorem reducibleWithin_of_stepWithin {next : Option Term} (h : t.stepWithin limit = .ok next) :
    t.reducibleWithin limit = .ok next.isSome := by
  induction limit generalizing t next with
  | zero => cases h
  | succ room ih =>
    cases t with
    | bound i x | free x | lam x b =>
      cases h
      rfl
    | app f a =>
      cases f with
      | bound i x | free x =>
        cases h
        rfl
      | lam x b =>
        obtain ⟨u, -, hu⟩ := bind_eq_ok.mp h
        cases hu
        rfl
      | app f c =>
        obtain ⟨u, hf, hu⟩ := bind_eq_ok.mp h
        cases hu
        rw [Option.isSome_map]
        exact ih hf

end LambdaCalculus.Term
