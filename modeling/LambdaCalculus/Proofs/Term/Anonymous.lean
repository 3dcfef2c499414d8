import LambdaCalculus.Proofs.Named
import LambdaCalculus.Proofs.Term.Nesting
import LambdaCalculus.Term.Rendering

/-!
# Steps without display names

Names on binders and on bound variables are kept for display.  Every operation of the calculus
commutes with forgetting them, also under a limit on nesting: no operation asks for such a name, and
none is there to go deeper for.

* `anonymous_shift`, `anonymous_subst`, `anonymous_beta`, `step?_anonymous` — the operations.
* `stepWithin_anonymous`, `reducibleWithin_anonymous` — and under a limit.
* `indexed_anonymous` — the indexed form of a term does not show the names.
-/

namespace LambdaCalculus.Term

theorem anonymous_shift (d c : Int) (t : Term) :
    (t.shift d c).anonymous = t.anonymous.shift d c := by
  induction t generalizing c with
  | bound i x =>
    simp only [shift, anonymous]
    split <;> rfl
  | free x => rfl
  | lam x b ih => simp [shift, anonymous, ih]
  | app f a ihf iha => simp [shift, anonymous, ihf, iha]

theorem anonymous_subst (j : Int) (u t : Term) :
    (subst j u t).anonymous = subst j u.anonymous t.anonymous := by
  induction t generalizing j u with
  | bound i x =>
    simp only [subst, anonymous]
    split <;> rfl
  | free x => rfl
  | lam x b ih => simp [subst, anonymous, ih, anonymous_shift]
  | app f a ihf iha => simp [subst, anonymous, ihf, iha]

theorem anonymous_beta (b a : Term) : (beta b a).anonymous = beta b.anonymous a.anonymous := by
  simp [beta, anonymous_shift, anonymous_subst]

/-! ## Steps -/

/-- The names kept for display play no part in a step. -/
theorem step?_anonymous (t : Term) : t.anonymous.step? = t.step?.map anonymous := by
  induction t with
  | bound i x | free x | lam x b => rfl
  | app f a ihf iha =>
    cases f with
    | bound i x | free x => rfl
    | lam x b => simp [anonymous, step?, anonymous_beta]
    | app f c =>
      show ((app f c).anonymous.step?).map (app · a.anonymous) = _
      rw [ihf, step?, Option.map_map, Option.map_map]
      rfl

/-! ## Limits on nesting -/

theorem fits_anonymous (room : Nat) (t : Term) : t.anonymous.fits room = t.fits room := by
  induction room generalizing t with
  | zero => rfl
  | succ room ih => cases t <;> simp [anonymous, fits, ih]

theorem substFits_anonymous (u : Term) (room : Nat) (t : Term) :
    substFits u.anonymous room t.anonymous = substFits u room t := by
  induction room generalizing t with
  | zero => rfl
  | succ room ih => cases t <;> simp [anonymous, substFits, ih, fits_anonymous]

theorem betaWithin_anonymous (room : Nat) (b a : Term) :
    betaWithin room b.anonymous a.anonymous = (betaWithin room b a).map anonymous := by
  simp only [betaWithin, ← anonymous_shift, ← anonymous_subst, fits_anonymous, substFits_anonymous]
  split
  · split
    · split <;> rfl
    · rfl
  · rfl

/-- A step under a limit is the same step without names, or the same fault. -/
theorem stepWithin_anonymous (limit : Nat) (t : Term) :
    t.anonymous.stepWithin limit = (t.stepWithin limit).map (Option.map anonymous) := by
  induction t generalizing limit with
  | bound i x | free x | lam x b => cases limit <;> rfl
  | app f a ihf iha =>
    cases limit with
    | zero => rfl
    | succ room =>
      cases f with
      | bound i x | free x => rfl
      | lam x b =>
        show (betaWithin room b.anonymous a.anonymous >>= fun t => pure (some t)) = _
        rw [betaWithin_anonymous, stepWithin]
        cases betaWithin room b a <;> rfl
      | app f c =>
        show ((app f c).anonymous.stepWithin room >>= fun t => pure (t.map (app · a.anonymous))) = _
        rw [ihf, stepWithin]
        rcases stepWithin room (app f c) with fault | _ | u <;> rfl

theorem reducibleWithin_anonymous (limit : Nat) (t : Term) :
    t.anonymous.reducibleWithin limit = t.reducibleWithin limit := by
  induction t generalizing limit with
  | bound i x | free x | lam x b => cases limit <;> rfl
  | app f a ihf iha =>
    cases limit with
    | zero => rfl
    | succ room =>
      cases f with
      | bound i x | free x | lam x b => rfl
      | app f c => exact ihf room

/-! ## What is shown -/

theorem isLam_anonymous (t : Term) : t.anonymous.isLam = t.isLam := by
  cases t <;> rfl

theorem indexedOnto_anonymous (t : Term) (rest : List Char) :
    t.anonymous.indexedOnto rest = t.indexedOnto rest := by
  induction t generalizing rest with
  | bound i x | free x => rfl
  | lam x b ih => simp [anonymous, indexedOnto, ih]
  | app f a ihf iha => simp [anonymous, indexedOnto, ihf, iha, isLam_anonymous]

/-- The indexed form does not show the names. -/
theorem indexed_anonymous (t : Term) : t.anonymous.indexed = t.indexed :=
  indexedOnto_anonymous t []

end LambdaCalculus.Term
