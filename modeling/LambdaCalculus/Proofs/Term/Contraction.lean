import LambdaCalculus.Proofs.Term.Nesting
import LambdaCalculus.Proofs.Term.Substitution

/-!
# A contraction in one pass

To contract a redex the argument is lifted, put in the place of index `0` of the body, and the whole
is lowered.  Each of the three passes goes through a term, and each may refuse: they all find a term
too deep, and the last would make an index negative if one were still there for the binder that is
gone.  There is none, since the argument was lifted before it was put in, and what the three come to
is what one pass through the body leaves of it.

* `Term.contractum a d t` — what one pass leaves of a part of the body that stands under `d` binders.
* `Term.Movable d c t` — a shift makes no index of the term negative.
* `shiftWithin_of_movable` — then there is nothing but depth that it refuses.
* `movable_subst_lifted` — the last pass can be made.
* `contraction_in_one_pass` — the three passes come to what one leaves.
-/

namespace LambdaCalculus.Term

/-! ## One pass -/

/-- What the contraction with the argument `a` leaves of a part of the body that stands under `d`
binders.  Index `d` is that of the binder that goes away: the argument stands in its place, with
every index that points out of it raised over the `d` binders.  Indices further out come down by one;
all others, and all names, stay as they are. -/
def contractum (a : Term) : Nat → Term → Term
  | d, .bound k x =>
    if k < d then .bound k x
    else if k = d then a.rename (· + d)
    else .bound (k - 1) x
  | _, .free x => .free x
  | d, .lam x b => .lam x (contractum a (d + 1) b)
  | d, .app f c => .app (contractum a d f) (contractum a d c)

theorem contractum_eq_instantiate (a : Term) (d : Nat) (t : Term) :
    contractum a d t = t.instantiate (Assignment.place a d) := by
  induction t generalizing d with
  | bound k x => rfl
  | free x => rfl
  | lam x b ih => rw [contractum, ih, instantiate_lam, lift_place]
  | app f c ihf ihc => rw [contractum, ihf, ihc, instantiate_app]

/-- Lifting, putting in and lowering leave what one pass leaves. -/
theorem beta_eq_contractum (b a : Term) : beta b a = contractum a 0 b := by
  rw [beta_eq_instantiate, ← place_zero, contractum_eq_instantiate]

/-! ## Shifts that are not refused -/

/-- A shift by `d` from the cutoff `c` on makes no index negative. -/
def Movable (d : Int) : Int → Term → Prop
  | c, .bound i _ => (i : Int) < c ∨ 0 ≤ (i : Int) + d
  | _, .free _ => True
  | c, .lam _ b => Movable d (c + 1) b
  | c, .app f a => Movable d c f ∧ Movable d c a

/-- A shift that makes no index negative is refused only where the term is too deep. -/
theorem shiftWithin_of_movable {d c : Int} {t : Term} (h : t.Movable d c) (room : Nat) :
    shiftWithin d room c t = if t.fits room then .ok (t.shift d c) else .error .tooDeep := by
  induction room generalizing t c with
  | zero => rfl
  | succ room ih =>
    cases t with
    | bound i x =>
      have hfits : (bound i x).fits (room + 1) = true := rfl
      rw [hfits, if_pos rfl, shiftWithin, shift]
      by_cases hi : (i : Int) < c
      · rw [if_pos hi, if_pos hi]
        rfl
      · have hmoved : ¬ (i : Int) + d < 0 := by
          rcases h with h | h <;> omega
        rw [if_neg hi, if_neg hi, if_neg hmoved]
        rfl
    | free x => rfl
    | lam x b =>
      rw [shiftWithin, fits, shift, ih (show b.Movable d (c + 1) from h)]
      by_cases hb : b.fits room = true
      · simp only [hb, if_true]
        rfl
      · simp only [hb]
        rfl
    | app f a =>
      rw [shiftWithin, fits, shift, ih h.1]
      by_cases hf : f.fits room = true
      · simp only [hf, if_true, ok_bind, Bool.true_and, ih h.2]
        by_cases ha : a.fits room = true
        · simp only [ha, if_true]
          rfl
        · simp only [ha]
          rfl
      · simp only [hf, Bool.false_and]
        rfl

/-- Raising makes no index negative. -/
theorem movable_of_nonneg {d : Int} (hd : 0 ≤ d) (c : Int) (t : Term) : t.Movable d c := by
  induction t generalizing c with
  | bound i x => exact .inr (by omega)
  | free x => exact trivial
  | lam x b ih => exact ih (c + 1)
  | app f a ihf iha => exact ⟨ihf c, iha c⟩

theorem settles_shiftWithin {d c : Int} {t : Term} (h : t.Movable d c) :
    Settles (fun room => shiftWithin d room c t) (.ok (t.shift d c)) := by
  simp only [shiftWithin_of_movable h]
  exact .guard (enough_fits t) (.const _) .tooDeep trivial

/-- Under a binder index `0` is not lowered. -/
theorem movable_lower_of_pos {c : Int} (hc : 0 < c) (t : Term) : t.Movable (-1) c := by
  induction t generalizing c with
  | bound i x =>
    show (i : Int) < c ∨ 0 ≤ (i : Int) + -1
    omega
  | free x => exact trivial
  | lam x b ih => exact ih (by omega)
  | app f a ihf iha => exact ⟨ihf hc, iha hc⟩

/-- What was raised can be lowered again. -/
theorem movable_raised {n c : Int} (hn : 0 ≤ n) (hc : 0 ≤ c) (t : Term) :
    (t.shift n c).Movable (-n) c := by
  induction t generalizing c with
  | bound i x =>
    rw [shift]
    split
    · next hi => exact .inl hi
    · have hraised := Int.toNat_of_nonneg (Int.add_nonneg (Int.natCast_nonneg i) hn)
      exact .inr (by omega)
  | free x => exact trivial
  | lam x b ih => exact ih (by omega)
  | app f a ihf iha => exact ⟨ihf hc, iha hc⟩

/-- After a lifted argument is put in, no index is left for the binder that is gone. -/
theorem movable_subst_lifted (b a : Term) : (subst 0 (a.shift 1 0) b).Movable (-1) 0 := by
  induction b with
  | bound i x =>
    rw [subst]
    split
    · exact movable_raised (by decide) le_rfl a
    · next hi => exact .inr (by omega)
  | free x => exact trivial
  | lam x b =>
    -- the cutoff is above zero here, whatever was put in
    exact movable_lower_of_pos (c := 0 + 1) (by decide) _
  | app f c ihf ihc => exact ⟨ihf, ihc⟩

/-! ## Three passes -/

/-- Contracts `(λ. body) arg` in three passes, each of which may refuse. -/
def betaInPasses (room : Nat) (body arg : Term) : Except Fault Term := do
  let lifted ← shiftWithin 1 room 0 arg
  let merged ← substWithin room 0 lifted body
  shiftWithin (-1) room 0 merged

/-- The three passes are refused where one of the three terms is too deep, and nowhere else. -/
theorem betaInPasses_eq (room : Nat) (b a : Term) : betaInPasses room b a = betaWithin room b a := by
  have hlift := shiftWithin_of_movable (movable_of_nonneg (by decide) 0 a : a.Movable 1 0) room
  have hlower := shiftWithin_of_movable (movable_subst_lifted b a) room
  rw [betaInPasses, betaWithin, hlift]
  by_cases ha : a.fits room = true
  · simp only [ha, if_true, ok_bind, substWithin]
    by_cases hb : substFits (a.shift 1 0) room b = true
    · simp only [hb, if_true]
      exact hlower
    · simp only [hb]
      rfl
  · simp only [ha]
    rfl

/-- A contraction is one pass through the body.  The three passes by which it is made are never
refused because an index would become negative, and under no limit do they come to anything but what
the one pass leaves, unless a term is too deep. -/
theorem contraction_in_one_pass (b a : Term) :
    beta b a = contractum a 0 b ∧
    (∀ room, betaWithin room b a = betaInPasses room b a) ∧
    (∀ room, betaInPasses room b a = .ok (contractum a 0 b) ∨
      betaInPasses room b a = .error .tooDeep) ∧
    ∃ i, ∀ room, i ≤ room → betaInPasses room b a = .ok (contractum a 0 b) := by
  have hsettles := settles_betaWithin b a
  rw [beta_eq_contractum] at hsettles
  refine ⟨beta_eq_contractum b a, fun room => (betaInPasses_eq room b a).symm, ?_, ?_⟩
  · intro room
    rw [betaInPasses_eq]
    rcases hsettles.limited room with h | ⟨fault, h, -⟩
    · exact .inl h
    · rw [betaWithin_eq_error h] at h
      exact .inr h
  · obtain ⟨i, hi⟩ := hsettles.reached
    refine ⟨i, ?_⟩
    intro room hroom
    rw [betaInPasses_eq, hi room hroom]

end LambdaCalculus.Term
