import LambdaCalculus.Proofs.Term.Contraction

/-!
# Lowering and raising

To lower a term by `n` is to shift it by `-n`: every index from the cutoff on comes down by `n`, and
below each binder of the term the cutoff is one more.  Two things can go wrong.  An index can become
negative, and then the shift is refused.  Or an index can come down to below the cutoff, where it
points to a binder that it did not point to before; nothing is refused, but raising the term again
leaves the index where it is.  The first is asked by comparing with zero, the second by comparing
with a cutoff that moves, so there are lowerings that go wrong without a fault.

* `Term.Occurs` — an index stands somewhere in the term, under so many of its abstractions.
* `settles_shiftWithin_eq_error_iff` — a shift is refused exactly if an index would become negative.
* `movable_lower_iff` — which occurrences keep a term from being lowered.
* `raise_lower_eq_self_iff` — which occurrences do not come back.
* `lower_raise` — what was raised comes back always.
* `lowering_is_undone_iff` — all of it together, for the shifts that can be refused.
-/

namespace LambdaCalculus.Term

/-! ## Occurrences -/

/-- Index `k` stands somewhere in the term, under `d` of its abstractions. -/
inductive Occurs : Term → Nat → Nat → Prop where
  /-- The term is a variable of the index. -/
  | here (k : Nat) (x : String) : Occurs (.bound k x) 0 k
  /-- It stands in the body of an abstraction. -/
  | body {b : Term} {d k : Nat} (x : String) (h : b.Occurs d k) : Occurs (.lam x b) (d + 1) k
  /-- It stands in what is applied. -/
  | fn {f : Term} {d k : Nat} (h : f.Occurs d k) (a : Term) : Occurs (.app f a) d k
  /-- It stands in an argument. -/
  | arg {a : Term} {d k : Nat} (f : Term) (h : a.Occurs d k) : Occurs (.app f a) d k

section
variable {P : Nat → Nat → Prop}

theorem forall_occurs_bound {i : Nat} {x : String} :
    (∀ d k, (bound i x).Occurs d k → P d k) ↔ P 0 i := by
  constructor
  · intro h
    exact h 0 i (.here i x)
  · rintro h d k ⟨⟩
    exact h

theorem forall_occurs_free {x : String} : ∀ d k, (free x).Occurs d k → P d k := by
  rintro d k ⟨⟩

theorem forall_occurs_lam {x : String} {b : Term} :
    (∀ d k, (lam x b).Occurs d k → P d k) ↔ ∀ d k, b.Occurs d k → P (d + 1) k := by
  constructor
  · intro h d k hb
    exact h (d + 1) k (.body x hb)
  · intro h d k hlam
    cases hlam with
    | body _ hb => exact h _ k hb

theorem forall_occurs_app {f a : Term} :
    (∀ d k, (app f a).Occurs d k → P d k) ↔
      (∀ d k, f.Occurs d k → P d k) ∧ ∀ d k, a.Occurs d k → P d k := by
  constructor
  · intro h
    exact ⟨fun d k hf => h d k (.fn hf a), fun d k ha => h d k (.arg f ha)⟩
  · rintro ⟨hf, ha⟩ d k happ
    cases happ with
    | fn h _ => exact hf d k h
    | arg _ h => exact ha d k h

end

/-! ## Shifts that are refused -/

/-- A shift that would make an index negative is refused, unless a term is too deep. -/
theorem settles_shiftWithin_of_not_movable {d c : Int} {t : Term} (h : ¬ t.Movable d c) :
    Settles (fun room => shiftWithin d room c t) (.error .negativeIndex) := by
  induction t generalizing c with
  | bound i x =>
    obtain ⟨hcutoff, hnegative⟩ := not_or.mp h
    have hrefused (room : Nat) : shiftWithin d (room + 1) c (bound i x) = .error .negativeIndex := by
      rw [shiftWithin, if_neg hcutoff, if_pos (not_le.mp hnegative)]
      rfl
    refine .succ rfl ?_
    simp only [hrefused]
    exact .const _
  | free x => exact absurd trivial h
  | lam x b ih => exact .succ rfl ((ih h).bind_error _)
  | app f a ihf iha =>
    refine .succ rfl ?_
    by_cases hf : f.Movable d c
    · have ha : ¬ a.Movable d c := fun ha => h ⟨hf, ha⟩
      exact (settles_shiftWithin hf).bind ((iha ha).bind_error _)
    · exact (ihf hf).bind_error _

/-- A shift is refused exactly if it would make an index negative. -/
theorem settles_shiftWithin_eq_error_iff {d c : Int} {t : Term} :
    Settles (fun room => shiftWithin d room c t) (.error .negativeIndex) ↔ ¬ t.Movable d c := by
  refine ⟨?_, settles_shiftWithin_of_not_movable⟩
  intro h hmovable
  cases h.unique (settles_shiftWithin hmovable)

/-- Otherwise it answers, as the shift that is never refused does. -/
theorem settles_shiftWithin_eq_ok_iff {d c : Int} {t : Term} :
    Settles (fun room => shiftWithin d room c t) (.ok (t.shift d c)) ↔ t.Movable d c := by
  refine ⟨?_, settles_shiftWithin⟩
  intro h
  by_contra hmovable
  cases h.unique (settles_shiftWithin_of_not_movable hmovable)

/-! ## What cannot be lowered, and what does not come back -/

/-- A term can be lowered by `n` unless an index from the cutoff on is less than `n`. -/
theorem movable_lower_iff {n c : Nat} {t : Term} :
    t.Movable (-n) c ↔ ∀ d k, t.Occurs d k → k < c + d ∨ n ≤ k := by
  induction t generalizing c with
  | bound i x =>
    rw [forall_occurs_bound, Movable]
    omega
  | free x => exact iff_of_true trivial forall_occurs_free
  | lam x b ih =>
    have hb := @ih (c + 1)
    rw [Nat.cast_add_one] at hb
    simp only [forall_occurs_lam, Movable, hb, Nat.add_assoc, Nat.add_comm 1]
  | app f a ihf iha => rw [forall_occurs_app, Movable, ihf, iha]

/-- Lowered by `n` and raised again, a term is what it was exactly if none of the `n` indices from the
cutoff on occurs in it. -/
theorem raise_lower_eq_self_iff {n c : Nat} {t : Term} :
    (t.shift (-n) c).shift n c = t ↔ ∀ d k, t.Occurs d k → k < c + d ∨ c + d + n ≤ k := by
  induction t generalizing c with
  | bound i x =>
    rw [forall_occurs_bound]
    by_cases hi : (i : Int) < c
    · have hkept (d : Int) : (bound i x).shift d c = bound i x := by simp [shift, hi]
      rw [hkept, hkept]
      exact iff_of_true rfl (by omega)
    · have hlowered : (bound i x).shift (-n) c = bound (i - n) x := by
        simp only [shift, if_neg hi, bound.injEq, and_true]
        omega
      rw [hlowered]
      by_cases hcaptured : ((i - n : Nat) : Int) < c
      · -- below the cutoff the index is not raised again, and it was not below it before
        have hkept : (bound (i - n) x).shift n c = bound (i - n) x := by simp [shift, hcaptured]
        simp only [hkept, bound.injEq, and_true]
        omega
      · simp only [shift, if_neg hcaptured, bound.injEq, and_true]
        omega
  | free x => exact iff_of_true rfl forall_occurs_free
  | lam x b ih =>
    have hb := @ih (c + 1)
    rw [Nat.cast_add_one] at hb
    simp only [forall_occurs_lam, shift, lam.injEq, true_and, hb, Nat.add_assoc, Nat.add_comm 1]
  | app f a ihf iha => simp only [forall_occurs_app, shift, app.injEq, ihf, iha]

/-- What was raised comes back when it is lowered. -/
theorem lower_raise (n c : Nat) (t : Term) : (t.shift n c).shift (-n) c = t := by
  induction t generalizing c with
  | bound i x =>
    by_cases hi : (i : Int) < c
    · simp [shift, hi]
    · have hraised : ¬ (((i : Int) + n).toNat : Int) < c := by omega
      simp only [shift, if_neg hi, if_neg hraised, bound.injEq, and_true]
      omega
  | free x => rfl
  | lam x b ih =>
    have hb := ih (c + 1)
    rw [Nat.cast_add_one] at hb
    simp only [shift, hb]
  | app f a ihf iha => simp only [shift, ihf, iha]

/-! ## Lowering under limits -/

/-- Two shifts that make no index negative can be made one after the other. -/
theorem settles_shift_shift {d e c : Int} {t : Term} (hd : t.Movable d c)
    (he : (t.shift d c).Movable e c) :
    Settles (fun room => shiftWithin d room c t >>= shiftWithin e room c)
      (.ok ((t.shift d c).shift e c)) :=
  (settles_shiftWithin hd).bind (settles_shiftWithin he)

/-- A term is lowered by `n` and raised again to what it was exactly if none of the `n` indices from
the cutoff on occurs in it. -/
theorem settles_raise_lower_iff {n c : Nat} {t : Term} :
    Settles (fun room => shiftWithin (-n) room c t >>= shiftWithin n room c) (.ok t) ↔
      ∀ d k, t.Occurs d k → k < c + d ∨ c + d + n ≤ k := by
  have hraise (u : Term) : u.Movable n c := movable_of_nonneg (Int.natCast_nonneg n) c u
  constructor
  · intro h
    by_cases hlower : t.Movable (-n) c
    · have hback := settles_shift_shift hlower (hraise _)
      exact raise_lower_eq_self_iff.mp (Except.ok.inj (hback.unique h))
    · cases h.unique ((settles_shiftWithin_of_not_movable hlower).bind_error _)
  · intro h
    have hlower : t.Movable (-n) c := by
      refine movable_lower_iff.mpr ?_
      intro d k hk
      have hgap := h d k hk
      omega
    have hback := settles_shift_shift hlower (hraise _)
    rwa [raise_lower_eq_self_iff.mpr h] at hback

/-- Lowering by `n` is undone by raising exactly where nothing falls in the gap.

It is refused if and only if, under some `d` abstractions, there is an index that is at least the
cutoff there, `c + d`, and less than `n`; otherwise it is not, whatever else the term holds.  It
comes out right, so that raising gives the term back, if and only if there is no index among the `n`
from the cutoff there on.  The other way round nothing goes wrong: what was raised is never refused
and comes back. -/
theorem lowering_is_undone_iff (t : Term) (n c : Nat) :
    (Settles (fun room => shiftWithin (-n) room c t) (.error .negativeIndex) ↔
      ∃ d k, t.Occurs d k ∧ c + d ≤ k ∧ k < n) ∧
    (Settles (fun room => shiftWithin (-n) room c t) (.ok (t.shift (-n) c)) ↔
      ¬ ∃ d k, t.Occurs d k ∧ c + d ≤ k ∧ k < n) ∧
    (Settles (fun room => shiftWithin (-n) room c t >>= shiftWithin n room c) (.ok t) ↔
      ¬ ∃ d k, t.Occurs d k ∧ c + d ≤ k ∧ k < c + d + n) ∧
    Settles (fun room => shiftWithin n room c t >>= shiftWithin (-n) room c) (.ok t) := by
  have hrefused : ¬ t.Movable (-n) c ↔ ∃ d k, t.Occurs d k ∧ c + d ≤ k ∧ k < n := by
    rw [movable_lower_iff]
    push Not
    exact Iff.rfl
  have hgap : (∀ d k, t.Occurs d k → k < c + d ∨ c + d + n ≤ k) ↔
      ¬ ∃ d k, t.Occurs d k ∧ c + d ≤ k ∧ k < c + d + n := by
    simp only [not_exists, not_and, not_lt, or_iff_not_imp_left]
  refine ⟨?_, ?_, ?_, ?_⟩
  · rw [settles_shiftWithin_eq_error_iff, hrefused]
  · rw [settles_shiftWithin_eq_ok_iff, ← hrefused, not_not]
  · rw [settles_raise_lower_iff, hgap]
  · have hraise : t.Movable n c := movable_of_nonneg (Int.natCast_nonneg n) c t
    have hlower := movable_raised (Int.natCast_nonneg n) (Int.natCast_nonneg c) t
    have hback := settles_shift_shift hraise hlower
    rwa [lower_raise] at hback

/-- An index can fall in the gap without a fault: in `λ. 1`, lowered by one from the cutoff `0` on, it
comes down to that of the abstraction, and there it stays. -/
example : shiftWithin (-1) 2 0 (.lam "y" (.bound 1 "x")) = .ok (.lam "y" (.bound 0 "x")) ∧
    shiftWithin 1 2 0 (.lam "y" (.bound 0 "x")) = .ok (.lam "y" (.bound 0 "x")) := by
  decide

end LambdaCalculus.Term
