import LambdaCalculus.Proofs.Term.Lowering

/-!
# How substitutions and shifts pass one another

Two terms that are put in the places of two indices can be put in one after the other, in either
order, if the second does not hold the index of the first: what is put in first takes the second
substitution along with it.  Indices can be raised before a term is put in or after it, and then
the index whose place it takes is raised as all others are.  Under a binder everything moves at once
— the index, the cutoff and the term that is put in — so both laws are proved of the substitution
for all indices, where a binder makes no difference.

* `subst_eq_self_of_not_occurs` — nothing is put in the place of an index that does not occur.
* `subst_subst` — one substitution passes another.
* `shift_subst` — a shift passes a substitution.
* `substitution_interchange` — apart from limits, for the operations that meet one.
-/

namespace LambdaCalculus.Term

/-- Where an index does not occur, nothing is put in its place.  Under `d` abstractions of the term the
index is `d` more. -/
theorem subst_eq_self_of_not_occurs {j : Nat} {t : Term} (h : ∀ d, ¬ t.Occurs d (j + d))
    (u : Term) : subst j u t = t := by
  induction t generalizing j u with
  | bound i x =>
    have hi : (i : Int) ≠ j := by
      intro hij
      obtain rfl : i = j := Int.ofNat_inj.mp hij
      exact h 0 (.here i x)
    rw [subst, if_neg hi]
  | free x => rfl
  | lam x b ih =>
    have hb : ∀ d, ¬ b.Occurs d (j + 1 + d) := by
      intro d hd
      rw [Nat.add_right_comm] at hd
      exact h (d + 1) (.body x hd)
    rw [subst, ← Nat.cast_succ, ih hb]
  | app f a ihf iha =>
    have hf : ∀ d, ¬ f.Occurs d (j + d) := fun d hd => h d (.fn hd a)
    have ha : ∀ d, ¬ a.Occurs d (j + d) := fun d hd => h d (.arg f hd)
    rw [subst, ihf hf, iha ha]

/-- A substitution after another: what each index comes to by the two. -/
theorem subst_subst_eq_instantiate (j k : Nat) (u v t : Term) :
    subst k v (subst j u t) = t.instantiate fun i x => subst k v (Assignment.replace j u i x) := by
  simp only [subst_eq_instantiate, instantiate_instantiate]

/-- A substitution passes another, which it takes along into the term that is put in. -/
theorem subst_subst {j k : Nat} (hjk : j ≠ k) {v : Term} (hv : ∀ d, ¬ v.Occurs d (j + d))
    (u t : Term) : subst k v (subst j u t) = subst j (subst k v u) (subst k v t) := by
  rw [subst_subst_eq_instantiate, subst_subst_eq_instantiate]
  congr 1
  funext i x
  by_cases hij : i = j
  · -- the first substitution puts its term in, and so does the last
    simp only [Assignment.replace, hij, if_true, if_neg hjk, subst]
  · by_cases hik : i = k
    · -- in the term that the other puts in, index `j` does not occur
      simp only [Assignment.replace, hik, if_true, if_neg hjk.symm, subst,
        subst_eq_self_of_not_occurs hv]
    · have hij' : (i : Int) ≠ j := by omega
      have hik' : (i : Int) ≠ k := by omega
      simp only [Assignment.replace, if_neg hij, if_neg hik, subst, if_neg hij', if_neg hik']

theorem raise_injective (n c : Nat) : Function.Injective (raise n c) := by
  intro i j h
  simp only [raise] at h
  split at h <;> split at h <;> omega

/-- A shift passes a substitution, and raises the index that is replaced with all others. -/
theorem shift_subst (n c j : Nat) (u t : Term) :
    (subst j u t).shift n c = subst (raise n c j : Nat) (u.shift n c) (t.shift n c) := by
  simp only [shift_eq_rename, subst_eq_instantiate, rename_instantiate, instantiate_rename]
  congr 1
  funext i x
  by_cases hij : i = j
  · simp only [Assignment.replace, hij, if_true]
  · have hraised : raise n c i ≠ raise n c j := (raise_injective n c).ne hij
    simp only [Assignment.replace, if_neg hij, if_neg hraised, rename_bound]

/-! ## Interchange under limits -/

section
variable (t u v : Term) (j k n c : Nat)

theorem settles_subst_subst :
    Settles (fun room => substWithin room j u t >>= substWithin room k v)
      (.ok (subst k v (subst j u t))) :=
  (settles_substWithin j u t).bind (settles_substWithin k v _)

theorem settles_subst_shift :
    Settles (fun room => substWithin room j u t >>= shiftWithin n room c)
      (.ok ((subst j u t).shift n c)) :=
  (settles_substWithin j u t).bind
    (settles_shiftWithin (movable_of_nonneg (Int.natCast_nonneg n) c _))

end

/-- The two laws of substitution.  Where index `j` does not occur in `v`, a substitution of `v` for `k`
after one of `u` for `j` comes to the same as one before it, if it is made in `u` as well.  A shift
after a substitution comes to the same as one before it, if it is made in the term that is put in as
well, and if the index is raised too where it is not below the cutoff. -/
theorem substitution_interchange (t u v : Term) (j k n c : Nat) :
    (j ≠ k → (∀ d, ¬ v.Occurs d (j + d)) →
      ∃ r, Settles (fun room => substWithin room j u t >>= substWithin room k v) (.ok r) ∧
        Settles (fun room => do
          let s ← substWithin room k v t
          let w ← substWithin room k v u
          substWithin room j w s) (.ok r)) ∧
    ∃ r, Settles (fun room => substWithin room j u t >>= shiftWithin n room c) (.ok r) ∧
      Settles (fun room => do
        let s ← shiftWithin n room c t
        let w ← shiftWithin n room c u
        substWithin room (if c ≤ j then j + n else j : Nat) w s) (.ok r) := by
  constructor
  · intro hjk hv
    refine ⟨_, settles_subst_subst t u v j k, ?_⟩
    rw [subst_subst hjk hv]
    exact (settles_substWithin k v t).bind
      ((settles_substWithin k v u).bind (settles_substWithin j _ _))
  · have hmovable (s : Term) : s.Movable n c := movable_of_nonneg (Int.natCast_nonneg n) c s
    have hraise : raise n c j = if c ≤ j then j + n else j := by
      simp only [raise]
      split <;> split <;> omega
    refine ⟨_, settles_subst_shift t u j n c, ?_⟩
    rw [shift_subst, hraise]
    exact (settles_shiftWithin (hmovable t)).bind
      ((settles_shiftWithin (hmovable u)).bind (settles_substWithin _ _ _))

/-- Below a binder: in `λx. #1 #2`, `#1` is put in the place of index `0`, and then `λy. #0 #3`, which
does not hold that index, in the place of index `1`.  It comes to stand in both places, where it is
`λy. #0 #4`.  Raising all indices by two makes index `0` index `2`. -/
theorem substitution_interchange_under_binder :
    (0 ≠ 1 ∧ ∀ d, ¬ (lam "y" (app (bound 0 "y") (bound 3 "w"))).Occurs d (0 + d)) ∧
    (Settles (fun room =>
        substWithin room 0 (bound 1 "v") (lam "x" (app (bound 1 "u") (bound 2 "v"))) >>=
        substWithin room 1 (lam "y" (app (bound 0 "y") (bound 3 "w"))))
      (.ok (lam "x" (app (lam "y" (app (bound 0 "y") (bound 4 "w")))
        (lam "y" (app (bound 0 "y") (bound 4 "w")))))) ∧
    Settles (fun room => do
        let s ← substWithin room 1 (lam "y" (app (bound 0 "y") (bound 3 "w")))
          (lam "x" (app (bound 1 "u") (bound 2 "v")))
        let w ← substWithin room 1 (lam "y" (app (bound 0 "y") (bound 3 "w"))) (bound 1 "v")
        substWithin room 0 w s)
      (.ok (lam "x" (app (lam "y" (app (bound 0 "y") (bound 4 "w")))
        (lam "y" (app (bound 0 "y") (bound 4 "w"))))))) ∧
    Settles (fun room =>
        substWithin room 0 (bound 1 "v") (lam "x" (app (bound 1 "u") (bound 2 "v"))) >>=
        shiftWithin 2 room 0)
      (.ok (lam "x" (app (bound 4 "v") (bound 4 "v")))) ∧
    Settles (fun room => do
        let s ← shiftWithin 2 room 0 (lam "x" (app (bound 1 "u") (bound 2 "v")))
        let w ← shiftWithin 2 room 0 (bound 1 "v")
        substWithin room 2 w s)
      (.ok (lam "x" (app (bound 4 "v") (bound 4 "v")))) := by
  have hne : 0 ≠ 1 := by decide
  have hplaces : ∀ d k, (lam "y" (app (bound 0 "y") (bound 3 "w"))).Occurs d k → k ≠ 0 + d := by
    rw [forall_occurs_lam, forall_occurs_app, forall_occurs_bound, forall_occurs_bound]
    decide
  have hv : ∀ d, ¬ (lam "y" (app (bound 0 "y") (bound 3 "w"))).Occurs d (0 + d) :=
    fun d hd => hplaces d _ hd rfl
  obtain ⟨hsubst, s, hs, hs'⟩ := substitution_interchange
    (lam "x" (app (bound 1 "u") (bound 2 "v"))) (bound 1 "v")
    (lam "y" (app (bound 0 "y") (bound 3 "w"))) 0 1 2 0
  obtain ⟨r, hr, hr'⟩ := hsubst hne hv
  -- what both come to is computed on one side
  cases hr.unique (settles_subst_subst _ _ _ 0 1)
  cases hs.unique (settles_subst_shift _ _ 0 2 0)
  exact ⟨⟨hne, hv⟩, ⟨hr, hr'⟩, hs, hs'⟩

/-- Where the second term does hold the index of the first, the order matters: with `a` in the place
of index `0`, and index `0` itself in that of index `1`, `#1` becomes `#0` or `a`. -/
example : subst 1 (bound 0 "y") (subst 0 (free "a") (bound 1 "x")) = bound 0 "y" ∧
    subst 0 (subst 1 (bound 0 "y") (free "a")) (subst 1 (bound 0 "y") (bound 1 "x")) = free "a" := by
  decide

end LambdaCalculus.Term
