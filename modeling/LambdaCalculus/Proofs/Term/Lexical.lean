import LambdaCalculus.Proofs.Scope

/-!
# Names that agree with indices

A bound variable keeps a name for display.  The name can be relied on where the nearest binder of
that name is the one that the index points to.  Resolution gives indices of this kind, and steps
keep them so: the arguments that a step copies are closed, so no binder can come between a variable
and its own.

* `Term.Lexical xs` — every bound occurrence points to the nearest binder of its name, where the
  binders `xs` are in sight.
* `lexical_resolve`, `Lexical.of_step`.
* `resolve_erased` — the indices can be found again from the names.
* `Term.names` — every name in the term; a step brings in no other.
-/

namespace LambdaCalculus.Term

/-- Every bound occurrence points to the nearest binder of its name, where `xs` are in sight. -/
def Lexical : List String → Term → Prop
  | xs, .bound i x => xs.idxOf? x = some i
  | _, .free _ => True
  | xs, .lam x b => Lexical (x :: xs) b
  | xs, .app f a => Lexical xs f ∧ Lexical xs a

/-- The term with its indices forgotten: every variable is known by its name alone. -/
def erased : Term → Term
  | .bound _ x => .free x
  | .free x => .free x
  | .lam x b => .lam x b.erased
  | .app f a => .app f.erased a.erased

/-- The names of the term's variables and binders. -/
def names : Term → List String
  | .bound _ x => [x]
  | .free x => [x]
  | .lam x b => x :: b.names
  | .app f a => f.names ++ a.names

/-- Resolution points every variable to the nearest binder of its name. -/
theorem lexical_resolve {t : Term} {xs : List String} (h : t.Lexical xs) :
    (resolve xs t).Lexical xs := by
  induction t generalizing xs with
  | bound i x => exact h
  | free x =>
    cases hx : xs.idxOf? x with
    | none =>
      rw [resolve_free_of_none hx]
      exact trivial
    | some i =>
      rw [resolve_free_of_some hx]
      exact hx
  | lam x b ih => exact ih h
  | app f a ihf iha => exact ⟨ihf h.1, iha h.2⟩

/-- The indices can be found again from the names. -/
theorem resolve_erased {t : Term} {xs : List String} (h : t.Lexical xs) :
    resolve xs t.erased = resolve xs t := by
  induction t generalizing xs with
  | bound i x => exact resolve_free_of_some h
  | free x => rfl
  | lam x b ih => simp [erased, ih h]
  | app f a ihf iha => simp [erased, ihf h.1, iha h.2]

theorem Lexical.below {t : Term} {xs : List String} (h : t.Lexical xs) : t.Below xs.length := by
  induction t generalizing xs with
  | bound i x => exact idxOf?_lt h
  | free x => exact trivial
  | lam x b ih => exact ih h
  | app f a ihf iha => exact ⟨ihf h.1, iha h.2⟩

theorem Lexical.closed {t : Term} (h : t.Lexical []) : t.Closed := h.below

/-- Binders further out take nothing from those in sight. -/
theorem Lexical.append {t : Term} {xs : List String} (h : t.Lexical xs) (ys : List String) :
    t.Lexical (xs ++ ys) := by
  induction t generalizing xs with
  | bound i x => exact idxOf?_append_of_some h ys
  | free x => exact trivial
  | lam x b ih => exact ih h
  | app f a ihf iha => exact ⟨ihf h.1, iha h.2⟩

/-- A closed argument can be put in the place of the outermost binder. -/
theorem lexical_fill {a b : Term} (ha : a.Lexical []) {ys : List String} {x : String}
    (hb : b.Lexical (ys ++ [x])) : (b.fill [a] ys.length).Lexical ys := by
  induction b generalizing ys with
  | bound i y =>
    have hy : (ys ++ [x]).idxOf? y = some i := hb
    rw [idxOf?_append] at hy
    cases hi : ys.idxOf? y with
    | some j =>
      rw [hi, Option.some_or] at hy
      cases hy
      rw [fill_bound_of_lt _ y (idxOf?_lt hi)]
      exact hi
    | none =>
      -- the variable belongs to the binder that is consumed
      rw [hi, Option.none_or] at hy
      obtain ⟨j, hj, rfl⟩ := Option.map_eq_some_iff.mp hy
      obtain rfl : j = 0 := Nat.lt_one_iff.mp (idxOf?_lt hj)
      rw [Nat.zero_add]
      exact fill_bound_add [a] ys.length 0 y ▸ ha.append ys
  | free y => exact trivial
  | lam y b ih => exact ih hb
  | app f c ihf ihc => exact ⟨ihf hb.1, ihc hb.2⟩

/-- A step keeps names that agree with indices. -/
theorem Lexical.of_step {t u : Term} (h : t.Lexical []) (hu : t.step? = some u) : u.Lexical [] := by
  revert h
  refine step?_induction ?_ ?_ hu
  · intro x b a h
    rw [beta_eq_fill h.2.closed (Lexical.below h.1)]
    exact @lexical_fill a b h.2 [] x h.1
  · intro f g c _ ih h
    exact ⟨ih h.1, h.2⟩

/-! ## Names -/

theorem names_shift (d c : Int) (t : Term) : (t.shift d c).names = t.names := by
  induction t generalizing c with
  | bound i x =>
    rw [shift]
    split <;> rfl
  | free x => rfl
  | lam x b ih => simp [shift, names, ih]
  | app f a ihf iha => simp [shift, names, ihf, iha]

theorem names_subst_subset (j : Int) (u t : Term) :
    ∀ x ∈ (subst j u t).names, x ∈ u.names ∨ x ∈ t.names := by
  induction t generalizing j u with
  | bound i y =>
    intro x hx
    rw [subst] at hx
    split at hx
    · exact .inl hx
    · exact .inr hx
  | free y => exact fun x hx => .inr hx
  | lam y b ih =>
    intro x hx
    rcases List.mem_cons.mp hx with rfl | hx
    · exact .inr (List.mem_cons_self ..)
    · rcases ih _ _ x hx with h | h
      · rw [names_shift] at h
        exact .inl h
      · exact .inr (List.mem_cons_of_mem _ h)
  | app f a ihf iha =>
    intro x hx
    rcases List.mem_append.mp hx with hx | hx
    · exact (ihf _ _ x hx).imp_right (List.mem_append_left _)
    · exact (iha _ _ x hx).imp_right (List.mem_append_right _)

/-- A step brings in no name. -/
theorem names_of_step {t u : Term} (hu : t.step? = some u) : ∀ x ∈ u.names, x ∈ t.names := by
  refine step?_induction ?_ ?_ hu
  · intro y b a x hx
    rw [beta, names_shift] at hx
    rcases names_subst_subset _ _ _ x hx with h | h
    · rw [names_shift] at h
      exact List.mem_append_right _ h
    · exact List.mem_append_left _ (List.mem_cons_of_mem _ h)
  · intro f g c _ ih x hx
    rcases List.mem_append.mp hx with hx | hx
    · exact List.mem_append_left _ (ih x hx)
    · exact List.mem_append_right _ hx

theorem names_resolve (xs : List String) (t : Term) : (resolve xs t).names = t.names := by
  induction t generalizing xs with
  | bound i x => rfl
  | free x =>
    rw [resolve]
    split <;> rfl
  | lam x b ih => simp [names, ih]
  | app f a ihf iha => simp [names, ihf, iha]

end LambdaCalculus.Term
