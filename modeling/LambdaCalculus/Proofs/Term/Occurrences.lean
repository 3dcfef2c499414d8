import LambdaCalculus.Proofs.Term.Filling
import LambdaCalculus.Proofs.Term.Substitution

/-!
# What a step can make a term refer to

A term refers to what stands around it in two ways: by indices that point past its own binders, and
by the names of its free variables.  A contraction takes a binder away, so the indices of the body
that point further out have to come down by one, and those of the argument have to go up by as many
binders as the argument is put under.  In the middle of it the term holds an index for a binder that
is gone; the substitution for all indices at once has no such middle, and it is followed here.

* `Term.freeNames` — the names of the free variables, whatever binders stand above them.
* `Term.WellScoped n allowed` — every index is within `n` binders around the term, and every free
  name is allowed.
* `below_rename`, `below_instantiate` — how far indices point after a substitution.
* `Below.beta`, `Below.of_step`, `freeNames_of_step` — a step points no further out, and brings in no
  free name.
-/

namespace LambdaCalculus.Term

/-- The names of the free variables, in the order of their occurrences. -/
def freeNames : Term → List String
  | .bound _ _ => []
  | .free x => [x]
  | .lam _ b => b.freeNames
  | .app f a => f.freeNames ++ a.freeNames

/-- The term refers to `n` binders around it and to the free names allowed, and to nothing else. -/
structure WellScoped (n : Nat) (allowed : String → Prop) (t : Term) : Prop where
  /-- Under `d` binders of the term, every index is less than `n + d`. -/
  below : t.Below n
  /-- Every free name is allowed. -/
  freeNames : ∀ x ∈ t.freeNames, allowed x

/-! ## How far indices point -/

variable {m n : Nat} {t u : Term}

theorem below_rename {ρ : Nat → Nat} (ht : t.Below m) (hρ : ∀ i < m, ρ i < n) :
    (t.rename ρ).Below n := by
  induction t generalizing ρ m n with
  | bound i x => exact hρ i ht
  | free x => exact trivial
  | lam x b ih =>
    apply ih ht
    intro i hi
    cases i with
    | zero => exact Nat.zero_lt_succ n
    | succ i => exact Nat.succ_lt_succ (hρ i (Nat.lt_of_succ_lt_succ hi))
  | app f a ihf iha => exact ⟨ihf ht.1 hρ, iha ht.2 hρ⟩

theorem below_instantiate {σ : Assignment} (ht : t.Below m)
    (hσ : ∀ i < m, ∀ x, (σ i x).Below n) : (t.instantiate σ).Below n := by
  induction t generalizing σ m n with
  | bound i x => exact hσ i ht x
  | free x => exact trivial
  | lam x b ih =>
    apply ih ht
    intro i hi y
    cases i with
    | zero => exact Nat.zero_lt_succ n
    | succ i =>
      -- under one more binder the terms of the assignment are lifted
      have hi : (σ i y).Below n := hσ i (Nat.lt_of_succ_lt_succ hi) y
      exact below_rename hi fun j hj => Nat.succ_lt_succ hj
  | app f a ihf iha => exact ⟨ihf ht.1 hσ, iha ht.2 hσ⟩

/-- A contraction takes one binder away, and points no further out than body and argument did. -/
theorem Below.beta {b a : Term} (hb : b.Below (n + 1)) (ha : a.Below n) :
    (Term.beta b a).Below n := by
  rw [beta_eq_instantiate]
  apply below_instantiate hb
  intro i hi x
  cases i with
  | zero => exact ha
  | succ i => exact Nat.lt_of_succ_lt_succ hi

/-- A step points no further out. -/
theorem Below.of_step (ht : t.Below n) (hu : t.step? = some u) : u.Below n := by
  revert ht
  refine step?_induction ?_ ?_ hu
  · intro x b a h
    exact Below.beta h.1 h.2
  · intro f g c _ ih h
    exact ⟨ih h.1, h.2⟩

theorem Closed.of_step (ht : t.Closed) (hu : t.step? = some u) : u.Closed := Below.of_step ht hu

/-! ## Free names -/

theorem freeNames_rename (ρ : Nat → Nat) (t : Term) : (t.rename ρ).freeNames = t.freeNames := by
  induction t generalizing ρ with
  | bound i x | free x => rfl
  | lam x b ih => exact ih _
  | app f a ihf iha => simp [freeNames, ihf, iha]

/-- The free names of a substitution are those of the term and of what is put into it. -/
theorem mem_freeNames_instantiate {σ : Assignment} {x : String}
    (hx : x ∈ (t.instantiate σ).freeNames) :
    x ∈ t.freeNames ∨ ∃ i y, x ∈ (σ i y).freeNames := by
  induction t generalizing σ with
  | bound i y => exact .inr ⟨i, y, hx⟩
  | free y => exact .inl hx
  | lam y b ih =>
    rcases ih hx with hb | ⟨i, z, hz⟩
    · exact .inl hb
    · cases i with
      | zero => cases hz
      | succ i =>
        rw [Assignment.lift, freeNames_rename] at hz
        exact .inr ⟨i, z, hz⟩
  | app f a ihf iha =>
    rcases List.mem_append.mp hx with hx | hx
    · exact (ihf hx).imp_left (List.mem_append_left _)
    · exact (iha hx).imp_left (List.mem_append_right _)

theorem mem_freeNames_beta {b a : Term} {x : String} (hx : x ∈ (beta b a).freeNames) :
    x ∈ b.freeNames ∨ x ∈ a.freeNames := by
  rw [beta_eq_instantiate] at hx
  rcases mem_freeNames_instantiate hx with hb | ⟨i, y, hy⟩
  · exact .inl hb
  · cases i with
    | zero => exact .inr hy
    | succ i => cases hy

/-- A step brings in no free name. -/
theorem freeNames_of_step (hu : t.step? = some u) : ∀ x ∈ u.freeNames, x ∈ t.freeNames := by
  refine step?_induction ?_ ?_ hu
  · intro y b a x hx
    have hparts := mem_freeNames_beta hx
    exact List.mem_append.mpr hparts
  · intro f g c _ ih x hx
    rcases List.mem_append.mp hx with hx | hx
    · exact List.mem_append_left _ (ih x hx)
    · exact List.mem_append_right _ hx

/-- A step refers to nothing that the term does not refer to. -/
theorem WellScoped.of_step {allowed : String → Prop} (ht : t.WellScoped n allowed)
    (hu : t.step? = some u) : u.WellScoped n allowed :=
  ⟨ht.below.of_step hu, fun x hx => ht.freeNames x (freeNames_of_step hu x hx)⟩

end LambdaCalculus.Term
