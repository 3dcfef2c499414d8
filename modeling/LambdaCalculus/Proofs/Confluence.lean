import LambdaCalculus.Proofs.Term.Conversion
import LambdaCalculus.Proofs.Term.Substitution

/-!
# Confluence

Two reductions of one term can be brought together again.  Between one contraction and any number of
them stands *parallel* reduction, which contracts any set of the redexes that a term has, at once.
The most that it can do is to contract them all, and whatever else it does can be made up for in one
more parallel reduction.  So two of them from one term come together in one more each.

* `Term.Parallel` — some of the redexes of a term are contracted at once.
* `Term.developed` — all of them are.
* `Parallel.developed` — after some, a parallel reduction leads to all.
* `Converts.exists_reduces` — terms that are convertible reduce to a common one.
* `Converts.reduces` — and to either of the two, if that has no redex.
-/

namespace LambdaCalculus.Term

open Relation

/-- Some of the redexes of the term are contracted at once. -/
inductive Parallel : Term → Term → Prop where
  /-- A bound variable has none. -/
  | bound (i : Nat) (x : String) : Parallel (bound i x) (bound i x)
  /-- A free variable has none. -/
  | free (x : String) : Parallel (free x) (free x)
  /-- Those under a binder. -/
  | lam (x : String) {b c : Term} (h : Parallel b c) : Parallel (lam x b) (lam x c)
  /-- Those in both parts of an application. -/
  | app {f g a c : Term} (hf : Parallel f g) (ha : Parallel a c) : Parallel (app f a) (app g c)
  /-- The application itself, and those in its parts. -/
  | contract (x : String) {b d a c : Term} (hb : Parallel b d) (ha : Parallel a c) :
      Parallel (app (lam x b) a) (beta d c)

/-- The term with all its redexes contracted at once. -/
def developed : Term → Term
  | .bound i x => .bound i x
  | .free x => .free x
  | .lam x b => .lam x b.developed
  | .app (.lam _ b) a => beta b.developed a.developed
  | .app f a => .app f.developed a.developed

variable {t u v : Term}

/-! ## Between one contraction and many -/

theorem Parallel.refl (t : Term) : Parallel t t := by
  induction t with
  | bound i x => exact .bound i x
  | free x => exact .free x
  | lam x b ih => exact .lam x ih
  | app f a ihf iha => exact .app ihf iha

theorem Beta.parallel (h : Beta t u) : Parallel t u := by
  induction h with
  | contract x b a => exact .contract x (.refl b) (.refl a)
  | lam x _ ih => exact .lam x ih
  | fn _ a ih => exact .app ih (.refl a)
  | arg f _ ih => exact .app (.refl f) ih

theorem Parallel.reduces (h : Parallel t u) : t.Reduces u := by
  induction h with
  | bound i x => exact .refl
  | free x => exact .refl
  | lam x _ ih => exact ih.lam x
  | app _ _ ihf iha => exact ihf.app iha
  | @contract x b d a c _ _ ihb iha =>
    have hparts : (Term.app (Term.lam x b) a).Reduces (Term.app (Term.lam x d) c) :=
      (ihb.lam x).app iha
    exact hparts.tail (.contract x d c)

/-! ## Substitution -/

theorem Parallel.rename (h : Parallel t u) (ρ : Nat → Nat) :
    Parallel (t.rename ρ) (u.rename ρ) := by
  induction h generalizing ρ with
  | bound i x => exact .refl _
  | free x => exact .free x
  | lam x _ ih => exact .lam x (ih (under ρ))
  | app _ _ ihf iha => exact .app (ihf ρ) (iha ρ)
  | contract x _ _ ihb iha =>
    rw [rename_beta]
    exact .contract x (ihb (under ρ)) (iha ρ)

/-- The redexes of a term and those of what is put into it are contracted at once. -/
theorem Parallel.instantiate (h : Parallel t u) {σ τ : Assignment}
    (hσ : ∀ i x, Parallel (σ i x) (τ i x)) : Parallel (t.instantiate σ) (u.instantiate τ) := by
  have hlift {σ τ : Assignment} (hσ : ∀ i x, Parallel (σ i x) (τ i x)) :
      ∀ i x, Parallel (σ.lift i x) (τ.lift i x) := by
    intro i x
    cases i with
    | zero => exact .bound 0 x
    | succ i => exact (hσ i x).rename Nat.succ
  induction h generalizing σ τ with
  | bound i x => exact hσ i x
  | free x => exact .free x
  | lam x _ ih => exact .lam x (ih (hlift hσ))
  | app _ _ ihf iha => exact .app (ihf hσ) (iha hσ)
  | contract x _ _ ihb iha =>
    rw [instantiate_beta]
    exact .contract x (ihb (hlift hσ)) (iha hσ)

theorem Parallel.beta {b d a c : Term} (hb : Parallel b d) (ha : Parallel a c) :
    Parallel (beta b a) (beta d c) := by
  rw [beta_eq_instantiate, beta_eq_instantiate]
  refine hb.instantiate ?_
  intro i x
  cases i with
  | zero => exact ha
  | succ i => exact .bound i x

/-! ## All redexes at once -/

/-- After some redexes are contracted, a parallel reduction leads to where all are. -/
theorem Parallel.developed (h : Parallel t u) : Parallel u t.developed := by
  induction h with
  | bound i x => exact .bound i x
  | free x => exact .free x
  | lam x _ ih => exact .lam x ih
  | @app f g a c hf _ ihf iha =>
    cases hf with
    | lam x hb =>
      -- the application is a redex that was left alone
      cases ihf with
      | lam _ hb => exact .contract x hb iha
    | bound i x => exact .app ihf iha
    | free x => exact .app ihf iha
    | app _ _ => exact .app ihf iha
    | contract x _ _ => exact .app ihf iha
  | contract x _ _ ihb iha => exact ihb.beta iha

/-! ## Conversion -/

/-- Any number of parallel reductions is any number of contractions. -/
theorem reflTransGen_parallel : ReflTransGen Parallel = Reduces := by
  have hfew : ReflTransGen Parallel ≤ Reduces := reflTransGen_closed fun _ _ => Parallel.reduces
  have hmany : Reduces ≤ ReflTransGen Parallel := ReflTransGen.mono fun _ _ => Beta.parallel
  exact le_antisymm hfew hmany

/-- Terms that are convertible reduce to a common one. -/
theorem Converts.exists_reduces (h : t.Converts u) : ∃ v, t.Reduces v ∧ u.Reduces v := by
  have hdiamond (t u v : Term) (hu : Parallel t u) (hv : Parallel t v) :
      ∃ w, ReflGen Parallel u w ∧ ReflTransGen Parallel v w :=
    ⟨t.developed, .single hu.developed, .single hv.developed⟩
  have hjoin := equivalence_join_reflTransGen hdiamond
  rw [reflTransGen_parallel] at hjoin
  have hone (t u : Term) (h : Beta t u) : Join Reduces t u := ⟨u, .single h, .refl⟩
  exact hjoin.eqvGen_iff.mp (EqvGen.mono hone t u h)

/-- A term without redexes is reached from every term that is convertible to it. -/
theorem Converts.reduces (h : t.Converts u) (hu : ∀ v, ¬ Beta u v) : t.Reduces u := by
  obtain ⟨v, ht, hv⟩ := h.exists_reduces
  rcases hv.cases_head with rfl | ⟨w, hw, -⟩
  · exact ht
  · exact absurd hw (hu w)

end LambdaCalculus.Term
