import LambdaCalculus.Proofs.Evaluation
import LambdaCalculus.Proofs.Term.Conversion
import LambdaCalculus.Proofs.Term.Substitution

/-!
# Evaluation finds what any reduction finds

Contractions can be put in order: those at the head of the spine first, as evaluation makes them,
and then those in the parts of what has come out, each part again from its head on.  A reduction that
is in order begins with a path of evaluation, so if a reduction leads to a term without a redex at
its head, evaluation comes to an end, at a term of the same shape.

* `Term.HeadFirst` — a reduction in order.
* `HeadFirst.tail` — one more contraction, wherever it is made, can be put in its place.
* `HeadFirst.of_reduces` — so every reduction can be put in order.
* `settles_evaluate_of_reduces` — where a reduction leads to a term that is not reducible, evaluation
  answers with a term of the same shape.
-/

namespace LambdaCalculus

namespace Term

/-! ## Evaluation and substitution -/

theorem step?_instantiate {t u : Term} (h : t.step? = some u) (σ : Assignment) :
    (t.instantiate σ).step? = some (u.instantiate σ) := by
  refine step?_induction ?_ ?_ h
  · intro x b a
    rw [instantiate_app, instantiate_lam, step?, instantiate_beta]
  · intro f g c _ ih
    exact step?_app_of_some ih (c.instantiate σ)

/-- What is put into a term takes no part in the steps that the term makes without it. -/
theorem Leads.instantiate {t u : Term} (h : t.Leads u) (σ : Assignment) :
    (t.instantiate σ).Leads (u.instantiate σ) := by
  obtain ⟨n, hn⟩ := h
  refine ⟨n, ?_⟩
  induction n generalizing t with
  | zero =>
    cases hn
    rfl
  | succ n ih =>
    obtain ⟨v, hv, hn⟩ := Option.bind_eq_some_iff.mp hn
    rw [after?_succ_of_some (step?_instantiate hv σ), ih hn]

theorem Leads.rename {t u : Term} (h : t.Leads u) (ρ : Nat → Nat) :
    (t.rename ρ).Leads (u.rename ρ) := by
  rw [rename_eq_instantiate, rename_eq_instantiate]
  exact h.instantiate _

/-! ## Reductions in order -/

/-- Evaluation leads from the term to one that is built like the other, and so on in its parts. -/
inductive HeadFirst : Term → Term → Prop where
  /-- To a bound variable. -/
  | bound {t : Term} {i : Nat} {x : String} (h : t.Leads (bound i x)) : HeadFirst t (bound i x)
  /-- To a free variable. -/
  | free {t : Term} {x : String} (h : t.Leads (free x)) : HeadFirst t (free x)
  /-- To an abstraction. -/
  | lam {t b c : Term} {x : String} (h : t.Leads (lam x b)) (hb : HeadFirst b c) :
      HeadFirst t (lam x c)
  /-- To an application. -/
  | app {t f g a c : Term} (h : t.Leads (app f a)) (hf : HeadFirst f g) (ha : HeadFirst a c) :
      HeadFirst t (app g c)

variable {s t u v w : Term}

theorem HeadFirst.refl (t : Term) : HeadFirst t t := by
  induction t with
  | bound i x => exact .bound (.refl _)
  | free x => exact .free (.refl _)
  | lam x b ih => exact .lam (.refl _) ih
  | app f a ihf iha => exact .app (.refl _) ihf iha

/-- Evaluation can be put in front. -/
theorem HeadFirst.of_leads (hs : s.Leads t) (h : HeadFirst t u) : HeadFirst s u := by
  cases h with
  | bound h => exact .bound (hs.trans h)
  | free h => exact .free (hs.trans h)
  | lam h hb => exact .lam (hs.trans h) hb
  | app h hf ha => exact .app (hs.trans h) hf ha

theorem HeadFirst.rename (h : HeadFirst t u) (ρ : Nat → Nat) :
    HeadFirst (t.rename ρ) (u.rename ρ) := by
  induction h generalizing ρ with
  | bound h => exact .bound (h.rename ρ)
  | free h => exact .free (h.rename ρ)
  | lam h _ ih => exact .lam (h.rename ρ) (ih (under ρ))
  | app h _ _ ihf iha => exact .app (h.rename ρ) (ihf ρ) (iha ρ)

/-- Reductions of a term and of what is put into it are put in order together. -/
theorem HeadFirst.instantiate (h : HeadFirst t u) {σ τ : Assignment}
    (hσ : ∀ i x, HeadFirst (σ i x) (τ i x)) : HeadFirst (t.instantiate σ) (u.instantiate τ) := by
  induction h generalizing σ τ with
  | @bound t i x h =>
    -- the term comes down to what is put in the place of the variable
    exact (hσ i x).of_leads (h.instantiate σ)
  | free h => exact .free (h.instantiate σ)
  | lam h _ ih =>
    refine .lam (h.instantiate σ) (ih ?_)
    intro i x
    cases i with
    | zero => exact .refl _
    | succ i => exact (hσ i x).rename Nat.succ
  | app h _ _ ihf iha => exact .app (h.instantiate σ) (ihf hσ) (iha hσ)

theorem HeadFirst.beta {b d a c : Term} (hb : HeadFirst b d) (ha : HeadFirst a c) :
    HeadFirst (beta b a) (beta d c) := by
  rw [beta_eq_instantiate, beta_eq_instantiate]
  refine hb.instantiate ?_
  intro i x
  cases i with
  | zero => exact ha
  | succ i => exact .refl _

/-- A contraction of the whole term is made as soon as its redex has come to the head. -/
theorem HeadFirst.contract {x : String} {b a : Term} (h : HeadFirst t (Term.app (Term.lam x b) a)) :
    HeadFirst t (Term.beta b a) := by
  cases h with
  | app h hf ha =>
    cases hf with
    | @lam f d c x hlam hbody =>
      have hredex := h.trans (hlam.app _)
      exact (hbody.beta ha).of_leads (hredex.trans (.of_step rfl))

/-- One more contraction, wherever it is made, can be put in its place. -/
theorem HeadFirst.tail (h : HeadFirst t u) (hv : Beta u v) : HeadFirst t v := by
  induction hv generalizing t with
  | contract x b a => exact h.contract
  | lam x _ ih =>
    cases h with
    | lam h hb => exact .lam h (ih hb)
  | fn _ a ih =>
    cases h with
    | app h hf ha => exact .app h (ih hf) ha
  | arg f _ ih =>
    cases h with
    | app h hf ha => exact .app h hf (ih ha)

/-- Every reduction can be put in order. -/
theorem HeadFirst.of_reduces (h : t.Reduces u) : HeadFirst t u := by
  induction h with
  | refl => exact .refl t
  | tail _ hstep ih => exact ih.tail hstep

/-! ## The shape of an evaluated term -/

/-- Is the term a variable? -/
def isVariable : Term → Bool
  | .bound _ _ => true
  | .free _ => true
  | _ => false

/-- The terms are both abstractions, or the same variable applied to as many arguments. -/
def SameShape (t u : Term) : Prop :=
  (∃ x b y c, t = .lam x b ∧ u = .lam y c) ∨
    ∃ v as bs, v.isVariable = true ∧ t = apps v as ∧ u = apps v bs ∧ as.length = bs.length

/-- Arguments bring no redex to a head that is none itself. -/
theorem reducible_apps (hlam : t.isLam = false) (ht : t.reducible = false) (as : List Term) :
    (t.apps as).reducible = false := by
  induction as generalizing t with
  | nil => exact ht
  | cons a as ih => exact ih rfl (Bool.or_eq_false_iff.mpr ⟨hlam, ht⟩)

/-- A term that has the shape of one that is not reducible is not reducible. -/
theorem SameShape.reducible_eq_false (h : t.SameShape u) : t.reducible = false := by
  rcases h with ⟨x, b, y, c, rfl, rfl⟩ | ⟨v, as, bs, hv, rfl, rfl, -⟩
  · rfl
  · have hlam : v.isLam = false := by cases v <;> first | rfl | cases hv
    have hred : v.reducible = false := by cases v <;> first | rfl | cases hv
    exact reducible_apps hlam hred as

/-- A reduction in order to a term that is not reducible begins with a whole evaluation. -/
theorem HeadFirst.exists_sameShape (h : HeadFirst t w) (hw : w.reducible = false) :
    ∃ u, t.Leads u ∧ u.SameShape w := by
  induction h with
  | @bound t i x h => exact ⟨_, h, .inr ⟨.bound i x, [], [], rfl, rfl, rfl, rfl⟩⟩
  | @free t x h => exact ⟨_, h, .inr ⟨.free x, [], [], rfl, rfl, rfl, rfl⟩⟩
  | lam h _ _ => exact ⟨_, h, .inl ⟨_, _, _, _, rfl, rfl⟩⟩
  | @app t f g a c h _ _ ihf _ =>
    obtain ⟨hlam, hg⟩ := Bool.or_eq_false_iff.mp hw
    obtain ⟨u, hu, hshape⟩ := ihf hg
    refine ⟨Term.app u a, h.trans (hu.app a), ?_⟩
    rcases hshape with ⟨x, b, y, d, rfl, rfl⟩ | ⟨v, as, bs, hv, rfl, rfl, hlength⟩
    · cases hlam
    · refine .inr ⟨v, as ++ [a], bs ++ [c], hv, ?_, ?_, ?_⟩
      · rw [apps_append, apps_cons, apps_nil]
      · rw [apps_append, apps_cons, apps_nil]
      · rw [List.length_append, List.length_append, hlength]
        rfl

end Term

/-! ## Evaluation -/

/-- If contractions of any redexes in any order lead to a term that is not reducible, then evaluation
comes to an end, at an abstraction if that term is one, and otherwise at the same variable applied to
as many arguments. -/
theorem settles_evaluate_of_reduces {t w : Term} (h : t.Reduces w) (hw : w.reducible = false) :
    ∃ u, Settles (fun bounds : Bounds => evaluate bounds silent t) (.ok u) ∧ u.SameShape w := by
  obtain ⟨u, hu, hshape⟩ := (Term.HeadFirst.of_reduces h).exists_sameShape hw
  have hlast : u.step? = none := by
    rw [← Option.isNone_iff_eq_none, ← Option.not_isSome, u.isSome_step?, hshape.reducible_eq_false]
    rfl
  exact ⟨u, settles_evaluate hu hlast, hshape⟩

/-- `(λx. z ((λy. y) x)) c` reduces to `z c` from the inside out, and evaluation answers with
`z ((λy. y) c)`. -/
theorem settles_evaluate_inside_out :
    Term.Reduces
      (.app (.lam "x" (.app (.free "z") (.app (.lam "y" (.bound 0 "y")) (.bound 0 "x")))) (.free "c"))
      (.app (.free "z") (.free "c")) ∧
    (Term.app (.free "z") (.free "c")).reducible = false ∧
    ∃ u, Settles (fun bounds : Bounds => evaluate bounds silent
        (.app (.lam "x" (.app (.free "z") (.app (.lam "y" (.bound 0 "y")) (.bound 0 "x"))))
          (.free "c"))) (.ok u) ∧
      u.SameShape (.app (.free "z") (.free "c")) := by
  have hinner : Term.Beta (.app (.lam "y" (.bound 0 "y")) (.bound 0 "x")) (.bound 0 "x") :=
    .contract "y" (.bound 0 "y") (.bound 0 "x")
  have hbody := (hinner.arg (.free "z")).lam "x"
  have hwhole := Term.Beta.contract "x" (.app (.free "z") (.bound 0 "x")) (.free "c")
  have h := (Relation.ReflTransGen.single (hbody.fn (.free "c"))).tail hwhole
  exact ⟨h, rfl, settles_evaluate_of_reduces h rfl⟩

end LambdaCalculus
