import LambdaCalculus.Proofs.Term.Identity
import LambdaCalculus.Proofs.Term.Nesting
import LambdaCalculus.Proofs.Term.Path

/-!
# Steps and spines

Every term is a head with some arguments, and the head is no application.  A head step looks at
nothing but the head and the first argument: if the head is an abstraction and there is an argument,
it contracts the two, and the other arguments stay where they are.

* `Term.head`, `Term.args` — the head of a term and its arguments.
* `eq_head_and_args` — a term is one head with arguments in one way.
* `step?_eq_contractHead?` — a step in terms of both.
* `step_is_head_contraction` — what is found to be reducible and what a step does.
-/

namespace LambdaCalculus.Term

/-! ## Spines -/

/-- Is the term an application? -/
def isApp : Term → Bool
  | .app _ _ => true
  | _ => false

/-- What the arguments of the term are given to. -/
def head : Term → Term
  | .app f _ => f.head
  | t => t

/-- The arguments of the term, from left to right. -/
def args : Term → List Term
  | .app f a => f.args ++ [a]
  | _ => []

theorem isApp_head (t : Term) : t.head.isApp = false := by
  induction t with
  | bound i x | free x | lam x b => rfl
  | app f a ihf iha => exact ihf

theorem apps_args (t : Term) : t.head.apps t.args = t := by
  induction t with
  | bound i x | free x | lam x b => rfl
  | app f a ihf iha => rw [head, args, apps_append, ihf, apps_cons, apps_nil]

theorem head_apps (t : Term) (as : List Term) : (t.apps as).head = t.head := by
  induction as generalizing t with
  | nil => rfl
  | cons a as ih => rw [apps_cons, ih, head]

theorem args_apps (t : Term) (as : List Term) : (t.apps as).args = t.args ++ as := by
  induction as generalizing t with
  | nil => exact (List.append_nil t.args).symm
  | cons a as ih => rw [apps_cons, ih, args, List.append_assoc, List.singleton_append]

theorem head_eq_self {t : Term} (h : t.isApp = false) : t.head = t := by
  cases t with
  | bound | free | lam => rfl
  | app f a => cases h

theorem args_eq_nil {t : Term} (h : t.isApp = false) : t.args = [] := by
  cases t with
  | bound | free | lam => rfl
  | app f a => cases h

/-- A term is one head with arguments in one way. -/
theorem eq_head_and_args {h t : Term} {as : List Term} (hh : h.isApp = false) (ht : h.apps as = t) :
    h = t.head ∧ as = t.args := by
  rw [← ht, head_apps, args_apps, head_eq_self hh, args_eq_nil hh]
  exact ⟨rfl, rfl⟩

/-! ## Steps -/

/-- The contraction of a head with its first argument, given the arguments behind it. -/
def contractHead? : Term → List Term → Option Term
  | .lam _ b, a :: as => some ((beta b a).apps as)
  | _, _ => none

theorem isSome_contractHead? (h : Term) (as : List Term) :
    (contractHead? h as).isSome = (h.isLam && !as.isEmpty) := by
  cases h <;> cases as <;> rfl

/-- One more argument stays where it is, if there was one before it. -/
theorem contractHead?_concat (h : Term) {as : List Term} (has : as ≠ []) (a : Term) :
    contractHead? h (as ++ [a]) = (contractHead? h as).map (.app · a) := by
  obtain ⟨first, rest, rfl⟩ := List.exists_cons_of_ne_nil has
  cases h with
  | lam x b =>
    rw [List.cons_append, contractHead?, contractHead?, Option.map_some, apps_append, apps_cons,
      apps_nil]
  | bound | free | app => rfl

/-- A step contracts the head of a term with its first argument. -/
theorem step?_eq_contractHead? (t : Term) : t.step? = contractHead? t.head t.args := by
  induction t with
  | bound i x | free x | lam x b => rfl
  | app f a ihf iha =>
    cases f with
    | bound i x | free x | lam x b => rfl
    | app g c =>
      have hargs : (app g c).args ≠ [] :=
        List.append_ne_nil_of_right_ne_nil g.args (List.cons_ne_nil c [])
      rw [step?, ihf]
      exact (contractHead?_concat _ hargs a).symm

/-- **A step is the contraction of the head with its first argument.**  Every term is a head that is
no application with some arguments, in one way.  It is found to be reducible if the head is an
abstraction and there is an argument; then a step contracts these two, and otherwise there is none.
In memory a step gives back the same object if and only if there is none, whatever it reads. -/
theorem step_is_head_contraction (t : Term) :
    ∃ h as, (h.isApp = false ∧ h.apps as = t ∧
        ∀ h' as', h'.isApp = false → h'.apps as' = t → h' = h ∧ as' = as) ∧
      Settles (fun limit => t.reducibleWithin limit) (.ok (h.isLam && !as.isEmpty)) ∧
      Settles (fun limit => t.stepWithin limit) (.ok (contractHead? h as)) ∧
      (∀ limit next, t.stepWithin limit = .ok next →
        t.reducibleWithin limit = .ok next.isSome) ∧
      ∀ (o : Object) (next : Nat), o.term = t → o.Below next →
        (o.step next).1.term = (contractHead? h as).getD t ∧
          ((o.step next).1 = o ↔ (h.isLam && !as.isEmpty) = false) := by
  have hreducible : t.reducible = (t.head.isLam && !t.args.isEmpty) := by
    rw [← isSome_step?, step?_eq_contractHead?, isSome_contractHead?]
  refine ⟨t.head, t.args, ⟨isApp_head t, apps_args t, ?_⟩, ?_, ?_, ?_, ?_⟩
  · intro h as hh ht
    exact eq_head_and_args hh ht
  · rw [← hreducible]
    exact settles_reducibleWithin t
  · rw [← step?_eq_contractHead?]
    exact settles_stepWithin t
  · intro limit next hstep
    exact reducibleWithin_of_stepWithin hstep
  · rintro o next rfl hbelow
    rw [← step?_eq_contractHead?, ← hreducible, ← isSome_step?, Option.isSome_eq_false_iff,
      Option.isNone_iff_eq_none]
    exact ⟨o.term_step hbelow, o.step_eq_self_iff hbelow⟩

end LambdaCalculus.Term
