import LambdaCalculus.Proofs.Term.Lexical
import Mathlib.Algebra.Order.BigOperators.Group.List
import Mathlib.Algebra.Order.Group.Nat

/-!
# The calculus with names alone

The lambda calculus of the textbooks: a variable is a name, and belongs to the nearest binder of
that name.  Putting a term in the place of a variable must not capture its free variables, so a
binder that would take one is renamed first.  Which fresh name it gets is left open: a `Supply` is
any way to choose one.

* `Named.subst` — capture-avoiding substitution.
* `Named.step?`, `Named.path` — the head step, and the terms that it leads to.
* `Named.term` — a term with names alone as one of which no name is resolved yet; `Term.named` is
  the way back.
* `Named.nameless` — a term with its names resolved and forgotten.
* `nameless_rename`, `nameless_subst` — what renaming and substitution come to without names.
-/

namespace LambdaCalculus

/-- A lambda term of names. -/
inductive Named where
  /-- A variable. -/
  | var (x : String)
  /-- `λx. b`. -/
  | lam (x : String) (b : Named)
  /-- The application of `f` to `a`. -/
  | app (f a : Named)

/-- A way to choose a name that is not among some others, given a name to begin with. -/
structure Supply where
  /-- The name chosen. -/
  pick : List String → String → String
  /-- It is none of those to be avoided. -/
  pick_notMem : ∀ avoid x, pick avoid x ∉ avoid

/-- The supply that puts more primes on the name than the others have characters. -/
def Supply.primes : Supply where
  pick avoid x := x ++ String.ofList (List.replicate ((avoid.map String.length).sum + 1) '\'')
  pick_notMem avoid x hmem := by
    have hle := List.le_sum_of_mem (List.mem_map_of_mem (f := String.length) hmem)
    rw [String.length_append, String.length_ofList, List.length_replicate] at hle
    omega

namespace Named

/-! ## Substitution -/

/-- The names that occur free. -/
def freeNames : Named → List String
  | .var x => [x]
  | .lam x b => b.freeNames.filter (· ≠ x)
  | .app f a => f.freeNames ++ a.freeNames

/-- Every name in the term. -/
def names : Named → List String
  | .var x => [x]
  | .lam x b => x :: b.names
  | .app f a => f.names ++ a.names

/-- The number of nodes. -/
def size : Named → Nat
  | .var _ => 1
  | .lam _ b => b.size + 1
  | .app f a => f.size + a.size + 1

/-- Puts the name `z`, which must not occur in the term, in the place of the free `y`. -/
def rename (y z : String) : Named → Named
  | .var x => .var (if x = y then z else x)
  | .lam x b => if x = y then .lam x b else .lam x (b.rename y z)
  | .app f a => .app (f.rename y z) (a.rename y z)

theorem size_rename (y z : String) (t : Named) : (t.rename y z).size = t.size := by
  induction t with
  | var x => rfl
  | lam x b ih =>
    by_cases hxy : x = y
    · simp [rename, hxy]
    · simp [rename, hxy, size, ih]
  | app f a ihf iha => simp [rename, size, ihf, iha]

/-- Puts `a` in the place of the free `x`.  A binder stays as it is if `x` does not occur free below
it, and is renamed first if it would capture a variable of `a`. -/
def subst (supply : Supply) (x : String) (a : Named) : Named → Named
  | .var y => if y = x then a else .var y
  | .lam y b =>
    if y = x ∨ x ∉ b.freeNames then .lam y b
    else if y ∈ a.freeNames then
      let z := supply.pick (x :: a.names ++ b.names) y
      .lam z (subst supply x a (b.rename y z))
    else .lam y (subst supply x a b)
  | .app f c => .app (subst supply x a f) (subst supply x a c)
termination_by t => t.size
decreasing_by all_goals simp only [size, size_rename]; omega

/-! ## Evaluation -/

/-- One head step; `none` on a term that has no redex at its head. -/
def step? (supply : Supply) : Named → Option Named
  | .app (.lam x b) a => some (subst supply x a b)
  | .app (.app f a) c => (step? supply (.app f a)).map (.app · c)
  | _ => none

/-- The first `n` terms that evaluation reaches, or all if there are fewer. -/
def path (supply : Supply) : Nat → Named → List Named
  | 0, _ => []
  | n + 1, t =>
    match t.step? supply with
    | none => []
    | some u => u :: u.path supply n

/-! ## Names and indices -/

/-- The term with every variable free: no name is resolved. -/
def term : Named → Term
  | .var x => .free x
  | .lam x b => .lam x b.term
  | .app f a => .app f.term a.term

end Named

namespace Term

/-- The term with its indices forgotten. -/
def named : Term → Named
  | .bound _ x => .var x
  | .free x => .var x
  | .lam x b => .lam x b.named
  | .app f a => .app f.named a.named

/-- The term with the names of its binders and bound variables forgotten. -/
def anonymous : Term → Term
  | .bound i _ => .bound i ""
  | .free x => .free x
  | .lam _ b => .lam "" b.anonymous
  | .app f a => .app f.anonymous a.anonymous

theorem term_named (t : Term) : t.named.term = t.erased := by
  induction t with
  | bound i x | free x => rfl
  | lam x b ih => simp [named, Named.term, erased, ih]
  | app f a ihf iha => simp [named, Named.term, erased, ihf, iha]

theorem below_anonymous {t : Term} {n : Nat} : t.anonymous.Below n ↔ t.Below n := by
  induction t generalizing n with
  | bound i x | free x => exact Iff.rfl
  | lam x b ih => exact ih
  | app f a ihf iha => exact and_congr ihf iha

end Term

namespace Named

/-- The term with its names resolved in sight of the binders `xs`, and then forgotten. -/
def nameless (xs : List String) (t : Named) : Term := (t.term.resolve xs).anonymous

theorem openNames_term (t : Named) : t.term.openNames = t.freeNames := by
  induction t with
  | var x => rfl
  | lam x b ih => simp [term, Term.openNames, freeNames, ih]
  | app f a ihf iha => simp [term, Term.openNames, freeNames, ihf, iha]

theorem mem_names_of_mem_freeNames {t : Named} {x : String} (h : x ∈ t.freeNames) : x ∈ t.names := by
  induction t with
  | var y => exact h
  | lam y b ih => exact List.mem_cons_of_mem _ (ih (List.mem_filter.mp h).1)
  | app f a ihf iha => exact List.mem_append.mpr ((List.mem_append.mp h).imp ihf iha)

theorem closed_term (t : Named) : t.term.Closed := by
  induction t with
  | var x => exact trivial
  | lam x b ih => exact Term.Closed.below ih 1
  | app f a ihf iha => exact ⟨ihf, iha⟩

theorem below_nameless (t : Named) (xs : List String) : (t.nameless xs).Below xs.length :=
  Term.below_anonymous.mpr (Term.below_resolve t.closed_term (Nat.zero_le _))

theorem nameless_congr {t : Named} {xs ys : List String}
    (h : ∀ x ∈ t.freeNames, xs.idxOf? x = ys.idxOf? x) : t.nameless xs = t.nameless ys := by
  rw [← openNames_term] at h
  rw [nameless, nameless, Term.resolve_congr h]

theorem nameless_var_of_some {xs : List String} {x : String} {i : Nat} (h : xs.idxOf? x = some i) :
    (var x).nameless xs = .bound i "" := by
  simp [nameless, term, Term.resolve_free_of_some h, Term.anonymous]

@[simp] theorem nameless_lam (x : String) (b : Named) (xs : List String) :
    (lam x b).nameless xs = .lam "" (b.nameless (x :: xs)) := rfl

@[simp] theorem nameless_app (f a : Named) (xs : List String) :
    (app f a).nameless xs = .app (f.nameless xs) (a.nameless xs) := rfl

/-! ## Renaming and substitution without names -/

/-- A binder in the middle is looked up by its own name alone. -/
theorem idxOf?_other {x y z : String} (hy : x ≠ y) (hz : x ≠ z) (ws us : List String) :
    (ws ++ z :: us).idxOf? x = (ws ++ y :: us).idxOf? x := by
  simp [Term.idxOf?_append, Term.idxOf?_cons_of_ne hy.symm, Term.idxOf?_cons_of_ne hz.symm]

theorem idxOf?_middle {x : String} {ws : List String} (hx : x ∉ ws) (us : List String) :
    (ws ++ x :: us).idxOf? x = some ws.length := by
  simp [Term.idxOf?_append_of_notMem hx]

/-- A binder can be given a name that does not occur below it. -/
theorem nameless_rename {b : Named} {y z : String} (hz : z ∉ b.names) {ws : List String}
    (hyws : y ∉ ws) (hzws : z ∉ ws) (us : List String) :
    (b.rename y z).nameless (ws ++ z :: us) = b.nameless (ws ++ y :: us) := by
  induction b generalizing ws with
  | var x =>
    by_cases hxy : x = y
    · subst hxy
      rw [rename, if_pos rfl, nameless_var_of_some (idxOf?_middle hzws us),
        nameless_var_of_some (idxOf?_middle hyws us)]
    · have hxz : x ≠ z := Ne.symm (fun h => hz (h ▸ List.mem_singleton_self z))
      rw [rename, if_neg hxy]
      apply nameless_congr
      intro w hw
      obtain rfl := List.mem_singleton.mp hw
      exact idxOf?_other hxy hxz ws us
  | lam x b ih =>
    obtain ⟨hzx, hzb⟩ := not_or.mp (mt List.mem_cons.mpr hz)
    by_cases hxy : x = y
    · rw [rename, if_pos hxy]
      apply nameless_congr
      intro w hw
      have hwy : w ≠ y := by simpa [hxy] using (List.mem_filter.mp hw).2
      have hwz : w ≠ z := fun h => hz (h ▸ mem_names_of_mem_freeNames hw)
      exact idxOf?_other hwy hwz ws us
    · have hy : y ∉ x :: ws := not_or.mpr ⟨Ne.symm hxy, hyws⟩ ∘ List.mem_cons.mp
      have hz : z ∉ x :: ws := not_or.mpr ⟨hzx, hzws⟩ ∘ List.mem_cons.mp
      rw [rename, if_neg hxy, nameless_lam, nameless_lam]
      exact congrArg (Term.lam "") (ih hzb hy hz)
  | app f a ihf iha =>
    obtain ⟨hzf, hza⟩ := not_or.mp (mt List.mem_append.mpr hz)
    simp [rename, ihf hzf hyws hzws, iha hza hyws hzws]

/-- Binders that a term has no free variable of are not looked up. -/
theorem nameless_outside {a : Named} {ys : List String} (h : ∀ y ∈ ys, y ∉ a.freeNames) :
    a.nameless ys = a.nameless [] := by
  apply nameless_congr
  intro x hx
  exact List.idxOf?_eq_none_iff.mpr fun hmem => h x hmem hx

/-- Where the outermost binder has no variable, there is nothing to fill. -/
theorem fill_nameless_of_notMem {t : Named} {x : String} (hx : x ∉ t.freeNames) (vs : List Term)
    (ys : List String) : (t.nameless (ys ++ [x])).fill vs ys.length = t.nameless ys := by
  have hsame : t.nameless (ys ++ [x]) = t.nameless ys := by
    apply nameless_congr
    intro w hw
    have hnone : [x].idxOf? w = none :=
      List.idxOf?_eq_none_iff.mpr fun h => hx (List.mem_singleton.mp h ▸ hw)
    simp [Term.idxOf?_append, hnone]
  rw [hsame, Term.fill_of_below vs (t.below_nameless ys)]

/-- Substitution fills the term: below binders that are not free in `a`, it puts `a` in the place of
the outermost binder. -/
theorem nameless_subst (supply : Supply) {x : String} {a b : Named} {ys : List String}
    (hx : x ∉ ys) (ha : ∀ y ∈ ys, y ∉ a.freeNames) :
    (subst supply x a b).nameless ys = (b.nameless (ys ++ [x])).fill [a.nameless []] ys.length := by
  fun_induction subst supply x a b generalizing ys with
  | case1 =>
    rw [nameless_outside ha, nameless_var_of_some (idxOf?_middle hx [])]
    exact (Term.fill_bound_add [a.nameless []] ys.length 0 "").symm
  | case2 y hyx =>
    have hfree : x ∉ (var y).freeNames := fun h => hyx (List.mem_singleton.mp h).symm
    rw [fill_nameless_of_notMem hfree]
  | case3 y b hunused =>
    have hfree : x ∉ (lam y b).freeNames := by
      intro h
      obtain ⟨hxb, hxy⟩ := List.mem_filter.mp h
      rcases hunused with rfl | hxb'
      · simp at hxy
      · exact hxb' hxb
    rw [fill_nameless_of_notMem hfree]
  | case4 y b hused hcaptures z =>
    rename_i ih
    -- the fresh name is none that occurs in the argument or below the binder
    have hz : z ∉ x :: a.names ++ b.names := supply.pick_notMem _ y
    simp only [List.cons_append, List.mem_cons, List.mem_append, not_or] at hz
    obtain ⟨hzx, hza, hzb⟩ := hz
    have hx' : x ∉ z :: ys := not_or.mpr ⟨Ne.symm hzx, hx⟩ ∘ List.mem_cons.mp
    have ha' : ∀ w ∈ z :: ys, w ∉ a.freeNames :=
      List.forall_mem_cons.mpr ⟨fun h => hza (mem_names_of_mem_freeNames h), ha⟩
    have hrename := nameless_rename hzb (List.not_mem_nil (a := y)) List.not_mem_nil (ys ++ [x])
    rw [nameless_lam, nameless_lam, ih hx' ha']
    exact congrArg (fun t => Term.lam "" (t.fill [a.nameless []] (ys.length + 1))) hrename
  | case5 y b hused hcaptures ih =>
    have hx' : x ∉ y :: ys :=
      not_or.mpr ⟨fun h => hused (.inl h.symm), hx⟩ ∘ List.mem_cons.mp
    have ha' : ∀ w ∈ y :: ys, w ∉ a.freeNames := List.forall_mem_cons.mpr ⟨hcaptures, ha⟩
    rw [nameless_lam, ih hx' ha']
    rfl
  | case6 f c ihf ihc =>
    simp [ihf hx ha, ihc hx ha]

end Named

end LambdaCalculus
