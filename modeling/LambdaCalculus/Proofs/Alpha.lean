import LambdaCalculus.Proofs.Named
import Mathlib.Logic.Relation

/-!
# Terms that are the same but for bound names

Two terms of the textbooks' calculus are *alpha-equivalent* if one results from the other by a series
of changes of bound variables.  A change gives a binder, at any place of the term, a name that does
not occur below it at all, and gives the same name to the variables of the binder; so it captures
nothing, and free names stay.

Resolution sends two terms to the same indices exactly if they are alpha-equivalent.

* `Named.Rebinds`, `Named.Alpha` — one change of a bound variable, and a series of changes.
* `Rebinds.nameless` — a change is not seen once names are resolved and forgotten.
* `exists_alpha_notMem_binders` — a series of changes frees a name for use by a binder.
* `alpha_of_nameless` — terms that come to the same without names are a series of changes apart.
* `resolved_anonymous_eq_iff_alpha` — resolution decides alpha-equivalence.
-/

namespace LambdaCalculus

open Relation

namespace Named

/-- One change of a bound variable, at any place of the term. -/
inductive Rebinds : Named → Named → Prop where
  /-- The binder of the whole term gets a name that does not occur below it. -/
  | binder {x z : String} {b : Named} (hz : z ∉ b.names) : Rebinds (lam x b) (lam z (b.rename x z))
  /-- The change is under a binder. -/
  | lam (x : String) {b c : Named} (h : Rebinds b c) : Rebinds (lam x b) (lam x c)
  /-- The change is in what is applied. -/
  | fn {f g : Named} (h : Rebinds f g) (a : Named) : Rebinds (app f a) (app g a)
  /-- The change is in the argument. -/
  | arg (f : Named) {a c : Named} (h : Rebinds a c) : Rebinds (app f a) (app f c)

/-- A series of changes of bound variables leads from one term to the other. -/
abbrev Alpha : Named → Named → Prop := ReflTransGen Rebinds

theorem Alpha.lam {b c : Named} (h : Alpha b c) (x : String) : Alpha (lam x b) (lam x c) :=
  ReflTransGen.lift (Named.lam x) (fun _ _ => Rebinds.lam x) _ _ h

theorem Alpha.app {f g a c : Named} (hf : Alpha f g) (ha : Alpha a c) :
    Alpha (app f a) (app g c) := by
  have hfn : Alpha (.app f a) (.app g a) :=
    ReflTransGen.lift (fun f => Named.app f a) (fun _ _ h => Rebinds.fn h a) _ _ hf
  have harg : Alpha (.app g a) (.app g c) :=
    ReflTransGen.lift (Named.app g) (fun _ _ => Rebinds.arg g) _ _ ha
  exact hfn.trans harg

/-! ## Changes are not seen without names -/

theorem Rebinds.nameless {t u : Named} (h : Rebinds t u) (xs : List String) :
    t.nameless xs = u.nameless xs := by
  induction h generalizing xs with
  | @binder x z b hz =>
    have hrename := nameless_rename hz (List.not_mem_nil (a := x)) (List.not_mem_nil (a := z)) xs
    simpa using hrename.symm
  | lam x h ih => simp [ih]
  | fn h a ih => simp [ih]
  | arg f h ih => simp [ih]

theorem Alpha.nameless {t u : Named} (h : Alpha t u) (xs : List String) :
    t.nameless xs = u.nameless xs := by
  induction h with
  | refl => rfl
  | tail _ hlast ih => exact ih.trans (hlast.nameless xs)

/-! ## Variables without names -/

theorem nameless_var (x : String) (xs : List String) :
    (var x).nameless xs = (xs.idxOf? x).elim (.free x) (.bound · "") := by
  rw [nameless, term, Term.resolve_free]
  cases xs.idxOf? x <;> rfl

/-- What comes to the same as a variable is one. -/
theorem exists_var_of_nameless {t : Named} {x : String} {xs ys : List String}
    (h : t.nameless xs = (var x).nameless ys) : ∃ w, t = var w := by
  rw [nameless_var] at h
  cases t with
  | var w => exact ⟨w, rfl⟩
  | lam w b => cases hy : ys.idxOf? x <;> simp [hy] at h
  | app f a => cases hy : ys.idxOf? x <;> simp [hy] at h

/-- Two variables come to the same if their binders stand at the same place, or if neither has a
binder and they have the same name. -/
theorem nameless_var_eq_iff {x y : String} {xs ys : List String} :
    (var x).nameless xs = (var y).nameless ys ↔
      xs.idxOf? x = ys.idxOf? y ∧ (xs.idxOf? x = none → x = y) := by
  rw [nameless_var, nameless_var]
  cases xs.idxOf? x <;> cases ys.idxOf? y <;> simp

/-- In sight of the same binders only the same variable comes to the same. -/
theorem nameless_var_inj {x y : String} {xs : List String}
    (h : (var x).nameless xs = (var y).nameless xs) : x = y := by
  obtain ⟨hplace, hfree⟩ := nameless_var_eq_iff.mp h
  cases hx : xs.idxOf? x with
  | none => exact hfree hx
  | some i =>
    obtain ⟨hi, hxi, -⟩ := List.idxOf?_eq_some_iff.mp hx
    obtain ⟨_, hyi, -⟩ := List.idxOf?_eq_some_iff.mp (hplace ▸ hx)
    rw [← hxi, ← hyi]

/-- Binders of other names change nothing about whether two variables come to the same. -/
theorem nameless_var_cons_iff {x y z w : String} (hx : x ≠ z) (hy : y ≠ w) {xs ys : List String} :
    (var x).nameless (z :: xs) = (var y).nameless (w :: ys) ↔
      (var x).nameless xs = (var y).nameless ys := by
  rw [nameless_var_eq_iff, nameless_var_eq_iff, Term.idxOf?_cons_of_ne hx.symm,
    Term.idxOf?_cons_of_ne hy.symm]
  cases xs.idxOf? x <;> cases ys.idxOf? y <;> simp

/-- A variable and its own binder do not come to the same as a variable of another binder. -/
theorem nameless_var_cons_self_ne {x y w : String} (hy : y ≠ w) (xs ys : List String) :
    (var x).nameless (x :: xs) ≠ (var y).nameless (w :: ys) := by
  intro h
  have hplace := (nameless_var_eq_iff.mp h).1
  rw [Term.idxOf?_cons_self, Term.idxOf?_cons_of_ne hy.symm] at hplace
  cases hys : ys.idxOf? y <;> simp [hys] at hplace

/-- Terms that come to the same have free variables that come to the same. -/
theorem exists_mem_freeNames_of_nameless {t u : Named} {xs ys : List String}
    (h : t.nameless xs = u.nameless ys) {y : String} (hy : y ∈ t.freeNames) :
    ∃ w ∈ u.freeNames, (var y).nameless xs = (var w).nameless ys := by
  induction t generalizing u xs ys with
  | var x =>
    obtain ⟨w, rfl⟩ := exists_var_of_nameless h.symm
    obtain rfl := List.mem_singleton.mp hy
    exact ⟨w, List.mem_singleton_self w, h⟩
  | lam x b ih =>
    cases u with
    | var w =>
      obtain ⟨_, hw⟩ := exists_var_of_nameless h
      cases hw
    | lam z c =>
      obtain ⟨hyb, hyx⟩ := List.mem_filter.mp hy
      have hyx : y ≠ x := by simpa using hyx
      obtain ⟨w, hw, hsame⟩ := ih (Term.lam.inj h).2 hyb
      by_cases hwz : w = z
      · subst hwz
        exact absurd hsame.symm (nameless_var_cons_self_ne hyx ys xs)
      · refine ⟨w, ?_, (nameless_var_cons_iff hyx hwz).mp hsame⟩
        simp [freeNames, hw, hwz]
    | app g c => cases h
  | app f a ihf iha =>
    cases u with
    | var w =>
      obtain ⟨_, hw⟩ := exists_var_of_nameless h
      cases hw
    | lam z c => cases h
    | app g c =>
      obtain ⟨hf, ha⟩ := Term.app.inj h
      rcases List.mem_append.mp hy with hy | hy
      · obtain ⟨w, hw, hsame⟩ := ihf hf hy
        exact ⟨w, List.mem_append_left _ hw, hsame⟩
      · obtain ⟨w, hw, hsame⟩ := iha ha hy
        exact ⟨w, List.mem_append_right _ hw, hsame⟩

/-- If the bodies of two binders of different names come to the same, the name of the one is not free
below the other. -/
theorem notMem_freeNames_of_nameless {b c : Named} {x y : String} (hxy : x ≠ y) {xs : List String}
    (h : b.nameless (x :: xs) = c.nameless (y :: xs)) : y ∉ b.freeNames := by
  intro hy
  obtain ⟨w, -, hsame⟩ := exists_mem_freeNames_of_nameless h hy
  by_cases hwy : w = y
  · subst hwy
    exact nameless_var_cons_self_ne hxy.symm xs xs hsame.symm
  · exact hwy (nameless_var_inj ((nameless_var_cons_iff hxy.symm hwy).mp hsame)).symm

/-! ## Freeing a name -/

/-- The names of the binders. -/
def binders : Named → List String
  | .var _ => []
  | .lam x b => x :: b.binders
  | .app f a => f.binders ++ a.binders

theorem binders_rename (y z : String) (t : Named) : (t.rename y z).binders = t.binders := by
  induction t with
  | var x => rfl
  | lam x b ih =>
    by_cases hxy : x = y
    · simp [rename, hxy]
    · simp [rename, hxy, binders, ih]
  | app f a ihf iha => simp [rename, binders, ihf, iha]

/-- A name that occurs is free or the name of a binder. -/
theorem mem_freeNames_or_mem_binders {t : Named} {x : String} (h : x ∈ t.names) :
    x ∈ t.freeNames ∨ x ∈ t.binders := by
  induction t with
  | var y => exact .inl h
  | lam y b ih =>
    by_cases hxy : x = y
    · simp [binders, hxy]
    · have hb : x ∈ b.names := by simpa [names, hxy] using h
      simpa [freeNames, binders, hxy] using ih hb
  | app f a ihf iha =>
    rcases List.mem_append.mp h with h | h
    · exact (ihf h).imp (List.mem_append_left _) (List.mem_append_left _)
    · exact (iha h).imp (List.mem_append_right _) (List.mem_append_right _)

/-- A series of changes takes a name from all binders that have it. -/
theorem exists_alpha_notMem_binders (y : String) (t : Named) :
    ∃ u, Alpha t u ∧ y ∉ u.binders := by
  induction t with
  | var x => exact ⟨var x, .refl, List.not_mem_nil⟩
  | lam x b ih =>
    obtain ⟨c, hbc, hy⟩ := ih
    by_cases hxy : x = y
    · -- the binder has the name itself, and gets one that is nowhere in sight
      let z := Supply.primes.pick (y :: c.names) y
      have hz : z ∉ y :: c.names := Supply.primes.pick_notMem _ y
      obtain ⟨hzy, hzc⟩ := not_or.mp (mt List.mem_cons.mpr hz)
      refine ⟨.lam z (c.rename x z), (hbc.lam x).tail (.binder hzc), ?_⟩
      simp [binders, binders_rename, hy, Ne.symm hzy]
    · exact ⟨.lam x c, hbc.lam x, by simp [binders, hy, Ne.symm hxy]⟩
  | app f a ihf iha =>
    obtain ⟨g, hfg, hg⟩ := ihf
    obtain ⟨c, hac, hc⟩ := iha
    exact ⟨.app g c, hfg.app hac, by simp [binders, hg, hc]⟩

/-! ## Terms that come to the same -/

/-- Terms that come to the same without names are a series of changes apart. -/
theorem alpha_of_nameless {t u : Named} {xs : List String} (h : t.nameless xs = u.nameless xs) :
    Alpha t u := by
  induction u generalizing t xs with
  | var w =>
    obtain ⟨x, rfl⟩ := exists_var_of_nameless h
    rw [nameless_var_inj h]
  | lam y c ih =>
    cases t with
    | var x =>
      obtain ⟨_, hx⟩ := exists_var_of_nameless h.symm
      cases hx
    | lam x b =>
      have hbody : b.nameless (x :: xs) = c.nameless (y :: xs) := (Term.lam.inj h).2
      by_cases hxy : x = y
      · subst hxy
        exact (ih hbody).lam x
      · -- once `y` occurs nowhere below the binder, the binder can have that name
        obtain ⟨b', hb, hbinders⟩ := exists_alpha_notMem_binders y b
        rw [hb.nameless] at hbody
        have hfresh : y ∉ b'.names := by
          intro hy
          rcases mem_freeNames_or_mem_binders hy with hfree | hbinder
          · exact notMem_freeNames_of_nameless hxy hbody hfree
          · exact hbinders hbinder
        have hchange : Rebinds (.lam x b') (.lam y (b'.rename x y)) := .binder hfresh
        have hrenamed : (b'.rename x y).nameless (y :: xs) = c.nameless (y :: xs) :=
          (nameless_rename hfresh List.not_mem_nil List.not_mem_nil xs).trans hbody
        exact ((hb.lam x).tail hchange).trans ((ih hrenamed).lam y)
    | app f a => cases h
  | app g c ihg ihc =>
    cases t with
    | var x =>
      obtain ⟨_, hx⟩ := exists_var_of_nameless h.symm
      cases hx
    | lam x b => cases h
    | app f a =>
      obtain ⟨hf, ha⟩ := Term.app.inj h
      exact (ihg hf).app (ihc ha)

/-- Whatever binders are in sight, terms are alpha-equivalent exactly if they come to the same without
names. -/
theorem alpha_iff_nameless (xs : List String) {t u : Named} :
    Alpha t u ↔ t.nameless xs = u.nameless xs :=
  ⟨fun h => h.nameless xs, alpha_of_nameless⟩

instance (t u : Named) : Decidable (Alpha t u) :=
  decidable_of_iff _ (alpha_iff_nameless []).symm

/-- A binder that shadows another one is not the other one. -/
example : ¬ Alpha (lam "x" (lam "y" (var "x"))) (lam "x" (lam "x" (var "x"))) := by decide

end Named

/-- Two terms without indices are alpha-equivalent exactly if resolution gives them the same indices
and the same free variables. -/
theorem resolved_anonymous_eq_iff_alpha {t u : Term} (ht : t.erased = t) (hu : u.erased = u) :
    ∃ r s, Settles (fun limit => t.resolved limit) (.ok r) ∧
      Settles (fun limit => u.resolved limit) (.ok s) ∧
      (r.anonymous = s.anonymous ↔ Named.Alpha t.named u.named) := by
  refine ⟨t.resolve [], u.resolve [], Term.settles_resolved t, Term.settles_resolved u, ?_⟩
  have hnameless {v : Term} (hv : v.erased = v) :
      v.named.nameless [] = (v.resolve []).anonymous := by
    rw [Named.nameless, Term.term_named, hv]
  rw [Named.alpha_iff_nameless [], hnameless ht, hnameless hu]

/-- `λx. x (λx. x y)`, where the inner binder shadows the outer one. -/
def Term.shadowing : Term :=
  .lam "x" (.app (.free "x") (.lam "x" (.app (.free "x") (.free "y"))))

/-- `λz. z (λx. x y)`, where it does not. -/
def Term.unshadowed : Term :=
  .lam "z" (.app (.free "z") (.lam "x" (.app (.free "x") (.free "y"))))

/-- The two differ in nothing but the name of a bound variable, and resolution gives them the same
indices. -/
theorem resolved_shadowing_eq_unshadowed :
    Term.shadowing.erased = Term.shadowing ∧ Term.unshadowed.erased = Term.unshadowed ∧
      Named.Alpha Term.shadowing.named Term.unshadowed.named ∧
      ∃ r s, Settles (fun limit => Term.shadowing.resolved limit) (.ok r) ∧
        Settles (fun limit => Term.unshadowed.resolved limit) (.ok s) ∧
        r.anonymous = s.anonymous := by
  have halpha : Named.Alpha Term.shadowing.named Term.unshadowed.named := by decide
  obtain ⟨r, s, hr, hs, hiff⟩ :=
    resolved_anonymous_eq_iff_alpha (t := Term.shadowing) (u := Term.unshadowed) rfl rfl
  exact ⟨rfl, rfl, halpha, r, s, hr, hs, hiff.mpr halpha⟩

end LambdaCalculus
