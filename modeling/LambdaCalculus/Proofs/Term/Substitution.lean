import LambdaCalculus.Term.Reduction
import Mathlib.Algebra.Order.Ring.Int

/-!
# Substitution for all indices at once

A contraction makes three passes: it lifts the argument, puts it in the place of one index, and
lowers the result.  On terms that may be open none of the three can be left out, and each needs laws
about the other two.  It is easier to replace all indices that point out of a term at once, by terms
that an *assignment* holds for them; a contraction is a substitution of this kind.

* `Term.rename ρ` — every index that points out of the term is sent where `ρ` says.
* `Term.instantiate σ` — every index that points out of the term is replaced by what `σ` holds for
  it, and for the name that the occurrence keeps.
* `rename_rename`, `instantiate_rename`, `rename_instantiate`, `instantiate_instantiate` — two of
  them one after the other are one.
* `beta_eq_instantiate` — contracting a redex instantiates its body.
* `instantiate_beta` — and it can be done before or after another substitution.
-/

namespace LambdaCalculus.Term

/-! ## Renaming -/

/-- A renaming of indices, seen from under one more binder. -/
def under (ρ : Nat → Nat) : Nat → Nat
  | 0 => 0
  | i + 1 => ρ i + 1

/-- The term with every index that points out of it sent where `ρ` says. -/
def rename : (Nat → Nat) → Term → Term
  | ρ, .bound i x => .bound (ρ i) x
  | _, .free x => .free x
  | ρ, .lam x b => .lam x (b.rename (under ρ))
  | ρ, .app f a => .app (f.rename ρ) (a.rename ρ)

@[simp] theorem rename_bound (ρ : Nat → Nat) (i : Nat) (x : String) :
    (bound i x).rename ρ = bound (ρ i) x := rfl

@[simp] theorem rename_free (ρ : Nat → Nat) (x : String) : (free x).rename ρ = free x := rfl

@[simp] theorem rename_lam (ρ : Nat → Nat) (x : String) (b : Term) :
    (lam x b).rename ρ = lam x (b.rename (under ρ)) := rfl

@[simp] theorem rename_app (ρ : Nat → Nat) (f a : Term) :
    (app f a).rename ρ = app (f.rename ρ) (a.rename ρ) := rfl

theorem under_comp (ρ ρ' : Nat → Nat) : under (ρ' ∘ ρ) = under ρ' ∘ under ρ := by
  funext i
  cases i <;> rfl

theorem rename_rename (ρ ρ' : Nat → Nat) (t : Term) :
    (t.rename ρ).rename ρ' = t.rename (ρ' ∘ ρ) := by
  induction t generalizing ρ ρ' with
  | bound i x => rfl
  | free x => rfl
  | lam x b ih => simp [ih, under_comp]
  | app f a ihf iha => simp [ihf, iha]

/-! ## Instantiation -/

/-- What stands for each index that points out of a term, given the name that the occurrence
keeps. -/
abbrev Assignment := Nat → String → Term

/-- An assignment, seen from under one more binder. -/
def Assignment.lift (σ : Assignment) : Assignment
  | 0, x => .bound 0 x
  | i + 1, x => (σ i x).rename Nat.succ

/-- The assignment of `a` to index `0`, which takes the binder of that index away. -/
def Assignment.single (a : Term) : Assignment
  | 0, _ => a
  | i + 1, x => .bound i x

/-- The term with every index that points out of it replaced by what the assignment holds. -/
def instantiate : Assignment → Term → Term
  | σ, .bound i x => σ i x
  | _, .free x => .free x
  | σ, .lam x b => .lam x (b.instantiate σ.lift)
  | σ, .app f a => .app (f.instantiate σ) (a.instantiate σ)

@[simp] theorem instantiate_bound (σ : Assignment) (i : Nat) (x : String) :
    (bound i x).instantiate σ = σ i x := rfl

@[simp] theorem instantiate_free (σ : Assignment) (x : String) :
    (free x).instantiate σ = free x := rfl

@[simp] theorem instantiate_lam (σ : Assignment) (x : String) (b : Term) :
    (lam x b).instantiate σ = lam x (b.instantiate σ.lift) := rfl

@[simp] theorem instantiate_app (σ : Assignment) (f a : Term) :
    (app f a).instantiate σ = app (f.instantiate σ) (a.instantiate σ) := rfl

theorem lift_bound : Assignment.lift bound = bound := by
  funext i x
  cases i <;> rfl

/-- Every index may stand for itself. -/
theorem instantiate_self (t : Term) : t.instantiate bound = t := by
  induction t with
  | bound i x => rfl
  | free x => rfl
  | lam x b ih => rw [instantiate_lam, lift_bound, ih]
  | app f a ihf iha => rw [instantiate_app, ihf, iha]

/-! ## One substitution after another -/

theorem lift_comp_under (ρ : Nat → Nat) (σ : Assignment) :
    (fun i => σ.lift (under ρ i)) = Assignment.lift fun i => σ (ρ i) := by
  funext i
  cases i <;> rfl

theorem instantiate_rename (ρ : Nat → Nat) (σ : Assignment) (t : Term) :
    (t.rename ρ).instantiate σ = t.instantiate fun i => σ (ρ i) := by
  induction t generalizing ρ σ with
  | bound i x => rfl
  | free x => rfl
  | lam x b ih => simp [ih, lift_comp_under]
  | app f a ihf iha => simp [ihf, iha]

theorem rename_lift (σ : Assignment) (ρ : Nat → Nat) :
    (fun i x => (σ.lift i x).rename (under ρ)) = Assignment.lift fun i x => (σ i x).rename ρ := by
  funext i x
  cases i with
  | zero => rfl
  | succ i =>
    have hlift (t : Term) : (t.rename Nat.succ).rename (under ρ) = (t.rename ρ).rename Nat.succ := by
      rw [rename_rename, rename_rename]
      rfl
    exact hlift (σ i x)

theorem rename_instantiate (σ : Assignment) (ρ : Nat → Nat) (t : Term) :
    (t.instantiate σ).rename ρ = t.instantiate fun i x => (σ i x).rename ρ := by
  induction t generalizing σ ρ with
  | bound i x => rfl
  | free x => rfl
  | lam x b ih => simp [ih, rename_lift]
  | app f a ihf iha => simp [ihf, iha]

theorem instantiate_lift (σ τ : Assignment) :
    (fun i x => (σ.lift i x).instantiate τ.lift) =
      Assignment.lift fun i x => (σ i x).instantiate τ := by
  funext i x
  cases i with
  | zero => rfl
  | succ i =>
    have hlift (t : Term) :
        (t.rename Nat.succ).instantiate τ.lift = (t.instantiate τ).rename Nat.succ := by
      rw [instantiate_rename, rename_instantiate]
      rfl
    exact hlift (σ i x)

theorem instantiate_instantiate (σ τ : Assignment) (t : Term) :
    (t.instantiate σ).instantiate τ = t.instantiate fun i x => (σ i x).instantiate τ := by
  induction t generalizing σ τ with
  | bound i x => rfl
  | free x => rfl
  | lam x b ih => simp [ih, instantiate_lift]
  | app f a ihf iha => simp [ihf, iha]

/-- Renaming is instantiation by variables. -/
theorem rename_eq_instantiate (ρ : Nat → Nat) (t : Term) :
    t.rename ρ = t.instantiate fun i => bound (ρ i) := by
  rw [← instantiate_self (t.rename ρ), instantiate_rename]

/-! ## Contraction -/

/-- The renaming that raises every index from `c` on by `n`. -/
def raise (n c i : Nat) : Nat := if i < c then i else i + n

theorem under_raise (n c : Nat) : under (raise n c) = raise n (c + 1) := by
  funext i
  cases i with
  | zero => rfl
  | succ i =>
    simp only [under, raise, Nat.add_lt_add_iff_right]
    split
    · rfl
    · exact Nat.add_right_comm i n 1

/-- A shift by a natural number raises indices. -/
theorem shift_eq_rename (n c : Nat) (t : Term) : t.shift n c = t.rename (raise n c) := by
  induction t generalizing c with
  | bound i x =>
    simp only [shift, rename_bound, raise, Nat.cast_lt]
    split <;> rfl
  | free x => rfl
  | lam x b ih => rw [shift, ← Nat.cast_succ, ih, rename_lam, under_raise]
  | app f a ihf iha => rw [shift, ihf, iha, rename_app]

/-- The renaming that makes room for a binder outside `d` others. -/
def makeRoom (d i : Nat) : Nat := if i < d then i else i + 1

theorem under_makeRoom (d : Nat) : under (makeRoom d) = makeRoom (d + 1) := under_raise 1 d

/-- A term is lifted over a binder outside `d` others by making room for it. -/
theorem shift_one (d : Nat) (t : Term) : t.shift 1 d = t.rename (makeRoom d) :=
  shift_eq_rename 1 d t

theorem shift_one_zero (t : Term) : t.shift 1 0 = t.rename Nat.succ := shift_one 0 t

/-- Lowering takes the room back. -/
theorem lower_makeRoom (d : Nat) (t : Term) : (t.rename (makeRoom d)).shift (-1) d = t := by
  induction t generalizing d with
  | bound i x =>
    simp only [rename_bound, makeRoom]
    split
    · next h => rw [shift, if_pos (by exact_mod_cast h)]
    · next h =>
      rw [shift, if_neg (by omega), Nat.cast_succ, Int.add_neg_cancel_right, Int.toNat_natCast]
  | free x => rfl
  | lam x b ih => rw [rename_lam, under_makeRoom, shift, ← Nat.cast_succ, ih]
  | app f a ihf iha => rw [rename_app, shift, ihf, iha]

/-- The assignment of `u` to index `j`, which leaves all other indices as they are. -/
def Assignment.replace (j : Nat) (u : Term) : Assignment := fun i x =>
  if i = j then u else .bound i x

theorem lift_replace (j : Nat) (u : Term) :
    (Assignment.replace j u).lift = Assignment.replace (j + 1) (u.shift 1 0) := by
  funext i x
  cases i with
  | zero => rfl
  | succ i =>
    simp only [Assignment.lift, Assignment.replace, Nat.add_right_cancel_iff, shift_one_zero]
    split <;> rfl

/-- Putting a term in the place of one index is a substitution for all of them. -/
theorem subst_eq_instantiate (j : Nat) (u t : Term) :
    subst j u t = t.instantiate (Assignment.replace j u) := by
  induction t generalizing j u with
  | bound i x => simp only [subst, instantiate_bound, Assignment.replace, Nat.cast_inj]
  | free x => rfl
  | lam x b ih => rw [subst, ← Nat.cast_succ, ih, instantiate_lam, lift_replace]
  | app f a ihf iha => rw [subst, ihf, iha, instantiate_app]

/-- The assignment of `a` to the binder outside `d` others, which takes that binder away. -/
def Assignment.place (a : Term) (d : Nat) : Assignment := fun i x =>
  if i < d then .bound i x else if i = d then a.rename (· + d) else .bound (i - 1) x

theorem lift_place (a : Term) (d : Nat) :
    (Assignment.place a d).lift = Assignment.place a (d + 1) := by
  funext i x
  cases i with
  | zero => rfl
  | succ i =>
    simp only [Assignment.lift, Assignment.place, Nat.add_lt_add_iff_right, Nat.add_right_cancel_iff]
    split
    · rfl
    split
    · rw [rename_rename]
      rfl
    · rw [rename_bound, Nat.succ_eq_add_one]
      congr 1
      omega

theorem place_zero (a : Term) : Assignment.place a 0 = Assignment.single a := by
  funext i x
  cases i with
  | zero =>
    have h : a.rename (· + 0) = a := by
      rw [rename_eq_instantiate]
      exact instantiate_self a
    exact h
  | succ i => rfl

/-- Under `d` binders, putting a lifted argument in the place of index `d` and lowering the whole
amounts to one substitution. -/
theorem lower_subst_lifted (a b : Term) (d : Nat) :
    (subst d (a.rename (· + (d + 1))) b).shift (-1) d = b.instantiate (Assignment.place a d) := by
  induction b generalizing d with
  | bound i x =>
    rcases Nat.lt_trichotomy i d with hi | rfl | hi
    · rw [subst, if_neg (by omega), shift, if_pos (by exact_mod_cast hi), instantiate_bound,
        Assignment.place, if_pos hi]
    · -- lifting by one more level is making room outside the binders passed
      have hroom : a.rename (· + (i + 1)) = (a.rename (· + i)).rename (makeRoom i) := by
        rw [rename_rename]
        congr 1
        funext j
        rw [Function.comp_apply, makeRoom, if_neg (by omega), Nat.add_assoc]
      rw [subst, if_pos rfl, hroom, lower_makeRoom, instantiate_bound, Assignment.place,
        if_neg (lt_irrefl i), if_pos rfl]
    · have hlower : ((i : Int) + -1).toNat = i - 1 := by omega
      rw [subst, if_neg (by omega), shift, if_neg (by omega), hlower, instantiate_bound,
        Assignment.place, if_neg (by omega), if_neg (by omega)]
  | free x => rfl
  | lam x b ih =>
    have hlift : (a.rename (· + (d + 1))).shift 1 0 = a.rename (· + (d + 1 + 1)) := by
      rw [shift_one_zero, rename_rename]
      rfl
    rw [subst, shift, hlift, ← Nat.cast_succ, ih, instantiate_lam, lift_place]
  | app f c ihf ihc => rw [subst, shift, ihf, ihc, instantiate_app]

/-- Contracting a redex instantiates its body with the argument. -/
theorem beta_eq_instantiate (b a : Term) : beta b a = b.instantiate (Assignment.single a) := by
  rw [beta, shift_one_zero, ← place_zero]
  exact lower_subst_lifted a b 0

theorem instantiate_single_succ (a t : Term) :
    (t.rename Nat.succ).instantiate (Assignment.single a) = t := by
  rw [instantiate_rename]
  exact instantiate_self t

/-- A contraction can be done before a substitution or after it. -/
theorem instantiate_beta (σ : Assignment) (b a : Term) :
    (beta b a).instantiate σ = beta (b.instantiate σ.lift) (a.instantiate σ) := by
  simp only [beta_eq_instantiate, instantiate_instantiate]
  congr 1
  funext i x
  cases i with
  | zero => rfl
  | succ i => exact (instantiate_single_succ (a.instantiate σ) (σ i x)).symm

theorem rename_beta (ρ : Nat → Nat) (b a : Term) :
    (beta b a).rename ρ = beta (b.rename (under ρ)) (a.rename ρ) := by
  have hunder : (fun i => bound (under ρ i)) = Assignment.lift fun i => bound (ρ i) := by
    funext i
    cases i <;> rfl
  rw [rename_eq_instantiate, instantiate_beta, ← hunder, ← rename_eq_instantiate,
    ← rename_eq_instantiate]

end LambdaCalculus.Term
