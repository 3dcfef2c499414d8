import LambdaCalculus.Term.Reduction
import Mathlib.Algebra.Order.Ring.Int

/-!
# Closed terms and filling

Evaluation contracts nothing but the redex at the head, and nothing stands above the head.  So on a
program every argument that is put in the place of a variable is *closed*: none of its indices
points out of it.  For such arguments the three passes of a contraction — lift, substitute, lower —
amount to one.

* `Term.Below n` — every index points inside the term or to one of `n` binders around it.
* `Term.fill vs d` — the term with the indices that point past its `d` own binders replaced by the
  values `vs`, the nearest first.
* `beta_eq_fill` — contracting a redex fills its body with the argument.
* `fill_fill` — filling in two rounds, outer values first, is filling at once.
-/

namespace LambdaCalculus.Term

/-- Every index points inside the term or to one of `n` binders around it. -/
def Below : Nat → Term → Prop
  | n, .bound i _ => i < n
  | _, .free _ => True
  | n, .lam _ b => Below (n + 1) b
  | n, .app f a => Below n f ∧ Below n a

instance decidableBelow : ∀ (n : Nat) (t : Term), Decidable (t.Below n)
  | n, .bound i _ => inferInstanceAs (Decidable (i < n))
  | _, .free _ => .isTrue trivial
  | n, .lam _ b => decidableBelow (n + 1) b
  | n, .app f a => @instDecidableAnd _ _ (decidableBelow n f) (decidableBelow n a)

/-- No index points out of the term. -/
def Closed (t : Term) : Prop := t.Below 0

instance (t : Term) : Decidable t.Closed := decidableBelow 0 t

/-- The term with every index that points past its own `d` binders replaced by the value that it
points to, the nearest value first. -/
def fill (vs : List Term) : Nat → Term → Term
  | d, .bound i x => if i < d then .bound i x else (vs[i - d]?).getD (.bound i x)
  | _, .free x => .free x
  | d, .lam x b => .lam x (b.fill vs (d + 1))
  | d, .app f a => .app (f.fill vs d) (a.fill vs d)

@[simp] theorem below_bound {n i : Nat} {x : String} : (bound i x).Below n ↔ i < n := Iff.rfl

@[simp] theorem below_free {n : Nat} {x : String} : (free x).Below n := trivial

@[simp] theorem below_lam {n : Nat} {x : String} {b : Term} :
    (lam x b).Below n ↔ b.Below (n + 1) := Iff.rfl

@[simp] theorem below_app {n : Nat} {f a : Term} :
    (app f a).Below n ↔ f.Below n ∧ a.Below n := Iff.rfl

@[simp] theorem fill_free (vs : List Term) (d : Nat) (x : String) :
    (free x).fill vs d = free x := rfl

@[simp] theorem fill_lam (vs : List Term) (d : Nat) (x : String) (b : Term) :
    (lam x b).fill vs d = lam x (b.fill vs (d + 1)) := rfl

@[simp] theorem fill_app (vs : List Term) (d : Nat) (f a : Term) :
    (app f a).fill vs d = app (f.fill vs d) (a.fill vs d) := rfl

theorem Below.mono {t : Term} {m n : Nat} (h : t.Below m) (hmn : m ≤ n) : t.Below n := by
  induction t generalizing m n with
  | bound i x => exact lt_of_lt_of_le h hmn
  | free x => exact trivial
  | lam x b ih => exact ih h (by omega)
  | app f a ihf iha => exact ⟨ihf h.1 hmn, iha h.2 hmn⟩

theorem Closed.below {t : Term} (h : t.Closed) (n : Nat) : t.Below n :=
  h.mono (Nat.zero_le n)

/-! ## Passes that change nothing -/

theorem shift_of_below (d : Int) {t : Term} {c : Nat} (h : t.Below c) : t.shift d c = t := by
  induction t generalizing c with
  | bound i x => rw [shift, if_pos (by exact_mod_cast h)]
  | free x => rfl
  | lam x b ih =>
    have hb := ih (c := c + 1) h
    rw [shift, ← Nat.cast_succ, hb]
  | app f a ihf iha => rw [shift, ihf h.1, iha h.2]

theorem fill_of_below (vs : List Term) {t : Term} {d : Nat} (h : t.Below d) : t.fill vs d = t := by
  induction t generalizing d with
  | bound i x => exact if_pos h
  | free x => rfl
  | lam x b ih => rw [fill_lam, ih h]
  | app f a ihf iha => rw [fill_app, ihf h.1, iha h.2]

theorem fill_nil (t : Term) (d : Nat) : t.fill [] d = t := by
  induction t generalizing d with
  | bound i x => simp [fill]
  | free x => rfl
  | lam x b ih => rw [fill_lam, ih]
  | app f a ihf iha => rw [fill_app, ihf, iha]

/-! ## The laws of filling -/

theorem fill_bound_of_lt (vs : List Term) {d i : Nat} (x : String) (h : i < d) :
    (bound i x).fill vs d = bound i x := by
  rw [fill, if_pos h]

theorem fill_bound_add (vs : List Term) (d i : Nat) (x : String) :
    (bound (d + i) x).fill vs d = (vs[i]?).getD (bound (d + i) x) := by
  rw [fill, if_neg (by omega), Nat.add_sub_cancel_left]

/-- The values that are filled in last stand nearest. -/
theorem fill_fill {ws : List Term} (hws : ∀ w ∈ ws, w.Closed) (vs : List Term) (t : Term)
    (d : Nat) : (t.fill ws (d + vs.length)).fill vs d = t.fill (vs ++ ws) d := by
  induction t generalizing d with
  | bound i x =>
    by_cases hd : i < d
    · rw [fill_bound_of_lt _ x (by omega), fill_bound_of_lt _ x hd, fill_bound_of_lt _ x hd]
    obtain ⟨k, rfl⟩ := Nat.exists_eq_add_of_le (not_lt.mp hd)
    rw [fill_bound_add (vs ++ ws)]
    by_cases hk : k < vs.length
    · rw [fill_bound_of_lt _ x (by omega), fill_bound_add, List.getElem?_append_left hk]
    obtain ⟨j, rfl⟩ := Nat.exists_eq_add_of_le (not_lt.mp hk)
    rw [← Nat.add_assoc, fill_bound_add, List.getElem?_append_right (by omega),
      Nat.add_sub_cancel_left]
    cases hj : ws[j]? with
    | none =>
      rw [Option.getD_none, Nat.add_assoc, fill_bound_add, List.getElem?_eq_none (by omega),
        Option.getD_none]
    | some w => exact fill_of_below _ ((hws w (List.mem_of_getElem? hj)).below d)
  | free x => rfl
  | lam x b ih =>
    rw [fill_lam, fill_lam, fill_lam, Nat.add_right_comm, ih]
  | app f a ihf iha => rw [fill_app, fill_app, fill_app, ihf, iha]

theorem below_fill {vs : List Term} (hvs : ∀ v ∈ vs, v.Closed) {t : Term} {d : Nat}
    (h : t.Below (d + vs.length)) : (t.fill vs d).Below d := by
  induction t generalizing d with
  | bound i x =>
    by_cases hd : i < d
    · rw [fill_bound_of_lt _ x hd]
      exact hd
    obtain ⟨k, rfl⟩ := Nat.exists_eq_add_of_le (not_lt.mp hd)
    have hk : k < vs.length := Nat.lt_of_add_lt_add_left h
    rw [fill_bound_add, List.getElem?_eq_getElem hk]
    exact (hvs _ (List.getElem_mem hk)).below d
  | free x => exact trivial
  | lam x b ih => exact ih (by rw [Nat.add_right_comm]; exact h)
  | app f a ihf iha => exact ⟨ihf h.1, iha h.2⟩

/-! ## Contraction -/

/-- Under `d` binders, putting a closed argument in the place of index `d` and lowering the rest
fills the term with that argument. -/
theorem lower_subst {a b : Term} (ha : a.Closed) {d : Nat} (hb : b.Below (d + 1)) :
    (subst d a b).shift (-1) d = b.fill [a] d := by
  induction b generalizing d with
  | bound i x =>
    rcases Nat.lt_succ_iff_lt_or_eq.mp hb with hi | rfl
    · rw [subst, if_neg (by exact_mod_cast Nat.ne_of_lt hi), fill_bound_of_lt _ x hi]
      exact shift_of_below (-1) (t := bound i x) hi
    · rw [subst, if_pos rfl, shift_of_below (-1) (ha.below i)]
      exact (fill_bound_add [a] i 0 x).symm
  | free x => rfl
  | lam x b ih =>
    have hlift : a.shift 1 0 = a := shift_of_below 1 ha
    rw [subst, shift, hlift, ← Nat.cast_succ, ih hb, fill_lam]
  | app f c ihf ihc => rw [subst, shift, ihf hb.1, ihc hb.2, fill_app]

/-- Contracting a redex fills its body with the argument. -/
theorem beta_eq_fill {a b : Term} (ha : a.Closed) (hb : b.Below 1) : beta b a = b.fill [a] 0 := by
  have hlift : a.shift 1 0 = a := shift_of_below 1 ha
  rw [beta, hlift]
  exact lower_subst ha hb

end LambdaCalculus.Term
