import LambdaCalculus.Proofs.Term.Path

/-!
# Combinators

A closed abstraction of several parameters that is applied to as many closed arguments takes a step
for each of them.

* `leads_lams` — it reaches its body, filled with the arguments.
-/

namespace LambdaCalculus.Term

theorem below_lams {body : Term} {params : List String} {n : Nat} :
    (body.lams params).Below n ↔ body.Below (n + params.length) := by
  induction params generalizing n with
  | nil => exact Iff.rfl
  | cons p ps ih =>
    simp [ih, Nat.add_assoc, Nat.add_comm 1]

theorem fill_lams (vs : List Term) (body : Term) (params : List String) (d : Nat) :
    (body.lams params).fill vs d = (body.fill vs (d + params.length)).lams params := by
  induction params generalizing d with
  | nil => rfl
  | cons p ps ih =>
    simp [ih, Nat.add_assoc, Nat.add_comm 1]

/-- An abstraction of several parameters, applied to as many arguments, reaches its body filled with
them. -/
theorem leads_lams {body : Term} {params : List String} {args : List Term}
    (hlength : args.length = params.length) (hbody : body.Below params.length)
    (hargs : ∀ a ∈ args, a.Closed) :
    ((body.lams params).apps args).Leads (body.fill args.reverse 0) := by
  induction params generalizing body args with
  | nil =>
    obtain rfl := List.length_eq_zero_iff.mp hlength
    rw [List.reverse_nil, fill_nil]
    exact .refl body
  | cons p ps ih =>
    obtain ⟨a, as, rfl⟩ := List.exists_cons_of_length_eq_add_one hlength
    obtain ⟨ha, has⟩ := List.forall_mem_cons.mp hargs
    have hlength : as.length = ps.length := Nat.succ.inj hlength
    have hlams : (body.lams ps).Below 1 := below_lams.mpr (Nat.add_comm 1 _ ▸ hbody)
    have hstep : ((body.lams (p :: ps)).app a).step? = some ((body.fill [a] ps.length).lams ps) := by
      rw [lams_cons, step?, beta_eq_fill ha hlams, fill_lams, Nat.zero_add]
    have hrest := ih hlength (below_fill (List.forall_mem_singleton.mpr ha) hbody) has
    have hfill := fill_fill (List.forall_mem_singleton.mpr ha) as.reverse body 0
    rw [List.length_reverse, Nat.zero_add, hlength] at hfill
    rw [hfill, ← List.reverse_cons] at hrest
    rw [apps_cons]
    exact ((Leads.of_step hstep).apps as).trans hrest

end LambdaCalculus.Term
