import LambdaCalculus.Evaluation
import LambdaCalculus.Proofs.Term.Nesting
import LambdaCalculus.Proofs.Term.Path

/-!
# Evaluation apart from its bounds

`walk` shows the terms of a path one after the other, and `evaluate` follows the path to its end.

* `shown` — the terms that a walk shows to its visitor.
* `settles_shown` — they are the terms of the path.
* `settles_evaluate` — where the path comes to an end, evaluation answers with its last term.
* `leads_of_evaluate` — what evaluation answers with is the last term of the path.
-/

namespace LambdaCalculus

/-! ## Bounds -/

/-- Bounds are compared in depth and in patience. -/
instance : Preorder Bounds := Preorder.lift fun b => (b.depth, b.patience)

instance : IsDirectedOrder Bounds where
  directed b c := by
    refine ⟨⟨max b.depth c.depth, max b.patience c.patience⟩, ?_, ?_⟩
    · exact ⟨Nat.le_max_left .., Nat.le_max_left ..⟩
    · exact ⟨Nat.le_max_right .., Nat.le_max_right ..⟩

/-- What settles in the depth of nesting settles in all bounds. -/
theorem Settles.depth {α : Type} {f : Nat → Except Fault α} {r : Except Fault α}
    (h : Settles f r) : Settles (fun bounds : Bounds => f bounds.depth) r := by
  obtain ⟨i, hi⟩ := h.reached
  exact ⟨fun bounds => h.limited bounds.depth, ⟨i, 0⟩, fun bounds hb => hi _ hb.1⟩

theorem settles_guarded {α : Type} {f : Nat → Except Fault α} {a : α} (h : Settles f (.ok a))
    (activity : Activity) :
    Settles (fun room => guarded (m := Except Fault) activity (f room)) (.ok a) := by
  have hguarded : ∀ x : Except Fault α,
      guarded (m := Except Fault) activity x = x.mapError (Fault.during activity) := by
    intro x
    cases x <;> rfl
  simp only [hguarded]
  exact h.mapError fun _ hfault => hfault.during activity

/-! ## The terms that a walk shows -/

/-- A visitor that keeps what it is shown. -/
def record (_ : Nat) (u : Term) : StateT (List Term) (Except Fault) Unit :=
  modify (· ++ [u])

/-- The terms that a walk of at most `n` steps from `t` shows. -/
def shown (limit n : Nat) (t : Term) : Except Fault (List Term) := do
  let (_, seen) ← (walk limit record n 0 t).run []
  pure seen

theorem settles_walk_record (n k : Nat) (t : Term) (seen : List Term) :
    ∃ last, Settles (fun limit => (walk limit record n k t).run seen)
      (.ok (last, seen ++ t.path n)) := by
  induction n generalizing k t seen with
  | zero =>
    refine ⟨t, ?_⟩
    rw [Term.path, List.append_nil]
    exact .const _
  | succ n ih =>
    have hstep := settles_guarded (Term.settles_stepWithin t) .reduction
    have hrun : ∀ limit, (walk limit record (n + 1) k t).run seen =
        (guarded .reduction (t.stepWithin limit) : Except Fault _) >>= fun next =>
          next.elim (pure (t, seen)) fun u => (walk limit record n (k + 1) u).run (seen ++ [u]) := by
      intro limit
      rw [walk]
      rcases t.stepWithin limit with fault | _ | u <;> rfl
    simp only [hrun]
    cases ht : t.step? with
    | none =>
      refine ⟨t, ?_⟩
      rw [Term.path_succ_of_none ht, List.append_nil]
      rw [ht] at hstep
      exact hstep.bind (.const _)
    | some u =>
      obtain ⟨last, hlast⟩ := ih (k + 1) u (seen ++ [u])
      refine ⟨last, ?_⟩
      rw [Term.path_succ_of_some ht]
      rw [List.append_assoc] at hlast
      rw [ht] at hstep
      exact hstep.bind hlast

/-- A walk shows the terms of the path. -/
theorem settles_shown (n : Nat) (t : Term) : Settles (fun limit => shown limit n t) (.ok (t.path n)) := by
  obtain ⟨last, h⟩ := settles_walk_record n 0 t []
  exact h.map Prod.snd

/-! ## The end of a walk -/

/-- A visitor that does nothing. -/
def silent (_ : Nat) (_ : Term) : Except Fault Unit := pure ()

theorem walk_silent_succ (limit n k : Nat) (t : Term) :
    walk limit silent (n + 1) k t =
      (guarded .reduction (t.stepWithin limit) : Except Fault _) >>= fun next =>
        next.elim (pure t) (walk limit silent n (k + 1)) := by
  rw [walk]
  rcases t.stepWithin limit with fault | _ | u <;> rfl

/-- A walk that is not kept from it ends at a term of the path. -/
theorem walk_silent_limited (limit n k : Nat) (t : Term) :
    (∃ u, walk limit silent n k t = .ok u ∧ t.Leads u) ∨
      ∃ fault, walk limit silent n k t = .error fault ∧ fault.IsLimit := by
  induction n generalizing k t with
  | zero => exact .inl ⟨t, rfl, .refl t⟩
  | succ n ih =>
    rw [walk_silent_succ]
    rcases (settles_guarded (Term.settles_stepWithin t) .reduction).limited limit with h | ⟨fault, h, hf⟩
    · rw [h]
      cases ht : t.step? with
      | none => exact .inl ⟨t, rfl, .refl t⟩
      | some u =>
        rcases ih (k + 1) u with ⟨v, hv, hlead⟩ | hfault
        · exact .inl ⟨v, hv, (Term.Leads.of_step ht).trans hlead⟩
        · exact .inr hfault
    · exact .inr ⟨fault, by rw [h]; rfl, hf⟩

/-- Where the path comes to an end, a walk that is long enough gets there. -/
theorem walk_silent_reached {j : Nat} {t u : Term} (hu : t.after? j = some u)
    (hlast : u.step? = none) :
    ∃ i, ∀ limit, i ≤ limit → ∀ n k, j ≤ n → walk limit silent n k t = .ok u := by
  induction j generalizing t with
  | zero =>
    cases hu
    obtain ⟨i, hi⟩ := (settles_guarded (Term.settles_stepWithin u) .reduction).reached
    refine ⟨i, ?_⟩
    intro limit hlimit n k _
    cases n with
    | zero => rfl
    | succ n =>
      rw [walk_silent_succ, hi limit hlimit, hlast]
      rfl
  | succ j ih =>
    obtain ⟨v, hv, hj⟩ := Option.bind_eq_some_iff.mp hu
    obtain ⟨i₁, h₁⟩ := (settles_guarded (Term.settles_stepWithin t) .reduction).reached
    obtain ⟨i₂, h₂⟩ := ih hj
    refine ⟨max i₁ i₂, ?_⟩
    intro limit hlimit n k hn
    obtain ⟨n, rfl⟩ := Nat.exists_eq_add_of_le' hn
    rw [← Nat.add_assoc, walk_silent_succ, h₁ limit (by omega), hv]
    exact h₂ limit (by omega) (n + j) (k + 1) (by omega)

theorem evaluate_silent (bounds : Bounds) (t : Term) :
    evaluate bounds silent t = walk bounds.depth silent bounds.patience 0 t >>= fun last =>
      (guarded .reduction (last.reducibleWithin bounds.depth) : Except Fault _) >>= fun more =>
        if more then .error .unfinished else .ok last := by
  rw [evaluate]
  rcases walk bounds.depth silent bounds.patience 0 t with fault | last
  · rfl
  · simp only [ok_bind]
    rcases last.reducibleWithin bounds.depth with fault | _ | _ <;> rfl

/-- Where the path comes to an end, evaluation answers with its last term. -/
theorem settles_evaluate {t u : Term} (hu : t.Leads u) (hlast : u.step? = none) :
    Settles (fun bounds : Bounds => evaluate bounds silent t) (.ok u) := by
  have hreducible (v : Term) := settles_guarded (Term.settles_reducibleWithin v) .reduction
  constructor
  · intro bounds
    rw [evaluate_silent]
    rcases walk_silent_limited bounds.depth bounds.patience 0 t with ⟨v, hv, hlead⟩ | ⟨fault, hf, hl⟩
    · rw [hv, ok_bind]
      rcases (hreducible v).limited bounds.depth with hr | ⟨fault, hf, hl⟩
      · rw [hr, ok_bind, ← v.isSome_step?]
        cases hstep : v.step? with
        | none =>
          rw [hlead.unique hstep hu hlast]
          exact .inl rfl
        | some w => exact .inr ⟨.unfinished, rfl, trivial⟩
      · exact .inr ⟨fault, by rw [hf]; rfl, hl⟩
    · exact .inr ⟨fault, by rw [hf]; rfl, hl⟩
  · obtain ⟨j, hj⟩ := hu
    obtain ⟨i₁, h₁⟩ := walk_silent_reached hj hlast
    obtain ⟨i₂, h₂⟩ := (hreducible u).reached
    refine ⟨⟨max i₁ i₂, j⟩, ?_⟩
    intro bounds hb
    have hdepth : max i₁ i₂ ≤ bounds.depth := hb.1
    rw [evaluate_silent, h₁ _ (by omega) _ _ hb.2, ok_bind, h₂ _ (by omega),
      ← u.isSome_step?, hlast]
    rfl

/-- What evaluation answers with is the last term of the path, whatever the bounds. -/
theorem leads_of_evaluate {bounds : Bounds} {t u : Term} (h : evaluate bounds silent t = .ok u) :
    t.Leads u ∧ u.step? = none := by
  rw [evaluate_silent] at h
  obtain ⟨last, hwalk, h⟩ := bind_eq_ok.mp h
  obtain ⟨more, hmore, h⟩ := bind_eq_ok.mp h
  have hreducible := settles_guarded (Term.settles_reducibleWithin last) .reduction
  cases hreducible.eq_of_ok hmore
  split at h
  · cases h
  · next hlast =>
    cases h
    rcases walk_silent_limited bounds.depth bounds.patience 0 t with ⟨v, hv, hlead⟩ | ⟨fault, hf, -⟩
    · rw [hwalk] at hv
      cases hv
      rw [← Term.isSome_step?, Bool.not_eq_true, Option.isSome_eq_false_iff,
        Option.isNone_iff_eq_none] at hlast
      exact ⟨hlead, hlast⟩
    · rw [hwalk] at hf
      cases hf

end LambdaCalculus
