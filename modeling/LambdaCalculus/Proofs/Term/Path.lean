import LambdaCalculus.Proofs.Term.Occurrences

/-!
# Paths of head steps

A term has at most one head step, so the terms that it reaches stand in a row.  `Term.path n` is the
first `n` of them, the term itself left out, and `Term.Leads` says that a term is reached at all.
Where the first `n` end is `Term.ending n`: the term after `n` steps, or the last one if there are
fewer.

* `forall_mem_path` — what a step keeps, a path keeps.
* `Leads.app` — the head of a spine runs as it would alone.
* `Leads.tail` — of two terms on a path, the one that is not reducible comes last.
* `Leads.unique` — there is one such term at most.
* `Leads.exists_of_app` — a spine can only come to an end if its head does.
* `path_add`, `ending_add` — a path goes on from where a shorter one ends.
-/

namespace LambdaCalculus.Term

/-- The first `n` terms that evaluation reaches from `t`, or all if there are fewer. -/
def path : Nat → Term → List Term
  | 0, _ => []
  | n + 1, t =>
    match t.step? with
    | none => []
    | some u => u :: u.path n

/-- Evaluation reaches `u` from `t`. -/
def Leads (t u : Term) : Prop := ∃ n, t.after? n = some u

/-! ## Paths -/

theorem path_succ_of_none {t : Term} (h : t.step? = none) (n : Nat) : t.path (n + 1) = [] := by
  rw [path, h]

theorem path_of_none {t : Term} (h : t.step? = none) (n : Nat) : t.path n = [] := by
  cases n with
  | zero => rfl
  | succ n => exact path_succ_of_none h n

theorem path_succ_of_some {t u : Term} (h : t.step? = some u) (n : Nat) :
    t.path (n + 1) = u :: u.path n := by
  rw [path, h]

theorem after?_succ_of_some {t u : Term} (h : t.step? = some u) (n : Nat) :
    t.after? (n + 1) = u.after? n := by
  rw [after?, h, Option.bind_some]

theorem after?_succ_of_none {t : Term} (h : t.step? = none) (n : Nat) : t.after? (n + 1) = none := by
  rw [after?, h, Option.bind_none]

/-- What a step keeps, a path keeps. -/
theorem forall_mem_path {P : Term → Prop} (hstep : ∀ {t u}, P t → t.step? = some u → P u) {t : Term}
    (ht : P t) (n : Nat) : ∀ u ∈ t :: t.path n, P u := by
  induction n generalizing t with
  | zero => exact List.forall_mem_singleton.mpr ht
  | succ n ih =>
    refine List.forall_mem_cons.mpr ⟨ht, ?_⟩
    cases h : t.step? with
    | none =>
      rw [path_succ_of_none h]
      exact List.forall_mem_nil _
    | some u =>
      rw [path_succ_of_some h]
      exact ih (hstep ht h)

/-- A term that exists after `n` steps is the last of the first `n`. -/
theorem path_of_after? {n : Nat} {t u : Term} (h : t.after? n = some u) :
    (t.path n).length = n ∧ (t :: t.path n)[n]? = some u := by
  induction n generalizing t with
  | zero =>
    cases h
    exact ⟨rfl, rfl⟩
  | succ n ih =>
    obtain ⟨v, hv, hn⟩ := Option.bind_eq_some_iff.mp h
    obtain ⟨hlength, hlast⟩ := ih hn
    rw [path_succ_of_some hv]
    exact ⟨by rw [List.length_cons, hlength], hlast⟩

/-! ## Reaching -/

theorem Leads.refl (t : Term) : t.Leads t := ⟨0, rfl⟩

theorem Leads.of_step {t u : Term} (h : t.step? = some u) : t.Leads u :=
  ⟨1, by rw [after?_succ_of_some h, after?]⟩

theorem after?_add (m n : Nat) (t : Term) :
    t.after? (m + n) = (t.after? m).bind (after? n) := by
  induction m generalizing t with
  | zero => rw [Nat.zero_add, after?, Option.bind_some]
  | succ m ih =>
    rw [Nat.succ_add, after?, after?, Option.bind_assoc]
    exact congrArg _ (funext ih)

theorem Leads.trans {t u v : Term} (h : t.Leads u) (h' : u.Leads v) : t.Leads v := by
  obtain ⟨m, hm⟩ := h
  obtain ⟨n, hn⟩ := h'
  exact ⟨m + n, by rw [after?_add, hm, Option.bind_some, hn]⟩

/-- The terms of a path are reached. -/
theorem leads_of_mem_path {n : Nat} {t u : Term} (h : u ∈ t.path n) : t.Leads u :=
  forall_mem_path (fun ht hstep => ht.trans (.of_step hstep)) (.refl t) n u
    (List.mem_cons_of_mem t h)

/-- What a step keeps, evaluation keeps. -/
theorem Leads.keeps {P : Term → Prop} (hstep : ∀ {t u}, P t → t.step? = some u → P u) {t u : Term}
    (h : t.Leads u) (ht : P t) : P u := by
  obtain ⟨n, hn⟩ := h
  exact forall_mem_path hstep ht n u (List.mem_of_getElem? (path_of_after? hn).2)

theorem Closed.of_leads {t u : Term} (h : t.Closed) (hu : t.Leads u) : u.Closed :=
  hu.keeps Closed.of_step h

/-! ## Spines -/

/-- Only an application has a step. -/
theorem step?_app_of_some {t u : Term} (h : t.step? = some u) (a : Term) :
    (app t a).step? = some (app u a) := by
  cases t with
  | app f b => rw [step?, h, Option.map_some]
  | _ => cases h

theorem after?_app {n : Nat} {t u : Term} (h : t.after? n = some u) (a : Term) :
    (app t a).after? n = some (app u a) := by
  induction n generalizing t with
  | zero =>
    cases h
    rfl
  | succ n ih =>
    obtain ⟨v, hv, hn⟩ := Option.bind_eq_some_iff.mp h
    rw [after?_succ_of_some (step?_app_of_some hv a), ih hn]

/-- The head of a spine runs as it would alone. -/
theorem Leads.app {t u : Term} (h : t.Leads u) (a : Term) : (app t a).Leads (app u a) := by
  obtain ⟨n, hn⟩ := h
  exact ⟨n, after?_app hn a⟩

theorem Leads.apps {t u : Term} (h : t.Leads u) (as : List Term) :
    (t.apps as).Leads (u.apps as) := by
  induction as generalizing t u with
  | nil => exact h
  | cons a as ih => exact ih (h.app a)

/-! ## The end of a path -/

/-- Of two terms on a path, the one that is not reducible comes last. -/
theorem Leads.tail {t u w : Term} (hu : t.Leads u) (hw : t.Leads w) (hlast : w.step? = none) :
    u.Leads w := by
  obtain ⟨m, hm⟩ := hu
  obtain ⟨n, hn⟩ := hw
  induction m generalizing t n with
  | zero =>
    cases hm
    exact ⟨n, hn⟩
  | succ m ih =>
    obtain ⟨v, hv, hm⟩ := Option.bind_eq_some_iff.mp hm
    cases n with
    | zero =>
      cases hn
      rw [hlast] at hv
      cases hv
    | succ n => exact ih hm n (by rwa [after?_succ_of_some hv] at hn)

/-- There is one last term at most. -/
theorem Leads.unique {t u v : Term} (hu : t.Leads u) (hu' : u.step? = none) (hv : t.Leads v)
    (hv' : v.step? = none) : u = v := by
  obtain ⟨n, hn⟩ := hu.tail hv hv'
  cases n with
  | zero => exact Option.some.inj hn
  | succ n =>
    rw [after?, hu'] at hn
    cases hn

/-- A spine can only come to an end if its head does. -/
theorem Leads.exists_of_app {t a w : Term} (h : (Term.app t a).Leads w) (hlast : w.step? = none) :
    ∃ u, t.Leads u ∧ u.step? = none := by
  obtain ⟨n, hn⟩ := h
  induction n generalizing t with
  | zero =>
    cases hn
    refine ⟨t, .refl t, ?_⟩
    cases ht : t.step? with
    | none => rfl
    | some u =>
      rw [step?_app_of_some ht] at hlast
      cases hlast
  | succ n ih =>
    cases ht : t.step? with
    | none => exact ⟨t, .refl t, ht⟩
    | some u =>
      rw [after?_succ_of_some (step?_app_of_some ht a)] at hn
      obtain ⟨v, huv, hv⟩ := ih hn
      exact ⟨v, (Leads.of_step ht).trans huv, hv⟩

/-! ## So many steps, or fewer -/

/-- The term after `n` steps, or the last one if there are fewer. -/
def ending (n : Nat) (t : Term) : Term := (t.path n).getLastD t

theorem ending_of_none {t : Term} (h : t.step? = none) (n : Nat) : t.ending n = t := by
  rw [ending, path_of_none h, List.getLastD_nil]

theorem ending_succ_of_some {t u : Term} (h : t.step? = some u) (n : Nat) :
    t.ending (n + 1) = u.ending n := by
  rw [ending, path_succ_of_some h, List.getLastD_cons, ending]

/-- The terms of a path are those after so many steps. -/
theorem getElem?_path (n k : Nat) (t : Term) :
    (t.path n)[k]? = if k < n then t.after? (k + 1) else none := by
  induction n generalizing k t with
  | zero => rfl
  | succ n ih =>
    cases h : t.step? with
    | none => rw [path_of_none h, after?_succ_of_none h, ite_self, List.getElem?_nil]
    | some u =>
      rw [path_succ_of_some h, after?_succ_of_some h]
      cases k with
      | zero => rfl
      | succ k =>
        rw [List.getElem?_cons_succ, ih]
        simp only [Nat.add_lt_add_iff_right]

theorem length_path_le (n : Nat) (t : Term) : (t.path n).length ≤ n := by
  rw [← List.getElem?_eq_none_iff, getElem?_path, if_neg (Nat.lt_irrefl n)]

/-- The last term of a path is there after as many steps as the path has terms. -/
theorem after?_length_path (n : Nat) (t : Term) :
    t.after? (t.path n).length = some (t.ending n) := by
  induction n generalizing t with
  | zero => rfl
  | succ n ih =>
    cases h : t.step? with
    | none => rw [path_of_none h, ending_of_none h, List.length_nil, after?]
    | some u =>
      rw [path_succ_of_some h, ending_succ_of_some h, List.length_cons, after?_succ_of_some h, ih]

/-- Where a path ends, one more step is possible if and only if the path could be longer. -/
theorem reducible_ending (n : Nat) (t : Term) :
    (t.ending n).reducible = (t.after? (n + 1)).isSome := by
  induction n generalizing t with
  | zero =>
    show t.reducible = (t.step?.bind (after? 0)).isSome
    rw [← isSome_step?]
    cases t.step? <;> rfl
  | succ n ih =>
    cases h : t.step? with
    | none => rw [ending_of_none h, after?_succ_of_none h, ← isSome_step?, h]
    | some u => rw [ending_succ_of_some h, after?_succ_of_some h, ih]

/-- A term that exists after `n` steps is where they end. -/
theorem ending_of_after? {n : Nat} {t u : Term} (h : t.after? n = some u) : t.ending n = u := by
  have hlast := after?_length_path n t
  rw [(path_of_after? h).1, h] at hlast
  exact (Option.some.inj hlast).symm

/-- Where there are more than `n` steps, the path of `n` is not cut short. -/
theorem after?_of_reducible_ending {n : Nat} {t : Term} (h : (t.ending n).reducible = true) :
    t.after? n = some (t.ending n) := by
  rw [reducible_ending, after?_add] at h
  obtain ⟨u, hu⟩ := Option.isSome_iff_exists.mp (Option.isSome_of_isSome_bind h)
  rw [ending_of_after? hu, hu]

/-- A path goes on from where a shorter one ends. -/
theorem path_add (m n : Nat) (t : Term) : t.path (m + n) = t.path m ++ (t.ending m).path n := by
  induction m generalizing t with
  | zero =>
    rw [Nat.zero_add]
    rfl
  | succ m ih =>
    cases h : t.step? with
    | none => rw [ending_of_none h, path_of_none h, path_of_none h, path_of_none h, List.append_nil]
    | some u =>
      rw [Nat.succ_add, path_succ_of_some h, path_succ_of_some h, ending_succ_of_some h, ih,
        List.cons_append]

theorem ending_add (m n : Nat) (t : Term) : t.ending (m + n) = (t.ending m).ending n := by
  simp only [ending, path_add, List.getLastD_eq_getLast?, List.getLast?_append]
  cases (path n _).getLast? <;> rfl

/-- A last term that comes within `n` steps is where they end. -/
theorem ending_of_last {k n : Nat} {t u : Term} (hk : k ≤ n) (hu : t.after? k = some u)
    (hlast : u.step? = none) : t.ending n = u := by
  obtain ⟨m, rfl⟩ := Nat.exists_eq_add_of_le hk
  rw [ending_add, ending_of_after? hu, ending_of_none hlast]

end LambdaCalculus.Term
