import LambdaCalculus.Proofs.Scope
import LambdaCalculus.Proofs.Term.Path

/-!
# Bindings and their values

Bindings in front of a term are redexes inside one another.  Evaluation contracts them from the
outside in, so that each value is already complete when the next binding comes to the head.  An
*environment* is the bindings made so far with their values, the latest first.

* `Term.letIn` — bindings in front of a term, as a program puts them.
* `Term.valueIn` — the value of a term in an environment: names are resolved among the bindings, and
  the indices that point to them are replaced by their values.
* `after?_valueIn_letIn` — as many steps as there are bindings lead to the value of the last term.
* `valueIn_congr` — a value depends on what the environment holds for the open names alone.
* `valueIn_letValues_of_unused` — bindings that are not used leave no trace.
-/

namespace LambdaCalculus.Term

/-- Bindings in front of a term: `(λx1. … (λxn. body) vn …) v1`. -/
def letIn (body : Term) : List (String × Term) → Term
  | [] => body
  | (x, v) :: rest => .app (.lam x (body.letIn rest)) v

/-- The value of a term in an environment. -/
def valueIn (env : List (String × Term)) (t : Term) : Term :=
  (t.resolve (env.map Prod.fst)).fill (env.map Prod.snd) 0

/-- The environment after some more bindings, each of them seeing those before it. -/
def letValues (env : List (String × Term)) : List (String × Term) → List (String × Term)
  | [] => env
  | (x, v) :: rest => letValues ((x, v.valueIn env) :: env) rest

/-- The values of the bindings are closed. -/
def ClosedIn (env : List (String × Term)) : Prop := ∀ b ∈ env, b.2.Closed

/-! ## Closed values -/

theorem ClosedIn.values {env : List (String × Term)} (h : ClosedIn env) :
    ∀ v ∈ env.map Prod.snd, v.Closed := by
  intro v hv
  obtain ⟨b, hb, rfl⟩ := List.mem_map.mp hv
  exact h b hb

theorem below_resolve_env {t : Term} (ht : t.Closed) (ys : List String)
    (env : List (String × Term)) :
    (t.resolve (ys ++ env.map Prod.fst)).Below (ys.length + (env.map Prod.snd).length) := by
  have h : (t.resolve (ys ++ env.map Prod.fst)).Below (ys ++ env.map Prod.fst).length :=
    below_resolve ht (Nat.zero_le _)
  rwa [List.length_append, List.length_map, ← List.length_map Prod.snd] at h

/-- The value of a term without indices of its own to the outside is closed. -/
theorem closed_valueIn {env : List (String × Term)} (henv : ClosedIn env) {t : Term}
    (ht : t.Closed) : (t.valueIn env).Closed :=
  below_fill henv.values (below_resolve_env ht [] env)

theorem closed_letIn {body : Term} (hbody : body.Closed) {lets : List (String × Term)}
    (hlets : ClosedIn lets) : (body.letIn lets).Closed := by
  induction lets with
  | nil => exact hbody
  | cons b lets ih =>
    obtain ⟨hb, hrest⟩ := List.forall_mem_cons.mp hlets
    exact ⟨(ih hrest).below 1, hb⟩

theorem closedIn_letValues {env lets : List (String × Term)} (henv : ClosedIn env)
    (hlets : ClosedIn lets) : ClosedIn (letValues env lets) := by
  induction lets generalizing env with
  | nil => exact henv
  | cons b lets ih =>
    obtain ⟨hb, hrest⟩ := List.forall_mem_cons.mp hlets
    exact ih (List.forall_mem_cons.mpr ⟨closed_valueIn henv hb, henv⟩) hrest

/-- Outside all bindings a value is the term with its names resolved. -/
theorem valueIn_nil (t : Term) : t.valueIn [] = t.resolve [] := fill_nil ..

theorem valueIn_apps (env : List (String × Term)) (f : Term) (args : List Term) :
    (f.apps args).valueIn env = (f.valueIn env).apps (args.map (·.valueIn env)) := by
  induction args generalizing f with
  | nil => rfl
  | cons a as ih => exact ih (app f a)

theorem letIn_append (t : Term) (lets lets' : List (String × Term)) :
    t.letIn (lets ++ lets') = (t.letIn lets').letIn lets := by
  induction lets with
  | nil => rfl
  | cons b lets ih =>
    show app (lam b.1 (t.letIn (lets ++ lets'))) b.2 = _
    rw [ih]
    rfl

theorem letValues_append (env lets lets' : List (String × Term)) :
    letValues env (lets ++ lets') = letValues (letValues env lets) lets' := by
  induction lets generalizing env with
  | nil => rfl
  | cons b lets ih => exact ih _

/-! ## Steps -/

/-- A step makes the first binding. -/
theorem step?_valueIn_letIn {env : List (String × Term)} (henv : ClosedIn env) {x : String}
    {v : Term} (hv : v.Closed) {body : Term} {lets : List (String × Term)}
    (hbody : (body.letIn lets).Closed) :
    ((body.letIn ((x, v) :: lets)).valueIn env).step? =
      some ((body.letIn lets).valueIn ((x, v.valueIn env) :: env)) := by
  have hbelow : ((body.letIn lets).resolve (x :: env.map Prod.fst)).Below
      (1 + (env.map Prod.snd).length) :=
    below_resolve_env hbody [x] env
  have hbound := below_fill henv.values hbelow
  have hfill := fill_fill henv.values [v.valueIn env]
    ((body.letIn lets).resolve (x :: env.map Prod.fst)) 0
  rw [List.length_singleton, Nat.zero_add] at hfill
  exact congrArg some ((beta_eq_fill (closed_valueIn henv hv) hbound).trans hfill)

/-- As many steps as there are bindings lead to the value of the last term. -/
theorem after?_valueIn_letIn {env : List (String × Term)} (henv : ClosedIn env) {body : Term}
    (hbody : body.Closed) {lets : List (String × Term)} (hlets : ClosedIn lets) :
    ((body.letIn lets).valueIn env).after? lets.length = some (body.valueIn (letValues env lets)) := by
  induction lets generalizing env with
  | nil => rfl
  | cons b lets ih =>
    obtain ⟨hb, hrest⟩ := List.forall_mem_cons.mp hlets
    have hstep := step?_valueIn_letIn henv hb (closed_letIn hbody hrest) (x := b.1)
    rw [List.length_cons, after?_succ_of_some hstep]
    exact ih (List.forall_mem_cons.mpr ⟨closed_valueIn henv hb, henv⟩) hrest

/-! ## What a value depends on -/

theorem lookup_eq_bind (env : List (String × Term)) (x : String) :
    env.lookup x = ((env.map Prod.fst).idxOf? x).bind fun i => (env.map Prod.snd)[i]? := by
  induction env with
  | nil => rfl
  | cons b env ih =>
    obtain ⟨y, v⟩ := b
    by_cases hyx : y = x
    · subst hyx
      rw [List.map_cons, idxOf?_cons_self, List.lookup_cons_self]
      rfl
    · rw [List.map_cons, idxOf?_cons_of_ne hyx, List.lookup_cons, beq_false_of_ne (Ne.symm hyx), ih]
      cases (env.map Prod.fst).idxOf? x <;> rfl

/-- A name that is not taken by a binder inside stands for what the environment holds for it. -/
theorem fill_resolve_free {ys : List String} {x : String} (hx : x ∉ ys)
    (env : List (String × Term)) :
    ((free x).resolve (ys ++ env.map Prod.fst)).fill (env.map Prod.snd) ys.length =
      (env.lookup x).getD (free x) := by
  rw [lookup_eq_bind]
  cases hi : (env.map Prod.fst).idxOf? x with
  | none =>
    rw [resolve_free_of_none (by rw [idxOf?_append_of_notMem hx, hi, Option.map_none])]
    rfl
  | some i =>
    have hlt : i < (env.map Prod.snd).length := by
      rw [List.length_map, ← List.length_map Prod.fst]
      exact idxOf?_lt hi
    rw [resolve_free_of_some (by rw [idxOf?_append_of_notMem hx, hi, Option.map_some]),
      Nat.add_comm, fill_bound_add, Option.bind_some, List.getElem?_eq_getElem hlt]
    rfl

theorem valueIn_free (env : List (String × Term)) (x : String) :
    (free x).valueIn env = (env.lookup x).getD (free x) :=
  fill_resolve_free List.not_mem_nil env

/-- Below binders `ys` a term depends on what the environment holds for its other open names. -/
theorem fill_resolve_congr {env env' : List (String × Term)} {t : Term} {ys : List String}
    (ht : t.Below ys.length) (h : ∀ x ∈ t.openNames, x ∉ ys → env.lookup x = env'.lookup x) :
    (t.resolve (ys ++ env.map Prod.fst)).fill (env.map Prod.snd) ys.length =
      (t.resolve (ys ++ env'.map Prod.fst)).fill (env'.map Prod.snd) ys.length := by
  induction t generalizing ys with
  | bound i x => simp [fill_bound_of_lt _ x ht]
  | free x =>
    by_cases hx : x ∈ ys
    · cases hi : ys.idxOf? x with
      | none => exact absurd hx (List.idxOf?_eq_none_iff.mp hi)
      | some i =>
        simp [resolve_free_of_some (idxOf?_append_of_some hi _),
          fill_bound_of_lt _ x (idxOf?_lt hi)]
    · rw [fill_resolve_free hx, fill_resolve_free hx, h x (List.mem_singleton_self x) hx]
  | lam x b ih =>
    have hb : ∀ y ∈ b.openNames, y ∉ x :: ys → env.lookup y = env'.lookup y := by
      intro y hy hys
      obtain ⟨hyx, hys⟩ := not_or.mp (mt List.mem_cons.mpr hys)
      exact h y (by simp [openNames, hy, hyx]) hys
    exact congrArg (lam x) (@ih (x :: ys) ht hb)
  | app f a ihf iha =>
    have hf := ihf ht.1 fun x hx => h x (List.mem_append_left _ hx)
    have ha := iha ht.2 fun x hx => h x (List.mem_append_right _ hx)
    simp [hf, ha]

/-- A value depends on what the environment holds for the open names alone. -/
theorem valueIn_congr {t : Term} (ht : t.Closed) {env env' : List (String × Term)}
    (h : ∀ x ∈ t.openNames, env.lookup x = env'.lookup x) : t.valueIn env = t.valueIn env' :=
  @fill_resolve_congr env env' t [] ht fun x hx _ => h x hx

/-- Bindings hold nothing for other names. -/
theorem lookup_letValues_of_notMem {x : String} {lets : List (String × Term)}
    (hx : x ∉ lets.map Prod.fst) (env : List (String × Term)) :
    (letValues env lets).lookup x = env.lookup x := by
  induction lets generalizing env with
  | nil => rfl
  | cons b lets ih =>
    obtain ⟨hxb, hrest⟩ := not_or.mp (mt List.mem_cons.mpr hx)
    rw [letValues, ih hrest, List.lookup_cons, beq_false_of_ne hxb]

/-- Bindings that are not used by what comes after them leave no trace. -/
theorem valueIn_letValues_of_unused {env lets lets' : List (String × Term)} {body : Term}
    (henv : ClosedIn env) (hlets : ClosedIn lets) (hlets' : ClosedIn lets') (hbody : body.Closed)
    (hunused : ∀ x ∈ lets.map Prod.fst, x ∉ (body.letIn lets').openNames) :
    body.valueIn (letValues env (lets ++ lets')) = body.valueIn (letValues env lets') := by
  -- both are what the same bindings lead to, from environments that agree where it matters
  have hsame : (body.letIn lets').valueIn (letValues env lets) = (body.letIn lets').valueIn env := by
    apply valueIn_congr (closed_letIn hbody hlets')
    intro x hx
    exact lookup_letValues_of_notMem (fun hmem => hunused x hmem hx) env
  have hwith := after?_valueIn_letIn (closedIn_letValues henv hlets) hbody hlets'
  have hwithout := after?_valueIn_letIn henv hbody hlets'
  rw [hsame, hwithout] at hwith
  rw [letValues_append]
  exact (Option.some.inj hwith).symm

end LambdaCalculus.Term
