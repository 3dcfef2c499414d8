import LambdaCalculus.Proofs.Evaluation
import LambdaCalculus.Proofs.Program.Standard
import Mathlib.Data.List.Forall2

/-!
# What a sequence of bindings does

A program of `n` bindings takes `n` steps to its last expression, in which the names of the bindings
stand for their values.  A value is made once, in sight of the bindings before it and no others.

* `Expr.valueIn`, `letValues` — the values of an expression and of bindings, from the text's tree.
* `settles_letValues` — the limit on nesting apart, they are the values of what the tree means.
* `let_sequence` — the loaded program reaches the value of its last expression in as many steps as
  it has bindings, those of the standard definitions included.
-/

namespace LambdaCalculus

/-- The value of an expression in sight of bindings, the latest first: its names are resolved in
theirs, and every index that points past its own binders to a binding is replaced by the value of
the binding. -/
def Expr.valueIn (limit : Nat) (env : List (String × Term)) (e : Expr) : Except Fault Term := do
  let named ← e.meaning limit
  let t ← ((named.resolveIn limit).run.run ⟨env.map Prod.fst⟩).1
  pure (t.fill (env.map Prod.snd) 0)

/-- The bindings and their values, the latest first, after some more statements: each value is made
in sight of the bindings before it. -/
def letValues (limit : Nat) : List (String × Term) → List Statement →
    Except Fault (List (String × Term))
  | env, [] => pure env
  | env, .binding _ x e :: rest => do
    let v ← e.valueIn limit env
    letValues limit ((x, v) :: env) rest
  | _, .expression p _ :: _ => throw (.malformed .earlyExpression (some p) none)

theorem Expr.Means.settles_valueIn {e : Expr} {t : Term} (h : e.Means t)
    (env : List (String × Term)) :
    Settles (fun limit => e.valueIn limit env) (.ok (t.valueIn env)) := by
  have hmeaning : Settles (fun limit => e.meaning limit) (.ok t) :=
    h.mapError fun _ hfault => hfault.during .desugaring
  have hresolve : Settles (fun limit => ((t.resolveIn limit).run.run ⟨env.map Prod.fst⟩).1)
      (.ok (t.resolve (env.map Prod.fst))) := by
    simp only [Term.resolveIn_run]
    exact .guard t.enough_fits (.const _) _ trivial
  exact hmeaning.bind (hresolve.map (Term.fill (env.map Prod.snd) 0))

theorem settles_letValues {bindings : List Statement} {lets : List (String × Term)}
    (h : List.Forall₂ Statement.Binds bindings lets) (env : List (String × Term)) :
    Settles (fun limit => letValues limit env bindings) (.ok (Term.letValues env lets)) := by
  induction h generalizing env with
  | nil => exact .const _
  | cons hs _ ih =>
    obtain ⟨place, e, rfl, he⟩ := hs.means
    exact (he.settles_valueIn env).bind (ih _)

/-! ## Bindings that are put together -/

theorem exists_append_of_binds {bs bs' : List Statement} {lets : List (String × Term)}
    (h : List.Forall₂ Statement.Binds (bs ++ bs') lets) : ∃ ls ls', lets = ls ++ ls' ∧
      List.Forall₂ Statement.Binds bs ls ∧ List.Forall₂ Statement.Binds bs' ls' := by
  have hleft := List.forall₂_take bs.length h
  have hright := List.forall₂_drop bs.length h
  rw [List.take_left] at hleft
  rw [List.drop_left] at hright
  exact ⟨_, _, (List.take_append_drop bs.length lets).symm, hleft, hright⟩

theorem exists_mem_of_forall₂ {α β : Type} {R : α → β → Prop} {as : List α} {bs : List β}
    (h : List.Forall₂ R as bs) : ∀ b ∈ bs, ∃ a ∈ as, R a b := by
  induction h with
  | nil => exact List.forall_mem_nil _
  | @cons a b as bs hab _ ih =>
    refine List.forall_mem_cons.mpr ⟨⟨a, List.mem_cons_self .., hab⟩, ?_⟩
    intro b' hb'
    obtain ⟨a', ha', hab'⟩ := ih b' hb'
    exact ⟨a', List.mem_cons_of_mem a ha', hab'⟩

theorem exists_binding_of_mem {bindings : List Statement} {lets : List (String × Term)}
    (h : List.Forall₂ Statement.Binds bindings lets) :
    ∀ x ∈ lets.map Prod.fst, ∃ s ∈ bindings, ∃ place e, s = .binding place x e := by
  intro x hx
  obtain ⟨b, hb, rfl⟩ := List.mem_map.mp hx
  obtain ⟨s, hs, hbinds⟩ := exists_mem_of_forall₂ h b hb
  obtain ⟨place, e, hse, -⟩ := hbinds.means
  exact ⟨s, hs, place, e, hse⟩

theorem closedIn_of_binds {bindings : List Statement} {lets : List (String × Term)}
    (h : List.Forall₂ Statement.Binds bindings lets) : Term.ClosedIn lets :=
  fun b hb => (spelled_of_binds h b hb).2.lexical.closed

/-- Bindings that nothing after them uses can be left out without a change of the last value. -/
theorem settles_valueIn_of_unused {before unused after : List Statement}
    {ls : List (String × Term)} {place : Span} {e : Expr} {body : Term}
    (hls : List.Forall₂ Statement.Binds (before ++ unused ++ after) ls) (hbody : body.Spelled)
    (he : e.Means body) :
    ∃ m, Settles (fun limit => Program.meaning limit ⟨after ++ [.expression place e]⟩) (.ok m) ∧
      ((∀ s ∈ unused, ∀ place x value, s = .binding place x value → x ∉ m.openNames) →
        ∃ env, Settles (fun limit => letValues limit [] (before ++ after)) (.ok env) ∧
          Settles (fun limit => e.valueIn limit env)
            (.ok (body.valueIn (Term.letValues [] ls)))) := by
  obtain ⟨ls', lsAfter, rfl, hls', hlsAfter⟩ := exists_append_of_binds hls
  obtain ⟨lsBefore, lsUnused, rfl, hlsBefore, hlsUnused⟩ := exists_append_of_binds hls'
  have hrest : (Program.mk (after ++ [.expression place e])).Means lsAfter body :=
    ⟨hbody, after, place, e, rfl, hlsAfter, he⟩
  refine ⟨_, hrest.settles_meaning, ?_⟩
  intro hunused
  have hnames : ∀ x ∈ lsUnused.map Prod.fst, x ∉ (body.letIn lsAfter).openNames := by
    intro x hx
    obtain ⟨s, hs, place', value, hse⟩ := exists_binding_of_mem hlsUnused x hx
    exact hunused s hs place' x value hse
  have hbefore : Term.ClosedIn (Term.letValues [] lsBefore) :=
    Term.closedIn_letValues (List.forall_mem_nil _) (closedIn_of_binds hlsBefore)
  have hsame := Term.valueIn_letValues_of_unused hbefore (closedIn_of_binds hlsUnused)
    (closedIn_of_binds hlsAfter) hbody.lexical.closed hnames
  rw [← Term.letValues_append, ← Term.letValues_append, ← List.append_assoc] at hsame
  rw [hsame]
  exact ⟨_, settles_letValues (List.rel_append hlsBefore hlsAfter) [], he.settles_valueIn _⟩

/-! ## Programs -/

/-- The statements that stand before a program's own. -/
def standardIn (standard : Bool) : List Statement := if standard then standardBindings else []

theorem binding_of_mem_standardIn (standard : Bool) :
    ∀ s ∈ standardIn standard, ∃ place x e, s = .binding place x e := by
  cases standard with
  | false => exact List.forall_mem_nil _
  | true =>
    rw [standardIn, if_pos rfl]
    exact binding_of_mem_standardBindings

theorem statements_withStandard (standard : Bool) (p : Program) :
    (if standard then p.withStandard else p).statements = standardIn standard ++ p.statements := by
  cases standard with
  | false => rfl
  | true => rw [if_pos rfl, Program.withStandard, standardIn, if_pos rfl]

/-- A program that is loaded reaches, after as many steps as it has bindings, the value of its last
expression in sight of all of them.  Bindings that nothing after them uses, the standard ones among
them, can be left out without a change of that value. -/
theorem let_sequence {source : String} {p : Program} {lets : List Statement} {place : Span}
    {e : Expr} (hp : Program.parse source = .ok p)
    (hstatements : p.statements = lets ++ [.expression place e])
    (hlets : ∀ s ∈ lets, ∃ place x value, s = .binding place x value) (standard : Bool) :
    ∃ t us env c, Settles (fun limit => load limit standard source) (.ok t) ∧
      Settles (fun limit => letValues limit [] (standardIn standard ++ lets)) (.ok env) ∧
      Settles (fun limit => e.valueIn limit env) (.ok c) ∧
      Settles (fun limit => shown limit (standardIn standard ++ lets).length t) (.ok us) ∧
      us.length = (standardIn standard ++ lets).length ∧
      (t :: us)[(standardIn standard ++ lets).length]? = some c ∧
      ∀ before unused after, standardIn standard ++ lets = before ++ unused ++ after →
        ∃ m, Settles (fun limit => Program.meaning limit ⟨after ++ [.expression place e]⟩) (.ok m) ∧
          ((∀ s ∈ unused, ∀ place x value, s = .binding place x value → x ∉ m.openNames) →
            ∃ env', Settles (fun limit => letValues limit [] (before ++ after)) (.ok env') ∧
              Settles (fun limit => e.valueIn limit env') (.ok c)) := by
  have hall : (if standard then p.withStandard else p).statements =
      standardIn standard ++ lets ++ [.expression place e] := by
    rw [statements_withStandard, hstatements, List.append_assoc]
  have hread := isRead_of_term hp standard
  rw [hall] at hread
  obtain ⟨hbindings, hlast⟩ := List.forall_mem_append.mp hread
  obtain ⟨ls, hls⟩ := exists_binds hbindings
    (List.forall_mem_append.mpr ⟨binding_of_mem_standardIn standard, hlets⟩)
  obtain ⟨body, hbody, he⟩ := (List.forall_mem_singleton.mp hlast).means
  have hmeans : (if standard then p.withStandard else p).Means ls body :=
    ⟨hbody, standardIn standard ++ lets, place, e, hall, hls, he⟩
  have hafter := Term.after?_valueIn_letIn (List.forall_mem_nil _) hbody.lexical.closed
    (closedIn_of_binds hls)
  rw [Term.valueIn_nil, ← hls.length_eq] at hafter
  obtain ⟨hlength, hget⟩ := Term.path_of_after? hafter
  refine ⟨_, _, _, _, hmeans.settles_load hp, settles_letValues hls [], he.settles_valueIn _,
    settles_shown _ _, hlength, hget, ?_⟩
  intro before unused after hsplit
  rw [hsplit] at hls
  exact settles_valueIn_of_unused hls hbody he

/-- In `let a = b; let a = a; a` the second binding sees the first, and the last expression sees the
second. -/
theorem let_sequence_rebound :
    ∃ p lets place e, Program.parse "let a = b; let a = a; a" = .ok p ∧ lets.length = 2 ∧
      p.statements = lets ++ [.expression place e] ∧
      (∀ s ∈ lets, ∃ place x value, s = .binding place x value) ∧
      ∃ t us env c, Settles (fun limit => load limit true "let a = b; let a = a; a") (.ok t) ∧
        Settles (fun limit => letValues limit [] (standardIn true ++ lets)) (.ok env) ∧
        Settles (fun limit => e.valueIn limit env) (.ok c) ∧
        Settles (fun limit => shown limit (standardIn true ++ lets).length t) (.ok us) ∧
        us.length = (standardIn true ++ lets).length ∧
        (t :: us)[(standardIn true ++ lets).length]? = some c := by
  have hp : Program.parse "let a = b; let a = a; a" = .ok
      ⟨[.binding ⟨0, 9⟩ "a" (.app ⟨8, 9⟩ [.var ⟨8, 9⟩ "b"]),
        .binding ⟨11, 20⟩ "a" (.app ⟨19, 20⟩ [.var ⟨19, 20⟩ "a"]),
        .expression ⟨22, 23⟩ (.app ⟨22, 23⟩ [.var ⟨22, 23⟩ "a"])]⟩ := by
    unfold Program.parse lex
    rw [String.toList_ofList]
    rfl
  have hlets : ∀ s ∈ [Statement.binding ⟨0, 9⟩ "a" (.app ⟨8, 9⟩ [.var ⟨8, 9⟩ "b"]),
      .binding ⟨11, 20⟩ "a" (.app ⟨19, 20⟩ [.var ⟨19, 20⟩ "a"])],
      ∃ place x value, s = .binding place x value :=
    List.forall_mem_cons.mpr ⟨⟨_, _, _, rfl⟩, List.forall_mem_singleton.mpr ⟨_, _, _, rfl⟩⟩
  obtain ⟨t, us, env, c, hload, hvalues, hvalue, hshown, hlength, hget, -⟩ :=
    let_sequence hp rfl hlets true
  exact ⟨_, _, _, _, hp, rfl, rfl, hlets, t, us, env, c, hload, hvalues, hvalue, hshown, hlength,
    hget⟩

end LambdaCalculus
