import LambdaCalculus.Program.Load
import LambdaCalculus.Proofs.Program.Meaning
import LambdaCalculus.Proofs.Term.Environment

/-!
# Loading a text

A text that loads is that of a program of bindings and a last expression.  Its term is the
expression in the sight of the bindings, with its names resolved.

* `Program.Means` — what the bindings and the last expression of a program mean.
* `Program.Means.settles_load` — what the text of such a program loads as.
* `exists_means_of_load` — a text that loads is that of such a program.
-/

namespace LambdaCalculus

namespace Grammar

/-- The statements of a program are those of derivations from its tokens. -/
theorem exists_clause_of_mem {d : Document} {s : Statement} (hs : s ∈ d.program.statements) :
    ∃ c : Clause, c.statement = s ∧ ∀ t ∈ c.tokens, t ∈ d.tokens := by
  have hclauses (cs : Clauses) (hs : s ∈ cs.statements) :
      ∃ c : Clause, c.statement = s ∧ ∀ t ∈ c.tokens, t ∈ cs.tokens := by
    induction cs with
    | one c => exact ⟨c, (List.mem_singleton.mp hs).symm, fun _ ht => ht⟩
    | snoc before semicolon c ih =>
      rcases List.mem_append.mp hs with hs | hs
      · obtain ⟨c', hc', htokens⟩ := ih hs
        exact ⟨c', hc', fun t ht => List.mem_append_left _ (htokens t ht)⟩
      · refine ⟨c, (List.mem_singleton.mp hs).symm, ?_⟩
        intro t ht
        exact List.mem_append_right _ (List.mem_cons_of_mem _ ht)
  cases d with
  | plain cs => exact hclauses cs hs
  | trailing cs semicolon =>
    obtain ⟨c, hc, htokens⟩ := hclauses cs hs
    exact ⟨c, hc, fun t ht => List.mem_append_left _ (htokens t ht)⟩

end Grammar

/-! ## What programs mean -/

theorem Term.Spelled.letIn {body : Term} (h : body.Spelled) {lets : List (String × Term)}
    (hlets : ∀ b ∈ lets, IsName b.1 ∧ b.2.Spelled) : (body.letIn lets).Spelled := by
  induction lets with
  | nil => exact h
  | cons b lets ih =>
    obtain ⟨⟨hname, hvalue⟩, hrest⟩ := List.forall_mem_cons.mp hlets
    have hbound : (Term.lam b.1 (body.letIn lets)).Spelled :=
      (ih hrest).lams (List.forall_mem_singleton.mpr hname)
    exact hbound.app hvalue

/-- The statement is a binding, and means `b`. -/
structure Statement.Binds (s : Statement) (b : String × Term) : Prop where
  /-- The binding's name is one. -/
  name : IsName b.1
  /-- Its value is spelled in the language. -/
  spelled : b.2.Spelled
  /-- Its value means the term. -/
  means : ∃ place e, s = .binding place b.1 e ∧ e.Means b.2

theorem Statement.Binds.unique {s : Statement} {b b' : String × Term} (h : s.Binds b)
    (h' : s.Binds b') : b = b' := by
  obtain ⟨place, e, hs, he⟩ := h.means
  obtain ⟨place', e', hs', he'⟩ := h'.means
  obtain ⟨-, hname, rfl⟩ := Statement.binding.inj (hs.symm.trans hs')
  exact Prod.ext hname (Except.ok.inj (he.unique he'))

/-- The program consists of bindings, which mean `lets`, and of an expression that means `body`. -/
structure Program.Means (p : Program) (lets : List (String × Term)) (body : Term) : Prop where
  /-- The expression is spelled in the language. -/
  spelled : body.Spelled
  /-- The bindings stand before the expression. -/
  statements : ∃ bindings place e, p.statements = bindings ++ [.expression place e] ∧
    List.Forall₂ Statement.Binds bindings lets ∧ e.Means body

/-- The statement has a derivation from tokens that say names. -/
def Statement.IsRead (s : Statement) : Prop :=
  ∃ c : Grammar.Clause, c.statement = s ∧ Grammar.Named c.tokens

theorem isRead_of_parse {source : String} {p : Program} (h : Program.parse source = .ok p) :
    ∀ s ∈ p.statements, s.IsRead := by
  intro s hs
  obtain ⟨d, htokens, rfl⟩ := exists_document_of_parse h
  obtain ⟨c, hc, hsubset⟩ := Grammar.exists_clause_of_mem hs
  refine ⟨c, hc, ?_⟩
  intro t ht x hx
  exact isName_of_lex (htokens ▸ hsubset t ht) hx

theorem isRead_of_mem_statementsOf (source : String) :
    ∀ s ∈ Program.statementsOf source, s.IsRead := by
  unfold Program.statementsOf
  cases h : Program.parse source with
  | ok p => exact isRead_of_parse h
  | error fault => exact List.forall_mem_nil _

theorem isRead_of_mem_standardBindings : ∀ s ∈ standardBindings, s.IsRead :=
  isRead_of_mem_statementsOf standardText

theorem Statement.IsRead.binds {place : Span} {x : String} {e : Expr}
    (h : (Statement.binding place x e).IsRead) : ∃ v, (Statement.binding place x e).Binds (x, v) := by
  obtain ⟨c, hc, hnamed⟩ := h
  cases c with
  | binding word p y sign value =>
    cases hc
    have hvalue : Grammar.Named value.tokens :=
      hnamed.of_subset fun t ht => by simp [Grammar.Clause.tokens, ht]
    refine ⟨value.term, ?_, hvalue.phrase, _, _, rfl, Grammar.means_phrase value⟩
    exact hnamed ⟨.name x, p⟩ (by simp [Grammar.Clause.tokens]) x rfl
  | expression body => cases hc

theorem Statement.IsRead.means {place : Span} {e : Expr} (h : (Statement.expression place e).IsRead) :
    ∃ t : Term, t.Spelled ∧ e.Means t := by
  obtain ⟨c, hc, hnamed⟩ := h
  cases c with
  | binding word p y sign value => cases hc
  | expression body =>
    cases hc
    exact ⟨body.term, hnamed.phrase, Grammar.means_phrase body⟩

theorem spelled_of_binds {bindings : List Statement} {lets : List (String × Term)}
    (h : List.Forall₂ Statement.Binds bindings lets) : ∀ b ∈ lets, IsName b.1 ∧ b.2.Spelled := by
  induction h with
  | nil => exact List.forall_mem_nil _
  | cons hs _ ih => exact List.forall_mem_cons.mpr ⟨⟨hs.name, hs.spelled⟩, ih⟩

/-! ## From programs to terms -/

theorem bindAll_append (limit : Nat) (result : Term) (ss rest : List Statement) :
    bindAll limit result (ss ++ rest) =
      bindAll limit result ss >>= fun inner => bindAll limit inner rest := by
  induction ss generalizing result with
  | nil => rfl
  | cons s' ss ih =>
    rw [List.cons_append]
    cases s' with
    | binding place x e =>
      rw [bindAll, bindAll]
      rcases e.meaningWithin limit with fault | v
      · rfl
      · exact ih _
    | expression place e => rfl

/-- Bindings are put in front of a term from the last to the first. -/
theorem settles_bindAll {bindings : List Statement} {lets : List (String × Term)}
    (h : List.Forall₂ Statement.Binds bindings lets) (body : Term) :
    Settles (fun limit => bindAll limit body bindings.reverse) (.ok (body.letIn lets)) := by
  induction h with
  | nil => exact .const _
  | @cons s b bindings lets hs _ ih =>
    obtain ⟨place, e, rfl, he⟩ := hs.means
    simp only [List.reverse_cons, bindAll_append]
    have hfirst : Settles (fun limit => bindAll limit (body.letIn lets) [.binding place b.1 e])
        (.ok (body.letIn (b :: lets))) := he.map (Term.app (.lam b.1 (body.letIn lets)))
    exact ih.bind hfirst

namespace Program.Means

variable {p : Program} {lets : List (String × Term)} {body : Term}

theorem settles_meaning (h : p.Means lets body) :
    Settles (fun limit => p.meaning limit) (.ok (body.letIn lets)) := by
  obtain ⟨bindings, place, e, hp, hbindings, he⟩ := h.statements
  have hmeaning (limit : Nat) : p.meaning limit =
      (e.meaningWithin limit >>= fun result => bindAll limit result bindings.reverse).mapError
        (Fault.during .desugaring) := by
    rw [meaning, hp, List.reverse_append]
    rfl
  simp only [hmeaning]
  have hall : Settles
      (fun limit => e.meaningWithin limit >>= fun result => bindAll limit result bindings.reverse)
      (.ok (body.letIn lets)) := he.bind (settles_bindAll hbindings body)
  exact hall.mapError fun _ hfault => hfault.during _

/-- The bindings are spelled in the language. -/
theorem spelled_lets (h : p.Means lets body) : ∀ b ∈ lets, IsName b.1 ∧ b.2.Spelled := by
  obtain ⟨bindings, -, -, -, hbindings, -⟩ := h.statements
  exact spelled_of_binds hbindings

theorem spelled_letIn (h : p.Means lets body) : (body.letIn lets).Spelled :=
  h.spelled.letIn h.spelled_lets

/-- The term of the program, with its names resolved. -/
theorem settles_term {standard : Bool}
    (h : (if standard then p.withStandard else p).Means lets body) (source : String) :
    Settles (fun limit => p.term limit standard source) (.ok ((body.letIn lets).resolve [])) := by
  have hmeaning := h.settles_meaning.mapError fun _ hfault => hfault.withSource source
  exact hmeaning.bind (Term.settles_resolved _)

theorem settles_load {standard : Bool} {source : String} (hp : Program.parse source = .ok p)
    (h : (if standard then p.withStandard else p).Means lets body) :
    Settles (fun limit => load limit standard source) (.ok ((body.letIn lets).resolve [])) := by
  have hload (limit : Nat) : load limit standard source = p.term limit standard source := by
    rw [load, hp, ok_bind]
  simp only [hload]
  exact h.settles_term source

end Program.Means

/-! ## From terms to programs -/

/-- What is put in front of a term are bindings. -/
theorem binding_of_bindAll {limit : Nat} {result t : Term} {ss : List Statement}
    (h : bindAll limit result ss = .ok t) : ∀ s ∈ ss, ∃ place x e, s = .binding place x e := by
  induction ss generalizing result with
  | nil => exact List.forall_mem_nil _
  | cons s ss ih =>
    cases s with
    | binding place x e =>
      refine List.forall_mem_cons.mpr ⟨⟨place, x, e, rfl⟩, ?_⟩
      rw [bindAll, bind_eq_ok] at h
      obtain ⟨v, -, h⟩ := h
      exact ih h
    | expression place e =>
      rw [bindAll] at h
      cases h

/-- A program that means a term consists of bindings and an expression. -/
theorem Program.exists_bindings {limit : Nat} {p : Program} {t : Term}
    (h : p.meaning limit = .ok t) : ∃ bindings place e,
      p.statements = bindings ++ [.expression place e] ∧
        ∀ s ∈ bindings, ∃ place x e, s = .binding place x e := by
  unfold meaning at h
  split at h
  · cases h
  · cases h
  · rename_i place e before hstatements
    rw [mapError_eq_ok, bind_eq_ok] at h
    obtain ⟨result, -, hall⟩ := h
    refine ⟨before.reverse, place, e, ?_, ?_⟩
    · rw [← List.reverse_reverse p.statements, hstatements, List.reverse_cons]
    · intro s hs
      exact binding_of_bindAll hall s (List.mem_reverse.mp hs)

theorem exists_binds {bindings : List Statement} (hread : ∀ s ∈ bindings, s.IsRead)
    (hbinding : ∀ s ∈ bindings, ∃ place x e, s = .binding place x e) :
    ∃ lets, List.Forall₂ Statement.Binds bindings lets := by
  induction bindings with
  | nil => exact ⟨[], .nil⟩
  | cons s bindings ih =>
    obtain ⟨hs, hrest⟩ := List.forall_mem_cons.mp hread
    obtain ⟨⟨place, x, e, rfl⟩, hbindings⟩ := List.forall_mem_cons.mp hbinding
    obtain ⟨v, hv⟩ := hs.binds
    obtain ⟨lets, hlets⟩ := ih hrest hbindings
    exact ⟨(x, v) :: lets, .cons hv hlets⟩

/-- A program that is read, and that consists of bindings and an expression, means something. -/
theorem Program.exists_means {p : Program} {bindings : List Statement} {place : Span} {e : Expr}
    (hread : ∀ s ∈ p.statements, s.IsRead)
    (hp : p.statements = bindings ++ [.expression place e])
    (hbinding : ∀ s ∈ bindings, ∃ place x e, s = .binding place x e) :
    ∃ lets body, p.Means lets body := by
  rw [hp] at hread
  obtain ⟨hbindings, hlast⟩ := List.forall_mem_append.mp hread
  obtain ⟨lets, hlets⟩ := exists_binds hbindings hbinding
  obtain ⟨body, hspelled, hmeans⟩ := (List.forall_mem_singleton.mp hlast).means
  exact ⟨lets, body, hspelled, bindings, place, e, hp, hlets, hmeans⟩

theorem isRead_of_term {source : String} {p : Program} (h : Program.parse source = .ok p)
    (standard : Bool) : ∀ s ∈ (if standard then p.withStandard else p).statements, s.IsRead := by
  cases standard with
  | false => exact isRead_of_parse h
  | true =>
    exact List.forall_mem_append.mpr ⟨isRead_of_mem_standardBindings, isRead_of_parse h⟩

/-- A text that loads is that of a program that means something. -/
theorem exists_means_of_load {limit : Nat} {standard : Bool} {source : String} {t : Term}
    (h : load limit standard source = .ok t) : ∃ p lets body, Program.parse source = .ok p ∧
      (if standard then p.withStandard else p).Means lets body ∧
      t = (body.letIn lets).resolve [] := by
  obtain ⟨p, hp, hterm⟩ := bind_eq_ok.mp h
  obtain ⟨named, hnamed, -⟩ := bind_eq_ok.mp hterm
  obtain ⟨bindings, place, e, hstatements, hbinding⟩ :=
    Program.exists_bindings (mapError_eq_ok.mp hnamed)
  obtain ⟨lets, body, hmeans⟩ :=
    Program.exists_means (isRead_of_term hp standard) hstatements hbinding
  have hsettles := (hmeans.settles_term source).eq_of_ok hterm
  exact ⟨p, lets, body, hp, hmeans, (Except.ok.inj hsettles).symm⟩

end LambdaCalculus
