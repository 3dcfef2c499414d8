import LambdaCalculus.Proofs.LetSequence
import LambdaCalculus.Proofs.Walking
import Mathlib.Logic.Relator

/-!
# Evaluation stays in scope

What a term refers to outside itself can only become less while it is evaluated.  A term that is
loaded refers to no binder outside itself, and by name to nothing that its text does not mention: the
standard definitions leave no name open, so what is free in the term comes from the text.

* `mem_freeNames_resolve` — the names that resolution leaves free.
* `mentions_atom`, `mentions_chain`, `mentions_phrase` — what a derivation leaves open is a name among
  its tokens.
* `wellScoped_of_load` — what a text that loads can refer to.
* `evaluation_stays_in_scope`.
-/

namespace LambdaCalculus

open Term

/-- One of the tokens is the name. -/
def Mentions (ts : List Token) (x : String) : Prop := ∃ t ∈ ts, t.lexeme = .name x

theorem Mentions.of_subset {ts us : List Token} {x : String} (h : Mentions ts x)
    (hus : ∀ t ∈ ts, t ∈ us) : Mentions us x := by
  obtain ⟨t, ht, hx⟩ := h
  exact ⟨t, hus t ht, hx⟩

/-! ## Names that stay open -/

theorem mem_openNames_of_lams {t : Term} {params : List String} {x : String}
    (hx : x ∈ (t.lams params).openNames) : x ∈ t.openNames := by
  induction params with
  | nil => exact hx
  | cons p ps ih => exact ih (List.mem_of_mem_filter hx)

/-- Resolution leaves those open names free that no binder in sight has. -/
theorem mem_freeNames_resolve {t : Term} {xs : List String} {x : String} :
    x ∈ (t.resolve xs).freeNames ↔ x ∈ t.openNames ∧ x ∉ xs := by
  induction t generalizing xs with
  | bound i y => simp [freeNames, openNames]
  | free y =>
    cases h : xs.idxOf? y with
    | none =>
      have hy : y ∉ xs := List.idxOf?_eq_none_iff.mp h
      rw [resolve_free_of_none h]
      simp only [freeNames, openNames, List.mem_singleton]
      constructor
      · rintro rfl
        exact ⟨rfl, hy⟩
      · exact And.left
    | some i =>
      have hy : y ∈ xs := by
        by_contra hy
        simp [List.idxOf?_eq_none_iff.mpr hy] at h
      rw [resolve_free_of_some h]
      simp only [freeNames, openNames, List.mem_singleton, List.not_mem_nil, false_iff, not_and,
        not_not]
      rintro rfl
      exact hy
  | lam y b ih => simp [freeNames, openNames, ih, and_assoc]
  | app f a ihf iha => simp [freeNames, openNames, ihf, iha, or_and_right]

/-- What bindings in front of a term leave open is open in the term, or open in the bindings,
whatever they stand in front of. -/
theorem mem_openNames_letIn {t : Term} {lets : List (String × Term)} {x : String}
    (hx : x ∈ (t.letIn lets).openNames) (u : Term) :
    x ∈ t.openNames ∨ x ∈ (u.letIn lets).openNames := by
  induction lets with
  | nil => exact .inl hx
  | cons b lets ih =>
    simp only [letIn, openNames, List.mem_append, List.mem_filter] at hx ⊢
    rcases hx with ⟨hrest, hne⟩ | hvalue
    · exact (ih hrest).imp_right fun h => .inl ⟨h, hne⟩
    · exact .inr (.inr hvalue)

theorem mem_openNames_of_letIn {t : Term} {lets : List (String × Term)} {x : String}
    (hx : x ∈ (t.letIn lets).openNames) :
    x ∈ t.openNames ∨ ∃ b ∈ lets, x ∈ b.2.openNames := by
  induction lets with
  | nil => exact .inl hx
  | cons b lets ih =>
    simp only [letIn, openNames, List.mem_append, List.mem_filter] at hx
    rcases hx with ⟨hrest, -⟩ | hvalue
    · rcases ih hrest with h | ⟨b', hb', h⟩
      · exact .inl h
      · exact .inr ⟨b', List.mem_cons_of_mem _ hb', h⟩
    · exact .inr ⟨b, List.mem_cons_self .., hvalue⟩

/-! ## Derivations -/

namespace Grammar

mutual

theorem mentions_atom : ∀ a : Atom, ∀ x ∈ a.term.openNames, Mentions a.tokens x
  | .name _ _, _, hx => ⟨_, List.mem_singleton_self _, by rw [List.mem_singleton.mp hx]⟩
  | .number _ n, x, hx => by
    have hnone : x ∈ (numeral n).openNames := hx
    rw [openNames_numeral] at hnone
    cases hnone
  | .character _ c, x, hx => by
    have hnone : x ∈ (numeral c.toNat).openNames := hx
    rw [openNames_numeral] at hnone
    cases hnone
  | .paren _ body _, x, hx => by
    apply (mentions_phrase body x hx).of_subset
    intro t ht
    simp [Atom.tokens, ht]

theorem mentions_chain : ∀ c : Chain, ∀ x ∈ c.term.openNames, Mentions c.tokens x
  | .one a, x, hx => mentions_atom a x hx
  | .snoc before a, x, hx => by
    rcases List.mem_append.mp hx with hx | hx
    · exact (mentions_chain before x hx).of_subset fun t => List.mem_append_left _
    · exact (mentions_atom a x hx).of_subset fun t => List.mem_append_right _

/-- What the meaning of a derivation leaves open is a name among its tokens. -/
theorem mentions_phrase : ∀ t : Phrase, ∀ x ∈ t.term.openNames, Mentions t.tokens x
  | .chain c, x, hx => mentions_chain c x hx
  | .lambda _ params _ body, x, hx => by
    apply (mentions_phrase body x (mem_openNames_of_lams hx)).of_subset
    intro t ht
    simp [Phrase.tokens, ht]
  | .chainLambda c _ params _ body, x, hx => by
    rcases List.mem_append.mp hx with hx | hx
    · apply (mentions_chain c x hx).of_subset
      intro t ht
      simp [Phrase.tokens, ht]
    · apply (mentions_phrase body x (mem_openNames_of_lams hx)).of_subset
      intro t ht
      simp [Phrase.tokens, ht]

end

variable {d : Document} {s : Statement}

/-- What a binding of a program leaves open is a name among the program's tokens. -/
theorem mentions_of_binds (hs : s ∈ d.program.statements) {b : String × Term} (hb : s.Binds b) :
    ∀ x ∈ b.2.openNames, Mentions d.tokens x := by
  obtain ⟨c, rfl, htokens⟩ := exists_clause_of_mem hs
  obtain ⟨place, e, hstatement, he⟩ := hb.means
  cases c with
  | binding word p y sign value =>
    cases hstatement
    intro x hx
    rw [Except.ok.inj (he.unique (means_phrase value))] at hx
    apply (mentions_phrase value x hx).of_subset
    intro t ht
    apply htokens
    simp [Clause.tokens, ht]
  | expression body => cases hstatement

/-- And so is what its last expression leaves open. -/
theorem mentions_of_means {place : Span} {e : Expr}
    (hs : .expression place e ∈ d.program.statements) {t : Term} (he : e.Means t) :
    ∀ x ∈ t.openNames, Mentions d.tokens x := by
  obtain ⟨c, hc, htokens⟩ := exists_clause_of_mem hs
  cases c with
  | binding word p y sign value => cases hc
  | expression body =>
    cases hc
    intro x hx
    rw [Except.ok.inj (he.unique (means_phrase body))] at hx
    exact (mentions_phrase body x hx).of_subset htokens

end Grammar

/-! ## Loading -/

/-- The standard definitions leave no name open. -/
theorem openNames_letIn_standardLets : ((numeral 0).letIn standardLets).openNames = [] := by
  have hopen := @eq_of_statementsOf _
    (fun ss => ((numeral 0).letIn (ss.filterMap (Statement.binding? 20))).openNames) []
    standardText
  rw [standardLets, standardBindings]
  apply hopen
  unfold Program.parse lex standardText
  rw [String.toList_ofList]
  decide +kernel

/-- What stands before a program's own statements are bindings, so these end with the program's last
expression. -/
theorem exists_own {standard : Bool} {p : Program} {bindings : List Statement} {place : Span}
    {e : Expr} (h : standardIn standard ++ p.statements = bindings ++ [.expression place e]) :
    ∃ own, bindings = standardIn standard ++ own ∧
      p.statements = own ++ [.expression place e] := by
  rcases List.eq_nil_or_concat p.statements with hnil | ⟨own, s, hown⟩
  · rw [hnil, List.append_nil] at h
    have hlast : Statement.expression place e ∈ standardIn standard := by simp [h]
    obtain ⟨_, _, _, hbinding⟩ := binding_of_mem_standardIn standard _ hlast
    cases hbinding
  · rw [List.concat_eq_append] at hown
    rw [hown, ← List.append_assoc] at h
    obtain ⟨hbindings, hs⟩ := List.append_inj' h rfl
    cases hs
    exact ⟨own, hbindings.symm, hown⟩

theorem openNames_of_standardIn {standard : Bool} {lets : List (String × Term)}
    (h : List.Forall₂ Statement.Binds (standardIn standard) lets) :
    ((numeral 0).letIn lets).openNames = [] := by
  cases standard with
  | false =>
    cases h
    exact openNames_numeral 0
  | true =>
    have hunique : Relator.RightUnique Statement.Binds := fun _ _ _ hb hb' => hb.unique hb'
    rw [standardIn, if_pos rfl] at h
    rw [List.right_unique_forall₂' hunique h binds_standardBindings]
    exact openNames_letIn_standardLets

/-- The term of a text refers to nothing but names that the text mentions. -/
theorem wellScoped_of_load {limit : Nat} {standard : Bool} {source : String} {t : Term}
    (h : load limit standard source = .ok t) : t.WellScoped 0 (Mentions (lex source).tokens) := by
  obtain ⟨p, lets, body, hp, hmeans, rfl⟩ := exists_means_of_load h
  constructor
  · exact (lexical_resolve hmeans.spelled_letIn.lexical).below
  obtain ⟨bindings, place, e, hstatements, hbinds, he⟩ := hmeans.statements
  rw [statements_withStandard] at hstatements
  obtain ⟨own, rfl, hown⟩ := exists_own hstatements
  obtain ⟨ls, ls', rfl, hls, hls'⟩ := exists_append_of_binds hbinds
  obtain ⟨d, htokens, rfl⟩ := exists_document_of_parse hp
  rw [← htokens]
  intro x hx
  obtain ⟨hopen, -⟩ := mem_freeNames_resolve.mp hx
  rw [letIn_append] at hopen
  -- what is open is not open in the standard definitions, so it is in the program's own statements
  rcases mem_openNames_letIn hopen (numeral 0) with hrest | hstandard
  · rcases mem_openNames_of_letIn hrest with hbody | ⟨b, hb, hvalue⟩
    · have hlast : .expression place e ∈ d.program.statements := by simp [hown]
      exact Grammar.mentions_of_means hlast he x hbody
    · obtain ⟨s, hs, hsb⟩ := exists_mem_of_forall₂ hls' b hb
      have hmem : s ∈ d.program.statements := by simp [hown, hs]
      exact Grammar.mentions_of_binds hmem hsb x hvalue
  · rw [openNames_of_standardIn hls] at hstandard
    cases hstandard

/-! ## Evaluation -/

/-- Evaluation refers to nothing that the term does not refer to. -/
theorem Term.WellScoped.of_leads {n : Nat} {allowed : String → Prop} {t u : Term}
    (ht : t.WellScoped n allowed) (h : t.Leads u) : u.WellScoped n allowed :=
  h.keeps WellScoped.of_step ht

/-- Evaluation refers to nothing that the term does not refer to: where every index of a term is
within `n` binders around it, so is every index of a term that it reaches, and no free name is new.
What a text loads as refers to no binder around it, and by name only to what the text mentions, and so
does every term that is shown when it is evaluated. -/
theorem evaluation_stays_in_scope :
    (∀ n (t : Term), t.Below n → ∀ u, t.Leads u → u.WellScoped n (· ∈ t.freeNames)) ∧
    (∀ n (t : Term), t.Below n → ∀ bounds budget, ∀ u ∈ (traced bounds budget t).2,
      u.WellScoped n (· ∈ t.freeNames)) ∧
    ∀ limit standard source t, load limit standard source = .ok t →
      t.WellScoped 0 (Mentions (lex source).tokens) ∧
      (∀ u, t.Leads u → u.WellScoped 0 (Mentions (lex source).tokens)) ∧
      ∀ bounds budget, ∀ u ∈ (traced bounds budget t).2,
        u.WellScoped 0 (Mentions (lex source).tokens) := by
  have hreached {n : Nat} {t : Term} (ht : t.Below n) {u : Term} (h : t.Leads u) :
      u.WellScoped n (· ∈ t.freeNames) := by
    have hself : t.WellScoped n (· ∈ t.freeNames) := ⟨ht, fun x hx => hx⟩
    exact hself.of_leads h
  refine ⟨?_, ?_, ?_⟩
  · intro n t ht u h
    exact hreached ht h
  · intro n t ht bounds budget u hu
    exact hreached ht (leads_of_mem_traced hu)
  · intro limit standard source t h
    have hloaded := wellScoped_of_load h
    refine ⟨hloaded, ?_, ?_⟩
    · intro u hu
      exact hloaded.of_leads hu
    · intro bounds budget u hu
      exact hloaded.of_leads (leads_of_mem_traced hu)

/-- `(λx. λy. x z) (w a)` where `z` and `w` belong to the two binders around it. -/
def Term.reachingOut : Term :=
  app (lam "x" (lam "y" (app (bound 1 "x") (bound 3 "z")))) (app (bound 1 "w") (free "a"))

/-- Of the two indices that reach out, the one whose binder is passed goes up and the other comes
down.  A free variable that goes under a binder of its name stays free. -/
theorem evaluation_stays_in_scope_under_binder :
    reachingOut.Below 2 ∧
    (traced ⟨9, 9⟩ none reachingOut).2 =
      [lam "y" (app (app (bound 2 "w") (free "a")) (bound 2 "z"))] ∧
    (∀ u ∈ (traced ⟨9, 9⟩ none reachingOut).2, u.WellScoped 2 (· ∈ reachingOut.freeNames)) ∧
    ∃ t, load 5 false "(\\x y. x) y" = .ok t ∧ t.Leads (lam "y" (free "y")) ∧
      (lam "y" (free "y")).WellScoped 0 (Mentions (lex "(\\x y. x) y").tokens) := by
  have hbelow : reachingOut.Below 2 := by decide
  have hload : load 5 false "(\\x y. x) y" =
      .ok (app (lam "x" (lam "y" (bound 1 "x"))) (free "y")) := by
    unfold load Program.parse lex
    rw [String.toList_ofList]
    decide +kernel
  have hstep : (app (lam "x" (lam "y" (bound 1 "x"))) (free "y")).Leads (lam "y" (free "y")) :=
    .of_step rfl
  obtain ⟨-, hshown, hloaded⟩ := evaluation_stays_in_scope
  obtain ⟨-, hreached, -⟩ := hloaded 5 false "(\\x y. x) y" _ hload
  exact ⟨hbelow, rfl, hshown 2 reachingOut hbelow ⟨9, 9⟩ none, _, hload, hstep, hreached _ hstep⟩

end LambdaCalculus
