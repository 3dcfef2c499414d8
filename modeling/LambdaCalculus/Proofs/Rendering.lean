import LambdaCalculus.Proofs.Evaluation
import LambdaCalculus.Proofs.Program.Spelling
import LambdaCalculus.Term.Rendering

/-!
# Rendered terms are programs

The named form of a term is the text of a program.  Read back, it gives every variable the index of
the nearest binder of its name.  For the bound variables of a term that a program reaches that is
the index they had; a free variable comes back as it was unless it stands in sight of a binder of
its name.

* `Term.lexemes` — what the named form of a term says.
* `settles_load_rendered_erased` — what the named form of a term loads as.
* `load_rendered_of_names` — it loads as the term does when its names are resolved afresh.
* `load_rendered_of_shown` — the terms that a run shows come back, but for captured free variables.
-/

namespace LambdaCalculus

open Lexeme Grammar

namespace Term

/-! ## What the named form says -/

/-- The lexemes of the named form. -/
def lexemes : Term → List Lexeme
  | .bound _ x => [.name x]
  | .free x => [.name x]
  | .lam x b => .lambda :: .name x :: .dot :: b.lexemes
  | .app f a =>
    .lparen :: ((if f.isLam then .lparen :: f.lexemes ++ [.rparen] else f.lexemes) ++ a.lexemes) ++
      [.rparen]

/-- The named form is in order, and its lexemes are those. -/
theorem lexes_renderOnto (ascii : Bool) {t : Term} (ht : ∀ x ∈ t.names, IsName x) {rest : List Char}
    {ls : List Lexeme} (hrest : StopsAt continuesName rest) (h : Lexes rest ls) :
    Lexes (t.renderOnto ascii rest) (t.lexemes ++ ls) := by
  induction t generalizing rest ls with
  | bound i x | free x => exact .name (ht x (List.mem_singleton_self x)) hrest h
  | lam x b ih =>
    obtain ⟨hx, hb⟩ := List.forall_mem_cons.mp ht
    have hbody := ih hb hrest h
    have hdot : Lexes ('.' :: ' ' :: b.renderOnto ascii rest) (.dot :: (b.lexemes ++ ls)) :=
      .sign (fun _ => rfl) (.layout rfl hbody)
    refine .sign ?_ (.name hx (stopsAt_cons rfl _) hdot)
    intro cs
    cases ascii <;> rfl
  | app f a ihf iha =>
    obtain ⟨hf, ha⟩ := List.forall_mem_append.mp ht
    have hargument := iha ha (stopsAt_cons rfl rest) (.sign (c := ')') (fun _ => rfl) h)
    have htail := Lexes.layout (c := ' ') rfl hargument
    rw [renderOnto, lexemes]
    by_cases hlam : f.isLam = true
    · rw [if_pos hlam, if_pos hlam]
      have hclosing := ihf hf (stopsAt_cons rfl _) (.sign (c := ')') (fun _ => rfl) htail)
      have hopening : Lexes ('(' :: '(' :: f.renderOnto ascii _) _ :=
        .sign (fun _ => rfl) (.sign (fun _ => rfl) hclosing)
      simpa only [List.cons_append, List.append_assoc, List.nil_append] using hopening
    · rw [if_neg hlam, if_neg hlam]
      have hopening : Lexes ('(' :: f.renderOnto ascii _) _ :=
        .sign (fun _ => rfl) (ihf hf (stopsAt_cons rfl _) htail)
      simpa only [List.cons_append, List.append_assoc, List.nil_append] using hopening

/-- The lexemes of the named form spell the term without its indices: on their own, after a chain
that they are applied to, and, but for an abstraction, as an atom. -/
theorem spells_lexemes (t : Term) :
    PhraseSpells t.lexemes t.erased ∧
    (∀ {ls : List Lexeme} {f : Term}, ChainSpells ls f →
      PhraseSpells (ls ++ t.lexemes) (.app f t.erased)) ∧
    (t.isLam = false → AtomSpells t.lexemes t.erased) := by
  have hatom {t : Term} (h : AtomSpells t.lexemes t.erased) : PhraseSpells t.lexemes t.erased ∧
      (∀ {ls : List Lexeme} {f : Term}, ChainSpells ls f →
        PhraseSpells (ls ++ t.lexemes) (.app f t.erased)) ∧
      (t.isLam = false → AtomSpells t.lexemes t.erased) :=
    ⟨h.chain.phrase, fun hf => (hf.snoc h).phrase, fun _ => h⟩
  induction t with
  | bound i x | free x => exact hatom (.name x)
  | lam x b ih =>
    refine ⟨ih.1.lambda x, fun hf => hf.lambda ih.1 x, ?_⟩
    rintro ⟨⟩
  | app f a ihf iha =>
    have hhead : AtomSpells (if f.isLam then .lparen :: f.lexemes ++ [.rparen] else f.lexemes)
        f.erased := by
      by_cases hlam : f.isLam = true
      · rw [if_pos hlam]
        exact .paren ihf.1
      · rw [if_neg hlam]
        exact ihf.2.2 (Bool.eq_false_iff.mpr hlam)
    exact hatom (.paren (iha.2.1 hhead.chain))

/-! ## Reading the named form back -/

/-- What the named form of a term loads as: the indices of the term play no part in it. -/
theorem settles_load_rendered_erased {t : Term} (h : ∀ x ∈ t.names, IsName x) (ascii : Bool) :
    Settles (fun room => load room false (String.ofList (t.rendered ascii)))
      (.ok (t.erased.resolve [])) := by
  have hlexes : Lexes (String.ofList (t.rendered ascii)).toList (t.lexemes ++ []) := by
    rw [String.toList_ofList]
    exact lexes_renderOnto ascii h (stopsAt_nil _) .nil
  rw [List.append_nil] at hlexes
  exact settles_load_of_spells hlexes t.spells_lexemes.1

/-- A term whose indices agree with its names loads as it is, but for its free variables. -/
theorem settles_load_rendered {t : Term} (h : t.Spelled) (ascii : Bool) :
    Settles (fun room => load room false (String.ofList (t.rendered ascii)))
      (.ok (t.resolve [])) := by
  rw [← resolve_erased h.lexical]
  exact settles_load_rendered_erased h.names ascii

/-- A step keeps a term spelled in the language. -/
theorem Spelled.of_step {t u : Term} (h : t.Spelled) (hu : t.step? = some u) : u.Spelled :=
  ⟨h.lexical.of_step hu, fun x hx => h.names x (names_of_step hu x hx)⟩

end Term

/-- The named form of any term whose names are names of the language loads, with either sign for the
binder, and as the same term: the one that resolution makes of the term without its indices.  No
other use is made of the indices, so they may point anywhere. -/
theorem load_rendered_of_names {t : Term} (h : ∀ x ∈ t.names, IsName x) :
    ∃ r, Settles (fun limit => t.erased.resolved limit) (.ok r) ∧
      ∀ ascii, Settles (fun limit => load limit false (String.ofList (t.rendered ascii)))
        (.ok r) :=
  ⟨t.erased.resolve [], Term.settles_resolved t.erased, Term.settles_load_rendered_erased h⟩

/-- `(λx. y (λy. x)) (λx. z)` with indices that are all wrong: one points past every binder, one to a
binder of another name and one to a binder where there is none of the name. -/
def Term.misindexed : Term :=
  .app (.lam "x" (.app (.bound 7 "y") (.lam "y" (.bound 0 "x")))) (.lam "x" (.bound 0 "z"))

/-- Rendered and loaded, that term has the indices that its names ask for. -/
theorem load_rendered_misindexed :
    (∀ x ∈ Term.misindexed.names, IsName x) ∧
    ∀ ascii, Settles
      (fun limit => load limit false (String.ofList (Term.misindexed.rendered ascii)))
      (.ok (.app (.lam "x" (.app (.free "y") (.lam "y" (.bound 1 "x")))) (.lam "x" (.free "z")))) := by
  have hx : IsName "x" := ⟨'x', [], rfl, rfl, List.forall_mem_nil _, by decide⟩
  have hy : IsName "y" := ⟨'y', [], rfl, rfl, List.forall_mem_nil _, by decide⟩
  have hz : IsName "z" := ⟨'z', [], rfl, rfl, List.forall_mem_nil _, by decide⟩
  have hnames : ∀ x ∈ Term.misindexed.names, IsName x := by
    simp [Term.misindexed, Term.names, hx, hy, hz]
  obtain ⟨r, hresolved, hload⟩ := load_rendered_of_names hnames
  cases hresolved.unique (Term.settles_resolved _)
  exact ⟨hnames, hload⟩

/-- Every term that a program reaches is spelled in the language. -/
theorem spelled_of_shown {limit room n : Nat} {standard : Bool} {source : String} {t : Term}
    {us : List Term} (hload : load limit standard source = .ok t)
    (hshown : shown room n t = .ok us) : ∀ u ∈ t :: us, u.Spelled := by
  obtain ⟨p, lets, body, -, hmeans, rfl⟩ := exists_means_of_load hload
  have hspelled := hmeans.spelled_letIn
  have hstart : ((body.letIn lets).resolve []).Spelled := by
    refine ⟨Term.lexical_resolve hspelled.lexical, ?_⟩
    rw [Term.names_resolve]
    exact hspelled.names
  cases (settles_shown n _).eq_of_ok hshown
  exact Term.forall_mem_path Term.Spelled.of_step hstart n

/-- A term that a run shows, rendered and loaded again, is the same term exactly if no free variable
of it stands in sight of a binder of its name.  What can change is an occurrence of such a variable,
which becomes bound; every bound variable comes back with its index, since the nearest binder of its
name is its own. -/
theorem load_rendered_of_shown {limit room n : Nat} {standard : Bool} {source : String} {t u : Term}
    {us : List Term} (hload : load limit standard source = .ok t)
    (hshown : shown room n t = .ok us) (hu : u ∈ t :: us) (ascii : Bool) :
    ∃ r, Settles (fun limit => load limit false (String.ofList (u.rendered ascii))) (.ok r) ∧
      (r = u ↔ ¬ u.CapturedIn []) ∧ r = u.resolve [] ∧ u.Lexical [] := by
  have hspelled := spelled_of_shown hload hshown u hu
  exact ⟨u.resolve [], Term.settles_load_rendered hspelled ascii, Term.resolve_eq_self_iff, rfl,
    hspelled.lexical⟩

/-- In `(λx y. x) y` the free variable stands beside the binders; after one step it stands below one
of its name, and the rendered term means something else. -/
theorem load_rendered_captured :
    load 5 false "(\\x y. x) y" = .ok (.app (.lam "x" (.lam "y" (.bound 1 "x"))) (.free "y")) ∧
    shown 5 1 (.app (.lam "x" (.lam "y" (.bound 1 "x"))) (.free "y")) =
      .ok [.lam "y" (.free "y")] ∧
    ∃ r, Settles (fun limit => load limit false
        (String.ofList ((Term.lam "y" (.free "y")).rendered true))) (.ok r) ∧
      (r = .lam "y" (.free "y") ↔ ¬ (Term.lam "y" (.free "y")).CapturedIn []) ∧
      r = (Term.lam "y" (.free "y")).resolve [] ∧ (Term.lam "y" (.free "y")).Lexical [] := by
  have hload : load 5 false "(\\x y. x) y" =
      .ok (.app (.lam "x" (.lam "y" (.bound 1 "x"))) (.free "y")) := by
    unfold load Program.parse lex
    rw [String.toList_ofList]
    decide +kernel
  have hshown : shown 5 1 (.app (.lam "x" (.lam "y" (.bound 1 "x"))) (.free "y")) =
      .ok [.lam "y" (.free "y")] := by
    decide +kernel
  exact ⟨hload, hshown, load_rendered_of_shown hload hshown (by decide) true⟩

end LambdaCalculus
