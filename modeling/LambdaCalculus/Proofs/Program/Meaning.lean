import LambdaCalculus.Program.Meaning
import LambdaCalculus.Proofs.Program.Lexing
import LambdaCalculus.Proofs.Program.Recognition
import LambdaCalculus.Proofs.Term.Lexical

/-!
# The meaning of what is read

Trees that a reader makes are in order: an abstraction has parameters, an application has items, and
literals are single characters and natural numbers.  So they have a meaning, up to the limit on
nesting, and it can be read off the derivation.

* `Grammar.Phrase.term` — the term that a derivation means.
* `means_phrase` — the tree of a derivation means it.
* `Term.Spelled` — the names in it are names of the language, and agree with its indices.
-/

namespace LambdaCalculus

/-! ## Expressions -/

/-- The expression means `t`, apart from the limit on nesting. -/
def Expr.Means (e : Expr) (t : Term) : Prop := Settles (fun room => e.meaningWithin room) (.ok t)

/-- The items, applied from left to right, mean `t`. -/
def Expr.ChainMeans (items : List Expr) (t : Term) : Prop :=
  ∃ head rest, items = head :: rest ∧
    Settles (fun room => head.meaningWithin room >>= fun f => applyMeanings room f rest) (.ok t)

theorem Expr.applyMeanings_append (room : Nat) (f : Term) (es : List Expr) (e : Expr) :
    applyMeanings room f (es ++ [e]) = applyMeanings room f es >>= fun g =>
      e.meaningWithin room >>= fun a => pure (.app g a) := by
  induction es generalizing f with
  | nil => rfl
  | cons e' es ih =>
    rw [List.cons_append, applyMeanings, applyMeanings]
    rcases e'.meaningWithin room with fault | a
    · rfl
    · exact ih _

theorem Expr.ChainMeans.one {e : Expr} {t : Term} (h : e.Means t) : ChainMeans [e] t := by
  refine ⟨e, [], rfl, ?_⟩
  exact h.map id

theorem Expr.ChainMeans.snoc {items : List Expr} {e : Expr} {t u : Term} (h : ChainMeans items t)
    (he : e.Means u) : ChainMeans (items ++ [e]) (.app t u) := by
  obtain ⟨head, rest, rfl, hrest⟩ := h
  refine ⟨head, rest ++ [e], rfl, ?_⟩
  have hassoc (room : Nat) :
      (head.meaningWithin room >>= fun f => applyMeanings room f (rest ++ [e])) =
        (head.meaningWithin room >>= fun f => applyMeanings room f rest) >>= fun g =>
          e.meaningWithin room >>= fun a => pure (.app g a) := by
    simp only [applyMeanings_append, bind_assoc]
  simp only [hassoc]
  exact hrest.bind (he.map _)

theorem Expr.ChainMeans.chain {items : List Expr} {t : Term} (h : ChainMeans items t) :
    (Expr.chain items).Means t := by
  obtain ⟨head, rest, rfl, hrest⟩ := h
  exact .succ rfl hrest

theorem Expr.Means.lam {body : Expr} {t : Term} (h : body.Means t) (place : Span)
    {params : List String} (hparams : params ≠ []) :
    (Expr.lam place params body).Means (t.lams params) := by
  obtain ⟨p, ps, rfl⟩ := List.exists_cons_of_ne_nil hparams
  exact .succ rfl (h.map (Term.lams · (p :: ps)))

/-! ## Derivations -/

namespace Grammar

mutual

/-- The term that an atom means. -/
def Atom.term : Atom → Term
  | .name _ x => .free x
  | .number _ n => .numeral n
  | .character _ c => .numeral c.toNat
  | .paren _ body _ => body.term

/-- The term that a chain means. -/
def Chain.term : Chain → Term
  | .one a => a.term
  | .snoc before a => .app before.term a.term

/-- The term that a derivation means. -/
def Phrase.term : Phrase → Term
  | .chain items => items.term
  | .lambda _ params _ body => body.term.lams params.names
  | .chainLambda items _ params _ body => .app items.term (body.term.lams params.names)

end

mutual

theorem means_atom : ∀ a : Atom, a.expr.Means a.term
  | .name _ _ => .succ rfl (.const _)
  | .number _ n => by
    refine .succ rfl ?_
    have hnatural : Term.ofInt n = .ok (Term.numeral n) := by
      rw [Term.ofInt, if_neg (by omega), Int.toNat_natCast]
      rfl
    exact hnatural ▸ .const _
  | .character _ c => by
    refine .succ rfl ?_
    have hsingle : Term.ofText (String.singleton c) = .ok (Term.numeral c.toNat) := by
      rw [Term.ofText, String.toList_singleton]
      rfl
    exact hsingle ▸ .const _
  | .paren _ body _ => means_phrase body

theorem means_chain : ∀ c : Chain, Expr.ChainMeans c.exprs c.term
  | .one a => .one (means_atom a)
  | .snoc before a => (means_chain before).snoc (means_atom a)

/-- The tree of a derivation means the term of the derivation. -/
theorem means_phrase : ∀ t : Phrase, t.expr.Means t.term
  | .chain c => (means_chain c).chain
  | .lambda _ params _ body => (means_phrase body).lam _ params.names_ne_nil
  | .chainLambda c _ params _ body =>
    ((means_chain c).snoc ((means_phrase body).lam _ params.names_ne_nil)).chain

end

end Grammar

/-! ## Indices and names of what is read -/

namespace Term

/-- The names in the term are names of the language, and its indices agree with them. -/
structure Spelled (t : Term) : Prop where
  /-- Every index points to the nearest binder of its name. -/
  lexical : t.Lexical []
  /-- Every name is one. -/
  names : ∀ x ∈ t.names, IsName x

theorem spelled_free {x : String} (h : IsName x) : (free x).Spelled :=
  ⟨trivial, List.forall_mem_singleton.mpr h⟩

theorem Spelled.app {f a : Term} (hf : f.Spelled) (ha : a.Spelled) : (app f a).Spelled :=
  ⟨⟨hf.lexical, ha.lexical⟩, List.forall_mem_append.mpr ⟨hf.names, ha.names⟩⟩

theorem Spelled.lams {t : Term} (h : t.Spelled) {params : List String}
    (hparams : ∀ x ∈ params, IsName x) : (t.lams params).Spelled := by
  induction params with
  | nil => exact h
  | cons p ps ih =>
    obtain ⟨hp, hps⟩ := List.forall_mem_cons.mp hparams
    have hlams := ih hps
    exact ⟨hlams.lexical.append [p], List.forall_mem_cons.mpr ⟨hp, hlams.names⟩⟩

theorem spelled_numeral (n : Nat) : (numeral n).Spelled := by
  have hf : IsName "f" := ⟨'f', [], rfl, rfl, List.forall_mem_nil _, by decide⟩
  have hx : IsName "x" := ⟨'x', [], rfl, rfl, List.forall_mem_nil _, by decide⟩
  have hlexical : (nest n).Lexical ["x", "f"] := by
    induction n with
    | zero => exact idxOf?_cons_self ..
    | succ n ih =>
      have hindex : ["x", "f"].idxOf? "f" = some 1 := by decide
      exact ⟨hindex, ih⟩
  have hnames : ∀ x ∈ (nest n).names, IsName x := by
    induction n with
    | zero => exact List.forall_mem_singleton.mpr hx
    | succ n ih => exact List.forall_mem_cons.mpr ⟨hf, ih hlexical.2⟩
  exact ⟨hlexical, List.forall_mem_cons.mpr ⟨hf, List.forall_mem_cons.mpr ⟨hx, hnames⟩⟩⟩

theorem openNames_numeral (n : Nat) : (numeral n).openNames = [] := by
  have hnest : (nest n).openNames = [] := by
    induction n with
    | zero => rfl
    | succ n ih => exact ih
  simp [numeral, openNames, hnest]

/-- A numeral has no names to look up. -/
theorem resolve_numeral (xs : List String) (n : Nat) : resolve xs (numeral n) = numeral n := by
  have hnest (ys : List String) : ¬ (nest n).CapturedIn ys := by
    induction n with
    | zero => exact not_false
    | succ n ih => exact not_or.mpr ⟨not_false, ih⟩
  exact resolve_eq_self_iff.mpr (hnest _)

end Term

namespace Grammar

/-- The names that the tokens say are names. -/
def Named (ts : List Token) : Prop := ∀ t ∈ ts, ∀ x, t.lexeme = .name x → IsName x

theorem Named.of_subset {ts us : List Token} (h : Named ts) (hus : ∀ t ∈ us, t ∈ ts) : Named us :=
  fun t ht => h t (hus t ht)

theorem Named.params {ps : Params} (h : Named ps.tokens) : ∀ x ∈ ps.names, IsName x := by
  induction ps with
  | one p x => exact List.forall_mem_singleton.mpr (h _ (List.mem_singleton_self _) x rfl)
  | snoc before p x ih =>
    refine List.forall_mem_append.mpr ⟨ih (h.of_subset fun t => List.mem_append_left _), ?_⟩
    refine List.forall_mem_singleton.mpr (h ⟨.name x, p⟩ ?_ x rfl)
    exact List.mem_append_right _ (List.mem_singleton_self _)

mutual

theorem Named.atom : ∀ {a : Atom}, Named a.tokens → a.term.Spelled
  | .name _ x, h => Term.spelled_free (h _ (List.mem_singleton_self _) x rfl)
  | .number _ n, _ => Term.spelled_numeral n
  | .character _ c, _ => Term.spelled_numeral c.toNat
  | .paren _ body _, h => by
    have hbody : Named body.tokens := h.of_subset fun t ht => by simp [Atom.tokens, ht]
    exact hbody.phrase

theorem Named.chain : ∀ {c : Chain}, Named c.tokens → c.term.Spelled
  | .one a, h => Named.atom (a := a) h
  | .snoc before a, h => by
    have hbefore : Named before.tokens := h.of_subset fun t => List.mem_append_left _
    have ha : Named a.tokens := h.of_subset fun t => List.mem_append_right _
    exact hbefore.chain.app ha.atom

/-- The only indices in the meaning of a derivation are those inside its numerals. -/
theorem Named.phrase : ∀ {t : Phrase}, Named t.tokens → t.term.Spelled
  | .chain c, h => Named.chain (c := c) h
  | .lambda _ params _ body, h => by
    have hparams : Named params.tokens := h.of_subset fun t ht => by simp [Phrase.tokens, ht]
    have hbody : Named body.tokens := h.of_subset fun t ht => by simp [Phrase.tokens, ht]
    exact hbody.phrase.lams hparams.params
  | .chainLambda c _ params _ body, h => by
    have hc : Named c.tokens := h.of_subset fun t ht => by simp [Phrase.tokens, ht]
    have hparams : Named params.tokens := h.of_subset fun t ht => by simp [Phrase.tokens, ht]
    have hbody : Named body.tokens := h.of_subset fun t ht => by simp [Phrase.tokens, ht]
    exact hc.chain.app (hbody.phrase.lams hparams.params)

end

end Grammar

end LambdaCalculus
