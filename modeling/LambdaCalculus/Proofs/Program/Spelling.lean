import LambdaCalculus.Proofs.Program.Loading

/-!
# Lexemes and what they mean

A derivation keeps the places of its tokens, but its meaning depends on what they say alone.
`Grammar.PhraseSpells ls t` says that the lexemes `ls`, wherever they stand, are those of a term of
the grammar that means `t`; so for atoms and chains.  Texts that are put together piece by piece are
read with these.

* `PhraseSpells.lambda`, `AtomSpells.paren`, … — a rule of the grammar each.
* `exists_parse_of_spells` — a text whose lexemes spell a term is read as a program that means it.
* `settles_load_of_spells` — and loads, on its own, as that term.
-/

namespace LambdaCalculus

namespace Grammar

/-- The lexemes are those of an atom that means `t`. -/
def AtomSpells (ls : List Lexeme) (t : Term) : Prop :=
  ∀ ts : List Token, ts.map Token.lexeme = ls → ∃ a : Atom, a.tokens = ts ∧ a.term = t

/-- The lexemes are those of a chain that means `t`. -/
def ChainSpells (ls : List Lexeme) (t : Term) : Prop :=
  ∀ ts : List Token, ts.map Token.lexeme = ls → ∃ c : Chain, c.tokens = ts ∧ c.term = t

/-- The lexemes are those of a term of the grammar that means `t`. -/
def PhraseSpells (ls : List Lexeme) (t : Term) : Prop :=
  ∀ ts : List Token, ts.map Token.lexeme = ls → ∃ u : Phrase, u.tokens = ts ∧ u.term = t

/-- One token makes an atom, wherever it stands. -/
theorem AtomSpells.token {l : Lexeme} {t : Term}
    (h : ∀ place, ∃ a : Atom, a.tokens = [⟨l, place⟩] ∧ a.term = t) : AtomSpells [l] t := by
  intro ts hts
  obtain ⟨⟨l, place⟩, rfl, rfl⟩ := List.map_eq_singleton_iff.mp hts
  exact h place

theorem AtomSpells.name (x : String) : AtomSpells [.name x] (.free x) :=
  .token fun place => ⟨.name place x, rfl, rfl⟩

theorem AtomSpells.number (n : Nat) : AtomSpells [.number n] (.numeral n) :=
  .token fun place => ⟨.number place n, rfl, rfl⟩

theorem AtomSpells.character (c : Char) : AtomSpells [.character c] (.numeral c.toNat) :=
  .token fun place => ⟨.character place c, rfl, rfl⟩

/-- Parentheses make an atom of a term. -/
theorem AtomSpells.paren {ls : List Lexeme} {t : Term} (h : PhraseSpells ls t) :
    AtomSpells (.lparen :: ls ++ [.rparen]) t := by
  intro ts hts
  obtain ⟨before, after, rfl, hbefore, hafter⟩ := List.map_eq_append_iff.mp hts
  obtain ⟨⟨l, opening⟩, us, rfl, rfl, hus⟩ := List.map_eq_cons_iff.mp hbefore
  obtain ⟨⟨l, closing⟩, rfl, rfl⟩ := List.map_eq_singleton_iff.mp hafter
  obtain ⟨u, rfl, rfl⟩ := h us hus
  exact ⟨.paren opening u closing, rfl, rfl⟩

theorem AtomSpells.chain {ls : List Lexeme} {t : Term} (h : AtomSpells ls t) : ChainSpells ls t := by
  intro ts hts
  obtain ⟨a, rfl, rfl⟩ := h ts hts
  exact ⟨.one a, rfl, rfl⟩

/-- A chain is applied to the atom that follows it. -/
theorem ChainSpells.snoc {ls ls' : List Lexeme} {f a : Term} (h : ChainSpells ls f)
    (ha : AtomSpells ls' a) : ChainSpells (ls ++ ls') (.app f a) := by
  intro ts hts
  obtain ⟨before, after, rfl, hbefore, hafter⟩ := List.map_eq_append_iff.mp hts
  obtain ⟨c, rfl, rfl⟩ := h before hbefore
  obtain ⟨a, rfl, rfl⟩ := ha after hafter
  exact ⟨.snoc c a, rfl, rfl⟩

theorem ChainSpells.phrase {ls : List Lexeme} {t : Term} (h : ChainSpells ls t) :
    PhraseSpells ls t := by
  intro ts hts
  obtain ⟨c, rfl, rfl⟩ := h ts hts
  exact ⟨.chain c, rfl, rfl⟩

theorem lambda_parts {x : String} {ls : List Lexeme} {ts : List Token}
    (hts : ts.map Token.lexeme = .lambda :: .name x :: .dot :: ls) :
    ∃ (sign place dot : Span) (us : List Token),
      ts = ⟨.lambda, sign⟩ :: ⟨.name x, place⟩ :: ⟨.dot, dot⟩ :: us ∧ us.map Token.lexeme = ls := by
  obtain ⟨⟨l, sign⟩, vs, rfl, rfl, hvs⟩ := List.map_eq_cons_iff.mp hts
  obtain ⟨⟨l, place⟩, ws, rfl, rfl, hws⟩ := List.map_eq_cons_iff.mp hvs
  obtain ⟨⟨l, dot⟩, us, rfl, rfl, hus⟩ := List.map_eq_cons_iff.mp hws
  exact ⟨sign, place, dot, us, rfl, hus⟩

/-- An abstraction of one parameter. -/
theorem PhraseSpells.lambda {ls : List Lexeme} {t : Term} (h : PhraseSpells ls t) (x : String) :
    PhraseSpells (.lambda :: .name x :: .dot :: ls) (.lam x t) := by
  intro ts hts
  obtain ⟨sign, place, dot, us, rfl, hus⟩ := lambda_parts hts
  obtain ⟨u, rfl, rfl⟩ := h us hus
  exact ⟨.lambda sign (.one place x) dot u, rfl, rfl⟩

/-- A chain is applied to the abstraction that follows it. -/
theorem ChainSpells.lambda {ls ls' : List Lexeme} {f t : Term} (h : ChainSpells ls f)
    (ht : PhraseSpells ls' t) (x : String) :
    PhraseSpells (ls ++ .lambda :: .name x :: .dot :: ls') (.app f (.lam x t)) := by
  intro ts hts
  obtain ⟨before, after, rfl, hbefore, hafter⟩ := List.map_eq_append_iff.mp hts
  obtain ⟨sign, place, dot, us, rfl, hus⟩ := lambda_parts hafter
  obtain ⟨c, rfl, rfl⟩ := h before hbefore
  obtain ⟨u, rfl, rfl⟩ := ht us hus
  exact ⟨.chainLambda c sign (.one place x) dot u, List.append_assoc .., rfl⟩

end Grammar

/-- A text whose lexemes spell a term is read as a program that means it. -/
theorem exists_parse_of_spells {source : String} {ls : List Lexeme} {t : Term}
    (hlexes : Lexes source.toList ls) (h : Grammar.PhraseSpells ls t) :
    ∃ p place e, Program.parse source = .ok p ∧ p.statements = [.expression place e] ∧ e.Means t ∧
      t.Spelled := by
  obtain ⟨ts, hlex, hts⟩ := hlexes source 0
  obtain ⟨u, rfl, rfl⟩ := h ts hts
  have hparse : Program.parse source = .ok ⟨[.expression u.expr.span u.expr]⟩ := by
    have hlexing : lex source = ⟨u.tokens, none⟩ := hlex
    rw [Program.parse, hlexing]
    exact Reader.run_tokens source (.plain (.one (.expression u)))
  have hnamed : Grammar.Named u.tokens := by
    intro t ht x hx
    have hmem : t ∈ (lex source).tokens := by rwa [lex, hlex]
    exact isName_of_lex hmem hx
  exact ⟨_, _, u.expr, hparse, rfl, Grammar.means_phrase u, hnamed.phrase⟩

/-- A text whose lexemes spell a term loads, on its own, as that term with its names resolved. -/
theorem settles_load_of_spells {source : String} {ls : List Lexeme} {t : Term}
    (hlexes : Lexes source.toList ls) (h : Grammar.PhraseSpells ls t) :
    Settles (fun limit => load limit false source) (.ok (t.resolve [])) := by
  obtain ⟨p, place, e, hp, hstatements, he, hspelled⟩ := exists_parse_of_spells hlexes h
  have hmeans : (if false then p.withStandard else p).Means [] t :=
    ⟨hspelled, [], place, e, hstatements, .nil, he⟩
  exact hmeans.settles_load hp

end LambdaCalculus
