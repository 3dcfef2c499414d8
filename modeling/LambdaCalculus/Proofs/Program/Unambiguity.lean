import LambdaCalculus.Proofs.Program.Recognition

/-!
# One derivation for each program

The rules of the grammar leave no choice: tokens have one derivation at most.  An atom shows by
itself where it ends.  A chain goes on as long as atoms do, and a term as long as there is an atom or
the sign of an abstraction; what follows a term in a program is neither of them.  So from the left
each piece of a derivation is determined by the tokens, and so is what is left of them after it.

* `Atom.Determined`, `Phrase.Determined` — the tokens determine the piece and what follows it.
* `determined_atom`, `determined_phrase` — every piece of a derivation is determined.
* `Document.tokens_injective` — so derivations of the same tokens are the same.
* `run_eq_ok_iff_derives` — the reader accepts the tokens that have a derivation, and no others, and
  comes out with its tree.
-/

namespace LambdaCalculus

/-- Does an atom begin with the lexeme? -/
def Lexeme.opensAtom : Lexeme → Bool
  | .name _ | .number _ | .character _ | .lparen => true
  | _ => false

/-- Does a term that could end go on with the lexeme? -/
def Lexeme.continuesPhrase : Lexeme → Bool
  | .lambda => true
  | l => l.opensAtom

namespace Grammar

/-- The tokens do not begin with a lexeme of the class. -/
def Stops (p : Lexeme → Bool) (ts : List Token) : Prop := ∀ t ∈ ts.head?, p t.lexeme = false

theorem stops_nil (p : Lexeme → Bool) : Stops p [] := by
  intro t ht
  cases ht

theorem stops_cons {p : Lexeme → Bool} {t : Token} (ht : p t.lexeme = false) (ts : List Token) :
    Stops p (t :: ts) := by
  rintro u ⟨⟩
  exact ht

theorem Stops.opensAtom {ts : List Token} (h : Stops Lexeme.continuesPhrase ts) :
    Stops Lexeme.opensAtom ts := by
  rintro ⟨lexeme, place⟩ ht
  have hstop := h _ ht
  cases lexeme <;> first | exact hstop | rfl

/-! ## Pieces that are determined -/

/-- The tokens determine the atom, whatever follows it. -/
def Atom.Determined (a : Atom) : Prop :=
  ∀ {a' : Atom} {rest rest' : List Token}, a.tokens ++ rest = a'.tokens ++ rest' →
    a = a' ∧ rest = rest'

/-- The tokens determine the term, where what follows does not go on with it. -/
def Phrase.Determined (t : Phrase) : Prop :=
  ∀ {t' : Phrase} {rest rest' : List Token}, Stops Lexeme.continuesPhrase rest →
    Stops Lexeme.continuesPhrase rest' → t.tokens ++ rest = t'.tokens ++ rest' →
    t = t' ∧ rest = rest'

/-! ### Parameters -/

theorem Params.isName_of_mem (ps : Params) : ∀ t ∈ ps.tokens, ∃ x, t.lexeme = .name x := by
  induction ps with
  | one p x => exact List.forall_mem_singleton.mpr ⟨x, rfl⟩
  | snoc before p x ih =>
    exact List.forall_mem_append.mpr ⟨ih, List.forall_mem_singleton.mpr ⟨x, rfl⟩⟩

theorem Params.tokens_injective {ps ps' : Params} (h : ps.tokens = ps'.tokens) : ps = ps' := by
  have hne (before : Params) (t u : Token) : before.tokens ++ [t] ≠ [u] := by
    cases before <;> simp [tokens, List.append_eq_singleton_iff]
  induction ps generalizing ps' with
  | one p x =>
    cases ps' with
    | one p' x' => cases h; rfl
    | snoc before p' x' => exact absurd h.symm (hne before _ _)
  | snoc before p x ih =>
    cases ps' with
    | one p' x' => exact absurd h (hne before _ _)
    | snoc before' p' x' =>
      obtain ⟨hbefore, hlast⟩ := List.append_inj' h rfl
      cases hlast
      rw [ih hbefore]

/-- The sign after the parameters shows where they end. -/
theorem Params.determined {ps ps' : Params} {dot dot' : Span} {rest rest' : List Token}
    (h : ps.tokens ++ ⟨.dot, dot⟩ :: rest = ps'.tokens ++ ⟨.dot, dot'⟩ :: rest') :
    ps = ps' ∧ dot = dot' ∧ rest = rest' := by
  have hnames (ps : Params) (dot : Span) (rest : List Token) :
      (ps.tokens ++ ⟨.dot, dot⟩ :: rest).takeWhile (·.lexeme ≠ .dot) = ps.tokens := by
    rw [List.takeWhile_append_of_pos]
    · exact List.append_nil _
    · intro t ht
      obtain ⟨x, hx⟩ := ps.isName_of_mem t ht
      simp [hx]
  have htokens : ps.tokens = ps'.tokens := by
    rw [← hnames ps dot rest, h, hnames ps' dot' rest']
  rw [htokens] at h
  cases List.append_cancel_left h
  exact ⟨Params.tokens_injective htokens, rfl, rfl⟩

/-! ### Chains -/

/-- The first atom. -/
def Chain.first : Chain → Atom
  | .one a => a
  | .snoc before _ => before.first

/-- The other atoms. -/
def Chain.others : Chain → List Atom
  | .one _ => []
  | .snoc before a => before.others ++ [a]

/-- The atoms of a chain in order. -/
def Chain.atoms (c : Chain) : List Atom := c.first :: c.others

theorem Chain.tokens_eq (c : Chain) : c.tokens = c.atoms.flatMap Atom.tokens := by
  induction c using Chain.first.induct with
  | case1 a => simp [tokens, atoms, first, others]
  | case2 before a ih => simp [tokens, atoms, first, others, ih]

/-- A chain is put together from its atoms. -/
theorem Chain.foldl_others (c : Chain) : c.others.foldl .snoc (.one c.first) = c := by
  induction c using Chain.first.induct with
  | case1 a => rfl
  | case2 before a ih => simp [first, others, ih]

theorem Chain.atoms_injective {c c' : Chain} (h : c.atoms = c'.atoms) : c = c' := by
  obtain ⟨hfirst, hothers⟩ := List.cons.inj h
  rw [← c.foldl_others, ← c'.foldl_others, hfirst, hothers]

theorem Chain.atoms_ne_nil (c : Chain) : c.atoms ≠ [] := List.cons_ne_nil _ _

theorem Atom.exists_tokens (a : Atom) :
    ∃ t ts, a.tokens = t :: ts ∧ t.lexeme.opensAtom = true := by
  cases a <;> exact ⟨_, _, rfl, rfl⟩

/-- Where no atom follows, the tokens determine the atoms. -/
theorem atoms_determined {as as' : List Atom} (has : ∀ a ∈ as, a.Determined)
    {rest rest' : List Token} (hrest : Stops Lexeme.opensAtom rest)
    (hrest' : Stops Lexeme.opensAtom rest')
    (h : as.flatMap Atom.tokens ++ rest = as'.flatMap Atom.tokens ++ rest') :
    as = as' ∧ rest = rest' := by
  -- an atom on one side alone would be an atom that follows on the other
  have hatom {a : Atom} {ts us : List Token} (hus : Stops Lexeme.opensAtom us)
      (h : us = a.tokens ++ ts) : False := by
    obtain ⟨t, ts', ht, hopens⟩ := a.exists_tokens
    rw [h, ht] at hus
    rw [hus t rfl] at hopens
    cases hopens
  induction as generalizing as' with
  | nil =>
    cases as' with
    | nil => exact ⟨rfl, h⟩
    | cons a' as' =>
      rw [List.flatMap_cons, List.append_assoc] at h
      exact (hatom hrest h).elim
  | cons a as ih =>
    obtain ⟨ha, has⟩ := List.forall_mem_cons.mp has
    rw [List.flatMap_cons, List.append_assoc] at h
    cases as' with
    | nil => exact (hatom hrest' h.symm).elim
    | cons a' as' =>
      rw [List.flatMap_cons, List.append_assoc] at h
      obtain ⟨rfl, hothers⟩ := ha h
      obtain ⟨rfl, hrest⟩ := ih has hothers
      exact ⟨rfl, hrest⟩

/-! ### Terms -/

/-- The atoms that a term begins with. -/
def Phrase.atoms : Phrase → List Atom
  | .chain items => items.atoms
  | .lambda _ _ _ _ => []
  | .chainLambda items _ _ _ _ => items.atoms

/-- The tokens of the abstraction that a term ends with, if it does. -/
def Phrase.lambdaTokens : Phrase → List Token
  | .chain _ => []
  | .lambda sign params dot body | .chainLambda _ sign params dot body =>
    ⟨.lambda, sign⟩ :: params.tokens ++ ⟨.dot, dot⟩ :: body.tokens

theorem Phrase.tokens_eq (t : Phrase) :
    t.tokens = t.atoms.flatMap Atom.tokens ++ t.lambdaTokens := by
  cases t with
  | chain items => rw [tokens, items.tokens_eq, atoms, lambdaTokens, List.append_nil]
  | lambda sign params dot body => rfl
  | chainLambda items sign params dot body =>
    rw [tokens, items.tokens_eq, atoms, lambdaTokens, List.append_assoc]

theorem Phrase.stops_lambdaTokens (t : Phrase) {rest : List Token}
    (hrest : Stops Lexeme.continuesPhrase rest) :
    Stops Lexeme.opensAtom (t.lambdaTokens ++ rest) := by
  cases t with
  | chain items => exact hrest.opensAtom
  | lambda sign params dot body => exact stops_cons rfl _
  | chainLambda items sign params dot body => exact stops_cons rfl _

/-- An abstraction is determined if its body is. -/
theorem Phrase.Determined.lambda {body body' : Phrase} (hbody : body.Determined)
    {sign dot sign' dot' : Span} {ps ps' : Params} {rest rest' : List Token}
    (hrest : Stops Lexeme.continuesPhrase rest) (hrest' : Stops Lexeme.continuesPhrase rest')
    (h : ⟨.lambda, sign⟩ :: ps.tokens ++ ⟨.dot, dot⟩ :: body.tokens ++ rest =
      ⟨.lambda, sign'⟩ :: ps'.tokens ++ ⟨.dot, dot'⟩ :: body'.tokens ++ rest') :
    sign = sign' ∧ ps = ps' ∧ dot = dot' ∧ body = body' ∧ rest = rest' := by
  simp only [List.cons_append, List.append_assoc, List.cons.injEq, Token.mk.injEq,
    true_and] at h
  obtain ⟨hsign, h⟩ := h
  obtain ⟨hps, hdot, h⟩ := Params.determined h
  obtain ⟨hbody, h⟩ := hbody hrest hrest' h
  exact ⟨hsign, hps, hdot, hbody, h⟩

mutual

/-- Every atom is determined. -/
theorem determined_atom : ∀ a : Atom, a.Determined
  | .name p x, a', _, _, h => by cases a' <;> cases h; exact ⟨rfl, rfl⟩
  | .number p n, a', _, _, h => by cases a' <;> cases h; exact ⟨rfl, rfl⟩
  | .character p c, a', _, _, h => by cases a' <;> cases h; exact ⟨rfl, rfl⟩
  | .paren opening body closing, a', rest, rest', h => by
    cases a' with
    | name | number | character => cases h
    | paren opening' body' closing' =>
      simp only [Atom.tokens, List.cons_append, List.append_assoc, List.cons.injEq,
        Token.mk.injEq, true_and] at h
      obtain ⟨rfl, hbody⟩ := h
      obtain ⟨rfl, hclosing⟩ := determined_phrase body (stops_cons rfl _) (stops_cons rfl _) hbody
      cases hclosing
      exact ⟨rfl, rfl⟩

/-- So are those of a chain. -/
theorem determined_chain : ∀ c : Chain, ∀ a ∈ c.atoms, a.Determined
  | .one a => List.forall_mem_singleton.mpr (determined_atom a)
  | .snoc before a => List.forall_mem_append.mpr
    ⟨determined_chain before, List.forall_mem_singleton.mpr (determined_atom a)⟩

/-- Every term is determined. -/
theorem determined_phrase : ∀ t : Phrase, t.Determined
  | .chain items, t', rest, rest', hrest, hrest', h => by
    rw [Phrase.tokens_eq, t'.tokens_eq, List.append_assoc, List.append_assoc] at h
    obtain ⟨hatoms, h⟩ := atoms_determined (determined_chain items)
      (Phrase.stops_lambdaTokens _ hrest) (t'.stops_lambdaTokens hrest') h
    cases t' with
    | chain items' => exact ⟨by rw [Chain.atoms_injective hatoms], h⟩
    | lambda | chainLambda =>
      -- the sign of the abstraction on the other side would follow
      have hfollows : rest = _ :: _ := h
      rw [hfollows] at hrest
      cases hrest _ rfl
  | .lambda sign ps dot body, t', rest, rest', hrest, hrest', h => by
    rw [t'.tokens_eq, List.append_assoc] at h
    obtain ⟨hatoms, h⟩ := atoms_determined (List.forall_mem_nil _)
      (Phrase.stops_lambdaTokens (.lambda sign ps dot body) hrest) (t'.stops_lambdaTokens hrest') h
    cases t' with
    | chain items' => exact absurd hatoms.symm items'.atoms_ne_nil
    | chainLambda items' => exact absurd hatoms.symm items'.atoms_ne_nil
    | lambda sign' ps' dot' body' =>
      obtain ⟨rfl, rfl, rfl, rfl, hrests⟩ :=
        Phrase.Determined.lambda (determined_phrase body) hrest hrest' h
      exact ⟨rfl, hrests⟩
  | .chainLambda items sign ps dot body, t', rest, rest', hrest, hrest', h => by
    rw [Phrase.tokens_eq, t'.tokens_eq, List.append_assoc, List.append_assoc] at h
    obtain ⟨hatoms, h⟩ := atoms_determined (determined_chain items)
      (Phrase.stops_lambdaTokens _ hrest) (t'.stops_lambdaTokens hrest') h
    cases t' with
    | chain items' =>
      have hfollows : _ :: _ = rest' := h
      rw [← hfollows] at hrest'
      cases hrest' _ rfl
    | lambda => exact absurd hatoms items.atoms_ne_nil
    | chainLambda items' sign' ps' dot' body' =>
      obtain ⟨rfl, rfl, rfl, rfl, hrests⟩ :=
        Phrase.Determined.lambda (determined_phrase body) hrest hrest' h
      exact ⟨by rw [Chain.atoms_injective hatoms], hrests⟩

end

/-! ### Statements -/

/-- The tokens determine a statement, where what follows does not go on with its term. -/
theorem Clause.determined {c c' : Clause} {rest rest' : List Token}
    (hrest : Stops Lexeme.continuesPhrase rest) (hrest' : Stops Lexeme.continuesPhrase rest')
    (h : c.tokens ++ rest = c'.tokens ++ rest') : c = c' ∧ rest = rest' := by
  -- no term begins with the word of a binding
  have hword {place : Span} {ts us : List Token} {body : Phrase}
      (h : ⟨.letWord, place⟩ :: ts = body.tokens ++ us) : False := by
    obtain ⟨t, us', ht, hopens, -⟩ := Reader.phrase_opens body
    rw [ht] at h
    cases h
    exact hopens rfl
  cases c with
  | binding word place x sign value =>
    cases c' with
    | expression body' => exact (hword h).elim
    | binding word' place' x' sign' value' =>
      simp only [tokens, List.cons_append, List.cons.injEq, Token.mk.injEq, Lexeme.name.injEq,
        true_and] at h
      obtain ⟨rfl, ⟨rfl, rfl⟩, rfl, hvalue⟩ := h
      obtain ⟨rfl, hrests⟩ := determined_phrase value hrest hrest' hvalue
      exact ⟨rfl, hrests⟩
  | expression body =>
    cases c' with
    | binding word' place' x' sign' value' => exact (hword h.symm).elim
    | expression body' =>
      obtain ⟨rfl, hrests⟩ := determined_phrase body hrest hrest' h
      exact ⟨rfl, hrests⟩

theorem Clause.tokens_ne_nil (c : Clause) : c.tokens ≠ [] := by
  cases c with
  | binding word place x sign value => exact List.cons_ne_nil _ _
  | expression body =>
    obtain ⟨t, ts, ht, -⟩ := Reader.phrase_opens body
    rw [tokens, ht]
    exact List.cons_ne_nil t ts

/-! ## Programs -/

/-- The first statement. -/
def Clauses.first : Clauses → Clause
  | .one c => c
  | .snoc before _ _ => before.first

/-- The other statements, each with the sign before it. -/
def Clauses.others : Clauses → List (Span × Clause)
  | .one _ => []
  | .snoc before semicolon c => before.others ++ [(semicolon, c)]

/-- The tokens of a sign and of the statement after it. -/
def nextTokens (next : Span × Clause) : List Token :=
  ⟨.semicolon, next.1⟩ :: next.2.tokens

theorem Clauses.tokens_eq (cs : Clauses) :
    cs.tokens = cs.first.tokens ++ cs.others.flatMap nextTokens := by
  induction cs with
  | one c => simp [tokens, first, others]
  | snoc before semicolon c ih => simp [tokens, first, others, nextTokens, ih]

/-- Statements are put together from the first and the others. -/
theorem Clauses.foldl_others (cs : Clauses) :
    cs.others.foldl (fun before next => .snoc before next.1 next.2) (.one cs.first) = cs := by
  induction cs with
  | one c => rfl
  | snoc before semicolon c ih => simp [first, others, ih]

/-- The statements of a program. -/
def Document.clauses : Document → Clauses
  | .plain clauses => clauses
  | .trailing clauses _ => clauses

/-- The sign after the last statement, if there is one. -/
def Document.closing : Document → List Token
  | .plain _ => []
  | .trailing _ semicolon => [⟨.semicolon, semicolon⟩]

theorem Document.tokens_eq (d : Document) : d.tokens =
    d.clauses.first.tokens ++ (d.clauses.others.flatMap nextTokens ++ d.closing) := by
  cases d with
  | plain cs => simp [tokens, cs.tokens_eq, clauses, closing]
  | trailing cs semicolon => simp [tokens, cs.tokens_eq, clauses, closing]

theorem Document.eq_of_closing {d d' : Document} (hclauses : d.clauses = d'.clauses)
    (hclosing : d.closing = d'.closing) : d = d' := by
  cases d with
  | plain cs =>
    cases d' with
    | plain cs' => exact congrArg plain hclauses
    | trailing cs' semicolon' => cases hclosing
  | trailing cs semicolon =>
    cases d' with
    | plain cs' => cases hclosing
    | trailing cs' semicolon' =>
      cases hclosing
      exact congrArg (trailing · semicolon) hclauses

/-- What follows a statement in a program is a sign or nothing. -/
theorem stops_others (others : List (Span × Clause)) (d : Document) :
    Stops Lexeme.continuesPhrase (others.flatMap nextTokens ++ d.closing) := by
  cases others with
  | cons next others => exact stops_cons rfl _
  | nil =>
    cases d with
    | plain cs => exact stops_nil _
    | trailing cs semicolon => exact stops_cons rfl _

/-- The tokens after the first statement determine the other statements. -/
theorem others_determined {others others' : List (Span × Clause)} {d d' : Document}
    (h : others.flatMap nextTokens ++ d.closing = others'.flatMap nextTokens ++ d'.closing) :
    others = others' ∧ d.closing = d'.closing := by
  -- after the closing sign there is no statement
  have hlast {d : Document} {next : Span × Clause} {ts : List Token}
      (h : d.closing = nextTokens next ++ ts) : False := by
    cases d with
    | plain cs => cases h
    | trailing cs semicolon =>
      obtain ⟨-, hnil⟩ := List.cons.inj h
      exact next.2.tokens_ne_nil (List.append_eq_nil_iff.mp hnil.symm).1
  induction others generalizing others' with
  | nil =>
    cases others' with
    | nil => exact ⟨rfl, h⟩
    | cons next' others' =>
      rw [List.flatMap_cons, List.append_assoc] at h
      exact (hlast h).elim
  | cons next others ih =>
    rw [List.flatMap_cons, List.append_assoc] at h
    cases others' with
    | nil => exact (hlast h.symm).elim
    | cons next' others' =>
      rw [List.flatMap_cons, List.append_assoc] at h
      obtain ⟨hsign, h⟩ := List.cons.inj h
      obtain ⟨hclause, h⟩ := Clause.determined (stops_others others d) (stops_others others' d') h
      obtain ⟨hothers, hclosing⟩ := ih h
      have hnext : next = next' := Prod.ext (Token.mk.inj hsign).2 hclause
      exact ⟨by rw [hnext, hothers], hclosing⟩

/-- Derivations of the same tokens are the same. -/
theorem Document.tokens_injective {d d' : Document} (h : d.tokens = d'.tokens) : d = d' := by
  rw [d.tokens_eq, d'.tokens_eq] at h
  obtain ⟨hfirst, h⟩ := Clause.determined (stops_others _ d) (stops_others _ d') h
  obtain ⟨hothers, hclosing⟩ := others_determined h
  have hclauses : d.clauses = d'.clauses := by
    rw [← d.clauses.foldl_others, ← d'.clauses.foldl_others, hfirst, hothers]
  exact eq_of_closing hclauses hclosing

end Grammar

/-! ## The reader -/

/-- The reader comes out with a program exactly if the tokens have a derivation, whatever the text
that they were cut from; they have one derivation at most, and the program is its tree. -/
theorem run_eq_ok_iff_derives (source : String) (ts : List Token) :
    ((∃ p, Reader.run source .start ts none = .ok p) ↔ ∃ d : Grammar.Document, d.tokens = ts) ∧
    Subsingleton { d : Grammar.Document // d.tokens = ts } ∧
    ∀ p, Reader.run source .start ts none = .ok p ↔
      ∃ d : Grammar.Document, d.tokens = ts ∧ d.program = p := by
  have htree (p : Program) : Reader.run source .start ts none = .ok p ↔
      ∃ d : Grammar.Document, d.tokens = ts ∧ d.program = p := by
    constructor
    · exact Reader.exists_document_of_run
    · rintro ⟨d, rfl, rfl⟩
      exact Reader.run_tokens source d
  refine ⟨?_, ?_, htree⟩
  · constructor
    · rintro ⟨p, hp⟩
      obtain ⟨d, hd, -⟩ := (htree p).mp hp
      exact ⟨d, hd⟩
    · rintro ⟨d, hd⟩
      exact ⟨d.program, (htree d.program).mpr ⟨d, hd, rfl⟩⟩
  · constructor
    rintro ⟨d, hd⟩ ⟨d', hd'⟩
    exact Subtype.ext (Grammar.Document.tokens_injective (hd.trans hd'.symm))

end LambdaCalculus
