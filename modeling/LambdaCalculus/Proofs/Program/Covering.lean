import LambdaCalculus.Proofs.Program.Scoping
import LambdaCalculus.Proofs.Program.TokenPlaces
import Mathlib.Data.List.Forall2
import Mathlib.Data.List.Induction
import Mathlib.Order.Lattice

/-!
# The place of some tokens

The place of a piece of text leaves out the parentheses around it: it goes from the first token that is
no opening parenthesis to the last one that is no closing parenthesis.

* `Span.Covers` — that a place goes from there to there.
* `Span.Covers.paren`, `.led`, `.join` — parentheses around a text, tokens in front of it, and the text
  from one place to another.
* `Span.Covers.inside`, `.apart` — a text within another, and a text behind another.
* `inside_of_blocks`, `apart_of_blocks` — so for any number of texts that follow one another.
-/

namespace LambdaCalculus

/-! ## Where a text begins and ends -/

/-- The offset where the first token begins that is no `(`. -/
def startOf (ts : List Token) : Option Int :=
  (ts.find? (·.lexeme ≠ .lparen)).map (·.span.start)

/-- The offset where the last token ends that is no `)`. -/
def stopOf (ts : List Token) : Option Int :=
  (ts.reverse.find? (·.lexeme ≠ .rparen)).map (·.span.stop)

/-- The place is not empty, and goes from the first of the tokens that is no `(` to the last one that
is no `)`. -/
structure Span.Covers (p : Span) (ts : List Token) : Prop where
  /-- It begins where the first token does that is no `(`. -/
  start : startOf ts = some p.start
  /-- It ends where the last token does that is no `)`. -/
  stop : stopOf ts = some p.stop
  /-- It is not empty. -/
  nonempty : p.start < p.stop

theorem startOf_append (ts us : List Token) :
    startOf (ts ++ us) = (startOf ts).or (startOf us) := by
  rw [startOf, List.find?_append, Option.map_or]
  rfl

theorem stopOf_append (ts us : List Token) : stopOf (ts ++ us) = (stopOf us).or (stopOf ts) := by
  rw [stopOf, List.reverse_append, List.find?_append, Option.map_or]
  rfl

theorem startOf_cons {t : Token} (ht : t.lexeme ≠ .lparen) (ts : List Token) :
    startOf (t :: ts) = some t.span.start := by
  rw [startOf, List.find?_cons_of_pos (by simpa using ht), Option.map_some]

theorem startOf_lparen {t : Token} (ht : t.lexeme = .lparen) (ts : List Token) :
    startOf (t :: ts) = startOf ts := by
  rw [startOf, List.find?_cons_of_neg (by simpa using ht)]
  rfl

theorem stopOf_singleton {t : Token} (ht : t.lexeme ≠ .rparen) : stopOf [t] = some t.span.stop := by
  rw [stopOf, List.reverse_singleton, List.find?_cons_of_pos (by simpa using ht), Option.map_some]

theorem stopOf_rparen {t : Token} (ht : t.lexeme = .rparen) : stopOf [t] = none := by
  rw [stopOf, List.reverse_singleton, List.find?_cons_of_neg (by simpa using ht)]
  rfl

/-- No token that is no `(` begins before the first of them. -/
theorem startOf_le {ts : List Token} {i : Int} (h : startOf ts = some i) (hts : InOrder ts)
    {t : Token} (ht : t ∈ ts) (hlparen : t.lexeme ≠ .lparen) : i ≤ t.span.start := by
  induction ts with
  | nil => cases ht
  | cons u ts ih =>
    have hrest : InOrder ts := hts.sublist (List.sublist_cons_self u ts)
    by_cases hu : u.lexeme = .lparen
    · rw [startOf_lparen hu] at h
      rcases List.mem_cons.mp ht with rfl | ht
      · exact (hlparen hu).elim
      · exact ih h hrest ht
    · rw [startOf_cons hu] at h
      cases h
      rcases List.mem_cons.mp ht with rfl | ht
      · exact le_rfl
      · have hne := hts.2 u List.mem_cons_self
        have hbehind := (List.pairwise_cons.mp hts.1).1 t ht
        omega

/-- No token that is no `)` ends after the last of them. -/
theorem le_stopOf {ts : List Token} {i : Int} (h : stopOf ts = some i) (hts : InOrder ts)
    {t : Token} (ht : t ∈ ts) (hrparen : t.lexeme ≠ .rparen) : t.span.stop ≤ i := by
  induction ts using List.reverseRecOn with
  | nil => cases ht
  | append_singleton ts u ih =>
    have hrest : InOrder ts := hts.sublist (List.sublist_append_left ts [u])
    by_cases hu : u.lexeme = .rparen
    · rw [stopOf_append, stopOf_rparen hu] at h
      rcases List.mem_append.mp ht with ht | ht
      · exact ih h hrest ht
      · cases List.mem_singleton.mp ht
        exact (hrparen hu).elim
    · rw [stopOf_append, stopOf_singleton hu] at h
      cases h
      rcases List.mem_append.mp ht with ht | ht
      · have hne := hts.2 u (List.mem_append_right ts List.mem_cons_self)
        have hbehind := (List.pairwise_append.mp hts.1).2.2 t ht u List.mem_cons_self
        omega
      · cases List.mem_singleton.mp ht
        exact le_rfl

theorem exists_mem_of_startOf {ts : List Token} {i : Int} (h : startOf ts = some i) :
    ∃ t ∈ ts, t.lexeme ≠ .lparen ∧ t.span.start = i := by
  obtain ⟨t, ht, hi⟩ := Option.map_eq_some_iff.mp h
  exact ⟨t, List.mem_of_find?_eq_some ht, by simpa using List.find?_some ht, hi⟩

theorem exists_mem_of_stopOf {ts : List Token} {i : Int} (h : stopOf ts = some i) :
    ∃ t ∈ ts, t.lexeme ≠ .rparen ∧ t.span.stop = i := by
  obtain ⟨t, ht, hi⟩ := Option.map_eq_some_iff.mp h
  exact ⟨t, List.mem_reverse.mp (List.mem_of_find?_eq_some ht), by simpa using List.find?_some ht, hi⟩

namespace Span.Covers

variable {p q : Span} {ts us : List Token}

/-- What is part of a text lies inside it. -/
theorem inside (hp : p.Covers ts) (hq : q.Covers us) (hsub : us ⊆ ts) (hts : InOrder ts) :
    p.start ≤ q.start ∧ q.stop ≤ p.stop := by
  obtain ⟨t, ht, hlparen, htq⟩ := exists_mem_of_startOf hq.start
  obtain ⟨u, hu, hrparen, huq⟩ := exists_mem_of_stopOf hq.stop
  exact ⟨htq ▸ startOf_le hp.start hts (hsub ht) hlparen,
    huq ▸ le_stopOf hp.stop hts (hsub hu) hrparen⟩

/-- What is behind a text begins after its end. -/
theorem apart (hp : p.Covers ts) (hq : q.Covers us) (h : InOrder (ts ++ us)) : p.stop ≤ q.start := by
  obtain ⟨t, ht, -, htp⟩ := exists_mem_of_stopOf hp.stop
  obtain ⟨u, hu, -, huq⟩ := exists_mem_of_startOf hq.start
  rw [← htp, ← huq]
  exact (List.pairwise_append.mp h.1).2.2 t ht u hu

/-- A token that is no parenthesis. -/
theorem token {t : Token} (hlparen : t.lexeme ≠ .lparen) (hrparen : t.lexeme ≠ .rparen)
    (ht : t.span.start < t.span.stop) : t.span.Covers [t] :=
  ⟨startOf_cons hlparen [], stopOf_singleton hrparen, ht⟩

/-- Parentheses leave the place as it is. -/
theorem paren (h : p.Covers ts) (opening closing : Span) :
    p.Covers (⟨.lparen, opening⟩ :: ts ++ [⟨.rparen, closing⟩]) := by
  refine ⟨?_, ?_, h.nonempty⟩
  · rw [List.cons_append, startOf_lparen rfl, startOf_append, h.start]
    rfl
  · rw [← List.singleton_append, stopOf_append, stopOf_append, stopOf_rparen rfl, h.stop]
    rfl

/-- What stands in front of a text, from a token on that is no parenthesis. -/
theorem led {t : Token} {before : List Token} (h : p.Covers us) (ht : t.lexeme ≠ .lparen)
    (hts : InOrder (t :: before ++ us)) : Covers ⟨t.span.start, p.stop⟩ (t :: before ++ us) := by
  have hstop : stopOf (t :: before ++ us) = some p.stop := by
    rw [stopOf_append, h.stop]
    rfl
  refine ⟨startOf_cons ht _, hstop, ?_⟩
  obtain ⟨u, hu, -, hup⟩ := exists_mem_of_startOf h.start
  have hbefore := (List.pairwise_append.mp hts.1).2.2 t List.mem_cons_self u hu
  have htoken := hts.2 t List.mem_cons_self
  have hnonempty := h.nonempty
  show t.span.start < p.stop
  omega

/-- The text from one place to another. -/
theorem join {mid : List Token} (hp : p.Covers ts) (hq : q.Covers us)
    (h : InOrder (ts ++ mid ++ us)) :
    (p.join q).Covers (ts ++ mid ++ us) := by
  have happart : p.stop ≤ q.start := by
    rw [List.append_assoc] at h
    exact hp.apart hq (h.sublist (.append_left (List.sublist_append_right mid us) ts))
  have hpne := hp.nonempty
  have hqne := hq.nonempty
  have hjoin : p.join q = ⟨p.start, q.stop⟩ := by
    rw [Span.join, min_eq_left (by omega), max_eq_right (by omega)]
  rw [hjoin]
  refine ⟨?_, ?_, by show p.start < q.stop; omega⟩
  · rw [List.append_assoc, startOf_append, hp.start]
    rfl
  · rw [stopOf_append, hq.stop]
    rfl

end Span.Covers

/-! ## Texts one after the other -/

section
variable {ts : List Token} {ps : List Span} {blocks : List (List Token)}

/-- Texts that follow one another within another lie inside it. -/
theorem inside_of_blocks {p : Span} (hp : p.Covers ts) (hts : InOrder ts)
    (h : List.Forall₂ Span.Covers ps blocks) (hsub : blocks.flatten.Sublist ts) :
    ∀ q ∈ ps, p.start ≤ q.start ∧ q.stop ≤ p.stop := by
  induction h with
  | nil => exact List.forall_mem_nil _
  | @cons q us ps blocks hq _ ih =>
    have hus : us.Sublist ts := (List.sublist_append_left us blocks.flatten).trans hsub
    have hblocks : blocks.flatten.Sublist ts :=
      (List.sublist_append_right us blocks.flatten).trans hsub
    exact List.forall_mem_cons.mpr ⟨hp.inside hq hus.subset hts, ih hblocks⟩

/-- Texts that follow one another have their places one after the other. -/
theorem apart_of_blocks (h : List.Forall₂ Span.Covers ps blocks) (hts : InOrder blocks.flatten) :
    ps.Pairwise fun p q => p.stop ≤ q.start := by
  induction h with
  | nil => exact .nil
  | @cons p us ps blocks hp hrest ih =>
    refine .cons ?_ (ih (hts.sublist (List.sublist_append_right us blocks.flatten)))
    intro q hq
    obtain ⟨i, hi⟩ := List.mem_iff_getElem?.mp hq
    obtain ⟨vs, hvs, hcovers⟩ := exists_getElem?_of_forall₂ hrest hi
    have hmem : vs.Sublist blocks.flatten := List.sublist_flatten_of_mem (List.mem_of_getElem? hvs)
    exact hp.apart hcovers (hts.sublist (hmem.append_left us))

end

end LambdaCalculus
