import LambdaCalculus.Proofs.Program.Cutting
import LambdaCalculus.Proofs.Program.Recognition

/-!
# The first mistake in a text

Whatever a reader has taken, a program can still come out of it: it only has to be given a name, the
signs that name is missing, and the parentheses that are open.  So the tokens that a reader takes are
exactly those that some program begins with, and the first that it refuses is the first that no
program goes on with.  A place where no token begins comes to light after all the tokens before it,
and the end of the text after all its tokens.

* `Grammar.Viable` — some program begins with the tokens.
* `canFinish` — a program can come out of every reader.
* `viable_iff` — the reader takes the tokens that some program begins with.
* `FirstMistake` — the fault of the first mistake in a text.
* `parse_eq_error_iff_firstMistake` — it is the one that is reported.
-/

namespace LambdaCalculus

/-- Some program begins with the tokens. -/
def Grammar.Viable (ts : List Token) : Prop :=
  ∃ (d : Grammar.Document) (rest : List Token), d.tokens = ts ++ rest

namespace Reader

/-! ## Readers that can come to an end -/

/-- A program can still come out of the reader. -/
def CanFinish (r : Reader) : Prop :=
  ∃ rest r' p, r.feedAll? rest = some r' ∧ r'.finish? = some p

theorem CanFinish.of_feed {r r' : Reader} {t : Token} (h : r'.CanFinish)
    (hfeed : r.feed? t = some r') : r.CanFinish := by
  obtain ⟨rest, s, p, hs, hp⟩ := h
  exact ⟨t :: rest, s, p, by rw [feedAll?_cons, hfeed, Option.bind_some, hs], hp⟩

/-- After an item, a term can end. -/
theorem exists_endsAt (complete : List Statement) (goal : Goal) (frames : List Frame) (e : Expr)
    (items : List Expr) :
    ∃ e', EndsAt ⟨complete, .term goal frames (e :: items)⟩ complete goal frames e' := by
  have hitems := Expr.ofItems?_reverse (mt List.reverse_eq_nil_iff.mp (List.cons_ne_nil e items))
  rw [List.reverse_reverse] at hitems
  exact ⟨_, frames, e :: items, _, rfl, hitems, rfl⟩

/-- At the end of a term only the parentheses that it stands inside are missing. -/
theorem EndsAt.canFinish {r : Reader} {complete : List Statement} {goal : Goal}
    {frames : List Frame} {e : Expr} (h : r.EndsAt complete goal frames e) : r.CanFinish := by
  induction frames generalizing r e with
  | nil =>
    exact ⟨[], r, _, rfl, finish?_of_endsStatement h.statement⟩
  | cons frame frames ih =>
    cases frame with
    | paren before =>
      obtain ⟨e', hends⟩ := exists_endsAt complete goal frames e before
      exact (ih hends).of_feed (h.feed?_rparen ⟨0, 0⟩)
    | lambda before start params =>
      -- the abstraction ends where its body does
      exact ih h

/-- A program can come out of every reader. -/
theorem canFinish (r : Reader) : r.CanFinish := by
  let name : Token := ⟨.name "x", ⟨0, 0⟩⟩
  let equals : Token := ⟨.equals, ⟨0, 0⟩⟩
  let dot : Token := ⟨.dot, ⟨0, 0⟩⟩
  have hterm (complete : List Statement) (goal : Goal) (frames : List Frame) (items : List Expr) :
      CanFinish ⟨complete, .term goal frames items⟩ := by
    obtain ⟨e, hends⟩ := exists_endsAt complete goal frames (.var name.span "x") items
    exact hends.canFinish.of_feed (t := name) rfl
  have hequals (complete : List Statement) (start : Int) (x : String) :
      CanFinish ⟨complete, .equals start x⟩ :=
    (hterm complete (.binding start x) [] []).of_feed (t := equals) rfl
  obtain ⟨complete, mode⟩ := r
  cases mode with
  | statement => exact (hterm complete .expression [] [.var name.span "x"]).of_feed (t := name) rfl
  | binder start => exact (hequals complete start "x").of_feed (t := name) rfl
  | equals start x => exact hequals complete start x
  | term goal frames items => exact hterm complete goal frames items
  | params goal frames items start names =>
    have hdot (x : String) (xs : List String) :
        CanFinish ⟨complete, .params goal frames items start (x :: xs)⟩ :=
      (hterm complete goal (.lambda items start (x :: xs) :: frames) []).of_feed (t := dot) rfl
    exact (hdot "x" names).of_feed (t := name) rfl

/-! ## Tokens that a program begins with -/

/-- The reader takes the tokens that some program begins with, and no others. -/
theorem viable_iff {ts : List Token} :
    Grammar.Viable ts ↔ ∃ r, feedAll? .start ts = some r := by
  constructor
  · rintro ⟨d, rest, hd⟩
    obtain ⟨r, hr, -⟩ := run_eq_ok_iff.mp (run_tokens "" d)
    rw [hd, feedAll?_append] at hr
    obtain ⟨s, hs, -⟩ := Option.bind_eq_some_iff.mp hr
    exact ⟨s, hs⟩
  · rintro ⟨r, hr⟩
    obtain ⟨rest, r', p, hr', hp⟩ := r.canFinish
    have hrun : run "" .start (ts ++ rest) none = .ok p :=
      run_eq_ok_iff.mpr ⟨r', by rw [feedAll?_append, hr, Option.bind_some, hr'], hp⟩
    obtain ⟨d, hd, -⟩ := exists_document_of_run hrun
    exact ⟨d, rest, hd⟩

theorem not_viable_snoc_iff {ts : List Token} {r : Reader} (h : feedAll? .start ts = some r)
    (t : Token) : ¬ Grammar.Viable (ts ++ [t]) ↔ r.feed? t = none := by
  rw [viable_iff, feedAll?_append, h, Option.bind_some, feedAll?_cons]
  cases r.feed? t <;> simp

/-- The reader can come to an end after the tokens of a program, and nowhere else. -/
theorem not_exists_document_iff {ts : List Token} {r : Reader} (h : feedAll? .start ts = some r) :
    (¬ ∃ d : Grammar.Document, d.tokens = ts) ↔ r.finish? = none := by
  rw [Option.eq_none_iff_forall_ne_some, ← not_exists, not_iff_not]
  constructor
  · rintro ⟨d, rfl⟩
    obtain ⟨r', hr', hp⟩ := run_eq_ok_iff.mp (run_tokens "" d)
    obtain rfl : r = r' := Option.some.inj (h.symm.trans hr')
    exact ⟨d.program, hp⟩
  · rintro ⟨p, hp⟩
    have hrun : run "" .start ts none = .ok p := run_eq_ok_iff.mpr ⟨r, h, hp⟩
    obtain ⟨d, hd, -⟩ := exists_document_of_run hrun
    exact ⟨d, hd⟩

/-! ## Faults -/

/-- The end of the text is a fault where no program can end. -/
theorem run_nil_eq_error_iff {source : String} {r : Reader} {fault : Fault} :
    run source r [] none = .error fault ↔ r.finish? = none ∧
      fault = .mistake .unexpectedEnd ⟨source.length, source.length⟩ source := by
  rw [run]
  cases r.finish? with
  | none =>
    constructor
    · rintro ⟨⟩
      exact ⟨rfl, rfl⟩
    · rintro ⟨-, rfl⟩
      rfl
  | some p =>
    constructor
    · rintro ⟨⟩
    · rintro ⟨h, -⟩
      cases h

/-- A reader stops at the first token that it does not take, or after all of them. -/
theorem run_eq_error_iff {source : String} {r : Reader} {ts : List Token} {fault? : Option Fault}
    {fault : Fault} : run source r ts fault? = .error fault ↔
      (∃ us t vs s, ts = us ++ t :: vs ∧ r.feedAll? us = some s ∧ s.feed? t = none ∧
        fault = .mistake .unexpectedToken t.span source) ∨
      (∃ s, r.feedAll? ts = some s ∧ run source s [] fault? = .error fault) := by
  constructor
  · intro h
    induction ts generalizing r with
    | nil => exact .inr ⟨r, rfl, h⟩
    | cons t ts ih =>
      rw [run] at h
      split at h
      · rename_i r' hr'
        rcases ih h with ⟨us, u, vs, s, rfl, hs, hu, hfault⟩ | ⟨s, hs, hfault⟩
        · exact .inl ⟨t :: us, u, vs, s, rfl, by rw [feedAll?_cons, hr', Option.bind_some, hs], hu,
            hfault⟩
        · exact .inr ⟨s, by rw [feedAll?_cons, hr', Option.bind_some, hs], hfault⟩
      · rename_i ht
        cases h
        exact .inl ⟨[], t, ts, r, rfl, rfl, ht, rfl⟩
  · rintro (⟨us, t, vs, s, rfl, hs, ht, rfl⟩ | ⟨s, hs, hfault⟩)
    · rw [run_append source hs, run, ht]
      rfl
    · rw [← List.append_nil ts, run_append source hs, hfault]

end Reader

/-! ## Texts -/

/-- The fault of the first mistake in the text: tokens are cut off it from the left, and some
program begins with those before the mistake. -/
inductive FirstMistake (source : String) : Fault → Prop where
  /-- Nothing that belongs in a program begins with the character at the offset. -/
  | unexpectedCharacter {ts : List Token} {here : Nat} {c : Char} {rest : List Char}
      (hcut : Cut 0 source.toList ts here (c :: rest)) (hviable : Grammar.Viable ts)
      (hscan : scan c rest = .mistake (.unexpectedCharacter c) 1) :
      FirstMistake source (.mistake (.unexpectedCharacter c) (spanOf here 1) source)
  /-- The literal at the offset escapes a character that has no escape. -/
  | unknownEscape {ts : List Token} {here : Nat} {c d : Char} {rest : List Char}
      (hcut : Cut 0 source.toList ts here (c :: rest)) (hviable : Grammar.Viable ts)
      (hscan : scan c rest = .mistake (.unknownEscape d) 4) :
      FirstMistake source (.mistake (.unknownEscape d) (spanOf here 4) source)
  /-- The number at the offset has too many digits. -/
  | longNumeral {ts : List Token} {here digits : Nat} {c : Char} {rest : List Char}
      (hcut : Cut 0 source.toList ts here (c :: rest)) (hviable : Grammar.Viable ts)
      (hscan : scan c rest = .longNumeral digits) :
      FirstMistake source (.longNumeral digits)
  /-- No program goes on with the token. -/
  | unexpectedToken {ts : List Token} {t : Token} {here : Nat} {rest : List Char}
      (hcut : Cut 0 source.toList (ts ++ [t]) here rest) (hviable : Grammar.Viable ts)
      (hrefused : ¬ Grammar.Viable (ts ++ [t])) :
      FirstMistake source (.mistake .unexpectedToken t.span source)
  /-- The text is at its end, and its tokens are not a program. -/
  | unexpectedEnd {ts : List Token} (hcut : Cut 0 source.toList ts source.length [])
      (hviable : Grammar.Viable ts) (hunfinished : ¬ ∃ d : Grammar.Document, d.tokens = ts) :
      FirstMistake source (.mistake .unexpectedEnd ⟨source.length, source.length⟩ source)

namespace FirstMistake

variable {source : String} {fault : Fault}

/-- A place where no token begins is the first mistake if some program begins with the tokens
before it. -/
theorem of_fault {ts : List Token} {here : Nat} {c : Char} {rest : List Char}
    (hcut : Cut 0 source.toList ts here (c :: rest)) (hviable : Grammar.Viable ts)
    (hfault : (scan c rest).fault? source here = some fault) : FirstMistake source fault := by
  cases hscan : scan c rest with
  | layout | token =>
    rw [hscan] at hfault
    cases hfault
  | mistake what width =>
    rw [hscan] at hfault
    cases hfault
    rcases scan_eq_mistake hscan with ⟨rfl, rfl⟩ | ⟨d, rfl, rfl⟩
    · exact .unexpectedCharacter hcut hviable hscan
    · exact .unknownEscape hcut hviable hscan
  | longNumeral digits =>
    rw [hscan] at hfault
    cases hfault
    exact .longNumeral hcut hviable hscan

/-- The first mistake is reported. -/
theorem parse_eq (h : FirstMistake source fault) : Program.parse source = .error fault := by
  have hfaulty {ts : List Token} {here : Nat} {c : Char} {rest : List Char} {fault : Fault}
      (hcut : Cut 0 source.toList ts here (c :: rest)) (hviable : Grammar.Viable ts)
      (hfault : (scan c rest).fault? source here = some fault) :
      Program.parse source = .error fault := by
    obtain ⟨r, hr⟩ := Reader.viable_iff.mp hviable
    rw [Program.parse, lex_of_cut_fault hcut hfault]
    exact Reader.run_eq_error_iff.mpr (.inr ⟨r, hr, rfl⟩)
  cases h with
  | unexpectedCharacter hcut hviable hscan => exact hfaulty hcut hviable (by rw [hscan]; rfl)
  | unknownEscape hcut hviable hscan => exact hfaulty hcut hviable (by rw [hscan]; rfl)
  | longNumeral hcut hviable hscan => exact hfaulty hcut hviable (by rw [hscan]; rfl)
  | @unexpectedToken ts t here rest hcut hviable hrefused =>
    obtain ⟨r, hr⟩ := Reader.viable_iff.mp hviable
    rw [Program.parse, lex_of_cut hcut, List.append_assoc]
    exact Reader.run_eq_error_iff.mpr
      (.inl ⟨ts, t, _, r, rfl, hr, (Reader.not_viable_snoc_iff hr t).mp hrefused, rfl⟩)
  | unexpectedEnd hcut hviable hunfinished =>
    obtain ⟨r, hr⟩ := Reader.viable_iff.mp hviable
    rw [Program.parse, lex_of_cut_nil hcut]
    refine Reader.run_eq_error_iff.mpr (.inr ⟨r, hr, ?_⟩)
    exact Reader.run_nil_eq_error_iff.mpr ⟨(Reader.not_exists_document_iff hr).mp hunfinished, rfl⟩

/-- What is reported is the first mistake. -/
theorem of_parse (h : Program.parse source = .error fault) : FirstMistake source fault := by
  obtain ⟨ts, there, left, hcut, hleft⟩ := exists_cut source 0 source.toList
  have hrun : Reader.run source .start (lex source).tokens (lex source).fault? = .error fault := h
  -- whether the text ends there or not, its tokens are those that were cut off
  have htokens : (lex source).tokens = ts := by
    rcases hleft with rfl | ⟨c, rest, fault', rfl, hfault'⟩
    · rw [lex_of_cut_nil hcut]
    · rw [lex_of_cut_fault hcut hfault']
  rw [htokens] at hrun
  rcases Reader.run_eq_error_iff.mp hrun with ⟨us, t, vs, r, rfl, hr, ht, rfl⟩ | ⟨r, hr, hend⟩
  · rw [← List.singleton_append, ← List.append_assoc] at hcut
    obtain ⟨here, rest, hcut⟩ := hcut.of_append
    exact .unexpectedToken hcut (Reader.viable_iff.mpr ⟨r, hr⟩)
      ((Reader.not_viable_snoc_iff hr t).mpr ht)
  have hviable : Grammar.Viable ts := Reader.viable_iff.mpr ⟨r, hr⟩
  rcases hleft with rfl | ⟨c, rest, fault', rfl, hfault'⟩
  · rw [lex_of_cut_nil hcut] at hend
    obtain ⟨hunfinished, rfl⟩ := Reader.run_nil_eq_error_iff.mp hend
    obtain rfl : there = source.length := by simpa [String.length_toList] using hcut.length
    exact .unexpectedEnd hcut hviable ((Reader.not_exists_document_iff hr).mpr hunfinished)
  · rw [lex_of_cut_fault hcut hfault'] at hend
    cases hend
    exact .of_fault hcut hviable hfault'

end FirstMistake

/-- **The first mistake in a text is the one that is reported**, and nothing else is. -/
theorem parse_eq_error_iff_firstMistake (source : String) (fault : Fault) :
    Program.parse source = .error fault ↔ FirstMistake source fault :=
  ⟨.of_parse, FirstMistake.parse_eq⟩

end LambdaCalculus
