import LambdaCalculus.Proofs.LetSequence
import LambdaCalculus.Proofs.Program.FirstMistake

/-!
# Why a text does not load

A text can fail to load in three ways.  There is a mistake in it, and then the first one is the
fault.  Its statements are not bindings and a last expression, and the fault lies at the statement
that is out of place.  Or its program is nested too deeply for the limit.  The other faults that a
tree can have do not come up: a tree that was read has its parameters and items, and its literals
are natural numbers and single characters.

A program can answer for all of these but one, a number that is written with too many digits; what is
said of that is not said as an error of the program.

* `Expr.Means.meaningWithin_eq` — the only fault of an expression that was read is its depth.
* `Program.Unmeant` — why a program that was read has no meaning.
* `LoadFault` — why a text does not load, and where the fault lies.
* `loadFault_of_load` — there is no other fault.
* `LoadFault.reported_or` — all of them are reported but one.
-/

namespace LambdaCalculus

/-! ## Expressions -/

section
variable {room : Nat} {fault : Fault}

theorem Expr.applyMeanings_eq_error
    (hitem : ∀ {e : Expr} {fault : Fault}, e.meaningWithin room = .error fault → fault.IsLimit →
      fault = .tooDeep)
    {f : Term} {es : List Expr} (h : applyMeanings room f es = .error fault)
    (hlimit : fault.IsLimit) : fault = .tooDeep := by
  induction es generalizing f with
  | nil => cases h
  | cons e es ih =>
    rw [applyMeanings] at h
    rcases bind_eq_error.mp h with he | ⟨a, -, hrest⟩
    · exact hitem he hlimit
    · exact ih hrest

/-- The limit that an expression can meet is the limit on nesting. -/
theorem Expr.meaningWithin_eq_error {e : Expr} (h : e.meaningWithin room = .error fault)
    (hlimit : fault.IsLimit) : fault = .tooDeep := by
  induction room generalizing e fault with
  | zero =>
    rw [meaningWithin] at h
    cases h
    rfl
  | succ room ih =>
    cases e with
    | var place x => cases h
    | number place n =>
      rw [meaningWithin, Term.ofInt] at h
      split at h
      · cases h
        exact hlimit.elim
      · cases h
    | character place text =>
      rw [meaningWithin, Term.ofText] at h
      split at h
      · cases h
      · cases h
        exact hlimit.elim
    | lam place params body =>
      cases params with
      | nil =>
        cases h
        exact hlimit.elim
      | cons p ps =>
        rcases bind_eq_error.mp h with hbody | ⟨b, -, hb⟩
        · exact ih hbody hlimit
        · cases hb
    | app place items =>
      cases items with
      | nil =>
        cases h
        exact hlimit.elim
      | cons head rest =>
        rcases bind_eq_error.mp h with hhead | ⟨f, -, hrest⟩
        · exact ih hhead hlimit
        · exact applyMeanings_eq_error ih hrest hlimit

/-- An expression that was read means what it means, unless it is too deep. -/
theorem Expr.Means.meaningWithin_eq {e : Expr} {t : Term} (h : e.Means t) (room : Nat) :
    e.meaningWithin room = .ok t ∨ e.meaningWithin room = .error .tooDeep := by
  rcases h.limited room with hok | ⟨fault, herror, hlimit⟩
  · exact .inl hok
  · rw [Expr.meaningWithin_eq_error herror hlimit] at herror
    exact .inr herror

end

/-! ## Programs -/

/-- Why a program that was read has no meaning: the last statement is a binding, an expression is not
the last statement, or the program is too deep. -/
inductive Program.Unmeant (p : Program) : Fault → Prop where
  /-- There is no statement. -/
  | noStatements (h : p.statements = []) : Unmeant p (.malformed .noStatements none none)
  /-- The last statement is a binding, at this place. -/
  | endsInBinding {place : Span} {x : String} {e : Expr}
      (h : p.statements.getLast? = some (.binding place x e)) :
      Unmeant p (.malformed .endsInBinding (some place) none)
  /-- A statement before the last is an expression, at this place. -/
  | earlyExpression {place : Span} {e : Expr} (h : .expression place e ∈ p.statements.dropLast) :
      Unmeant p (.malformed .earlyExpression (some place) none)
  /-- An expression is too deep. -/
  | tooDeep : Unmeant p (.exhausted .desugaring)

/-- Bindings can be put in front of a term unless one is too deep, or an expression stands among
them. -/
theorem bindAll_eq_error {limit : Nat} {result : Term} {ss : List Statement} {fault : Fault}
    (hread : ∀ s ∈ ss, s.IsRead) (h : bindAll limit result ss = .error fault) :
    fault = .tooDeep ∨ ∃ place e, .expression place e ∈ ss ∧
      fault = .malformed .earlyExpression (some place) none := by
  induction ss generalizing result with
  | nil => cases h
  | cons s ss ih =>
    obtain ⟨hs, hrest⟩ := List.forall_mem_cons.mp hread
    cases s with
    | expression place e =>
      cases h
      exact .inr ⟨place, e, List.mem_cons_self .., rfl⟩
    | binding place x e =>
      obtain ⟨v, hv⟩ := hs.binds
      obtain ⟨place', e', hbinding, he⟩ := hv.means
      cases hbinding
      rw [bindAll] at h
      rcases he.meaningWithin_eq limit with hmeaning | hmeaning
      · rw [hmeaning, ok_bind] at h
        rcases ih hrest h with hdeep | ⟨place', e', hmem, hfault⟩
        · exact .inl hdeep
        · exact .inr ⟨place', e', List.mem_cons_of_mem _ hmem, hfault⟩
      · rw [hmeaning] at h
        cases h
        exact .inl rfl

theorem Program.unmeant_of_meaning {limit : Nat} {p : Program} {fault : Fault}
    (hread : ∀ s ∈ p.statements, s.IsRead) (h : p.meaning limit = .error fault) :
    p.Unmeant fault := by
  unfold meaning at h
  split at h
  · rename_i hnil
    cases h
    exact .noStatements (List.reverse_eq_nil_iff.mp hnil)
  · rename_i place x e before hlast
    cases h
    apply Unmeant.endsInBinding (x := x) (e := e)
    rw [List.getLast?_eq_head?_reverse, hlast, List.head?_cons]
  · rename_i place body before hlast
    have hbefore : p.statements = before.reverse ++ [.expression place body] := by
      rw [← List.reverse_reverse p.statements, hlast, List.reverse_cons]
    rw [hbefore] at hread
    obtain ⟨hstatements, hbody⟩ := List.forall_mem_append.mp hread
    obtain ⟨t, -, ht⟩ := (List.forall_mem_singleton.mp hbody).means
    obtain ⟨cause, hcause, rfl⟩ := mapError_eq_error.mp h
    rcases ht.meaningWithin_eq limit with hmeaning | hmeaning
    · rw [hmeaning, ok_bind] at hcause
      have hreverse : ∀ s ∈ before, s.IsRead :=
        fun s hs => hstatements s (List.mem_reverse.mpr hs)
      rcases bindAll_eq_error hreverse hcause with rfl | ⟨place', e', hmem, rfl⟩
      · exact .tooDeep
      · apply Unmeant.earlyExpression (e := e')
        rw [hbefore, List.dropLast_concat]
        exact List.mem_reverse.mpr hmem
    · rw [hmeaning] at hcause
      cases hcause
      exact .tooDeep

/-! ## Texts -/

/-- Why a text does not load. -/
inductive LoadFault (source : String) : Fault → Prop where
  /-- The text has a mistake, and this is the first. -/
  | mistake {fault : Fault} (h : FirstMistake source fault) : LoadFault source fault
  /-- The last statement is a binding. -/
  | endsInBinding {p : Program} {place : Span} {x : String} {e : Expr}
      (hp : Program.parse source = .ok p)
      (h : p.statements.getLast? = some (.binding place x e)) :
      LoadFault source (.malformed .endsInBinding (some place) (some source))
  /-- A statement before the last is an expression. -/
  | earlyExpression {p : Program} {place : Span} {e : Expr} (hp : Program.parse source = .ok p)
      (h : .expression place e ∈ p.statements.dropLast) :
      LoadFault source (.malformed .earlyExpression (some place) (some source))
  /-- The program is nested too deeply to be given a meaning. -/
  | tooDeepToMean : LoadFault source (.exhausted .desugaring)
  /-- What it means is nested too deeply for its names to be resolved. -/
  | tooDeepToResolve : LoadFault source (.exhausted .nameResolution)

/-- A text that is read has a statement. -/
theorem statements_ne_nil_of_parse {source : String} {p : Program}
    (h : Program.parse source = .ok p) : p.statements ≠ [] := by
  obtain ⟨d, -, rfl⟩ := exists_document_of_parse h
  have hclauses (cs : Grammar.Clauses) : cs.statements ≠ [] := by
    cases cs <;> simp [Grammar.Clauses.statements]
  cases d with
  | plain cs => exact hclauses cs
  | trailing cs semicolon => exact hclauses cs

/-- The standard definitions are bindings, so what is out of place is a statement of the text. -/
theorem loadFault_of_unmeant {source : String} {standard : Bool} {p : Program} {fault : Fault}
    (hp : Program.parse source = .ok p)
    (h : (if standard then p.withStandard else p).Unmeant fault) :
    LoadFault source (fault.withSource source) := by
  have hown := statements_ne_nil_of_parse hp
  cases h with
  | noStatements h =>
    rw [statements_withStandard] at h
    exact absurd (List.append_eq_nil_iff.mp h).2 hown
  | endsInBinding h =>
    rw [statements_withStandard, List.getLast?_append_of_ne_nil _ hown] at h
    exact .endsInBinding hp h
  | earlyExpression h =>
    rw [statements_withStandard, List.dropLast_append_of_ne_nil hown] at h
    rcases List.mem_append.mp h with h | h
    · obtain ⟨_, _, _, hbinding⟩ := binding_of_mem_standardIn standard _ h
      cases hbinding
    · exact .earlyExpression hp h
  | tooDeep => exact .tooDeepToMean

/-- There is no other reason why a text does not load. -/
theorem loadFault_of_load {limit : Nat} {standard : Bool} {source : String} {fault : Fault}
    (h : load limit standard source = .error fault) : LoadFault source fault := by
  rcases bind_eq_error.mp h with hparse | ⟨p, hp, hterm⟩
  · exact .mistake (.of_parse hparse)
  rcases bind_eq_error.mp hterm with hmeaning | ⟨named, -, hresolved⟩
  · obtain ⟨cause, hcause, rfl⟩ := mapError_eq_error.mp hmeaning
    exact loadFault_of_unmeant hp (Program.unmeant_of_meaning (isRead_of_term hp standard) hcause)
  · rw [Term.resolved_eq] at hresolved
    split at hresolved
    · cases hresolved
    · cases hresolved
      exact .tooDeepToResolve

/-- The first mistake in a text is reported whatever the limit, and before any other fault. -/
theorem FirstMistake.load_eq {source : String} {fault : Fault} (h : FirstMistake source fault)
    (limit : Nat) (standard : Bool) : load limit standard source = .error fault := by
  rw [load, h.parse_eq]
  rfl

/-! ## Faults that are reported -/

theorem maxDigits_lt_of_scan {c : Char} {rest : List Char} {digits : Nat}
    (h : scan c rest = .longNumeral digits) : maxDigits < digits := by
  unfold scan at h
  split at h
  · cases h
  split at h
  · cases h
  split at h
  · unfold scanQuoted at h
    split at h
    · split at h
      · cases h
      · split at h <;> cases h
    · split at h <;> cases h
    · cases h
  split at h
  · unfold scanNumber at h
    split at h
    · rename_i hdigits
      cases h
      exact hdigits
    · cases h
  split at h
  · cases h
  · split at h <;> cases h

/-- A mistake is reported, unless it is a number of too many digits. -/
theorem FirstMistake.reported_or {source : String} {fault : Fault} (h : FirstMistake source fault) :
    fault.reported = true ∨ ∃ digits, fault = .longNumeral digits ∧ maxDigits < digits := by
  cases h with
  | longNumeral hcut hviable hscan => exact .inr ⟨_, rfl, maxDigits_lt_of_scan hscan⟩
  | unexpectedCharacter | unknownEscape | unexpectedToken | unexpectedEnd => exact .inl rfl

/-- What keeps a text from loading is reported, unless it is a number of too many digits. -/
theorem LoadFault.reported_or {source : String} {fault : Fault} (h : LoadFault source fault) :
    fault.reported = true ∨
      ∃ digits, fault = .longNumeral digits ∧ maxDigits < digits ∧ FirstMistake source fault := by
  cases h with
  | mistake h =>
    rcases h.reported_or with hreported | ⟨digits, rfl, hdigits⟩
    · exact .inl hreported
    · exact .inr ⟨digits, rfl, hdigits, h⟩
  | endsInBinding | earlyExpression | tooDeepToMean | tooDeepToResolve => exact .inl rfl

/-- There is a wording for whatever keeps a text from loading. -/
theorem LoadFault.exists_message {source : String} {fault : Fault} (h : LoadFault source fault) :
    ∃ message, fault.message? = some message := by
  cases h with
  | mistake h => cases h <;> exact ⟨_, rfl⟩
  | endsInBinding | earlyExpression | tooDeepToMean | tooDeepToResolve => exact ⟨_, rfl⟩

/-- A number of too many digits at the beginning of a text is its first mistake. -/
theorem firstMistake_of_digits {source : String} {c : Char} {word rest : List Char}
    (hsource : source.toList = c :: word ++ rest)
    (hdigits : ∀ d ∈ c :: word, Text.isDigit d = true) (hrest : StopsAt Text.isDigit rest)
    (hlong : maxDigits < (c :: word).length) :
    FirstMistake source (.longNumeral (c :: word).length) := by
  have hcut : Cut 0 source.toList [] 0 (c :: (word ++ rest)) := by
    rw [hsource]
    exact .done 0 _
  have hscan : scan c (word ++ rest) = .longNumeral (c :: word).length := by
    rw [scan_digits hdigits hrest, scanNumber, if_pos hlong]
  exact .longNumeral hcut (Reader.viable_iff.mpr ⟨.start, rfl⟩) hscan

end LambdaCalculus
