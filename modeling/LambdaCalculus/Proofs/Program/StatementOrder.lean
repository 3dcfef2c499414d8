import LambdaCalculus.Proofs.Program.Faults

/-!
# Statements out of order

Bindings come first in a program and an expression comes last.  A program is given its meaning from
the last statement back to the first, so when statements are out of order it is the one nearest to
the end that is reported: the last statement where it is a binding, and else the last expression that
stands before it.  What stands in front of a program plays no part in this, so it is always a
statement of the text that is reported, at its place in the text, also when the standard definitions
come before all of them.

* `Misplaced` — what is wrong with the order of the statements, and the place that is reported.
* `exists_misplaced_iff` — something is wrong exactly if the last statement is a binding or an
  earlier one is an expression.
* `Misplaced.settles_meaning` — what is wrong is found when the program is given its meaning.
* `load_malformed_iff_out_of_order` — a text that is read is malformed for no other reason.
-/

namespace LambdaCalculus

/-- Is the statement a binding? -/
def Statement.isBinding : Statement → Bool
  | .binding _ _ _ => true
  | .expression _ _ => false

theorem Statement.isBinding_iff {s : Statement} :
    s.isBinding = true ↔ ∃ place x e, s = .binding place x e := by
  cases s <;> simp [isBinding]

theorem Statement.not_isBinding_iff {s : Statement} :
    s.isBinding = false ↔ ∃ place e, s = .expression place e := by
  cases s <;> simp [isBinding]

/-- What is wrong with the order of the statements, and the place that is reported. -/
inductive Misplaced : List Statement → Malformation → Span → Prop where
  /-- The last statement is a binding. -/
  | endsInBinding (before : List Statement) {s : Statement} (hs : s.isBinding = true) :
      Misplaced (before ++ [s]) .endsInBinding s.span
  /-- The last statement is not, and this is the last expression before it. -/
  | earlyExpression (before : List Statement) {s last : Statement} {bindings : List Statement}
      (hs : s.isBinding = false) (hbindings : ∀ b ∈ bindings, b.isBinding = true)
      (hlast : last.isBinding = false) :
      Misplaced (before ++ s :: bindings ++ [last]) .earlyExpression s.span

/-! ## Order -/

/-- Statements are bindings from the last expression among them on. -/
theorem forall_isBinding_or (ss : List Statement) :
    (∀ s ∈ ss, s.isBinding = true) ∨ ∃ before s bindings, ss = before ++ s :: bindings ∧
      s.isBinding = false ∧ ∀ b ∈ bindings, b.isBinding = true := by
  induction ss with
  | nil => exact .inl (List.forall_mem_nil _)
  | cons s ss ih =>
    rcases ih with hall | ⟨before, s', bindings, rfl, hs', hbindings⟩
    · by_cases hs : s.isBinding = true
      · exact .inl (List.forall_mem_cons.mpr ⟨hs, hall⟩)
      · exact .inr ⟨[], s, ss, rfl, Bool.eq_false_iff.mpr hs, hall⟩
    · exact .inr ⟨s :: before, s', bindings, rfl, hs', hbindings⟩

/-- Statements are in order, or one of them is misplaced. -/
theorem exists_misplaced_or {ss : List Statement} (hss : ss ≠ []) :
    (∃ what place, Misplaced ss what place) ∨ ∃ bindings last, ss = bindings ++ [last] ∧
      (∀ b ∈ bindings, b.isBinding = true) ∧ last.isBinding = false := by
  obtain ⟨before, last, rfl⟩ := (List.eq_nil_or_concat' ss).resolve_left hss
  by_cases hlast : last.isBinding = true
  · exact .inl ⟨_, _, .endsInBinding before hlast⟩
  rw [Bool.not_eq_true] at hlast
  rcases forall_isBinding_or before with hall | ⟨first, s, bindings, rfl, hs, hbindings⟩
  · exact .inr ⟨before, last, rfl, hall, hlast⟩
  · exact .inl ⟨_, _, .earlyExpression first hs hbindings hlast⟩

/-- Some statement is misplaced exactly if the last one is a binding or an earlier one is not. -/
theorem exists_misplaced_iff {ss : List Statement} :
    (∃ what place, Misplaced ss what place) ↔
      (∃ s, ss.getLast? = some s ∧ s.isBinding = true) ∨
        ∃ s ∈ ss.dropLast, s.isBinding = false := by
  constructor
  · rintro ⟨what, place, h⟩
    cases h with
    | endsInBinding before hs => exact .inl ⟨_, List.getLast?_concat, hs⟩
    | earlyExpression before hs hbindings hlast =>
      refine .inr ⟨_, ?_, hs⟩
      rw [List.dropLast_concat]
      simp
  · intro h
    have hss : ss ≠ [] := by
      rintro rfl
      simp at h
    refine (exists_misplaced_or hss).resolve_right ?_
    rintro ⟨bindings, last, rfl, hbindings, hlast⟩
    rw [List.getLast?_concat, List.dropLast_concat] at h
    rcases h with ⟨s, hs, hbinding⟩ | ⟨s, hs, hexpression⟩
    · cases hs
      rw [hlast] at hbinding
      cases hbinding
    · rw [hbindings s hs] at hexpression
      cases hexpression

namespace Misplaced

variable {ss : List Statement} {what : Malformation} {place : Span}

/-- What stands in front of statements does not change what is wrong with their order. -/
theorem prepend (h : Misplaced ss what place) (front : List Statement) :
    Misplaced (front ++ ss) what place := by
  cases h with
  | endsInBinding before hs =>
    rw [← List.append_assoc]
    exact .endsInBinding (front ++ before) hs
  | earlyExpression before hs hbindings hlast =>
    rw [← List.append_assoc, ← List.append_assoc]
    exact .earlyExpression (front ++ before) hs hbindings hlast

/-! ## The fault -/

/-- An expression that stands before the last statement keeps the last one from being put in the
sight of the statements before it. -/
theorem settles_bindAll {before bindings : List Statement} {s : Statement}
    (hread : ∀ b ∈ bindings, b.IsRead) (hs : s.isBinding = false)
    (hbindings : ∀ b ∈ bindings, b.isBinding = true) (body : Term) :
    Settles (fun limit => bindAll limit body (before ++ s :: bindings).reverse)
      (.error (.malformed .earlyExpression (some s.span) none)) := by
  obtain ⟨place, e, rfl⟩ := Statement.not_isBinding_iff.mp hs
  obtain ⟨lets, hlets⟩ :=
    exists_binds hread fun b hb => Statement.isBinding_iff.mp (hbindings b hb)
  simp only [List.reverse_append, List.reverse_cons, List.append_assoc, bindAll_append]
  exact (LambdaCalculus.settles_bindAll hlets body).bind (.const _)

/-- What is wrong with the order of statements that were read is found when they are given their
meaning. -/
theorem settles_meaning {p : Program} (h : Misplaced p.statements what place)
    (hread : ∀ s ∈ p.statements, s.IsRead) :
    Settles (fun limit => p.meaning limit) (.error (.malformed what (some place) none)) := by
  generalize hstatements : p.statements = ss at h
  rw [hstatements] at hread
  cases h with
  | endsInBinding before hs =>
    obtain ⟨place, x, e, rfl⟩ := Statement.isBinding_iff.mp hs
    have hmeaning (limit : Nat) : p.meaning limit =
        .error (.malformed .endsInBinding (some place) none) := by
      rw [Program.meaning, hstatements, List.reverse_concat]
      rfl
    simp only [hmeaning]
    exact .const _
  | @earlyExpression before s last bindings hs hbindings hlast =>
    obtain ⟨place, e, rfl⟩ := Statement.not_isBinding_iff.mp hlast
    have hmeaning (limit : Nat) : p.meaning limit =
        (e.meaningWithin limit >>= fun result =>
          bindAll limit result (before ++ s :: bindings).reverse).mapError
            (Fault.during .desugaring) := by
      rw [Program.meaning, hstatements, List.reverse_concat]
    obtain ⟨hbefore, hlastRead⟩ := List.forall_mem_append.mp hread
    obtain ⟨t, -, ht⟩ := (List.forall_mem_singleton.mp hlastRead).means
    have hbindingsRead : ∀ b ∈ bindings, b.IsRead := fun b hb => hbefore b (by simp [hb])
    simp only [hmeaning]
    have hall : Settles
        (fun limit => e.meaningWithin limit >>= fun result =>
          bindAll limit result (before ++ s :: bindings).reverse)
        (.error (.malformed .earlyExpression (some s.span) none)) :=
      ht.bind (settles_bindAll hbindingsRead hs hbindings t)
    exact hall.mapError fun _ hfault => hfault.during _

/-- It is reported at its place in the text, whether or not the standard definitions come first. -/
theorem settles_load {source : String} {p : Program} (h : Misplaced p.statements what place)
    (hp : Program.parse source = .ok p) (standard : Bool) :
    Settles (fun limit => load limit standard source)
      (.error (.malformed what (some place) (some source))) := by
  have hload (limit : Nat) : load limit standard source =
      ((if standard then p.withStandard else p).meaning limit).mapError (Fault.withSource source) >>=
        fun named => named.resolved limit := by
    rw [load, hp, ok_bind]
    rfl
  have hmisplaced : Misplaced (if standard then p.withStandard else p).statements what place := by
    rw [statements_withStandard]
    exact h.prepend _
  have hmeaning := (hmisplaced.settles_meaning (isRead_of_term hp standard)).mapError
    fun _ hfault => hfault.withSource source
  simp only [hload]
  exact hmeaning.bind_error _

end Misplaced

/-- Statements that are in order load. -/
theorem exists_settles_load {source : String} {p : Program} {bindings : List Statement}
    {last : Statement} (hp : Program.parse source = .ok p)
    (hstatements : p.statements = bindings ++ [last])
    (hbindings : ∀ b ∈ bindings, b.isBinding = true) (hlast : last.isBinding = false)
    (standard : Bool) : ∃ t, Settles (fun limit => load limit standard source) (.ok t) := by
  obtain ⟨place, e, rfl⟩ := Statement.not_isBinding_iff.mp hlast
  have hall : (if standard then p.withStandard else p).statements =
      standardIn standard ++ bindings ++ [.expression place e] := by
    rw [statements_withStandard, hstatements, List.append_assoc]
  have hfirst : ∀ s ∈ standardIn standard ++ bindings, ∃ place x e, s = .binding place x e :=
    List.forall_mem_append.mpr ⟨binding_of_mem_standardIn standard,
      fun b hb => Statement.isBinding_iff.mp (hbindings b hb)⟩
  obtain ⟨lets, body, hmeans⟩ := Program.exists_means (isRead_of_term hp standard) hall hfirst
  exact ⟨_, hmeans.settles_load hp⟩

/-- Applications without items and abstractions without parameters are not met in a program that was
read. -/
theorem malformation_of_parse {source : String} {p : Program} (hp : Program.parse source = .ok p)
    {limit : Nat} {standard : Bool} {what : Malformation} {place : Option Span}
    {text : Option String}
    (h : p.meaning limit = .error (.malformed what place text) ∨
      load limit standard source = .error (.malformed what place text)) :
    what ≠ .emptyApplication ∧ what ≠ .noParameters := by
  rcases h with h | h
  · cases Program.unmeant_of_meaning (isRead_of_parse hp) h <;> simp
  · cases loadFault_of_load h with
    | mistake hmistake => cases hmistake
    | endsInBinding | earlyExpression => simp

/-- A text that is read is malformed exactly if its last statement is a binding or an earlier one is
an expression, with the standard definitions before it or without.  Then the fault is in that text:
at the last statement where that is a binding, and otherwise at the last expression before it.  In
all other cases the text loads.  Applications without items and abstractions without parameters are
never met. -/
theorem load_malformed_iff_out_of_order {source : String} {p : Program}
    (hp : Program.parse source = .ok p) (standard : Bool) :
    (∃ r, Settles (fun limit => load limit standard source) r ∧
      ((∃ what place text, r = .error (.malformed what place text)) ↔
        (∃ s, p.statements.getLast? = some s ∧ s.isBinding = true) ∨
          ∃ s ∈ p.statements.dropLast, s.isBinding = false) ∧
      (∀ what place text, r = .error (.malformed what place text) ↔
        text = some source ∧ ∃ span, place = some span ∧ Misplaced p.statements what span) ∧
      ((∃ what place text, r = .error (.malformed what place text)) ∨ ∃ t, r = .ok t)) ∧
    ∀ limit what place text,
      p.meaning limit = .error (.malformed what place text) ∨
        load limit standard source = .error (.malformed what place text) →
      what ≠ .emptyApplication ∧ what ≠ .noParameters := by
  constructor
  · rcases exists_misplaced_or (statements_ne_nil_of_parse hp) with
      ⟨what, place, h⟩ | ⟨bindings, last, hstatements, hbindings, hlast⟩
    · have hload := h.settles_load hp standard
      refine ⟨_, hload, ?_, ?_, .inl ⟨_, _, _, rfl⟩⟩
      · exact iff_of_true ⟨_, _, _, rfl⟩ (exists_misplaced_iff.mp ⟨what, place, h⟩)
      · intro what' place' text
        constructor
        · rintro ⟨⟩
          exact ⟨rfl, place, rfl, h⟩
        · rintro ⟨rfl, span, rfl, h'⟩
          exact hload.unique (h'.settles_load hp standard)
    · obtain ⟨t, ht⟩ := exists_settles_load hp hstatements hbindings hlast standard
      have hordered : ¬ ∃ what place, Misplaced p.statements what place := by
        rintro ⟨what, place, h⟩
        cases ht.unique (h.settles_load hp standard)
      refine ⟨_, ht, ?_, ?_, .inr ⟨t, rfl⟩⟩
      · refine iff_of_false ?_ (exists_misplaced_iff.not.mp hordered)
        rintro ⟨what, place, text, ⟨⟩⟩
      · intro what place text
        refine iff_of_false ?_ ?_
        · rintro ⟨⟩
        · rintro ⟨-, span, -, h⟩
          exact hordered ⟨what, span, h⟩
  · exact fun _ _ _ _ => malformation_of_parse hp

/-- In `x; let a = y; z; let b = w; v` two expressions stand too early, and the second is reported,
at its place in that text and not in that of the standard definitions. -/
theorem load_malformed_second_expression :
    ∃ p, Program.parse "x; let a = y; z; let b = w; v" = .ok p ∧
      (∃ s ∈ p.statements.dropLast, s.isBinding = false) ∧
      Misplaced p.statements .earlyExpression ⟨14, 15⟩ ∧
      Settles (fun limit => load limit true "x; let a = y; z; let b = w; v")
        (.error (.malformed .earlyExpression (some ⟨14, 15⟩)
          (some "x; let a = y; z; let b = w; v"))) := by
  have hp : Program.parse "x; let a = y; z; let b = w; v" = .ok
      ⟨[.expression ⟨0, 1⟩ (.app ⟨0, 1⟩ [.var ⟨0, 1⟩ "x"]),
        .binding ⟨3, 12⟩ "a" (.app ⟨11, 12⟩ [.var ⟨11, 12⟩ "y"]),
        .expression ⟨14, 15⟩ (.app ⟨14, 15⟩ [.var ⟨14, 15⟩ "z"]),
        .binding ⟨17, 26⟩ "b" (.app ⟨25, 26⟩ [.var ⟨25, 26⟩ "w"]),
        .expression ⟨28, 29⟩ (.app ⟨28, 29⟩ [.var ⟨28, 29⟩ "v"])]⟩ := by
    unfold Program.parse lex
    rw [String.toList_ofList]
    rfl
  have hmisplaced := @Misplaced.earlyExpression
    [.expression ⟨0, 1⟩ (.app ⟨0, 1⟩ [.var ⟨0, 1⟩ "x"]),
      .binding ⟨3, 12⟩ "a" (.app ⟨11, 12⟩ [.var ⟨11, 12⟩ "y"])]
    (.expression ⟨14, 15⟩ (.app ⟨14, 15⟩ [.var ⟨14, 15⟩ "z"]))
    (.expression ⟨28, 29⟩ (.app ⟨28, 29⟩ [.var ⟨28, 29⟩ "v"]))
    [.binding ⟨17, 26⟩ "b" (.app ⟨25, 26⟩ [.var ⟨25, 26⟩ "w"])]
    rfl (List.forall_mem_singleton.mpr rfl) rfl
  obtain ⟨⟨r, hr, -, hfault, -⟩, -⟩ := load_malformed_iff_out_of_order hp true
  have hreported := (hfault _ _ _).mpr ⟨rfl, _, rfl, hmisplaced⟩
  rw [hreported] at hr
  exact ⟨_, hp, ⟨_, List.mem_cons_self .., rfl⟩, hmisplaced, hr⟩

end LambdaCalculus
