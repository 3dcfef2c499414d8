import LambdaCalculus.Proofs.Program.Loading

/-!
# The standard definitions

The standard definitions are read from their text once and for all.

* `standardLets` — what they mean, in the order of the text.
* `binds_standardBindings` — the statements of the text are bindings, and mean that.
* `Standard.succ`, `Standard.pred`, … — the values that come of some of them.
* `valueIn_standard_apps` — a standard name that is applied stands for its value.
-/

namespace LambdaCalculus

/-- The binding that a statement is, with room for so many levels. -/
def Statement.binding? (room : Nat) : Statement → Option (String × Term)
  | .binding _ x e => (e.meaningWithin room).toOption.map (x, ·)
  | .expression .. => none

/-- What the standard definitions mean. -/
def standardLets : List (String × Term) := standardBindings.filterMap (Statement.binding? 20)

/-- What is computed from the statements of a text is computed from the program in it. -/
theorem eq_of_statementsOf {α : Type} {f : List Statement → α} {a : α} {source : String}
    (h : (Program.parse source).toOption.map (fun p => f p.statements) = some a) :
    f (Program.statementsOf source) = a := by
  unfold Program.statementsOf
  cases hp : Program.parse source with
  | error fault =>
    rw [hp] at h
    cases h
  | ok p =>
    rw [hp] at h
    exact Option.some.inj h

theorem isSome_binding?_standard :
    ∀ s ∈ standardBindings, (Statement.binding? 20 s).isSome = true := by
  have hall := @eq_of_statementsOf _ (List.all · fun s => (Statement.binding? 20 s).isSome) true
    standardText
  refine List.all_eq_true.mp (hall ?_)
  unfold Program.parse lex standardText
  rw [String.toList_ofList]
  decide +kernel

theorem binding_of_mem_standardBindings :
    ∀ s ∈ standardBindings, ∃ place x e, s = .binding place x e := by
  intro s hs
  have h := isSome_binding?_standard s hs
  cases s with
  | binding place x e => exact ⟨place, x, e, rfl⟩
  | expression place e => cases h

/-- An answer within some room says what a binding means. -/
theorem Statement.Binds.binding?_eq {s : Statement} {b : String × Term} (h : s.Binds b) {room : Nat}
    (hsome : (s.binding? room).isSome = true) : s.binding? room = some b := by
  obtain ⟨place, e, rfl, he⟩ := h.means
  cases hmeaning : e.meaningWithin room with
  | error fault =>
    rw [binding?, hmeaning] at hsome
    cases hsome
  | ok v =>
    cases he.eq_of_ok hmeaning
    rw [binding?, hmeaning]
    rfl

/-- The statements of the standard definitions are bindings that mean those terms. -/
theorem binds_standardBindings : List.Forall₂ Statement.Binds standardBindings standardLets := by
  obtain ⟨lets, hlets⟩ := exists_binds isRead_of_mem_standardBindings binding_of_mem_standardBindings
  have hsome := isSome_binding?_standard
  suffices heq : lets = standardLets from heq ▸ hlets
  unfold standardLets
  generalize standardBindings = bindings at hlets hsome
  induction hlets with
  | nil => rfl
  | cons hs _ ih =>
    obtain ⟨hfirst, hrest⟩ := List.forall_mem_cons.mp hsome
    rw [List.filterMap_cons_some (hs.binding?_eq hfirst), ← ih hrest]

/-! ## Values -/

namespace Standard

open Term

/-- `λt f. t` -/
def truth : Term := lams (bound 1 "t") ["t", "f"]

/-- `λt f. f` -/
def falsity : Term := lams (bound 0 "f") ["t", "f"]

/-- `λp a b. p a b` -/
def choice : Term := lams (apps (bound 2 "p") [bound 1 "a", bound 0 "b"]) ["p", "a", "b"]

/-- `λn f x. f (n f x)` -/
def succ : Term :=
  lams (app (bound 1 "f") (apps (bound 2 "n") [bound 1 "f", bound 0 "x"])) ["n", "f", "x"]

/-- `λm n f x. m f (n f x)` -/
def add : Term :=
  lams (apps (bound 3 "m") [bound 1 "f", apps (bound 2 "n") [bound 1 "f", bound 0 "x"]])
    ["m", "n", "f", "x"]

/-- `λm n f. m (n f)` -/
def mul : Term := lams (app (bound 2 "m") (app (bound 1 "n") (bound 0 "f"))) ["m", "n", "f"]

/-- `λn f x. n (λg h. h (g f)) (λu. x) (λu. u)` -/
def pred : Term :=
  lams (apps (bound 2 "n") [lams (app (bound 0 "h") (app (bound 1 "g") (bound 3 "f"))) ["g", "h"],
    lam "u" (bound 1 "x"), lam "u" (bound 0 "u")]) ["n", "f", "x"]

/-- `λm n. n pred m` -/
def sub : Term := lams (apps (bound 0 "n") [pred, bound 1 "m"]) ["m", "n"]

/-- `λn. n (λx. false) true` -/
def isZero : Term := lams (apps (bound 0 "n") [lam "x" falsity, truth]) ["n"]

/-- `λa b s. s a b` -/
def pair : Term := lams (apps (bound 0 "s") [bound 2 "a", bound 1 "b"]) ["a", "b", "s"]

/-- `λp. p true` -/
def first : Term := lams (app (bound 0 "p") truth) ["p"]

/-- `λp. p false` -/
def second : Term := lams (app (bound 0 "p") falsity) ["p"]

/-- The values by name. -/
def values : List (String × Term) :=
  [("if", choice), ("succ", succ), ("add", add), ("mul", mul), ("pred", pred), ("sub", sub),
    ("is_zero", isZero), ("pair", pair), ("fst", first), ("snd", second)]

end Standard

/-- The environment of all the standard definitions. -/
def standardEnv : List (String × Term) := Term.letValues [] standardLets

/-- The environment of the standard definitions holds those values. -/
theorem lookup_standardEnv : ∀ b ∈ Standard.values, standardEnv.lookup b.1 = some b.2 := by
  have hall := @eq_of_statementsOf _ (fun ss => Standard.values.all fun b =>
    (Term.letValues [] (ss.filterMap (Statement.binding? 20))).lookup b.1 = some b.2) true
    standardText
  have hvalues := hall (by
    unfold Program.parse lex standardText
    rw [String.toList_ofList]
    decide +kernel)
  intro b hb
  have hb := List.all_eq_true.mp hvalues b hb
  rw [decide_eq_true_eq] at hb
  rw [standardEnv, standardLets, standardBindings]
  exact hb

theorem isName_of_mem_values {x : String} {v : Term} (h : (x, v) ∈ Standard.values) : IsName x := by
  have hx : x ∈ standardLets.map Prod.fst := by
    by_contra hx
    have hnone := Term.lookup_letValues_of_notMem hx []
    rw [← standardEnv, lookup_standardEnv (x, v) h] at hnone
    cases hnone
  obtain ⟨b, hb, rfl⟩ := List.mem_map.mp hx
  exact (spelled_of_binds binds_standardBindings b hb).1

/-- A standard name that is applied stands for its value. -/
theorem valueIn_standard_apps {x : String} {v : Term} (h : (x, v) ∈ Standard.values)
    (args : List Term) :
    (Term.apps (.free x) args).valueIn standardEnv = v.apps (args.map (·.valueIn standardEnv)) := by
  rw [Term.valueIn_apps, Term.valueIn_free, lookup_standardEnv (x, v) h, Option.getD_some]

end LambdaCalculus
