import LambdaCalculus.Proofs.Term.Environment

/-!
# Places in a term and the names in sight there

A place in a term is reached from the top by a *way*, which is a list of turns.  Every abstraction
passed on the way brings its parameter in sight, in front of the names that are in sight already.

* `Term.descend?` — what stands at the end of a way, and the names in sight there.
* `descend?_cons_eq_some` — into which part of a term a way leads.
* `descend?_lams`, `descend?_apps_head`, `descend?_apps_arg`, `descend?_letIn_body`,
  `descend?_letIn_value` — the ways through towers, spines and bindings.
* `descend?_resolve` — resolution does at each place what the names in sight there ask for.
* `capturedIn_iff_descend?` — capture, by place.
-/

namespace LambdaCalculus

/-- A turn on the way down into a term. -/
inductive Turn where
  | fn
  | arg
  | body
  deriving DecidableEq, Repr

/-- The way past the first `n` of the bindings in front of a term. -/
def Turn.pastBindings : Nat → List Turn
  | 0 => []
  | n + 1 => .fn :: .body :: pastBindings n

namespace Term

/-- The names in sight at the end of a way down into the term, the nearest first, and what stands
there; `xs` are in sight of the term itself. -/
def descend? : List String → List Turn → Term → Option (List String × Term)
  | xs, [], t => some (xs, t)
  | xs, .fn :: way, .app f _ => descend? xs way f
  | xs, .arg :: way, .app _ a => descend? xs way a
  | xs, .body :: way, .lam x b => descend? (x :: xs) way b
  | _, _ :: _, _ => none

/-- A way that goes on leads into one of the parts of the term. -/
theorem descend?_cons_eq_some {turn : Turn} {way : List Turn} {xs ys : List String} {t u : Term}
    (h : t.descend? xs (turn :: way) = some (ys, u)) :
    (∃ f a, t = app f a ∧ turn = .fn ∧ f.descend? xs way = some (ys, u)) ∨
    (∃ f a, t = app f a ∧ turn = .arg ∧ a.descend? xs way = some (ys, u)) ∨
    ∃ x b, t = lam x b ∧ turn = .body ∧ b.descend? (x :: xs) way = some (ys, u) := by
  cases t with
  | bound i x | free x => cases turn <;> cases h
  | lam x b =>
    cases turn with
    | fn | arg => cases h
    | body => exact .inr (.inr ⟨x, b, rfl, rfl, h⟩)
  | app f a =>
    cases turn with
    | fn => exact .inl ⟨f, a, rfl, rfl, h⟩
    | arg => exact .inr (.inl ⟨f, a, rfl, rfl, h⟩)
    | body => cases h

/-- The body of a tower has all its parameters in sight, the last one nearest. -/
theorem descend?_lams (xs params : List String) (way : List Turn) (b : Term) :
    (b.lams params).descend? xs (List.replicate params.length .body ++ way) =
      b.descend? (params.reverse ++ xs) way := by
  induction params generalizing xs with
  | nil => rfl
  | cons p ps ih =>
    rw [lams_cons, List.length_cons, List.replicate_succ, List.cons_append, descend?, ih,
      List.reverse_cons, List.append_assoc, List.singleton_append]

/-- The head of a spine stands below all its arguments. -/
theorem descend?_apps_head (xs : List String) (way : List Turn) (f : Term) (args : List Term) :
    (f.apps args).descend? xs (List.replicate args.length .fn ++ way) = f.descend? xs way := by
  induction args generalizing f way with
  | nil => rfl
  | cons a args ih =>
    rw [apps_cons, List.length_cons, List.replicate_succ', List.append_assoc, ih]
    rfl

/-- An argument of a spine stands below those that follow it. -/
theorem descend?_apps_arg (xs : List String) (way : List Turn) (f : Term) {args : List Term}
    {k : Nat} {a : Term} (h : args[k]? = some a) :
    (f.apps args).descend? xs (List.replicate (args.length - (k + 1)) .fn ++ .arg :: way) =
      a.descend? xs way := by
  induction args generalizing f k with
  | nil => cases h
  | cons b args ih =>
    cases k with
    | zero =>
      cases h
      rw [apps_cons, List.length_cons, Nat.zero_add, Nat.add_sub_cancel, descend?_apps_head]
      rfl
    | succ k =>
      rw [apps_cons, List.length_cons, Nat.add_sub_add_right]
      exact ih (app f b) h

/-- The term behind bindings has all their names in sight, the last one nearest. -/
theorem descend?_letIn_body (xs : List String) (way : List Turn) (body : Term)
    (lets : List (String × Term)) :
    (body.letIn lets).descend? xs (Turn.pastBindings lets.length ++ way) =
      body.descend? ((lets.map Prod.fst).reverse ++ xs) way := by
  induction lets generalizing xs with
  | nil => rfl
  | cons b lets ih =>
    have hpast : (body.letIn (b :: lets)).descend? xs
        (Turn.pastBindings (b :: lets).length ++ way) =
          (body.letIn lets).descend? (b.1 :: xs) (Turn.pastBindings lets.length ++ way) := rfl
    rw [hpast, ih, List.map_cons, List.reverse_cons, List.append_assoc, List.singleton_append]

/-- The value of a binding has the names of the bindings before it in sight, and no others. -/
theorem descend?_letIn_value (xs : List String) (way : List Turn) (body : Term)
    {lets : List (String × Term)} {i : Nat} {b : String × Term} (h : lets[i]? = some b) :
    (body.letIn lets).descend? xs (Turn.pastBindings i ++ .arg :: way) =
      b.2.descend? (((lets.take i).map Prod.fst).reverse ++ xs) way := by
  induction lets generalizing xs i with
  | nil => cases h
  | cons b' lets ih =>
    cases i with
    | zero =>
      cases h
      rfl
    | succ i =>
      have hpast : (body.letIn (b' :: lets)).descend? xs
          (Turn.pastBindings (i + 1) ++ .arg :: way) =
            (body.letIn lets).descend? (b'.1 :: xs) (Turn.pastBindings i ++ .arg :: way) := rfl
      rw [hpast, ih (b'.1 :: xs) h, List.take_succ_cons, List.map_cons, List.reverse_cons,
        List.append_assoc, List.singleton_append]

/-- Resolution keeps every place, and does there what the names in sight ask for. -/
theorem descend?_resolve {xs ys : List String} {way : List Turn} {t u : Term}
    (h : t.descend? xs way = some (ys, u)) :
    (t.resolve xs).descend? xs way = some (ys, u.resolve ys) := by
  induction way generalizing xs t with
  | nil =>
    cases h
    rfl
  | cons turn way ih =>
    rcases descend?_cons_eq_some h with
      ⟨f, a, rfl, rfl, hf⟩ | ⟨f, a, rfl, rfl, ha⟩ | ⟨x, b, rfl, rfl, hb⟩
    · exact ih hf
    · exact ih ha
    · exact ih hb

/-- A free variable is captured where, at its place, its name is in sight. -/
theorem capturedIn_iff_descend? {t : Term} {xs : List String} :
    t.CapturedIn xs ↔ ∃ way ys x, t.descend? xs way = some (ys, free x) ∧ x ∈ ys := by
  constructor
  · intro h
    induction t generalizing xs with
    | bound i x => cases h
    | free x => exact ⟨[], xs, x, rfl, h⟩
    | lam y b ih =>
      obtain ⟨way, ys, x, hplace, hx⟩ := @ih (y :: xs) h
      exact ⟨.body :: way, ys, x, hplace, hx⟩
    | app f a ihf iha =>
      rcases h with h | h
      · obtain ⟨way, ys, x, hplace, hx⟩ := ihf h
        exact ⟨.fn :: way, ys, x, hplace, hx⟩
      · obtain ⟨way, ys, x, hplace, hx⟩ := iha h
        exact ⟨.arg :: way, ys, x, hplace, hx⟩
  · rintro ⟨way, ys, x, hplace, hx⟩
    induction way generalizing xs t with
    | nil =>
      cases hplace
      exact hx
    | cons turn way ih =>
      rcases descend?_cons_eq_some hplace with
        ⟨f, a, rfl, -, hf⟩ | ⟨f, a, rfl, -, ha⟩ | ⟨y, b, rfl, -, hb⟩
      · exact .inl (ih hf)
      · exact .inr (ih ha)
      · have hbody : b.CapturedIn (y :: xs) := ih hb
        exact hbody

end Term

end LambdaCalculus
