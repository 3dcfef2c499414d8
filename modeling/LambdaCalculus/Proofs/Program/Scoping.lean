import LambdaCalculus.Proofs.Program.Loading
import LambdaCalculus.Proofs.Term.Descent
import Mathlib.Data.List.Forall2

/-!
# The scope rule of programs

A name in a program belongs to the nearest binder of it that is in sight.  In sight are, walking
outward from the place where the name stands, the parameters of each abstraction around it from the
last to the first, and then the names of the bindings in the statements before its own, from the
nearest to the first.

* `Program.descend?` — what stands at a place of a program, and the names in sight there.
* `Program.way` — the way to the place that it has in the term of the program.
* `load_scoping` — a name becomes the variable that the scope rule asks for, and a literal its
  numeral, whatever is in sight.
-/

namespace LambdaCalculus

/-! ## Places in a program -/

/-- A branch of an expression. -/
inductive Branch where
  | body
  /-- The item of an application that has the number `k`, counted from zero. -/
  | item (k : Nat)
  deriving DecidableEq, Repr

namespace Expr

/-- The names in sight at the end of a route down into the expression, the nearest first, and what
stands there; `xs` are in sight of the expression itself. -/
def descend? : List String → List Branch → Expr → Option (List String × Expr)
  | xs, [], e => some (xs, e)
  | xs, .body :: route, .lam _ params body => descend? (params.reverse ++ xs) route body
  | xs, .item k :: route, .app _ items => items[k]?.bind (descend? xs route)
  | _, _ :: _, _ => none

/-- The way to item `k` in the spine of an application of `count` items. -/
def wayToItem (count : Nat) : Nat → List Turn
  | 0 => List.replicate (count - 1) .fn
  | k + 1 => List.replicate (count - (k + 2)) .fn ++ [.arg]

/-- The way that a route has in the term of the expression. -/
def way : List Branch → Expr → List Turn
  | .body :: route, .lam _ params body => List.replicate params.length .body ++ way route body
  | .item k :: route, .app _ items => wayToItem items.length k ++ items[k]?.elim [] (way route)
  | _, _ => []

end Expr

namespace Statement

/-- The name that the statement binds, if it is a binding. -/
def bound? : Statement → Option String
  | .binding _ x _ => some x
  | .expression _ _ => none

/-- The expression of the statement. -/
def expr : Statement → Expr
  | .binding _ _ e => e
  | .expression _ e => e

end Statement

namespace Program

/-- The names that the first `i` statements bind, the latest first. -/
def boundBefore (i : Nat) (p : Program) : List String :=
  ((p.statements.take i).filterMap Statement.bound?).reverse

/-- The names in sight at the end of a route down into statement `i`, the nearest first, and what
stands there. -/
def descend? (i : Nat) (route : List Branch) (p : Program) : Option (List String × Expr) :=
  p.statements[i]?.bind fun s => s.expr.descend? (p.boundBefore i) route

/-- The way to the term of statement `i`: past the bindings before it, and to its value if it is a
binding itself. -/
def wayToStatement (i : Nat) (p : Program) : List Turn :=
  Turn.pastBindings i ++ if i + 1 < p.statements.length then [.arg] else []

/-- The way that a route down into statement `i` has in the term of the program. -/
def way (i : Nat) (route : List Branch) (p : Program) : List Turn :=
  p.wayToStatement i ++ p.statements[i]?.elim [] fun s => s.expr.way route

end Program

/-! ## Places in an expression and in its term -/

theorem exists_getElem?_of_forall₂ {α β : Type} {R : α → β → Prop} {as : List α} {bs : List β}
    (h : List.Forall₂ R as bs) {i : Nat} {a : α} (ha : as[i]? = some a) :
    ∃ b, bs[i]? = some b ∧ R a b := by
  obtain ⟨hi, rfl⟩ := List.getElem?_eq_some_iff.mp ha
  have hi' : i < bs.length := h.length_eq ▸ hi
  exact ⟨bs[i], List.getElem?_eq_getElem hi', h.get hi hi'⟩

namespace Expr

theorem exists_args_of_applyMeanings {room : Nat} {f t : Term} {es : List Expr}
    (h : applyMeanings room f es = .ok t) : ∃ args,
      List.Forall₂ (fun e a => meaningWithin room e = .ok a) es args ∧ t = f.apps args := by
  induction es generalizing f with
  | nil =>
    cases h
    exact ⟨[], .nil, rfl⟩
  | cons e es ih =>
    rw [applyMeanings, bind_eq_ok] at h
    obtain ⟨a, ha, hrest⟩ := h
    obtain ⟨args, hargs, rfl⟩ := ih hrest
    exact ⟨a :: args, .cons ha hargs, rfl⟩

theorem exists_body_of_meaningWithin {room : Nat} {place : Span} {params : List String}
    {body : Expr} {t : Term} (h : meaningWithin room (.lam place params body) = .ok t) :
    ∃ room b, body.meaningWithin room = .ok b ∧ t = b.lams params := by
  cases room with
  | zero => cases h
  | succ room =>
    cases params with
    | nil => cases h
    | cons p ps =>
      obtain ⟨b, hb, ht⟩ := bind_eq_ok.mp h
      cases ht
      exact ⟨room, b, hb, rfl⟩

/-- The item of an application means what stands at its place in the spine. -/
theorem exists_item_of_meaningWithin {room k : Nat} {place : Span} {items : List Expr} {e : Expr}
    {t : Term} (h : meaningWithin room (.app place items) = .ok t) (he : items[k]? = some e) :
    ∃ room u, e.meaningWithin room = .ok u ∧ ∀ xs way,
      t.descend? xs (wayToItem items.length k ++ way) = u.descend? xs way := by
  cases room with
  | zero => cases h
  | succ room =>
    cases items with
    | nil => cases he
    | cons head rest =>
      obtain ⟨f, hf, hrest⟩ := bind_eq_ok.mp h
      obtain ⟨args, hargs, rfl⟩ := exists_args_of_applyMeanings hrest
      cases k with
      | zero =>
        cases he
        refine ⟨room, f, hf, ?_⟩
        intro xs way
        rw [wayToItem, List.length_cons, Nat.add_sub_cancel, hargs.length_eq]
        exact Term.descend?_apps_head xs way f args
      | succ k =>
        obtain ⟨a, ha, hmeans⟩ := exists_getElem?_of_forall₂ hargs he
        refine ⟨room, a, hmeans, ?_⟩
        intro xs way
        rw [wayToItem, List.length_cons, Nat.add_sub_add_right, hargs.length_eq,
          List.append_assoc, List.singleton_append]
        exact Term.descend?_apps_arg xs way f ha

/-- What stands at a place of an expression means what stands at the end of the way to it, and the
same names are in sight. -/
theorem exists_descend?_of_meaningWithin {room : Nat} {e e' : Expr} {t : Term} {xs ys : List String}
    {route : List Branch} (h : e.meaningWithin room = .ok t)
    (he : e.descend? xs route = some (ys, e')) :
    ∃ room u, e'.meaningWithin room = .ok u ∧ t.descend? xs (e.way route) = some (ys, u) := by
  induction route generalizing room e t xs with
  | nil =>
    cases he
    exact ⟨room, t, h, rfl⟩
  | cons branch route ih =>
    cases e with
    | var place x | number place n | character place text => cases branch <;> cases he
    | lam place params body =>
      cases branch with
      | item k => cases he
      | body =>
        obtain ⟨room, b, hb, rfl⟩ := exists_body_of_meaningWithin h
        obtain ⟨room, u, hu, hway⟩ := ih hb he
        refine ⟨room, u, hu, ?_⟩
        rw [way, Term.descend?_lams]
        exact hway
    | app place items =>
      cases branch with
      | body => cases he
      | item k =>
        obtain ⟨item, hitem, hroute⟩ := Option.bind_eq_some_iff.mp he
        obtain ⟨room, v, hv, hspine⟩ := exists_item_of_meaningWithin h hitem
        obtain ⟨room, u, hu, hway⟩ := ih hv hroute
        refine ⟨room, u, hu, ?_⟩
        rw [way, hitem, hspine]
        exact hway

theorem eq_free_of_meaningWithin {room : Nat} {place : Span} {x : String} {t : Term}
    (h : meaningWithin room (.var place x) = .ok t) : t = .free x := by
  cases room with
  | zero => cases h
  | succ room =>
    cases h
    rfl

theorem eq_numeral_of_meaningWithin_number {room : Nat} {place : Span} {n : Int} {t : Term}
    (h : meaningWithin room (.number place n) = .ok t) : 0 ≤ n ∧ t = .numeral n.toNat := by
  cases room with
  | zero => cases h
  | succ room =>
    rw [meaningWithin, Term.ofInt] at h
    split at h
    · cases h
    · next hn =>
      cases h
      exact ⟨Int.not_lt.mp hn, rfl⟩

theorem eq_numeral_of_meaningWithin_character {room : Nat} {place : Span} {text : String} {t : Term}
    (h : meaningWithin room (.character place text) = .ok t) :
    ∃ c, text.toList = [c] ∧ t = .numeral c.toNat := by
  cases room with
  | zero => cases h
  | succ room =>
    rw [meaningWithin, Term.ofText] at h
    split at h
    · next c hc =>
      cases h
      exact ⟨c, hc, rfl⟩
    · cases h

end Expr

/-! ## Places in a program and in its term -/

theorem filterMap_bound?_eq {bindings : List Statement} {lets : List (String × Term)}
    (h : List.Forall₂ Statement.Binds bindings lets) :
    bindings.filterMap Statement.bound? = lets.map Prod.fst := by
  induction h with
  | nil => rfl
  | @cons s b _ _ hs _ ih =>
    obtain ⟨place, e, rfl, -⟩ := hs.means
    have hbound : (Statement.binding place b.1 e).bound? = some b.1 := rfl
    rw [List.filterMap_cons_some hbound, ih, List.map_cons]

theorem Program.boundBefore_eq {p : Program} {bindings : List Statement} {last : Statement}
    {lets : List (String × Term)} (hp : p.statements = bindings ++ [last])
    (h : List.Forall₂ Statement.Binds bindings lets) {i : Nat} (hi : i ≤ bindings.length) :
    p.boundBefore i = ((lets.take i).map Prod.fst).reverse := by
  rw [boundBefore, hp, List.take_append_of_le_length hi,
    filterMap_bound?_eq (List.forall₂_take i h)]

/-- What stands at a place of a program means what stands at the end of the way to it, and the same
names are in sight. -/
theorem Program.Means.exists_descend? {p : Program} {lets : List (String × Term)} {body : Term}
    (h : p.Means lets body) {i : Nat} {route : List Branch} {xs : List String} {e : Expr}
    (he : p.descend? i route = some (xs, e)) : ∃ room u, e.meaningWithin room = .ok u ∧
      (body.letIn lets).descend? [] (p.way i route) = some (xs, u) := by
  obtain ⟨bindings, place, last, hp, hbindings, hlast⟩ := h.statements
  obtain ⟨s, hs, hroute⟩ := Option.bind_eq_some_iff.mp he
  have hlength : p.statements.length = bindings.length + 1 := by
    rw [hp, List.length_append, List.length_singleton]
  have hi : i < bindings.length + 1 := hlength ▸ (List.getElem?_eq_some_iff.mp hs).1
  have hbefore := boundBefore_eq hp hbindings (Nat.le_of_lt_succ hi)
  rw [hbefore] at hroute
  rw [way, wayToStatement, hs, hlength]
  by_cases hlt : i < bindings.length
  · rw [if_pos (Nat.succ_lt_succ hlt)]
    rw [hp, List.getElem?_append_left hlt] at hs
    obtain ⟨b, hb, hbinds⟩ := exists_getElem?_of_forall₂ hbindings hs
    obtain ⟨place', value, rfl, hvalue⟩ := hbinds.means
    obtain ⟨room, hroom⟩ := hvalue.reached
    obtain ⟨room, u, hu, hway⟩ :=
      Expr.exists_descend?_of_meaningWithin (hroom room (le_refl room)) hroute
    refine ⟨room, u, hu, ?_⟩
    rw [List.append_assoc, List.singleton_append, Term.descend?_letIn_value [] _ body hb,
      List.append_nil]
    exact hway
  · obtain rfl : i = bindings.length := by omega
    rw [if_neg (by omega), List.append_nil, hbindings.length_eq]
    rw [hp, List.getElem?_concat_length] at hs
    cases hs
    obtain ⟨room, hroom⟩ := hlast.reached
    obtain ⟨room, u, hu, hway⟩ :=
      Expr.exists_descend?_of_meaningWithin (hroom room (le_refl room)) hroute
    refine ⟨room, u, hu, ?_⟩
    rw [hbindings.length_eq, List.take_length] at hway
    rw [Term.descend?_letIn_body, List.append_nil]
    exact hway

/-! ## The scope rule -/

/-- In the term of a program every name is the variable that the scope rule asks for.  At the end of
the way that its place in the program has, the same names are in sight, and in the same order, as at
the place itself; the variable is bound to the first of them that is its name, and free if none is.
A number or a character is its numeral wherever it stands. -/
theorem load_scoping {limit : Nat} {standard : Bool} {source : String} {p q : Program} {t : Term}
    (hp : Program.parse source = .ok p) (hload : load limit standard source = .ok t)
    (hq : (if standard then p.withStandard else p) = q) {i : Nat} {route : List Branch}
    {xs : List String} {e : Expr} (he : q.descend? i route = some (xs, e)) :
    (∀ place x, e = .var place x →
      t.descend? [] (q.way i route) = some (xs, (xs.idxOf? x).elim (.free x) (.bound · x))) ∧
    (∀ place n, e = .number place n →
      0 ≤ n ∧ t.descend? [] (q.way i route) = some (xs, .numeral n.toNat)) ∧
    (∀ place text, e = .character place text → ∃ c, text.toList = [c] ∧
      t.descend? [] (q.way i route) = some (xs, .numeral c.toNat)) := by
  obtain ⟨p', lets, body, hp', hmeans, rfl⟩ := exists_means_of_load hload
  obtain rfl : p' = p := Except.ok.inj (hp'.symm.trans hp)
  rw [hq] at hmeans
  obtain ⟨room, u, hu, hway⟩ := hmeans.exists_descend? he
  have hresolved := Term.descend?_resolve hway
  refine ⟨?_, ?_, ?_⟩
  · rintro place x rfl
    obtain rfl := Expr.eq_free_of_meaningWithin hu
    rw [hresolved, Term.resolve_free]
  · rintro place n rfl
    obtain ⟨hn, rfl⟩ := Expr.eq_numeral_of_meaningWithin_number hu
    rw [hresolved, Term.resolve_numeral]
    exact ⟨hn, rfl⟩
  · rintro place text rfl
    obtain ⟨c, hc, rfl⟩ := Expr.eq_numeral_of_meaningWithin_character hu
    rw [hresolved, Term.resolve_numeral]
    exact ⟨c, hc, rfl⟩

/-- In `let a = \x. a; \x x y. a x 2` the first `a` is free, since a binding does not see itself; the
second is bound outside three parameters, and `x` is the later of the two parameters of that name. -/
theorem load_scoping_shadowed :
    ∃ p t, Program.parse "let a = \\x. a; \\x x y. a x 2" = .ok p ∧
      load 20 false "let a = \\x. a; \\x x y. a x 2" = .ok t ∧
      p.descend? 0 [.body, .item 0] = some (["x"], .var ⟨12, 13⟩ "a") ∧
      p.descend? 1 [.body, .item 1] = some (["y", "x", "x", "a"], .var ⟨25, 26⟩ "x") ∧
      t.descend? [] (p.way 0 [.body, .item 0]) = some (["x"], .free "a") ∧
      t.descend? [] (p.way 1 [.body, .item 1]) = some (["y", "x", "x", "a"], .bound 1 "x") := by
  have hp : Program.parse "let a = \\x. a; \\x x y. a x 2" = .ok
      ⟨[.binding ⟨0, 13⟩ "a" (.lam ⟨8, 13⟩ ["x"] (.app ⟨12, 13⟩ [.var ⟨12, 13⟩ "a"])),
        .expression ⟨15, 28⟩ (.lam ⟨15, 28⟩ ["x", "x", "y"]
          (.app ⟨23, 28⟩ [.var ⟨23, 24⟩ "a", .var ⟨25, 26⟩ "x", .number ⟨27, 28⟩ 2]))]⟩ := by
    unfold Program.parse lex
    rw [String.toList_ofList]
    rfl
  have hload : load 20 false "let a = \\x. a; \\x x y. a x 2" = .ok
      (.app (.lam "a" (.lam "x" (.lam "x" (.lam "y"
        (.app (.app (.bound 3 "a") (.bound 1 "x")) (.numeral 2)))))) (.lam "x" (.free "a"))) := by
    unfold load Program.parse lex
    rw [String.toList_ofList]
    decide +kernel
  obtain ⟨hvalue, -, -⟩ := load_scoping hp hload rfl
    (show Program.descend? 0 [.body, .item 0] _ = some (["x"], .var ⟨12, 13⟩ "a") from rfl)
  obtain ⟨hbody, -, -⟩ := load_scoping hp hload rfl
    (show Program.descend? 1 [.body, .item 1] _ =
      some (["y", "x", "x", "a"], .var ⟨25, 26⟩ "x") from rfl)
  exact ⟨_, _, hp, hload, rfl, rfl, hvalue _ _ rfl, hbody _ _ rfl⟩

end LambdaCalculus
