import LambdaCalculus.Proofs.Term.Nesting
import LambdaCalculus.Proofs.Term.Filling
import LambdaCalculus.Scope

/-!
# Name resolution apart from its limit

Where there is room to enter and to leave all binders of a term, resolution leaves its scope as it
found it, and so is a function of the term and the names in sight.

* `Term.resolve xs` — the term with its names resolved where the binders `xs` are in sight.
* `Term.passable` — is there the room for it?
* `Term.stranded` — the binders that could not be left.
* `resolveWithin_run` — what resolution under a limit answers, and the scope that it leaves behind.
* `resolveIn_run` — on a settled runtime there is room to leave what has been entered.
* `settles_resolveIn` — so, apart from limits, it answers as the function does.
* `resolve_congr` — resolution looks up the names that are open in the term, and no others.
* `resolve_eq_self_iff` — it changes nothing exactly where no free name stands in sight of its
  binder.
-/

namespace LambdaCalculus

/-! ## Running work in a scope -/

namespace Scoped

variable {α β : Type}

theorem tryCatch_run_ok {work : Scoped α} {handler : Fault → Scoped α} {s s' : Scope} {a : α}
    (h : work.run.run s = (.ok a, s')) : (tryCatch work handler).run.run s = (.ok a, s') := by
  rw [ExceptT.run_tryCatch, StateT.run_bind, h]
  rfl

theorem tryCatch_run_error {work : Scoped α} {handler : Fault → Scoped α} {s s' : Scope}
    {fault : Fault} (h : work.run.run s = (.error fault, s')) :
    (tryCatch work handler).run.run s = (handler fault).run.run s' := by
  rw [ExceptT.run_tryCatch, StateT.run_bind, h]
  rfl

variable {calls : Calls} {room : Nat} {x y : String} {work : Scoped α} {xs ys : List String}
  {r : Except Fault α}

theorem pop_run (x : String) (xs : List String) : pop.run.run ⟨x :: xs⟩ = (.ok (), ⟨xs⟩) := rfl

theorem call_of_le {levels : Nat} (h : levels ≤ room) : call levels room work = work :=
  if_pos h

theorem call_of_lt {levels : Nat} (h : room < levels) : call levels room work = throw .tooDeep :=
  if_neg (Nat.not_le.mpr h)

/-- Without room to enter the binder no work is done. -/
theorem under_run_of_lt_enter (henter : room < calls.enter) :
    (under calls room x work).run.run ⟨xs⟩ = (.error .tooDeep, ⟨xs⟩) := by
  rw [under, call_of_lt henter]
  rfl

theorem under_of_le_enter (henter : calls.enter ≤ room) (x : String) (work : Scoped α)
    (xs : List String) : (under calls room x work).run.run ⟨xs⟩ =
      (do
        let result ← tryCatch work fun fault => do
          call calls.leave room pop
          throw fault
        call calls.leave room pop
        pure result : Scoped α).run.run ⟨x :: xs⟩ := by
  rw [under, call_of_le henter]
  rfl

/-- With room for both calls, the innermost binder is left after the work: its own, unless the work
has left others behind. -/
theorem under_run (henter : calls.enter ≤ room) (hleave : calls.leave ≤ room)
    (h : work.run.run ⟨x :: xs⟩ = (r, ⟨y :: ys⟩)) :
    (under calls room x work).run.run ⟨xs⟩ = (r, ⟨ys⟩) := by
  rw [under_of_le_enter henter, call_of_le hleave]
  cases r with
  | ok a =>
    rw [bind_run_ok (tryCatch_run_ok h), bind_run_ok (pop_run y ys)]
    rfl
  | error fault =>
    refine bind_run_error ?_
    rw [tryCatch_run_error h, bind_run_ok (pop_run y ys)]
    rfl

/-- Without room to leave the binder it stays, and the work has failed. -/
theorem under_run_of_lt_leave (henter : calls.enter ≤ room) (hleave : room < calls.leave)
    (h : work.run.run ⟨x :: xs⟩ = (r, ⟨ys⟩)) :
    (under calls room x work).run.run ⟨xs⟩ = (.error .tooDeep, ⟨ys⟩) := by
  rw [under_of_le_enter henter, call_of_lt hleave]
  cases r with
  | ok a =>
    rw [bind_run_ok (tryCatch_run_ok h)]
    rfl
  | error fault =>
    refine bind_run_error ?_
    rw [tryCatch_run_error h]
    rfl

end Scoped

namespace Term

/-! ## Resolution as a function -/

/-- The term with its names resolved where the binders `xs` are in sight, innermost first. -/
def resolve : List String → Term → Term
  | xs, .free x =>
    match xs.idxOf? x with
    | some i => .bound i x
    | none => .free x
  | _, .bound i x => .bound i x
  | xs, .lam x b => .lam x (resolve (x :: xs) b)
  | xs, .app f a => .app (resolve xs f) (resolve xs a)

@[simp] theorem resolve_bound (xs : List String) (i : Nat) (x : String) :
    resolve xs (bound i x) = bound i x := rfl

@[simp] theorem resolve_lam (xs : List String) (x : String) (b : Term) :
    resolve xs (lam x b) = lam x (resolve (x :: xs) b) := rfl

@[simp] theorem resolve_app (xs : List String) (f a : Term) :
    resolve xs (app f a) = app (resolve xs f) (resolve xs a) := rfl

theorem resolve_free_of_some {xs : List String} {x : String} {i : Nat} (h : xs.idxOf? x = some i) :
    resolve xs (free x) = bound i x := by
  rw [resolve, h]

theorem resolve_free_of_none {xs : List String} {x : String} (h : xs.idxOf? x = none) :
    resolve xs (free x) = free x := by
  rw [resolve, h]

/-- A free variable is bound to the nearest binder of its name, if one is in sight. -/
theorem resolve_free (xs : List String) (x : String) :
    resolve xs (free x) = (xs.idxOf? x).elim (free x) (bound · x) := by
  cases h : xs.idxOf? x with
  | none => exact resolve_free_of_none h
  | some i => exact resolve_free_of_some h

theorem fits_resolve (room : Nat) (xs : List String) (t : Term) :
    (t.resolve xs).fits room = t.fits room := by
  induction room generalizing t xs with
  | zero => rfl
  | succ room ih =>
    cases t with
    | bound i x => rfl
    | free x =>
      rw [resolve_free]
      cases xs.idxOf? x <;> rfl
    | lam x b => exact ih (x :: xs) b
    | app f a => simp [fits, ih]

/-! ## Resolution under a limit -/

/-- Is there room to resolve the term, and at each of its binders to enter and to leave it? -/
def passable (calls : Calls) : Nat → Term → Bool
  | 0, _ => false
  | room + 1, .lam _ b =>
    decide (calls.enter ≤ room) && decide (calls.leave ≤ room) && b.passable calls room
  | room + 1, .app f a => f.passable calls room && a.passable calls room
  | _ + 1, _ => true

/-- The names of the binders that resolution enters and finds no room to leave, those further in
first.  A binder that is left takes the innermost name out of the scope, whoever's it is. -/
def stranded (calls : Calls) : Nat → Term → List String
  | 0, _ => []
  | room + 1, .lam x b =>
    if calls.enter ≤ room then
      if calls.leave ≤ room then (b.stranded calls room ++ [x]).tail
      else b.stranded calls room ++ [x]
    else []
  | room + 1, .app f a => if f.passable calls room then a.stranded calls room else f.stranded calls room
  | _ + 1, _ => []

variable {calls : Calls}

theorem stranded_of_passable {room : Nat} {t : Term} (h : t.passable calls room = true) :
    t.stranded calls room = [] := by
  induction room generalizing t with
  | zero => rfl
  | succ room ih =>
    cases t with
    | bound i x | free x => rfl
    | lam x b =>
      simp only [passable, Bool.and_eq_true, decide_eq_true_eq] at h
      rw [stranded, if_pos h.1.1, if_pos h.1.2, ih h.2]
      rfl
    | app f a =>
      simp only [passable, Bool.and_eq_true] at h
      rw [stranded, if_pos h.1, ih h.2]

/-- Resolution under a limit answers if there is room for it, and leaves the binders in the scope
that there is no room to leave. -/
theorem resolveWithin_run (calls : Calls) (room : Nat) (t : Term) (xs : List String) :
    (t.resolveWithin calls room).run.run ⟨xs⟩ =
      (if t.passable calls room then .ok (resolve xs t) else .error .tooDeep,
        ⟨t.stranded calls room ++ xs⟩) := by
  induction room generalizing t xs with
  | zero => rfl
  | succ room ih =>
    cases t with
    | bound i x => rfl
    | free x =>
      have hget : (get : Scoped Scope).run.run ⟨xs⟩ = (.ok ⟨xs⟩, ⟨xs⟩) := rfl
      rw [resolveWithin, bind_run_ok hget]
      cases h : xs.idxOf? x with
      | none => rw [resolve_free_of_none h]; simp only [Scope.lookup, h]; rfl
      | some i => rw [resolve_free_of_some h]; simp only [Scope.lookup, h]; rfl
    | lam x b =>
      have hb := ih b (x :: xs)
      rw [resolveWithin, passable, stranded]
      rcases Nat.lt_or_ge room calls.enter with henter | henter
      · rw [if_neg (Nat.not_le.mpr henter), decide_eq_false (Nat.not_le.mpr henter)]
        exact bind_run_error (Scoped.under_run_of_lt_enter henter)
      rcases Nat.lt_or_ge room calls.leave with hleave | hleave
      · rw [if_pos henter, if_neg (Nat.not_le.mpr hleave), decide_eq_true henter,
          decide_eq_false (Nat.not_le.mpr hleave), List.append_assoc]
        exact bind_run_error (Scoped.under_run_of_lt_leave henter hleave hb)
      rw [if_pos henter, if_pos hleave, decide_eq_true henter, decide_eq_true hleave]
      by_cases h : b.passable calls room = true
      · rw [if_pos h, stranded_of_passable h] at hb
        rw [h, stranded_of_passable h]
        exact bind_run_ok (Scoped.under_run henter hleave hb)
      · rw [if_neg h] at hb
        rw [Bool.eq_false_iff.mpr h]
        cases hleft : b.stranded calls room with
        | nil =>
          rw [hleft] at hb
          exact bind_run_error (Scoped.under_run henter hleave hb)
        | cons y ys =>
          rw [hleft] at hb
          rw [List.cons_append, List.tail_cons, List.append_assoc]
          exact bind_run_error (Scoped.under_run henter hleave hb)
    | app f a =>
      rw [resolveWithin, passable, stranded]
      have hf := ih f xs
      have ha := ih a xs
      by_cases h : f.passable calls room = true
      · rw [if_pos h, stranded_of_passable h] at hf
        rw [h, Bool.true_and, if_pos rfl, bind_run_ok hf]
        by_cases h' : a.passable calls room = true
        · rw [if_pos h'] at ha ⊢
          exact bind_run_ok ha
        · rw [if_neg h'] at ha ⊢
          exact bind_run_error ha
      · rw [if_neg h] at hf
        rw [if_neg h, Bool.eq_false_iff.mpr h, Bool.false_and]
        exact bind_run_error hf

/-- The fault is passed on as one of name resolution. -/
theorem resolveWith_run (calls : Calls) (limit : Nat) (t : Term) (xs : List String) :
    (t.resolveWith calls limit).run.run ⟨xs⟩ =
      (if t.passable calls limit then .ok (resolve xs t) else .error (.exhausted .nameResolution),
        ⟨t.stranded calls limit ++ xs⟩) := by
  have h := resolveWithin_run calls limit t xs
  by_cases hroom : t.passable calls limit = true
  · rw [if_pos hroom] at h ⊢
    exact Scoped.tryCatch_run_ok h
  · rw [if_neg hroom] at h ⊢
    exact Scoped.tryCatch_run_error h

/-! ### On a settled runtime -/

/-- Neither call takes more than the level that the body of the abstraction needs anyway. -/
theorem passable_settled (room : Nat) (t : Term) : t.passable .settled room = t.fits room := by
  induction room generalizing t with
  | zero => rfl
  | succ room ih =>
    cases t with
    | bound i x | free x => rfl
    | lam x b =>
      cases room with
      | zero => rfl
      | succ room => simpa [passable, fits, Calls.settled] using ih b
    | app f a => simp [passable, fits, ih]

/-- Where leaving a binder takes no more than entering it, all binders are left. -/
theorem stranded_of_le (h : calls.leave ≤ calls.enter) (room : Nat) (t : Term) :
    t.stranded calls room = [] := by
  induction room generalizing t with
  | zero => rfl
  | succ room ih =>
    cases t with
    | bound i x | free x => rfl
    | lam x b =>
      rw [stranded]
      split
      · rename_i henter
        rw [if_pos (Nat.le_trans h henter), ih]
        rfl
      · rfl
    | app f a =>
      rw [stranded, ih, ih, ite_self]

/-- Resolution under a limit keeps the scope, and answers as resolution does if there is room. -/
theorem resolveIn_run (limit : Nat) (t : Term) (xs : List String) :
    (t.resolveIn limit).run.run ⟨xs⟩ =
      (if t.fits limit then .ok (resolve xs t) else .error (.exhausted .nameResolution), ⟨xs⟩) := by
  rw [resolveIn, resolveWith_run, passable_settled, stranded_of_le (Nat.le_refl 1), List.nil_append]

theorem resolved_eq (limit : Nat) (t : Term) :
    t.resolved limit =
      if t.fits limit then .ok (resolve [] t) else .error (.exhausted .nameResolution) :=
  congrArg Prod.fst (resolveIn_run limit t [])

/-- Apart from limits, resolution in a scope answers as the function of the names in it does. -/
theorem settles_resolveIn (t : Term) (s : Scope) :
    Settles (fun limit => ((t.resolveIn limit).run.run s).1) (.ok (resolve s.names t)) := by
  have hrun (limit : Nat) : ((t.resolveIn limit).run.run s).1 =
      if t.fits limit then .ok (resolve s.names t) else .error (.exhausted .nameResolution) :=
    congrArg Prod.fst (resolveIn_run limit t s.names)
  simp only [hrun]
  exact .guard (enough_fits t) (.const _) _ trivial

theorem settles_resolved (t : Term) :
    Settles (fun limit => t.resolved limit) (.ok (resolve [] t)) :=
  settles_resolveIn t .empty

/-! ## Laws of resolution -/

/-- The names that resolution looks up outside the term: those of the free variables that no binder
of the term takes. -/
def openNames : Term → List String
  | .bound _ _ => []
  | .free x => [x]
  | .lam x b => b.openNames.filter (· ≠ x)
  | .app f a => f.openNames ++ a.openNames

/-- The free variables of `t` that stand in sight of a binder of their name, a binder of the term
or one of `xs`. -/
def CapturedIn : List String → Term → Prop
  | _, .bound _ _ => False
  | xs, .free x => x ∈ xs
  | xs, .lam x b => CapturedIn (x :: xs) b
  | xs, .app f a => CapturedIn xs f ∨ CapturedIn xs a

@[simp] theorem idxOf?_cons_self (x : String) (xs : List String) : (x :: xs).idxOf? x = some 0 := by
  simp [List.idxOf?_cons]

theorem idxOf?_cons_of_ne {x y : String} (h : y ≠ x) (xs : List String) :
    (y :: xs).idxOf? x = (xs.idxOf? x).map (· + 1) := by
  simp [List.idxOf?_cons, h]

/-- Binders further out come after all those in sight. -/
theorem idxOf?_append (x : String) (xs ys : List String) :
    (xs ++ ys).idxOf? x = (xs.idxOf? x).or ((ys.idxOf? x).map (· + xs.length)) :=
  List.findIdx?_append

theorem idxOf?_append_of_some {x : String} {xs : List String} {i : Nat}
    (h : xs.idxOf? x = some i) (ys : List String) : (xs ++ ys).idxOf? x = some i := by
  rw [idxOf?_append, h, Option.some_or]

theorem idxOf?_append_of_notMem {x : String} {xs : List String} (h : x ∉ xs) (ys : List String) :
    (xs ++ ys).idxOf? x = (ys.idxOf? x).map (· + xs.length) := by
  rw [idxOf?_append, List.idxOf?_eq_none_iff.mpr h, Option.none_or]

theorem idxOf?_lt {x : String} {xs : List String} {i : Nat} (h : xs.idxOf? x = some i) :
    i < xs.length :=
  (List.idxOf?_eq_some_iff.mp h).1

/-- Resolution looks up the names that are open in the term, and no others. -/
theorem resolve_congr {t : Term} {xs ys : List String}
    (h : ∀ x ∈ t.openNames, xs.idxOf? x = ys.idxOf? x) : resolve xs t = resolve ys t := by
  induction t generalizing xs ys with
  | bound i x => rfl
  | free x => rw [resolve, resolve, h x (List.mem_singleton_self x)]
  | lam x b ih =>
    have hb : ∀ y ∈ b.openNames, (x :: xs).idxOf? y = (x :: ys).idxOf? y := by
      intro y hy
      by_cases hyx : y = x
      · simp [hyx]
      · have hopen : y ∈ (lam x b).openNames := by simp [openNames, hy, hyx]
        simp [idxOf?_cons_of_ne (Ne.symm hyx), h y hopen]
    simp [ih hb]
  | app f a ihf iha =>
    have hf : ∀ x ∈ f.openNames, xs.idxOf? x = ys.idxOf? x :=
      fun x hx => h x (List.mem_append_left _ hx)
    have ha : ∀ x ∈ a.openNames, xs.idxOf? x = ys.idxOf? x :=
      fun x hx => h x (List.mem_append_right _ hx)
    simp [ihf hf, iha ha]

/-- The indices that resolution gives point to binders in sight. -/
theorem below_resolve {t : Term} {n : Nat} (ht : t.Below n) {xs : List String}
    (hxs : n ≤ xs.length) : (resolve xs t).Below xs.length := by
  induction t generalizing n xs with
  | bound i x => exact Nat.lt_of_lt_of_le ht hxs
  | free x =>
    cases h : xs.idxOf? x with
    | none =>
      rw [resolve_free_of_none h]
      exact trivial
    | some i =>
      rw [resolve_free_of_some h]
      exact idxOf?_lt h
  | lam x b ih =>
    have hlength : n + 1 ≤ (x :: xs).length := Nat.succ_le_succ hxs
    exact ih ht hlength
  | app f a ihf iha => exact ⟨ihf ht.1 hxs, iha ht.2 hxs⟩

/-- Resolution changes nothing exactly where no free name stands in sight of its binder. -/
theorem resolve_eq_self_iff {t : Term} {xs : List String} :
    resolve xs t = t ↔ ¬ t.CapturedIn xs := by
  induction t generalizing xs with
  | bound i x => exact iff_of_true rfl not_false
  | free x =>
    cases h : xs.idxOf? x with
    | none =>
      rw [resolve_free_of_none h]
      exact iff_of_true rfl (List.idxOf?_eq_none_iff.mp h)
    | some i =>
      rw [resolve_free_of_some h]
      have hx : x ∈ xs := by
        by_contra hx
        simp [List.idxOf?_eq_none_iff.mpr hx] at h
      simp [CapturedIn, hx]
  | lam x b ih => simp [CapturedIn, ih]
  | app f a ihf iha => simp [CapturedIn, ihf, iha]

end Term

end LambdaCalculus
