import LambdaCalculus.Proofs.Scope.Stranded

/-!
# A scope that is used on

A scope outlives the work that is done in it.  Whoever keeps one enters and leaves binders, looks up
names and has terms resolved, in any order, and goes on after a request that failed.  Resolution
enters and leaves binders as well, every binder of the term, and where the term is too deep it gives
up with some of them still entered.  They are left on the way out.  Where there is the room for that,
nothing of this can be seen afterwards: a history with a resolution in it goes on as it would have
gone on without.  Where there is not, a name of the term stays in the scope, and what comes after
meets it.

* `Scope.Request`, `Scope.serve` — histories of requests and the replies to them.
* `serve_append` — a history goes on from the scope that its beginning leaves.
* `work_resolve_run` — what a resolution replies, and the scope that it leaves.
* `resolution_leaves_no_trace_iff` — it can be taken out of all histories if, and only if, leaving a
  binder takes no more than entering it.
* `fresh_resolution_leaves_trace` — on a fresh runtime the name of the outermost binder stays.
-/

namespace LambdaCalculus.Scope

/-! ## Histories -/

/-- What can be asked of a scope. -/
inductive Request where
  | push (x : String)
  | pop
  | lookup (x : String)
  /-- The term with its names resolved, by a runtime that makes such calls. -/
  | resolve (calls : Calls) (limit : Nat) (t : Term)

/-- The reply to a request that does not fail. -/
inductive Reply where
  /-- A binder was entered or left. -/
  | done
  | index (i : Option Nat)
  | term (t : Term)

/-- The work that is asked for. -/
def Request.work : Request → Scoped Reply
  | .push x => do
    Scoped.push x
    pure .done
  | .pop => do
    Scoped.pop
    pure .done
  | .lookup x => do
    pure (.index ((← get).lookup x))
  | .resolve calls limit t => do
    pure (.term (← t.resolveWith calls limit))

/-- Serves requests one after the other.  One that fails has a fault for its reply, and those after
it are served from the scope that it leaves. -/
def serve : List Request → StateM Scope (List (Except Fault Reply))
  | [] => pure []
  | q :: qs => do
    let reply ← q.work.run
    let replies ← serve qs
    pure (reply :: replies)

theorem serve_cons_run (q : Request) (qs : List Request) (s : Scope) :
    (serve (q :: qs)).run s =
      ((q.work.run.run s).1 :: ((serve qs).run (q.work.run.run s).2).1,
        ((serve qs).run (q.work.run.run s).2).2) := rfl

/-- A history goes on from the scope that its beginning leaves. -/
theorem serve_append (qs rs : List Request) (s : Scope) :
    (serve (qs ++ rs)).run s =
      (((serve qs).run s).1 ++ ((serve rs).run ((serve qs).run s).2).1,
        ((serve rs).run ((serve qs).run s).2).2) := by
  induction qs generalizing s with
  | nil => rfl
  | cons q qs ih => simp only [List.cons_append, serve_cons_run, ih]

/-- There is a reply to every request. -/
theorem length_serve (qs : List Request) (s : Scope) : ((serve qs).run s).1.length = qs.length := by
  induction qs generalizing s with
  | nil => rfl
  | cons q qs ih => simp only [serve_cons_run, List.length_cons, ih]

/-! ## Resolutions in a history -/

theorem insertIdx_length_append {α : Type} (l r : List α) (x : α) :
    (l ++ r).insertIdx l.length x = l ++ x :: r := by
  induction l with
  | nil => rfl
  | cons a l ih => simp [ih]

/-- A resolution replies with the term or gives up, and leaves the scope behind as it has it then. -/
theorem work_resolve_run (calls : Calls) (limit : Nat) (t : Term) (s : Scope) :
    (Request.resolve calls limit t).work.run.run s =
      (((t.resolveWith calls limit).run.run s).1.map Reply.term,
        ((t.resolveWith calls limit).run.run s).2) := by
  have hresolve := Term.resolveWith_run calls limit t s.names
  show ((t.resolveWith calls limit >>= fun u => pure (Reply.term u)) : Scoped Reply).run.run s = _
  by_cases hroom : t.passable calls limit = true
  · rw [if_pos hroom] at hresolve
    rw [bind_run_ok hresolve, hresolve]
    rfl
  · rw [if_neg hroom] at hresolve
    rw [bind_run_error hresolve, hresolve]
    rfl

/-- Where leaving a binder takes no more than entering it, the scope is left as it is. -/
theorem resolveWith_run_snd_of_le {calls : Calls} (h : calls.leave ≤ calls.enter) (limit : Nat)
    (t : Term) (s : Scope) : ((t.resolveWith calls limit).run.run s).2 = s := by
  rw [Term.resolveWith_run calls limit t s.names, Term.stranded_of_le h]
  rfl

/-- A request that leaves the scope as it is can be taken out of a history: all replies but its own
are those of the history without it, and so is the scope in the end. -/
theorem serve_insert {q : Request} (hq : ∀ s, (q.work.run.run s).2 = s) (before after : List Request)
    (s : Scope) :
    (serve (before ++ q :: after)).run s =
      (((serve (before ++ after)).run s).1.insertIdx before.length
          (q.work.run.run ((serve before).run s).2).1,
        ((serve (before ++ after)).run s).2) := by
  simp only [serve_append, serve_cons_run, hq]
  rw [← length_serve before s, insertIdx_length_append]

/-- Resolution answers, and then the scope is as it was, or it finds the term too deep for the limit,
and then the names of some of the outermost binders on the way to a place of the term can stay in
the scope, as many at most as leaving a binder takes more levels than entering it.

So it leaves no trace in a history (wherever it stands, all replies but its own are those of the
history without it, and so is the scope in the end) if leaving takes no more than entering, and only
then. -/
theorem resolution_leaves_no_trace_iff (calls : Calls) :
    (∀ (limit : Nat) (t : Term) (s : Scope), ∃ left : List String,
      ((t.resolveWith calls limit).run.run s).2 = ⟨left ++ s.names⟩ ∧
      left.length ≤ calls.leave - calls.enter ∧
      (∃ way u, t.descend? s.names way = some (left ++ s.names, u)) ∧
      (((t.resolveWith calls limit).run.run s).1 = .ok (t.resolve s.names) ∧ left = [] ∨
        ((t.resolveWith calls limit).run.run s).1 = .error (.exhausted .nameResolution))) ∧
    (calls.leave ≤ calls.enter ↔
      ∀ (limit : Nat) (t : Term) (before after : List Request) (s : Scope),
        (serve (before ++ .resolve calls limit t :: after)).run s =
          (((serve (before ++ after)).run s).1.insertIdx before.length
              (((t.resolveWith calls limit).run.run ((serve before).run s).2).1.map Reply.term),
            ((serve (before ++ after)).run s).2)) := by
  refine ⟨?_, ?_, ?_⟩
  · intro limit t s
    have hresolve := Term.resolveWith_run calls limit t s.names
    refine ⟨t.stranded calls limit, congrArg Prod.snd hresolve, Term.length_stranded_le limit t,
      Term.exists_descend?_stranded limit t s.names, ?_⟩
    rw [hresolve]
    by_cases hroom : t.passable calls limit = true
    · exact .inl ⟨if_pos hroom, Term.stranded_of_passable hroom⟩
    · exact .inr (if_neg hroom)
  · intro h limit t before after s
    have hwork := work_resolve_run calls limit t
    have hkeeps : ∀ s, ((Request.resolve calls limit t).work.run.run s).2 = s := by
      intro s
      rw [hwork, resolveWith_run_snd_of_le h]
    rw [serve_insert hkeeps, hwork]
  · intro h
    by_contra hlt
    -- nothing but the resolution of one abstraction, in the empty scope
    have hscope := congrArg Prod.snd (h (calls.enter + 1) (.lam "x" (.free "x")) [] [] .empty)
    rw [List.nil_append, serve_cons_run, work_resolve_run, Scope.empty, Term.resolveWith_run] at hscope
    have hnames := congrArg Scope.names hscope
    exact Term.stranded_of_enter_lt (Nat.lt_of_not_le hlt) "x" (.free "x")
      (List.append_eq_nil_iff.mp hnames).1

/-- A tower of 9000 binders is too deep for a limit of 5000.  A fresh runtime that resolves it with
`keep` in the scope leaves one of its names there, and `keep` is no longer the innermost. -/
theorem fresh_resolution_leaves_trace :
    (serve [.resolve .fresh 5000 ((Term.free "x").lams (List.replicate 9000 "x")),
        .lookup "keep"]).run ⟨["keep"]⟩ =
      ([.error (.exhausted .nameResolution), .ok (.index (some 1))], ⟨["x", "keep"]⟩) ∧
    (serve [.lookup "keep"]).run ⟨["keep"]⟩ = ([.ok (.index (some 0))], ⟨["keep"]⟩) := by
  refine ⟨?_, rfl⟩
  have hleft : ((Term.free "x").lams (List.replicate 9000 "x")).stranded .fresh 5000 = ["x"] := by
    have hdeep : 4998 ≤ (List.replicate 8999 "x").length := by
      rw [List.length_replicate]
      omega
    rw [List.replicate_succ]
    exact Term.stranded_lams (.free "x") "x" hdeep
  have hroom : ¬ ((Term.free "x").lams (List.replicate 9000 "x")).passable .fresh 5000 = true := by
    intro hpassable
    rw [Term.stranded_of_passable hpassable] at hleft
    cases hleft
  rw [serve_cons_run, work_resolve_run, Term.resolveWith_run, if_neg hroom, hleft]
  rfl

/-- With `a` in the scope, `λb. λc. a` is too deep for two levels.  On a settled runtime `a` is still
the innermost name after the fault, and there is no other. -/
example : (serve [.resolve .settled 2 (.lam "b" (.lam "c" (.free "a"))), .lookup "a", .pop, .pop]).run
      ⟨["a"]⟩ =
    ([.error (.exhausted .nameResolution), .ok (.index (some 0)), .ok .done, .error .emptyScope],
      ⟨[]⟩) :=
  rfl

end LambdaCalculus.Scope
