import LambdaCalculus.Term.Reduction

/-!
# Terms in memory

A step that contracts nothing gives back the very term it was given.  To say so, a term is taken as
it lies in memory: every node has an address, and a node that is made gets the next address that is
free.  What is not changed is not made again, so a free variable keeps its address even where it is
put into another term.

A step tells from addresses whether it has done anything: where the function of an application comes
back the same, so does the application.  That is right, since what a contraction brings forth is
never an application from before it; it does not matter whether it reads the same.

* `Object` — terms with addresses; `Object.term` forgets them.
* `Object.step` — one head step that goes by addresses.
* `Object.term_step`, `Object.step_eq_self_iff` — it is `Term.step?`, and gives back the same object
  where that is `none`.
-/

namespace LambdaCalculus

/-- A term in memory.  Two of them are the same if all addresses in them are. -/
inductive Object where
  /-- A bound variable. -/
  | bound (address : Nat) (index : Nat) (name : String)
  /-- A free variable. -/
  | free (address : Nat) (name : String)
  /-- An abstraction. -/
  | lam (address : Nat) (param : String) (body : Object)
  /-- An application. -/
  | app (address : Nat) (fn arg : Object)
  deriving DecidableEq

namespace Object

/-- The term without its addresses. -/
def term : Object → Term
  | .bound _ i x => .bound i x
  | .free _ x => .free x
  | .lam _ x b => .lam x b.term
  | .app _ f a => .app f.term a.term

/-- The addresses in the term are all below the bound. -/
def Below (next : Nat) : Object → Prop
  | .bound address _ _ => address < next
  | .free address _ => address < next
  | .lam address _ b => address < next ∧ b.Below next
  | .app address f a => address < next ∧ f.Below next ∧ a.Below next

/-! ## Making terms -/

/-- A node at the next address that is free. -/
def make (node : Nat → Object) : StateM Nat Object := fun next => (node next, next + 1)

/-- `Term.shift` in memory: a variable that keeps its index stays the same. -/
def shift (d : Int) : Int → Object → StateM Nat Object
  | c, .bound address i x =>
    if (i : Int) < c then pure (.bound address i x) else make (.bound · ((i : Int) + d).toNat x)
  | _, .free address x => pure (.free address x)
  | c, .lam _ x b => do
    let b ← b.shift d (c + 1)
    make (.lam · x b)
  | c, .app _ f a => do
    let f ← f.shift d c
    let a ← a.shift d c
    make (.app · f a)

/-- `Term.subst` in memory: a variable that is not replaced stays the same. -/
def subst : Int → Object → Object → StateM Nat Object
  | j, u, .bound address i x => pure (if (i : Int) = j then u else .bound address i x)
  | _, _, .free address x => pure (.free address x)
  | j, u, .lam _ x b => do
    let u ← u.shift 1 0
    let b ← subst (j + 1) u b
    make (.lam · x b)
  | j, u, .app _ f a => do
    let f ← subst j u f
    let a ← subst j u a
    make (.app · f a)

/-- `Term.beta` in memory. -/
def beta (body arg : Object) : StateM Nat Object := do
  let lifted ← arg.shift 1 0
  let merged ← subst 0 lifted body
  merged.shift (-1) 0

/-- One head step, or the same object. -/
def step : Object → StateM Nat Object
  | .app _ (.lam _ _ b) a => beta b a
  | .app address (.app inner f a) c => do
    let reduced ← step (.app inner f a)
    if reduced = .app inner f a then pure (.app address (.app inner f a) c)
    else make (.app · reduced c)
  | t => pure t

/-! ## What is made -/

/-- Whatever address is free, the work gives that term, and frees no address. -/
structure Gives (work : StateM Nat Object) (t : Term) : Prop where
  /-- The term it gives. -/
  term : ∀ next, (work next).1.term = t
  /-- No address becomes free. -/
  grows : ∀ next, next ≤ (work next).2

theorem Gives.pure (o : Object) : Gives (Pure.pure o) o.term := ⟨fun _ => rfl, Nat.le_refl⟩

theorem Gives.make {node : Nat → Object} {t : Term} (h : ∀ address, (node address).term = t) :
    Gives (make node) t :=
  ⟨h, fun next => Nat.le_succ next⟩

theorem Gives.bind {work : StateM Nat Object} {rest : Object → StateM Nat Object} {t u : Term}
    (hwork : Gives work t) (hrest : ∀ o, o.term = t → Gives (rest o) u) :
    Gives (work >>= rest) u := by
  constructor
  · intro next
    exact (hrest _ (hwork.term next)).term _
  · intro next
    exact Nat.le_trans (hwork.grows next) ((hrest _ (hwork.term next)).grows _)

theorem gives_shift (d c : Int) (o : Object) : Gives (o.shift d c) (o.term.shift d c) := by
  induction o generalizing c with
  | bound address i x =>
    rw [shift, term, Term.shift]
    split
    · exact .pure (.bound address i x)
    · exact .make fun _ => rfl
  | free address x => exact .pure (.free address x)
  | lam address x b ih =>
    refine (ih (c + 1)).bind ?_
    intro b' hb
    exact .make fun _ => congrArg (Term.lam x) hb
  | app address f a ihf iha =>
    refine (ihf c).bind ?_
    intro f' hf
    refine (iha c).bind ?_
    intro a' ha
    exact .make fun _ => congr (congrArg Term.app hf) ha

theorem gives_subst (j : Int) (u o : Object) :
    Gives (subst j u o) (Term.subst j u.term o.term) := by
  induction o generalizing j u with
  | bound address i x =>
    rw [subst, term, Term.subst]
    split
    · exact .pure u
    · exact .pure (.bound address i x)
  | free address x => exact .pure (.free address x)
  | lam address x b ih =>
    refine (gives_shift 1 0 u).bind ?_
    intro u' hu
    refine (ih (j + 1) u').bind ?_
    intro b' hb
    rw [hu] at hb
    exact .make fun _ => congrArg (Term.lam x) hb
  | app address f a ihf iha =>
    refine (ihf j u).bind ?_
    intro f' hf
    refine (iha j u).bind ?_
    intro a' ha
    exact .make fun _ => congr (congrArg Term.app hf) ha

theorem gives_beta (b a : Object) : Gives (beta b a) (Term.beta b.term a.term) := by
  refine (gives_shift 1 0 a).bind ?_
  intro lifted hlifted
  refine (gives_subst 0 lifted b).bind ?_
  intro merged hmerged
  rw [Term.beta, ← hlifted, ← hmerged]
  exact gives_shift (-1) 0 merged

/-- The object is no application with an address from before. -/
def NewApp (next : Nat) : Object → Prop
  | .app address _ _ => next ≤ address
  | _ => True

theorem NewApp.of_le {o : Object} {next later : Nat} (h : o.NewApp later) (hle : next ≤ later) :
    o.NewApp next := by
  cases o with
  | app address f a => exact Nat.le_trans hle h
  | bound | free | lam => exact trivial

theorem newApp_shift (d c : Int) (o : Object) (next : Nat) : (o.shift d c next).1.NewApp next := by
  cases o with
  | bound address i x =>
    rw [shift]
    split <;> exact trivial
  | free address x => exact trivial
  | lam address x b => exact trivial
  | app address f a =>
    exact Nat.le_trans ((gives_shift d c f).grows next) ((gives_shift d c a).grows _)

/-- What a contraction brings forth is no application from before it. -/
theorem newApp_beta (b a : Object) (next : Nat) : (beta b a next).1.NewApp next := by
  have hlifted := (gives_shift 1 0 a).grows next
  have hmerged := (gives_subst 0 (a.shift 1 0 next).1 b).grows (a.shift 1 0 next).2
  exact (newApp_shift (-1) 0 _ _).of_le (Nat.le_trans hlifted hmerged)

/-! ## Steps -/

/-- Either there is no head step, and the object is given back; or there is one, and what it gives
is no application from before. -/
theorem step_cases {o : Object} {next : Nat} (h : o.Below next) :
    (o.term.step? = none ∧ o.step next = (o, next)) ∨
      ∃ u, o.term.step? = some u ∧ (o.step next).1.term = u ∧ (o.step next).1.NewApp next ∧
        next ≤ (o.step next).2 := by
  induction o with
  | bound address i x | free address x | lam address x b => exact .inl ⟨rfl, rfl⟩
  | app address f a ihf iha =>
    cases f with
    | bound inner i x | free inner x => exact .inl ⟨rfl, rfl⟩
    | lam inner x b =>
      exact .inr ⟨_, rfl, (gives_beta b a).term next, newApp_beta b a next,
        (gives_beta b a).grows next⟩
    | app inner f c =>
      obtain ⟨-, hcallee, -⟩ := h
      have hstep : step (.app address (.app inner f c) a) next =
          (if (step (.app inner f c) next).1 = .app inner f c
            then pure (.app address (.app inner f c) a)
            else make (.app · (step (.app inner f c) next).1 a))
          (step (.app inner f c) next).2 := rfl
      rcases ihf hcallee with ⟨hnone, hsame⟩ | ⟨u, hsome, rfl, hnew, hgrows⟩
      · refine .inl ⟨congrArg (Option.map (Term.app · a.term)) hnone, ?_⟩
        rw [hstep, hsame, if_pos rfl]
        rfl
      · have hchanged : (step (.app inner f c) next).1 ≠ .app inner f c := by
          intro hsame
          rw [hsame] at hnew
          exact absurd hnew (Nat.not_le.mpr hcallee.1)
        -- so the whole is made again, at an address that was free
        rw [hstep, if_neg hchanged]
        exact .inr ⟨_, congrArg (Option.map (Term.app · a.term)) hsome, rfl, hgrows,
          Nat.le_succ_of_le hgrows⟩

/-- A step in memory is a step of the term. -/
theorem term_step {o : Object} {next : Nat} (h : o.Below next) :
    (o.step next).1.term = o.term.step?.getD o.term := by
  rcases step_cases h with ⟨hnone, hsame⟩ | ⟨u, hsome, hterm, -⟩
  · rw [hnone, hsame, Option.getD_none]
  · rw [hsome, hterm, Option.getD_some]

/-- A step gives back the same object if and only if there was none. -/
theorem step_eq_self_iff {o : Object} {next : Nat} (h : o.Below next) :
    (o.step next).1 = o ↔ o.term.step? = none := by
  rcases step_cases h with ⟨hnone, hsame⟩ | ⟨u, hsome, -, hnew, -⟩
  · rw [hsame]
    exact iff_of_true rfl hnone
  · refine iff_of_false ?_ (by rw [hsome]; exact Option.some_ne_none u)
    intro hsame
    rw [hsame] at hnew
    cases o with
    | bound | free | lam => cases hsome
    | app address f a => exact Nat.not_le.mpr h.1 hnew

end Object

end LambdaCalculus
