import LambdaCalculus.Fault
import Mathlib.Order.Directed
import Mathlib.Order.Lattice

/-!
# Outcomes apart from limits

Operations run under limits: the room for nested terms, the patience for steps.  A limit can only
keep an operation from answering; it never changes the answer.  `Settles f r` says so of a family
`f` of outcomes, one for each choice of limits: whatever the limits are, the outcome is `r` or the
fault that a limit was met, and from some limits on it is `r`.

* `Settles.unique` — a family settles on one outcome at most.
* `Settles.bind` — families that settle can be run one after the other.
* `Settles.succ` — so can one level of a recursion that counts its room down.
-/

namespace LambdaCalculus

theorem ok_bind {α β : Type} (a : α) (f : α → Except Fault β) : (Except.ok a >>= f) = f a := rfl

/-- Work in two parts only answers if both do. -/
theorem bind_eq_ok {α β : Type} {x : Except Fault α} {f : α → Except Fault β} {b : β} :
    x >>= f = .ok b ↔ ∃ a, x = .ok a ∧ f a = .ok b := by
  constructor
  · intro h
    cases x with
    | error fault => cases h
    | ok a => exact ⟨a, rfl, h⟩
  · rintro ⟨a, rfl, h⟩
    exact h

/-- Work in two parts fails if one of them does. -/
theorem bind_eq_error {α β : Type} {x : Except Fault α} {f : α → Except Fault β} {fault : Fault} :
    x >>= f = .error fault ↔ x = .error fault ∨ ∃ a, x = .ok a ∧ f a = .error fault := by
  cases x with
  | error fault' =>
    constructor
    · intro h
      cases h
      exact .inl rfl
    · rintro (h | ⟨a, ha, -⟩)
      · cases h
        rfl
      · cases ha
  | ok a =>
    constructor
    · intro h
      exact .inr ⟨a, rfl, h⟩
    · rintro (h | ⟨b, hb, h⟩)
      · cases h
      · cases hb
        exact h

theorem mapError_eq_ok {α : Type} {x : Except Fault α} {f : Fault → Fault} {a : α} :
    x.mapError f = .ok a ↔ x = .ok a := by
  cases x with
  | error fault => exact iff_of_false nofun nofun
  | ok b => exact Iff.rfl

theorem mapError_eq_error {α : Type} {x : Except Fault α} {f : Fault → Fault} {fault : Fault} :
    x.mapError f = .error fault ↔ ∃ cause, x = .error cause ∧ f cause = fault := by
  cases x with
  | error cause => simp [Except.mapError]
  | ok a => simp [Except.mapError]

/-- Work that keeps a state goes on from the state that its first part leaves. -/
theorem bind_run_ok {σ α β : Type} {work : ExceptT Fault (StateM σ) α}
    {next : α → ExceptT Fault (StateM σ) β} {s s' : σ} {a : α}
    (h : work.run.run s = (.ok a, s')) : (work >>= next).run.run s = (next a).run.run s' := by
  rw [ExceptT.run_bind, StateT.run_bind, h]
  rfl

/-- Where its first part fails, the state is left as it is then. -/
theorem bind_run_error {σ α β : Type} {work : ExceptT Fault (StateM σ) α}
    {next : α → ExceptT Fault (StateM σ) β} {s s' : σ} {fault : Fault}
    (h : work.run.run s = (.error fault, s')) : (work >>= next).run.run s = (.error fault, s') := by
  rw [ExceptT.run_bind, StateT.run_bind, h]
  rfl

/-- The fault only says that a limit was met. -/
def Fault.IsLimit : Fault → Prop
  | .exhausted _ | .tooDeep | .unfinished => True
  | _ => False

theorem Fault.IsLimit.during {f : Fault} (h : f.IsLimit) (activity : Activity) :
    (f.during activity).IsLimit := by
  cases f <;> exact h

theorem Fault.IsLimit.withSource {f : Fault} (h : f.IsLimit) (source : String) :
    (f.withSource source).IsLimit := by
  cases f <;> first | exact h | exact h.elim

/-- Every room from some on passes the test. -/
def Enough (p : Nat → Bool) : Prop := ∃ i, ∀ j, i ≤ j → p j = true

theorem Enough.and {p q : Nat → Bool} (hp : Enough p) (hq : Enough q) :
    Enough fun room => p room && q room := by
  obtain ⟨i, hi⟩ := hp
  obtain ⟨k, hk⟩ := hq
  refine ⟨max i k, ?_⟩
  intro j hj
  exact Bool.and_eq_true_iff.mpr ⟨hi j (by omega), hk j (by omega)⟩

theorem Enough.succ {p : Nat → Bool} (h : Enough fun room => p (room + 1)) : Enough p := by
  obtain ⟨i, hi⟩ := h
  refine ⟨i + 1, ?_⟩
  rintro (_ | j) hj
  · omega
  · exact hi j (by omega)

/-- Whatever the limits, the outcome of `f` is `r` or the fault of a limit, and from some limits
on it is `r`. -/
structure Settles {ι α : Type} [Preorder ι] (f : ι → Except Fault α) (r : Except Fault α) :
    Prop where
  /-- Where the outcome is not `r`, a limit was met. -/
  limited : ∀ i, f i = r ∨ ∃ fault, f i = .error fault ∧ fault.IsLimit
  /-- From some limits on the outcome is `r`. -/
  reached : ∃ i, ∀ j, i ≤ j → f j = r

namespace Settles

variable {ι α β : Type} [Preorder ι]

theorem const [Nonempty ι] (r : Except Fault α) : Settles (fun _ : ι => r) r :=
  ⟨fun _ => .inl rfl, ‹Nonempty ι›.elim fun i => ⟨i, fun _ _ => rfl⟩⟩

/-- A family settles on one outcome at most. -/
theorem unique [IsDirectedOrder ι] {f : ι → Except Fault α} {r r' : Except Fault α}
    (h : Settles f r) (h' : Settles f r') : r = r' := by
  obtain ⟨i, hi⟩ := h.reached
  obtain ⟨j, hj⟩ := h'.reached
  obtain ⟨k, hik, hjk⟩ := exists_ge_ge i j
  rw [← hi k hik, hj k hjk]

/-- An answer that is given under some limits is the one that the family settles on. -/
theorem eq_of_ok {f : ι → Except Fault α} {r : Except Fault α} (h : Settles f r) {i : ι} {a : α}
    (hi : f i = .ok a) : r = .ok a := by
  rcases h.limited i with hr | ⟨fault, hf, -⟩
  · rw [← hr, hi]
  · rw [hi] at hf
    cases hf

/-- Families that settle can be run one after the other. -/
theorem bind [IsDirectedOrder ι] {f : ι → Except Fault α} {g : α → ι → Except Fault β} {a : α}
    {r : Except Fault β} (hf : Settles f (.ok a)) (hg : Settles (g a) r) :
    Settles (fun i => f i >>= fun x => g x i) r := by
  constructor
  · intro i
    rcases hf.limited i with hi | ⟨fault, hi, hlimit⟩
    · simp only [hi]
      exact hg.limited i
    · exact .inr ⟨fault, by rw [hi]; rfl, hlimit⟩
  · obtain ⟨i, hi⟩ := hf.reached
    obtain ⟨j, hj⟩ := hg.reached
    obtain ⟨k, hik, hjk⟩ := exists_ge_ge i j
    refine ⟨k, ?_⟩
    intro l hl
    rw [hi l (hik.trans hl)]
    exact hj l (hjk.trans hl)

/-- What settles on a fault keeps it, whatever was to follow. -/
theorem bind_error {f : ι → Except Fault α} {fault : Fault} (hf : Settles f (.error fault))
    (g : α → ι → Except Fault β) : Settles (fun i => f i >>= fun x => g x i) (.error fault) := by
  constructor
  · intro i
    rcases hf.limited i with hi | ⟨fault', hi, hlimit⟩
    · exact .inl (by rw [hi]; rfl)
    · exact .inr ⟨fault', by rw [hi]; rfl, hlimit⟩
  · obtain ⟨i, hi⟩ := hf.reached
    exact ⟨i, fun j hj => by rw [hi j hj]; rfl⟩

/-- A function of an answer that settles. -/
theorem map {f : ι → Except Fault α} {a : α} (hf : Settles f (.ok a)) (g : α → β) :
    Settles (fun i => f i >>= fun x => pure (g x)) (.ok (g a)) := by
  constructor
  · intro i
    rcases hf.limited i with hi | ⟨fault, hi, hlimit⟩
    · exact .inl (by rw [hi]; rfl)
    · exact .inr ⟨fault, by rw [hi]; rfl, hlimit⟩
  · obtain ⟨i, hi⟩ := hf.reached
    exact ⟨i, fun j hj => by rw [hi j hj]; rfl⟩

/-- Faults may be reworded, as long as that of a limit stays one. -/
theorem mapError {f : ι → Except Fault α} {r : Except Fault α} (hf : Settles f r)
    {g : Fault → Fault} (hg : ∀ fault, fault.IsLimit → (g fault).IsLimit) :
    Settles (fun i => (f i).mapError g) (r.mapError g) := by
  constructor
  · intro i
    rcases hf.limited i with hi | ⟨fault, hi, hlimit⟩
    · exact .inl (by rw [hi])
    · exact .inr ⟨g fault, by rw [hi]; rfl, hg fault hlimit⟩
  · obtain ⟨i, hi⟩ := hf.reached
    exact ⟨i, fun j hj => by rw [hi j hj]⟩

/-- One level of a recursion that counts its room down: without room it gives up, and with one more
it does what settles. -/
theorem succ {f : Nat → Except Fault α} {r : Except Fault α} (h₀ : f 0 = .error .tooDeep)
    (h : Settles (fun room => f (room + 1)) r) : Settles f r := by
  constructor
  · rintro (_ | room)
    · exact .inr ⟨.tooDeep, h₀, trivial⟩
    · exact h.limited room
  · obtain ⟨i, hi⟩ := h.reached
    refine ⟨i + 1, ?_⟩
    rintro (_ | room) hroom
    · omega
    · exact hi room (by omega)

/-- Where the room passes a test that enough room does pass, the outcome is that of `f`. -/
theorem guard {p : Nat → Bool} (hp : Enough p) {f : Nat → Except Fault α} {r : Except Fault α}
    (hf : Settles f r) (fault : Fault) (hfault : fault.IsLimit) :
    Settles (fun room => if p room then f room else .error fault) r := by
  constructor
  · intro room
    by_cases h : p room = true
    · simpa only [h, if_true] using hf.limited room
    · exact .inr ⟨fault, by simp [h], hfault⟩
  · obtain ⟨i, hi⟩ := hp
    obtain ⟨j, hj⟩ := hf.reached
    refine ⟨max i j, ?_⟩
    intro k hk
    rw [if_pos (hi k (by omega)), hj k (by omega)]

end Settles

end LambdaCalculus
