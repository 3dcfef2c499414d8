import LambdaCalculus.Proofs.Term.Descent

/-!
# Binders that are not left

Where leaving a binder takes more levels than entering it, resolution can enter a binder that there
is no room to leave again.  It is at the limit then, so this happens to few binders, and those
further out are left in its stead: what stays in the scope are the names of the outermost binders on
the way to the place where resolution gave up.

* `length_stranded_le` — how many binders stay.
* `exists_descend?_stranded` — which ones.
* `stranded_of_enter_lt` — some do, wherever leaving takes more than entering.
* `stranded_lams` — the one name that a fresh runtime keeps of a tower that is too deep.
-/

namespace LambdaCalculus.Term

variable {calls : Calls}

/-! ## How many -/

/-- A binder stays at most at each of the levels that are enough to enter one and not to leave it. -/
theorem length_stranded_le_min (room : Nat) (t : Term) :
    (t.stranded calls room).length ≤ min calls.leave room - calls.enter := by
  induction room generalizing t with
  | zero => exact Nat.zero_le _
  | succ room ih =>
    cases t with
    | bound i x | free x => exact Nat.zero_le _
    | lam x b =>
      have hb := ih b
      have hlength : (b.stranded calls room ++ [x]).length = (b.stranded calls room).length + 1 :=
        List.length_append
      rw [stranded]
      split
      · split
        · rw [List.length_tail]
          omega
        · omega
      · exact Nat.zero_le _
    | app f a =>
      have hf := ih f
      have ha := ih a
      rw [stranded]
      split <;> omega

theorem length_stranded_le (room : Nat) (t : Term) :
    (t.stranded calls room).length ≤ calls.leave - calls.enter := by
  have hmin := @length_stranded_le_min calls room t
  omega

/-- With a level to enter it and not the room to leave it, the binder of an abstraction stays. -/
theorem stranded_of_enter_lt (h : calls.enter < calls.leave) (x : String) (b : Term) :
    (lam x b).stranded calls (calls.enter + 1) ≠ [] := by
  rw [stranded, if_pos (Nat.le_refl _), if_neg (Nat.not_le.mpr h)]
  exact List.append_ne_nil_of_right_ne_nil _ (List.cons_ne_nil x [])

/-! ## Which ones -/

theorem suffix_of_descend? {way : List Turn} {xs ys : List String} {t u : Term}
    (h : t.descend? xs way = some (ys, u)) : xs <:+ ys := by
  induction way generalizing xs t with
  | nil =>
    cases h
    exact List.suffix_rfl
  | cons turn way ih =>
    rcases descend?_cons_eq_some h with
      ⟨f, a, rfl, -, hf⟩ | ⟨f, a, rfl, -, ha⟩ | ⟨x, b, rfl, -, hb⟩
    · exact ih hf
    · exact ih ha
    · exact (List.suffix_cons x xs).trans (ih hb)

/-- On the way to a place its names come in sight one after the other. -/
theorem exists_descend?_of_suffix {way : List Turn} {xs ys zs : List String} {t u : Term}
    (h : t.descend? xs way = some (ys, u)) (hinner : zs <:+ ys) (houter : xs <:+ zs) :
    ∃ way' u', t.descend? xs way' = some (zs, u') := by
  induction way generalizing xs t with
  | nil =>
    cases h
    exact ⟨[], u, by rw [descend?, hinner.eq_of_length_le houter.length_le]⟩
  | cons turn way ih =>
    rcases descend?_cons_eq_some h with
      ⟨f, a, rfl, -, hf⟩ | ⟨f, a, rfl, -, ha⟩ | ⟨x, b, rfl, -, hb⟩
    · obtain ⟨way', u', hplace⟩ := ih hf houter
      exact ⟨.fn :: way', u', hplace⟩
    · obtain ⟨way', u', hplace⟩ := ih ha houter
      exact ⟨.arg :: way', u', hplace⟩
    · have hbody (h' : x :: xs <:+ zs) : ∃ way' u', (lam x b).descend? xs way' = some (zs, u') := by
        obtain ⟨way', u', hplace⟩ := ih hb h'
        exact ⟨.body :: way', u', hplace⟩
      rcases List.suffix_or_suffix_of_suffix (suffix_of_descend? hb) hinner with h' | h'
      · exact hbody h'
      · rcases List.suffix_cons_iff.mp h' with rfl | h'
        · exact hbody List.suffix_rfl
        · exact ⟨[], lam x b, by rw [descend?, h'.eq_of_length_le houter.length_le]⟩

/-- What stays are the names in sight at some place of the term. -/
theorem exists_descend?_stranded (room : Nat) (t : Term) (xs : List String) :
    ∃ way u, t.descend? xs way = some (t.stranded calls room ++ xs, u) := by
  induction room generalizing t xs with
  | zero => exact ⟨[], t, rfl⟩
  | succ room ih =>
    cases t with
    | bound i x | free x => exact ⟨[], _, rfl⟩
    | lam x b =>
      obtain ⟨way, u, hplace⟩ := ih b (x :: xs)
      rw [stranded]
      split
      · split
        · cases hleft : b.stranded calls room with
          | nil => exact ⟨[], _, rfl⟩
          | cons y ys =>
            rw [hleft] at hplace
            obtain ⟨way', u', hplace⟩ := exists_descend?_of_suffix hplace
              (List.suffix_cons y (ys ++ x :: xs)) (List.suffix_append ys (x :: xs))
            refine ⟨.body :: way', u', ?_⟩
            rw [List.cons_append, List.tail_cons, List.append_assoc]
            exact hplace
        · refine ⟨.body :: way, u, ?_⟩
          rw [List.append_assoc]
          exact hplace
      · exact ⟨[], _, rfl⟩
    | app f a =>
      rw [stranded]
      split
      · obtain ⟨way, u, hplace⟩ := ih a xs
        exact ⟨.arg :: way, u, hplace⟩
      · obtain ⟨way, u, hplace⟩ := ih f xs
        exact ⟨.fn :: way, u, hplace⟩

/-! ## On a fresh runtime -/

/-- Of a tower that is too deep the outermost name stays. -/
theorem stranded_lams (b : Term) {room : Nat} (x : String) {xs : List String}
    (h : room ≤ xs.length) : (b.lams (x :: xs)).stranded .fresh (room + 2) = [x] := by
  induction room generalizing x xs with
  | zero =>
    -- below the last level where a binder is entered there is no room for another
    have hnone : (b.lams xs).stranded .fresh 1 = [] :=
      List.eq_nil_of_length_eq_zero (Nat.le_zero.mp (length_stranded_le_min 1 (b.lams xs)))
    have henter : Calls.fresh.enter ≤ 1 := Nat.le_refl 1
    have hleave : ¬ Calls.fresh.leave ≤ 1 := Nat.not_succ_le_self 1
    rw [lams_cons, stranded, if_pos henter, if_neg hleave, hnone, List.nil_append]
  | succ room ih =>
    obtain ⟨y, ys, rfl⟩ := List.exists_cons_of_length_pos (Nat.lt_of_lt_of_le room.succ_pos h)
    have henter : Calls.fresh.enter ≤ room + 2 := Nat.le_add_left 1 (room + 1)
    have hleave : Calls.fresh.leave ≤ room + 2 := Nat.le_add_left 2 room
    rw [lams_cons, stranded, if_pos henter, if_pos hleave, ih y (Nat.le_of_succ_le_succ h)]
    rfl

end LambdaCalculus.Term
