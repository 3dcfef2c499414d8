import LambdaCalculus.Proofs.Program.Lexing
import LambdaCalculus.Proofs.Term.Anonymous
import LambdaCalculus.Proofs.Term.Occurrences

/-!
# The indexed form tells terms apart

The indexed form leaves out the names of binders and bound variables, and nothing else: terms with the
same indexed form differ in nothing but such names.  Bodies and arguments have no sign at their end,
so it is not enough to compare the texts of two terms on their own.  They are compared in front of
what follows, which does not go on with a name or a number.  That is so of everything that the form
itself puts behind a part of a term.

The names of free variables have to be words.  One like `#0` would be taken for an index.

* `IsWord` — the words that stand for free variables, `let` among them.
* `Term.Opens` — the characters that the indexed form of a term begins with.
* `indexedOnto_determined` — an indexed form in front of a rest determines the term and the rest.
* `indexed_eq_iff_anonymous_eq` — for whole terms.
-/

namespace LambdaCalculus

open Lexeme

/-- A word begins and goes on as names do; it may be a word of the language. -/
def IsWord (x : String) : Prop :=
  ∃ c cs, x.toList = c :: cs ∧ beginsName c = true ∧ ∀ d ∈ cs, continuesName d = true

theorem IsWord.continues {x : String} (h : IsWord x) : ∀ d ∈ x.toList, continuesName d = true := by
  obtain ⟨c, cs, hx, hbegins, hcontinues⟩ := h
  rw [hx]
  exact List.forall_mem_cons.mpr ⟨by simp [continuesName, hbegins], hcontinues⟩

/-! ## Runs of characters of a class -/

/-- A run of characters of a class ends where the first other character stands. -/
theorem append_determined {p : Char → Bool} {cs ds r s : List Char} (hcs : ∀ c ∈ cs, p c = true)
    (hds : ∀ d ∈ ds, p d = true) (hr : StopsAt p r) (hs : StopsAt p s) (h : cs ++ r = ds ++ s) :
    cs = ds ∧ r = s := by
  have hrun : cs = ds := by
    rw [← takeWhile_append_of_stopsAt hcs hr, h, takeWhile_append_of_stopsAt hds hs]
  rw [hrun] at h
  exact ⟨hrun, List.append_cancel_left h⟩

theorem continuesName_of_mem_toString {i : Nat} {c : Char} (hc : c ∈ (toString i).toList) :
    continuesName c = true := by
  rw [Nat.toString_eq_repr, Nat.toList_repr] at hc
  have hdigit : ('0' ≤ c && c ≤ '9') = true := Nat.isDigit_of_mem_toDigits (by decide) (by decide) hc
  rw [continuesName, hdigit, Bool.or_true, Bool.true_or]

theorem toString_toList_injective {i j : Nat} (h : (toString i).toList = (toString j).toList) :
    i = j := by
  rw [Nat.toString_eq_repr, Nat.toString_eq_repr, Nat.toList_repr, Nat.toList_repr] at h
  rw [← Nat.ofDigitChars_ten_toDigits (n := i), h, Nat.ofDigitChars_ten_toDigits]

namespace Term

/-! ## How a form begins -/

/-- The indexed form of the term can begin with the character. -/
def Opens : Term → Char → Prop
  | .bound _ _, c => c = '#'
  | .free _, c => beginsName c = true
  | .lam _ _, c => c = 'λ'
  | .app _ _, c => c = '('

theorem exists_opens {t : Term} (ht : ∀ x ∈ t.freeNames, IsWord x) (rest : List Char) :
    ∃ c cs, t.indexedOnto rest = c :: cs ∧ t.Opens c := by
  cases t with
  | free x =>
    obtain ⟨c, cs, hx, hbegins, -⟩ := ht x (List.mem_singleton_self x)
    exact ⟨c, cs ++ rest, by rw [indexedOnto, hx, List.cons_append], hbegins⟩
  | bound i x => exact ⟨_, _, rfl, rfl⟩
  | lam x b => exact ⟨_, _, rfl, rfl⟩
  | app f a => exact ⟨_, _, rfl, rfl⟩

/-- An abstraction that is applied stands in parentheses, and the form of no other term begins with a
parenthesis and an abstraction. -/
theorem parenthesised_ne {f g : Term} {r s : List Char} (hf : f.isLam = true) (hg : g.isLam = false)
    (hnames : ∀ x ∈ g.freeNames, IsWord x) : '(' :: f.indexedOnto r ≠ g.indexedOnto s := by
  intro h
  cases f with
  | bound | free | app => cases hf
  | lam x b =>
    cases g with
    | lam y c => cases hg
    | bound i y => cases (List.cons.inj h).1
    | free y =>
      obtain ⟨c, cs, hcs, hopens⟩ := exists_opens hnames s
      rw [hcs] at h
      obtain ⟨rfl, -⟩ := List.cons.inj h
      cases hopens
    | app g a =>
      -- the second character is `λ` on the left, and no `λ` on the right
      obtain ⟨-, h⟩ := List.cons.inj h
      by_cases hlam : g.isLam = true
      · rw [if_pos hlam] at h
        cases (List.cons.inj h).1
      · rw [if_neg hlam] at h
        have hwords : ∀ x ∈ g.freeNames, IsWord x := (List.forall_mem_append.mp hnames).1
        obtain ⟨c, cs, hcs, hopens⟩ := exists_opens hwords (' ' :: a.indexedOnto (')' :: s))
        rw [hcs] at h
        obtain ⟨rfl, -⟩ := List.cons.inj h
        cases g with
        | lam => exact hlam rfl
        | bound | free | app => cases hopens

/-! ## What a form determines -/

/-- Forms that are the same text begin with the same character. -/
theorem exists_opens_both {t u : Term} (ht : ∀ x ∈ t.freeNames, IsWord x)
    (hu : ∀ x ∈ u.freeNames, IsWord x) {r s : List Char} (h : t.indexedOnto r = u.indexedOnto s) :
    ∃ c, t.Opens c ∧ u.Opens c := by
  obtain ⟨c, cs, hcs, htopens⟩ := exists_opens ht r
  obtain ⟨d, ds, hds, huopens⟩ := exists_opens hu s
  rw [hcs, hds] at h
  obtain ⟨rfl, -⟩ := List.cons.inj h
  exact ⟨c, htopens, huopens⟩

/-- An indexed form in front of a rest determines the term, but for the names left out, and the
rest. -/
theorem indexedOnto_determined {t u : Term} (ht : ∀ x ∈ t.freeNames, IsWord x)
    (hu : ∀ x ∈ u.freeNames, IsWord x) {r s : List Char} (hr : StopsAt continuesName r)
    (hs : StopsAt continuesName s) (h : t.indexedOnto r = u.indexedOnto s) :
    t.anonymous = u.anonymous ∧ r = s := by
  induction t generalizing u r s with
  | bound i x =>
    obtain ⟨c, rfl, hopens⟩ := exists_opens_both ht hu h
    cases u with
    | free | lam | app => cases hopens
    | bound j y =>
      obtain ⟨hindex, hrest⟩ := append_determined (fun _ => continuesName_of_mem_toString)
        (fun _ => continuesName_of_mem_toString) hr hs (List.cons.inj h).2
      cases toString_toList_injective hindex
      exact ⟨rfl, hrest⟩
  | free x =>
    obtain ⟨c, hbegins, hopens⟩ := exists_opens_both ht hu h
    cases u with
    | bound | lam | app =>
      cases hopens
      cases hbegins
    | free y =>
      have hx : IsWord x := ht x (List.mem_singleton_self x)
      have hy : IsWord y := hu y (List.mem_singleton_self y)
      obtain ⟨hname, hrest⟩ := append_determined hx.continues hy.continues hr hs h
      cases String.toList_injective hname
      exact ⟨rfl, hrest⟩
  | lam x b ih =>
    obtain ⟨c, rfl, hopens⟩ := exists_opens_both ht hu h
    cases u with
    | bound | free | app => cases hopens
    | lam y d =>
      have hd : ∀ z ∈ d.freeNames, IsWord z := hu
      have hbody : ['λ', '.', ' '] ++ b.indexedOnto r = ['λ', '.', ' '] ++ d.indexedOnto s := h
      obtain ⟨hb, hrest⟩ := ih ht hd hr hs (List.append_cancel_left hbody)
      exact ⟨congrArg (lam "") hb, hrest⟩
  | app f a ihf iha =>
    obtain ⟨c, rfl, hopens⟩ := exists_opens_both ht hu h
    cases u with
    | bound | free | lam => cases hopens
    | app g b =>
      obtain ⟨hfnames, hanames⟩ := List.forall_mem_append.mp ht
      obtain ⟨hgnames, hbnames⟩ := List.forall_mem_append.mp hu
      -- once the applied terms are known to be the same, the arguments are compared
      have happ (hhead : f.anonymous = g.anonymous ∧
          ' ' :: a.indexedOnto (')' :: r) = ' ' :: b.indexedOnto (')' :: s)) :
          (app f a).anonymous = (app g b).anonymous ∧ r = s := by
        obtain ⟨hf, htail⟩ := hhead
        obtain ⟨ha, hrest⟩ := iha hanames hbnames (stopsAt_cons rfl r) (stopsAt_cons rfl s)
          (List.cons.inj htail).2
        exact ⟨congrArg₂ app hf ha, (List.cons.inj hrest).2⟩
      obtain ⟨-, h⟩ := List.cons.inj h
      apply happ
      by_cases hf : f.isLam = true
      · by_cases hg : g.isLam = true
        · rw [if_pos hf, if_pos hg] at h
          obtain ⟨hhead, htail⟩ := ihf hfnames hgnames (stopsAt_cons rfl _) (stopsAt_cons rfl _)
            (List.cons.inj h).2
          exact ⟨hhead, (List.cons.inj htail).2⟩
        · rw [if_pos hf, if_neg hg] at h
          exact (parenthesised_ne hf (Bool.eq_false_iff.mpr hg) hgnames h).elim
      · by_cases hg : g.isLam = true
        · rw [if_neg hf, if_pos hg] at h
          exact (parenthesised_ne hg (Bool.eq_false_iff.mpr hf) hfnames h.symm).elim
        · rw [if_neg hf, if_neg hg] at h
          exact ihf hfnames hgnames (stopsAt_cons rfl _) (stopsAt_cons rfl _) h

/-- **Terms whose free variables are named by words have the same indexed form exactly if they differ
in nothing but the names of binders and bound variables.** -/
theorem indexed_eq_iff_anonymous_eq {t u : Term} (ht : ∀ x ∈ t.freeNames, IsWord x)
    (hu : ∀ x ∈ u.freeNames, IsWord x) : t.indexed = u.indexed ↔ t.anonymous = u.anonymous := by
  constructor
  · intro h
    exact (indexedOnto_determined ht hu (stopsAt_nil _) (stopsAt_nil _) h).1
  · intro h
    rw [← indexed_anonymous t, ← indexed_anonymous u, h]

example : (free "#0").indexed = (bound 0 "x").indexed := rfl

/-- `(λx. k let) λy. y`, where the index of `k` is left open. -/
def pointing (i : Nat) (x y k : String) : Term :=
  app (lam x (app (bound i k) (free "let"))) (lam y (bound 0 y))

/-- Other names for its binders and bound variables leave the indexed form of that term as it is; an
index that is one digit longer does not. -/
theorem indexed_pointing :
    (∀ i x y k, ∀ z ∈ (pointing i x y k).freeNames, IsWord z) ∧
    (pointing 1 "x" "y" "k").indexed = (pointing 1 "y" "y" "let").indexed ∧
    (pointing 1 "x" "y" "k").indexed ≠ (pointing 10 "x" "y" "k").indexed := by
  have hwords (i : Nat) (x y k : String) : ∀ z ∈ (pointing i x y k).freeNames, IsWord z := by
    intro z hz
    cases List.mem_singleton.mp hz
    exact ⟨'l', ['e', 't'], rfl, rfl, by simp; decide⟩
  refine ⟨hwords, ?_, ?_⟩
  · exact (indexed_eq_iff_anonymous_eq (hwords _ _ _ _) (hwords _ _ _ _)).mpr rfl
  · exact mt (indexed_eq_iff_anonymous_eq (hwords _ _ _ _) (hwords _ _ _ _)).mp (by decide)

end Term

end LambdaCalculus
