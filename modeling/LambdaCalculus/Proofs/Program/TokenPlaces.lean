import LambdaCalculus.Proofs.Program.Cutting
import LambdaCalculus.Proofs.Program.Recognition

/-!
# Where tokens stand

Every token has the place of the characters that it was cut off as.  So tokens stand in the text one
after the other, none of them is empty, and what stands at the place of a token is a way to write it.

* `Lexeme.Written` — the ways to write what a token says.
* `written_of_scan` — what is cut off as a token is a way to write it.
* `Cut.bounds`, `Cut.inOrder` — tokens stand in the text one after the other.
* `Cut.exists_word` — the characters that a token was cut off as.
* `cut_of_parse`, `standing_of_parse` — a text that is read as a program is cut up to its end, and its
  tokens stand in it.
-/

namespace LambdaCalculus

/-! ## One token -/

/-- The text is a way to write what the token says. -/
def Lexeme.Written : Lexeme → List Char → Prop
  | .name x, cs => cs = x.toList
  | .number n, cs => cs ≠ [] ∧ (∀ c ∈ cs, Text.isDigit c = true) ∧ Text.ofDigits cs = n
  | .character u, cs =>
    cs = ['\'', u, '\''] ∧ u ≠ '\\' ∧ u ≠ '\'' ∧ u ≠ '\n' ∨
      ∃ c, cs = ['\'', '\\', c, '\''] ∧ unescaped? c = some u
  | .letWord, cs => cs = ['l', 'e', 't']
  | sign, cs => ∃ c, cs = [c] ∧ sign? c = some sign

theorem written_of_scanQuoted {rest : List Char} {l : Lexeme} {width : Nat}
    (h : scanQuoted rest = .token l width) : l.Written ('\'' :: rest.take (width - 1)) := by
  unfold scanQuoted at h
  split at h
  · split at h
    · cases h
    · split at h
      · rename_i hescape
        cases h
        exact .inr ⟨_, rfl, hescape⟩
      · cases h
  · split at h
    · cases h
    · rename_i hplain
      cases h
      simp only [Bool.or_eq_true, decide_eq_true_eq, not_or] at hplain
      exact .inl ⟨rfl, hplain.1.1, hplain.1.2, hplain.2⟩
  · cases h

theorem take_length_takeWhile (p : Char → Bool) (cs : List Char) :
    cs.take (cs.takeWhile p).length = cs.takeWhile p :=
  (List.prefix_iff_eq_take.mp (List.takeWhile_prefix p)).symm

/-- What a text begins with, when that is a token, is a way to write it. -/
theorem written_of_scan {c : Char} {rest : List Char} {l : Lexeme} {width : Nat}
    (h : scan c rest = .token l width) : l.Written (c :: rest.take (width - 1)) := by
  unfold scan at h
  split at h
  · cases h
  split at h
  · cases h
  split at h
  · rename_i hquote
    rw [hquote]
    exact written_of_scanQuoted h
  split at h
  · rename_i hdigit
    unfold scanNumber at h
    split at h
    · cases h
    · cases h
      rw [List.length_cons, Nat.add_sub_cancel, take_length_takeWhile]
      exact ⟨List.cons_ne_nil _ _,
        List.forall_mem_cons.mpr ⟨hdigit, List.all_eq_true.mp List.all_takeWhile⟩, rfl⟩
  split at h
  · cases h
    rw [List.length_cons, Nat.add_sub_cancel, take_length_takeWhile, Lexeme.ofWord]
    split
    · assumption
    · exact String.toList_ofList.symm
  split at h
  · rename_i hsign
    cases h
    unfold Lexeme.sign? at hsign
    split at hsign <;> cases hsign <;> exact ⟨_, rfl, rfl⟩
  · cases h

/-! ## Tokens one after the other -/

/-- The tokens stand one after the other, and none is empty. -/
def InOrder (ts : List Token) : Prop :=
  ts.Pairwise (fun t u => t.span.stop ≤ u.span.start) ∧ ∀ t ∈ ts, t.span.start < t.span.stop

theorem InOrder.sublist {ts us : List Token} (h : InOrder ts) (hsub : us.Sublist ts) : InOrder us :=
  ⟨h.1.sublist hsub, fun t ht => h.2 t (hsub.subset ht)⟩

namespace Cut

variable {here there : Nat} {cs left : List Char} {ts : List Token}

/-- Tokens stand within the characters that were cut off. -/
theorem bounds (h : Cut here cs ts there left) : ∀ t ∈ ts,
    (here : Int) ≤ t.span.start ∧ t.span.start < t.span.stop ∧ t.span.stop ≤ there := by
  have hle {here there : Nat} {cs left : List Char} {ts : List Token}
      (h : Cut here cs ts there left) : here ≤ there := by
    induction h with
    | done here cs => exact Nat.le_refl here
    | layout _ _ ih => omega
    | token _ _ ih => omega
  induction h with
  | done here cs => exact List.forall_mem_nil _
  | layout _ _ ih =>
    intro t ht
    obtain ⟨hstart, hne, hstop⟩ := ih t ht
    exact ⟨by omega, hne, hstop⟩
  | token _ hrest ih =>
    intro t ht
    have hthere := hle hrest
    rcases List.mem_cons.mp ht with rfl | ht
    · simp only [spanOf]
      omega
    · obtain ⟨hstart, hne, hstop⟩ := ih t ht
      exact ⟨by omega, hne, hstop⟩

theorem inOrder (h : Cut here cs ts there left) : InOrder ts := by
  refine ⟨?_, fun t ht => (h.bounds t ht).2.1⟩
  induction h with
  | done here cs => exact .nil
  | layout _ _ ih => exact ih
  | token _ hrest ih =>
    refine .cons ?_ ih
    intro u hu
    have hstart := (hrest.bounds u hu).1
    simpa only [spanOf, Int.natCast_add] using hstart

/-- Every token has the place of the characters that it was cut off as, which are a way to write
it. -/
theorem exists_word (h : Cut here cs ts there left) : ∀ t ∈ ts, ∃ before word after,
    cs = before ++ word ++ after ∧ t.span = spanOf (here + before.length) word.length ∧
      t.lexeme.Written word := by
  intro t ht
  obtain ⟨us, vs, rfl⟩ := List.append_of_mem ht
  obtain ⟨mid, c, piece, rest, hcut, hscan, hspan, -⟩ := h.at_token
  obtain ⟨before, rfl, rfl⟩ := hcut.exists_eq_append
  have hwritten := written_of_scan hscan
  rw [Nat.add_sub_cancel, List.take_left] at hwritten
  exact ⟨before, c :: piece, rest, (List.append_assoc ..).symm, hspan, hwritten⟩

end Cut

/-! ## Tokens of a program -/

/-- A text that is read as a program is cut up to its end. -/
theorem cut_of_parse {source : String} {p : Program} (h : Program.parse source = .ok p) :
    Cut 0 source.toList (lex source).tokens source.length [] := by
  obtain ⟨ts, there, left, hcut, hleft⟩ := exists_cut source 0 source.toList
  rcases hleft with rfl | ⟨c, rest, fault, rfl, hfault⟩
  · obtain rfl : there = source.length := by simpa [String.length_toList] using hcut.length
    rwa [lex_of_cut_nil hcut]
  · rw [Program.parse, lex_of_cut_fault hcut hfault] at h
    exact (Reader.run_fault source .start ts fault p h).elim

/-- The tokens stand in the text: within it, one after the other, and each where it is written. -/
structure Standing (text : List Char) (ts : List Token) : Prop where
  /-- They stand one after the other, and none is empty. -/
  inOrder : InOrder ts
  /-- They stand within the text. -/
  within : ∀ t ∈ ts, 0 ≤ t.span.start ∧ t.span.stop ≤ text.length
  /-- What stands at the place of a token is a way to write it. -/
  written : ∀ t ∈ ts, t.lexeme.Written (t.span.extract text)

theorem Standing.sublist {text : List Char} {ts us : List Token} (h : Standing text ts)
    (hsub : us.Sublist ts) : Standing text us :=
  ⟨h.inOrder.sublist hsub, fun t ht => h.within t (hsub.subset ht),
    fun t ht => h.written t (hsub.subset ht)⟩

theorem extract_append (before word after : List Char) :
    (spanOf before.length word.length).extract (before ++ word ++ after) = word := by
  have hplace {n m : Nat} (hn : n ≤ m) : Span.place m n = n := by
    rw [Span.place, if_neg (by omega), Int.toNat_natCast, Nat.min_eq_left hn]
  rw [spanOf, Span.extract, hplace (by simp), ← Int.natCast_add, hplace (by simp),
    ← List.length_append, List.take_left, List.drop_left]

/-- The tokens of a program stand in its text. -/
theorem standing_of_parse {source : String} {p : Program} (h : Program.parse source = .ok p) :
    Standing source.toList (lex source).tokens := by
  have hcut := cut_of_parse h
  refine ⟨hcut.inOrder, ?_, ?_⟩
  · intro t ht
    obtain ⟨hstart, -, hstop⟩ := hcut.bounds t ht
    rw [String.length_toList]
    exact ⟨hstart, hstop⟩
  · intro t ht
    obtain ⟨before, word, after, hsource, hspan, hwritten⟩ := hcut.exists_word t ht
    rwa [hsource, hspan, Nat.zero_add, extract_append]

end LambdaCalculus
