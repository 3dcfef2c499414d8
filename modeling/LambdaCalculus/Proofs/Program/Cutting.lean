import LambdaCalculus.Proofs.Program.Lexing

/-!
# Cutting a text from the left

A text is read from the left: layout and whole tokens are cut off its front, one piece after the
other, until there is no text left or no token begins where it stands.

* `Cut here cs ts there left` — pieces with the tokens `ts` are cut off the text `cs`, which begins at
  an offset, and `left` is what remains at another.
* `Scan.fault?` — the fault of a place where no token begins.
* `Cut.at_token` — a text is cut before each of its tokens.
* `exists_cut` — a text can be cut up to its end, or up to such a place.
* `lexFrom_of_cut` — the tokens of a text begin with those that are cut off it.
-/

namespace LambdaCalculus

/-! ## One piece -/

/-- The piece that was found has a character, and lies within so many. -/
def Scan.Within (n : Nat) : Scan → Prop
  | .layout width | .token _ width | .mistake _ width => 0 < width ∧ width ≤ n
  | .longNumeral _ => True

/-- The fault of the place at an offset of `source`, if no token begins there. -/
def Scan.fault? (source : String) (here : Nat) : Scan → Option Fault
  | .mistake what width => some (.mistake what (spanOf here width) source)
  | .longNumeral digits => some (.longNumeral digits)
  | _ => none

theorem within_scanQuoted (rest : List Char) : (scanQuoted rest).Within (rest.length + 1) := by
  unfold scanQuoted
  split
  · split
    · exact ⟨Nat.one_pos, by simp⟩
    · split <;> exact ⟨Nat.succ_pos 3, by simp⟩
  · split <;> exact ⟨by omega, by simp⟩
  · exact ⟨Nat.one_pos, by simp⟩

/-- What a text begins with lies within the text. -/
theorem within_scan (c : Char) (rest : List Char) : (scan c rest).Within (rest.length + 1) := by
  have hwhile (p : Char → Bool) : (rest.takeWhile p).length ≤ rest.length :=
    (List.takeWhile_prefix p).length_le
  unfold scan
  split
  · exact ⟨Nat.one_pos, by simp⟩
  split
  · exact ⟨by omega, by have := hwhile (· ≠ '\n'); omega⟩
  split
  · exact within_scanQuoted rest
  split
  · unfold scanNumber
    split
    · exact trivial
    · exact ⟨Nat.succ_pos _, Nat.succ_le_succ (hwhile _)⟩
  split
  · exact ⟨Nat.succ_pos _, Nat.succ_le_succ (hwhile _)⟩
  split <;> exact ⟨Nat.one_pos, by simp⟩

/-- Layout is a blank, or a comment up to the end of its line. -/
theorem scan_eq_layout {c : Char} {rest : List Char} {width : Nat}
    (h : scan c rest = .layout width) : Lexeme.isBlank c = true ∧ width = 1 ∨
      c = '#' ∧ width = 1 + (rest.takeWhile (· ≠ '\n')).length := by
  unfold scan at h
  split at h
  · rename_i hblank
    exact .inl ⟨hblank, (Scan.layout.inj h).symm⟩
  split at h
  · rename_i hcomment
    exact .inr ⟨hcomment, (Scan.layout.inj h).symm⟩
  split at h
  · unfold scanQuoted at h
    repeat' split at h
    all_goals cases h
  split at h
  · unfold scanNumber at h
    split at h <;> cases h
  split at h
  · cases h
  split at h <;> cases h

theorem scan_comment (rest : List Char) :
    scan '#' rest = .layout ((rest.takeWhile (· ≠ '\n')).length + 1) := by
  rw [scan, if_neg (by decide), if_pos rfl, Nat.add_comm]

theorem scanQuoted_eq_mistake {rest : List Char} {what : Mistake} {width : Nat}
    (h : scanQuoted rest = .mistake what width) :
    what = .unexpectedCharacter '\'' ∧ width = 1 ∨ ∃ d, what = .unknownEscape d ∧ width = 4 := by
  unfold scanQuoted at h
  split at h
  · split at h
    · cases h
      exact .inl ⟨rfl, rfl⟩
    · split at h
      · cases h
      · cases h
        exact .inr ⟨_, rfl, rfl⟩
  · split at h
    · cases h
      exact .inl ⟨rfl, rfl⟩
    · cases h
  · cases h
    exact .inl ⟨rfl, rfl⟩

/-- Where no token begins, the first character is at fault, or a literal with an escape. -/
theorem scan_eq_mistake {c : Char} {rest : List Char} {what : Mistake} {width : Nat}
    (h : scan c rest = .mistake what width) :
    what = .unexpectedCharacter c ∧ width = 1 ∨ ∃ d, what = .unknownEscape d ∧ width = 4 := by
  unfold scan at h
  split at h
  · cases h
  split at h
  · cases h
  split at h
  · rename_i hquote
    rw [hquote]
    exact scanQuoted_eq_mistake h
  split at h
  · unfold scanNumber at h
    split at h <;> cases h
  split at h
  · cases h
  split at h
  · cases h
  · cases h
    exact .inl ⟨rfl, rfl⟩

/-! ## Many pieces -/

/-- Layout and whole tokens are cut off the text that begins at an offset, one piece after the
other, and the rest begins at another. -/
inductive Cut : Nat → List Char → List Token → Nat → List Char → Prop where
  /-- No piece. -/
  | done (here : Nat) (cs : List Char) : Cut here cs [] here cs
  /-- A piece of layout. -/
  | layout {here there : Nat} {c : Char} {piece cs left : List Char} {ts : List Token}
      (hscan : scan c (piece ++ cs) = .layout (piece.length + 1))
      (h : Cut (here + (piece.length + 1)) cs ts there left) :
      Cut here (c :: piece ++ cs) ts there left
  /-- A token. -/
  | token {here there : Nat} {c : Char} {piece cs left : List Char} {what : Lexeme}
      {ts : List Token} (hscan : scan c (piece ++ cs) = .token what (piece.length + 1))
      (h : Cut (here + (piece.length + 1)) cs ts there left) :
      Cut here (c :: piece ++ cs) (⟨what, spanOf here (piece.length + 1)⟩ :: ts) there left

/-- What is cut off is the front of the text. -/
theorem Cut.exists_eq_append {here there : Nat} {cs left : List Char} {ts : List Token}
    (h : Cut here cs ts there left) :
    ∃ before, cs = before ++ left ∧ there = here + before.length := by
  induction h with
  | done here cs => exact ⟨[], rfl, rfl⟩
  | @layout here there c piece cs left ts _ _ ih | @token here there c piece cs left what ts _ _ ih =>
    obtain ⟨before, rfl, rfl⟩ := ih
    refine ⟨c :: piece ++ before, (List.append_assoc ..).symm, ?_⟩
    rw [List.length_append, List.length_cons, Nat.add_assoc]

/-- Offsets count the characters that were cut off. -/
theorem Cut.length {here there : Nat} {cs left : List Char} {ts : List Token}
    (h : Cut here cs ts there left) : there + left.length = here + cs.length := by
  obtain ⟨before, rfl, rfl⟩ := h.exists_eq_append
  rw [List.length_append, Nat.add_assoc]

/-- The tokens are cut off one after the other. -/
theorem Cut.of_append {here there : Nat} {cs left : List Char} {ts us : List Token}
    (h : Cut here cs (ts ++ us) there left) : ∃ mid rest, Cut here cs ts mid rest := by
  generalize htokens : ts ++ us = vs at h
  induction h generalizing ts with
  | done here cs =>
    obtain ⟨rfl, -⟩ := List.append_eq_nil_iff.mp htokens
    exact ⟨here, cs, .done here cs⟩
  | layout hscan _ ih =>
    obtain ⟨mid, rest, hcut⟩ := ih htokens
    exact ⟨mid, rest, .layout hscan hcut⟩
  | token hscan _ ih =>
    cases ts with
    | nil => exact ⟨_, _, .done ..⟩
    | cons t ts =>
      obtain ⟨rfl, htail⟩ := List.cons.inj htokens
      obtain ⟨mid, rest, hcut⟩ := ih htail
      exact ⟨mid, rest, .token hscan hcut⟩

theorem Cut.trans {here mid there : Nat} {cs rest left : List Char} {ts us : List Token}
    (h : Cut here cs ts mid rest) (h' : Cut mid rest us there left) :
    Cut here cs (ts ++ us) there left := by
  induction h with
  | done here cs => exact h'
  | layout hscan _ ih => exact .layout hscan (ih h')
  | token hscan _ ih => exact .token hscan (ih h')

/-- A text is cut before each of its tokens. -/
theorem Cut.at_token {here there : Nat} {cs left : List Char} {ts us : List Token} {t : Token}
    (h : Cut here cs (ts ++ t :: us) there left) :
    ∃ mid c piece rest, Cut here cs ts mid (c :: piece ++ rest) ∧
      scan c (piece ++ rest) = .token t.lexeme (piece.length + 1) ∧
      t.span = spanOf mid (piece.length + 1) ∧ Cut (mid + (piece.length + 1)) rest us there left := by
  generalize htokens : ts ++ t :: us = vs at h
  induction h generalizing ts with
  | done here cs => cases (List.append_eq_nil_iff.mp htokens).2
  | layout hscan _ ih =>
    obtain ⟨mid, c, piece, rest, hcut, hpiece⟩ := ih htokens
    exact ⟨mid, c, piece, rest, .layout hscan hcut, hpiece⟩
  | @token here there c piece cs left what vs hscan hrest ih =>
    cases ts with
    | nil =>
      obtain ⟨rfl, rfl⟩ := List.cons.inj htokens
      exact ⟨here, c, piece, cs, .done .., hscan, rfl, hrest⟩
    | cons u ts =>
      obtain ⟨rfl, htail⟩ := List.cons.inj htokens
      obtain ⟨mid, c, piece, rest, hcut, hpiece⟩ := ih htail
      exact ⟨mid, c, piece, rest, .token hscan hcut, hpiece⟩

/-- A text can be cut up to its end, or up to a place where no token begins. -/
theorem exists_cut (source : String) (here : Nat) (cs : List Char) :
    ∃ ts there left, Cut here cs ts there left ∧
      (left = [] ∨ ∃ c rest fault, left = c :: rest ∧
        (scan c rest).fault? source there = some fault) := by
  induction hlength : cs.length using Nat.strongRecOn generalizing here cs with
  | ind n ih =>
    cases cs with
    | nil => exact ⟨[], here, [], .done here [], .inl rfl⟩
    | cons c rest =>
      -- what is left after one piece is shorter
      have hpiece {width : Nat} (h : 0 < width ∧ width ≤ rest.length + 1) :
          ∃ piece cs, rest = piece ++ cs ∧ width = piece.length + 1 ∧
            ∃ ts there left, Cut (here + width) cs ts there left ∧
              (left = [] ∨ ∃ c rest fault, left = c :: rest ∧
                (scan c rest).fault? source there = some fault) := by
        refine ⟨rest.take (width - 1), rest.drop (width - 1), (List.take_append_drop ..).symm, ?_,
          ih (rest.drop (width - 1)).length ?_ (here + width) _ rfl⟩
        · rw [List.length_take]
          omega
        · rw [← hlength, List.length_drop, List.length_cons]
          omega
      have hwithin := within_scan c rest
      cases hscan : scan c rest with
      | layout width =>
        rw [hscan] at hwithin
        obtain ⟨piece, cs, rfl, rfl, ts, there, left, hcut, hleft⟩ := hpiece hwithin
        exact ⟨ts, there, left, .layout hscan hcut, hleft⟩
      | token what width =>
        rw [hscan] at hwithin
        obtain ⟨piece, cs, rfl, rfl, ts, there, left, hcut, hleft⟩ := hpiece hwithin
        exact ⟨_, there, left, .token hscan hcut, hleft⟩
      | mistake what width =>
        exact ⟨[], here, c :: rest, .done .., .inr ⟨c, rest, _, rfl, by rw [hscan]; rfl⟩⟩
      | longNumeral digits =>
        exact ⟨[], here, c :: rest, .done .., .inr ⟨c, rest, _, rfl, by rw [hscan]; rfl⟩⟩

/-! ## The tokens of a text -/

/-- The tokens of a text begin with those that are cut off it. -/
theorem lexFrom_of_cut (source : String) {here there : Nat} {cs left : List Char} {ts : List Token}
    (h : Cut here cs ts there left) : lexFrom source 0 here cs =
      ⟨ts ++ (lexFrom source 0 there left).tokens, (lexFrom source 0 there left).fault?⟩ := by
  have hpass (here : Nat) (piece cs : List Char) :
      lexFrom source piece.length (here + 1) (piece ++ cs) =
        lexFrom source 0 (here + (piece.length + 1)) cs := by
    rw [lexFrom_pass, Nat.add_right_comm, Nat.add_assoc]
  induction h with
  | done here cs => rfl
  | layout hscan _ ih =>
    rw [List.cons_append, lexFrom, hscan]
    simp only [Nat.add_sub_cancel, hpass, ih]
  | token hscan _ ih =>
    rw [List.cons_append, lexFrom, hscan]
    simp only [Nat.add_sub_cancel, hpass, ih, List.cons_append]

/-- The lexing of a text that can be cut so far. -/
theorem lex_of_cut {source : String} {there : Nat} {left : List Char} {ts : List Token}
    (h : Cut 0 source.toList ts there left) : lex source =
      ⟨ts ++ (lexFrom source 0 there left).tokens, (lexFrom source 0 there left).fault?⟩ :=
  lexFrom_of_cut source h

theorem lexFrom_of_fault {source : String} {here : Nat} {c : Char} {rest : List Char} {fault : Fault}
    (h : (scan c rest).fault? source here = some fault) :
    lexFrom source 0 here (c :: rest) = ⟨[], some fault⟩ := by
  rw [lexFrom]
  cases hscan : scan c rest with
  | layout | token => rw [hscan] at h; cases h
  | mistake | longNumeral => rw [hscan] at h; cases h; rfl

/-- A text that can be cut up to its end is in order. -/
theorem lex_of_cut_nil {source : String} {there : Nat} {ts : List Token}
    (h : Cut 0 source.toList ts there []) : lex source = ⟨ts, none⟩ := by
  rw [lex_of_cut h, lexFrom, List.append_nil]

/-- A text that can be cut up to a place where no token begins has the fault of that place. -/
theorem lex_of_cut_fault {source : String} {here : Nat} {c : Char} {rest : List Char}
    {ts : List Token} {fault : Fault} (h : Cut 0 source.toList ts here (c :: rest))
    (hfault : (scan c rest).fault? source here = some fault) : lex source = ⟨ts, some fault⟩ := by
  rw [lex_of_cut h, lexFrom_of_fault hfault, List.append_nil]

end LambdaCalculus
