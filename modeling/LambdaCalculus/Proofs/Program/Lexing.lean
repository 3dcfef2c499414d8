import LambdaCalculus.Program.Token

/-!
# Texts and their lexemes

`Lexes cs ls` says that a text is in order and what it says, wherever it stands in a source.  It is
built from right to left: in front of a text there can be layout, a sign, a character between
quotes, a name or a number, the last two as long as the text does not go on with them.

* `IsName` — the words that are names.
* `isName_of_lex` — every name that a text says is one.
* `Lexes.sign`, `Lexes.name`, `Lexes.number`, `Lexes.character`, `Lexes.escape` — the pieces of a
  text.
-/

namespace LambdaCalculus

open Lexeme

/-- A word that is a name: it begins and goes on as names do, and is not the word `let`. -/
def IsName (x : String) : Prop :=
  ∃ c cs, x.toList = c :: cs ∧ beginsName c = true ∧ (∀ d ∈ cs, continuesName d = true) ∧
    c :: cs ≠ ['l', 'e', 't']

/-! ## The names that a text says -/

theorem isName_of_scan {c : Char} {rest : List Char} {x : String} {width : Nat}
    (h : scan c rest = .token (.name x) width) : IsName x := by
  unfold scan at h
  split at h
  · cases h
  split at h
  · cases h
  split at h
  · unfold scanQuoted at h
    repeat' split at h
    all_goals cases h
  split at h
  · unfold scanNumber at h
    split at h <;> cases h
  split at h
  · rename_i hbegins
    dsimp only [ofWord] at h
    split at h
    · cases h
    · rename_i hlet
      cases h
      exact ⟨c, _, String.toList_ofList, hbegins, List.all_eq_true.mp List.all_takeWhile, hlet⟩
  split at h
  · rename_i hsign
    cases h
    unfold sign? at hsign
    split at hsign <;> cases hsign
  · cases h

theorem isName_of_lexFrom {source : String} {pass here : Nat} {cs : List Char} {t : Token}
    (ht : t ∈ (lexFrom source pass here cs).tokens) {x : String} (hx : t.lexeme = .name x) :
    IsName x := by
  induction cs generalizing pass here with
  | nil =>
    rw [lexFrom] at ht
    cases ht
  | cons c rest ih =>
    cases pass with
    | succ pass => exact ih ht
    | zero =>
      rw [lexFrom] at ht
      cases hscan : scan c rest with
      | layout width =>
        rw [hscan] at ht
        exact ih ht
      | token what width =>
        rw [hscan] at ht
        rcases List.mem_cons.mp ht with rfl | ht
        · cases hx
          exact isName_of_scan hscan
        · exact ih ht
      | mistake what width =>
        rw [hscan] at ht
        cases ht
      | longNumeral digits =>
        rw [hscan] at ht
        cases ht

/-- Every name that a text says is a name. -/
theorem isName_of_lex {source : String} {t : Token} (ht : t ∈ (lex source).tokens) {x : String}
    (hx : t.lexeme = .name x) : IsName x :=
  isName_of_lexFrom ht hx

/-! ## Texts in order -/

/-- Wherever it stands, the text is in order and its lexemes are `ls`. -/
def Lexes (cs : List Char) (ls : List Lexeme) : Prop :=
  ∀ source here, ∃ ts, lexFrom source 0 here cs = ⟨ts, none⟩ ∧ ts.map Token.lexeme = ls

/-- The text does not begin with a character of the class. -/
def StopsAt (p : Char → Bool) (cs : List Char) : Prop := ∀ c ∈ cs.head?, p c = false

theorem stopsAt_nil (p : Char → Bool) : StopsAt p [] := by
  intro c hc
  cases hc

theorem stopsAt_cons {p : Char → Bool} {c : Char} (hc : p c = false) (cs : List Char) :
    StopsAt p (c :: cs) := by
  rintro d ⟨⟩
  exact hc

theorem lexFrom_pass (source : String) (here : Nat) (cs rest : List Char) :
    lexFrom source cs.length here (cs ++ rest) = lexFrom source 0 (here + cs.length) rest := by
  induction cs generalizing here with
  | nil => rfl
  | cons c cs ih =>
    rw [List.length_cons, List.cons_append, lexFrom, ih, Nat.add_assoc, Nat.add_comm 1]

theorem takeWhile_append_of_stopsAt {p : Char → Bool} {cs rest : List Char}
    (hcs : ∀ c ∈ cs, p c = true) (hrest : StopsAt p rest) : (cs ++ rest).takeWhile p = cs := by
  rw [List.takeWhile_append_of_pos hcs]
  cases rest with
  | nil => exact List.append_nil cs
  | cons c rest =>
    rw [List.takeWhile_cons_of_neg (by simp [hrest c rfl]), List.append_nil]

/-- Where a name begins, no number does. -/
theorem isDigit_of_beginsName {c : Char} (h : beginsName c = true) : Text.isDigit c = false := by
  have hrange : 97 ≤ c.toNat ∧ c.toNat ≤ 122 ∨ 65 ≤ c.toNat ∧ c.toNat ≤ 90 ∨ c.toNat = 95 := by
    simp only [beginsName, Bool.or_eq_true, Bool.and_eq_true, decide_eq_true_eq, Char.le_def,
      UInt32.le_iff_toNat_le] at h
    rcases h with (h | h) | rfl
    · exact .inl h
    · exact .inr (.inl h)
    · exact .inr (.inr rfl)
  have hdigit : ¬ ('0' ≤ c ∧ c ≤ '9') := by
    rintro ⟨h0, h9⟩
    have h0 : 48 ≤ c.toNat := h0
    have h9 : c.toNat ≤ 57 := h9
    omega
  rw [Text.isDigit, Text.digitValue?, if_pos (by omega)]
  simpa using hdigit

/-- A class of characters without those that begin layout or a quoted literal. -/
theorem not_layout {p : Char → Bool} (hp : [' ', '\t', '\r', '\n', '#', '\''].any p = false)
    {c : Char} (hc : p c = true) : ¬ isBlank c = true ∧ c ≠ '#' ∧ c ≠ '\'' := by
  have hne {d : Char} (hd : d ∈ [' ', '\t', '\r', '\n', '#', '\'']) : c ≠ d := by
    rintro rfl
    exact List.any_eq_false.mp hp c hd hc
  refine ⟨?_, hne (by decide), hne (by decide)⟩
  simp only [isBlank, Bool.or_eq_true, decide_eq_true_eq, not_or]
  exact ⟨⟨⟨hne (by decide), hne (by decide)⟩, hne (by decide)⟩, hne (by decide)⟩

/-- What begins with a digit is the number that the digits write, as far as they go. -/
theorem scan_digits {c : Char} {word cs : List Char}
    (hdigits : ∀ d ∈ c :: word, Text.isDigit d = true) (hcs : StopsAt Text.isDigit cs) :
    scan c (word ++ cs) = scanNumber (c :: word) := by
  obtain ⟨hc, hword⟩ := List.forall_mem_cons.mp hdigits
  obtain ⟨hblank, hcomment, hquote⟩ := not_layout (by decide) hc
  rw [scan, if_neg hblank, if_neg hcomment, if_neg hquote, if_pos hc,
    takeWhile_append_of_stopsAt hword hcs]

theorem scan_blank {c : Char} (hc : isBlank c = true) (rest : List Char) :
    scan c rest = .layout 1 := by
  rw [scan, if_pos hc]

namespace Lexes

theorem nil : Lexes [] [] := fun _ _ => ⟨[], rfl, rfl⟩

/-- A piece of layout in front. -/
theorem layout {c : Char} {cs : List Char} {ls : List Lexeme} (hc : isBlank c = true)
    (h : Lexes cs ls) : Lexes (c :: cs) ls := by
  intro source here
  rw [lexFrom, scan_blank hc]
  exact h source (here + 1)

/-- A token of some characters in front. -/
theorem token {c : Char} {word cs : List Char} {l : Lexeme} {ls : List Lexeme}
    (hscan : scan c (word ++ cs) = .token l (word.length + 1)) (h : Lexes cs ls) :
    Lexes (c :: word ++ cs) (l :: ls) := by
  intro source here
  obtain ⟨ts, hts, hls⟩ := h source (here + 1 + word.length)
  refine ⟨⟨l, spanOf here (word.length + 1)⟩ :: ts, ?_, by rw [List.map_cons, hls]⟩
  rw [List.cons_append, lexFrom, hscan]
  simp only [Nat.add_sub_cancel, lexFrom_pass, hts]

/-- A sign in front. -/
theorem sign {c : Char} {l : Lexeme} (hc : ∀ cs, scan c cs = .token l 1) {cs : List Char}
    {ls : List Lexeme} (h : Lexes cs ls) : Lexes (c :: cs) (l :: ls) :=
  @token c [] cs l ls (hc cs) h

/-- A name in front, where the text does not go on with it. -/
theorem name {x : String} (hx : IsName x) {cs : List Char} {ls : List Lexeme}
    (hcs : StopsAt continuesName cs) (h : Lexes cs ls) : Lexes (x.toList ++ cs) (.name x :: ls) := by
  obtain ⟨c, word, hword, hbegins, hcontinues, hlet⟩ := hx
  rw [hword]
  refine token ?_ h
  have hwhole : String.ofList (c :: word) = x := by rw [← hword, String.ofList_toList]
  obtain ⟨hblank, hcomment, hquote⟩ := not_layout (by decide) hbegins
  have hdigit : ¬ Text.isDigit c = true := by
    rw [isDigit_of_beginsName hbegins]
    exact Bool.false_ne_true
  rw [scan, if_neg hblank, if_neg hcomment, if_neg hquote, if_neg hdigit, if_pos hbegins,
    takeWhile_append_of_stopsAt hcontinues hcs]
  simp only [ofWord, if_neg hlet, hwhole, List.length_cons]

/-- A number in front, where the text does not go on with it. -/
theorem number {digits : List Char} (hdigits : ∀ c ∈ digits, Text.isDigit c = true)
    (hnil : digits ≠ []) (hlength : digits.length ≤ maxDigits) {cs : List Char} {ls : List Lexeme}
    (hcs : StopsAt Text.isDigit cs) (h : Lexes cs ls) :
    Lexes (digits ++ cs) (.number (Text.ofDigits digits) :: ls) := by
  obtain ⟨c, word, rfl⟩ := List.exists_cons_of_ne_nil hnil
  refine token ?_ h
  rw [scan_digits hdigits hcs, scanNumber, if_neg (by omega)]
  rfl

/-- A character in front that stands between quotes as it is. -/
theorem character {c : Char} (hbackslash : c ≠ '\\') (hquote : c ≠ '\'') (hline : c ≠ '\n')
    {cs : List Char} {ls : List Lexeme} (h : Lexes cs ls) :
    Lexes ('\'' :: c :: '\'' :: cs) (.character c :: ls) := by
  refine @token '\'' [c, '\''] cs _ ls ?_ h
  have hscan : scan '\'' ([c, '\''] ++ cs) = scanQuoted (c :: '\'' :: cs) := rfl
  rw [hscan, scanQuoted, if_neg (by simp [hbackslash, hquote, hline])]
  · rfl
  -- a backslash would begin an escape
  · intro rest hc _
    exact hbackslash hc

/-- A character in front that stands between quotes as the escape `e`. -/
theorem escape {e c : Char} (he : unescaped? e = some c) {cs : List Char} {ls : List Lexeme}
    (h : Lexes cs ls) : Lexes ('\'' :: '\\' :: e :: '\'' :: cs) (.character c :: ls) := by
  refine @token '\'' ['\\', e, '\''] cs _ ls ?_ h
  have hline : e ≠ '\n' := by
    rintro rfl
    cases he
  have hscan : scan '\'' (['\\', e, '\''] ++ cs) = scanQuoted ('\\' :: e :: '\'' :: cs) := rfl
  rw [hscan, scanQuoted, if_neg hline, he]
  rfl

end Lexes

end LambdaCalculus
