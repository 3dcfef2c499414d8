import LambdaCalculus.Proofs.Arithmetic

/-!
# Literals

A literal is a run of decimal digits, of any scripts, or a character between quotes.  On its own it is
a program, and it loads as the numeral of its value: resolution finds no name in a numeral that it
could give another index to.  The numeral, applied to the two variables and evaluated, is counted as
the value again.

* `Literal` — the literals, with `Literal.text` and `Literal.value`.
* `Literal.writes` — what the text of a literal means.
* `Literal.loads_and_counts` — so it loads as the numeral of its value and is counted as it.
-/

namespace LambdaCalculus

/-- A literal. -/
inductive Literal where
  /-- A decimal numeral. -/
  | number (digits : Digits)
  /-- A character. -/
  | character (c : Char)

namespace Literal

/-- What stands for a character between quotes: three characters have to be escaped, the others
stand for themselves. -/
def quotedCharacter : Char → List Char
  | '\n' => ['\\', 'n']
  | '\'' => ['\\', '\'']
  | '\\' => ['\\', '\\']
  | c => [c]

/-- The text of a literal. -/
def text : Literal → List Char
  | .number digits => digits.chars
  | .character c => '\'' :: quotedCharacter c ++ ['\'']

/-- The number that a literal stands for: a character stands for its code point. -/
def value : Literal → Nat
  | .number digits => digits.value
  | .character c => c.toNat

/-- In front of a text in order, the quoted form of a character says that character. -/
theorem lexes_character (c : Char) {cs : List Char} {ls : List Lexeme} (h : Lexes cs ls) :
    Lexes ('\'' :: quotedCharacter c ++ ['\''] ++ cs) (.character c :: ls) := by
  unfold quotedCharacter
  split
  · exact .escape rfl h
  · exact .escape rfl h
  · exact .escape rfl h
  · rename_i hline hquote hbackslash
    exact .character hbackslash hquote hline h

/-- The text of a literal is an atom that means the numeral of its value, in front of any text that
does not go on with it. -/
theorem writes (l : Literal) : Arith.Writes l.text (.numeral l.value) := by
  cases l with
  | number digits => exact Arith.writes_digits digits
  | character c => exact ⟨_, .character c, fun _ h => lexes_character c h⟩

/-- A literal loads as the numeral of its value, and that numeral is counted as the value. -/
theorem loads_and_counts (l : Literal) :
    Settles (fun limit => load limit false (String.ofList l.text)) (.ok (.numeral l.value)) ∧
    Settles (fun bounds : Bounds => countNumeral bounds silent (.numeral l.value))
      (.ok (some l.value)) := by
  obtain ⟨ls, hlexes, hspells⟩ := l.writes.exists_spells
  have hload := settles_load_of_spells hlexes hspells
  rw [Term.resolve_numeral] at hload
  exact ⟨hload, (Term.denotes_numeral l.value).counted⟩

/-- Fullwidth, Arabic, Devanagari and ASCII digits make one number, with a zero in front. -/
example :
    value (.number ⟨['０', '٣', '५', '7'], List.all_eq_true.mp rfl, by decide, by decide⟩) = 357 := by
  decide

end Literal

end LambdaCalculus
