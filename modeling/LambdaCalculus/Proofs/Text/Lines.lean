import LambdaCalculus.Text.Position
import Mathlib.Data.List.GetD
import Mathlib.Data.List.TakeWhile
import Mathlib.Data.Prod.Lex
import Mathlib.Algebra.Order.Ring.Int

/-!
# Lines and columns

The line of an offset is found by counting the newlines before it, and its column by going back to
the last of them.  Neither cuts the text into lines.  Here they are compared with the lines that it
has when it is cut at every newline: an offset on a newline is one past the end of the line that the
newline ends, an offset right after one begins the next line, and the end of the text stands on the
last line, which may be empty.

* `Text.lines`, `Text.lineStart` — the lines of a text and the offsets where they begin.
* `Text.Locates` — the line and the column that an offset has in a text of these lines.
* `Locates.lt_iff`, `Locates.eq_iff` — places are ordered by line and then by column.
* `locates_of_notMem`, `Locates.after` — a place on the first line, and behind further lines.
* `lineColumn_locates` — the line and the column of a span are those where it begins.
-/

namespace LambdaCalculus.Text

/-! ## Lines -/

/-- The lines of a text, which its newlines divide. -/
def lines (text : List Char) : List (List Char) := text.splitOn '\n'

/-- The offset at which line `k` begins, counted from zero: it stands behind `k` lines, each with its
newline. -/
def lineStart (ls : List (List Char)) (k : Nat) : Nat := ((ls.take k).map List.length).sum + k

theorem lines_newline (text : List Char) : lines ('\n' :: text) = [] :: lines text := by
  rw [lines, List.splitOn_cons_eq_if_modifyHead, if_pos (by decide), lines]

theorem lines_cons_of_ne {c : Char} (h : c ≠ '\n') (text : List Char) :
    lines (c :: text) = (lines text).modifyHead (c :: ·) := by
  rw [lines, List.splitOn_cons_eq_if_modifyHead, if_neg (by simpa using h), lines]

/-- Every text has a first line. -/
theorem exists_lines_eq_cons (text : List Char) : ∃ l ls, lines text = l :: ls :=
  List.exists_cons_of_ne_nil (List.splitOn_ne_nil '\n' text)

/-- A newline divides the lines before it from those after it. -/
theorem lines_append (before after : List Char) :
    lines (before ++ '\n' :: after) = lines before ++ lines after :=
  List.splitOn_append_cons_self before after

/-- What holds no newline belongs to the line that goes on after it. -/
theorem lines_append_of_notMem {before : List Char} (h : '\n' ∉ before) (after : List Char) :
    lines (before ++ after) = (lines after).modifyHead (before ++ ·) := by
  obtain ⟨l, ls, hafter⟩ := exists_lines_eq_cons after
  induction before with
  | nil => simp [hafter]
  | cons c before ih =>
    obtain ⟨hc, hbefore⟩ := List.ne_and_not_mem_of_not_mem_cons h
    rw [List.cons_append, lines_cons_of_ne hc.symm, ih hbefore, hafter]
    rfl

/-- There is one line more than there are newlines. -/
theorem length_lines (text : List Char) : (lines text).length = text.count '\n' + 1 := by
  induction text with
  | nil => rfl
  | cons c text ih =>
    by_cases hc : c = '\n'
    · rw [hc, lines_newline, List.length_cons, ih, List.count_cons_self]
    · rw [lines_cons_of_ne hc, List.length_modifyHead, ih, List.count_cons_of_ne hc]

/-! ## Where lines begin -/

section
variable (ls : List (List Char))

theorem lineStart_cons (l : List Char) (k : Nat) :
    lineStart (l :: ls) (k + 1) = l.length + 1 + lineStart ls k := by
  simp only [lineStart, List.take_succ_cons, List.map_cons, List.sum_cons]
  omega

theorem lineStart_succ (k : Nat) :
    lineStart ls (k + 1) = lineStart ls k + (ls.getD k []).length + 1 := by
  induction ls generalizing k with
  | nil => simp [lineStart]
  | cons l ls ih =>
    cases k with
    | zero => simp [lineStart]
    | succ k =>
      rw [lineStart_cons, lineStart_cons, ih, List.getD_cons_succ]
      omega

theorem lineStart_mono : Monotone (lineStart ls) := by
  refine monotone_nat_of_le_succ ?_
  intro k
  rw [lineStart_succ]
  omega

/-- Behind further lines every line begins later by as much as these take up. -/
theorem lineStart_append (before : List (List Char)) (k : Nat) :
    lineStart (before ++ ls) (before.length + k) =
      lineStart before before.length + lineStart ls k := by
  induction before with
  | nil => simp [lineStart]
  | cons l before ih =>
    rw [List.cons_append, List.length_cons, Nat.add_right_comm, lineStart_cons, lineStart_cons, ih]
    omega

end

/-- The lines of a text, each with a newline, take up the text and one newline more. -/
theorem lineStart_lines (text : List Char) :
    lineStart (lines text) (lines text).length = text.length + 1 := by
  induction text with
  | nil => rfl
  | cons c text ih =>
    by_cases hc : c = '\n'
    · rw [hc, lines_newline, List.length_cons, lineStart_cons, ih, List.length_nil,
        List.length_cons]
      omega
    · obtain ⟨l, ls, hlines⟩ := exists_lines_eq_cons text
      rw [hlines, List.length_cons, lineStart_cons] at ih
      rw [lines_cons_of_ne hc, hlines, List.modifyHead_cons, List.length_cons, lineStart_cons,
        List.length_cons, List.length_cons]
      omega

/-! ## Places -/

/-- In a text of these lines the offset stands on the line, in the column.  Both are counted from one,
and the column after the last character of a line is one of its columns. -/
structure Locates (ls : List (List Char)) (line column : Nat) (offset : Int) : Prop where
  /-- Lines are counted from one. -/
  one_le_line : 1 ≤ line
  /-- The line is one of the text. -/
  line_le : line ≤ ls.length
  /-- Columns are counted from one. -/
  one_le_column : 1 ≤ column
  /-- The column is on the line, or one past its end. -/
  column_le : column ≤ (ls.getD (line - 1) []).length + 1
  /-- Before the offset stand the lines before its own, a newline after each, and the characters of its
  own line before its column. -/
  offset_eq : offset = ((lineStart ls (line - 1) + (column - 1) : Nat) : Int)

namespace Locates
variable {ls : List (List Char)} {line column line' column' : Nat} {offset offset' : Int}

/-- What stands on an earlier line stands before. -/
theorem lt_of_line_lt (h : Locates ls line column offset) (h' : Locates ls line' column' offset')
    (hline : line < line') : offset < offset' := by
  -- the next line begins behind all columns of this one, and no later than that of `offset'`
  have hnext := lineStart_succ ls (line - 1)
  have hlater : lineStart ls (line - 1 + 1) ≤ lineStart ls (line' - 1) :=
    lineStart_mono ls (by have := h.one_le_line; omega)
  have hcolumn := h.column_le
  rw [h.offset_eq, h'.offset_eq]
  omega

/-- Offsets are in order as their lines are, and on one line as their columns are. -/
theorem lt_iff (h : Locates ls line column offset) (h' : Locates ls line' column' offset') :
    offset < offset' ↔ line < line' ∨ line = line' ∧ column < column' := by
  rcases Nat.lt_trichotomy line line' with hline | rfl | hline
  · exact iff_of_true (h.lt_of_line_lt h' hline) (.inl hline)
  · have hcolumn := h.one_le_column
    have hcolumn' := h'.one_le_column
    rw [h.offset_eq, h'.offset_eq]
    omega
  · have hoffset := h'.lt_of_line_lt h hline
    omega

/-- An offset has one line and one column, and no two have both in common. -/
theorem eq_iff (h : Locates ls line column offset) (h' : Locates ls line' column' offset') :
    offset = offset' ↔ line = line' ∧ column = column' := by
  have hlt := h.lt_iff h'
  have hgt := h'.lt_iff h
  omega

/-- Behind further lines a place is on a later line, in the same column. -/
theorem after {text : List Char} (h : Locates (lines text) line column offset)
    (before : List Char) :
    Locates (lines (before ++ '\n' :: text)) (before.count '\n' + 1 + line) column
      (before.length + 1 + offset) := by
  obtain ⟨hline, hline', hcolumn, hcolumn', hoffset⟩ := h
  obtain ⟨k, rfl⟩ := Nat.exists_eq_add_of_le' hline
  have hk : (lines before).length + (k + 1) - 1 = (lines before).length + k := rfl
  rw [← length_lines, lines_append]
  constructor
  · omega
  · rw [List.length_append]
    omega
  · exact hcolumn
  · rw [hk, List.getD_append_right _ _ _ _ (Nat.le_add_right _ _), Nat.add_sub_cancel_left]
    exact hcolumn'
  · rw [hk, lineStart_append, lineStart_lines, hoffset, Nat.add_sub_cancel]
    omega

end Locates

/-- As long as no newline has come, the column is one more than the offset. -/
theorem locates_of_notMem {before : List Char} (h : '\n' ∉ before) (after : List Char) :
    Locates (lines (before ++ after)) 1 (before.length + 1) before.length := by
  obtain ⟨l, ls, hafter⟩ := exists_lines_eq_cons after
  rw [lines_append_of_notMem h, hafter, List.modifyHead_cons]
  constructor
  · omega
  · simp
  · omega
  · simp
  · simp [lineStart]

end LambdaCalculus.Text

namespace LambdaCalculus.Span

open Text

/-! ## The last newline -/

theorem forall_mem_reverse_ne {rest : List Char} (h : '\n' ∉ rest) :
    ∀ c ∈ rest.reverse, decide (c ≠ '\n') = true := by
  intro c hc
  have hne : c ≠ '\n' := by
    rintro rfl
    exact h (List.mem_reverse.mp hc)
  simpa using hne

theorem wholeLines_of_notMem {text : List Char} (h : '\n' ∉ text) : wholeLines text = [] := by
  rw [wholeLines, List.dropWhile_eq_nil_iff.mpr (forall_mem_reverse_ne h), List.reverse_nil]

/-- The whole lines of a text end with its last newline. -/
theorem wholeLines_append (before : List Char) {rest : List Char} (h : '\n' ∉ rest) :
    wholeLines (before ++ '\n' :: rest) = before ++ ['\n'] := by
  have hreverse : (before ++ '\n' :: rest).reverse = rest.reverse ++ '\n' :: before.reverse := by
    simp
  rw [wholeLines, hreverse, List.dropWhile_append_of_pos (forall_mem_reverse_ne h),
    List.dropWhile_cons_of_neg (by decide)]
  simp

/-- A text with a newline has a last one. -/
theorem exists_last_newline {text : List Char} (h : '\n' ∈ text) :
    ∃ before rest, text = before ++ '\n' :: rest ∧ '\n' ∉ rest := by
  obtain ⟨rest, before, htext, hrest⟩ := List.eq_append_cons_of_mem (List.mem_reverse.mpr h)
  refine ⟨before.reverse, rest.reverse, ?_, ?_⟩
  · rw [← List.reverse_reverse text, htext]
    simp
  · rwa [List.mem_reverse]

/-! ## The line and the column of a span -/

/-- The text before a span that begins in the text is as long as its offset says. -/
theorem exists_before {p : Span} {text : List Char} (h₀ : 0 ≤ p.start)
    (h₁ : p.start ≤ text.length) :
    ∃ rest, text = p.before text ++ rest ∧ ((p.before text).length : Int) = p.start := by
  refine ⟨text.drop (place text.length p.start), (List.take_append_drop _ _).symm, ?_⟩
  rw [before, List.length_take, place, if_neg (by omega)]
  omega

/-- A span that begins in the text has the line and the column of the place where it begins. -/
theorem exists_locates {p : Span} {text : List Char} (h₀ : 0 ≤ p.start)
    (h₁ : p.start ≤ text.length) :
    ∃ line column : Nat, p.lineColumn text = ((line : Int), (column : Int)) ∧
      Locates (lines text) line column p.start := by
  obtain ⟨rest, htext, hlength⟩ := exists_before h₀ h₁
  rw [lineColumn]
  generalize p.before text = before at htext hlength ⊢
  subst htext
  by_cases hnewline : '\n' ∈ before
  · -- `last` is the beginning of the span's own line, and whole lines stand before it
    obtain ⟨whole, last, rfl, hlast⟩ := exists_last_newline hnewline
    have hplace := (locates_of_notMem hlast rest).after whole
    have hstart : p.start = whole.length + 1 + last.length := by
      rw [← hlength, List.length_append, List.length_cons]
      omega
    refine ⟨whole.count '\n' + 1 + 1, last.length + 1, ?_, ?_⟩
    · rw [wholeLines_append whole hlast, List.count_append, List.count_cons_self,
        List.count_eq_zero_of_not_mem hlast, hstart, List.length_append, List.length_singleton,
        Prod.mk.injEq]
      omega
    · rw [List.append_assoc, List.cons_append, hstart]
      exact hplace
  · refine ⟨1, before.length + 1, ?_, ?_⟩
    · rw [wholeLines_of_notMem hnewline, List.count_eq_zero_of_not_mem hnewline, ← hlength,
        Prod.mk.injEq]
      simp
    · rw [← hlength]
      exact locates_of_notMem hnewline rest

/-- The line and the column of a span that begins in the text are those of its beginning, among the
lines that the newlines divide the text into.  So of two such spans, those that begin at different
offsets have different places, and the one that begins first has the place that is first, line before
column. -/
theorem lineColumn_locates {p : Span} {text : List Char} (h₀ : 0 ≤ p.start)
    (h₁ : p.start ≤ text.length) :
    (∃ line column : Nat, p.lineColumn text = ((line : Int), (column : Int)) ∧
      Locates (lines text) line column p.start) ∧
    ∀ q : Span, 0 ≤ q.start → q.start ≤ text.length →
      (p.lineColumn text = q.lineColumn text ↔ p.start = q.start) ∧
      (toLex (p.lineColumn text) < toLex (q.lineColumn text) ↔ p.start < q.start) := by
  have hlocates := exists_locates h₀ h₁
  refine ⟨hlocates, ?_⟩
  intro q hq₀ hq₁
  obtain ⟨line, column, hp, hplace⟩ := hlocates
  obtain ⟨line', column', hq, hplace'⟩ := exists_locates hq₀ hq₁
  rw [hp, hq]
  constructor
  · rw [hplace.eq_iff hplace', Prod.mk.injEq, Nat.cast_inj, Nat.cast_inj]
  · rw [hplace.lt_iff hplace', Prod.Lex.toLex_lt_toLex, Nat.cast_lt, Nat.cast_inj, Nat.cast_lt]

/-- In `a`, an empty line and `b`, ended by a newline, offset `2` is on the newline of the empty line,
one past its end; the end of the text, offset `5`, is on a fourth line, which is empty too. -/
theorem lineColumn_locates_newlines :
    ((0 : Int) ≤ 2 ∧ (2 : Int) ≤ ['a', '\n', '\n', 'b', '\n'].length) ∧
    lines ['a', '\n', '\n', 'b', '\n'] = [['a'], [], ['b'], []] ∧
    Span.lineColumn ⟨2, 3⟩ ['a', '\n', '\n', 'b', '\n'] = (2, 1) ∧
    Locates [['a'], [], ['b'], []] 2 1 2 ∧
    Span.lineColumn ⟨5, 5⟩ ['a', '\n', '\n', 'b', '\n'] = (4, 1) ∧
    toLex (Span.lineColumn ⟨2, 3⟩ ['a', '\n', '\n', 'b', '\n']) <
      toLex (Span.lineColumn ⟨5, 5⟩ ['a', '\n', '\n', 'b', '\n']) := by
  have hstart : (0 : Int) ≤ 2 ∧ (2 : Int) ≤ ['a', '\n', '\n', 'b', '\n'].length := by decide
  have hlines : lines ['a', '\n', '\n', 'b', '\n'] = [['a'], [], ['b'], []] := by decide
  have hp : Span.lineColumn ⟨2, 3⟩ ['a', '\n', '\n', 'b', '\n'] = (2, 1) := by decide
  have hq : Span.lineColumn ⟨5, 5⟩ ['a', '\n', '\n', 'b', '\n'] = (4, 1) := by decide
  obtain ⟨⟨line, column, hplace, hlocates⟩, horder⟩ :=
    lineColumn_locates (p := ⟨2, 3⟩) hstart.1 hstart.2
  obtain ⟨hline, hcolumn⟩ := Prod.mk.inj (hp.symm.trans hplace)
  obtain rfl : line = 2 := by omega
  obtain rfl : column = 1 := by omega
  rw [hlines] at hlocates
  exact ⟨hstart, hlines, hp, hlocates, hq,
    (horder ⟨5, 5⟩ (by decide) (by decide)).2.mpr (by decide)⟩

end LambdaCalculus.Span
