import LambdaCalculus.Proofs.Program.TokenPlaces

/-!
# Layout and what comes before it

Most pieces of a text are the same whatever follows them.  Names, numbers and comments look ahead
for their ends; they too are the same as long as what follows them still does not go on with them,
and layout goes on with none but a comment.  So a text in front of which layout is put is cut off
after the same pieces as before.

* `IsLayout` — blanks, and comments with the ends of their lines.
* `StopsAlike` — that a name or a number that ends before one text ends before another.
* `scan_token_exchange`, `scan_layout_exchange` — one piece and what follows it.
* `Cut.exchange` — many pieces and what follows them.
* `Cut.append_layout` — layout at the end of a text, where a comment can be unfinished.
-/

namespace LambdaCalculus

open Lexeme

/-! ## Layout -/

/-- Blanks, and comments with the ends of their lines. -/
inductive IsLayout : List Char → Prop where
  /-- Nothing. -/
  | nil : IsLayout []
  /-- A blank in front. -/
  | blank {c : Char} {cs : List Char} (hc : isBlank c = true) (h : IsLayout cs) : IsLayout (c :: cs)
  /-- A line with a comment in front. -/
  | comment {text cs : List Char} (htext : '\n' ∉ text) (h : IsLayout cs) :
      IsLayout ('#' :: text ++ '\n' :: cs)

/-- A run of characters that begin no layout ends before the second text if it ends before the
first. -/
def StopsAlike (cs cs' : List Char) : Prop :=
  ∀ p : Char → Bool, [' ', '\t', '\r', '\n', '#'].any p = false → StopsAt p cs → StopsAt p cs'

theorem isBlank_iff {c : Char} : isBlank c = true ↔ c ∈ [' ', '\t', '\r', '\n'] := by
  simp only [isBlank, Bool.or_eq_true, decide_eq_true_eq, List.mem_cons, List.not_mem_nil, or_false,
    or_assoc]

theorem IsLayout.stopsAlike {w : List Char} (hw : IsLayout w) (cs : List Char) :
    StopsAlike cs (w ++ cs) := by
  intro p hp hcs
  have hlayout : ∀ c ∈ [' ', '\t', '\r', '\n', '#'], p c = false := by
    simpa only [List.any_eq_false, Bool.not_eq_true] using hp
  cases hw with
  | nil => exact hcs
  | blank hc h => exact stopsAt_cons (hlayout _ (List.mem_append_left ['#'] (isBlank_iff.mp hc))) _
  | comment htext h => exact stopsAt_cons (hlayout '#' (by simp)) _

theorem stopsAt_append {p : Char → Bool} {cs left left' : List Char}
    (h : StopsAt p left → StopsAt p left') (hcs : StopsAt p (cs ++ left)) : StopsAt p (cs ++ left') := by
  cases cs with
  | nil => exact h hcs
  | cons c cs => exact hcs

theorem StopsAlike.append {left left' : List Char} (h : StopsAlike left left') (cs : List Char) :
    StopsAlike (cs ++ left) (cs ++ left') :=
  fun p hp => stopsAt_append (h p hp)

/-! ## Pieces and what follows them -/

theorem stopsAt_of_takeWhile {p : Char → Bool} {piece cs : List Char}
    (h : ((piece ++ cs).takeWhile p).length = piece.length) :
    (∀ c ∈ piece, p c = true) ∧ StopsAt p cs := by
  have hwhole : (piece ++ cs).takeWhile p = piece := by
    rw [← take_length_takeWhile, h, List.take_left]
  have hpiece : ∀ c ∈ piece, p c = true := by
    rw [← hwhole]
    exact List.all_eq_true.mp List.all_takeWhile
  refine ⟨hpiece, ?_⟩
  rw [List.takeWhile_append_of_pos hpiece, List.append_right_eq_self] at hwhole
  cases cs with
  | nil => exact stopsAt_nil p
  | cons c cs =>
    refine stopsAt_cons ?_ cs
    by_contra hc
    rw [List.takeWhile_cons_of_pos (by simpa using hc)] at hwhole
    cases hwhole

/-- A run of one class is the same whatever follows it, if it ends where it ended. -/
theorem takeWhile_exchange {p : Char → Bool} {piece cs cs' : List Char}
    (h : ((piece ++ cs).takeWhile p).length = piece.length) (hcs : StopsAt p cs → StopsAt p cs') :
    (piece ++ cs').takeWhile p = (piece ++ cs).takeWhile p := by
  obtain ⟨hpiece, hstops⟩ := stopsAt_of_takeWhile h
  rw [takeWhile_append_of_stopsAt hpiece hstops, takeWhile_append_of_stopsAt hpiece (hcs hstops)]

theorem scanQuoted_exchange {rest rest' : List Char} {l : Lexeme} {width : Nat}
    (h : scanQuoted rest = .token l width) (hrest : rest'.take (width - 1) = rest.take (width - 1)) :
    scanQuoted rest' = .token l width := by
  unfold scanQuoted at h
  split at h
  · split at h
    · cases h
    · rename_i hplain
      split at h
      · rename_i hescape
        cases h
        rw [← List.take_append_drop 3 rest', hrest]
        simp only [List.take_succ_cons, List.take_zero, List.cons_append, List.nil_append,
          scanQuoted, if_neg hplain, hescape]
      · cases h
  · split at h
    · cases h
    · rename_i c _ _ hplain
      cases h
      rw [← List.take_append_drop 2 rest', hrest]
      simp only [List.take_succ_cons, List.take_zero, List.cons_append, List.nil_append]
      -- only a backslash begins an escape
      have hc : c ≠ '\\' := by
        rintro rfl
        exact hplain rfl
      unfold scanQuoted
      split
      · rename_i hrest
        exact (hc (List.cons.inj hrest).1).elim
      · rename_i hrest
        cases hrest
        rw [if_neg hplain]
      · rename_i hnone
        exact (hnone _ _ rfl).elim
  · cases h

/-- A token is one whatever follows it, if it ends where it ended. -/
theorem scan_token_exchange {c : Char} {piece cs cs' : List Char} {l : Lexeme}
    (h : scan c (piece ++ cs) = .token l (piece.length + 1)) (hcs : StopsAlike cs cs') :
    scan c (piece ++ cs') = .token l (piece.length + 1) := by
  unfold scan at h ⊢
  split at h
  · cases h
  rename_i hblank
  split at h
  · cases h
  rename_i hcomment
  rw [if_neg hblank, if_neg hcomment]
  split at h
  · rename_i hquote
    rw [if_pos hquote]
    exact scanQuoted_exchange h (by rw [Nat.add_sub_cancel, List.take_left, List.take_left])
  rename_i hquote
  rw [if_neg hquote]
  split at h
  · rename_i hdigit
    rw [if_pos hdigit]
    have hwidth : (c :: (piece ++ cs).takeWhile Text.isDigit).length = piece.length + 1 := by
      unfold scanNumber at h
      split at h
      · cases h
      · exact (Scan.token.inj h).2
    rw [takeWhile_exchange (Nat.succ.inj hwidth) (hcs _ (by decide))]
    exact h
  rename_i hdigit
  rw [if_neg hdigit]
  split at h
  · rename_i hbegins
    have hwidth : (c :: (piece ++ cs).takeWhile continuesName).length = piece.length + 1 :=
      (Scan.token.inj h).2
    rw [if_pos hbegins, takeWhile_exchange (Nat.succ.inj hwidth) (hcs _ (by decide))]
    exact h
  · rename_i hbegins
    rw [if_neg hbegins]
    exact h

/-- A piece of layout is one whatever follows it, if its line ends where it ended. -/
theorem scan_layout_exchange {c : Char} {piece cs cs' : List Char}
    (h : scan c (piece ++ cs) = .layout (piece.length + 1))
    (hcs : StopsAt (· ≠ '\n') cs → StopsAt (· ≠ '\n') cs') :
    scan c (piece ++ cs') = .layout (piece.length + 1) := by
  rcases scan_eq_layout h with ⟨hblank, hwidth⟩ | ⟨rfl, hwidth⟩
  · rw [scan_blank hblank, hwidth]
  · have hline : ((piece ++ cs).takeWhile (· ≠ '\n')).length = piece.length := by omega
    rw [scan_comment, takeWhile_exchange hline hcs, hline]

/-! ## Texts and what follows them -/

namespace Cut

variable {here there : Nat} {cs left : List Char} {ts : List Token}

theorem blank {c : Char} (hc : isBlank c = true) (h : Cut (here + 1) cs ts there left) :
    Cut here (c :: cs) ts there left :=
  @layout here there c [] cs left ts (scan_blank hc _) h

theorem comment {text : List Char} (htext : '\n' ∉ text) (hcs : StopsAt (· ≠ '\n') cs)
    (h : Cut (here + (text.length + 1)) cs ts there left) :
    Cut here ('#' :: text ++ cs) ts there left := by
  refine layout ?_ h
  have hline : ∀ c ∈ text, decide (c ≠ '\n') = true := by
    intro c hc
    exact decide_eq_true (ne_of_mem_of_not_mem hc htext)
  rw [scan_comment, takeWhile_append_of_stopsAt hline hcs]

/-- Layout is cut off, and no token with it. -/
theorem of_layout {w : List Char} (hw : IsLayout w) (here : Nat) (cs : List Char) :
    Cut here (w ++ cs) [] (here + w.length) cs := by
  have hcut : ∃ there, Cut here (w ++ cs) [] there cs := by
    induction hw generalizing here with
    | nil => exact ⟨here, .done here cs⟩
    | blank hc _ ih =>
      obtain ⟨there, hrest⟩ := ih (here + 1)
      exact ⟨there, .blank hc hrest⟩
    | @comment text w htext _ ih =>
      obtain ⟨there, hrest⟩ := ih (here + (text.length + 1) + 1)
      rw [List.append_assoc]
      exact ⟨there, .comment htext (stopsAt_cons (by decide) _) (.blank (by decide) hrest)⟩
  obtain ⟨there, hcut⟩ := hcut
  have hlength := hcut.length
  rw [List.length_append] at hlength
  obtain rfl : there = here + w.length := by omega
  exact hcut

/-- A comment at the end of a text takes in what comes before the end of its line. -/
theorem exists_of_unfinished {w text : List Char} (hw : IsLayout w) (htext : '\n' ∉ text)
    (here : Nat) : ∃ there, Cut here ('#' :: text ++ w) [] there [] := by
  induction hw generalizing text with
  | nil => exact ⟨_, .comment htext (stopsAt_nil _) (.done ..)⟩
  | @blank c w hc hw ih =>
    by_cases hline : c = '\n'
    · have hrest := of_layout hw (here + (text.length + 1) + 1) []
      rw [List.append_nil] at hrest
      exact ⟨_, .comment htext (stopsAt_cons (by simpa using hline) w) (.blank hc hrest)⟩
    · obtain ⟨there, hrest⟩ := @ih (text ++ [c]) (by simp [htext, Ne.symm hline])
      exact ⟨there, by simpa using hrest⟩
  | @comment text' w htext' hw _ =>
    have hboth : '\n' ∉ text ++ '#' :: text' := by simp [htext, htext']
    have hrest := of_layout hw (here + ((text ++ '#' :: text').length + 1) + 1) []
    rw [List.append_nil] at hrest
    have hcut := comment hboth (stopsAt_cons (by decide) _) (.blank (c := '\n') (by decide) hrest)
    exact ⟨_, by simpa using hcut⟩

/-- Pieces are cut off whatever follows them, if they end where they ended. -/
theorem exchange (h : Cut here cs ts there left) (left' : List Char) (hleft : StopsAlike left left')
    (hline : StopsAt (· ≠ '\n') left → StopsAt (· ≠ '\n') left') :
    ∃ pre, cs = pre ++ left ∧ Cut here (pre ++ left') ts there left' := by
  induction h with
  | done here cs => exact ⟨[], rfl, .done here left'⟩
  | @layout here there c piece cs left ts hscan _ ih =>
    obtain ⟨pre, rfl, hcut⟩ := ih hleft hline
    refine ⟨c :: piece ++ pre, (List.append_assoc ..).symm, ?_⟩
    rw [List.append_assoc]
    exact .layout (scan_layout_exchange hscan (stopsAt_append hline)) hcut
  | @token here there c piece cs left what ts hscan _ ih =>
    obtain ⟨pre, rfl, hcut⟩ := ih hleft hline
    refine ⟨c :: piece ++ pre, (List.append_assoc ..).symm, ?_⟩
    rw [List.append_assoc]
    exact .token (scan_token_exchange hscan (hleft.append pre)) hcut

/-- Layout can follow a text, also one that ends in the middle of a comment. -/
theorem append_layout {w : List Char} (hw : IsLayout w) (h : Cut here cs ts there []) :
    ∃ there, Cut here (cs ++ w) ts there [] := by
  generalize hleft : ([] : List Char) = left at h
  induction h with
  | done here cs =>
    subst hleft
    have hcut := of_layout hw here []
    rw [List.append_nil] at hcut
    exact ⟨_, hcut⟩
  | @layout here there c piece cs left ts hscan hrest ih =>
    obtain ⟨there, hcut⟩ := ih hleft
    rw [List.append_assoc]
    rcases scan_eq_layout hscan with ⟨hblank, hwidth⟩ | ⟨rfl, hwidth⟩
    · exact ⟨there, .layout (by rw [scan_blank hblank, hwidth]) hcut⟩
    · cases cs with
      | nil =>
        -- the comment has come to no end yet
        have hline : ((piece ++ []).takeWhile (· ≠ '\n')).length = piece.length := by omega
        have hpiece : '\n' ∉ piece := by
          intro hmem
          simpa using (stopsAt_of_takeWhile hline).1 '\n' hmem
        cases hrest
        exact exists_of_unfinished hw hpiece here
      | cons d cs => exact ⟨there, .layout (scan_layout_exchange hscan id) hcut⟩
  | @token here there c piece cs left what ts hscan _ ih =>
    obtain ⟨there, hcut⟩ := ih hleft
    have hcs : StopsAlike cs (cs ++ w) := by
      have happend := (hw.stopsAlike []).append cs
      rwa [List.append_nil, List.append_nil] at happend
    rw [List.append_assoc]
    exact ⟨there, .token (scan_token_exchange hscan hcs) hcut⟩

end Cut

end LambdaCalculus
