import LambdaCalculus.Proofs.Program.Layout
import LambdaCalculus.Proofs.Program.Relocation

/-!
# Inserting layout

Layout can be inserted before a token, after it, and at both ends of a text.  The text is cut in the
same pieces up to where the layout begins, and in the same pieces behind it, which stand further on;
and the reader makes no use of places but to move them.  So the same program is read, with the
places moved that lie behind the layout.

* `TokenBoundary` — the offsets where layout can be inserted.
* `Program.moved` — the program with its places moved.
* `Cut.shift` — a text is cut in the same pieces further on.
* `Cut.insert_layout` — the pieces of the text with layout in it.
* `parse_of_insert_layout` — the program that is read from it.
-/

namespace LambdaCalculus

/-! ## Inserting layout -/

/-- The source with some characters inserted at an offset. -/
def insertAt (source : String) (i : Nat) (w : List Char) : String :=
  String.ofList (source.toList.take i ++ w ++ source.toList.drop i)

/-- The offset is that of an end of the source, or one where a token begins or ends. -/
def TokenBoundary (source : String) (i : Nat) : Prop :=
  i = 0 ∨ i = source.length ∨
    ∃ t ∈ (lex source).tokens, (i : Int) = t.span.start ∨ (i : Int) = t.span.stop

/-- Where something begins that began at `k`, once `n` characters are inserted at `i`. -/
def movedStart (i n : Nat) (k : Int) : Int := if i ≤ k then k + n else k

/-- Where something ends that ended at `k`, once `n` characters are inserted at `i`. -/
def movedStop (i n : Nat) (k : Int) : Int := if i < k then k + n else k

/-- The program with every place moved, once `n` characters are inserted at `i`. -/
def Program.moved (p : Program) (i n : Nat) : Program :=
  p.relocate (movedStart i n) (movedStop i n)

theorem keepsOrder_movedStart (i n : Nat) : KeepsOrder (movedStart i n) := by
  intro k m hkm
  unfold movedStart
  split <;> split <;> omega

theorem keepsOrder_movedStop (i n : Nat) : KeepsOrder (movedStop i n) := by
  intro k m hkm
  unfold movedStop
  split <;> split <;> omega

namespace Cut

variable {here i there : Nat} {cs left : List Char} {ts us : List Token}

/-- The text is cut in the same pieces further on. -/
theorem shift (h : Cut here cs ts there left) (n : Nat) :
    Cut (here + n) cs (ts.map (Token.relocate (· + n) (· + n))) (there + n) left := by
  induction h with
  | done here cs => exact .done (here + n) cs
  | layout hscan _ ih =>
    refine .layout hscan ?_
    rwa [Nat.add_right_comm] at ih
  | @token here there c piece cs left what ts hscan _ ih =>
    have hplace : (spanOf here (piece.length + 1)).relocate (· + (n : Int)) (· + (n : Int)) =
        spanOf (here + n) (piece.length + 1) := by
      simp only [Span.relocate, spanOf, Int.natCast_add, Int.add_right_comm]
    rw [List.map_cons, Token.relocate, hplace]
    refine .token hscan ?_
    rwa [Nat.add_right_comm] at ih

/-- What is cut off before an insertion stays where it is. -/
theorem moved_before (h : Cut here cs ts i left) (n : Nat) :
    ts.map (Token.relocate (movedStart i n) (movedStop i n)) = ts := by
  refine (List.map_congr_left ?_).trans (List.map_id ts)
  intro t ht
  obtain ⟨-, hne, hstop⟩ := h.bounds t ht
  rw [Token.relocate, Span.relocate, movedStart, movedStop, if_neg (by omega), if_neg (by omega)]
  rfl

/-- What is cut off after an insertion stands further on. -/
theorem moved_after (h : Cut i cs ts there left) (n : Nat) :
    ts.map (Token.relocate (movedStart i n) (movedStop i n)) =
      ts.map (Token.relocate (· + n) (· + n)) := by
  refine List.map_congr_left ?_
  intro t ht
  obtain ⟨hstart, hne, -⟩ := h.bounds t ht
  rw [Token.relocate, Token.relocate, Span.relocate, Span.relocate, movedStart, movedStop,
    if_pos hstart, if_pos (by omega)]

variable {pre w : List Char} (hw : IsLayout w)
include hw

/-- Layout is inserted between pieces that are cut off before it and pieces that are cut off
after it. -/
theorem insert (hbefore : Cut 0 (pre ++ (w ++ left)) ts i (w ++ left))
    (hafter : Cut i left us there []) :
    ∃ there, Cut 0 ((pre ++ left).take i ++ w ++ (pre ++ left).drop i)
      ((ts ++ us).map (Token.relocate (movedStart i w.length) (movedStop i w.length))) there [] := by
  have hlength := hbefore.length
  obtain rfl : i = pre.length := by
    simp only [List.length_append] at hlength
    omega
  rw [List.take_left, List.drop_left, List.append_assoc, List.map_append, hbefore.moved_before,
    hafter.moved_after]
  have hlayout := hbefore.trans (of_layout hw pre.length left)
  rw [List.append_nil] at hlayout
  exact ⟨_, hlayout.trans (hafter.shift w.length)⟩

theorem insert_before_token {t : Token} (h : Cut 0 cs (ts ++ t :: us) there [])
    (hi : (i : Int) = t.span.start) : ∃ there, Cut 0 (cs.take i ++ w ++ cs.drop i)
      ((ts ++ t :: us).map (Token.relocate (movedStart i w.length) (movedStop i w.length)))
      there [] := by
  obtain ⟨mid, c, piece, rest, hbefore, hscan, hspan, hrest⟩ := h.at_token
  obtain rfl : i = mid := by
    rw [hspan] at hi
    exact Int.ofNat.inj hi
  have hline : ¬ StopsAt (· ≠ '\n') (c :: piece ++ rest) := by
    intro hstops
    obtain rfl : c = '\n' := by simpa using hstops c rfl
    rw [scan_blank (by decide)] at hscan
    cases hscan
  obtain ⟨pre, rfl, hcut⟩ := hbefore.exchange _ (hw.stopsAlike _) (absurd · hline)
  have htoken := token hscan hrest
  rw [← hspan] at htoken
  exact insert hw hcut htoken

theorem insert_after_token {t : Token} (h : Cut 0 cs (ts ++ t :: us) there [])
    (hi : (i : Int) = t.span.stop) : ∃ there, Cut 0 (cs.take i ++ w ++ cs.drop i)
      ((ts ++ t :: us).map (Token.relocate (movedStart i w.length) (movedStop i w.length)))
      there [] := by
  obtain ⟨mid, c, piece, rest, hbefore, hscan, hspan, hrest⟩ := h.at_token
  obtain rfl : i = mid + (piece.length + 1) := by
    rw [hspan] at hi
    exact Int.ofNat.inj hi
  have htoken : Cut mid (c :: piece ++ (w ++ rest)) [t] (mid + (piece.length + 1)) (w ++ rest) := by
    have hcut := token (scan_token_exchange hscan (hw.stopsAlike rest))
      (.done (mid + (piece.length + 1)) (w ++ rest))
    rwa [← hspan] at hcut
  -- the text begins with the token again, so what ended before it still does
  obtain ⟨pre, rfl, hcut⟩ := hbefore.exchange (c :: piece ++ (w ++ rest))
    (fun p hp hstops => hstops) (fun hstops => hstops)
  have hwhole := hcut.trans htoken
  rw [← List.append_assoc pre] at hwhole ⊢
  rw [List.append_cons ts]
  exact insert hw hwhole hrest

/-- Layout is inserted at either end of a text, or where a token begins or ends. -/
theorem insert_layout (h : Cut 0 cs ts cs.length []) (hi : i = 0 ∨ i = cs.length ∨
      ∃ t ∈ ts, (i : Int) = t.span.start ∨ (i : Int) = t.span.stop) :
    ∃ there, Cut 0 (cs.take i ++ w ++ cs.drop i)
      (ts.map (Token.relocate (movedStart i w.length) (movedStop i w.length))) there [] := by
  rcases hi with rfl | rfl | ⟨t, ht, hi⟩
  · have hnone : Cut 0 ([] ++ (w ++ cs)) [] 0 (w ++ cs) := .done 0 (w ++ cs)
    exact insert hw hnone h
  · rw [List.take_length, List.drop_length, List.append_nil, h.moved_before]
    exact h.append_layout hw
  · obtain ⟨ts, us, rfl⟩ := List.append_of_mem ht
    rcases hi with hi | hi
    · exact h.insert_before_token hw hi
    · exact h.insert_after_token hw hi

end Cut

/-- Once layout is inserted, the text has the same tokens, and those after it stand further on. -/
theorem lex_of_insert_layout {source : String} {p : Program} (h : Program.parse source = .ok p)
    {i : Nat} (hi : TokenBoundary source i) {w : List Char} (hw : IsLayout w) :
    lex (insertAt source i w) =
      ⟨(lex source).tokens.map (Token.relocate (movedStart i w.length) (movedStop i w.length)),
        none⟩ := by
  have hcut := cut_of_parse h
  rw [TokenBoundary] at hi
  rw [← String.length_toList] at hcut hi
  obtain ⟨there, hinserted⟩ := hcut.insert_layout hw hi
  rw [← @String.toList_ofList (source.toList.take i ++ w ++ source.toList.drop i)] at hinserted
  exact lex_of_cut_nil hinserted

/-- **Layout is insignificant.**  Once it is inserted where a token begins or ends, or at an end of
the source, the same program is read, and what lies after it stands as much further on. -/
theorem parse_of_insert_layout {source : String} {p : Program} (h : Program.parse source = .ok p)
    {i : Nat} (hi : TokenBoundary source i) {w : List Char} (hw : IsLayout w) :
    Program.parse (insertAt source i w) = .ok (p.moved i w.length) := by
  have hrun := h
  rw [Program.parse, lex_of_cut_nil (cut_of_parse h)] at hrun
  rw [Program.parse, lex_of_insert_layout h hi hw]
  exact Reader.run_relocate (keepsOrder_movedStart i w.length) (keepsOrder_movedStop i w.length)
    hrun _

/-- In `f(x)#` a name ends at offset 1 and a parenthesis begins there.  A comment that is inserted
there moves the parenthesis and all behind it, but not the name; and one that is inserted behind
the `#` goes on with the comment. -/
theorem parse_of_insert_layout_comment :
    ∃ p, Program.parse "f(x)#" = .ok p ∧
      Program.parse "f # g\n(x)#" = .ok (p.moved 1 5) ∧
      Program.parse "f(x)##\n\t" = .ok (p.moved 5 3) ∧
      (p.moved 1 5).statements.map Statement.span = [⟨0, 8⟩] := by
  have hp : Program.parse "f(x)#" = .ok ⟨[.expression ⟨0, 3⟩ (.app ⟨0, 3⟩
      [.var ⟨0, 1⟩ "f", .app ⟨2, 3⟩ [.var ⟨2, 3⟩ "x"]])]⟩ := by
    unfold Program.parse lex
    rw [String.toList_ofList]
    rfl
  have hname : TokenBoundary "f(x)#" 1 := by
    refine .inr (.inr ⟨⟨.name "f", spanOf 0 1⟩, ?_, .inr rfl⟩)
    unfold lex
    rw [String.toList_ofList]
    exact List.mem_cons_self
  have hcomment : IsLayout [' ', '#', ' ', 'g', '\n'] :=
    .blank rfl (@IsLayout.comment [' ', 'g'] [] (by decide) .nil)
  have hline : IsLayout ['#', '\n', '\t'] := @IsLayout.comment [] _ (by decide) (.blank rfl .nil)
  exact ⟨_, hp, parse_of_insert_layout hp hname hcomment,
    parse_of_insert_layout hp (.inr (.inl rfl)) hline, rfl⟩

end LambdaCalculus
