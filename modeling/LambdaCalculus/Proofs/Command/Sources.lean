import LambdaCalculus.Proofs.Command.Reporting
import LambdaCalculus.Proofs.Command.Requests

/-!
# Where the program comes from

A program that is asked for by its text is that text.  Otherwise it is read, from a file or from the
input, and then it is the text whose bytes stand there, with every line ending made a newline.

* `Text.Unifies` — line endings in one text and in the other.
* `decode_toUTF8` — the bytes of a text are read as that text, with its line endings unified.
* `Place`, `place` — where the things asked for say that the program is.
* `Provides` — what the program is then.
* `rehearse_source`, `rehearse_checkDepth` — the command finds it there.
-/

namespace LambdaCalculus

namespace Text

/-- The second text is the first with every line ending made a newline: a carriage return with a
newline after it, and one without. -/
inductive Unifies : List Char → List Char → Prop where
  | nil : Unifies [] []
  | char {c : Char} {s t : List Char} (hc : c ≠ '\r') (h : Unifies s t) : Unifies (c :: s) (c :: t)
  | pair {s t : List Char} (h : Unifies s t) : Unifies ('\r' :: '\n' :: s) ('\n' :: t)
  | alone {s t : List Char} (hs : s.head? ≠ some '\n') (h : Unifies s t) :
      Unifies ('\r' :: s) ('\n' :: t)

/-- What has no carriage return in it stays as it is in front of the rest. -/
theorem Unifies.behind {s t : List Char} (h : Unifies s t) {front : List Char}
    (hfront : '\r' ∉ front) : Unifies (front ++ s) (front ++ t) := by
  induction front with
  | nil => exact h
  | cons c front ih =>
    have hc : c ≠ '\r' := fun hc => hfront (hc ▸ List.mem_cons_self)
    exact .char hc (ih fun hs => hfront (List.mem_cons_of_mem c hs))

theorem unifyLines_of_unifies {s t : List Char} (h : Unifies s t) : unifyLines s = t := by
  induction h with
  | nil => rfl
  | char hc _ ih => simp [unifyLines, hc, ih]
  | pair _ ih => rw [unifyLines, ih]
  | @alone s t hs _ ih =>
    cases s with
    | nil => rw [unifyLines, ih]; simp
    | cons c s =>
      have hc : c ≠ '\n' := fun hc => hs (by rw [hc, List.head?_cons])
      rw [unifyLines, ih]
      intro rest hrest
      exact hc (List.cons.inj hrest).1

theorem decode_toUTF8 {written text : String} (h : Unifies written.toList text.toList) :
    decode written.toUTF8 = .ok text := by
  have hbytes : String.fromUTF8? written.toUTF8 = some written := by
    rw [String.fromUTF8?, String.toUTF8_eq_toByteArray, dif_pos written.isValidUTF8]
    rfl
  rw [decode, hbytes]
  show Except.ok (String.ofList (unifyLines written.toList)) = _
  rw [unifyLines_of_unifies h, String.ofList_toList]

end Text

namespace Command

/-! ## Places -/

/-- Where a program is. -/
inductive Place where
  /-- On the command line. -/
  | words (text : String)
  | input
  | file (name : String)

/-- What the place is called. -/
def Place.origin : Place → String
  | .words _ => "<expr>"
  | .input => "<stdin>"
  | .file name => name

/-- Where the things asked for say that the program is: a text comes before a file, and `-` is the
input. -/
def place (asks : List Ask) : Place :=
  match (asks.filterMap Ask.program?).getLast?, (asks.filterMap Ask.file?).getLast? with
  | some text, _ => .words text
  | none, none => .input
  | none, some name => if name = "-" then .input else .file name

/-- The program at a place. -/
inductive Provides (setting : Setting) : Place → String → Prop where
  | words (text : String) : Provides setting (.words text) text
  | input {written text : String} (hbytes : setting.input = written.toUTF8)
      (hlines : Text.Unifies written.toList text.toList) : Provides setting .input text
  | file {name written text : String} (hname : '\x00' ∉ name.toList)
      (hbytes : setting.directory.read name = .ok written.toUTF8)
      (hlines : Text.Unifies written.toList text.toList) : Provides setting (.file name) text

/-- The bounds under which the things asked for have terms evaluated. -/
def limits (asks : List Ask) : Bounds :=
  match (asks.filterMap Ask.depth?).getLast? with
  | some n => ⟨n, Bounds.standard.patience⟩
  | none => .standard

/-- The budget of steps that they ask for. -/
def budget (asks : List Ask) : Option Int :=
  ((asks.filterMap Ask.budget?).getLast?).map Int.ofNat

/-- The program is asked for by its text, or it is in the input, or in a file. -/
theorem place_cases (asks : List Ask) :
    (∃ text, place asks = .words text ∧ (asked asks).expr = .given text) ∨
    (place asks = .input ∧ (asked asks).expr = .absent ∧
      ((asked asks).file = none ∨ (asked asks).file = some "-")) ∨
    ∃ name, name ≠ "-" ∧ place asks = .file name ∧ (asked asks).expr = .absent ∧
      (asked asks).file = some name := by
  unfold place
  cases hprogram : (asks.filterMap Ask.program?).getLast? with
  | some text => exact .inl ⟨text, rfl, Value.ofGiven_of_some hprogram⟩
  | none =>
    have hexpr : (asked asks).expr = .absent := Value.ofGiven_of_none hprogram
    cases hfile : (asks.filterMap Ask.file?).getLast? with
    | none => exact .inr (.inl ⟨rfl, hexpr, .inl hfile⟩)
    | some name =>
      by_cases hname : name = "-"
      · exact .inr (.inl ⟨if_pos hname, hexpr, .inr (hname ▸ hfile)⟩)
      · exact .inr (.inr ⟨name, hname, if_neg hname, hexpr, hfile⟩)

theorem origin_asked (asks : List Ask) : (asked asks).origin = (place asks).origin := by
  rw [Options.origin]
  rcases place_cases asks with
    ⟨text, hplace, hexpr⟩ | ⟨hplace, hexpr, hfile | hfile⟩ | ⟨name, hname, hplace, hexpr, hfile⟩
  · rw [hplace, hexpr]
    rfl
  · rw [hplace, hexpr, hfile]
    rfl
  · rw [hplace, hexpr, hfile]
    rfl
  · rw [hplace, hexpr, hfile]
    exact if_neg hname

theorem bounds_asked (asks : List Ask) : (asked asks).bounds = limits asks := by
  rw [Options.bounds, limits]
  cases hdepth : (asks.filterMap Ask.depth?).getLast? with
  | some n =>
    have hgiven : (asked asks).depth = .given n := Value.ofGiven_of_some hdepth
    rw [hgiven]
  | none =>
    have habsent : (asked asks).depth = .absent := Value.ofGiven_of_none hdepth
    rw [habsent]

section
variable {asks : List Ask} {setting : Setting} {before : Transcript} {written text : String}

theorem rehearse_decoded (h : Text.Unifies written.toList text.toList) :
    rehearse (decoded written.toUTF8) setting before = (.ok text, before) := by
  rw [decoded, Text.decode_toUTF8 h]
  rfl

theorem rehearse_inputText (hbytes : setting.input = written.toUTF8)
    (hlines : Text.Unifies written.toList text.toList) :
    rehearse inputText setting before = (.ok text, before) := by
  have hinput : rehearse (ExceptT.lift Console.input) setting before = (.ok setting.input, before) :=
    rfl
  rw [inputText, rehearse_bind_ok hinput, hbytes, rehearse_decoded hlines]

theorem rehearse_fileText {name : String} (hname : '\x00' ∉ name.toList)
    (hbytes : setting.directory.read name = .ok written.toUTF8)
    (hlines : Text.Unifies written.toList text.toList) :
    rehearse (fileText name) setting before = (.ok (.ok text), before) := by
  have hread : rehearse (ExceptT.lift (Console.fileBytes name)) setting before =
      (.ok (.ok written.toUTF8), before) := by
    rw [← hbytes]
    rfl
  have hnull : ¬ name.toList.contains '\x00' = true := by simpa using hname
  rw [fileText, if_neg hnull]
  show rehearse (ExceptT.lift (Console.fileBytes name) >>= _) setting before = _
  rw [rehearse_bind_ok hread]
  show rehearse (decoded written.toUTF8 >>= _) setting before = _
  rw [rehearse_bind_ok (rehearse_decoded hlines)]
  rfl

/-- The command finds the program at its place. -/
theorem rehearse_source (h : Provides setting (place asks) text) :
    rehearse (source (asked asks)) setting before = (.ok (.ok text), before) := by
  rw [source]
  rcases place_cases asks with
    ⟨text', hplace, hexpr⟩ | ⟨hplace, hexpr, hfile⟩ | ⟨name, hname, hplace, hexpr, hfile⟩
  · rw [hplace] at h
    cases h
    rw [hexpr]
    rfl
  · rw [hplace] at h
    cases h with
    | input hbytes hlines =>
      have hinput : rehearse (do return .ok (← inputText) : Work Rehearsal (Except Unreadable String))
          setting before = (.ok (.ok text), before) := by
        rw [rehearse_bind_ok (rehearse_inputText hbytes hlines)]
        rfl
      rcases hfile with hfile | hfile
      · rw [hexpr, hfile]
        exact hinput
      · rw [hexpr, hfile]
        exact hinput
  · rw [hplace] at h
    cases h with
    | file hnull hbytes hlines =>
      rw [hexpr, hfile]
      simp only [hname, if_false]
      exact rehearse_fileText hnull hbytes hlines

/-- The depth that words can ask for is one at which the command can run. -/
theorem rehearse_checkDepth {wordss : List (List String)} (h : List.Forall₂ Spells asks wordss) :
    rehearse (checkDepth (asked asks)) setting before = (.ok (), before) := by
  rw [checkDepth]
  cases hdepth : (asks.filterMap Ask.depth?).getLast? with
  | none =>
    have habsent : (asked asks).depth = .absent := Value.ofGiven_of_none hdepth
    rw [habsent]
    rfl
  | some n =>
    have hgiven : (asked asks).depth = .given n := Value.ofGiven_of_some hdepth
    obtain ⟨a, ha, hn⟩ := List.mem_filterMap.mp (List.mem_of_getLast? hdepth)
    obtain ⟨ws, hspells⟩ := exists_spells_of_mem h ha
    obtain ⟨hleast, hmost⟩ := hspells.depth_mem hn
    rw [hgiven]
    show rehearse (if maxDepth < n then _ else if n < leastDepth then _ else _) setting before = _
    rw [if_neg (Nat.not_lt.mpr hmost), if_neg (Nat.not_lt.mpr hleast)]
    rfl

end

end Command

end LambdaCalculus
