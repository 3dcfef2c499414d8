import LambdaCalculus.Proofs.Counting
import LambdaCalculus.Proofs.Program.Spelling
import LambdaCalculus.Proofs.Program.Standard
import Mathlib.Data.List.Induction
import Mathlib.Data.Nat.Digits.Defs

/-!
# Standard arithmetic, from text to number

An arithmetic expression is built from decimal numerals with the standard operations.  Written out
and run after the standard definitions, it comes to an end, and what comes out is counted as its
value.

* `Arith` — arithmetic expressions, with `Arith.text` and `Arith.value`.
* `Arith.writes` — what the text of an expression means.
* `Arith.denotes` — the value of that term denotes the value of the expression.
* `Arith.settles_run` — so running the text gives it.
-/

namespace LambdaCalculus

/-- A run of decimal digits that is read as a number. -/
structure Digits where
  chars : List Char
  isDigit : ∀ c ∈ chars, Text.isDigit c = true
  ne_nil : chars ≠ []
  length_le : chars.length ≤ maxDigits

/-- The number that the digits write in base ten. -/
def Digits.value (digits : Digits) : Nat :=
  Nat.ofDigits 10 (digits.chars.reverse.map fun c => (Text.digitValue? c).getD 0)

theorem Digits.ofDigits_chars (digits : Digits) : Text.ofDigits digits.chars = digits.value := by
  rw [value]
  induction digits.chars using List.reverseRecOn with
  | nil => rfl
  | append_singleton cs c ih =>
    rw [Text.ofDigits, List.foldl_concat, ← Text.ofDigits, ih, List.reverse_concat, List.map_cons,
      Nat.ofDigits_cons, Nat.add_comm]

/-- An arithmetic expression. -/
inductive Arith where
  | numeral (digits : Digits)
  | succ (e : Arith)
  | pred (e : Arith)
  | add (a b : Arith)
  | mul (a b : Arith)
  | sub (a b : Arith)
  /-- `if (is_zero c) a b` -/
  | ifZero (c a b : Arith)
  /-- `fst (pair a b)` -/
  | fst (a b : Arith)
  /-- `snd (pair a b)` -/
  | snd (a b : Arith)

namespace Arith

/-- The value over the natural numbers. -/
def value : Arith → Nat
  | .numeral digits => digits.value
  | .succ e => e.value + 1
  | .pred e => e.value - 1
  | .add a b => a.value + b.value
  | .mul a b => a.value * b.value
  | .sub a b => a.value - b.value
  | .ifZero c a b => if c.value = 0 then a.value else b.value
  | .fst a _ => a.value
  | .snd _ b => b.value

/-- An application of a name, in parentheses. -/
def call (f : String) (args : List (List Char)) : List Char :=
  '(' :: f.toList ++ (args.flatMap (' ' :: ·) ++ [')'])

/-- The text of an expression: every application stands in parentheses. -/
def text : Arith → List Char
  | .numeral digits => digits.chars
  | .succ e => call "succ" [e.text]
  | .pred e => call "pred" [e.text]
  | .add a b => call "add" [a.text, b.text]
  | .mul a b => call "mul" [a.text, b.text]
  | .sub a b => call "sub" [a.text, b.text]
  | .ifZero c a b => call "if" [call "is_zero" [c.text], a.text, b.text]
  | .fst a b => call "fst" [call "pair" [a.text, b.text]]
  | .snd a b => call "snd" [call "pair" [a.text, b.text]]

/-- The term that the text means. -/
def term : Arith → Term
  | .numeral digits => .numeral digits.value
  | .succ e => .apps (.free "succ") [e.term]
  | .pred e => .apps (.free "pred") [e.term]
  | .add a b => .apps (.free "add") [a.term, b.term]
  | .mul a b => .apps (.free "mul") [a.term, b.term]
  | .sub a b => .apps (.free "sub") [a.term, b.term]
  | .ifZero c a b => .apps (.free "if") [.apps (.free "is_zero") [c.term], a.term, b.term]
  | .fst a b => .apps (.free "fst") [.apps (.free "pair") [a.term, b.term]]
  | .snd a b => .apps (.free "snd") [.apps (.free "pair") [a.term, b.term]]

/-! ## The text -/

/-- A character that goes on with a word: with a name or with a number. -/
def continuesWord (c : Char) : Bool := Lexeme.continuesName c || Text.isDigit c

/-- In front of a text that does not go on with it, `cs` is an atom that means `t`. -/
def Writes (cs : List Char) (t : Term) : Prop :=
  ∃ ls, Grammar.AtomSpells ls t ∧ ∀ {rest : List Char} {ls' : List Lexeme},
    StopsAt continuesWord rest → Lexes rest ls' → Lexes (cs ++ rest) (ls ++ ls')

/-- Such a text, taken on its own, spells its meaning. -/
theorem Writes.exists_spells {cs : List Char} {t : Term} (h : Writes cs t) :
    ∃ ls, Lexes (String.ofList cs).toList ls ∧ Grammar.PhraseSpells ls t := by
  obtain ⟨ls, hatom, hlexes⟩ := h
  have hwhole := hlexes (stopsAt_nil _) .nil
  rw [List.append_nil, List.append_nil, ← String.toList_ofList (l := cs)] at hwhole
  exact ⟨ls, hwhole, hatom.chain.phrase⟩

theorem writes_digits (digits : Digits) : Writes digits.chars (.numeral digits.value) := by
  rw [← digits.ofDigits_chars]
  refine ⟨[.number (Text.ofDigits digits.chars)], .number _, ?_⟩
  intro rest ls' hrest h
  have hstop : StopsAt Text.isDigit rest := by
    intro c hc
    exact (Bool.or_eq_false_iff.mp (hrest c hc)).2
  exact .number digits.isDigit digits.ne_nil digits.length_le hstop h

/-- Arguments follow what they are applied to, each after a space. -/
theorem spells_args {args : List (List Char)} {ts : List Term} (h : List.Forall₂ Writes args ts)
    {ls : List Lexeme} {f : Term} (hf : Grammar.ChainSpells ls f) :
    ∃ ls', Grammar.ChainSpells (ls ++ ls') (f.apps ts) ∧
      ∀ {rest : List Char} {ls'' : List Lexeme}, StopsAt continuesWord rest → Lexes rest ls'' →
        StopsAt continuesWord (args.flatMap (' ' :: ·) ++ rest) ∧
        Lexes (args.flatMap (' ' :: ·) ++ rest) (ls' ++ ls'') := by
  induction h generalizing ls f with
  | nil => exact ⟨[], by rwa [List.append_nil], fun hrest hlexes => ⟨hrest, hlexes⟩⟩
  | @cons cs t args ts hcs _ ih =>
    obtain ⟨ls₁, hatom, hfirst⟩ := hcs
    obtain ⟨ls₂, hchain, hothers⟩ := ih (hf.snoc hatom)
    refine ⟨ls₁ ++ ls₂, by rwa [← List.append_assoc], ?_⟩
    intro rest ls'' hrest hlexes
    obtain ⟨hstop, hlexes⟩ := hothers hrest hlexes
    have hall := Lexes.layout (c := ' ') rfl (hfirst hstop hlexes)
    rw [List.flatMap_cons, List.append_assoc, List.append_assoc]
    exact ⟨stopsAt_cons rfl _, hall⟩

/-- A call means the application of its name. -/
theorem writes_call {f : String} (hf : IsName f) {args : List (List Char)} {ts : List Term}
    (h : List.Forall₂ Writes args ts) : Writes (call f args) (.apps (.free f) ts) := by
  obtain ⟨ls, hchain, hlexes⟩ := spells_args h (Grammar.AtomSpells.name f).chain
  refine ⟨_, .paren hchain.phrase, ?_⟩
  intro rest ls' hrest hrest'
  have hclosing : Lexes (')' :: rest) (.rparen :: ls') := .sign (fun _ => rfl) hrest'
  obtain ⟨hstop, hargs⟩ := hlexes (stopsAt_cons rfl rest) hclosing
  have hname : StopsAt Lexeme.continuesName _ :=
    fun c hc => (Bool.or_eq_false_iff.mp (hstop c hc)).1
  have hall : Lexes ('(' :: (f.toList ++ _)) _ := .sign (fun _ => rfl) (.name hf hname hargs)
  simpa only [call, List.cons_append, List.append_assoc, List.nil_append] using hall

theorem writes_standard {f : String} {v : Term} (hf : (f, v) ∈ Standard.values)
    {args : List (List Char)} {ts : List Term} (h : List.Forall₂ Writes args ts) :
    Writes (call f args) (.apps (.free f) ts) :=
  writes_call (isName_of_mem_values hf) h

theorem writes_pair {a b : Arith} (ha : Writes a.text a.term) (hb : Writes b.text b.term) :
    Writes (call "pair" [a.text, b.text]) (.apps (.free "pair") [a.term, b.term]) :=
  writes_standard (v := Standard.pair) (by simp [Standard.values]) (.cons ha (.cons hb .nil))

/-- The text of an expression means its term. -/
theorem writes (e : Arith) : Writes e.text e.term := by
  induction e with
  | numeral digits => exact writes_digits digits
  | succ e ih => exact writes_standard (v := Standard.succ) (by simp [Standard.values]) (.cons ih .nil)
  | pred e ih => exact writes_standard (v := Standard.pred) (by simp [Standard.values]) (.cons ih .nil)
  | add a b iha ihb =>
    exact writes_standard (v := Standard.add) (by simp [Standard.values]) (.cons iha (.cons ihb .nil))
  | mul a b iha ihb =>
    exact writes_standard (v := Standard.mul) (by simp [Standard.values]) (.cons iha (.cons ihb .nil))
  | sub a b iha ihb =>
    exact writes_standard (v := Standard.sub) (by simp [Standard.values]) (.cons iha (.cons ihb .nil))
  | ifZero c a b ihc iha ihb =>
    have hzero : Writes (call "is_zero" [c.text]) (.apps (.free "is_zero") [c.term]) :=
      writes_standard (v := Standard.isZero) (by simp [Standard.values]) (.cons ihc .nil)
    exact writes_standard (v := Standard.choice) (by simp [Standard.values])
      (.cons hzero (.cons iha (.cons ihb .nil)))
  | fst a b iha ihb =>
    exact writes_standard (v := Standard.first) (by simp [Standard.values])
      (.cons (writes_pair iha ihb) .nil)
  | snd a b iha ihb =>
    exact writes_standard (v := Standard.second) (by simp [Standard.values])
      (.cons (writes_pair iha ihb) .nil)

/-! ## The value -/

theorem valueIn_numeral (env : List (String × Term)) (n : Nat) :
    (Term.numeral n).valueIn env = .numeral n := by
  rw [Term.valueIn, Term.resolve_numeral]
  exact Term.fill_of_below _ (Term.denotes_numeral n).closed

theorem valueIn_pair (a b : Term) :
    (Term.apps (.free "pair") [a, b]).valueIn standardEnv =
      Standard.pair.apps [a.valueIn standardEnv, b.valueIn standardEnv] :=
  valueIn_standard_apps (by simp [Standard.values]) _

/-- Among the standard definitions, the term of an expression denotes its value. -/
theorem denotes (e : Arith) : (e.term.valueIn standardEnv).Denotes e.value := by
  induction e with
  | numeral digits =>
    rw [term, valueIn_numeral]
    exact Term.denotes_numeral _
  | succ e ih =>
    rw [term, valueIn_standard_apps (v := Standard.succ) (by simp [Standard.values])]
    exact Term.denotes_succ ih
  | pred e ih =>
    rw [term, valueIn_standard_apps (v := Standard.pred) (by simp [Standard.values])]
    exact Term.denotes_pred ih
  | add a b iha ihb =>
    rw [term, valueIn_standard_apps (v := Standard.add) (by simp [Standard.values])]
    exact Term.denotes_add iha ihb
  | mul a b iha ihb =>
    rw [term, valueIn_standard_apps (v := Standard.mul) (by simp [Standard.values])]
    exact Term.denotes_mul iha ihb
  | sub a b iha ihb =>
    rw [term, valueIn_standard_apps (v := Standard.sub) (by simp [Standard.values])]
    exact Term.denotes_sub iha ihb
  | ifZero c a b ihc iha ihb =>
    have hzero : (Term.apps (.free "is_zero") [c.term]).valueIn standardEnv =
        Standard.isZero.apps [c.term.valueIn standardEnv] :=
      valueIn_standard_apps (by simp [Standard.values]) _
    rw [term, valueIn_standard_apps (v := Standard.choice) (by simp [Standard.values]),
      List.map_cons, hzero]
    exact Term.denotes_if_isZero ihc iha ihb
  | fst a b iha ihb =>
    rw [term, valueIn_standard_apps (v := Standard.first) (by simp [Standard.values]),
      List.map_cons, valueIn_pair]
    exact Term.denotes_first_pair iha ihb
  | snd a b iha ihb =>
    rw [term, valueIn_standard_apps (v := Standard.second) (by simp [Standard.values]),
      List.map_cons, valueIn_pair]
    exact Term.denotes_second_pair iha ihb

/-! ## Running -/

/-- The text of an expression loads as a term that leads to the value of its meaning. -/
theorem exists_load (e : Arith) : ∃ t : Term,
    Settles (fun limit => load limit true (String.ofList e.text)) (.ok t) ∧
      t.Leads (e.term.valueIn standardEnv) := by
  obtain ⟨ls, hlexes, hspells⟩ := e.writes.exists_spells
  obtain ⟨p, place, body, hp, hstatements, hbody, hspelled⟩ :=
    exists_parse_of_spells hlexes hspells
  have hmeans : (if true then p.withStandard else p).Means standardLets e.term := by
    refine ⟨hspelled, standardBindings, place, body, ?_, binds_standardBindings, hbody⟩
    rw [if_pos rfl, Program.withStandard, hstatements]
  have hclosed : Term.ClosedIn standardLets := fun b hb =>
    (spelled_of_binds binds_standardBindings b hb).2.lexical.closed
  have hafter := Term.after?_valueIn_letIn (List.forall_mem_nil _) hspelled.lexical.closed hclosed
  rw [Term.valueIn_nil] at hafter
  exact ⟨_, hmeans.settles_load hp, _, hafter⟩

/-- An arithmetic expression that is written out and run comes to an end, and what comes out is
counted as its value. -/
theorem settles_run (e : Arith) : ∃ r : Term,
    Settles (fun bounds : Bounds => run bounds true none (String.ofList e.text)) (.ok r) ∧
      Settles (fun bounds : Bounds => countNumeral bounds silent r) (.ok (some e.value)) := by
  obtain ⟨t, hload, ht⟩ := e.exists_load
  obtain ⟨r, hr, hlast, hcount⟩ := e.denotes.exists_last
  exact ⟨r, hload.depth.bind (settles_evaluate (ht.trans hr) hlast), hcount⟩

end Arith

end LambdaCalculus
