import LambdaCalculus.Command.Session
import LambdaCalculus.Proofs.Arithmetic
import Mathlib.Data.List.Flatten

/-!
# What the words of a command line ask for

A command line asks for one thing after the other: for the standard definitions, for a form in which
terms are shown, for a budget, for the program of a text or of a file.  Each is spelled in one of a few
ways.  `Spells` says which, apart from the way in which arguments are read, and reading them gives the
options in which everything is as it was asked for.

* `Flag`, `Ask` — the things to ask for.
* `Means`, `Spells` — the values and the words for them.
* `asked` — the options that a list of things to ask for comes to; of two budgets the later counts.
* `integer?_digits` — a run of digits is read as the number that it writes.
* `classifyAll_of_spells`, `act_of_taken` — how the words are classified, and what is done then.
* `readArguments_of_spells` — so reading gives the options that were asked for.
-/

namespace LambdaCalculus

/-! ## Numbers -/

namespace Text

/-- No script has its digits where the blanks are. -/
theorem digitZeros_apart : ∀ z ∈ digitZeros, z = 0x30 ∨
    0x660 ≤ z ∧ (z + 10 ≤ 0x1680 ∨ 0x1680 < z) ∧ (z + 10 ≤ 0x2000 ∨ 0x3000 < z) := by
  decide

theorem isSpace_eq_false_of_isDigit {c : Char} (h : isDigit c = true) : isSpace c = false := by
  have hspace : isSpace c = true → c.toNat ≤ 0x20 ∨ 0x80 ≤ c.toNat ∧ (c.toNat < 0x660 ∨
      c.toNat = 0x1680 ∨ 0x2000 ≤ c.toNat ∧ c.toNat ≤ 0x3000) := by
    simp only [isSpace, Bool.or_eq_true, Bool.and_eq_true, decide_eq_true_eq]
    omega
  rw [isDigit, digitValue?] at h
  by_contra hc
  have hplace := hspace (Bool.eq_true_of_not_eq_false hc)
  split at h
  · rename_i hascii
    split at h
    · rename_i hrange
      simp only [Bool.and_eq_true, decide_eq_true_eq] at hrange
      have hzero : 0x30 ≤ c.toNat := hrange.1
      omega
    · cases h
  · rename_i hwide
    rw [Option.isSome_map, List.find?_isSome] at h
    obtain ⟨z, hz, hdigit⟩ := h
    simp only [Bool.and_eq_true, decide_eq_true_eq] at hdigit
    have hapart := digitZeros_apart z hz
    omega

theorem groupedDigits?_of_digits {cs : List Char} (h : ∀ c ∈ cs, isDigit c = true) (hne : cs ≠ []) :
    groupedDigits? cs = some cs := by
  fun_induction groupedDigits? cs with
  | case1 => exact absurd rfl hne
  | case2 c hc => rfl
  | case3 c hc => exact absurd (h c (List.mem_singleton_self c)) hc
  | case4 c rest hc ih =>
    have hunder : isDigit '_' = true := h '_' (by simp)
    exact absurd hunder (by decide)
  | case5 c rest hc =>
    have hunder : isDigit '_' = true := h '_' (by simp)
    exact absurd hunder (by decide)
  | case6 c rest hnil hunder hc ih =>
    rw [ih (fun d hd => h d (List.mem_cons_of_mem c hd)) hnil]
    rfl
  | case7 c rest hnil hunder hc => exact absurd (h c List.mem_cons_self) hc

/-- A text without blanks at its ends is what is left of it without them. -/
theorem trimmed_of_digits {cs : List Char} (h : ∀ c ∈ cs, isDigit c = true) : trimmed cs = cs := by
  have hkeep {ds : List Char} (hds : ∀ c ∈ ds, isDigit c = true) : ds.dropWhile isSpace = ds := by
    cases ds with
    | nil => rfl
    | cons d ds =>
      rw [List.dropWhile_cons_of_neg]
      simp [isSpace_eq_false_of_isDigit (hds d List.mem_cons_self)]
  rw [trimmed, hkeep h, hkeep fun c hc => h c (List.mem_reverse.mp hc), List.reverse_reverse]

/-- A run of digits is read as the number that it writes. -/
theorem integer?_digits (digits : Digits) : integer? digits.chars = some (digits.value : Int) := by
  have hnatural : natural? digits.chars = some digits.value := by
    rw [natural?, groupedDigits?_of_digits digits.isDigit digits.ne_nil, Option.bind_eq_bind,
      Option.bind_some, if_neg (Nat.not_lt.mpr digits.length_le), digits.ofDigits_chars]
  rw [integer?, trimmed_of_digits digits.isDigit]
  split
  · rename_i rest hchars
    have hsign := digits.isDigit '-' (by simp [hchars])
    exact absurd hsign (by decide)
  · rename_i rest hchars
    have hsign := digits.isDigit '+' (by simp [hchars])
    exact absurd hsign (by decide)
  · rw [hnatural]
    rfl

end Text

namespace Command

/-! ## Asking -/

/-- A thing that is either asked for or not. -/
inductive Flag where
  | prelude
  | trace
  | numeral
  | indices
  | ascii
  deriving DecidableEq, Repr

/-- The word for it. -/
def Flag.word : Flag → String
  | .prelude => "--prelude"
  | .trace => "--trace"
  | .numeral => "--numeral"
  | .indices => "--indices"
  | .ascii => "--ascii"

/-- A thing that words of a command line ask for. -/
inductive Ask where
  | flag (f : Flag)
  /-- A budget of steps. -/
  | budget (n : Nat)
  /-- The depth to which terms may be nested. -/
  | depth (n : Nat)
  /-- The program that is this text. -/
  | program (text : String)
  /-- The program in the file of this name, or in the input if the name is `-`. -/
  | file (name : String)
  deriving DecidableEq, Repr

/-- The names of the options that a value belongs to. -/
inductive Names : String → Switch → Prop where
  | maxSteps : Names "--max-steps" .maxSteps
  | recursionLimit : Names "--recursion-limit" .recursionLimit
  | expr : Names "--expr" .expr
  | e : Names "-e" .expr

/-- What an option asks for with a value. -/
inductive Means : Switch → String → Ask → Prop where
  | budget (digits : Digits) : Means .maxSteps (String.ofList digits.chars) (.budget digits.value)
  | depth (digits : Digits) (hleast : leastDepth ≤ digits.value) (hmost : digits.value ≤ maxDepth) :
      Means .recursionLimit (String.ofList digits.chars) (.depth digits.value)
  | program (text : String) : Means .expr text (.program text)

/-- The word does not look like an option: it is no dash with something after it. -/
def Bare (s : String) : Prop := ∀ c cs, s.toList ≠ '-' :: c :: cs

/-- The words that ask for a thing.  A value stands apart from the name of its option, if it does not
look like an option itself, or is joined to it. -/
inductive Spells : Ask → List String → Prop where
  | flag (f : Flag) : Spells (.flag f) [f.word]
  | apart {name value : String} {o : Switch} {a : Ask} (hname : Names name o)
      (hmeans : Means o value a) (hbare : Bare value) : Spells a [name, value]
  | joined {name value : String} {o : Switch} {a : Ask} (hname : Names name o)
      (hmeans : Means o value a) (hvalue : value ≠ "--") : Spells a [name ++ "=" ++ value]
  | file {name : String} (hbare : Bare name) : Spells (.file name) [name]

namespace Ask

/-- The options with one thing more asked for. -/
def add (opts : Options) : Ask → Options
  | .flag .prelude => { opts with standard := true }
  | .flag .trace => { opts with trace := true }
  | .flag .numeral => { opts with numeral := true }
  | .flag .indices => { opts with indices := true }
  | .flag .ascii => { opts with ascii := true }
  | .budget n => { opts with maxSteps := .given n }
  | .depth n => { opts with depth := .given n }
  | .program text => { opts with expr := .given text }
  | .file name => { opts with file := some name }

def budget? : Ask → Option Nat
  | .budget n => some n
  | _ => none

def depth? : Ask → Option Nat
  | .depth n => some n
  | _ => none

def program? : Ask → Option String
  | .program text => some text
  | _ => none

def file? : Ask → Option String
  | .file name => some name
  | _ => none

end Ask

/-- The value that an option has if these are given for it: the last one. -/
def Value.ofGiven {α : Type} (given : List α) : Value α :=
  match given.getLast? with
  | some a => .given a
  | none => .absent

theorem Value.ofGiven_of_some {α : Type} {given : List α} {a : α} (h : given.getLast? = some a) :
    ofGiven given = .given a := by
  rw [ofGiven, h]

theorem Value.ofGiven_of_none {α : Type} {given : List α} (h : given.getLast? = none) :
    ofGiven given = .absent := by
  rw [ofGiven, h]

theorem Value.ofGiven_ne_blank {α : Type} (given : List α) : ofGiven given ≠ .blank := by
  cases h : given.getLast? with
  | some a => rw [ofGiven_of_some h]; exact nofun
  | none => rw [ofGiven_of_none h]; exact nofun

/-- The options that ask for these things. -/
def asked (asks : List Ask) : Options where
  file := (asks.filterMap Ask.file?).getLast?
  expr := .ofGiven (asks.filterMap Ask.program?)
  standard := decide (.flag .prelude ∈ asks)
  maxSteps := .ofGiven ((asks.filterMap Ask.budget?).map Int.ofNat)
  trace := decide (.flag .trace ∈ asks)
  numeral := decide (.flag .numeral ∈ asks)
  indices := decide (.flag .indices ∈ asks)
  ascii := decide (.flag .ascii ∈ asks)
  depth := .ofGiven (asks.filterMap Ask.depth?)

theorem asked_concat (asks : List Ask) (a : Ask) : asked (asks ++ [a]) = Ask.add (asked asks) a := by
  unfold asked Value.ofGiven Ask.add
  cases a with
  | flag f => cases f <;> simp [Ask.file?, Ask.program?, Ask.budget?, Ask.depth?]
  | budget n | depth n | program text | file name =>
    simp [Ask.file?, Ask.program?, Ask.budget?, Ask.depth?]

/-- Things are asked for one after the other. -/
theorem foldl_add (asks : List Ask) : asks.foldl Ask.add {} = asked asks := by
  induction asks using List.reverseRecOn with
  | nil => rfl
  | append_singleton asks a ih => rw [List.foldl_concat, ih, asked_concat]

/-! ## How the words are classified -/

def Flag.switch : Flag → Switch
  | .prelude => .prelude
  | .trace => .trace
  | .numeral => .numeral
  | .indices => .indices
  | .ascii => .ascii

/-- The classes of words that ask for a thing. -/
inductive Taken : Ask → List (List Char × Argument) → Prop where
  | flag (f : Flag) (w : List Char) : Taken (.flag f) [(w, .option f.switch false none)]
  | apart {w : List Char} {o : Switch} {short : Bool} {value : String} {a : Ask}
      (hmeans : Means o value a) : Taken a [(w, .option o short none), (value.toList, .plain)]
  | joined {w : List Char} {o : Switch} {short : Bool} {value : String} {a : Ask}
      (hmeans : Means o value a) (hvalue : value ≠ "--") :
      Taken a [(w, .option o short (some value.toList))]
  | file (name : String) : Taken (.file name) [(name.toList, .plain)]

theorem classify_flag (f : Flag) : classify f.word.toList = .ok (.option f.switch false none) := by
  cases f <;> decide +kernel

theorem Bare.classify {s : String} (h : Bare s) : classify s.toList = .ok .plain := by
  unfold Command.classify
  split
  · rename_i c cs hs
    exact absurd hs (h c cs)
  · rfl

section
variable {name : String} {o : Switch}

theorem Names.exists_ofName? (h : Names name o) :
    ∃ short, Switch.ofName? name.toList = some (o, short) := by
  cases h with
  | maxSteps | recursionLimit | expr => exact ⟨false, by decide +kernel⟩
  | e => exact ⟨true, by decide +kernel⟩

theorem Names.notMem_equals (h : Names name o) : ∀ c ∈ name.toList, decide (c ≠ '=') = true := by
  apply List.all_eq_true.mp
  cases h <;> decide +kernel

theorem Names.exists_eq_cons (h : Names name o) : ∃ c cs, name.toList = '-' :: c :: cs := by
  have hshape : name.toList.head? = some '-' ∧ 2 ≤ name.toList.length := by
    cases h <;> decide +kernel
  cases hname : name.toList with
  | nil => simp [hname] at hshape
  | cons d ds =>
    cases ds with
    | nil => simp [hname] at hshape
    | cons c cs =>
      have hdash : d = '-' := by simpa [hname] using hshape.1
      exact ⟨c, cs, by rw [hdash]⟩

theorem Names.classify (h : Names name o) :
    ∃ short, classify name.toList = .ok (.option o short none) := by
  obtain ⟨c, cs, hdash⟩ := h.exists_eq_cons
  obtain ⟨short, hname⟩ := h.exists_ofName?
  refine ⟨short, ?_⟩
  rw [hdash] at hname ⊢
  rw [Command.classify, hname]
  rfl

theorem equals_notMem_long (o : Switch) : '=' ∉ o.long := by
  cases o <;> decide +kernel

/-- A name with a value joined to it is no name. -/
theorem ofName?_joined {name : List Char} (h : 2 ≤ name.length) (value : List Char) :
    Switch.ofName? (name ++ '=' :: value) = none := by
  rw [Switch.ofName?.eq_def]
  split
  · rename_i c hname
    have hlength := congrArg List.length hname
    simp only [List.length_append, List.length_cons, List.length_nil] at hlength
    omega
  · rw [Option.map_eq_none_iff, List.find?_eq_none]
    intro o _ hlong
    apply equals_notMem_long o
    rw [of_decide_eq_true hlong]
    exact List.mem_append_right name List.mem_cons_self

theorem splitValue_joined {name : List Char} (h : ∀ c ∈ name, decide (c ≠ '=') = true)
    (value : List Char) : splitValue (name ++ '=' :: value) = (name, some value) := by
  have htake : (name ++ '=' :: value).takeWhile (· ≠ '=') = name := by
    rw [List.takeWhile_append_of_pos h, List.takeWhile_cons_of_neg (by decide), List.append_nil]
  have hdrop : (name ++ '=' :: value).dropWhile (· ≠ '=') = '=' :: value := by
    rw [List.dropWhile_append_of_pos h, List.dropWhile_cons_of_neg (by decide)]
  rw [splitValue, hdrop, htake]

theorem toList_joined (name value : String) :
    (name ++ "=" ++ value).toList = name.toList ++ '=' :: value.toList := by
  rw [String.toList_append, String.toList_append, List.append_assoc]
  rfl

theorem Names.classify_joined (h : Names name o) (value : String) : ∃ short,
    Command.classify (name ++ "=" ++ value).toList = .ok (.option o short (some value.toList)) := by
  obtain ⟨c, cs, hdash⟩ := h.exists_eq_cons
  obtain ⟨short, hname⟩ := h.exists_ofName?
  have hlength : 2 ≤ name.toList.length := by simp [hdash]
  have hnone := ofName?_joined hlength value.toList
  have hsplit := splitValue_joined h.notMem_equals value.toList
  refine ⟨short, ?_⟩
  rw [toList_joined]
  rw [hdash] at hname hnone hsplit ⊢
  rw [List.cons_append, List.cons_append] at hnone hsplit ⊢
  rw [Command.classify, hnone, hsplit]
  simp only [hname]
  rfl

end

theorem classifyAll_cons {w : List Char} {c : Argument} (hw : w ≠ ['-', '-'])
    (hc : classify w = .ok c) (rest : List (List Char)) :
    classifyAll (w :: rest) = (classifyAll rest).map ((w, c) :: ·) := by
  rw [classifyAll, if_neg hw, hc]
  cases classifyAll rest <;> rfl

/-- The words that ask for a thing are classified as such, whatever comes after them. -/
theorem Spells.exists_taken {a : Ask} {ws : List String} (h : Spells a ws) :
    ∃ cs, Taken a cs ∧ ∀ rest,
      classifyAll (ws.map String.toList ++ rest) = (classifyAll rest).map (cs ++ ·) := by
  cases h with
  | flag f =>
    have hw : f.word.toList ≠ ['-', '-'] := by cases f <;> decide +kernel
    exact ⟨_, .flag f _, classifyAll_cons hw (classify_flag f)⟩
  | @apart name value o _ hname hmeans hbare =>
    obtain ⟨short, hclass⟩ := hname.classify
    have hw : name.toList ≠ ['-', '-'] := by cases hname <;> decide +kernel
    refine ⟨[(name.toList, .option o short none), (value.toList, .plain)], .apart hmeans, ?_⟩
    intro rest
    have hvalue := classifyAll_cons (hbare '-' []) hbare.classify rest
    show classifyAll (name.toList :: value.toList :: rest) = _
    rw [classifyAll_cons hw hclass, hvalue]
    cases classifyAll rest <;> rfl
  | @joined name value o _ hname hmeans hvalue =>
    obtain ⟨short, hclass⟩ := hname.classify_joined value
    have hw : (name ++ "=" ++ value).toList ≠ ['-', '-'] := by
      intro hw
      have hequals : '=' ∈ ['-', '-'] := by
        rw [← hw, toList_joined]
        exact List.mem_append_right _ List.mem_cons_self
      exact absurd hequals (by decide)
    exact ⟨_, .joined hmeans hvalue, classifyAll_cons hw hclass⟩
  | file hbare => exact ⟨_, .file _, classifyAll_cons (hbare '-' []) hbare.classify⟩

/-- A depth that can be spelled is one at which the command can run. -/
theorem Spells.depth_mem {a : Ask} {ws : List String} (h : Spells a ws) {n : Nat}
    (hn : a.depth? = some n) : leastDepth ≤ n ∧ n ≤ maxDepth := by
  cases h with
  | flag f | file hbare => cases hn
  | apart _ hmeans | joined _ hmeans =>
    cases hmeans with
    | budget digits | program text => cases hn
    | depth digits hleast hmost =>
      cases hn
      exact ⟨hleast, hmost⟩

theorem exists_spells_of_mem {asks : List Ask} {wordss : List (List String)}
    (h : List.Forall₂ Spells asks wordss) {a : Ask} (ha : a ∈ asks) : ∃ ws, Spells a ws := by
  induction h with
  | nil => cases ha
  | cons hspells _ ih =>
    rcases List.mem_cons.mp ha with rfl | ha
    · exact ⟨_, hspells⟩
    · exact ih ha

theorem classifyAll_of_spells {asks : List Ask} {wordss : List (List String)}
    (h : List.Forall₂ Spells asks wordss) : ∃ css, List.Forall₂ Taken asks css ∧
      classifyAll (wordss.flatten.map String.toList) = .ok css.flatten := by
  induction h with
  | nil => exact ⟨[], .nil, rfl⟩
  | cons hspells _ ih =>
    obtain ⟨css, htaken, hclasses⟩ := ih
    obtain ⟨cs, htaken', hclasses'⟩ := hspells.exists_taken
    refine ⟨cs :: css, .cons htaken' htaken, ?_⟩
    rw [List.flatten_cons, List.map_append, hclasses', hclasses]
    rfl

/-! ## What is done then -/

theorem numberAtLeast_digits {least : Int} {digits : Digits} (h : least ≤ digits.value) (o : Switch) :
    numberAtLeast least o digits.chars = .ok digits.value := by
  rw [numberAtLeast, Text.integer?_digits]
  exact if_neg (Int.not_lt.mpr h)

theorem Means.setValue {o : Switch} {value : String} {a : Ask} (h : Means o value a)
    (opts : Options) : opts.setValue o value.toList = .ok (a.add opts) := by
  cases h with
  | budget digits =>
    rw [Options.setValue, String.toList_ofList, numberAtLeast_digits (Int.natCast_nonneg _)]
    rfl
  | depth digits hleast hmost =>
    have hone : (1 : Int) ≤ digits.value := by
      rw [leastDepth] at hleast
      omega
    rw [Options.setValue, String.toList_ofList, numberAtLeast_digits hone]
    rfl
  | program text =>
    rw [Options.setValue, String.ofList_toList]
    rfl

theorem Means.takesValue {o : Switch} {value : String} {a : Ask} (h : Means o value a) :
    o.takesValue = true := by
  cases h <;> rfl

/-- The number of files that may still come. -/
def Expecting.files : Expecting → Nat
  | .file => 1
  | .nothing => 0

section
variable {opts : Options} {expecting : Expecting} {w : List Char} {o : Switch} {short : Bool}
  {value : String} {a : Ask} {rest : List (List Char × Argument)}

theorem act_flag (f : Flag) : act opts expecting [] ((w, .option f.switch false none) :: rest) =
    act (Ask.add opts (.flag f)) expecting [] rest := by
  rw [act]
  cases f <;> rfl

theorem act_joined (hmeans : Means o value a) (hvalue : value ≠ "--") :
    act opts expecting [] ((w, .option o short (some value.toList)) :: rest) =
      act (a.add opts) expecting [] rest := by
  have hcluster : o.cluster short (some value.toList) = .ok ⟨[], some (o, some value.toList)⟩ :=
    if_pos hmeans.takesValue
  have hgiven : value.toList ≠ ['-', '-'] := by
    intro h
    apply hvalue
    rw [← String.ofList_toList (s := value), h]
  have hset : opts.setAttached o value.toList = .ok (a.add opts) := by
    rw [Options.setAttached, if_neg hgiven, hmeans.setValue]
  rw [act, hcluster]
  show opts.setAttached o value.toList >>= (fun opts => act opts expecting [] rest) = _
  rw [hset]
  rfl

theorem act_apart (hmeans : Means o value a) :
    act opts expecting [] ((w, .option o short none) :: (value.toList, .plain) :: rest) =
      act (a.add opts) expecting [] rest := by
  have hcluster : o.cluster short none = .ok ⟨[], some (o, none)⟩ := by
    rw [Switch.cluster, Switch.clusterFrom, if_pos hmeans.takesValue]
    rfl
  rw [act, hcluster]
  show opts.setValue o value.toList >>= (fun opts => act opts expecting [] rest) = _
  rw [hmeans.setValue]
  rfl

theorem act_file (name : String) (hrest : ∀ w, rest.head? ≠ some (w, .separator)) :
    act opts .file [] ((name.toList, .plain) :: rest) =
      act (Ask.add opts (.file name)) .nothing [] rest := by
  have hname : ({ opts with file := some (String.ofList name.toList) } : Options) =
      Ask.add opts (.file name) := by rw [String.ofList_toList]; rfl
  rw [← hname]
  cases rest with
  | nil => rfl
  | cons c rest =>
    obtain ⟨w, c⟩ := c
    cases c with
    | separator => exact absurd rfl (hrest w)
    | plain | unknown | option => rfl

end

theorem Taken.head?_ne {cs : List (List Char × Argument)} (h : Taken a cs)
    (rest : List (List Char × Argument)) (w : List Char) :
    (cs ++ rest).head? ≠ some (w, .separator) := by
  cases h <;> intro hhead <;> cases hhead

theorem head?_ne_of_taken {asks : List Ask} {css : List (List (List Char × Argument))}
    (h : List.Forall₂ Taken asks css) (w : List Char) : css.flatten.head? ≠ some (w, .separator) := by
  cases h with
  | nil => exact nofun
  | cons htaken _ => exact htaken.head?_ne _ w

/-- Words that ask for things are taken as these, one after the other. -/
theorem act_of_taken {asks : List Ask} {css : List (List (List Char × Argument))}
    (h : List.Forall₂ Taken asks css) (opts : Options) {expecting : Expecting}
    (hfile : (asks.filterMap Ask.file?).length ≤ expecting.files) :
    act opts expecting [] css.flatten = .ok (asks.foldl Ask.add opts) := by
  induction h generalizing opts expecting with
  | nil => cases expecting <;> rfl
  | @cons a cs asks css htaken hrest ih =>
    rw [List.flatten_cons, List.foldl_cons]
    cases htaken with
    | flag f w => exact (act_flag f).trans (ih (Ask.add opts (.flag f)) hfile)
    | apart hmeans =>
      have hnone : a.file? = none := by cases hmeans <;> rfl
      rw [List.filterMap_cons_none hnone] at hfile
      exact (act_apart hmeans).trans (ih (a.add opts) hfile)
    | joined hmeans hvalue =>
      have hnone : a.file? = none := by cases hmeans <;> rfl
      rw [List.filterMap_cons_none hnone] at hfile
      exact (act_joined hmeans hvalue).trans (ih (a.add opts) hfile)
    | file name =>
      have hlength : (asks.filterMap Ask.file?).length + 1 ≤ expecting.files := hfile
      cases expecting with
      | nothing => exact absurd hlength (Nat.not_succ_le_zero _)
      | file =>
        exact (act_file name (head?_ne_of_taken hrest)).trans
          (ih (Ask.add opts (.file name)) (Nat.le_of_succ_le_succ hlength))

/-- Words that spell what is asked for are read as options that ask for it. -/
theorem readArguments_of_spells {asks : List Ask} {wordss : List (List String)}
    (h : List.Forall₂ Spells asks wordss) (hfile : (asks.filterMap Ask.file?).length ≤ 1) :
    readArguments wordss.flatten = .ok (asked asks) := by
  obtain ⟨css, htaken, hclasses⟩ := classifyAll_of_spells h
  have hact : act {} .file [] css.flatten = .ok (asks.foldl Ask.add {}) :=
    act_of_taken htaken {} hfile
  rw [readArguments, hclasses, ← foldl_add]
  exact hact

end Command

end LambdaCalculus
