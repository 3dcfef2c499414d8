import LambdaCalculus.Command.Session
import LambdaCalculus.Proofs.Program.Faults

/-!
# How the command reports a text that does not load

In a rehearsal the command is a function of what there is to be read and what has been written
before.  Loading leaves notes among the errors where every detail is told, and so much of them as it
came to if it fails.  Then a fault that is the program's own becomes a line among the errors and the
status is one; with any other the command stops short, without a line and without a status.

* `rehearse` — what work comes to, and what has been written then.
* `rehearse_loaded` — the command loads as `load` does, and writes its notes.
* `rehearse_evaluateText_of_fault`, `rehearse_command_of_fault` — what is said of a text that does not
  load.
* `texts_load_or_are_reported` — every text loads or is reported, unless its first mistake is a number
  of too many digits.
* `zeros_escape` — such a text is not reported.
-/

namespace LambdaCalculus

/-- What is loaded can be shown within the limit under which it was loaded. -/
theorem fits_of_term {limit : Nat} {standard : Bool} {source : String} {p : Program} {t : Term}
    (h : p.term limit standard source = .ok t) : t.fits limit = true := by
  obtain ⟨named, -, hresolved⟩ := bind_eq_ok.mp h
  rw [Term.resolved_eq] at hresolved
  split at hresolved
  · rename_i hfits
    cases hresolved
    rw [Term.fits_resolve, hfits]
  · cases hresolved

namespace Command

/-! ## Rehearsing -/

/-- What work comes to in a rehearsal, and what has been written then. -/
def rehearse {α : Type} (work : Work Rehearsal α) (setting : Setting) (before : Transcript) :
    Except Fault α × Transcript :=
  (work.run.run setting).run before

/-- The transcript with more written to the errors. -/
def Transcript.complained (w : Transcript) (s : String) : Transcript := { w with err := w.err ++ s }

section
variable {α β : Type} {setting : Setting} {before after : Transcript}

theorem Transcript.complained_empty (w : Transcript) : w.complained "" = w := by
  simp [complained]

theorem Transcript.complained_append (w : Transcript) (s s' : String) :
    (w.complained s).complained s' = w.complained (s ++ s') := by
  simp [complained, String.append_assoc]

theorem rehearse_bind_ok {work : Work Rehearsal α} {next : α → Work Rehearsal β} {a : α}
    (h : rehearse work setting before = (.ok a, after)) :
    rehearse (work >>= next) setting before = rehearse (next a) setting after := by
  unfold rehearse at h ⊢
  rw [ExceptT.run_bind, ReaderT.run_bind, StateT.run_bind, h]
  rfl

theorem rehearse_bind_error {work : Work Rehearsal α} {next : α → Work Rehearsal β} {fault : Fault}
    (h : rehearse work setting before = (.error fault, after)) :
    rehearse (work >>= next) setting before = (.error fault, after) := by
  unfold rehearse at h ⊢
  rw [ExceptT.run_bind, ReaderT.run_bind, StateT.run_bind, h]
  rfl

theorem rehearse_complain (s : String) :
    rehearse (complain s) setting before = (.ok (), before.complained s) := rfl

theorem rehearse_mk (r : Except Fault α) :
    rehearse (ExceptT.mk (pure r)) setting before = (r, before) := rfl

/-- Work that is looked at from outside does not fail. -/
theorem rehearse_lift_run (work : Work Rehearsal α) (setting : Setting) (before : Transcript) :
    rehearse (ExceptT.lift work.run : Work Rehearsal (Except Fault α)) setting before =
      (.ok (rehearse work setting before).1, (rehearse work setting before).2) := rfl

/-- Something may be written on a condition before the work goes on. -/
theorem rehearse_note {c : Bool} {s : String} {next : Work Rehearsal α} :
    rehearse (if c then complain s >>= fun _ => next else next) setting before =
      rehearse next setting (before.complained (if c then s else "")) := by
  cases c with
  | true => exact rehearse_bind_ok (rehearse_complain s)
  | false => rw [if_neg Bool.false_ne_true, if_neg Bool.false_ne_true, Transcript.complained_empty]

end

/-! ## Loading -/

/-- What is noted of the program that was read. -/
def parsedNote (text : String) : String :=
  match Program.parse text with
  | .ok p => "DEBUG ulc.interpreter: parsed " ++ toString p.statements.length ++ " statement(s)\n"
  | .error _ => ""

/-- What is noted of the term that was made. -/
def resolvedNote (opts : Options) (text : String) : String :=
  match load opts.bounds.depth opts.standard text with
  | .ok t => "DEBUG ulc.interpreter: resolved: " ++ String.ofList (t.rendered false) ++ "\n"
  | .error _ => ""

/-- What is noted while a text is loaded, as far as that goes. -/
def loadNotes (opts : Options) (text : String) : String :=
  if opts.details then parsedNote text ++ resolvedNote opts text else ""

section
variable (colour : Bool) (opts : Options) (text : String) (setting : Setting) (before : Transcript)

theorem rehearse_detail {t : Term} (ht : t.fits opts.bounds.depth = true) (heading : String) :
    rehearse (detail opts heading t) setting before = (.ok (), before.complained
      (if opts.details then heading ++ String.ofList (t.rendered false) ++ "\n" else "")) := by
  unfold detail formed
  rw [if_pos ht, pure_bind]
  by_cases h : opts.details = true
  · rw [if_pos h, if_pos h]
    rfl
  · rw [if_neg h, if_neg h, Transcript.complained_empty]
    rfl

/-- The command loads as `load` does, and writes its notes. -/
theorem rehearse_loaded : rehearse (loaded opts text) setting before =
    (load opts.bounds.depth opts.standard text, before.complained (loadNotes opts text)) := by
  unfold loaded loadNotes parsedNote resolvedNote
  cases hp : Program.parse text with
  | error fault =>
    have hload : load opts.bounds.depth opts.standard text = .error fault := by
      rw [load, hp]
      rfl
    rw [rehearse_bind_error (rehearse_mk _), hload]
    simp [Transcript.complained_empty]
  | ok p =>
    have hload : load opts.bounds.depth opts.standard text =
        p.term opts.bounds.depth opts.standard text := by rw [load, hp, ok_bind]
    rw [rehearse_bind_ok (rehearse_mk _), hload]
    rw [rehearse_note]
    cases hterm : p.term opts.bounds.depth opts.standard text with
    | error fault =>
      rw [rehearse_bind_error (rehearse_mk _)]
      simp
    | ok t =>
      rw [rehearse_bind_ok (rehearse_mk _),
        rehearse_bind_ok (rehearse_detail opts _ _ (fits_of_term hterm) _),
        Transcript.complained_append]
      by_cases h : opts.details = true
      · simp only [h, if_true]
        rfl
      · simp only [h]
        rfl

/-! ## What is said -/

/-- The line by which a fault is reported. -/
def errorLine (message : List Char) : String :=
  opts.origin ++ ": " ++ errorLead colour ++ String.ofList message ++ "\n"

/-- What is noted before the text is loaded. -/
def infoNote : String :=
  if opts.informs then "INFO ulc.cli: evaluating " ++ opts.origin ++ "\n" else ""

variable {text setting before}
variable {fault : Fault} {message : List Char}

theorem rehearse_result_of_fault (h : load opts.bounds.depth opts.standard text = .error fault) :
    rehearse (result colour opts text) setting before =
      (.error fault, before.complained (loadNotes opts text)) := by
  apply rehearse_bind_error
  rw [rehearse_loaded, h]

/-- A fault of the result is reported, if it is one of the program. -/
theorem rehearse_evaluateText_of_error {after : Transcript}
    (h : rehearse (result colour opts text) setting before = (.error fault, after)) :
    rehearse (evaluateText colour opts text) setting before =
      if fault.reported then
        (.ok (.status 1), after.complained (errorLine colour opts (fault.message?.getD [])))
      else (.error fault, after) := by
  have hlift := rehearse_lift_run (result colour opts text) setting before
  rw [h] at hlift
  rw [evaluateText, rehearse_bind_ok hlift]
  by_cases hreported : fault.reported = true
  · simp only [hreported, if_true]
    rw [rehearse_bind_ok (rehearse_complain _)]
    rfl
  · simp only [hreported]
    rfl

/-- A text that does not load is reported, if that is for a fault of the program. -/
theorem rehearse_evaluateText_of_fault
    (h : load opts.bounds.depth opts.standard text = .error fault)
    (hmessage : fault.message? = some message) :
    rehearse (evaluateText colour opts text) setting before =
      if fault.reported then
        (.ok (.status 1), before.complained (loadNotes opts text ++ errorLine colour opts message))
      else (.error fault, before.complained (loadNotes opts text)) := by
  rw [rehearse_evaluateText_of_error colour opts (rehearse_result_of_fault colour opts h), hmessage,
    Transcript.complained_append]
  rfl

theorem rehearse_perform (hdepth : rehearse (checkDepth opts) setting before = (.ok (), before))
    (hsource : rehearse (source opts) setting before = (.ok (.ok text), before))
    (hexpr : opts.expr ≠ .blank) :
    rehearse (perform colour opts) setting before =
      rehearse (evaluateText colour opts text) setting (before.complained (infoNote opts)) := by
  rw [perform, rehearse_bind_ok hdepth, rehearse_bind_ok hsource]
  rw [rehearse_note, if_neg hexpr]
  rfl

theorem rehearse_perform_of_fault (hdepth : rehearse (checkDepth opts) setting before = (.ok (), before))
    (hsource : rehearse (source opts) setting before = (.ok (.ok text), before))
    (hexpr : opts.expr ≠ .blank)
    (h : load opts.bounds.depth opts.standard text = .error fault)
    (hmessage : fault.message? = some message) :
    rehearse (perform colour opts) setting before =
      if fault.reported then
        (.ok (.status 1),
          before.complained (infoNote opts ++ loadNotes opts text ++ errorLine colour opts message))
      else (.error fault, before.complained (infoNote opts ++ loadNotes opts text)) := by
  rw [rehearse_perform colour opts hdepth hsource hexpr,
    rehearse_evaluateText_of_fault colour opts h hmessage]
  simp only [Transcript.complained_append, String.append_assoc]

end

/-- Every text loads, or there is a reason why it does not.  Unless the reason is that the first
mistake in the text is a number of too many digits, the command reports it as an error and ends with
status one; with such a number it stops short, and nothing is said of the program. -/
theorem texts_load_or_are_reported (text : String) :
    (∀ limit standard, (∃ t, load limit standard text = .ok t) ∨
      ∃ fault, load limit standard text = .error fault ∧ LoadFault text fault ∧
        (fault.reported = true ∨
          ∃ digits, fault = .longNumeral digits ∧ maxDigits < digits ∧ FirstMistake text fault)) ∧
    (∀ fault, FirstMistake text fault →
      ∀ limit standard, load limit standard text = .error fault) ∧
    ∀ colour arguments opts setting before fault, readArguments arguments = .ok opts →
      rehearse (checkDepth opts) setting before = (.ok (), before) →
      rehearse (source opts) setting before = (.ok (.ok text), before) → opts.expr ≠ .blank →
      load opts.bounds.depth opts.standard text = .error fault →
      ∃ message, fault.message? = some message ∧
        rehearse (command colour arguments) setting before =
          if fault.reported then
            (.ok (.status 1), before.complained
              (infoNote opts ++ loadNotes opts text ++ errorLine colour opts message))
          else (.error fault, before.complained (infoNote opts ++ loadNotes opts text)) := by
  refine ⟨?_, ?_, ?_⟩
  · intro limit standard
    cases h : load limit standard text with
    | ok t => exact .inl ⟨t, rfl⟩
    | error fault =>
      have hfault := loadFault_of_load h
      exact .inr ⟨fault, rfl, hfault, hfault.reported_or⟩
  · intro fault h
    exact h.load_eq
  · intro colour arguments opts setting before fault harguments hdepth hsource hexpr hload
    obtain ⟨message, hmessage⟩ := (loadFault_of_load hload).exists_message
    refine ⟨message, hmessage, ?_⟩
    rw [command, harguments]
    exact rehearse_perform_of_fault colour opts hdepth hsource hexpr hload hmessage

/-- A program that ends in a binding is reported with the place of the binding. -/
theorem texts_load_or_are_reported_binding :
    readArguments ["-e", "let a = b"] = .ok { expr := .given "let a = b" } ∧
    load 5000 false "let a = b" =
      .error (.malformed .endsInBinding (some ⟨0, 9⟩) (some "let a = b")) ∧
    rehearse (command false ["-e", "let a = b"]) ⟨.empty, ⟨[]⟩⟩ ⟨"", ""⟩ = (.ok (.status 1), ⟨"",
      "<expr>: error: Program must end with an expression, not a binding @ 1:1: 'let a = b'\n"⟩) := by
  have harguments : readArguments ["-e", "let a = b"] = .ok { expr := .given "let a = b" } := by
    decide +kernel
  have hload : load 5000 false "let a = b" =
      .error (.malformed .endsInBinding (some ⟨0, 9⟩) (some "let a = b")) := by
    unfold load Program.parse lex
    rw [String.toList_ofList]
    decide +kernel
  have hmessage : Fault.message? (.malformed .endsInBinding (some ⟨0, 9⟩) (some "let a = b")) =
      some "Program must end with an expression, not a binding @ 1:1: 'let a = b'".toList := by
    decide +kernel
  obtain ⟨-, -, hcommand⟩ := texts_load_or_are_reported "let a = b"
  obtain ⟨message, hsaid, hrun⟩ := hcommand false ["-e", "let a = b"] _ ⟨.empty, ⟨[]⟩⟩ ⟨"", ""⟩ _
    harguments rfl rfl (by decide) hload
  rw [hmessage] at hsaid
  cases hsaid
  refine ⟨harguments, hload, hrun.trans ?_⟩
  decide +kernel

/-- The number zero, written with so many digits. -/
def zeros (n : Nat) : String := String.ofList (List.replicate n '0')

theorem firstMistake_zeros {n : Nat} (h : maxDigits < n) :
    FirstMistake (zeros n) (.longNumeral n) := by
  cases n with
  | zero => omega
  | succ n =>
    have hlength : ('0' :: List.replicate n '0').length = n + 1 := by simp
    have hdigits : ∀ d ∈ '0' :: List.replicate n '0', Text.isDigit d = true := by
      intro d hd
      rw [← List.replicate_succ] at hd
      rw [List.eq_of_mem_replicate hd]
      decide
    have hsource : (zeros (n + 1)).toList = '0' :: List.replicate n '0' ++ [] := by
      rw [zeros, String.toList_ofList, List.append_nil, List.replicate_succ]
    have hmistake := firstMistake_of_digits hsource hdigits (stopsAt_nil _) (by rw [hlength]; exact h)
    rw [hlength] at hmistake
    exact hmistake

/-- A digit too many keeps a text from loading, with a fault that is not the program's, and the
command stops short with that fault. -/
theorem zeros_escape :
    (∀ limit standard, load limit standard (zeros 4301) = .error (.longNumeral 4301)) ∧
    Fault.reported (.longNumeral 4301) = false ∧
    ∀ colour opts setting before,
      (rehearse (evaluateText colour opts (zeros 4301)) setting before).1 =
        .error (.longNumeral 4301) := by
  have hzeros : FirstMistake (zeros 4301) (.longNumeral 4301) := firstMistake_zeros (by decide)
  refine ⟨hzeros.load_eq, rfl, ?_⟩
  intro colour opts setting before
  rw [rehearse_evaluateText_of_fault colour opts (hzeros.load_eq _ _) rfl]
  rfl

end Command

end LambdaCalculus
