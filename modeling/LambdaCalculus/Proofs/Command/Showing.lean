import LambdaCalculus.Proofs.Command.Sources
import LambdaCalculus.Proofs.Walking

/-!
# What the command shows of a program

The command does not call for the result of a program in one go: it finds the text, loads it,
evaluates it with a visitor that may show every term on the way, counts the result where that is asked
for, and then shows one thing or another.  What it shows is a function of what the run of the text
comes to, of the terms that a watched evaluation of it sees, and of what the words of the command line
ask for.

* `rehearse_walk`, `rehearse_evaluateWithin` — an evaluation with a visitor that writes comes to what
  it comes to without, and what is written is what was seen.
* `rehearse_countNumeral` — so does a count.
* `Options.progress`, `Options.answer` — what is shown on the way, and at the end.
* `rehearse_perform_of_run` — what the command does with its options.
* `command_shows_run` — the output, the errors and the status of the command, from its words.
-/

namespace LambdaCalculus

theorem fits_of_load {limit : Nat} {standard : Bool} {source : String} {t : Term}
    (h : load limit standard source = .ok t) : t.fits limit = true := by
  obtain ⟨p, -, hterm⟩ := bind_eq_ok.mp h
  exact fits_of_term hterm

namespace Command

open Term

/-! ## Visitors that write -/

/-- The transcript with more written to the output. -/
def Transcript.said (w : Transcript) (s : String) : Transcript := { w with out := w.out ++ s }

theorem Transcript.said_empty (w : Transcript) : w.said "" = w := by
  simp [said]

theorem Transcript.said_append (w : Transcript) (s s' : String) :
    (w.said s).said s' = w.said (s ++ s') := by
  simp [said, String.append_assoc]

theorem rehearse_say (s : String) (setting : Setting) (before : Transcript) :
    rehearse (say s) setting before = (.ok (), before.said s) := rfl

theorem rehearse_formed {opts : Options} {t : Term} (ht : t.fits opts.bounds.depth = true)
    (form : Term → List Char) (setting : Setting) (before : Transcript) :
    rehearse (formed opts form t) setting before = (.ok (String.ofList (form t)), before) := by
  rw [formed, if_pos ht]
  rfl

theorem join_map_empty {α : Type} (us : List α) : String.join (us.map fun _ => "") = "" := by
  induction us with
  | nil => rfl
  | cons u us ih => rw [List.map_cons, String.join_cons, ih, String.append_empty]

/-- Shown one of the terms, the visitor writes the text of that term and does nothing else. -/
def Writes (visit : Nat → Term → Work Rehearsal Unit) (text : Term → String) (us : List Term) :
    Prop :=
  ∀ k, ∀ u ∈ us, ∀ setting before,
    rehearse (visit k u) setting before = (.ok (), before.said (text u))

section
variable {visit : Nat → Term → Work Rehearsal Unit} {text : Term → String}

/-- A walk with a visitor that writes comes to what it comes to without, and what is written is the
text of what is shown. -/
theorem rehearse_walk {limit n : Nat} {t : Term} {us : List Term} {r : Except Fault Term}
    (h : Walks limit n t us r) (hvisit : Writes visit text us) (k : Nat) (setting : Setting)
    (before : Transcript) :
    rehearse (walk limit visit n k t) setting before =
      (r, before.said (String.join (us.map text))) := by
  induction h generalizing k before with
  | spent t =>
    rw [List.map_nil, String.join_nil, Transcript.said_empty]
    rfl
  | ended n h =>
    rw [walk, h, List.map_nil, String.join_nil, Transcript.said_empty]
    rfl
  | failed n h =>
    rw [walk, h, List.map_nil, String.join_nil, Transcript.said_empty]
    rfl
  | @step n t u us r h _ ih =>
    have hshow : walk limit visit (n + 1) k t =
        visit (k + 1) u >>= fun _ => walk limit visit n (k + 1) u := by
      rw [walk, h]
      rfl
    have hrest : Writes visit text us := fun k v hv => hvisit k v (List.mem_cons_of_mem u hv)
    rw [hshow, rehearse_bind_ok (hvisit (k + 1) u (List.mem_cons_self ..) setting before),
      ih hrest, Transcript.said_append, List.map_cons, String.join_cons]

/-- What follows a walk may fail, as long as it writes nothing. -/
theorem rehearse_walk_bind {limit n : Nat} {t : Term} {us : List Term} {r : Except Fault Term}
    (h : Walks limit n t us r) (hvisit : Writes visit text us)
    {next : Term → Work Rehearsal Term} {f : Term → Except Fault Term} {setting : Setting}
    (hnext : ∀ last after, rehearse (next last) setting after = (f last, after))
    (before : Transcript) :
    rehearse (walk limit visit n 0 t >>= next) setting before =
      (r >>= f, before.said (String.join (us.map text))) := by
  have hwalk := rehearse_walk h hvisit 0 setting before
  cases r with
  | error fault => exact rehearse_bind_error hwalk
  | ok last => rw [rehearse_bind_ok hwalk, hnext, ok_bind]

/-- So does an evaluation within an optional budget. -/
theorem rehearse_evaluateWithin (bounds : Bounds) (budget : Option Int) (t : Term)
    (hvisit : Writes visit text (traced bounds budget t).2) (setting : Setting)
    (before : Transcript) :
    rehearse (evaluateWithin bounds visit budget t) setting before =
      ((traced bounds budget t).1,
        before.said (String.join ((traced bounds budget t).2.map text))) := by
  cases budget with
  | none =>
    obtain ⟨us, r, hwalks, htraced, -⟩ := traced_none bounds t
    rw [htraced] at hvisit ⊢
    refine rehearse_walk_bind hwalks hvisit ?_ before
    intro last after
    rw [finish]
    rcases last.reducibleWithin bounds.depth with fault | _ | _ <;> rfl
  | some budget =>
    rcases checkedBudget_cases budget with ⟨n, rfl, hn⟩ | ⟨fault, hrefused⟩
    · obtain ⟨us, r, hwalks, htraced, -⟩ := traced_budget bounds hn t
      rw [htraced] at hvisit ⊢
      rw [evaluateWithin, checkedBudget_of_le hn, pure_bind]
      refine rehearse_walk_bind hwalks hvisit ?_ before
      intro last after
      rw [verdict]
      rcases last.reducibleWithin bounds.depth with fault | _ | _ <;> rfl
    · rw [(traced_refused bounds hrefused t).1, evaluateWithin, hrefused, List.map_nil,
        String.join_nil, Transcript.said_empty]
      rfl

end

/-! ## Counting -/

section
variable {visit : Nat → Term → Work Rehearsal Unit}
  (hquiet : ∀ k u setting before, rehearse (visit k u) setting before = (.ok (), before))
  (bounds : Bounds) (setting : Setting) (before : Transcript)
include hquiet

/-- With a visitor that writes nothing, nothing is written. -/
theorem rehearse_evaluate (t : Term) :
    rehearse (evaluate bounds visit t) setting before = (evaluate bounds silent t, before) := by
  have hwrites : Writes visit (fun _ => "") (traced bounds none t).2 := by
    intro k u _ setting before
    rw [hquiet, Transcript.said_empty]
  have hevaluate := rehearse_evaluateWithin bounds none t hwrites setting before
  rw [join_map_empty, Transcript.said_empty, ← evaluate_eq_traced] at hevaluate
  exact hevaluate

/-- Nothing is written either by what goes on from there. -/
theorem rehearse_evaluate_bind {β : Type} {next : Term → Work Rehearsal β}
    {f : Term → Except Fault β}
    (hnext : ∀ u, rehearse (next u) setting before = (f u, before)) (t : Term) :
    rehearse (evaluate bounds visit t >>= next) setting before =
      (evaluate bounds silent t >>= f, before) := by
  have hevaluate := rehearse_evaluate hquiet bounds setting before t
  cases hu : evaluate bounds silent t with
  | error fault =>
    rw [hu] at hevaluate
    exact rehearse_bind_error hevaluate
  | ok u =>
    rw [hu] at hevaluate
    rw [rehearse_bind_ok hevaluate, hnext, ok_bind]

theorem rehearse_countFrom (fuel count : Nat) (t : Term) :
    rehearse (countFrom bounds visit fuel count t) setting before =
      (countFrom bounds silent fuel count t, before) := by
  induction fuel generalizing count t with
  | zero => rfl
  | succ fuel ih =>
    cases t with
    | bound i x | free x | lam x b => rfl
    | app f inner =>
      cases f with
      | bound i x | lam x b | app g c => rfl
      | free x =>
        rw [countFrom, countFrom]
        by_cases hx : x = succName
        · rw [if_pos hx, if_pos hx]
          exact rehearse_evaluate_bind hquiet bounds setting before (ih (count + 1)) inner
        · rw [if_neg hx, if_neg hx]
          rfl

/-- A count with a visitor that writes nothing comes to what it comes to without. -/
theorem rehearse_countNumeral (t : Term) :
    rehearse (countNumeral bounds visit t) setting before =
      (countNumeral bounds silent t, before) :=
  rehearse_evaluate_bind hquiet bounds setting before
    (rehearse_countFrom hquiet bounds setting before bounds.patience 0) _

end

/-! ## What the options ask for -/

/-- The text between the codes of a colour, where there is colour. -/
def tinted (colour : Bool) (codes text : String) : String :=
  if colour then codes ++ text ++ "\x1b[0m" else text

/-- The arrow in front of a term on the way. -/
def arrow (colour : Bool) : String := tinted colour "\x1b[36m" "→ "

theorem stepLead_eq (colour : Bool) : stepLead colour = arrow colour := by
  cases colour <;> rfl

theorem errorLead_eq (colour : Bool) :
    errorLead colour = tinted colour "\x1b[1m\x1b[31m" "error: " := by
  cases colour <;> rfl

namespace Options

variable (opts : Options)

/-- The budget of steps that the options ask for. -/
def budget? : Option Int :=
  match opts.maxSteps with
  | .given n => some n
  | _ => none

/-- A term on a line of its own, in the form that the options ask for. -/
def line (t : Term) : String :=
  String.ofList (if opts.indices then t.indexed else t.rendered opts.ascii) ++ "\n"

/-- What is shown while the text is evaluated: nothing, or its term and then, each after an arrow, the
terms that the evaluation sees. -/
def progress (colour : Bool) (text : String) : String :=
  match load opts.bounds.depth opts.standard text with
  | .error _ => ""
  | .ok t =>
    if opts.trace then
      opts.line t ++
        String.join ((traced opts.bounds opts.budget? t).2.map fun u => arrow colour ++ opts.line u)
    else ""

theorem progress_of_load (colour : Bool) {text : String} {t : Term}
    (hload : load opts.bounds.depth opts.standard text = .ok t) :
    opts.progress colour text =
      if opts.trace then
        opts.line t ++
          String.join
            ((traced opts.bounds opts.budget? t).2.map fun u => arrow colour ++ opts.line u)
      else "" := by
  rw [progress, hload]

/-- What is shown of the result: the number that it was counted as, or else the term, unless the trace
has just shown it. -/
def answer (r : Term) : Option Nat → String
  | some n => String.ofList (decimal n) ++ "\n"
  | none => if opts.trace then "" else opts.line r

/-- Where a trace is asked for, no term that it shows is too deep to be shown. -/
def TraceFits (text : String) : Prop :=
  opts.trace = true → ∀ t, load opts.bounds.depth opts.standard text = .ok t →
    ∀ u ∈ (traced opts.bounds opts.budget? t).2, u.fits opts.bounds.depth = true

/-- The number that the result is counted as, where the options ask for one. -/
def number (r : Term) : Except Fault (Option Nat) :=
  if opts.numeral then countNumeral opts.bounds silent r else .ok none

end Options

/-! ## The session -/

section
variable {opts : Options} (hdetails : opts.details = false)
include hdetails

theorem rehearse_detailStep (k : Nat) (t : Term) (setting : Setting) (before : Transcript) :
    rehearse (detailStep opts k t) setting before = (.ok (), before) := by
  rw [detailStep, detail, if_neg (by simp [hdetails])]
  rfl

theorem loadNotes_eq (text : String) : loadNotes opts text = "" := by
  rw [loadNotes, if_neg (by simp [hdetails])]

/-- The visitor of the command writes a line for a term that it can show, where a trace is asked
for. -/
theorem writes_showStep (colour : Bool) {us : List Term}
    (hfits : opts.trace = true → ∀ u ∈ us, u.fits opts.bounds.depth = true) :
    Writes (showStep colour opts)
      (fun u => if opts.trace then arrow colour ++ opts.line u else "") us := by
  intro k u hu setting before
  beta_reduce
  rw [showStep, rehearse_bind_ok (rehearse_detailStep hdetails k u setting before)]
  by_cases htrace : opts.trace = true
  · rw [if_pos htrace, if_pos htrace,
      rehearse_bind_ok (rehearse_formed (hfits htrace u hu) _ setting before), rehearse_say,
      stepLead_eq, Options.line, Options.form, String.append_assoc]
  · rw [if_neg htrace, if_neg htrace, Transcript.said_empty]
    rfl

/-- What the evaluation of the loaded term shows, and what it comes to. -/
theorem rehearse_reduced (colour : Bool) {text : String} {t : Term}
    (hload : load opts.bounds.depth opts.standard text = .ok t) (hbudget : opts.maxSteps ≠ .blank)
    (hfits : opts.trace = true → ∀ u ∈ (traced opts.bounds opts.budget? t).2,
      u.fits opts.bounds.depth = true) (setting : Setting) (before : Transcript) :
    rehearse (reduced colour opts t) setting before =
      ((traced opts.bounds opts.budget? t).1, before.said (opts.progress colour text)) := by
  have hevaluate (before : Transcript) := rehearse_evaluateWithin opts.bounds opts.budget? t
    (writes_showStep hdetails colour hfits) setting before
  have hreduced : (reduced colour opts t : Work Rehearsal Term) =
      if opts.trace then formed opts opts.form t >>= fun s => say (s ++ "\n") >>= fun _ =>
        evaluateWithin opts.bounds (showStep colour opts) opts.budget? t
      else evaluateWithin opts.bounds (showStep colour opts) opts.budget? t := by
    unfold reduced Options.budget?
    cases hsteps : opts.maxSteps with
    | blank => exact absurd hsteps hbudget
    | absent => cases opts.trace <;> rfl
    | given n => cases opts.trace <;> rfl
  rw [hreduced, opts.progress_of_load colour hload]
  by_cases htrace : opts.trace = true
  · simp only [htrace, if_true] at hevaluate ⊢
    rw [rehearse_bind_ok (rehearse_formed (fits_of_load hload) _ setting before),
      rehearse_bind_ok (rehearse_say _ setting before), hevaluate, Transcript.said_append]
    rfl
  · simp only [htrace, Bool.false_eq_true, if_false, join_map_empty] at hevaluate ⊢
    exact hevaluate before

/-- The result and its number are those of the run of the text, and what is shown on the way is all
that is written. -/
theorem rehearse_result (colour : Bool) {text : String} (hbudget : opts.maxSteps ≠ .blank)
    (hfits : opts.TraceFits text) (setting : Setting) (before : Transcript) :
    rehearse (result colour opts text) setting before =
      (run opts.bounds opts.standard opts.budget? text >>= fun r =>
        opts.number r >>= fun n? => .ok (r, n?), before.said (opts.progress colour text)) := by
  have hloaded := rehearse_loaded opts text setting before
  rw [loadNotes_eq hdetails, Transcript.complained_empty] at hloaded
  rw [result, run]
  cases hload : load opts.bounds.depth opts.standard text with
  | error fault =>
    rw [hload] at hloaded
    rw [rehearse_bind_error hloaded, Options.progress, hload, Transcript.said_empty]
    rfl
  | ok t =>
    have hreduced := rehearse_reduced hdetails colour hload hbudget
      (fun htrace => hfits htrace t hload) setting before
    have hrun : evaluateWithin opts.bounds (fun _ _ => pure ()) opts.budget? t =
        (traced opts.bounds opts.budget? t).1 := evaluateWithin_eq_traced opts.bounds opts.budget? t
    rw [hload] at hloaded
    rw [rehearse_bind_ok hloaded, ok_bind, hrun]
    cases hr : (traced opts.bounds opts.budget? t).1 with
    | error fault =>
      rw [hr] at hreduced
      exact rehearse_bind_error hreduced
    | ok r =>
      rw [hr] at hreduced
      rw [rehearse_bind_ok hreduced, ok_bind, Options.number]
      by_cases hnumeral : opts.numeral = true
      · rw [if_pos hnumeral, if_pos hnumeral]
        have hcount := rehearse_countNumeral (rehearse_detailStep hdetails) opts.bounds setting
          (before.said (opts.progress colour text)) r
        cases hn : countNumeral opts.bounds silent r with
        | error fault =>
          rw [hn] at hcount
          exact rehearse_bind_error hcount
        | ok n? =>
          rw [hn] at hcount
          rw [rehearse_bind_ok hcount]
          rfl
      · rw [if_neg hnumeral, if_neg hnumeral]
        rfl

omit hdetails in
/-- The answer is what is shown of a result, if it can be shown. -/
theorem rehearse_present {r : Term} {n? : Option Nat}
    (hfits : opts.trace = false → n? = none → r.fits opts.bounds.depth = true)
    (setting : Setting) (before : Transcript) :
    rehearse (present opts (r, n?)) setting before = (.ok (), before.said (opts.answer r n?)) := by
  cases n? with
  | some n => rfl
  | none =>
    rw [present, Options.answer]
    by_cases htrace : opts.trace = true
    · rw [if_pos htrace, if_pos htrace, Transcript.said_empty]
      rfl
    · have hr := hfits (Bool.eq_false_iff.mpr htrace) rfl
      rw [if_neg htrace, if_neg htrace, rehearse_bind_ok (rehearse_formed hr _ setting before)]
      rfl

omit hdetails in
/-- A result is shown, and the status is zero. -/
theorem rehearse_evaluateText_of_ok (colour : Bool) {text : String} {setting : Setting}
    {before after : Transcript} {r : Term} {n? : Option Nat}
    (h : rehearse (result colour opts text) setting before = (.ok (r, n?), after))
    (hfits : opts.trace = false → n? = none → r.fits opts.bounds.depth = true) :
    rehearse (evaluateText colour opts text) setting before =
      (.ok (.status 0), after.said (opts.answer r n?)) := by
  have hlift := rehearse_lift_run (result colour opts text) setting before
  rw [h] at hlift
  rw [evaluateText, rehearse_bind_ok hlift]
  exact rehearse_bind_ok (rehearse_present hfits setting after)

end

/-- There is a wording for every fault that is reported. -/
theorem exists_message_of_reported {fault : Fault} (h : fault.reported = true) :
    ∃ message, fault.message? = some message := by
  cases fault with
  | mistake | malformed | exhausted | stepLimit => exact ⟨_, rfl⟩
  | _ => cases h

/-- The command agrees with the run of the text under the same options.  Where the run answers, the
command shows what is to be shown on the way and then the answer, and its status is zero.  Where the
run fails for a reason of the program's own, the command says so among the errors after what it has
shown on the way, and its status is one; with any other fault it stops short. -/
theorem rehearse_perform_of_run {colour : Bool} {opts : Options} {setting : Setting}
    {before : Transcript} {text : String}
    (hdepth : rehearse (checkDepth opts) setting before = (.ok (), before))
    (hsource : rehearse (source opts) setting before = (.ok (.ok text), before))
    (hexpr : opts.expr ≠ .blank) (hbudget : opts.maxSteps ≠ .blank)
    (hdetails : opts.details = false) (hfits : opts.TraceFits text) :
    (∀ r n?, run opts.bounds opts.standard opts.budget? text = .ok r → opts.number r = .ok n? →
      (opts.trace = false → n? = none → r.fits opts.bounds.depth = true) →
      rehearse (perform colour opts) setting before = (.ok (.status 0),
        (before.said (opts.progress colour text ++ opts.answer r n?)).complained (infoNote opts))) ∧
    ∀ fault, run opts.bounds opts.standard opts.budget? text = .error fault →
      rehearse (perform colour opts) setting before =
        if fault.reported then
          (.ok (.status 1), (before.said (opts.progress colour text)).complained
            (infoNote opts ++ errorLine colour opts (fault.message?.getD [])))
        else
          (.error fault, (before.said (opts.progress colour text)).complained (infoNote opts)) := by
  have hresult := rehearse_result hdetails colour hbudget hfits setting
    (before.complained (infoNote opts))
  rw [rehearse_perform colour opts hdepth hsource hexpr]
  constructor
  · intro r n? hrun hnumber hanswer
    rw [hrun, ok_bind, hnumber] at hresult
    rw [rehearse_evaluateText_of_ok colour hresult hanswer, Transcript.said_append]
    rfl
  · intro fault hrun
    rw [hrun] at hresult
    rw [rehearse_evaluateText_of_error colour opts hresult, ← Transcript.complained_append]
    rfl

/-- The result of a run is the last term that a watched evaluation sees. -/
theorem getLastD_of_run {bounds : Bounds} {standard : Bool} {budget : Option Int} {text : String}
    {r : Term} (h : run bounds standard budget text = .ok r) :
    ∃ t, load bounds.depth standard text = .ok t ∧ (traced bounds budget t).2.getLastD t = r := by
  obtain ⟨t, hload, hr⟩ := bind_eq_ok.mp h
  exact ⟨t, hload, getLastD_traced ((evaluateWithin_eq_traced _ _ t).symm.trans hr)⟩

theorem budget?_asked (asks : List Ask) : (asked asks).budget? = budget asks := by
  have hlast : ((asks.filterMap Ask.budget?).map Int.ofNat).getLast? = budget asks :=
    List.getLast?_map
  rw [Options.budget?]
  cases hbudget : budget asks with
  | some n =>
    have hgiven : (asked asks).maxSteps = .given n := Value.ofGiven_of_some (hlast.trans hbudget)
    rw [hgiven]
  | none =>
    have habsent : (asked asks).maxSteps = .absent := Value.ofGiven_of_none (hlast.trans hbudget)
    rw [habsent]

theorem errorLine_asked (colour : Bool) (asks : List Ask) (message : List Char) :
    errorLine colour (asked asks) message = (place asks).origin ++ ": " ++
      tinted colour "\x1b[1m\x1b[31m" "error: " ++ String.ofList message ++ "\n" := by
  rw [errorLine, origin_asked, errorLead_eq]

/-- The command does what its words ask for.  It runs the program that they provide, with the standard
definitions if they ask for these and within the budget of steps that they give.

Where the run answers, the command shows what is to be shown on the way and then the answer, and its
status is zero; the answer is the last term that was seen on the way.  Where the run fails for a reason
of the program's own, the command says so among the errors after what it has shown on the way, and its
status is one; with any other fault it stops short.  The terms that are shown must not be too deep to
be shown, and the count of the result has to come to an end. -/
theorem command_shows_run {asks : List Ask} {wordss : List (List String)} {setting : Setting}
    {text : String} (hspells : List.Forall₂ Spells asks wordss)
    (hfile : (asks.filterMap Ask.file?).length ≤ 1) (htext : Provides setting (place asks) text)
    (hfits : (asked asks).TraceFits text) (colour : Bool) (before : Transcript) :
    (∀ r n?, run (limits asks) (decide (.flag .prelude ∈ asks)) (budget asks) text = .ok r →
      (asked asks).number r = .ok n? →
      (.flag .trace ∉ asks → n? = none → r.fits (limits asks).depth = true) →
      rehearse (command colour wordss.flatten) setting before = (.ok (.status 0),
        before.said ((asked asks).progress colour text ++ (asked asks).answer r n?)) ∧
      ∃ t, load (limits asks).depth (decide (.flag .prelude ∈ asks)) text = .ok t ∧
        (traced (limits asks) (budget asks) t).2.getLastD t = r) ∧
    ∀ fault, run (limits asks) (decide (.flag .prelude ∈ asks)) (budget asks) text = .error fault →
      if fault.reported then
        ∃ message, fault.message? = some message ∧
          rehearse (command colour wordss.flatten) setting before = (.ok (.status 1),
            (before.said ((asked asks).progress colour text)).complained
              ((place asks).origin ++ ": " ++ tinted colour "\x1b[1m\x1b[31m" "error: " ++
                String.ofList message ++ "\n"))
      else
        rehearse (command colour wordss.flatten) setting before =
          (.error fault, before.said ((asked asks).progress colour text)) := by
  have hcommand : rehearse (command colour wordss.flatten) setting before =
      rehearse (perform colour (asked asks)) setting before := by
    rw [command, readArguments_of_spells hspells hfile]
  obtain ⟨hanswer, hfault⟩ := @rehearse_perform_of_run colour (asked asks) setting before text
    (rehearse_checkDepth hspells) (rehearse_source htext) (Value.ofGiven_ne_blank _)
    (Value.ofGiven_ne_blank _) rfl hfits
  have hquiet : infoNote (asked asks) = "" := rfl
  rw [hquiet, bounds_asked, budget?_asked] at hanswer hfault
  rw [hcommand]
  constructor
  · intro r n? hrun hnumber hshown
    refine ⟨?_, getLastD_of_run hrun⟩
    rw [hanswer r n? hrun hnumber fun htrace => hshown (of_decide_eq_false htrace),
      Transcript.complained_empty]
  · intro fault hrun
    rw [hfault fault hrun]
    by_cases hreported : fault.reported = true
    · obtain ⟨message, hmessage⟩ := exists_message_of_reported hreported
      rw [if_pos hreported, if_pos hreported, hmessage]
      refine ⟨message, rfl, ?_⟩
      rw [String.empty_append, Option.getD_some, errorLine_asked]
    · rw [if_neg hreported, if_neg hreported, Transcript.complained_empty]

/-- The digits of the number ten. -/
def tenDigits : Digits := ⟨['1', '0'], List.all_eq_true.mp (by decide), by decide, by decide⟩

/-- For a trace, a budget of ten, and the number of the result. -/
def traceWithinTen : List Ask := [.flag .trace, .budget 10, .flag .numeral]

/-- From the input, a trace of one step and then the number two. -/
theorem command_shows_run_two :
    List.Forall₂ Spells traceWithinTen [["--trace"], ["--max-steps", "10"], ["--numeral"]] ∧
    Provides ⟨"(λx. x) 2\r\n".toUTF8, ⟨[]⟩⟩ (place traceWithinTen) "(λx. x) 2\n" ∧
    run .standard false (some 10) "(λx. x) 2\n" = .ok (numeral 2) ∧
    countNumeral .standard silent (numeral 2) = .ok (some 2) ∧
    rehearse (command false ["--trace", "--max-steps", "10", "--numeral"])
        ⟨"(λx. x) 2\r\n".toUTF8, ⟨[]⟩⟩ ⟨"", ""⟩ =
      (.ok (.status 0),
        ⟨"((λx. x) λf. λx. (f (f x)))\n→ λf. λx. (f (f x))\n2\n", ""⟩) := by
  have hspells : List.Forall₂ Spells traceWithinTen
      [["--trace"], ["--max-steps", "10"], ["--numeral"]] := by
    have hbare : Bare "10" := fun c cs h => by cases h
    exact .cons (.flag .trace) (.cons (.apart .maxSteps (.budget tenDigits) hbare)
      (.cons (.flag .numeral) .nil))
  have htext : Provides ⟨"(λx. x) 2\r\n".toUTF8, ⟨[]⟩⟩ (place traceWithinTen)
      "(λx. x) 2\n" := by
    have hlines : Text.Unifies "(λx. x) 2\r\n".toList "(λx. x) 2\n".toList := by
      have hwritten : "(λx. x) 2\r\n".toList = "(λx. x) 2".toList ++ ['\r', '\n'] := by
        decide +kernel
      have hread : "(λx. x) 2\n".toList = "(λx. x) 2".toList ++ ['\n'] := by decide +kernel
      rw [hwritten, hread]
      exact (Text.Unifies.pair .nil).behind (by decide +kernel)
    exact .input rfl hlines
  have hload : load 5000 false "(λx. x) 2\n" =
      .ok (.app (.lam "x" (.bound 0 "x")) (numeral 2)) := by
    unfold load Program.parse lex
    rw [String.toList_ofList]
    decide +kernel
  have htraced : traced .standard (some 10) (.app (.lam "x" (.bound 0 "x")) (numeral 2)) =
      (.ok (numeral 2), [numeral 2]) := by
    decide +kernel
  have hrun : run .standard false (some 10) "(λx. x) 2\n" = .ok (numeral 2) := by
    have hevaluate := evaluateWithin_eq_traced .standard (some 10)
      (.app (.lam "x" (.bound 0 "x")) (numeral 2))
    rw [htraced] at hevaluate
    exact bind_eq_ok.mpr ⟨_, hload, hevaluate⟩
  have hcount : countNumeral .standard silent (numeral 2) = .ok (some 2) := by
    decide +kernel
  have hbounds : (asked traceWithinTen).bounds = .standard := bounds_asked traceWithinTen
  have hbudget : (asked traceWithinTen).budget? = some 10 := budget?_asked traceWithinTen
  have htrace : (asked traceWithinTen).trace = true := rfl
  have hnumeral : (asked traceWithinTen).numeral = true := rfl
  have hfits : (asked traceWithinTen).TraceFits "(λx. x) 2\n" := by
    intro _ t ht u hu
    rw [hbounds] at ht hu ⊢
    rw [hbudget] at hu
    cases hload.symm.trans ht
    rw [htraced, List.mem_singleton] at hu
    subst hu
    decide +kernel
  have hprogress : (asked traceWithinTen).progress false "(λx. x) 2\n" =
      "((λx. x) λf. λx. (f (f x)))\n→ λf. λx. (f (f x))\n" := by
    have hloaded : load (asked traceWithinTen).bounds.depth (asked traceWithinTen).standard
        "(λx. x) 2\n" = .ok (.app (.lam "x" (.bound 0 "x")) (numeral 2)) := by
      rw [hbounds]
      exact hload
    rw [Options.progress_of_load _ false hloaded, if_pos htrace, hbounds, hbudget, htraced]
    decide +kernel
  have hnumber : (asked traceWithinTen).number (numeral 2) = .ok (some 2) := by
    rw [Options.number, hbounds, if_pos hnumeral]
    exact hcount
  obtain ⟨hanswer, -⟩ := command_shows_run hspells (by decide) htext hfits false ⟨"", ""⟩
  obtain ⟨hcommand, -⟩ := hanswer (numeral 2) (some 2) hrun hnumber (fun _ h => by cases h)
  rw [hprogress] at hcommand
  refine ⟨hspells, htext, hrun, hcount, hcommand.trans ?_⟩
  decide +kernel

end Command

end LambdaCalculus
