import Mathlib.Data.List.Induction
import StrictnessAnalysis.CommandLine.Session
import StrictnessAnalysis.Proofs.Actions
import StrictnessAnalysis.Proofs.Loads
import StrictnessAnalysis.Proofs.Lookup
import StrictnessAnalysis.Proofs.MutualRecursion

/-! What a run prints and how it ends, for a program that loads and a run that nothing interrupts.
The output has a line for each function and then one for each query that is not short of operands.
A query that is short of operands is an issue, and the third issue ends the run. Only issues count
for the status, neither cautions nor queries that run out of depth. -/

namespace StrictnessAnalysis

open Text

/-- The names of a table are those of the list, in the order of their first definitions. -/
theorem Table.names_ofList (defs : List Definition) :
    (ofList defs).names = (defs.map Definition.name).eraseDups := by
  induction defs using List.reverseRecOn with
  | nil => rfl
  | append_singleton defs f ih =>
    have hinsert : ofList (defs ++ [f]) = (ofList defs).insert f := by
      rw [ofList, List.foldl_concat, ← ofList]
    have hnames : (ofList defs).entries.map Definition.name = _ := ih
    rw [hinsert, names, insert, names_put, hnames, List.map_append, List.map_singleton,
      List.eraseDups_append, List.cons_removeAll]
    by_cases hmem : f.name ∈ defs.map Definition.name <;> simp [hmem, List.eraseDups_cons]

theorem Text.lines_append (ls ls' : List String) : lines (ls ++ ls') = lines ls ++ lines ls' := by
  rw [lines, List.map_append, String.join_append]
  rfl

theorem Text.lines_cons (l : String) (ls : List String) :
    lines (l :: ls) = l ++ "\n" ++ lines ls := by
  rw [lines, List.map_cons, String.join_cons, ← lines]

theorem Text.eq_toString_of_decimal? {n : Int} {text : String} (h : decimal? n = some text) :
    text = toString n := by
  unfold decimal? at h
  split at h
  · exact (Option.some.inj h).symm
  · cases h

namespace CommandLine

/-! ### Signatures -/

/-- The analysis of a program that was loaded. -/
def analysisOf (program : Program) : Analysis := Analysis.ofTable (Table.ofList program.functions)

/-- A line that gives the signature of the last definition of a name: behind the name stand its
parameters in parentheses, and a bang behind each in which it is strict. -/
def Signs (program : Program) (depth : Nat) (name line : String) : Prop :=
  ∃ f strict, Definition.last? program.functions name = some f ∧
    (analysisOf program).strictness depth f = .ok strict ∧ strict.length = f.params.length ∧
    line = name ++ "(" ++ String.intercalate ", "
      (List.zipWith (fun param s => if s then param ++ "!" else param) f.params strict) ++ ")"

section Signatures

variable {program : Program} {depth : Nat}

theorem length_strictness {a : Analysis} {f : Definition} {strict : List Bool}
    (h : a.strictness depth f = .ok strict) : strict.length = f.params.length := by
  unfold Analysis.strictness at h
  split at h
  · cases h
    exact List.length_replicate
  · rw [← (forall₂_of_mapM_ok h).length_eq, List.length_range]
    rfl

theorem signature_eq (f : Definition) (strict : List Bool) :
    f.signature strict = f.name ++ "(" ++ String.intercalate ", "
      (List.zipWith (fun param s => if s then param ++ "!" else param) f.params strict) ++ ")" := by
  rw [Definition.signature, List.map_zip_eq_zipWith]
  rfl

theorem signs_survey {fs : List Definition}
    (hlast : ∀ f ∈ fs, Definition.last? program.functions f.name = some f)
    (h : ((analysisOf program).survey depth fs).2 = none) :
    List.Forall₂ (Signs program depth) (fs.map Definition.name)
      (((analysisOf program).survey depth fs).1.map fun p => p.1.signature p.2) := by
  induction fs with
  | nil => exact .nil
  | cons f fs ih =>
    rw [List.forall_mem_cons] at hlast
    rw [Analysis.survey] at h ⊢
    cases hstrict : (analysisOf program).strictness depth f with
    | error failure =>
      rw [hstrict] at h
      cases h
    | ok strict =>
      rw [hstrict] at h
      refine .cons ⟨f, strict, hlast.1, hstrict, length_strictness hstrict, ?_⟩ (ih hlast.2 h)
      exact signature_eq f strict

/-- If no analysis fails, every name has its signature. -/
theorem signs_names
    (h : ((analysisOf program).survey depth (analysisOf program).table.entries).2 = none) :
    List.Forall₂ (Signs program depth) (program.functions.map Definition.name).eraseDups
      (((analysisOf program).survey depth (analysisOf program).table.entries).1.map
        fun p => p.1.signature p.2) := by
  rw [← Table.names_ofList]
  refine signs_survey (fun f hf => ?_) h
  rw [← Table.find?_ofList]
  exact Table.find?_of_mem hf

end Signatures

/-! ### Single queries -/

section Queries

variable (a : Analysis) (depth : Nat)

/-- The outcome of a query in the standard semantics. -/
def standardOutcome (q : Query) : Except Standard.Failure (Option Int) :=
  Standard.eval a.table depth (override (fun _ => none) q.env) q.expr

/-- The outcome in the abstract semantics. -/
def abstractOutcome (q : Query) : Except Abstract.Failure Definedness :=
  a.query depth (fun x => Definedness.ofValue (override (fun _ => none) q.env x)) q.expr

/-- What lacks operands when a query is evaluated, if anything does. -/
def shortage? (q : Query) : Option Operator.Shortage :=
  match standardOutcome a depth q with
  | .error (.shortage cause) => some cause
  | _ => none

/-- How an outcome in the standard semantics is written. -/
inductive Shown : Except Standard.Failure (Option Int) → String → Prop
  | undefined : Shown (.ok none) "undefined"
  | value (n : Int) : Shown (.ok (some n)) (toString n)
  | tooDeep :
      Shown (.error .tooDeep) "undefined (still recursing at the interpreter's depth limit)"

/-- How an outcome in the abstract semantics is written. -/
inductive Named : Except Abstract.Failure Definedness → String → Prop
  | zero : Named (.ok .zero) "ZERO"
  | one : Named (.ok .one) "ONE"

/-- A line with the outcomes of a query in both semantics. -/
def Answers (q : Query) (line : String) : Prop :=
  ∃ value point, Shown (standardOutcome a depth q) value ∧
    Named (abstractOutcome a depth q) point ∧
    line = q.expr.render ++ " => " ++ value ++ " / " ++ point

/-- A query is answered, is short of operands, or interrupts the run. -/
inductive Answered (q : Query) : Answer → Prop
  | line {text : String} : shortage? a depth q = none → Answers a depth q text →
      Answered q (.line text)
  | shortage {cause : Operator.Shortage} : shortage? a depth q = some cause →
      Answered q (.shortage cause)
  | interrupted {cause : Interrupt} : cause ≠ .tooManyIssues → Answered q (.interrupted cause)

variable {a depth} in
/-- An outcome that can be shown leaves it to the abstract semantics whether there is an answer. -/
theorem answered_of_shown {q : Query} {outcome : Except Standard.Failure (Option Int)}
    {value : String} (houtcome : standardOutcome a depth q = outcome) (hshown : Shown outcome value)
    (hdecimal : ∀ n, outcome = .ok (some n) → decimal? n = some value) :
    Answered a depth q (answer a depth q) := by
  have heval := houtcome
  rw [standardOutcome] at heval
  cases hquery : abstractOutcome a depth q with
  | ok point =>
    have hnone : shortage? a depth q = none := by
      rw [shortage?, houtcome]
      cases hshown <;> rfl
    have hanswer : answer a depth q =
        .line (q.expr.render ++ " => " ++ value ++ " / " ++ point.name) := by
      rw [abstractOutcome] at hquery
      cases hshown <;> simp only [answer, heval, hquery, hdecimal]
    rw [hanswer]
    refine .line hnone ⟨value, point.name, houtcome ▸ hshown, ?_, rfl⟩
    rw [hquery]
    cases point with
    | zero => exact .zero
    | one => exact .one
  | error failure =>
    have hanswer : answer a depth q = .interrupted (interruptOf failure) := by
      rw [abstractOutcome] at hquery
      cases hshown <;> simp only [answer, heval, hquery, hdecimal]
    rw [hanswer]
    exact .interrupted (by cases failure <;> simp [interruptOf])

theorem answered_answer (q : Query) : Answered a depth q (answer a depth q) := by
  cases houtcome : standardOutcome a depth q with
  | ok value =>
    cases value with
    | none => exact answered_of_shown houtcome .undefined (by simp)
    | some n =>
      cases hdecimal : decimal? n with
      | none =>
        rw [standardOutcome] at houtcome
        simp only [answer, houtcome, hdecimal]
        exact .interrupted (by decide)
      | some value =>
        obtain rfl := eq_toString_of_decimal? hdecimal
        refine answered_of_shown houtcome (.value n) ?_
        rintro _ ⟨rfl⟩
        exact hdecimal
  | error failure =>
    cases failure with
    | tooDeep => exact answered_of_shown houtcome .tooDeep (by simp)
    | shortage cause =>
      have hsome : shortage? a depth q = some cause := by simp only [shortage?, houtcome]
      rw [standardOutcome] at houtcome
      simp only [answer, houtcome]
      exact .shortage hsome

/-! ### Sequences of queries -/

/-- The queries that are evaluated, each with its index, which starts from `i`: those with fewer
than `room` others before them that are short of operands. -/
def asked (room i : Nat) (queries : List Query) : List (Query × Nat) :=
  (queries.zipIdx i).filter fun p =>
    (queries.take (p.2 - i)).countP (fun q => (shortage? a depth q).isSome) < room

theorem asked_zero (i : Nat) (queries : List Query) : asked a depth 0 i queries = [] := by
  simp [asked]

theorem asked_cons (room i : Nat) (q : Query) (queries : List Query) :
    asked a depth (room + 1) i (q :: queries) = (q, i) ::
      asked a depth (if (shortage? a depth q).isSome then room else room + 1) (i + 1) queries := by
  rw [asked, List.zipIdx_cons, List.filter_cons_of_pos (by simp)]
  congr 1
  refine List.filter_congr fun p hp => ?_
  have hle := List.le_snd_of_mem_zipIdx hp
  have htake : (q :: queries).take (p.2 - i) = q :: queries.take (p.2 - (i + 1)) := by
    rw [show p.2 - i = p.2 - (i + 1) + 1 by omega, List.take_succ_cons]
  rw [htake, List.countP_cons]
  split <;> simp

/-- The issue that a query makes if it is short of operands: it names the place of the expression,
the operator and the number of operands. -/
def issue? (p : Query × Nat) : Option Notice :=
  (shortage? a depth p.1).map fun cause =>
    { intro := "This cannot be evaluated."
      places := ["queries[" ++ toString p.2 ++ "].expr"]
      remarks :=
        [cause.operator.name ++ " needs 2 arguments; got " ++ toString cause.given ++ "."] }

theorem render_queryPlace (i : Nat) :
    (queryPlace i).render = "queries[" ++ toString i ++ "].expr" := by
  rw [queryPlace, Document.Place.render, String.ext_iff]
  simp [Document.Step.render]

theorem issue?_of_shortage? {q : Query} {cause : Operator.Shortage} (i : Nat)
    (h : shortage? a depth q = some cause) :
    issue? a depth (q, i) = some (.undefinedOperation (queryPlace i).render cause.message) := by
  rw [issue?, h, Option.map_some, render_queryPlace]
  rfl

/-- What evaluating queries adds to the console and the report. -/
structure Talk (heard : List (Query × Nat)) (console : Console) (report : Report)
    (console' : Console) (report' : Report) (answers : List String) : Prop where
  answered : List.Forall₂ (fun p line => Answers a depth p.1 line)
    (heard.filter fun p => (shortage? a depth p.1).isNone) answers
  out : console'.out = console.out ++ lines answers
  err : console'.err = console.err ++
    String.join (heard.map fun p => report.info ["Query:", p.1.expr.render])
  reported : report' = { report with issues := report.issues ++ heard.filterMap (issue? a depth) }

variable {a depth} {heard : List (Query × Nat)} {console console' : Console}
  {report report' : Report} {answers : List String} {q : Query} {i : Nat}

theorem Talk.nil : Talk a depth [] console report console report [] where
  answered := .nil
  out := by simp [lines]
  err := by simp
  reported := by simp

theorem Talk.line {text : String} (hnone : shortage? a depth q = none)
    (hanswers : Answers a depth q text)
    (h : Talk a depth heard ((console.warn (report.info ["Query:", q.expr.render])).say text) report
      console' report' answers) :
    Talk a depth ((q, i) :: heard) console report console' report' (text :: answers) where
  answered := by
    rw [List.filter_cons_of_pos (by simp [hnone])]
    exact .cons hanswers h.answered
  out := by
    rw [h.out, lines_cons, Console.say, Console.warn]
    simp only [String.append_assoc]
  err := by
    rw [h.err, Console.say, Console.warn, List.map_cons, String.join_cons, String.append_assoc]
  reported := by
    rw [h.reported, List.filterMap_cons_none (by simp [issue?, hnone])]

theorem Talk.shortage {cause : Operator.Shortage} (hcause : shortage? a depth q = some cause)
    (h : Talk a depth heard (console.warn (report.info ["Query:", q.expr.render]))
      (report.issue (.undefinedOperation (queryPlace i).render cause.message)).1
      console' report' answers) :
    Talk a depth ((q, i) :: heard) console report console' report' answers where
  answered := by
    rw [List.filter_cons_of_neg (by simp [hcause])]
    exact h.answered
  out := h.out
  err := by
    rw [h.err, Console.warn, List.map_cons, String.join_cons, String.append_assoc]
    rfl
  reported := by
    rw [h.reported, List.filterMap_cons_some (issue?_of_shortage? a depth i hcause),
      Report.issue_eq]
    simp only [List.append_assoc, List.singleton_append]

/-- If nothing else interrupts, all queries are evaluated up to the one that takes the last room for
issues. -/
theorem talk_answerAll {queries : List Query} (room : Nat) {interrupt : Option Interrupt}
    (hroom : (report.issues.length : Int) + (room + 1 : Nat) = report.limit)
    (h : answerAll a depth i queries report console = (console', report', interrupt))
    (hcause : ∀ cause, interrupt = some cause → cause = .tooManyIssues) :
    (∃ answers, Talk a depth (asked a depth (room + 1) i queries) console report console' report'
      answers) ∧
    interrupt =
      if ((asked a depth (room + 1) i queries).filterMap (issue? a depth)).length = room + 1 then
        some .tooManyIssues else none := by
  -- the room and the issues of the report always add up to its limit
  induction queries generalizing room i report console with
  | nil =>
    cases h
    exact ⟨⟨[], .nil⟩, rfl⟩
  | cons q queries ih =>
    rw [answerAll] at h
    rw [asked_cons]
    have hanswered := answered_answer a depth q
    cases hanswer : answer a depth q with
    | line text =>
      rw [hanswer] at h hanswered
      cases hanswered with
      | line hnone hanswers =>
        have hissue : issue? a depth (q, i) = none := by rw [issue?, hnone, Option.map_none]
        obtain ⟨⟨answers, htalk⟩, hinterrupt⟩ := ih room hroom h
        rw [hnone, Option.isSome_none, if_neg Bool.false_ne_true, List.filterMap_cons_none hissue]
        exact ⟨⟨text :: answers, htalk.line hnone hanswers⟩, hinterrupt⟩
    | interrupted cause =>
      rw [hanswer] at h hanswered
      cases hanswered with
      | interrupted hne =>
        cases h
        exact absurd (hcause cause rfl) hne
    | shortage cause =>
      rw [hanswer] at h hanswered
      cases hanswered with
      | shortage hsome =>
        have hissue := issue?_of_shortage? a depth i hsome
        rw [hsome, Option.isSome_some, if_pos rfl, List.filterMap_cons_some hissue,
          List.length_cons]
        simp only [Report.issue_eq] at h
        -- the report is full with this issue if there was room for just one
        cases room with
        | zero =>
          have hfull : (report.issues.length : Int) + 1 = report.limit := by omega
          rw [if_pos (decide_eq_true hfull)] at h
          cases h
          rw [asked_zero]
          exact ⟨⟨[], Talk.nil.shortage hsome⟩, rfl⟩
        | succ room =>
          have hleft : (report.issues.length : Int) + 1 ≠ report.limit := by omega
          rw [if_neg (by simpa using hleft)] at h
          have hroom' (n : Notice) :
              ((report.issues ++ [n]).length : Int) + (room + 1 : Nat) = report.limit := by
            rw [List.length_append, List.length_singleton]
            omega
          obtain ⟨⟨answers, htalk⟩, hinterrupt⟩ := ih room (hroom' _) h
          refine ⟨⟨answers, htalk.shortage hsome⟩, ?_⟩
          simpa using hinterrupt

end Queries

/-! ### What is said beside the answers -/

/-- A notice on lines: the introduction, the places and the remarks. -/
def noticeLines (n : Notice) : List String := n.intro :: n.places.map ("    at " ++ ·) ++ n.remarks

/-- Issues under a banner, each behind a rule. With three of them a run gives up. -/
def issueLines (outburst : Outburst) (issues : List Notice) : List String :=
  if issues.isEmpty then []
  else
    String.ofList (List.replicate 60 '*') :: outburst.text ::
      (issues.flatMap fun n => String.join (List.replicate 20 "  -") :: noticeLines n) ++
      if issues.length = 3 then
        [String.join (List.replicate 35 " *"),
          "Giving up after a few issues. One crisis at a time, eh?"]
      else []

theorem lines_intercalate (l : String) (ls : List String) :
    lines [String.intercalate "\n" (l :: ls)] = lines (l :: ls) := by
  induction ls generalizing l with
  | nil => rw [String.intercalate_singleton]
  | cons l' ls ih =>
    rw [lines_cons l (l' :: ls), ← ih l', String.intercalate_cons_cons]
    simp only [lines_cons, String.append_assoc]

theorem lines_text (n : Notice) (ls : List String) :
    lines (n.text :: ls) = lines (noticeLines n ++ ls) := by
  rw [← List.singleton_append, lines_append, lines_append, Notice.text]
  exact congrArg (· ++ lines ls) (lines_intercalate _ _)

theorem lines_map_text (notices : List Notice) :
    lines (notices.map Notice.text) = lines (notices.flatMap noticeLines) := by
  induction notices with
  | nil => rfl
  | cons n notices ih =>
    rw [List.map_cons, List.flatMap_cons, lines_text, lines_append, lines_append, ih]

theorem lines_issues (issues : List Notice) (rule : String) :
    lines (issues.flatMap fun n => [rule, n.text]) =
      lines (issues.flatMap fun n => rule :: noticeLines n) := by
  induction issues with
  | nil => rfl
  | cons n issues ih =>
    rw [List.flatMap_cons, List.flatMap_cons, lines_append, lines_append, ih, lines_cons,
      lines_text, List.append_nil, lines_cons]

theorem complaint_eq (outburst : Outburst) (r : Report) :
    (r.complaint outburst ++ if r.issues.length = 3 then surrender else "") =
      lines (issueLines outburst r.issues) := by
  unfold Report.complaint issueLines Report.sick Report.ok
  cases hempty : r.issues.isEmpty with
  | true =>
    rw [List.isEmpty_iff.1 hempty]
    rfl
  | false =>
    simp only [Bool.not_false, if_true, Bool.false_eq_true, if_false, lines_append, lines_issues,
      List.cons_append, lines_cons, String.append_assoc]
    split <;> rfl

theorem info_queries (r : Report) (heard : List (Query × Nat)) :
    String.join (heard.map fun p => r.info ["Query:", p.1.expr.render]) =
      lines (if r.chatty then heard.map fun p => "Query: " ++ p.1.expr.render else []) := by
  unfold Report.info
  cases r.chatty with
  | true =>
    have hwords (p : Query × Nat) : String.intercalate " " ["Query:", p.1.expr.render] =
        "Query: " ++ p.1.expr.render := by
      rw [String.intercalate_cons_cons, String.intercalate_singleton]
      rfl
    simp only [if_true, hwords, lines, List.map_map, Function.comp_def]
  | false =>
    induction heard with
    | nil => rfl
    | cons p heard ih =>
      rw [List.map_cons, String.join_cons, ih]
      rfl

/-! ### Runs -/

section Runs

variable {depth : Nat} {outburst : Outburst}

/-- Only a report that is full lets a run end with a status after an interrupt. -/
theorem eq_tooManyIssues_of_conclude {console : Console} {report : Report}
    {interrupt : Option Interrupt}
    (h : ∀ cause, (conclude outburst console report interrupt).ending ≠ .interrupted cause) :
    ∀ cause, interrupt = some cause → cause = .tooManyIssues := by
  rintro cause rfl
  cases cause with
  | tooManyIssues => rfl
  | _ => exact absurd rfl (h _)

theorem conclude_eq (console : Console) (report : Report) :
    conclude outburst console report
        (if report.issues.length = 3 then some .tooManyIssues else none) =
      ⟨console.warn (lines (issueLines outburst report.issues)),
        .exited (if report.issues.isEmpty then 0 else 1)⟩ := by
  rw [← complaint_eq]
  by_cases hfull : report.issues.length = 3
  · have hsome : report.issues.isEmpty = false := by
      rw [List.isEmpty_eq_false_iff]
      intro hnil
      simp [hnil] at hfull
    simp [conclude, hfull, hsome]
  · simp [conclude, hfull, Report.sick, Report.ok]

theorem conclude_of_talk {a : Analysis} {heard : List (Query × Nat)} {console console' : Console}
    {report report' : Report} {answers : List String}
    (h : Talk a depth heard console report console' report' answers) (hnone : report.issues = []) :
    let issues := heard.filterMap (issue? a depth)
    conclude outburst console' report'
        (if issues.length = 3 then some .tooManyIssues else none) =
      ⟨⟨console.out ++ lines answers,
        console.err ++
          lines (if report.chatty then heard.map fun p => "Query: " ++ p.1.expr.render else []) ++
          lines (issueLines outburst issues)⟩,
        .exited (if issues.isEmpty then 0 else 1)⟩ := by
  intro issues
  have hissues : report'.issues = issues := by
    rw [h.reported, hnone]
    rfl
  rw [← hissues, conclude_eq, Console.warn, h.out, h.err, info_queries]

theorem present_eq {program : Program} {chatty : Bool} {found : List (Definition × List Bool)}
    {failure : Option Abstract.Failure}
    (h : (analysisOf program).survey depth (analysisOf program).table.entries = (found, failure)) :
    present depth outburst program false { chatty } =
      let report : Report := { chatty, cautions := (analysisOf program).cautions }
      let console : Console := ⟨lines (found.map fun p => p.1.signature p.2), report.mention⟩
      match failure with
      | some failure => conclude outburst console report (some (interruptOf failure))
      | none =>
        let result := answerAll (analysisOf program) depth 0 program.queries report console
        conclude outburst result.1 result.2.1 result.2.2 := by
  have hwarn : (analysisOf program).warn { chatty } =
      { chatty, cautions := (analysisOf program).cautions } := by
    rw [Analysis.warn, Report.foldl_caution, List.nil_append]
  unfold analysisOf at h hwarn ⊢
  simp only [present, h, hwarn]
  cases failure <;> rfl

theorem run_eq_analyze {words : List String} {folder : Location}
    {read : Location → Except ReadFailure (List UInt8)} {options : Options}
    (h : parse words = .analyze options) :
    run depth outburst words folder read =
      analyze depth outburst options (folder.under (.ofString options.program))
        (read (folder.under (.ofString options.program))) := by
  cases words with
  | nil => cases h
  | cons word words => simp only [run, h, List.isEmpty_cons, Bool.false_eq_true, if_false]

theorem analyze_eq_present {options : Options} {location : Location}
    {content : Except ReadFailure (List UInt8)} {program : Program} {report' : Report}
    (hnames : ¬ location.names.any fun name => name.contains '\x00')
    (hload : Program.loadFile depth location content { chatty := options.verbosity ≠ 0 } =
      (report', .ok (some program))) :
    analyze depth outburst options location content =
      present depth outburst program options.quiet { chatty := options.verbosity ≠ 0 } := by
  simp only [analyze, if_neg hnames, hload, Program.report_of_loadFile hload]

theorem names_of_analyze {options : Options} {location : Location}
    {content : Except ReadFailure (List UInt8)}
    (h : ∀ cause, (analyze depth outburst options location content).ending ≠ .interrupted cause) :
    ¬ location.names.any fun name => name.contains '\x00' := by
  intro hnames
  refine h .unusablePath ?_
  rw [analyze, if_pos hnames]

end Runs

/-- The output is the signatures, one for each name in the order of first definitions and with the
content of the last one, and then the answers, one for each query that is not short of operands
among those that are evaluated: all of them, or those up to the third that is short of operands.
Each query of these that is short of operands makes one issue under its index, and the status says
whether there is any. Beside the output are said the cautions, each query if that is asked for, and
the issues. -/
theorem run_prints_signatures_and_answers {depth : Nat} {outburst : Outburst} {words : List String}
    {folder : Location} {read : Location → Except ReadFailure (List UInt8)} {options : Options}
    {program : Program} {report' : Report} (hparse : parse words = .analyze options)
    (hquiet : options.quiet = false)
    (hload : Program.loadFile depth (folder.under (.ofString options.program))
      (read (folder.under (.ofString options.program))) { chatty := options.verbosity ≠ 0 } =
        (report', .ok (some program)))
    (hending : ∀ cause, (run depth outburst words folder read).ending ≠ .interrupted cause) :
    let a := analysisOf program
    let heard := asked a depth 3 0 program.queries
    let issues := heard.filterMap (issue? a depth)
    ∃ signatures answers,
      List.Forall₂ (Signs program depth) (program.functions.map Definition.name).eraseDups
        signatures ∧
      List.Forall₂ (fun p line => Answers a depth p.1 line)
        (heard.filter fun p => (shortage? a depth p.1).isNone) answers ∧
      run depth outburst words folder read =
        ⟨⟨String.join ((signatures ++ answers).map (· ++ "\n")),
          String.join ((a.cautions.flatMap noticeLines ++
            (if options.verbosity = 0 then []
              else heard.map fun p => "Query: " ++ p.1.expr.render) ++
            issueLines outburst issues).map (· ++ "\n"))⟩,
          .exited (if issues.isEmpty then 0 else 1)⟩ := by
  intro a heard issues
  rw [run_eq_analyze hparse] at hending ⊢
  have hpresent : analyze depth outburst options _ _ = _ :=
    analyze_eq_present (names_of_analyze hending) hload
  cases hsurvey : (analysisOf program).survey depth (analysisOf program).table.entries with
  | mk found failure =>
    rw [hquiet, present_eq hsurvey] at hpresent
    rw [hpresent] at hending ⊢
    cases failure with
    | some failure =>
      have hcause := eq_tooManyIssues_of_conclude hending _ rfl
      cases failure <;> cases hcause
    | none =>
      have hsigns := signs_names (congrArg Prod.snd hsurvey)
      rw [hsurvey] at hsigns
      have hcause := eq_tooManyIssues_of_conclude hending
      obtain ⟨⟨answers, htalk⟩, hinterrupt⟩ := talk_answerAll 2 rfl rfl hcause
      refine ⟨_, answers, hsigns, htalk.answered, ?_⟩
      simp only [hinterrupt]
      rw [conclude_of_talk htalk rfl, ← lines_append, Report.mention, lines_map_text,
        ← lines_append, ← lines_append]
      simp only [decide_eq_true_eq, ite_not]
      rfl

/-! ### A run with everything in it -/

theorem rightUnique_signs (program : Program) (depth : Nat) :
    Relator.RightUnique (Signs program depth) := by
  rintro name _ _ ⟨f, strict, hf, hstrict, -, rfl⟩ ⟨f', strict', hf', hstrict', -, rfl⟩
  cases hf.symm.trans hf'
  cases hstrict.symm.trans hstrict'
  rfl

theorem rightUnique_answers (a : Analysis) (depth : Nat) :
    Relator.RightUnique fun (p : Query × Nat) line => Answers a depth p.1 line := by
  rintro p _ _ ⟨value, point, hvalue, hpoint, rfl⟩ ⟨value', point', hvalue', hpoint', rfl⟩
  generalize standardOutcome a depth p.1 = outcome at hvalue hvalue'
  generalize abstractOutcome a depth p.1 = outcome' at hpoint hpoint'
  cases hvalue <;> cases hvalue' <;> cases hpoint <;> cases hpoint' <;> rfl

/-- Bytes below 128 are the characters with these codes. -/
theorem decodeFrom_ascii {text : List Char} (h : ∀ c ∈ text, c.toNat < 0x80) (position : Nat)
    (read : List Char) : Utf8.decodeFrom position read (text.map fun c => UInt8.ofNat c.toNat) =
      .ok (read.reverse ++ text) := by
  induction text generalizing position read with
  | nil => rw [List.map_nil, Utf8.decodeFrom, List.append_nil]
  | cons c text ih =>
    rw [List.forall_mem_cons] at h
    have hbyte : (UInt8.ofNat c.toNat).toNat = c.toNat :=
      UInt8.toNat_ofNat_of_lt' (h.1.trans (by decide))
    have hlead : Utf8.lead? (UInt8.ofNat c.toNat) = some ⟨c.toNat, 0, 0x80, 0xbf⟩ := by
      simp only [Utf8.lead?, hbyte, if_pos h.1]
    rw [List.map_cons, Utf8.decodeFrom, hlead]
    simp only [Utf8.continuations, Char.ofNat_toNat]
    rw [ih h.2, List.reverse_cons, List.append_assoc, List.singleton_append]

/-- Two functions that call each other, and one that is strict. Of the queries, one runs out of
depth and three are short of operands; the last is never evaluated. -/
def tangled : Program where
  functions := [⟨"g", [], .call .plain "f" []⟩, ⟨"f", [], .call .plain "g" []⟩,
    ⟨"h", ["y"], .var "y"⟩]
  queries := [⟨.basic "add" [], []⟩, ⟨.call .plain "f" [], []⟩, ⟨.basic "sub" [], []⟩,
    ⟨.basic "mul" [], []⟩, ⟨.var "x", []⟩]

def tangledText : List Char :=
  "\x7b\"functions\":[\x7b\"name\":\"g\",\"body\":\x7b\"call\":\"f\"\x7d\x7d,".toList ++
    "\x7b\"name\":\"f\",\"body\":\x7b\"call\":\"g\"\x7d\x7d,".toList ++
    "\x7b\"name\":\"h\",\"params\":[\"y\"],\"body\":\x7b\"var\":\"y\"\x7d\x7d],".toList ++
    "\"queries\":[\x7b\"expr\":\x7b\"basic\":\"add\"\x7d\x7d,".toList ++
    "\x7b\"expr\":\x7b\"call\":\"f\"\x7d\x7d,\x7b\"expr\":\x7b\"basic\":\"sub\"\x7d\x7d,".toList ++
    "\x7b\"expr\":\x7b\"basic\":\"mul\"\x7d\x7d,\x7b\"expr\":\x7b\"var\":\"x\"\x7d\x7d]\x7d".toList

def tangledFile : List UInt8 := tangledText.map fun c => UInt8.ofNat c.toNat

def here : Location := ⟨.relative, []⟩

/-- The document of the program. -/
def tangledDocument : Json :=
  .obj [
    ("functions", .arr [
      .obj [("name", .str "g"), ("body", .obj [("call", .str "f")])],
      .obj [("name", .str "f"), ("body", .obj [("call", .str "g")])],
      .obj [("name", .str "h"), ("params", .arr [.str "y"]), ("body", .obj [("var", .str "y")])]]),
    ("queries", .arr [
      .obj [("expr", .obj [("basic", .str "add")])], .obj [("expr", .obj [("call", .str "f")])],
      .obj [("expr", .obj [("basic", .str "sub")])], .obj [("expr", .obj [("basic", .str "mul")])],
      .obj [("expr", .obj [("var", .str "x")])]])]

set_option maxRecDepth 4000 in
theorem read_tangled : Json.read (.document 5) tangledText = .ok tangledDocument := by cbv

set_option maxRecDepth 4000 in
theorem decode_tangledFile : Utf8.decode tangledFile = .ok tangledText := by
  have hascii : tangledText.all (fun c => c.toNat < 0x80) = true := by rfl
  exact decodeFrom_ascii (fun c hc => of_decide_eq_true (List.all_eq_true.1 hascii c hc)) 0 []

open Document in
theorem decodeProgram_tangled : decodeProgram tangledDocument = .ok tangled := by
  have hexpr (place : Place) (fields : List (String × Json)) :=
    decodeExpr_of_spelled (Form.spelled_ofFields fields) place
  have hcall (place : Place) (g : String) :
      decodeExpr place (.obj [("call", .str g)]) = .ok (.call .plain g []) := hexpr _ _
  have hvar (place : Place) (x : String) :
      decodeExpr place (.obj [("var", .str x)]) = .ok (.var x) := hexpr _ _
  have hbasic (place : Place) (operator : String) :
      decodeExpr place (.obj [("basic", .str operator)]) = .ok (.basic operator []) := hexpr _ _
  simp [tangledDocument, decodeProgram, decodeList, decodeItems, decodeDefinition, decodeQuery,
    decodeName, decodeBindings, hcall, hvar, hbasic, bind, Except.bind, pure, Except.pure,
    List.lookup_cons, tangled]

set_option maxRecDepth 4000 in
theorem loadFile_tangled (report : Report) :
    Program.loadFile 5 (here.under (.ofString "a")) (.ok tangledFile) report =
      (report, .ok (some tangled)) := by
  have hlines : unifyNewlines tangledText = tangledText := by rfl
  simp only [Program.loadFile, decode_tangledFile, hlines, Program.load, read_tangled,
    decodeProgram_tangled]

theorem ending_tangled (cause : Interrupt) :
    (run 5 (.pick 0 0 0) ["a"] here fun _ => .ok tangledFile).ending ≠ .interrupted cause := by
  have hparse : parse ["a"] = .analyze ⟨"a", 0, false⟩ := by rfl
  have hnames : ¬ (here.under (.ofString "a")).names.any fun name => name.contains '\x00' := by
    have hunder : here.under (.ofString "a") = ⟨.relative, ["a"]⟩ := by rfl
    rw [hunder]
    simp
  have hpresent : analyze 5 (.pick 0 0 0) ⟨"a", 0, false⟩ _ _ = _ :=
    analyze_eq_present hnames (loadFile_tangled _)
  have hsurvey : (analysisOf tangled).survey 5 (analysisOf tangled).table.entries =
      ([(⟨"g", [], .call .plain "f" []⟩, []), (⟨"f", [], .call .plain "g" []⟩, []),
        (⟨"h", ["y"], .var "y"⟩, [true])], none) := by rfl
  have hinterrupt (console : Console) : (answerAll (analysisOf tangled) 5 0 tangled.queries
      { chatty := (0 : Nat) ≠ 0, cautions := (analysisOf tangled).cautions } console).2.2 =
        some .tooManyIssues := by rfl
  rw [run_eq_analyze hparse, hpresent, present_eq hsurvey]
  simp only [hinterrupt]
  exact fun h => nomatch h

theorem cautionLines_tangled : (analysisOf tangled).cautions.flatMap noticeLines =
    ["These functions call each other in a cycle. Memo tables are keyed only by " ++
        "argument, so I cannot tell their recursive calls apart.",
      " - The cycle is: f, g", " - Treating them as strict in nothing."] := by
  have hcycles : (analysisOf tangled).cycles = [["f", "g"]] := by rfl
  have hordered : ["f", "g"].Pairwise (· < ·) := List.pairwise_pair.2 (by decide)
  rw [Analysis.cautions, hcycles, List.map_singleton, List.flatMap_singleton, noticeLines,
    Notice.remarks_mutualRecursion hordered]
  rfl

theorem asked_tangled : asked (analysisOf tangled) 5 3 0 tangled.queries =
    [(⟨.basic "add" [], []⟩, 0), (⟨.call .plain "f" [], []⟩, 1), (⟨.basic "sub" [], []⟩, 2),
      (⟨.basic "mul" [], []⟩, 3)] := by rfl

theorem signs_tangled :
    List.Forall₂ (Signs tangled 5) ["g", "f", "h"] ["g()", "f()", "h(y!)"] :=
  .cons ⟨_, [], rfl, rfl, rfl, rfl⟩ (.cons ⟨_, [], rfl, rfl, rfl, rfl⟩
    (.cons ⟨_, [true], rfl, rfl, rfl, rfl⟩ .nil))

theorem answers_tangled : Answers (analysisOf tangled) 5 ⟨.call .plain "f" [], []⟩
    "Call('f', ()) => undefined (still recursing at the interpreter's depth limit) / ONE" :=
  ⟨_, _, .tooDeep, .one, by decide⟩

theorem tangled_prints :
    parse ["a"] = .analyze ⟨"a", 0, false⟩ ∧
    run 5 (.pick 0 0 0) ["a"] here (fun _ => .ok tangledFile) =
      ⟨⟨String.join (["g()", "f()", "h(y!)",
            "Call('f', ()) => undefined (still recursing at the interpreter's depth limit) / ONE"]
          |>.map (· ++ "\n")),
        String.join (([
            "These functions call each other in a cycle. Memo tables are keyed only by " ++
              "argument, so I cannot tell their recursive calls apart.",
            " - The cycle is: f, g", " - Treating them as strict in nothing."] ++
          issueLines (.pick 0 0 0)
            [⟨"This cannot be evaluated.", ["queries[0].expr"], ["add needs 2 arguments; got 0."]⟩,
              ⟨"This cannot be evaluated.", ["queries[2].expr"], ["sub needs 2 arguments; got 0."]⟩,
              ⟨"This cannot be evaluated.", ["queries[3].expr"],
                ["mul needs 2 arguments; got 0."]⟩]).map
          (· ++ "\n"))⟩,
        .exited 1⟩ := by
  have hparse : parse ["a"] = .analyze ⟨"a", 0, false⟩ := by rfl
  obtain ⟨signatures, answers, hsigns, hanswers, hrun⟩ :=
    run_prints_signatures_and_answers hparse rfl (loadFile_tangled _) ending_tangled
  rw [asked_tangled] at hanswers
  rw [asked_tangled, cautionLines_tangled] at hrun
  obtain rfl := List.right_unique_forall₂' (rightUnique_signs tangled 5) hsigns signs_tangled
  obtain rfl := List.right_unique_forall₂' (rightUnique_answers _ 5) hanswers
    (.cons answers_tangled .nil)
  exact ⟨hparse, hrun⟩

end CommandLine

end StrictnessAnalysis
