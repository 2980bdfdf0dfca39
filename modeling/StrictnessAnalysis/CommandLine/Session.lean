import StrictnessAnalysis.Analysis
import StrictnessAnalysis.CommandLine.Arguments
import StrictnessAnalysis.Expr.Printer
import StrictnessAnalysis.Loading
import StrictnessAnalysis.Standard

/-! A run of the command line: a program is loaded and analysed, the signature of each function is
printed, and its queries are evaluated in both semantics. What a run prints and how it ends is a
value; nothing is read but the file that the run asks for. -/

namespace StrictnessAnalysis.CommandLine

open Text

/-- What was printed so far. -/
structure Console where
  out : String := ""
  err : String := ""

def Console.say (c : Console) (line : String) : Console := { c with out := c.out ++ line ++ "\n" }

def Console.warn (c : Console) (text : String) : Console := { c with err := c.err ++ text }

/-- How a run ends: with an exit status, without one, or by an interrupt that nothing caught. -/
inductive Ending
  | exited (status : Nat)
  | returned
  | interrupted (cause : Interrupt)

structure Outcome where
  console : Console
  ending : Ending

/-! ### Texts -/

def usage : String := "usage: strictness [-h] [-v] [-q] program\n"

/-- What is printed when nothing is asked. -/
def explanation : String := lines [
  "This is a strictness analyzer for a tiny first-order functional language.",
  "",
  usage,
  "",
  "For example:",
  "",
  "    strictness program.json",
  "",
  "will print which parameters each function in program.json is strict in,",
  "and then evaluate each query in the program both concretely and abstractly.",
  "",
  "    strictness -h",
  "",
  "will explain all the arguments."]

def help : String := usage ++ lines [
  "",
  "Strictness analysis by abstract interpretation.",
  "",
  "positional arguments:",
  "  program        a JSON program document; see strictness.front_end for the",
  "                 format.",
  "",
  "options:",
  "  -h, --help     show this help message and exit",
  "  -v, --verbose  Chatter about progress on stderr.",
  "  -q, --quiet    Only print the strictness of each function; skip the queries."]

/-- What is said of a report that has taken all the issues it can. -/
def surrender : String := lines [
  String.join (List.replicate 35 " *"),
  "Giving up after a few issues. One crisis at a time, eh?"]

/-! ### Queries -/

/-- The interrupt that a failure of the abstract semantics is. -/
def interruptOf : Abstract.Failure → Interrupt
  | .tooDeep => .tooDeep
  | .unsolved _ => .unsolved

/-- What comes of a query: a line, an operator short of operands, or an interrupt. -/
inductive Answer
  | line (text : String)
  | shortage (cause : Operator.Shortage)
  | interrupted (cause : Interrupt)

/-- Evaluates a query in both semantics. Running out of depth counts as undefined in the standard
one, but not in the abstract one. -/
def answer (a : Analysis) (depth : Nat) (q : Query) : Answer :=
  let env := override (fun _ => none) q.env
  let finish (value : String) : Answer :=
    match a.query depth (fun x => Definedness.ofValue (env x)) q.expr with
    | .ok point => .line (q.expr.render ++ " => " ++ value ++ " / " ++ point.name)
    | .error failure => .interrupted (interruptOf failure)
  match Standard.eval a.table depth env q.expr with
  | .ok none => finish "undefined"
  | .ok (some n) =>
    match decimal? n with
    | some value => finish value
    | none => .interrupted .tooManyDigits
  | .error .tooDeep => finish "undefined (still recursing at the interpreter's depth limit)"
  | .error (.shortage cause) => .shortage cause

/-- The place of the expression of a query. -/
def queryPlace (i : Nat) : Document.Place := [.key "queries", .index i, .key "expr"]

/-- Answers queries in order, of which the first has index `i`, until one interrupts or the report
has taken all the issues it can. -/
def answerAll (a : Analysis) (depth : Nat) :
    (i : Nat) → List Query → Report → Console → Console × Report × Option Interrupt
  | _, [], report, console => (console, report, none)
  | i, q :: rest, report, console =>
    let console := console.warn (report.info ["Query:", q.expr.render])
    match answer a depth q with
    | .line text => answerAll a depth (i + 1) rest report (console.say text)
    | .interrupted cause => (console, report, some cause)
    | .shortage cause =>
      let (report, exhausted) :=
        report.issue (.undefinedOperation (queryPlace i).render cause.message)
      if exhausted then (console, report, some .tooManyIssues)
      else answerAll a depth (i + 1) rest report console

/-! ### Runs -/

/-- The end of a run: its issues decide the status. -/
def conclude (outburst : Outburst) (console : Console) (report : Report)
    (interrupt : Option Interrupt) : Outcome :=
  match interrupt with
  | some .tooManyIssues => ⟨console.warn (report.complaint outburst ++ surrender), .exited 1⟩
  | some cause => ⟨console, .interrupted cause⟩
  | none => ⟨console.warn (report.complaint outburst), .exited (if report.sick then 1 else 0)⟩

/-- Prints what is asked of a program that was loaded. -/
def present (depth : Nat) (outburst : Outburst) (program : Program) (quiet : Bool)
    (report : Report) : Outcome :=
  let a := Analysis.ofTable (Table.ofList program.functions)
  let report := a.warn report
  let (found, failure) := a.survey depth a.table.entries
  let signatures := lines (found.map fun (f, strict) => f.signature strict)
  let console : Console := ⟨signatures, report.mention⟩
  match failure with
  | some failure => conclude outburst console report (some (interruptOf failure))
  | none =>
    if quiet then conclude outburst console report none
    else
      let (console, report, interrupt) := answerAll a depth 0 program.queries report console
      conclude outburst console report interrupt

/-- Analyses the program in a file. Its document may nest as deep as `depth`, and as many
expressions may be under evaluation at once. -/
def analyze (depth : Nat) (outburst : Outburst) (options : Options) (location : Location)
    (content : Except ReadFailure (List UInt8)) : Outcome :=
  let report : Report := { chatty := options.verbosity ≠ 0 }
  if location.names.any fun name => name.contains '\x00' then ⟨{}, .interrupted .unusablePath⟩
  else
    match Program.loadFile depth location content report with
    | (report, .error cause) => conclude outburst {} report (some cause)
    | (report, .ok none) => conclude outburst {} report none
    | (report, .ok (some program)) => present depth outburst program options.quiet report

/-- The location of the file that a command line asks for, seen from a folder. -/
def target? (words : List String) (folder : Location) : Option Location :=
  match parse words with
  | .analyze options => some (folder.under (Location.ofString options.program))
  | _ => none

/-- The depth of a run from the command line. -/
def depthLimit : Nat := 990

/-- Runs a command line in a folder. -/
def run (depth : Nat) (outburst : Outburst) (words : List String) (folder : Location)
    (read : Location → Except ReadFailure (List UInt8)) : Outcome :=
  if words.isEmpty then ⟨{ out := explanation }, .returned⟩
  else
    match parse words with
    | .help => ⟨{ out := help }, .exited 0⟩
    | .reject rejection =>
      ⟨{ err := usage ++ "strictness: error: " ++ rejection.message ++ "\n" }, .exited 2⟩
    | .analyze options =>
      let location := folder.under (Location.ofString options.program)
      analyze depth outburst options location (read location)

end StrictnessAnalysis.CommandLine
